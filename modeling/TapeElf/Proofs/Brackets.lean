import TapeElf.Proofs.Acceptance
import TapeElf.Proofs.Positions

/-!
# Where the brackets of a source are wrong

Brackets are said here by counting them, apart from how a source is read.

* `Overclosed bytes`: there are more `]` than `[`;
* `Nested bytes`: no beginning is overclosed, and there are as many `]` as `[`;
* `Closed rest`: a `[` right before `rest` has its `]` in it, with nested bytes between them;
* `Misplaced source pre d`: the bracket to complain about stands behind `pre`, and `d` is the complaint;
* `Standing bytes stack`: the open brackets of what was read, each by what stands before it. This is what the check
  keeps, and what every byte preserves.
-/

namespace TapeElf

/-! ## Counting brackets -/

def openings (bytes : Bytes) : Nat := bytes.count Command.loopOpen.byte

def closings (bytes : Bytes) : Nat := bytes.count Command.loopClose.byte

/-- There are more `]` than `[`. -/
def Overclosed (bytes : Bytes) : Prop := openings bytes < closings bytes

/-- Every bracket has its match. -/
structure Nested (bytes : Bytes) : Prop where
  below : ∀ p, p <+: bytes → ¬ Overclosed p
  total : openings bytes = closings bytes

/-- A `[` right before `rest` has its match. -/
def Closed (rest : Bytes) : Prop := ∃ body after, rest = body ++ Command.loopClose.byte :: after ∧ Nested body

/-- The bracket to complain about stands behind `pre`. -/
inductive Misplaced (source : Bytes) : Bytes → Diagnostic → Prop
  /-- The shortest overclosed beginning ends with it. -/
  | closesNothing {pre rest : Bytes} (split : source = pre ++ Command.loopClose.byte :: rest)
      (overclosed : Overclosed (pre ++ [Command.loopClose.byte])) (shortest : ∀ p, p <+: pre → ¬ Overclosed p) :
      Misplaced source pre
        { kind := .unmatchedClose, message := "found ']' without a matching '['", instruction := some ']',
          location := some (.ofByte pre Command.loopClose.byte) }
  /-- No beginning is overclosed, and it is the leftmost `[` without a match. -/
  | staysOpen {pre rest : Bytes} (below : ∀ p, p <+: source → ¬ Overclosed p)
      (split : source = pre ++ Command.loopOpen.byte :: rest) (unmatched : ¬ Closed rest)
      (leftmost : ∀ pre' rest', source = pre' ++ Command.loopOpen.byte :: rest' → pre'.length < pre.length →
        Closed rest') :
      Misplaced source pre
        { kind := .unmatchedOpen, message := "reached the end of the file with an unmatched '['",
          instruction := some '[', location := some (.ofByte pre Command.loopOpen.byte) }

@[simp] lemma openings_append (a b : Bytes) : openings (a ++ b) = openings a + openings b := List.count_append
@[simp] lemma closings_append (a b : Bytes) : closings (a ++ b) = closings a + closings b := List.count_append

lemma openings_cons (b : UInt8) (bytes : Bytes) : openings (b :: bytes) = openings [b] + openings bytes :=
  openings_append [b] bytes

lemma closings_cons (b : UInt8) (bytes : Bytes) : closings (b :: bytes) = closings [b] + closings bytes :=
  closings_append [b] bytes

@[simp] lemma openings_open : openings [Command.loopOpen.byte] = 1 := rfl
@[simp] lemma closings_open : closings [Command.loopOpen.byte] = 0 := rfl
@[simp] lemma openings_close : openings [Command.loopClose.byte] = 0 := rfl
@[simp] lemma closings_close : closings [Command.loopClose.byte] = 1 := rfl

lemma prefix_of_split {source pre rest : Bytes} {b : UInt8} (h : source = pre ++ b :: rest) : pre ++ [b] <+: source :=
  ⟨rest, by rw [h, List.append_assoc, List.singleton_append]⟩

/-- Nothing is overclosed in what follows bytes in which nothing is, if nothing is overclosed in it by itself. -/
lemma below_append {a b : Bytes} (ha : ∀ p, p <+: a → ¬ Overclosed p) (hb : ∀ p, p <+: b → ¬ Overclosed p) :
    ∀ p, p <+: a ++ b → ¬ Overclosed p := by
  intro p hp
  rcases List.prefix_or_prefix_of_prefix hp (List.prefix_append a b) with hp | ⟨q, rfl⟩
  · exact ha p hp
  · have hwhole := ha a List.prefix_rfl
    have hpart := hb q ((List.prefix_append_right_inj a).mp hp)
    simp only [Overclosed, openings_append, closings_append] at *
    omega

namespace Nested

lemma nil : Nested [] where
  below p hp := by
    rw [List.prefix_nil.mp hp]
    exact Nat.lt_irrefl 0
  total := rfl

lemma append {a b : Bytes} (ha : Nested a) (hb : Nested b) : Nested (a ++ b) where
  below := below_append ha.below hb.below
  total := by rw [openings_append, closings_append, ha.total, hb.total]

lemma below_open : ∀ p, p <+: [Command.loopOpen.byte] → ¬ Overclosed p := by
  intro p hp
  rcases List.prefix_cons_iff.mp hp with rfl | ⟨q, rfl, hq⟩
  · exact Nat.lt_irrefl 0
  · rw [List.prefix_nil.mp hq, Overclosed]
    decide

lemma loop {body : Bytes} (h : Nested body) :
    Nested (Command.loopOpen.byte :: (body ++ [Command.loopClose.byte])) := by
  have hopens : openings (Command.loopOpen.byte :: (body ++ [Command.loopClose.byte])) = openings body + 1 := by
    rw [openings_cons, openings_append, openings_open, openings_close, Nat.add_zero, Nat.add_comm]
  have hcloses : closings (Command.loopOpen.byte :: (body ++ [Command.loopClose.byte])) = closings body + 1 := by
    rw [closings_cons, closings_append, closings_open, closings_close, Nat.zero_add]
  refine ⟨fun p hp => ?_, by rw [hopens, hcloses, h.total]⟩
  rw [← List.cons_append, List.prefix_concat_iff] at hp
  rcases hp with rfl | hp
  · rw [List.cons_append, Overclosed, hopens, hcloses, h.total]
    exact Nat.lt_irrefl _
  · exact below_append below_open h.below p hp

lemma single {b : UInt8} (hopen : b ≠ Command.loopOpen.byte) (hclose : b ≠ Command.loopClose.byte) : Nested [b] := by
  have hcount : openings [b] = 0 ∧ closings [b] = 0 := by
    simp [openings, closings, hopen, hclose]
  refine ⟨fun p hp => ?_, hcount.1.trans hcount.2.symm⟩
  rcases List.prefix_cons_iff.mp hp with rfl | ⟨q, rfl, hq⟩
  · exact Nat.lt_irrefl 0
  · rw [List.prefix_nil.mp hq, Overclosed, hcount.1, hcount.2]
    exact Nat.lt_irrefl 0

end Nested

/-! ## Matches -/

/-- The first beginning that is overclosed is nested up to its last byte, which is a `]`. -/
lemma exists_nested_of_overclosed {bytes : Bytes} (h : ∃ p, p <+: bytes ∧ Overclosed p) :
    ∃ body, body ++ [Command.loopClose.byte] <+: bytes ∧ Nested body := by
  induction bytes using List.reverseRecOn with
  | nil =>
    obtain ⟨p, hp, hover⟩ := h
    exact absurd hover (Nested.nil.below p hp)
  | append_singleton bytes b ih =>
    by_cases hbefore : ∃ p, p <+: bytes ∧ Overclosed p
    · obtain ⟨body, hbody, hnested⟩ := ih hbefore
      exact ⟨body, hbody.trans (List.prefix_append _ _), hnested⟩
    · have hbelow : ∀ p, p <+: bytes → ¬ Overclosed p := fun p hp hover => hbefore ⟨p, hp, hover⟩
      obtain ⟨p, hp, hover⟩ := h
      rcases List.prefix_concat_iff.mp hp with rfl | hp
      · have hall := hbelow bytes List.prefix_rfl
        have hb : b = Command.loopClose.byte := by
          by_contra hne
          have : closings [b] = 0 := by simp [closings, hne]
          simp only [Overclosed, openings_append, closings_append] at hover hall
          omega
        subst hb
        refine ⟨bytes, List.prefix_rfl, hbelow, ?_⟩
        simp only [Overclosed, openings_append, closings_append, openings_close, closings_close] at hover hall
        omega
      · exact absurd hover (hbelow p hp)

theorem closed_iff {rest : Bytes} : Closed rest ↔ ∃ p, p <+: rest ∧ Overclosed p := by
  constructor
  · rintro ⟨body, after, rfl, hbody⟩
    refine ⟨body ++ [Command.loopClose.byte], prefix_of_split rfl, ?_⟩
    have := hbody.total
    simp only [Overclosed, openings_append, closings_append, openings_close, closings_close]
    omega
  · intro h
    obtain ⟨body, ⟨after, rfl⟩, hbody⟩ := exists_nested_of_overclosed h
    exact ⟨body, after, by simp, hbody⟩

lemma Nested.closed {pre rest : Bytes} (h : Nested (pre ++ Command.loopOpen.byte :: rest)) : Closed rest := by
  have hpre := h.below pre (List.prefix_append _ _)
  have htotal := h.total
  rw [openings_append, closings_append, openings_cons, closings_cons, openings_open, closings_open] at htotal
  refine closed_iff.mpr ⟨rest, List.prefix_rfl, ?_⟩
  simp only [Overclosed] at hpre ⊢
  omega

lemma Closed.append {rest : Bytes} (h : Closed rest) (more : Bytes) : Closed (rest ++ more) := by
  obtain ⟨p, hp, hover⟩ := closed_iff.mp h
  exact closed_iff.mpr ⟨p, hp.trans (List.prefix_append _ _), hover⟩

/-! ## What is complained about is one bracket -/

section

variable {source pre pre' : Bytes} {d d' : Diagnostic}

lemma Nested.not_misplaced (h : Nested source) : ¬ Misplaced source pre d := by
  intro hd
  cases hd with
  | closesNothing split overclosed _ => exact h.below _ (prefix_of_split split) overclosed
  | staysOpen _ split unmatched _ =>
    rw [split] at h
    exact unmatched h.closed

lemma not_shorter {rest rest' : Bytes}
    (split : pre ++ Command.loopClose.byte :: rest = pre' ++ Command.loopClose.byte :: rest')
    (overclosed : Overclosed (pre ++ [Command.loopClose.byte])) (shortest : ∀ p, p <+: pre' → ¬ Overclosed p) :
    pre'.length ≤ pre.length := by
  by_contra hlt
  have hpre := prefix_of_split split.symm
  refine shortest _ (List.prefix_of_prefix_length_le hpre (List.prefix_append pre' _) ?_) overclosed
  rw [List.length_append, List.length_singleton]
  omega

theorem Misplaced.unique (h : Misplaced source pre d) (h' : Misplaced source pre' d') : d = d' := by
  cases h with
  | closesNothing split overclosed shortest =>
    cases h' with
    | closesNothing split' overclosed' shortest' =>
      have hlen := Nat.le_antisymm (not_shorter (split'.symm.trans split) overclosed' shortest)
        (not_shorter (split.symm.trans split') overclosed shortest')
      obtain ⟨rfl, -⟩ := List.append_inj (split.symm.trans split') hlen
      rfl
    | staysOpen below' _ _ _ => exact absurd overclosed (below' _ (prefix_of_split split))
  | staysOpen below split unmatched leftmost =>
    cases h' with
    | closesNothing split' overclosed' _ => exact absurd overclosed' (below _ (prefix_of_split split'))
    | staysOpen _ split' unmatched' leftmost' =>
      have hle : pre'.length ≤ pre.length := Nat.le_of_not_lt fun hlt => unmatched (leftmost' _ _ split hlt)
      have hge : pre.length ≤ pre'.length := Nat.le_of_not_lt fun hlt => unmatched' (leftmost _ _ split' hlt)
      obtain ⟨rfl, -⟩ := List.append_inj (split.symm.trans split') (Nat.le_antisymm hge hle)
      rfl

end

/-! ## Reading a source -/

/-- The brackets of `bytes` that are still open, the last one first, each by what stands before it. -/
inductive Standing : Bytes → List Bytes → Prop
  | outside {bytes : Bytes} (h : Nested bytes) : Standing bytes []
  | inside {pre body : Bytes} {stack : List Bytes} (outer : Standing pre stack) (h : Nested body) :
      Standing (pre ++ Command.loopOpen.byte :: body) (pre :: stack)

namespace Standing

variable {bytes pre : Bytes} {stack : List Bytes}

lemma nested (h : Standing bytes []) : Nested bytes := by
  cases h
  assumption

lemma append (h : Standing bytes stack) {more : Bytes} (hmore : Nested more) : Standing (bytes ++ more) stack := by
  cases h with
  | outside h => exact .outside (h.append hmore)
  | inside outer h =>
    rw [List.append_assoc, List.cons_append]
    exact .inside outer (h.append hmore)

lemma opens (h : Standing bytes stack) : Standing (bytes ++ [Command.loopOpen.byte]) (bytes :: stack) :=
  .inside h .nil

lemma closes (h : Standing bytes (pre :: stack)) : Standing (bytes ++ [Command.loopClose.byte]) stack := by
  cases h with
  | inside outer h =>
    rw [List.append_assoc, List.cons_append]
    exact outer.append h.loop

lemma below_body {body : Bytes} (h : Nested body) :
    ∀ p, p <+: Command.loopOpen.byte :: body → ¬ Overclosed p :=
  below_append Nested.below_open h.below

lemma not_overclosed (h : Standing bytes stack) : ∀ p, p <+: bytes → ¬ Overclosed p := by
  induction h with
  | outside h => exact h.below
  | inside _ h ih => exact below_append ih (below_body h)

/-- The oldest open bracket has nested bytes before it, and nothing behind it closes it. -/
lemma exists_oldest (h : Standing bytes stack) (hpre : stack.getLast? = some pre) :
    ∃ rest, bytes = pre ++ Command.loopOpen.byte :: rest ∧ Nested pre ∧ ¬ Closed rest := by
  suffices key : ∃ rest, bytes = pre ++ Command.loopOpen.byte :: rest ∧ Nested pre ∧
      ∀ p, p <+: rest → ¬ Overclosed p by
    obtain ⟨rest, hbytes, hnested, hbelow⟩ := key
    refine ⟨rest, hbytes, hnested, fun hclosed => ?_⟩
    obtain ⟨p, hp, hover⟩ := closed_iff.mp hclosed
    exact hbelow p hp hover
  induction h with
  | outside => cases hpre
  | @inside outermost body stack outer h ih =>
    rcases stack with _ | ⟨next, stack⟩
    · cases hpre
      exact ⟨body, rfl, outer.nested, h.below⟩
    · rw [List.getLast?_cons_cons] at hpre
      obtain ⟨rest, rfl, hnested, hbelow⟩ := ih hpre
      exact ⟨rest ++ Command.loopOpen.byte :: body, by simp, hnested, below_append hbelow (below_body h)⟩

lemma misplaced_oldest (h : Standing bytes stack) (hpre : stack.getLast? = some pre) :
    Misplaced bytes pre (unmatchedOpen (Location.start.after (pre ++ [Command.loopOpen.byte]))) := by
  obtain ⟨rest, hbytes, hnested, hunmatched⟩ := h.exists_oldest hpre
  rw [Location.after_concat pre (by decide)]
  refine .staysOpen h.not_overclosed hbytes hunmatched fun pre' rest' hsplit hlt => ?_
  -- a `[` further to the left lies in `pre`, which is nested
  have hprefix : pre' ++ [Command.loopOpen.byte] <+: pre := by
    refine List.prefix_of_prefix_length_le (prefix_of_split hsplit) ⟨_, hbytes.symm⟩ ?_
    rw [List.length_append, List.length_singleton]
    exact hlt
  obtain ⟨between, rfl⟩ := hprefix
  rw [List.append_assoc, List.singleton_append] at hnested
  have hrest : rest' = between ++ Command.loopOpen.byte :: rest := by
    rw [hsplit] at hbytes
    simpa using hbytes
  rw [hrest]
  exact hnested.closed.append _

lemma misplaced_close (h : Standing bytes []) (rest : Bytes) :
    Misplaced (bytes ++ Command.loopClose.byte :: rest) bytes
      (unmatchedClose (Location.start.after (bytes ++ [Command.loopClose.byte]))) := by
  rw [Location.after_concat bytes (by decide)]
  refine .closesNothing rfl ?_ h.not_overclosed
  rw [Overclosed, openings_append, closings_append, h.nested.total, openings_close, closings_close]
  exact Nat.lt_succ_self _

/-- **What the check finds, wherever it stands.** -/
theorem bracketFault?_cases (h : Standing bytes stack) (rest : Bytes) :
    (bracketFault? (Location.start.after bytes)
        (stack.map fun pre => Location.start.after (pre ++ [Command.loopOpen.byte])) rest = none ∧
      Nested (bytes ++ rest)) ∨
    ∃ pre d, bracketFault? (Location.start.after bytes)
        (stack.map fun pre => Location.start.after (pre ++ [Command.loopOpen.byte])) rest = some d ∧
      Misplaced (bytes ++ rest) pre d := by
  induction rest generalizing bytes stack with
  | nil =>
    rw [bracketFault?, List.getLast?_map, List.append_nil]
    cases hlast : stack.getLast? with
    | none =>
      rw [List.getLast?_eq_none_iff.mp hlast] at h
      exact .inl ⟨rfl, h.nested⟩
    | some pre => exact .inr ⟨pre, _, rfl, h.misplaced_oldest hlast⟩
  | cons b rest ih =>
    have hnext {stack' : List Bytes} (h : Standing (bytes ++ [b]) stack') := ih h
    simp only [Location.after_append, Location.after_cons, Location.after_nil, List.append_assoc,
      List.singleton_append] at hnext
    unfold bracketFault?
    simp only [Location.after_append, Location.after_cons, Location.after_nil]
    have hother (hopen : Command.ofByte? b ≠ some .loopOpen) (hclose : Command.ofByte? b ≠ some .loopClose) :
        Standing (bytes ++ [b]) stack := by
      refine h.append (.single (fun hb => hopen ?_) (fun hb => hclose ?_))
      · rw [hb, Command.ofByte?_byte]
      · rw [hb, Command.ofByte?_byte]
    cases hc : Command.ofByte? b with
    | none => exact hnext (hother (by simp [hc]) (by simp [hc]))
    | some c =>
      cases c with
      | loopOpen =>
        obtain rfl := Command.ofByte?_eq_some_iff.mp hc
        exact hnext h.opens
      | loopClose =>
        obtain rfl := Command.ofByte?_eq_some_iff.mp hc
        rcases stack with _ | ⟨pre, stack⟩
        · have hclose := h.misplaced_close rest
          rw [Location.after_append] at hclose
          exact .inr ⟨bytes, _, rfl, hclose⟩
        · exact hnext h.closes
      | _ => exact hnext (hother (by simp [hc]) (by simp [hc]))

end Standing

lemma unbalanced?_cases (source : Bytes) :
    (unbalanced? source = none ∧ Nested source) ∨ ∃ pre d, unbalanced? source = some d ∧ Misplaced source pre d :=
  (Standing.outside .nil).bracketFault?_cases source

lemma unbalanced?_eq_none_iff_nested {source : Bytes} : unbalanced? source = none ↔ Nested source := by
  rcases unbalanced?_cases source with ⟨hnone, hnested⟩ | ⟨pre, d, hd, hmisplaced⟩
  · exact ⟨fun _ => hnested, fun _ => hnone⟩
  · rw [hd]
    constructor
    · intro h
      cases h
    · exact fun hnested => absurd hmisplaced hnested.not_misplaced

lemma unbalanced?_eq_some_iff {source : Bytes} {d : Diagnostic} :
    unbalanced? source = some d ↔ ∃ pre, Misplaced source pre d := by
  rcases unbalanced?_cases source with ⟨hnone, hnested⟩ | ⟨pre, d', hd', hmisplaced⟩
  · rw [hnone]
    constructor
    · intro h
      cases h
    · rintro ⟨_, h⟩
      exact absurd h hnested.not_misplaced
  · rw [hd', Option.some.injEq]
    constructor
    · rintro rfl
      exact ⟨pre, hmisplaced⟩
    · rintro ⟨_, h⟩
      exact hmisplaced.unique h

/-! ## Texts -/

section

variable {source pre : Bytes} {d : Diagnostic}

lemma Misplaced.exists_command (h : Misplaced source pre d) :
    ∃ (c : Command) (rest : Bytes), source = pre ++ c.byte :: rest ∧ d.instruction = some c.char ∧
      d.location = some (.ofByte pre c.byte) := by
  cases h with
  | closesNothing split => exact ⟨.loopClose, _, split, rfl, rfl⟩
  | staysOpen _ split => exact ⟨.loopOpen, _, split, rfl, rfl⟩

/-- In a text, the bracket is a character, and its column counts characters. -/
lemma Misplaced.exists_char {text : String} (h : Misplaced (Bytes.ofString text) pre d) :
    ∃ (before : List Char) (c : Char) (after : List Char), text.toList = before ++ c :: after ∧
      Bytes.ofString (String.ofList before) = pre ∧ d.instruction = some c ∧ d.location = some (.ofChar before) := by
  obtain ⟨c, rest, hsplit, hinstruction, hlocation⟩ := h.exists_command
  have hbyte : c.byte.toNat < 128 ∧ c.byte ≠ 0x0a ∧ Char.ofNat c.byte.toNat = c.char := by
    cases c <;> decide
  obtain ⟨hascii, hnewline, hchar⟩ := hbyte
  rw [← String.ofList_toList (s := text), Bytes.ofString_ofList] at hsplit
  obtain ⟨before, after, htext, rfl⟩ := Location.exists_char_of_byte hascii hsplit
  rw [hchar] at htext
  rw [Location.ofByte_flatMap before hascii hnewline] at hlocation
  exact ⟨before, c.char, after, htext, Bytes.ofString_ofList before, hinstruction, hlocation⟩

end

/-- **The optimiser refuses exactly the sources with a misplaced bracket, and points at it.** Its line is one more than
the newlines before it, and its column counts the bytes of its line up to it that continue no character; in a text these
are the characters. -/
theorem optimize_points_at_bracket {source : Bytes} (hlen : source.length < 2 ^ 63) :
    ((∃ ops, optimize source = .ok ops) ↔ Nested source) ∧
    (∀ d, optimize source = .error d ↔ ∃ pre, Misplaced source pre d) ∧
    ∀ (text : String) (pre : Bytes) (d : Diagnostic), source = Bytes.ofString text → Misplaced source pre d →
      ∃ (before : List Char) (c : Char) (after : List Char), text.toList = before ++ c :: after ∧
        Bytes.ofString (String.ofList before) = pre ∧ d.instruction = some c ∧
        d.location = some (.ofChar before) := by
  refine ⟨?_, fun d => ?_, ?_⟩
  · rw [← unbalanced?_eq_none_iff_nested]
    constructor
    · rintro ⟨ops, hops⟩
      cases hd : unbalanced? source with
      | none => rfl
      | some d =>
        simp only [optimize, hd] at hops
        cases hops
    · exact fun hnone => optimize_of_balanced (unbalanced?_eq_none_iff.mp hnone) hlen
  · rw [← unbalanced?_eq_some_iff]
    constructor
    · exact fun herr => unbalanced?_of_optimize herr hlen
    · intro hd
      simp only [optimize, hd]
  · rintro text pre d rfl hmisplaced
    exact hmisplaced.exists_char

/-- The UTF-8 of `é`, a newline and ` é[[]`: the first `[` stays open, in the third column of the second line. -/
theorem optimize_points_at_bracket_behind_accent :
    ([0xc3, 0xa9, 0x0a, 0x20, 0xc3, 0xa9, 91, 91, 93] : Bytes).length < 2 ^ 63 ∧
    ∃ pre, Misplaced [0xc3, 0xa9, 0x0a, 0x20, 0xc3, 0xa9, 91, 91, 93] pre
      (unmatchedOpen { line := 2, column := 3 }) := by
  have hlen : ([0xc3, 0xa9, 0x0a, 0x20, 0xc3, 0xa9, 91, 91, 93] : Bytes).length < 2 ^ 63 := by decide
  have herr : optimize [0xc3, 0xa9, 0x0a, 0x20, 0xc3, 0xa9, 91, 91, 93] =
      .error (unmatchedOpen { line := 2, column := 3 }) := rfl
  exact ⟨hlen, ((optimize_points_at_bracket hlen).2.1 _).mp herr⟩

end TapeElf
