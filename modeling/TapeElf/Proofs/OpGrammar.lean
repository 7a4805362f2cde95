import TapeElf.Proofs.OpText

/-!
# The grammar of op texts

A text of ops is a sequence of tokens (`Token`): a byte that is an op on its own, or a counted symbol with a count,
which is a maximal non-empty run of lowercase hexadecimal digits whose value fits in 64 bits; leading zeros are
allowed. What is no token offends in one of three ways (`Offends`): a foreign byte, a symbol without a count, a count
that is too large.

* `Spells text ops rest`: the tokens of `ops` and then `rest` make up `text`;
* `exists_spells`: every text is tokens up to its end or up to an offence;
* `read_eq_iff_spells`: `read` gives exactly these tokens and this offence, and it gives ops back from their text.
-/

namespace TapeElf.Op

/-! ## Tokens and offences -/

def digitByte (d : Fin 16) : UInt8 := asciiByte (hexDigit d)

/-- The number that digits spell, the most significant first. -/
def digitsCount (ds : List (Fin 16)) : Nat := digitsValue 16 (ds.map Fin.val)

/-- A text that starts with no digit: a run of digits before it cannot be made longer. -/
def NoDigit (text : Bytes) : Prop := ∀ d, text.head? ≠ some (digitByte d)

/-- The bytes that are an op on their own. -/
inductive Plain : UInt8 → Op → Prop
  | command (c : Command) : Plain c.byte (ofCommand c)
  | clear : Plain (asciiByte '@') clear

/-- The symbols that a count follows. -/
inductive Counted : Char → (UInt64 → Op) → Prop
  | add : Counted '#' add
  | sub : Counted '=' sub
  | right : Counted '\x7d' right
  | left : Counted '\x7b' left

/-- A text starts with the token of an op, and then comes the rest. -/
inductive Token : Bytes → Op → Bytes → Prop
  | plain {b : UInt8} {op : Op} (rest : Bytes) (symbol : Plain b op) : Token (b :: rest) op rest
  | counted {c : Char} {f : UInt64 → Op} {ds : List (Fin 16)} {rest : Bytes} (symbol : Counted c f)
      (digits : ds ≠ []) (maximal : NoDigit rest) (fits : digitsCount ds < 2 ^ 64) :
      Token (asciiByte c :: (ds.map digitByte ++ rest)) (f (UInt64.ofNat (digitsCount ds))) rest

/-- A text is the tokens of ops, and then the rest. -/
inductive Spells : Bytes → List Op → Bytes → Prop
  | done (rest : Bytes) : Spells rest [] rest
  | step {text rest left : Bytes} {op : Op} {ops : List Op} (token : Token text op rest)
      (tokens : Spells rest ops left) : Spells text (op :: ops) left

/-- A text starts with what is no token, and this is reported. -/
inductive Offends : Bytes → Diagnostic → Prop
  | foreign {b : UInt8} (rest : Bytes) (plain : ∀ op, ¬ Plain b op) (counted : ∀ c f, Counted c f → b ≠ asciiByte c) :
      Offends (b :: rest) { kind := .invalidIr, message := (Cause.foreignByte b).message,
                            instruction := some (Char.ofNat b.toNat) }
  | missing {c : Char} {f : UInt64 → Op} {rest : Bytes} (symbol : Counted c f) (empty : NoDigit rest) :
      Offends (asciiByte c :: rest) { kind := .invalidIr, message := (Cause.missingCount c).message,
                                      instruction := some c }
  | tooLarge {c : Char} {f : UInt64 → Op} {ds : List (Fin 16)} {rest : Bytes} (symbol : Counted c f)
      (maximal : NoDigit rest) (large : 2 ^ 64 ≤ digitsCount ds) :
      Offends (asciiByte c :: (ds.map digitByte ++ rest)) { kind := .tooManyInstructions,
                                                            message := Cause.countTooLarge.message,
                                                            instruction := some c }

/-! ## Runs of digits -/

lemma toNat_digitByte : ∀ d : Fin 16, (digitByte d).toNat = if d.val < 10 then 48 + d.val else 87 + d.val := by
  decide

/-- The bytes that are read as a digit are those that digits are written with. -/
lemma exists_digitByte {b : UInt8} {n : Nat} (h : hexDigit? b = some n) : ∃ d : Fin 16, b = digitByte d := by
  simp only [hexDigit?, UInt8.le_iff_toNat_le, UInt8.reduceToNat] at h
  split at h
  · next hb =>
    refine ⟨⟨b.toNat - 48, by omega⟩, UInt8.toNat.inj ?_⟩
    rw [toNat_digitByte, if_pos (by dsimp only; omega)]
    exact (Nat.add_sub_cancel' hb.1).symm
  · split at h
    · next hb =>
      refine ⟨⟨b.toNat - 87, by omega⟩, UInt8.toNat.inj ?_⟩
      rw [toNat_digitByte, if_neg (by dsimp only; omega)]
      exact (Nat.add_sub_cancel' (by omega)).symm
    · cases h

lemma endsCount_of_noDigit {rest : Bytes} (h : NoDigit rest) : EndsCount rest := by
  intro b hb
  by_contra hdigit
  obtain ⟨n, hn⟩ := Option.ne_none_iff_exists'.mp hdigit
  obtain ⟨d, rfl⟩ := exists_digitByte hn
  exact h d hb

/-- Every text starts with a maximal run of digits, which may be empty. -/
lemma exists_digits_append (text : Bytes) :
    ∃ (ds : List (Fin 16)) (rest : Bytes), text = ds.map digitByte ++ rest ∧ NoDigit rest := by
  induction text with
  | nil => exact ⟨[], [], rfl, fun d => by simp⟩
  | cons b text ih =>
    by_cases hb : ∃ d, b = digitByte d
    · obtain ⟨d, rfl⟩ := hb
      obtain ⟨ds, rest, rfl, hrest⟩ := ih
      exact ⟨d :: ds, rest, rfl, hrest⟩
    · refine ⟨[], b :: text, rfl, fun d hd => hb ⟨d, ?_⟩⟩
      simpa using hd

lemma map_hexDigit?_digitByte (ds : List (Fin 16)) :
    (ds.map digitByte).map hexDigit? = (ds.map Fin.val).map some := by
  simp [digitByte, hexDigit?_hexDigit]

/-- A maximal run of digits gives its value, if that fits. -/
lemma readCount_digits (c : Char) {ds : List (Fin 16)} (hne : ds ≠ []) {rest : Bytes} (h : NoDigit rest) :
    readCount c (ds.map digitByte ++ rest) =
      if digitsCount ds < 2 ^ 64 then .ok (UInt64.ofNat (digitsCount ds), rest)
      else .error (Cause.countTooLarge.diagnostic.withInstruction c) :=
  readCount_append (endsCount_of_noDigit h) c (by simpa using hne) (map_hexDigit?_digitByte ds)

lemma readCount_noDigit (c : Char) {rest : Bytes} (h : NoDigit rest) :
    readCount c rest = .error ((Cause.missingCount c).diagnostic.withInstruction c) := by
  have hread : digitsFrom [] rest = ([], rest) :=
    digitsFrom_append (endsCount_of_noDigit h) (map_hexDigit?_digitByte []) []
  simp [readCount, hread]

/-! ## One token -/

lemma next_plain {b : UInt8} {op : Op} (h : Plain b op) (rest : Bytes) : next b rest = .ok (op, rest) := by
  cases h with
  | command c => simp [next, ofByte?]
  | clear => rfl

lemma next_counted {c : Char} {f : UInt64 → Op} (h : Counted c f) (rest : Bytes) :
    next (asciiByte c) rest = (readCount c rest).map fun read => (f read.1, read.2) := by
  have hnext : ofByte? (asciiByte c) = none ∧ counted? (asciiByte c) = some f ∧
      Char.ofNat (asciiByte c).toNat = c := by
    cases h <;> exact ⟨rfl, rfl, rfl⟩
  obtain ⟨hplain, hcounted, hchar⟩ := hnext
  simp only [next, hplain, hcounted, hchar]
  cases readCount c rest <;> rfl

lemma exists_counted {b : UInt8} {f : UInt64 → Op} (h : counted? b = some f) :
    ∃ c, Counted c f ∧ b = asciiByte c := by
  unfold counted? at h
  repeat' split at h
  all_goals cases h
  · exact ⟨_, .add, by assumption⟩
  · exact ⟨_, .sub, by assumption⟩
  · exact ⟨_, .right, by assumption⟩
  · exact ⟨_, .left, by assumption⟩

lemma next_foreign {b : UInt8} (hplain : ∀ op, ¬ Plain b op) (hcounted : ∀ c f, Counted c f → b ≠ asciiByte c)
    (rest : Bytes) : next b rest = .error ((Cause.foreignByte b).diagnostic.withInstruction (Char.ofNat b.toNat)) := by
  have hcommand : ofByte? b = none := by
    rw [ofByte?, Option.map_eq_none_iff, Option.eq_none_iff_forall_ne_some]
    intro c hc
    obtain rfl := Command.ofByte?_eq_some_iff.mp hc
    exact hplain _ (.command c)
  have hsymbol : counted? b = none := by
    rw [Option.eq_none_iff_forall_ne_some]
    intro f hf
    obtain ⟨c, hc, hb⟩ := exists_counted hf
    exact hcounted c f hc hb
  have hclear : b ≠ 64 := fun hb => hplain clear (hb ▸ .clear)
  simp only [next, hcommand, hsymbol, if_neg hclear]

lemma Token.next {b : UInt8} {text rest : Bytes} {op : Op} (h : Token (b :: text) op rest) :
    next b text = .ok (op, rest) := by
  cases h with
  | plain _ symbol => exact next_plain symbol text
  | counted symbol digits maximal fits =>
    rw [next_counted symbol, readCount_digits _ digits maximal, if_pos fits]
    rfl

lemma Offends.next {b : UInt8} {text : Bytes} {d : Diagnostic} (h : Offends (b :: text) d) :
    next b text = .error d := by
  cases h with
  | foreign _ plain counted => exact next_foreign plain counted text
  | missing symbol empty =>
    rw [next_counted symbol, readCount_noDigit _ empty]
    rfl
  | @tooLarge _ _ ds _ symbol maximal large =>
    have digits : ds ≠ [] := by
      rintro rfl
      exact absurd large (by decide)
    rw [next_counted symbol, readCount_digits _ digits maximal, if_neg (Nat.not_lt.mpr large)]
    rfl

/-- **Every text that does not end starts with a token or with an offence.** -/
lemma token_or_offends (b : UInt8) (text : Bytes) :
    (∃ op rest, Token (b :: text) op rest) ∨ ∃ d, Offends (b :: text) d := by
  by_cases hplain : ∃ op, Plain b op
  · obtain ⟨op, hop⟩ := hplain
    exact .inl ⟨op, text, .plain text hop⟩
  by_cases hcounted : ∃ c f, Counted c f ∧ b = asciiByte c
  · obtain ⟨c, f, hc, rfl⟩ := hcounted
    obtain ⟨ds, rest, rfl, hrest⟩ := exists_digits_append text
    by_cases hne : ds = []
    · subst hne
      exact .inr ⟨_, .missing hc hrest⟩
    · rcases Nat.lt_or_ge (digitsCount ds) (2 ^ 64) with hsmall | hlarge
      · exact .inl ⟨_, rest, .counted hc hne hrest hsmall⟩
      · exact .inr ⟨_, .tooLarge hc hrest hlarge⟩
  · exact .inr ⟨_, .foreign text (fun op hop => hplain ⟨op, hop⟩) fun c f hc hb => hcounted ⟨c, f, hc, hb⟩⟩

lemma next_eq_ok_iff {b : UInt8} {text rest : Bytes} {op : Op} :
    next b text = .ok (op, rest) ↔ Token (b :: text) op rest := by
  constructor
  · intro h
    rcases token_or_offends b text with ⟨op', rest', token⟩ | ⟨d, offence⟩
    · rw [token.next] at h
      cases h
      exact token
    · rw [offence.next] at h
      cases h
  · exact Token.next

lemma next_eq_error_iff {b : UInt8} {text : Bytes} {d : Diagnostic} :
    next b text = .error d ↔ Offends (b :: text) d := by
  constructor
  · intro h
    rcases token_or_offends b text with ⟨op, rest, token⟩ | ⟨d', offence⟩
    · rw [token.next] at h
      cases h
    · rw [offence.next] at h
      cases h
      exact offence
  · exact Offends.next

/-! ## Whole texts -/

/-- Reading goes through the tokens of a text and then stands at what is left. -/
lemma readFrom_of_spells {text rest : Bytes} {ops : List Op} (h : Spells text ops rest) (done : List Op) :
    readFrom done text = readFrom (ops.reverse ++ done) rest := by
  induction h generalizing done with
  | done rest => rfl
  | @step text _ _ _ _ token _ ih =>
    obtain ⟨b, tail, rfl⟩ : ∃ b tail, text = b :: tail := by
      cases token <;> exact ⟨_, _, rfl⟩
    rw [readFrom_cons_ok token.next, ih]
    simp

lemma readFrom_of_offends {text : Bytes} {d : Diagnostic} (h : Offends text d) (done : List Op) :
    readFrom done text = (done.reverse, some d) := by
  obtain ⟨b, tail, rfl⟩ : ∃ b tail, text = b :: tail := by
    cases h <;> exact ⟨_, _, rfl⟩
  exact readFrom_cons_error h.next done

lemma exists_spells (text : Bytes) :
    ∃ ops rest, Spells text ops rest ∧ (rest = [] ∨ ∃ d, Offends rest d) := by
  -- The tokens are those of a reading: what is left of the text gets shorter with each of them.
  fun_induction readFrom [] text with
  | case1 done => exact ⟨[], [], .done [], .inl rfl⟩
  | case2 done b text op rest hnext ih =>
    obtain ⟨ops, left, tokens, hleft⟩ := ih
    exact ⟨op :: ops, left, .step (next_eq_ok_iff.mp hnext) tokens, hleft⟩
  | case3 done b text d hnext => exact ⟨[], b :: text, .done _, .inr ⟨d, next_eq_error_iff.mp hnext⟩⟩

lemma read_of_spells {text : Bytes} {ops : List Op} (h : Spells text ops []) : read text = (ops, none) := by
  rw [read, readFrom_of_spells h, readFrom]
  simp

lemma read_of_offends {text rest : Bytes} {ops : List Op} {d : Diagnostic} (h : Spells text ops rest)
    (hrest : Offends rest d) : read text = (ops, some d) := by
  rw [read, readFrom_of_spells h, readFrom_of_offends hrest]
  simp

/-- **Ops are read back from their text, and `read` accepts exactly the grammar.** A text that is tokens up to its end
gives their ops; any other text gives the ops of the tokens before its first offence, and this offence. -/
theorem read_eq_iff_spells :
    (∀ ops, read (bytes ops) = (ops, none)) ∧
    ∀ text, (∀ ops, read text = (ops, none) ↔ Spells text ops []) ∧
      ∀ ops d, read text = (ops, some d) ↔ ∃ rest, Spells text ops rest ∧ Offends rest d := by
  refine ⟨read_bytes, fun text => ⟨fun ops => ⟨fun h => ?_, read_of_spells⟩, fun ops d => ⟨fun h => ?_, ?_⟩⟩⟩
  · obtain ⟨ops', rest, tokens, rfl | ⟨d, offence⟩⟩ := exists_spells text
    · rw [read_of_spells tokens] at h
      cases h
      exact tokens
    · rw [read_of_offends tokens offence] at h
      cases h
  · obtain ⟨ops', rest, tokens, rfl | ⟨d', offence⟩⟩ := exists_spells text
    · rw [read_of_spells tokens] at h
      cases h
    · rw [read_of_offends tokens offence] at h
      cases h
      exact ⟨rest, tokens, offence⟩
  · rintro ⟨rest, tokens, offence⟩
    exact read_of_offends tokens offence

example : read [35, 48, 48, 102, 64] = ([add 15, clear], none) := by cbv

end TapeElf.Op
