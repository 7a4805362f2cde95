import TapeElf.Proofs.Acceptance
import TapeElf.Proofs.Positions
import TapeElf.Proofs.Stopping

/-!
# Both ways into code generation report the same failures

A source reaches code generation directly, or through the optimiser as a text of ops. The brackets are checked twice
then, by the optimiser before anything else and by the generator as it goes.

While generation goes on, both checks have the same loops open, at the same positions (`bracketFault?_of_stepsAt`). So
they agree on every source, unless generation has stopped before at a loop that is too long (`snd_compileSource_cases`).
`FrontEndsAgree` is what this comes to for the user.
-/

namespace TapeElf

/-- Some amount of memory holds the code. -/
def Code.Obtainable (code : Code) : Prop := ∃ available, code.shortage? (.limited available) 0 = none

lemma Code.obtainable_iff {code : Code} : code.Obtainable ↔ code.size < 2 ^ 63 := by
  have hlimit : (1 : Nat) <<< 63 = 2 ^ 63 := rfl
  simp only [Obtainable, shortage?, Memory.limited, Option.map_eq_none_iff, MemoryShortage.of?, Nat.add_zero, hlimit]
  constructor
  · rintro ⟨available, h⟩
    by_contra hlarge
    rw [if_pos (Nat.le_of_not_lt hlarge)] at h
    cases h
  · intro h
    exact ⟨code.size, by rw [if_neg (Nat.not_le.mpr h), if_neg (Nat.lt_irrefl _)]⟩

/-! ## Positions -/

namespace Generator

lemma locatedOps_append (loc : Location) (a b : Bytes) :
    locatedOps loc (a ++ b) = locatedOps loc a ++ locatedOps (loc.after a) b := by
  induction a generalizing loc with
  | nil => rfl
  | cons c a ih =>
    rw [List.cons_append, locatedOps, locatedOps, Location.after_cons]
    cases Command.ofByte? c with
    | none => exact ih _
    | some command => exact congrArg _ (ih _)

lemma exists_eq_of_locatedOps {loc : Location} {source : Bytes} {before rest : List (Op × Option Location)} {op : Op}
    {location : Option Location} (h : locatedOps loc source = before ++ (op, location) :: rest) :
    ∃ (pre post : Bytes) (command : Command), source = pre ++ command.byte :: post ∧ locatedOps loc pre = before ∧
      op = .ofCommand command ∧ location = some (loc.after (pre ++ [command.byte])) := by
  induction source generalizing loc before with
  | nil =>
    rw [locatedOps] at h
    simp at h
  | cons c source ih =>
    rw [locatedOps] at h
    cases hc : Command.ofByte? c with
    | none =>
      rw [hc] at h
      obtain ⟨pre, post, command, rfl, hpre, hop, hlocation⟩ := ih h
      exact ⟨c :: pre, post, command, rfl, by rw [locatedOps, hc]; exact hpre, hop, hlocation⟩
    | some command =>
      rw [hc] at h
      obtain rfl := Command.ofByte?_eq_some_iff.mp hc
      rcases before with _ | ⟨x, before⟩
      · cases h
        exact ⟨[], source, command, rfl, rfl, rfl, rfl⟩
      · obtain ⟨rfl, htail⟩ := List.cons_eq_cons.mp h
        obtain ⟨pre, post, command', rfl, hpre, hop, hlocation⟩ := ih htail
        exact ⟨command.byte :: pre, post, command', rfl, by rw [locatedOps, hc]; exact congrArg _ hpre, hop, hlocation⟩

/-! ## Two bracket checks in step -/

section

variable {b : Backend} {g g' : Generator}

/-- **While generation goes on, both checks have the same loops open.** -/
theorem bracketFault?_of_stepsAt {pre : Bytes} {loc : Location} {opened : List Location}
    (hopened : g.loops.map OpenLoop.location = opened.map some)
    (h : stepsAt b g (locatedOps loc pre) = (g', none)) :
    ∃ opened', g'.loops.map OpenLoop.location = opened'.map some ∧
      ∀ rest, bracketFault? loc opened (pre ++ rest) = bracketFault? (loc.after pre) opened' rest := by
  induction pre generalizing g loc opened with
  | nil =>
    cases h
    exact ⟨opened, hopened, fun rest => rfl⟩
  | cons c pre ih =>
    rw [locatedOps] at h
    simp only [List.cons_append, bracketFault?, Location.after_cons]
    cases hc : Command.ofByte? c with
    | none =>
      rw [hc] at h
      exact ih hopened h
    | some command =>
      rw [hc] at h
      rcases hstep : step b g (.ofCommand command) (some (loc.advance c)) with ⟨g₁, _ | f⟩
      · rw [stepsAt_cons_of_ok hstep] at h
        have hloops := loops_of_step hstep
        cases command with
        | loopOpen =>
          have hopened' : g₁.loops.map OpenLoop.location = (loc.advance c :: opened).map some := by
            rw [hloops]
            exact congrArg _ hopened
          exact ih hopened' h
        | loopClose =>
          obtain ⟨l, hl⟩ := hloops
          rw [hl] at hopened
          rcases opened with _ | ⟨o, opened⟩
          · cases hopened
          · exact ih (List.cons_eq_cons.mp hopened).2 h
        | _ => exact ih (by rw [hloops]; exact hopened) h
      · rw [stepsAt_cons_of_fault hstep] at h
        cases h

/-- At the end, the oldest open loop is reported by both. -/
lemma unclosed?_eq {opened : List Location} (h : g.loops.map OpenLoop.location = opened.map some) :
    g.unclosed? = (opened.getLast?.map unmatchedOpen).map .reported := by
  have hlast := congrArg List.getLast? h
  rw [List.getLast?_map, List.getLast?_map] at hlast
  rw [unclosed?]
  rcases hl : g.loops.getLast? with _ | l <;> rcases ho : opened.getLast? with _ | o <;> rw [hl, ho] at hlast
  · rfl
  · cases hlast
  · cases hlast
  · simp only [Option.map_some, Option.some.injEq] at hlast ⊢
    rw [hlast]
    rfl

end

end Generator

/-- A complaint about brackets is made at the end, or at a `]`. -/
lemma cases_of_bracketFault? {loc : Location} {opened : List Location} {source : Bytes} {e : Diagnostic}
    (h : bracketFault? loc opened source = some e) :
    (∃ l, e = unmatchedOpen l) ∨ ∃ pre post, source = pre ++ Command.loopClose.byte :: post ∧
      e = unmatchedClose (loc.after (pre ++ [Command.loopClose.byte])) := by
  induction source generalizing loc opened with
  | nil =>
    obtain ⟨l, -, rfl⟩ := Option.map_eq_some_iff.mp h
    exact .inl ⟨l, rfl⟩
  | cons c source ih =>
    have hrest {opened' : List Location} (h : bracketFault? (loc.advance c) opened' source = some e) :
        (∃ l, e = unmatchedOpen l) ∨ ∃ pre post, c :: source = pre ++ Command.loopClose.byte :: post ∧
          e = unmatchedClose (loc.after (pre ++ [Command.loopClose.byte])) := by
      rcases ih h with hopen | ⟨pre, post, rfl, rfl⟩
      · exact .inl hopen
      · exact .inr ⟨c :: pre, post, rfl, rfl⟩
    unfold bracketFault? at h
    cases hc : Command.ofByte? c with
    | none =>
      simp only [hc] at h
      exact hrest h
    | some command =>
      simp only [hc] at h
      cases command with
      | loopClose =>
        rcases opened with _ | ⟨o, opened⟩
        · obtain rfl := Command.ofByte?_eq_some_iff.mp hc
          exact .inr ⟨[], source, rfl, (Option.some.inj h).symm⟩
        · exact hrest h
      | _ => exact hrest h

/-! ## Sources -/

/-- Generation gets to the `]` after `pre`, and fails there with `d`: the loop is too long, and it is this `]` that is
named. -/
structure Generator.TooLongAt (b : Backend) (pre : Bytes) (d : Diagnostic) : Prop where
  reached : (stepsAt b {} (locatedOps .start pre)).2 = none
  refused : (stepsAt b {} (locatedOps .start (pre ++ [Command.loopClose.byte]))).2 = some (.reported d)
  report : ∃ k bits, d = ((Cause.jumpTooLong k bits).diagnostic.withInstruction ']').withLocation
    (Location.start.after (pre ++ [Command.loopClose.byte]))

/-- A complaint about brackets that is made after the bytes of `pre` have passed. -/
def FoundAfter (pre : Bytes) (source : Bytes) (e : Diagnostic) : Prop :=
  (∃ l, e = unmatchedOpen l) ∨ ∃ more post, source = pre ++ more ++ Command.loopClose.byte :: post ∧
    e = unmatchedClose (Location.start.after (pre ++ more ++ [Command.loopClose.byte]))

namespace Generator

variable {arch : Arch} {source : Bytes}

lemma stops_command {g : Generator} {command : Command} {c : Cause} (h : arch.Stops g (.ofCommand command) c) :
    command = .loopClose ∧ (g.loops = [] ∧ c = .unmatchedClose ∨
      g.loops ≠ [] ∧ (∃ k bits, c = .jumpTooLong k bits) ∨ 2 ^ 63 ≤ g.code.size) := by
  generalize hop : Op.ofCommand command = op at h
  have hclose (h : Op.ofCommand command = .loopClose) : command = .loopClose := by
    cases command with
    | loopClose => rfl
    | _ => cases h
  cases h with
  | unopened h => exact ⟨hclose hop, .inl ⟨h, rfl⟩⟩
  | tooFar h k bits => exact ⟨hclose hop, .inr (.inl ⟨h, k, bits, rfl⟩)⟩
  | tooLarge h => exact ⟨hclose hop, .inr (.inr h)⟩
  | @tooMany _ n _ hmove hn =>
    -- the count of a command is 1
    have hone : n = 1 := by
      rcases hmove with rfl | rfl <;> cases command <;> cases hop <;> rfl
    rw [hone] at hn
    exact absurd hn (by decide)

/-- A failure at a byte of a source is what the whole source fails with, whatever comes after. -/
lemma StopsAt.locatedOps_eq {g g₁ g' : Generator} {loc : Location} {pre : Bytes} {command : Command} {c : Cause}
    (h : StopsAt arch g (locatedOps loc pre) (.ofCommand command) (some (loc.after (pre ++ [command.byte]))) g₁ g' c)
    (post : Bytes) :
    stepsAt arch.backend g (locatedOps loc (pre ++ command.byte :: post)) = (g', some (.reported
      ((c.diagnostic.withInstruction command.char).withLocation (loc.after (pre ++ [command.byte]))))) := by
  have hops : locatedOps (loc.after pre) (command.byte :: post) =
      (.ofCommand command, some (loc.after (pre ++ [command.byte]))) ::
        locatedOps (loc.after (pre ++ [command.byte])) post := by
    rw [locatedOps, Command.ofByte?_byte, Location.after_append]
    rfl
  rw [locatedOps_append, hops, h.stepsAt_eq, symbol_ofCommand]
  rfl

/-- **A source fails for its brackets, unless a loop before the fault is too long.** -/
theorem snd_compileSource_cases (hmem : (compileSource arch.backend {} source).1.code.Obtainable) :
    (compileSource arch.backend {} source).2 = (unbalanced? source).map .reported ∨
      ∃ pre post d, source = pre ++ Command.loopClose.byte :: post ∧
        (compileSource arch.backend {} source).2 = some (.reported d) ∧ TooLongAt arch.backend pre d ∧
        ∀ e, unbalanced? source = some e → FoundAfter (pre ++ [Command.loopClose.byte]) source e := by
  rw [compileSource_eq, fst_finish, Code.obtainable_iff] at hmem
  rw [compileSource_eq]
  have inv := invariant_new arch.backend arch.alignment
  have hnone : ({} : Generator).loops.map OpenLoop.location = ([] : List Location).map some := rfl
  rcases stepsAt_cases inv (locatedOps .start source) with
    ⟨g', hok⟩ | ⟨before, op, location, rest, g₁, g', c, hsplit, hstop⟩
  · obtain ⟨opened, hopened, hcheck⟩ := bracketFault?_of_stepsAt hnone hok
    have hend := hcheck []
    rw [List.append_nil] at hend
    rw [hok, unbalanced?, hend]
    exact .inl (unclosed?_eq hopened)
  · obtain ⟨pre, post, command, rfl, rfl, rfl, rfl⟩ := exists_eq_of_locatedOps hsplit
    obtain ⟨opened, hopened, hcheck⟩ := bracketFault?_of_stepsAt hnone hstop.reached
    have hfault := hstop.locatedOps_eq
    obtain ⟨rfl, hcause⟩ := stops_command hstop.cause
    rw [hfault] at hmem ⊢
    rw [unbalanced?, hcheck]
    rcases hcause with ⟨hloops, rfl⟩ | ⟨hloops, k, bits, rfl⟩ | hlarge
    · obtain rfl : opened = [] := by
        rw [hloops] at hopened
        exact List.map_eq_nil_iff.mp hopened.symm
      rw [Location.after_append]
      exact .inl rfl
    · have hlong : TooLongAt arch.backend pre _ :=
        ⟨congrArg Prod.snd hstop.reached, congrArg Prod.snd (hfault []), k, bits, rfl⟩
      refine .inr ⟨pre, post, _, rfl, rfl, hlong, ?_⟩
      intro e he
      rcases opened with _ | ⟨o, opened⟩
      · exact absurd (List.map_eq_nil_iff.mp hopened) hloops
      have hpost : bracketFault? ((Location.start.after pre).advance Command.loopClose.byte) opened post = some e := he
      rcases cases_of_bracketFault? hpost with hopen | ⟨more, post', rfl, rfl⟩
      · exact .inl hopen
      · exact .inr ⟨more, post', by simp, by simp⟩
    · exact absurd (hlarge.trans (hstop.size_le inv)) (Nat.not_le.mpr hmem)

/-! ## Texts of ops -/

/-- A balanced text fails, if it does, for the size of its loops, or on i386 for that of its moves. -/
theorem snd_compileText_cases {ops : List Op} (hbal : Balanced ops)
    (hmem : (compileText arch.backend {} (Op.bytes ops)).1.code.Obtainable) :
    (compileText arch.backend {} (Op.bytes ops)).2 = none ∨
      ∃ d, (compileText arch.backend {} (Op.bytes ops)).2 = some (.reported d) ∧
        (d.kind = .jumpTooLong ∨ arch = .i386 ∧ d.kind = .immediateTooLarge) := by
  rw [compileText_eq _ _ (Op.read_bytes ops), fst_finish, Code.obtainable_iff] at hmem
  rw [compileText_eq _ _ (Op.read_bytes ops)]
  have inv := invariant_new arch.backend arch.alignment
  rcases stepsAt_cases inv (ops.map fun op => (op, none)) with
    ⟨g', hok⟩ | ⟨before, op, location, rest, g₁, g', c, hsplit, hstop⟩
  · have hdepth := depth?_of_stepsAt hok
    rw [map_fst_unlocated] at hdepth
    have hloops : g'.loops.length = 0 := Option.some.inj (hdepth.symm.trans hbal)
    rw [hok]
    exact .inl (unclosed?_eq_none_iff.mpr (List.eq_nil_of_length_eq_zero hloops))
  · rw [hsplit, hstop.stepsAt_eq] at hmem ⊢
    refine .inr ⟨_, rfl, ?_⟩
    cases hstop.cause with
    | unopened hloops =>
      -- a `]` that closes nothing would have been found by the count of open loops
      have hdepth : depth? 0 (before.map Prod.fst) = some g₁.loops.length := depth?_of_stepsAt hstop.reached
      have hops := congrArg (List.map Prod.fst) hsplit
      rw [map_fst_unlocated, List.map_append] at hops
      rw [Balanced, hops, depth?_append, hdepth, hloops] at hbal
      cases hbal
    | tooFar => exact .inl rfl
    | tooLarge hlarge => exact absurd (hlarge.trans (hstop.size_le inv)) (Nat.not_le.mpr hmem)
    | tooMany harch => exact .inr ⟨harch, rfl⟩

end Generator

/-- The failure names an instruction, and no position. -/
def Fault.Unplaced (f : Fault) : Prop := ∃ d c, f = .reported d ∧ d.instruction = some c ∧ d.location = none

namespace Op

lemma cause_of_readCount {opcode : Char} {text : Bytes} {d : Diagnostic} (h : readCount opcode text = .error d) :
    ∃ c : Cause, d = c.diagnostic.withInstruction opcode := by
  unfold readCount at h
  dsimp only at h
  split at h
  · exact ⟨_, (Except.error.inj h).symm⟩
  split at h
  · cases h
  · exact ⟨_, (Except.error.inj h).symm⟩

lemma cause_of_next {b : UInt8} {rest : Bytes} {d : Diagnostic} (h : next b rest = .error d) :
    ∃ (c : Cause) (opcode : Char), d = c.diagnostic.withInstruction opcode := by
  unfold next at h
  split at h
  · cases h
  · split at h
    · cases h
    · next d' hcount =>
      obtain rfl := Except.error.inj h
      obtain ⟨c, hc⟩ := cause_of_readCount hcount
      exact ⟨c, _, hc⟩
  · split at h
    · cases h
    · exact ⟨_, _, (Except.error.inj h).symm⟩

/-- A text that spells no ops is refused at the character where it goes wrong. -/
lemma unplaced_of_readFrom {read ops : List Op} {text : Bytes} {d : Diagnostic}
    (h : readFrom read text = (ops, some d)) : (Fault.reported d).Unplaced := by
  fun_induction readFrom read text with
  | case1 => cases h
  | case2 read b rest op rest' hnext ih => exact ih h
  | case3 read b rest d' hnext =>
    cases h
    obtain ⟨c, opcode, rfl⟩ := cause_of_next hnext
    exact ⟨_, opcode, rfl, rfl, rfl⟩

end Op

namespace Generator

variable {arch : Arch} {g g' : Generator}

lemma unplaced_orContext (c : Cause) (instruction : Char) : (c.fault.orContext instruction none).Unplaced :=
  ⟨_, instruction, rfl, rfl, rfl⟩

lemma location_of_stepsAt {b : Backend} {ops : List Op} (hloops : ∀ l ∈ g.loops, l.location = none)
    (h : stepsAt b g (ops.map fun op => (op, none)) = (g', none)) : ∀ l ∈ g'.loops, l.location = none := by
  induction ops generalizing g with
  | nil =>
    cases h
    exact hloops
  | cons op ops ih =>
    rw [List.map_cons] at h
    rcases hstep : step b g op none with ⟨g₁, _ | f⟩
    · rw [stepsAt_cons_of_ok hstep] at h
      refine ih ?_ h
      have hstep' := loops_of_step hstep
      cases op with
      | loopOpen =>
        rw [hstep', List.forall_mem_cons]
        exact ⟨rfl, hloops⟩
      | loopClose =>
        obtain ⟨l, hl⟩ := hstep'
        rw [hl, List.forall_mem_cons] at hloops
        exact hloops.2
      | _ => rwa [hstep']
    · rw [stepsAt_cons_of_fault hstep] at h
      cases h

lemma unplaced_of_stepsAt (inv : g.Invariant arch.backend arch.alignment) {ops : List Op} {f : Fault}
    (h : stepsAt arch.backend g (ops.map fun op => (op, none)) = (g', some f)) : f.Unplaced := by
  rcases stepsAt_cases inv (ops.map fun op => (op, none)) with
    ⟨_, hok⟩ | ⟨before, op, location, rest, g₁, g₂, c, hsplit, hstop⟩
  · cases h.symm.trans hok
  · have hmem : (op, location) ∈ ops.map fun op => (op, (none : Option Location)) := by
      rw [hsplit]
      exact List.mem_append_right before List.mem_cons_self
    obtain ⟨_, -, hpair⟩ := List.mem_map.mp hmem
    cases hpair
    rw [hsplit, hstop.stepsAt_eq] at h
    cases h
    exact unplaced_orContext c _

/-- **A failure of a text of ops names an instruction, and no position.** -/
theorem unplaced_of_compileText {text : Bytes} {f : Fault} (h : (compileText arch.backend {} text).2 = some f) :
    f.Unplaced := by
  have inv := invariant_new arch.backend arch.alignment
  rw [compileText_of_room _ rfl] at h
  rcases hread : Op.read text with ⟨ops, refusal⟩
  rw [hread] at h
  rcases hsteps : stepsAt arch.backend {} (ops.map fun op => (op, none)) with ⟨g', _ | f'⟩ <;> rw [hsteps] at h
  · cases refusal with
    | none =>
      obtain ⟨l, hl, rfl⟩ := Option.map_eq_some_iff.mp h
      have hnone : ∀ l ∈ ({} : Generator).loops, l.location = none := nofun
      exact ⟨_, '[', rfl, rfl, location_of_stepsAt hnone hsteps l (List.mem_of_getLast? hl)⟩
    | some d =>
      obtain rfl : .reported d = f := Option.some.inj h
      exact Op.unplaced_of_readFrom hread
  · obtain rfl : f' = f := by cases refusal <;> exact Option.some.inj h
    exact unplaced_of_stepsAt inv hsteps

end Generator

/-! ## Agreement -/

/-- What a source is told by either way into code generation, on a new generator. -/
structure FrontEndsAgree (arch : Arch) (source : Bytes) : Prop where
  /-- What the optimiser refuses is refused with the same failure, or earlier, at a loop that is too long. -/
  refused : ∀ e, optimize source = .error e → e.file = none ∧
    ∃ d, (Generator.compileSource arch.backend {} source).2 = some (.reported d) ∧
      (d = e ∨ ∃ pre post, source = pre ++ Command.loopClose.byte :: post ∧ Generator.TooLongAt arch.backend pre d ∧
        FoundAfter (pre ++ [Command.loopClose.byte]) source e)
  /-- What the optimiser accepts is compiled, or it has a loop that is too long. -/
  accepted : ∀ ops, optimize source = .ok ops →
    (Generator.compileSource arch.backend {} source).2 = none ∨
      ∃ d, (Generator.compileSource arch.backend {} source).2 = some (.reported d) ∧ d.kind = .jumpTooLong
  /-- So is what the optimiser gives, but on i386 it may have a move that is too long. -/
  optimized : ∀ ops, optimize source = .ok ops →
    (Generator.compileText arch.backend {} (Op.bytes ops)).1.code.Obtainable →
    (Generator.compileText arch.backend {} (Op.bytes ops)).2 = none ∨
      ∃ d, (Generator.compileText arch.backend {} (Op.bytes ops)).2 = some (.reported d) ∧
        (d.kind = .jumpTooLong ∨ arch = .i386 ∧ d.kind = .immediateTooLarge)
  /-- A loop that is too long is reported at its `]`. -/
  tooLong : ∀ d, (Generator.compileSource arch.backend {} source).2 = some (.reported d) → d.kind = .jumpTooLong →
    ∃ pre post, source = pre ++ Command.loopClose.byte :: post ∧ Generator.TooLongAt arch.backend pre d
  /-- A text of ops has instructions to be named, but no positions. -/
  unplaced : ∀ text f, (Generator.compileText arch.backend {} text).2 = some f → f.Unplaced

/-- **The plain and the optimising way report the same failures,** on every target and for every source that is short
enough to be counted, as long as its code can be held. -/
theorem frontEnds_agree (arch : Arch) {source : Bytes} (hlen : source.length < 2 ^ 63)
    (hmem : (Generator.compileSource arch.backend {} source).1.code.Obtainable) : FrontEndsAgree arch source where
  refused e he := by
    have hfound := unbalanced?_of_optimize he hlen
    refine ⟨?_, ?_⟩
    · rcases cases_of_bracketFault? hfound with ⟨l, rfl⟩ | ⟨pre, post, -, rfl⟩ <;> rfl
    · rcases Generator.snd_compileSource_cases hmem with h | ⟨pre, post, d, hsource, h, hlong, hafter⟩
      · rw [hfound] at h
        exact ⟨e, h, .inl rfl⟩
      · exact ⟨d, h, .inr ⟨pre, post, hsource, hlong, hafter e hfound⟩⟩
  accepted ops hops := by
    rcases Generator.snd_compileSource_cases hmem with h | ⟨pre, post, d, -, h, hlong, -⟩
    · rw [unbalanced?_eq_none_iff.mpr (optimize_rewrites hops).1] at h
      exact .inl h
    · obtain ⟨k, bits, hd⟩ := hlong.report
      exact .inr ⟨d, h, by rw [hd]; rfl⟩
  optimized ops hops hmem' := by
    obtain ⟨hbal, hrewrites⟩ := optimize_rewrites hops
    exact Generator.snd_compileText_cases (hrewrites.balanced hbal) hmem'
  tooLong d hd hkind := by
    rcases Generator.snd_compileSource_cases hmem with h | ⟨pre, post, d', hsource, h, hlong, -⟩
    · -- what is wrong with brackets is of another kind
      obtain ⟨e, he, hreported⟩ := Option.map_eq_some_iff.mp (h.symm.trans hd)
      obtain rfl : e = d := Fault.reported.inj hreported
      rcases cases_of_bracketFault? he with ⟨l, rfl⟩ | ⟨pre, post, -, rfl⟩ <;> cases hkind
    · obtain rfl : d' = d := Fault.reported.inj (Option.some.inj (h.symm.trans hd))
      exact ⟨pre, post, hsource, hlong⟩
  unplaced _ _ h := Generator.unplaced_of_compileText h

/-- The source `[-]]` on i386, which is refused at its last byte. -/
theorem frontEnds_agree_close_too_many :
    optimize [91, 45, 93, 93] = .error (unmatchedClose { line := 1, column := 4 }) ∧
    ([91, 45, 93, 93] : Bytes).length < 2 ^ 63 ∧
    (Generator.compileSource Arch.i386.backend {} [91, 45, 93, 93]).1.code.Obtainable ∧
    FrontEndsAgree .i386 [91, 45, 93, 93] := by
  have hmem : (Generator.compileSource Arch.i386.backend {} [91, 45, 93, 93]).1.code.Obtainable :=
    ⟨64, by decide +kernel⟩
  exact ⟨rfl, by decide, hmem, frontEnds_agree .i386 (by decide) hmem⟩

end TapeElf
