import TapeElf.Proofs.S390x.Constants
import TapeElf.Proofs.S390x.Pieces

/-!
# Register zero holds zero

Zero is read from register zero, so generated code must never write it, and must never be entered between two halves of
an instruction, where other instructions would be found.

* `KeepsZero instrs code`: the code is whole instructions, none of them writes register zero, and jumps lead to where
  an instruction begins.
* `Reached`: the states that the processor gets to, with a kernel that answers calls.

A loop that was never closed leaves its filler behind, and the branch in that leads into itself. The processor finds no
instruction there and stops (`decode_inside_filler`).
-/

namespace TapeElf.S390x

variable {instrs : List Instr} {i : Instr} {n : Nat}

/-! ## Whole instructions -/

/-- The length of an instruction, by the two highest bits of its first byte. -/
def sizeBy (first : UInt8) : Nat :=
  if first.toNat / 64 = 0 then 2 else if first.toNat / 64 = 3 then 6 else 4

lemma exists_encode_eq (i : Instr) : ∃ first rest, i.encode = first :: rest ∧ i.encode.length = sizeBy first := by
  cases i <;> exact ⟨_, _, rfl, rfl⟩

/-- A place where an instruction begins, or the end of the code. -/
def Boundary (instrs : List Instr) (n : Nat) : Prop :=
  ∃ pre post, instrs = pre ++ post ∧ (assemble pre).bytes.length = n

lemma Mark.boundary {pieces : List Piece} (h : Mark pieces n) : Boundary (listing pieces) n := by
  obtain ⟨pre, post, rfl, hn⟩ := h
  exact ⟨listing pre, listing post, listing_append pre post, hn⟩

/-- Code of whole instructions that can be relied on not to change register zero. -/
structure KeepsZero (instrs : List Instr) (code : Bytes) : Prop where
  code_eq : code = (assemble instrs).bytes
  lists : processor.Lists instrs code
  sizes : ∀ i ∈ instrs, ∃ first rest, i.encode = first :: rest ∧ i.encode.length = sizeBy first
  dest : ∀ i ∈ instrs, i.dest? ≠ some .r0
  lands : ∀ pre mask halfwords post, instrs = pre ++ .brcl mask halfwords :: post →
    ∃ n, Boundary instrs n ∧ (n : Int) = (assemble pre).bytes.length + 2 * halfwords.toInt
  fillers : ∀ mask halfwords, .brc mask halfwords ∈ instrs → halfwords = 1

lemma Instr.Straight.dest_ne (h : i.Straight) : i.dest? ≠ some .r0 := by
  cases i with
  | brc | brcl => exact h.elim
  | _ => exact h

/-- Every instruction of a piece is straight or belongs to loop control. -/
lemma Sound.mem_listing {pieces : List Piece} (h : Sound pieces) (hi : i ∈ listing pieces) :
    i.Straight ∨ i ∈ Piece.filler.instrs ∨ ∃ mask halfwords, i ∈ (Piece.jump mask halfwords).instrs := by
  obtain ⟨p, hp, hi⟩ := List.mem_flatMap.mp hi
  cases p with
  | straight instrs => exact .inl (h.straight instrs hp i hi)
  | filler => exact .inr (.inl hi)
  | jump mask halfwords => exact .inr (.inr ⟨mask, halfwords, hi⟩)

lemma Sound.keepsZero {pieces : List Piece} (h : Sound pieces) : KeepsZero (listing pieces) (layOut pieces) where
  code_eq := rfl
  lists := Processor.lists_flatMap fun i _ => encodes i
  sizes i _ := exists_encode_eq i
  dest i hi := by
    rcases h.mem_listing hi with hstraight | hfiller | ⟨mask, halfwords, hjump⟩
    · exact hstraight.dest_ne
    · simp only [Piece.instrs, List.mem_cons, List.not_mem_nil, or_false] at hfiller
      rcases hfiller with rfl | rfl | rfl | rfl | rfl <;> simp [Instr.dest?]
    · simp only [Piece.instrs, List.mem_cons, List.not_mem_nil, or_false] at hjump
      rcases hjump with rfl | rfl | rfl <;> simp [Instr.dest?, scratch]
  lands pre mask halfwords post hsplit := by
    have hmem : ((assemble pre).bytes.length + 2 * halfwords.toInt : Int) ∈ targets 0 (listing pieces) := by
      rw [hsplit, targets_append, targets, Nat.zero_add]
      exact List.mem_append_right _ (List.mem_append_left _ (List.mem_singleton_self _))
    obtain ⟨n, hmark, hn⟩ := h.lands _ hmem
    exact ⟨n, hmark.boundary, hn⟩
  fillers mask halfwords hi := by
    rcases h.mem_listing hi with hstraight | hfiller | ⟨mask, halfwords, hjump⟩
    · exact hstraight.elim
    · have hbranch : mask = .always ∧ halfwords = 1 := by simpa [Piece.instrs] using hfiller
      exact hbranch.2
    · simp [Piece.instrs] at hjump

/-! ## What instructions do to register zero and to the address -/

section

variable {own : BitVec 64} {m m' : Cpu}

lemma regs_set_zero {r : Reg} (hr : some r ≠ some .r0) (v : BitVec 64) : (m.set r.number v).regs 0 = m.regs 0 := by
  refine Function.update_of_ne ?_ _ _
  cases r with
  | r0 => exact absurd rfl hr
  | _ => decide

lemma regs_exec_zero (h : exec i own m = some m') (hdest : i.dest? ≠ some .r0) : m'.regs 0 = m.regs 0 := by
  cases i with
  | lgr r | lghi r | lgfi r | iihh r | iihl r | iihf r | llgc r | aghi r | agfi r | aih r =>
    cases h
    exact regs_set_zero hdest _
  | stc | cfi | nop | nopr =>
    cases h
    rfl
  | brc | brcl =>
    cases h
    split <;> rfl
  | svc => cases h

lemma pc_exec (h : exec i own m = some m') : m'.pc = m.pc ∨
    (∃ mask halfwords, i = .brc mask halfwords ∧ m'.pc = own + BitVec.ofInt 64 (2 * halfwords.toInt)) ∨
    (∃ mask halfwords, i = .brcl mask halfwords ∧ m'.pc = own + BitVec.ofInt 64 (2 * halfwords.toInt)) := by
  cases i with
  | brc mask halfwords =>
    cases h
    split
    · exact .inr (.inl ⟨mask, halfwords, rfl, rfl⟩)
    · exact .inl rfl
  | brcl mask halfwords =>
    cases h
    split
    · exact .inr (.inr ⟨mask, halfwords, rfl, rfl⟩)
    · exact .inl rfl
  | svc => cases h
  | _ =>
    cases h
    exact .inl rfl

end

/-! ## Runs -/

section

variable {mem : BitVec 64 → UInt8} {a base stop : BitVec 64} {m m' m₁ m₂ : Cpu}

/-- What happens next: the processor carries out an instruction, or the kernel answers a call. Its answer is in register
two, and it leaves the other registers as they are. -/
inductive Moves (mem : BitVec 64 → UInt8) (m m' : Cpu) : Prop
  | step (h : processor.step mem m = some m')
  | call (rest : Bytes) (h : processor.decode (fetch mem m.pc Processor.window) = some (.svc, rest))
      (hpc : m'.pc = m.pc + 2) (hregs : ∀ k ≠ 2, m'.regs k = m.regs k)

/-- The states that are reached from a state up to an address. -/
inductive Reached (mem : BitVec 64 → UInt8) (stop : BitVec 64) (m : Cpu) : Cpu → Prop
  | start : Reached mem stop m m
  | next {m₁ m₂ : Cpu} (h : Reached mem stop m m₁) (hstop : m₁.pc ≠ stop) (hmove : Moves mem m₁ m₂) :
    Reached mem stop m m₂

/-- There is no instruction where the branch of a filler leads to. -/
lemma decode_inside_filler {mask : Mask} (h : Holds mem a (Instr.brc mask 1).encode) :
    decode (fetch mem (a + BitVec.ofInt 64 (2 * (1 : Int16).toInt)) Processor.window) = none := by
  have hhalf : Holds mem (a + 2) (bigBytes 2 1) := (holds_append.mp h).2
  have hfetch : fetch mem (a + 2) Processor.window = bigBytes 2 1 ++ fetch mem (a + 2 + 2) 14 := by
    show fetch mem (a + 2) (2 + 14) = _
    rw [fetch_add]
    exact congrArg (· ++ _) hhalf
  have hfront : Endian.front? .big 2 (bigBytes 2 1 ++ fetch mem (a + 2 + 2) 14) = some (1, fetch mem (a + 2 + 2) 14) :=
    Endian.front?_bytes .big 2 1 _
  show decode (fetch mem (a + 2) Processor.window) = none
  rw [hfetch, decode, hfront, Option.bind_some]
  simp only [show bitField 1 14 2 = 0 by decide, show decodeShort 1 = none by decide, Option.map_none]

/-- Register zero holds zero, and the processor stands where an instruction begins or cannot go on. -/
structure Stands (instrs : List Instr) (mem : BitVec 64 → UInt8) (base : BitVec 64) (m : Cpu) : Prop where
  zero : m.regs 0 = 0
  pc : (∃ n, Boundary instrs n ∧ m.pc = base + BitVec.ofNat 64 n) ∨ decode (fetch mem m.pc Processor.window) = none

/-- What happens next is up to the instruction that the processor stands at. -/
lemma Moves.cases_of_holds (h : Moves mem m m') (hi : Holds mem m.pc i.encode) :
    exec i m.pc (m.goto (m.pc + BitVec.ofNat 64 i.encode.length)) = some m' ∨
      i = .svc ∧ m'.pc = m.pc + 2 ∧ ∀ k ≠ 2, m'.regs k = m.regs k := by
  cases h with
  | step h =>
    rw [(encodes i).step_eq hi] at h
    exact .inl h
  | call rest h hpc hregs =>
    rw [(encodes i).decode_fetch hi] at h
    exact .inr ⟨(Prod.mk.inj (Option.some.inj h)).1, hpc, hregs⟩

lemma not_moves_of_decode (h : decode (fetch mem m.pc Processor.window) = none) : ¬ Moves mem m m' := by
  intro hmove
  cases hmove with
  | step hstep =>
    have hstuck : processor.step mem m = none := congrArg (Option.bind · _) h
    rw [hstuck] at hstep
    cases hstep
  | call rest hsvc =>
    rw [show processor.decode (fetch mem m.pc Processor.window) = none from h] at hsvc
    cases hsvc

lemma holds_of_split {pre post : List Instr} (hsplit : instrs = pre ++ i :: post)
    (hmem : Holds mem base (assemble instrs).bytes) :
    Holds mem (base + BitVec.ofNat 64 (assemble pre).bytes.length) i.encode := by
  rw [hsplit, Emission.bytes_assemble_append, Emission.bytes_assemble_cons] at hmem
  exact (holds_append.mp (holds_append.mp hmem).2).1

lemma exists_behind {pre post : List Instr} (hsplit : instrs = pre ++ i :: post)
    (hpc : m.pc = base + BitVec.ofNat 64 (assemble pre).bytes.length) :
    ∃ n, Boundary instrs n ∧ m.pc + BitVec.ofNat 64 i.encode.length = base + BitVec.ofNat 64 n := by
  refine ⟨_, ⟨pre ++ [i], post, by simp [hsplit], rfl⟩, ?_⟩
  rw [hpc, Emission.bytes_assemble_append, Emission.bytes_assemble_singleton, List.length_append, BitVec.ofNat_add,
    BitVec.add_assoc]

/-- **Whatever happens next keeps register zero and stays in step with the instructions.** -/
theorem Stands.moves {code : Bytes} (hcode : KeepsZero instrs code) (hmem : Holds mem base code)
    (h : Stands instrs mem base m) (hstop : m.pc ≠ base + BitVec.ofNat 64 code.length) (hmove : Moves mem m m') :
    Stands instrs mem base m' := by
  rw [hcode.code_eq] at hmem hstop
  rcases h.pc with ⟨_, ⟨pre, post, hsplit, rfl⟩, hpc⟩ | hnone
  · cases post with
    | nil =>
      -- only the end of the code has no instruction behind it
      rw [hsplit, List.append_nil] at hstop
      exact absurd hpc hstop
    | cons i post =>
      have hi : i ∈ instrs := by simp [hsplit]
      have hholds : Holds mem m.pc i.encode := by
        rw [hpc]
        exact holds_of_split hsplit hmem
      obtain ⟨n, hn, hbehind⟩ := exists_behind hsplit hpc
      rcases hmove.cases_of_holds hholds with hexec | ⟨rfl, hafter, hregs⟩
      · refine ⟨(regs_exec_zero hexec (hcode.dest i hi)).trans h.zero, ?_⟩
        rcases pc_exec hexec with hpass | ⟨mask, halfwords, rfl, hbranch⟩ | ⟨mask, halfwords, rfl, hbranch⟩
        · exact .inl ⟨n, hn, hpass.trans hbehind⟩
        · obtain rfl := hcode.fillers mask halfwords hi
          rw [hbranch]
          exact .inr (decode_inside_filler hholds)
        · obtain ⟨t, ht, hlands⟩ := hcode.lands pre mask halfwords post hsplit
          refine .inl ⟨t, ht, ?_⟩
          rw [hbranch, hpc, BitVec.add_assoc, ← BitVec.ofInt_natCast, ← BitVec.ofInt_natCast, ← BitVec.ofInt_add,
            hlands]
      · exact ⟨(hregs 0 (by decide)).trans h.zero, .inl ⟨n, hn, hafter.trans hbehind⟩⟩
  · exact absurd hmove (not_moves_of_decode hnone)

theorem Stands.reached {code : Bytes} (hcode : KeepsZero instrs code) (hmem : Holds mem base code)
    (h : Stands instrs mem base m) (hreach : Reached mem (base + BitVec.ofNat 64 code.length) m m') :
    Stands instrs mem base m' := by
  induction hreach with
  | start => exact h
  | next _ hstop hmove ih => exact ih.moves hcode hmem hstop hmove

end

/-! ## Reading zero -/

/-- What reads register zero for a zero gets it. -/
structure ReadsZero (m : Cpu) : Prop where
  zero : m.regs 0 = 0
  loads : ∀ r, processor.Sets (backend.emit (.load r 0)).bytes m (backend.regNumber r) 0
  clears : ∀ r ≠ Reg.r0, ∃ m', processor.Passes (backend.emit (.clearCell r)).bytes m m' ∧ m'.regs = m.regs ∧
    m'.memory = Function.update m.memory (m.regs r.number) 0

lemma readsZero_of_regs {m : Cpu} (h : m.regs 0 = 0) : ReadsZero m where
  zero := h
  loads r := sets_load r 0 h
  clears r hr := by
    obtain ⟨m', hpass, hregs, hmemory⟩ := passes_stc .r0 hr m
    refine ⟨m', ?_, hregs, ?_⟩
    · show processor.Passes (assemble [.stc .r0 r]).bytes m m'
      rwa [Emission.bytes_assemble_singleton]
    · rw [hmemory, show m.regs Reg.r0.number = 0 from h]
      rfl

/-- Code that starts with zero in register zero always reads zero from it. -/
lemma KeepsZero.readsZero {code : Bytes} (hcode : KeepsZero instrs code) {mem : BitVec 64 → UInt8} {base : BitVec 64}
    {m m' : Cpu} (hmem : Holds mem base code) (hpc : m.pc = base) (hzero : m.regs 0 = 0)
    (hreach : Reached mem (base + BitVec.ofNat 64 code.length) m m') : ReadsZero m' := by
  have hstart : Stands instrs mem base m := by
    refine ⟨hzero, .inl ⟨0, ⟨[], instrs, rfl, rfl⟩, ?_⟩⟩
    rw [hpc, BitVec.add_zero]
  exact readsZero_of_regs (hstart.reached hcode hmem hreach).zero

/-- **Register zero holds zero throughout.** At every time, after any calls and after any ops of a further one, the code
is whole instructions that leave register zero alone, with jumps to where instructions begin. So in every state that is
reached from its beginning, zero is still there to be read. -/
theorem zero_register_kept (calls : List Call) (ops : List (Op × Option Location)) (memory : Memory) :
    let code : Bytes := (Generator.stepsAt backend (Generator.after backend calls) ops memory).1.code.toList
    ∃ instrs, KeepsZero instrs code ∧
      ∀ mem base m m', Holds mem base code → m.pc = base → m.regs 0 = 0 →
        Reached mem (base + BitVec.ofNat 64 code.length) m m' → ReadsZero m' := by
  intro code
  obtain ⟨pieces, hlaid⟩ := exists_laid calls ops memory
  have hcode : KeepsZero (listing pieces) code := by
    rw [show code = layOut pieces from hlaid.code]
    exact hlaid.sound.keepsZero
  exact ⟨listing pieces, hcode, fun mem base m m' hmem hpc hzero hreach => hcode.readsZero hmem hpc hzero hreach⟩

end TapeElf.S390x
