import TapeElf.Proofs.Arm64.Constants

/-!
# The shortest moves for a constant on ARM64

A sequence of moves starts with one that fills the register with zeros or with ones, and each of them sets one halfword.
So it needs a move for every halfword that is unlike the fill, whatever else it does (`four_le_of_leaves`), and one for
each of them is enough (`leaves_moves`).

The fill of the code that is emitted is the sign of the constant. It is the better one unless more halfwords are
made of copies of the other bit (`isShortest_emit_iff`).
-/

namespace TapeElf.Arm64

variable {r : Reg} {value : Int64} {instrs : List Instr} {sign : Bool}

/-! ## What moves do -/

/-- What a move makes of its register. -/
def Instr.moved : Instr → BitVec 64 → BitVec 64
  | movWide kind _ imm shift, x => kind.apply x imm shift.toNat
  | _, x => x

/-- What moves into one register make of it. -/
def moved (instrs : List Instr) (x : BitVec 64) : BitVec 64 := instrs.foldl (fun x i => i.moved x) x

def Instr.Moves (r : Reg) (i : Instr) : Prop := ∃ kind imm shift, i = .movWide kind r imm shift

lemma Instr.Keeps.moves {i : Instr} (h : i.Keeps r) : i.Moves r := by
  obtain ⟨imm, shift, rfl⟩ := h
  exact ⟨_, _, _, rfl⟩

lemma IsMoveSequence.moves (h : IsMoveSequence r instrs) : ∀ i ∈ instrs, i.Moves r := by
  obtain ⟨lead, imm, shift, rest, -, rfl, hrest⟩ := h
  exact List.forall_mem_cons.mpr ⟨⟨_, _, _, rfl⟩, fun i hi => (hrest i hi).moves⟩

lemma maps_moved (hmoves : ∀ i ∈ instrs, i.Moves r) (hregular : ∀ i ∈ instrs, i.Regular) :
    processor.Maps (assemble instrs).bytes r.val (moved instrs) := by
  induction instrs with
  | nil => exact Processor.maps_nil _
  | cons i instrs ih =>
    obtain ⟨⟨kind, imm, shift, rfl⟩, hmoves'⟩ := List.forall_mem_cons.mp hmoves
    obtain ⟨hshift, hregular'⟩ := List.forall_mem_cons.mp hregular
    rw [Emission.bytes_assemble_cons]
    exact (maps_movWide kind imm hshift).append (ih hmoves' hregular')

lemma places_disjoint : ∀ s ∈ [(0 : UInt8), 16, 32, 48], ∀ t ∈ [(0 : UInt8), 16, 32, 48], s ≠ t →
    s.toNat + 16 ≤ t.toNat ∨ t.toNat + 16 ≤ s.toNat := by
  simp

lemma place_le : ∀ s ∈ [(0 : UInt8), 16, 32, 48], s.toNat ≤ 48 := by
  simp

lemma half_moved_of_notMem (hkeeps : ∀ i ∈ instrs, i.Keeps r) (hregular : ∀ i ∈ instrs, i.Regular) {s : UInt8}
    (hs : s ∈ [0, 16, 32, 48]) (hout : some s ∉ instrs.map Instr.place?) (x : BitVec 64) :
    half (moved instrs x) s.toNat = half x s.toNat := by
  induction instrs generalizing x with
  | nil => rfl
  | cons i instrs ih =>
    obtain ⟨⟨imm, shift, rfl⟩, hkeeps'⟩ := List.forall_mem_cons.mp hkeeps
    obtain ⟨hshift, hregular'⟩ := List.forall_mem_cons.mp hregular
    rw [List.map_cons, List.mem_cons, not_or] at hout
    have hne : shift ≠ s := fun h => hout.1 (congrArg some h.symm)
    calc half (moved (.movWide .keep r imm shift :: instrs) x) s.toNat
        = half (insertHalf x shift.toNat imm) s.toNat := ih hkeeps' hregular' hout.2 _
      _ = half x s.toNat :=
        half_insertHalf_of_disjoint x imm (places_disjoint shift hshift s hs hne) (place_le s hs)

/-- A halfword that no move sets is as the first one filled it. -/
lemma IsMoveSequence.exists_fill (h : IsMoveSequence r instrs) (hregular : ∀ i ∈ instrs, i.Regular) :
    ∃ sign, ∀ s ∈ [0, 16, 32, 48], some s ∉ instrs.map Instr.place? → ∀ x,
      half (moved instrs x) s.toNat = fillHalf sign := by
  obtain ⟨kind, imm, shift, rest, hkind, rfl, hrest⟩ := h
  obtain ⟨hshift, hregular'⟩ := List.forall_mem_cons.mp hregular
  obtain ⟨sign, rfl⟩ : ∃ sign, kind = lead sign := by
    rcases hkind with rfl | rfl
    exacts [⟨false, rfl⟩, ⟨true, rfl⟩]
  refine ⟨sign, fun s hs hout x => ?_⟩
  rw [List.map_cons, List.mem_cons, not_or] at hout
  have hne : shift ≠ s := fun h => hout.1 (congrArg some h.symm)
  calc half (moved (.movWide (lead sign) r imm shift :: rest) x) s.toNat
      = half ((lead sign).apply x imm shift.toNat) s.toNat := half_moved_of_notMem hrest hregular' hs hout.2 _
    _ = half (insertHalf (BitVec.fill 64 sign) shift.toNat imm) s.toNat := by rw [apply_lead]
    _ = half (BitVec.fill 64 sign) s.toNat :=
      half_insertHalf_of_disjoint _ imm (places_disjoint shift hshift s hs hne) (place_le s hs)
    _ = fillHalf sign := half_fill sign (place_le s hs)

/-! ## Constants -/

/-- The instructions leave a constant in a register. -/
def Leaves (r : Reg) (value : Int64) (instrs : List Instr) : Prop :=
  ∀ m, ∃ m', processor.Passes (assemble instrs).bytes m m' ∧ m'.regs r.val = value.toBitVec

/-- How many halfwords of a constant are copies of a bit. -/
def copies (value : Int64) (bit : Bool) : Nat :=
  [0, 16, 32, 48].countP fun k => half value.toBitVec k = fillHalf bit

lemma countP_add_copies (value : Int64) (bit : Bool) :
    [0, 16, 32, 48].countP (fun k => half value.toBitVec k ≠ fillHalf bit) + copies value bit = 4 := by
  have hsplit := List.length_eq_countP_add_countP (fun k => decide (half value.toBitVec k = fillHalf bit))
    (l := [0, 16, 32, 48])
  simp only [decide_eq_true_eq] at hsplit
  rw [Nat.add_comm]
  exact hsplit.symm

/-- Moves that leave a constant are as many as its halfwords, but for those that the first one fills in. -/
lemma four_le_of_leaves (hseq : IsMoveSequence r instrs) (hregular : ∀ i ∈ instrs, i.Regular)
    (hleaves : Leaves r value instrs) (hshort : instrs.length ≤ 4) : ∃ bit, 4 ≤ instrs.length + copies value bit := by
  obtain ⟨bit, hfill⟩ := hseq.exists_fill hregular
  have hvalue : ∃ x, moved instrs x = value.toBitVec := by
    obtain ⟨m', hpass, hreg⟩ := hleaves { pc := 0, regs := fun _ => 0, memory := fun _ => 0, flags := false }
    obtain ⟨m'', hpass', hregs, -⟩ := maps_moved hseq.moves hregular
      { pc := 0, regs := fun _ => 0, memory := fun _ => 0, flags := false }
    have hfit : ((assemble instrs).bytes ++ Instr.brk.encode).length ≤ 2 ^ 64 := by
      rw [List.length_append, length_assemble, Instr.encode, length_littleBytes]
      omega
    have hsame := hpass'.unique (encodes (i := .brk) trivial) (fun _ _ => rfl) hfit hpass
    refine ⟨0, ?_⟩
    rw [← hreg, ← hsame, hregs, Function.update_self]
  obtain ⟨x, hx⟩ := hvalue
  refine ⟨bit, ?_⟩
  -- every halfword unlike the fill is the place of a move, and no two of them are the same place
  have hplaces : ([0, 16, 32, 48].filter fun s : UInt8 => halfword value.toInt s.toNat ≠ fillHalf bit).map some ⊆
      instrs.map Instr.place? := by
    intro p hp
    obtain ⟨s, hs, rfl⟩ := List.mem_map.mp hp
    obtain ⟨hmem, hne⟩ := List.mem_filter.mp hs
    by_contra hout
    rw [decide_eq_true_eq, halfword_toInt value (place_le s hmem)] at hne
    exact hne (by rw [← hx, hfill s hmem hout])
  have hnodup :
      (([0, 16, 32, 48].filter fun s : UInt8 => halfword value.toInt s.toNat ≠ fillHalf bit).map some).Nodup :=
    (List.Nodup.filter _ (by decide)).map (Option.some_injective _)
  have hle := (List.subperm_of_subset hnodup hplaces).length_le
  rw [List.length_map, List.length_map, length_filter_halfword] at hle
  have := countP_add_copies value bit
  omega

lemma leaves_moves (value : Int64) (bit : Bool)
    (hne : moves r value.toInt (fillHalf bit) (lead bit) [0, 16, 32, 48] ≠ []) :
    Leaves r value (moves r value.toInt (fillHalf bit) (lead bit) [0, 16, 32, 48]) := by
  have hmoves : _ ∨ _ := maps_moves_lead (r := r) value bit fun _ h => h
  rw [foldl_patch] at hmoves
  intro m
  obtain ⟨m', hpass, hregs, -⟩ := (hmoves.resolve_left fun h => hne h.1).2 m
  exact ⟨m', hpass, by rw [hregs, Function.update_self]⟩

lemma length_moves (value : Int64) (bit : Bool) (kind : Move) :
    (moves r value.toInt (fillHalf bit) kind [0, 16, 32, 48]).length + copies value bit = 4 := by
  rw [← List.length_map Instr.place?, map_place_moves, List.length_map, length_filter_halfword, countP_add_copies]

lemma regular_of_mem_moves {v : Int} {fill : UInt16} {kind : Move} :
    ∀ i ∈ moves r v fill kind [0, 16, 32, 48], i.Regular := by
  intro i hi
  have hmem := List.mem_map_of_mem (f := Instr.place?) hi
  rw [map_place_moves] at hmem
  obtain ⟨s, hs, hplace⟩ := List.mem_map.mp hmem
  exact Instr.regular_of_place hplace.symm (List.mem_of_mem_filter hs)

/-! ## The code that is emitted -/

/-- No shorter moves leave the constant. -/
def IsShortest (r : Reg) (value : Int64) (code : Emission) : Prop :=
  ∀ instrs, IsMoveSequence r instrs → (∀ i ∈ instrs, i.Regular) →
    (assemble instrs).bytes.length < code.bytes.length → ¬ Leaves r value instrs

lemma length_emit_load (r : Reg) (value : Int64) :
    (backend.emit (.load r value)).bytes.length = 4 * max 1 (4 - copies value (value < 0)) := by
  obtain ⟨shifts, -, hcount, hplaces⟩ := exists_places_load r value
  have hsign : (if value < 0 then 0xffff else 0) = fillHalf (value < 0) := by
    simp only [fillHalf, decide_eq_true_eq]
  have hsignificant : significant value = 4 - copies value (value < 0) := by
    rw [significant, hsign, ← countP_add_copies value (value < 0), Nat.add_sub_cancel]
  show (assemble (load r value)).bytes.length = _
  rw [length_assemble, ← List.length_map Instr.place?, hplaces, List.length_map, hcount, hsignificant]

lemma isShortest_of_le (r : Reg) (h : copies value (!decide (value < 0)) ≤ copies value (value < 0)) :
    IsShortest r value (backend.emit (.load r value)) := by
  intro instrs hseq hregular hlt hleaves
  rw [length_emit_load, length_assemble] at hlt
  have hpos : 0 < instrs.length := by
    obtain ⟨_, _, _, rest, -, rfl, -⟩ := hseq
    exact Nat.succ_pos _
  obtain ⟨bit, hbit⟩ := four_le_of_leaves hseq hregular hleaves (by omega)
  have hbest : copies value bit ≤ copies value (value < 0) := by
    by_cases hsign : bit = decide (value < 0)
    · rw [hsign]
    · rwa [Bool.eq_not_of_ne hsign]
  omega

/-- A constant is not all copies of the bit that is not its sign. -/
lemma moves_ne_nil (r : Reg) (value : Int64) :
    moves r value.toInt (fillHalf (!decide (value < 0))) (lead (!decide (value < 0))) [0, 16, 32, 48] ≠ [] := by
  intro hnil
  have hmoves : _ ∨ _ := maps_moves_lead (r := r) value (!decide (value < 0)) fun _ h => h
  rw [foldl_patch] at hmoves
  have hfill : value.toBitVec = BitVec.fill 64 (!decide (value < 0)) := (hmoves.resolve_right fun h => h.1 hnil).2
  by_cases hsign : value < 0
  · rw [decide_eq_true hsign] at hfill
    rw [show value = 0 from Int64.toBitVec_inj.mp hfill] at hsign
    exact absurd hsign (by decide)
  · rw [decide_eq_false hsign] at hfill
    rw [show value = -1 from Int64.toBitVec_inj.mp hfill] at hsign
    exact hsign (by decide)

lemma not_isShortest_of_lt (r : Reg) (value : Int64)
    (h : copies value (value < 0) < copies value (!decide (value < 0))) :
    ¬ IsShortest r value (backend.emit (.load r value)) := by
  have hne := moves_ne_nil r value
  have hlength := length_moves (r := r) value (!decide (value < 0)) (lead (!decide (value < 0)))
  have hpos := List.length_pos_iff.mpr hne
  intro hshortest
  refine hshortest _ ?_ regular_of_mem_moves ?_ (leaves_moves value _ hne)
  · obtain ⟨imm, shift, rest, hmoves, hrest⟩ := moves_cases.resolve_left hne
    refine ⟨lead (!decide (value < 0)), imm, shift, rest, ?_, hmoves, hrest⟩
    cases decide (value < 0)
    exacts [.inr rfl, .inl rfl]
  · rw [length_emit_load, length_assemble]
    omega

/-- **When the code for a constant is the shortest:** unless copies of the other bit make up more of its halfwords than
copies of the sign. -/
theorem isShortest_emit_iff (r : Reg) (value : Int64) :
    IsShortest r value (backend.emit (.load r value)) ↔ copies value (0 ≤ value) ≤ copies value (value < 0) := by
  have hother : decide (0 ≤ value) = !decide (value < 0) := by
    rw [← decide_not]
    exact decide_eq_decide.mpr Int64.not_lt.symm
  rw [hother]
  exact ⟨fun h => Nat.le_of_not_lt fun hlt => not_isShortest_of_lt r value hlt h, isShortest_of_le r⟩

/-- Three halfwords of ones below one of zeros get three moves, where one that inverts the fourth would do. -/
theorem not_isShortest_forty_eight_ones :
    ¬ IsShortest 0 0xffffffffffff (backend.emit (.load (0 : Reg) 0xffffffffffff)) :=
  not_isShortest_of_lt 0 0xffffffffffff (by decide)

end TapeElf.Arm64
