import TapeElf.Proofs.Arm64.Fragments
import TapeElf.Proofs.CodeSize

/-!
# Constants on ARM64

Code that loads a constant is a sequence of moves, of which the first fills the register with copies of the sign and the
others keep what is there. There is one for every halfword that is not made of copies of the sign, and one if there is no
such halfword (`loadsByHalfwords_emit`). What the moves do is told with the other fragments (`maps_load`).
-/

namespace TapeElf.Arm64

variable {r : Reg} {v : Int} {fill : UInt16} {kind : Move} {shifts : List UInt8}

/-! ## Moves -/

/-- The halfword that a move sets, by its lowest bit. -/
def Instr.place? : Instr → Option UInt8
  | movWide _ _ _ shift => some shift
  | _ => none

/-- A move that leaves the rest of a register as it is. -/
def Instr.Keeps (r : Reg) (i : Instr) : Prop := ∃ imm shift, i = .movWide .keep r imm shift

/-- One move that fills the rest of a register with zeros or ones, and then moves that keep it. -/
def IsMoveSequence (r : Reg) (instrs : List Instr) : Prop :=
  ∃ lead imm shift rest, (lead = Move.zero ∨ lead = .invert) ∧ instrs = .movWide lead r imm shift :: rest ∧
    ∀ i ∈ rest, i.Keeps r

/-- The moves set the halfwords that are to differ from the fill, each of them once. -/
lemma map_place_moves :
    (moves r v fill kind shifts).map Instr.place? = (shifts.filter fun s => halfword v s.toNat ≠ fill).map some := by
  induction shifts generalizing kind with
  | nil => rfl
  | cons shift shifts ih =>
    rw [moves]
    split
    · next hfill => rw [ih, List.filter_cons_of_neg (by simp [hfill])]
    · next hfill =>
      rw [List.map_cons, ih, List.filter_cons_of_pos (by simp [hfill]), List.map_cons]
      rfl

lemma keeps_of_mem_moves : ∀ i ∈ moves r v fill .keep shifts, i.Keeps r := by
  induction shifts with
  | nil => exact List.forall_mem_nil _
  | cons shift shifts ih =>
    rw [moves]
    split
    · exact ih
    · exact List.forall_mem_cons.mpr ⟨⟨_, _, rfl⟩, ih⟩

lemma moves_cases : moves r v fill kind shifts = [] ∨
    ∃ imm shift rest, moves r v fill kind shifts = .movWide kind r imm shift :: rest ∧ ∀ i ∈ rest, i.Keeps r := by
  induction shifts with
  | nil => exact .inl rfl
  | cons shift shifts ih =>
    rw [moves]
    split
    · exact ih
    · exact .inr ⟨_, _, _, rfl, keeps_of_mem_moves⟩

lemma Instr.regular_of_place {i : Instr} {shift : UInt8} (h : i.place? = some shift) (hshift : shift ∈ [0, 16, 32, 48]) :
    i.Regular := by
  cases i with
  | movWide kind rd imm shift' =>
    obtain rfl : shift' = shift := Option.some.inj h
    exact hshift
  | _ => cases h

/-! ## Constants -/

/-- How many halfwords of a constant are not made of copies of its sign. -/
def significant (value : Int64) : Nat :=
  [0, 16, 32, 48].countP fun k => half value.toBitVec k ≠ if value < 0 then 0xffff else 0

lemma fillHalf_sign (value : Int64) : fillHalf (value.toInt < 0) = if value < 0 then 0xffff else 0 := by
  simp only [fillHalf, decide_eq_true_eq, Int64.lt_iff_toInt_lt]
  rfl

lemma length_filter_halfword (value : Int64) (sign : Bool) :
    ([0, 16, 32, 48].filter fun s : UInt8 => halfword value.toInt s.toNat ≠ fillHalf sign).length =
      [0, 16, 32, 48].countP fun k => half value.toBitVec k ≠ fillHalf sign := by
  have hplaces : [0, 16, 32, 48] = [0, 16, 32, 48].map UInt8.toNat := rfl
  rw [hplaces, List.countP_map, List.countP_eq_length_filter]
  congr 1
  apply List.filter_congr
  intro s hs
  have hle : s.toNat ≤ 48 := by
    simp only [List.mem_cons, List.not_mem_nil, or_false] at hs
    rcases hs with rfl | rfl | rfl | rfl <;> decide
  rw [halfword_toInt value hle, Function.comp_apply]

lemma length_filter_eq_significant (value : Int64) :
    ([0, 16, 32, 48].filter fun s : UInt8 => halfword value.toInt s.toNat ≠ fillHalf (value.toInt < 0)).length =
      significant value := by
  rw [length_filter_halfword, significant, fillHalf_sign]

lemma exists_places_load (r : Reg) (value : Int64) : ∃ shifts : List UInt8, shifts.Sublist [0, 16, 32, 48] ∧
    shifts.length = max 1 (significant value) ∧ (load r value).map Instr.place? = shifts.map some := by
  have hlen := length_filter_eq_significant value
  rcases load_cases r value with ⟨hnil, hload⟩ | ⟨hne, hload⟩
  · -- None is significant, and the one move is there to fill the register.
    have hnone := congrArg (List.map Instr.place?) hnil
    rw [map_place_moves, List.map_nil, List.map_eq_nil_iff] at hnone
    rw [hnone, List.length_nil] at hlen
    refine ⟨[0], by decide, ?_, by rw [hload]; rfl⟩
    rw [← hlen]
    rfl
  · refine ⟨_, List.filter_sublist, ?_, by rw [hload, map_place_moves]⟩
    have hsome := List.length_pos_iff.mpr hne
    rw [← List.length_map Instr.place?, map_place_moves, List.length_map, hlen] at hsome
    rw [hlen, max_eq_right hsome]

lemma isMoveSequence_load (r : Reg) (value : Int64) : IsMoveSequence r (load r value) := by
  have hlead : lead (value.toInt < 0) = .zero ∨ lead (value.toInt < 0) = .invert := by
    unfold lead
    split
    exacts [.inr rfl, .inl rfl]
  rcases load_cases r value with ⟨-, hload⟩ | ⟨hne, hload⟩
  · exact ⟨_, _, _, [], hlead, hload, List.forall_mem_nil _⟩
  · obtain ⟨imm, shift, rest, hmoves, hrest⟩ := moves_cases.resolve_left hne
    exact ⟨_, imm, shift, rest, hlead, hload.trans hmoves, hrest⟩

/-- The code loads a constant into a register. -/
structure LoadsByHalfwords (r : Reg) (value : Int64) (code : Emission) : Prop where
  fault : code.fault = none
  /-- It is a sequence of moves, no two of them into the same halfword, and as long as there are significant ones. -/
  listing : ∃ instrs, processor.Lists instrs code.bytes ∧ IsMoveSequence r instrs ∧ (instrs.map Instr.place?).Nodup ∧
    instrs.length = max 1 (significant value)
  length_eq : code.bytes.length = 4 * max 1 (significant value)
  /-- From every state it leaves the constant in the register, and all else as it was. -/
  effect : ∀ m, ∃ m', processor.Passes code.bytes m m' ∧
    m'.regs = Function.update m.regs r.val value.toBitVec ∧ m'.memory = m.memory

/-- **Every constant is loaded**, by moves of its significant halfwords. -/
theorem loadsByHalfwords_emit (r : Reg) (value : Int64) :
    LoadsByHalfwords r value (backend.emit (.load r value)) := by
  obtain ⟨shifts, hsub, hcount, hplaces⟩ := exists_places_load r value
  have hlen : (load r value).length = max 1 (significant value) := by
    rw [← List.length_map Instr.place?, hplaces, List.length_map, hcount]
  have hregular : ∀ i ∈ load r value, i.Regular := by
    intro i hi
    have hmem : i.place? ∈ shifts.map some := by
      rw [← hplaces]
      exact List.mem_map_of_mem hi
    obtain ⟨shift, hshift, hi⟩ := List.mem_map.mp hmem
    exact Instr.regular_of_place hi.symm (hsub.subset hshift)
  have hnodup : ((load r value).map Instr.place?).Nodup := by
    rw [hplaces]
    exact (hsub.nodup (by decide)).map (Option.some_injective _)
  refine ⟨rfl, ⟨load r value, ?_, isMoveSequence_load r value, hnodup, hlen⟩, ?_, maps_load r value⟩
  · exact Processor.lists_flatMap fun i hi => encodes (hregular i hi)
  · show (assemble (load r value)).bytes.length = _
    rw [length_assemble, hlen]

end TapeElf.Arm64
