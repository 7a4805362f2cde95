import TapeElf.Proofs.GeneratorInvariant
import TapeElf.Proofs.S390x.Fragments

/-!
# The pieces of s390x code

Instructions differ in length, so it is not enough that code is patched within the bounds of a filler: the instructions
behind it must still be found. Generated code is a list of pieces (`Piece`), each of them whole instructions:

* straight code, which has no branch and does not write register zero;
* the filler of a loop, and the jumps that take its place and end the loop. They have the same size, though the
  instructions in them begin at different places.

Jumps lead to places between pieces (`Mark`), which a patch leaves where they are. So at every time there are pieces
that the code consists of (`exists_laid`).
-/

namespace TapeElf

/-! ## Registers that are set -/

def Roles.all {Reg : Type} (roles : Roles Reg) : List Reg :=
  [roles.call, roles.arg1, roles.arg2, roles.arg3, roles.tape]

/-- An operation outside loop control that sets no register but some. -/
def Operation.SetsOnly {Reg : Type} (regs : List Reg) : Operation Reg → Prop
  | load r _ | copy r _ | incReg r | decReg r | addReg r _ | subReg r _ => r ∈ regs
  | syscall | incCell _ | decCell _ | addCell .. | subCell .. | clearCell _ => True
  | loopFiller | jumpIfZero .. | jumpIfNonzero .. => False

namespace Backend

variable {b : Backend} {x : Operation b.Reg}

lemma setsOnly_of_mem_operations {o : Op} (h : x ∈ b.operations o) : x.SetsOnly b.roles.all := by
  cases o with
  | add n | sub n =>
    simp only [operations] at h
    repeat' split at h
    all_goals simp only [List.mem_singleton, List.not_mem_nil] at h
    all_goals subst h; trivial
  | right n | left n =>
    simp only [operations] at h
    split at h <;> rw [List.mem_singleton] at h <;> subst h <;> simp [Operation.SetsOnly, Roles.all]
  | output | input =>
    simp only [operations, transfer, List.mem_cons, List.not_mem_nil, or_false] at h
    rcases h with rfl | rfl | rfl | rfl | rfl <;> simp [Operation.SetsOnly, Roles.all]
  | clear =>
    rw [operations, List.mem_singleton] at h
    subst h
    trivial
  | loopOpen | loopClose => cases h

lemma setsOnly_of_mem_prologue (h : x ∈ b.prologue) : x.SetsOnly b.roles.all := by
  rw [prologue, List.mem_singleton] at h
  subst h
  simp [Operation.SetsOnly, Roles.all]

lemma setsOnly_of_mem_epilogue (h : x ∈ b.epilogue) : x.SetsOnly b.roles.all := by
  simp only [epilogue, List.mem_cons, List.not_mem_nil, or_false] at h
  rcases h with rfl | rfl | rfl <;> simp [Operation.SetsOnly, Roles.all]

end Backend

namespace S390x

/-- The register that an instruction writes. -/
def Instr.dest? : Instr → Option Reg
  | lgr r _ | lghi r _ | lgfi r _ | iihh r _ | iihl r _ | iihf r _ | llgc r _ | aghi r _ | agfi r _ | aih r _ => some r
  | stc .. | cfi .. | brc .. | brcl .. | svc | nop | nopr => none

/-- An instruction that is no branch and does not write register zero. -/
def Instr.Straight : Instr → Prop
  | brc .. | brcl .. => False
  | i => i.dest? ≠ some .r0

/-! ## Straight code -/

section

variable {r : Reg} (hr : r ≠ .r0)
include hr

lemma straight_loadWord (v : Int) : (loadWord r v).Straight := by
  unfold loadWord
  split_ifs <;> simpa [Instr.Straight, Instr.dest?]

lemma straight_insertHigh (low : Int) (high : Nat) : (insertHigh r low high).Straight := by
  unfold insertHigh
  extract_lets fill
  split_ifs <;> simpa [Instr.Straight, Instr.dest?]

lemma straight_load (value : Int64) : ∀ i ∈ load r value, i.Straight := by
  unfold load
  extract_lets v low
  split
  · exact List.forall_mem_singleton.mpr (straight_loadWord hr v)
  · exact List.forall_mem_cons.mpr
      ⟨straight_loadWord hr low, List.forall_mem_singleton.mpr (straight_insertHigh hr low _)⟩

lemma straight_changeWord (v : Int) : (changeWord r v).Straight := by
  unfold changeWord
  split <;> simpa [Instr.Straight, Instr.dest?]

lemma straight_change (v : Int) : ∀ i ∈ change r v, i.Straight := by
  have hhigh (imm : Int32) : (Instr.aih r imm).Straight := by simpa [Instr.Straight, Instr.dest?]
  unfold change
  split
  · exact List.forall_mem_singleton.mpr (straight_changeWord hr v)
  · refine List.forall_mem_append.mpr ⟨?_, List.forall_mem_singleton.mpr (hhigh _)⟩
    split
    · exact List.forall_mem_nil _
    · exact List.forall_mem_singleton.mpr (straight_changeWord hr _)

end

lemma straight_changeCell (r : Reg) (v : Int) : ∀ i ∈ changeCell r v, i.Straight := by
  have hscratch : scratch ≠ .r0 := by decide
  refine List.forall_mem_cons.mpr ⟨?_, List.forall_mem_append.mpr ⟨straight_change hscratch v, ?_⟩⟩
  · simp [Instr.Straight, Instr.dest?, scratch]
  · simp [Instr.Straight, Instr.dest?]

lemma exists_straight {x : Operation Reg} (h : x.SetsOnly backend.roles.all) :
    ∃ instrs, (emit x).bytes = (assemble instrs).bytes ∧ ∀ i ∈ instrs, i.Straight := by
  have hroles : ∀ r ∈ [Reg.r1, .r2, .r3, .r4, .r8], r ≠ .r0 := by decide
  cases x with
  | load r value => exact ⟨_, rfl, straight_load (hroles r h) value⟩
  | copy dst src => exact ⟨[.lgr dst src], rfl, by simpa [Instr.Straight, Instr.dest?] using hroles dst h⟩
  | syscall => exact ⟨[.svc], rfl, by simp [Instr.Straight, Instr.dest?]⟩
  | incReg r | decReg r | addReg r n | subReg r n => exact ⟨_, rfl, straight_change (hroles r h) _⟩
  | incCell r | decCell r | addCell r n | subCell r n => exact ⟨_, rfl, straight_changeCell r _⟩
  | clearCell r => exact ⟨[.stc .r0 r], rfl, by simp [Instr.Straight, Instr.dest?]⟩
  | loopFiller | jumpIfZero | jumpIfNonzero => exact h.elim

lemma exists_straight_bytes {xs : List (Operation backend.Reg)} (h : ∀ x ∈ xs, x.SetsOnly backend.roles.all) :
    ∃ instrs, backend.bytes xs = (assemble instrs).bytes ∧ ∀ i ∈ instrs, i.Straight := by
  induction xs with
  | nil => exact ⟨[], rfl, List.forall_mem_nil _⟩
  | cons x xs ih =>
    obtain ⟨hx, hxs⟩ := List.forall_mem_cons.mp h
    obtain ⟨first, hfirst, hstraight⟩ := exists_straight hx
    obtain ⟨rest, hrest, hstraight'⟩ := ih hxs
    refine ⟨first ++ rest, ?_, List.forall_mem_append.mpr ⟨hstraight, hstraight'⟩⟩
    rw [Backend.bytes_cons, hrest, Emission.bytes_assemble_append, ← hfirst]
    rfl

/-! ## Pieces -/

inductive Piece where
  | straight (instrs : List Instr)
  | filler
  | jump (mask : Mask) (halfwords : Int32)

def Piece.instrs : Piece → List Instr
  | straight instrs => instrs
  | filler => [.brc .always 1, .nop, .nop, .nop, .nopr]
  | jump mask halfwords => [.llgc scratch .r8, .cfi scratch 0, .brcl mask halfwords]

def listing (pieces : List Piece) : List Instr := pieces.flatMap Piece.instrs

lemma listing_append (a b : List Piece) : listing (a ++ b) = listing a ++ listing b := List.flatMap_append

/-- The code of some pieces. -/
def layOut (pieces : List Piece) : Bytes := (assemble (listing pieces)).bytes

variable {pieces pre post : List Piece} {n : Nat}

@[simp] lemma layOut_append (a b : List Piece) : layOut (a ++ b) = layOut a ++ layOut b := by
  rw [layOut, listing_append, Emission.bytes_assemble_append]
  rfl

lemma layOut_cons (p : Piece) (pieces : List Piece) : layOut (p :: pieces) = layOut [p] ++ layOut pieces :=
  layOut_append [p] pieces

lemma layOut_straight (instrs : List Instr) : layOut [.straight instrs] = (assemble instrs).bytes := by
  rw [layOut, listing, List.flatMap_singleton]
  rfl

lemma layOut_filler : layOut [.filler] = (backend.emit .loopFiller).bytes := rfl

lemma length_layOut_filler : (layOut [.filler]).length = 18 := by
  rfl

lemma length_layOut_jump (mask : Mask) (halfwords : Int32) : (layOut [.jump mask halfwords]).length = 18 := by
  rfl

/-! ## Marks -/

/-- A place between two pieces, or at an end of the code. -/
def Mark (pieces : List Piece) (n : Nat) : Prop := ∃ pre post, pieces = pre ++ post ∧ (layOut pre).length = n

lemma Mark.append (h : Mark pieces n) (more : List Piece) : Mark (pieces ++ more) n := by
  obtain ⟨pre, post, rfl, hn⟩ := h
  exact ⟨pre, post ++ more, List.append_assoc pre post more, hn⟩

/-- A piece that takes the place of another of the same size moves no mark. -/
lemma Mark.replace {p q : Piece} (hsize : (layOut [q]).length = (layOut [p]).length) (h : Mark (pre ++ p :: post) n) :
    Mark (pre ++ q :: post) n := by
  obtain ⟨a, b, hsplit, hn⟩ := h
  rcases List.append_eq_append_iff.mp hsplit with ⟨c, rfl, hrest⟩ | ⟨c, rfl, hrest⟩
  · cases c with
    | nil => exact ⟨pre, q :: post, rfl, by rwa [List.append_nil] at hn⟩
    | cons p' c =>
      obtain ⟨rfl, rfl⟩ := List.cons.inj hrest
      refine ⟨pre ++ q :: c, b, by simp, ?_⟩
      rw [← hn, layOut_append, layOut_append, layOut_cons q, layOut_cons p]
      simp only [List.length_append, hsize]
  · exact ⟨a, c ++ q :: post, by simp, hn⟩

/-! ## Jumps -/

/-- Where a jump at an offset leads to. -/
def Instr.target (n : Nat) : Instr → List Int
  | brcl _ halfwords => [n + 2 * halfwords.toInt]
  | _ => []

/-- Where the jumps among instructions lead to that start at an offset. -/
def targets : Nat → List Instr → List Int
  | _, [] => []
  | n, i :: instrs => i.target n ++ targets (n + i.encode.length) instrs

lemma targets_append (n : Nat) (a b : List Instr) :
    targets n (a ++ b) = targets n a ++ targets (n + (assemble a).bytes.length) b := by
  induction a generalizing n with
  | nil => rfl
  | cons i a ih =>
    rw [List.cons_append, targets, targets, ih, Emission.bytes_assemble_cons, List.length_append, List.append_assoc,
      Nat.add_assoc]

lemma Instr.Straight.target_eq {i : Instr} (h : i.Straight) (n : Nat) : i.target n = [] := by
  cases i with
  | brcl => exact h.elim
  | _ => rfl

lemma targets_of_straight {instrs : List Instr} (h : ∀ i ∈ instrs, i.Straight) (n : Nat) : targets n instrs = [] := by
  induction instrs generalizing n with
  | nil => rfl
  | cons i instrs ih =>
    obtain ⟨hi, hinstrs⟩ := List.forall_mem_cons.mp h
    rw [targets, hi.target_eq, ih hinstrs, List.append_nil]

lemma targets_listing_append (n : Nat) (a b : List Piece) :
    targets n (listing (a ++ b)) = targets n (listing a) ++ targets (n + (layOut a).length) (listing b) := by
  rw [listing_append, targets_append]
  rfl

lemma targets_filler (n : Nat) : targets n (listing [.filler]) = [] := by
  rfl

lemma targets_jump (n : Nat) (mask : Mask) (halfwords : Int32) :
    targets n (listing [.jump mask halfwords]) = [((n + 12 : Nat) : Int) + 2 * halfwords.toInt] := by
  rfl

/-- The jumps of pieces lead to marks, and the straight ones among them are straight. -/
structure Sound (pieces : List Piece) : Prop where
  straight : ∀ instrs, .straight instrs ∈ pieces → ∀ i ∈ instrs, i.Straight
  lands : ∀ t ∈ targets 0 (listing pieces), ∃ n, Mark pieces n ∧ (n : Int) = t

namespace Sound

lemma nil : Sound [] := ⟨nofun, nofun⟩

/-- Code that grows by a piece without a jump. -/
lemma append {p : Piece} (h : Sound pieces) (hstraight : ∀ instrs, p = .straight instrs → ∀ i ∈ instrs, i.Straight)
    (htargets : ∀ n, targets n (listing [p]) = []) : Sound (pieces ++ [p]) where
  straight instrs hmem := by
    rcases List.mem_append.mp hmem with hmem | hmem
    · exact h.straight instrs hmem
    · exact hstraight instrs (List.mem_singleton.mp hmem).symm
  lands t ht := by
    rw [targets_listing_append, htargets, List.append_nil] at ht
    obtain ⟨n, hmark, hn⟩ := h.lands t ht
    exact ⟨n, hmark.append [p], hn⟩

/-- A loop is closed: one jump leads behind the other, and that one behind it. -/
lemma close (h : Sound (pre ++ .filler :: post)) {forth back : Int32}
    (hforth : 2 * forth.toInt = (18 + (layOut post).length : Nat) + 6)
    (hback : 2 * back.toInt = -(18 + (layOut post).length : Nat) + 6) :
    Sound (pre ++ .jump .eq forth :: (post ++ [.jump .ne back])) where
  straight instrs hmem := by
    refine h.straight instrs ?_
    simp only [List.mem_append, List.mem_cons, reduceCtorEq, false_or, List.not_mem_nil, or_false] at hmem ⊢
    exact hmem
  lands t ht := by
    have hold : ∀ n, Mark (pre ++ .filler :: post) n →
        Mark (pre ++ .jump .eq forth :: (post ++ [.jump .ne back])) n := by
      intro n hmark
      have hmark' := (hmark.replace (length_layOut_jump .eq forth)).append [.jump .ne back]
      rwa [List.append_assoc, List.cons_append] at hmark'
    have hcases : t ∈ targets 0 (listing (pre ++ .filler :: post)) ∨
        t = (layOut pre).length + 12 + 2 * forth.toInt ∨
        t = (layOut pre).length + 18 + (layOut post).length + 12 + 2 * back.toInt := by
      rw [← List.singleton_append] at ht ⊢
      simp only [targets_listing_append, targets_jump, targets_filler, length_layOut_jump, length_layOut_filler,
        Nat.zero_add, List.mem_append, List.mem_singleton, List.not_mem_nil, false_or] at ht ⊢
      push_cast at ht
      tauto
    rcases hcases with hin | rfl | rfl
    · obtain ⟨n, hmark, hn⟩ := h.lands t hin
      exact ⟨n, hold n hmark, hn⟩
    · refine ⟨_, ⟨_, [], (List.append_nil _).symm, rfl⟩, ?_⟩
      rw [layOut_append, layOut_cons, layOut_append]
      simp only [List.length_append, length_layOut_jump]
      push_cast
      omega
    · refine ⟨_, ⟨pre ++ [.jump .eq forth], post ++ [.jump .ne back], by simp, rfl⟩, ?_⟩
      simp only [layOut_append, List.length_append, length_layOut_jump]
      push_cast
      omega

end Sound

/-! ## Generators -/

/-- The fillers of the open loops, innermost first, are pieces. -/
inductive Opened : List OpenLoop → List Piece → Prop
  | none (pieces : List Piece) : Opened [] pieces
  | loop {loops : List OpenLoop} {pre : List Piece} (h : Opened loops pre) {l : OpenLoop}
      (hl : l.offset = (layOut pre).length) (post : List Piece) : Opened (l :: loops) (pre ++ .filler :: post)

lemma Opened.append {loops : List OpenLoop} (h : Opened loops pieces) (more : List Piece) :
    Opened loops (pieces ++ more) := by
  cases h with
  | none => exact .none _
  | loop h hl post =>
    rw [List.append_assoc, List.cons_append]
    exact .loop h hl _

/-- The code of a generator consists of pieces. -/
structure Laid (pieces : List Piece) (g : Generator) : Prop where
  code : g.code.toList = layOut pieces
  sound : Sound pieces
  opened : Opened g.loops pieces

lemma exists_jump {mask : Mask} {k : Int64} (h : (loopJump mask .r8 k).fault = none) :
    ∃ halfwords, (loopJump mask .r8 k).bytes = layOut [.jump mask halfwords] ∧ 2 * halfwords.toInt = k.toInt + 6 := by
  have hk : k.toInt % 2 = 0 ∧ fits 33 (k.toInt + 6) = true := (fault_alignedJump rfl).mp h
  refine ⟨Int32.ofInt ((k.toInt + 6) / 2), ?_, two_mul_halfwords hk.1 hk.2⟩
  simp only [loopJump, hk.1, hk.2, ne_eq, not_true_eq_false, if_false, if_true]
  rfl

namespace Laid

variable {g : Generator}

lemma new : Laid [] {} := ⟨rfl, .nil, .none []⟩

lemma size_eq (h : Laid pieces g) : g.code.size = (layOut pieces).length := by
  rw [← Code.length_toList, h.code]

lemma exists_emitAll (h : Laid pieces g) {xs : List (Operation backend.Reg)}
    (hxs : ∀ x ∈ xs, x.SetsOnly backend.roles.all) (e : Option Event) :
    ∃ pieces', Laid pieces' (Generator.emitAll backend (g.note e) xs).1 := by
  obtain ⟨ys, hys, hcode, -⟩ := Generator.emitAll_spec xs (g.note e)
  obtain ⟨instrs, hbytes, hstraight⟩ := exists_straight_bytes fun y hy => hxs y (hys.subset hy)
  refine ⟨pieces ++ [.straight instrs], ?_⟩
  rw [hcode, Generator.code_note, Generator.loops_note]
  refine ⟨?_, h.sound.append ?_ fun n => ?_, h.opened.append _⟩
  · rw [Code.toList_append, h.code, hbytes, layOut_append, layOut_straight]
  · rintro _ ⟨⟩
    exact hstraight
  · rw [listing, List.flatMap_singleton]
    exact targets_of_straight hstraight n

lemma opens (h : Laid pieces g) (location : Option Location) :
    Laid (pieces ++ [.filler]) (Generator.openLoop backend g location).1 := by
  rw [Generator.openLoop_eq lawful]
  refine ⟨?_, h.sound.append nofun targets_filler, .loop h.opened h.size_eq []⟩
  rw [Code.toList_append, h.code, layOut_append, layOut_filler]

/-- The filler of a loop makes way for a jump, and another jump ends the loop. -/
lemma closes (h : Laid (pre ++ .filler :: post) g) {loops : List OpenLoop} (hopen : Opened loops pre)
    {forth back : Int32} (hforth : 2 * forth.toInt = (18 + (layOut post).length : Nat) + 6)
    (hback : 2 * back.toInt = -(18 + (layOut post).length : Nat) + 6) (journal : Journal) :
    Laid (pre ++ .jump .eq forth :: (post ++ [.jump .ne back])) {
      code := (g.code.patch (layOut pre).length (layOut [.jump .eq forth])).append (layOut [.jump .ne back])
      loops, journal } := by
  refine ⟨?_, h.sound.close hforth hback, hopen.append _⟩
  have hcode : g.code.toList = layOut pre ++ layOut [.filler] ++ layOut post := by
    rw [h.code, layOut_append, layOut_cons, List.append_assoc]
  have hpatch : (g.code.patch (layOut pre).length (layOut [.jump .eq forth])).toList =
      layOut pre ++ layOut [.jump .eq forth] ++ layOut post := Code.toList_patch hcode (length_layOut_jump _ _)
  rw [Code.toList_append, hpatch, layOut_append, layOut_cons (.jump .eq forth) (post ++ _), layOut_append]
  simp only [List.append_assoc]

/-- A loop is closed, or it is forgotten and its filler stays. -/
lemma exists_closeLoop (h : Laid pieces g) : ∃ pieces', Laid pieces' (Generator.closeLoop backend g).1 := by
  have hopened := h.opened
  cases hloops : g.loops with
  | nil =>
    refine ⟨pieces, ?_⟩
    simp only [Generator.closeLoop, hloops]
    exact h
  | cons l loops =>
    rw [hloops] at hopened
    cases hopened with
    | @loop _ pre hopen _ hl post =>
      have hsize := h.size_eq
      rw [layOut_append, layOut_cons] at hsize
      simp only [List.length_append, length_layOut_filler] at hsize
      have hjump : backend.jumpSize = 18 := rfl
      have hdistance : g.code.size - l.offset = 18 + (layOut post).length := by omega
      rcases Generator.closeLoop_cases lawful hloops (by omega) hdistance with
        ⟨⟨hsmall, hfault⟩, journal, hclose⟩ | ⟨-, f, hclose, -⟩
      · have hint : (Int64.ofNat (18 + (layOut post).length)).toInt = (18 + (layOut post).length : Nat) :=
          Int64.toInt_ofNat_of_lt hsmall
        have hnonneg : 0 ≤ (Int64.ofNat (18 + (layOut post).length)).toInt := by omega
        obtain ⟨forth, hforth, hlands⟩ := exists_jump hfault
        obtain ⟨back, hback, hlands'⟩ := exists_jump (lawful.jump_back _ hnonneg hfault)
        rw [hint] at hlands
        rw [toInt_neg_of_nonneg hnonneg, hint] at hlands'
        have hlaid := h.closes hopen hlands hlands' journal
        rw [← hforth, ← hback, ← hl] at hlaid
        rw [hclose]
        exact ⟨_, hlaid⟩
      · rw [hclose]
        exact ⟨_, h.code, h.sound, hopen.append _⟩

/-- **After every step the code consists of pieces.** -/
theorem exists_step (h : Laid pieces g) (op : Op) (location : Option Location) :
    ∃ pieces', Laid pieces' (Generator.step backend g op location).1 := by
  cases op with
  | loopOpen => exact ⟨_, h.opens location⟩
  | loopClose => exact h.exists_closeLoop
  | _ => exact h.exists_emitAll (fun x hx => Backend.setsOnly_of_mem_operations hx) _

end Laid

/-- **At every time the code consists of pieces:** after any calls, and after any ops of a further one. -/
theorem exists_laid (calls : List Call) (ops : List (Op × Option Location)) (memory : Memory) :
    ∃ pieces, Laid pieces (Generator.stepsAt backend (Generator.after backend calls) ops memory).1 := by
  refine Generator.kept_at_every_time (P := fun g => ∃ pieces, Laid pieces g) ⟨[], .new⟩ ?_ ?_ ?_ calls ops memory
  · rintro g ⟨pieces, h⟩
    exact h.exists_emitAll (fun x hx => Backend.setsOnly_of_mem_prologue hx) none
  · rintro g ⟨pieces, h⟩
    exact h.exists_emitAll (fun x hx => Backend.setsOnly_of_mem_epilogue hx) none
  · rintro g op location ⟨pieces, h⟩
    exact h.exists_step op location

end S390x

end TapeElf
