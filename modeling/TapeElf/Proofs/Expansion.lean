import TapeElf.Proofs.Canonical
import TapeElf.Proofs.OptimizerMeaning

/-!
# Expanding keeps what ops do

* `Program.expand p`: the program `p` with every op written out in commands, a `clear` as the loop that counts its cell
  down;
* `refines_expand`: the two do the same, from every state. The induction is on the program: an op is exchanged for its
  commands where it stands, and what follows it, or stands in the body of a loop, is exchanged by hypothesis;
* `IsExpansion ops source`: what a plain source has to do with the ops it was expanded from;
* `expandText_isExpansion`: a text of ops, also one that no optimiser would write, is expanded to such a source, or its
  failure is reported.
-/

namespace TapeElf

open Program

/-! ## Programs written out -/

/-- `n` times a command other than a bracket. -/
def Command.times (c : Command) (h : (Op.ofCommand c).isBracket = false) (n : Nat) : Program :=
  ofPlain (List.replicate n ⟨.ofCommand c, h⟩)

/-- The commands of an op, as a program. -/
def PlainOp.expand : PlainOp → Program
  | ⟨.add n, _⟩ => Command.times .inc rfl n.toNat
  | ⟨.sub n, _⟩ => Command.times .dec rfl n.toNat
  | ⟨.right n, _⟩ => Command.times .right rfl n.toNat
  | ⟨.left n, _⟩ => Command.times .left rfl n.toNat
  | ⟨.output, _⟩ => Command.times .output rfl 1
  | ⟨.input, _⟩ => Command.times .input rfl 1
  | ⟨.clear, _⟩ => loop (Command.times .dec rfl 1) nil

/-- A program with every op written out. -/
def Program.expand : Program → Program
  | nil => nil
  | op o rest => PlainOp.expand o ++ rest.expand
  | loop body rest => loop body.expand rest.expand

lemma Command.ops_times (c : Command) (h : (Op.ofCommand c).isBracket = false) (n : Nat) :
    (c.times h n).ops = Command.ops (unroll [(c, n)]) := by
  rw [Command.times, ops_ofPlain, List.map_replicate, unroll_cons, Command.ops_append, ops_replicate]
  simp [unroll, Command.ops]

lemma PlainOp.ops_expand (o : PlainOp) : (PlainOp.expand o).ops = Command.ops (unroll o.val.commands) := by
  obtain ⟨op, h⟩ := o
  cases op with
  | loopOpen | loopClose => cases h
  | clear => rfl
  | _ => exact Command.ops_times _ rfl _

lemma Program.ops_expand (p : Program) : p.expand.ops = Command.ops (unroll (Op.blocks p.ops)) := by
  induction p with
  | nil => rfl
  | op o rest ih =>
    rw [expand, ops_append, PlainOp.ops_expand, ih, ops_op, Op.blocks_cons, unroll_append, Command.ops_append]
  | loop body rest ihb ihr =>
    rw [expand, ops_loop, ops_loop, ihb, ihr, Op.blocks_cons, Op.blocks_append, Op.blocks_cons]
    simp only [unroll_append, Command.ops_append]
    rfl

lemma PlainOp.refines_expand {ι : Type*} {io : Console ι} (z : Bool) (o : PlainOp) :
    Refines io z (PlainOp.expand o) (ofPlain [o]) := by
  obtain ⟨op, h⟩ := o
  cases op with
  | loopOpen | loopClose => cases h
  | output | input => exact .refl z _
  | clear => exact refines_clear (.inr rfl) rfl
  | add n => exact refines_count (c := .inc) rfl rfl n rfl
  | sub n => exact refines_count (c := .dec) rfl rfl n rfl
  | right n => exact refines_count (c := .right) rfl rfl n rfl
  | left n => exact refines_count (c := .left) rfl rfl n rfl

/-- **A program written out does what the program does.** -/
theorem Program.refines_expand {ι : Type*} {io : Console ι} (z : Bool) (p : Program) : Refines io z p.expand p := by
  induction p generalizing z with
  | nil => exact .refl z nil
  | op o rest ih => exact ((PlainOp.refines_expand z o).before rest.expand).trans ((ih false).under_op z o)
  | loop body rest ihb ihr => exact ((ihb false).in_body z rest.expand).trans ((ihr true).after_loop z body)

/-! ## Plain sources -/

lemma sourceOps_expansion (ops : List Op) : sourceOps (Op.expansion ops) = Command.ops (unroll (Op.blocks ops)) := by
  rw [sourceOps, Op.expansion, Command.ofSource_map_byte]

universe u

/-- A source that says in plain commands what ops say. -/
structure IsExpansion (ops : List Op) (source : Bytes) : Prop where
  /-- It has no comments. -/
  commands : ∀ b ∈ source, ∃ c : Command, b = c.byte
  balanced : Balanced (sourceOps source) ↔ Balanced ops
  /-- If the brackets match, source and ops have the same behaviour, from every state and whatever they read from. -/
  behaviour : ∀ p : Program, p.ops = ops → ∃ q : Program, q.ops = sourceOps source ∧
    ∀ {ι : Type u} (io : Console ι) (s : State ι), SameBehaviour io s q p

theorem isExpansion_expansion (ops : List Op) : IsExpansion.{u} ops (Op.expansion ops) where
  commands b hb := by
    obtain ⟨c, -, rfl⟩ := List.mem_map.mp hb
    exact ⟨c, rfl⟩
  balanced := by rw [Balanced, Balanced, depth?_expansion]
  behaviour := by
    rintro p rfl
    refine ⟨p.expand, by rw [ops_expand, sourceOps_expansion], fun io s => ?_⟩
    exact (refines_expand false p).sameBehaviour (by simp)

/-! ## Texts -/

/-- Expanding ops fails for want of memory only. -/
lemma exists_shortage_of_expand {available : Nat} {ops : List Op} {d : Diagnostic}
    (h : Op.expand available ops = .error d) : ∃ shortage, d = (Cause.expansionMemory shortage).diagnostic := by
  suffices key : ∀ done length, expandFrom available done length ops = .error d →
      ∃ shortage, d = (Cause.expansionMemory shortage).diagnostic from key [] 0 h
  clear h
  induction ops with
  | nil =>
    intro done length h
    cases h
  | cons op ops ih =>
    intro done length h
    unfold expandFrom at h
    split at h
    · next shortage _ =>
      cases h
      exact ⟨shortage, rfl⟩
    · exact ih _ _ h

lemma expandText_of_accepted {text : Bytes} {ops : List Op} (h : Op.read text = (ops, none)) (available : Nat) :
    expandText available text = Op.expand available ops := by
  simp only [expandText, h]
  cases Op.expand available ops <;> rfl

/-- A failure of the text is reported once everything before it is expanded. -/
lemma expandText_of_rejected {text : Bytes} {ops : List Op} {d : Diagnostic} (h : Op.read text = (ops, some d))
    (available : Nat) : expandText available text = (Op.expand available ops).bind fun _ => .error d := by
  simp only [expandText, h]
  cases Op.expand available ops <;> rfl

/-- **A text of ops is expanded to a plain source that says the same, or its failure is reported.** A text that is read
to its end has an expansion, which it is given if that is no longer than the memory that can be had. For any other
text the failure of reading it is reported, unless there was no memory for what stands before. -/
theorem expandText_isExpansion (text : Bytes) :
    (∀ ops, Op.read text = (ops, none) → (Op.expansion ops).length < 2 ^ 63 →
      ∃ source, IsExpansion.{u} ops source ∧
        ∀ available, source.length ≤ available → expandText available text = .ok source) ∧
    ∀ ops d, Op.read text = (ops, some d) → ∀ available,
      ((Op.expansion ops).length < 2 ^ 63 → (Op.expansion ops).length ≤ available →
        expandText available text = .error d) ∧
      (expandText available text = .error d ∨
        ∃ shortage, expandText available text = .error (Cause.expansionMemory shortage).diagnostic) := by
  constructor
  · intro ops hread hlen
    refine ⟨Op.expansion ops, isExpansion_expansion ops, fun available hmem => ?_⟩
    rw [expandText_of_accepted hread, Op.expand_eq_ok hmem hlen]
  · intro ops d hread available
    constructor
    · intro hlen hmem
      rw [expandText_of_rejected hread, Op.expand_eq_ok hmem hlen]
      rfl
    · rw [expandText_of_rejected hread]
      cases hexpand : Op.expand available ops with
      | ok source => exact .inl rfl
      | error e =>
        obtain ⟨shortage, rfl⟩ := exists_shortage_of_expand hexpand
        exact .inr ⟨shortage, rfl⟩

/-- The text `#0[@-]=102`, with a count of zero, a `clear` in a loop and a count above 255, and the text `@#`. -/
theorem expandText_isExpansion_uncommon_counts :
    (Op.read [35, 48, 91, 64, 45, 93, 61, 49, 48, 50] =
        ([.add 0, .loopOpen, .clear, .sub 1, .loopClose, .sub 258], none) ∧
      (Op.expansion [.add 0, .loopOpen, .clear, .sub 1, .loopClose, .sub 258]).length < 2 ^ 63 ∧
      ∃ source, IsExpansion.{0} [.add 0, .loopOpen, .clear, .sub 1, .loopClose, .sub 258] source ∧
        ∀ available, source.length ≤ available →
          expandText available [35, 48, 91, 64, 45, 93, 61, 49, 48, 50] = .ok source) ∧
    Op.read [64, 35] = ([.clear], some ((Cause.missingCount '#').diagnostic.withInstruction '#')) ∧
    expandText 3 [64, 35] = .error ((Cause.missingCount '#').diagnostic.withInstruction '#') := by
  have haccepted : Op.read [35, 48, 91, 64, 45, 93, 61, 49, 48, 50] =
      ([.add 0, .loopOpen, .clear, .sub 1, .loopClose, .sub 258], none) := by cbv
  have hlen : (Op.expansion [.add 0, .loopOpen, .clear, .sub 1, .loopClose, .sub 258]).length < 2 ^ 63 := by
    simp only [Op.length_expansion, Op.blocks_cons, Op.blocks_nil, Op.commands, List.cons_append, List.nil_append,
      length_unroll_cons]
    decide
  have hrejected : Op.read [64, 35] = ([.clear], some ((Cause.missingCount '#').diagnostic.withInstruction '#')) := by
    have hclear : Op.next 64 [35] = .ok (.clear, [35]) := rfl
    have hmissing : Op.next 35 [] = .error ((Cause.missingCount '#').diagnostic.withInstruction '#') := rfl
    rw [Op.read, Op.readFrom_cons_ok hclear, Op.readFrom_cons_error hmissing]
    rfl
  refine ⟨⟨haccepted, hlen, (expandText_isExpansion.{0} _).1 _ haccepted hlen⟩, hrejected, ?_⟩
  exact ((expandText_isExpansion.{0} _).2 _ _ hrejected 3).1 (by decide) (by decide)

end TapeElf
