import TapeElf.Proofs.Canonical

/-!
# The shape of optimised ops

`Canonical` says of ops that no pass finds anything in the commands they stand for. Here this is said of the ops
themselves (`NormalForm`): which of them may be neighbours, how large their counts are, and where none may stand that
does nothing because its cell is zero.

A neighbour of an op touches its first or its last command only (`Op.isChain_of_blocks`), so a condition on
neighbouring ops comes from the one on neighbouring commands.
-/

namespace TapeElf

namespace Op

/-- The ops that change the cell by a count. -/
def isChange : Op → Bool
  | add _ | sub _ => true
  | _ => false

/-- The ops that move the pointer by a count. -/
def isMove : Op → Bool
  | right _ | left _ => true
  | _ => false

/-- The ops after which the cell is zero. -/
def leavesZero : Op → Bool
  | loopClose | clear => true
  | _ => false

/-- The ops that do nothing on a zero cell: the loop is not entered, the cell is clear already. -/
def idleOnZero : Op → Bool
  | loopOpen | clear => true
  | _ => false

end Op

/-- Ops in which nothing is left to optimise. -/
structure NormalForm (ops : List Op) : Prop where
  balanced : Balanced ops
  /-- At the start every cell is zero. -/
  starts : ∀ op ∈ ops.head?, op.idleOnZero = false
  /-- So is the cell after a loop and after a `clear`. -/
  behindZero : ops.IsChain fun a b => ¬ (a.leavesZero = true ∧ b.idleOnZero = true)
  /-- Changes of one cell are one op, -/
  changes : ops.IsChain fun a b => ¬ (a.isChange = true ∧ b.isChange = true)
  /-- and so are moves. -/
  moves : ops.IsChain fun a b => ¬ (a.isMove = true ∧ b.isMove = true)
  changeCounts : ∀ n, .add n ∈ ops ∨ .sub n ∈ ops → 1 ≤ n.toNat ∧ n.toNat ≤ 255
  moveCounts : ∀ n, .right n ∈ ops ∨ .left n ∈ ops → 1 ≤ n.toNat
  /-- No loop is left that only steps its cell to zero. -/
  folded : ∀ o, o = .add 1 ∨ o = .sub 1 → ¬ [.loopOpen, o, .loopClose] <:+: ops

/-! ## Neighbours -/

namespace Op

def first : Op → Command
  | add _ => .inc | sub _ => .dec | right _ => .right | left _ => .left
  | output => .output | input => .input | loopOpen | clear => .loopOpen | loopClose => .loopClose

def last : Op → Command
  | loopOpen => .loopOpen
  | clear => .loopClose
  | op => op.first

lemma head?_commands (op : Op) : (op.commands.map Prod.fst).head? = some op.first := by
  cases op <;> rfl

lemma getLast?_commands (op : Op) : (op.commands.map Prod.fst).getLast? = some op.last := by
  cases op <;> rfl

lemma map_fst_blocks (ops : List Op) :
    (blocks ops).map Prod.fst = (ops.map fun op => op.commands.map Prod.fst).flatten := by
  rw [blocks, List.map_flatMap, List.flatMap_def]

/-- What holds of neighbouring commands holds where two ops touch. -/
lemma isChain_of_blocks {R : Command → Command → Prop} {ops : List Op}
    (h : ((blocks ops).map Prod.fst).IsChain R) : ops.IsChain fun a b => R a.last b.first := by
  have hnonempty : [] ∉ ops.map fun op => op.commands.map Prod.fst := by
    intro hmem
    obtain ⟨op, -, hop⟩ := List.mem_map.mp hmem
    have hhead := op.head?_commands
    rw [hop] at hhead
    cases hhead
  rw [map_fst_blocks, List.isChain_flatten hnonempty, List.isChain_map] at h
  exact h.2.imp fun a b hab => hab _ (getLast?_commands a) _ (head?_commands b)

lemma head?_map_fst_blocks (ops : List Op) : ((blocks ops).map Prod.fst).head? = ops.head?.map first := by
  rcases ops with _ | ⟨op, ops⟩
  · rfl
  · rw [blocks_cons, List.map_append, List.head?_append, head?_commands]
    rfl

lemma mem_blocks {ops : List Op} {op : Op} {r : Command × Nat} (hop : op ∈ ops) (hr : r ∈ op.commands) :
    r ∈ blocks ops :=
  List.mem_flatMap.mpr ⟨op, hop, hr⟩

end Op

/-! ## Canonical ops -/

/-- An op that does nothing on a zero cell is not settled behind one that leaves zero. -/
lemma Op.not_settled {a b : Op} (ha : a.leavesZero = true) (hb : b.idleOnZero = true) :
    ¬ a.last.Settled b.first := by
  have hlast : a.last = .loopClose := by
    cases a with
    | loopClose | clear => rfl
    | _ => cases ha
  have hfirst : b.first = .loopOpen := by
    cases b with
    | loopOpen | clear => rfl
    | _ => cases hb
  rw [hlast, hfirst]
  exact fun h => h.2 ⟨rfl, rfl⟩

/-- Blocks of one command touch, and so do those of a command and its inverse. -/
lemma Command.not_apart {c d : Command} (hc : c.counted?.isSome = true) (h : d = c ∨ d.inverse? = some c) :
    ¬ c.Apart d := by
  rintro ⟨hsettled, hne⟩
  rcases h with rfl | h
  · exact hne hc rfl
  · exact hsettled.1 h

/-- Two changes of a cell touch, whichever they are, and so do two moves. -/
lemma Op.not_apart {a b : Op}
    (h : a.isChange = true ∧ b.isChange = true ∨ a.isMove = true ∧ b.isMove = true) : ¬ a.last.Apart b.first := by
  have htouch : a.last.counted?.isSome = true ∧ (b.first = a.last ∨ b.first.inverse? = some a.last) := by
    rcases h with ⟨ha, hb⟩ | ⟨ha, hb⟩ <;> cases a <;> cases ha <;> cases b <;> cases hb <;>
      simp [last, first, Command.inverse?, Command.counted?]
  exact Command.not_apart htouch.1 htouch.2

/-- **Canonical ops are in normal form.** -/
theorem Canonical.normalForm {ops : List Op} (h : Canonical ops) : NormalForm ops := by
  have apart : ops.IsChain fun a b => a.last.Apart b.first := Op.isChain_of_blocks h.tidy.reduced.apart
  have starts := h.tidy.reduced.starts
  have counts {c : Command} {n : UInt64} {op : Op} (hop : op ∈ ops) (hc : op.commands = [(c, n.toNat)]) :
      1 ≤ n.toNat ∧ (c.changesCell = true → n.toNat ≤ 255) := by
    have hmem : (c, n.toNat) ∈ Op.blocks ops := Op.mem_blocks hop (hc ▸ List.mem_singleton_self _)
    exact ⟨h.tidy.reduced.pos _ hmem, fun hcell => Nat.le_of_lt_succ (h.tidy.reduced.small _ hmem hcell)⟩
  refine ⟨h.balanced, fun op hop => ?_, ?_, ?_, ?_, ?_, ?_, h.folded⟩
  · rw [Op.head?_map_fst_blocks, hop] at starts
    cases op with
    | loopOpen | clear => exact absurd rfl starts
    | _ => rfl
  · exact apart.imp fun a b hab hzero => Op.not_settled hzero.1 hzero.2 hab.1
  · exact apart.imp fun a b hab hchanges => Op.not_apart (.inl hchanges) hab
  · exact apart.imp fun a b hab hmoves => Op.not_apart (.inr hmoves) hab
  · rintro n (hn | hn)
    · exact ⟨(counts hn rfl).1, (counts hn rfl).2 rfl⟩
    · exact ⟨(counts hn rfl).1, (counts hn rfl).2 rfl⟩
  · rintro n (hn | hn)
    · exact (counts hn rfl).1
    · exact (counts hn rfl).1

/-- **What the optimiser gives is in normal form**, as it is read from its text. -/
theorem optimize_normalForm {source : Bytes} {ops : List Op} (h : optimize source = .ok ops) :
    ∃ read, Op.read (Op.bytes ops) = (read, none) ∧ NormalForm read :=
  ⟨ops, Op.read_bytes ops, (canonical_of_optimize h).normalForm⟩

/-- The source `+[>]+-[.]<[+]`: a pair goes, then the loop that comes to stand behind another, and the last loop is
a `clear`. -/
theorem optimize_normalForm_exposed_loop :
    optimize [43, 91, 62, 93, 43, 45, 91, 46, 93, 60, 91, 43, 93] =
      .ok [.add 1, .loopOpen, .right 1, .loopClose, .left 1, .clear] ∧
    ∃ read, Op.read (Op.bytes [.add 1, .loopOpen, .right 1, .loopClose, .left 1, .clear]) = (read, none) ∧
      NormalForm read := by
  have h : optimize [43, 91, 62, 93, 43, 45, 91, 46, 93, 60, 91, 43, 93] =
      .ok [.add 1, .loopOpen, .right 1, .loopClose, .left 1, .clear] := by cbv
  exact ⟨h, optimize_normalForm h⟩

end TapeElf
