import TapeElf.Proofs.OpText
import TapeElf.Proofs.Refinement

/-!
# The optimiser keeps what a program does

`SameBehaviour io s p q`: started in `s`, the programs `p` and `q` end in the same state, or neither ends; and
they do the same reads and writes in the same order, also if they never end.

A source and the ops that are read from the text of its optimised form have the same behaviour from the start
state, where every cell is zero, for every input and every convention about its end.
-/

namespace TapeElf

open Program

variable {ι : Type*} {io : Console ι}

/-- Two programs that cannot be told apart by what they read and write, nor by how they end. -/
def SameBehaviour (io : Console ι) (s : State ι) (p q : Program) : Prop :=
  (∀ t, Runs io p s t ↔ Runs io q s t) ∧ ∀ as, Performs io p s as ↔ Performs io q s as

/-- What `q` does for `p`, seen from outside. -/
lemma Refines.sameBehaviour {z : Bool} {p q : Program} {s : State ι} (h : Refines io z p q)
    (hs : z = true → s.cell = 0) : SameBehaviour io s p q := by
  refine ⟨h.runs hs, fun as => ⟨?_, ?_⟩⟩
  · rintro ⟨t, ht, has⟩
    obtain ⟨u, hu, hut⟩ := h.forth hs ht
    exact ⟨u, hu, hut ▸ has⟩
  · rintro ⟨t, ht, has⟩
    obtain ⟨u, hu, hut, -⟩ := h.back hs ht
    exact ⟨u, hu, hut ▸ has⟩

/-- The program of an optimised source refines that of the source. -/
lemma exists_refines_of_optimize {source : Bytes} {ops : List Op} (h : optimize source = .ok ops) (io : Console ι) :
    ∃ p q : Program, p.ops = sourceOps source ∧ q.ops = ops ∧ Refines io true p q := by
  obtain ⟨hbal, hrw⟩ := optimize_rewrites h
  obtain ⟨p, hp⟩ := balanced_iff.mp hbal
  rw [← hp] at hrw
  obtain ⟨q, hq, hpq⟩ := hrw.exists_refines io
  exact ⟨p, q, hp, hq, hpq⟩

/-- **The optimiser keeps what a program does.** A source that it accepts is a program `p`; the text of its
result is read as a program `q`; and the two have the same behaviour, whatever they read from. -/
theorem optimize_sameBehaviour {source : Bytes} {ops : List Op} (h : optimize source = .ok ops) :
    ∃ p q : Program, p.ops = sourceOps source ∧ Op.read (Op.bytes ops) = (q.ops, none) ∧
      ∀ {ι : Type*} (io : Console ι) (input : ι), SameBehaviour io (.initial input) p q := by
  obtain ⟨p, q, hp, hq, -⟩ := exists_refines_of_optimize h (⟨fun _ => none, id⟩ : Console Unit)
  refine ⟨p, q, hp, by rw [Op.read_bytes, hq], fun io input => ?_⟩
  obtain ⟨p', q', hp', hq', href⟩ := exists_refines_of_optimize h io
  obtain rfl : p' = p := ops_injective (hp'.trans hp.symm)
  obtain rfl : q' = q := ops_injective (hq'.trans hq.symm)
  exact href.sameBehaviour fun _ => rfl

/-- The source `+[>]+-[.]`: the pair in it goes, and then the loop that comes to stand right after another. -/
theorem optimize_sameBehaviour_exposed_loop :
    optimize [43, 91, 62, 93, 43, 45, 91, 46, 93] = .ok [.add 1, .loopOpen, .right 1, .loopClose] ∧
    ∃ p q : Program, p.ops = sourceOps [43, 91, 62, 93, 43, 45, 91, 46, 93] ∧
      Op.read (Op.bytes [.add 1, .loopOpen, .right 1, .loopClose]) = (q.ops, none) ∧
      ∀ {ι : Type} (io : Console ι) (input : ι), SameBehaviour io (.initial input) p q := by
  have h : optimize [43, 91, 62, 93, 43, 45, 91, 46, 93] = .ok [.add 1, .loopOpen, .right 1, .loopClose] := by
    cbv
  exact ⟨h, optimize_sameBehaviour h⟩

end TapeElf
