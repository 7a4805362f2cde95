import TapeElf.Proofs.Runs

/-!
# What the optimiser accepts

The bracket check passes exactly the balanced sources (`unbalanced?_eq_none_iff`). No other source is refused as long
as no run can be too long to be counted (`optimize_of_balanced`), so what the optimiser reports is what the bracket
check finds (`unbalanced?_of_optimize`).
-/

namespace TapeElf

lemma sourceOps_cons_of_some {b : UInt8} {c : Command} (h : Command.ofByte? b = some c) (source : Bytes) :
    sourceOps (b :: source) = .ofCommand c :: sourceOps source := by
  simp [sourceOps, Command.ops, Command.ofSource, h]

lemma sourceOps_cons_of_none {b : UInt8} (h : Command.ofByte? b = none) (source : Bytes) :
    sourceOps (b :: source) = sourceOps source := by
  simp [sourceOps, Command.ops, Command.ofSource, h]

lemma bracketFault?_of_depth? {source : Bytes} (loc : Location) (opened : List Location)
    (h : depth? opened.length (sourceOps source) = some 0) : bracketFault? loc opened source = none := by
  induction source generalizing loc opened with
  | nil =>
    obtain rfl : opened = [] := List.eq_nil_of_length_eq_zero (Option.some.inj h)
    rfl
  | cons b source ih =>
    unfold bracketFault?
    cases hc : Command.ofByte? b with
    | none =>
      rw [sourceOps_cons_of_none hc] at h
      exact ih _ _ h
    | some c =>
      rw [sourceOps_cons_of_some hc, depth?_cons] at h
      cases c with
      | loopOpen => exact ih _ _ h
      | loopClose =>
        rcases opened with _ | ⟨l, opened⟩
        · cases h
        · exact ih _ _ h
      | _ => exact ih _ _ h

theorem unbalanced?_eq_none_iff {source : Bytes} : unbalanced? source = none ↔ Balanced (sourceOps source) :=
  ⟨balanced_of_unbalanced?, bracketFault?_of_depth? .start []⟩

/-! ## Runs of a short program -/

lemma le_length_unroll {r : Command × Nat} {rs : List (Command × Nat)} (h : r ∈ rs) : r.2 ≤ (unroll rs).length := by
  induction rs with
  | nil => cases h
  | cons s rs ih =>
    rw [length_unroll_cons]
    rcases List.mem_cons.mp h with rfl | h
    · omega
    · have := ih h
      omega

lemma length_simplify_le (code : List Command) : (simplify code).length ≤ code.length := by
  fun_induction simplify code with
  | case1 code next hlen ih => exact ih.trans hlen.le
  | case2 code next _ => exact length_simplifyOnce_le code

lemma length_ofSource_le (source : Bytes) : (Command.ofSource source).length ≤ source.length :=
  List.length_filterMap_le _ _

/-- A short source has no run that is too long. -/
lemma exists_condense {source : Bytes} (h : source.length < 2 ^ 63) :
    ∃ ops, condense (simplify (Command.ofSource source)) = .ok ops := by
  refine ⟨_, condense_eq_ok_iff.mpr ⟨fun r hr _ => ?_, rfl⟩⟩
  have hrun := le_length_unroll hr
  rw [unroll_runs] at hrun
  exact (hrun.trans ((length_simplify_le _).trans (length_ofSource_le source))).trans_lt h

theorem optimize_of_balanced {source : Bytes} (hbal : Balanced (sourceOps source)) (h : source.length < 2 ^ 63) :
    ∃ ops, optimize source = .ok ops := by
  obtain ⟨ops, hops⟩ := exists_condense h
  refine ⟨foldClears ops, ?_⟩
  simp only [optimize, unbalanced?_eq_none_iff.mpr hbal, hops]
  rfl

theorem unbalanced?_of_optimize {source : Bytes} {d : Diagnostic} (herr : optimize source = .error d)
    (h : source.length < 2 ^ 63) : unbalanced? source = some d := by
  cases hu : unbalanced? source with
  | none =>
    obtain ⟨ops, hops⟩ := optimize_of_balanced (unbalanced?_eq_none_iff.mp hu) h
    cases herr.symm.trans hops
  | some d' =>
    simp only [optimize, hu] at herr
    rw [Except.error.inj herr]

end TapeElf
