import TapeElf.Proofs.Runs

/-!
# Code in which no pass finds anything

* `Command.Settled c d`: neither of the passes that look at neighbours removes `d` behind `c`;
* `Simplified code`: all neighbours are settled, no loop opens at the start, and no run of cell changes is as long
  as 256. This is what simplifying arrives at (`simplified_simplify`) and what it leaves alone
  (`simplify_of_simplified`);
* `Reduced rs`: the same of a program that is given as blocks, where two blocks of a command that can be counted do
  not touch. Condensing gives the ops of the blocks (`Reduced.condense_unroll`).
-/

namespace TapeElf

/-! ## Every pass only removes -/

lemma cancelPairs_sublist (code : List Command) : (cancelPairs code).Sublist code := by
  suffices h : ∀ done, (code.foldl cancelStep done).reverse.Sublist (done.reverse ++ code) from h []
  induction code with
  | nil => intro done; simp
  | cons c code ih =>
    intro done
    have hstep : (cancelStep done c).reverse.Sublist (done.reverse ++ [c]) := by
      rcases done with _ | ⟨d, rest⟩
      · exact List.Sublist.refl _
      · unfold cancelStep
        dsimp only
        split
        · rw [List.reverse_cons, List.append_assoc]
          exact List.sublist_append_left _ _
        · rw [List.reverse_cons]
    have := (ih (cancelStep done c)).trans (hstep.append_right code)
    simpa using this

/-- How much is left of a run of cell changes without its multiples of 256, and of any other run. -/
def unwrapped (r : Command × Nat) : Nat := if r.1.changesCell then r.2 % 256 else r.2

lemma unwrapped_le (r : Command × Nat) : unwrapped r ≤ r.2 := by
  unfold unwrapped
  split
  · exact Nat.mod_le _ _
  · exact Nat.le_refl _

lemma dropFullWraps_eq (code : List Command) :
    dropFullWraps code = unroll ((runs code).map fun r => (r.1, unwrapped r)) := rfl

lemma unroll_unwrapped_sublist (rs : List (Command × Nat)) :
    (unroll (rs.map fun r => (r.1, unwrapped r))).Sublist (unroll rs) := by
  induction rs with
  | nil => exact List.Sublist.refl _
  | cons r rs ih =>
    rw [List.map_cons, unroll_cons, unroll_cons]
    exact ((List.replicate_sublist_replicate r.1).mpr (unwrapped_le r)).append ih

lemma dropFullWraps_sublist (code : List Command) : (dropFullWraps code).Sublist code := by
  have := unroll_unwrapped_sublist (runs code)
  rwa [unroll_runs] at this

lemma dropDeadLoops_sublist (code : List Command) : (dropDeadLoops code).Sublist code := by
  suffices h : ∀ s : List Command × Nat, (code.foldl dropStep s).1.reverse.Sublist (s.1.reverse ++ code) from
    h ([], 0)
  induction code with
  | nil => intro s; simp
  | cons c code ih =>
    intro s
    have hstep : (dropStep s c).1.reverse.Sublist (s.1.reverse ++ [c]) := by
      unfold dropStep
      split
      · split
        · exact List.sublist_append_left _ _
        · rw [List.reverse_cons]
      all_goals exact List.sublist_append_left _ _
    have := (ih (dropStep s c)).trans (hstep.append_right code)
    simpa using this

/-- A round that leaves the length alone leaves the code alone, and so does each of its passes. -/
lemma passes_of_length_le {code : List Command} (h : code.length ≤ (simplifyOnce code).length) :
    cancelPairs code = code ∧ dropFullWraps code = code ∧ dropDeadLoops code = code := by
  have h₁ := cancelPairs_sublist code
  have h₂ := dropFullWraps_sublist (cancelPairs code)
  have h₃ := dropDeadLoops_sublist (dropFullWraps (cancelPairs code))
  have e₁ : cancelPairs code = code := h₁.eq_of_length_le (h.trans (h₃.trans h₂).length_le)
  rw [simplifyOnce, e₁] at h
  rw [e₁] at h₂ h₃
  have e₂ : dropFullWraps code = code := h₂.eq_of_length_le (h.trans h₃.length_le)
  rw [e₂] at h h₃
  exact ⟨e₁, e₂, h₃.eq_of_length_le h⟩

/-! ## Simplified code -/

lemma isChain_and {α : Type*} {R S : α → α → Prop} {l : List α} (h : l.IsChain R) (h' : l.IsChain S) :
    l.IsChain fun a b => R a b ∧ S a b := by
  rw [List.isChain_iff_forall_rel_of_append_cons_cons] at *
  exact fun _ _ _ _ hl => ⟨h hl, h' hl⟩

/-- Neither of the passes that look at neighbours removes `d` behind `c`. -/
def Command.Settled (c d : Command) : Prop := d.inverse? ≠ some c ∧ ¬ (c = .loopClose ∧ d = .loopOpen)

instance : DecidableRel Command.Settled := fun _ _ => inferInstanceAs (Decidable (_ ∧ _))

lemma Command.isChain_settled (c : Command) (n : Nat) : (List.replicate n c).IsChain Command.Settled :=
  List.isChain_replicate_of_rel n (by cases c <;> decide)

/-- No pass finds anything in the code. -/
structure Simplified (code : List Command) : Prop where
  settled : code.IsChain Command.Settled
  starts : code.head? ≠ some .loopOpen
  small : ∀ r ∈ runs code, r.1.changesCell = true → r.2 < 256

lemma isChain_cancelPairs (code : List Command) : (cancelPairs code).IsChain fun c d => d.inverse? ≠ some c := by
  suffices h : ∀ done : List Command, (done.IsChain fun d c => d.inverse? ≠ some c) →
      (code.foldl cancelStep done).IsChain fun d c => d.inverse? ≠ some c by
    rw [cancelPairs, List.isChain_reverse]
    exact h [] List.isChain_nil
  induction code with
  | nil => exact fun done h => h
  | cons c code ih =>
    intro done h
    refine ih _ ?_
    rcases done with _ | ⟨d, rest⟩
    · exact List.isChain_singleton c
    · unfold cancelStep
      dsimp only
      split
      · exact h.tail
      · next hne => exact List.isChain_cons_cons.mpr ⟨hne, h⟩

/-- No loop of the result opens at the start or right behind another. -/
lemma dropDeadLoops_spec (code : List Command) :
    ((dropDeadLoops code).IsChain fun c d => ¬ (c = .loopClose ∧ d = .loopOpen)) ∧
      (dropDeadLoops code).head? ≠ some .loopOpen := by
  suffices h : ∀ s : List Command × Nat,
      (s.1.IsChain fun d c => ¬ (c = .loopClose ∧ d = .loopOpen)) ∧ s.1.getLast? ≠ some .loopOpen →
      ((code.foldl dropStep s).1.IsChain fun d c => ¬ (c = .loopClose ∧ d = .loopOpen)) ∧
        (code.foldl dropStep s).1.getLast? ≠ some .loopOpen by
    rw [dropDeadLoops, List.isChain_reverse, List.head?_reverse]
    exact h ([], 0) ⟨List.isChain_nil, by simp⟩
  induction code with
  | nil => exact fun s h => h
  | cons c code ih =>
    intro s h
    refine ih _ ?_
    unfold dropStep
    split
    · next done =>
      split
      · exact h
      · next hkeep =>
        rcases done with _ | ⟨d, rest⟩
        · exact ⟨List.isChain_singleton c, by simpa [deadAfter] using hkeep⟩
        · refine ⟨List.isChain_cons_cons.mpr ⟨fun hdead => hkeep ⟨hdead.2, ?_⟩, h.1⟩, by simpa using h.2⟩
          simp [deadAfter, hdead.1]
    all_goals exact h

/-- Runs that lose nothing when they are shortened by multiples of 256 are short. -/
lemma small_of_dropFullWraps {code : List Command} (h : dropFullWraps code = code) :
    ∀ r ∈ runs code, r.1.changesCell = true → r.2 < 256 := by
  suffices key : ∀ rs : List (Command × Nat),
      (unroll rs).length ≤ (unroll (rs.map fun r => (r.1, unwrapped r))).length →
      ∀ r ∈ rs, r.1.changesCell = true → r.2 < 256 by
    refine key (runs code) ?_
    rw [unroll_runs]
    exact (congrArg List.length h).ge
  intro rs
  induction rs with
  | nil => simp
  | cons r rs ih =>
    intro hlen
    have hrest := (unroll_unwrapped_sublist rs).length_le
    have hr := unwrapped_le r
    rw [List.map_cons, length_unroll_cons, length_unroll_cons] at hlen
    refine List.forall_mem_cons.mpr ⟨fun hcell => ?_, ih (by omega)⟩
    have heq : r.2 % 256 = r.2 := by
      rw [unwrapped, if_pos hcell] at hlen hr
      omega
    exact heq ▸ Nat.mod_lt r.2 (by decide)

/-- **Simplifying arrives at simplified code.** -/
theorem simplified_simplify (code : List Command) : Simplified (simplify code) := by
  fun_induction simplify code with
  | case1 code next _ ih => exact ih
  | case2 code next hlen =>
    obtain ⟨h₁, h₂, h₃⟩ := passes_of_length_le (Nat.le_of_not_lt hlen)
    have hnext : next = code := by
      change dropDeadLoops (dropFullWraps (cancelPairs code)) = code
      rw [h₁, h₂, h₃]
    have hpairs := isChain_cancelPairs code
    have hdead := dropDeadLoops_spec code
    rw [h₁] at hpairs
    rw [h₃] at hdead
    rw [hnext]
    exact ⟨isChain_and hpairs hdead.1, hdead.2, small_of_dropFullWraps h₂⟩

section

variable {code : List Command}

lemma cancelPairs_of_isChain (h : code.IsChain Command.Settled) : cancelPairs code = code := by
  suffices key : ∀ done : List Command, (done.reverse ++ code).IsChain Command.Settled →
      code.foldl cancelStep done = code.reverse ++ done by
    rw [cancelPairs, key [] h, List.append_nil, List.reverse_reverse]
  clear h
  induction code with
  | nil => exact fun _ _ => rfl
  | cons c code ih =>
    intro done h
    have hstep : cancelStep done c = c :: done := by
      rcases done with _ | ⟨d, rest⟩
      · rfl
      · rw [List.reverse_cons, List.append_assoc, List.singleton_append, List.isChain_append_cons_cons] at h
        exact if_neg h.2.1.1
    rw [List.foldl_cons, hstep, ih (c :: done) (by simpa using h), List.reverse_cons]
    simp

lemma dropDeadLoops_of_isChain (h : code.IsChain Command.Settled) (hstart : code.head? ≠ some .loopOpen) :
    dropDeadLoops code = code := by
  suffices key : ∀ done : List Command, (done.reverse ++ code).IsChain Command.Settled →
      (done = [] → code.head? ≠ some .loopOpen) → code.foldl dropStep (done, 0) = (code.reverse ++ done, 0) by
    rw [dropDeadLoops, key [] h fun _ => hstart, List.append_nil, List.reverse_reverse]
  clear h hstart
  induction code with
  | nil => exact fun _ _ _ => rfl
  | cons c code ih =>
    intro done h hstart
    have hstep : dropStep (done, 0) c = (c :: done, 0) := by
      refine dropStep_keeps fun hdead => ?_
      rcases done with _ | ⟨d, rest⟩
      · exact hstart rfl (by rw [hdead.1]; rfl)
      · rw [List.reverse_cons, List.append_assoc, List.singleton_append, List.isChain_append_cons_cons] at h
        exact h.2.1.2 ⟨by simpa [deadAfter] using hdead.2, hdead.1⟩
    have hnonempty (hnil : c :: done = []) : code.head? ≠ some .loopOpen := absurd hnil (List.cons_ne_nil c done)
    rw [List.foldl_cons, hstep, ih (c :: done) (by simpa using h) hnonempty, List.reverse_cons]
    simp

lemma dropFullWraps_of_small (h : ∀ r ∈ runs code, r.1.changesCell = true → r.2 < 256) :
    dropFullWraps code = code := by
  have hmap : (runs code).map (fun r => (r.1, unwrapped r)) = runs code := by
    refine (List.map_congr_left fun r hr => ?_).trans (List.map_id _)
    have hr : unwrapped r = r.2 := by
      unfold unwrapped
      split
      · next hcell => exact Nat.mod_eq_of_lt (h r hr hcell)
      · rfl
    rw [hr, id]
  rw [dropFullWraps_eq, hmap, unroll_runs]

/-- **Simplified code is left alone.** -/
theorem simplify_of_simplified (h : Simplified code) : simplify code = code := by
  have honce : simplifyOnce code = code := by
    rw [simplifyOnce, cancelPairs_of_isChain h.settled, dropFullWraps_of_small h.small,
      dropDeadLoops_of_isChain h.settled h.starts]
  rw [simplify, honce, if_neg (Nat.lt_irrefl _)]

end

/-! ## Blocks that do not touch -/

/-- Settled, and not two blocks of one command that can be counted. -/
def Command.Apart (c d : Command) : Prop := c.Settled d ∧ (c.counted?.isSome = true → c ≠ d)

instance : DecidableRel Command.Apart := fun _ _ => inferInstanceAs (Decidable (_ ∧ _))

/-- Simplified code as blocks of equal commands. -/
structure Reduced (rs : List (Command × Nat)) : Prop where
  pos : ∀ r ∈ rs, 0 < r.2
  apart : (rs.map Prod.fst).IsChain Command.Apart
  starts : (rs.map Prod.fst).head? ≠ some .loopOpen
  small : ∀ r ∈ rs, r.1.changesCell = true → r.2 < 256

lemma Simplified.reduced {code : List Command} (h : Simplified code) : Reduced (runs code) where
  pos := runs_pos code
  apart := by
    have hsettled := h.settled
    rw [← unroll_runs code, isChain_unroll_iff (runs_pos code) fun r _ => r.1.isChain_settled r.2] at hsettled
    exact (isChain_and hsettled (isChain_runs code)).imp fun _ _ hcd => ⟨hcd.1, fun _ => hcd.2⟩
  starts := by
    rw [head?_runs]
    exact h.starts
  small := h.small

section

variable {rs : List (Command × Nat)} (pos : ∀ r ∈ rs, 0 < r.2) (apart : (rs.map Prod.fst).IsChain Command.Apart)
include pos apart

/-- Blocks become runs: only blocks of a command that cannot be counted are joined. -/
lemma runs_unroll_induction {motive : List (Command × Nat) → List (Command × Nat) → Prop} (nil : motive [] [])
    (cons : ∀ r rs ss, motive rs ss → r.1.counted?.isSome = true → motive (r :: rs) (r :: ss))
    (join : ∀ r rs ss, motive rs ss → r.1.counted? = none → motive (r :: rs) (addRun r ss)) :
    motive rs (runs (unroll rs)) := by
  induction rs with
  | nil => exact nil
  | cons r rs ih =>
    obtain ⟨hr, hrs⟩ := List.forall_mem_cons.mp pos
    rw [List.map_cons, List.isChain_cons] at apart
    have hih := ih hrs apart.2
    rw [unroll_cons]
    cases hc : r.1.counted? with
    | none =>
      rw [runs_replicate_append hr]
      exact join r rs _ hih hc
    | some f =>
      have hne : (unroll rs).head? ≠ some r.1 := by
        rw [head?_unroll hrs]
        exact fun heq => (apart.1 r.1 heq).2 (by rw [hc]; rfl) rfl
      rw [runs_replicate_append_of_ne hr hne]
      exact cons r rs _ hih (by rw [hc]; rfl)

lemma forall_runs_unroll {P : Command × Nat → Prop} (h : ∀ r ∈ rs, r.1.counted?.isSome = true → P r) :
    ∀ r ∈ runs (unroll rs), r.1.counted?.isSome = true → P r := by
  revert h
  refine runs_unroll_induction pos apart (motive := fun rs ss => (∀ r ∈ rs, r.1.counted?.isSome = true → P r) →
    ∀ r ∈ ss, r.1.counted?.isSome = true → P r) ?_ ?_ ?_
  · exact fun h => h
  · intro r rs ss ih _ h
    rw [List.forall_mem_cons] at h ⊢
    exact ⟨h.1, ih h.2⟩
  · intro r rs ss ih hc h s hs hcount
    have hne : s.1 ≠ r.1 := fun heq => by simp [heq, hc] at hcount
    exact ih (List.forall_mem_cons.mp h).2 s (mem_of_mem_addRun hs hne) hcount

lemma flatMap_runs_unroll : (runs (unroll rs)).flatMap runOps = rs.flatMap runOps := by
  refine runs_unroll_induction pos apart (motive := fun rs ss => ss.flatMap runOps = rs.flatMap runOps) ?_ ?_ ?_
  · rfl
  · intro r rs ss ih _
    rw [List.flatMap_cons, List.flatMap_cons, ih]
  · intro r rs ss ih hc
    rw [List.flatMap_cons, ← ih]
    rcases ss with _ | ⟨t, ss⟩
    · rfl
    · by_cases h : r.1 = t.1
      · have ht : t.1.counted? = none := h ▸ hc
        simp [addRun, runOps, h, ht, ← List.append_assoc]
      · simp [addRun, h]

end

lemma Reduced.simplified {rs : List (Command × Nat)} (h : Reduced rs) : Simplified (unroll rs) where
  settled := (isChain_unroll_iff h.pos fun r _ => r.1.isChain_settled r.2).mpr (h.apart.imp fun _ _ hcd => hcd.1)
  starts := by
    rw [head?_unroll h.pos]
    exact h.starts
  small := by
    have hcounted (c : Command) (hc : c.changesCell = true) : c.counted?.isSome = true := by
      cases c <;> first | rfl | cases hc
    intro r hr hcell
    exact forall_runs_unroll h.pos h.apart (P := fun r => r.1.changesCell = true → r.2 < 256)
      (fun r hr _ => h.small r hr) r hr (hcounted r.1 hcell) hcell

/-- **Condensing gives the ops of the blocks.** -/
theorem Reduced.condense_unroll {rs : List (Command × Nat)} (h : Reduced rs) (hcount : ∀ r ∈ rs, CountFits r) :
    condense (unroll rs) = .ok (rs.flatMap runOps) := by
  rw [condense_eq_ok_iff, flatMap_runs_unroll h.pos h.apart]
  exact ⟨fun r hr hc => forall_runs_unroll h.pos h.apart hcount r hr hc, rfl⟩

end TapeElf
