import TapeElf.Proofs.Rewriting

/-!
# Runs and blocks

The passes of the optimiser cut a program into runs from its back. Here the same runs are described from the front:
`runs_cons` and `runs_replicate_append` say what happens when commands are put before a program. A block is any number
of equal commands; the next block may go on with the same command, where a run may not.

Condensing succeeds if no run is too long to be counted, and then gives the ops of the runs (`condense_eq_ok_iff`).
-/

namespace TapeElf

/-! ## Runs from the front -/

/-- The runs of a program with one more run in front. -/
def addRun (r : Command × Nat) : List (Command × Nat) → List (Command × Nat)
  | [] => [r]
  | s :: rs => if r.1 = s.1 then (r.1, r.2 + s.2) :: rs else r :: s :: rs

lemma addRun_addRun (c : Command) (m n : Nat) (rs : List (Command × Nat)) :
    addRun (c, m) (addRun (c, n) rs) = addRun (c, m + n) rs := by
  rcases rs with _ | ⟨s, rs⟩
  · simp [addRun]
  · by_cases h : c = s.1 <;> simp [addRun, h, Nat.add_assoc]

lemma foldl_pushRun (code : List Command) (c : Command) (n : Nat) (rs : List (Command × Nat)) :
    code.foldl pushRun ((c, n) :: rs) = code.foldl pushRun [(c, n)] ++ rs := by
  induction code generalizing c n rs with
  | nil => rfl
  | cons d code ih =>
    by_cases h : d = c
    · simp only [List.foldl_cons, pushRun, h, if_true]
      exact ih c (n + 1) rs
    · simp only [List.foldl_cons, pushRun, h, if_false]
      rw [ih d 1 ((c, n) :: rs), ih d 1 [(c, n)], List.append_assoc]
      rfl

lemma head?_addRun (r : Command × Nat) (rs : List (Command × Nat)) :
    ((addRun r rs).map Prod.fst).head? = some r.1 := by
  rcases rs with _ | ⟨s, rs⟩
  · rfl
  · by_cases h : r.1 = s.1 <;> simp [addRun, h]

lemma mem_of_mem_addRun {r s : Command × Nat} {rs : List (Command × Nat)} (h : s ∈ addRun r rs) (hne : s.1 ≠ r.1) :
    s ∈ rs := by
  rcases rs with _ | ⟨t, rs⟩
  · rw [addRun, List.mem_singleton] at h
    exact absurd (by rw [h]) hne
  · simp only [addRun] at h
    split at h
    · rcases List.mem_cons.mp h with rfl | h
      · exact absurd rfl hne
      · exact List.mem_cons_of_mem t h
    · rcases List.mem_cons.mp h with rfl | h
      · exact absurd rfl hne
      · exact h

lemma addRun_of_ne {r : Command × Nat} {rs : List (Command × Nat)} (h : (rs.map Prod.fst).head? ≠ some r.1) :
    addRun r rs = r :: rs := by
  rcases rs with _ | ⟨s, rs⟩
  · rfl
  · have : r.1 ≠ s.1 := fun heq => h (by simp [heq])
    simp [addRun, this]

lemma reverse_foldl_pushRun (code : List Command) (c : Command) (n : Nat) :
    (code.foldl pushRun [(c, n)]).reverse = addRun (c, n) (runs code) := by
  induction code generalizing c n with
  | nil => rfl
  | cons d code ih =>
    have hruns : runs (d :: code) = addRun (d, 1) (runs code) := ih d 1
    rw [hruns]
    by_cases h : d = c
    · subst h
      rw [addRun_addRun, ← ih]
      simp only [List.foldl_cons, pushRun, if_true]
    · have hne : ((addRun (d, 1) (runs code)).map Prod.fst).head? ≠ some c := by
        rw [head?_addRun]
        simpa using h
      rw [addRun_of_ne hne, ← ih d 1]
      simp only [List.foldl_cons, pushRun, h, if_false]
      rw [foldl_pushRun, List.reverse_append]
      rfl

lemma runs_cons (c : Command) (code : List Command) : runs (c :: code) = addRun (c, 1) (runs code) :=
  reverse_foldl_pushRun code c 1

lemma runs_replicate_append {n : Nat} (pos : 0 < n) (c : Command) (code : List Command) :
    runs (List.replicate n c ++ code) = addRun (c, n) (runs code) := by
  induction n, pos using Nat.le_induction with
  | base => exact runs_cons c code
  | succ n _ ih => rw [List.replicate_succ, List.cons_append, runs_cons, ih, addRun_addRun, Nat.add_comm]

lemma head?_runs (code : List Command) : ((runs code).map Prod.fst).head? = code.head? := by
  rcases code with _ | ⟨c, code⟩
  · rfl
  · rw [runs_cons, head?_addRun]
    rfl

/-- A run that the code behind it does not continue. -/
lemma runs_replicate_append_of_ne {n : Nat} (pos : 0 < n) {c : Command} {code : List Command}
    (h : code.head? ≠ some c) : runs (List.replicate n c ++ code) = (c, n) :: runs code := by
  rw [runs_replicate_append pos, addRun_of_ne (by rwa [head?_runs])]

lemma isChain_runs (code : List Command) : ((runs code).map Prod.fst).IsChain (· ≠ ·) := by
  induction code with
  | nil => exact List.isChain_nil
  | cons c code ih =>
    rw [runs_cons]
    generalize runs code = rs at ih
    rcases rs with _ | ⟨s, rs⟩
    · exact List.isChain_singleton c
    · by_cases h : c = s.1
      · simpa [addRun, h] using ih
      · simpa [addRun, h] using ih

/-! ## Blocks -/

lemma head?_unroll {rs : List (Command × Nat)} (pos : ∀ r ∈ rs, 0 < r.2) :
    (unroll rs).head? = (rs.map Prod.fst).head? := by
  rcases rs with _ | ⟨⟨c, n⟩, rs⟩
  · rfl
  · obtain ⟨n, rfl⟩ := Nat.exists_eq_succ_of_ne_zero (pos (c, n) List.mem_cons_self).ne'
    simp [unroll_cons, List.replicate_succ]

/-- What holds inside of every block and of neighbouring blocks holds of all neighbours. -/
lemma isChain_unroll_iff {R : Command → Command → Prop} {rs : List (Command × Nat)} (pos : ∀ r ∈ rs, 0 < r.2)
    (hR : ∀ r ∈ rs, (List.replicate r.2 r.1).IsChain R) :
    (unroll rs).IsChain R ↔ (rs.map Prod.fst).IsChain R := by
  induction rs with
  | nil => exact iff_of_true List.isChain_nil List.isChain_nil
  | cons r rs ih =>
    obtain ⟨hr, hrs⟩ := List.forall_mem_cons.mp pos
    obtain ⟨hblock, hblocks⟩ := List.forall_mem_cons.mp hR
    have hlast : (List.replicate r.2 r.1).getLast? = some r.1 := by
      rw [List.getLast?_replicate, if_neg hr.ne']
    rw [unroll_cons, List.isChain_append, List.map_cons, List.isChain_cons, ih hrs hblocks, hlast, head?_unroll hrs]
    simp only [hblock, true_and, Option.mem_some_iff, forall_eq']
    tauto

/-! ## Condensing -/

def runOps (r : Command × Nat) : List Op :=
  match r.1.counted? with
  | some f => [f (UInt64.ofNat r.2)]
  | none => List.replicate r.2 (Op.ofCommand r.1)

/-- The length of a run can be written as a count, if it has to be. -/
def CountFits (r : Command × Nat) : Prop := r.1.counted?.isSome = true → r.2 < 2 ^ 63

lemma condenseRun_of_countFits {r : Command × Nat} (h : CountFits r) : condenseRun r = .ok (runOps r) := by
  unfold condenseRun runOps
  cases hc : r.1.counted? with
  | none => rfl
  | some f => exact if_pos (h (by rw [hc]; rfl))

lemma countFits_of_condenseRun {r : Command × Nat} {part : List Op} (h : condenseRun r = .ok part) : CountFits r := by
  intro hcount
  obtain ⟨f, hf⟩ := Option.isSome_iff_exists.mp hcount
  simp only [condenseRun, hf] at h
  split at h
  · assumption
  · cases h

lemma mapM_condenseRun {rs : List (Command × Nat)} {parts : List (List Op)} :
    rs.mapM condenseRun = .ok parts ↔ (∀ r ∈ rs, CountFits r) ∧ rs.map runOps = parts := by
  constructor
  · intro h
    induction rs generalizing parts with
    | nil =>
      cases h
      exact ⟨nofun, rfl⟩
    | cons r rs ih =>
      rw [List.mapM_cons] at h
      cases hpart : condenseRun r with
      | error d => rw [hpart] at h; cases h
      | ok part =>
        cases hrest : rs.mapM condenseRun with
        | error d => rw [hpart, hrest] at h; cases h
        | ok rest =>
          rw [hpart, hrest] at h
          cases h
          obtain ⟨hrs, rfl⟩ := ih hrest
          have hr := countFits_of_condenseRun hpart
          obtain rfl : runOps r = part := Except.ok.inj ((condenseRun_of_countFits hr).symm.trans hpart)
          exact ⟨List.forall_mem_cons.mpr ⟨hr, hrs⟩, rfl⟩
  · rintro ⟨h, rfl⟩
    induction rs with
    | nil => rfl
    | cons r rs ih =>
      obtain ⟨hr, hrs⟩ := List.forall_mem_cons.mp h
      rw [List.mapM_cons, condenseRun_of_countFits hr, ih hrs]
      rfl

/-- Condensing succeeds if no run is too long, and gives the ops of the runs. -/
theorem condense_eq_ok_iff {code : List Command} {ops : List Op} :
    condense code = .ok ops ↔ (∀ r ∈ runs code, CountFits r) ∧ (runs code).flatMap runOps = ops := by
  unfold condense
  rw [List.flatMap_def]
  constructor
  · intro h
    cases hparts : (runs code).mapM condenseRun with
    | error d => rw [hparts] at h; cases h
    | ok parts =>
      rw [hparts] at h
      cases h
      obtain ⟨hruns, rfl⟩ := mapM_condenseRun.mp hparts
      exact ⟨hruns, rfl⟩
  · rintro ⟨hruns, rfl⟩
    rw [mapM_condenseRun.mpr ⟨hruns, rfl⟩]
    rfl

end TapeElf
