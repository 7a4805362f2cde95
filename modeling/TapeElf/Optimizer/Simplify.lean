import TapeElf.Command

/-!
# Removing commands without effect

Three passes, repeated until the program stops getting shorter:

* `cancelPairs`: a command directly followed by its inverse goes, and so do the pairs this brings together;
* `dropFullWraps`: 256 changes of a cell in the same direction leave it as it was;
* `dropDeadLoops`: a loop is never entered at the start of a program, where every cell is zero, nor right
  after another loop, which ends on a zero cell.
-/

namespace TapeElf

/-! ## Runs -/

/-- One more command at the end of a list of runs, the last run first. -/
def pushRun (runs : List (Command × Nat)) (c : Command) : List (Command × Nat) :=
  match runs with
  | (d, n) :: rest => if c = d then (d, n + 1) :: rest else (c, 1) :: runs
  | [] => [(c, 1)]

/-- A program as runs of equal commands, each as long as possible. -/
def runs (code : List Command) : List (Command × Nat) := (code.foldl pushRun []).reverse

/-- The program of a list of runs. -/
def unroll (runs : List (Command × Nat)) : List Command := runs.flatMap fun (c, n) => List.replicate n c

theorem unroll_pushRun (runs : List (Command × Nat)) (c : Command) :
    unroll (pushRun runs c).reverse = unroll runs.reverse ++ [c] := by
  unfold pushRun
  split
  · split
    · next h =>
      subst h
      simp [unroll, List.replicate_succ']
    · simp [unroll]
  · simp [unroll]

/-- Splitting into runs loses nothing. -/
theorem unroll_runs (code : List Command) : unroll (runs code) = code := by
  suffices h : ∀ rs, unroll (code.foldl pushRun rs).reverse = unroll rs.reverse ++ code by
    simpa [runs, unroll] using h []
  induction code with
  | nil => simp
  | cons c code ih => intro rs; simp [ih, unroll_pushRun]

/-! ## The passes -/

/-- One more command at the end of a program without inverse pairs, the last command first. -/
def cancelStep (done : List Command) (c : Command) : List Command :=
  match done with
  | d :: rest => if c.inverse? = some d then rest else c :: done
  | [] => [c]

/-- The program without adjacent inverse pairs, also of those that meet once a pair between them is gone. -/
def cancelPairs (code : List Command) : List Command := (code.foldl cancelStep []).reverse

/-- The program with each run of cell changes shortened by whole multiples of 256. -/
def dropFullWraps (code : List Command) : List Command :=
  unroll ((runs code).map fun (c, n) => (c, if c.changesCell then n % 256 else n))

/-- A loop opening after `done`, the last command first, is never entered. -/
def deadAfter : List Command → Bool
  | [] => true
  | c :: _ => c == .loopClose

/-- One more command: it is kept, or skipped inside a dead loop, `depth` loops deep. -/
def dropStep : List Command × Nat → Command → List Command × Nat
  | (done, 0), c => if c = .loopOpen ∧ deadAfter done then (done, 1) else (c :: done, 0)
  | (done, depth + 1), .loopOpen => (done, depth + 2)
  | (done, depth + 1), .loopClose => (done, depth)
  | (done, depth + 1), _ => (done, depth + 1)

/-- The program without the loops that are never entered. -/
def dropDeadLoops (code : List Command) : List Command := (code.foldl dropStep ([], 0)).1.reverse

def simplifyOnce (code : List Command) : List Command := dropDeadLoops (dropFullWraps (cancelPairs code))

/-- The program after as many rounds as shorten it. A round never makes a program longer
(`length_simplifyOnce_le`), so the last one left its length alone. -/
def simplify (code : List Command) : List Command :=
  let next := simplifyOnce code
  if next.length < code.length then simplify next else next
termination_by code.length

/-! ## No pass makes a program longer -/

theorem length_cancelPairs_le (code : List Command) : (cancelPairs code).length ≤ code.length := by
  suffices h : ∀ done, (code.foldl cancelStep done).length ≤ done.length + code.length by
    simpa [cancelPairs] using h []
  induction code with
  | nil => simp
  | cons c code ih =>
    intro done
    have step : (cancelStep done c).length ≤ done.length + 1 := by
      unfold cancelStep
      split
      · split
        · simp only [List.length_cons]; omega
        · simp
      · simp
    have := ih (cancelStep done c)
    simp only [List.foldl_cons, List.length_cons]
    omega

theorem length_unroll_cons (r : Command × Nat) (rs : List (Command × Nat)) :
    (unroll (r :: rs)).length = r.2 + (unroll rs).length := by
  simp [unroll]

theorem length_dropFullWraps_le (code : List Command) : (dropFullWraps code).length ≤ code.length := by
  suffices h : ∀ rs : List (Command × Nat),
      (unroll (rs.map fun (c, n) => (c, if c.changesCell then n % 256 else n))).length ≤ (unroll rs).length by
    have := h (runs code)
    rwa [unroll_runs] at this
  intro rs
  induction rs with
  | nil => simp
  | cons r rs ih =>
    simp only [List.map_cons, length_unroll_cons] at ih ⊢
    have : (if r.1.changesCell then r.2 % 256 else r.2) ≤ r.2 := by
      split
      · exact Nat.mod_le _ _
      · exact Nat.le_refl _
    omega

theorem length_dropDeadLoops_le (code : List Command) : (dropDeadLoops code).length ≤ code.length := by
  suffices h : ∀ s : List Command × Nat, (code.foldl dropStep s).1.length ≤ s.1.length + code.length by
    simpa [dropDeadLoops] using h ([], 0)
  induction code with
  | nil => simp
  | cons c code ih =>
    intro s
    have step : (dropStep s c).1.length ≤ s.1.length + 1 := by
      unfold dropStep
      split
      · split <;> simp
      all_goals simp
    have := ih (dropStep s c)
    simp only [List.foldl_cons, List.length_cons]
    omega

theorem length_simplifyOnce_le (code : List Command) : (simplifyOnce code).length ≤ code.length :=
  Nat.le_trans (length_dropDeadLoops_le _)
    (Nat.le_trans (length_dropFullWraps_le _) (length_cancelPairs_le _))

end TapeElf
