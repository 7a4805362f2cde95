import Mathlib
import TapeElf.Optimizer
import TapeElf.Proofs.Program

/-!
# The optimiser as rewriting

Every pass of the optimiser replaces balanced parts of the program where they stand.

* `Redex z x y`: the part `x` may become `y`; `z` says that a `]` came right before it, or the start of the
  program;
* `Rewrites z a b`: the code `b` comes from `a` by such replacements;
* `optimize_rewrites`: the ops of a source come from its commands by rewriting;
* `Rewrites.exists_program`: what holds between the two sides of every redex holds between two programs of
  which one rewrites to the other.
-/

namespace TapeElf

open Program

/-- The parts of a program that the optimiser replaces, and by what. -/
inductive Redex : Bool → Program → Program → Prop
  /-- A command and its inverse go. -/
  | pair {z : Bool} {c d : Command} {o u : PlainOp} (h : c.inverse? = some d) (ho : o.val = .ofCommand d)
      (hu : u.val = .ofCommand c) : Redex z (ofPlain [o, u]) nil
  /-- 256 changes of a cell in the same direction go. -/
  | wrap {z : Bool} {c : Command} {o : PlainOp} (h : c.changesCell = true) (ho : o.val = .ofCommand c) (n : Nat) :
      Redex z (ofPlain (List.replicate n o)) (ofPlain (List.replicate (n % 256) o))
  /-- A loop on a cell that is zero goes. -/
  | deadLoop (b : Program) : Redex true (loop b nil) nil
  /-- A run of a command becomes one counted op. -/
  | count {z : Bool} {c : Command} {f : UInt64 → Op} {o u : PlainOp} {n : Nat} (h : c.counted? = some f)
      (ho : o.val = .ofCommand c) (pos : 0 < n) (small : n < 2 ^ 63) (hu : u.val = f (UInt64.ofNat n)) :
      Redex z (ofPlain (List.replicate n o)) (ofPlain [u])
  /-- A loop that only counts its cell becomes a `clear`. -/
  | clear {z : Bool} {o u : PlainOp} (ho : o.val = .add 1 ∨ o.val = .sub 1) (hu : u.val = .clear) :
      Redex z (loop (ofPlain [o]) nil) (ofPlain [u])

/-- One replacement; `z` stands for what came before the code. -/
def RewritesOnce (z : Bool) (a b : List Op) : Prop :=
  ∃ pre post x y, Redex (closes z pre) x y ∧ a = pre ++ x.ops ++ post ∧ b = pre ++ y.ops ++ post

/-- Any number of replacements. -/
def Rewrites (z : Bool) : List Op → List Op → Prop := Relation.ReflTransGen (RewritesOnce z)

namespace Rewrites

variable {z : Bool} {a b c : List Op}

lemma refl (a : List Op) : Rewrites z a a := Relation.ReflTransGen.refl

lemma trans (h : Rewrites z a b) (h' : Rewrites z b c) : Rewrites z a c := Relation.ReflTransGen.trans h h'

lemma of_redex (pre post : List Op) {x y : Program} (h : Redex (closes z pre) x y)
    (ha : a = pre ++ x.ops ++ post) (hb : b = pre ++ y.ops ++ post) : Rewrites z a b :=
  Relation.ReflTransGen.single ⟨pre, post, x, y, h, ha, hb⟩

/-- **What a rewriting keeps.** -/
theorem exists_program {R : Bool → Program → Program → Prop} (hR : Compatible R) (hrefl : ∀ z p, R z p p)
    (htrans : ∀ {z p q r}, R z p q → R z q r → R z p r)
    (hredex : ∀ {z x y}, Redex z x y → ∀ r, R z (x ++ r) (y ++ r)) (h : Rewrites z a b) {p : Program}
    (hp : p.ops = a) : ∃ q : Program, q.ops = b ∧ R z p q := by
  induction h with
  | refl => exact ⟨p, hp, hrefl z p⟩
  | tail _ hstep ih =>
    obtain ⟨q, hq, hpq⟩ := ih
    obtain ⟨pre, post, x, y, hxy, rfl, rfl⟩ := hstep
    obtain ⟨r, hr, hqr⟩ := exists_replace hR (hredex hxy) hq
    exact ⟨r, hr, htrans hpq hqr⟩

lemma balanced (h : Rewrites z a b) (ha : Balanced a) : Balanced b := by
  obtain ⟨p, hp⟩ := balanced_iff.mp ha
  have hR : Compatible fun _ _ _ => True :=
    ⟨fun _ _ _ _ _ => trivial, fun _ _ _ _ _ => trivial, fun _ _ _ _ _ => trivial⟩
  obtain ⟨q, hq, -⟩ := h.exists_program hR (fun _ _ => trivial) (fun _ _ => trivial) (fun _ _ => trivial) hp
  exact balanced_iff.mpr ⟨q, hq⟩

end Rewrites

/-! ## Pairs -/

lemma Command.isBracket_of_inverse? {c d : Command} (h : c.inverse? = some d) :
    (Op.ofCommand c).isBracket = false ∧ (Op.ofCommand d).isBracket = false := by
  cases c <;> cases h <;> exact ⟨rfl, rfl⟩

lemma Command.ops_append (a b : List Command) : Command.ops (a ++ b) = Command.ops a ++ Command.ops b :=
  List.map_append

lemma Command.ops_cons (c : Command) (code : List Command) :
    Command.ops (c :: code) = Op.ofCommand c :: Command.ops code := rfl

variable {z : Bool}

lemma cancelStep_rewrites (done : List Command) (c : Command) (code : List Command) :
    Rewrites z (Command.ops (done.reverse ++ c :: code)) (Command.ops ((cancelStep done c).reverse ++ code)) := by
  rcases done with _ | ⟨d, rest⟩
  · exact .refl _
  · unfold cancelStep
    dsimp only
    split
    · next h =>
      obtain ⟨hc, hd⟩ := Command.isBracket_of_inverse? h
      refine .of_redex (Command.ops rest.reverse) (Command.ops code)
        (.pair (o := ⟨_, hd⟩) (u := ⟨_, hc⟩) h rfl rfl) ?_ ?_
      · simp [Command.ops_append, Command.ops_cons]
      · simp [Command.ops_append]
    · simpa using Rewrites.refl _

theorem cancelPairs_rewrites (code : List Command) :
    Rewrites z (Command.ops code) (Command.ops (cancelPairs code)) := by
  suffices h : ∀ done, Rewrites z (Command.ops (done.reverse ++ code))
      (Command.ops (code.foldl cancelStep done).reverse) from h []
  induction code with
  | nil => intro done; simpa using Rewrites.refl _
  | cons c code ih =>
    intro done
    exact (cancelStep_rewrites done c code).trans (ih _)

/-! ## Runs -/

lemma pushRun_pos {rs : List (Command × Nat)} (h : ∀ r ∈ rs, 0 < r.2) (c : Command) :
    ∀ r ∈ pushRun rs c, 0 < r.2 := by
  intro r hr
  unfold pushRun at hr
  split at hr
  · next d n rest =>
    split at hr
    · rcases List.mem_cons.mp hr with rfl | hr
      · exact Nat.succ_pos n
      · exact h r (List.mem_cons_of_mem _ hr)
    · rcases List.mem_cons.mp hr with rfl | hr
      · exact Nat.one_pos
      · exact h r hr
  · rw [List.mem_singleton.mp hr]
    exact Nat.one_pos

lemma runs_pos (code : List Command) : ∀ r ∈ runs code, 0 < r.2 := by
  suffices h : ∀ rs : List (Command × Nat), (∀ r ∈ rs, 0 < r.2) → ∀ r ∈ code.foldl pushRun rs, 0 < r.2 by
    intro r hr
    exact h [] (by simp) r (List.mem_reverse.mp hr)
  induction code with
  | nil => exact fun rs h => h
  | cons c code ih => exact fun rs h => ih _ (pushRun_pos h c)

lemma unroll_cons (r : Command × Nat) (rs : List (Command × Nat)) :
    unroll (r :: rs) = List.replicate r.2 r.1 ++ unroll rs := List.flatMap_cons

lemma unroll_append (rs ss : List (Command × Nat)) : unroll (rs ++ ss) = unroll rs ++ unroll ss :=
  List.flatMap_append

lemma ops_replicate (n : Nat) (c : Command) :
    Command.ops (List.replicate n c) = List.replicate n (Op.ofCommand c) := List.map_replicate

lemma ops_ofPlain_replicate (n : Nat) (o : PlainOp) : (ofPlain (List.replicate n o)).ops = List.replicate n o.val := by
  rw [ops_ofPlain, List.map_replicate]

lemma Command.isBracket_of_changesCell {c : Command} (h : c.changesCell = true) :
    (Op.ofCommand c).isBracket = false := by
  cases c <;> first | rfl | cases h

theorem dropFullWraps_rewrites (code : List Command) :
    Rewrites z (Command.ops code) (Command.ops (dropFullWraps code)) := by
  suffices h : ∀ (rs : List (Command × Nat)) (pre : List Op), Rewrites z (pre ++ Command.ops (unroll rs))
      (pre ++ Command.ops (unroll (rs.map fun r => (r.1, if r.1.changesCell then r.2 % 256 else r.2)))) by
    have := h (runs code) []
    rwa [unroll_runs] at this
  intro rs
  induction rs with
  | nil => exact fun pre => .refl _
  | cons r rs ih =>
    obtain ⟨c, n⟩ := r
    intro pre
    simp only [List.map_cons, unroll_cons, Command.ops_append, ops_replicate]
    by_cases hc : c.changesCell = true
    · rw [if_pos hc]
      have hfirst : Rewrites z (pre ++ (List.replicate n (Op.ofCommand c) ++ Command.ops (unroll rs)))
          (pre ++ List.replicate (n % 256) (Op.ofCommand c) ++ Command.ops (unroll rs)) := by
        refine .of_redex pre (Command.ops (unroll rs))
          (.wrap (o := ⟨_, Command.isBracket_of_changesCell hc⟩) hc rfl n) ?_ ?_
        · rw [ops_ofPlain_replicate, List.append_assoc]
        · rw [ops_ofPlain_replicate]
      refine hfirst.trans ?_
      have := ih (pre ++ List.replicate (n % 256) (Op.ofCommand c))
      rwa [List.append_assoc _ _ (Command.ops (unroll (List.map _ _)))] at this
    · rw [if_neg hc]
      have := ih (pre ++ List.replicate n (Op.ofCommand c))
      rwa [List.append_assoc, List.append_assoc] at this

/-! ## Dead loops -/

lemma closes_ops_reverse (done : List Command) : closes true (Command.ops done.reverse) = deadAfter done := by
  rcases done with _ | ⟨c, rest⟩
  · rfl
  · rw [List.reverse_cons, Command.ops_append, closes_append]
    cases c <;> rfl

/-- Commands that make up a loop are a body between brackets, and what follows it. -/
lemma exists_of_ops_eq_loop {code : List Command} {b p : Program} (h : Command.ops code = (loop b p).ops) :
    ∃ body tail, code = .loopOpen :: (body ++ .loopClose :: tail) ∧ Command.ops body = b.ops ∧
      Command.ops tail = p.ops := by
  obtain ⟨c, code, rfl, hc, hcode⟩ := List.map_eq_cons_iff.mp h
  obtain ⟨body, rest, rfl, hbody, hrest⟩ := List.map_eq_append_iff.mp hcode
  obtain ⟨c', tail, rfl, hc', htail⟩ := List.map_eq_cons_iff.mp hrest
  obtain rfl : c = .loopOpen := by cases c <;> first | rfl | cases hc
  obtain rfl : c' = .loopClose := by cases c' <;> first | rfl | cases hc'
  exact ⟨body, tail, rfl, hbody, htail⟩

/-- Commands that make up a program are skipped as a whole. -/
lemma foldl_dropStep_skips (p : Program) {code : List Command} (h : Command.ops code = p.ops) (done : List Command)
    (depth : Nat) : code.foldl dropStep (done, depth + 1) = (done, depth + 1) := by
  induction p generalizing code depth with
  | nil => rw [List.map_eq_nil_iff.mp h]; rfl
  | op o p ih =>
    obtain ⟨c, code, rfl, hc, hcode⟩ := List.map_eq_cons_iff.mp h
    have hstep : dropStep (done, depth + 1) c = (done, depth + 1) := by
      have := o.property
      rw [← hc] at this
      cases c <;> first | rfl | cases this
    rw [List.foldl_cons, hstep, ih hcode]
  | loop b p ihb ihp =>
    obtain ⟨body, tail, rfl, hbody, htail⟩ := exists_of_ops_eq_loop h
    rw [List.foldl_cons, dropStep, List.foldl_append, ihb hbody, List.foldl_cons, dropStep, ihp htail]

lemma dropStep_keeps {c : Command} {done : List Command} (h : ¬ (c = .loopOpen ∧ deadAfter done = true)) :
    dropStep (done, 0) c = (c :: done, 0) := by
  rw [dropStep, if_neg h]

lemma foldl_dropStep_rewrites (p : Program) {code : List Command} (h : Command.ops code = p.ops) (done : List Command)
    (rest : List Op) : ∃ done', code.foldl dropStep (done, 0) = (done', 0) ∧
      Rewrites true (Command.ops done.reverse ++ p.ops ++ rest) (Command.ops done'.reverse ++ rest) := by
  induction p generalizing code done rest with
  | nil =>
    rw [List.map_eq_nil_iff.mp h]
    exact ⟨done, rfl, by simpa using Rewrites.refl _⟩
  | op o p ih =>
    obtain ⟨c, code, rfl, hc, hcode⟩ := List.map_eq_cons_iff.mp h
    have hne : ¬ (c = .loopOpen ∧ deadAfter done = true) := by
      rintro ⟨rfl, -⟩
      have := o.property
      rw [← hc] at this
      cases this
    obtain ⟨done', hdone', hrw⟩ := ih hcode (c :: done) rest
    refine ⟨done', by rw [List.foldl_cons, dropStep_keeps hne, hdone'], ?_⟩
    rw [List.reverse_cons, Command.ops_append, Command.ops_cons, hc] at hrw
    simpa [Command.ops] using hrw
  | loop b p ihb ihp =>
    obtain ⟨body, tail, rfl, hbody, htail⟩ := exists_of_ops_eq_loop h
    by_cases hdead : deadAfter done = true
    · -- the loop is dropped and `done` stays, so the loop after it is dropped as well
      obtain ⟨done', hdone', hrw⟩ := ihp htail done rest
      refine ⟨done', ?_, ?_⟩
      · have hopen : dropStep (done, 0) .loopOpen = (done, 1) := by rw [dropStep, if_pos ⟨rfl, hdead⟩]
        rw [List.foldl_cons, hopen, List.foldl_append, foldl_dropStep_skips b hbody, List.foldl_cons]
        exact hdone'
      · have hloop : Rewrites true (Command.ops done.reverse ++ (loop b p).ops ++ rest)
            (Command.ops done.reverse ++ p.ops ++ rest) := by
          refine .of_redex (Command.ops done.reverse) (p.ops ++ rest) (x := loop b nil) (y := nil) ?_ ?_ ?_
          · rw [closes_ops_reverse, hdead]
            exact .deadLoop b
          · simp
          · simp
        exact hloop.trans hrw
    · obtain ⟨done₁, hdone₁, hrw₁⟩ := ihb hbody (.loopOpen :: done) (.loopClose :: (p.ops ++ rest))
      obtain ⟨done₂, hdone₂, hrw₂⟩ := ihp htail (.loopClose :: done₁) rest
      refine ⟨done₂, ?_, ?_⟩
      · rw [List.foldl_cons, dropStep_keeps (by simp [hdead]), List.foldl_append, hdone₁, List.foldl_cons,
          dropStep_keeps (by simp), hdone₂]
      · rw [List.reverse_cons, Command.ops_append] at hrw₁ hrw₂
        have e₁ : Command.ops done.reverse ++ (loop b p).ops ++ rest = Command.ops done.reverse ++
            Command.ops [.loopOpen] ++ b.ops ++ .loopClose :: (p.ops ++ rest) := by
          simp [Command.ops, Op.ofCommand]
        have e₂ : Command.ops done₁.reverse ++ .loopClose :: (p.ops ++ rest) = Command.ops done₁.reverse ++
            Command.ops [.loopClose] ++ p.ops ++ rest := by
          simp [Command.ops, Op.ofCommand]
        rw [e₁]
        rw [e₂] at hrw₁
        exact hrw₁.trans hrw₂

theorem dropDeadLoops_rewrites {code : List Command} (h : Balanced (Command.ops code)) :
    Rewrites true (Command.ops code) (Command.ops (dropDeadLoops code)) := by
  obtain ⟨p, hp⟩ := balanced_iff.mp h
  obtain ⟨done', hdone', hrw⟩ := foldl_dropStep_rewrites p hp.symm [] []
  have : dropDeadLoops code = done'.reverse := by rw [dropDeadLoops, hdone']
  rw [this, ← hp]
  simpa [Command.ops] using hrw

/-! ## All passes -/

lemma simplifyOnce_rewrites {code : List Command} (h : Balanced (Command.ops code)) :
    Rewrites true (Command.ops code) (Command.ops (simplifyOnce code)) := by
  have h₁ := cancelPairs_rewrites (z := true) code
  have h₂ := dropFullWraps_rewrites (z := true) (cancelPairs code)
  exact h₁.trans (h₂.trans (dropDeadLoops_rewrites ((h₁.trans h₂).balanced h)))

theorem simplify_rewrites {code : List Command} (h : Balanced (Command.ops code)) :
    Rewrites true (Command.ops code) (Command.ops (simplify code)) := by
  fun_induction simplify code with
  | case1 code next _ ih =>
    have hnext := simplifyOnce_rewrites h
    exact hnext.trans (ih (hnext.balanced h))
  | case2 code next _ => exact simplifyOnce_rewrites h

lemma Command.isBracket_of_counted? {c : Command} {f : UInt64 → Op} (h : c.counted? = some f) (n : UInt64) :
    (Op.ofCommand c).isBracket = false ∧ (f n).isBracket = false := by
  cases c <;> cases h <;> exact ⟨rfl, rfl⟩

lemma condenseRun_rewrites {r : Command × Nat} {part : List Op} (h : condenseRun r = .ok part) (hpos : 0 < r.2)
    (pre post : List Op) :
    Rewrites z (pre ++ List.replicate r.2 (Op.ofCommand r.1) ++ post) (pre ++ part ++ post) := by
  unfold condenseRun at h
  split at h
  · next f hf =>
    split at h
    · next hsmall =>
      cases h
      obtain ⟨hc, hu⟩ := Command.isBracket_of_counted? hf (UInt64.ofNat r.2)
      refine .of_redex pre post (.count (o := ⟨_, hc⟩) (u := ⟨_, hu⟩) hf rfl hpos hsmall rfl) ?_ rfl
      rw [ops_ofPlain_replicate]
    · cases h
  · cases h
    exact .refl _

theorem condense_rewrites {code : List Command} {ops : List Op} (h : condense code = .ok ops) :
    Rewrites z (Command.ops code) ops := by
  suffices key : ∀ (rs : List (Command × Nat)) (pre : List Op) (parts : List (List Op)), (∀ r ∈ rs, 0 < r.2) →
      rs.mapM condenseRun = .ok parts → Rewrites z (pre ++ Command.ops (unroll rs)) (pre ++ parts.flatten) by
    unfold condense at h
    cases hparts : (runs code).mapM condenseRun with
    | error d => rw [hparts] at h; cases h
    | ok parts =>
      rw [hparts] at h
      cases h
      have := key (runs code) [] parts (runs_pos code) hparts
      rwa [unroll_runs] at this
  intro rs
  induction rs with
  | nil =>
    intro pre parts _ hparts
    cases hparts
    exact .refl _
  | cons r rs ih =>
    intro pre parts hpos hparts
    rw [List.mapM_cons] at hparts
    cases hpart : condenseRun r with
    | error d => rw [hpart] at hparts; cases hparts
    | ok part =>
      cases hrest : rs.mapM condenseRun with
      | error d => rw [hpart, hrest] at hparts; cases hparts
      | ok rest =>
        rw [hpart, hrest] at hparts
        cases hparts
        have hfirst := condenseRun_rewrites (z := z) hpart (hpos r List.mem_cons_self) pre (Command.ops (unroll rs))
        have hothers := ih (pre ++ part) rest (fun r hr => hpos r (List.mem_cons_of_mem _ hr)) hrest
        rw [unroll_cons, Command.ops_append, ops_replicate, List.flatten_cons]
        rw [List.append_assoc] at hfirst
        rw [List.append_assoc _ _ rest.flatten] at hothers
        exact hfirst.trans hothers

lemma clearStep_rewrites (done : List Op) (op : Op) (ops : List Op) :
    Rewrites z (done.reverse ++ op :: ops) ((clearStep done op).reverse ++ ops) := by
  have hkeep : Rewrites z (done.reverse ++ op :: ops) ((op :: done).reverse ++ ops) := by
    simpa using Rewrites.refl _
  have hclear : ∀ (o : PlainOp) (rest : List Op), o.val = .add 1 ∨ o.val = .sub 1 → op = .loopClose →
      done = o.val :: .loopOpen :: rest → Rewrites z (done.reverse ++ op :: ops) ((.clear :: rest).reverse ++ ops) := by
    rintro o rest ho rfl rfl
    refine .of_redex rest.reverse ops (.clear (u := ⟨.clear, rfl⟩) ho rfl) ?_ ?_
    · simp
    · simp
  unfold clearStep
  split
  · next n rest =>
    split
    · next hn => exact hclear ⟨.add n, rfl⟩ rest (.inl (by rw [hn])) rfl rfl
    · exact hkeep
  · next n rest =>
    split
    · next hn => exact hclear ⟨.sub n, rfl⟩ rest (.inr (by rw [hn])) rfl rfl
    · exact hkeep
  · exact hkeep

theorem foldClears_rewrites (ops : List Op) : Rewrites z ops (foldClears ops) := by
  suffices h : ∀ done, Rewrites z (done.reverse ++ ops) (ops.foldl clearStep done).reverse from h []
  induction ops with
  | nil => intro done; simpa using Rewrites.refl _
  | cons op ops ih =>
    intro done
    exact (clearStep_rewrites done op ops).trans (ih _)

/-! ## The optimiser -/

/-- A source with no bracket to complain about is balanced. -/
lemma depth?_of_bracketFault? {source : Bytes} {loc : Location} {opened : List Location}
    (h : bracketFault? loc opened source = none) : depth? opened.length (sourceOps source) = some 0 := by
  induction source generalizing loc opened with
  | nil =>
    have : opened = [] := by simpa [bracketFault?] using h
    subst this
    rfl
  | cons byte source ih =>
    unfold bracketFault? at h
    dsimp only at h
    have hops : ∀ c, Command.ofByte? byte = some c →
        sourceOps (byte :: source) = Op.ofCommand c :: sourceOps source := by
      intro c hc
      simp [sourceOps, Command.ops, Command.ofSource, hc]
    cases hc : Command.ofByte? byte with
    | none =>
      have : sourceOps (byte :: source) = sourceOps source := by
        simp [sourceOps, Command.ops, Command.ofSource, hc]
      rw [hc] at h
      rw [this]
      exact ih h
    | some c =>
      rw [hc] at h
      rw [hops c hc, depth?_cons]
      cases c with
      | loopOpen => exact ih h
      | loopClose =>
        rcases opened with _ | ⟨l, opened⟩
        · cases h
        · exact ih h
      | _ => exact ih h

lemma balanced_of_unbalanced? {source : Bytes} (h : unbalanced? source = none) : Balanced (sourceOps source) :=
  depth?_of_bracketFault? h

/-- **The ops of a source come from its commands by rewriting.** -/
theorem optimize_rewrites {source : Bytes} {ops : List Op} (h : optimize source = .ok ops) :
    Balanced (sourceOps source) ∧ Rewrites true (sourceOps source) ops := by
  unfold optimize at h
  split at h
  · cases h
  · next hbal =>
    have hbal := balanced_of_unbalanced? hbal
    cases hc : condense (simplify (Command.ofSource source)) with
    | error d => rw [hc] at h; cases h
    | ok counted =>
      rw [hc] at h
      cases h
      exact ⟨hbal, (simplify_rewrites hbal).trans ((condense_rewrites hc).trans (foldClears_rewrites counted))⟩

end TapeElf
