import TapeElf.Proofs.Execution
import TapeElf.Proofs.Rewriting

/-!
# Rewriting keeps what a program does

`Refines io z p q`: the program `q` does what `p` does. Both end in the same states or not at all, both do the
same reads and writes, and `q` visits no position that `p` does not visit. If `z` is set, this holds for a
start on a zero cell only.

The relation may be used in any part of a program (`refines_compatible`), and every redex of the optimiser is an
instance of it (`Redex.refines`), so it holds between a program and what it rewrites to.
-/

namespace TapeElf

open Program

variable {ι : Type*} {io : Console ι} {z : Bool}

/-- `q` does what `p` does, started on a zero cell if `z` is set. -/
structure Refines (io : Console ι) (z : Bool) (p q : Program) : Prop where
  runs : ∀ {s}, (z = true → s.cell = 0) → ∀ t, Runs io p s t ↔ Runs io q s t
  /-- What `p` does, `q` does. -/
  forth : ∀ {s}, (z = true → s.cell = 0) → ∀ {t}, Reaches io p s t → ∃ u, Reaches io q s u ∧ u.actions = t.actions
  /-- What `q` does, `p` does, and in the same places. -/
  back : ∀ {s}, (z = true → s.cell = 0) → ∀ {t}, Reaches io q s t →
    ∃ u, Reaches io p s u ∧ u.actions = t.actions ∧ u.pointer = t.pointer

namespace Refines

variable {p q r b c : Program}

lemma refl (z : Bool) (p : Program) : Refines io z p p where
  runs _ _ := Iff.rfl
  forth _ t h := ⟨t, h, rfl⟩
  back _ t h := ⟨t, h, rfl, rfl⟩

lemma trans (h : Refines io z p q) (h' : Refines io z q r) : Refines io z p r where
  runs hs t := (h.runs hs t).trans (h'.runs hs t)
  forth hs t ht := by
    obtain ⟨u, hu, hut⟩ := h.forth hs ht
    obtain ⟨v, hv, hvu⟩ := h'.forth hs hu
    exact ⟨v, hv, hvu.trans hut⟩
  back hs t ht := by
    obtain ⟨u, hu, hut, hpos⟩ := h'.back hs ht
    obtain ⟨v, hv, hvu, hpos'⟩ := h.back hs hu
    exact ⟨v, hv, hvu.trans hut, hpos'.trans hpos⟩

/-! ## In a larger program -/

lemma under_op (z : Bool) (o : PlainOp) (h : Refines io false p q) : Refines io z (op o p) (op o q) where
  runs _ t := by rw [runs_op, runs_op, h.runs (by simp)]
  forth {s} _ t ht := by
    rcases (reaches_op o).mp ht with rfl | ht
    · exact ⟨t, .refl _ _, rfl⟩
    · obtain ⟨u, hu, hut⟩ := h.forth (by simp) ht
      exact ⟨u, (reaches_op o).mpr (.inr hu), hut⟩
  back {s} _ t ht := by
    rcases (reaches_op o).mp ht with rfl | ht
    · exact ⟨t, .refl _ _, rfl, rfl⟩
    · obtain ⟨u, hu, hut⟩ := h.back (by simp) ht
      exact ⟨u, (reaches_op o).mpr (.inr hu), hut⟩

lemma laps_eq (h : Refines io false b c) : Laps io b = Laps io c := by
  have : (fun s t => s.cell ≠ 0 ∧ Runs io b s t) = fun s t : State ι => s.cell ≠ 0 ∧ Runs io c s t := by
    funext s t
    rw [h.runs (by simp)]
  rw [Laps, Laps, this]

lemma in_body (z : Bool) (p : Program) (h : Refines io false b c) : Refines io z (loop b p) (loop c p) where
  runs _ t := by rw [runs_loop, runs_loop, h.laps_eq]
  forth _ t ht := by
    obtain ⟨m, hlaps, ht⟩ := reaches_loop.mp ht
    rw [h.laps_eq] at hlaps
    rcases ht with ⟨hne, ht⟩ | ht
    · obtain ⟨u, hu, hut⟩ := h.forth (by simp) ht
      exact ⟨u, reaches_loop.mpr ⟨m, hlaps, .inl ⟨hne, hu⟩⟩, hut⟩
    · exact ⟨t, reaches_loop.mpr ⟨m, hlaps, .inr ht⟩, rfl⟩
  back _ t ht := by
    obtain ⟨m, hlaps, ht⟩ := reaches_loop.mp ht
    rw [← h.laps_eq] at hlaps
    rcases ht with ⟨hne, ht⟩ | ht
    · obtain ⟨u, hu, hut⟩ := h.back (by simp) ht
      exact ⟨u, reaches_loop.mpr ⟨m, hlaps, .inl ⟨hne, hu⟩⟩, hut⟩
    · exact ⟨t, reaches_loop.mpr ⟨m, hlaps, .inr ht⟩, rfl, rfl⟩

lemma after_loop (z : Bool) (b : Program) (h : Refines io true p q) : Refines io z (loop b p) (loop b q) where
  runs _ t := by
    rw [runs_loop, runs_loop]
    constructor
    · rintro ⟨m, hlaps, hzero, hm⟩
      exact ⟨m, hlaps, hzero, (h.runs (fun _ => hzero) t).mp hm⟩
    · rintro ⟨m, hlaps, hzero, hm⟩
      exact ⟨m, hlaps, hzero, (h.runs (fun _ => hzero) t).mpr hm⟩
  forth _ t ht := by
    obtain ⟨m, hlaps, ht⟩ := reaches_loop.mp ht
    rcases ht with ht | ⟨hzero, ht⟩
    · exact ⟨t, reaches_loop.mpr ⟨m, hlaps, .inl ht⟩, rfl⟩
    · obtain ⟨u, hu, hut⟩ := h.forth (fun _ => hzero) ht
      exact ⟨u, reaches_loop.mpr ⟨m, hlaps, .inr ⟨hzero, hu⟩⟩, hut⟩
  back _ t ht := by
    obtain ⟨m, hlaps, ht⟩ := reaches_loop.mp ht
    rcases ht with ht | ⟨hzero, ht⟩
    · exact ⟨t, reaches_loop.mpr ⟨m, hlaps, .inl ht⟩, rfl, rfl⟩
    · obtain ⟨u, hu, hut⟩ := h.back (fun _ => hzero) ht
      exact ⟨u, reaches_loop.mpr ⟨m, hlaps, .inr ⟨hzero, hu⟩⟩, hut⟩

lemma before (h : Refines io z p q) (r : Program) : Refines io z (p ++ r) (q ++ r) where
  runs hs t := by
    rw [runs_append, runs_append]
    simp only [h.runs hs]
  forth hs t ht := by
    rcases reaches_append.mp ht with ht | ⟨m, hm, ht⟩
    · obtain ⟨u, hu, hut⟩ := h.forth hs ht
      exact ⟨u, reaches_append.mpr (.inl hu), hut⟩
    · exact ⟨t, reaches_append.mpr (.inr ⟨m, (h.runs hs m).mp hm, ht⟩), rfl⟩
  back hs t ht := by
    rcases reaches_append.mp ht with ht | ⟨m, hm, ht⟩
    · obtain ⟨u, hu, hut⟩ := h.back hs ht
      exact ⟨u, reaches_append.mpr (.inl hu), hut⟩
    · exact ⟨t, reaches_append.mpr (.inr ⟨m, (h.runs hs m).mpr hm, ht⟩), rfl, rfl⟩

end Refines

theorem refines_compatible : Compatible (Refines io) where
  op z o _ _ h := h.under_op z o
  body z _ _ p h := h.in_body z p
  rest z b _ _ h := h.after_loop z b

/-! ## Programs without reads and writes -/

/-- A program that always ends, in the state `f s` if it starts in `s`, and neither reads nor writes. -/
structure Quiet (io : Console ι) (p : Program) (f : State ι → State ι) : Prop where
  runs : ∀ s t, Runs io p s t ↔ t = f s
  actions : ∀ s t, Reaches io p s t → t.actions = s.actions

/-- Of two such programs that end alike, the second refines the first if it stays where it starts and ends. -/
lemma Quiet.refines {p q : Program} {f : State ι → State ι} (hp : Quiet io p f) (hq : Quiet io q f)
    (hpos : ∀ s t, Reaches io q s t → t.pointer = s.pointer ∨ t.pointer = (f s).pointer) : Refines io z p q where
  runs _ t := by rw [hp.runs, hq.runs]
  forth {s} _ t ht := ⟨s, .refl _ _, (hp.actions s t ht).symm⟩
  back {s} _ t ht := by
    have hact := hq.actions s t ht
    rcases hpos s t ht with h | h
    · exact ⟨s, .refl _ _, hact.symm, h.symm⟩
    · have hend : Reaches io p s (f s) := ((hp.runs s (f s)).mpr rfl).reaches
      exact ⟨f s, hend, (hp.actions s _ hend).trans hact.symm, h.symm⟩

/-- The ops that neither read nor write. -/
def Op.isQuiet : Op → Bool
  | output | input => false
  | _ => true

lemma Op.actions_effect {o : Op} (h : o.isQuiet = true) (s : State ι) : (o.effect io s).actions = s.actions := by
  cases o <;> first | rfl | cases h

/-- The effect of some ops in a row. -/
def effects (io : Console ι) (os : List PlainOp) (s : State ι) : State ι := os.foldl (fun s o => o.val.effect io s) s

lemma runs_ofPlain (os : List PlainOp) (s t : State ι) : Runs io (ofPlain os) s t ↔ t = effects io os s := by
  induction os generalizing s with
  | nil => exact runs_nil
  | cons o os ih => exact (runs_op o).trans (ih _)

lemma reaches_ofPlain (os : List PlainOp) (s t : State ι) :
    Reaches io (ofPlain os) s t ↔ ∃ done, done <+: os ∧ t = effects io done s := by
  induction os generalizing s with
  | nil =>
    rw [ofPlain, reaches_nil]
    constructor
    · rintro rfl
      exact ⟨[], List.prefix_rfl, rfl⟩
    · rintro ⟨done, hdone, rfl⟩
      rw [List.prefix_nil.mp hdone]
      rfl
  | cons o os ih =>
    rw [ofPlain, reaches_op, ih]
    constructor
    · rintro (rfl | ⟨done, hdone, rfl⟩)
      · exact ⟨[], List.nil_prefix, rfl⟩
      · exact ⟨o :: done, List.cons_prefix_cons.mpr ⟨rfl, hdone⟩, rfl⟩
    · rintro ⟨_ | ⟨o', done⟩, hprefix, rfl⟩
      · exact .inl rfl
      · obtain ⟨rfl, hdone⟩ := List.cons_prefix_cons.mp hprefix
        exact .inr ⟨done, hdone, rfl⟩

lemma actions_effects {os : List PlainOp} (h : ∀ o ∈ os, o.val.isQuiet = true) (s : State ι) :
    (effects io os s).actions = s.actions := by
  induction os generalizing s with
  | nil => rfl
  | cons o os ih =>
    have ho := h o List.mem_cons_self
    exact (ih (fun o ho => h o (List.mem_cons_of_mem _ ho)) _).trans (Op.actions_effect ho s)

lemma quiet_ofPlain {os : List PlainOp} (h : ∀ o ∈ os, o.val.isQuiet = true) :
    Quiet io (ofPlain os) (effects io os) where
  runs := runs_ofPlain os
  actions s t ht := by
    obtain ⟨done, hdone, rfl⟩ := (reaches_ofPlain os s t).mp ht
    exact actions_effects (fun o ho => h o (hdone.subset ho)) s

lemma quiet_single {u : PlainOp} {f : State ι → State ι} (hu : u.val.isQuiet = true)
    (hf : ∀ s, u.val.effect io s = f s) : Quiet io (ofPlain [u]) f := by
  have hquiet : ∀ o ∈ [u], o.val.isQuiet = true := by
    intro o ho
    rwa [List.mem_singleton.mp ho]
  have heffect : effects io [u] = f := funext hf
  exact heffect ▸ quiet_ofPlain hquiet

lemma reaches_single {u : PlainOp} {s t : State ι} (h : Reaches io (ofPlain [u]) s t) :
    t = s ∨ t = u.val.effect io s := by
  rcases (reaches_op u).mp h with rfl | h
  · exact .inl rfl
  · exact .inr (reaches_nil.mp h)

/-- A single op refines a program that ends as it does. -/
lemma Quiet.refines_single {p : Program} {u : PlainOp} {f : State ι → State ι} (hp : Quiet io p f)
    (hu : u.val.isQuiet = true) (hf : ∀ s, u.val.effect io s = f s) : Refines io z p (ofPlain [u]) := by
  refine hp.refines (quiet_single hu hf) fun s t ht => ?_
  rcases reaches_single ht with rfl | rfl
  · exact .inl rfl
  · exact .inr (by rw [hf])

lemma quiet_nil : Quiet io nil id where
  runs _ _ := runs_nil
  actions s t ht := by rw [reaches_nil.mp ht]

/-! ## Pairs, runs and wraps -/

lemma effects_pair {c d : Command} {o u : PlainOp} (h : c.inverse? = some d) (ho : o.val = .ofCommand d)
    (hu : u.val = .ofCommand c) (s : State ι) : effects io [o, u] s = s := by
  have hmove : ∀ j k : Int, j + k = 0 → (s.move j).move k = s := by
    intro j k hjk
    rw [State.move_move, hjk, State.move_zero]
  simp only [effects, List.foldl_cons, List.foldl_nil, ho, hu]
  cases c <;> cases h
  · simp [Op.ofCommand, Op.effect]
  · simp [Op.ofCommand, Op.effect]
  · exact hmove _ _ rfl
  · exact hmove _ _ rfl

lemma refines_pair {c d : Command} {o u : PlainOp} (h : c.inverse? = some d) (ho : o.val = .ofCommand d)
    (hu : u.val = .ofCommand c) : Refines io z (ofPlain [o, u]) nil := by
  have hcd : (Op.ofCommand c).isQuiet = true ∧ (Op.ofCommand d).isQuiet = true := by
    cases c <;> cases h <;> exact ⟨rfl, rfl⟩
  have hquiet : ∀ o' ∈ [o, u], o'.val.isQuiet = true := by
    simp [ho, hu, hcd]
  have hx : Quiet io (ofPlain [o, u]) (effects io [o, u]) := quiet_ofPlain hquiet
  rw [show effects io [o, u] = id from funext (effects_pair h ho hu)] at hx
  refine hx.refines quiet_nil fun s t ht => ?_
  exact .inl (by rw [reaches_nil.mp ht])

/-- How far a command changes the cell, and how far it moves. -/
def Command.shift : Command → UInt8 × Int
  | .inc => (1, 0) | .dec => (-1, 0) | .right => (0, 1) | .left => (0, -1)
  | _ => (0, 0)

/-- The state after `n` times the same command that can be repeated. -/
def State.shift (s : State ι) (c : Command) (n : Nat) : State ι :=
  (s.setCell (s.cell + UInt8.ofNat n * c.shift.1)).move (n * c.shift.2)

lemma effect_ofCommand {c : Command} {f : UInt64 → Op} (h : c.counted? = some f) (s : State ι) :
    (Op.ofCommand c).effect io s = s.shift c 1 := by
  cases c <;> cases h <;> simp [Op.ofCommand, Op.effect, State.shift, Command.shift, UInt8.sub_eq_add_neg]

lemma shift_shift (s : State ι) (c : Command) (m n : Nat) : (s.shift c m).shift c n = s.shift c (m + n) := by
  have hcell : c.shift.2 = 0 ∨ c.shift.1 = 0 := by cases c <;> simp [Command.shift]
  rcases hcell with h | h
  · simp only [State.shift, h, Int.mul_zero, State.move_zero, State.cell_setCell, State.setCell_setCell,
      UInt8.ofNat_add]
    congr 1
    grind
  · have hcast : ((m + n : Nat) : Int) * c.shift.2 = m * c.shift.2 + n * c.shift.2 := by
      rw [Int.natCast_add, Int.add_mul]
    simp only [State.shift, h, UInt8.mul_zero, UInt8.add_zero, State.setCell_cell, State.move_move, hcast]

lemma effects_replicate {c : Command} {f : UInt64 → Op} {o : PlainOp} (h : c.counted? = some f)
    (ho : o.val = .ofCommand c) (n : Nat) (s : State ι) : effects io (List.replicate n o) s = s.shift c n := by
  induction n generalizing s with
  | zero => simp [effects, State.shift]
  | succ n ih =>
    have : effects io (List.replicate (n + 1) o) s = effects io (List.replicate n o) (o.val.effect io s) := rfl
    rw [this, ih, ho, effect_ofCommand h, shift_shift, Nat.add_comm]

lemma effect_counted {c : Command} {f : UInt64 → Op} (h : c.counted? = some f) (n : UInt64) (s : State ι) :
    (f n).effect io s = s.shift c n.toNat := by
  have hneg : ∀ v : UInt8, v * -1 = -v := by grind
  cases c <;> cases h <;> simp [Op.effect, State.shift, Command.shift, hneg, UInt8.sub_eq_add_neg]

lemma Command.isQuiet_of_counted? {c : Command} {f : UInt64 → Op} (h : c.counted? = some f) (n : UInt64) :
    (Op.ofCommand c).isQuiet = true ∧ (f n).isQuiet = true := by
  cases c <;> cases h <;> exact ⟨rfl, rfl⟩

lemma quiet_replicate {c : Command} {f : UInt64 → Op} {o : PlainOp} (h : c.counted? = some f)
    (ho : o.val = .ofCommand c) (n : Nat) : Quiet io (ofPlain (List.replicate n o)) (fun s => s.shift c n) := by
  have hquiet : ∀ o' ∈ List.replicate n o, o'.val.isQuiet = true := by
    intro o' ho'
    rw [List.eq_of_mem_replicate ho', ho]
    exact (Command.isQuiet_of_counted? h 0).1
  have heffects : effects io (List.replicate n o) = fun s => s.shift c n := funext (effects_replicate h ho n)
  exact heffects ▸ quiet_ofPlain hquiet

lemma refines_wrap {c : Command} {o : PlainOp} (h : c.changesCell = true) (ho : o.val = .ofCommand c) (n : Nat) :
    Refines io z (ofPlain (List.replicate n o)) (ofPlain (List.replicate (n % 256) o)) := by
  obtain ⟨f, hf⟩ : ∃ f, c.counted? = some f := by cases c <;> first | exact ⟨_, rfl⟩ | cases h
  have hstays : c.shift.2 = 0 := by cases c <;> first | rfl | cases h
  have hmod : (fun s : State ι => s.shift c (n % 256)) = fun s => s.shift c n := by
    funext s
    have : UInt8.ofNat (n % 256) = UInt8.ofNat n := UInt8.ofNat_mod_size
    simp [State.shift, hstays, this]
  refine (quiet_replicate hf ho n).refines (hmod ▸ quiet_replicate hf ho (n % 256)) fun s t ht => .inl ?_
  obtain ⟨done, hdone, rfl⟩ := (reaches_ofPlain _ s t).mp ht
  have hdone : done = List.replicate done.length o :=
    List.eq_replicate_of_mem fun o' ho' => List.eq_of_mem_replicate (hdone.subset ho')
  rw [hdone, effects_replicate hf ho]
  simp [State.shift, hstays]

lemma refines_count {c : Command} {f : UInt64 → Op} {o u : PlainOp} (h : c.counted? = some f)
    (ho : o.val = .ofCommand c) (n : UInt64) (hu : u.val = f n) :
    Refines io z (ofPlain (List.replicate n.toNat o)) (ofPlain [u]) := by
  refine (quiet_replicate h ho n.toNat).refines_single ?_ ?_
  · rw [hu]
    exact (Command.isQuiet_of_counted? h n).2
  · rw [hu]
    exact effect_counted h n

/-! ## Dead loops -/

lemma refines_deadLoop (b : Program) : Refines io true (loop b nil) nil where
  runs hs _ := runs_loop_zero (hs rfl)
  forth hs t ht := ⟨t, (reaches_loop_zero (hs rfl)).mp ht, rfl⟩
  back hs t ht := ⟨t, (reaches_loop_zero (hs rfl)).mpr ht, rfl, rfl⟩

/-! ## Clearing a cell -/

/-- A cell that is changed by one again and again comes to zero. -/
lemma laps_to_zero {o : PlainOp} {δ : UInt8} (ho : ∀ s : State ι, o.val.effect io s = s.setCell (s.cell + δ)) (n : Nat)
    {s : State ι} (h : s.cell + UInt8.ofNat n * δ = 0) : Laps io (ofPlain [o]) s (s.setCell 0) := by
  induction n generalizing s with
  | zero =>
    have : s.cell = 0 := by simpa using h
    rw [← this, State.setCell_cell]
    exact .refl
  | succ n ih =>
    by_cases hzero : s.cell = 0
    · rw [← hzero, State.setCell_cell]
      exact .refl
    · have hlap : Runs io (ofPlain [o]) s (s.setCell (s.cell + δ)) := (runs_ofPlain [o] s _).mpr (ho s).symm
      have hrest := ih (s := s.setCell (s.cell + δ)) (by
        rw [UInt8.ofNat_add] at h
        rw [State.cell_setCell]
        grind)
      rw [State.setCell_setCell] at hrest
      exact .head ⟨hzero, hlap⟩ hrest

/-- Such a loop changes nothing but its cell. -/
lemma setCell_of_laps {o : PlainOp} {δ : UInt8} (ho : ∀ s : State ι, o.val.effect io s = s.setCell (s.cell + δ))
    {s t : State ι} (h : Laps io (ofPlain [o]) s t) : t.setCell 0 = s.setCell 0 := by
  induction h using Relation.ReflTransGen.head_induction_on with
  | refl => rfl
  | head hlap _ ih =>
    have := (runs_ofPlain [o] _ _).mp hlap.2
    rw [ih, this]
    simp [effects, ho]

lemma quiet_clearingLoop {o : PlainOp} (δ : UInt8) (hδ : ∀ v : UInt8, ∃ n, v + UInt8.ofNat n * δ = 0)
    (ho : ∀ s : State ι, o.val.effect io s = s.setCell (s.cell + δ)) :
    Quiet io (loop (ofPlain [o]) nil) (fun s => s.setCell 0) where
  runs s t := by
    rw [runs_loop]
    constructor
    · rintro ⟨m, hlaps, hzero, hm⟩
      rw [runs_nil.mp hm, ← setCell_of_laps ho hlaps, ← hzero, State.setCell_cell]
    · rintro rfl
      obtain ⟨n, hn⟩ := hδ s.cell
      exact ⟨_, laps_to_zero ho n hn, State.cell_setCell _ _, runs_nil.mpr rfl⟩
  actions s t ht := by
    obtain ⟨m, hlaps, ht⟩ := reaches_loop.mp ht
    have hm : m.actions = s.actions := by
      rw [← State.actions_setCell m 0, setCell_of_laps ho hlaps, State.actions_setCell]
    rcases ht with ⟨-, ht⟩ | ⟨-, ht⟩
    · rcases reaches_single ht with rfl | rfl
      · exact hm
      · rw [ho, State.actions_setCell, hm]
    · rw [reaches_nil.mp ht, hm]

lemma refines_clear {o u : PlainOp} (ho : o.val = .add 1 ∨ o.val = .sub 1) (hu : u.val = .clear) :
    Refines io z (loop (ofPlain [o]) nil) (ofPlain [u]) := by
  have hloop : Quiet io (loop (ofPlain [o]) nil) (fun s => s.setCell 0) := by
    rcases ho with ho | ho
    · refine quiet_clearingLoop 1 (fun v => ⟨(-v).toNat, ?_⟩) (fun s => by rw [ho]; rfl)
      rw [UInt8.ofNat_toNat]
      grind
    · refine quiet_clearingLoop (-1) (fun v => ⟨v.toNat, ?_⟩) (fun s => ?_)
      · rw [UInt8.ofNat_toNat]
        grind
      · rw [ho, ← UInt8.sub_eq_add_neg]
        rfl
  refine hloop.refines_single ?_ ?_
  · rw [hu]
    rfl
  · intro s
    rw [hu]
    rfl

/-! ## All of them -/

/-- **Every redex keeps what a program does.** -/
theorem Redex.refines {x y : Program} (h : Redex z x y) : Refines io z x y := by
  cases h with
  | pair h ho hu => exact refines_pair h ho hu
  | wrap h ho n => exact refines_wrap h ho n
  | deadLoop b => exact refines_deadLoop b
  | @count _ c f o u n h ho _ small hu =>
    have hn : (UInt64.ofNat n).toNat = n := by
      rw [UInt64.toNat_ofNat']
      omega
    have hcount : Refines io z (ofPlain (List.replicate (UInt64.ofNat n).toNat o)) (ofPlain [u]) :=
      refines_count h ho _ hu
    rwa [hn] at hcount
  | clear ho hu => exact refines_clear ho hu

/-- **So does rewriting.** -/
theorem Rewrites.exists_refines {p : Program} {b : List Op} (h : Rewrites z p.ops b) (io : Console ι) :
    ∃ q : Program, q.ops = b ∧ Refines io z p q :=
  h.exists_program refines_compatible Refines.refl Refines.trans (fun hxy r => hxy.refines.before r) rfl

end TapeElf
