import TapeElf.Proofs.Acceptance
import TapeElf.Proofs.OpText
import TapeElf.Proofs.Simplified

/-!
# Canonical programs

* `Op.blocks ops`: the blocks of commands that ops stand for;
* `Canonical ops`: the brackets match, no pass finds anything in the blocks, and no loop that only steps its cell is
  left;
* `canonical_of_optimize`: what the optimiser gives is canonical;
* `optimize_expansion`: the plain source of canonical ops is optimised to these ops again, so optimising twice is
  optimising once.
-/

namespace TapeElf

/-- The blocks of commands that ops stand for. -/
def Op.blocks (ops : List Op) : List (Command × Nat) := ops.flatMap Op.commands

@[simp] lemma Op.blocks_nil : Op.blocks [] = [] := rfl

@[simp] lemma Op.blocks_cons (op : Op) (ops : List Op) : Op.blocks (op :: ops) = op.commands ++ Op.blocks ops := rfl

@[simp] lemma Op.blocks_append (a b : List Op) : Op.blocks (a ++ b) = Op.blocks a ++ Op.blocks b :=
  List.flatMap_append

/-- An op that steps the cell once. -/
def Op.IsStep (o : Op) : Prop := o = .add 1 ∨ o = .sub 1

/-- The blocks of ops are reduced, and all of them can be counted. -/
structure Op.Tidy (ops : List Op) : Prop where
  reduced : Reduced (Op.blocks ops)
  counts : ∀ r ∈ Op.blocks ops, CountFits r

/-- No loop that only steps its cell is left. -/
def Op.Folded (ops : List Op) : Prop := ∀ o : Op, o.IsStep → ¬ [.loopOpen, o, .loopClose] <:+: ops

/-- Ops that optimising does not change. -/
structure Canonical (ops : List Op) : Prop where
  balanced : Balanced ops
  tidy : Op.Tidy ops
  folded : Op.Folded ops

/-! ## Condensed code -/

lemma Op.commands_of_counted? {c : Command} {f : UInt64 → Op} (h : c.counted? = some f) (n : UInt64) :
    (f n).commands = [(c, n.toNat)] := by
  cases c <;> cases h <;> rfl

lemma Op.commands_ofCommand (c : Command) : (Op.ofCommand c).commands = [(c, 1)] := by
  cases c <;> rfl

/-- The blocks of the ops of a run: the run itself if it is counted, and else its commands one by one. -/
def runBlocks (r : Command × Nat) : List (Command × Nat) :=
  if r.1.counted?.isSome then [r] else List.replicate r.2 (r.1, 1)

lemma Op.blocks_runOps {r : Command × Nat} (h : CountFits r) : Op.blocks (runOps r) = runBlocks r := by
  unfold runOps runBlocks
  cases hc : r.1.counted? with
  | none => simp [Op.blocks, List.flatMap_replicate, Op.commands_ofCommand]
  | some f =>
    have hr := h (by rw [hc]; rfl)
    have hn : (UInt64.ofNat r.2).toNat = r.2 := by
      rw [UInt64.toNat_ofNat']
      omega
    simp [Op.blocks, Op.commands_of_counted? hc, hn]

lemma map_fst_runBlocks (r : Command × Nat) :
    (runBlocks r).map Prod.fst = List.replicate (if r.1.counted?.isSome then 1 else r.2) r.1 := by
  unfold runBlocks
  split <;> simp

lemma eq_of_mem_runBlocks {r s : Command × Nat} (h : s ∈ runBlocks r) :
    s.1 = r.1 ∧ (s = r ∨ r.1.counted? = none ∧ s.2 = 1) := by
  unfold runBlocks at h
  split at h
  · rw [List.mem_singleton.mp h]
    exact ⟨rfl, .inl rfl⟩
  · next hc =>
    rw [List.eq_of_mem_replicate h]
    exact ⟨rfl, .inr ⟨by simpa using hc, rfl⟩⟩

lemma Command.counted?_of_changesCell {c : Command} (h : c.changesCell = true) : c.counted? ≠ none := by
  cases c <;> simp_all [changesCell, counted?]

lemma Reduced.tidy {rs : List (Command × Nat)} (h : Reduced rs) (hcount : ∀ r ∈ rs, CountFits r) :
    Op.Tidy (rs.flatMap runOps) := by
  have hblocks : Op.blocks (rs.flatMap runOps) = rs.flatMap runBlocks := by
    rw [Op.blocks, List.flatMap_assoc]
    exact List.flatMap_congr fun r hr => Op.blocks_runOps (hcount r hr)
  have hmem (s : Command × Nat) (hs : s ∈ rs.flatMap runBlocks) :
      ∃ r ∈ rs, s.1 = r.1 ∧ (s = r ∨ r.1.counted? = none ∧ s.2 = 1) := by
    obtain ⟨r, hr, hs⟩ := List.mem_flatMap.mp hs
    exact ⟨r, hr, eq_of_mem_runBlocks hs⟩
  -- the commands of the new blocks are those of the old ones, each as often as its run is cut
  have hfst : (rs.flatMap runBlocks).map Prod.fst =
      unroll (rs.map fun r => (r.1, if r.1.counted?.isSome then 1 else r.2)) := by
    rw [List.map_flatMap, unroll, List.flatMap_map]
    exact List.flatMap_congr fun r _ => map_fst_runBlocks r
  have hpos : ∀ r ∈ rs.map fun r => (r.1, if r.1.counted?.isSome then 1 else r.2), 0 < r.2 := by
    intro s hs
    obtain ⟨r, hr, rfl⟩ := List.mem_map.mp hs
    have := h.pos r hr
    dsimp only
    split <;> omega
  rw [← hblocks] at hmem hfst
  refine ⟨⟨fun s hs => ?_, ?_, ?_, fun s hs hcell => ?_⟩, fun s hs hc => ?_⟩
  · obtain ⟨r, hr, -, rfl | ⟨-, h1⟩⟩ := hmem s hs
    · exact h.pos s hr
    · omega
  · rw [hfst, isChain_unroll_iff hpos, List.map_map]
    · exact h.apart
    · intro s hs
      obtain ⟨r, -, rfl⟩ := List.mem_map.mp hs
      dsimp only
      split
      · exact List.isChain_singleton r.1
      · next hc =>
        refine List.isChain_replicate_of_rel r.2 ⟨?_, fun hc' => absurd hc' hc⟩
        exact (List.isChain_pair.mp (r.1.isChain_settled 2))
  · rw [hfst, head?_unroll hpos, List.map_map]
    exact h.starts
  · obtain ⟨r, hr, hfst, rfl | ⟨hnone, -⟩⟩ := hmem s hs
    · exact h.small s hr hcell
    · exact absurd hnone (Command.counted?_of_changesCell (hfst ▸ hcell))
  · obtain ⟨r, hr, hfst, rfl | ⟨hnone, -⟩⟩ := hmem s hs
    · exact hcount s hr hc
    · rw [hfst, hnone] at hc
      cases hc

/-! ## Clearing loops -/

/-- What one more op does: it ends a loop that only steps its cell, or it is kept. -/
lemma clearStep_cases (done : List Op) (op : Op) :
    (∃ o rest, o.IsStep ∧ op = .loopClose ∧ done = o :: .loopOpen :: rest ∧ clearStep done op = .clear :: rest) ∨
    ((∀ o, o.IsStep → op = .loopClose → ¬ [o, .loopOpen] <+: done) ∧ clearStep done op = op :: done) := by
  by_cases h : ∃ o rest, o.IsStep ∧ op = .loopClose ∧ done = o :: .loopOpen :: rest
  · obtain ⟨o, rest, ho, rfl, rfl⟩ := h
    refine .inl ⟨o, rest, ho, rfl, rfl, ?_⟩
    rcases ho with rfl | rfl <;> rfl
  · refine .inr ⟨fun o ho hop ⟨rest, hrest⟩ => h ⟨o, rest, ho, hop, hrest.symm⟩, ?_⟩
    unfold clearStep
    split
    · next n rest =>
      exact if_neg fun hn => h ⟨.add n, rest, .inl (by rw [hn]), rfl, rfl⟩
    · next n rest =>
      exact if_neg fun hn => h ⟨.sub n, rest, .inr (by rw [hn]), rfl, rfl⟩
    · rfl

/-- A clearing loop may count down where it counts up. -/
lemma Op.Tidy.clear {pre post : List Op} {o : Op} (ho : o.IsStep)
    (h : Op.Tidy (pre ++ [.loopOpen, o, .loopClose] ++ post)) : Op.Tidy (pre ++ [.clear] ++ post) := by
  have hclear : Op.blocks (pre ++ [.clear] ++ post) =
      Op.blocks pre ++ (.loopOpen, 1) :: (.dec, 1) :: (.loopClose, 1) :: Op.blocks post := by
    simp [Op.commands]
  rcases ho with rfl | rfl
  · have hloop : Op.blocks (pre ++ [.loopOpen, .add 1, .loopClose] ++ post) =
        Op.blocks pre ++ (.loopOpen, 1) :: (.inc, 1) :: (.loopClose, 1) :: Op.blocks post := by
      simp [Op.commands]
    obtain ⟨⟨pos, apart, starts, small⟩, counts⟩ := h
    rw [hloop] at pos apart starts small counts
    simp only [List.map_append, List.map_cons, List.isChain_append_cons_cons, List.isChain_cons_cons] at apart
    simp only [List.forall_mem_append, List.forall_mem_cons] at pos small counts
    refine ⟨⟨?_, ?_, ?_, ?_⟩, ?_⟩ <;> rw [hclear]
    · simp only [List.forall_mem_append, List.forall_mem_cons]
      exact pos
    · simp only [List.map_append, List.map_cons, List.isChain_append_cons_cons, List.isChain_cons_cons]
      exact ⟨apart.1, by decide, by decide, apart.2.2.2⟩
    · rw [List.map_append, List.head?_append] at starts ⊢
      exact starts
    · simp only [List.forall_mem_append, List.forall_mem_cons]
      exact ⟨small.1, small.2.1, fun _ => by decide, small.2.2.2⟩
    · simp only [List.forall_mem_append, List.forall_mem_cons]
      exact ⟨counts.1, counts.2.1, fun _ => by decide, counts.2.2.2⟩
  · have hloop : Op.blocks (pre ++ [.loopOpen, .sub 1, .loopClose] ++ post) = Op.blocks (pre ++ [.clear] ++ post) := by
      simp [Op.commands]
    exact ⟨hloop ▸ h.reduced, hloop ▸ h.counts⟩

lemma Op.Tidy.foldClears {ops : List Op} (h : Op.Tidy ops) : Op.Tidy (foldClears ops) := by
  suffices key : ∀ done, Op.Tidy (done.reverse ++ ops) → Op.Tidy (ops.foldl clearStep done).reverse from key [] h
  clear h
  induction ops with
  | nil => exact fun done h => by simpa using h
  | cons op ops ih =>
    intro done h
    refine ih _ ?_
    rcases clearStep_cases done op with ⟨o, rest, ho, rfl, rfl, hstep⟩ | ⟨-, hstep⟩
    · rw [hstep, List.reverse_cons]
      exact Op.Tidy.clear ho (by simpa using h)
    · rw [hstep]
      simpa using h

lemma Op.folded_foldClears (ops : List Op) : Op.Folded (foldClears ops) := by
  -- the invariant on what is done, which lies there last op first
  suffices key : ∀ done : List Op, (∀ o : Op, o.IsStep → ¬ [.loopClose, o, .loopOpen] <:+: done) →
      ∀ o : Op, o.IsStep → ¬ [.loopClose, o, .loopOpen] <:+: ops.foldl clearStep done by
    intro o ho hfactor
    refine key [] (fun o _ h => by simp at h) o ho ?_
    rwa [← List.reverse_infix]
  induction ops with
  | nil => exact fun done h => h
  | cons op ops ih =>
    intro done h
    refine ih _ fun o ho hfactor => ?_
    rcases clearStep_cases done op with ⟨o', rest, -, rfl, rfl, hstep⟩ | ⟨hkeep, hstep⟩
    · rw [hstep, List.infix_cons_iff] at hfactor
      rcases hfactor with hprefix | hfactor
      · simp at hprefix
      · exact h o ho (hfactor.trans ⟨[o', .loopOpen], [], by simp⟩)
    · rw [hstep, List.infix_cons_iff, List.cons_prefix_cons] at hfactor
      rcases hfactor with ⟨hop, hprefix⟩ | hfactor
      · exact hkeep o ho hop.symm hprefix
      · exact h o ho hfactor

/-- **What the optimiser gives is canonical.** -/
theorem canonical_of_optimize {source : Bytes} {ops : List Op} (h : optimize source = .ok ops) : Canonical ops := by
  obtain ⟨hbal, hrewrites⟩ := optimize_rewrites h
  have hbalanced : Balanced ops := hrewrites.balanced hbal
  unfold optimize at h
  split at h
  · cases h
  cases hcondense : condense (simplify (Command.ofSource source)) with
  | error d => rw [hcondense] at h; cases h
  | ok counted =>
    rw [hcondense] at h
    cases h
    obtain ⟨hcount, rfl⟩ := condense_eq_ok_iff.mp hcondense
    have htidy := (simplified_simplify (Command.ofSource source)).reduced.tidy hcount
    exact ⟨hbalanced, htidy.foldClears, Op.folded_foldClears _⟩

/-! ## Optimising the expansion -/

/-- The plain source of ops. -/
def Op.expansion (ops : List Op) : Bytes := (unroll (Op.blocks ops)).map Command.byte

lemma Command.ofSource_map_byte (code : List Command) : Command.ofSource (code.map Command.byte) = code := by
  induction code with
  | nil => rfl
  | cons c code ih =>
    rw [Command.ofSource] at ih ⊢
    rw [List.map_cons, List.filterMap_cons, Command.ofByte?_byte, ih]

lemma depth?_replicate_plain {o : Op} (h : o.isBracket = false) (n d : Nat) :
    depth? d (List.replicate n o) = some d := by
  induction n with
  | zero => rfl
  | succ n ih => rw [List.replicate_succ, depth?_cons, Op.depth?_plain h, Option.bind_some, ih]

lemma depth?_commands (op : Op) (d : Nat) : depth? d (Command.ops (unroll op.commands)) = op.depth? d := by
  have hrun (c : Command) (n : Nat) (hc : (Op.ofCommand c).isBracket = false) :
      depth? d (Command.ops (unroll [(c, n)])) = some d := by
    rw [unroll_cons, Command.ops_append, ops_replicate, depth?_append, depth?_replicate_plain hc]
    rfl
  cases op with
  | add n => exact hrun .inc n.toNat rfl
  | sub n => exact hrun .dec n.toNat rfl
  | right n => exact hrun .right n.toNat rfl
  | left n => exact hrun .left n.toNat rfl
  | output => exact hrun .output 1 rfl
  | input => exact hrun .input 1 rfl
  | loopClose => cases d <;> rfl
  | _ => rfl

lemma depth?_expansion (ops : List Op) (d : Nat) : depth? d (sourceOps (Op.expansion ops)) = depth? d ops := by
  rw [sourceOps, Op.expansion, Command.ofSource_map_byte]
  induction ops generalizing d with
  | nil => rfl
  | cons op ops ih =>
    rw [Op.blocks_cons, unroll_append, Command.ops_append, depth?_append, depth?_commands, depth?_cons]
    simp only [ih]

/-- A clearing loop is folded again, and no other op is. -/
lemma foldClears_runOps {ops : List Op} (h : Op.Folded ops) : foldClears ((Op.blocks ops).flatMap runOps) = ops := by
  suffices key : ∀ done : List Op, Op.Folded (done.reverse ++ ops) →
      ((Op.blocks ops).flatMap runOps).foldl clearStep done = ops.reverse ++ done by
    rw [foldClears, key [] h, List.append_nil, List.reverse_reverse]
  clear h
  induction ops with
  | nil => exact fun _ _ => rfl
  | cons op ops ih =>
    intro done h
    have hfirst : (op.commands.flatMap runOps).foldl clearStep done = op :: done := by
      have hkeep (hops : op.commands.flatMap runOps = [op]) :
          (op.commands.flatMap runOps).foldl clearStep done = op :: done := by
        rw [hops]
        rcases clearStep_cases done op with ⟨o, rest, ho, rfl, rfl, -⟩ | ⟨-, hstep⟩
        · exact absurd ⟨rest.reverse, ops, by simp⟩ (h o ho)
        · exact hstep
      cases op with
      | clear => rfl
      | add n | sub n | right n | left n => exact hkeep (by simp [Op.commands, runOps, Command.counted?])
      | _ => exact hkeep rfl
    rw [Op.blocks_cons, List.flatMap_append, List.foldl_append, hfirst, ih (op :: done) (by simpa using h)]
    simp

/-- **Canonical ops are what their plain source is optimised to.** -/
theorem optimize_expansion {ops : List Op} (h : Canonical ops) : optimize (Op.expansion ops) = .ok ops := by
  have hbal : unbalanced? (Op.expansion ops) = none :=
    unbalanced?_eq_none_iff.mpr ((depth?_expansion ops 0).trans h.balanced)
  have hsimplify : simplify (Command.ofSource (Op.expansion ops)) = unroll (Op.blocks ops) := by
    rw [Op.expansion, Command.ofSource_map_byte]
    exact simplify_of_simplified h.tidy.reduced.simplified
  have hcondense := h.tidy.reduced.condense_unroll h.tidy.counts
  simp only [optimize, hbal, hsimplify, hcondense]
  change Except.ok (foldClears ((Op.blocks ops).flatMap runOps)) = Except.ok ops
  rw [foldClears_runOps h.folded]

/-! ## Expanding -/

lemma Op.reservation_le (op : Op) : op.reservation ≤ (unroll op.commands).length := by
  have hrun (c : Command) (n : Nat) : n ≤ (unroll [(c, n)]).length := by
    rw [length_unroll_cons]
    omega
  cases op with
  | add n | sub n | right n | left n => exact hrun _ n.toNat
  | clear => exact Nat.zero_le _
  | _ => exact hrun _ 1

lemma Op.length_expansion (ops : List Op) : (Op.expansion ops).length = (unroll (Op.blocks ops)).length :=
  List.length_map _

lemma Op.expansion_cons (op : Op) (ops : List Op) :
    Op.expansion (op :: ops) = (unroll op.commands).map Command.byte ++ Op.expansion ops := by
  simp [Op.expansion, unroll]

/-- Ops are expanded to their plain source if there is memory for it. -/
lemma Op.expand_eq_ok {available : Nat} {ops : List Op} (hmem : (Op.expansion ops).length ≤ available)
    (hlen : (Op.expansion ops).length < 2 ^ 63) : Op.expand available ops = .ok (Op.expansion ops) := by
  suffices key : ∀ done : Bytes, done.length + (Op.expansion ops).length ≤ available →
      done.length + (Op.expansion ops).length < 2 ^ 63 →
      expandFrom available done done.length ops = .ok (done.reverse ++ Op.expansion ops) by
    simpa [Op.expand] using key [] (by simpa using hmem) (by simpa using hlen)
  clear hmem hlen
  induction ops with
  | nil =>
    intro done _ _
    simp [expandFrom, Op.expansion, unroll]
  | cons op ops ih =>
    intro done hmem hlen
    have hres := op.reservation_le
    rw [Op.expansion_cons, List.length_append, List.length_map] at hmem hlen
    have hshort : MemoryShortage.of? available done.length op.reservation = none := by
      rw [MemoryShortage.of?, if_neg, if_neg] <;> omega
    have := ih (((unroll op.commands).map Command.byte).reverse ++ done) (by simp; omega) (by simp; omega)
    simp only [expandFrom, hshort, Op.expansion_cons]
    simpa [Nat.add_comm] using this

/-! ## Optimising never makes the expansion longer -/

/-- The number of commands that ops stand for. -/
def Op.weight (ops : List Op) : Nat := (unroll (Op.blocks ops)).length

lemma Op.weight_append (a b : List Op) : Op.weight (a ++ b) = Op.weight a + Op.weight b := by
  simp [Op.weight, unroll]

lemma Op.weight_ops (code : List Command) : Op.weight (Command.ops code) = code.length := by
  induction code with
  | nil => rfl
  | cons c code ih =>
    have hone : Op.weight [Op.ofCommand c] = 1 := by cases c <;> rfl
    rw [Command.ops_cons, ← List.singleton_append, Op.weight_append, hone, ih, List.length_cons, Nat.add_comm]

lemma Op.weight_replicate (o : Op) (n : Nat) : Op.weight (List.replicate n o) = n * Op.weight [o] := by
  induction n with
  | zero => simp [Op.weight, unroll]
  | succ n ih => rw [List.replicate_succ', Op.weight_append, ih, Nat.succ_mul]

lemma Redex.weight_le {z : Bool} {x y : Program} (h : Redex z x y) : Op.weight y.ops ≤ Op.weight x.ops := by
  cases h with
  | pair | deadLoop => exact Nat.zero_le _
  | @wrap _ c o _ _ n =>
    rw [ops_ofPlain_replicate, ops_ofPlain_replicate, Op.weight_replicate, Op.weight_replicate]
    exact Nat.mul_le_mul_right _ (Nat.mod_le n 256)
  | @count _ c f o u n hf ho pos small hu =>
    have hn : (UInt64.ofNat n).toNat = n := by
      rw [UInt64.toNat_ofNat']
      omega
    have hone : Op.weight [o.val] = 1 := by rw [ho]; cases c <;> rfl
    rw [ops_ofPlain_replicate, Op.weight_replicate, hone]
    simp [Op.weight, hu, Op.commands_of_counted? hf, hn, unroll]
  | clear ho hu =>
    simp only [Program.ops_ofPlain, Program.ops_loop, List.map_cons, List.map_nil, hu]
    rcases ho with ho | ho <;> rw [ho] <;> decide

lemma Rewrites.weight_le {z : Bool} {a b : List Op} (h : Rewrites z a b) : Op.weight b ≤ Op.weight a := by
  induction h with
  | refl => exact Nat.le_refl _
  | tail _ hstep ih =>
    obtain ⟨pre, post, x, y, hxy, rfl, rfl⟩ := hstep
    have := hxy.weight_le
    simp only [Op.weight_append] at ih ⊢
    omega

lemma length_expansion_of_optimize {source : Bytes} {ops : List Op} (h : optimize source = .ok ops) :
    (Op.expansion ops).length ≤ source.length := by
  have hweight := (optimize_rewrites h).2.weight_le
  rw [sourceOps, Op.weight_ops] at hweight
  rw [Op.length_expansion]
  exact hweight.trans (length_ofSource_le source)

/-! ## Optimising twice -/

/-- **Optimising twice is optimising once.** The text of an optimised source is expanded to a plain source, which
takes no more memory than the first one, and optimising that gives the same ops, hence the same text. -/
theorem optimize_idempotent {source : Bytes} {ops : List Op} (hlen : source.length < 2 ^ 63)
    (h : optimize source = .ok ops) :
    ∃ expanded : Bytes, expanded.length ≤ source.length ∧
      (∀ available, expanded.length ≤ available → expandText available (Op.bytes ops) = .ok expanded) ∧
      optimize expanded = .ok ops := by
  have hlen' := length_expansion_of_optimize h
  refine ⟨Op.expansion ops, hlen', fun available hmem => ?_, optimize_expansion (canonical_of_optimize h)⟩
  simp only [expandText, Op.read_bytes, Op.expand_eq_ok hmem (hlen'.trans_lt hlen)]

/-- The source `+>[+]<-.`, of which the loop comes back as `[-]`. -/
theorem optimize_idempotent_clearing_loop :
    ([43, 62, 91, 43, 93, 60, 45, 46] : Bytes).length < 2 ^ 63 ∧
    optimize [43, 62, 91, 43, 93, 60, 45, 46] = .ok [.add 1, .right 1, .clear, .left 1, .sub 1, .output] ∧
    ∃ expanded : Bytes, expanded.length ≤ 8 ∧
      (∀ available, expanded.length ≤ available →
        expandText available (Op.bytes [.add 1, .right 1, .clear, .left 1, .sub 1, .output]) = .ok expanded) ∧
      optimize expanded = .ok [.add 1, .right 1, .clear, .left 1, .sub 1, .output] := by
  have hlen : ([43, 62, 91, 43, 93, 60, 45, 46] : Bytes).length < 2 ^ 63 := by decide
  have h : optimize [43, 62, 91, 43, 93, 60, 45, 46] =
      .ok [.add 1, .right 1, .clear, .left 1, .sub 1, .output] := by cbv
  exact ⟨hlen, h, optimize_idempotent hlen h⟩

end TapeElf
