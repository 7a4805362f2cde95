import Mathlib
import TapeElf.Op

/-!
# Programs as loop trees

A list of ops whose brackets match is the same thing as a tree of loops.

* `Program`: a sequence of ops and loops, each loop with a program as its body;
* `Program.ops`: the flat list of a program, `[` and `]` around every body;
* `depth? d code`: how many loops are open after `code`, if `d` were open before it, or nothing if a `]`
  closes none; `Balanced code`: every bracket of `code` has its match;
* `balanced_iff`: the balanced lists are those of programs, and `Program.ops_injective`: of one program each;
* `Program.exists_replace`: a balanced part of a program can be replaced where it stands. What relates the
  old part to the new one relates the old program to the new one, if it is `Compatible` with the program around
  it.
-/

namespace TapeElf

def Op.isBracket : Op → Bool
  | loopOpen | loopClose => true
  | _ => false

/-- An op other than a bracket. -/
abbrev PlainOp := { op : Op // op.isBracket = false }

/-- A program: ops and loops in sequence. -/
inductive Program where
  | nil
  | op (o : PlainOp) (rest : Program)
  | loop (body rest : Program)

namespace Program

def ops : Program → List Op
  | nil => []
  | op o rest => o.val :: rest.ops
  | loop body rest => .loopOpen :: (body.ops ++ .loopClose :: rest.ops)

def append : Program → Program → Program
  | nil, q => q
  | op o rest, q => op o (rest.append q)
  | loop body rest, q => loop body (rest.append q)

instance : Append Program := ⟨append⟩

@[simp] lemma nil_append (q : Program) : nil ++ q = q := rfl
@[simp] lemma op_append (o : PlainOp) (p q : Program) : op o p ++ q = op o (p ++ q) := rfl
@[simp] lemma loop_append (b p q : Program) : loop b p ++ q = loop b (p ++ q) := rfl

@[simp] lemma append_nil (p : Program) : p ++ nil = p := by
  induction p with
  | nil => rfl
  | op o p ih => rw [op_append, ih]
  | loop b p _ ih => rw [loop_append, ih]

lemma append_assoc (p q r : Program) : p ++ q ++ r = p ++ (q ++ r) := by
  induction p with
  | nil => rfl
  | op o p ih => simp only [op_append, ih]
  | loop b p _ ih => simp only [loop_append, ih]

@[simp] lemma ops_nil : ops nil = [] := rfl
@[simp] lemma ops_op (o : PlainOp) (p : Program) : (op o p).ops = o.val :: p.ops := rfl
@[simp] lemma ops_loop (b p : Program) : (loop b p).ops = .loopOpen :: (b.ops ++ .loopClose :: p.ops) := rfl

@[simp] lemma ops_append (p q : Program) : (p ++ q).ops = p.ops ++ q.ops := by
  induction p with
  | nil => rfl
  | op o p ih => simp [ih]
  | loop b p _ ih => simp [ih]

/-- The program of a list of ops that are no brackets. -/
def ofPlain : List PlainOp → Program
  | [] => nil
  | o :: os => op o (ofPlain os)

@[simp] lemma ops_ofPlain (os : List PlainOp) : (ofPlain os).ops = os.map Subtype.val := by
  induction os with
  | nil => rfl
  | cons o os ih => simp [ofPlain, ih]

end Program

def Command.ops (code : List Command) : List Op := code.map Op.ofCommand

/-- The ops of a source, one for each command. -/
def sourceOps (source : Bytes) : List Op := Command.ops (Command.ofSource source)

/-! ## Open loops -/

/-- The number of open loops after an op, or nothing if the op closes one that is not there. -/
def Op.depth? (d : Nat) : Op → Option Nat
  | loopOpen => some (d + 1)
  | loopClose => if d = 0 then none else some (d - 1)
  | _ => some d

/-- The number of open loops after some code. -/
def depth? (d : Nat) (code : List Op) : Option Nat := code.foldlM Op.depth? d

/-- Every bracket has its match. -/
def Balanced (code : List Op) : Prop := depth? 0 code = some 0

instance : DecidablePred Balanced := fun code => inferInstanceAs (Decidable (depth? 0 code = some 0))

@[simp] lemma depth?_cons (d : Nat) (op : Op) (code : List Op) :
    depth? d (op :: code) = (op.depth? d).bind (depth? · code) := rfl

lemma depth?_append (d : Nat) (a b : List Op) : depth? d (a ++ b) = (depth? d a).bind (depth? · b) :=
  List.foldlM_append

lemma Op.depth?_plain {op : Op} (h : op.isBracket = false) (d : Nat) : op.depth? d = some d := by
  cases op <;> first | rfl | cases h

lemma Op.depth?_add {op : Op} {d e : Nat} (h : op.depth? d = some e) (k : Nat) :
    op.depth? (d + k) = some (e + k) := by
  cases op with
  | loopOpen =>
    simp only [Op.depth?, Option.some.injEq] at h ⊢
    omega
  | loopClose =>
    by_cases hd : d = 0
    · simp [Op.depth?, hd] at h
    · simp only [Op.depth?, hd, if_false, Option.some.injEq] at h
      rw [Op.depth?, if_neg (by omega), Option.some.injEq]
      omega
  | _ => cases h; rfl

lemma depth?_add {d e : Nat} {code : List Op} (h : depth? d code = some e) (k : Nat) :
    depth? (d + k) code = some (e + k) := by
  induction code generalizing d with
  | nil => cases h; rfl
  | cons op code ih =>
    rw [depth?_cons] at h ⊢
    obtain ⟨c, hc, hrest⟩ := Option.bind_eq_some_iff.mp h
    rw [Op.depth?_add hc k, Option.bind_some]
    exact ih hrest

/-- A program leaves no loop open and closes none of those around it. -/
@[simp] lemma depth?_ops (p : Program) (d : Nat) : depth? d p.ops = some d := by
  induction p generalizing d with
  | nil => rfl
  | op o p ih => simp [Op.depth?_plain o.property, ih]
  | loop b p ihb ihp => simp [Op.depth?, depth?_append, ihb, ihp]

/-! ## From lists to programs -/

/-- Code that closes `d` loops and opens none for good is a program, followed by a `]` and code that closes
one loop less unless `d` is zero. -/
lemma exists_program_of_depth (code : List Op) (d : Nat) (h : depth? d code = some 0) :
    match d with
    | 0 => ∃ p : Program, p.ops = code
    | d + 1 => ∃ (p : Program) (rest : List Op), p.ops ++ .loopClose :: rest = code ∧ depth? d rest = some 0 := by
  -- on the length: what follows a loop is shorter than the code, but not its tail
  induction hn : code.length using Nat.strongRecOn generalizing code d with
  | ind n ih =>
    rcases code with _ | ⟨o, code⟩
    · cases h
      exact ⟨.nil, rfl⟩
    rw [List.length_cons] at hn
    rw [depth?_cons] at h
    by_cases hb : o.isBracket = false
    · rw [Op.depth?_plain hb, Option.bind_some] at h
      have := ih code.length (by omega) code d h rfl
      cases d with
      | zero =>
        obtain ⟨p, hp⟩ := this
        exact ⟨.op ⟨o, hb⟩ p, by rw [Program.ops_op, hp]⟩
      | succ d =>
        obtain ⟨p, rest, hp, hrest⟩ := this
        exact ⟨.op ⟨o, hb⟩ p, rest, by rw [Program.ops_op, List.cons_append, hp], hrest⟩
    · cases o with
      | loopOpen =>
        obtain ⟨b, rest, rfl, hrest⟩ := ih code.length (by omega) code (d + 1) h rfl
        simp only [List.length_append, List.length_cons] at hn
        have := ih rest.length (by omega) rest d hrest rfl
        cases d with
        | zero =>
          obtain ⟨p, hp⟩ := this
          exact ⟨.loop b p, by rw [Program.ops_loop, hp]⟩
        | succ d =>
          obtain ⟨p, rest', hp, hrest'⟩ := this
          exact ⟨.loop b p, rest', by simp [← hp], hrest'⟩
      | loopClose =>
        cases d with
        | zero => cases h
        | succ d => exact ⟨.nil, code, rfl, h⟩
      | _ => exact absurd rfl hb

theorem balanced_iff {code : List Op} : Balanced code ↔ ∃ p : Program, p.ops = code := by
  constructor
  · intro h
    exact exists_program_of_depth code 0 h
  · rintro ⟨p, rfl⟩
    exact depth?_ops p 0

namespace Program

lemma ops_ne_loopClose (p : Program) (rest : List Op) : p.ops ≠ .loopClose :: rest := by
  rcases p with _ | ⟨o, p⟩ | ⟨b, p⟩
  · simp
  · rintro h
    have := o.property
    rw [(List.cons.inj h).1] at this
    cases this
  · simp

/-- The `]` that ends a body is the first that the body itself does not need. -/
lemma ops_append_loopClose {p q : Program} {u v : List Op}
    (h : p.ops ++ .loopClose :: u = q.ops ++ .loopClose :: v) : p = q ∧ u = v := by
  induction p generalizing q u v with
  | nil =>
    rcases q with _ | ⟨o, q⟩ | ⟨b, q⟩
    · simpa using h
    · have := o.property
      rw [ops_op, ops_nil, List.nil_append, List.cons_append] at h
      rw [← (List.cons.inj h).1] at this
      cases this
    · simp at h
  | op o p ih =>
    have ho := o.property
    rcases q with _ | ⟨o', q⟩ | ⟨b, q⟩
    · rw [ops_op, ops_nil, List.nil_append, List.cons_append] at h
      rw [(List.cons.inj h).1] at ho
      cases ho
    · simp only [ops_op, List.cons_append, List.cons.injEq] at h
      obtain ⟨rfl, rfl⟩ := ih h.2
      exact ⟨by rw [Subtype.ext h.1], rfl⟩
    · rw [ops_op, ops_loop, List.cons_append, List.cons_append] at h
      rw [(List.cons.inj h).1] at ho
      cases ho
  | loop b p ihb ihp =>
    rcases q with _ | ⟨o, q⟩ | ⟨b', q⟩
    · simp at h
    · have := o.property
      rw [ops_op, ops_loop, List.cons_append, List.cons_append] at h
      rw [← (List.cons.inj h).1] at this
      cases this
    · simp only [ops_loop, List.cons_append, List.cons.injEq, true_and, List.append_assoc] at h
      obtain ⟨rfl, hrest⟩ := ihb h
      obtain ⟨rfl, rfl⟩ := ihp hrest
      exact ⟨rfl, rfl⟩

theorem ops_injective {p q : Program} (h : p.ops = q.ops) : p = q :=
  (ops_append_loopClose (u := []) (v := []) (by rw [h])).1

lemma exists_eq_append {x p : Program} {post : List Op} (h : p.ops = x.ops ++ post) :
    ∃ r, p = x ++ r ∧ r.ops = post := by
  have hpost : depth? 0 post = some 0 := by
    have := depth?_ops p 0
    rwa [h, depth?_append, depth?_ops, Option.bind_some] at this
  obtain ⟨r, rfl⟩ := balanced_iff.mp hpost
  exact ⟨r, ops_injective (by rw [h, ops_append]), rfl⟩

end Program

/-! ## Replacing a part -/

/-- Whether a `]` was the last op, where `z` says so for the time before `code`. -/
def closes (z : Bool) : List Op → Bool
  | [] => z
  | op :: code => closes (op == .loopClose) code

lemma closes_append (z : Bool) (a b : List Op) : closes z (a ++ b) = closes (closes z a) b := by
  induction a generalizing z with
  | nil => rfl
  | cons op a ih => exact ih _

/-- A relation of programs, given for the two cases that a `]` came right before them or not, that may be used
below an op, in the body of a loop, and after a loop. -/
structure Compatible (R : Bool → Program → Program → Prop) : Prop where
  op : ∀ z o {p q}, R false p q → R z (.op o p) (.op o q)
  body : ∀ z {b c} p, R false b c → R z (.loop b p) (.loop c p)
  rest : ∀ z b {p q}, R true p q → R z (.loop b p) (.loop b q)

/-- A balanced part of a program does not reach past the end of a body. -/
lemma not_straddles {b x : Program} {pre c rest : List Op} (hb : b.ops = pre ++ c)
    (hx : x.ops = c ++ .loopClose :: rest) : False := by
  -- the part opens a loop before that `]`, the body closes all of them by its end
  have h0 := depth?_ops x 0
  rw [hx, depth?_append] at h0
  obtain ⟨e, he, hclose⟩ := Option.bind_eq_some_iff.mp h0
  have hpos : e ≠ 0 := by
    rintro rfl
    cases hclose
  have h1 := depth?_ops b 0
  rw [hb, depth?_append] at h1
  obtain ⟨d, -, hd⟩ := Option.bind_eq_some_iff.mp h1
  have := depth?_add he d
  rw [Nat.zero_add, hd] at this
  have := Option.some.inj this
  omega

/-- A balanced part that stands between `[` and the rest of a loop lies in the body or behind the loop. -/
lemma split_loop {b r x : Program} {pre post : List Op}
    (h : b.ops ++ .loopClose :: r.ops = pre ++ x.ops ++ post) :
    (∃ post', b.ops = pre ++ x.ops ++ post' ∧ post = post' ++ .loopClose :: r.ops) ∨
    (∃ pre', pre = b.ops ++ .loopClose :: pre' ∧ r.ops = pre' ++ x.ops ++ post) := by
  rw [List.append_assoc] at h
  rcases List.append_eq_append_iff.mp h with ⟨a, hpre, hrest⟩ | ⟨c, hb, hrest⟩
  · rcases a with _ | ⟨o, a⟩
    · left
      rw [List.append_nil] at hpre
      rcases hx : x.ops with _ | ⟨o, xs⟩
      · rw [hx, List.nil_append, List.nil_append] at hrest
        exact ⟨[], by simp [hpre], by simp [← hrest]⟩
      · rw [hx, List.nil_append, List.cons_append] at hrest
        rw [← (List.cons.inj hrest).1] at hx
        exact absurd hx (x.ops_ne_loopClose xs)
    · right
      rw [List.cons_append] at hrest
      obtain ⟨rfl, hr⟩ := List.cons.inj hrest
      exact ⟨a, hpre, by rw [hr, List.append_assoc]⟩
  · left
    rcases List.append_eq_append_iff.mp hrest with ⟨e, rfl, hpost⟩ | ⟨e, hx, hpost⟩
    · exact ⟨e, by rw [hb, List.append_assoc], hpost⟩
    · rcases e with _ | ⟨o, e⟩
      · rw [List.append_nil] at hx
        rw [List.nil_append] at hpost
        exact ⟨[], by simp [hb, hx], by simp [hpost]⟩
      · rw [List.cons_append] at hpost
        obtain ⟨rfl, -⟩ := List.cons.inj hpost
        exact (not_straddles hb hx).elim

/-- **A balanced part of a program can be replaced where it stands.** -/
theorem Program.exists_replace {R : Bool → Program → Program → Prop} (hR : Compatible R) {x y : Program}
    {pre post : List Op} {z : Bool} (hxy : ∀ r, R (closes z pre) (x ++ r) (y ++ r)) {p : Program}
    (h : p.ops = pre ++ x.ops ++ post) : ∃ q : Program, q.ops = pre ++ y.ops ++ post ∧ R z p q := by
  -- on the length of what stands before the part: a loop is entered with a shorter one on both its sides
  induction hn : pre.length using Nat.strongRecOn generalizing pre post z p with
  | ind n ih =>
    rcases pre with _ | ⟨o, pre⟩
    · obtain ⟨r, rfl, rfl⟩ := exists_eq_append h
      exact ⟨y ++ r, by simp, hxy r⟩
    rw [List.length_cons] at hn
    rcases p with _ | ⟨o', p⟩ | ⟨b, r⟩
    · simp at h
    · simp only [ops_op, List.cons_append, List.cons.injEq] at h
      obtain ⟨rfl, h⟩ := h
      have hflag : closes z (o'.val :: pre) = closes false pre := by
        have : (o'.val == Op.loopClose) = false := by
          have ho := o'.property
          rcases o' with ⟨_ | _ | _ | _ | _ | _ | _ | _ | _, _⟩ <;> first | rfl | cases ho
        rw [closes, this]
      rw [hflag] at hxy
      obtain ⟨q, hq, hpq⟩ := ih pre.length (by omega) hxy h rfl
      exact ⟨.op o' q, by simp [hq], hR.op z o' hpq⟩
    · simp only [ops_loop, List.cons_append, List.cons.injEq] at h
      obtain ⟨rfl, h⟩ := h
      rcases split_loop h with ⟨post', hb, rfl⟩ | ⟨pre', rfl, hr⟩
      · obtain ⟨c, hc, hbc⟩ := ih pre.length (by omega) (z := false) hxy hb rfl
        exact ⟨.loop c r, by simp [hc], hR.body z r hbc⟩
      · simp only [List.length_append, List.length_cons] at hn
        have hflag : closes z (.loopOpen :: (b.ops ++ .loopClose :: pre')) = closes true pre' := by
          rw [closes, closes_append]
          rfl
        rw [hflag] at hxy
        obtain ⟨q, hq, hrq⟩ := ih pre'.length (by omega) hxy hr rfl
        exact ⟨.loop b q, by simp [hq], hR.rest z b hrq⟩

end TapeElf
