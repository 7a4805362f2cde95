import TapeElf.Proofs.Elf.Reading

/-!
# Processors

What the processors of all targets have in common. They fetch the bytes at an address, find the instruction at their
front, pass over it and carry it out. Addresses and registers are words of `bits` bits, and all arithmetic on them
wraps around, that on code addresses too.

* `Core`: a state. Data memory is apart from code, which no instruction changes.
* `Processor`: the instructions and what they do. Where `exec` gives nothing, the processor traps, or does something
  that is not told here.
* `Processor.Leads bytes m m'`: in every code memory that holds `bytes` where `m` stands, `m` becomes `m'`; and
  `Processor.LeadsOn`: it does so in a step or more.
* `Processor.Passes bytes m m'`: it also stands behind the bytes then, so pieces of code can be put one after the other
  (`Passes.append`), and where they lead to is one state only (`Passes.unique`).
* `Processor.Sets bytes m r v`, `Processor.Maps bytes r f`: all that changes is one register.
-/

namespace TapeElf

/-! ## Fields -/

/-- Bits `low` up to `low + width` of a number. -/
def bitField (n low width : Nat) : Nat := n / 2 ^ low % 2 ^ width

/-- The number at the front of some bytes, and what follows it. -/
def Endian.front? (e : Endian) (width : Nat) (bytes : Bytes) : Option (Nat × Bytes) :=
  if width ≤ bytes.length then some (e.value (bytes.take width), bytes.drop width) else none

lemma Endian.front?_bytes (e : Endian) (width n : Nat) (rest : Bytes) :
    e.front? width (e.bytes width n ++ rest) = some (n % 256 ^ width, rest) := by
  have hlen := e.length_bytes width n
  have hle : width ≤ (e.bytes width n ++ rest).length := by
    rw [List.length_append, hlen]
    omega
  rw [front?, if_pos hle, List.take_left' hlen, List.drop_left' hlen, e.value_bytes]

/-! ## States -/

/-- A state of a processor. -/
structure Core (bits : Nat) (Flags : Type) where
  /-- The address of the next instruction. -/
  pc : BitVec bits
  /-- The registers, by number. -/
  regs : Nat → BitVec bits
  /-- The data memory. -/
  memory : BitVec bits → UInt8
  flags : Flags

namespace Core

variable {bits : Nat} {Flags : Type}

def set (m : Core bits Flags) (r : Nat) (v : BitVec bits) : Core bits Flags :=
  { m with regs := Function.update m.regs r v }

def store (m : Core bits Flags) (a : BitVec bits) (b : UInt8) : Core bits Flags :=
  { m with memory := Function.update m.memory a b }

/-- Goes on at another address. -/
def goto (m : Core bits Flags) (a : BitVec bits) : Core bits Flags := { m with pc := a }

end Core

structure Processor (bits : Nat) (Flags Instr : Type) where
  /-- The instruction at the front of some bytes, and what follows it. -/
  decode : Bytes → Option (Instr × Bytes)
  /-- What a register reads as. -/
  value : Core bits Flags → Nat → BitVec bits := Core.regs
  /-- What an instruction at an address does, once the processor has passed over it. -/
  exec : Instr → BitVec bits → Core bits Flags → Option (Core bits Flags)

/-! ## Code in memory -/

section

variable {bits : Nat} {code : BitVec bits → UInt8} {a : BitVec bits}

/-- The bytes from an address on. -/
def fetch (code : BitVec bits → UInt8) (a : BitVec bits) : Nat → Bytes
  | 0 => []
  | n + 1 => code a :: fetch code (a + 1) n

@[simp] lemma length_fetch (code : BitVec bits → UInt8) (a : BitVec bits) (n : Nat) : (fetch code a n).length = n := by
  induction n generalizing a with
  | zero => rfl
  | succ n ih => rw [fetch, List.length_cons, ih]

lemma add_one_add_ofNat (a : BitVec bits) (n : Nat) : a + 1 + BitVec.ofNat bits n = a + BitVec.ofNat bits (n + 1) := by
  rw [BitVec.ofNat_add, BitVec.add_assoc, BitVec.add_comm (1 : BitVec bits)]
  rfl

lemma fetch_add (code : BitVec bits → UInt8) (a : BitVec bits) (n k : Nat) :
    fetch code a (n + k) = fetch code a n ++ fetch code (a + BitVec.ofNat bits n) k := by
  induction n generalizing a with
  | zero =>
    rw [Nat.zero_add, fetch, List.nil_append, BitVec.add_zero]
  | succ n ih => rw [Nat.succ_add, fetch, fetch, ih, List.cons_append, add_one_add_ofNat]

/-- The memory holds some bytes at an address. -/
def Holds (code : BitVec bits → UInt8) (a : BitVec bits) (bytes : Bytes) : Prop := fetch code a bytes.length = bytes

lemma holds_append {x y : Bytes} :
    Holds code a (x ++ y) ↔ Holds code a x ∧ Holds code (a + BitVec.ofNat bits x.length) y := by
  unfold Holds
  rw [List.length_append, fetch_add]
  constructor
  · intro h
    exact List.append_inj h (length_fetch _ _ _)
  · rintro ⟨hx, hy⟩
    rw [hx, hy]

lemma exists_holds (a : BitVec bits) {bytes : Bytes} (h : bytes.length ≤ 2 ^ bits) :
    ∃ code : BitVec bits → UInt8, Holds code a bytes := by
  let code (x : BitVec bits) : UInt8 := bytes.getD (x - a).toNat 0
  have hcode : ∀ n k, k + n = bytes.length → fetch code (a + BitVec.ofNat bits k) n = bytes.drop k := by
    intro n
    induction n with
    | zero =>
      intro k hk
      rw [fetch, List.drop_of_length_le (by omega)]
    | succ n ih =>
      intro k hk
      have hlt : k < bytes.length := by omega
      have hplace : (a + BitVec.ofNat bits k - a).toNat = k := by
        rw [BitVec.add_comm, BitVec.add_sub_cancel, BitVec.toNat_ofNat, Nat.mod_eq_of_lt (by omega)]
      have hnext : a + BitVec.ofNat bits k + 1 = a + BitVec.ofNat bits (k + 1) := by
        rw [BitVec.ofNat_add, BitVec.add_assoc]
        rfl
      rw [fetch, hnext, ih (k + 1) (by omega), List.drop_eq_getElem_cons hlt]
      simp only [code, hplace, List.getD_eq_getElem _ _ hlt]
  refine ⟨code, ?_⟩
  have := hcode bytes.length 0 (Nat.zero_add _)
  rwa [BitVec.add_zero] at this

end

/-! ## Runs -/

section

variable {σ : Type*} {step : σ → Option σ}

/-- Some steps of a machine. Once it has trapped there is no next one. -/
def iterate? (step : σ → Option σ) : Nat → σ → Option σ
  | 0, m => some m
  | n + 1, m => (step m).bind (iterate? step n)

lemma iterate?_add (j k : Nat) (m : σ) : iterate? step (j + k) m = (iterate? step j m).bind (iterate? step k) := by
  induction j generalizing m with
  | zero => rw [Nat.zero_add, iterate?, Option.bind_some]
  | succ j ih =>
    rw [Nat.succ_add, iterate?, iterate?, Option.bind_assoc]
    exact congrArg _ (funext ih)

lemma iterate?_one (m : σ) : iterate? step 1 m = step m := by
  rw [iterate?]
  cases step m <;> rfl

end

namespace Processor

variable {bits : Nat} {Flags Instr : Type} {P : Processor bits Flags Instr} {code : BitVec bits → UInt8}
  {m m₁ m₂ : Core bits Flags} {x y : Bytes}

/-- How many bytes are fetched at a time. No instruction is longer. -/
def window : Nat := 16

def step (P : Processor bits Flags Instr) (code : BitVec bits → UInt8) (m : Core bits Flags) :
    Option (Core bits Flags) :=
  (P.decode (fetch code m.pc window)).bind fun found =>
    P.exec found.1 m.pc (m.goto (m.pc + BitVec.ofNat bits (window - found.2.length)))

def run (P : Processor bits Flags Instr) (code : BitVec bits → UInt8) :
    Nat → Core bits Flags → Option (Core bits Flags) :=
  iterate? (P.step code)

/-- The bytes lead from one state to another, wherever they are. -/
def Leads (P : Processor bits Flags Instr) (bytes : Bytes) (m m' : Core bits Flags) : Prop :=
  ∀ code, Holds code m.pc bytes → ∃ n, P.run code n m = some m'

/-- The bytes lead from one state to another in a step or more, so also from a state back to itself. -/
def LeadsOn (P : Processor bits Flags Instr) (bytes : Bytes) (m m' : Core bits Flags) : Prop :=
  ∀ code, Holds code m.pc bytes → ∃ n, 0 < n ∧ P.run code n m = some m'

lemma LeadsOn.leads (h : P.LeadsOn x m m₁) : P.Leads x m m₁ := by
  intro code hcode
  obtain ⟨n, -, hn⟩ := h code hcode
  exact ⟨n, hn⟩

/-- The bytes lead from one state to another, which stands behind them. -/
def Passes (P : Processor bits Flags Instr) (bytes : Bytes) (m m' : Core bits Flags) : Prop :=
  m'.pc = m.pc + BitVec.ofNat bits bytes.length ∧ P.Leads bytes m m'

/-! ## Instructions -/

/-- The bytes are those of an instruction, whatever follows them. -/
structure Encodes (P : Processor bits Flags Instr) (bytes : Bytes) (i : Instr) : Prop where
  length_le : bytes.length ≤ window
  decode : ∀ rest, P.decode (bytes ++ rest) = some (i, rest)

/-- The bytes are those of some instructions, one after the other. -/
def Lists (P : Processor bits Flags Instr) : List Instr → Bytes → Prop
  | [], bytes => bytes = []
  | i :: instrs, bytes => ∃ rest, P.decode bytes = some (i, rest) ∧ P.Lists instrs rest

lemma lists_flatMap {encode : Instr → Bytes} {instrs : List Instr} (h : ∀ i ∈ instrs, P.Encodes (encode i) i) :
    P.Lists instrs (instrs.flatMap encode) := by
  induction instrs with
  | nil => rfl
  | cons i instrs ih =>
    obtain ⟨hi, hinstrs⟩ := List.forall_mem_cons.mp h
    rw [List.flatMap_cons]
    exact ⟨_, hi.decode _, ih hinstrs⟩

/-- The instruction that the processor stands at is the one it finds. -/
lemma Encodes.decode_fetch {i : Instr} (h : P.Encodes x i) (hcode : Holds code m.pc x) :
    P.decode (fetch code m.pc window) =
      some (i, fetch code (m.pc + BitVec.ofNat bits x.length) (window - x.length)) := by
  rw [← h.decode, ← Nat.add_sub_of_le h.length_le, fetch_add, hcode, Nat.add_sub_cancel_left]

lemma Encodes.step_eq {i : Instr} (h : P.Encodes x i) (hcode : Holds code m.pc x) :
    P.step code m = P.exec i m.pc (m.goto (m.pc + BitVec.ofNat bits x.length)) := by
  have hsize : window - (window - x.length) = x.length := Nat.sub_sub_self h.length_le
  rw [step, h.decode_fetch hcode, Option.bind_some, length_fetch, hsize]

lemma Encodes.leadsOn {i : Instr} (h : P.Encodes x i)
    (hexec : P.exec i m.pc (m.goto (m.pc + BitVec.ofNat bits x.length)) = some m₁) : P.LeadsOn x m m₁ := by
  intro code hcode
  refine ⟨1, Nat.one_pos, ?_⟩
  rw [run, iterate?_one, h.step_eq hcode, hexec]

lemma Encodes.passes {i : Instr} (h : P.Encodes x i)
    (hexec : P.exec i m.pc (m.goto (m.pc + BitVec.ofNat bits x.length)) = some m₁)
    (hpc : m₁.pc = m.pc + BitVec.ofNat bits x.length) : P.Passes x m m₁ :=
  ⟨hpc, (h.leadsOn hexec).leads⟩

/-! ## Pieces of code -/

/-- What bytes lead to does not depend on those behind them. -/
lemma LeadsOn.append_right (h : P.LeadsOn x m m₁) (y : Bytes) : P.LeadsOn (x ++ y) m m₁ :=
  fun code hcode => h code (holds_append.mp hcode).1

/-- Behind a piece of code a run goes on as from there. -/
lemma Passes.run_add (h : P.Passes x m m₁) (hcode : Holds code m.pc (x ++ y)) :
    Holds code m₁.pc y ∧ ∃ j, ∀ k, P.run code (j + k) m = P.run code k m₁ := by
  obtain ⟨hx, hy⟩ := holds_append.mp hcode
  obtain ⟨j, hj⟩ := h.2 code hx
  refine ⟨by rwa [h.1], j, fun k => ?_⟩
  rw [run, iterate?_add, ← run, hj, Option.bind_some]

lemma Passes.append_leads (h : P.Passes x m m₁) (h' : P.Leads y m₁ m₂) : P.Leads (x ++ y) m m₂ := by
  intro code hcode
  obtain ⟨hy, j, hj⟩ := h.run_add hcode
  obtain ⟨k, hk⟩ := h' code hy
  exact ⟨j + k, (hj k).trans hk⟩

lemma Passes.append_leadsOn (h : P.Passes x m m₁) (h' : P.LeadsOn y m₁ m₂) : P.LeadsOn (x ++ y) m m₂ := by
  intro code hcode
  obtain ⟨hy, j, hj⟩ := h.run_add hcode
  obtain ⟨k, hpos, hk⟩ := h' code hy
  exact ⟨j + k, Nat.add_pos_right j hpos, (hj k).trans hk⟩

lemma Passes.nil (m : Core bits Flags) : P.Passes [] m m := by
  refine ⟨?_, fun code _ => ⟨0, rfl⟩⟩
  rw [List.length_nil, BitVec.add_zero]

lemma Passes.append (h : P.Passes x m m₁) (h' : P.Passes y m₁ m₂) : P.Passes (x ++ y) m m₂ := by
  refine ⟨?_, h.append_leads h'.2⟩
  rw [h'.1, h.1, List.length_append, BitVec.ofNat_add, BitVec.add_assoc]

lemma eq_of_run_of_step {n : Nat} (hstep : P.step code m = none) (h : P.run code n m = some m₁) : m₁ = m := by
  cases n with
  | zero => exact (Option.some.inj h).symm
  | succ n =>
    rw [run, iterate?, hstep] at h
    cases h

/-- **Code passes to one state only.** It goes on no further if a trap follows it. -/
theorem Passes.unique {stop : Bytes} {i : Instr} (hstop : P.Encodes stop i) (htrap : ∀ own m, P.exec i own m = none)
    (hfit : (x ++ stop).length ≤ 2 ^ bits) (h₁ : P.Passes x m m₁) (h₂ : P.Passes x m m₂) : m₁ = m₂ := by
  obtain ⟨code, hcode⟩ := exists_holds m.pc hfit
  obtain ⟨hx, hbehind⟩ := holds_append.mp hcode
  have hend : ∀ m', m'.pc = m.pc + BitVec.ofNat bits x.length → P.step code m' = none := by
    intro m' hpc
    rw [← hpc] at hbehind
    rw [hstop.step_eq hbehind, htrap]
  obtain ⟨n₁, hn₁⟩ := h₁.2 code hx
  obtain ⟨n₂, hn₂⟩ := h₂.2 code hx
  rcases Nat.le_total n₁ n₂ with hle | hle
  · rw [← Nat.add_sub_of_le hle, run, iterate?_add, ← run, hn₁, Option.bind_some] at hn₂
    exact (eq_of_run_of_step (hend m₁ h₁.1) hn₂).symm
  · rw [← Nat.add_sub_of_le hle, run, iterate?_add, ← run, hn₂, Option.bind_some] at hn₁
    exact eq_of_run_of_step (hend m₂ h₂.1) hn₁

/-! ## Functions of a register -/

/-- From a state the bytes set one register, and leave the others and memory as they are. -/
def Sets (P : Processor bits Flags Instr) (bytes : Bytes) (m : Core bits Flags) (r : Nat) (v : BitVec bits) : Prop :=
  ∃ m', P.Passes bytes m m' ∧ m'.regs = Function.update m.regs r v ∧ m'.memory = m.memory

/-- The bytes change one register, to a function of what it held, and leave the others and memory as they are. -/
def Maps (P : Processor bits Flags Instr) (bytes : Bytes) (r : Nat) (f : BitVec bits → BitVec bits) : Prop :=
  ∀ m, ∃ m', P.Passes bytes m m' ∧ m'.regs = Function.update m.regs r (f (m.regs r)) ∧ m'.memory = m.memory

variable {r : Nat} {v w : BitVec bits} {f g : BitVec bits → BitVec bits}

lemma Encodes.maps {i : Instr} (h : P.Encodes x i)
    (hexec : ∀ own m, ∃ flags, P.exec i own m = some { m.set r (f (m.regs r)) with flags }) : P.Maps x r f := by
  intro m
  obtain ⟨flags, hflags⟩ := hexec m.pc (m.goto (m.pc + BitVec.ofNat bits x.length))
  exact ⟨_, h.passes hflags rfl, rfl, rfl⟩

lemma maps_nil (r : Nat) : P.Maps [] r id :=
  fun m => ⟨m, .nil m, (Function.update_eq_self r m.regs).symm, rfl⟩

/-- A register is set, and then set again with what it holds. -/
lemma Sets.append (h : P.Sets x m r v) (h' : ∀ m₁, m₁.regs r = v → P.Sets y m₁ r w) : P.Sets (x ++ y) m r w := by
  obtain ⟨m₁, hpass, hregs, hmemory⟩ := h
  obtain ⟨m₂, hpass', hregs', hmemory'⟩ := h' m₁ (by rw [hregs, Function.update_self])
  refine ⟨m₂, hpass.append hpass', ?_, hmemory'.trans hmemory⟩
  rw [hregs', hregs, Function.update_idem]

lemma Maps.append (h : P.Maps x r f) (h' : P.Maps y r g) : P.Maps (x ++ y) r (g ∘ f) := by
  intro m
  refine Sets.append (h m) fun m₁ hm₁ => ?_
  rw [Function.comp_apply, ← hm₁]
  exact h' m₁

end Processor

end TapeElf
