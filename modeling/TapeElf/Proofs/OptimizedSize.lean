import TapeElf.Proofs.Acceptance
import TapeElf.Proofs.CodeSize
import TapeElf.Proofs.Elf.Image

/-!
# The optimiser never makes things worse

Every replacement of the optimiser gives a program with code that is no longer, if the target has code for the old one
(`Redex.noWorse`). This goes through loops, because the jumps around a shorter body are shorter. On i386 a long move
could be refused that single steps are not; but so many steps do not fit the address space.

A source that is compiled without optimising is then compiled with it, to code that is no longer
(`compile_optimized_noWorse`).
-/

namespace TapeElf

open Program

/-! ## Lengths of code -/

namespace Backend

variable {b : Backend} {align : Nat}

@[simp] lemma code_append (p q : Program) : b.code (p ++ q) = b.code p ++ b.code q := by
  induction p with
  | nil => rfl
  | op o p ih => simp [code, ih]
  | loop body p _ ih => simp [code, ih]

@[simp] lemma fits_append {p q : Program} : b.Fits (p ++ q) ↔ b.Fits p ∧ b.Fits q := by
  induction p with
  | nil => simp
  | op o p ih => simp [ih, and_assoc]
  | loop body p _ ih => simp [ih, and_assoc]

lemma length_code_replicate (n : Nat) (o : PlainOp) :
    (b.code (ofPlain (List.replicate n o))).length = n * (b.opCode o.val).length := by
  induction n with
  | zero => simp [ofPlain, code]
  | succ n ih =>
    rw [List.replicate_succ, ofPlain, code, List.length_append, ih, Nat.succ_mul, Nat.add_comm]

lemma fits_ofPlain {os : List PlainOp} (h : ∀ o ∈ os, b.Faultless o.val) : b.Fits (ofPlain os) := by
  induction os with
  | nil => exact fits_nil
  | cons o os ih =>
    rw [List.forall_mem_cons] at h
    rw [ofPlain, fits_op]
    exact ⟨h.1, ih h.2⟩

section

variable (law : b.Lawful align)
include law

lemma dvd_jumpSize : align ∣ b.jumpSize := by
  rw [← law.filler_length]
  exact law.dvd_length _

lemma dvd_length_code (p : Program) : align ∣ (b.code p).length := by
  induction p with
  | nil => exact Nat.dvd_zero align
  | op o p ih =>
    rw [code, List.length_append]
    exact Nat.dvd_add (dvd_length_flatMap law.dvd_length _) ih
  | loop body p ihb ih =>
    simp only [code, loopCode, List.length_append]
    exact Nat.dvd_add (Nat.dvd_add (Nat.dvd_add (law.dvd_length _) ihb) (law.dvd_length _)) ih

lemma length_loopCode {body : Bytes} (h : b.Accepts (body.length + b.jumpSize)) :
    (b.loopCode body).length = body.length + 2 * b.jumpSize := by
  have hforth := (law.jumpIfZero (Int64.ofNat (body.length + b.jumpSize))).length_eq h.2
  have hnonneg : 0 ≤ (Int64.ofNat (body.length + b.jumpSize)).toInt := by
    rw [Int64.toInt_ofNat_of_lt h.1]
    omega
  have hback := (law.jumpIfNonzero (-Int64.ofNat (body.length + b.jumpSize))).length_eq (law.jump_back _ hnonneg h.2)
  simp only [loopCode, List.length_append, hforth, hback]
  omega

end

end Backend

/-! ## Programs -/

namespace Arch

variable {arch : Arch}

/-- `q` is no worse than `p`: if the target has code for `p`, which i386 can address, then it has code for `q`, and that
is no longer. -/
def NoWorse (arch : Arch) (p q : Program) : Prop :=
  arch.backend.Fits p → (arch = .i386 → (arch.backend.code p).length < 2 ^ 32) →
    arch.backend.Fits q ∧ (arch.backend.code q).length ≤ (arch.backend.code p).length

namespace NoWorse

variable {p q r : Program}

lemma refl (p : Program) : arch.NoWorse p p := fun h _ => ⟨h, Nat.le_refl _⟩

lemma trans (hpq : arch.NoWorse p q) (hqr : arch.NoWorse q r) : arch.NoWorse p r := by
  intro hp hsmall
  obtain ⟨hq, hle⟩ := hpq hp hsmall
  obtain ⟨hr, hle'⟩ := hqr hq fun h => hle.trans_lt (hsmall h)
  exact ⟨hr, hle'.trans hle⟩

lemma op (o : PlainOp) (h : arch.NoWorse p q) : arch.NoWorse (.op o p) (.op o q) := by
  intro hp hsmall
  simp only [Backend.fits_op, Backend.code, List.length_append] at hp hsmall ⊢
  obtain ⟨hq, hle⟩ := h hp.2 fun h => by have := hsmall h; omega
  exact ⟨⟨hp.1, hq⟩, by omega⟩

lemma append (r : Program) (h : arch.NoWorse p q) : arch.NoWorse (p ++ r) (q ++ r) := by
  intro hp hsmall
  simp only [Backend.fits_append, Backend.code_append, List.length_append] at hp hsmall ⊢
  obtain ⟨hq, hle⟩ := h hp.1 fun h => by have := hsmall h; omega
  exact ⟨⟨hq, hp.2⟩, by omega⟩

/-- The jumps around a body that is no longer are accepted too. -/
lemma body (r : Program) (h : arch.NoWorse p q) : arch.NoWorse (.loop p r) (.loop q r) := by
  intro hp hsmall
  rw [Backend.fits_loop] at hp ⊢
  obtain ⟨hbody, hacc, hr⟩ := hp
  have hlen := Backend.length_loopCode arch.lawful hacc
  simp only [Backend.code, List.length_append] at hsmall ⊢
  obtain ⟨hq, hle⟩ := h hbody fun h => by have := hsmall h; omega
  have hdvd := Nat.dvd_add (Backend.dvd_length_code arch.lawful q) (Backend.dvd_jumpSize arch.lawful)
  have hacc' := arch.accepts_mono hdvd (Nat.add_le_add_right hle _) hacc
  have hlen' := Backend.length_loopCode arch.lawful hacc'
  exact ⟨⟨hq, hacc', hr⟩, by omega⟩

lemma rest (body : Program) (h : arch.NoWorse p q) : arch.NoWorse (.loop body p) (.loop body q) := by
  intro hp hsmall
  simp only [Backend.fits_loop, Backend.code, List.length_append] at hp hsmall ⊢
  obtain ⟨hq, hle⟩ := h hp.2.2 fun h => by have := hsmall h; omega
  exact ⟨⟨hp.1, hp.2.1, hq⟩, by omega⟩

end NoWorse

lemma compatible_noWorse (arch : Arch) : Compatible fun _ => arch.NoWorse :=
  ⟨fun _ o _ _ h => h.op o, fun _ _ _ r h => h.body r, fun _ b _ _ h => h.rest b⟩

end Arch

lemma Arch.faultless_ofCommand (arch : Arch) (c : Command) : arch.backend.Faultless (.ofCommand c) := by
  rw [arch.faultless_iff]
  rintro - n (h | h) <;> cases c <;> cases h <;> decide

/-- A count fits if the run that it stands for does. -/
lemma Arch.faultless_counted (arch : Arch) {c : Command} {f : UInt64 → Op} {n : Nat} (h : c.counted? = some f)
    (hsmall : arch = .i386 → n * (arch.backend.opCode (.ofCommand c)).length < 2 ^ 32) :
    arch.backend.Faultless (f (UInt64.ofNat n)) := by
  rw [arch.faultless_iff]
  rintro rfl m hm
  have hsteps := hsmall rfl
  -- a single step takes two bytes
  have htwo : ((backend .i386).opCode (.ofCommand c)).length = 2 := by
    cases c <;> cases h <;> rcases hm with hm | hm <;> cases hm <;> rfl
  have hcount : m = UInt64.ofNat n := by
    cases c <;> cases h <;> rcases hm with hm | hm <;> cases hm <;> rfl
  rw [htwo] at hsteps
  rw [hcount, UInt64.toNat_ofNat']
  omega

/-- **Every replacement of the optimiser is for the better.** -/
theorem Redex.noWorse {z : Bool} {x y : Program} (arch : Arch) (h : Redex z x y) : arch.NoWorse x y := by
  intro hx hsmall
  cases h with
  | pair => exact ⟨Backend.fits_nil, Nat.zero_le _⟩
  | deadLoop => exact ⟨Backend.fits_nil, Nat.zero_le _⟩
  | @wrap _ c o hc ho n =>
    have hfits : ∀ u ∈ List.replicate (n % 256) o, arch.backend.Faultless u.val := by
      intro u hu
      rw [List.eq_of_mem_replicate hu, ho]
      exact arch.faultless_ofCommand c
    rw [Backend.length_code_replicate, Backend.length_code_replicate]
    exact ⟨Backend.fits_ofPlain hfits, Nat.mul_le_mul_right _ (Nat.mod_le n 256)⟩
  | @count _ c f o u n hf ho pos small hu =>
    rw [Backend.length_code_replicate, ho] at hsmall ⊢
    have hlen := arch.compact.length_opCode_le hf pos small
    refine ⟨?_, ?_⟩
    · simp only [ofPlain, Backend.fits_op, Backend.fits_nil, and_true, hu]
      exact arch.faultless_counted hf hsmall
    · simpa [ofPlain, Backend.code, hu] using hlen
  | @clear _ o u ho hu =>
    have hacc := (Backend.fits_loop.mp hx).2.1
    have hloop := Backend.length_loopCode arch.lawful hacc
    have hclear := arch.compact.clearCell
    refine ⟨?_, ?_⟩
    · simp only [ofPlain, Backend.fits_op, Backend.fits_nil, and_true, hu, arch.faultless_iff]
      rintro - n (h | h) <;> cases h
    · have hcode : (arch.backend.code (ofPlain [u])).length =
          (arch.backend.emit (.clearCell arch.backend.roles.tape)).bytes.length := by
        simp [ofPlain, Backend.code, hu, Backend.opCode, Backend.operations]
      rw [hcode, Backend.code, List.length_append]
      omega

/-- **The program of an optimised source is no worse.** -/
theorem exists_noWorse {source : Bytes} {ops : List Op} (arch : Arch) (h : optimize source = .ok ops) {p : Program}
    (hp : p.ops = sourceOps source) : ∃ q : Program, q.ops = ops ∧ arch.NoWorse p q :=
  (optimize_rewrites h).2.exists_program arch.compatible_noWorse (fun _ p => .refl p) (fun h h' => h.trans h')
    (fun h r => (h.noWorse arch).append r) hp

/-! ## Whole programs -/

namespace Generator

variable {b : Backend} {align : Nat} {g : Generator} {source : Bytes} {optimized : Bool} {q : Program}

lemma snd_emitAll {xs : List (Operation b.Reg)} (h : ∀ x ∈ xs, (b.emit x).fault = none) (g : Generator) :
    (emitAll b g xs).2 = none := by
  obtain ⟨ys, -, -, hres⟩ := emitAll_spec xs g
  cases hf : (emitAll b g xs).2 with
  | none => rfl
  | some f =>
    rw [hf] at hres
    obtain ⟨x, hx, hxf⟩ := hres
    cases (h x hx).symm.trans hxf

lemma snd_compileBody (law : b.Lawful align) (hg : g.loops = []) (hq : IsSubject source optimized q)
    (hfits : b.Fits q) : (compileBody b g source optimized).2 = none := by
  cases optimized with
  | false =>
    change (compileSource b g source).2 = none
    rw [compileSource_eq]
    exact finish_eq_ok law hg (hq.trans (map_fst_locatedOps _ _).symm) hfits
  | true =>
    have hops : optimize source = .ok q.ops := hq
    simp only [compileBody, if_true, hops, compileText_eq b _ (Op.read_bytes q.ops)]
    exact finish_eq_ok law ((loops_note g _).trans hg) (map_fst_unlocated _).symm hfits

theorem generate_of_fits (law : b.Lawful align) (hq : IsSubject source optimized q) (hfits : b.Fits q) :
    ∃ g, generate b source optimized = (g, none) := by
  rcases hprologue : emitAll b {} b.prologue with ⟨g₁, _ | f⟩
  · have hloops : g₁.loops = [] := by rw [eq_of_emitAll_eq_ok hprologue]
    rcases hbody : compileBody b g₁ source optimized with ⟨g₂, _ | f⟩
    · refine ⟨(emitAll b g₂ b.epilogue).1, ?_⟩
      simp only [generate, hprologue, hbody]
      exact Prod.ext rfl (snd_emitAll law.epilogue_fault g₂)
    · cases (congrArg Prod.snd hbody).symm.trans (snd_compileBody law hloops hq hfits)
  · cases (congrArg Prod.snd hprologue).symm.trans (snd_emitAll law.prologue_fault {})

lemma IsSubject.unique {p : Program} (hp : IsSubject source optimized p) (hq : IsSubject source optimized q) :
    p = q := by
  refine ops_injective ?_
  cases optimized with
  | false => exact Eq.trans hp (Eq.symm hq)
  | true => exact Except.ok.inj (Eq.trans (Eq.symm hp) hq)

/-- **Optimising never makes things worse:** what is generated without it is generated with it, and no longer. -/
theorem exists_generate_optimized (arch : Arch) {source : Bytes} (hlen : source.length < 2 ^ 63) {g : Generator}
    (h : generate arch.backend source false = (g, none)) (hsmall : arch = .i386 → g.code.size < 2 ^ 32) :
    ∃ g', generate arch.backend source true = (g', none) ∧ g'.code.size ≤ g.code.size := by
  obtain ⟨p, hp, hfits, hcode⟩ := exists_program_of_generate arch.lawful h
  have hbal : Balanced (sourceOps source) := balanced_iff.mpr ⟨p, hp⟩
  obtain ⟨ops, hops⟩ := optimize_of_balanced hbal hlen
  obtain ⟨q, rfl, hworse⟩ := exists_noWorse arch hops hp
  have hsize : g.code.size = _ := (Code.length_toList g.code).symm.trans (congrArg List.length hcode)
  simp only [List.length_append] at hsize
  obtain ⟨hfits', hle⟩ := hworse hfits fun harch => by have := hsmall harch; omega
  obtain ⟨g', hg'⟩ := generate_of_fits arch.lawful (show IsSubject source true q from hops) hfits'
  refine ⟨g', hg', ?_⟩
  obtain ⟨q', hq', -, hcode'⟩ := exists_program_of_generate arch.lawful hg'
  obtain rfl : q' = q := hq'.unique hops
  have hsize' : g'.code.size = _ := (Code.length_toList g'.code).symm.trans (congrArg List.length hcode')
  simp only [List.length_append] at hsize'
  omega

end Generator

/-! ## Compilations -/

/-- A sink that takes everything. -/
def Sink.NeverFails (s : Sink) : Prop := s.room = none ∧ s.badFlush = 0

namespace Sink.NeverFails

variable {s : Sink} (h : s.NeverFails)
include h

lemma write_eq (bytes : Bytes) : s.write bytes = ({ s with received := s.received ++ bytes }, none) := by
  simp only [write, h.1]

lemma flush_eq : s.flush = (s, none) := by
  obtain ⟨room, badFlush, received⟩ := s
  obtain ⟨rfl, rfl⟩ := h
  rfl

end Sink.NeverFails

lemma Elf.Executable.write_eq {x : Elf.Executable} {sink : Sink} (hsink : sink.NeverFails) (code : Bytes) :
    x.write sink code = match x.image code with
      | .error d => (sink, .error d)
      | .ok file => ({ sink with received := sink.received ++ file }, .ok file.length) := by
  rw [write_eq_image]
  cases x.image code with
  | error d => rfl
  | ok file =>
    have hkept : ({ sink with received := sink.received ++ file } : Sink).NeverFails := hsink
    simp only [hsink.write_eq, hkept.flush_eq]

lemma result_deliver {b : Backend} {options : Options} {size : Nat} {sink : Sink} {g : Generator} {fault : Option Fault}
    (hsink : sink.NeverFails) : (deliver b options size sink g fault).result =
      match (b.executable options.tapeBlocks).image g.code.toList, fault with
      | .error d, _ => .error (.reported d)
      | .ok _, some f => .error f
      | .ok file, none => .ok { codeSize := g.code.size, fileSize := file.length } := by
  simp only [deliver, Elf.Executable.write_eq hsink]
  cases (b.executable options.tapeBlocks).image g.code.toList with
  | error d => rfl
  | ok file =>
    have hkept : ({ sink with received := sink.received ++ file } : Sink).NeverFails := hsink
    simp only [hkept.flush_eq]
    cases fault <;> rfl

/-- What it takes to compile to a sink that takes everything. -/
lemma compile_eq_ok_iff {arch : Arch} {source : Reader} {sink : Sink} {options : Options} {memory : Memory}
    {stats : Stats} (hsink : sink.NeverFails) : (compile arch source sink options memory).result = .ok stats ↔
      source.failure = none ∧ ∃ g file,
        Generator.generate arch.backend source.bytes options.optimize memory = (g, none) ∧
        (arch.backend.executable options.tapeBlocks).image g.code.toList = .ok file ∧
        stats = { codeSize := g.code.size, fileSize := file.length } := by
  have henabled : arch.isEnabled = true := by cases arch <;> rfl
  rw [compile, if_pos henabled, Backend.compile]
  rcases hgen : Generator.generate arch.backend source.bytes options.optimize memory with ⟨g, fault⟩
  constructor
  · intro h
    split at h
    · cases h
    split at h
    · cases h
    next hread =>
    dsimp only at h
    rw [result_deliver hsink] at h
    split at h
    · cases h
    · cases h
    next file himage => exact ⟨hread, g, file, rfl, himage, (Except.ok.inj h).symm⟩
  · rintro ⟨hread, g', file, hg', himage, hstats⟩
    cases hg'
    obtain ⟨l, hlayout, -⟩ := Elf.Executable.image_eq_ok_iff.mp himage
    simp only [hlayout, hread, result_deliver hsink, himage, hstats]

/-- **The optimiser never makes things worse.** What is compiled without optimising is compiled with it, for the same
target, tape and sink, and the code is no longer. -/
theorem compile_optimized_noWorse (arch : Arch) {source : Reader} {sink : Sink} (tapeBlocks : UInt64) {s₀ : Stats}
    (hlen : source.bytes.length < 2 ^ 63) (hsink : sink.NeverFails)
    (h : (compile arch source sink { optimize := false, tapeBlocks }).result = .ok s₀) :
    ∃ s₁, (compile arch source sink { optimize := true, tapeBlocks }).result = .ok s₁ ∧ s₁.codeSize ≤ s₀.codeSize := by
  obtain ⟨hread, g, file, hgen, himage, rfl⟩ := (compile_eq_ok_iff hsink).mp h
  have hsmall : arch = .i386 → g.code.size < 2 ^ 32 := by
    rintro rfl
    obtain ⟨l, -, hfits, -⟩ := Elf.Executable.image_eq_ok_iff.mp himage
    have hsize := Elf.Executable.size_lt_of_fits hfits
    rw [Code.length_toList] at hsize
    change l.codeOffset + g.code.size < 2 ^ 32 at hsize
    omega
  obtain ⟨g', hgen', hle⟩ := Generator.exists_generate_optimized arch hlen hgen hsmall
  have hlength : g'.code.toList.length ≤ g.code.toList.length := by rwa [Code.length_toList, Code.length_toList]
  obtain ⟨file', himage'⟩ := Elf.Executable.exists_image himage hlength
  exact ⟨_, (compile_eq_ok_iff hsink).mpr ⟨hread, g', file', hgen', himage', rfl⟩, hle⟩

/-- The source `>>>[-]` on i386. -/
theorem compile_optimized_noWorse_moves_and_clear :
    let source : Reader := { bytes := [62, 62, 62, 91, 45, 93] }
    source.bytes.length < 2 ^ 63 ∧ Sink.NeverFails {} ∧
      (compile .i386 source {} { optimize := false, tapeBlocks := 8 }).result =
        .ok { codeSize := 40, fileSize := 296 } ∧
      ∃ s₁, (compile .i386 source {} { optimize := true, tapeBlocks := 8 }).result = .ok s₁ ∧ s₁.codeSize ≤ 40 := by
  intro source
  have hok : (compile .i386 source {} { optimize := false, tapeBlocks := 8 }).result =
      .ok { codeSize := 40, fileSize := 296 } := by decide +kernel
  exact ⟨by decide, ⟨rfl, rfl⟩, hok, compile_optimized_noWorse .i386 8 (by decide) ⟨rfl, rfl⟩ hok⟩

end TapeElf
