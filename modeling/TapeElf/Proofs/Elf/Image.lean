import TapeElf.Elf.Executable
import TapeElf.Proofs.Elf.Reading

/-!
# The image of an executable

`Layout.Sound` is what the checks on the size of the tape give: all addresses fit the class, and the code lies past the
tape. With it every field of the headers is read back as it was meant, and `Executable.IsImage` holds of every file
that is built (`exists_isImage`).
-/

namespace TapeElf

lemma Sink.received_of_write (sink : Sink) {sink' : Sink} {bytes : Bytes} (h : sink.write bytes = (sink', none)) :
    sink'.received = sink.received ++ bytes := by
  have hfits := (sink.write_eq_none_iff bytes).mp (congrArg Prod.snd h)
  have hreceived := sink.received_write bytes
  rw [h] at hreceived
  rw [hreceived]
  cases hroom : sink.room with
  | none => rfl
  | some room => exact congrArg _ (List.take_of_length_le (hfits room hroom))

namespace Elf

/-! ## Layouts -/

lemma codeOffset_eq (c : Class) : c.codeOffset = 0x100 := by
  cases c <;> rfl

lemma maxAddress_add_one (c : Class) : c.maxAddress + 1 = 2 ^ c.addressBits := by
  cases c <;> rfl

structure Layout.Sound (l : Layout) (c : Class) (blocks : UInt64) : Prop where
  tapeSize_eq : l.tapeSize = blocks.toNat * 0x1000
  codeOffset_eq : l.codeOffset = 0x100
  aligned : 0x10000 ∣ l.loadAddress
  above : 0x10000 + l.tapeSize ≤ l.loadAddress
  entry_lt : l.loadAddress + 0x100 < 2 ^ c.addressBits

lemma Layout.sound_of {c : Class} {blocks : UInt64} {l : Layout} (h : Layout.of c blocks = .ok l) :
    l.Sound c blocks := by
  unfold Layout.of at h
  split at h
  · cases h
  next size hsize =>
  have hblocks : size = blocks.toNat * 0x1000 := by
    unfold Elf.tapeSize at hsize
    repeat' split at hsize
    all_goals cases hsize
    rfl
  dsimp only at h
  split at h
  next hentry =>
    cases h
    refine ⟨hblocks, Elf.codeOffset_eq c, ?_, ?_, ?_⟩
    · exact ⟨(tapeAddress + size) / 0x10000 + 1, by dsimp only; omega⟩
    · simp only [tapeAddress]
      omega
    · have hmax := maxAddress_add_one c
      simp only [Layout.entry, Elf.codeOffset_eq] at hentry ⊢
      omega
  · cases h

/-! ## Files -/

namespace Executable

variable {x : Executable} {code file : Bytes}

/-- The file, once the layout is known. -/
def imageAt (x : Executable) (l : Layout) (code : Bytes) : Bytes :=
  (x.header l).encode x.elfClass x.endian ++ (tape l).encode x.elfClass x.endian ++
    (text l (l.codeOffset + code.length)).encode x.elfClass x.endian ++
    List.replicate (l.codeOffset - x.elfClass.headersSize) 0 ++ code

lemma image_eq_ok_iff : x.image code = .ok file ↔
    ∃ l, x.layout = .ok l ∧ x.fitsAddressSpace l (l.codeOffset + code.length) = true ∧ file = x.imageAt l code := by
  unfold image
  constructor
  · intro h
    split at h
    · cases h
    next l hl =>
    dsimp only at h
    split at h
    · next hfits => exact ⟨l, hl, hfits, (Except.ok.inj h).symm⟩
    · cases h
  · rintro ⟨l, hl, hfits, hfile⟩
    simp only [hl, hfits, if_true, hfile]
    rfl

/-- A file that fits has a size that fits the class. -/
lemma size_lt_of_fits {l : Layout} {size : Nat} (h : x.fitsAddressSpace l size = true) :
    size < 2 ^ x.elfClass.addressBits := by
  have hsize : UInt64.size = 2 ^ 64 := rfl
  simp only [fitsAddressSpace, Bool.and_eq_true, decide_eq_true_eq, hsize] at h
  cases hc : x.elfClass with
  | elf32 =>
    have hmax : Class.elf32.maxAddress = 2 ^ 32 - 1 := rfl
    rw [hc, hmax] at h
    simp only [Class.addressBits]
    omega
  | elf64 => exact h.1

lemma fits_mono {l : Layout} {size size' : Nat} (hle : size' ≤ size) (h : x.fitsAddressSpace l size = true) :
    x.fitsAddressSpace l size' = true := by
  simp only [fitsAddressSpace, Bool.and_eq_true, decide_eq_true_eq] at h ⊢
  omega

lemma exists_image {code' : Bytes} (h : x.image code = .ok file) (hle : code'.length ≤ code.length) :
    ∃ file', x.image code' = .ok file' := by
  obtain ⟨l, hlayout, hfits, -⟩ := image_eq_ok_iff.mp h
  exact ⟨x.imageAt l code', image_eq_ok_iff.mpr ⟨l, hlayout, fits_mono (Nat.add_le_add_left hle _) hfits, rfl⟩⟩

/-- A well-formed executable of `code`, which is loaded at `base`. -/
structure IsImage (x : Executable) (code : Bytes) (base : Nat) (file : Bytes) : Prop where
  length : file.length = 0x100 + code.length
  /-- An executable with two segments, one after the other, and no sections. -/
  headers : File.read? file = some {
    header := {
      elfClass := x.elfClass, endian := x.endian, type := 2, machine := x.machine.toNat, version := 1
      entry := base + 0x100, phoff := x.elfClass.headerSize, shoff := 0, flags := x.flags.toNat
      ehsize := x.elfClass.headerSize, phentsize := x.elfClass.segmentSize, phnum := 2
      shentsize := 0, shnum := 0, shstrndx := 0 }
    segments := [
      { type := 1, flags := 6, offset := 0, vaddr := 0x10000, paddr := 0
        filesz := 0, memsz := x.tapeBlocks.toNat * 0x1000, align := 0x1000 },
      { type := 1, flags := 5, offset := 0, vaddr := base, paddr := 0
        filesz := file.length, memsz := file.length, align := 1 }] }
  aligned : 0x10000 ∣ base
  above : 0x10000 + x.tapeBlocks.toNat * 0x1000 ≤ base
  padding : ∀ i, x.elfClass.headerSize + 2 * x.elfClass.segmentSize ≤ i → i < 0x100 → file[i]? = some 0
  code : file.drop 0x100 = code

lemma toNat_address {c : Class} {n : Nat} (h : n < 2 ^ c.addressBits) :
    (UInt64.ofNat n).toNat % 2 ^ c.addressBits = n := by
  have hwidth : 2 ^ c.addressBits ≤ 2 ^ 64 := by cases c <;> decide
  rw [UInt64.toNat_ofNat', Nat.mod_eq_of_lt (h.trans_le hwidth), Nat.mod_eq_of_lt h]

section

variable {l : Layout}

lemma length_headers (x : Executable) (l : Layout) (size : Nat) :
    ((x.header l).encode x.elfClass x.endian ++ (tape l).encode x.elfClass x.endian ++
      (text l size).encode x.elfClass x.endian).length = x.elfClass.headersSize := by
  simp [Class.headersSize, segmentCount]
  omega

lemma headersSize_le (c : Class) : c.headersSize ≤ 0x100 := by
  cases c <;> decide

variable (hl : l.Sound x.elfClass x.tapeBlocks)
include hl

lemma length_imageAt (code : Bytes) : (x.imageAt l code).length = 0x100 + code.length := by
  have := headersSize_le x.elfClass
  rw [imageAt, List.length_append, List.length_append, length_headers, List.length_replicate, hl.codeOffset_eq]
  omega

lemma drop_imageAt (code : Bytes) : (x.imageAt l code).drop 0x100 = code := by
  have := headersSize_le x.elfClass
  refine List.drop_left' ?_
  rw [List.length_append, length_headers, List.length_replicate, hl.codeOffset_eq]
  omega

lemma padding_imageAt (code : Bytes) {i : Nat} (hi : x.elfClass.headersSize ≤ i) (hi' : i < 0x100) :
    (x.imageAt l code)[i]? = some 0 := by
  rw [imageAt, List.append_assoc, List.getElem?_append_right (by rw [length_headers]; exact hi), length_headers,
    List.getElem?_append_left (by rw [List.length_replicate, hl.codeOffset_eq]; omega),
    List.getElem?_replicate_of_lt (by rw [hl.codeOffset_eq]; omega)]

/-- No field of the file header loses bits. -/
lemma written_header : (x.header l).written x.elfClass x.endian = {
    elfClass := x.elfClass, endian := x.endian, type := 2, machine := x.machine.toNat, version := 1
    entry := l.loadAddress + 0x100, phoff := x.elfClass.headerSize, shoff := 0, flags := x.flags.toNat
    ehsize := x.elfClass.headerSize, phentsize := x.elfClass.segmentSize, phnum := 2
    shentsize := 0, shnum := 0, shstrndx := 0 } := by
  have hentry : (UInt64.ofNat l.entry).toNat % 2 ^ x.elfClass.addressBits = l.loadAddress + 0x100 := by
    rw [Layout.entry, hl.codeOffset_eq]
    exact toNat_address hl.entry_lt
  simp only [Header.written, header, Header.executable, hentry]
  cases x.elfClass <;> rfl

/-- Nor one of the tape. -/
lemma written_tape : (tape l).written x.elfClass = {
    type := 1, flags := 6, offset := 0, vaddr := 0x10000, paddr := 0
    filesz := 0, memsz := x.tapeBlocks.toNat * 0x1000, align := 0x1000 } := by
  have hmemsz : (UInt64.ofNat l.tapeSize).toNat % 2 ^ x.elfClass.addressBits = x.tapeBlocks.toNat * 0x1000 := by
    have := hl.above
    have := hl.entry_lt
    rw [toNat_address (by omega), hl.tapeSize_eq]
  simp only [Segment.written, tape, hmemsz]
  cases x.elfClass <;> rfl

/-- Nor one of the code. -/
lemma written_text {size : Nat} (hsize : size < 2 ^ x.elfClass.addressBits) : (text l size).written x.elfClass = {
    type := 1, flags := 5, offset := 0, vaddr := l.loadAddress, paddr := 0
    filesz := size, memsz := size, align := 1 } := by
  have hvaddr : (UInt64.ofNat l.loadAddress).toNat % 2 ^ x.elfClass.addressBits = l.loadAddress := by
    have := hl.entry_lt
    exact toNat_address (by omega)
  simp only [Segment.written, text, hvaddr, toNat_address hsize]
  cases x.elfClass <;> rfl

lemma read?_imageAt (code : Bytes) :
    File.read? (x.imageAt l code) = some {
      header := (x.header l).written x.elfClass x.endian
      segments := [(tape l).written x.elfClass, (text l (l.codeOffset + code.length)).written x.elfClass] } := by
  have hheader : FileHeader.read? (x.imageAt l code) = some ((x.header l).written x.elfClass x.endian) := by
    simp only [imageAt, List.append_assoc]
    exact FileHeader.read?_encode _ _ _ _
  have htape : ProgramHeader.read? x.elfClass x.endian (x.imageAt l code) x.elfClass.headerSize =
      some ((tape l).written x.elfClass) := by
    rw [imageAt, List.append_assoc, List.append_assoc]
    exact ProgramHeader.read?_encode _ _ _ (length_encode_header _ _ _) _
  have htext : ProgramHeader.read? x.elfClass x.endian (x.imageAt l code)
      (x.elfClass.headerSize + x.elfClass.segmentSize) =
        some ((text l (l.codeOffset + code.length)).written x.elfClass) := by
    rw [imageAt, List.append_assoc]
    exact ProgramHeader.read?_encode _ _ _ (by simp) _
  have hrange : List.range 2 = [0, 1] := rfl
  rw [written_header hl] at hheader ⊢
  simp only [File.read?, hheader, Option.bind_eq_bind, Option.bind_some, hrange, List.mapM_cons, List.mapM_nil,
    Nat.zero_mul, Nat.one_mul, Nat.add_zero, htape, htext, Option.pure_def]

end

/-- **Every file that is built is a well-formed executable of its code.** -/
theorem exists_isImage (h : x.image code = .ok file) : ∃ base, x.IsImage code base file := by
  obtain ⟨l, hlayout, hfits, hfile⟩ := image_eq_ok_iff.mp h
  have hl : l.Sound x.elfClass x.tapeBlocks := Layout.sound_of hlayout
  have hlen := length_imageAt hl code
  rw [hfile]
  refine ⟨l.loadAddress, hlen, ?_, hl.aligned, ?_, fun i => ?_, drop_imageAt hl code⟩
  · have hsize := size_lt_of_fits hfits
    rw [read?_imageAt hl code, written_header hl, written_tape hl, written_text hl hsize, hlen, hl.codeOffset_eq]
  · rw [← hl.tapeSize_eq]
    exact hl.above
  · intro hi hi'
    exact padding_imageAt hl code hi hi'

/-! ## Writing -/

lemma flatten_pieces (x : Executable) (l : Layout) (code : Bytes) : (x.pieces l code).flatten = x.imageAt l code := by
  simp only [pieces, imageAt, Header.encode, Segment.encode, List.flatten_append, List.flatten_cons, List.flatten_nil,
    List.append_nil, List.append_assoc]

/-- Writing a file field by field comes to the same as writing its image. -/
lemma write_eq_image (x : Executable) (sink : Sink) (code : Bytes) :
    x.write sink code = match x.image code with
      | .error d => (sink, .error d)
      | .ok file =>
        match sink.write file with
        | (sink, some e) => (sink, .error (Cause.write e.message).diagnostic)
        | (sink, none) =>
          match sink.flush with
          | (sink, some e) => (sink, .error (Cause.write e.message).diagnostic)
          | (sink, none) => (sink, .ok file.length) := by
  cases hlayout : x.layout with
  | error d => simp only [write, image, hlayout]
  | ok l =>
    by_cases hfits : x.fitsAddressSpace l (l.codeOffset + code.length) = true
    · have hl : l.Sound x.elfClass x.tapeBlocks := Layout.sound_of hlayout
      have himage : x.image code = .ok (x.imageAt l code) := image_eq_ok_iff.mpr ⟨l, hlayout, hfits, rfl⟩
      have hlen : (x.imageAt l code).length = l.codeOffset + code.length := by
        rw [length_imageAt hl, hl.codeOffset_eq]
      rcases hwrite : sink.write (x.imageAt l code) with ⟨s, _ | e⟩
      · rcases hflush : s.flush with ⟨s', _ | e⟩ <;>
          simp only [write, hlayout, hfits, if_true, Sink.writeAll_eq, flatten_pieces, himage, hlen, hwrite, hflush]
      · simp only [write, hlayout, hfits, if_true, Sink.writeAll_eq, flatten_pieces, himage, hwrite]
    · simp only [write, image, hlayout, hfits, Bool.false_eq_true, if_false]

lemma image_of_write {sink sink' : Sink} {n : Nat} (h : x.write sink code = (sink', .ok n)) :
    ∃ file, x.image code = .ok file ∧ file.length = n ∧ sink'.received = sink.received ++ file := by
  rw [write_eq_image] at h
  split at h
  · cases h
  next file hfile =>
  split at h
  · cases h
  next sink₁ hwrite =>
  split at h
  · cases h
  next sink₂ hflush =>
  obtain ⟨rfl, hn⟩ := Prod.ext_iff.mp h
  refine ⟨file, hfile, Except.ok.inj hn, ?_⟩
  have hreceived := sink.received_of_write hwrite
  have hkept := sink₁.received_flush
  rw [hflush] at hkept
  exact hkept.trans hreceived

/-- **What is written is a well-formed executable of the code,** of the size that is given back. -/
theorem write_isImage (x : Executable) {code : Bytes} {sink sink' : Sink} {n : Nat}
    (h : x.write sink code = (sink', .ok n)) :
    ∃ file base, sink'.received = sink.received ++ file ∧ file.length = n ∧ x.IsImage code base file := by
  obtain ⟨file, hfile, hn, hreceived⟩ := image_of_write h
  obtain ⟨base, hbase⟩ := exists_isImage hfile
  exact ⟨file, base, hreceived, hn, hbase⟩

/-- Three bytes of code in a big-endian file of 32 bits. -/
theorem write_isImage_three_bytes :
    let x : Executable := { elfClass := .elf32, endian := .big, machine := 20, tapeBlocks := 3 }
    (x.write {} [1, 2, 3]).2 = .ok 259 ∧
      ∃ file base, (x.write {} [1, 2, 3]).1.received = file ∧ file.length = 259 ∧ x.IsImage [1, 2, 3] base file := by
  intro x
  have hok : (x.write {} [1, 2, 3]).2 = .ok 259 := by decide +kernel
  exact ⟨hok, write_isImage x (Prod.ext rfl hok)⟩

end Executable

end Elf

end TapeElf
