import TapeElf.Location
import TapeElf.Proofs.OpText

/-!
# Positions by counting

A position is passed on from byte to byte. Here it is said by counting what stands before it.

* `Location.after loc bytes`: the position after some bytes;
* `Location.ofByte pre b`: the position of a byte `b` behind `pre`: the line is one more than the newlines before it,
  and the column is the number of bytes of its line up to `b` that do not continue a character;
* `Location.ofChar before`: the position of a character: its column is one more than the number of characters before
  it on its line.

Advancing arrives at `ofByte` (`after_concat`), and in the UTF-8 of a text this is `ofChar` (`ofByte_flatMap`).
-/

namespace TapeElf

namespace Location

def after (loc : Location) (bytes : Bytes) : Location := bytes.foldl advance loc

@[simp] lemma after_nil (loc : Location) : loc.after [] = loc := rfl

@[simp] lemma after_cons (loc : Location) (b : UInt8) (bytes : Bytes) :
    loc.after (b :: bytes) = (loc.advance b).after bytes := rfl

@[simp] lemma after_append (loc : Location) (a b : Bytes) : loc.after (a ++ b) = (loc.after a).after b :=
  List.foldl_append

/-- The position of the byte `b` behind `pre`. -/
def ofByte (pre : Bytes) (b : UInt8) : Location where
  line := 1 + pre.count 0x0a
  column := ((pre ++ [b]).rtakeWhile (· != 0x0a)).countP fun b => !isContinuation b

/-- The position of a character behind the characters of `before`. -/
def ofChar (before : List Char) : Location where
  line := 1 + before.count '\n'
  column := (before.rtakeWhile (· != '\n')).length + 1

/-! ## Counting bytes -/

lemma after_start (bytes : Bytes) : start.after bytes =
    { line := 1 + bytes.count 0x0a
      column := (bytes.rtakeWhile (· != 0x0a)).countP fun b => !isContinuation b } := by
  induction bytes using List.reverseRecOn with
  | nil => rfl
  | append_singleton bytes b ih =>
    rw [after_append, ih, after_cons, after_nil, advance, List.count_append]
    by_cases hb : b = 0x0a
    · subst hb
      rw [if_pos rfl, List.rtakeWhile_concat_neg _ _ _ (by decide)]
      simp [Nat.add_assoc]
    · rw [if_neg hb, List.rtakeWhile_concat_pos _ _ _ (by simpa using hb), List.countP_append]
      cases hcont : isContinuation b <;> simp [hb, hcont]

lemma after_concat (pre : Bytes) {b : UInt8} (hb : b ≠ 0x0a) : start.after (pre ++ [b]) = ofByte pre b := by
  rw [after_start, ofByte, List.count_append]
  simp [hb]

/-! ## Counting characters -/

lemma isContinuation_iff (b : UInt8) : isContinuation b = true ↔ 128 ≤ b.toNat ∧ b.toNat < 192 := by
  have key : ∀ n : Fin 256, isContinuation (UInt8.ofNat n.val) = true ↔ 128 ≤ n.val ∧ n.val < 192 := by
    decide +kernel
  simpa using key ⟨b.toNat, b.toNat_lt⟩

lemma isContinuation_eq_false {b : UInt8} (h : b.toNat < 128 ∨ 192 ≤ b.toNat) : isContinuation b = false := by
  rw [Bool.eq_false_iff, ne_eq, isContinuation_iff]
  omega

lemma toNat_asciiByte {c : Char} (h : c.toNat < 128) : (asciiByte c).toNat = c.toNat := by
  rw [asciiByte, UInt8.toNat_ofNat']
  omega

/-- A character is one byte of ASCII, or a byte that starts it and bytes that continue it. -/
lemma utf8EncodeChar_cases (c : Char) :
    (c.toNat < 128 ∧ String.utf8EncodeChar c = [asciiByte c]) ∨
    128 ≤ c.toNat ∧ ∃ lead tail, String.utf8EncodeChar c = lead :: tail ∧ 192 ≤ lead.toNat ∧
      ∀ b ∈ tail, isContinuation b = true := by
  rcases Nat.lt_or_ge c.toNat 128 with hc | hc
  · exact .inl ⟨hc, utf8EncodeChar_ascii hc⟩
  · refine .inr ⟨hc, ?_⟩
    have hcont (n : Nat) : isContinuation (UInt8.ofNat (n % 64 + 128)) = true := by
      rw [isContinuation_iff, UInt8.toNat_ofNat']
      omega
    have hc : ¬ c.val.toNat ≤ 127 := by
      change 128 ≤ c.val.toNat at hc
      omega
    unfold String.utf8EncodeChar
    dsimp only
    rw [if_neg hc]
    split
    · refine ⟨_, _, rfl, by rw [UInt8.toNat_ofNat']; omega, ?_⟩
      exact List.forall_mem_singleton.mpr (hcont _)
    · split
      · refine ⟨_, _, rfl, by rw [UInt8.toNat_ofNat']; omega, ?_⟩
        exact List.forall_mem_cons.mpr ⟨hcont _, List.forall_mem_singleton.mpr (hcont _)⟩
      · refine ⟨_, _, rfl, by rw [UInt8.toNat_ofNat']; omega, ?_⟩
        simp only [List.forall_mem_cons, hcont, true_and]
        exact List.forall_mem_nil _

lemma advance_of_isContinuation (loc : Location) {b : UInt8} (h : isContinuation b = true) : loc.advance b = loc := by
  have hb : b ≠ 0x0a := by
    rintro rfl
    cases h
  rw [advance, if_neg hb, if_pos h]

lemma advance_of_starts (loc : Location) {b : UInt8} (h : isContinuation b = false) (hb : b ≠ 0x0a) :
    loc.advance b = { loc with column := loc.column + 1 } := by
  rw [advance, if_neg hb, h]
  rfl

lemma after_of_isContinuation (loc : Location) {bytes : Bytes} (h : ∀ b ∈ bytes, isContinuation b = true) :
    loc.after bytes = loc := by
  induction bytes with
  | nil => rfl
  | cons b bytes ih =>
    obtain ⟨hb, hbytes⟩ := List.forall_mem_cons.mp h
    rw [after_cons, advance_of_isContinuation loc hb, ih hbytes]

/-- The bytes of a character move the column once. -/
lemma after_utf8EncodeChar (loc : Location) (c : Char) : loc.after (String.utf8EncodeChar c) =
    if c = '\n' then { line := loc.line + 1, column := 0 } else { loc with column := loc.column + 1 } := by
  by_cases hnl : c = '\n'
  · subst hnl
    rfl
  rw [if_neg hnl]
  rcases utf8EncodeChar_cases c with ⟨hc, henc⟩ | ⟨hc, lead, tail, henc, hlead, htail⟩
  · have hb := toNat_asciiByte hc
    rw [henc, after_cons, after_nil]
    refine advance_of_starts loc (isContinuation_eq_false (by omega)) fun h => hnl ?_
    rw [h] at hb
    exact Char.toNat_inj.mp hb.symm
  · rw [henc, after_cons, after_of_isContinuation _ htail]
    refine advance_of_starts loc (isContinuation_eq_false (.inr hlead)) fun h => ?_
    rw [h] at hlead
    exact absurd hlead (by decide)

lemma after_flatMap (cs : List Char) : start.after (cs.flatMap String.utf8EncodeChar) =
    { line := 1 + cs.count '\n', column := (cs.rtakeWhile (· != '\n')).length } := by
  induction cs using List.reverseRecOn with
  | nil => rfl
  | append_singleton cs c ih =>
    rw [List.flatMap_append, after_append, ih, List.flatMap_singleton, after_utf8EncodeChar, List.count_append]
    by_cases hc : c = '\n'
    · subst hc
      rw [if_pos rfl, List.rtakeWhile_concat_neg _ _ _ (by decide)]
      simp [Nat.add_assoc]
    · rw [if_neg hc, List.rtakeWhile_concat_pos _ _ _ (by simpa using hc)]
      simp [hc]

/-- **In the UTF-8 of a text, the column of a byte of ASCII counts characters.** -/
lemma ofByte_flatMap (before : List Char) {b : UInt8} (hb : b.toNat < 128) (hnl : b ≠ 0x0a) :
    ofByte (before.flatMap String.utf8EncodeChar) b = ofChar before := by
  rw [← after_concat _ hnl, after_append, after_flatMap, after_cons, after_nil,
    advance_of_starts _ (isContinuation_eq_false (.inl hb)) hnl, ofChar]

/-- A byte of ASCII in a character is all of it. -/
lemma char_of_mem {c : Char} {pre rest : Bytes} {b : UInt8} (hb : b.toNat < 128)
    (h : String.utf8EncodeChar c = pre ++ b :: rest) : pre = [] ∧ c = Char.ofNat b.toNat := by
  rcases utf8EncodeChar_cases c with ⟨hc, henc⟩ | ⟨hc, lead, tail, henc, hlead, htail⟩
  · rw [henc, eq_comm, List.append_eq_singleton_iff] at h
    rcases h with ⟨rfl, h⟩ | ⟨-, h⟩
    · obtain ⟨rfl, -⟩ := List.cons.inj h
      exact ⟨rfl, by rw [toNat_asciiByte hc, Char.ofNat_toNat]⟩
    · cases h
  · have hmem : b ∈ lead :: tail := by
      rw [← henc, h]
      simp
    rcases List.mem_cons.mp hmem with rfl | hmem
    · omega
    · have := (isContinuation_iff b).mp (htail b hmem)
      omega

lemma exists_char_of_byte {cs : List Char} {pre rest : Bytes} {b : UInt8} (hb : b.toNat < 128)
    (h : cs.flatMap String.utf8EncodeChar = pre ++ b :: rest) :
    ∃ before after, cs = before ++ Char.ofNat b.toNat :: after ∧ before.flatMap String.utf8EncodeChar = pre := by
  induction cs generalizing pre with
  | nil => simp at h
  | cons c cs ih =>
    rw [List.flatMap_cons] at h
    -- the byte is behind the first character, or it is that character
    rcases List.append_eq_append_iff.mp h with ⟨pre', rfl, hrest⟩ | ⟨middle, henc, hrest⟩
    · obtain ⟨before, after, rfl, rfl⟩ := ih hrest
      exact ⟨c :: before, after, rfl, rfl⟩
    · rcases middle with _ | ⟨b', middle⟩
      · have hrest : cs.flatMap String.utf8EncodeChar = [] ++ b :: rest := hrest.symm
        obtain ⟨before, after, rfl, hbefore⟩ := ih hrest
        refine ⟨c :: before, after, rfl, ?_⟩
        rw [List.flatMap_cons, hbefore, henc, List.append_nil, List.append_nil]
      · obtain ⟨rfl, -⟩ := List.cons.inj hrest
        obtain ⟨rfl, hchar⟩ := char_of_mem hb henc
        exact ⟨[], cs, by rw [hchar]; rfl, rfl⟩

end Location

end TapeElf
