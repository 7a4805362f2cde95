import Mathlib
import TapeElf.Op.Reader

/-!
# Reading back the text of ops

The text of a list of ops is read back as that list (`read_bytes`), whatever the counts: no symbol is a
hexadecimal digit, so a count ends where the next op starts, and the symbols of counted ops stand for no command.
-/

namespace TapeElf

/-! ## Texts as bytes -/

lemma toList_loop (bytes : ByteArray) (i : Nat) (done : List UInt8) :
    ByteArray.toList.loop bytes i done = done.reverse ++ bytes.data.toList.drop i := by
  fun_induction ByteArray.toList.loop bytes i done with
  | case1 i done hi ih =>
    have hi : i < bytes.data.toList.length := by simpa using hi
    have hget : bytes.get! i = bytes.data.toList[i] := getElem!_pos bytes.data i (by simpa using hi)
    rw [ih, List.drop_eq_getElem_cons hi, hget]
    simp
  | case2 i done hi =>
    have hi : bytes.data.toList.length ≤ i := by simpa using hi
    rw [List.drop_eq_nil_of_le hi, List.append_nil]

lemma ByteArray.toList_eq (bytes : ByteArray) : bytes.toList = bytes.data.toList := by
  rw [ByteArray.toList, toList_loop]
  rfl

def asciiByte (c : Char) : UInt8 := UInt8.ofNat c.toNat

lemma utf8EncodeChar_ascii {c : Char} (h : c.toNat < 128) : String.utf8EncodeChar c = [asciiByte c] := by
  have : c.utf8Size = 1 := by
    rw [Char.utf8Size_eq_one_iff, UInt32.le_iff_toNat_le]
    exact Nat.le_of_lt_succ h
  rw [String.utf8EncodeChar_eq_singleton this]
  rfl

lemma Bytes.ofString_ofList (cs : List Char) :
    Bytes.ofString (String.ofList cs) = cs.flatMap String.utf8EncodeChar := by
  rw [Bytes.ofString, ByteArray.toList_eq]
  exact List.toList_data_toByteArray

lemma Bytes.ofString_ascii {cs : List Char} (h : ∀ c ∈ cs, c.toNat < 128) :
    Bytes.ofString (String.ofList cs) = cs.map asciiByte := by
  rw [Bytes.ofString_ofList, List.map_eq_flatMap]
  exact List.flatMap_congr fun c hc => utf8EncodeChar_ascii (h c hc)

/-! ## Counts -/

lemma hexDigit?_hexDigit {n : Nat} (h : n < 16) : hexDigit? (asciiByte (hexDigit n)) = some n := by
  revert n
  decide

lemma toNat_hexDigit_lt {n : Nat} (h : n < 16) : (hexDigit n).toNat < 128 := by
  revert n
  decide

lemma toNat_hexDigits_lt (n : Nat) : ∀ c ∈ hexDigits n, c.toNat < 128 := by
  fun_induction hexDigits n with
  | case1 n h =>
    intro c hc
    rw [List.mem_singleton.mp hc]
    exact toNat_hexDigit_lt h
  | case2 n _ ih =>
    intro c hc
    rcases List.mem_append.mp hc with hc | hc
    · exact ih c hc
    · rw [List.mem_singleton.mp hc]
      exact toNat_hexDigit_lt (Nat.mod_lt n (by decide))

lemma exists_digits (n : Nat) : ∃ digits : List Nat, digits ≠ [] ∧ digitsValue 16 digits = n ∧
    ((hexDigits n).map asciiByte).map hexDigit? = digits.map some := by
  fun_induction hexDigits n with
  | case1 n h => exact ⟨[n], by simp, by simp [digitsValue, digitsAfter], by simp [hexDigit?_hexDigit h]⟩
  | case2 n h ih =>
    obtain ⟨digits, -, hvalue, hmap⟩ := ih
    refine ⟨digits ++ [n % 16], by simp, ?_, ?_⟩
    · have : digitsValue 16 (digits ++ [n % 16]) = 16 * digitsValue 16 digits + n % 16 := by
        simp [digitsValue, digitsAfter]
      rw [this, hvalue]
      exact Nat.div_add_mod n 16
    · rw [List.map_append, List.map_append, List.map_append, hmap]
      simp [hexDigit?_hexDigit (Nat.mod_lt n (by decide : 0 < 16))]

namespace Op

/-- What may follow a count: nothing, or a byte that is no digit. -/
def EndsCount (rest : Bytes) : Prop := ∀ b ∈ rest.head?, hexDigit? b = none

lemma digitsFrom_append {rest : Bytes} (hrest : EndsCount rest) {digits : List Nat} {text : Bytes}
    (h : text.map hexDigit? = digits.map some) (done : List Nat) :
    digitsFrom done (text ++ rest) = (done.reverse ++ digits, rest) := by
  induction text generalizing digits done with
  | nil =>
    obtain rfl : digits = [] := by simpa using h.symm
    rw [List.nil_append, List.append_nil]
    rcases rest with _ | ⟨b, rest⟩
    · rfl
    · rw [digitsFrom, hrest b rfl]
  | cons b text ih =>
    rcases digits with _ | ⟨d, digits⟩
    · simp at h
    · simp only [List.map_cons, List.cons.injEq] at h
      rw [List.cons_append, digitsFrom, h.1]
      simp [ih h.2]

/-- The count of a whole run of digits: reading gives up where the digits so far come to too much, and this depends only
on the value of the run. -/
lemma readCount_append {rest : Bytes} (hrest : EndsCount rest) (opcode : Char) {digits : List Nat} (hne : digits ≠ [])
    {text : Bytes} (h : text.map hexDigit? = digits.map some) :
    readCount opcode (text ++ rest) =
      if digitsValue 16 digits < 2 ^ 64 then .ok (UInt64.ofNat (digitsValue 16 digits), rest)
      else .error (Cause.countTooLarge.diagnostic.withInstruction opcode) := by
  have hread : digitsFrom [] (text ++ rest) = (digits, rest) := digitsFrom_append hrest h []
  have hempty : digits.isEmpty = false := by simpa using hne
  have hbelow : digitsBelow? 16 UInt64.size digits =
      if digitsValue 16 digits < 2 ^ 64 then some (digitsValue 16 digits) else none := digitsBelow?_eq (by decide) _ _
  simp only [readCount, hread, hempty, Bool.false_eq_true, if_false, hbelow]
  by_cases hsmall : digitsValue 16 digits < 2 ^ 64
  · simp only [if_pos hsmall]
  · simp only [if_neg hsmall]

lemma readCount_hexDigits {rest : Bytes} (hrest : EndsCount rest) (opcode : Char) (n : UInt64) :
    readCount opcode ((hexDigits n.toNat).map asciiByte ++ rest) = .ok (n, rest) := by
  obtain ⟨digits, hne, hvalue, hmap⟩ := exists_digits n.toNat
  rw [readCount_append hrest opcode hne hmap, hvalue, if_pos n.toNat_lt, UInt64.ofNat_toNat]

/-! ## Ops -/

lemma toNat_text_lt (op : Op) : ∀ c ∈ op.text, c.toNat < 128 := by
  have hsymbol : op.symbol.toNat < 128 := by
    cases op <;> simp only [symbol] <;> first | decide | (split <;> decide)
  intro c hc
  unfold text at hc
  split at hc
  · rwa [List.mem_singleton.mp hc]
  · split at hc
    · rwa [List.mem_singleton.mp hc]
    · rcases List.mem_cons.mp hc with rfl | hc
      · exact hsymbol
      · exact toNat_hexDigits_lt _ c hc

/-- The text of an op starts with a byte that is no digit, and the op is read back from it. -/
lemma next_text (op : Op) {rest : Bytes} (hrest : EndsCount rest) :
    ∃ b tail, op.text.map asciiByte ++ rest = b :: tail ∧ hexDigit? b = none ∧ next b tail = .ok (op, rest) := by
  have hplain : ∀ c : Char, hexDigit? (asciiByte c) = none → ofByte? (asciiByte c) = some op → op.text = [c] →
      ∃ b tail, op.text.map asciiByte ++ rest = b :: tail ∧ hexDigit? b = none ∧ next b tail = .ok (op, rest) := by
    intro c hdigit hop htext
    exact ⟨asciiByte c, rest, by rw [htext]; rfl, hdigit, by simp [next, hop]⟩
  have hcounted : ∀ (c : Char) (f : UInt64 → Op) (n : UInt64), hexDigit? (asciiByte c) = none →
      ofByte? (asciiByte c) = none → counted? (asciiByte c) = some f → op = f n → op.text = c :: hexDigits n.toNat →
      ∃ b tail, op.text.map asciiByte ++ rest = b :: tail ∧ hexDigit? b = none ∧ next b tail = .ok (op, rest) := by
    intro c f n hdigit hnone hcount hop htext
    refine ⟨asciiByte c, (hexDigits n.toNat).map asciiByte ++ rest, by rw [htext]; rfl, hdigit, ?_⟩
    simp [next, hnone, hcount, readCount_hexDigits hrest, hop]
  cases op with
  | add n =>
    by_cases hn : n = 1
    · subst hn
      exact hplain '+' rfl rfl rfl
    · exact hcounted '#' add n rfl rfl rfl rfl (by simp [text, count?, symbol, hn])
  | sub n =>
    by_cases hn : n = 1
    · subst hn
      exact hplain '-' rfl rfl rfl
    · exact hcounted '=' sub n rfl rfl rfl rfl (by simp [text, count?, symbol, hn])
  | right n =>
    by_cases hn : n = 1
    · subst hn
      exact hplain '>' rfl rfl rfl
    · exact hcounted '\x7d' right n rfl rfl rfl rfl (by simp [text, count?, symbol, hn])
  | left n =>
    by_cases hn : n = 1
    · subst hn
      exact hplain '<' rfl rfl rfl
    · exact hcounted '\x7b' left n rfl rfl rfl rfl (by simp [text, count?, symbol, hn])
  | output => exact hplain '.' rfl rfl rfl
  | input => exact hplain ',' rfl rfl rfl
  | loopOpen => exact hplain '[' rfl rfl rfl
  | loopClose => exact hplain ']' rfl rfl rfl
  | clear => exact ⟨asciiByte '@', rest, rfl, rfl, rfl⟩

lemma bytes_eq (ops : List Op) : bytes ops = ops.flatMap fun op => op.text.map asciiByte := by
  have hascii : ∀ c ∈ render ops, c.toNat < 128 := by
    intro c hc
    obtain ⟨op, -, hc⟩ := List.mem_flatMap.mp hc
    exact toNat_text_lt op c hc
  rw [bytes, Bytes.ofString_ascii hascii, render, List.map_flatMap]

lemma endsCount_bytes (ops : List Op) : EndsCount (bytes ops) := by
  rcases ops with _ | ⟨op, ops⟩
  · rw [bytes_eq]
    exact fun b hb => absurd hb (by simp)
  · obtain ⟨b, tail, htext, hdigit, -⟩ := next_text op (show EndsCount [] from fun b hb => absurd hb (by simp))
    rw [List.append_nil] at htext
    rw [bytes_eq, List.flatMap_cons, htext]
    intro b' hb'
    obtain rfl : b = b' := by simpa using hb'
    exact hdigit

lemma readFrom_cons_ok {b : UInt8} {rest rest' : Bytes} {op : Op} (h : next b rest = .ok (op, rest')) (done : List Op) :
    readFrom done (b :: rest) = readFrom (op :: done) rest' := by
  rw [readFrom]
  split
  · next heq =>
    rw [h] at heq
    cases heq
    rfl
  · next heq =>
    rw [h] at heq
    cases heq

lemma readFrom_cons_error {b : UInt8} {rest : Bytes} {d : Diagnostic} (h : next b rest = .error d) (done : List Op) :
    readFrom done (b :: rest) = (done.reverse, some d) := by
  rw [readFrom]
  split
  · next heq =>
    rw [h] at heq
    cases heq
  · next heq =>
    rw [h] at heq
    cases heq
    rfl

lemma readFrom_bytes (done ops : List Op) : readFrom done (bytes ops) = (done.reverse ++ ops, none) := by
  induction ops generalizing done with
  | nil =>
    rw [bytes_eq, List.flatMap_nil, readFrom, List.append_nil]
  | cons op ops ih =>
    obtain ⟨b, tail, htext, -, hnext⟩ := next_text op (endsCount_bytes ops)
    have : bytes (op :: ops) = b :: tail := by
      rw [← htext, bytes_eq, bytes_eq, List.flatMap_cons]
    rw [this, readFrom_cons_ok hnext, ih]
    simp

/-- **The text of ops is read back as these ops.** -/
theorem read_bytes (ops : List Op) : read (bytes ops) = (ops, none) :=
  readFrom_bytes [] ops

end Op

end TapeElf
