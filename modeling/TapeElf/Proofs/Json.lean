import TapeElf.Proofs.OpText
import TapeElf.Text.Escape

/-!
# Reading JSON

A reader for the whole format (RFC 8259), which knows nothing of how diagnostics are written. A `Reader` takes
something from the front of a text and leaves the rest.

* `value depth`: a value, with at most `depth` arrays and objects inside each other;
* `read? depth`: a text that is a value and nothing else but blanks.

`Escapes escape` is what has to be known of a writer: quotes, backslashes and control characters are escaped, in one of
the ways there are, and all else stands for itself. What is written so is read as it was meant: characters
(`Escapes.char_append`), texts in quotes (`Escapes.reads_jsonQuote`), numbers (`reads_repr`) and objects of them
(`Escapes.read?_jsonObject`). `Reads text v` says that `text` is read as `v` where a member of an object can stand.
-/

namespace TapeElf

/-- A JSON value. A number is an integer times a power of ten; an object keeps its members in their order. -/
inductive Json where
  | null
  | bool (b : Bool)
  | number (mantissa exponent : Int)
  | string (s : String)
  | array (items : List Json)
  | object (members : List (String × Json))

namespace Json

/-- Takes something from the front of a text and gives it with the rest. -/
abbrev Reader (α : Type) := List Char → Option (α × List Char)

/-- What may stand between any two parts of a text. -/
def isBlank (c : Char) : Bool := c = ' ' || c = '\t' || c = '\n' || c = '\r'

def skip (text : List Char) : List Char := text.dropWhile isBlank

/-! ## Strings -/

/-- The value of a hexadecimal digit. -/
def hexValue? (c : Char) : Option Nat :=
  if '0' ≤ c ∧ c ≤ '9' then some (c.toNat - 48)
  else if 'a' ≤ c ∧ c ≤ 'f' then some (c.toNat - 87)
  else if 'A' ≤ c ∧ c ≤ 'F' then some (c.toNat - 55)
  else none

def codeUnit : Reader Nat
  | a :: b :: c :: d :: rest =>
    (hexValue? a).bind fun a => (hexValue? b).bind fun b => (hexValue? c).bind fun c => (hexValue? d).map fun d =>
      (((a * 16 + b) * 16 + c) * 16 + d, rest)
  | _ => none

/-- The second half of a surrogate pair, after the first. -/
def lowSurrogate (high : Nat) : Reader Char
  | '\\' :: 'u' :: text => (codeUnit text).bind fun low =>
    if 0xdc00 ≤ low.1 ∧ low.1 < 0xe000 then
      some (Char.ofNat (0x10000 + (high - 0xd800) * 0x400 + (low.1 - 0xdc00)), low.2)
    else none
  | _ => none

/-- A character given by its number, or two that are a surrogate pair. -/
def numbered (text : List Char) : Option (Char × List Char) :=
  (codeUnit text).bind fun unit =>
    if unit.1 < 0xd800 ∨ 0xdfff < unit.1 then some (Char.ofNat unit.1, unit.2)
    else if unit.1 < 0xdc00 then lowSurrogate unit.1 unit.2
    else none

/-- The character that one stands for behind a backslash. -/
def escaped? (c : Char) : Option Char :=
  if c = '"' ∨ c = '\\' ∨ c = '/' then some c
  else if c = 'b' then some (Char.ofNat 0x08)
  else if c = 'f' then some (Char.ofNat 0x0c)
  else if c = 'n' then some '\n'
  else if c = 'r' then some '\r'
  else if c = 't' then some '\t'
  else none

/-- One character of a string. A quote, a backslash and control characters do not stand for themselves. -/
def char : Reader Char
  | '\\' :: 'u' :: text => numbered text
  | '\\' :: c :: text => (escaped? c).map fun e => (e, text)
  | c :: text => if c = '"' ∨ c = '\\' ∨ c.toNat < 0x20 then none else some (c, text)
  | [] => none

/-- The characters of a string up to the quote that ends it. -/
def chars (text : List Char) : Option (List Char × List Char) :=
  if text.head? = some '"' then some ([], text.tail)
  else (char text).bind fun first =>
    -- every character takes something of the text
    if _h : first.2.length < text.length then (chars first.2).map fun more => (first.1 :: more.1, more.2)
    else none
termination_by text.length

/-! ## Numbers -/

/-- One digit or more. -/
def digits (text : List Char) : Option (List Char × List Char) :=
  if text.takeWhile Char.isDigit = [] then none
  else some (text.takeWhile Char.isDigit, text.dropWhile Char.isDigit)

/-- The digits behind the point, if there is one. -/
def fraction : Reader (List Char)
  | '.' :: text => digits text
  | text => some ([], text)

def signed : Reader Int
  | '-' :: text => (digits text).map fun ds => (-(Nat.ofDigitChars 10 ds.1 0 : Int), ds.2)
  | '+' :: text => (digits text).map fun ds => ((Nat.ofDigitChars 10 ds.1 0 : Int), ds.2)
  | text => (digits text).map fun ds => ((Nat.ofDigitChars 10 ds.1 0 : Int), ds.2)

/-- The exponent, if there is one. -/
def exponent (text : List Char) : Option (Int × List Char) :=
  if text.head? = some 'e' ∨ text.head? = some 'E' then signed text.tail else some (0, text)

/-- The digits before the point. The first one is no zero, unless it is the only one. -/
def whole (text : List Char) : Option (List Char × List Char) :=
  (digits text).bind fun ds => if ds.1.head? = some '0' ∧ ds.1 ≠ ['0'] then none else some ds

/-- A number, given what to multiply it with. -/
def unsignedNumber (sign : Int) (text : List Char) : Option (Json × List Char) :=
  (whole text).bind fun front => (fraction front.2).bind fun frac => (exponent frac.2).map fun e =>
    (.number (sign * Nat.ofDigitChars 10 (front.1 ++ frac.1) 0) (e.1 - frac.1.length), e.2)

def readNumber : Reader Json
  | '-' :: text => unsignedNumber (-1) text
  | text => unsignedNumber 1 text

/-! ## Values -/

/-- A value that is no array and no object. -/
def scalar : Reader Json
  | '"' :: text => (chars text).map fun s => (.string (String.ofList s.1), s.2)
  | 'n' :: 'u' :: 'l' :: 'l' :: text => some (.null, text)
  | 't' :: 'r' :: 'u' :: 'e' :: text => some (.bool true, text)
  | 'f' :: 'a' :: 'l' :: 's' :: 'e' :: text => some (.bool false, text)
  | text => readNumber text

/-- Some items, with commas between them, up to the character that closes them. -/
def items {α : Type} (item : Reader α) (close : Char) (text : List Char) : Option (List α × List Char) :=
  (item (skip text)).bind fun first =>
    if (skip first.2).head? = some close then some ([first.1], (skip first.2).tail)
    -- every item takes something of the text
    else if _h : (skip first.2).head? = some ',' ∧ (skip first.2).tail.length < text.length then
      (items item close (skip first.2).tail).map fun more => (first.1 :: more.1, more.2)
    else none
termination_by text.length
decreasing_by exact _h.2

/-- Items that may be none at all. -/
def readList {α : Type} (item : Reader α) (close : Char) (text : List Char) : Option (List α × List Char) :=
  if (skip text).head? = some close then some ([], (skip text).tail) else items item close text

def member (value : Reader Json) : Reader (String × Json)
  | '"' :: text => (chars text).bind fun key =>
    if (skip key.2).head? = some ':' then
      (value (skip (skip key.2).tail)).map fun v => ((String.ofList key.1, v.1), v.2)
    else none
  | _ => none

/-- A value with at most so many arrays and objects inside each other. -/
def value : Nat → Reader Json
  | depth + 1, '[' :: text => (readList (value depth) ']' text).map fun found => (.array found.1, found.2)
  | depth + 1, '\x7b' :: text =>
    (readList (member (value depth)) '\x7d' text).map fun found => (.object found.1, found.2)
  | _, text => scalar text

/-- A text that is a value and nothing else. -/
def read? (depth : Nat) (text : List Char) : Option Json :=
  (value depth (skip text)).bind fun found => if skip found.2 = [] then some found.1 else none

/-! ## Escapes -/

/-- A character that cannot stand for itself. -/
def MustEscape (c : Char) : Prop := c = '"' ∨ c = '\\' ∨ c.toNat < 0x20

/-- The text stands for a character, by its letter or by its number. -/
inductive IsEscape (c : Char) : List Char → Prop
  | letter {e : Char} (h : escaped? e = some c) : IsEscape c ['\\', e]
  | number {a₁ a₂ a₃ a₄ : Char} (h : codeUnit [a₁, a₂, a₃, a₄] = some (c.toNat, [])) :
      IsEscape c ['\\', 'u', a₁, a₂, a₃, a₄]

/-- Characters that must be escaped are, and all others stand for themselves. -/
structure Escapes (escape : Char → List Char) : Prop where
  escaped : ∀ c, MustEscape c → IsEscape c (escape c)
  raw : ∀ c, ¬ MustEscape c → escape c = [c]

lemma hexValue?_hexDigit {n : Nat} (h : n < 16) : hexValue? (hexDigit n) = some n := by
  revert n
  decide

lemma escapes_jsonChar : Escapes jsonChar where
  escaped c hc := by
    have hnumber (n : Nat) (h : c.toNat = n) : c = Char.ofNat n := by rw [← h, Char.ofNat_toNat]
    unfold jsonChar
    split_ifs with hquote hslash hb hf hn hr ht hlow
    · exact .letter (by rw [hquote]; rfl)
    · exact .letter (by rw [hslash]; rfl)
    · exact .letter (by rw [hnumber _ hb]; rfl)
    · exact .letter (by rw [hnumber _ hf]; rfl)
    · exact .letter (by rw [hn]; rfl)
    · exact .letter (by rw [hr]; rfl)
    · exact .letter (by rw [ht]; rfl)
    · have hzero : hexValue? '0' = some 0 := by decide
      refine .number ?_
      simp only [codeUnit, hzero, hexValue?_hexDigit (show c.toNat / 16 < 16 by omega),
        hexValue?_hexDigit (show c.toNat % 16 < 16 by omega), Option.bind_some, Option.map_some]
      congr 2
      omega
    · exact absurd hc (by simp [MustEscape, hquote, hslash, hlow])
  raw c hc := by
    simp only [MustEscape, not_or] at hc
    obtain ⟨hquote, hslash, hlow⟩ := hc
    have hne (d : Char) (hd : d.toNat < 0x20) : c ≠ d := by
      rintro rfl
      exact hlow hd
    unfold jsonChar
    rw [if_neg hquote, if_neg hslash, if_neg (by omega), if_neg (by omega), if_neg (hne _ (by decide)),
      if_neg (hne _ (by decide)), if_neg (hne _ (by decide)), if_neg hlow]

/-- A letter behind a backslash is none for a number. -/
lemma char_letter {c e : Char} (h : escaped? e = some c) (rest : List Char) :
    char ('\\' :: e :: rest) = some (c, rest) := by
  have hu : e ≠ 'u' := by
    rintro rfl
    cases h
  simp [char, h]

lemma codeUnit_append {a₁ a₂ a₃ a₄ : Char} {n : Nat} (h : codeUnit [a₁, a₂, a₃, a₄] = some (n, []))
    (rest : List Char) : codeUnit (a₁ :: a₂ :: a₃ :: a₄ :: rest) = some (n, rest) := by
  simp only [codeUnit, Option.bind_eq_some_iff, Option.map_eq_some_iff, Prod.mk.injEq] at h ⊢
  obtain ⟨v₁, h₁, v₂, h₂, v₃, h₃, v₄, h₄, hn, -⟩ := h
  exact ⟨v₁, h₁, v₂, h₂, v₃, h₃, v₄, h₄, hn, trivial⟩

/-- No character is half of a surrogate pair. -/
lemma numbered_toNat {c : Char} {text rest : List Char} (h : codeUnit text = some (c.toNat, rest)) :
    numbered text = some (c, rest) := by
  have hvalid : c.toNat < 0xd800 ∨ 0xdfff < c.toNat := by
    rcases c.valid with hlow | ⟨hhigh, -⟩
    · exact .inl hlow
    · exact .inr hhigh
  rw [numbered, h, Option.bind_some, if_pos hvalid, Char.ofNat_toNat]

lemma IsEscape.char_append {c : Char} {text : List Char} (h : IsEscape c text) (rest : List Char) :
    char (text ++ rest) = some (c, rest) := by
  cases h with
  | letter hletter => exact char_letter hletter rest
  | number hnumber => exact numbered_toNat (codeUnit_append hnumber rest)

lemma IsEscape.exists_eq_cons {c : Char} {text : List Char} (h : IsEscape c text) : ∃ more, text = '\\' :: more := by
  cases h with
  | letter | number => exact ⟨_, rfl⟩

namespace Escapes

variable {escape : Char → List Char} (h : Escapes escape)
include h

/-- **A written character is read as itself.** -/
lemma char_append (c : Char) (rest : List Char) : char (escape c ++ rest) = some (c, rest) := by
  by_cases hc : MustEscape c
  · exact (h.escaped c hc).char_append rest
  · have hslash : c ≠ '\\' := fun heq => hc (.inr (.inl heq))
    have hchar : char (c :: rest) = if c = '"' ∨ c = '\\' ∨ c.toNat < 0x20 then none else some (c, rest) := by
      simp [char, hslash]
    rw [h.raw c hc, List.singleton_append, hchar]
    exact if_neg hc

/-- No character is written as nothing, or with a quote in front. -/
lemma exists_eq_cons (c : Char) : ∃ first more, escape c = first :: more ∧ first ≠ '"' := by
  by_cases hc : MustEscape c
  · obtain ⟨more, hmore⟩ := (h.escaped c hc).exists_eq_cons
    exact ⟨_, more, hmore, by decide⟩
  · exact ⟨c, [], h.raw c hc, fun heq => hc (.inl heq)⟩

/-- A written text ends at its own closing quote. -/
lemma chars_flatMap (cs : List Char) (rest : List Char) :
    chars (cs.flatMap escape ++ '"' :: rest) = some (cs, rest) := by
  induction cs with
  | nil =>
    rw [chars]
    rfl
  | cons c cs ih =>
    obtain ⟨first, more, hfirst, hquote⟩ := h.exists_eq_cons c
    have hhead : ¬ (escape c ++ (cs.flatMap escape ++ '"' :: rest)).head? = some '"' := by
      rw [hfirst]
      exact fun heq => hquote (Option.some.inj heq)
    have hshort : (cs.flatMap escape ++ '"' :: rest).length <
        (escape c ++ (cs.flatMap escape ++ '"' :: rest)).length := by
      simp only [hfirst, List.cons_append, List.length_cons, List.length_append]
      omega
    rw [List.flatMap_cons, List.append_assoc, chars, if_neg hhead, h.char_append, Option.bind_some, dif_pos hshort, ih]
    rfl

end Escapes

/-! ## What can be a member -/

def Ends (rest : List Char) : Prop := rest.head? = some ',' ∨ rest.head? = some '\x7d'

/-- A text that is read as a value wherever a member can stand, and does not start with a blank. -/
structure Reads (text : List Char) (v : Json) : Prop where
  skip_eq : ∀ rest, skip (text ++ rest) = text ++ rest
  value_eq : ∀ depth rest, Ends rest → value depth (text ++ rest) = some (v, rest)

variable {text rest : List Char} {c : Char}

lemma skip_cons (h : isBlank c = false) (text : List Char) : skip (c :: text) = c :: text := by
  rw [skip, List.dropWhile_cons_of_neg (by simp [h])]

lemma value_cons (depth : Nat) (harray : c ≠ '[') (hobject : c ≠ '\x7b') (text : List Char) :
    value depth (c :: text) = scalar (c :: text) := by
  cases depth with
  | zero => rfl
  | succ depth => simp [value, harray, hobject]

/-- **A text in quotes is read as itself.** -/
lemma Escapes.reads_jsonQuote {escape : Char → List Char} (h : Escapes escape) (s : String) :
    Reads (jsonQuote escape s) (.string s) where
  skip_eq rest := skip_cons (by decide) _
  value_eq depth rest _ := by
    have hquote : jsonQuote escape s ++ rest = '"' :: (s.toList.flatMap escape ++ '"' :: rest) := by simp [jsonQuote]
    rw [hquote, value_cons depth (by decide) (by decide), scalar, h.chars_flatMap, Option.map_some,
      String.ofList_toList]

/-! ## What decimal digits are read as -/

lemma digits_append {ds : List Char} (hds : ∀ d ∈ ds, d.isDigit = true) (hne : ds ≠ [])
    (hrest : rest.takeWhile Char.isDigit = []) : digits (ds ++ rest) = some (ds, rest) := by
  have htake : (ds ++ rest).takeWhile Char.isDigit = ds := by
    rw [List.takeWhile_append_of_pos hds, hrest, List.append_nil]
  have hdrop : (ds ++ rest).dropWhile Char.isDigit = rest := by
    have hsplit := List.takeWhile_append_dropWhile (p := Char.isDigit) (l := ds ++ rest)
    rw [htake] at hsplit
    exact List.append_cancel_left hsplit
  rw [digits, htake, hdrop, if_neg hne]

/-- No number but zero starts with a zero. -/
lemma toDigits_of_head? (n : Nat) (h : (Nat.toDigits 10 n).head? = some '0') : Nat.toDigits 10 n = ['0'] := by
  induction n using Nat.strong_induction_on with
  | _ n ih =>
    rcases Nat.lt_or_ge n 10 with hn | hn
    · rw [Nat.toDigits_of_lt_base hn] at h ⊢
      rw [List.head?_cons, Option.some_inj] at h
      rw [h]
    · rw [Nat.toDigits_of_base_le (by decide) hn, List.head?_append_of_ne_nil _ Nat.toDigits_ne_nil] at h
      have hzero := congrArg (Nat.ofDigitChars 10 · 0) (ih (n / 10) (by omega) h)
      simp only [Nat.ofDigitChars_ten_toDigits] at hzero
      have : Nat.ofDigitChars 10 ['0'] 0 = 0 := rfl
      omega

lemma Ends.unsignedNumber_eq (h : Ends rest) (n : Nat) :
    unsignedNumber 1 (Nat.toDigits 10 n ++ rest) = some (.number n 0, rest) := by
  obtain ⟨c, more, rfl, hc⟩ : ∃ c more, rest = c :: more ∧ (c = ',' ∨ c = '\x7d') := by
    cases rest with
    | nil => simp [Ends] at h
    | cons c more => exact ⟨c, more, rfl, by simpa [Ends] using h⟩
  have hstop : (c :: more).takeWhile Char.isDigit = [] := by rcases hc with rfl | rfl <;> rfl
  have hdigits : digits (Nat.toDigits 10 n ++ c :: more) = some (Nat.toDigits 10 n, c :: more) :=
    digits_append (fun d => Nat.isDigit_of_mem_toDigits (by decide) (by decide)) Nat.toDigits_ne_nil hstop
  have hwhole : whole (Nat.toDigits 10 n ++ c :: more) = some (Nat.toDigits 10 n, c :: more) := by
    rw [whole, hdigits, Option.bind_some, if_neg fun hzero => hzero.2 (toDigits_of_head? n hzero.1)]
  have hfraction : fraction (c :: more) = some ([], c :: more) := by rcases hc with rfl | rfl <;> rfl
  have hexponent : exponent (c :: more) = some (0, c :: more) := by rcases hc with rfl | rfl <;> rfl
  rw [unsignedNumber, hwhole, Option.bind_some, hfraction, Option.bind_some, hexponent, Option.map_some,
    List.append_nil, Nat.ofDigitChars_ten_toDigits]
  simp

lemma isDigit_cases (h : c.isDigit = true) (text : List Char) : isBlank c = false ∧ c ≠ '[' ∧ c ≠ '\x7b' ∧
    scalar (c :: text) = unsignedNumber 1 (c :: text) := by
  have hne (d : Char) (hd : d.isDigit = false) : c ≠ d := by
    rintro rfl
    rw [h] at hd
    cases hd
  refine ⟨?_, hne _ (by decide), hne _ (by decide), ?_⟩
  · simp [isBlank, hne ' ' (by decide), hne '\t' (by decide), hne '\n' (by decide), hne '\r' (by decide)]
  · simp [scalar, readNumber, hne '"' (by decide), hne 'n' (by decide), hne 't' (by decide), hne 'f' (by decide),
      hne '-' (by decide)]

/-- **A number is read as itself.** -/
lemma reads_repr (n : Nat) : Reads n.repr.toList (.number n 0) := by
  rw [Nat.repr_eq_ofList_toDigits, String.toList_ofList]
  obtain ⟨c, ds, hds⟩ := List.exists_cons_of_ne_nil (Nat.toDigits_ne_nil (n := n) (b := 10))
  have hc : c.isDigit = true := by
    refine Nat.isDigit_of_mem_toDigits (b := 10) (n := n) (by decide) (by decide) ?_
    simp [hds]
  refine ⟨fun rest => ?_, fun depth rest h => ?_⟩
  · obtain ⟨hblank, -⟩ := isDigit_cases hc ds
    rw [hds, List.cons_append, skip_cons hblank]
  · obtain ⟨-, harray, hobject, hscalar⟩ := isDigit_cases hc (ds ++ rest)
    rw [hds, List.cons_append, value_cons depth harray hobject, hscalar, ← List.cons_append, ← hds, h.unsignedNumber_eq]

/-! ## Objects -/

def field (escape : Char → List Char) (m : String × JsonScalar) : List Char :=
  jsonQuote escape m.1 ++ ':' :: m.2.write escape

/-- The text of some members, with commas between them. -/
def fields (escape : Char → List Char) (ms : List (String × JsonScalar)) : List Char :=
  ((ms.map (field escape)).intersperse [',']).flatten

lemma jsonObject_eq (escape : Char → List Char) (ms : List (String × JsonScalar)) :
    jsonObject escape ms = '\x7b' :: (fields escape ms ++ ['\x7d']) := by
  rfl

lemma fields_cons_cons (escape : Char → List Char) (m m' : String × JsonScalar) (ms : List (String × JsonScalar)) :
    fields escape (m :: m' :: ms) = field escape m ++ ',' :: fields escape (m' :: ms) := by
  rfl

def ofScalar : JsonScalar → Json
  | .text s => string s
  | .number n => number n 0

/-- The members of the object that is read. -/
def ofMembers (ms : List (String × JsonScalar)) : List (String × Json) := ms.map fun m => (m.1, ofScalar m.2)

section

variable {α : Type} {item : Reader α} {close : Char} {x : α}

lemma items_last (h : item (skip text) = some (x, close :: rest)) (hclose : isBlank close = false) :
    items item close text = some ([x], rest) := by
  rw [items, h, Option.bind_some, skip_cons hclose, List.head?_cons, if_pos rfl, List.tail_cons]

lemma items_more (h : item (skip text) = some (x, ',' :: rest)) (hclose : ',' ≠ close)
    (hshort : rest.length < text.length) :
    items item close text = (items item close rest).map fun more => (x :: more.1, more.2) := by
  have hskip : skip (',' :: rest) = ',' :: rest := skip_cons (by decide) rest
  have hne : ¬ (',' :: rest).head? = some close := fun heq => hclose (Option.some.inj heq)
  rw [items, h, Option.bind_some, hskip, if_neg hne, dif_pos ⟨rfl, hshort⟩]
  rfl

end

namespace Escapes

variable {escape : Char → List Char} (h : Escapes escape)
include h

lemma reads_scalar (x : JsonScalar) : Reads (x.write escape) (ofScalar x) := by
  cases x with
  | text s => exact h.reads_jsonQuote s
  | number n => exact reads_repr n

lemma member_field (m : String × JsonScalar) (depth : Nat) (hrest : Ends rest) :
    member (value depth) (skip (field escape m ++ rest)) = some ((m.1, ofScalar m.2), rest) := by
  have hreads := h.reads_scalar m.2
  have hfield : field escape m ++ rest =
      '"' :: (m.1.toList.flatMap escape ++ '"' :: ':' :: (m.2.write escape ++ rest)) := by
    simp [field, jsonQuote]
  have hcolon : skip (':' :: (m.2.write escape ++ rest)) = ':' :: (m.2.write escape ++ rest) :=
    skip_cons (by decide) _
  rw [hfield, skip_cons (by decide), member, h.chars_flatMap, Option.bind_some, hcolon, List.head?_cons, if_pos rfl,
    List.tail_cons, hreads.skip_eq, hreads.value_eq depth rest hrest, Option.map_some, String.ofList_toList]

lemma items_fields {ms : List (String × JsonScalar)} (hne : ms ≠ []) (depth : Nat) (rest : List Char) :
    items (member (value depth)) '\x7d' (fields escape ms ++ '\x7d' :: rest) = some (ofMembers ms, rest) := by
  induction ms with
  | nil => exact absurd rfl hne
  | cons m ms ih =>
    cases ms with
    | nil =>
      have hfields : fields escape [m] = field escape m := List.append_nil _
      rw [hfields]
      exact items_last (h.member_field m depth (.inr rfl)) (by decide)
    | cons m' ms =>
      have hshort : (fields escape (m' :: ms) ++ '\x7d' :: rest).length <
          (field escape m ++ ',' :: (fields escape (m' :: ms) ++ '\x7d' :: rest)).length := by
        simp only [List.length_append, List.length_cons]
        omega
      rw [fields_cons_cons, List.append_assoc, List.cons_append,
        items_more (h.member_field m depth (.inl rfl)) (by decide) hshort, ih (List.cons_ne_nil _ _), Option.map_some]
      rfl

/-- **An object is read as the members it was written with.** -/
theorem read?_jsonObject {ms : List (String × JsonScalar)} (hne : ms ≠ []) (depth : Nat) :
    read? (depth + 1) (jsonObject escape ms) = some (object (ofMembers ms)) := by
  have hhead : (skip (fields escape ms ++ ['\x7d'])).head? ≠ some '\x7d' := by
    obtain ⟨m, ms, rfl⟩ := List.exists_cons_of_ne_nil hne
    obtain ⟨more, hmore⟩ : ∃ more, fields escape (m :: ms) ++ ['\x7d'] = '"' :: more := by
      cases ms <;> exact ⟨_, rfl⟩
    rw [hmore, skip_cons (by decide), List.head?_cons]
    decide
  rw [jsonObject_eq, read?, skip_cons (by decide), value, readList, if_neg hhead, h.items_fields hne]
  rfl

end Escapes

end Json

/-! ## Writers -/

/-- The writer puts members on one line, and escapes in texts what has to be. -/
def JsonWriter.Escaping (write : JsonWriter) : Prop :=
  ∃ escape, Json.Escapes escape ∧ ∀ members, write members = some (jsonObject escape members)

lemma JsonWriter.escaping_standard : standard.Escaping := ⟨jsonChar, Json.escapes_jsonChar, fun _ => rfl⟩

end TapeElf
