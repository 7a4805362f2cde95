import TapeElf.Diagnostic
import TapeElf.Proofs.Json
import TapeElf.Proofs.Positions

/-!
# Errors as lines of JSON

A diagnostic in JSON is one line, whatever stands in its message and its names. A reader of JSON gets from it all that
was known and nothing else (`Diagnostic.Tells`), so the line determines the diagnostic. Of the writer nothing is used
but that it escapes what has to be escaped (`JsonWriter.Escaping`).
-/

namespace TapeElf

/-! ## One line -/

/-- Without characters below U+0020 there are no bytes below that. -/
lemma Bytes.le_of_mem_ofString {cs : List Char} (h : ∀ c ∈ cs, 0x20 ≤ c.toNat) {b : UInt8}
    (hb : b ∈ Bytes.ofString (String.ofList cs)) : 0x20 ≤ b := by
  rw [Bytes.ofString_ofList, List.mem_flatMap] at hb
  obtain ⟨c, hc, hb⟩ := hb
  rw [UInt8.le_iff_toNat_le]
  show 32 ≤ b.toNat
  rcases Location.utf8EncodeChar_cases c with ⟨hascii, henc⟩ | ⟨-, lead, tail, henc, hlead, htail⟩
  · rw [henc, List.mem_singleton] at hb
    rw [hb, Location.toNat_asciiByte hascii]
    exact h c hc
  · rw [henc] at hb
    rcases List.mem_cons.mp hb with rfl | hb
    · omega
    · have := (Location.isContinuation_iff b).mp (htail b hb)
      omega

namespace Json

variable {c d : Char} {text : List Char}

lemma le_of_escaped? (h : escaped? d = some c) : 0x20 ≤ d.toNat := by
  unfold escaped? at h
  split_ifs at h with hself hb hf hn hr ht
  · rcases hself with rfl | rfl | rfl <;> decide
  all_goals
    subst d
    decide

lemma le_of_hexValue? {n : Nat} (h : hexValue? d = some n) : 0x20 ≤ d.toNat := by
  have hle {a : Char} (ha : 0x20 ≤ a.toNat) (had : a ≤ d) : 0x20 ≤ d.toNat := ha.trans had
  unfold hexValue? at h
  split_ifs at h with hdigit hlower hupper
  · exact hle (by decide) hdigit.1
  · exact hle (by decide) hlower.1
  · exact hle (by decide) hupper.1

lemma IsEscape.le_of_mem (h : IsEscape c text) (hd : d ∈ text) : 0x20 ≤ d.toNat := by
  cases h with
  | letter hletter =>
    rcases List.mem_pair.mp hd with rfl | rfl
    · decide
    · exact le_of_escaped? hletter
  | number hnumber =>
    simp only [codeUnit, Option.bind_eq_some_iff, Option.map_eq_some_iff] at hnumber
    obtain ⟨_, h₁, _, h₂, _, h₃, _, h₄, -⟩ := hnumber
    simp only [List.mem_cons, List.not_mem_nil, or_false] at hd
    rcases hd with rfl | rfl | rfl | rfl | rfl | rfl
    · decide
    · decide
    · exact le_of_hexValue? h₁
    · exact le_of_hexValue? h₂
    · exact le_of_hexValue? h₃
    · exact le_of_hexValue? h₄

lemma le_of_mem_repr {n : Nat} {c : Char} (h : c ∈ n.repr.toList) : 0x20 ≤ c.toNat := by
  rw [Nat.repr_eq_ofList_toDigits, String.toList_ofList] at h
  have hdigit := Char.isDigit_iff_toNat.mp (Nat.isDigit_of_mem_toDigits (by decide) (by decide) h)
  have hzero : '0'.toNat = 48 := rfl
  omega

lemma mem_fields {escape : Char → List Char} {ms : List (String × JsonScalar)} (h : c ∈ fields escape ms) :
    c = ',' ∨ ∃ m ∈ ms, c ∈ field escape m := by
  induction ms with
  | nil => cases h
  | cons m ms ih =>
    cases ms with
    | nil => exact .inr ⟨m, List.mem_singleton_self m, by simpa [fields] using h⟩
    | cons m' ms =>
      rw [fields_cons_cons, List.mem_append, List.mem_cons] at h
      rcases h with h | h | h
      · exact .inr ⟨m, List.mem_cons_self, h⟩
      · exact .inl h
      · rcases ih h with hcomma | ⟨n, hn, hc⟩
        · exact .inl hcomma
        · exact .inr ⟨n, List.mem_cons_of_mem m hn, hc⟩

namespace Escapes

variable {escape : Char → List Char} (h : Escapes escape)
include h

lemma le_of_mem (hd : d ∈ escape c) : 0x20 ≤ d.toNat := by
  by_cases hc : MustEscape c
  · exact (h.escaped c hc).le_of_mem hd
  · rw [h.raw c hc, List.mem_singleton] at hd
    subst hd
    exact Nat.le_of_not_lt fun hlow => hc (.inr (.inr hlow))

lemma le_of_mem_jsonQuote {s : String} (hc : c ∈ jsonQuote escape s) : 0x20 ≤ c.toNat := by
  simp only [jsonQuote, List.cons_append, List.mem_cons, List.mem_append, List.mem_flatMap, List.not_mem_nil,
    or_false] at hc
  rcases hc with rfl | ⟨d, -, hd⟩ | rfl
  · decide
  · exact h.le_of_mem hd
  · decide

lemma le_of_mem_write {x : JsonScalar} (hc : c ∈ x.write escape) : 0x20 ≤ c.toNat := by
  cases x with
  | text s => exact h.le_of_mem_jsonQuote hc
  | number n => exact le_of_mem_repr hc

lemma le_of_mem_jsonObject {ms : List (String × JsonScalar)} (hc : c ∈ jsonObject escape ms) : 0x20 ≤ c.toNat := by
  rw [jsonObject_eq, List.mem_cons, List.mem_append, List.mem_singleton] at hc
  rcases hc with rfl | hc | rfl
  · decide
  · rcases mem_fields hc with rfl | ⟨m, -, hc⟩
    · decide
    · rcases List.mem_append.mp hc with hkey | hvalue
      · exact h.le_of_mem_jsonQuote hkey
      · rcases List.mem_cons.mp hvalue with rfl | hvalue
        · decide
        · exact h.le_of_mem_write hvalue
  · decide

end Escapes

end Json

/-! ## What is read -/

namespace Diagnostic

/-- The members of an object tell all that is known of a diagnostic, each under its own key, and nothing else. -/
structure Tells (d : Diagnostic) (members : List (String × Json)) : Prop where
  nodup : (members.map Prod.fst).Nodup
  keys : ∀ key, key ∈ members.map Prod.fst ↔ key = "errorId" ∨ key = "message" ∨ (key = "file" ∧ d.file.isSome) ∨
    ((key = "line" ∨ key = "column") ∧ d.location.isSome) ∨ (key = "instruction" ∧ d.instruction.isSome)
  errorId : members.lookup "errorId" = some (.string d.kind.id)
  message : members.lookup "message" = some (.string d.message)
  file : members.lookup "file" = d.file.map .string
  line : members.lookup "line" = d.location.map fun loc => .number loc.line 0
  column : members.lookup "column" = d.location.map fun loc => .number loc.column 0
  instruction : members.lookup "instruction" = d.instruction.map fun c => .string (String.singleton c)

/-- A member that may be missing. -/
def optional (key : String) (value : Option Json) : List (String × Json) := (value.map fun v => (key, v)).toList

def members (d : Diagnostic) : List (String × Json) :=
  [("errorId", .string d.kind.id)] ++
  optional "file" (d.file.map .string) ++
  optional "line" (d.location.map fun loc => .number loc.line 0) ++
  optional "column" (d.location.map fun loc => .number loc.column 0) ++
  optional "instruction" (d.instruction.map fun c => .string (String.singleton c)) ++
  [("message", .string d.message)]

section

variable (key : String) (value : Option Json)

lemma lookup_optional (k : String) : (optional key value).lookup k = if k = key then value else none := by
  cases value with
  | none => exact (ite_self none).symm
  | some v =>
    by_cases h : k = key
    · simp [optional, h]
    · simp [optional, List.lookup, beq_false_of_ne h, h]

lemma mem_keys_optional (k : String) : k ∈ (optional key value).map Prod.fst ↔ k = key ∧ value.isSome := by
  cases value <;> simp [optional]

lemma keys_optional_sublist : ((optional key value).map Prod.fst).Sublist [key] := by
  cases value <;> simp [optional]

end

lemma ofMembers_optional {α : Type} (key : String) (o : Option α) (f : α → JsonScalar) :
    Json.ofMembers (o.map fun a => (key, f a)).toList = optional key (o.map fun a => Json.ofScalar (f a)) := by
  cases o <;> rfl

lemma ofMembers_jsonMembers (d : Diagnostic) : Json.ofMembers d.jsonMembers = d.members := by
  have happend (ms ms' : List (String × JsonScalar)) :
      Json.ofMembers (ms ++ ms') = Json.ofMembers ms ++ Json.ofMembers ms' := List.map_append
  simp only [jsonMembers, happend, ofMembers_optional]
  rfl

lemma nodup_keys_members (d : Diagnostic) : (d.members.map Prod.fst).Nodup := by
  have hsub : (d.members.map Prod.fst).Sublist
      (["errorId"] ++ ["file"] ++ ["line"] ++ ["column"] ++ ["instruction"] ++ ["message"]) := by
    simp only [members, List.map_append]
    refine ((((List.Sublist.append ?_ ?_).append ?_).append ?_).append ?_).append ?_
    all_goals first | exact keys_optional_sublist _ _ | exact List.Sublist.refl _
  exact List.Nodup.sublist hsub (by decide)

lemma tells_members (d : Diagnostic) : d.Tells d.members where
  nodup := d.nodup_keys_members
  keys key := by
    simp only [members, List.map_append, List.mem_append, mem_keys_optional, Option.isSome_map, List.map_cons,
      List.map_nil, List.mem_singleton]
    tauto
  errorId := by simp [members]
  message := by simp [members, List.lookup_append, List.lookup_cons, lookup_optional]
  file := by simp [members, List.lookup_append, List.lookup_cons, lookup_optional]
  line := by simp [members, List.lookup_append, List.lookup_cons, lookup_optional]
  column := by simp [members, List.lookup_append, List.lookup_cons, lookup_optional]
  instruction := by simp [members, List.lookup_append, List.lookup_cons, lookup_optional]

end Diagnostic

/-! ## What the line determines -/

lemma Kind.mem_all (k : Kind) : k ∈ all := by cases k <;> decide

lemma Kind.id_injective : Function.Injective Kind.id := by
  have hnodup : (all.map Kind.id).Nodup := by decide
  intro a b h
  exact List.inj_on_of_nodup_map hnodup a.mem_all b.mem_all h

namespace Diagnostic

variable {d d' : Diagnostic} {members : List (String × Json)}

lemma eq_of_line_of_column {a b : Option Location}
    (hline : (a.map fun loc => Json.number loc.line 0) = b.map fun loc => .number loc.line 0)
    (hcolumn : (a.map fun loc => Json.number loc.column 0) = b.map fun loc => .number loc.column 0) : a = b := by
  cases a with
  | none => exact (Option.map_eq_none_iff.mp hline.symm).symm
  | some loc =>
    obtain ⟨loc', rfl, hl⟩ := Option.map_eq_some_iff.mp hline.symm
    have hc := Option.some.inj hcolumn
    rw [Json.number.injEq, Int.ofNat_inj] at hl hc
    obtain ⟨line, column⟩ := loc
    obtain ⟨rfl, -⟩ := hl
    obtain ⟨rfl, -⟩ := hc
    rfl

/-- What is told determines the diagnostic. -/
lemma Tells.unique (h : d.Tells members) (h' : d'.Tells members) : d = d' := by
  have hstring : Function.Injective Json.string := fun a b hab => Json.string.inj hab
  have hsingleton : Function.Injective fun c => Json.string (String.singleton c) := by
    intro a b hab
    have := congrArg String.toList (Json.string.inj hab)
    simpa using this
  have hkind : d.kind = d'.kind := by
    have := h.errorId.symm.trans h'.errorId
    exact Kind.id_injective (hstring (Option.some.inj this))
  have hmessage : d.message = d'.message := hstring (Option.some.inj (h.message.symm.trans h'.message))
  have hfile : d.file = d'.file := Option.map_injective hstring (h.file.symm.trans h'.file)
  have hinstruction : d.instruction = d'.instruction :=
    Option.map_injective hsingleton (h.instruction.symm.trans h'.instruction)
  have hlocation : d.location = d'.location :=
    eq_of_line_of_column (h.line.symm.trans h'.line) (h.column.symm.trans h'.column)
  cases d
  cases d'
  simp_all

section

variable {write : JsonWriter} (h : write.Escaping)
include h

lemma exists_json_eq :
    ∃ escape, Json.Escapes escape ∧ ∀ d : Diagnostic, d.json write = jsonObject escape d.jsonMembers := by
  obtain ⟨escape, hescape, hwrite⟩ := h
  refine ⟨escape, hescape, fun d => ?_⟩
  rw [json, hwrite, Option.getD_some]

/-- **A diagnostic is read as an object with its members.** -/
lemma read?_json (d : Diagnostic) (depth : Nat) :
    Json.read? (depth + 1) (d.json write) = some (.object d.members) := by
  obtain ⟨escape, hescape, hjson⟩ := exists_json_eq h
  have hne : d.jsonMembers ≠ [] := List.cons_ne_nil _ _
  rw [hjson, hescape.read?_jsonObject hne, ofMembers_jsonMembers]

end

/-- **Errors in JSON are faithful.** The line holds no byte below 0x20, a reader of JSON gets from it exactly what is
known of the diagnostic, and no other diagnostic is written like it. -/
theorem json_faithful {write : JsonWriter} (h : write.Escaping) (d : Diagnostic) :
    (∀ b ∈ Bytes.ofString (String.ofList (d.json write)), 0x20 ≤ b) ∧
      (∃ members, (∀ depth, Json.read? (depth + 1) (d.json write) = some (.object members)) ∧ d.Tells members) ∧
      ∀ d' : Diagnostic, d'.json write = d.json write → d' = d := by
  refine ⟨fun b hb => ?_, ⟨d.members, d.read?_json h, d.tells_members⟩, ?_⟩
  · obtain ⟨escape, hescape, hjson⟩ := exists_json_eq h
    rw [hjson] at hb
    exact Bytes.le_of_mem_ofString (fun c hc => hescape.le_of_mem_jsonObject hc) hb
  intro d' heq
  have hread := d'.read?_json h 0
  rw [heq, d.read?_json h 0] at hread
  have hmembers : d.members = d'.members := Json.object.inj (Option.some.inj hread)
  have htells := d.tells_members
  rw [hmembers] at htells
  exact d'.tells_members.unique htells

/-- The writer in use, and a diagnostic with all there is to escape: quotes, a backslash, a line break, a control
character, and characters outside ASCII. -/
theorem json_faithful_standard :
    let d : Diagnostic := {
      kind := .openReadFailed, message := "\"a\\b\"\n\x01é", location := some { line := 3, column := 10 }
      instruction := some '\t', file := some "😀.bf" }
    JsonWriter.standard.Escaping ∧ (∀ b ∈ Bytes.ofString (String.ofList d.json), 0x20 ≤ b) ∧
      (∃ members, (∀ depth, Json.read? (depth + 1) d.json = some (.object members)) ∧ d.Tells members) ∧
      ∀ d' : Diagnostic, d'.json = d.json → d' = d := by
  intro d
  exact ⟨JsonWriter.escaping_standard, json_faithful JsonWriter.escaping_standard d⟩

end Diagnostic

end TapeElf
