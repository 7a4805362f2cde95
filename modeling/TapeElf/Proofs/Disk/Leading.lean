import Mathlib
import TapeElf.Disk.Tree

/-!
# Where paths lead

A path leads to a place for a file, whether or not there is one (`Tree.LeadsTo`). Which place that is depends on the
directories only, so it stays the same as long as they do (`SameDirectories.leadsTo`). Every operation on files is said
by what is at this place: `readable_iff`, `LeadsTo.create`, `LeadsTo.write`, `LeadsTo.remove`.
-/

namespace TapeElf.Tree

variable {t t' : Tree} {p q : Place} {path : Path}

/-! ## Places after a change -/

lemma get?_erase_self (t : Tree) (h : p.names ≠ []) : (t.erase p).get? p = none := by
  rw [get?, if_neg h, Option.map_eq_none_iff, List.find?_eq_none]
  intro x hx hp
  exact of_decide_eq_true (List.mem_filter.mp hx).2 (of_decide_eq_true hp)

lemma get?_erase_ne (t : Tree) (h : p ≠ q) : (t.erase p).get? q = t.get? q := by
  unfold erase get?
  split
  · rfl
  · rw [List.find?_filter]
    congr 2
    funext x
    by_cases hx : x.1 = q
    · simp [hx, h.symm]
    · simp [hx]

lemma not_directory_of_file {mode : Nat} {data : Bytes} (h : t.get? p = some (.file mode data)) :
    t.get? p ≠ some .directory := by
  rw [h]
  nofun

/-! ## Directories -/

def SameDirectories (t t' : Tree) : Prop := ∀ p, t.get? p = some .directory ↔ t'.get? p = some .directory

namespace SameDirectories

lemma trans {t'' : Tree} (h : t.SameDirectories t') (h' : t'.SameDirectories t'') : t.SameDirectories t'' :=
  fun p => (h p).trans (h' p)

lemma put (h : t.get? p ≠ some .directory) (hp : p.names ≠ []) (mode : Nat) (data : Bytes) :
    t.SameDirectories (t.put p (.file mode data)) := by
  intro q
  by_cases hq : p = q
  · subst hq
    rw [get?_put_self t p _ hp]
    exact iff_of_false h nofun
  · rw [get?_put_ne t _ hq]

lemma erase (h : t.get? p ≠ some .directory) (hp : p.names ≠ []) : t.SameDirectories (t.erase p) := by
  intro q
  by_cases hq : p = q
  · subst hq
    rw [get?_erase_self t hp]
    exact iff_of_false h nofun
  · rw [get?_erase_ne t hq]

section

variable (h : t.SameDirectories t')
include h

lemma enter {name : Name} (he : t.enter p name = .ok q) : t'.enter p name = .ok q := by
  unfold Tree.enter at he ⊢
  split_ifs at he ⊢ with hdot hup hlong
  · exact he
  · exact he
  cases hget : t.get? (p.child name) with
  | none =>
    rw [hget] at he
    cases he
  | some entry =>
    rw [hget] at he
    cases entry with
    | directory =>
      rw [(h _).mp hget]
      exact he
    | file mode data => cases he

lemma walk {names : List Name} (hw : t.walk p names = .ok q) : t'.walk p names = .ok q := by
  induction names generalizing p with
  | nil => exact hw
  | cons name names ih =>
    rw [Tree.walk] at hw ⊢
    cases he : t.enter p name with
    | error e =>
      rw [he] at hw
      cases hw
    | ok r =>
      rw [he] at hw
      rw [h.enter he]
      exact ih hw

lemma approach {r : Place × Option Name} (ha : t.approach path = .ok r) : t'.approach path = .ok r := by
  unfold Tree.approach at ha ⊢
  split_ifs at ha ⊢ with hnul hempty hlong
  dsimp only at ha ⊢
  cases hw : t.walk (Path.start path) (Path.names path).dropLast with
  | error e =>
    rw [hw] at ha
    cases ha
  | ok d =>
    rw [hw] at ha
    rwa [h.walk hw]

end

end SameDirectories

/-! ## Paths of files -/

/-- The path is that of a file at `p`, whether or not there is one. -/
def LeadsTo (t : Tree) (path : Path) (p : Place) : Prop :=
  Path.endsInSlash path = false ∧ ∃ (d : Place) (name : Name),
    t.approach path = .ok (d, some name) ∧ name.length ≤ 255 ∧ d.child name = p

lemma SameDirectories.leadsTo (h : t.SameDirectories t') (hp : t.LeadsTo path p) : t'.LeadsTo path p := by
  obtain ⟨hslash, d, name, happroach, hlen, hchild⟩ := hp
  exact ⟨hslash, d, name, h.approach happroach, hlen, hchild⟩

namespace LeadsTo

variable {mode : Nat} {data : Bytes} (hp : t.LeadsTo path p)
include hp

lemma names_ne_nil : p.names ≠ [] := by
  obtain ⟨-, d, name, -, -, rfl⟩ := hp
  exact List.append_ne_nil_of_right_ne_nil _ (List.cons_ne_nil name [])

lemma unique (hq : t.LeadsTo path q) : p = q := by
  obtain ⟨-, d, name, happroach, -, rfl⟩ := hp
  obtain ⟨-, d', name', happroach', -, rfl⟩ := hq
  cases happroach.symm.trans happroach'
  rfl

lemma locate (hfile : t.get? p = some (.file mode data)) : t.locate path = .ok p := by
  obtain ⟨hslash, d, name, happroach, hlen, rfl⟩ := hp
  simp only [Tree.locate, happroach, Nat.not_lt.mpr hlen, if_false, hfile, hslash, Bool.false_eq_true]

lemma write (hfile : t.get? p = some (.file mode data)) (new : Bytes) :
    t.write path new = .ok (t.put p (.file mode new)) := by
  simp only [Tree.write, hp.locate hfile, hfile]

lemma remove (hfile : t.get? p = some (.file mode data)) : t.remove path = .ok (t.erase p) := by
  simp only [Tree.remove, hp.locate hfile, hfile]

lemma create (hfile : t.get? p = some (.file mode data)) :
    t.create path = if ownerMayWrite mode then .ok (t.put p (.file mode [])) else .error .accessDenied := by
  obtain ⟨hslash, d, name, happroach, hlen, rfl⟩ := hp
  simp only [Tree.create, happroach, Nat.not_lt.mpr hlen, if_false, hfile, hslash, Bool.false_eq_true]

end LeadsTo

/-- What is created is an empty file, in place of one that may be written or of nothing. -/
lemma exists_leadsTo_of_create (h : t.create path = .ok t') :
    ∃ p mode, t.LeadsTo path p ∧ t' = t.put p (.file mode []) ∧
      (t.get? p = none ∨ ∃ data, t.get? p = some (.file mode data) ∧ ownerMayWrite mode = true) := by
  unfold create at h
  split at h
  · cases h
  · cases h
  next d name happroach =>
  split at h
  · cases h
  next hslash =>
  split at h
  · cases h
  next hlen =>
  have hleads : t.LeadsTo path (d.child name) :=
    ⟨Bool.eq_false_iff.mpr hslash, d, name, happroach, Nat.le_of_not_lt hlen, rfl⟩
  split at h
  · cases h
  · next mode data hfile =>
    split at h
    · next hwrite => exact ⟨_, mode, hleads, (Except.ok.inj h).symm, .inr ⟨data, hfile, hwrite⟩⟩
    · cases h
  · next hnone => exact ⟨_, _, hleads, (Except.ok.inj h).symm, .inl hnone⟩

/-! ## Reading -/

/-- Every place on the way to `p` is a directory, and so is `p`. -/
def Reached (t : Tree) (p : Place) : Prop := ∀ k, t.get? { p with names := p.names.take k } = some .directory

namespace Reached

lemma get? (h : t.Reached p) : t.get? p = some .directory := by
  have := h p.names.length
  rwa [List.take_length] at this

lemma start (t : Tree) (base : Base) : t.Reached { base } := by
  intro k
  rw [Tree.get?, if_pos List.take_nil]

lemma parent (h : t.Reached p) : t.Reached p.parent := by
  obtain ⟨base, names⟩ := p
  unfold Place.parent
  split
  · exact h
  · exact start t _
  · intro k
    have := h (min k (names.length - 1))
    rwa [List.dropLast_eq_take, List.take_take]

lemma child (h : t.Reached p) {name : Name} (hname : t.get? (p.child name) = some .directory) :
    t.Reached (p.child name) := by
  intro k
  by_cases hk : k ≤ p.names.length
  · have := h k
    rwa [Place.child, List.take_append_of_le_length hk]
  · rwa [List.take_of_length_le]
    rw [Place.child, List.length_append, List.length_singleton]
    omega

lemma enter (h : t.Reached p) {name : Name} (he : t.enter p name = .ok q) : t.Reached q := by
  unfold Tree.enter at he
  split at he
  · cases he
    exact h
  split at he
  · cases he
    exact h.parent
  split at he
  · cases he
  split at he
  · cases he
  · next hname =>
    cases he
    exact h.child hname
  · cases he

lemma walk (h : t.Reached p) {names : List Name} (hw : t.walk p names = .ok q) : t.Reached q := by
  induction names generalizing p with
  | nil =>
    cases hw
    exact h
  | cons name names ih =>
    rw [Tree.walk] at hw
    split at hw
    · cases hw
    · next r he => exact ih (h.enter he) hw

end Reached

lemma reached_of_approach {name : Option Name} (h : t.approach path = .ok (p, name)) : t.Reached p := by
  unfold approach at h
  split at h
  · cases h
  split at h
  · cases h
  split at h
  · cases h
  dsimp only at h
  have hstart : t.Reached (Path.start path) := by
    unfold Path.start
    split <;> exact .start t _
  split at h
  · cases h
  · next d hw hlast =>
    cases h
    exact hstart.walk hw
  · next d last hw hlast =>
    split at h
    · cases h
      exact hstart.walk hw
    split at h
    · cases h
      exact (hstart.walk hw).parent
    · cases h
      exact hstart.walk hw

lemma leadsTo_of_locate {mode : Nat} {data : Bytes} (h : t.locate path = .ok p)
    (hfile : t.get? p = some (.file mode data)) : t.LeadsTo path p := by
  unfold locate at h
  split at h
  · cases h
  · next d happroach =>
    cases h
    cases hfile.symm.trans (reached_of_approach happroach).get?
  next d name happroach =>
  split at h
  · cases h
  next hlen =>
  split at h
  · cases h
  · next hdirectory =>
    cases h
    cases hfile.symm.trans hdirectory
  · split at h
    · cases h
    · next hslash =>
      cases h
      exact ⟨Bool.eq_false_iff.mpr hslash, d, name, happroach, Nat.le_of_not_lt hlen, rfl⟩

/-- The file at a path can be opened and has these contents. -/
def Readable (t : Tree) (path : Path) (data : Bytes) : Prop := t.openRead path = .ok () ∧ t.read path = .ok data

lemma readable_iff {data : Bytes} : t.Readable path data ↔
    ∃ p mode, t.LeadsTo path p ∧ t.get? p = some (.file mode data) ∧ ownerMayRead mode = true := by
  constructor
  · rintro ⟨hopen, hread⟩
    unfold openRead at hopen
    unfold read at hread
    split at hread
    · cases hread
    next p hlocate =>
    split at hread
    · next mode data' hfile =>
      cases hread
      rw [hlocate] at hopen
      simp only [hfile, Option.all_some, Entry.isReadable] at hopen
      split at hopen
      · next hmode => exact ⟨p, mode, leadsTo_of_locate hlocate hfile, hfile, hmode⟩
      · cases hopen
    · cases hread
  · rintro ⟨p, mode, hleads, hfile, hmode⟩
    have hlocate := hleads.locate hfile
    refine ⟨?_, ?_⟩
    · simp only [openRead, hlocate, hfile, Option.all_some, Entry.isReadable, hmode, if_true]
    · simp only [read, hlocate, hfile]

end TapeElf.Tree
