import TapeElf.Disk

/-!
# Directory trees

A disk that is a value: the files and directories under a working directory, and whatever a path out of it
leads to. Paths are followed name by name; `.` and `..` are followed too, and there are no links. Everything has
one owner, who may enter and change every directory; a file is read and written as its mode lets its owner.

* `Place`: where a path leads, from the working directory, one of those above it, or the root.
* `Tree`: the files and directories at places; a directory that a place starts from is always there.
-/

namespace TapeElf

/-- The name of a file in its directory. -/
abbrev Name := Bytes

/-- Where a place starts from. -/
inductive Base where
  /-- The root directory. -/
  | root
  /-- The working directory, or one that many levels above it. -/
  | above (levels : Nat)
deriving DecidableEq, Repr

/-- A place: names to be followed from a base, the outermost first. -/
structure Place where
  base : Base := .above 0
  names : List Name := []
deriving DecidableEq, Repr

/-- The directory of a place. -/
def Place.parent (p : Place) : Place :=
  match p.names, p.base with
  | [], .root => p
  | [], .above levels => { base := .above (levels + 1) }
  | _ :: _, _ => { p with names := p.names.dropLast }

/-- A place one name further. -/
def Place.child (p : Place) (name : Name) : Place := { p with names := p.names ++ [name] }

/-- What is at a place. -/
inductive Entry where
  | directory
  | file (mode : Nat) (data : Bytes)
deriving DecidableEq, Repr

def ownerMayRead (mode : Nat) : Bool := mode.testBit 8

def ownerMayWrite (mode : Nat) : Bool := mode.testBit 7

/-- Whether what is at a place can be looked into. -/
def Entry.isReadable : Entry → Bool
  | directory => true
  | file mode _ => ownerMayRead mode

structure Tree where
  entries : List (Place × Entry) := []
deriving DecidableEq, Repr

/-! ## Paths -/

/-- The byte between the names of a path. -/
def slash : UInt8 := 47

/-- The name of the directory itself. -/
def dot : Name := [46]

/-- The name of the directory above. -/
def dotDot : Name := [46, 46]

def Path.names (path : Path) : List Name := (path.splitOn slash).filter (· ≠ [])

/-- Where a path starts from. -/
def Path.start (path : Path) : Place := if path.head? = some slash then { base := .root } else {}

/-- Whether a path asks for a directory. -/
def Path.endsInSlash (path : Path) : Bool := path.getLast? == some slash

namespace Tree

/-! ## Looking up -/

def get? (t : Tree) (p : Place) : Option Entry :=
  if p.names = [] then some .directory else (t.entries.find? (·.1 = p)).map (·.2)

/-- Follows one name into a directory. -/
def enter (t : Tree) (p : Place) (name : Name) : Except DiskError Place :=
  if name = dot then .ok p
  else if name = dotDot then .ok p.parent
  else if name.length > 255 then .error .nameTooLong
  else
    match t.get? (p.child name) with
    | none => .error .notFound
    | some .directory => .ok (p.child name)
    | some (.file ..) => .error .notDirectory

/-- Follows names into a directory. -/
def walk (t : Tree) (p : Place) : List Name → Except DiskError Place
  | [] => .ok p
  | name :: names =>
    match t.enter p name with
    | .error e => .error e
    | .ok p => t.walk p names

/-- Follows a path up to its last name: the directory it is in, and the name, unless the path leads to the
directory itself. -/
def approach (t : Tree) (path : Path) : Except DiskError (Place × Option Name) :=
  if path.contains 0 then .error .nulInName
  else if path = [] then .error .notFound
  else if path.length ≥ 4096 then .error .nameTooLong
  else
    let names := Path.names path
    match t.walk (Path.start path) names.dropLast, names.getLast? with
    | .error e, _ => .error e
    | .ok p, none => .ok (p, none)
    | .ok p, some name =>
      if name = dot then .ok (p, none)
      else if name = dotDot then .ok (p.parent, none)
      else .ok (p, some name)

/-- The place of an existing file or directory. -/
def locate (t : Tree) (path : Path) : Except DiskError Place :=
  match t.approach path with
  | .error e => .error e
  | .ok (p, none) => .ok p
  | .ok (p, some name) =>
    if name.length > 255 then .error .nameTooLong
    else
      match t.get? (p.child name) with
      | none => .error .notFound
      | some .directory => .ok (p.child name)
      | some (.file ..) => if Path.endsInSlash path then .error .notDirectory else .ok (p.child name)

/-! ## Changing -/

def put (t : Tree) (p : Place) (e : Entry) : Tree :=
  if t.entries.any (·.1 = p) then { entries := t.entries.map fun old => if old.1 = p then (p, e) else old }
  else { entries := t.entries ++ [(p, e)] }

theorem get?_put_self (t : Tree) (p : Place) (e : Entry) (h : p.names ≠ []) : (t.put p e).get? p = some e := by
  unfold put get?
  rw [if_neg h]
  split
  · next found =>
    obtain ⟨entries⟩ := t
    induction entries with
    | nil => simp at found
    | cons old entries ih =>
      by_cases here : old.1 = p
      · simp [here]
      · simp only [List.any_cons, here, decide_false, Bool.false_or] at found
        simpa [here] using ih found
  · next missing =>
    have none : t.entries.find? (·.1 = p) = none := by
      rw [List.find?_eq_none]
      intro x hx hp
      exact missing (List.any_eq_true.2 ⟨x, hx, hp⟩)
    simp [List.find?_append, none]

theorem find?_replace_ne (entries : List (Place × Entry)) {p q : Place} (e : Entry) (h : p ≠ q) :
    (entries.map fun old => if old.1 = p then (p, e) else old).find? (·.1 = q) = entries.find? (·.1 = q) := by
  induction entries with
  | nil => rfl
  | cons old entries ih =>
    rw [List.map_cons, List.find?_cons, List.find?_cons, ih]
    by_cases here : old.1 = p <;> simp [here, h]

theorem get?_put_ne (t : Tree) {p q : Place} (e : Entry) (h : p ≠ q) : (t.put p e).get? q = t.get? q := by
  unfold put get?
  split
  · rfl
  · split
    · rw [find?_replace_ne t.entries e h]
    · simp [List.find?_append, h]

def erase (t : Tree) (p : Place) : Tree := { entries := t.entries.filter (·.1 ≠ p) }

def openRead (t : Tree) (path : Path) : Except DiskError Unit :=
  match t.locate path with
  | .error e => .error e
  | .ok p => if (t.get? p).all Entry.isReadable then .ok () else .error .accessDenied

def read (t : Tree) (path : Path) : Except DiskError Bytes :=
  match t.locate path with
  | .error e => .error e
  | .ok p =>
    match t.get? p with
    | some (.file _ data) => .ok data
    | _ => .error .isDirectory

/-- Empties a file, or adds a new one that can be executed. -/
def create (t : Tree) (path : Path) : Except DiskError Tree :=
  match t.approach path with
  | .error e => .error e
  | .ok (_, none) => .error .isDirectory
  | .ok (p, some name) =>
    if Path.endsInSlash path then .error .isDirectory
    else if name.length > 255 then .error .nameTooLong
    else
      match t.get? (p.child name) with
      | some .directory => .error .isDirectory
      | some (.file mode _) =>
        if ownerMayWrite mode then .ok (t.put (p.child name) (.file mode [])) else .error .accessDenied
      | none => .ok (t.put (p.child name) (.file 0o755 []))

def write (t : Tree) (path : Path) (data : Bytes) : Except DiskError Tree :=
  match t.locate path with
  | .error e => .error e
  | .ok p =>
    match t.get? p with
    | some (.file mode _) => .ok (t.put p (.file mode data))
    | _ => .error .isDirectory

def remove (t : Tree) (path : Path) : Except DiskError Tree :=
  match t.locate path with
  | .error e => .error e
  | .ok p =>
    match t.get? p with
    | some (.file ..) => .ok (t.erase p)
    | _ => .error .isDirectory

end Tree

/-! ## The tree as a disk -/

/-- An operation that changes the tree if it succeeds. -/
def Tree.attempt (change : Tree → Except DiskError Tree) : StateM Tree (Except DiskError Unit) := fun t =>
  match change t with
  | .ok t => (.ok (), t)
  | .error e => (.error e, t)

instance : Disk (StateM Tree) where
  openRead path := fun t => (t.openRead path, t)
  read path := fun t => (t.read path, t)
  create path := Tree.attempt (·.create path)
  write path data := Tree.attempt (·.write path data)
  remove path := Tree.attempt (·.remove path)

end TapeElf
