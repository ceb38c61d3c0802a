import VersionedTree.Tree.Node

/-!
# Versions

A version is an opaque identifier. One run of the compiler targets a list of known versions; their
order is the order of declaration, and no version is listed twice.

## What is proved

* `KnownVersions.get?_position` — the version at the position of a known version is that version.
-/

namespace VersionedTree

/-- The identifier of one variant of the content. -/
structure Version where
  /-- The name itself. -/
  name : String
  deriving DecidableEq

instance : ToString Version := ⟨Version.name⟩

/-- The node that names a version: a string. -/
def Version.toNode (v : Version) : Node := .str v.name

/-- The version that a node names: strings and symbols by their text, integers in decimal. -/
def Version.ofNode? : Node → Option Version
  | .scalar (.str value) => some ⟨value⟩
  | .scalar (.symbol value) => some ⟨value⟩
  | .scalar (.int value) => some ⟨toString value.toInt⟩
  | _ => none

/-- The names of versions, separated by commas. -/
def Version.names (versions : List Version) : String :=
  Text.commaSeparated (versions.map Version.name)

/-- A version that was listed twice. -/
structure DuplicateVersion where
  /-- The version in question. -/
  version : Version
  deriving DecidableEq

/-- The wording of the error. -/
def DuplicateVersion.message (e : DuplicateVersion) : String :=
  "duplicate version: " ++ e.version.name

/-- The versions that a run targets, in the order of declaration. -/
structure KnownVersions where
  /-- The versions, first declared first. -/
  toList : List Version
  /-- No version is listed twice. -/
  nodup : toList.Nodup

namespace KnownVersions

/-- Two lists of known versions with the same versions in the same order are the same. -/
@[ext]
theorem ext {k l : KnownVersions} (h : k.toList = l.toList) : k = l := by
  obtain ⟨vk, hk⟩ := k
  obtain ⟨vl, hl⟩ := l
  cases h
  rfl

/-- No versions. -/
def empty : KnownVersions := ⟨[], by simp⟩

instance : Inhabited KnownVersions := ⟨empty⟩

/-- The first version of a list that already occurs before it, where `seen` occurs before the whole
list. -/
def firstRepeated? (seen : List Version) : List Version → Option Version
  | [] => none
  | v :: rest => if v ∈ seen then some v else firstRepeated? (v :: seen) rest

/-- Without a repetition, the list is duplicate-free and disjoint from what was seen. -/
theorem nodup_of_firstRepeated? {seen versions : List Version}
    (h : firstRepeated? seen versions = none) :
    versions.Nodup ∧ ∀ v ∈ versions, v ∉ seen := by
  induction versions generalizing seen with
  | nil => simp
  | cons v rest ih =>
    rw [firstRepeated?] at h
    split at h
    · cases h
    · rename_i hv
      obtain ⟨hnodup, hseen⟩ := ih h
      refine ⟨List.nodup_cons.2 ⟨?_, hnodup⟩, ?_⟩
      · intro hmem
        exact hseen v hmem (List.mem_cons_self ..)
      · intro w hw
        rcases List.mem_cons.1 hw with rfl | hw
        · exact hv
        · exact fun hmem => hseen w hw (List.mem_cons_of_mem _ hmem)

/-- Take the versions of a list; the first repetition is an error. -/
def ofList (versions : List Version) : Except DuplicateVersion KnownVersions :=
  match h : firstRepeated? [] versions with
  | some v => .error ⟨v⟩
  | none => .ok ⟨versions, (nodup_of_firstRepeated? h).1⟩

/-- The versions named `v0`, `v1` and so on, as many as asked for. -/
def numbered (count : Nat) : Except DuplicateVersion KnownVersions :=
  ofList ((List.range count).map fun i => ⟨"v" ++ toString i⟩)

/-- The number of versions. -/
def size (known : KnownVersions) : Nat := known.toList.length

/-- Is the version known? -/
def contains (known : KnownVersions) (v : Version) : Bool := known.toList.contains v

/-- The place of a version in the order of declaration, counted from zero. -/
def position? (known : KnownVersions) (v : Version) : Option Nat := known.toList.idxOf? v

/-- The version at a position. -/
def get? (known : KnownVersions) (position : Nat) : Option Version := known.toList[position]?

/-- The versions between brackets. -/
def display (known : KnownVersions) : String := "[" ++ Version.names known.toList ++ "]"

/-- Known versions are compared as sets: the same number, and every version of the left one in the
right one. The order of declaration does not count. -/
instance : BEq KnownVersions where
  beq known other := known.size == other.size && known.toList.all other.contains

/-- The version at the position of a known version is that version. -/
theorem get?_position {known : KnownVersions} {v : Version} {position : Nat}
    (h : known.position? v = some position) : known.get? position = some v := by
  unfold position? at h
  unfold get?
  rw [List.idxOf?, List.findIdx?_eq_some_iff_getElem] at h
  obtain ⟨hlt, heq, -⟩ := h
  rw [List.getElem?_eq_getElem hlt]
  simpa using heq

end KnownVersions

end VersionedTree
