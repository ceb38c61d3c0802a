import VersionedTree.Collection.Keyed

/-!
# Insertion-ordered tables

A `Table` is a finite map that lists its entries in the order in which their keys were first
inserted. That no key occurs twice is part of the type.

## What is proved

* `Table.keys_insert` — inserting a key that is present leaves the list of keys alone; a new key
  goes to the end.
* `Table.get?_insert_self` and `Table.get?_insert_of_ne` — a look-up sees the last insertion for
  its key and no other.
-/

namespace VersionedTree

/-- A finite map whose entries stand in the order of first insertion. -/
structure Table (κ ν : Type) where
  /-- The entries, oldest key first. -/
  entries : List (κ × ν)
  /-- Each key occurs once. -/
  nodup_keys : (entries.map Prod.fst).Nodup

namespace Table

variable {κ ν : Type}

/-- The table without entries. -/
def empty : Table κ ν := ⟨[], by simp⟩

instance : EmptyCollection (Table κ ν) := ⟨empty⟩

instance : Inhabited (Table κ ν) := ⟨empty⟩

/-- The keys, oldest first. -/
def keys (t : Table κ ν) : List κ := t.entries.map Prod.fst

/-- The values, in the order of their keys. -/
def values (t : Table κ ν) : List ν := t.entries.map Prod.snd

/-- The number of entries. -/
def size (t : Table κ ν) : Nat := t.entries.length

/-- Two tables with the same entries in the same order are the same table. -/
@[ext]
theorem ext {s t : Table κ ν} (h : s.entries = t.entries) : s = t := by
  obtain ⟨es, hs⟩ := s
  obtain ⟨et, ht⟩ := t
  cases h
  rfl

variable [DecidableEq κ]

/-- The value bound to a key. -/
def get? (t : Table κ ν) (key : κ) : Option ν := t.entries.lookup key

/-- Is the key bound? -/
def contains (t : Table κ ν) (key : κ) : Bool := Keyed.contains key t.entries

/-- For keys with decidable equality, `Keyed.contains` is membership among the keys. -/
theorem keyed_contains_iff {key : κ} {pairs : List (κ × ν)} :
    Keyed.contains key pairs = true ↔ key ∈ pairs.map Prod.fst := by
  induction pairs with
  | nil => simp [Keyed.contains]
  | cons pair rest ih =>
    simp only [Keyed.contains, List.any_cons, Bool.or_eq_true, beq_iff_eq, List.map_cons,
      List.mem_cons]
    exact or_congr Iff.rfl ih

/-- Insertion keeps the keys distinct. -/
theorem nodup_keyed_insert (key : κ) (value : ν) {pairs : List (κ × ν)}
    (h : (pairs.map Prod.fst).Nodup) : ((Keyed.insert key value pairs).map Prod.fst).Nodup := by
  cases hc : Keyed.contains key pairs with
  | true => rwa [Keyed.map_fst_insert_of_contains hc]
  | false =>
    rw [Keyed.insert_of_not_contains hc, List.map_append, List.nodup_append]
    refine ⟨h, by simp, ?_⟩
    intro a ha b hb
    simp only [List.map_cons, List.map_nil, List.mem_singleton] at hb
    rintro rfl
    rw [hb] at ha
    rw [keyed_contains_iff.2 ha] at hc
    exact absurd hc (by simp)

/-- Bind `key` to `value`; a key that is present keeps its place. -/
def insert (t : Table κ ν) (key : κ) (value : ν) : Table κ ν :=
  ⟨Keyed.insert key value t.entries, nodup_keyed_insert key value t.nodup_keys⟩

/-- Remove a key, if present. -/
def erase (t : Table κ ν) (key : κ) : Table κ ν :=
  ⟨t.entries.filter fun entry => !(key == entry.1), by
    exact List.Nodup.sublist (List.Sublist.map _ List.filter_sublist) t.nodup_keys⟩

/-- The pairs inserted from left to right. -/
def ofList (pairs : List (κ × ν)) : Table κ ν :=
  pairs.foldl (fun t pair => t.insert pair.1 pair.2) empty

/-- Tables are compared as maps: `==` asks for the same number of entries, and for every entry of
the left one to be found in the right one. The order of the entries does not count. -/
instance [BEq ν] : BEq (Table κ ν) where
  beq s t := s.size == t.size &&
    s.entries.all fun entry =>
      match t.get? entry.1 with
      | some value => entry.2 == value
      | none => false

/-- A key that is present leaves the list of keys alone; a new key goes to the end. -/
theorem keys_insert (t : Table κ ν) (key : κ) (value : ν) :
    (t.insert key value).keys = if key ∈ t.keys then t.keys else t.keys ++ [key] := by
  unfold keys insert
  split
  · rename_i h
    exact Keyed.map_fst_insert_of_contains (keyed_contains_iff.2 h)
  · rename_i h
    have hc : Keyed.contains key t.entries = false := by
      rw [← Bool.not_eq_true, keyed_contains_iff]
      exact h
    simp [Keyed.insert_of_not_contains hc]

/-- A look-up sees the insertion for its key. -/
theorem get?_insert_self (t : Table κ ν) (key : κ) (value : ν) :
    (t.insert key value).get? key = some value := by
  show (Keyed.insert key value t.entries).lookup key = some value
  induction t.entries with
  | nil => simp [Keyed.insert]
  | cons entry rest ih =>
    obtain ⟨k, v⟩ := entry
    by_cases hk : key = k
    · subst hk
      simp [Keyed.insert]
    · have hb : (key == k) = false := by simpa using hk
      simp only [Keyed.insert, hb, Bool.false_eq_true, if_false, List.lookup_cons]
      exact ih

/-- An insertion for one key does not touch the others. -/
theorem get?_insert_of_ne (t : Table κ ν) {key other : κ} (h : other ≠ key) (value : ν) :
    (t.insert key value).get? other = t.get? other := by
  show (Keyed.insert key value t.entries).lookup other = t.entries.lookup other
  have ho : (other == key) = false := by simpa using h
  induction t.entries with
  | nil => simp [Keyed.insert, List.lookup_cons, ho]
  | cons entry rest ih =>
    obtain ⟨k, v⟩ := entry
    by_cases hk : key = k
    · subst hk
      simp [Keyed.insert, List.lookup_cons, ho]
    · have hb : (key == k) = false := by simpa using hk
      simp only [Keyed.insert, hb, Bool.false_eq_true, if_false, List.lookup_cons]
      cases other == k with
      | true => rfl
      | false => exact ih

end Table

end VersionedTree
