/-!
# Lists that keep each key once

Sets and mappings remember the order in which they were filled. Here they are plain lists with two
rules of insertion, over any Boolean test `==` on keys:

* a key that is present keeps its place and its own spelling, and only its value is replaced;
* a member that is present is not added again.

Equality need not be lawful: two members may be equal without being the same value, and it is
always the one inserted first that stays.
-/

namespace VersionedTree

namespace Keyed

variable {κ ν : Type} [BEq κ]

/-- Bind `key` to `value`. The first key equal to `key` keeps its place and takes the new value; a
new key goes to the end. -/
def insert (key : κ) (value : ν) : List (κ × ν) → List (κ × ν)
  | [] => [(key, value)]
  | (k, v) :: rest => if key == k then (k, value) :: rest else (k, v) :: insert key value rest

/-- The pairs inserted from left to right, so a later pair replaces the value of an earlier one. -/
def ofList (pairs : List (κ × ν)) : List (κ × ν) :=
  pairs.foldl (fun built pair => insert pair.1 pair.2 built) []

/-- Is some key equal to `key`? -/
def contains (key : κ) (pairs : List (κ × ν)) : Bool :=
  pairs.any fun pair => key == pair.1

/-- A key that is present keeps all keys as they are. -/
theorem map_fst_insert_of_contains {key : κ} {value : ν} {pairs : List (κ × ν)}
    (h : contains key pairs = true) :
    (insert key value pairs).map Prod.fst = pairs.map Prod.fst := by
  induction pairs with
  | nil => simp [contains] at h
  | cons pair rest ih =>
    obtain ⟨k, v⟩ := pair
    simp only [insert]
    split
    · simp
    · rename_i hk
      have : contains key rest = true := by simpa [contains, hk] using h
      simp [ih this]

/-- A new key goes to the end. -/
theorem insert_of_not_contains {key : κ} {value : ν} {pairs : List (κ × ν)}
    (h : contains key pairs = false) : insert key value pairs = pairs ++ [(key, value)] := by
  induction pairs with
  | nil => rfl
  | cons pair rest ih =>
    obtain ⟨k, v⟩ := pair
    simp only [contains, List.any_cons, Bool.or_eq_false_iff] at h
    simp [insert, h.1, ih h.2]

end Keyed

namespace Distinct

variable {α : Type} [BEq α]

/-- Add `x` at the end unless an equal member is present. -/
def insert (x : α) (members : List α) : List α :=
  if members.elem x then members else members ++ [x]

/-- The members inserted from left to right, so the first of several equal ones stays. -/
def ofList (members : List α) : List α :=
  members.foldl (fun built x => insert x built) []

end Distinct

end VersionedTree
