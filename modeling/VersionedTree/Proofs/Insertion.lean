import Mathlib.Data.List.Induction
import VersionedTree.Collection.Table
import VersionedTree.Proofs.Equivalence

/-!
# Filling sets, mappings and tables

What the rules of insertion build: sets whose members are unequal, mappings whose keys are unequal,
and tables whose entries are the pairs that were inserted, where no key repeats.

## What is proved

* `Distinct.unequal_ofList` and `Distinct.exists_mem_ofList` — of a list of well-formed nodes, the
  members that stay are unequal, and every node is equal to one of them.
* `Distinct.ofList_of_unequal` — of unequal members all stay.
* `Distinct.ofList_sublist` — the members that stay keep their order.
* `Distinct.ofList_map` — which members stay depends on nothing but which of them are equal.
* `Keyed.forall_insert` — what holds of all keys and of all values still does after an insertion.
* `Keyed.ofList_of_length_eq` — a mapping with as many pairs as were inserted has these pairs.
* `Node.WellFormed.ofMembers`, `Node.WellFormed.insert` and `Node.WellFormed.ofPairs` — sets and
  mappings filled with well-formed nodes are well formed.
* `Table.entries_ofList` — a table filled from pairs with different keys has these pairs as entries.
-/

namespace VersionedTree

namespace Distinct

section Members

variable {α : Type} [BEq α]

theorem elem_iff {x : α} {members : List α} :
    members.elem x = true ↔ ∃ m ∈ members, (x == m) = true := by
  rw [List.elem_eq_contains, List.contains_iff_exists_mem_beq]

theorem insert_of_elem {x : α} {members : List α} (h : members.elem x = true) :
    insert x members = members := if_pos h

theorem insert_of_not_elem {x : α} {members : List α} (h : members.elem x = false) :
    insert x members = members ++ [x] := if_neg (by simp [h])

theorem ofList_append_singleton (members : List α) (x : α) :
    ofList (members ++ [x]) = insert x (ofList members) := by
  simp [ofList]

/-- Only members that were inserted are there. -/
theorem mem_of_mem_ofList {x : α} {members : List α} (h : x ∈ ofList members) :
    x ∈ members := by
  induction members using List.reverseRecOn with
  | nil => exact h
  | append_singleton members y ih =>
    rw [ofList_append_singleton, insert] at h
    split at h
    · exact List.mem_append_left _ (ih h)
    · rcases List.mem_append.1 h with h | h
      · exact List.mem_append_left _ (ih h)
      · exact List.mem_append_right _ h

/-- The members that stay keep their order. -/
theorem ofList_sublist (members : List α) : (ofList members).Sublist members := by
  induction members using List.reverseRecOn with
  | nil => exact .slnil
  | append_singleton members x ih =>
    rw [ofList_append_singleton]
    cases hx : (ofList members).elem x with
    | true =>
      rw [insert_of_elem hx]
      exact ih.trans (List.sublist_append_left _ _)
    | false =>
      rw [insert_of_not_elem hx]
      exact ih.append (.refl _)

/-- Whether members stay depends on nothing but which of them are equal. -/
theorem ofList_map {β : Type} [BEq β] {f : α → β} {members : List α}
    (h : ∀ x ∈ members, ∀ y ∈ members, (f x == f y) = (x == y)) :
    ofList (members.map f) = (ofList members).map f := by
  induction members using List.reverseRecOn with
  | nil => rfl
  | append_singleton members x ih =>
    have hx : x ∈ members ++ [x] := List.mem_append_right _ (List.mem_singleton_self x)
    have helem : ((ofList members).map f).elem (f x) = (ofList members).elem x := by
      rw [Bool.eq_iff_iff, elem_iff, elem_iff]
      constructor
      · rintro ⟨_, hfm, hbeq⟩
        obtain ⟨m, hm, rfl⟩ := List.mem_map.1 hfm
        exact ⟨m, hm, h x hx m (List.mem_append_left _ (mem_of_mem_ofList hm)) ▸ hbeq⟩
      · rintro ⟨m, hm, hbeq⟩
        refine ⟨f m, List.mem_map_of_mem hm, ?_⟩
        rw [h x hx m (List.mem_append_left _ (mem_of_mem_ofList hm)), hbeq]
    rw [List.map_append, List.map_singleton, ofList_append_singleton, ofList_append_singleton,
      ih fun y hy z hz => h y (List.mem_append_left _ hy) z (List.mem_append_left _ hz), insert,
      insert, helem]
    split
    · rfl
    · rw [List.map_append, List.map_singleton]

variable [LawfulBEq α]

/-- Where equal members are the same, no member stays twice. -/
theorem nodup_ofList (members : List α) : (ofList members).Nodup := by
  induction members using List.reverseRecOn with
  | nil => exact .nil
  | append_singleton members x ih =>
    rw [ofList_append_singleton]
    cases hx : (ofList members).elem x with
    | true => rwa [insert_of_elem hx]
    | false =>
      rw [insert_of_not_elem hx]
      refine List.nodup_append.2 ⟨ih, List.pairwise_singleton _ x, ?_⟩
      rintro m hm y hy rfl
      rw [List.mem_singleton.1 hy] at hm
      rw [List.elem_eq_true_of_mem hm] at hx
      cases hx

/-- Where equal members are the same, all members are among those that stay. -/
theorem mem_ofList {x : α} {members : List α} : x ∈ ofList members ↔ x ∈ members := by
  refine ⟨mem_of_mem_ofList, fun h => ?_⟩
  induction members using List.reverseRecOn with
  | nil => exact h
  | append_singleton members y ih =>
    rw [ofList_append_singleton]
    cases hy : (ofList members).elem y with
    | true =>
      rw [insert_of_elem hy]
      rcases List.mem_append.1 h with h | h
      · exact ih h
      · rw [List.mem_singleton.1 h]
        exact List.mem_of_elem_eq_true hy
    | false =>
      rw [insert_of_not_elem hy]
      exact (List.mem_append.1 h).elim (fun h => List.mem_append_left _ (ih h))
        (List.mem_append_right _)

end Members

/-- A new member at the end keeps members unequal. -/
theorem Unequal.append_singleton {members : List Node} {x : Node} (h : Unequal members)
    (hmembers : ∀ m ∈ members, m.WellFormed) (hx : x.WellFormed)
    (hnew : members.elem x = false) : Unequal (members ++ [x]) := by
  refine List.pairwise_append.2 ⟨h, List.pairwise_singleton _ _, fun m hm y hy => ?_⟩
  obtain rfl := List.mem_singleton.1 hy
  have hne : ¬ (y == m) = true := fun e => by
    rw [elem_iff.2 ⟨m, hm, e⟩] at hnew
    cases hnew
  refine ⟨Bool.eq_false_iff.2 fun e => hne ?_, Bool.eq_false_iff.2 hne⟩
  exact Node.beq_symm (hmembers m hm) hx e

/-- The members that stay are unequal. -/
theorem unequal_ofList {members : List Node} (h : ∀ m ∈ members, m.WellFormed) :
    Unequal (ofList members) := by
  induction members using List.reverseRecOn with
  | nil => exact .nil
  | append_singleton members x ih =>
    have hmembers : ∀ m ∈ members, m.WellFormed := fun m hm => h m (List.mem_append_left _ hm)
    rw [ofList_append_singleton]
    cases hx : (ofList members).elem x with
    | true =>
      rw [insert_of_elem hx]
      exact ih hmembers
    | false =>
      rw [insert_of_not_elem hx]
      exact (ih hmembers).append_singleton (fun m hm => hmembers m (mem_of_mem_ofList hm))
        (h x (by simp)) hx

/-- Every member that was inserted is equal to one that stays. -/
theorem exists_mem_ofList {members : List Node} (h : ∀ m ∈ members, m.WellFormed) {x : Node}
    (hx : x ∈ members) : ∃ m ∈ ofList members, (x == m) = true := by
  induction members using List.reverseRecOn with
  | nil => simp at hx
  | append_singleton members y ih =>
    rw [ofList_append_singleton]
    have hmembers : ∀ m ∈ members, m.WellFormed := fun m hm => h m (List.mem_append_left _ hm)
    cases hy : (ofList members).elem y with
    | true =>
      rw [insert_of_elem hy]
      rcases List.mem_append.1 hx with hx | hx
      · exact ih hmembers hx
      · rw [List.mem_singleton.1 hx]
        exact elem_iff.1 hy
    | false =>
      rw [insert_of_not_elem hy]
      rcases List.mem_append.1 hx with hx | hx
      · obtain ⟨m, hm, hxm⟩ := ih hmembers hx
        exact ⟨m, List.mem_append_left _ hm, hxm⟩
      · refine ⟨y, by simp, ?_⟩
        rw [List.mem_singleton.1 hx]
        exact Node.beq_refl (h y (by simp))

/-- Members that are unequal all stay. -/
theorem ofList_of_unequal {members : List Node} (h : Unequal members) :
    ofList members = members := by
  induction members using List.reverseRecOn with
  | nil => rfl
  | append_singleton members x ih =>
    obtain ⟨hmembers, -, hx⟩ := List.pairwise_append.1 h
    have hnew : members.elem x = false := by
      rw [← Bool.not_eq_true, elem_iff]
      rintro ⟨m, hm, hbeq⟩
      rw [(hx m hm x (List.mem_singleton_self x)).2] at hbeq
      cases hbeq
    rw [ofList_append_singleton, ih hmembers, insert_of_not_elem hnew]

end Distinct

namespace Keyed

variable {κ ν : Type} [BEq κ]

theorem ofList_append_singleton (pairs : List (κ × ν)) (p : κ × ν) :
    ofList (pairs ++ [p]) = insert p.1 p.2 (ofList pairs) := by
  simp [ofList]

/-- After an insertion a pair is an old one, the new one, or an old key with the new value. -/
theorem mem_insert {key : κ} {value : ν} {pairs : List (κ × ν)} {p : κ × ν}
    (h : p ∈ insert key value pairs) :
    p ∈ pairs ∨ p = (key, value) ∨ ∃ q ∈ pairs, q.1 = p.1 ∧ value = p.2 := by
  induction pairs with
  | nil => exact .inr (.inl (List.mem_singleton.1 h))
  | cons q rest ih =>
    obtain ⟨k, v⟩ := q
    rw [insert] at h
    split at h
    · rcases List.mem_cons.1 h with rfl | h
      · exact .inr (.inr ⟨(k, v), List.mem_cons_self .., rfl, rfl⟩)
      · exact .inl (List.mem_cons_of_mem _ h)
    · rcases List.mem_cons.1 h with rfl | h
      · exact .inl (List.mem_cons_self ..)
      · rcases ih h with h | h | ⟨q, hq, h⟩
        · exact .inl (List.mem_cons_of_mem _ h)
        · exact .inr (.inl h)
        · exact .inr (.inr ⟨q, List.mem_cons_of_mem _ hq, h⟩)

/-- What holds of all keys, and what holds of all values, still does after an insertion. -/
theorem forall_insert {P : κ → Prop} {Q : ν → Prop} {key : κ} {value : ν} {pairs : List (κ × ν)}
    (hpairs : ∀ p ∈ pairs, P p.1 ∧ Q p.2) (hkey : P key) (hvalue : Q value) :
    ∀ p ∈ insert key value pairs, P p.1 ∧ Q p.2 := by
  intro p hp
  rcases mem_insert hp with hp | rfl | ⟨q, hq, hkeys, hvalues⟩
  · exact hpairs p hp
  · exact ⟨hkey, hvalue⟩
  · exact ⟨hkeys ▸ (hpairs q hq).1, hvalues ▸ hvalue⟩

/-- Only keys and values that were inserted are there, though not always together. -/
theorem mem_ofList {pairs : List (κ × ν)} {p : κ × ν} (h : p ∈ ofList pairs) :
    (∃ q ∈ pairs, q.1 = p.1) ∧ ∃ q ∈ pairs, q.2 = p.2 := by
  induction pairs using List.reverseRecOn generalizing p with
  | nil => cases h
  | append_singleton pairs q ih =>
    have hold : ∀ {r}, r ∈ ofList pairs →
        (∃ q' ∈ pairs ++ [q], q'.1 = r.1) ∧ ∃ q' ∈ pairs ++ [q], q'.2 = r.2 := by
      intro r hr
      obtain ⟨⟨k, hk, hkey⟩, v, hv, hvalue⟩ := ih hr
      exact ⟨⟨k, List.mem_append_left _ hk, hkey⟩, v, List.mem_append_left _ hv, hvalue⟩
    have hlast : q ∈ pairs ++ [q] := List.mem_append_right _ (List.mem_singleton_self q)
    rw [ofList_append_singleton] at h
    rcases mem_insert h with h | rfl | ⟨r, hr, hkey, hvalue⟩
    · exact hold h
    · exact ⟨⟨q, hlast, rfl⟩, q, hlast, rfl⟩
    · exact ⟨hkey ▸ (hold hr).1, q, hlast, hvalue⟩

theorem length_insert_of_contains {key : κ} {value : ν} {pairs : List (κ × ν)}
    (h : contains key pairs = true) : (insert key value pairs).length = pairs.length := by
  have hkeys : (insert key value pairs).map Prod.fst = pairs.map Prod.fst :=
    map_fst_insert_of_contains h
  have hlen := congrArg List.length hkeys
  rwa [List.length_map, List.length_map] at hlen

theorem length_ofList_le (pairs : List (κ × ν)) : (ofList pairs).length ≤ pairs.length := by
  induction pairs using List.reverseRecOn with
  | nil => exact Nat.le_refl 0
  | append_singleton pairs p ih =>
    rw [ofList_append_singleton, List.length_append, List.length_singleton]
    cases h : contains p.1 (ofList pairs) with
    | true =>
      rw [length_insert_of_contains h]
      omega
    | false =>
      rw [insert_of_not_contains h, List.length_append, List.length_singleton]
      omega

/-- Where no insertion replaces a value, the pairs stay as they are. -/
theorem ofList_of_length_eq {pairs : List (κ × ν)} (h : (ofList pairs).length = pairs.length) :
    ofList pairs = pairs := by
  induction pairs using List.reverseRecOn with
  | nil => rfl
  | append_singleton pairs p ih =>
    have hle := length_ofList_le pairs
    rw [ofList_append_singleton, List.length_append, List.length_singleton] at h
    cases hp : contains p.1 (ofList pairs) with
    | true =>
      rw [length_insert_of_contains hp] at h
      omega
    | false =>
      rw [insert_of_not_contains hp, List.length_append, List.length_singleton] at h
      rw [ofList_append_singleton, insert_of_not_contains hp, ih (by omega)]

end Keyed

namespace Node

/-- A set filled with well-formed nodes is well formed. -/
theorem WellFormed.ofMembers {members : List Node} (h : ∀ m ∈ members, m.WellFormed) :
    (Node.ofMembers members).WellFormed := by
  refine ⟨Distinct.unequal_ofList h, allWellFormed_iff.2 fun m hm => ?_⟩
  exact h m (Distinct.mem_of_mem_ofList hm)

/-- A well-formed mapping with one more pair is well formed. -/
theorem WellFormed.insert {key value : Node} {pairs : List (Node × Node)}
    (h : (mapping pairs).WellFormed) (hk : key.WellFormed) (hv : value.WellFormed) :
    (mapping (Keyed.insert key value pairs)).WellFormed := by
  rw [WellFormed, pairsWellFormed_iff] at h ⊢
  refine ⟨?_, Keyed.forall_insert h.2 hk hv⟩
  cases hc : Keyed.contains key pairs with
  | true =>
    rw [Keyed.map_fst_insert_of_contains hc]
    exact h.1
  | false =>
    have hkeys : ∀ m ∈ pairs.map Prod.fst, m.WellFormed := fun m hm => by
      obtain ⟨p, hp, rfl⟩ := List.mem_map.1 hm
      exact (h.2 p hp).1
    have hnew : (pairs.map Prod.fst).elem key = false := by
      rw [← hc, List.elem_eq_contains, List.contains_eq_any_beq, List.any_map]
      rfl
    rw [Keyed.insert_of_not_contains hc, List.map_append]
    exact h.1.append_singleton hkeys hk hnew

/-- A mapping filled with well-formed keys and values is well formed. -/
theorem WellFormed.ofPairs {pairs : List (Node × Node)}
    (h : ∀ p ∈ pairs, p.1.WellFormed ∧ p.2.WellFormed) : (Node.ofPairs pairs).WellFormed := by
  induction pairs using List.reverseRecOn with
  | nil => exact ⟨.nil, trivial⟩
  | append_singleton pairs p ih =>
    obtain ⟨hk, hv⟩ := h p (List.mem_append_right _ (List.mem_singleton_self p))
    rw [Node.ofPairs, Keyed.ofList_append_singleton]
    exact WellFormed.insert (ih fun q hq => h q (List.mem_append_left _ hq)) hk hv

end Node

namespace Table

variable {κ ν : Type} [DecidableEq κ]

theorem ofList_append_singleton (pairs : List (κ × ν)) (p : κ × ν) :
    ofList (pairs ++ [p]) = (ofList pairs).insert p.1 p.2 := by
  rw [ofList, List.foldl_append]
  rfl

/-- A table filled from pairs with different keys has these pairs as entries. -/
theorem entries_ofList {pairs : List (κ × ν)} (h : (pairs.map Prod.fst).Nodup) :
    (ofList pairs).entries = pairs := by
  induction pairs using List.reverseRecOn with
  | nil => rfl
  | append_singleton pairs p ih =>
    rw [List.map_append, List.nodup_append] at h
    have hc : Keyed.contains p.1 pairs = false := by
      rw [← Bool.not_eq_true, keyed_contains_iff]
      exact fun hmem => h.2.2 p.1 hmem p.1 (by simp) rfl
    rw [ofList_append_singleton]
    show Keyed.insert p.1 p.2 (ofList pairs).entries = _
    rw [ih h.1, Keyed.insert_of_not_contains hc]

/-- What holds of all keys, and what holds of all values, holds of the entries of the table that is
filled with them. -/
theorem forall_ofList {P : κ → Prop} {Q : ν → Prop} {pairs : List (κ × ν)}
    (h : ∀ p ∈ pairs, P p.1 ∧ Q p.2) : ∀ p ∈ (ofList pairs).entries, P p.1 ∧ Q p.2 := by
  induction pairs using List.reverseRecOn with
  | nil => exact nofun
  | append_singleton pairs p ih =>
    obtain ⟨hkey, hvalue⟩ := h p (List.mem_append_right _ (List.mem_singleton_self p))
    rw [ofList_append_singleton]
    exact Keyed.forall_insert (ih fun q hq => h q (List.mem_append_left _ hq)) hkey hvalue

/-- In a table, an entry is what the look-up of its key finds. -/
theorem get?_eq_some_iff {t : Table κ ν} {key : κ} {value : ν} :
    t.get? key = some value ↔ (key, value) ∈ t.entries := by
  obtain ⟨entries, hnodup⟩ := t
  show entries.lookup key = some value ↔ (key, value) ∈ entries
  induction entries with
  | nil => simp
  | cons entry rest ih =>
    obtain ⟨k, v⟩ := entry
    rw [List.map_cons, List.nodup_cons] at hnodup
    rw [List.lookup_cons, List.mem_cons]
    by_cases hk : key = k
    · subst hk
      simp only [beq_self_eq_true, Option.some.injEq, Prod.mk.injEq, true_and]
      constructor
      · rintro rfl
        exact .inl rfl
      · rintro (h | h)
        · exact h.symm
        · exact absurd (List.mem_map_of_mem h) hnodup.1
    · rw [beq_eq_false_iff_ne.2 hk]
      simp [hk, ih hnodup.2]

end Table

end VersionedTree
