import VersionedTree.Dispatch.Consistency
import VersionedTree.Proofs.Grouping

/-!
# Consistent tables

The check of a table goes through it from several sides, one after the other, and stops at the first
fault. A table that passes is described as a whole: which versions it groups, which groups it uses,
and how its trees differ. A table that groups versions by their trees is of this kind.

## What is proved

* `Dispatch.validate_eq_ok_iff` — which tables pass the check.
* `Grouping.validate_tableOf` — the table that groups versions by their trees passes.
-/

namespace VersionedTree

namespace Dispatch

variable {d : Dispatch}

/-- No fault in the grouping: exactly the known versions are grouped, in the order of
declaration. -/
theorem groupingFault?_eq_none_iff :
    d.groupingFault? = none ↔ d.assigned.keys = d.known.toList := by
  constructor
  · intro h
    rw [groupingFault?] at h
    split at h
    · cases h
    · split at h
      · cases h
      · split_ifs at h with hkeys
        exact hkeys
  · intro h
    have hknown : (d.assigned.keys.find? fun v => !d.known.contains v) = none := by
      rw [List.find?_eq_none]
      intro v hv
      rw [h] at hv
      simp [KnownVersions.contains, hv]
    have hgrouped : (d.known.toList.find? fun v => !d.assigned.contains v) = none := by
      rw [List.find?_eq_none]
      intro v hv
      rw [← h] at hv
      rw [Table.contains, Table.keyed_contains_iff.2 hv]
      exact Bool.false_ne_true
    rw [groupingFault?, hknown]
    dsimp only
    rw [hgrouped]
    exact if_pos h

/-- No missing tree: the groups of all versions are there. -/
theorem missingTree?_eq_none_iff :
    d.missingTree? = none ↔ ∀ g ∈ d.assigned.values, g ∈ d.trees.keys := by
  rw [missingTree?, Option.map_eq_none_iff, List.find?_eq_none, Table.values, List.forall_mem_map]
  refine forall₂_congr fun entry _ => ?_
  rw [Bool.not_eq_true, Bool.not_eq_false', Table.contains, Table.keyed_contains_iff, Table.keys]

/-- No fault in the trees: each group is used, and no tree is equal to one before it. -/
theorem treeFault?_eq_none_iff {used : List GroupId} {seen : List (Node × GroupId)}
    {rows : List (GroupId × Node)} :
    treeFault? used seen rows = none ↔ (∀ row ∈ rows, row.1 ∈ used) ∧
      (∀ row ∈ rows, ∀ s ∈ seen, (row.2 == s.1) = false) ∧
      rows.Pairwise fun row row' => (row'.2 == row.2) = false := by
  induction rows generalizing seen with
  | nil => simp [treeFault?]
  | cons row rows ih =>
    obtain ⟨g, t⟩ := row
    -- The row joins what was seen, so the later trees are compared with it as well.
    have hsplit : (∀ row ∈ rows, ∀ s ∈ seen ++ [(t, g)], (row.2 == s.1) = false) ↔
        (∀ row ∈ rows, ∀ s ∈ seen, (row.2 == s.1) = false) ∧
          ∀ row ∈ rows, (row.2 == t) = false := by
      simp only [List.forall_mem_append, List.forall_mem_singleton, forall_and]
    have hlookup : seen.lookup t = none ↔ ∀ s ∈ seen, (t == s.1) = false := by
      simp only [List.lookup_eq_none_iff, bne, Bool.not_eq_true']
    rw [treeFault?, List.forall_mem_cons, List.forall_mem_cons, List.pairwise_cons, ← hlookup]
    by_cases hg : g ∈ used
    · rw [if_pos (List.contains_iff_mem.2 hg)]
      cases hseen : seen.lookup t with
      | some first => simp
      | none =>
        dsimp only
        rw [ih, hsplit]
        tauto
    · rw [if_neg (by simpa using hg)]
      simp [hg]

/-- A table passes exactly when it groups the known versions in the order of declaration, the groups
in use are those with a tree, and no tree is equal to one before it. -/
theorem validate_eq_ok_iff :
    d.validate = .ok () ↔ d.assigned.keys = d.known.toList ∧
      (∀ g, g ∈ d.assigned.values ↔ g ∈ d.trees.keys) ∧
      d.trees.values.Pairwise fun s t => (t == s) = false := by
  have hfault : d.validate = .ok () ↔ d.fault? = none := by
    rw [validate]
    split <;> simp [*]
  have htrees : treeFault? d.assigned.values [] d.trees.entries = none ↔
      (∀ g ∈ d.trees.keys, g ∈ d.assigned.values) ∧
        d.trees.values.Pairwise fun s t => (t == s) = false := by
    rw [treeFault?_eq_none_iff, Table.keys, Table.values, List.forall_mem_map, Table.values,
      List.pairwise_map]
    simp
  have hfaults : d.fault? = none ↔ d.groupingFault? = none ∧ d.missingTree? = none ∧
      treeFault? d.assigned.values [] d.trees.entries = none := by
    simp only [fault?, Option.orElse_eq_orElse, Option.orElse_eq_or, Option.or_eq_none_iff]
  rw [hfault, hfaults, groupingFault?_eq_none_iff, missingTree?_eq_none_iff, htrees]
  constructor
  · rintro ⟨hkeys, hmissing, hused, hunequal⟩
    exact ⟨hkeys, fun g => ⟨hmissing g, hused g⟩, hunequal⟩
  · rintro ⟨hkeys, hgroups, hunequal⟩
    exact ⟨hkeys, fun g => (hgroups g).1, fun g => (hgroups g).2, hunequal⟩

end Dispatch

/-- The table that groups versions by their trees passes the check. -/
theorem Grouping.validate_tableOf {selector : String} {known : KnownVersions} {trees : List Node}
    (h : ∀ t ∈ trees, t.WellFormed) (hlen : trees.length = known.toList.length) :
    (tableOf selector known trees).validate = .ok () := by
  refine Dispatch.validate_eq_ok_iff.2 ⟨keys_assigned_tableOf hlen, fun g => ?_, ?_⟩
  · rw [mem_keys_trees_tableOf hlen, Table.values, entries_assigned_tableOf hlen, List.map_map]
    constructor
    · intro hg
      obtain ⟨row, hrow, rfl⟩ := List.mem_map.1 hg
      obtain ⟨hlt, -⟩ := getElem_groupOf h (List.of_mem_zip hrow).2
      exact ⟨_, hlt, rfl⟩
    · rintro ⟨i, hi, rfl⟩
      have hmem : (distinct trees)[i] ∈ trees := Distinct.mem_of_mem_ofList (List.getElem_mem hi)
      obtain ⟨v, hv⟩ := exists_row_of_tree hlen hmem
      exact List.mem_map.2 ⟨_, hv, groupOf_getElem h hi⟩
  · rw [values_trees_tableOf hlen]
    exact (Distinct.unequal_ofList h).imp fun hne => hne.2

end VersionedTree
