import VersionedTree.Proofs.StoredArtifacts

/-!
# Faults of tables

The check of a table names the first fault that it comes upon. What a fault says is a statement
about the table as a whole, and it is so whenever the check names it: no fault is an artefact of the
order in which the table is searched. Together with the description of the tables that pass, this
says what the check is worth. A table that was read from storage has passed, so it selects a tree
for every known version and for no other.

## What is proved

* `Dispatch.holds_of_validate` — the fault that the check names is there.
* `Dispatch.selectsKnown_of_validate` — a table that passes selects a tree for the known versions.
* `Dispatch.validate_exact` — what the check accepts, what it names, and what it is worth.
-/

namespace VersionedTree

/-- A key that is not found is not there. -/
theorem Table.contains_eq_false_iff {κ ν : Type} [DecidableEq κ] {t : Table κ ν} {key : κ} :
    t.contains key = false ↔ key ∉ t.keys := by
  rw [← Bool.not_eq_true, contains, keyed_contains_iff, keys]

/-- What a fault says of a table. -/
def DispatchFault.Holds (d : Dispatch) : DispatchFault → Prop
  | .ungrouped version => version ∈ d.known.toList ∧ version ∉ d.assigned.keys
  | .unknownVersion version known =>
    version ∈ d.assigned.keys ∧ version ∉ d.known.toList ∧ known = d.known.toList
  | .outOfOrder grouped =>
    grouped = d.assigned.keys ∧ grouped.Perm d.known.toList ∧ grouped ≠ d.known.toList
  | .missingTree version group => (version, group) ∈ d.assigned.entries ∧ group ∉ d.trees.keys
  | .unusedGroup group => group ∈ d.trees.keys ∧ group ∉ d.assigned.values
  | .duplicateTree first second =>
    ∃ s t, [(first, s), (second, t)].Sublist d.trees.entries ∧ (s == t) = true

namespace Dispatch

/-- A table without a fault. -/
structure Consistent (d : Dispatch) : Prop where
  /-- The known versions are grouped, in the order of declaration. -/
  keys_assigned : d.assigned.keys = d.known.toList
  /-- The groups in use are those with a tree. -/
  groups : ∀ g, g ∈ d.assigned.values ↔ g ∈ d.trees.keys
  /-- The trees are pairwise unequal. -/
  unequal : Distinct.Unequal d.trees.values

/-- A tree is selected for the known versions, and for no other. -/
def SelectsKnown (d : Dispatch) : Prop :=
  ∀ v, (∃ t, d.select (some v) = .ok t) ↔ v ∈ d.known.toList

variable {d : Dispatch} {fault : DispatchFault}

/-! ### Each search finds a fault that is there -/

/-- A fault in the grouping is there. Out of order are the known versions themselves. -/
theorem holds_of_groupingFault? (h : d.groupingFault? = some fault) : fault.Holds d := by
  rw [groupingFault?] at h
  split at h
  · rename_i v hv
    cases h
    have hunknown : d.known.contains v = false := by simpa using List.find?_some hv
    exact ⟨List.mem_of_find?_eq_some hv, by simpa [KnownVersions.contains] using hunknown, rfl⟩
  · rename_i hunknown
    split at h
    · rename_i v hv
      cases h
      have hungrouped : d.assigned.contains v = false := by simpa using List.find?_some hv
      exact ⟨List.mem_of_find?_eq_some hv, Table.contains_eq_false_iff.1 hungrouped⟩
    · rename_i hungrouped
      split_ifs at h with hkeys
      cases h
      refine ⟨rfl, ?_, hkeys⟩
      refine (List.perm_ext_iff_of_nodup d.assigned.nodup_keys d.known.nodup).2 fun v =>
        ⟨fun hv => ?_, fun hv => ?_⟩
      · simpa [KnownVersions.contains] using List.find?_eq_none.1 hunknown v hv
      · have hgrouped := List.find?_eq_none.1 hungrouped v hv
        by_contra hv'
        rw [Table.contains_eq_false_iff.2 hv'] at hgrouped
        exact hgrouped rfl

/-- A missing tree is missing. -/
theorem holds_of_missingTree? (h : d.missingTree? = some fault) : fault.Holds d := by
  obtain ⟨⟨v, g⟩, hentry, rfl⟩ := Option.map_eq_some_iff.1 h
  have hmissing : d.trees.contains g = false := by simpa using List.find?_some hentry
  exact ⟨List.mem_of_find?_eq_some hentry, Table.contains_eq_false_iff.1 hmissing⟩

/-- A tree that was seen before stands before. -/
theorem exists_of_lookup {seen : List (Node × GroupId)} {t : Node} {g : GroupId}
    (h : seen.lookup t = some g) : ∃ s, (s, g) ∈ seen ∧ (t == s) = true := by
  rw [List.lookup_eq_findSome?] at h
  obtain ⟨⟨s, g'⟩, hmem, hs⟩ := List.exists_of_findSome?_eq_some h
  split at hs
  · cases hs
    exact ⟨s, hmem, ‹_›⟩
  · cases hs

/-- A fault in the trees is that of a group that is not used, or of two rows with equal trees. The
rows that were seen before stand in front. -/
theorem exists_of_treeFault? {used : List GroupId} {seen : List (Node × GroupId)}
    {rows : List (GroupId × Node)} (h : treeFault? used seen rows = some fault) :
    (∃ row ∈ rows, row.1 ∉ used ∧ fault = .unusedGroup row.1) ∨
      ∃ first s second t, fault = .duplicateTree first second ∧
        [(first, s), (second, t)].Sublist (seen.map Prod.swap ++ rows) ∧ (t == s) = true := by
  induction rows generalizing seen with
  | nil => cases h
  | cons row rows ih =>
    obtain ⟨g, t⟩ := row
    rw [treeFault?] at h
    split at h
    · split at h
      · rename_i first hfirst
        cases h
        obtain ⟨s, hs, hts⟩ := exists_of_lookup hfirst
        refine .inr ⟨first, s, g, t, rfl, ?_, hts⟩
        have hbefore : (first, s) ∈ seen.map Prod.swap := List.mem_map_of_mem (f := Prod.swap) hs
        exact (List.singleton_sublist.2 hbefore).append
          (List.singleton_sublist.2 (List.mem_cons_self ..))
      · rcases ih h with ⟨row, hrow, hunused⟩ | ⟨first, s, second, t', hfault, hsublist, heq⟩
        · exact .inl ⟨row, List.mem_cons_of_mem _ hrow, hunused⟩
        · refine .inr ⟨first, s, second, t', hfault, ?_, heq⟩
          rwa [List.map_append, List.append_assoc] at hsublist
    · rename_i hunused
      cases h
      exact .inl ⟨(g, t), List.mem_cons_self .., by simpa using hunused, rfl⟩

/-- A fault in the trees is there. -/
theorem holds_of_treeFault? (hwf : ∀ t ∈ d.trees.values, t.WellFormed)
    (h : treeFault? d.assigned.values [] d.trees.entries = some fault) : fault.Holds d := by
  rcases exists_of_treeFault? h with ⟨row, hrow, hunused, rfl⟩ |
    ⟨first, s, second, t, rfl, hsublist, hts⟩
  · exact ⟨List.mem_map_of_mem hrow, hunused⟩
  · have hmem : ∀ row ∈ [(first, s), (second, t)], row.2.WellFormed := fun row hrow =>
      hwf row.2 (List.mem_map_of_mem (hsublist.subset hrow))
    refine ⟨s, t, hsublist, Node.beq_symm ?_ ?_ hts⟩
    · exact hmem (second, t) (by simp)
    · exact hmem (first, s) (by simp)

/-- The fault that the check names is there. -/
theorem holds_of_validate (hwf : ∀ t ∈ d.trees.values, t.WellFormed)
    (h : d.validate = .error fault) : fault.Holds d := by
  have hfault : d.fault? = some fault := by
    rw [validate] at h
    split at h
    · rename_i found hfound
      cases h
      exact hfound
    · cases h
  simp only [fault?, Option.orElse_eq_orElse, Option.orElse_eq_or, Option.or_eq_some_iff] at hfault
  rcases hfault with hgrouping | ⟨-, hmissing | ⟨-, htrees⟩⟩
  · exact holds_of_groupingFault? hgrouping
  · exact holds_of_missingTree? hmissing
  · exact holds_of_treeFault? hwf htrees

/-! ### Tables that pass -/

/-- A table passes exactly when it is consistent. -/
theorem validate_eq_ok_iff_consistent (hwf : ∀ t ∈ d.trees.values, t.WellFormed) :
    d.validate = .ok () ↔ d.Consistent := by
  rw [validate_eq_ok_iff]
  constructor
  · rintro ⟨hkeys, hgroups, hunequal⟩
    refine ⟨hkeys, hgroups, hunequal.imp_of_mem fun {s t} hs ht hts => ⟨?_, hts⟩⟩
    refine Bool.eq_false_iff.2 fun hst => ?_
    rw [Node.beq_symm (hwf s hs) (hwf t ht) hst] at hts
    cases hts
  · rintro ⟨hkeys, hgroups, hunequal⟩
    exact ⟨hkeys, hgroups, hunequal.imp fun hne => hne.2⟩

/-- A version is grouped when it is among the keys, and then its group is among the values. -/
theorem exists_groupOf?_iff {v : Version} :
    (∃ g, d.groupOf? v = some g) ↔ v ∈ d.assigned.keys := by
  simp only [groupOf?, Table.get?_eq_some_iff, Table.keys, List.mem_map, Prod.exists,
    exists_eq_right, exists_and_right]

/-- A table that passes selects a tree for the known versions, and for no other: a known version has
a group, and the group has a tree. -/
theorem selectsKnown_of_validate (h : d.validate = .ok ()) : d.SelectsKnown := by
  obtain ⟨hkeys, hgroups, -⟩ := validate_eq_ok_iff.1 h
  intro v
  rw [← hkeys, ← exists_groupOf?_iff, select, Option.bind_some]
  constructor
  · rintro ⟨t, ht⟩
    cases hg : d.groupOf? v with
    | none =>
      rw [hg] at ht
      cases ht
    | some g => exact ⟨g, rfl⟩
  · rintro ⟨g, hg⟩
    have hused : g ∈ d.assigned.values := List.mem_map_of_mem (Table.get?_eq_some_iff.1 hg)
    obtain ⟨⟨g', t⟩, hentry, rfl⟩ := List.mem_map.1 ((hgroups g).1 hused)
    have htree : d.tree? g' = some t := Table.get?_eq_some_iff.2 hentry
    refine ⟨t, ?_⟩
    rw [hg, Option.bind_some, htree]

/-! ### Tables that are read -/

/-- A table that is put together from parts has passed. -/
theorem validate_of_assemble {parts : Parts} (h : assemble parts = .ok d) :
    d.validate = .ok () := by
  rcases parts with ⟨_ | selector, _ | known, _ | assigned, _ | trees⟩ <;> try cases h
  rw [assemble] at h
  split at h
  · rename_i hvalid
    cases h
    exact hvalid
  · cases h

/-- A table that is read has passed. -/
theorem validate_of_ofJson {left : Nat} {v : Json} (h : ofJson left v = .ok d) :
    d.validate = .ok () := by
  cases v with
  | object fields =>
    obtain ⟨_, -, h⟩ := Outcome.bind_eq_ok_iff.1 h
    obtain ⟨_, -, h⟩ := Outcome.bind_eq_ok_iff.1 h
    exact validate_of_assemble h
  | array items =>
    obtain ⟨_, -, h⟩ := Outcome.bind_eq_ok_iff.1 h
    obtain ⟨_, -, h⟩ := Outcome.bind_eq_ok_iff.1 h
    exact validate_of_assemble h
  | _ => cases h

end Dispatch

namespace Artifact

open Json (finish_eq_ok_iff)

/-- A table in an artifact is read as a table. -/
theorem exists_of_ofJson {left : Nat} {v : Json} {d : Dispatch}
    (h : ofJson left v = .ok (.dispatch d)) : ∃ l w, Dispatch.ofJson l w = .ok d := by
  unfold ofJson at h
  split at h
  · rename_i content _
    obtain ⟨l, -, h⟩ := Outcome.bind_eq_ok_iff.1 h
    obtain ⟨name, -, h⟩ := Outcome.bind_eq_ok_iff.1 h
    obtain ⟨a, ha, h⟩ := Outcome.bind_eq_ok_iff.1 h
    obtain ⟨-, rfl⟩ := finish_eq_ok_iff.1 h
    rw [ofVariant] at ha
    split_ifs at ha
    · obtain ⟨t, -, ht⟩ := Outcome.map_eq_ok_iff.1 ha
      cases ht
    · obtain ⟨e, he, heq⟩ := Outcome.map_eq_ok_iff.1 ha
      cases heq
      exact ⟨l, content, he⟩
  · cases h

/-- A table in the text of an artifact has passed. -/
theorem validate_of_ofText {text : String} {d : Dispatch} (h : ofText text = .ok (.dispatch d)) :
    d.validate = .ok () := by
  obtain ⟨a, ha, h⟩ := Outcome.bind_eq_ok_iff.1 h
  split_ifs at h
  cases h
  obtain ⟨l, w, hd⟩ := exists_of_ofJson ha
  exact Dispatch.validate_of_ofJson hd

end Artifact

namespace Dispatch

/-- The check accepts the consistent tables, and the fault that it names is there. So a table that
is read, alone or as an artifact, selects a tree for the known versions and for no other. -/
theorem validate_exact (d : Dispatch) :
    ((∀ t ∈ d.trees.values, t.WellFormed) →
      (d.validate = .ok () ↔ d.Consistent) ∧
        ∀ fault, d.validate = .error fault → fault.Holds d) ∧
    (∀ left v, ofJson left v = .ok d → d.SelectsKnown) ∧
    ∀ text, Artifact.ofText text = .ok (.dispatch d) → d.SelectsKnown := by
  refine ⟨fun hwf => ⟨validate_eq_ok_iff_consistent hwf, fun fault => holds_of_validate hwf⟩, ?_,
    ?_⟩
  · intro left v h
    exact selectsKnown_of_validate (validate_of_ofJson h)
  · intro text h
    exact selectsKnown_of_validate (Artifact.validate_of_ofText h)

/-- Two groups whose trees are the same set, filled in different orders. -/
def twinTable : Dispatch where
  selector := "api"
  known := Sample.threeVersions
  assigned := ⟨[(⟨"v0"⟩, ⟨0⟩), (⟨"v1"⟩, ⟨1⟩), (⟨"v2"⟩, ⟨1⟩)], by decide⟩
  trees := ⟨[(⟨0⟩, .set [.int 1, .int 2]), (⟨1⟩, .set [.int 2, .int 1])], by decide⟩

theorem validate_exact_growing :
    (Compiler.growingTable.validate = .ok () ∧ Compiler.growingTable.Consistent) ∧
    (twinTable.validate = .error (.duplicateTree ⟨0⟩ ⟨1⟩) ∧
      (DispatchFault.duplicateTree ⟨0⟩ ⟨1⟩).Holds twinTable) ∧
    (ofJson Json.maxNesting Compiler.growingTable.toJson = .ok Compiler.growingTable ∧
      Compiler.growingTable.SelectsKnown) ∧
    Artifact.ofText (Artifact.toText (.dispatch Compiler.growingTable)) =
      .ok (.dispatch Compiler.growingTable) ∧ Compiler.growingTable.SelectsKnown := by
  have hgrowing : ∀ t ∈ Compiler.growingTable.trees.values, t.WellFormed := by
    have hvalues : Compiler.growingTable.trees.values = [.sequence [], .sequence [.str "y"]] := rfl
    simp only [hvalues, List.forall_mem_cons, List.not_mem_nil, false_implies, implies_true,
      Node.WellFormed, Node.AllWellFormed, and_self]
  have htwin : ∀ t ∈ twinTable.trees.values, t.WellFormed := by
    have hvalues : twinTable.trees.values = [.set [.int 1, .int 2], .set [.int 2, .int 1]] := rfl
    simp only [hvalues, List.forall_mem_cons, List.not_mem_nil, false_implies, implies_true,
      Node.WellFormed, Node.AllWellFormed, Distinct.Unequal]
    decide
  have hvalid : Compiler.growingTable.validate = .ok () := rfl
  have hfault : twinTable.validate = .error (.duplicateTree ⟨0⟩ ⟨1⟩) := rfl
  have hword : Compiler.growingTable.FitsWord := ⟨by decide, by decide⟩
  have hjson : ofJson Json.maxNesting Compiler.growingTable.toJson = .ok Compiler.growingTable := by
    rw [ofJson_toJson hword hgrowing hvalid]
    exact if_pos (by decide)
  have htext : Artifact.ofText (Artifact.toText (.dispatch Compiler.growingTable)) =
      .ok (.dispatch Compiler.growingTable) := by
    refine (Artifact.ofText_toText_of_storable ⟨fun t ht => ?_, fun d hd => ?_⟩).trans (if_pos ?_)
    · cases ht
    · cases hd
      exact ⟨hvalid, hword, hgrowing⟩
    · rw [Artifact.toText, (Artifact.written_toJson _).textNesting_render]
      decide
  obtain ⟨hcheck, hread, hreadText⟩ := validate_exact Compiler.growingTable
  exact ⟨⟨hvalid, (hcheck hgrowing).1.1 hvalid⟩,
    ⟨hfault, ((validate_exact twinTable).1 htwin).2 _ hfault⟩,
    ⟨hjson, hread _ _ hjson⟩, htext, hreadText _ htext⟩

end Dispatch

end VersionedTree
