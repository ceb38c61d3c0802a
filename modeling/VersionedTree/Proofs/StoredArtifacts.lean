import VersionedTree.Proofs.Compiling
import VersionedTree.Proofs.Consistency
import VersionedTree.Proofs.StoredNodes
import VersionedTree.Storage.Dispatch

/-!
# Artifacts in storage

A table is read back part by part: the selector and the known versions, whose names may be anything,
the groups of the versions, which are numbers, and the trees of the groups, whose names are these
numbers in decimal. What was put together is checked again. A table that a compilation makes passes,
so an artifact can be read from its text as it was.

## What is proved

* `Dispatch.ofJson_toJson` — a consistent table of well-formed trees is read back as it was.
* `Compiler.compile_storable` — so is whatever a compilation makes.
-/

namespace VersionedTree

open Json (within)

/-! ### Known versions -/

/-- Versions of which none repeats are taken as they are. -/
theorem KnownVersions.ofList_toList (known : KnownVersions) : ofList known.toList = .ok known := by
  have hfirst : ∀ {seen versions : List Version}, versions.Nodup → (∀ v ∈ versions, v ∉ seen) →
      firstRepeated? seen versions = none := by
    intro seen versions hnodup hseen
    induction versions generalizing seen with
    | nil => rfl
    | cons v rest ih =>
      obtain ⟨hv, hrest⟩ := List.nodup_cons.1 hnodup
      obtain ⟨hvseen, hrestseen⟩ := List.forall_mem_cons.1 hseen
      rw [firstRepeated?, if_neg hvseen]
      refine ih hrest fun w hw => ?_
      rintro hmem
      rcases List.mem_cons.1 hmem with rfl | hmem
      · exact hv hw
      · exact hrestseen w hw hmem
  have hnone := hfirst known.nodup fun v _ => List.not_mem_nil
  rw [ofList]
  split
  · rename_i v hv
    rw [hnone] at hv
    cases hv
  · rfl

theorem KnownVersions.written_toJson (known : KnownVersions) : known.toJson.Written :=
  .array (List.forall_mem_map.2 fun v _ => Json.written_ofText v.name)

theorem KnownVersions.ofJson_toJson (known : KnownVersions) (left : Nat) :
    ofJson left known.toJson = within left known.toJson.nesting known := by
  have hversion : ∀ v ∈ known.toList, ∀ l,
      Version.ofJson v.toJson = within l v.toJson.nesting v := by
    intro v _ l
    rw [Version.ofJson, Version.toJson, Json.asText_ofText]
    exact Json.within_zero.symm
  rw [ofJson, toJson, Json.asList_map hversion]
  refine Json.within_bind_ok ?_
  rw [ofList_toList]
  rfl

/-- A table filled with the entries of a table is that table. -/
theorem Table.ofList_entries {κ ν : Type} [DecidableEq κ] (t : Table κ ν) :
    ofList t.entries = t := Table.ext (entries_ofList t.nodup_keys)

namespace Dispatch

variable {d : Dispatch}

/-- The groups of a table are numbers of 64 bits. -/
structure FitsWord (d : Dispatch) : Prop where
  /-- The groups of the versions are. -/
  assigned : ∀ row ∈ d.assigned.entries, row.2.index < UInt64.size
  /-- The groups with a tree are. -/
  trees : ∀ row ∈ d.trees.entries, row.1.index < UInt64.size

/-- The JSON form of the groups of the versions. -/
def assignedToJson (d : Dispatch) : Json :=
  .object (d.assigned.entries.map fun row => (Json.escape row.1.name, .ofNat row.2.index))

/-- The JSON form of the trees of the groups. -/
def treesToJson (d : Dispatch) : Json :=
  .object (d.trees.entries.map fun row => (Json.digits row.1.index, row.2.toJson))

theorem assignedOfJson_toJson (h : d.FitsWord) (left : Nat) :
    assignedOfJson left d.assignedToJson = within left d.assignedToJson.nesting d.assigned := by
  rw [assignedOfJson, assignedToJson, Json.asEntries_map]
  · refine Json.within_bind_ok ?_
    rw [Table.ofList_entries]
    rfl
  · intro row _
    rw [Json.nameOf_escape]
    rfl
  · intro row hrow l
    rw [Json.asNatural_ofNat (h.assigned row hrow)]
    exact Json.within_zero.symm

theorem treesOfJson_toJson (h : d.FitsWord) (hwf : ∀ t ∈ d.trees.values, t.WellFormed)
    (left : Nat) :
    treesOfJson left d.treesToJson = within left d.treesToJson.nesting d.trees := by
  rw [treesOfJson, treesToJson, Json.asEntries_map]
  · refine Json.within_bind_ok ?_
    rw [Table.ofList_entries]
    rfl
  · intro row hrow
    rw [groupOfName, Json.natural?_digits (h.trees row hrow)]
  · intro row hrow l
    exact Node.ofJson_toJson (hwf row.2 (List.mem_map_of_mem hrow)) l

/-- The fields of the JSON form of a table. -/
def fieldsToJson (d : Dispatch) : List (List Char × Json) :=
  [(Json.escape "selector", .ofText d.selector),
    (Json.escape "known_versions", d.known.toJson),
    (Json.escape "version_to_group", d.assignedToJson),
    (Json.escape "group_to_tree", d.treesToJson)]

theorem toJson_eq (d : Dispatch) : d.toJson = .object d.fieldsToJson := rfl

theorem nesting_fieldsToJson (d : Dispatch) :
    Json.fieldsNesting d.fieldsToJson =
      max d.known.toJson.nesting (max d.assignedToJson.nesting d.treesToJson.nesting) := by
  have htext : (Json.ofText d.selector).nesting = 0 := rfl
  rw [Json.fieldsNesting_eq, fieldsToJson]
  simp only [List.map_cons, List.map_nil, Json.itemsNesting, htext, Nat.zero_max, Nat.max_zero]

theorem written_toJson (d : Dispatch) : d.toJson.Written := by
  have hassigned : d.assignedToJson.Written := by
    refine .object (List.forall_mem_map.2 fun row _ => ⟨row.1.name, rfl⟩) ?_
    exact List.forall_mem_map.2 fun row _ => Json.written_ofNat row.2.index
  have htrees : d.treesToJson.Written := by
    refine .object (List.forall_mem_map.2 fun row _ => ?_) ?_
    · exact ⟨String.ofList (Json.digits row.1.index), (Json.escape_digits row.1.index).symm⟩
    · exact List.forall_mem_map.2 fun row _ => row.2.written_toJson
  refine .object ?_ ?_
  · exact List.forall_mem_cons.2 ⟨⟨"selector", rfl⟩,
      List.forall_mem_cons.2 ⟨⟨"known_versions", rfl⟩,
        List.forall_mem_cons.2 ⟨⟨"version_to_group", rfl⟩,
          List.forall_mem_singleton.2 ⟨"group_to_tree", rfl⟩⟩⟩⟩
  · exact List.forall_mem_cons.2 ⟨Json.written_ofText d.selector,
      List.forall_mem_cons.2 ⟨d.known.written_toJson,
        List.forall_mem_cons.2 ⟨hassigned, List.forall_mem_singleton.2 htrees⟩⟩⟩

/-- The fields of a table are read in their order, each once. -/
theorem readFields_fieldsToJson (h : d.FitsWord) (hwf : ∀ t ∈ d.trees.values, t.WellFormed)
    (left : Nat) :
    readFields left {} d.fieldsToJson = within left (Json.fieldsNesting d.fieldsToJson)
      ⟨some d.selector, some d.known, some d.assigned, some d.trees⟩ := by
  rw [nesting_fieldsToJson, fieldsToJson, readFields, Json.nameOf_escape, Outcome.ok_bind,
    if_pos rfl]
  show (Json.asText _ >>= _) = _
  rw [Json.asText_ofText, Outcome.ok_bind, readFields, Json.nameOf_escape, Outcome.ok_bind,
    if_neg (by decide), if_pos rfl]
  show (KnownVersions.ofJson left _ >>= _) = _
  rw [KnownVersions.ofJson_toJson]
  refine Json.within_bind ?_
  rw [readFields, Json.nameOf_escape, Outcome.ok_bind, if_neg (by decide), if_neg (by decide),
    if_pos rfl]
  show (assignedOfJson left _ >>= _) = _
  rw [assignedOfJson_toJson h]
  refine Json.within_bind ?_
  rw [readFields, Json.nameOf_escape, Outcome.ok_bind, if_neg (by decide), if_neg (by decide),
    if_neg (by decide), if_pos rfl]
  show (treesOfJson left _ >>= _) = _
  rw [treesOfJson_toJson h hwf]
  exact Json.within_bind_ok rfl

/-- A consistent table of well-formed trees is read back as it was. -/
theorem ofJson_toJson (h : d.FitsWord) (hwf : ∀ t ∈ d.trees.values, t.WellFormed)
    (hvalid : d.validate = .ok ()) (left : Nat) :
    ofJson left d.toJson = within left d.toJson.nesting d := by
  have hassemble : assemble ⟨some d.selector, some d.known, some d.assigned, some d.trees⟩ =
      .ok d := by
    dsimp only [assemble]
    rw [hvalid]
  rw [toJson_eq, ofJson, Json.nesting]
  refine Json.descend_bind fun l => ?_
  rw [readFields_fieldsToJson h hwf]
  exact Json.within_bind_ok hassemble

end Dispatch

namespace Artifact

/-- What an artifact has to be so that it can be read back. -/
structure Storable (a : Artifact) : Prop where
  /-- A single tree is well formed. -/
  resolved : ∀ t, a = .resolved t → t.WellFormed
  /-- A table is consistent, its groups are numbers of 64 bits, and its trees are well formed. -/
  dispatch : ∀ d, a = .dispatch d →
    d.validate = .ok () ∧ d.FitsWord ∧ ∀ t ∈ d.trees.values, t.WellFormed

theorem written_toJson (a : Artifact) : a.toJson.Written := by
  cases a with
  | resolved t => exact t.written_toJson.variant "Resolved"
  | dispatch d => exact d.written_toJson.variant "Dispatch"

theorem ofJson_toJson {a : Artifact} (h : a.Storable) (left : Nat) :
    ofJson left a.toJson = within left a.toJson.nesting a := by
  have hvariant : ∀ {name : String} {v : Json},
      (∀ l, ofVariant l name v = within l v.nesting a) →
      ofJson left (.variant name v) = within left (Json.variant name v).nesting a := by
    intro name v hv
    rw [Json.nesting_variant, Json.variant, ofJson]
    exact Json.variant_bind hv
  cases a with
  | resolved t =>
    refine hvariant fun l => ?_
    show Artifact.resolved <$> Node.ofJson l t.toJson = _
    rw [Node.ofJson_toJson (h.resolved t rfl), Json.map_within]
  | dispatch d =>
    obtain ⟨hvalid, hword, hwf⟩ := h.dispatch d rfl
    refine hvariant fun l => ?_
    show Artifact.dispatch <$> Dispatch.ofJson l d.toJson = _
    rw [Dispatch.ofJson_toJson hword hwf hvalid, Json.map_within]

/-- An artifact is read from its text as it was, or refused where its brackets are nested too
deeply. -/
theorem ofText_toText_of_storable {a : Artifact} (h : a.Storable) :
    ofText a.toText = if Json.textNesting a.toText ≤ Json.maxNesting then .ok a
      else .error .malformed :=
  Json.decodeText_render a.written_toJson (ofJson_toJson h Json.maxNesting)

end Artifact

/-! ### What a compilation makes -/

theorem Grouping.fitsWord_tableOf {selector : String} {known : KnownVersions} {trees : List Node}
    (h : ∀ t ∈ trees, t.WellFormed) (hlen : trees.length = known.toList.length)
    (hcount : (distinct trees).length ≤ UInt64.size) :
    (tableOf selector known trees).FitsWord := by
  constructor
  · rw [entries_assigned_tableOf hlen]
    refine List.forall_mem_map.2 fun row hrow => ?_
    obtain ⟨hlt, -⟩ := getElem_groupOf h (List.of_mem_zip hrow).2
    exact Nat.lt_of_lt_of_le hlt hcount
  · intro row hrow
    have hkey : row.1 ∈ (tableOf selector known trees).trees.keys := List.mem_map_of_mem hrow
    obtain ⟨i, hi, heq⟩ := (mem_keys_trees_tableOf hlen).1 hkey
    rw [heq]
    exact Nat.lt_of_lt_of_le hi hcount

namespace Compiler

variable {c : Compiler} {arrival : List Nat} {bound : Nat} {known : KnownVersions} {tree : Node}

/-- The artifact of well-formed trees can be stored. -/
theorem storable_artifactOf {selector : String} {trees : List Node}
    (hwf : ∀ t ∈ trees, t.WellFormed) (hlen : trees.length = known.toList.length)
    (hcount : (artifactOf selector known trees).groupCount ≤ UInt64.size) :
    (artifactOf selector known trees).Storable := by
  rw [groupCount_artifactOf hlen] at hcount
  have hdistinct : ∀ t ∈ Grouping.distinct trees, t.WellFormed := fun t ht =>
    hwf t (Distinct.mem_of_mem_ofList ht)
  constructor
  · intro t ht
    unfold artifactOf at ht
    split at ht
    · rename_i shared hshared
      cases ht
      exact hdistinct t (by simp [hshared])
    · cases ht
  · intro d hd
    rw [eq_tableOf_of_artifactOf_eq hd, Grouping.values_trees_tableOf hlen]
    exact ⟨Grouping.validate_tableOf hwf hlen, Grouping.fitsWord_tableOf hwf hlen hcount, hdistinct⟩

/-- Whatever a compilation makes can be stored: a table passes the check, and unless its text is
nested more than 127 deep, the artifact is read from it exactly as it was. A group is a machine
word, so there are no more groups than words. -/
theorem compile_storable {selector : String} {a : Artifact} (hkeeps : c.registry.KeepsWellFormed)
    (htree : tree.WellFormed)
    (h : (c.compileArrivingWithin arrival bound selector known tree).result = .ok a)
    (hcount : a.groupCount ≤ UInt64.size) :
    (∀ d, a = .dispatch d → d.validate = .ok ()) ∧
    (Json.textNesting a.toText ≤ 127 → Artifact.ofText a.toText = .ok a) := by
  obtain ⟨-, trees, houtcomes, rfl⟩ := outcomes_of_compileArrivingWithin h
  have hwf := wellFormed_of_outcomes hkeeps htree houtcomes
  have hstorable := storable_artifactOf hwf (length_of_outcomes houtcomes) hcount
  refine ⟨fun d hd => (hstorable.dispatch d hd).1, fun hnesting => ?_⟩
  rw [Artifact.ofText_toText_of_storable hstorable]
  exact if_pos hnesting

/-- The table of the growing sample: nothing for the first version, and one text for the others. -/
def growingTable : Dispatch :=
  Grouping.tableOf "api" Sample.threeVersions
    [.sequence [], .sequence [.str "y"], .sequence [.str "y"]]

theorem compile_storable_growing :
    (compile ⟨(Standard.registry none).value, {}⟩ "api" Sample.threeVersions
      Sample.growing).result = .ok (.dispatch growingTable) ∧
    growingTable.validate = .ok () ∧
    Artifact.ofText (Artifact.toText (.dispatch growingTable)) = .ok (.dispatch growingTable) := by
  have hcompile : (compile ⟨(Standard.registry none).value, {}⟩ "api" Sample.threeVersions
      Sample.growing).result = .ok (.dispatch growingTable) := rfl
  obtain ⟨hvalid, htext⟩ := compile_storable (Standard.inward_registry none).keepsWellFormed
    Sample.wellFormed_growing hcompile (by decide)
  refine ⟨hcompile, hvalid _ rfl, htext ?_⟩
  rw [Artifact.toText, (Artifact.written_toJson _).textNesting_render]
  decide

end Compiler

end VersionedTree
