import VersionedTree.Proofs.Faults

/-!
# Tables up to the numbers of groups

A compilation numbers groups from zero, in the order in which they first appear along the versions,
and makes no table for one tree alone. The check of a table asks for neither: it looks at which
versions share a group, and at which trees the groups have. What is read from storage is therefore
what a compilation could have made, up to the numbers of the groups and the order in which the trees
are listed, and it may be a table of a single tree.

## What is proved

* `Dispatch.fits_of_ofJson` — the groups of a table that is read are numbers of 64 bits, and its
  trees are well formed.
* `Dispatch.Renumbers.consistent` — other numbers for the groups keep a table consistent.
* `Dispatch.Consistent.renumbers_tableOf` — a consistent table is the table of its trees with other
  numbers.
* `Dispatch.read_upToNumbering` — which tables can be read, and which of them a compilation could
  have made.
* `Dispatch.read_not_asCompiled` — three tables that can be read and that no compilation makes.
-/

namespace VersionedTree

/-! ### What can be read -/

namespace Json

/-- A number that is read fits in 64 bits. -/
theorem lt_of_natural? {bound n : Nat} {cs : List Char} (h : natural? bound cs = some n) :
    n < bound := by
  rw [natural?] at h
  split_ifs at h with hfits
  cases h
  exact of_decide_eq_true (Bool.and_eq_true_iff.1 hfits).2

theorem lt_of_asNatural {v : Json} {n : Nat} (h : v.asNatural = .ok n) : n < UInt64.size := by
  cases v with
  | number literal =>
    rw [asNatural] at h
    split at h
    · cases h
      exact lt_of_natural? ‹_›
    · cases h
  | _ => cases h

/-- The entries that are read have keys and values that were read. -/
theorem forall_of_asEntries {κ ν : Type} {left : Nat} {key : List Char → Except DecodeError κ}
    {value : Nat → Json → Except DecodeError ν} {v : Json} {rows : List (κ × ν)}
    (h : v.asEntries left key value = .ok rows) :
    ∀ row ∈ rows, (∃ raw, key raw = .ok row.1) ∧ ∃ l w, value l w = .ok row.2 := by
  cases v with
  | object fields =>
    obtain ⟨l, -, h⟩ := Outcome.bind_eq_ok_iff.1 h
    intro row hrow
    obtain ⟨field, -, hfield⟩ := Outcome.exists_of_mem_mapM h hrow
    obtain ⟨k, hk, hfield⟩ := Outcome.bind_eq_ok_iff.1 hfield
    obtain ⟨w, hw, hfield⟩ := Outcome.bind_eq_ok_iff.1 hfield
    cases hfield
    exact ⟨⟨_, hk⟩, _, _, hw⟩
  | _ => cases h

end Json

namespace Dispatch

/-- The groups among the parts of a table are numbers of 64 bits, and the trees are well formed. -/
structure Parts.Fits (parts : Parts) : Prop where
  /-- The groups of the versions are numbers of 64 bits. -/
  assigned : ∀ t, parts.assigned = some t → ∀ row ∈ t.entries, row.2.index < UInt64.size
  /-- So are the groups with a tree, and their trees are well formed. -/
  trees : ∀ t, parts.trees = some t → ∀ row ∈ t.entries,
    row.1.index < UInt64.size ∧ row.2.WellFormed

/-- Parts of which none has been read fit. -/
theorem Parts.fits_empty : Parts.Fits {} := ⟨nofun, nofun⟩

theorem fits_of_assignedOfJson {left : Nat} {v : Json} {t : Table Version GroupId}
    (h : assignedOfJson left v = .ok t) : ∀ row ∈ t.entries, row.2.index < UInt64.size := by
  obtain ⟨rows, hrows, h⟩ := Outcome.bind_eq_ok_iff.1 h
  cases h
  have hfits : ∀ row ∈ rows, True ∧ row.2.index < UInt64.size := by
    intro row hrow
    obtain ⟨-, _, w, hw⟩ := Json.forall_of_asEntries hrows row hrow
    obtain ⟨n, hn, hgroup⟩ := Outcome.map_eq_ok_iff.1 hw
    rw [← hgroup]
    exact ⟨trivial, Json.lt_of_asNatural hn⟩
  have hentries := Table.forall_ofList (P := fun _ => True)
    (Q := fun g : GroupId => g.index < UInt64.size) hfits
  exact fun row hrow => (hentries row hrow).2

theorem fits_of_treesOfJson {left : Nat} {v : Json} {t : Table GroupId Node}
    (h : treesOfJson left v = .ok t) :
    ∀ row ∈ t.entries, row.1.index < UInt64.size ∧ row.2.WellFormed := by
  obtain ⟨rows, hrows, h⟩ := Outcome.bind_eq_ok_iff.1 h
  cases h
  refine Table.forall_ofList (P := fun g : GroupId => g.index < UInt64.size) fun row hrow => ?_
  obtain ⟨⟨raw, hraw⟩, l, w, hw⟩ := Json.forall_of_asEntries hrows row hrow
  refine ⟨?_, (Node.fits_of_ofJson hw).1⟩
  rw [groupOfName] at hraw
  split at hraw
  · rename_i n hn
    rw [← Except.ok.inj hraw]
    exact Json.lt_of_natural? hn
  · cases hraw

/-- Fields that are read keep the parts fitting. -/
theorem fits_of_readFields {left : Nat} {fields : List (List Char × Json)} {parts parts' : Parts}
    (hparts : parts.Fits) (h : readFields left parts fields = .ok parts') : parts'.Fits := by
  induction fields generalizing parts with
  | nil =>
    cases h
    exact hparts
  | cons field rest ih =>
    obtain ⟨raw, v⟩ := field
    obtain ⟨name, -, h⟩ := Outcome.bind_eq_ok_iff.1 h
    split_ifs at h
    · obtain ⟨_, -, h⟩ := Outcome.bind_eq_ok_iff.1 h
      obtain ⟨_, -, h⟩ := Outcome.bind_eq_ok_iff.1 h
      refine ih ?_ h
      exact ⟨hparts.assigned, hparts.trees⟩
    · obtain ⟨_, -, h⟩ := Outcome.bind_eq_ok_iff.1 h
      obtain ⟨_, -, h⟩ := Outcome.bind_eq_ok_iff.1 h
      refine ih ?_ h
      exact ⟨hparts.assigned, hparts.trees⟩
    · obtain ⟨_, -, h⟩ := Outcome.bind_eq_ok_iff.1 h
      obtain ⟨t, ht, h⟩ := Outcome.bind_eq_ok_iff.1 h
      refine ih ?_ h
      exact ⟨fun _ hmem => Option.some.inj hmem ▸ fits_of_assignedOfJson ht, hparts.trees⟩
    · obtain ⟨_, -, h⟩ := Outcome.bind_eq_ok_iff.1 h
      obtain ⟨t, ht, h⟩ := Outcome.bind_eq_ok_iff.1 h
      refine ih ?_ h
      exact ⟨hparts.assigned, fun _ hmem => Option.some.inj hmem ▸ fits_of_treesOfJson ht⟩
    · obtain ⟨_, -, h⟩ := Outcome.bind_eq_ok_iff.1 h
      exact ih hparts h

/-- So do the items of an array. -/
theorem fits_of_readItems {left : Nat} {items : List Json} {parts : Parts}
    (h : readItems left items = .ok parts) : parts.Fits := by
  match items with
  | [] =>
    cases h
    exact Parts.fits_empty
  | [_] =>
    obtain ⟨_, -, h⟩ := Outcome.bind_eq_ok_iff.1 h
    cases h
  | [_, _] =>
    obtain ⟨_, -, h⟩ := Outcome.bind_eq_ok_iff.1 h
    obtain ⟨_, -, h⟩ := Outcome.bind_eq_ok_iff.1 h
    cases h
  | [_, _, _] =>
    obtain ⟨_, -, h⟩ := Outcome.bind_eq_ok_iff.1 h
    obtain ⟨_, -, h⟩ := Outcome.bind_eq_ok_iff.1 h
    obtain ⟨_, -, h⟩ := Outcome.bind_eq_ok_iff.1 h
    cases h
  | _ :: _ :: _ :: _ :: _ =>
    obtain ⟨_, -, h⟩ := Outcome.bind_eq_ok_iff.1 h
    obtain ⟨_, -, h⟩ := Outcome.bind_eq_ok_iff.1 h
    obtain ⟨_, hassigned, h⟩ := Outcome.bind_eq_ok_iff.1 h
    obtain ⟨_, htrees, h⟩ := Outcome.bind_eq_ok_iff.1 h
    obtain ⟨-, rfl⟩ := Json.finish_eq_ok_iff.1 h
    exact ⟨fun _ hmem => Option.some.inj hmem ▸ fits_of_assignedOfJson hassigned,
      fun _ hmem => Option.some.inj hmem ▸ fits_of_treesOfJson htrees⟩

variable {d e : Dispatch}

/-- A table is made of the parts that were read. -/
theorem fits_of_assemble {parts : Parts} (hparts : parts.Fits) (h : assemble parts = .ok d) :
    d.FitsWord ∧ ∀ t ∈ d.trees.values, t.WellFormed := by
  rcases parts with ⟨_ | selector, _ | known, _ | assigned, _ | trees⟩ <;> try cases h
  rw [assemble] at h
  split at h
  · cases h
    have hassigned := hparts.assigned _ rfl
    have htrees := hparts.trees _ rfl
    exact ⟨⟨hassigned, fun row hrow => (htrees row hrow).1⟩,
      List.forall_mem_map.2 fun row hrow => (htrees row hrow).2⟩
  · cases h

/-- The groups of a table that is read are numbers of 64 bits, and its trees are well formed. -/
theorem fits_of_ofJson {left : Nat} {v : Json} (h : ofJson left v = .ok d) :
    d.FitsWord ∧ ∀ t ∈ d.trees.values, t.WellFormed := by
  cases v with
  | object fields =>
    obtain ⟨_, -, h⟩ := Outcome.bind_eq_ok_iff.1 h
    obtain ⟨_, hparts, h⟩ := Outcome.bind_eq_ok_iff.1 h
    exact fits_of_assemble (fits_of_readFields Parts.fits_empty hparts) h
  | array items =>
    obtain ⟨_, -, h⟩ := Outcome.bind_eq_ok_iff.1 h
    obtain ⟨_, hparts, h⟩ := Outcome.bind_eq_ok_iff.1 h
    exact fits_of_assemble (fits_of_readItems hparts) h
  | _ => cases h

/-- A table can be read: some JSON value stands for it. -/
def Readable (d : Dispatch) : Prop := ∃ left v, ofJson left v = .ok d

/-- The tables that can be read are the consistent ones whose groups are numbers of 64 bits and
whose trees are well formed. -/
theorem readable_iff : d.Readable ↔
    d.FitsWord ∧ (∀ t ∈ d.trees.values, t.WellFormed) ∧ d.Consistent := by
  constructor
  · rintro ⟨left, v, h⟩
    obtain ⟨hword, hwf⟩ := fits_of_ofJson h
    exact ⟨hword, hwf, (validate_eq_ok_iff_consistent hwf).1 (validate_of_ofJson h)⟩
  · rintro ⟨hword, hwf, hconsistent⟩
    refine ⟨d.toJson.nesting, d.toJson, ?_⟩
    rw [ofJson_toJson hword hwf ((validate_eq_ok_iff_consistent hwf).2 hconsistent)]
    exact Json.within_of_le (Nat.le_refl _)

/-- A table in the text of an artifact can be read. -/
theorem readable_of_ofText {text : String} (h : Artifact.ofText text = .ok (.dispatch d)) :
    d.Readable := by
  obtain ⟨a, ha, h⟩ := Outcome.bind_eq_ok_iff.1 h
  split_ifs at h
  cases h
  exact Artifact.exists_of_ofJson ha

/-! ### Other numbers for the groups -/

/-- A table is another one whose groups have got other numbers, and whose trees may be listed in
another order. -/
structure Renumbers (d e : Dispatch) (ρ : GroupId → GroupId) : Prop where
  selector : d.selector = e.selector
  known : d.known = e.known
  /-- Different groups get different numbers. -/
  injective : ∀ g ∈ e.trees.keys, ∀ h ∈ e.trees.keys, ρ g = ρ h → g = h
  /-- A version stays in its group. -/
  assigned : d.assigned.entries = e.assigned.entries.map fun row => (row.1, ρ row.2)
  /-- A group keeps its tree. -/
  trees : d.trees.entries.Perm (e.trees.entries.map fun row => (ρ row.1, row.2))

namespace Renumbers

variable {ρ : GroupId → GroupId}

theorem values_assigned (h : d.Renumbers e ρ) :
    d.assigned.values = e.assigned.values.map ρ := by
  rw [Table.values, Table.values, h.assigned, List.map_map, List.map_map]
  rfl

theorem keys_trees (h : d.Renumbers e ρ) : d.trees.keys.Perm (e.trees.keys.map ρ) := by
  have hkeys := h.trees.map Prod.fst
  rw [List.map_map] at hkeys
  rw [Table.keys, Table.keys, List.map_map]
  exact hkeys

theorem values_trees (h : d.Renumbers e ρ) : d.trees.values.Perm e.trees.values := by
  have hvalues := h.trees.map Prod.snd
  rwa [List.map_map] at hvalues

theorem groupCount_eq (h : d.Renumbers e ρ) : d.groupCount = e.groupCount := by
  have hlen := h.trees.length_eq
  rwa [List.length_map] at hlen

/-- Only the numbers of groups that are there matter. -/
theorem congr {σ : GroupId → GroupId} (h : d.Renumbers e ρ) (he : e.Consistent)
    (hnumbers : ∀ g ∈ e.trees.keys, ρ g = σ g) : d.Renumbers e σ where
  selector := h.selector
  known := h.known
  injective g hg g' hg' heq :=
    h.injective g hg g' hg' (by rw [hnumbers g hg, hnumbers g' hg', heq])
  assigned := by
    rw [h.assigned]
    refine List.map_congr_left fun row hrow => ?_
    rw [hnumbers row.2 ((he.groups row.2).1 (List.mem_map_of_mem hrow))]
  trees := by
    have hrows : e.trees.entries.map (fun row => (ρ row.1, row.2)) =
        e.trees.entries.map fun row => (σ row.1, row.2) := by
      refine List.map_congr_left fun row hrow => ?_
      rw [hnumbers row.1 (List.mem_map_of_mem hrow)]
    exact hrows ▸ h.trees

/-- Other numbers for the groups keep a table consistent. -/
theorem consistent (h : d.Renumbers e ρ) (he : e.Consistent) : d.Consistent := by
  constructor
  case keys_assigned =>
    rw [h.known, ← he.keys_assigned, Table.keys, h.assigned, List.map_map]
    rfl
  case groups =>
    intro g
    rw [h.values_assigned, h.keys_trees.mem_iff, List.mem_map, List.mem_map]
    exact exists_congr fun g' => and_congr_left fun _ => he.groups g'
  case unequal =>
    exact (h.values_trees.pairwise_iff fun hne => hne.symm).2 he.unequal

end Renumbers

/-! ### Numbers by first appearance -/

/-- The groups in use, in the order in which they first appear along the versions. -/
def appearing (d : Dispatch) : List GroupId := Distinct.ofList d.assigned.values

/-- A table has the shape that a compilation gives: two trees at least, and groups that are numbered
from zero in the order of first appearance. -/
structure AsCompiled (d : Dispatch) : Prop where
  /-- There are two groups at least. -/
  two_le_groupCount : 2 ≤ d.groupCount
  /-- The groups are numbered from zero, in the order of first appearance. -/
  appearing_eq : d.appearing = (List.range d.groupCount).map GroupId.mk

/-- The tree of a group. -/
def treeOf (d : Dispatch) (g : GroupId) : Node := (d.tree? g).getD .nil

/-- The trees of the versions. -/
def treesByVersion (d : Dispatch) : List Node := d.assigned.values.map d.treeOf

/-- The number `i` becomes the group that appears as the `i`-th. -/
def numberOf (d : Dispatch) (g : GroupId) : GroupId := d.appearing[g.index]?.getD g

theorem treeOf_eq {row : GroupId × Node} (h : row ∈ d.trees.entries) : d.treeOf row.1 = row.2 := by
  rw [treeOf, tree?, Table.get?_eq_some_iff.2 h, Option.getD_some]

theorem mem_appearing {g : GroupId} : g ∈ d.appearing ↔ g ∈ d.assigned.values :=
  Distinct.mem_ofList

theorem nodup_appearing (d : Dispatch) : d.appearing.Nodup := Distinct.nodup_ofList _

/-- Each group stands with its tree. -/
theorem mem_entries_trees_iff {g : GroupId} {t : Node} :
    (g, t) ∈ d.trees.entries ↔ g ∈ d.trees.keys ∧ d.treeOf g = t := by
  constructor
  · intro h
    exact ⟨List.mem_map_of_mem h, treeOf_eq h⟩
  · rintro ⟨hg, rfl⟩
    obtain ⟨row, hrow, rfl⟩ := List.mem_map.1 hg
    rwa [treeOf_eq hrow]

namespace Consistent

/-- A group that is in use has a well-formed tree. -/
theorem wellFormed_treeOf (h : d.Consistent) (hwf : ∀ t ∈ d.trees.values, t.WellFormed)
    {g : GroupId} (hg : g ∈ d.assigned.values) : (d.treeOf g).WellFormed := by
  obtain ⟨row, hrow, rfl⟩ := List.mem_map.1 ((h.groups g).1 hg)
  rw [treeOf_eq hrow]
  exact hwf row.2 (List.mem_map_of_mem hrow)

/-- Trees of different groups are unequal. -/
theorem treeOf_beq (h : d.Consistent) (hwf : ∀ t ∈ d.trees.values, t.WellFormed) {g g' : GroupId}
    (hg : g ∈ d.assigned.values) (hg' : g' ∈ d.assigned.values) :
    (d.treeOf g == d.treeOf g') = (g == g') := by
  by_cases heq : g = g'
  · subst heq
    rw [Node.beq_refl (h.wellFormed_treeOf hwf hg), beq_self_eq_true]
  · obtain ⟨row, hrow, rfl⟩ := List.mem_map.1 ((h.groups g).1 hg)
    obtain ⟨row', hrow', rfl⟩ := List.mem_map.1 ((h.groups g').1 hg')
    have hunequal : d.trees.entries.Pairwise fun row row' =>
        (row.2 == row'.2) = false ∧ (row'.2 == row.2) = false := List.pairwise_map.1 h.unequal
    have hsymm : Std.Symm fun row row' : GroupId × Node =>
        (row.2 == row'.2) = false ∧ (row'.2 == row.2) = false := ⟨fun _ _ => And.symm⟩
    have hne : row ≠ row' := fun hrows => heq (congrArg Prod.fst hrows)
    rw [treeOf_eq hrow, treeOf_eq hrow', beq_false_of_ne heq]
    exact (hunequal.forall hrow hrow' hne).1

/-- The trees that differ are those of the groups, in the order of first appearance. -/
theorem distinct_treesByVersion (h : d.Consistent) (hwf : ∀ t ∈ d.trees.values, t.WellFormed) :
    Grouping.distinct d.treesByVersion = d.appearing.map d.treeOf :=
  Distinct.ofList_map fun _ hg _ hg' => h.treeOf_beq hwf hg hg'

theorem length_treesByVersion (h : d.Consistent) :
    d.treesByVersion.length = d.known.toList.length := by
  rw [← h.keys_assigned, treesByVersion, List.length_map, Table.values, Table.keys,
    List.length_map, List.length_map]

theorem wellFormed_treesByVersion (h : d.Consistent)
    (hwf : ∀ t ∈ d.trees.values, t.WellFormed) : ∀ t ∈ d.treesByVersion, t.WellFormed :=
  List.forall_mem_map.2 fun _ hg => h.wellFormed_treeOf hwf hg

/-- The number of the tree of a group becomes the group. -/
theorem numberOf_groupOf (h : d.Consistent) (hwf : ∀ t ∈ d.trees.values, t.WellFormed)
    {g : GroupId} (hg : g ∈ d.assigned.values) :
    d.numberOf (Grouping.groupOf d.treesByVersion (d.treeOf g)) = g := by
  obtain ⟨hlt, hbeq⟩ := Grouping.getElem_groupOf (h.wellFormed_treesByVersion hwf)
    (List.mem_map_of_mem (f := d.treeOf) hg)
  simp only [h.distinct_treesByVersion hwf, List.length_map, List.getElem_map] at hlt hbeq
  have hmem : d.appearing[(Grouping.groupOf d.treesByVersion (d.treeOf g)).index] ∈
      d.assigned.values := mem_appearing.1 (List.getElem_mem hlt)
  rw [h.treeOf_beq hwf hg hmem, beq_iff_eq] at hbeq
  rw [numberOf, List.getElem?_eq_getElem hlt, Option.getD_some, ← hbeq]

/-- A consistent table is the table of its trees with other numbers. -/
theorem renumbers_tableOf (h : d.Consistent) (hwf : ∀ t ∈ d.trees.values, t.WellFormed) :
    d.Renumbers (Grouping.tableOf d.selector d.known d.treesByVersion) d.numberOf := by
  have hlen := h.length_treesByVersion
  have hdistinct := h.distinct_treesByVersion hwf
  have hnumber : ∀ i, ∀ hi : i < d.appearing.length, d.numberOf ⟨i⟩ = d.appearing[i] := by
    intro i hi
    rw [numberOf, List.getElem?_eq_getElem hi, Option.getD_some]
  constructor
  case selector => rfl
  case known => rfl
  case injective =>
    intro g hg g' hg' heq
    obtain ⟨i, hi, rfl⟩ := (Grouping.mem_keys_trees_tableOf hlen).1 hg
    obtain ⟨j, hj, rfl⟩ := (Grouping.mem_keys_trees_tableOf hlen).1 hg'
    rw [hdistinct, List.length_map] at hi hj
    rw [hnumber i hi, hnumber j hj] at heq
    exact congrArg GroupId.mk ((d.nodup_appearing.getElem_inj_iff).1 heq)
  case assigned =>
    have hrows : d.known.toList.zip d.treesByVersion =
        d.assigned.entries.map fun row => (row.1, d.treeOf row.2) := by
      rw [← h.keys_assigned, treesByVersion, Table.keys, Table.values, List.map_map,
        List.zip_map']
      rfl
    rw [Grouping.entries_assigned_tableOf hlen, hrows, List.map_map, List.map_map]
    refine (List.map_id _).symm.trans (List.map_congr_left fun row hrow => ?_)
    exact Prod.ext rfl (h.numberOf_groupOf hwf (List.mem_map_of_mem hrow)).symm
  case trees =>
    have hentries : (Grouping.tableOf d.selector d.known d.treesByVersion).trees.entries.map
        (fun row => (d.numberOf row.1, row.2)) = d.appearing.map fun g => (g, d.treeOf g) := by
      rw [Grouping.entries_trees_tableOf hlen, hdistinct, List.map_map]
      refine List.ext_getElem (by simp) fun i hi hi' => ?_
      rw [List.length_map] at hi'
      simp [hnumber i hi']
    rw [hentries]
    refine (List.perm_ext_iff_of_nodup (.of_map _ d.trees.nodup_keys) ?_).2 fun row => ?_
    · exact d.nodup_appearing.map fun g g' heq => congrArg Prod.fst heq
    · obtain ⟨g, t⟩ := row
      rw [mem_entries_trees_iff, ← h.groups, ← mem_appearing, List.mem_map]
      simp

end Consistent

section Table

variable {selector : String} {known : KnownVersions} {trees : List Node}

theorem wellFormed_values_tableOf (h : ∀ t ∈ trees, t.WellFormed)
    (hlen : trees.length = known.toList.length) :
    ∀ t ∈ (Grouping.tableOf selector known trees).trees.values, t.WellFormed := by
  rw [Grouping.values_trees_tableOf hlen]
  exact fun t ht => h t (Distinct.mem_of_mem_ofList ht)

theorem consistent_tableOf (h : ∀ t ∈ trees, t.WellFormed)
    (hlen : trees.length = known.toList.length) :
    (Grouping.tableOf selector known trees).Consistent :=
  (validate_eq_ok_iff_consistent (wellFormed_values_tableOf h hlen)).1
    (Grouping.validate_tableOf h hlen)

/-- The table of some trees numbers its groups from zero, in the order of first appearance. -/
theorem appearing_tableOf (h : ∀ t ∈ trees, t.WellFormed)
    (hlen : trees.length = known.toList.length) :
    (Grouping.tableOf selector known trees).appearing =
      (List.range (Grouping.tableOf selector known trees).groupCount).map GroupId.mk := by
  have hvalues : (Grouping.tableOf selector known trees).assigned.values =
      trees.map (Grouping.groupOf trees) := by
    rw [Table.values, Grouping.entries_assigned_tableOf hlen, List.map_map,
      ← Grouping.map_snd_rows hlen, List.map_map, Grouping.map_snd_rows hlen]
    rfl
  have hbeq : ∀ s ∈ trees, ∀ t ∈ trees,
      (Grouping.groupOf trees s == Grouping.groupOf trees t) = (s == t) := by
    intro s hs t ht
    rw [Bool.eq_iff_iff, beq_iff_eq, Grouping.groupOf_eq_iff h hs ht]
  have happearing : (Grouping.tableOf selector known trees).appearing =
      (Grouping.distinct trees).map (Grouping.groupOf trees) := by
    rw [appearing, hvalues]
    exact Distinct.ofList_map hbeq
  rw [happearing, Grouping.groupCount_tableOf hlen]
  refine List.ext_getElem (by simp) fun i hi _ => ?_
  rw [List.length_map] at hi
  rw [List.getElem_map, Grouping.groupOf_getElem h hi, List.getElem_map, List.getElem_range]

end Table

/-- Of the tables that can be read, those that a compilation could have made are those of two trees
at least that are the table of their trees with the same numbers. -/
theorem asCompiled_iff (h : d.Readable) : d.AsCompiled ↔ 2 ≤ d.groupCount ∧
    ∃ trees, (∀ t ∈ trees, t.WellFormed) ∧ trees.length = d.known.toList.length ∧
      d.Renumbers (Grouping.tableOf d.selector d.known trees) id := by
  obtain ⟨-, hwf, hconsistent⟩ := readable_iff.1 h
  have hlen := hconsistent.length_treesByVersion
  have htrees := hconsistent.wellFormed_treesByVersion hwf
  constructor
  · rintro ⟨htwo, happearing⟩
    refine ⟨htwo, d.treesByVersion, htrees, hlen, ?_⟩
    have hrenumbers := hconsistent.renumbers_tableOf hwf
    refine hrenumbers.congr (consistent_tableOf htrees hlen) fun g hg => ?_
    obtain ⟨i, hi, rfl⟩ := (Grouping.mem_keys_trees_tableOf hlen).1 hg
    rw [← Grouping.groupCount_tableOf hlen, ← hrenumbers.groupCount_eq] at hi
    rw [numberOf, happearing, List.getElem?_map, List.getElem?_range hi]
    rfl
  · rintro ⟨htwo, trees, hwf', hlen', hrenumbers⟩
    refine ⟨htwo, ?_⟩
    rw [hrenumbers.groupCount_eq, ← appearing_tableOf hwf' hlen', appearing, appearing,
      hrenumbers.values_assigned, List.map_id]

/-- A table that a compilation makes has the shape. -/
theorem asCompiled_of_compile {c : Compiler} {arrival : List Nat} {bound : Nat} {selector : String}
    {known : KnownVersions} {tree : Node} (hkeeps : c.registry.KeepsWellFormed)
    (htree : tree.WellFormed)
    (h : (c.compileArrivingWithin arrival bound selector known tree).result = .ok (.dispatch d)) :
    d.AsCompiled := by
  obtain ⟨hne, trees, houtcomes, ha⟩ := Compiler.outcomes_of_compileArrivingWithin h
  have hwf := Compiler.wellFormed_of_outcomes hkeeps htree houtcomes
  have hlen := Compiler.length_of_outcomes houtcomes
  obtain rfl := Compiler.eq_tableOf_of_artifactOf_eq ha.symm
  refine ⟨?_, appearing_tableOf hwf hlen⟩
  rw [Grouping.groupCount_tableOf hlen]
  unfold Compiler.artifactOf at ha
  split at ha
  · cases ha
  · rename_i hsingle
    match hd : Grouping.distinct trees with
    | [] =>
      obtain ⟨t, ht⟩ : ∃ t, t ∈ trees := List.exists_mem_of_ne_nil trees fun hnil => by
        rw [hnil] at hlen
        exact hne (List.eq_nil_of_length_eq_zero hlen.symm)
      obtain ⟨u, hu, -⟩ := (Grouping.transversal_distinct hwf).cover t ht
      rw [hd] at hu
      cases hu
    | [u] => exact absurd hd (hsingle u)
    | _ :: _ :: _ => simp

/-- The tables that can be read are those of well-formed trees, with any numbers of 64 bits for the
groups and the trees in any order; so they have as many groups as there are different trees. A table
has the shape that a compilation gives if there are two groups at least, and the numbers are those
of the table of its trees. The tables that compilations make have it. -/
theorem read_upToNumbering (d : Dispatch) :
    (d.Readable ↔ d.FitsWord ∧
      ∃ trees ρ, (∀ t ∈ trees, t.WellFormed) ∧ trees.length = d.known.toList.length ∧
        d.Renumbers (Grouping.tableOf d.selector d.known trees) ρ) ∧
    (d.Readable → (d.AsCompiled ↔ 2 ≤ d.groupCount ∧
      ∃ trees, (∀ t ∈ trees, t.WellFormed) ∧ trees.length = d.known.toList.length ∧
        d.Renumbers (Grouping.tableOf d.selector d.known trees) id)) ∧
    (∀ text, Artifact.ofText text = .ok (.dispatch d) → d.Readable) ∧
    ∀ (c : Compiler) arrival bound selector known tree,
      c.registry.KeepsWellFormed → tree.WellFormed →
      (c.compileArrivingWithin arrival bound selector known tree).result = .ok (.dispatch d) →
        d.AsCompiled := by
  refine ⟨⟨fun h => ?_, ?_⟩, asCompiled_iff, fun text => readable_of_ofText,
    fun c arrival bound selector known tree => asCompiled_of_compile⟩
  · obtain ⟨hword, hwf, hconsistent⟩ := readable_iff.1 h
    exact ⟨hword, d.treesByVersion, d.numberOf, hconsistent.wellFormed_treesByVersion hwf,
      hconsistent.length_treesByVersion, hconsistent.renumbers_tableOf hwf⟩
  · rintro ⟨hword, trees, ρ, hwf, hlen, hrenumbers⟩
    refine readable_iff.2 ⟨hword, fun t ht => ?_,
      hrenumbers.consistent (consistent_tableOf hwf hlen)⟩
    exact wellFormed_values_tableOf hwf hlen t (hrenumbers.values_trees.mem_iff.1 ht)

/-- A table of one tree, in a group with the number 5. -/
def loneTable : Dispatch where
  selector := "api"
  known := ⟨[⟨"v0"⟩], by decide⟩
  assigned := ⟨[(⟨"v0"⟩, ⟨5⟩)], by decide⟩
  trees := ⟨[(⟨5⟩, .nil)], by decide⟩

/-- A table of two trees, in groups with any two numbers. -/
def pairTable (g h : GroupId) (hne : g ≠ h) : Dispatch where
  selector := "api"
  known := ⟨[⟨"v1"⟩, ⟨"v2"⟩], by decide⟩
  assigned := ⟨[(⟨"v1"⟩, g), (⟨"v2"⟩, h)],
    List.pairwise_pair.2 (show Version.mk "v1" ≠ ⟨"v2"⟩ by decide)⟩
  trees := ⟨[(g, .str "a"), (h, .str "b")], List.pairwise_pair.2 hne⟩

/-- A table whose numbers have a gap. -/
def gappedTable : Dispatch := pairTable ⟨0⟩ ⟨2⟩ (by decide)

/-- A table whose numbers are not in the order of first appearance. -/
def swappedTable : Dispatch := pairTable ⟨1⟩ ⟨0⟩ (by decide)

theorem wellFormed_loneTable : ∀ t ∈ loneTable.trees.values, t.WellFormed :=
  List.forall_mem_singleton.2 trivial

theorem wellFormed_pairTable (g h : GroupId) (hne : g ≠ h) :
    ∀ t ∈ (pairTable g h hne).trees.values, t.WellFormed :=
  List.forall_mem_cons.2 ⟨trivial, List.forall_mem_singleton.2 trivial⟩

/-- A consistent table that is not nested too deeply is read from its text. -/
theorem ofText_toText_of_validate (hvalid : d.validate = .ok ()) (hword : d.FitsWord)
    (hwf : ∀ t ∈ d.trees.values, t.WellFormed)
    (hnesting : (Artifact.toJson (.dispatch d)).nesting ≤ Json.maxNesting) :
    Artifact.ofText (Artifact.toText (.dispatch d)) = .ok (.dispatch d) := by
  refine (Artifact.ofText_toText_of_storable ⟨fun t ht => ?_, fun e he => ?_⟩).trans (if_pos ?_)
  · cases ht
  · obtain rfl := Artifact.dispatch.inj he
    exact ⟨hvalid, hword, hwf⟩
  · rw [Artifact.toText, (Artifact.written_toJson _).textNesting_render]
    exact hnesting

theorem read_upToNumbering_lone :
    Artifact.ofText (Artifact.toText (.dispatch loneTable)) = .ok (.dispatch loneTable) ∧
    loneTable.Readable ∧ ¬loneTable.AsCompiled ∧
    (∃ trees ρ, (∀ t ∈ trees, t.WellFormed) ∧ trees.length = loneTable.known.toList.length ∧
      loneTable.Renumbers (Grouping.tableOf loneTable.selector loneTable.known trees) ρ) ∧
    (Compiler.compile ⟨(Standard.registry none).value, {}⟩ "api" Sample.threeVersions
      Sample.growing).result = .ok (.dispatch Compiler.growingTable) ∧
    Compiler.growingTable.AsCompiled := by
  have htext := ofText_toText_of_validate (d := loneTable) rfl ⟨by decide, by decide⟩
    wellFormed_loneTable (by decide)
  have hcompile : (Compiler.compile ⟨(Standard.registry none).value, {}⟩ "api"
      Sample.threeVersions Sample.growing).result = .ok (.dispatch Compiler.growingTable) := rfl
  obtain ⟨hread, hshape, hreadable, -⟩ := read_upToNumbering loneTable
  obtain ⟨-, -, -, hcompiled⟩ := read_upToNumbering Compiler.growingTable
  have hlone := hreadable _ htext
  refine ⟨htext, hlone, fun h => ?_, (hread.1 hlone).2, hcompile, ?_⟩
  · exact absurd ((hshape hlone).1 h).1 (by decide)
  · exact hcompiled _ _ _ _ _ _ (Standard.inward_registry none).keepsWellFormed
      Sample.wellFormed_growing hcompile

/-- Tables that can be read and that no compilation makes: one of a single tree, one whose numbers
have a gap, and one whose numbers are not in the order of first appearance. -/
theorem read_not_asCompiled :
    (Artifact.ofText (Artifact.toText (.dispatch loneTable)) = .ok (.dispatch loneTable) ∧
      ¬loneTable.AsCompiled) ∧
    (Artifact.ofText (Artifact.toText (.dispatch gappedTable)) = .ok (.dispatch gappedTable) ∧
      ¬gappedTable.AsCompiled) ∧
    (Artifact.ofText (Artifact.toText (.dispatch swappedTable)) = .ok (.dispatch swappedTable) ∧
      ¬swappedTable.AsCompiled) := by
  refine ⟨⟨?_, fun h => ?_⟩, ⟨?_, fun h => ?_⟩, ?_, fun h => ?_⟩
  · exact ofText_toText_of_validate rfl ⟨by decide, by decide⟩ wellFormed_loneTable (by decide)
  · exact absurd h.two_le_groupCount (by decide)
  · exact ofText_toText_of_validate rfl ⟨by decide, by decide⟩ (wellFormed_pairTable _ _ _)
      (by decide)
  · exact absurd h.appearing_eq (by decide)
  · exact ofText_toText_of_validate rfl ⟨by decide, by decide⟩ (wellFormed_pairTable _ _ _)
      (by decide)
  · exact absurd h.appearing_eq (by decide)

end Dispatch

end VersionedTree
