import Mathlib.Data.List.Nodup
import VersionedTree.Compilation.Compile
import VersionedTree.Proofs.Insertion

/-!
# Versions grouped by their trees

What a table has to look like if the versions are grouped by their trees, said without the way in
which the table is filled, and that the table is such a one.

The trees that are met for the first time along the versions are one representative of every class
of equal trees. All lists of representatives are equally long, so their number is the number of
different trees.

## What is proved

* `Grouping.Transversal.length_eq` — all lists of representatives have the same length.
* `Grouping.distinct_eq_firstPlaces` — the trees of the groups are those at the places where no
  equal tree was met before.
* `Grouping.groupOf_eq_iff` — two trees have the same group exactly when they are equal.
* `Grouping.groupsByTree_tableOf` — the table groups versions by their trees.
-/

namespace VersionedTree.Grouping

/-- One representative of every class of equal trees. -/
structure Transversal (trees representatives : List Node) : Prop where
  /-- Representatives are among the trees. -/
  subset : ∀ u ∈ representatives, u ∈ trees
  /-- No two of them are equal. -/
  unequal : Distinct.Unequal representatives
  /-- Every tree is equal to one of them. -/
  cover : ∀ t ∈ trees, ∃ u ∈ representatives, (t == u) = true

/-- The places, in order, at which a tree stands that no tree before it is equal to. -/
def firstPlaces (trees : List Node) : List Nat :=
  (List.range trees.length).filter fun i =>
    trees[i]?.any fun t => !(trees.take i).any fun s => t == s

/-- The table groups the known versions by their trees, where `trees` lists the tree of each. -/
structure GroupsByTree (known : KnownVersions) (trees : List Node) (d : Dispatch) : Prop where
  /-- Two versions have the same group exactly when their trees are equal. -/
  same_group_iff : ∀ v s w t, (v, s) ∈ known.toList.zip trees → (w, t) ∈ known.toList.zip trees →
    (d.groupOf? v = d.groupOf? w ↔ (s == t) = true)
  /-- There are as many groups as different trees, however representatives are chosen. -/
  groupCount_eq : Transversal trees d.trees.values ∧
    ∀ representatives, Transversal trees representatives →
      d.groupCount = representatives.length
  /-- Groups are numbered from zero, and listed in that order. -/
  keys_trees : d.trees.keys = (List.range d.groupCount).map GroupId.mk
  /-- The tree of a group is the next one that no tree before it is equal to. -/
  values_trees : d.trees.values.map some = (firstPlaces trees).map fun i => trees[i]?
  /-- The group of a version has a tree that is equal to that of the version. -/
  tree_of_version : ∀ v t, (v, t) ∈ known.toList.zip trees →
    ∃ g u, d.groupOf? v = some g ∧ d.tree? g = some u ∧ (t == u) = true
  /-- Group number `i` is that of the version at the `i`-th place where no tree before it is equal,
  and has the tree of this version. -/
  first_of_group : ∀ i < d.groupCount, ∃ p v t, (firstPlaces trees)[i]? = some p ∧
    (known.toList.zip trees)[p]? = some (v, t) ∧ d.groupOf? v = some ⟨i⟩ ∧ d.tree? ⟨i⟩ = some t
  /-- Exactly the known versions have a group, and they are listed in the order of declaration. -/
  keys_assigned : d.assigned.keys = known.toList
  /-- The versions of a group are listed in the order of declaration. -/
  versionsIn_sublist : ∀ g, (d.versionsIn g).Sublist known.toList
  /-- Every group has a version. -/
  versionsIn_ne_nil : ∀ g ∈ d.trees.keys, d.versionsIn g ≠ []
  /-- Every known version is in one group, and in no other. -/
  existsUnique_group : ∀ v ∈ known.toList, ∃! g, g ∈ d.trees.keys ∧ v ∈ d.versionsIn g

/-! ### Representatives -/

theorem Transversal.length_le {trees a b : List Node} (h : ∀ t ∈ trees, t.WellFormed)
    (ha : Transversal trees a) (hb : Transversal trees b) : a.length ≤ b.length := by
  refine Node.length_le_of_match (R := fun x y => (x == y) = true)
    (fun x hx => hb.cover x (ha.subset x hx)) (ha.unequal.imp_of_mem ?_)
  intro x x' hx hx' hne y hy hxy hxy'
  have hwf := h x (ha.subset x hx)
  have hwf' := h x' (ha.subset x' hx')
  have hwfy := h y (hb.subset y hy)
  have heq := Node.beq_trans hwf hwfy hwf' hxy (Node.beq_symm hwf' hwfy hxy')
  rw [hne.1] at heq
  cases heq

/-- All lists of representatives have the same length. -/
theorem Transversal.length_eq {trees a b : List Node} (h : ∀ t ∈ trees, t.WellFormed)
    (ha : Transversal trees a) (hb : Transversal trees b) : a.length = b.length :=
  Nat.le_antisymm (ha.length_le h hb) (hb.length_le h ha)

variable {trees : List Node}

/-- The trees that stay are representatives. -/
theorem transversal_distinct (h : ∀ t ∈ trees, t.WellFormed) :
    Transversal trees (distinct trees) :=
  ⟨fun _ hu => Distinct.mem_of_mem_ofList hu, Distinct.unequal_ofList h,
    fun _ ht => Distinct.exists_mem_ofList h ht⟩

/-- A tree is equal to one that stays exactly when it is equal to one that was there. -/
theorem elem_distinct {t : Node} (h : ∀ s ∈ trees, s.WellFormed) (ht : t.WellFormed) :
    (distinct trees).elem t = trees.any fun s => t == s := by
  rw [Bool.eq_iff_iff, Distinct.elem_iff, List.any_eq_true]
  constructor
  · rintro ⟨m, hm, htm⟩
    exact ⟨m, Distinct.mem_of_mem_ofList hm, htm⟩
  · rintro ⟨s, hs, hts⟩
    obtain ⟨m, hm, hsm⟩ := Distinct.exists_mem_ofList h hs
    exact ⟨m, hm, Node.beq_trans ht (h s hs) (h m (Distinct.mem_of_mem_ofList hm)) hts hsm⟩

/-- One more tree at the end adds its place if no tree before it is equal to it. -/
theorem firstPlaces_append_singleton (trees : List Node) (t : Node) :
    firstPlaces (trees ++ [t]) =
      firstPlaces trees ++ if trees.any fun s => t == s then [] else [trees.length] := by
  unfold firstPlaces
  rw [List.length_append, List.length_singleton, List.range_succ, List.filter_append]
  congr 1
  · refine List.filter_congr fun i hi => ?_
    have hlt : i < trees.length := List.mem_range.1 hi
    rw [List.getElem?_append_left hlt, List.take_append_of_le_length (Nat.le_of_lt hlt)]
  · cases h : trees.any fun s => t == s <;> simp [h]

/-- The trees of the groups are those at the places where no equal tree was met before. -/
theorem distinct_eq_firstPlaces (h : ∀ t ∈ trees, t.WellFormed) :
    (distinct trees).map some = (firstPlaces trees).map fun i => trees[i]? := by
  induction trees using List.reverseRecOn with
  | nil => rfl
  | append_singleton trees t ih =>
    have hwf : ∀ s ∈ trees, s.WellFormed := fun s hs => h s (List.mem_append_left _ hs)
    have hplaces : ((firstPlaces trees).map fun i => (trees ++ [t])[i]?) =
        (firstPlaces trees).map fun i => trees[i]? := by
      refine List.map_congr_left fun i hi => ?_
      rw [List.getElem?_append_left (List.mem_range.1 (List.mem_filter.1 hi).1)]
    rw [firstPlaces_append_singleton, List.map_append, hplaces, ← ih hwf,
      ← elem_distinct hwf (h t (by simp)), distinct, Distinct.ofList_append_singleton]
    cases ht : (Distinct.ofList trees).elem t with
    | true => simp [Distinct.insert_of_elem ht, distinct, ht]
    | false => simp [Distinct.insert_of_not_elem ht, distinct, ht]

/-- Each tree that stays stands at the place with the same number. -/
theorem exists_firstPlace (h : ∀ t ∈ trees, t.WellFormed) {i : Nat} {t : Node}
    (ht : (distinct trees)[i]? = some t) :
    ∃ p, (firstPlaces trees)[i]? = some p ∧ trees[p]? = some t := by
  have hplaces := congrArg (·[i]?) (distinct_eq_firstPlaces h)
  simp only [List.getElem?_map, ht, Option.map_some] at hplaces
  exact Option.map_eq_some_iff.1 hplaces.symm

/-! ### The group of a tree -/

/-- The group of a tree is the place of a tree that stays and is equal to it. -/
theorem getElem_groupOf (h : ∀ t ∈ trees, t.WellFormed) {t : Node} (ht : t ∈ trees) :
    ∃ hlt : (groupOf trees t).index < (distinct trees).length,
      (t == (distinct trees)[(groupOf trees t).index]) = true := by
  have hlt : (groupOf trees t).index < (distinct trees).length :=
    List.findIdx_lt_length.2 (Distinct.exists_mem_ofList h ht)
  exact ⟨hlt, List.findIdx_getElem (p := fun u => t == u) (w := hlt)⟩

/-- Two trees have the same group exactly when they are equal. -/
theorem groupOf_eq_iff (h : ∀ t ∈ trees, t.WellFormed) {s t : Node} (hs : s ∈ trees)
    (ht : t ∈ trees) : groupOf trees s = groupOf trees t ↔ (s == t) = true := by
  have hwf : ∀ {i} (hi : i < (distinct trees).length), (distinct trees)[i].WellFormed :=
    fun hi => h _ (Distinct.mem_of_mem_ofList (List.getElem_mem hi))
  constructor
  · intro heq
    obtain ⟨hi, hsi⟩ := getElem_groupOf h hs
    obtain ⟨hj, htj⟩ := getElem_groupOf h ht
    simp only [← heq] at htj
    exact Node.beq_trans (h s hs) (hwf hi) (h t ht) hsi (Node.beq_symm (h t ht) (hwf hi) htj)
  · intro hst
    have hts := Node.beq_symm (h s hs) (h t ht) hst
    refine congrArg GroupId.mk (Nat.le_antisymm ?_ ?_)
    · exact List.findIdx_le_findIdx fun u hu =>
        Node.beq_trans (h s hs) (h t ht) (h u (Distinct.mem_of_mem_ofList hu)) hst
    · exact List.findIdx_le_findIdx fun u hu =>
        Node.beq_trans (h t ht) (h s hs) (h u (Distinct.mem_of_mem_ofList hu)) hts

/-- The group of a tree that stays is its own place. -/
theorem groupOf_getElem (h : ∀ t ∈ trees, t.WellFormed) {i : Nat}
    (hi : i < (distinct trees).length) : groupOf trees (distinct trees)[i] = ⟨i⟩ := by
  refine congrArg GroupId.mk ((List.findIdx_eq hi).2 ⟨?_, fun j hj => ?_⟩)
  · exact Node.beq_refl (h _ (Distinct.mem_of_mem_ofList (List.getElem_mem hi)))
  · exact (List.pairwise_iff_getElem.1 (Distinct.unequal_ofList h) j i _ hi hj).2

/-! ### The table -/

section Table

variable {selector : String} {known : KnownVersions}

theorem map_fst_rows (hlen : trees.length = known.toList.length) :
    (known.toList.zip trees).map Prod.fst = known.toList := List.map_fst_zip (by omega)

theorem map_snd_rows (hlen : trees.length = known.toList.length) :
    (known.toList.zip trees).map Prod.snd = trees := List.map_snd_zip (by omega)

/-- Every known version has a tree. -/
theorem exists_row_of_version {v : Version} (hlen : trees.length = known.toList.length)
    (hv : v ∈ known.toList) : ∃ t, (v, t) ∈ known.toList.zip trees := by
  rw [← map_fst_rows hlen] at hv
  obtain ⟨⟨v', t⟩, hmem, rfl⟩ := List.mem_map.1 hv
  exact ⟨t, hmem⟩

/-- Every tree is that of a known version. -/
theorem exists_row_of_tree {t : Node} (hlen : trees.length = known.toList.length)
    (ht : t ∈ trees) : ∃ v, (v, t) ∈ known.toList.zip trees := by
  rw [← map_snd_rows hlen] at ht
  obtain ⟨⟨v, t'⟩, hmem, rfl⟩ := List.mem_map.1 ht
  exact ⟨v, hmem⟩

/-- The table of versions with a tree each. -/
abbrev tableOf (selector : String) (known : KnownVersions) (trees : List Node) : Dispatch :=
  table selector known (known.toList.zip trees)

/-- Its versions are the known ones, and each has the group of its tree. -/
theorem entries_assigned_tableOf (hlen : trees.length = known.toList.length) :
    (tableOf selector known trees).assigned.entries =
      (known.toList.zip trees).map fun row => (row.1, groupOf trees row.2) := by
  have hkeys : (((known.toList.zip trees).map fun row => (row.1, groupOf trees row.2)).map
      Prod.fst).Nodup := by
    rw [List.map_map]
    show ((known.toList.zip trees).map Prod.fst).Nodup
    rw [map_fst_rows hlen]
    exact known.nodup
  rw [tableOf, table]
  dsimp only
  rw [map_snd_rows hlen, Table.entries_ofList hkeys]

/-- Its groups are the trees that differ, numbered as they stand. -/
theorem entries_trees_tableOf (hlen : trees.length = known.toList.length) :
    (tableOf selector known trees).trees.entries =
      (distinct trees).zipIdx.map fun group => (⟨group.2⟩, group.1) := by
  have hkeys : (((distinct trees).zipIdx.map fun group => (GroupId.mk group.2, group.1)).map
      Prod.fst).Nodup := by
    rw [List.map_map]
    show ((distinct trees).zipIdx.map (GroupId.mk ∘ Prod.snd)).Nodup
    rw [← List.map_map, List.zipIdx_map_snd]
    exact List.Nodup.map (fun i j h => GroupId.mk.inj h) List.nodup_range'
  rw [tableOf, table]
  dsimp only
  rw [map_snd_rows hlen, Table.entries_ofList hkeys]

theorem keys_assigned_tableOf (hlen : trees.length = known.toList.length) :
    (tableOf selector known trees).assigned.keys = known.toList := by
  rw [Table.keys, entries_assigned_tableOf hlen, List.map_map]
  exact map_fst_rows hlen

theorem groupOf?_tableOf (hlen : trees.length = known.toList.length) {v : Version} {g : GroupId} :
    (tableOf selector known trees).groupOf? v = some g ↔
      ∃ t, (v, t) ∈ known.toList.zip trees ∧ groupOf trees t = g := by
  rw [Dispatch.groupOf?, Table.get?_eq_some_iff, entries_assigned_tableOf hlen]
  simp

theorem values_trees_tableOf (hlen : trees.length = known.toList.length) :
    (tableOf selector known trees).trees.values = distinct trees := by
  rw [Table.values, entries_trees_tableOf hlen, List.map_map]
  exact List.zipIdx_map_fst 0 (distinct trees)

theorem groupCount_tableOf (hlen : trees.length = known.toList.length) :
    (tableOf selector known trees).groupCount = (distinct trees).length := by
  rw [← values_trees_tableOf hlen, Table.values, List.length_map]
  rfl

theorem keys_trees_tableOf (hlen : trees.length = known.toList.length) :
    (tableOf selector known trees).trees.keys =
      (List.range (tableOf selector known trees).groupCount).map GroupId.mk := by
  rw [groupCount_tableOf hlen, Table.keys, entries_trees_tableOf hlen, List.map_map,
    List.range_eq_range', ← List.zipIdx_map_snd 0, List.map_map]
  rfl

theorem mem_keys_trees_tableOf (hlen : trees.length = known.toList.length) {g : GroupId} :
    g ∈ (tableOf selector known trees).trees.keys ↔
      ∃ i, i < (distinct trees).length ∧ g = ⟨i⟩ := by
  rw [keys_trees_tableOf hlen, groupCount_tableOf hlen, List.mem_map]
  simp only [List.mem_range, eq_comm]

theorem mem_versionsIn_iff (d : Dispatch) (g : GroupId) (v : Version) :
    v ∈ d.versionsIn g ↔ d.groupOf? v = some g := by
  rw [Dispatch.groupOf?, Table.get?_eq_some_iff, Dispatch.versionsIn]
  simp

theorem versionsIn_sublist_keys (d : Dispatch) (g : GroupId) :
    (d.versionsIn g).Sublist d.assigned.keys :=
  List.Sublist.map _ List.filter_sublist

theorem tree?_tableOf (hlen : trees.length = known.toList.length) {i : Nat} {u : Node} :
    (tableOf selector known trees).tree? ⟨i⟩ = some u ↔ (distinct trees)[i]? = some u := by
  rw [Dispatch.tree?, Table.get?_eq_some_iff, entries_trees_tableOf hlen, List.mem_map]
  constructor
  · rintro ⟨⟨u', i'⟩, hmem, heq⟩
    cases heq
    exact List.mk_mem_zipIdx_iff_getElem?.1 hmem
  · intro h
    exact ⟨(u, i), List.mk_mem_zipIdx_iff_getElem?.2 h, rfl⟩

/-- The group of a version has the tree that stays and is equal to that of the version. -/
theorem exists_tree_of_version (h : ∀ t ∈ trees, t.WellFormed)
    (hlen : trees.length = known.toList.length) {v : Version} {t : Node}
    (hv : (v, t) ∈ known.toList.zip trees) :
    ∃ g u, (tableOf selector known trees).groupOf? v = some g ∧
      (tableOf selector known trees).tree? g = some u ∧ (t == u) = true := by
  obtain ⟨hlt, heq⟩ := getElem_groupOf h (List.of_mem_zip hv).2
  exact ⟨groupOf trees t, _, (groupOf?_tableOf hlen).2 ⟨t, hv, rfl⟩,
    (tree?_tableOf hlen).2 (List.getElem?_eq_getElem hlt), heq⟩

/-- Where a tree is met for the first time, the next group is opened for the version and has its
tree. -/
theorem exists_first_of_group (h : ∀ t ∈ trees, t.WellFormed)
    (hlen : trees.length = known.toList.length) {i : Nat} (hi : i < (distinct trees).length) :
    ∃ p v t, (firstPlaces trees)[i]? = some p ∧ (known.toList.zip trees)[p]? = some (v, t) ∧
      (tableOf selector known trees).groupOf? v = some ⟨i⟩ ∧
      (tableOf selector known trees).tree? ⟨i⟩ = some t := by
  have hstays : (distinct trees)[i]? = some (distinct trees)[i] := List.getElem?_eq_getElem hi
  obtain ⟨p, hp, ht⟩ := exists_firstPlace h hstays
  have hlt : p < known.toList.length := hlen ▸ (List.getElem?_eq_some_iff.1 ht).1
  have hrow : (known.toList.zip trees)[p]? = some (known.toList[p], (distinct trees)[i]) :=
    List.getElem?_zip_eq_some.2 ⟨List.getElem?_eq_getElem hlt, ht⟩
  refine ⟨p, _, _, hp, hrow, ?_, (tree?_tableOf hlen).2 hstays⟩
  exact (groupOf?_tableOf hlen).2 ⟨_, List.mem_of_getElem? hrow, groupOf_getElem h hi⟩

/-- The table selects for every version the tree that stays at the place of its group. -/
theorem select_tableOf_eq_ok_iff (h : ∀ t ∈ trees, t.WellFormed)
    (hlen : trees.length = known.toList.length) {v : Version} {t u : Node}
    (hv : (v, t) ∈ known.toList.zip trees) :
    (tableOf selector known trees).select (some v) = .ok u ↔
      (distinct trees)[(groupOf trees t).index]? = some u := by
  obtain ⟨hlt, -⟩ := getElem_groupOf h (List.of_mem_zip hv).2
  have hgroup : (tableOf selector known trees).groupOf? v = some (groupOf trees t) :=
    (groupOf?_tableOf hlen).2 ⟨t, hv, rfl⟩
  have htree : (tableOf selector known trees).tree? (groupOf trees t) =
      some (distinct trees)[(groupOf trees t).index] :=
    (tree?_tableOf hlen).2 (List.getElem?_eq_getElem hlt)
  rw [Dispatch.select, Option.bind_some, hgroup, Option.bind_some, htree,
    List.getElem?_eq_getElem hlt, Option.some.injEq]
  exact ⟨Except.ok.inj, congrArg Except.ok⟩

/-- The table refuses every version that is not known. -/
theorem select_tableOf_of_not_mem (hlen : trees.length = known.toList.length) {v : Version}
    (hv : v ∉ known.toList) : (tableOf selector known trees).select (some v) =
      .error ⟨selector, some v, known.toList⟩ := by
  have hgroup : (tableOf selector known trees).groupOf? v = none := by
    cases hg : (tableOf selector known trees).groupOf? v with
    | none => rfl
    | some g =>
      obtain ⟨t, hrow, -⟩ := (groupOf?_tableOf hlen).1 hg
      exact absurd (List.of_mem_zip hrow).1 hv
  rw [Dispatch.select, Option.bind_some, hgroup]
  rfl

/-- The table groups the known versions by their trees. -/
theorem groupsByTree_tableOf (h : ∀ t ∈ trees, t.WellFormed)
    (hlen : trees.length = known.toList.length) :
    GroupsByTree known trees (tableOf selector known trees) := by
  have hgroup : ∀ {v t}, (v, t) ∈ known.toList.zip trees →
      (tableOf selector known trees).groupOf? v = some (groupOf trees t) := fun hv =>
    (groupOf?_tableOf hlen).2 ⟨_, hv, rfl⟩
  constructor
  case same_group_iff =>
    intro v s w t hv hw
    rw [hgroup hv, hgroup hw, Option.some.injEq]
    exact groupOf_eq_iff h (List.of_mem_zip hv).2 (List.of_mem_zip hw).2
  case groupCount_eq =>
    rw [values_trees_tableOf hlen, groupCount_tableOf hlen]
    exact ⟨transversal_distinct h, fun _ hr => (transversal_distinct h).length_eq h hr⟩
  case keys_trees => exact keys_trees_tableOf hlen
  case values_trees =>
    rw [values_trees_tableOf hlen]
    exact distinct_eq_firstPlaces h
  case tree_of_version => exact fun v t => exists_tree_of_version h hlen
  case first_of_group =>
    rw [groupCount_tableOf hlen]
    exact fun i => exists_first_of_group h hlen
  case keys_assigned => exact keys_assigned_tableOf hlen
  case versionsIn_sublist =>
    intro g
    have hkeys : (tableOf selector known trees).assigned.keys = known.toList :=
      keys_assigned_tableOf hlen
    exact hkeys ▸ versionsIn_sublist_keys _ g
  case versionsIn_ne_nil =>
    intro g hg
    obtain ⟨i, hi, rfl⟩ := (mem_keys_trees_tableOf hlen).1 hg
    have hmem : (distinct trees)[i] ∈ trees := Distinct.mem_of_mem_ofList (List.getElem_mem hi)
    obtain ⟨v, hv⟩ := exists_row_of_tree hlen hmem
    refine List.ne_nil_of_mem ((mem_versionsIn_iff _ _ v).2 ?_)
    rw [hgroup hv, groupOf_getElem h hi]
  case existsUnique_group =>
    intro v hv
    obtain ⟨t, ht⟩ := exists_row_of_version hlen hv
    obtain ⟨hlt, -⟩ := getElem_groupOf h (List.of_mem_zip ht).2
    refine ⟨groupOf trees t, ⟨(mem_keys_trees_tableOf hlen).2 ⟨_, hlt, rfl⟩,
      (mem_versionsIn_iff _ _ v).2 (hgroup ht)⟩, fun g hg => ?_⟩
    have heq := (hgroup ht).symm.trans ((mem_versionsIn_iff _ g v).1 hg.2)
    exact (Option.some.inj heq).symm

end Table

end VersionedTree.Grouping
