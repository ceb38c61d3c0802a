import VersionedTree.Proofs.FirstMatch

/-!
# Manifests and how they were filled

A manifest is filled version by version, and a version may be inserted again. It then keeps the
place that it got first, while its new flags replace the old ones. So the order of the versions goes
by the first insertion of each, what a version ships goes by the last one, and what the manifest
knows goes by both: a flag that a version alone ships is forgotten when the version is inserted
again without it.

## The model

`Distinct.Enumerates` says that a list has the members of another one once each, in the order of
first appearance; there is no other such list. `Manifest.LastRow` picks out the last insertion for a
version. All else that is said of a history is said with these two.

## What is proved

* `Distinct.Enumerates.unique` and `Distinct.enumerates_ofList` — a set that is filled from a list
  enumerates it, and nothing else does.
* `Manifest.knownVersions_insert`, `Manifest.flagsFor?_insert_eq_some_iff` and
  `Manifest.isEnabled_insert_iff` — what one insertion does.
* `Manifest.enumerates_knownVersions` and `Manifest.flagsFor?_ofList_eq_some_iff` — what a history
  of insertions leads to.
* `Manifest.enumerates_knownFlags` — the order of the flags.
* `Inclusion.feature_eq_unknownFeature_iff` — which flags `feature` does not know.
* `Manifest.views_followHistory` — all of this together.
-/

namespace VersionedTree

/-! ### The order of first appearance -/

namespace Distinct

variable {α : Type} [BEq α] {xs ys zs : List α}

/-- The list has the members of another one once each, in the order in which they first appear
there. -/
structure Enumerates (xs ys : List α) : Prop where
  /-- The members are the same. -/
  mem_iff : ∀ a, a ∈ xs ↔ a ∈ ys
  /-- What stands earlier appears earlier. -/
  ascending : xs.Pairwise fun a b => ys.idxOf a < ys.idxOf b

namespace Enumerates

theorem nil : Enumerates ([] : List α) [] := ⟨fun _ => Iff.rfl, .nil⟩

theorem nodup (h : Enumerates xs ys) : xs.Nodup :=
  h.ascending.imp fun {a b} hlt heq => by
    rw [heq] at hlt
    exact lt_irrefl _ hlt

/-- One list alone enumerates the members of another. -/
theorem unique (hx : Enumerates xs ys) (hz : Enumerates zs ys) : xs = zs := by
  have hperm : xs.Perm zs := (List.perm_ext_iff_of_nodup hx.nodup hz.nodup).2 fun a =>
    (hx.mem_iff a).trans (hz.mem_iff a).symm
  exact hperm.eq_of_pairwise (fun _ _ _ _ hab hba => absurd hab (Nat.lt_asymm hba)) hx.ascending
    hz.ascending

variable [LawfulBEq α]

/-- One more member goes to the end, unless it is there already. -/
theorem insert (h : Enumerates xs ys) (x : α) :
    Enumerates (Distinct.insert x xs) (ys ++ [x]) := by
  have hidx : ∀ a ∈ xs, (ys ++ [x]).idxOf a = ys.idxOf a := fun a ha =>
    List.idxOf_append_of_mem ((h.mem_iff a).1 ha)
  have hascending : xs.Pairwise fun a b => (ys ++ [x]).idxOf a < (ys ++ [x]).idxOf b :=
    h.ascending.imp_of_mem fun {a b} ha hb hlt => by rwa [hidx a ha, hidx b hb]
  cases helem : xs.elem x with
  | true =>
    rw [insert_of_elem helem]
    refine ⟨fun a => ?_, hascending⟩
    have hx : x ∈ ys := (h.mem_iff x).1 (List.mem_of_elem_eq_true helem)
    rw [h.mem_iff, List.mem_append, List.mem_singleton]
    refine (or_iff_left_of_imp ?_).symm
    rintro rfl
    exact hx
  | false =>
    rw [insert_of_not_elem helem]
    refine ⟨fun a => ?_, List.pairwise_append.2 ⟨hascending, List.pairwise_singleton _ x, ?_⟩⟩
    · rw [List.mem_append, List.mem_append, h.mem_iff]
    · intro a ha b hb
      rw [List.mem_singleton.1 hb, hidx a ha]
      have hx : x ∉ ys := fun hx => by
        rw [List.elem_eq_true_of_mem ((h.mem_iff x).2 hx)] at helem
        cases helem
      rw [List.idxOf_append_of_notMem hx]
      exact Nat.lt_add_right _ (List.idxOf_lt_length_of_mem ((h.mem_iff a).1 ha))

end Enumerates

variable [LawfulBEq α]

/-- A set that is filled from a list enumerates the list. -/
theorem enumerates_ofList (members : List α) : Enumerates (ofList members) members := by
  induction members using List.reverseRecOn with
  | nil => exact .nil
  | append_singleton members x ih =>
    rw [ofList_append_singleton]
    exact ih.insert x

theorem enumerates_iff : Enumerates xs ys ↔ xs = ofList ys := by
  constructor
  · exact fun h => h.unique (enumerates_ofList ys)
  · rintro rfl
    exact enumerates_ofList ys

end Distinct

/-- The values of a table are what is found for its keys. -/
theorem Table.values_eq_map_get? {κ ν : Type} [DecidableEq κ] (t : Table κ ν) (default : ν) :
    t.values = t.keys.map fun key => (t.get? key).getD default := by
  rw [values, keys, List.map_map]
  refine List.map_congr_left fun entry hentry => ?_
  have hget : t.get? entry.1 = some entry.2 := get?_eq_some_iff.2 hentry
  rw [Function.comp_apply, hget, Option.getD_some]

namespace Manifest

variable {m : Manifest} {rows : List (Version × List String)} {row : Version × List String}
  {v w : Version} {flag : String} {flags shipped : List String}

/-! ### One insertion -/

theorem ofList_append_singleton (rows : List (Version × List String))
    (row : Version × List String) :
    ofList (rows ++ [row]) = (ofList rows).insert row.1 row.2 := by
  rw [ofList, List.foldl_append]
  rfl

/-- A version that is inserted again keeps its place. -/
theorem knownVersions_insert :
    (m.insert v flags).knownVersions.toList = Distinct.insert v m.knownVersions.toList := by
  show (m.flags.insert v (Distinct.ofList flags)).keys = Distinct.insert v m.flags.keys
  rw [Table.keys_insert, Distinct.insert]
  exact if_congr (List.elem_iff (a := v)).symm rfl rfl

/-- The flags that are inserted replace those of the version, and of no other. -/
theorem flagsFor?_insert_eq_some_iff : (m.insert v flags).flagsFor? w = some shipped ↔
    v = w ∧ Distinct.Enumerates shipped flags ∨ v ≠ w ∧ m.flagsFor? w = some shipped := by
  rw [flagsFor?, insert]
  by_cases h : v = w
  · subst h
    rw [Table.get?_insert_self, Option.some.injEq, Distinct.enumerates_iff]
    simp [eq_comm]
  · rw [Table.get?_insert_of_ne _ (Ne.symm h)]
    simp [h, flagsFor?]

theorem isEnabled_iff :
    m.isEnabled v flag = true ↔ ∃ shipped, m.flagsFor? v = some shipped ∧ flag ∈ shipped := by
  simp only [isEnabled, Option.any_eq_true, List.contains_iff_mem]

theorem isEnabled_insert_iff : (m.insert v flags).isEnabled w flag = true ↔
    v = w ∧ flag ∈ flags ∨ v ≠ w ∧ m.isEnabled w flag = true := by
  simp only [isEnabled_iff, flagsFor?_insert_eq_some_iff, or_and_right, exists_or, and_assoc,
    exists_and_left, Distinct.enumerates_iff, exists_eq_left, Distinct.mem_ofList]

/-- A flag is known after an insertion if it was inserted, or if another version ships it. -/
theorem isKnownFlag_insert_iff : (m.insert v flags).isKnownFlag flag = true ↔
    flag ∈ flags ∨ ∃ w, w ≠ v ∧ m.isEnabled w flag = true := by
  simp only [isKnownFlag_iff, isEnabled_insert_iff, exists_or, exists_eq_left', ne_comm (a := v)]

/-- To insert a version again can make a flag unknown exactly if this version alone ships it. -/
theorem exists_isKnownFlag_insert_eq_false_iff :
    (m.isKnownFlag flag = true ∧ ∃ flags, (m.insert v flags).isKnownFlag flag = false) ↔
      m.isEnabled v flag = true ∧ ∀ w, w ≠ v → m.isEnabled w flag = false := by
  simp only [← Bool.not_eq_true, isKnownFlag_insert_iff, not_or, not_exists, not_and]
  rw [isKnownFlag_iff]
  constructor
  · rintro ⟨⟨w, hw⟩, flags, -, hothers⟩
    obtain rfl : w = v := by
      by_contra hne
      exact hothers w hne hw
    exact ⟨hw, hothers⟩
  · rintro ⟨hv, hothers⟩
    exact ⟨⟨v, hv⟩, [], List.not_mem_nil, hothers⟩

/-! ### Histories -/

/-- The last insertion for a version is one of these flags. -/
def LastRow (rows : List (Version × List String)) (v : Version) (flags : List String) : Prop :=
  ∃ before after, rows = before ++ (v, flags) :: after ∧ ∀ row ∈ after, row.1 ≠ v

theorem not_lastRow_nil : ¬LastRow [] v flags := by
  rintro ⟨before, after, h, -⟩
  cases before <;> cases h

/-- One more insertion is the last one for its version, and for no other. -/
theorem lastRow_append_singleton_iff : LastRow (rows ++ [row]) v flags ↔
    row.1 = v ∧ row.2 = flags ∨ row.1 ≠ v ∧ LastRow rows v flags := by
  constructor
  · rintro ⟨before, after, hrows, hafter⟩
    rcases after.eq_nil_or_concat with rfl | ⟨init, last, rfl⟩
    · obtain ⟨-, rfl⟩ := List.append_singleton_inj.1 hrows
      exact .inl ⟨rfl, rfl⟩
    · rw [List.concat_eq_append, ← List.cons_append, ← List.append_assoc] at hrows
      obtain ⟨rfl, rfl⟩ := List.append_singleton_inj.1 hrows
      rw [List.concat_eq_append, List.forall_mem_append, List.forall_mem_singleton] at hafter
      exact .inr ⟨hafter.2, before, init, rfl, hafter.1⟩
  · rintro (⟨rfl, rfl⟩ | ⟨hne, before, after, rfl, hafter⟩)
    · exact ⟨rows, [], rfl, nofun⟩
    · refine ⟨before, after ++ [row], by rw [List.append_assoc, List.cons_append], ?_⟩
      rw [List.forall_mem_append, List.forall_mem_singleton]
      exact ⟨hafter, hne⟩

/-- The versions stand in the order of their first insertions. -/
theorem enumerates_knownVersions (rows : List (Version × List String)) :
    Distinct.Enumerates (ofList rows).knownVersions.toList (rows.map Prod.fst) := by
  induction rows using List.reverseRecOn with
  | nil => exact .nil
  | append_singleton rows row ih =>
    rw [ofList_append_singleton, knownVersions_insert, List.map_append, List.map_singleton]
    exact ih.insert row.1

/-- The flags of a version are those of its last insertion. -/
theorem flagsFor?_ofList_eq_some_iff : (ofList rows).flagsFor? v = some shipped ↔
    ∃ flags, LastRow rows v flags ∧ Distinct.Enumerates shipped flags := by
  induction rows using List.reverseRecOn with
  | nil =>
    refine iff_of_false nofun ?_
    rintro ⟨flags, h, -⟩
    exact not_lastRow_nil h
  | append_singleton rows row ih =>
    simp only [ofList_append_singleton, flagsFor?_insert_eq_some_iff, ih,
      lastRow_append_singleton_iff, or_and_right, exists_or, and_assoc, exists_and_left,
      exists_eq_left']

theorem isEnabled_ofList_iff :
    (ofList rows).isEnabled v flag = true ↔ ∃ flags, LastRow rows v flags ∧ flag ∈ flags := by
  simp only [isEnabled_iff, flagsFor?_ofList_eq_some_iff, Distinct.enumerates_iff]
  constructor
  · rintro ⟨_, ⟨flags, hlast, rfl⟩, hflag⟩
    exact ⟨flags, hlast, Distinct.mem_ofList.1 hflag⟩
  · rintro ⟨flags, hlast, hflag⟩
    exact ⟨_, ⟨flags, hlast, rfl⟩, Distinct.mem_ofList.2 hflag⟩

/-! ### What is derived -/

/-- Only versions that are listed ship flags. -/
theorem mem_knownVersions_of_isEnabled (h : m.isEnabled v flag = true) :
    v ∈ m.knownVersions.toList := by
  obtain ⟨shipped, hshipped, -⟩ := isEnabled_iff.1 h
  exact List.mem_map_of_mem (f := Prod.fst) (Table.get?_eq_some_iff.1 hshipped)

theorem mem_knownFlags_iff : flag ∈ m.knownFlags ↔ m.isKnownFlag flag = true := by
  simp only [knownFlags, Distinct.mem_ofList, List.mem_flatten, isKnownFlag, List.any_eq_true,
    List.contains_iff_mem]

/-- The flags stand in the order in which they first appear along the versions, and along the flags
of each. -/
theorem enumerates_knownFlags (m : Manifest) : Distinct.Enumerates m.knownFlags
    (m.knownVersions.toList.flatMap fun v => (m.flagsFor? v).getD []) := by
  have hvalues : m.flags.values.flatten =
      m.knownVersions.toList.flatMap fun v => (m.flagsFor? v).getD [] :=
    congrArg List.flatten (m.flags.values_eq_map_get? [])
  rw [← hvalues]
  exact Distinct.enumerates_ofList _

end Manifest

namespace Inclusion

variable {m : Manifest} {ctx : Context} {args : List Node} {n : Node} {e : QualifierError}

theorem includeWhen_eq_error_iff {usage : String}
    {test : Context → Node → Except QualifierError Bool} :
    includeWhen usage test ctx args = .error e ↔
      args = [] ∧ e = .invalidArguments ("expected " ++ usage) ∨
        ∃ condition forms, args = condition :: forms ∧ test ctx condition = .error e := by
  cases args with
  | nil =>
    refine ⟨fun h => .inl ⟨rfl, (Except.error.inj h).symm⟩, ?_⟩
    rintro (⟨-, rfl⟩ | ⟨condition, forms, h, -⟩)
    · rfl
    · cases h
  | cons condition forms =>
    rw [includeWhen, Arguments.headAndForms, Outcome.ok_bind, Outcome.bind_eq_error_iff]
    constructor
    · rintro (h | ⟨b, -, h⟩)
      · exact .inr ⟨condition, forms, rfl, h⟩
      · cases h
    · rintro (⟨h, -⟩ | ⟨_, _, h, htest⟩)
      · cases h
      · cases h
        exact .inl htest

/-- `feature` fails on a condition that is refused as a flag. -/
theorem isShipped_eq_error_iff : isShipped m ctx n = .error e ↔ m.Refuses n e := by
  rw [isShipped, Outcome.bind_eq_error_iff, Arguments.knownFlag_eq_error_iff]
  refine or_iff_left ?_
  rintro ⟨flag, -, h⟩
  cases h

/-- `feature` does not know a flag that no version ships. -/
theorem feature_eq_unknownFeature_iff {flag : String} :
    feature m ctx args = .error (.unknownFeature flag) ↔
      ∃ head forms, args = head :: forms ∧ head.text? = some flag ∧
        ∀ v, m.isEnabled v flag = false := by
  rw [feature, includeWhen_eq_error_iff]
  constructor
  · rintro (⟨-, h⟩ | ⟨head, forms, hargs, h⟩)
    · cases h
    · cases isShipped_eq_error_iff.1 h with
      | unknown htext hnone => exact ⟨head, forms, hargs, htext, hnone⟩
  · rintro ⟨head, forms, hargs, htext, hnone⟩
    exact .inr ⟨head, forms, hargs, isShipped_eq_error_iff.2 (.unknown htext hnone)⟩

end Inclusion

/-! ### The views of a manifest -/

/-- After any history of insertions the versions stand in the order of their first insertions and
ship the flags of their last ones. A flag is listed if it is known, and it is known if a version
that is listed ships it; flags are listed once each, along the versions and along the flags of each.
To insert a version again can take away what it alone ships, and `feature` does not know a flag
exactly if no last insertion has it. -/
theorem Manifest.views_followHistory (rows : List (Version × List String)) :
    Distinct.Enumerates (ofList rows).knownVersions.toList (rows.map Prod.fst) ∧
      (∀ v shipped, (ofList rows).flagsFor? v = some shipped ↔
        ∃ flags, LastRow rows v flags ∧ Distinct.Enumerates shipped flags) ∧
      (∀ flag, flag ∈ (ofList rows).knownFlags ↔ (ofList rows).isKnownFlag flag = true) ∧
      (∀ flag, (ofList rows).isKnownFlag flag = true ↔
        ∃ v ∈ (ofList rows).knownVersions.toList, (ofList rows).isEnabled v flag = true) ∧
      (ofList rows).knownFlags.Nodup ∧
      Distinct.Enumerates (ofList rows).knownFlags
        ((ofList rows).knownVersions.toList.flatMap fun v =>
          ((ofList rows).flagsFor? v).getD []) ∧
      (∀ v flag, ((ofList rows).isKnownFlag flag = true ∧
          ∃ flags, (ofList (rows ++ [(v, flags)])).isKnownFlag flag = false) ↔
        (ofList rows).isEnabled v flag = true ∧
          ∀ w, w ≠ v → (ofList rows).isEnabled w flag = false) ∧
      ∀ ctx args flag, (Standard.feature (ofList rows) ctx args).result =
          .error (.unknownFeature flag) ↔
        ∃ head forms, args = head :: forms ∧ head.text? = some flag ∧
          ∀ v flags, LastRow rows v flags → flag ∉ flags := by
  refine ⟨enumerates_knownVersions rows, fun v shipped => flagsFor?_ofList_eq_some_iff,
    fun flag => mem_knownFlags_iff, fun flag => ?_, (enumerates_knownFlags _).nodup,
    enumerates_knownFlags _, fun v flag => ?_, fun ctx args flag => ?_⟩
  · rw [isKnownFlag_iff]
    exact exists_congr fun v => (and_iff_right_of_imp mem_knownVersions_of_isEnabled).symm
  · simp only [ofList_append_singleton]
    exact exists_isKnownFlag_insert_eq_false_iff
  · refine Inclusion.feature_eq_unknownFeature_iff.trans ?_
    simp only [← Bool.not_eq_true, isEnabled_ofList_iff, not_exists, not_and]

namespace Sample

/-- A history that inserts the first version again, without one of its flags. -/
def revised : List (Version × List String) :=
  [(⟨"v1"⟩, ["B", "A", "B"]), (⟨"v0"⟩, ["C", "A"]), (⟨"v1"⟩, ["A"])]

end Sample

theorem Manifest.views_followHistory_revised :
    (ofList Sample.revised).knownVersions.toList = [⟨"v1"⟩, ⟨"v0"⟩] ∧
      (ofList Sample.revised).flagsFor? ⟨"v1"⟩ = some ["A"] ∧
      (ofList Sample.revised).knownFlags = ["A", "C"] ∧
      (ofList (Sample.revised.take 2)).isKnownFlag "B" = true ∧
      (ofList Sample.revised).isKnownFlag "B" = false ∧
      (Standard.feature (ofList Sample.revised) Sample.atSecond [.str "B"]).result =
        .error (.unknownFeature "B") := by
  obtain ⟨hversions, hflags, -, -, -, horder, -, hfeature⟩ := views_followHistory Sample.revised
  have hunknown : (ofList Sample.revised).isKnownFlag "B" = false := by decide
  refine ⟨hversions.unique (Distinct.enumerates_iff.2 rfl), ?_,
    horder.unique (Distinct.enumerates_iff.2 rfl), by decide, hunknown, ?_⟩
  · have hlast : LastRow Sample.revised ⟨"v1"⟩ ["A"] := ⟨Sample.revised.take 2, [], rfl, nofun⟩
    exact (hflags _ _).2 ⟨["A"], hlast, Distinct.enumerates_iff.2 rfl⟩
  · refine (hfeature _ _ _).2 ⟨_, _, rfl, rfl, fun v flags hlast hflag => ?_⟩
    have henabled := isEnabled_ofList_iff.2 ⟨flags, hlast, hflag⟩
    rw [isKnownFlag_eq_false_iff.1 hunknown] at henabled
    cases henabled

end VersionedTree
