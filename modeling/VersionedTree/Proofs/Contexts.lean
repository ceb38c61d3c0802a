import VersionedTree.Version.Context

/-!
# The contexts of the known versions

A context is determined by the known versions, the place of the version among them and the selector,
so the contexts of all known versions are the contexts there are.

## What is proved

* `KnownVersions.position?_eq_some_iff` — a version is known at a position exactly when it stands
  there.
* `Context.mem_all_iff` — which contexts the contexts of all known versions are.
* `Context.of?_version` — the context of a version by name is the one by place, without a selector.
-/

namespace VersionedTree

/-- A version is known at a position exactly when it stands there. -/
theorem KnownVersions.position?_eq_some_iff {known : KnownVersions} {v : Version}
    {position : Nat} : known.position? v = some position ↔ known.get? position = some v := by
  constructor
  · exact KnownVersions.get?_position
  · intro h
    obtain ⟨hlt, hv⟩ := List.getElem?_eq_some_iff.1 h
    refine List.findIdx?_eq_some_iff_getElem.2 ⟨hlt, by simp [hv], fun j hj heq => ?_⟩
    have hne := List.pairwise_iff_getElem.1 known.nodup j position (Nat.lt_trans hj hlt) hlt hj
    exact hne (by simpa [hv] using heq)

namespace KnownVersions

/-- A known version has a position. -/
theorem exists_position?_of_mem {known : KnownVersions} {v : Version} (hv : v ∈ known.toList) :
    ∃ position, known.position? v = some position := by
  obtain ⟨position, hposition⟩ := List.mem_iff_getElem?.1 hv
  exact ⟨position, position?_eq_some_iff.2 hposition⟩

/-- A known version stands at or before another one. -/
def Leads (known : KnownVersions) (v w : Version) : Prop :=
  ∃ i j, known.position? v = some i ∧ known.position? w = some j ∧ i ≤ j

/-- Both are known then. -/
theorem Leads.mem {known : KnownVersions} {v w : Version} (h : known.Leads v w) :
    v ∈ known.toList ∧ w ∈ known.toList := by
  obtain ⟨i, j, hi, hj, -⟩ := h
  exact ⟨List.mem_of_getElem? (get?_position hi), List.mem_of_getElem? (get?_position hj)⟩

/-- A known version stands strictly before another one. -/
def Precedes (known : KnownVersions) (v w : Version) : Prop :=
  ∃ i j, known.position? v = some i ∧ known.position? w = some j ∧ i < j

theorem Precedes.leads {known : KnownVersions} {v w : Version} (h : known.Precedes v w) :
    known.Leads v w := by
  obtain ⟨i, j, hi, hj, hij⟩ := h
  exact ⟨i, j, hi, hj, Nat.le_of_lt hij⟩

instance (known : KnownVersions) (v w : Version) : Decidable (known.Leads v w) :=
  decidable_of_iff (∃ i ∈ known.position? v, ∃ j ∈ known.position? w, i ≤ j) (by simp [Leads])

instance (known : KnownVersions) (v w : Version) : Decidable (known.Precedes v w) :=
  decidable_of_iff (∃ i ∈ known.position? v, ∃ j ∈ known.position? w, i < j) (by simp [Precedes])

end KnownVersions

namespace Context

theorem position?_version (ctx : Context) : ctx.known.position? ctx.version = some ctx.position :=
  KnownVersions.position?_eq_some_iff.2 ctx.get?_position

/-- A context is determined by the known versions, the position and the selector. -/
theorem eq_of_position_eq {ctx ctx' : Context} (hknown : ctx.known = ctx'.known)
    (hposition : ctx.position = ctx'.position) (hselector : ctx.selector = ctx'.selector) :
    ctx = ctx' := by
  have hversion : some ctx.version = some ctx'.version := by
    rw [← ctx.get?_position, ← ctx'.get?_position, hknown, hposition]
  obtain ⟨known, version, position, hget, selector⟩ := ctx
  obtain ⟨known', version', position', hget', selector'⟩ := ctx'
  cases hknown
  cases hposition
  cases hselector
  cases hversion
  rfl

/-- The contexts of all known versions are the contexts with these known versions and the
selector. -/
theorem mem_all_iff {known : KnownVersions} {selector : Option String} {ctx : Context} :
    ctx ∈ all known selector ↔ ctx.known = known ∧ ctx.selector = selector := by
  rw [all, List.mem_map]
  constructor
  · rintro ⟨i, -, rfl⟩
    exact ⟨rfl, rfl⟩
  · rintro ⟨hknown, hselector⟩
    obtain ⟨hlt, -⟩ := List.getElem?_eq_some_iff.1 ctx.get?_position
    refine ⟨⟨ctx.position, hknown ▸ hlt⟩, List.mem_finRange _, ?_⟩
    exact eq_of_position_eq hknown.symm rfl hselector.symm

/-- They stand in the order of declaration. -/
theorem map_version_all (known : KnownVersions) (selector : Option String) :
    (all known selector).map version = known.toList := by
  rw [all, List.map_map]
  exact List.ext_getElem (by simp) fun i hi hi' => by simp

/-- Every known version has a context. -/
theorem exists_mem_all_of_version {known : KnownVersions} {v : Version}
    (selector : Option String) (hv : v ∈ known.toList) :
    ∃ ctx ∈ all known selector, ctx.version = v := by
  rw [← map_version_all known selector] at hv
  exact List.mem_map.1 hv

/-- The version at hand is known. -/
theorem version_mem (ctx : Context) : ctx.version ∈ ctx.known.toList :=
  List.mem_of_getElem? ctx.get?_position

theorem length_all (known : KnownVersions) (selector : Option String) :
    (all known selector).length = known.toList.length := by
  rw [← map_version_all known selector, List.length_map]

/-- Each stands at its place. -/
theorem position_getElem_all {known : KnownVersions} {selector : Option String} {i : Nat}
    (hi : i < (all known selector).length) : (all known selector)[i].position = i := by
  simp [all]

theorem version_getElem_all {known : KnownVersions} {selector : Option String} {i : Nat}
    (hi : i < (all known selector).length) (hi' : i < known.toList.length) :
    (all known selector)[i].version = known.toList[i] := by
  simp [all]

/-- The contexts for a selector are those without one, with the selector put in. -/
theorem all_eq_map_withSelector (known : KnownVersions) (selector : Option String) :
    all known selector = (all known none).map fun ctx => ctx.withSelector selector := by
  rw [all, all, List.map_map]
  rfl

/-- The context of a version by name is the one by place, without a selector. -/
theorem of?_version (ctx : Context) : of? ctx.known ctx.version = some (ctx.withSelector none) := by
  have h := ctx.position?_version
  unfold of?
  split
  · rename_i position hposition
    rw [h] at hposition
    cases hposition
    exact congrArg some (eq_of_position_eq rfl rfl rfl)
  · rename_i hposition
    rw [h] at hposition
    cases hposition

end Context

end VersionedTree
