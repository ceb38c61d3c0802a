import VersionedTree.Proofs.Descent
import VersionedTree.Proofs.Selection

/-!
# Versions are isolated from each other

What a version gets does not depend on the forms that are meant for other versions. Two trees are
seen as the same by a version if they are the same, position by position, except inside of arguments
that the bundled invocation around them does not select for the version. Whatever stands there, also
something that cannot be resolved, the version gets the same tree.

## What is proved

* `Standard.SeenAs.refl` — every node is seen as itself, so what is not edited may stay as it is.
* `Standard.isolation` — trees that a version sees as the same resolve to the same for it.
-/

namespace VersionedTree

/-! ### A small tree -/

namespace Sample

/-- `v0`, of three versions. -/
def atFirst : Context := ⟨threeVersions, ⟨"v0"⟩, 0, rfl, none⟩

/-- A form for each version. -/
def choice : Node :=
  .invocation Standard.switchTag
    [.mapping [(.str "v0", .str "a"), (.str "v1", .str "b"), (.str "v2", .str "c")]]

/-- A form for each version, where the one for `v1` cannot be resolved. -/
def choiceEdited : Node :=
  .invocation Standard.switchTag
    [.mapping [(.str "v0", .str "a"), (.str "v1", .invocation ⟨"missing"⟩ []),
      (.str "v2", .str "c")]]

/-- A list that holds a form for each version, and `y` from `v1` on. -/
def offering : Node := .sequence [choice, nested]

/-- The list with forms from `v1` on that cannot be resolved. -/
def offeringEdited : Node :=
  .sequence [choiceEdited, .invocation Standard.addedTag
    [.str "v0", .invocation Standard.addedTag [.str "v1", .invocation ⟨"missing"⟩ []]]]

theorem wellFormed_offering : offering.WellFormed := by
  refine ⟨⟨⟨?_, trivial, trivial, trivial, trivial, trivial, trivial, trivial⟩, trivial⟩,
    wellFormed_nested, trivial⟩
  unfold Distinct.Unequal
  decide

theorem wellFormed_offeringEdited : offeringEdited.WellFormed := by
  refine ⟨⟨⟨?_, trivial, trivial, trivial, trivial, trivial, trivial, trivial⟩, trivial⟩,
    ⟨trivial, ⟨trivial, trivial, trivial⟩, trivial⟩, trivial⟩
  unfold Distinct.Unequal
  decide

end Sample

namespace Standard

/-- Two nodes are the same, position by position, except inside of the arguments of bundled
invocations that are not selected for the version at hand. -/
inductive SeenAs (m? : Option Manifest) (ctx : Context) : Node → Node → Prop where
  /-- The same scalar. -/
  | scalar (value : Scalar) : SeenAs m? ctx (.scalar value) (.scalar value)
  /-- Sequences, item by item. -/
  | sequence {xs ys : List Node} : List.Forall₂ (SeenAs m? ctx) xs ys →
    SeenAs m? ctx (.sequence xs) (.sequence ys)
  /-- Sets, member by member. -/
  | set {xs ys : List Node} : List.Forall₂ (SeenAs m? ctx) xs ys →
    SeenAs m? ctx (.set xs) (.set ys)
  /-- Mappings, pair by pair. -/
  | mapping {ps qs : List (Node × Node)} :
    List.Forall₂ (SeenAs m? ctx) (ps.map Prod.fst) (qs.map Prod.fst) →
    List.Forall₂ (SeenAs m? ctx) (ps.map Prod.snd) (qs.map Prod.snd) →
    SeenAs m? ctx (.mapping ps) (.mapping qs)
  /-- Invocations of one tag, argument by argument, where idle arguments do not count. -/
  | invocation {tag : Tag} {xs ys : List Node} : xs.length = ys.length →
    (∀ (i : Nat) (x y : Node), xs[i]? = some x → ys[i]? = some y → ¬Idle m? ctx tag xs i →
      SeenAs m? ctx x y) →
    SeenAs m? ctx (.invocation tag xs) (.invocation tag ys)
  /-- Invocations of `switch`, where forms under other versions do not count. -/
  | switch {ps qs : List (Node × Node)} :
    List.Forall₂ (SeenAs m? ctx) (ps.map Prod.fst) (qs.map Prod.fst) →
    (∀ (i : Nat) (p q : Node × Node), ps[i]? = some p → qs[i]? = some q →
      Version.ofNode? p.1 = some ctx.version → SeenAs m? ctx p.2 q.2) →
    SeenAs m? ctx (.invocation switchTag [.mapping ps]) (.invocation switchTag [.mapping qs])

/-- Two well-formed nodes that are seen as the same. -/
structure SeenWellFormed (m? : Option Manifest) (ctx : Context) (m n : Node) : Prop where
  seen : SeenAs m? ctx m n
  left : m.WellFormed
  right : n.WellFormed

section SeenAs

variable {m? : Option Manifest} {ctx : Context}

/-- Parts that are seen as the same, of well-formed nodes. -/
theorem forall₂_seenWellFormed {xs ys : List Node} (h : List.Forall₂ (SeenAs m? ctx) xs ys)
    (hxs : ∀ x ∈ xs, x.WellFormed) (hys : ∀ y ∈ ys, y.WellFormed) :
    List.Forall₂ (SeenWellFormed m? ctx) xs ys :=
  (forall₂_and_mem h hxs hys).imp fun _ _ hxy => ⟨hxy.1, hxy.2.1, hxy.2.2⟩

/-- Nodes that are seen as the same have the same shape. -/
theorem SeenWellFormed.opened {m n : Node} (h : SeenWellFormed m? ctx m n) :
    m.Opened False (SeenWellFormed m? ctx) (fun _ _ => True) n := by
  obtain ⟨hseen, hm, hn⟩ := h
  cases hseen with
  | scalar value => exact .scalar value
  | sequence h =>
    exact .sequence (forall₂_seenWellFormed h (fun _ hx => hm.part hx) fun _ hy => hn.part hy)
  | set h =>
    exact .set (.of_forall₂ _
      (forall₂_seenWellFormed h (fun _ hx => hm.part hx) fun _ hy => hn.part hy))
  | @mapping ps qs hkeys hvalues =>
    refine .mapping (.of_forall₂ _ (forall₂_pairRelated_iff.2 ⟨?_, ?_⟩))
    · exact forall₂_seenWellFormed hkeys hm.keys hn.keys
    · exact forall₂_seenWellFormed hvalues hm.values hn.values
  | invocation => exact .invocation trivial
  | switch => exact .invocation trivial

/-- Every node is seen as itself. -/
theorem SeenAs.refl (n : Node) : SeenAs m? ctx n n := by
  induction n using Node.parts_induction with
  | step n ih =>
    cases n with
    | scalar value => exact .scalar value
    | sequence items => exact .sequence (List.forall₂_same.2 ih)
    | set members => exact .set (List.forall₂_same.2 ih)
    | mapping pairs =>
      refine .mapping (List.forall₂_same.2 fun k hk => ?_) (List.forall₂_same.2 fun v hv => ?_)
      · obtain ⟨p, hp, rfl⟩ := List.mem_map.1 hk
        exact ih p.1 (Node.mem_parts_mapping.2 ⟨p, hp, .inl rfl⟩)
      · obtain ⟨p, hp, rfl⟩ := List.mem_map.1 hv
        exact ih p.2 (Node.mem_parts_mapping.2 ⟨p, hp, .inr rfl⟩)
    | invocation tag args =>
      refine .invocation rfl fun i x y hx hy _ => ?_
      rw [hx, Option.some.injEq] at hy
      exact hy ▸ ih x (List.mem_of_getElem? hx)

theorem SeenAs.tag_eq {t u : Tag} {xs ys : List Node}
    (h : SeenAs m? ctx (.invocation t xs) (.invocation u ys)) : t = u := by
  cases h <;> rfl

/-- Invocations that are seen as the same select alike. -/
theorem SeenWellFormed.selectsAlike {tag : Tag} {xs ys : List Node}
    (h : SeenWellFormed m? ctx (.invocation tag xs) (.invocation tag ys)) :
    SelectsAlike m? ctx False (SeenWellFormed m? ctx) tag xs ys := by
  obtain ⟨hseen, hm, hn⟩ := h
  cases hseen with
  | invocation hlen h =>
    refine .arguments ⟨hlen, fun {i x y} hx hy hidle => ?_⟩
    exact ⟨h i x y hx hy hidle, hm.part (List.mem_of_getElem? hx),
      hn.part (List.mem_of_getElem? hy)⟩
  | switch hkeys hvalues =>
    have hps : (Node.mapping _).WellFormed := hm.part (List.mem_cons_self ..)
    have hqs : (Node.mapping _).WellFormed := hn.part (List.mem_cons_self ..)
    have hkeys := forall₂_seenWellFormed hkeys hps.keys hqs.keys
    have hlen := hkeys.length_eq
    rw [List.length_map, List.length_map] at hlen
    rw [List.forall₂_map_left_iff, List.forall₂_map_right_iff] at hkeys
    refine .clauses (.of_forall₂ _ (forall₂_of_getElem? hlen fun i p q hp hq => ?_))
    refine ⟨?_, fun hat => ?_⟩
    · exact (rel_of_getElem? hkeys hp hq).opened.ofNode?_eq
    · exact ⟨hvalues i p q hp hq hat, hps.values _ (List.mem_map_of_mem (List.mem_of_getElem? hp)),
        hqs.values _ (List.mem_map_of_mem (List.mem_of_getElem? hq))⟩

end SeenAs

section Isolation

variable {m? : Option Manifest} {ctx : Context} {s t : Node}

/-- Resolvers of bundled qualifiers follow each other on nodes that are seen as the same. -/
theorem following_of_seen (m? : Option Manifest) (ctx : Context) (maxPasses : Nat) :
    Following (fun _ => True) False (SeenWellFormed m? ctx) Eq
      ⟨(registry m?).value, maxPasses⟩ ctx ⟨(registry m?).value, maxPasses⟩ ctx := by
  refine .of_inward (inward_registry m?) (inward_registry m?) rfl rfl (fun _ _ => trivial)
    (fun h => ⟨h.left, h.right⟩) SeenWellFormed.opened fun {m n} hmn hm => ?_
  cases hmn.opened with
  | invocation =>
    obtain rfl := hmn.seen.tag_eq
    exact expandForm_leadsTo rfl rfl (fun _ => trivial) SeenWellFormed.opened (.refl ctx)
      (fun _ => .refl _) hmn.selectsAlike
  | _ => cases hm

/-- Where one tree resolves for a version, a tree that the version sees as the same resolves to the
same tree, with all elements and pairs in the same order. -/
theorem isolation (maxPasses : Nat) (hs : s.WellFormed) (ht : t.WellFormed)
    (hst : SeenAs m? ctx s t) {u : Node}
    (hu : (Resolver.walk ⟨(registry m?).value, maxPasses⟩ ctx s).result = .ok u) :
    (Resolver.walk ⟨(registry m?).value, maxPasses⟩ ctx t).result = .ok u := by
  have hinward := inward_registry m?
  rw [← Resolver.result_walkWithin_of_depth_le hinward (Nat.le_max_left s.depth t.depth)] at hu
  rw [← Resolver.result_walkWithin_of_depth_le hinward (Nat.le_max_right s.depth t.depth)]
  obtain ⟨u', hu', rfl⟩ := Resolver.walkWithin_leadsTo (following_of_seen m? ctx maxPasses)
    (.eq _ _) ⟨hst, hs, ht⟩ u ⟨hu, fun _ _ => trivial⟩
  exact hu'.1

theorem isolation_offering :
    SeenAs none Sample.atFirst Sample.offering Sample.offeringEdited ∧
      (Resolver.walk ⟨(registry none).value, 10⟩ Sample.atFirst Sample.offering).result =
        .ok (.sequence [.str "a"]) ∧
      (Resolver.walk ⟨(registry none).value, 10⟩ Sample.atFirst Sample.offeringEdited).result =
        .ok (.sequence [.str "a"]) := by
  have hswitch : SeenAs none Sample.atFirst Sample.choice Sample.choiceEdited := by
    refine .switch (List.forall₂_same.2 fun _ _ => .refl _) fun i p q hp hq hat => ?_
    rcases i with - | - | - | i <;> cases hp <;> cases hq
    · exact .refl _
    · exact absurd hat (by decide)
    · exact .refl _
  have hinner : SeenAs none Sample.atFirst (.invocation addedTag [.str "v1", .str "y"])
      (.invocation addedTag [.str "v1", .invocation ⟨"missing"⟩ []]) := by
    refine .invocation rfl fun i x y hx hy hidle => ?_
    rcases i with - | - | i <;> cases hx <;> cases hy
    · exact .refl _
    · exact absurd (.form (.added rfl rfl (by decide))) hidle
  have hseen : SeenAs none Sample.atFirst Sample.offering Sample.offeringEdited := by
    refine .sequence (.cons hswitch (.cons (.invocation rfl fun i x y hx hy _ => ?_) .nil))
    rcases i with - | - | i <;> cases hx <;> cases hy
    · exact .refl _
    · exact hinner
  have hwalk : (Resolver.walk ⟨(registry none).value, 10⟩ Sample.atFirst Sample.offering).result =
      .ok (.sequence [.str "a"]) := rfl
  exact ⟨hseen, hwalk,
    isolation 10 Sample.wellFormed_offering Sample.wellFormed_offeringEdited hseen hwalk⟩

end Isolation

end Standard

end VersionedTree
