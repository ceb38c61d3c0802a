import Mathlib.Data.List.Flatten
import VersionedTree.Proofs.EqualTrees
import VersionedTree.Proofs.Rules

/-!
# What becomes of the content

The content of a tree is the list of its scalars from left to right, those in arguments included.
Resolution takes content away and does nothing else to it: what is left is in its order, and nothing
is there twice that was there once. A qualifier that picks among its arguments does so, and
everything else on the way splices, filters or drops.

Only a collision of keys breaks this, where a pair at the end gives its value to a key further up.

## The model

The relation between the content before and after is `List.Sublist`, and each part of a walk has one
lemma that says so of the content that it takes and the content that it yields.

## What is proved

* `Node.scalars_sublist_of_mem_subnodes` — what is inside of a node has part of its content.
* `Standard.selective_registry` — bundled qualifiers only select.
* `Resolver.settle_selects`, `Resolver.splice_selects`, `Resolver.mapping_selects` and
  `Resolver.resolveInside_selects` — so do passes, lists, mappings and walks.
* `Standard.walk_onlySelects` — the content of a resolved tree is part of the content of its source.
-/

namespace VersionedTree

/-! ### Content -/

/-- The scalar that a node is. -/
def Node.scalar? : Node → Option Scalar
  | .scalar value => some value
  | _ => none

/-- The scalars in a node, from left to right: keys and values of each pair in turn, members in the
order of insertion, and arguments. -/
def Node.scalars (n : Node) : List Scalar := n.subnodes.filterMap scalar?

/-- The scalars in a form. -/
def Form.scalars : Form → List Scalar
  | .node n => n.scalars
  | .deletion => []

/-- The scalars in a pair. -/
def Node.pairScalars (p : Node × Node) : List Scalar := p.1.scalars ++ p.2.scalars

theorem flatMap_flatten {α β : Type} (f : α → List β) (lists : List (List α)) :
    lists.flatten.flatMap f = lists.flatMap fun items => items.flatMap f := by
  rw [List.flatten_eq_flatMap, List.flatMap_assoc]
  rfl

theorem flatMap_reduceOption {α β : Type} (f : α → List β) (items : List (Option α)) :
    items.reduceOption.flatMap f = items.flatMap fun item? => item?.toList.flatMap f := by
  induction items with
  | nil => rfl
  | cons item? rest ih => cases item? <;> simp [List.reduceOption_cons_of_some, ih]

/-- If items have part of the content of others, so have lists of them. -/
theorem flatMap_sublist_of_forall₂ {α β γ : Type} {f : α → List γ} {g : β → List γ}
    {as : List α} {bs : List β} (h : List.Forall₂ (fun a b => (g b).Sublist (f a)) as bs) :
    (bs.flatMap g).Sublist (as.flatMap f) := by
  induction h with
  | nil => exact .slnil
  | cons hab _ ih =>
    rw [List.flatMap_cons, List.flatMap_cons]
    exact hab.append ih

namespace Node

theorem scalars_eq (n : Node) : n.scalars = n.scalar?.toList ++ n.parts.flatMap scalars := by
  rw [scalars, subnodes_eq, List.filterMap_cons, List.filterMap_flatMap]
  cases n <;> rfl

@[simp]
theorem scalars_sequence (items : List Node) :
    (sequence items).scalars = items.flatMap scalars := scalars_eq _

@[simp]
theorem scalars_set (members : List Node) : (set members).scalars = members.flatMap scalars :=
  scalars_eq _

@[simp]
theorem scalars_mapping (pairs : List (Node × Node)) :
    (mapping pairs).scalars = pairs.flatMap pairScalars := by
  have hpair : pairScalars = fun p => p.1.scalars ++ p.2.scalars := rfl
  rw [scalars_eq, parts, List.flatMap_assoc, hpair]
  simp [scalar?]

@[simp]
theorem scalars_invocation (tag : Tag) (args : List Node) :
    (invocation tag args).scalars = args.flatMap scalars := scalars_eq _

theorem scalars_sublist_of_mem {m : Node} {items : List Node} (h : m ∈ items) :
    m.scalars.Sublist (items.flatMap scalars) := by
  rw [List.flatMap_def]
  exact List.sublist_flatten_of_mem (List.mem_map_of_mem h)

/-- What is inside of a node has part of its content. -/
theorem scalars_sublist_of_mem_subnodes {m n : Node} (h : m ∈ n.subnodes) :
    m.scalars.Sublist n.scalars := by
  induction n using parts_induction with
  | step n ih =>
    rcases mem_subnodes_iff.1 h with rfl | ⟨p, hp, hm⟩
    · exact .refl _
    · rw [n.scalars_eq]
      exact (ih p hp hm).trans ((scalars_sublist_of_mem hp).trans (List.sublist_append_right ..))

end Node

/-! ### Qualifiers that select -/

/-- What the qualifier gives has part of the content of its arguments. -/
def Qualifier.Selective (q : Qualifier) : Prop :=
  ∀ ctx args e, (q ctx args).result = .ok e →
    (e.asForms.flatMap Form.scalars).Sublist (args.flatMap Node.scalars)

/-- Every qualifier of the registry only selects. -/
def Registry.Selective (r : Registry) : Prop := ∀ tag q, r.get? tag = some q → q.Selective

@[simp]
theorem Form.flatMap_scalars_map_node (nodes : List Node) :
    (nodes.map Form.node).flatMap Form.scalars = nodes.flatMap Node.scalars := List.flatMap_map ..

@[simp]
theorem Form.flatMap_scalars_filterMap_node? (forms : List Form) :
    (forms.filterMap Form.node?).flatMap Node.scalars = forms.flatMap Form.scalars := by
  induction forms with
  | nil => rfl
  | cons f rest ih =>
    rw [List.filterMap_cons, List.flatMap_cons]
    cases f <;> simp [Form.node?, Form.scalars, ih]

/-- A qualifier that gives one node at most, from inside of an argument, only selects. -/
theorem Qualifier.Inward.selective {q : Qualifier} (hinward : q.Inward)
    (hone : ∀ ctx args e, (q ctx args).result = .ok e → (∃ n, e = .single n) ∨ e = .delete) :
    q.Selective := by
  intro ctx args e he
  rcases hone ctx args e he with ⟨n, rfl⟩ | rfl
  · obtain ⟨a, ha, hna⟩ := hinward ctx args [n] he n (List.mem_singleton_self n)
    have hinside := Node.scalars_sublist_of_mem_subnodes hna
    simpa [Expansion.asForms, Form.scalars] using hinside.trans (Node.scalars_sublist_of_mem ha)
  · exact List.nil_sublist _

namespace Standard

/-- Forms under a condition are the arguments after the first one, or nothing. -/
theorem selective_includeWhen {usage : String}
    {test : Context → Node → Except QualifierError Bool} :
    (Qualifier.silent (Inclusion.includeWhen usage test)).Selective := by
  intro ctx args e he
  obtain ⟨condition, forms, b, rfl, -, rfl⟩ := Inclusion.includeWhen_eq_ok_iff.1 he
  cases b with
  | true =>
    show ((forms.map Form.node).flatMap Form.scalars).Sublist _
    rw [Form.flatMap_scalars_map_node, List.flatMap_cons]
    exact List.sublist_append_right ..
  | false => exact List.nil_sublist _

/-- Bundled qualifiers only select. -/
theorem selective_registry (m? : Option Manifest) : (registry m?).value.Selective := by
  intro tag q h
  refine forall_registry (P := fun _ q => q.Selective) selective_includeWhen selective_includeWhen
    selective_includeWhen ?_ ?_ (fun _ => selective_includeWhen) (fun m => ?_) h
  · refine Switch.inward_switch.selective fun ctx args e he => ?_
    obtain ⟨_, _, -, -, -, p, -, -, rfl⟩ := Switch.switch_eq_ok_iff.1 he
    exact .inl ⟨p.2, rfl⟩
  · refine ChangeLog.inward_changed.selective fun ctx args e he => ?_
    obtain ⟨_, _, _, form, -, -, -, rfl, -⟩ := ChangeLog.changed_eq_ok_iff.1 he
    exact .inl ⟨form, rfl⟩
  · refine (FeatureCase.inward_featureCase m).selective fun ctx args e he => ?_
    have hyields : (FeatureCase.featureCase m ctx args).Yields (fun _ => True) e :=
      ⟨he, fun _ _ => trivial⟩
    obtain ⟨-, form?, -, rfl⟩ := (FeatureCase.yields_featureCase_iff fun _ => trivial).1 hyields
    cases form? with
    | some form => exact .inl ⟨form, rfl⟩
    | none => exact .inr rfl

end Standard

/-! ### The parts of a walk -/

namespace Resolver

variable {r : Resolver} {ctx : Context} (hr : r.registry.Selective)

include hr

theorem expandForm_selects {f : Form} {fs : List Form} (h : (r.expandForm ctx f).result = .ok fs) :
    (fs.flatMap Form.scalars).Sublist f.scalars := by
  cases f with
  | deletion =>
    cases h
    exact .refl _
  | node n =>
    cases hi : n.isInvocation with
    | false =>
      rw [expandForm_of_not_isInvocation hi] at h
      cases h
      simp [Form.scalars]
    | true =>
      cases n with
      | invocation tag args =>
        cases hq : r.registry.get? tag with
        | none =>
          rw [result_expandForm_of_none hq] at h
          cases h
        | some q =>
          rw [result_expandForm hq, Outcome.map_eq_ok_iff] at h
          obtain ⟨e, he, rfl⟩ := h
          rw [Form.scalars, Node.scalars_invocation]
          exact hr tag q hq ctx args e (Outcome.mapError_eq_ok_iff.1 he)
      | _ => cases hi

/-- A pass expands form by form, in order. -/
theorem pass_selects {forms next : List Form} (h : (r.pass ctx forms).result = .ok next) :
    (next.flatMap Form.scalars).Sublist (forms.flatMap Form.scalars) := by
  rw [pass, Traced.result_bind, Traced.result_mapM] at h
  obtain ⟨expanded, hexpanded, h⟩ := Outcome.bind_eq_ok_iff.1 h
  cases h
  rw [flatMap_flatten]
  refine flatMap_sublist_of_forall₂ ((Outcome.mapM_eq_ok_iff_forall₂.1 hexpanded).imp ?_)
  exact fun f fs hfs => expandForm_selects hr hfs

/-- Content is only taken away from pass to pass, however many there are. -/
theorem settle_selects {start : Node} {left done : Nat} {forms fs : List Form}
    (h : (r.settle ctx start left done forms).result = .ok fs) :
    (fs.flatMap Form.scalars).Sublist (forms.flatMap Form.scalars) := by
  induction left generalizing done forms with
  | zero => cases h
  | succ left ih =>
    rw [settle, Traced.result_bind] at h
    obtain ⟨next, hnext, h⟩ := Outcome.bind_eq_ok_iff.1 h
    split at h
    · cases h
      exact .refl _
    · exact (ih h).trans (pass_selects hr hnext)

theorem resolve_selects {n : Node} {forms : List Form}
    (h : (r.resolve ctx n).result = .ok forms) :
    (forms.flatMap Form.scalars).Sublist n.scalars := by
  have hself : [Form.node n].flatMap Form.scalars = n.scalars := by simp [Form.scalars]
  rw [resolve] at h
  split at h
  · exact hself ▸ settle_selects hr h
  · cases h
    rw [hself]

/-- Of one item all forms are spliced in before those of the next one. -/
theorem splice_selects {items nodes : List Node} (h : (r.splice ctx items).result = .ok nodes) :
    (nodes.flatMap Node.scalars).Sublist (items.flatMap Node.scalars) := by
  rw [splice, Traced.result_bind, Traced.result_mapM] at h
  obtain ⟨forms, hforms, h⟩ := Outcome.bind_eq_ok_iff.1 h
  cases h
  rw [Form.flatMap_scalars_filterMap_node?, flatMap_flatten]
  refine flatMap_sublist_of_forall₂ ((Outcome.mapM_eq_ok_iff_forall₂.1 hforms).imp ?_)
  exact fun n fs hfs => resolve_selects hr (result_resolveSlot_ok hfs)

/-- A slot that becomes one node becomes one with part of its content. -/
theorem scalars_sublist_of_resolve {m n : Node} (h : (r.resolve ctx n).result = .ok [.node m]) :
    m.scalars.Sublist n.scalars := by
  simpa [Form.scalars] using resolve_selects hr h

section Inside

variable {permitted : Event → Prop} {descend : Node → Traced WalkError Node}

theorem finishPair_selects
    (hdescend : ∀ n m, (descend n).Yields permitted m → m.scalars.Sublist n.scalars)
    {p : Node × Node} {q? : Option (Node × Node)}
    (h : (r.finishPair ctx descend p).Yields permitted q?) :
    (q?.toList.flatMap Node.pairScalars).Sublist (Node.pairScalars p) := by
  rw [finishPair, Traced.yields_bind_iff] at h
  obtain ⟨key?, hkey, h⟩ := h
  obtain ⟨value?, hvalue, h⟩ := Traced.yields_bind_iff.1 h
  cases key? with
  | none =>
    obtain rfl := Traced.yields_pure_iff.1 h
    exact List.nil_sublist _
  | some key =>
    cases value? with
    | none =>
      obtain rfl := Traced.yields_pure_iff.1 h
      exact List.nil_sublist _
    | some value =>
      obtain ⟨k, hk, h⟩ := Traced.yields_bind_iff.1 h
      obtain ⟨v, hv, h⟩ := Traced.yields_bind_iff.1 h
      obtain rfl := Traced.yields_pure_iff.1 h
      have hkeys := scalars_sublist_of_resolve hr (resolve_of_resolveSide hkey.1)
      have hvalues := scalars_sublist_of_resolve hr (resolve_of_resolveSide hvalue.1)
      rw [Option.toList_some, List.flatMap_singleton]
      exact ((hdescend key k hk).trans hkeys).append ((hdescend value v hv).trans hvalues)

/-- Where no keys collide, the pairs that stay do so in order. -/
theorem mapping_selects (hnone : ¬permitted (.keysCollided ctx.version))
    (hdescend : ∀ n m, (descend n).Yields permitted m → m.scalars.Sublist n.scalars)
    {pairs result : List (Node × Node)}
    (h : (pairs.foldlM (r.resolvePair ctx descend) []).Yields permitted result) :
    (result.flatMap Node.pairScalars).Sublist (pairs.flatMap Node.pairScalars) := by
  obtain ⟨finished, hfinished, hnew, rfl⟩ := yields_foldlM_resolvePair_iff.1 h
  rw [Keyed.ofList_of_newTo (hnew.resolve_left hnone), flatMap_reduceOption]
  refine flatMap_sublist_of_forall₂ ((Traced.yields_mapM_iff.1 hfinished).imp ?_)
  exact fun p q? hq => finishPair_selects hr hdescend hq

/-- What is inside of a slot only loses content on the way down. -/
theorem resolveInside_selects (hnone : ¬permitted (.keysCollided ctx.version)) {bound : Nat}
    {n m : Node} (h : (r.resolveInside ctx bound n).Yields permitted m) :
    m.scalars.Sublist n.scalars := by
  induction bound generalizing n m with
  | zero =>
    cases n with
    | scalar value =>
      obtain rfl := Traced.yields_pure_iff.1 h
      exact .refl _
    | invocation tag args =>
      obtain rfl := Traced.yields_pure_iff.1 h
      exact .refl _
    | _ => exact absurd h Traced.not_yields_throw
  | succ bound ih =>
    have hlist : ∀ {nodes ms : List Node},
        (nodes.mapM (r.resolveInside ctx bound)).Yields permitted ms →
        (ms.flatMap Node.scalars).Sublist (nodes.flatMap Node.scalars) := fun hms =>
      flatMap_sublist_of_forall₂ ((Traced.yields_mapM_iff.1 hms).imp fun _ _ hm => ih hm)
    cases n with
    | scalar value =>
      obtain rfl := Traced.yields_pure_iff.1 h
      exact .refl _
    | invocation tag args =>
      obtain rfl := Traced.yields_pure_iff.1 h
      exact .refl _
    | sequence items =>
      obtain ⟨nodes, hnodes, h⟩ := Traced.yields_bind_iff.1 h
      obtain ⟨ms, hms, h⟩ := Traced.yields_bind_iff.1 h
      obtain rfl := Traced.yields_pure_iff.1 h
      rw [Node.scalars_sequence, Node.scalars_sequence]
      exact (hlist hms).trans (splice_selects hr hnodes.1)
    | set members =>
      obtain ⟨nodes, hnodes, h⟩ := Traced.yields_bind_iff.1 h
      obtain ⟨ms, hms, h⟩ := Traced.yields_bind_iff.1 h
      obtain rfl := Traced.yields_pure_iff.1 h
      rw [Node.ofMembers, Node.scalars_set, Node.scalars_set]
      -- of equal members the first one stays
      have hdistinct := (Distinct.ofList_sublist ms).flatMap Node.scalars
      exact hdistinct.trans ((hlist hms).trans (splice_selects hr hnodes.1))
    | mapping pairs =>
      obtain ⟨result, hresult, h⟩ := Traced.yields_bind_iff.1 h
      obtain rfl := Traced.yields_pure_iff.1 h
      rw [Node.scalars_mapping, Node.scalars_mapping]
      exact mapping_selects hr hnone (fun _ _ hm => ih hm) hresult

theorem walkWithin_selects (hnone : ¬permitted (.keysCollided ctx.version)) {bound : Nat}
    {tree result : Node} (h : (r.walkWithin bound ctx tree).Yields permitted result) :
    result.scalars.Sublist tree.scalars := by
  obtain ⟨_, -, h⟩ := Traced.yields_bind_iff.1 h
  split at h
  · obtain ⟨n, hn, h⟩ := Traced.yields_bind_iff.1 h
    exact (resolveInside_selects hr hnone h).trans
      (scalars_sublist_of_resolve hr (resolve_of_resolveRoot hn.1))
  · exact resolveInside_selects hr hnone h

end Inside

end Resolver

/-! ### The content of a resolved tree -/

namespace Standard

/-- With the bundled qualifiers, no content is invented, duplicated or reordered: if a tree resolves
and no keys collide on the way, its scalars from left to right are, with some left out, those of the
tree that comes out. -/
theorem walk_onlySelects (m? : Option Manifest) (ctx : Context) (maxPasses : Nat)
    (tree result : Node)
    (h : (Resolver.walk ⟨(registry m?).value, maxPasses⟩ ctx tree).result = .ok result)
    (hfree : (Resolver.walk ⟨(registry m?).value, maxPasses⟩ ctx tree).CollisionFree) :
    result.scalars.Sublist tree.scalars := by
  have hnone : ¬(Event.keysCollided ctx.version).NoCollision := fun hno => hno ctx.version rfl
  exact Resolver.walkWithin_selects (selective_registry m?) hnone ⟨h, hfree⟩

end Standard

/-! ### A tree with every kind of loss -/

namespace Sample

/-- Forms of several scalars, a set in which two members become equal, a pair that is deleted, a log
and a form for each version. -/
def mixed : Node :=
  .mapping [
    (.str "list", .sequence [.int 1, .invocation Standard.addedTag [.str "v1", .int 2, .int 3],
      .invocation Standard.removedTag [.str "v1", .int 4], .int 5]),
    (.invocation Standard.addedTag [.str "v2", .str "later"], .int 6),
    (.set [.str "y", nested, .str "x"],
      .invocation Standard.changedTag [.str "a", .str "v1", .sequence [.str "b", .str "c"]]),
    (.str "last", .invocation Standard.switchTag
      [.mapping [(.str "v2", .int 9), (.str "v1", .int 8), (.str "v0", .int 7)]])]

/-- What is left of it at `v1`. -/
def mixedAtSecond : Node :=
  .mapping [(.str "list", .sequence [.int 1, .int 2, .int 3, .int 5]),
    (.set [.str "y", .str "x"], .sequence [.str "b", .str "c"]), (.str "last", .int 8)]

end Sample

theorem Standard.walk_onlySelects_mixed :
    (Resolver.walk ⟨(registry none).value, 10⟩ Sample.atSecond Sample.mixed).result =
      .ok Sample.mixedAtSecond ∧
    (Resolver.walk ⟨(registry none).value, 10⟩ Sample.atSecond Sample.mixed).CollisionFree ∧
    Sample.mixedAtSecond.scalars.Sublist Sample.mixed.scalars := by
  have hwalk : (Resolver.walk ⟨(registry none).value, 10⟩ Sample.atSecond Sample.mixed).result =
      .ok Sample.mixedAtSecond := rfl
  have hfree : (Resolver.walk ⟨(registry none).value, 10⟩ Sample.atSecond
      Sample.mixed).CollisionFree := by
    have hevents : (Resolver.walk ⟨(registry none).value, 10⟩ Sample.atSecond
        Sample.mixed).events =
      [.walking ⟨"v1"⟩, .settled ⟨"v1"⟩ 1 2, .settled ⟨"v1"⟩ 1 1, .settled ⟨"v1"⟩ 1 1,
        .settled ⟨"v1"⟩ 1 1, .settled ⟨"v1"⟩ 2 1, .settled ⟨"v1"⟩ 1 1] := rfl
    simp [Traced.CollisionFree, Event.NoCollision, hevents]
  exact ⟨hwalk, hfree, walk_onlySelects none Sample.atSecond 10 _ _ hwalk hfree⟩

-- Where keys collide, the value of the later pair stands before what stood between them.
example :
    (Resolver.walk ⟨(Standard.registry none).value, 10⟩ Sample.atSecond
      (.mapping [(.str "y", .int 1), (.str "z", .int 2), (Sample.nested, .int 3)])).result =
        .ok (.mapping [(.str "y", .int 3), (.str "z", .int 2)]) := rfl

end VersionedTree
