import VersionedTree.Proofs.Insertion
import VersionedTree.Proofs.Outcome
import VersionedTree.Resolution.Walk

/-!
# What holds along a walk

A walk alternates between two steps: the slots of a collection are resolved to stable forms, and the
walk descends into what they became. A property of walks is therefore a property of the nodes in
slots, one of the stable forms, and one of the finished nodes; `WalkInvariant` says how the three
have to fit, and `walkWithin_meets` follows once for all of them.

## What is proved

* `Resolver.result_expandForm` — one expansion, by what the qualifier gives.
* `Resolver.pass_eq_ok_iff` — one pass, by its expansions.
* `Resolver.resolve_eq_ok` — the forms that an invocation becomes are stable.
* `Resolver.resolve_meets` — what every expansion keeps holds of the stable forms.
* `Resolver.walkWithin_meets` — an invariant of walks holds of the tree that comes out.
* `Resolver.walkWithin_wellFormed` — where qualifiers return well-formed nodes, a well-formed tree
  resolves to a well-formed tree.
-/

namespace VersionedTree

/-- The forms that an expansion stands for. -/
def Expansion.asForms : Expansion → List Form
  | .forms nodes => nodes.map .node
  | .delete => [.deletion]

theorem Expansion.node_mem_asForms {n : Node} {e : Expansion} :
    .node n ∈ e.asForms ↔ ∃ nodes, e = .forms nodes ∧ n ∈ nodes := by
  cases e with
  | forms nodes => simp [asForms]
  | delete => simp [asForms]

/-- Every form that a qualifier returns is related to its arguments. -/
def Qualifier.Returns (q : Qualifier) (related : List Node → Node → Prop) : Prop :=
  ∀ ctx args nodes, (q ctx args).result = .ok (.forms nodes) → ∀ n ∈ nodes, related args n

/-- A qualifier that returns arguments or what is inside of arguments, and nothing else. -/
def Qualifier.Inward (q : Qualifier) : Prop :=
  q.Returns fun args n => ∃ a ∈ args, n ∈ a.subnodes

/-- Every qualifier of the registry is inward. -/
def Registry.Inward (r : Registry) : Prop := ∀ tag q, r.get? tag = some q → q.Inward

/-- From well-formed arguments, qualifiers of the registry return well-formed nodes. -/
def Registry.KeepsWellFormed (r : Registry) : Prop :=
  ∀ tag q, r.get? tag = some q →
    q.Returns fun args n => (∀ a ∈ args, a.WellFormed) → n.WellFormed

/-- What is inside of well-formed arguments is well formed. -/
theorem Registry.Inward.keepsWellFormed {r : Registry} (h : r.Inward) : r.KeepsWellFormed := by
  intro tag q hq ctx args nodes hnodes n hn hargs
  obtain ⟨a, ha, hna⟩ := h tag q hq ctx args nodes hnodes n hn
  exact (hargs a ha).subnode hna

namespace Resolver

variable {r : Resolver} {ctx : Context}

/-! ### One expansion -/

theorem expandForm_of_not_isInvocation {n : Node} (h : n.isInvocation = false) :
    r.expandForm ctx (.node n) = pure [.node n] := by
  cases n with
  | invocation tag args => cases h
  | _ => rfl

/-- A tag without a qualifier cannot be expanded. -/
theorem result_expandForm_of_none {tag : Tag} {args : List Node}
    (h : r.registry.get? tag = none) :
    (r.expandForm ctx (.node (.invocation tag args))).result =
      .error (.unknownQualifier tag ctx.version) := by
  rw [expandForm, h]
  rfl

/-- An invocation expands to what its qualifier gives. -/
theorem result_expandForm {tag : Tag} {args : List Node} {q : Qualifier}
    (h : r.registry.get? tag = some q) :
    (r.expandForm ctx (.node (.invocation tag args))).result =
      ((q ctx args).result.mapError (.qualifier tag ctx.version)).map Expansion.asForms := by
  rw [expandForm, h]
  dsimp only
  rw [Traced.result_bind, Traced.result_adapt]
  cases (q ctx args).result with
  | error cause => rfl
  | ok e => cases e <;> rfl

/-- What an expansion returns is what the qualifier returned. -/
theorem exists_of_node_mem_expandForm {tag : Tag} {args : List Node} {forms : List Form}
    {n : Node} (h : (r.expandForm ctx (.node (.invocation tag args))).result = .ok forms)
    (hn : .node n ∈ forms) : ∃ q nodes, r.registry.get? tag = some q ∧
      (q ctx args).result = .ok (.forms nodes) ∧ n ∈ nodes := by
  cases hq : r.registry.get? tag with
  | none =>
    rw [result_expandForm_of_none hq] at h
    cases h
  | some q =>
    rw [result_expandForm hq] at h
    cases he : (q ctx args).result with
    | error cause =>
      rw [he] at h
      cases h
    | ok e =>
      rw [he] at h
      cases h
      obtain ⟨nodes, rfl, hmem⟩ := Expansion.node_mem_asForms.1 hn
      exact ⟨q, nodes, rfl, he, hmem⟩

/-- What an inward qualifier returns has every property that passes to what is inside. -/
theorem of_node_mem_expandForm {tag : Tag} (h : ∀ q, r.registry.get? tag = some q → q.Inward)
    {P : Node → Prop} (hP : ∀ n, P n → ∀ m ∈ n.subnodes, P m) {args : List Node}
    {forms : List Form} (hn : P (.invocation tag args))
    (hforms : (r.expandForm ctx (.node (.invocation tag args))).result = .ok forms) {m : Node}
    (hm : .node m ∈ forms) : P m := by
  obtain ⟨q, nodes, hq, hnodes, hmem⟩ := exists_of_node_mem_expandForm hforms hm
  obtain ⟨a, ha, hma⟩ := h q hq ctx args nodes hnodes m hmem
  have hpart : a ∈ (Node.invocation tag args).parts := ha
  exact hP _ hn m (Node.subnodes_trans hma (Node.mem_subnodes_of_mem_parts hpart))

/-! ### One pass -/

section Pass

variable {forms next : List Form}

/-- A pass succeeds when all forms expand, and leaves their expansions one after the other. -/
theorem pass_eq_ok_iff : (r.pass ctx forms).result = .ok next ↔
    ∃ expanded : List (List Form),
      forms.map (fun f => (r.expandForm ctx f).result) = expanded.map .ok ∧
        expanded.flatten = next := by
  rw [pass, Traced.result_bind, Traced.result_mapM, Outcome.bind_eq_ok_iff]
  refine exists_congr fun expanded => and_congr Outcome.mapM_eq_ok_iff ?_
  rw [Traced.result_pure, Except.ok.injEq]

/-- A form that a pass leaves is in the expansion of a form before it. -/
theorem exists_of_mem_pass (h : (r.pass ctx forms).result = .ok next) {g : Form}
    (hg : g ∈ next) :
    ∃ f ∈ forms, ∃ fs, (r.expandForm ctx f).result = .ok fs ∧ g ∈ fs := by
  obtain ⟨expanded, hforms, rfl⟩ := pass_eq_ok_iff.1 h
  obtain ⟨fs, hfs, hg⟩ := List.mem_flatten.1 hg
  obtain ⟨f, hf, hexpand⟩ := List.mem_map.1 (hforms ▸ List.mem_map_of_mem hfs)
  exact ⟨f, hf, fs, hexpand, hg⟩

/-- Every form expands in a pass that succeeds, and the pass leaves its expansion. -/
theorem exists_expansion_of_pass (h : (r.pass ctx forms).result = .ok next) {f : Form}
    (hf : f ∈ forms) :
    ∃ fs, (r.expandForm ctx f).result = .ok fs ∧ ∀ g ∈ fs, g ∈ next := by
  obtain ⟨expanded, hforms, rfl⟩ := pass_eq_ok_iff.1 h
  obtain ⟨fs, hfs, hexpand⟩ := List.mem_map.1
    (hforms ▸ List.mem_map_of_mem (f := fun f => (r.expandForm ctx f).result) hf)
  exact ⟨fs, hexpand.symm, fun g hg => List.mem_flatten.2 ⟨fs, hfs, hg⟩⟩

end Pass

/-! ### The stable forms of a node -/

/-- One more pass over the forms gives equal forms. -/
def Stable (r : Resolver) (ctx : Context) (forms : List Form) : Prop :=
  ∃ next, (r.pass ctx forms).result = .ok next ∧ (next == forms) = true

theorem stable_of_settle {start : Node} {left done : Nat} {forms fs : List Form}
    (h : (r.settle ctx start left done forms).result = .ok fs) : r.Stable ctx fs := by
  induction left generalizing done forms with
  | zero => cases h
  | succ left ih =>
    rw [settle, Traced.result_bind] at h
    obtain ⟨next, hnext, h⟩ := Outcome.bind_eq_ok_iff.1 h
    split at h
    · rename_i heq
      cases h
      exact ⟨next, hnext, heq⟩
    · exact ih h

/-- An invocation becomes stable forms, and another node stands for itself. -/
theorem resolve_eq_ok {n : Node} {fs : List Form} (h : (r.resolve ctx n).result = .ok fs) :
    n.isInvocation = true ∧ r.Stable ctx fs ∨ n.isInvocation = false ∧ fs = [.node n] := by
  rw [resolve] at h
  split at h
  · rename_i hi
    exact .inl ⟨hi, stable_of_settle h⟩
  · rename_i hi
    cases h
    exact .inr ⟨Bool.eq_false_iff.2 hi, rfl⟩

section Resolve

variable {P : Node → Prop} {bad : ResolveError → Prop}

/-- The nodes among the forms have a property. -/
def NodesSatisfy (P : Node → Prop) (forms : List Form) : Prop := ∀ n, .node n ∈ forms → P n

@[simp]
theorem nodesSatisfy_singleton {n : Node} : NodesSatisfy P [.node n] ↔ P n := by
  simp [NodesSatisfy]

theorem pass_meets {forms : List Form}
    (hexpand : ∀ tag args, P (.invocation tag args) →
      (r.expandForm ctx (.node (.invocation tag args))).Meets (NodesSatisfy P) bad)
    (h : NodesSatisfy P forms) : (r.pass ctx forms).Meets (NodesSatisfy P) bad := by
  have hform : ∀ f ∈ forms, (r.expandForm ctx f).Meets (NodesSatisfy P) bad := by
    intro f hf
    cases f with
    | deletion => exact Traced.meets_pure fun n hn => by simp at hn
    | node n =>
      cases hi : n.isInvocation with
      | false =>
        rw [expandForm_of_not_isInvocation hi]
        exact Traced.meets_pure (nodesSatisfy_singleton.2 (h n hf))
      | true =>
        cases n with
        | invocation tag args => exact hexpand tag args (h _ hf)
        | _ => cases hi
  refine Traced.meets_bind (Traced.meets_mapM hform) fun expanded _ he => ?_
  refine Traced.meets_pure fun n hn => ?_
  obtain ⟨forms, hforms, hn⟩ := List.mem_flatten.1 hn
  exact he forms hforms n hn

theorem settle_meets {start : Node} {left done : Nat} {forms : List Form}
    (hexpand : ∀ tag args, P (.invocation tag args) →
      (r.expandForm ctx (.node (.invocation tag args))).Meets (NodesSatisfy P) bad)
    (hlimit : ∀ forms, bad (.passLimitExceeded start ctx.version r.maxPasses forms))
    (h : NodesSatisfy P forms) :
    (r.settle ctx start left done forms).Meets (NodesSatisfy P) bad := by
  induction left generalizing done forms with
  | zero => exact Traced.meets_throw (hlimit forms)
  | succ left ih =>
    rw [settle]
    refine Traced.meets_bind (pass_meets hexpand h) fun next _ hnext => ?_
    split
    · exact Traced.meets_bind (Traced.meets_record _) fun _ _ _ => Traced.meets_pure h
    · exact ih hnext

/-- What every expansion keeps holds of the stable forms. -/
theorem resolve_meets {n : Node}
    (hexpand : ∀ tag args, P (.invocation tag args) →
      (r.expandForm ctx (.node (.invocation tag args))).Meets (NodesSatisfy P) bad)
    (hlimit : ∀ forms, bad (.passLimitExceeded n ctx.version r.maxPasses forms)) (h : P n) :
    (r.resolve ctx n).Meets (NodesSatisfy P) bad := by
  have hn : NodesSatisfy P [.node n] := nodesSatisfy_singleton.2 h
  rw [resolve]
  split
  · exact settle_meets hexpand hlimit hn
  · exact Traced.meets_pure hn

end Resolve

/-! ### The walk -/

/-- How properties of nodes fit together along a walk: `before` holds of the nodes in slots,
`stable` of what a slot becomes, `after` of the finished nodes, and `bad` of the errors. -/
structure WalkInvariant (r : Resolver) (ctx : Context) (before stable after : Node → Prop)
    (bad : WalkError → Prop) : Prop where
  slot : ∀ n, before n →
    (r.resolve ctx n).Meets (NodesSatisfy stable) fun e => bad (.resolve e)
  side : ∀ slot n forms, before n → (r.resolve ctx n).result = .ok forms →
    (∀ f, forms ≠ [f]) → bad (.resolve (.multiFormInSlot slot n ctx.version forms.length))
  deep : bad (.tooDeep ctx.version)
  parts : ∀ n, stable n → n.isInvocation = false → ∀ m ∈ n.parts, before m
  scalar : ∀ value, after (.scalar value)
  invocation : ∀ tag args, stable (.invocation tag args) → after (.invocation tag args)
  sequence : ∀ items, (∀ m ∈ items, after m) → after (.sequence items)
  set : ∀ members, (∀ m ∈ members, after m) → after (.ofMembers members)
  empty : after (.mapping [])
  pair : ∀ key value built, after (.mapping built) → after key → after value →
    after (.mapping (Keyed.insert key value built))

section Walk

variable {before stable after : Node → Prop} {bad : WalkError → Prop}

theorem resolveSlot_meets (h : WalkInvariant r ctx before stable after bad) {n : Node}
    (hn : before n) : (r.resolveSlot ctx n).Meets (NodesSatisfy stable) bad :=
  Traced.meets_adapt (h.slot n hn)

theorem result_resolveSlot_ok {n : Node} {forms : List Form}
    (h : (r.resolveSlot ctx n).result = .ok forms) : (r.resolve ctx n).result = .ok forms := by
  rw [resolveSlot, Traced.result_adapt] at h
  cases hr : (r.resolve ctx n).result with
  | ok fs =>
    rw [hr] at h
    cases h
    rfl
  | error e =>
    rw [hr] at h
    cases h

/-- A node that was spliced in is among the forms of an item. -/
theorem exists_of_mem_splice {items nodes : List Node}
    (h : (r.splice ctx items).result = .ok nodes) {m : Node} (hm : m ∈ nodes) :
    ∃ n ∈ items, ∃ forms, (r.resolve ctx n).result = .ok forms ∧ .node m ∈ forms := by
  rw [splice, Traced.result_bind, Traced.result_mapM] at h
  obtain ⟨forms, hforms, h⟩ := Outcome.bind_eq_ok_iff.1 h
  cases h
  obtain ⟨f, hf, hfm⟩ := List.mem_filterMap.1 hm
  obtain ⟨fs, hfs, hf⟩ := List.mem_flatten.1 hf
  obtain ⟨n, hn, hresolve⟩ := Outcome.exists_of_mem_mapM hforms hfs
  cases f with
  | deletion => cases hfm
  | node m' =>
    cases hfm
    exact ⟨n, hn, fs, result_resolveSlot_ok hresolve, hf⟩

/-- What a side of a pair becomes is its only form. -/
theorem resolve_of_resolveSide {slot : Slot} {m n : Node}
    (h : (r.resolveSide ctx slot n).result = .ok (some m)) :
    (r.resolve ctx n).result = .ok [.node m] := by
  rw [resolveSide, Traced.result_bind] at h
  obtain ⟨forms, hforms, h⟩ := Outcome.bind_eq_ok_iff.1 h
  split at h
  · cases h
    exact result_resolveSlot_ok hforms
  · cases h
  · cases h

/-- What a root becomes is its only form. -/
theorem resolve_of_resolveRoot {m n : Node} (h : (r.resolveRoot ctx n).result = .ok m) :
    (r.resolve ctx n).result = .ok [.node m] := by
  rw [resolveRoot, Traced.result_bind] at h
  obtain ⟨forms, hforms, h⟩ := Outcome.bind_eq_ok_iff.1 h
  split at h
  · cases h
    exact result_resolveSlot_ok hforms
  · cases h

theorem splice_meets (h : WalkInvariant r ctx before stable after bad) {items : List Node}
    (hitems : ∀ n ∈ items, before n) :
    (r.splice ctx items).Meets (fun nodes => ∀ n ∈ nodes, stable n) bad := by
  refine Traced.meets_bind (Traced.meets_mapM fun n hn => resolveSlot_meets h (hitems n hn)) ?_
  intro forms _ hforms
  refine Traced.meets_pure fun n hn => ?_
  obtain ⟨f, hf, hfn⟩ := List.mem_filterMap.1 hn
  obtain ⟨fs, hfs, hf⟩ := List.mem_flatten.1 hf
  cases f with
  | deletion => cases hfn
  | node m =>
    cases hfn
    exact hforms fs hfs n hf

theorem resolveSide_meets (h : WalkInvariant r ctx before stable after bad) {slot : Slot}
    {n : Node} (hn : before n) :
    (r.resolveSide ctx slot n).Meets (fun side => ∀ m, side = some m → stable m) bad := by
  refine Traced.meets_bind (resolveSlot_meets h hn) fun forms hforms hstable => ?_
  split
  · rename_i m
    refine Traced.meets_pure fun m' hm' => ?_
    cases hm'
    exact hstable m (List.mem_cons_self ..)
  · exact Traced.meets_pure fun m hm => by cases hm
  · rename_i hnode hdeletion
    refine Traced.meets_throw (h.side slot n forms hn (result_resolveSlot_ok hforms) fun f hf => ?_)
    cases f with
    | node m => exact hnode m hf
    | deletion => exact hdeletion hf

theorem resolvePair_meets (h : WalkInvariant r ctx before stable after bad)
    {descend : Node → Traced WalkError Node}
    (hdescend : ∀ n, stable n → (descend n).Meets after bad)
    {built : List (Node × Node)} (hbuilt : after (.mapping built)) {p : Node × Node}
    (hkey : before p.1) (hvalue : before p.2) :
    (r.resolvePair ctx descend built p).Meets (fun pairs => after (.mapping pairs)) bad := by
  refine Traced.meets_bind (resolveSide_meets h hkey) fun key _ hk => ?_
  refine Traced.meets_bind (resolveSide_meets h hvalue) fun value _ hv => ?_
  cases key with
  | none => exact Traced.meets_pure hbuilt
  | some k =>
    cases value with
    | none => exact Traced.meets_pure hbuilt
    | some v =>
      refine Traced.meets_bind (hdescend k (hk k rfl)) fun k' _ hk' => ?_
      refine Traced.meets_bind (hdescend v (hv v rfl)) fun v' _ hv' => ?_
      have hinsert := h.pair k' v' built hbuilt hk' hv'
      split
      · exact Traced.meets_bind (Traced.meets_record _) fun _ _ _ => Traced.meets_pure hinsert
      · exact Traced.meets_pure hinsert

/-- An invariant of walks holds of what is inside of a stable form. -/
theorem resolveInside_meets (h : WalkInvariant r ctx before stable after bad) {bound : Nat}
    {n : Node} (hn : stable n) : (r.resolveInside ctx bound n).Meets after bad := by
  induction bound generalizing n with
  | zero =>
    cases n with
    | scalar value => exact Traced.meets_pure (h.scalar value)
    | invocation tag args => exact Traced.meets_pure (h.invocation tag args hn)
    | _ => exact Traced.meets_throw h.deep
  | succ bound ih =>
    cases n with
    | scalar value => exact Traced.meets_pure (h.scalar value)
    | invocation tag args => exact Traced.meets_pure (h.invocation tag args hn)
    | sequence items =>
      refine Traced.meets_bind (splice_meets h (h.parts _ hn rfl)) fun nodes _ hnodes => ?_
      refine Traced.meets_bind (Traced.meets_mapM fun m hm => ih (hnodes m hm)) ?_
      exact fun finished _ hf => Traced.meets_pure (h.sequence finished hf)
    | set members =>
      refine Traced.meets_bind (splice_meets h (h.parts _ hn rfl)) fun nodes _ hnodes => ?_
      refine Traced.meets_bind (Traced.meets_mapM fun m hm => ih (hnodes m hm)) ?_
      exact fun finished _ hf => Traced.meets_pure (h.set finished hf)
    | mapping pairs =>
      have hparts := h.parts _ hn rfl
      have hfold : (pairs.foldlM (r.resolvePair ctx (r.resolveInside ctx bound)) []).Meets
          (fun built => after (.mapping built)) bad :=
        Traced.meets_foldlM h.empty fun built hbuilt p hp =>
          resolvePair_meets h (fun m hm => ih hm) hbuilt
            (hparts p.1 (Node.mem_parts_mapping.2 ⟨p, hp, .inl rfl⟩))
            (hparts p.2 (Node.mem_parts_mapping.2 ⟨p, hp, .inr rfl⟩))
      exact Traced.meets_bind hfold fun finished _ hf => Traced.meets_pure hf

theorem resolveRoot_meets (h : WalkInvariant r ctx before stable after bad) {tree : Node}
    (htree : before tree)
    (hroot : ∀ forms, (r.resolve ctx tree).result = .ok forms → (∀ m, forms ≠ [.node m]) →
      bad (.resolve (.rootMultiplicity tree ctx.version forms))) :
    (r.resolveRoot ctx tree).Meets stable bad := by
  refine Traced.meets_bind (resolveSlot_meets h htree) fun forms hforms hstable => ?_
  split
  · exact Traced.meets_pure (hstable _ (List.mem_cons_self ..))
  · rename_i hne
    exact Traced.meets_throw (hroot forms (result_resolveSlot_ok hforms) fun m hm => hne m hm)

/-- An invariant of walks holds of the tree that comes out. -/
theorem walkWithin_meets (h : WalkInvariant r ctx before stable after bad) {bound : Nat}
    {tree : Node} (htree : before tree)
    (hroot : ∀ forms, (r.resolve ctx tree).result = .ok forms → (∀ m, forms ≠ [.node m]) →
      bad (.resolve (.rootMultiplicity tree ctx.version forms))) :
    (r.walkWithin bound ctx tree).Meets after bad := by
  refine Traced.meets_bind (Traced.meets_record _) fun _ _ _ => ?_
  split
  · exact Traced.meets_bind (resolveRoot_meets h htree hroot) fun n _ hn =>
      resolveInside_meets h hn
  · rename_i hi
    have hself : (r.resolve ctx tree).result = .ok [.node tree] := by
      rw [resolve, if_neg hi]
      rfl
    exact resolveInside_meets h ((h.slot tree htree).1 _ hself tree (List.mem_cons_self ..))

end Walk

theorem expandForm_wellFormed (h : r.registry.KeepsWellFormed) (tag : Tag) (args : List Node)
    (hargs : (Node.invocation tag args).WellFormed) :
    (r.expandForm ctx (.node (.invocation tag args))).Meets (NodesSatisfy Node.WellFormed)
      fun _ => True := by
  refine Traced.meets_of_ok fun forms hforms n hn => ?_
  obtain ⟨q, nodes, hq, hnodes, hmem⟩ := exists_of_node_mem_expandForm hforms hn
  exact h tag q hq ctx args nodes hnodes n hmem (Node.allWellFormed_iff.1 hargs)

/-- Well-formedness is an invariant of walks where qualifiers return well-formed nodes. -/
theorem wellFormedInvariant (h : r.registry.KeepsWellFormed) :
    WalkInvariant r ctx Node.WellFormed Node.WellFormed Node.WellFormed fun _ => True where
  slot _ hn := resolve_meets (expandForm_wellFormed h) (fun _ => trivial) hn
  side _ _ _ _ _ _ := trivial
  deep := trivial
  parts _ hn _ _ hm := hn.part hm
  scalar _ := trivial
  invocation _ _ hn := hn
  sequence _ hitems := Node.allWellFormed_iff.2 hitems
  set _ hmembers := .ofMembers hmembers
  empty := ⟨.nil, trivial⟩
  pair _ _ _ hbuilt hk hv := hbuilt.insert hk hv

/-- Where qualifiers return well-formed nodes, a well-formed tree resolves to a well-formed
tree. -/
theorem walkWithin_wellFormed (h : r.registry.KeepsWellFormed) {bound : Nat} {tree result : Node}
    (htree : tree.WellFormed) (hresult : (r.walkWithin bound ctx tree).result = .ok result) :
    result.WellFormed :=
  (walkWithin_meets (wellFormedInvariant h) htree fun _ _ _ => trivial).1 result hresult

end Resolver

end VersionedTree
