import VersionedTree.Proofs.Walking

/-!
# Two walks side by side

Two walks of one tree, by resolvers that may differ and in contexts that may differ, run in step as
long as every invocation that they meet expands alike in both. They then give the same tree, or fail
with errors that look the same, where a function `view` says how closely errors are looked at.

## What is proved

* `Resolver.resolve_alike` — the stable forms of a node.
* `Resolver.walkWithin_alike` — whole walks.
-/

namespace VersionedTree

/-- The error for another version. -/
def ResolveError.withVersion (version : Version) : ResolveError → ResolveError
  | .multiFormInSlot slot node _ count => .multiFormInSlot slot node version count
  | .rootMultiplicity node _ forms => .rootMultiplicity node version forms
  | .passLimitExceeded node _ maxPasses lastForms =>
    .passLimitExceeded node version maxPasses lastForms
  | .unknownQualifier tag _ => .unknownQualifier tag version
  | .qualifier tag _ cause => .qualifier tag version cause

/-- The error for another version. -/
def WalkError.withVersion (version : Version) : WalkError → WalkError
  | .resolve cause => .resolve (cause.withVersion version)
  | .tooDeep _ => .tooDeep version

namespace Resolver

variable {δ : Type} {view : WalkError → δ} {P : Node → Prop} {r r' : Resolver} {ctx ctx' : Context}

/-- Two resolvers, in a context each, expand the nodes with a property alike, and expansions and
parts of nodes with the property have it too. -/
structure Agreement (view : WalkError → δ) (P : Node → Prop) (r : Resolver) (ctx : Context)
    (r' : Resolver) (ctx' : Context) : Prop where
  maxPasses : r.maxPasses = r'.maxPasses
  version : ∀ e : WalkError, view (e.withVersion ctx.version) = view (e.withVersion ctx'.version)
  parts : ∀ n, P n → n.isInvocation = false → ∀ m ∈ n.parts, P m
  returned : ∀ tag args, P (.invocation tag args) →
    (r.expandForm ctx (.node (.invocation tag args))).Meets (NodesSatisfy P) fun _ => True
  expand : ∀ tag args, P (.invocation tag args) →
    Traced.Alike (fun e => view (.resolve e)) (r.expandForm ctx (.node (.invocation tag args)))
      (r'.expandForm ctx' (.node (.invocation tag args)))

/-- One resolver runs in step in two contexts if its qualifiers run in step there, with errors that
look the same also when they are errors of the walk. -/
theorem Agreement.of_alike {κ : Type} (kind : QualifierError → κ)
    (hversion : ∀ e : WalkError,
      view (e.withVersion ctx.version) = view (e.withVersion ctx'.version))
    (hkind : ∀ tag d e, kind d = kind e → view (.resolve (.qualifier tag ctx.version d)) =
      view (.resolve (.qualifier tag ctx.version e)))
    (hparts : ∀ n, P n → n.isInvocation = false → ∀ m ∈ n.parts, P m)
    (hreturned : ∀ tag args, P (.invocation tag args) →
      (r.expandForm ctx (.node (.invocation tag args))).Meets (NodesSatisfy P) fun _ => True)
    (halike : ∀ tag args, P (.invocation tag args) → ∀ q, r.registry.get? tag = some q →
      Traced.Alike kind (q ctx args) (q ctx' args)) : Agreement view P r ctx r ctx' where
  maxPasses := rfl
  version := hversion
  parts := hparts
  returned := hreturned
  expand tag args hn := by
    unfold Traced.Alike
    cases hq : r.registry.get? tag with
    | none =>
      rw [result_expandForm_of_none hq, result_expandForm_of_none hq]
      exact congrArg Except.error
        (hversion (.resolve (.unknownQualifier tag ctx.version)))
    | some q =>
      rw [result_expandForm hq, result_expandForm hq]
      cases hx : (q ctx args).result with
      | error d =>
        obtain ⟨e, hy, hde⟩ := (halike tag args hn q hq).error hx
        rw [hy]
        exact congrArg Except.error ((hkind tag d e hde).trans
          (hversion (.resolve (.qualifier tag ctx.version e))))
      | ok e =>
        rw [(halike tag args hn q hq).ok hx]
        rfl

/-- One resolver runs in step in two contexts if its qualifiers give the same in both. -/
theorem Agreement.of_result_eq
    (hversion : ∀ e : WalkError,
      view (e.withVersion ctx.version) = view (e.withVersion ctx'.version))
    (hparts : ∀ n, P n → n.isInvocation = false → ∀ m ∈ n.parts, P m)
    (hreturned : ∀ tag args, P (.invocation tag args) →
      (r.expandForm ctx (.node (.invocation tag args))).Meets (NodesSatisfy P) fun _ => True)
    (hresult : ∀ tag args, P (.invocation tag args) → ∀ q, r.registry.get? tag = some q →
      (q ctx args).result = (q ctx' args).result) :
    Agreement view P r ctx r ctx' := by
  refine Agreement.of_alike id hversion (fun tag d e hde => ?_) hparts hreturned
    fun tag args hn q hq => ?_
  · exact congrArg (fun cause => view (.resolve (.qualifier tag ctx.version cause))) hde
  · exact congrArg (Except.mapError id) (hresult tag args hn q hq)

theorem expandForm_alike (h : Agreement view P r ctx r' ctx') {f : Form}
    (hf : ∀ n, f = .node n → P n) :
    Traced.Alike (fun e => view (.resolve e)) (r.expandForm ctx f) (r'.expandForm ctx' f) := by
  cases f with
  | deletion => exact Traced.alike_refl _
  | node n =>
    cases hi : n.isInvocation with
    | false =>
      rw [expandForm_of_not_isInvocation hi, expandForm_of_not_isInvocation hi]
      exact Traced.alike_refl _
    | true =>
      cases n with
      | invocation tag args => exact h.expand tag args (hf _ rfl)
      | _ => cases hi

theorem pass_alike (h : Agreement view P r ctx r' ctx') {forms : List Form}
    (hforms : NodesSatisfy P forms) :
    Traced.Alike (fun e => view (.resolve e)) (r.pass ctx forms) (r'.pass ctx' forms) := by
  refine Traced.alike_bind (Traced.alike_mapM fun f hf => ?_) fun _ _ => Traced.alike_refl _
  refine expandForm_alike h fun n hn => ?_
  subst hn
  exact hforms n hf

theorem settle_alike (h : Agreement view P r ctx r' ctx') {start : Node} {left done : Nat}
    {forms : List Form} (hforms : NodesSatisfy P forms) :
    Traced.Alike (fun e => view (.resolve e)) (r.settle ctx start left done forms)
      (r'.settle ctx' start left done forms) := by
  induction left generalizing done forms with
  | zero =>
    refine Traced.alike_throw ?_
    rw [← h.maxPasses]
    exact h.version (.resolve (.passLimitExceeded start ctx.version r.maxPasses forms))
  | succ left ih =>
    rw [settle, settle]
    refine Traced.alike_bind (pass_alike h hforms) fun next hnext => ?_
    split
    · exact Traced.alike_bind rfl fun _ _ => Traced.alike_refl _
    · exact ih ((pass_meets h.returned hforms).1 next hnext)

/-- The stable forms of a node are the same, or the errors look the same. -/
theorem resolve_alike (h : Agreement view P r ctx r' ctx') {n : Node} (hn : P n) :
    Traced.Alike (fun e => view (.resolve e)) (r.resolve ctx n) (r'.resolve ctx' n) := by
  rw [resolve, resolve, h.maxPasses]
  split
  · exact settle_alike h (nodesSatisfy_singleton.2 hn)
  · exact Traced.alike_refl _

/-- The property is an invariant of the left walk. -/
theorem Agreement.invariant (h : Agreement view P r ctx r' ctx') :
    WalkInvariant r ctx P P (fun _ => True) fun _ => True where
  slot _ hn := resolve_meets h.returned (fun _ => trivial) hn
  side _ _ _ _ _ _ := trivial
  deep := trivial
  parts := h.parts
  scalar _ := trivial
  invocation _ _ _ := trivial
  sequence _ _ := trivial
  set _ _ := trivial
  empty := trivial
  pair _ _ _ _ _ _ := trivial

theorem Agreement.of_mem_splice (h : Agreement view P r ctx r' ctx') {items nodes : List Node}
    (hitems : ∀ n ∈ items, P n) (hnodes : (r.splice ctx items).result = .ok nodes) {m : Node}
    (hm : m ∈ nodes) : P m :=
  (splice_meets h.invariant hitems).1 nodes hnodes m hm

theorem Agreement.of_mem_resolveSide (h : Agreement view P r ctx r' ctx') {slot : Slot}
    {m n : Node} (hn : P n) (hside : (r.resolveSide ctx slot n).result = .ok (some m)) : P m :=
  (resolveSide_meets h.invariant hn).1 (some m) hside m rfl

theorem Agreement.of_resolveRoot (h : Agreement view P r ctx r' ctx') {m n : Node} (hn : P n)
    (hroot : (r.resolveRoot ctx n).result = .ok m) : P m :=
  (resolveRoot_meets h.invariant hn fun _ _ _ => trivial).1 m hroot

theorem resolveSlot_alike (h : Agreement view P r ctx r' ctx') {n : Node} (hn : P n) :
    Traced.Alike view (r.resolveSlot ctx n) (r'.resolveSlot ctx' n) :=
  Traced.alike_adapt (resolve_alike h hn)

theorem splice_alike (h : Agreement view P r ctx r' ctx') {items : List Node}
    (hitems : ∀ n ∈ items, P n) :
    Traced.Alike view (r.splice ctx items) (r'.splice ctx' items) :=
  Traced.alike_bind (Traced.alike_mapM fun n hn => resolveSlot_alike h (hitems n hn))
    fun _ _ => Traced.alike_refl _

theorem resolveSide_alike (h : Agreement view P r ctx r' ctx') {slot : Slot} {n : Node}
    (hn : P n) : Traced.Alike view (r.resolveSide ctx slot n) (r'.resolveSide ctx' slot n) := by
  refine Traced.alike_bind (resolveSlot_alike h hn) fun forms _ => ?_
  split
  · exact Traced.alike_refl _
  · exact Traced.alike_refl _
  · exact Traced.alike_throw
      (h.version (.resolve (.multiFormInSlot slot n ctx.version forms.length)))

theorem resolvePair_alike (h : Agreement view P r ctx r' ctx')
    {descend descend' : Node → Traced WalkError Node}
    (hdescend : ∀ n, P n → Traced.Alike view (descend n) (descend' n))
    {built : List (Node × Node)} {p : Node × Node} (hkey : P p.1) (hvalue : P p.2) :
    Traced.Alike view (r.resolvePair ctx descend built p)
      (r'.resolvePair ctx' descend' built p) := by
  refine Traced.alike_bind (resolveSide_alike h hkey) fun key hk => ?_
  refine Traced.alike_bind (resolveSide_alike h hvalue) fun value hv => ?_
  cases key with
  | none => exact Traced.alike_refl _
  | some k =>
    cases value with
    | none => exact Traced.alike_refl _
    | some v =>
      refine Traced.alike_bind (hdescend k (h.of_mem_resolveSide hkey hk)) fun k' _ => ?_
      refine Traced.alike_bind (hdescend v (h.of_mem_resolveSide hvalue hv)) fun v' _ => ?_
      split
      · exact Traced.alike_bind rfl fun _ _ => Traced.alike_refl _
      · exact Traced.alike_refl _

/-- What is inside of a stable form is resolved alike. -/
theorem resolveInside_alike (h : Agreement view P r ctx r' ctx') {bound : Nat} {n : Node}
    (hn : P n) :
    Traced.Alike view (r.resolveInside ctx bound n) (r'.resolveInside ctx' bound n) := by
  induction bound generalizing n with
  | zero =>
    cases n with
    | scalar value => exact Traced.alike_refl _
    | invocation tag args => exact Traced.alike_refl _
    | _ => exact Traced.alike_throw (h.version (.tooDeep ctx.version))
  | succ bound ih =>
    cases n with
    | scalar value => exact Traced.alike_refl _
    | invocation tag args => exact Traced.alike_refl _
    | sequence items =>
      have hitems := h.parts _ hn rfl
      refine Traced.alike_bind (splice_alike h hitems) fun nodes hnodes => ?_
      refine Traced.alike_bind (Traced.alike_mapM fun m hm => ih ?_) fun _ _ =>
        Traced.alike_refl _
      exact h.of_mem_splice hitems hnodes hm
    | set members =>
      have hmembers := h.parts _ hn rfl
      refine Traced.alike_bind (splice_alike h hmembers) fun nodes hnodes => ?_
      refine Traced.alike_bind (Traced.alike_mapM fun m hm => ih ?_) fun _ _ =>
        Traced.alike_refl _
      exact h.of_mem_splice hmembers hnodes hm
    | mapping pairs =>
      have hparts := h.parts _ hn rfl
      refine Traced.alike_bind (Traced.alike_foldlM fun built p hp => ?_) fun _ _ =>
        Traced.alike_refl _
      exact resolvePair_alike h (fun m hm => ih hm)
        (hparts p.1 (Node.mem_parts_mapping.2 ⟨p, hp, .inl rfl⟩))
        (hparts p.2 (Node.mem_parts_mapping.2 ⟨p, hp, .inr rfl⟩))

/-- Two walks that run in step give the same tree, or fail with errors that look the same. -/
theorem walkWithin_alike (h : Agreement view P r ctx r' ctx') {bound : Nat} {tree : Node}
    (htree : P tree) :
    Traced.Alike view (r.walkWithin bound ctx tree) (r'.walkWithin bound ctx' tree) := by
  have hroot : Traced.Alike view (r.resolveRoot ctx tree) (r'.resolveRoot ctx' tree) := by
    refine Traced.alike_bind (resolveSlot_alike h htree) fun forms _ => ?_
    split
    · exact Traced.alike_refl _
    · exact Traced.alike_throw
        (h.version (.resolve (.rootMultiplicity tree ctx.version forms)))
  refine Traced.alike_bind rfl fun _ _ => ?_
  split
  · refine Traced.alike_bind hroot fun n hn => resolveInside_alike h ?_
    exact h.of_resolveRoot htree hn
  · exact resolveInside_alike h htree

end Resolver

end VersionedTree
