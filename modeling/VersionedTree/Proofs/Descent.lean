import VersionedTree.Proofs.Compiling
import VersionedTree.Proofs.Following

/-!
# Walks that come to an end

A walk recurses into what qualifiers return, so the tree alone does not bound it: a qualifier that
returns its own invocation inside of a collection is followed for ever. Where qualifiers return
arguments or what is inside of arguments, every node that the walk descends into comes from strictly
inside of the collection before it, so the recursion goes down.

A qualifier that makes its own invocation grow does no harm beside them. It is never stable, since
stable forms would hold longer and longer invocations, and therefore never reaches a collection.

`Resolver.resolveInsideBy` is one level of the recursion, without a bound. That the recursion ends
is said in three ways: each step goes down, the equation of the recursion has one solution, and the
bounded walk does not run into its bound.

## What is proved

* `Resolver.mem_subnodes_of_resolve` — the stable forms of a node are subnodes of it.
* `Resolver.Descends.inside` — a step of the recursion leads strictly inside.
* `Resolver.eq_resolveInsideBy_iff` — the equation of the recursion has one solution.
* `Resolver.result_walkWithin_of_depth_le` — all bounds that are deep enough give the same.
* `Compiler.compile_terminates` — compilations end.
-/

namespace VersionedTree

/-! ### Qualifiers that grow -/

/-- The qualifier always gives an invocation of the tag with more arguments. -/
def Qualifier.Grows (q : Qualifier) (tag : Tag) : Prop :=
  ∀ ctx args, ∃ longer : List Node, (q ctx args).result = .ok (.single (.invocation tag longer)) ∧
    args.length < longer.length

/-- Every qualifier of the registry is inward, or makes its own invocation grow. -/
def Registry.InwardOrGrowing (r : Registry) : Prop :=
  ∀ tag q, r.get? tag = some q → q.Inward ∨ q.Grows tag

/-- The node invokes a qualifier that makes the invocation grow. -/
def Registry.InvokesGrowing (r : Registry) (n : Node) : Prop :=
  ∃ tag args q, n = .invocation tag args ∧ r.get? tag = some q ∧ q.Grows tag

theorem Registry.Inward.inwardOrGrowing {r : Registry} (h : r.Inward) : r.InwardOrGrowing :=
  fun tag q hq => .inl (h tag q hq)

theorem Sample.grows_grow (tag : Tag) : (Qualifier.silent (grow tag)).Grows tag := by
  intro ctx args
  refine ⟨args ++ [.nil], rfl, ?_⟩
  simp

/-- All small qualifiers of the registry are inward, except for one that grows. -/
theorem Sample.inwardOrGrowing_registry : registry.InwardOrGrowing := by
  intro tag q hq
  have hmem := Table.get?_eq_some_iff.1 hq
  have hentries : registry.entries = [(⟨"when"⟩, .silent when), (⟨"since"⟩, .silent since),
    (⟨"splice"⟩, .silent splice), (⟨"drop"⟩, .silent drop),
    (⟨"grow"⟩, .silent (grow ⟨"grow"⟩))] := rfl
  rw [hentries] at hmem
  simp only [List.mem_cons, List.not_mem_nil, or_false, Prod.mk.injEq] at hmem
  rcases hmem with ⟨rfl, rfl⟩ | ⟨rfl, rfl⟩ | ⟨rfl, rfl⟩ | ⟨rfl, rfl⟩ | ⟨rfl, rfl⟩
  · exact .inl inward_when
  · exact .inl inward_since
  · exact .inl inward_splice
  · exact .inl inward_drop
  · exact .inr (grows_grow _)

/-- The number of arguments of an invocation. -/
def Node.argCount : Node → Nat
  | .invocation _ args => args.length
  | _ => 0

namespace Resolver

variable {r : Resolver} {ctx : Context}

/-! ### Stable forms come from inside -/

theorem expandForm_of_grows {tag : Tag} {q : Qualifier} (hq : r.registry.get? tag = some q)
    (hgrows : q.Grows tag) (ctx : Context) (args : List Node) :
    ∃ longer : List Node, (r.expandForm ctx (.node (.invocation tag args))).result =
      .ok [.node (.invocation tag longer)] ∧ args.length < longer.length := by
  obtain ⟨longer, hlonger, hlt⟩ := hgrows ctx args
  refine ⟨longer, ?_, hlt⟩
  rw [result_expandForm hq, hlonger]
  rfl

/-- There is no growing invocation among stable forms: the next pass would leave a longer one, and
an equal one would stand among the forms. -/
theorem Stable.not_invokesGrowing {forms : List Form} (h : r.Stable ctx forms) {n : Node}
    (hn : .node n ∈ forms) : ¬r.registry.InvokesGrowing n := by
  obtain ⟨next, hpass, hstable⟩ := h
  refine Form.not_of_ascending Node.argCount (fun m hm hgrowing => ?_) hn
  obtain ⟨tag, args, q, rfl, hq, hgrows⟩ := hgrowing
  obtain ⟨longer, hlonger, hlt⟩ := expandForm_of_grows hq hgrows ctx args
  obtain ⟨fs, hfs, hmem⟩ := exists_expansion_of_pass hpass hm
  rw [hlonger] at hfs
  cases hfs
  obtain ⟨m, hm, heq⟩ :=
    Following.exists_right (Form.related_of_beq hstable) (hmem _ (List.mem_singleton_self _))
  cases Node.beq_iff_matches.1 heq with
  | invocation _ hargs =>
    refine ⟨_, hm, ⟨tag, _, q, rfl, hq, hgrows⟩, ?_⟩
    exact Nat.lt_of_lt_of_eq hlt hargs.1

/-- The node `m` is inside of `n`, or a growing invocation. -/
def InsideOrGrowing (r : Resolver) (n m : Node) : Prop :=
  m ∈ n.subnodes ∨ r.registry.InvokesGrowing m

/-- What an expansion returns is inside of the invocation, or grows as the invocation does. -/
theorem expandForm_insideOrGrowing (h : r.registry.InwardOrGrowing) {n : Node} (tag : Tag)
    (args : List Node) (hn : r.InsideOrGrowing n (.invocation tag args)) :
    (r.expandForm ctx (.node (.invocation tag args))).Meets (NodesSatisfy (r.InsideOrGrowing n))
      fun _ => True := by
  refine Traced.meets_of_ok fun fs hfs m hm => ?_
  obtain ⟨q, nodes, hq, hnodes, hmem⟩ := exists_of_node_mem_expandForm hfs hm
  by_cases hgrows : q.Grows tag
  · obtain ⟨longer, hlonger, -⟩ := hgrows ctx args
    rw [hnodes, Except.ok.injEq, Expansion.forms.injEq] at hlonger
    rw [hlonger, List.mem_singleton] at hmem
    exact .inr ⟨tag, longer, q, hmem, hq, hgrows⟩
  · have hinside : .invocation tag args ∈ n.subnodes := by
      refine hn.resolve_right fun hgrowing => hgrows ?_
      obtain ⟨tag', args', q', heq, hq', hgrows'⟩ := hgrowing
      cases heq
      rw [hq, Option.some.injEq] at hq'
      exact hq' ▸ hgrows'
    obtain ⟨a, ha, hma⟩ := (h tag q hq).resolve_right hgrows ctx args nodes hnodes m hmem
    have hpart : a ∈ (Node.invocation tag args).parts := ha
    exact .inl (Node.subnodes_trans hma
      (Node.subnodes_trans (Node.mem_subnodes_of_mem_parts hpart) hinside))

/-- The stable forms of a node are subnodes of it. -/
theorem mem_subnodes_of_resolve (h : r.registry.InwardOrGrowing) {m n : Node} {forms : List Form}
    (hforms : (r.resolve ctx n).result = .ok forms) (hm : .node m ∈ forms) : m ∈ n.subnodes := by
  have hresolve : (r.resolve ctx n).Meets (NodesSatisfy (r.InsideOrGrowing n)) fun _ => True :=
    resolve_meets (expandForm_insideOrGrowing h) (fun _ => trivial) (.inl n.self_mem_subnodes)
  rcases hresolve.1 forms hforms m hm with hinside | hgrowing
  · exact hinside
  · rcases resolve_eq_ok hforms with ⟨-, hstable⟩ | ⟨-, rfl⟩
    · exact absurd hgrowing (hstable.not_invokesGrowing hm)
    · rw [List.mem_singleton, Form.node.injEq] at hm
      exact hm ▸ n.self_mem_subnodes

/-! ### The recursion of a walk -/

/-- One level of `resolveInside`, without a bound: `descend` resolves what is inside of what the
slots became. -/
def resolveInsideBy (r : Resolver) (ctx : Context) (descend : Node → Traced WalkError Node) :
    Node → Traced WalkError Node
  | .scalar value => return .scalar value
  | .invocation tag args => return .invocation tag args
  | .sequence items => do
    let items ← r.splice ctx items
    return .sequence (← items.mapM descend)
  | .set members => do
    let members ← r.splice ctx members
    return .ofMembers (← members.mapM descend)
  | .mapping pairs => do
    return .mapping (← pairs.foldlM (r.resolvePair ctx descend) [])

theorem resolveInside_succ (bound : Nat) (n : Node) :
    r.resolveInside ctx (bound + 1) n = r.resolveInsideBy ctx (r.resolveInside ctx bound) n := by
  cases n <;> rfl

/-- The nodes that the walk of a collection descends into. -/
inductive Descends (r : Resolver) (ctx : Context) : Node → Node → Prop where
  /-- What an item of a sequence became. -/
  | item {items nodes : List Node} {m : Node} (h : (r.splice ctx items).result = .ok nodes)
      (hm : m ∈ nodes) : Descends r ctx (.sequence items) m
  /-- What a member of a set became. -/
  | member {members nodes : List Node} {m : Node} (h : (r.splice ctx members).result = .ok nodes)
      (hm : m ∈ nodes) : Descends r ctx (.set members) m
  /-- What a key of a mapping became. -/
  | key {pairs : List (Node × Node)} {p : Node × Node} {m : Node} (hp : p ∈ pairs)
      (h : (r.resolveSide ctx .key p.1).result = .ok (some m)) : Descends r ctx (.mapping pairs) m
  /-- What a value of a mapping became. -/
  | value {pairs : List (Node × Node)} {p : Node × Node} {m : Node} (hp : p ∈ pairs)
      (h : (r.resolveSide ctx .value p.2).result = .ok (some m)) :
      Descends r ctx (.mapping pairs) m

/-- A step of the recursion leads strictly inside of the collection. -/
theorem Descends.inside (h : r.registry.InwardOrGrowing) {m n : Node} (hmn : r.Descends ctx n m) :
    ∃ p ∈ n.parts, m ∈ p.subnodes := by
  cases hmn with
  | item hnodes hm | member hnodes hm =>
    obtain ⟨p, hp, forms, hforms, hm⟩ := exists_of_mem_splice hnodes hm
    exact ⟨p, hp, mem_subnodes_of_resolve h hforms hm⟩
  | @key pairs p _ hp hside =>
    exact ⟨p.1, Node.mem_parts_mapping.2 ⟨p, hp, .inl rfl⟩,
      mem_subnodes_of_resolve h (resolve_of_resolveSide hside) (List.mem_singleton_self _)⟩
  | @value pairs p _ hp hside =>
    exact ⟨p.2, Node.mem_parts_mapping.2 ⟨p, hp, .inr rfl⟩,
      mem_subnodes_of_resolve h (resolve_of_resolveSide hside) (List.mem_singleton_self _)⟩

theorem Descends.depth_lt (h : r.registry.InwardOrGrowing) {m n : Node}
    (hmn : r.Descends ctx n m) : m.depth < n.depth := by
  obtain ⟨p, hp, hm⟩ := hmn.inside h
  calc m.depth ≤ p.depth := Node.depth_le_of_mem_subnodes hm
    _ < n.depth := Node.depth_lt_of_mem_parts hp

/-- Steps of the recursion nest no deeper than the node that they start from. -/
theorem length_le_depth_of_isChain (h : r.registry.InwardOrGrowing) {n : Node} {path : List Node}
    (hpath : List.IsChain (r.Descends ctx) (n :: path)) : path.length ≤ n.depth := by
  induction path generalizing n with
  | nil => exact Nat.zero_le _
  | cons m path ih =>
    obtain ⟨hnm, hpath⟩ := List.isChain_cons_cons.1 hpath
    have hlt := hnm.depth_lt h
    have hle := ih hpath
    rw [List.length_cons]
    omega

/-- One level depends on the recursion only where it descends. -/
theorem resolveInsideBy_congr {f g : Node → Traced WalkError Node} {n : Node}
    (h : ∀ m, r.Descends ctx n m → f m = g m) :
    r.resolveInsideBy ctx f n = r.resolveInsideBy ctx g n := by
  cases n with
  | scalar value | invocation tag args => rfl
  | sequence items =>
    refine Traced.bind_congr_of_ok fun nodes hnodes => ?_
    rw [Traced.mapM_congr fun m hm => h m (.item hnodes hm)]
  | set members =>
    refine Traced.bind_congr_of_ok fun nodes hnodes => ?_
    rw [Traced.mapM_congr fun m hm => h m (.member hnodes hm)]
  | mapping pairs =>
    have hpair : ∀ built, ∀ p ∈ pairs,
        r.resolvePair ctx f built p = r.resolvePair ctx g built p := by
      intro built p hp
      refine Traced.bind_congr_of_ok fun key hkey => Traced.bind_congr_of_ok fun value hvalue => ?_
      cases key with
      | none => rfl
      | some k =>
        cases value with
        | none => rfl
        | some v =>
          dsimp only
          rw [h k (.key hp hkey), h v (.value hp hvalue)]
    rw [resolveInsideBy, resolveInsideBy, Traced.foldlM_congr hpair]

/-! ### The recursion ends -/

/-- Two bounds that are deep enough for a node give the same. -/
theorem resolveInside_eq_of_depth_le (h : r.registry.InwardOrGrowing) {bound bound' : Nat}
    {n : Node} (hn : n.depth ≤ bound) (hn' : n.depth ≤ bound') :
    r.resolveInside ctx bound n = r.resolveInside ctx bound' n := by
  induction bound generalizing n bound' with
  | zero =>
    cases n with
    | scalar value => cases bound' <;> rfl
    | _ => exact absurd hn (Nat.not_succ_le_zero _)
  | succ bound ih =>
    cases bound' with
    | zero =>
      cases n with
      | scalar value => rfl
      | _ => exact absurd hn' (Nat.not_succ_le_zero _)
    | succ bound' =>
      rw [resolveInside_succ, resolveInside_succ]
      refine resolveInsideBy_congr fun m hm => ?_
      have hlt := hm.depth_lt h
      exact ih (by omega) (by omega)

/-- The recursion without a bound has one solution: what the recursion gives that is bounded by the
depth of the node. -/
theorem eq_resolveInsideBy_iff (h : r.registry.InwardOrGrowing)
    {f : Node → Traced WalkError Node} :
    (∀ n, f n = r.resolveInsideBy ctx f n) ↔ ∀ n, f n = r.resolveInside ctx n.depth n := by
  -- the bounded recursion solves the equation, since any bound that is deep enough does as well
  have hsolves : ∀ n, r.resolveInside ctx n.depth n =
      r.resolveInsideBy ctx (fun m => r.resolveInside ctx m.depth m) n := by
    intro n
    rw [resolveInside_eq_of_depth_le h (Nat.le_refl _) (Nat.le_succ _), resolveInside_succ]
    refine resolveInsideBy_congr fun m hm => ?_
    exact resolveInside_eq_of_depth_le h (Nat.le_of_lt (hm.depth_lt h)) (Nat.le_refl _)
  constructor
  · intro hf n
    induction hd : n.depth using Nat.strongRecOn generalizing n with
    | ind d ih =>
      subst hd
      rw [hf, hsolves]
      exact resolveInsideBy_congr fun m hm => ih _ (hm.depth_lt h) m rfl
  · intro hf n
    obtain rfl : f = fun m => r.resolveInside ctx m.depth m := funext hf
    exact hsolves n

/-- A bound that is deep enough does not matter. -/
theorem walkWithin_of_depth_le (h : r.registry.InwardOrGrowing) {bound : Nat} {tree : Node}
    (htree : tree.depth ≤ bound) : r.walkWithin bound ctx tree = r.walk ctx tree := by
  refine Traced.bind_congr_of_ok fun _ _ => ?_
  split
  · refine Traced.bind_congr_of_ok fun n hn => ?_
    have hmem := mem_subnodes_of_resolve h (resolve_of_resolveRoot hn) (List.mem_singleton_self _)
    have hle := Node.depth_le_of_mem_subnodes hmem
    exact resolveInside_eq_of_depth_le h (Nat.le_trans hle htree) hle
  · exact resolveInside_eq_of_depth_le h htree (Nat.le_refl _)

/-- A walk with a bound that is deep enough gives what the walk gives that is bounded by the depth
of the tree. -/
theorem result_walkWithin_of_depth_le (h : r.registry.Inward) {bound : Nat} {tree : Node}
    (htree : tree.depth ≤ bound) :
    (r.walkWithin bound ctx tree).result = (r.walk ctx tree).result := by
  rw [walkWithin_of_depth_le h.inwardOrGrowing htree]

/-! ### The bound is not reached -/

/-- The error is not that of a bound. -/
def WithinBound (e : WalkError) : Prop := ∀ version, e ≠ .tooDeep version

theorem resolveSlot_withinBound (n : Node) :
    (r.resolveSlot ctx n).Meets (fun _ => True) WithinBound :=
  Traced.meets_adapt ⟨fun _ _ => trivial, fun _ _ => nofun⟩

theorem splice_withinBound (items : List Node) :
    (r.splice ctx items).Meets (fun _ => True) WithinBound :=
  Traced.meets_bind (Traced.meets_mapM fun n _ => resolveSlot_withinBound n)
    fun _ _ _ => Traced.meets_pure trivial

theorem resolveSide_withinBound (slot : Slot) (n : Node) :
    (r.resolveSide ctx slot n).Meets (fun _ => True) WithinBound := by
  refine Traced.meets_bind (resolveSlot_withinBound n) fun forms _ _ => ?_
  split
  · exact Traced.meets_pure trivial
  · exact Traced.meets_pure trivial
  · exact Traced.meets_throw nofun

theorem resolvePair_withinBound {descend : Node → Traced WalkError Node}
    {pairs built : List (Node × Node)} {p : Node × Node} (hp : p ∈ pairs)
    (h : ∀ m, r.Descends ctx (.mapping pairs) m → (descend m).Meets (fun _ => True) WithinBound) :
    (r.resolvePair ctx descend built p).Meets (fun _ => True) WithinBound := by
  refine Traced.meets_bind (resolveSide_withinBound .key p.1) fun key hkey _ => ?_
  refine Traced.meets_bind (resolveSide_withinBound .value p.2) fun value hvalue _ => ?_
  cases key with
  | none => exact Traced.meets_pure trivial
  | some k =>
    cases value with
    | none => exact Traced.meets_pure trivial
    | some v =>
      refine Traced.meets_bind (h k (.key hp hkey)) fun k' _ _ => ?_
      refine Traced.meets_bind (h v (.value hp hvalue)) fun v' _ _ => ?_
      split
      · exact Traced.meets_bind (Traced.meets_record _) fun _ _ _ => Traced.meets_pure trivial
      · exact Traced.meets_pure trivial

/-- One level stays within the bound if the recursion does where it descends. -/
theorem resolveInsideBy_withinBound {descend : Node → Traced WalkError Node} {n : Node}
    (h : ∀ m, r.Descends ctx n m → (descend m).Meets (fun _ => True) WithinBound) :
    (r.resolveInsideBy ctx descend n).Meets (fun _ => True) WithinBound := by
  cases n with
  | scalar value | invocation tag args => exact Traced.meets_pure trivial
  | sequence items =>
    refine Traced.meets_bind (splice_withinBound items) fun nodes hnodes _ => ?_
    refine Traced.meets_bind (Traced.meets_mapM fun m hm => h m (.item hnodes hm)) ?_
    exact fun _ _ _ => Traced.meets_pure trivial
  | set members =>
    refine Traced.meets_bind (splice_withinBound members) fun nodes hnodes _ => ?_
    refine Traced.meets_bind (Traced.meets_mapM fun m hm => h m (.member hnodes hm)) ?_
    exact fun _ _ _ => Traced.meets_pure trivial
  | mapping pairs =>
    have hfold : (pairs.foldlM (r.resolvePair ctx descend) []).Meets (fun _ => True)
        WithinBound :=
      Traced.meets_foldlM trivial fun _ _ _ hp => resolvePair_withinBound hp h
    exact Traced.meets_bind hfold fun _ _ _ => Traced.meets_pure trivial

theorem resolveInside_withinBound (h : r.registry.InwardOrGrowing) {bound : Nat} {n : Node}
    (hn : n.depth ≤ bound) :
    (r.resolveInside ctx bound n).Meets (fun _ => True) WithinBound := by
  induction bound generalizing n with
  | zero =>
    cases n with
    | scalar value => exact Traced.meets_pure trivial
    | _ => exact absurd hn (Nat.not_succ_le_zero _)
  | succ bound ih =>
    rw [resolveInside_succ]
    refine resolveInsideBy_withinBound fun m hm => ih ?_
    have hlt := hm.depth_lt h
    omega

/-- A walk that is bounded by the depth of the tree does not run into the bound. -/
theorem walk_withinBound (h : r.registry.InwardOrGrowing) (tree : Node) :
    (r.walk ctx tree).Meets (fun _ => True) WithinBound := by
  refine Traced.meets_bind (Traced.meets_record _) fun _ _ _ => ?_
  split
  · have hroot : (r.resolveRoot ctx tree).Meets (fun _ => True) WithinBound := by
      refine Traced.meets_bind (resolveSlot_withinBound tree) fun forms _ _ => ?_
      split
      · exact Traced.meets_pure trivial
      · exact Traced.meets_throw nofun
    refine Traced.meets_bind hroot fun n hn _ => resolveInside_withinBound h ?_
    exact Node.depth_le_of_mem_subnodes
      (mem_subnodes_of_resolve h (resolve_of_resolveRoot hn) (List.mem_singleton_self _))
  · exact resolveInside_withinBound h (Nat.le_refl _)

/-- The walks of a resolver in a context come to an end. -/
structure Terminates (r : Resolver) (ctx : Context) : Prop where
  /-- The recursion starts inside of the tree. -/
  root : ∀ tree n, (r.resolveRoot ctx tree).result = .ok n → n ∈ tree.subnodes
  /-- Each step leads strictly inside of the collection that it starts from. -/
  step : ∀ n m, r.Descends ctx n m → (∃ p ∈ n.parts, m ∈ p.subnodes) ∧ m.depth < n.depth
  /-- The steps nest no deeper than the node that they start from. -/
  nesting : ∀ n path, List.IsChain (r.Descends ctx) (n :: path) → path.length ≤ n.depth
  /-- The recursion without a bound has one solution. -/
  solution : ∀ f, (∀ n, f n = r.resolveInsideBy ctx f n) ↔
    ∀ n, f n = r.resolveInside ctx n.depth n
  /-- A walk with a bound that is deep enough does not depend on the bound. -/
  bound : ∀ bound tree, tree.depth ≤ bound → r.walkWithin bound ctx tree = r.walk ctx tree
  /-- A walk does not run into its bound. -/
  withinBound : ∀ tree version, (r.walk ctx tree).result ≠ .error (.tooDeep version)

/-- By qualifiers that are inward or grow, walks come to an end. -/
theorem terminates (h : r.registry.InwardOrGrowing) (ctx : Context) : r.Terminates ctx where
  root _ _ hn := mem_subnodes_of_resolve h (resolve_of_resolveRoot hn) (List.mem_singleton_self _)
  step _ _ hm := ⟨hm.inside h, hm.depth_lt h⟩
  nesting _ _ hpath := length_le_depth_of_isChain h hpath
  solution _ := eq_resolveInsideBy_iff h
  bound _ _ htree := walkWithin_of_depth_le h htree
  withinBound tree version he := (walk_withinBound h tree).2 _ he version rfl

end Resolver

/-! ### Compilations end -/

namespace Compiler

variable {c : Compiler}

/-- A bound that is deep enough for the tree does not matter for a compilation. -/
theorem compileArrivingWithin_of_depth_le (h : c.registry.InwardOrGrowing) {bound : Nat}
    {tree : Node} (htree : tree.depth ≤ bound) (arrival : List Nat) (selector : String)
    (known : KnownVersions) :
    c.compileArrivingWithin arrival bound selector known tree =
      c.compileArrivingWithin arrival tree.depth selector known tree := by
  have hwalk : c.walkWithin bound tree = c.walkWithin tree.depth tree := by
    funext ctx
    exact congrArg (ExceptT.adapt CompileError.walk)
      (Resolver.walkWithin_of_depth_le (r := c.resolver) h htree)
  unfold compileArrivingWithin resolveArrivingWithin walkAllWithin
  rw [hwalk]

/-- Compilations come to an end: by qualifiers that are inward, by the small qualifiers with the one
that grows, and by any others that are inward or grow, for all limits on passes, all versions, and
all trees. -/
theorem compile_terminates (h : c.registry.InwardOrGrowing) :
    (∀ ctx, c.resolver.Terminates ctx) ∧
      (∀ arrival bound selector known tree, tree.depth ≤ bound →
        c.compileArrivingWithin arrival bound selector known tree =
          c.compileArrivingWithin arrival tree.depth selector known tree) ∧
      (∀ arrival selector known tree version,
        (c.compileArrivingWithin arrival tree.depth selector known tree).result ≠
          .error (.walk (.tooDeep version))) ∧
      (∀ r : Registry, r.Inward → r.InwardOrGrowing) ∧
      (∀ m?, (Standard.registry m?).value.Inward) ∧
      (∀ q ∈ [Qualifier.silent Sample.when, Qualifier.silent Sample.since,
        Qualifier.silent Sample.splice, Qualifier.silent Sample.drop], q.Inward) ∧
      Sample.registry.InwardOrGrowing := by
  have hterminates : ∀ ctx, c.resolver.Terminates ctx := Resolver.terminates (r := c.resolver) h
  refine ⟨hterminates, fun arrival bound selector known tree htree => ?_,
    fun arrival selector known tree version hdeep => ?_, fun _ => Registry.Inward.inwardOrGrowing,
    Standard.inward_registry, Sample.inward_small, Sample.inwardOrGrowing_registry⟩
  · exact compileArrivingWithin_of_depth_le h htree arrival selector known
  · obtain ⟨ctx, -, hwalk⟩ := exists_walk_of_compileArrivingWithin_eq_error hdeep
    exact (hterminates ctx).withinBound tree version hwalk

end Compiler

/-- A list with an invocation that never settles, beside one that does. -/
def Sample.unsettled : Node :=
  .sequence [.invocation ⟨"splice"⟩ [.set [.invocation ⟨"when"⟩ [.str "v0", .str "y"]]],
    .invocation ⟨"grow"⟩ []]

theorem Compiler.compile_terminates_unsettled :
    Sample.registry.InwardOrGrowing ∧
      (∀ bound, Sample.unsettled.depth ≤ bound →
        compileWithin ⟨Sample.registry, {}⟩ bound "api" Sample.threeVersions Sample.unsettled =
          compile ⟨Sample.registry, {}⟩ "api" Sample.threeVersions Sample.unsettled) ∧
      (compile ⟨Sample.registry, {}⟩ "api" Sample.threeVersions Sample.unsettled).result =
        .error (.walk (.resolve (.passLimitExceeded (.invocation ⟨"grow"⟩ []) ⟨"v0"⟩ 10
          [.node (.invocation ⟨"grow"⟩ (List.replicate 11 .nil))]))) := by
  have h := compile_terminates (c := ⟨Sample.registry, {}⟩) Sample.inwardOrGrowing_registry
  exact ⟨Sample.inwardOrGrowing_registry, fun bound hbound => h.2.1 _ bound _ _ _ hbound, rfl⟩

end VersionedTree
