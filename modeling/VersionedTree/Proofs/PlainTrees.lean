import VersionedTree.Proofs.Matching
import VersionedTree.Proofs.Unconditional

/-!
# Trees without invocations

A tree without invocations says nothing about versions, and no qualifier is ever asked about it. A
walk still takes every collection apart and builds it again: items are spliced, members are
collected into a set, and pairs are inserted into a mapping. That nothing is merged, dropped or
moved on the way rests on members and keys being unequal to begin with.

## What is proved

* `Resolver.foldlM_resolvePair_of_newTo` — pairs that stay as they are go one after the other into
  the mapping, if their keys are apart.
* `Resolver.resolveInside_plain` and `Resolver.walkWithin_plain` — a walk gives the tree back and
  records nothing but its beginning.
* `Compiler.compile_plain` — a compilation gives the tree back, without a table.
-/

namespace VersionedTree

namespace Resolver

variable {r : Resolver} {ctx : Context}

/-! ### Slots without an invocation -/

theorem resolve_of_not_isInvocation {n : Node} (h : n.isInvocation = false) :
    r.resolve ctx n = pure [.node n] := by
  rw [resolve, if_neg (by simp [h])]

theorem resolveSlot_of_not_isInvocation {n : Node} (h : n.isInvocation = false) :
    r.resolveSlot ctx n = pure [.node n] := by
  rw [resolveSlot, resolve_of_not_isInvocation h]
  rfl

theorem splice_of_not_isInvocation (items : List Node)
    (h : ∀ n ∈ items, n.isInvocation = false) : r.splice ctx items = pure items := by
  have hforms : items.mapM (r.resolveSlot ctx) = pure (items.map fun n => [.node n]) := by
    rw [← List.mapM_pure]
    exact Traced.mapM_congr fun n hn => resolveSlot_of_not_isInvocation (h n hn)
  have hnodes : (items.map fun n => [Form.node n]).flatten.filterMap Form.node? = items := by
    rw [← List.flatMap_def, ← List.map_eq_flatMap, Form.filterMap_node?_map_node]
  rw [splice, hforms, pure_bind, hnodes]

theorem resolveSide_of_not_isInvocation {slot : Slot} {n : Node} (h : n.isInvocation = false) :
    r.resolveSide ctx slot n = pure (some n) := by
  rw [resolveSide, resolveSlot_of_not_isInvocation h]
  rfl

/-! ### Collections -/

/-- A pair without an invocation in its slots stays as it is if the walk leaves both sides alone. -/
theorem finishPair_of_not_isInvocation {descend : Node → Traced WalkError Node} {p : Node × Node}
    (hkey : p.1.isInvocation = false) (hvalue : p.2.isInvocation = false)
    (hkey' : descend p.1 = pure p.1) (hvalue' : descend p.2 = pure p.2) :
    r.finishPair ctx descend p = pure (some p) := by
  rw [finishPair, resolveSide_of_not_isInvocation hkey, resolveSide_of_not_isInvocation hvalue]
  simp only [pure_bind, hkey', hvalue']

/-- A pair with a new key goes to the end, and nothing is recorded. -/
theorem putPair_of_not_contains {built : List (Node × Node)} {p : Node × Node}
    (h : Keyed.contains p.1 built = false) : putPair ctx built (some p) = pure (built ++ [p]) := by
  rw [putPair, h, Keyed.insert_of_not_contains h]
  rfl

/-- Pairs that stay as they are go one after the other into the mapping, if their keys are new. -/
theorem foldlM_resolvePair_of_newTo {descend : Node → Traced WalkError Node}
    {built pairs : List (Node × Node)}
    (h : ∀ p ∈ pairs, r.finishPair ctx descend p = pure (some p)) (hnew : Keyed.NewTo built pairs) :
    pairs.foldlM (r.resolvePair ctx descend) built = pure (built ++ pairs) := by
  induction pairs generalizing built with
  | nil => rw [List.foldlM_nil, List.append_nil]
  | cons p pairs ih =>
    obtain ⟨hp, hpairs⟩ := Keyed.newTo_cons_iff.1 hnew
    rw [List.foldlM_cons, resolvePair_eq, h p (List.mem_cons_self ..), pure_bind,
      putPair_of_not_contains hp, pure_bind,
      ih (fun q hq => h q (List.mem_cons_of_mem _ hq)) hpairs, List.append_assoc,
      List.singleton_append]

/-- The walk gives a tree without invocations back, collection by collection. -/
theorem resolveInside_plain {bound : Nat} {n : Node} (hn : n.WellFormed)
    (hplain : n.hasInvocation = false) (hbound : n.depth ≤ bound) :
    r.resolveInside ctx bound n = pure n := by
  induction bound generalizing n with
  | zero =>
    cases n with
    | scalar value => rfl
    | _ => exact absurd hbound (Nat.not_succ_le_zero _)
  | succ bound ih =>
    obtain ⟨hself, hparts⟩ := Node.hasInvocation_eq_false_iff_parts.1 hplain
    have hslots : ∀ m ∈ n.parts, m.isInvocation = false := fun m hm =>
      (Node.hasInvocation_eq_false_iff_parts.1 (hparts m hm)).1
    have hinside : ∀ m ∈ n.parts, r.resolveInside ctx bound m = pure m := fun m hm =>
      ih (hn.part hm) (hparts m hm)
        (Nat.le_of_lt_succ (Nat.lt_of_lt_of_le (Node.depth_lt_of_mem_parts hm) hbound))
    have hitems : ∀ items : List Node, (∀ m ∈ items, r.resolveInside ctx bound m = pure m) →
        items.mapM (r.resolveInside ctx bound) = pure items := by
      intro items h
      rw [Traced.mapM_congr h, List.mapM_pure, List.map_id']
    cases n with
    | scalar value => rfl
    | invocation tag args => cases hself
    | sequence items =>
      rw [resolveInside, splice_of_not_isInvocation items hslots, pure_bind, hitems items hinside,
        pure_bind]
    | set members =>
      rw [resolveInside, splice_of_not_isInvocation members hslots, pure_bind,
        hitems members hinside, pure_bind, Node.ofMembers, Distinct.ofList_of_unequal hn.1]
    | mapping pairs =>
      have hpair : ∀ p ∈ pairs,
          r.finishPair ctx (r.resolveInside ctx bound) p = pure (some p) := by
        intro p hp
        have hkey := Node.mem_parts_mapping.2 ⟨p, hp, .inl rfl⟩
        have hvalue := Node.mem_parts_mapping.2 ⟨p, hp, .inr rfl⟩
        exact finishPair_of_not_isInvocation (hslots _ hkey) (hslots _ hvalue) (hinside _ hkey)
          (hinside _ hvalue)
      rw [resolveInside, foldlM_resolvePair_of_newTo hpair
        ((Keyed.newTo_nil_iff_unequal hn.keys).2 hn.1), pure_bind, List.nil_append]

/-- A walk of a tree without invocations records that it begins, and gives the tree back. -/
theorem walkWithin_plain {bound : Nat} {tree : Node} (htree : tree.WellFormed)
    (hplain : tree.hasInvocation = false) (hbound : tree.depth ≤ bound) :
    r.walkWithin bound ctx tree = do
      Traced.record (.walking ctx.version)
      return tree := by
  have hself := (Node.hasInvocation_eq_false_iff_parts.1 hplain).1
  rw [walkWithin, if_neg (by simp [hself]), resolveInside_plain htree hplain hbound]

end Resolver

/-! ### Compilations -/

/-- Computations that all succeed record one after the other. -/
theorem Traced.events_mapM_of_ok {ε α β : Type} {f : α → Traced ε β} {items : List α}
    (h : ∀ a ∈ items, ∃ b, (f a).result = .ok b) :
    (items.mapM f).events = items.flatMap fun a => (f a).events := by
  induction items with
  | nil => rfl
  | cons a items ih =>
    obtain ⟨ha, hitems⟩ := List.forall_mem_cons.1 h
    obtain ⟨b, hb⟩ := ha
    obtain ⟨bs, hbs⟩ := Outcome.exists_mapM_eq_ok_iff.2 hitems
    have hrest : (items.mapM f).result = .ok bs := by rw [Traced.result_mapM, hbs]
    rw [List.mapM_cons, Traced.events_bind, hb]
    simp only [Traced.events_bind, hrest, ih hitems, List.flatMap_cons]
    exact congrArg _ (List.append_nil _)

/-- Trees that are all the same form one group. -/
theorem Grouping.distinct_replicate {t : Node} (ht : t.WellFormed) {count : Nat}
    (hcount : count ≠ 0) : distinct (List.replicate count t) = [t] := by
  induction count with
  | zero => exact absurd rfl hcount
  | succ count ih =>
    by_cases hzero : count = 0
    · subst hzero
      rfl
    · have helem : List.elem t [t] = true :=
        Distinct.elem_iff.2 ⟨t, List.mem_singleton_self t, Node.beq_refl ht⟩
      rw [List.replicate_succ', distinct, Distinct.ofList_append_singleton]
      show Distinct.insert t (distinct (List.replicate count t)) = [t]
      rw [ih hzero, Distinct.insert_of_elem helem]

namespace Compiler

variable {c : Compiler} {arrival : List Nat} {bound : Nat} {known : KnownVersions} {tree : Node}

/-- Usable settings pass the check, and nothing is recorded. -/
theorem checkSettings_eq_pure (h : 1 ≤ c.settings.maxPasses) : c.checkSettings = pure () := by
  have hne : c.settings.maxPasses ≠ 0 := by omega
  rw [checkSettings, Settings.validate, if_neg hne]

/-- Where all walks succeed, they record one after the other, also when they are run side by
side. -/
theorem events_walkAllWithin_of_ok {contexts : List Context}
    (h : ∀ ctx ∈ contexts, ∃ t, (c.resolver.walkWithin bound ctx tree).result = .ok t) :
    (c.walkAllWithin arrival bound contexts tree).events =
      contexts.flatMap fun ctx => (c.resolver.walkWithin bound ctx tree).events := by
  have hevents : ∀ ctx, (c.walkWithin bound tree ctx).events =
      (c.resolver.walkWithin bound ctx tree).events := fun ctx => List.append_nil _
  rw [walkAllWithin]
  split
  · show (contexts.map _).flatMap Logged.events = _
    rw [List.flatMap_map]
    exact List.flatMap_congr fun ctx _ => hevents ctx
  · rw [Traced.events_mapM_of_ok]
    · exact List.flatMap_congr fun ctx _ => hevents ctx
    · intro ctx hctx
      obtain ⟨t, ht⟩ := h ctx hctx
      exact ⟨t, by rw [walkWithin, Traced.result_adapt, ht]; rfl⟩

/-- A tree that every version resolves to is compiled to itself, and all that is recorded besides
the walks is that the compilation begins and that it makes no table. -/
theorem compileArrivingWithin_of_shared (arrival : List Nat) (selector : String)
    (hpasses : 1 ≤ c.settings.maxPasses) (hne : known.toList ≠ []) {shared : Node}
    (hshared : shared.WellFormed)
    (h : ∀ ctx ∈ Context.all known (some selector),
      (c.resolver.walkWithin bound ctx tree).result = .ok shared) :
    (c.compileArrivingWithin arrival bound selector known tree).result = .ok (.resolved shared) ∧
      (c.compileArrivingWithin arrival bound selector known tree).events =
        .compiling selector known.size c.settings.parallel ::
          ((Context.all known (some selector)).flatMap fun ctx =>
            (c.resolver.walkWithin bound ctx tree).events) ++ [.dispatchElided selector] := by
  have hsize : known.size ≠ 0 := fun h0 => hne (List.eq_nil_of_length_eq_zero h0)
  have hresult : (c.walkAllWithin arrival bound (Context.all known (some selector)) tree).result =
      .ok (List.replicate known.size shared) := by
    apply result_walkAllWithin_of_ok
    rw [List.map_replicate, KnownVersions.size, ← Context.length_all known (some selector),
      ← List.map_const']
    exact List.map_congr_left h
  have hdistinct : Grouping.distinct
      ((known.toList.zip (List.replicate known.size shared)).map Prod.snd) = [shared] := by
    have hlen : (List.replicate known.size shared).length = known.toList.length :=
      List.length_replicate
    rw [Grouping.map_snd_rows hlen, Grouping.distinct_replicate hshared hsize]
  have hwalks : c.resolveArrivingWithin arrival bound (some selector) known tree = do
      let trees ← c.walkAllWithin arrival bound (Context.all known (some selector)) tree
      return known.toList.zip trees := by
    rw [resolveArrivingWithin, checkSettings_eq_pure hpasses, pure_bind]
  have hrows : (c.resolveArrivingWithin arrival bound (some selector) known tree).result =
      .ok (known.toList.zip (List.replicate known.size shared)) := by
    rw [hwalks, Traced.result_bind, hresult]
    rfl
  have hevents : (c.resolveArrivingWithin arrival bound (some selector) known tree).events =
      (Context.all known (some selector)).flatMap fun ctx =>
        (c.resolver.walkWithin bound ctx tree).events := by
    rw [hwalks, Traced.events_bind, hresult,
      events_walkAllWithin_of_ok fun ctx hctx => ⟨shared, h ctx hctx⟩]
    exact List.append_nil _
  rw [compileArrivingWithin, if_neg hsize]
  show (Traced.record _ >>= fun _ => c.resolveArrivingWithin _ _ _ _ _ >>= _).result = _ ∧
    (Traced.record _ >>= fun _ => c.resolveArrivingWithin _ _ _ _ _ >>= _).events = _
  simp only [Traced.result_bind, Traced.events_bind, Traced.result_record, hrows, hevents,
    hdistinct, Outcome.ok_bind]
  exact ⟨rfl, rfl⟩

/-- A tree without invocations is compiled to itself. Every walk gives it back with the order of
all members and pairs and reports no keys that collide, and no table is made, whatever the
qualifiers are and however the walks are run. -/
theorem compile_plain (c : Compiler) (bound : Nat) (selector : String) (known : KnownVersions)
    (hpasses : 1 ≤ c.settings.maxPasses) (hne : known.toList ≠ []) (htree : tree.WellFormed)
    (hplain : tree.hasInvocation = false) (hbound : tree.depth ≤ bound) :
    (∀ ctx, (c.resolver.walkWithin bound ctx tree).result = .ok tree ∧
      (c.resolver.walkWithin bound ctx tree).events = [.walking ctx.version]) ∧
    ∀ arrival,
      (c.compileArrivingWithin arrival bound selector known tree).result = .ok (.resolved tree) ∧
      (c.compileArrivingWithin arrival bound selector known tree).events =
        .compiling selector known.size c.settings.parallel ::
          (known.toList.map .walking ++ [.dispatchElided selector]) := by
  have hwalk : ∀ ctx, (c.resolver.walkWithin bound ctx tree).result = .ok tree ∧
      (c.resolver.walkWithin bound ctx tree).events = [.walking ctx.version] := fun ctx => by
    rw [Resolver.walkWithin_plain htree hplain hbound]
    exact ⟨rfl, rfl⟩
  refine ⟨hwalk, fun arrival => ?_⟩
  obtain ⟨hresult, hevents⟩ := compileArrivingWithin_of_shared arrival selector hpasses hne htree
    fun ctx _ => (hwalk ctx).1
  refine ⟨hresult, ?_⟩
  rw [hevents, ← Context.map_version_all known (some selector), List.map_map, List.cons_append,
    List.map_eq_flatMap]
  exact congrArg _ (congrArg (· ++ _) (List.flatMap_congr fun ctx _ => (hwalk ctx).2))

end Compiler

/-- A set as key, a mapping without pairs, and an item that is listed twice. -/
def Sample.plain : Node :=
  .mapping [(.set [.str "b", .sequence [.str "a"]], .sequence [.str "y", .mapping [], .str "y"]),
    (.str "a", .set [])]

theorem Sample.wellFormed_plain : plain.WellFormed := by
  have hkeys : Distinct.Unequal [.set [.str "b", .sequence [.str "a"]], .str "a"] :=
    List.pairwise_pair.2 ⟨rfl, rfl⟩
  have hmembers : Distinct.Unequal [.str "b", .sequence [.str "a"]] :=
    List.pairwise_pair.2 ⟨rfl, rfl⟩
  exact ⟨hkeys, ⟨hmembers, trivial, ⟨trivial, trivial⟩, trivial⟩,
    ⟨trivial, ⟨List.Pairwise.nil, trivial⟩, trivial, trivial⟩, trivial,
    ⟨List.Pairwise.nil, trivial⟩, trivial⟩

theorem Compiler.compile_plain_plain :
    (Resolver.walk ⟨Sample.registry, 10⟩ Sample.atSecond Sample.plain).result = .ok Sample.plain ∧
      (Resolver.walk ⟨Sample.registry, 10⟩ Sample.atSecond Sample.plain).events =
        [.walking ⟨"v1"⟩] ∧
      (compileArrivingWithin ⟨Sample.registry, ⟨10, true⟩⟩ [2, 0, 1] 3 "api" Sample.threeVersions
        Sample.plain).result = .ok (.resolved Sample.plain) ∧
      (compileArrivingWithin ⟨Sample.registry, ⟨10, true⟩⟩ [2, 0, 1] 3 "api" Sample.threeVersions
        Sample.plain).events =
        [.compiling "api" 3 true, .walking ⟨"v0"⟩, .walking ⟨"v1"⟩, .walking ⟨"v2"⟩,
          .dispatchElided "api"] := by
  obtain ⟨hwalk, hcompile⟩ := compile_plain ⟨Sample.registry, ⟨10, true⟩⟩ 3 "api"
    Sample.threeVersions (by decide) (by decide) Sample.wellFormed_plain rfl (by decide)
  exact ⟨(hwalk Sample.atSecond).1, (hwalk Sample.atSecond).2, (hcompile [2, 0, 1]).1,
    (hcompile [2, 0, 1]).2⟩

end VersionedTree
