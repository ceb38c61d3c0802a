import VersionedTree.Compilation.Compile
import VersionedTree.Proofs.Bundled
import VersionedTree.Proofs.Contexts
import VersionedTree.Proofs.Grouping
import VersionedTree.Proofs.Walking

/-!
# What a compilation gives

A compilation walks the tree once for every known version. Everything it gives depends on the
outcomes of these walks alone: without a failure, on the trees, and otherwise on one of the
failures.

## What is proved

* `Compiler.result_compileArrivingWithin` — one version after the other, the artifact is that of the
  trees, and the error is the first failure.
* `Compiler.artifactOf_eq_resolved_iff` — no table is made exactly when all trees are equal.
* `Compiler.select_artifactOf` — an artifact selects for every version a tree equal to its own.
* `Compiler.shares_artifactOf_iff` — it selects one tree for two versions exactly when their trees
  are equal.
* `Compiler.exists_compileArrivingWithin_eq_ok_iff` — when a compilation succeeds.
* `Compiler.exists_walk_of_compileArrivingWithin_eq_error` — a failure of a walk that a compilation
  reports is that of one of its walks.
* `Compiler.compile_groupsByTree` — whichever way the walks are run, a successful compilation groups
  the versions by their trees.
-/

namespace VersionedTree

/-- The artifact selects one tree for both versions. -/
def Artifact.Shares (a : Artifact) (v w : Version) : Prop :=
  ∃ t, a.select (some v) = .ok t ∧ a.select (some w) = .ok t

namespace Compiler

/-- What the walks for all known versions give, in the order of declaration. -/
def outcomes (c : Compiler) (bound : Nat) (selector : Option String) (known : KnownVersions)
    (tree : Node) : List (Except WalkError Node) :=
  (Context.all known selector).map fun ctx => (c.resolver.walkWithin bound ctx tree).result

/-- The artifact of versions with a tree each. -/
def artifactOf (selector : String) (known : KnownVersions) (trees : List Node) : Artifact :=
  match Grouping.distinct trees with
  | [shared] => .resolved shared
  | _ => .dispatch (Grouping.tableOf selector known trees)

variable {c : Compiler} {arrival : List Nat} {bound : Nat} {known : KnownVersions} {tree : Node}
  {trees : List Node}

/-! ### The outcomes of walks -/

theorem length_of_outcomes {selector : Option String}
    (h : c.outcomes bound selector known tree = trees.map .ok) :
    trees.length = known.toList.length := by
  have hlen := congrArg List.length h
  rw [outcomes, List.length_map, List.length_map, Context.length_all] at hlen
  exact hlen.symm

/-- The walks of all versions succeed exactly when a list of trees comes out. -/
theorem exists_outcomes_eq_iff {selector : Option String} :
    (∃ trees : List Node, c.outcomes bound selector known tree = trees.map .ok) ↔
      ∀ ctx ∈ Context.all known selector, ∃ t,
        (c.resolver.walkWithin bound ctx tree).result = .ok t := by
  rw [← Outcome.exists_mapM_eq_ok_iff]
  exact exists_congr fun trees => Outcome.mapM_eq_ok_iff.symm

/-- Where all walks succeed, the tree of a context stands at its place. -/
theorem walk_of_outcomes {selector : Option String}
    (h : c.outcomes bound selector known tree = trees.map .ok) {i : Nat}
    (hi : i < (Context.all known selector).length) (hi' : i < trees.length) :
    (c.resolver.walkWithin bound (Context.all known selector)[i] tree).result = .ok trees[i] := by
  have houtcome := congrArg (fun l => l[i]?) h
  simp only [outcomes, List.getElem?_map, List.getElem?_eq_getElem hi,
    List.getElem?_eq_getElem hi', Option.map_some, Option.some.injEq] at houtcome
  exact houtcome

/-- Where all walks succeed, the tree of a context is found beside its version. -/
theorem mem_zip_of_outcomes {selector : Option String}
    (h : c.outcomes bound selector known tree = trees.map .ok) {ctx : Context}
    (hctx : ctx ∈ Context.all known selector) :
    ∃ t, (c.resolver.walkWithin bound ctx tree).result = .ok t ∧
      (ctx.version, t) ∈ known.toList.zip trees := by
  obtain ⟨i, hi, rfl⟩ := List.mem_iff_getElem.1 hctx
  have hlen := length_of_outcomes h
  have hknown : i < known.toList.length := Context.length_all known selector ▸ hi
  have htrees : i < trees.length := by omega
  refine ⟨trees[i], walk_of_outcomes h hi htrees, List.mem_iff_getElem.2 ⟨i, ?_, ?_⟩⟩
  · rw [List.length_zip]
    omega
  · rw [List.getElem_zip, Context.version_getElem_all hi hknown]

/-- Where qualifiers return well-formed nodes, a well-formed tree has well-formed outcomes. -/
theorem wellFormed_of_outcomes {selector : Option String} (hkeeps : c.registry.KeepsWellFormed)
    (htree : tree.WellFormed) (h : c.outcomes bound selector known tree = trees.map .ok) :
    ∀ t ∈ trees, t.WellFormed := by
  intro t ht
  have hmem : .ok t ∈ c.outcomes bound selector known tree := h ▸ List.mem_map_of_mem ht
  obtain ⟨ctx, -, hwalk⟩ := List.mem_map.1 hmem
  exact Resolver.walkWithin_wellFormed (r := c.resolver) hkeeps htree hwalk

/-! ### Running the walks -/

/-- One after the other, the first failure ends the walks. -/
theorem result_walkAllWithin (hseq : c.settings.parallel = false) (contexts : List Context) :
    (c.walkAllWithin arrival bound contexts tree).result =
      (contexts.mapM fun ctx => (c.resolver.walkWithin bound ctx tree).result).mapError .walk := by
  rw [walkAllWithin, hseq, if_neg Bool.false_ne_true, Traced.result_mapM,
    ← Outcome.mapM_mapError]
  rfl

/-- All values that are gathered are the outcomes, whatever the order of arrival. -/
theorem eq_map_ok_of_gather {ε α : Type} {outcomes : List (Except ε α)} {values : List α}
    (h : gather arrival outcomes = .ok values) : outcomes = values.map .ok := by
  unfold gather at h
  dsimp only at h
  split at h
  · cases h
  · have hmap := Outcome.mapM_eq_ok_iff.1 h
    rwa [List.map_id] at hmap

/-- A failure that is gathered is one of the outcomes. -/
theorem mem_of_gather_eq_error {ε α : Type} {outcomes : List (Except ε α)} {e : ε}
    (h : gather arrival outcomes = .error e) : .error e ∈ outcomes := by
  unfold gather at h
  dsimp only at h
  split at h
  · rename_i e' he
    cases h
    obtain ⟨i, -, hi⟩ := List.exists_of_findSome?_eq_some he
    split at hi
    · rename_i e'' hi'
      cases hi
      exact List.mem_of_getElem? hi'
    · cases hi
  · obtain ⟨before, after, hsplit, -⟩ := Outcome.mapM_eq_error_iff.1 h
    rw [List.map_id] at hsplit
    rw [hsplit]
    exact List.mem_append_right _ (List.mem_cons_self ..)

/-- Values that are outcomes are gathered, whatever the order of arrival. -/
theorem gather_map_ok {ε α : Type} (values : List α) :
    gather arrival (values.map Except.ok : List (Except ε α)) = .ok values := by
  unfold gather
  dsimp only
  split
  · rename_i e he
    obtain ⟨i, -, hi⟩ := List.exists_of_findSome?_eq_some he
    rw [List.getElem?_map] at hi
    cases hv : values[i]? <;> rw [hv] at hi <;> cases hi
  · exact Outcome.mapM_eq_ok_iff.2 (List.map_id _)

/-- However the walks are run, where they give trees these are the trees of the walks. -/
theorem map_walk_of_walkAllWithin {contexts : List Context}
    (h : (c.walkAllWithin arrival bound contexts tree).result = .ok trees) :
    contexts.map (fun ctx => (c.resolver.walkWithin bound ctx tree).result) = trees.map .ok := by
  have hadapted : contexts.mapM (fun ctx => (c.walkWithin bound tree ctx).result) =
      .ok trees := by
    unfold walkAllWithin at h
    split at h
    · have hgather := eq_map_ok_of_gather h
      rw [List.map_map] at hgather
      exact Outcome.mapM_eq_ok_iff.2 hgather
    · rwa [Traced.result_mapM] at h
  simp only [walkWithin, Traced.result_adapt] at hadapted
  rw [Outcome.mapM_mapError] at hadapted
  exact Outcome.mapM_eq_ok_iff.1 (Outcome.mapError_eq_ok_iff.1 hadapted)

/-- However the walks are run, a failure that comes out is the failure of one of them. -/
theorem exists_of_walkAllWithin_eq_error {contexts : List Context} {e : CompileError}
    (h : (c.walkAllWithin arrival bound contexts tree).result = .error e) :
    ∃ ctx ∈ contexts, (c.walkWithin bound tree ctx).result = .error e := by
  unfold walkAllWithin at h
  split at h
  · have hmem := mem_of_gather_eq_error h
    rw [List.map_map] at hmem
    exact List.mem_map.1 hmem
  · rw [Traced.result_mapM] at h
    obtain ⟨before, after, hsplit, -⟩ := Outcome.mapM_eq_error_iff.1 h
    have hmem : .error e ∈ contexts.map fun ctx => (c.walkWithin bound tree ctx).result := by
      rw [hsplit]
      exact List.mem_append_right _ (List.mem_cons_self ..)
    exact List.mem_map.1 hmem

/-- Usable settings pass the check. -/
theorem result_checkSettings (h : 1 ≤ c.settings.maxPasses) : c.checkSettings.result = .ok () := by
  have hne : c.settings.maxPasses ≠ 0 := by omega
  rw [checkSettings, Settings.validate, if_neg hne]
  rfl

/-- One after the other, the trees of all versions come out, or the first failure does. -/
theorem result_resolveArrivingWithin (hpasses : 1 ≤ c.settings.maxPasses)
    (hseq : c.settings.parallel = false) (selector : Option String) :
    (c.resolveArrivingWithin arrival bound selector known tree).result =
      (((Context.all known selector).mapM fun ctx =>
        (c.resolver.walkWithin bound ctx tree).result).mapError CompileError.walk).map
          known.toList.zip := by
  rw [resolveArrivingWithin, Traced.result_bind, result_checkSettings hpasses]
  show ((c.walkAllWithin arrival bound _ tree) >>= _).result = _
  rw [Traced.result_bind, result_walkAllWithin hseq]
  cases ((Context.all known selector).mapM fun ctx =>
    (c.resolver.walkWithin bound ctx tree).result) <;> rfl

/-- However the walks are run, the rows that come out hold the trees of the walks. -/
theorem outcomes_of_resolveArrivingWithin {selector : Option String} {rows : List (Version × Node)}
    (h : (c.resolveArrivingWithin arrival bound selector known tree).result = .ok rows) :
    ∃ trees, c.outcomes bound selector known tree = trees.map .ok ∧
      rows = known.toList.zip trees := by
  rw [resolveArrivingWithin, Traced.result_bind] at h
  obtain ⟨_, -, h⟩ := Outcome.bind_eq_ok_iff.1 h
  rw [Traced.result_bind] at h
  obtain ⟨trees, htrees, h⟩ := Outcome.bind_eq_ok_iff.1 h
  cases h
  exact ⟨trees, map_walk_of_walkAllWithin htrees, rfl⟩

/-! ### From the trees to the artifact -/

/-- Without versions there is no compilation. -/
theorem result_compileArrivingWithin_of_nil {selector : String} (h : known.toList = []) :
    (c.compileArrivingWithin arrival bound selector known tree).result =
      .error (.emptyVersionSet selector) := by
  have hsize : known.size = 0 := by rw [KnownVersions.size, h]; rfl
  rw [compileArrivingWithin, if_pos hsize]
  rfl

/-- A failure to resolve the versions is a failure to compile. -/
theorem result_compileArrivingWithin_of_error {selector : String} (hne : known.toList ≠ [])
    {e : CompileError}
    (h : (c.resolveArrivingWithin arrival bound (some selector) known tree).result = .error e) :
    (c.compileArrivingWithin arrival bound selector known tree).result = .error e := by
  have hsize : known.size ≠ 0 := fun h0 => hne (List.eq_nil_of_length_eq_zero h0)
  rw [compileArrivingWithin, if_neg hsize]
  show (c.resolveArrivingWithin arrival bound (some selector) known tree >>= _).result = _
  rw [Traced.result_bind, h]
  rfl

/-- Where the versions resolve, the artifact is that of their trees. -/
theorem result_compileArrivingWithin_of_ok {selector : String} (hne : known.toList ≠ [])
    (hlen : trees.length = known.toList.length)
    (h : (c.resolveArrivingWithin arrival bound (some selector) known tree).result =
      .ok (known.toList.zip trees)) :
    (c.compileArrivingWithin arrival bound selector known tree).result =
      .ok (artifactOf selector known trees) := by
  have hsize : known.size ≠ 0 := fun h0 => hne (List.eq_nil_of_length_eq_zero h0)
  rw [compileArrivingWithin, if_neg hsize]
  show (c.resolveArrivingWithin arrival bound (some selector) known tree >>= _).result = _
  rw [Traced.result_bind, h]
  show Traced.result (match Grouping.distinct _ with | [_] => _ | _ => _) = _
  rw [Grouping.map_snd_rows hlen, artifactOf]
  split <;> rfl

/-- One version after the other, the artifact is that of the trees, or the first failure comes
out. -/
theorem result_compileArrivingWithin (hpasses : 1 ≤ c.settings.maxPasses)
    (hseq : c.settings.parallel = false) (hne : known.toList ≠ []) (selector : String) :
    (c.compileArrivingWithin arrival bound selector known tree).result =
      (((Context.all known (some selector)).mapM fun ctx =>
        (c.resolver.walkWithin bound ctx tree).result).mapError CompileError.walk).map
          (artifactOf selector known) := by
  have hrows : (c.resolveArrivingWithin arrival bound (some selector) known tree).result = _ :=
    result_resolveArrivingWithin hpasses hseq (some selector)
  cases hwalks : (Context.all known (some selector)).mapM fun ctx =>
      (c.resolver.walkWithin bound ctx tree).result with
  | error e =>
    rw [hwalks] at hrows
    exact result_compileArrivingWithin_of_error hne hrows
  | ok trees =>
    rw [hwalks] at hrows
    have hlen := length_of_outcomes (Outcome.mapM_eq_ok_iff.1 hwalks)
    exact result_compileArrivingWithin_of_ok hne hlen hrows

/-- However the walks are run, an artifact that comes out is that of the trees of the walks. -/
theorem outcomes_of_compileArrivingWithin {selector : String} {a : Artifact}
    (h : (c.compileArrivingWithin arrival bound selector known tree).result = .ok a) :
    known.toList ≠ [] ∧ ∃ trees, c.outcomes bound (some selector) known tree = trees.map .ok ∧
      a = artifactOf selector known trees := by
  by_cases hne : known.toList = []
  · rw [result_compileArrivingWithin_of_nil hne] at h
    cases h
  · refine ⟨hne, ?_⟩
    cases hrows : (c.resolveArrivingWithin arrival bound (some selector) known tree).result with
    | error e =>
      rw [result_compileArrivingWithin_of_error hne hrows] at h
      cases h
    | ok rows =>
      obtain ⟨trees, houtcomes, rfl⟩ := outcomes_of_resolveArrivingWithin hrows
      have hlen := length_of_outcomes houtcomes
      rw [result_compileArrivingWithin_of_ok hne hlen hrows] at h
      exact ⟨trees, houtcomes, (Except.ok.inj h).symm⟩

/-- However the walks are run, a walk that makes the compilation fail fails itself. -/
theorem exists_walk_of_compileArrivingWithin_eq_error {selector : String} {e : WalkError}
    (h : (c.compileArrivingWithin arrival bound selector known tree).result =
      .error (.walk e)) :
    ∃ ctx ∈ Context.all known (some selector),
      (c.resolver.walkWithin bound ctx tree).result = .error e := by
  by_cases hne : known.toList = []
  · rw [result_compileArrivingWithin_of_nil hne] at h
    cases h
  · cases hrows : (c.resolveArrivingWithin arrival bound (some selector) known tree).result with
    | ok rows =>
      obtain ⟨trees, houtcomes, rfl⟩ := outcomes_of_resolveArrivingWithin hrows
      rw [result_compileArrivingWithin_of_ok hne (length_of_outcomes houtcomes) hrows] at h
      cases h
    | error d =>
      rw [result_compileArrivingWithin_of_error hne hrows, Except.error.injEq] at h
      subst h
      rw [resolveArrivingWithin, Traced.result_bind] at hrows
      rcases Outcome.bind_eq_error_iff.1 hrows with hsettings | ⟨_, -, hrows⟩
      · unfold checkSettings at hsettings
        split at hsettings <;> cases hsettings
      · rw [Traced.result_bind] at hrows
        rcases Outcome.bind_eq_error_iff.1 hrows with hwalks | ⟨_, -, hrows⟩
        · obtain ⟨ctx, hctx, hwalk⟩ := exists_of_walkAllWithin_eq_error hwalks
          obtain ⟨e', he', heq⟩ := Outcome.mapError_eq_error_iff.1 hwalk
          cases heq
          exact ⟨ctx, hctx, he'⟩
        · cases hrows

/-- However the walks are run, where all of them give trees these come out. -/
theorem result_walkAllWithin_of_ok {contexts : List Context}
    (h : contexts.map (fun ctx => (c.resolver.walkWithin bound ctx tree).result) =
      trees.map .ok) : (c.walkAllWithin arrival bound contexts tree).result = .ok trees := by
  have hadapted : contexts.map (fun ctx => (c.walkWithin bound tree ctx).result) =
      trees.map .ok := by
    have h := congrArg (List.map fun x : Except WalkError Node => x.mapError CompileError.walk) h
    rw [List.map_map, List.map_map] at h
    exact h
  unfold walkAllWithin
  split
  · have houtcomes : ((contexts.map fun ctx => (c.walkWithin bound tree ctx).run).map
        Logged.value) = trees.map .ok := by
      rw [List.map_map]
      exact hadapted
    show gather arrival _ = .ok trees
    rw [houtcomes]
    exact gather_map_ok trees
  · rw [Traced.result_mapM]
    exact Outcome.mapM_eq_ok_iff.2 hadapted

/-- However the walks are run, a compilation succeeds if there are versions, the settings can be
used, and the walks of all versions succeed. -/
theorem exists_compileArrivingWithin_eq_ok_iff {selector : String} :
    (∃ a, (c.compileArrivingWithin arrival bound selector known tree).result = .ok a) ↔
      known.toList ≠ [] ∧ 1 ≤ c.settings.maxPasses ∧
        ∃ trees : List Node, c.outcomes bound (some selector) known tree = trees.map .ok := by
  constructor
  · rintro ⟨a, ha⟩
    obtain ⟨hne, trees, houtcomes, -⟩ := outcomes_of_compileArrivingWithin ha
    refine ⟨hne, Nat.one_le_iff_ne_zero.2 fun hzero => ?_, trees, houtcomes⟩
    have hrows : (c.resolveArrivingWithin arrival bound (some selector) known tree).result =
        .error (.settings (.invalidValue "max_passes" "must be at least 1")) := by
      rw [resolveArrivingWithin, Traced.result_bind, checkSettings, Settings.validate, hzero]
      rfl
    rw [result_compileArrivingWithin_of_error hne hrows] at ha
    cases ha
  · rintro ⟨hne, hpasses, trees, houtcomes⟩
    refine ⟨_, result_compileArrivingWithin_of_ok hne (length_of_outcomes houtcomes) ?_⟩
    rw [resolveArrivingWithin, Traced.result_bind, result_checkSettings hpasses]
    show ((c.walkAllWithin arrival bound _ tree) >>= _).result = _
    rw [Traced.result_bind, result_walkAllWithin_of_ok houtcomes]
    rfl

/-! ### The artifact -/

section Artifact

variable {selector : String}

/-- No table is made exactly when all trees are equal. -/
theorem artifactOf_eq_resolved_iff (hwf : ∀ t ∈ trees, t.WellFormed) (hne : trees ≠ []) :
    (∃ t, artifactOf selector known trees = .resolved t) ↔
      ∀ s ∈ trees, ∀ t ∈ trees, (s == t) = true := by
  have hreps := Grouping.transversal_distinct hwf
  unfold artifactOf
  constructor
  · intro h s hs t ht
    split at h
    · rename_i u hu
      rw [hu] at hreps
      have hcover : ∀ {x}, x ∈ trees → (x == u) = true := fun hx => by
        obtain ⟨u', hu', hxu⟩ := hreps.cover _ hx
        rwa [List.mem_singleton.1 hu'] at hxu
      have hwfu := hwf u (hreps.subset u (List.mem_cons_self ..))
      exact Node.beq_trans (hwf s hs) hwfu (hwf t ht) (hcover hs)
        (Node.beq_symm (hwf t ht) hwfu (hcover ht))
    · obtain ⟨t, ht⟩ := h
      cases ht
  · intro h
    split
    · exact ⟨_, rfl⟩
    · rename_i hsingle
      exfalso
      match hd : Grouping.distinct trees with
      | [] =>
        obtain ⟨t, ht⟩ := List.exists_mem_of_ne_nil trees hne
        obtain ⟨u, hu, -⟩ := hreps.cover t ht
        rw [hd] at hu
        cases hu
      | [u] => exact hsingle u hd
      | u :: w :: rest =>
        rw [hd] at hreps
        have hunequal := (List.pairwise_cons.1 hreps.unequal).1 w (List.mem_cons_self ..)
        have hequal := h u (hreps.subset u (by simp)) w (hreps.subset w (by simp))
        rw [hunequal.1] at hequal
        cases hequal

/-- An artifact that is no single tree is the table of the trees. -/
theorem eq_tableOf_of_artifactOf_eq {d : Dispatch}
    (h : artifactOf selector known trees = .dispatch d) :
    d = Grouping.tableOf selector known trees := by
  unfold artifactOf at h
  split at h
  · cases h
  · exact (Artifact.dispatch.inj h).symm

/-- There are as many groups as different trees. -/
theorem groupCount_artifactOf (hlen : trees.length = known.toList.length) :
    (artifactOf selector known trees).groupCount = (Grouping.distinct trees).length := by
  unfold artifactOf
  split
  · rename_i u hu
    rw [hu]
    rfl
  · exact Grouping.groupCount_tableOf hlen

/-- An artifact selects for every version the tree that stays at the place of its group. -/
theorem select_artifactOf_eq_ok_iff (hwf : ∀ t ∈ trees, t.WellFormed)
    (hlen : trees.length = known.toList.length) {v : Version} {t u : Node}
    (hv : (v, t) ∈ known.toList.zip trees) :
    (artifactOf selector known trees).select (some v) = .ok u ↔
      (Grouping.distinct trees)[(Grouping.groupOf trees t).index]? = some u := by
  unfold artifactOf
  split
  · rename_i shared hshared
    obtain ⟨hlt, -⟩ := Grouping.getElem_groupOf hwf (List.of_mem_zip hv).2
    have hzero : (Grouping.groupOf trees t).index = 0 := by
      rw [hshared, List.length_singleton] at hlt
      omega
    rw [hshared, hzero, List.getElem?_cons_zero, Option.some.injEq]
    exact ⟨Except.ok.inj, congrArg Except.ok⟩
  · exact Grouping.select_tableOf_eq_ok_iff hwf hlen hv

/-- An artifact selects for every version a tree equal to its own. -/
theorem select_artifactOf (hwf : ∀ t ∈ trees, t.WellFormed)
    (hlen : trees.length = known.toList.length) {v : Version} {t : Node}
    (hv : (v, t) ∈ known.toList.zip trees) :
    ∃ s, (artifactOf selector known trees).select (some v) = .ok s ∧ (s == t) = true := by
  have ht := (List.of_mem_zip hv).2
  obtain ⟨hlt, heq⟩ := Grouping.getElem_groupOf hwf ht
  have hwfu := hwf _ (Distinct.mem_of_mem_ofList (List.getElem_mem hlt))
  exact ⟨_, (select_artifactOf_eq_ok_iff hwf hlen hv).2 (List.getElem?_eq_getElem hlt),
    Node.beq_symm (hwf t ht) hwfu heq⟩

/-- An artifact selects one tree for two versions exactly when their trees are equal. -/
theorem shares_artifactOf_iff (hwf : ∀ t ∈ trees, t.WellFormed)
    (hlen : trees.length = known.toList.length) {v w : Version} {s t : Node}
    (hv : (v, s) ∈ known.toList.zip trees) (hw : (w, t) ∈ known.toList.zip trees) :
    (artifactOf selector known trees).Shares v w ↔ (s == t) = true := by
  have hs := (List.of_mem_zip hv).2
  have ht := (List.of_mem_zip hw).2
  constructor
  · rintro ⟨u, hu, hu'⟩
    obtain ⟨hi, hsu⟩ := Grouping.getElem_groupOf hwf hs
    obtain ⟨hj, htu⟩ := Grouping.getElem_groupOf hwf ht
    rw [select_artifactOf_eq_ok_iff hwf hlen hv, List.getElem?_eq_getElem hi] at hu
    rw [select_artifactOf_eq_ok_iff hwf hlen hw, List.getElem?_eq_getElem hj] at hu'
    rw [Option.some.inj hu] at hsu
    rw [Option.some.inj hu'] at htu
    have hwfu : u.WellFormed :=
      Option.some.inj hu ▸ hwf _ (Distinct.mem_of_mem_ofList (List.getElem_mem hi))
    exact Node.beq_trans (hwf s hs) hwfu (hwf t ht) hsu (Node.beq_symm (hwf t ht) hwfu htu)
  · intro hst
    have hgroup := (Grouping.groupOf_eq_iff hwf hs ht).2 hst
    obtain ⟨u, hu, -⟩ := select_artifactOf hwf hlen hv
    refine ⟨u, hu, (select_artifactOf_eq_ok_iff hwf hlen hw).2 ?_⟩
    rw [← hgroup]
    exact (select_artifactOf_eq_ok_iff hwf hlen hv).1 hu

end Artifact

/-! ### Groups -/

/-- A successful compilation makes no table exactly when the trees of all versions are equal, and
otherwise a table that groups the versions by their trees. -/
theorem compile_groupsByTree {selector : String} {a : Artifact}
    (hkeeps : c.registry.KeepsWellFormed) (htree : tree.WellFormed)
    (h : (c.compileArrivingWithin arrival bound selector known tree).result = .ok a) :
    ∃ trees, c.outcomes bound (some selector) known tree = trees.map .ok ∧
      ((∃ t, a = .resolved t) ↔ ∀ s ∈ trees, ∀ t ∈ trees, (s == t) = true) ∧
      ((¬∀ s ∈ trees, ∀ t ∈ trees, (s == t) = true) →
        ∃ d, a = .dispatch d ∧ Grouping.GroupsByTree known trees d) := by
  obtain ⟨hne, trees, houtcomes, rfl⟩ := outcomes_of_compileArrivingWithin h
  have hwf := wellFormed_of_outcomes hkeeps htree houtcomes
  have hlen := length_of_outcomes houtcomes
  have htrees : trees ≠ [] := by
    rintro rfl
    exact hne (List.eq_nil_of_length_eq_zero hlen.symm)
  have hresolved : (∃ t, artifactOf selector known trees = .resolved t) ↔ _ :=
    artifactOf_eq_resolved_iff hwf htrees
  refine ⟨trees, houtcomes, hresolved, fun hunequal => ?_⟩
  cases ha : artifactOf selector known trees with
  | resolved t => exact absurd (hresolved.1 ⟨t, ha⟩) hunequal
  | dispatch d =>
    rw [eq_tableOf_of_artifactOf_eq ha]
    exact ⟨_, rfl, Grouping.groupsByTree_tableOf hwf hlen⟩

theorem compile_groupsByTree_growing :
    (compile ⟨(Standard.registry none).value, {}⟩ "api" Sample.threeVersions
      Sample.growing).result = .ok (artifactOf "api" Sample.threeVersions
        [.sequence [], .sequence [.str "y"], .sequence [.str "y"]]) ∧
    ∃ trees, outcomes ⟨(Standard.registry none).value, {}⟩ Sample.growing.depth (some "api")
        Sample.threeVersions Sample.growing = trees.map .ok ∧
      ((∃ t, artifactOf "api" Sample.threeVersions
        [.sequence [], .sequence [.str "y"], .sequence [.str "y"]] =
          .resolved t) ↔ ∀ s ∈ trees, ∀ t ∈ trees, (s == t) = true) ∧
      ((¬∀ s ∈ trees, ∀ t ∈ trees, (s == t) = true) →
        ∃ d, artifactOf "api" Sample.threeVersions
        [.sequence [], .sequence [.str "y"], .sequence [.str "y"]] =
          .dispatch d ∧ Grouping.GroupsByTree Sample.threeVersions trees d) := by
  have hcompile : (compile ⟨(Standard.registry none).value, {}⟩ "api" Sample.threeVersions
      Sample.growing).result =
        .ok (artifactOf "api" Sample.threeVersions
        [.sequence [], .sequence [.str "y"], .sequence [.str "y"]]) := rfl
  exact ⟨hcompile, compile_groupsByTree (Standard.inward_registry none).keepsWellFormed
    Sample.wellFormed_growing hcompile⟩

end Compiler

end VersionedTree
