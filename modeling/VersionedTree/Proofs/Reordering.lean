import VersionedTree.Compilation.Error
import VersionedTree.Proofs.Compiling
import VersionedTree.Proofs.Pivots
import VersionedTree.Proofs.Rules

/-!
# Known versions in another order

Four of the bundled qualifiers do not look at places: `only`, `feature` and `feature-case` look at
the version at hand, and `switch` at which versions there are. A tree that is made of these gives
the same whatever the order in which versions are declared. Errors of a `switch` list versions in
the order of declaration, so they are the same up to their kind.

## What is proved

* `Standard.alike_of_reordered` — the four qualifiers run in step.
* `Standard.walkWithin_of_reordered` — so do walks of trees that are made of them.
* `Standard.resolves_reordered` — a version gets the same tree or an error of the same kind, and two
  versions share a tree in one order exactly when they do in the other.
-/

namespace VersionedTree

namespace Sample

/-- The versions `v1`, `v2` and `v0`. -/
def threeRotated : KnownVersions := ⟨[⟨"v1"⟩, ⟨"v2"⟩, ⟨"v0"⟩], by decide⟩

/-- `v1`, where it is declared before the other two versions. -/
def atSecondRotated : Context := ⟨threeRotated, ⟨"v1"⟩, 0, rfl, none⟩

/-- A `switch` that stands for `a` at `v0` and for `b` at the other two versions. -/
def picking : Node :=
  .invocation Standard.switchTag
    [.mapping [(.str "v0", .str "a"), (.str "v1", .str "b"), (.str "v2", .str "b")]]

theorem wellFormed_picking : picking.WellFormed := by
  refine ⟨⟨?_, trivial, trivial, trivial, trivial, trivial, trivial, trivial⟩, trivial⟩
  unfold Distinct.Unequal
  decide

end Sample

/-- Two contexts of one version, whose known versions differ in their order only. -/
structure Context.Reordered (ctx ctx' : Context) : Prop where
  /-- The version at hand is the same. -/
  version : ctx.version = ctx'.version
  /-- The same versions are known. -/
  known : ctx.known.toList.Perm ctx'.known.toList

/-- The kind of an error does not depend on the version that it names. -/
theorem WalkError.kind_withVersion (e : WalkError) (v : Version) :
    (e.withVersion v).kind = e.kind := by
  cases e with
  | resolve cause => cases cause <;> rfl
  | tooDeep version => rfl

/-! ### The four qualifiers -/

section Version

variable {ctx ctx' : Context}

/-- `only` looks at the version at hand alone. -/
theorem Inclusion.isMember_congr (hversion : ctx.version = ctx'.version) (set : Node) :
    isMember ctx set = isMember ctx' set := by
  have hat : ctx.isAt = ctx'.isAt := by
    funext v
    rw [Context.isAt, Context.isAt, hversion]
  rw [isMember, isMember, hat]

/-- `feature` looks at the version at hand alone. -/
theorem Inclusion.isShipped_congr (hversion : ctx.version = ctx'.version) (m : Manifest)
    (flag : Node) : isShipped m ctx flag = isShipped m ctx' flag := by
  rw [isShipped, isShipped, hversion]

/-- `feature-case` looks at the version at hand alone. -/
theorem FeatureCase.featureCase_congr (hversion : ctx.version = ctx'.version) (m : Manifest)
    (args : List Node) : featureCase m ctx args = featureCase m ctx' args := by
  have hany : anyEnabled m ctx = anyEnabled m ctx' := by
    funext flags
    rw [anyEnabled, anyEnabled, hversion]
  unfold featureCase holds
  rw [hany]

end Version

namespace Switch

variable {ctx ctx' : Context}

/-- Clauses are refused with an error of one kind only. -/
theorem kind_of_choose_eq_error {read : List (Version × Node)} {e : QualifierError}
    (h : choose ctx read = .error e) : e.kind = .mismatchedSwitch := by
  unfold choose at h
  dsimp only at h
  split at h
  · cases h
  · cases h
    rfl

/-- Which clause is chosen depends on which versions are known, not on their order. -/
theorem choose_of_reordered (h : ctx.Reordered ctx') (read : List (Version × Node)) :
    (choose ctx read).mapError QualifierError.kind =
      (choose ctx' read).mapError QualifierError.kind := by
  have hok : ∀ e, choose ctx read = .ok e ↔ choose ctx' read = .ok e := by
    intro e
    rw [choose_eq_ok_iff, choose_eq_ok_iff, h.version]
    refine and_congr_left fun _ => ⟨fun hperm => ?_, fun hperm => ?_⟩
    · exact hperm.trans h.known
    · exact hperm.trans h.known.symm
  cases hx : choose ctx read with
  | ok e => rw [(hok e).1 hx]
  | error d =>
    cases hy : choose ctx' read with
    | ok e =>
      rw [(hok e).2 hy] at hx
      cases hx
    | error e =>
      have hkind := (kind_of_choose_eq_error hx).trans (kind_of_choose_eq_error hy).symm
      exact congrArg Except.error hkind

/-- A `switch` stands for the same form, or is refused with an error of the same kind. -/
theorem switch_of_reordered (h : ctx.Reordered ctx') (args : List Node) :
    (switch ctx args).mapError QualifierError.kind =
      (switch ctx' args).mapError QualifierError.kind := by
  unfold switch
  split
  · rename_i pairs
    cases clauses pairs with
    | error e => rfl
    | ok read => exact choose_of_reordered h read
  · rfl

end Switch

namespace Standard

/-- The tags of the qualifiers that do not look at places. -/
def unorderedTags : List Tag := [onlyTag, switchTag, featureTag, featureCaseTag]

/-- The four qualifiers give the same for a version, or errors of the same kind. -/
theorem alike_of_reordered {m? : Option Manifest} {ctx ctx' : Context} {tag : Tag} {q : Qualifier}
    (hq : (registry m?).value.get? tag = some q) (htag : tag ∈ unorderedTags)
    (h : ctx.Reordered ctx') (args : List Node) :
    Traced.Alike QualifierError.kind (q ctx args) (q ctx' args) := by
  refine forall_registry (P := fun tag q => tag ∈ unorderedTags →
      Traced.Alike QualifierError.kind (q ctx args) (q ctx' args))
    ?only ?added ?removed ?switch ?changed ?feature ?featureCase hq htag
  case only =>
    intro _
    exact congrArg (Except.mapError _)
      (includeWhen_congr fun n _ => Inclusion.isMember_congr h.version n)
  case switch =>
    intro _
    exact Switch.switch_of_reordered h args
  case feature =>
    intro m _
    exact congrArg (Except.mapError _)
      (includeWhen_congr fun n _ => Inclusion.isShipped_congr h.version m n)
  case featureCase =>
    intro m _
    unfold Traced.Alike
    rw [featureCase, FeatureCase.featureCase_congr h.version]
  -- the other three look at places
  case added | removed | changed =>
    intro htag
    exact absurd htag (by decide)

/-! ### Walks and compilations -/

variable {m? : Option Manifest} {tree : Node}

/-- Walks of a tree that is made of the four qualifiers run in step whatever the order of known
versions. -/
theorem agreement_of_reordered (m? : Option Manifest) (maxPasses : Nat) {ctx ctx' : Context}
    (h : ctx.Reordered ctx') :
    Resolver.Agreement WalkError.kind (Node.InvokesOnly (· ∈ unorderedTags))
      ⟨(registry m?).value, maxPasses⟩ ctx ⟨(registry m?).value, maxPasses⟩ ctx' := by
  refine .of_alike QualifierError.kind (fun e => ?_) (fun tag d e hde => hde)
    (fun n hn _ m hm => hn.part hm) (fun tag args hn => ?_) fun tag args hn q hq => ?_
  · rw [WalkError.kind_withVersion, WalkError.kind_withVersion]
  · refine ⟨fun forms hforms m hm => ?_, fun _ _ => trivial⟩
    exact Resolver.of_node_mem_expandForm (inward_registry m? _) (fun n hn m hm => hn.subnode hm)
      hn hforms hm
  · exact alike_of_reordered hq hn.tag h args

/-- A version gets the same tree in both orders, or errors of the same kind. -/
theorem walkWithin_of_reordered (maxPasses bound : Nat)
    (htree : tree.InvokesOnly (· ∈ unorderedTags)) {ctx ctx' : Context} (h : ctx.Reordered ctx') :
    Traced.Alike WalkError.kind
      (Resolver.walkWithin ⟨(registry m?).value, maxPasses⟩ bound ctx tree)
      (Resolver.walkWithin ⟨(registry m?).value, maxPasses⟩ bound ctx' tree) :=
  Resolver.walkWithin_alike (agreement_of_reordered m? maxPasses h) htree

/-- If all versions have a tree in one order, they do in the other. -/
theorem exists_outcomes_of_reordered {settings : Settings} {bound : Nat} {selector : Option String}
    {known known' : KnownVersions} (htree : tree.InvokesOnly (· ∈ unorderedTags))
    (hperm : known.toList.Perm known'.toList)
    (h : ∃ trees : List Node, Compiler.outcomes ⟨(registry m?).value, settings⟩ bound selector
      known tree = trees.map .ok) :
    ∃ trees : List Node, Compiler.outcomes ⟨(registry m?).value, settings⟩ bound selector
      known' tree = trees.map .ok := by
  rw [Compiler.exists_outcomes_eq_iff] at h ⊢
  intro ctx' hctx'
  obtain ⟨hknown', -⟩ := Context.mem_all_iff.1 hctx'
  have hv : ctx'.version ∈ known.toList := by
    rw [hperm.mem_iff, ← hknown']
    exact ctx'.version_mem
  obtain ⟨ctx, hctx, hversion⟩ := Context.exists_mem_all_of_version selector hv
  obtain ⟨hknown, -⟩ := Context.mem_all_iff.1 hctx
  obtain ⟨t, ht⟩ := h ctx hctx
  have hreordered : ctx.Reordered ctx' := ⟨hversion, by rwa [hknown, hknown']⟩
  exact ⟨t, (walkWithin_of_reordered _ bound htree hreordered).ok ht⟩

/-- Where all versions have a tree in both orders, a version has the same tree. -/
theorem exists_row_of_reordered {settings : Settings} {bound : Nat} {selector : Option String}
    {known known' : KnownVersions} {trees trees' : List Node}
    (htree : tree.InvokesOnly (· ∈ unorderedTags)) (hperm : known.toList.Perm known'.toList)
    (h : Compiler.outcomes ⟨(registry m?).value, settings⟩ bound selector known tree =
      trees.map .ok)
    (h' : Compiler.outcomes ⟨(registry m?).value, settings⟩ bound selector known' tree =
      trees'.map .ok) {v : Version} (hv : v ∈ known.toList) :
    ∃ t, (v, t) ∈ known.toList.zip trees ∧ (v, t) ∈ known'.toList.zip trees' := by
  obtain ⟨ctx, hctx, rfl⟩ := Context.exists_mem_all_of_version selector hv
  obtain ⟨ctx', hctx', hversion⟩ :=
    Context.exists_mem_all_of_version selector (hperm.mem_iff.1 hv)
  obtain ⟨hknown, -⟩ := Context.mem_all_iff.1 hctx
  obtain ⟨hknown', -⟩ := Context.mem_all_iff.1 hctx'
  obtain ⟨t, ht, hrow⟩ := Compiler.mem_zip_of_outcomes h hctx
  obtain ⟨t', ht', hrow'⟩ := Compiler.mem_zip_of_outcomes h' hctx'
  have hreordered : ctx.Reordered ctx' := ⟨hversion.symm, by rwa [hknown, hknown']⟩
  have hsame := (walkWithin_of_reordered _ bound htree hreordered).ok ht
  obtain rfl : t' = t := Except.ok.inj (ht'.symm.trans hsame)
  exact ⟨t', hrow, hversion ▸ hrow'⟩

/-- Compilations succeed or fail together. -/
theorem exists_compile_iff_of_reordered {settings : Settings} {arrival arrival' : List Nat}
    {bound : Nat} {selector : String} {known known' : KnownVersions}
    (htree : tree.InvokesOnly (· ∈ unorderedTags)) (hperm : known.toList.Perm known'.toList) :
    (∃ a, (Compiler.compileArrivingWithin ⟨(registry m?).value, settings⟩ arrival bound selector
        known tree).result = .ok a) ↔
      ∃ a', (Compiler.compileArrivingWithin ⟨(registry m?).value, settings⟩ arrival' bound selector
        known' tree).result = .ok a' := by
  rw [Compiler.exists_compileArrivingWithin_eq_ok_iff,
    Compiler.exists_compileArrivingWithin_eq_ok_iff]
  have hnil : known.toList = [] ↔ known'.toList = [] := by
    rw [← List.length_eq_zero_iff, ← List.length_eq_zero_iff, hperm.length_eq]
  refine and_congr (not_congr hnil) (and_congr_right fun _ => ?_)
  constructor
  · exact exists_outcomes_of_reordered htree hperm
  · exact exists_outcomes_of_reordered htree hperm.symm

/-- Artifacts for both orders let the same versions share a tree. -/
theorem shares_iff_of_reordered {settings : Settings} {arrival arrival' : List Nat} {bound : Nat}
    {selector : String} {known known' : KnownVersions}
    (htree : tree.InvokesOnly (· ∈ unorderedTags)) (hperm : known.toList.Perm known'.toList)
    (hwf : tree.WellFormed) {a a' : Artifact}
    (ha : (Compiler.compileArrivingWithin ⟨(registry m?).value, settings⟩ arrival bound selector
      known tree).result = .ok a)
    (ha' : (Compiler.compileArrivingWithin ⟨(registry m?).value, settings⟩ arrival' bound selector
      known' tree).result = .ok a') {v w : Version} (hv : v ∈ known.toList)
    (hw : w ∈ known.toList) : a.Shares v w ↔ a'.Shares v w := by
  obtain ⟨-, trees, h, rfl⟩ := Compiler.outcomes_of_compileArrivingWithin ha
  obtain ⟨-, trees', h', rfl⟩ := Compiler.outcomes_of_compileArrivingWithin ha'
  have hkeeps := (inward_registry m?).keepsWellFormed
  have htrees := Compiler.wellFormed_of_outcomes hkeeps hwf h
  have htrees' := Compiler.wellFormed_of_outcomes hkeeps hwf h'
  have hlen := Compiler.length_of_outcomes h
  have hlen' := Compiler.length_of_outcomes h'
  obtain ⟨s, hs, hs'⟩ := exists_row_of_reordered htree hperm h h' hv
  obtain ⟨t, ht, ht'⟩ := exists_row_of_reordered htree hperm h h' hw
  rw [Compiler.shares_artifactOf_iff htrees hlen hs ht,
    Compiler.shares_artifactOf_iff htrees' hlen' hs' ht']

/-- In a tree that is made of the four qualifiers, the order in which versions are declared does not
matter: a version gets the same tree in both orders, or errors of the same kind. Compilations
succeed or fail together, and if they succeed two versions share a tree in one order exactly when
they do in the other. -/
theorem resolves_reordered (htree : tree.InvokesOnly (· ∈ unorderedTags)) :
    (∀ maxPasses bound (ctx ctx' : Context), ctx.Reordered ctx' →
      (∃ t, (Resolver.walkWithin ⟨(registry m?).value, maxPasses⟩ bound ctx tree).result = .ok t ∧
        (Resolver.walkWithin ⟨(registry m?).value, maxPasses⟩ bound ctx' tree).result = .ok t) ∨
      ∃ d e,
        (Resolver.walkWithin ⟨(registry m?).value, maxPasses⟩ bound ctx tree).result = .error d ∧
        (Resolver.walkWithin ⟨(registry m?).value, maxPasses⟩ bound ctx' tree).result = .error e ∧
        d.kind = e.kind) ∧
    ∀ settings arrival arrival' bound selector (known known' : KnownVersions),
      known.toList.Perm known'.toList →
      ((∃ a, (Compiler.compileArrivingWithin ⟨(registry m?).value, settings⟩ arrival bound selector
          known tree).result = .ok a) ↔
        ∃ a', (Compiler.compileArrivingWithin ⟨(registry m?).value, settings⟩ arrival' bound
          selector known' tree).result = .ok a') ∧
      (tree.WellFormed → ∀ a a',
        (Compiler.compileArrivingWithin ⟨(registry m?).value, settings⟩ arrival bound selector
          known tree).result = .ok a →
        (Compiler.compileArrivingWithin ⟨(registry m?).value, settings⟩ arrival' bound selector
          known' tree).result = .ok a' →
        ∀ v ∈ known.toList, ∀ w ∈ known.toList, a.Shares v w ↔ a'.Shares v w) := by
  constructor
  · intro maxPasses bound ctx ctx' h
    exact (walkWithin_of_reordered maxPasses bound htree h).ok_or_error
  · intro settings arrival arrival' bound selector known known' hperm
    refine ⟨exists_compile_iff_of_reordered htree hperm, ?_⟩
    intro hwf a a' ha ha' v hv w hw
    exact shares_iff_of_reordered htree hperm hwf ha ha' hv hw

theorem invokesOnly_picking : Sample.picking.InvokesOnly (· ∈ unorderedTags) := by
  intro tag args h
  simp only [Sample.picking, Node.subnodes, Node.listSubnodes, Node.pairsSubnodes,
    List.mem_append, List.mem_cons, List.not_mem_nil, reduceCtorEq, or_false,
    Node.invocation.injEq] at h
  rw [h.1]
  decide

theorem resolves_reordered_picking :
    Sample.picking.InvokesOnly (· ∈ unorderedTags) ∧
    Sample.atSecond.Reordered Sample.atSecondRotated ∧
    ((∃ t, (Resolver.walkWithin ⟨(registry none).value, 10⟩ 3 Sample.atSecond
        Sample.picking).result = .ok t ∧
      (Resolver.walkWithin ⟨(registry none).value, 10⟩ 3 Sample.atSecondRotated
        Sample.picking).result = .ok t) ∨
    ∃ d e, (Resolver.walkWithin ⟨(registry none).value, 10⟩ 3 Sample.atSecond
        Sample.picking).result = .error d ∧
      (Resolver.walkWithin ⟨(registry none).value, 10⟩ 3 Sample.atSecondRotated
        Sample.picking).result = .error e ∧ d.kind = e.kind) ∧
    (Compiler.compileArrivingWithin ⟨(registry none).value, {}⟩ [] 3 "api" Sample.threeVersions
      Sample.picking).result =
        .ok (Compiler.artifactOf "api" Sample.threeVersions [.str "a", .str "b", .str "b"]) ∧
    (Compiler.compileArrivingWithin ⟨(registry none).value, {}⟩ [] 3 "api" Sample.threeRotated
      Sample.picking).result =
        .ok (Compiler.artifactOf "api" Sample.threeRotated [.str "b", .str "b", .str "a"]) ∧
    ∀ v ∈ Sample.threeVersions.toList, ∀ w ∈ Sample.threeVersions.toList,
      (Compiler.artifactOf "api" Sample.threeVersions [.str "a", .str "b", .str "b"]).Shares v w ↔
        (Compiler.artifactOf "api" Sample.threeRotated
          [.str "b", .str "b", .str "a"]).Shares v w := by
  have htree := invokesOnly_picking
  have hperm : Sample.threeVersions.toList.Perm Sample.threeRotated.toList := by decide
  have hversion : Sample.atSecond.version = Sample.atSecondRotated.version := rfl
  have hreordered : Sample.atSecond.Reordered Sample.atSecondRotated := ⟨hversion, hperm⟩
  have hcompile : (Compiler.compileArrivingWithin ⟨(registry none).value, {}⟩ [] 3 "api"
      Sample.threeVersions Sample.picking).result =
        .ok (Compiler.artifactOf "api" Sample.threeVersions [.str "a", .str "b", .str "b"]) := rfl
  have hcompile' : (Compiler.compileArrivingWithin ⟨(registry none).value, {}⟩ [] 3 "api"
      Sample.threeRotated Sample.picking).result =
        .ok (Compiler.artifactOf "api" Sample.threeRotated [.str "b", .str "b", .str "a"]) := rfl
  obtain ⟨hwalks, hcompiles⟩ := resolves_reordered htree
  exact ⟨htree, hreordered, hwalks 10 3 _ _ hreordered, hcompile, hcompile',
    (hcompiles {} [] [] 3 "api" _ _ hperm).2 Sample.wellFormed_picking _ _ hcompile hcompile'⟩

end Standard

end VersionedTree
