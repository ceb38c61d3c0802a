import VersionedTree.Proofs.Descent
import VersionedTree.Proofs.Selection

/-!
# Inclusion by a set of versions

Three of the bundled qualifiers include their forms for some of the known versions: `added` and
`removed` by the order of declaration, and `feature` by the manifest. With `only` the versions are
listed. Where the list is that of the versions for which one of the three includes its forms, `only`
over the same forms gives the same for every version, so it may be written instead: anywhere in a
tree, any number of times, also inside of the arguments of other invocations.

## What is proved

* `Inclusion.sameAsOnly_added`, `Inclusion.sameAsOnly_removed` and `Inclusion.sameAsOnly_feature` —
  the three give for a condition what `only` gives for the set of versions.
* `Standard.following_of_rewritten` — walks of a tree and of the rewritten tree run in step.
* `Standard.inclusion_agreesWithOnly` — the three agree with `only`, and a tree may be rewritten.
-/

namespace VersionedTree

/-- The node is a set of the nodes of the given versions, in any order. -/
def Node.Lists (set : Node) (versions : Version → Prop) : Prop :=
  ∃ vs : List Version, set = .set (vs.map Version.toNode) ∧ ∀ v, v ∈ vs ↔ versions v

/-- The known versions of some kind are listed in the order of declaration. -/
theorem Node.lists_filter {known : KnownVersions} {versions : Version → Prop}
    [DecidablePred versions] (vs : List Version) (hvs : known.toList.filter versions = vs)
    (h : ∀ v, versions v → v ∈ known.toList) :
    (Node.set (vs.map Version.toNode)).Lists versions := by
  refine ⟨vs, rfl, fun v => ?_⟩
  rw [← hvs, List.mem_filter, decide_eq_true_iff]
  exact and_iff_right_of_imp (h v)

namespace Sample

/-- A manifest by which the second of three versions ships a flag, and one that is not known. -/
def darkSecond : Manifest := .ofList [(⟨"v1"⟩, ["dark-mode"]), (⟨"v9"⟩, ["dark-mode"])]

/-- A form under each of the three conditions, one of them inside of another one. -/
def conditional : Node :=
  .sequence [.invocation Standard.addedTag [.str "v1", .str "a"],
    .invocation Standard.removedTag [.str "v1", .str "b"],
    .invocation Standard.featureTag [.symbol "dark-mode",
      .invocation Standard.removedTag [.str "v2", .str "c"]]]

/-- The same, with the versions listed. -/
def listed : Node :=
  .sequence [.invocation Standard.onlyTag [.set [.str "v1", .str "v2"], .str "a"],
    .invocation Standard.onlyTag [.set [.str "v0"], .str "b"],
    .invocation Standard.onlyTag [.set [.str "v1"],
      .invocation Standard.onlyTag [.set [.str "v0", .str "v1"], .str "c"]]]

theorem wellFormed_conditional : conditional.WellFormed := by
  simp only [conditional, Node.WellFormed, Node.AllWellFormed, and_self]

theorem wellFormed_listed : listed.WellFormed := by
  simp only [listed, Node.WellFormed, Node.AllWellFormed, Distinct.Unequal, and_true]
  decide

end Sample

namespace Inclusion

variable {ctx : Context} {condition set : Node} {v : Version} {versions : Version → Prop}

/-! ### Conditions -/

/-- `only` of a set of versions asks whether the version at hand is one of them. -/
theorem exists_isMember_of_lists (h : set.Lists versions) :
    ∃ b, isMember ctx set = .ok b ∧ (b = true ↔ versions ctx.version) := by
  obtain ⟨vs, rfl, hvs⟩ := h
  refine ⟨decide (ctx.version ∈ vs), isMember_eq_ok_iff.2 ⟨_, .inl rfl, ?_, ?_⟩, ?_⟩
  · exact List.forall_mem_map.2 fun w _ => ⟨w, rfl⟩
  · simp [Version.toNode, Version.ofNode?]
  · rw [decide_eq_true_iff, hvs]

/-- `added` asks whether a version leads the version at hand. -/
theorem exists_isSince (hname : Version.ofNode? condition = some v) (hv : v ∈ ctx.known.toList) :
    ∃ b, isSince ctx condition = .ok b ∧ (b = true ↔ ctx.known.Leads v ctx.version) := by
  obtain ⟨k, hk⟩ := KnownVersions.exists_position?_of_mem hv
  have hplace : ctx.placeOf? condition = some k := Context.placeOf?_eq_some_iff.2 ⟨v, hname, hk⟩
  refine ⟨_, isSince_eq_ok_iff.2 ⟨k, hplace, rfl⟩, ?_⟩
  simp [KnownVersions.Leads, hk, ctx.position?_version]

/-- `removed` asks whether the version at hand precedes a version. -/
theorem exists_isBefore (hname : Version.ofNode? condition = some v) (hv : v ∈ ctx.known.toList) :
    ∃ b, isBefore ctx condition = .ok b ∧ (b = true ↔ ctx.known.Precedes ctx.version v) := by
  obtain ⟨k, hk⟩ := KnownVersions.exists_position?_of_mem hv
  have hplace : ctx.placeOf? condition = some k := Context.placeOf?_eq_some_iff.2 ⟨v, hname, hk⟩
  refine ⟨_, isBefore_eq_ok_iff.2 ⟨k, hplace, rfl⟩, ?_⟩
  simp [KnownVersions.Precedes, hk, ctx.position?_version]

/-- `feature` asks whether the version at hand ships a flag. -/
theorem exists_isShipped {m : Manifest} {flag : String} (hname : condition.text? = some flag)
    (hflag : m.isKnownFlag flag = true) :
    ∃ b, isShipped m ctx condition = .ok b ∧
      (b = true ↔ ctx.version ∈ ctx.known.toList ∧ m.isEnabled ctx.version flag = true) := by
  refine ⟨m.isEnabled ctx.version flag, isShipped_eq_ok_iff.2 ⟨⟨flag, hname, hflag⟩, ?_⟩, ?_⟩
  · simp [Manifest.Enables, hname]
  · simp [ctx.version_mem]

/-! ### Policies -/

/-- Whatever the forms, a policy gives for them under a condition what `only` gives for them under a
set: the forms, or a deletion. -/
def SameAsOnly (policy : Context → List Node → Except QualifierError Expansion) (ctx : Context)
    (condition set : Node) : Prop :=
  ∃ b, ∀ forms, policy ctx (condition :: forms) = .ok (.includeIf b forms) ∧
    only ctx (set :: forms) = .ok (.includeIf b forms)

theorem SameAsOnly.eq {policy : Context → List Node → Except QualifierError Expansion}
    (h : SameAsOnly policy ctx condition set) (forms : List Node) :
    policy ctx (condition :: forms) = only ctx (set :: forms) := by
  obtain ⟨b, hb⟩ := h
  rw [(hb forms).1, (hb forms).2]

/-- Policies of one shape are the same where their conditions are. -/
theorem sameAsOnly_of_tests {usage : String} {test : Context → Node → Except QualifierError Bool}
    (hset : set.Lists versions)
    (htest : ∃ b, test ctx condition = .ok b ∧ (b = true ↔ versions ctx.version)) :
    SameAsOnly (includeWhen usage test) ctx condition set := by
  obtain ⟨b, hb, hversions⟩ := htest
  have hmember : ∃ b, isMember ctx set = .ok b ∧ (b = true ↔ versions ctx.version) :=
    exists_isMember_of_lists hset
  obtain ⟨b', hb', hversions'⟩ := hmember
  obtain rfl : b = b' := Bool.eq_iff_iff.2 (hversions.trans hversions'.symm)
  refine ⟨b, fun forms => ⟨?_, ?_⟩⟩
  · exact includeWhen_eq_ok_iff.2 ⟨condition, forms, b, rfl, hb, rfl⟩
  · exact includeWhen_eq_ok_iff.2 ⟨set, forms, b, rfl, hb', rfl⟩

theorem sameAsOnly_added (hname : Version.ofNode? condition = some v)
    (hv : v ∈ ctx.known.toList) (hset : set.Lists fun w => ctx.known.Leads v w) :
    SameAsOnly added ctx condition set :=
  sameAsOnly_of_tests hset (exists_isSince hname hv)

theorem sameAsOnly_removed (hname : Version.ofNode? condition = some v)
    (hv : v ∈ ctx.known.toList) (hset : set.Lists fun w => ctx.known.Precedes w v) :
    SameAsOnly removed ctx condition set :=
  sameAsOnly_of_tests hset (exists_isBefore hname hv)

theorem sameAsOnly_feature {m : Manifest} {flag : String} (hname : condition.text? = some flag)
    (hflag : m.isKnownFlag flag = true)
    (hset : set.Lists fun w => w ∈ ctx.known.toList ∧ m.isEnabled w flag = true) :
    SameAsOnly (feature m) ctx condition set :=
  sameAsOnly_of_tests hset (exists_isShipped hname hflag)

end Inclusion

namespace Standard

/-! ### Rewritten trees -/

/-- A condition of one of the three policies, and the set of the known versions for which it
holds. -/
inductive Counterpart (m? : Option Manifest) (known : KnownVersions) :
    Tag → Node → Node → Prop where
  /-- The versions at and after a known one. -/
  | added {condition set : Node} {v : Version} : Version.ofNode? condition = some v →
    v ∈ known.toList → set.Lists (fun w => known.Leads v w) →
      Counterpart m? known addedTag condition set
  /-- The versions strictly before a known one. -/
  | removed {condition set : Node} {v : Version} : Version.ofNode? condition = some v →
    v ∈ known.toList → set.Lists (fun w => known.Precedes w v) →
      Counterpart m? known removedTag condition set
  /-- The known versions that ship a known flag. -/
  | feature {m : Manifest} {condition set : Node} {flag : String} : m? = some m →
    condition.text? = some flag → m.isKnownFlag flag = true →
      set.Lists (fun w => w ∈ known.toList ∧ m.isEnabled w flag = true) →
        Counterpart m? known featureTag condition set

/-- A node is another one, in which any number of invocations of the three policies may have been
replaced by those of `only` with the set of their versions. -/
inductive Rewritten (m? : Option Manifest) (known : KnownVersions) : Node → Node → Prop where
  /-- The same scalar. -/
  | scalar (value : Scalar) : Rewritten m? known (.scalar value) (.scalar value)
  /-- Sequences, item by item. -/
  | sequence {xs ys : List Node} : List.Forall₂ (Rewritten m? known) xs ys →
    Rewritten m? known (.sequence xs) (.sequence ys)
  /-- Sets, member by member. -/
  | set {xs ys : List Node} : List.Forall₂ (Rewritten m? known) xs ys →
    Rewritten m? known (.set xs) (.set ys)
  /-- Mappings, pair by pair. -/
  | mapping {ps qs : List (Node × Node)} :
    List.Forall₂ (Rewritten m? known) (ps.map Prod.fst) (qs.map Prod.fst) →
    List.Forall₂ (Rewritten m? known) (ps.map Prod.snd) (qs.map Prod.snd) →
      Rewritten m? known (.mapping ps) (.mapping qs)
  /-- Invocations of one tag, argument by argument. -/
  | invocation {tag : Tag} {xs ys : List Node} : List.Forall₂ (Rewritten m? known) xs ys →
    Rewritten m? known (.invocation tag xs) (.invocation tag ys)
  /-- An invocation that is replaced; its forms may be rewritten as well. -/
  | counterpart {tag : Tag} {condition set : Node} {xs ys : List Node} :
    Counterpart m? known tag condition set → List.Forall₂ (Rewritten m? known) xs ys →
      Rewritten m? known (.invocation tag (condition :: xs)) (.invocation onlyTag (set :: ys))

/-- A well-formed node that is rewritten into a well-formed node. -/
structure RewrittenWellFormed (m? : Option Manifest) (known : KnownVersions) (m n : Node) :
    Prop where
  rewritten : Rewritten m? known m n
  left : m.WellFormed
  right : n.WellFormed

section Rewritten

variable {m? : Option Manifest} {known : KnownVersions} {ctx : Context}

/-- Parts that are rewritten, of well-formed nodes. -/
theorem forall₂_rewrittenWellFormed {xs ys : List Node}
    (h : List.Forall₂ (Rewritten m? known) xs ys) (hxs : ∀ x ∈ xs, x.WellFormed)
    (hys : ∀ y ∈ ys, y.WellFormed) : List.Forall₂ (RewrittenWellFormed m? known) xs ys :=
  (forall₂_and_mem h hxs hys).imp fun _ _ hxy => ⟨hxy.1, hxy.2.1, hxy.2.2⟩

/-- A rewritten node has the shape that it had. -/
theorem RewrittenWellFormed.opened {m n : Node} (h : RewrittenWellFormed m? known m n) :
    m.Opened False (RewrittenWellFormed m? known) (fun _ _ => True) n := by
  obtain ⟨hrewritten, hm, hn⟩ := h
  cases hrewritten with
  | scalar value => exact .scalar value
  | sequence h =>
    exact .sequence (forall₂_rewrittenWellFormed h (fun _ hx => hm.part hx) fun _ hy => hn.part hy)
  | set h =>
    exact .set (.of_forall₂ _
      (forall₂_rewrittenWellFormed h (fun _ hx => hm.part hx) fun _ hy => hn.part hy))
  | mapping hkeys hvalues =>
    refine .mapping (.of_forall₂ _ (forall₂_pairRelated_iff.2 ⟨?_, ?_⟩))
    · exact forall₂_rewrittenWellFormed hkeys hm.keys hn.keys
    · exact forall₂_rewrittenWellFormed hvalues hm.values hn.values
  | invocation => exact .invocation trivial
  | counterpart => exact .invocation trivial

/-- Behind the tag of a policy there is a qualifier that gives what `only` gives for the
counterpart. -/
theorem Counterpart.exists_policy {tag : Tag} {condition set : Node}
    (h : Counterpart m? ctx.known tag condition set) :
    ∃ policy, (registry m?).value.get? tag = some (.silent policy) ∧
      Inclusion.SameAsOnly policy ctx condition set := by
  cases h with
  | added hname hv hset =>
    exact ⟨Inclusion.added, by cases m? <;> rfl, Inclusion.sameAsOnly_added hname hv hset⟩
  | removed hname hv hset =>
    exact ⟨Inclusion.removed, by cases m? <;> rfl, Inclusion.sameAsOnly_removed hname hv hset⟩
  | @feature m _ _ _ hm hname hflag hset =>
    subst hm
    exact ⟨Inclusion.feature m, rfl, Inclusion.sameAsOnly_feature hname hflag hset⟩

/-- An invocation and its counterpart expand into related forms. -/
theorem Counterpart.expandForm_leadsTo {maxPasses : Nat} {permitted : Event → Prop}
    {R : Node → Node → Prop} {tag : Tag} {condition set : Node} {xs ys : List Node}
    (h : Counterpart m? ctx.known tag condition set) (hforms : List.Forall₂ R xs ys) :
    Traced.LeadsTo permitted (List.Forall₂ (Form.Related R))
      (Resolver.expandForm ⟨(registry m?).value, maxPasses⟩ ctx
        (.node (.invocation tag (condition :: xs))))
      (Resolver.expandForm ⟨(registry m?).value, maxPasses⟩ ctx
        (.node (.invocation onlyTag (set :: ys)))) := by
  obtain ⟨policy, hget, b, hsame⟩ := h.exists_policy
  have honly : (registry m?).value.get? onlyTag = some (.silent Inclusion.only) := by
    cases m? <;> rfl
  have hexpansions : Traced.LeadsTo permitted (Expansion.Related R)
      (Qualifier.silent policy ctx (condition :: xs))
      (Qualifier.silent Inclusion.only ctx (set :: ys)) := by
    intro e he
    have he := Qualifier.yields_silent_iff.1 he
    rw [(hsame xs).1] at he
    cases he
    refine ⟨.includeIf b ys, Qualifier.yields_silent_iff.2 (hsame ys).2, ?_⟩
    cases b with
    | false => exact Expansion.related_delete
    | true => exact Expansion.related_forms hforms
  rw [Resolver.expandForm_eq hget, Resolver.expandForm_eq honly]
  exact Traced.leadsTo_bind (Traced.leadsTo_adapt hexpansions)
    fun _ _ he _ _ => Traced.leadsTo_pure he

/-- Walks of a tree and of the rewritten tree run in step. -/
theorem following_of_rewritten (m? : Option Manifest) (ctx : Context) (maxPasses : Nat) :
    Following (fun _ => True) False (RewrittenWellFormed m? ctx.known) Eq
      ⟨(registry m?).value, maxPasses⟩ ctx ⟨(registry m?).value, maxPasses⟩ ctx := by
  refine .of_inward (inward_registry m?) (inward_registry m?) rfl rfl (fun _ _ => trivial)
    (fun h => ⟨h.left, h.right⟩) RewrittenWellFormed.opened fun {m n} hmn hm => ?_
  obtain ⟨hrewritten, hwf, hwf'⟩ := hmn
  cases hrewritten with
  | invocation hargs =>
    have hargs := forall₂_rewrittenWellFormed hargs (fun _ hx => hwf.part hx)
      fun _ hy => hwf'.part hy
    exact expandForm_leadsTo rfl rfl (fun _ => trivial) RewrittenWellFormed.opened (.refl ctx)
      (fun _ => .refl _) (.of_forall₂ hargs)
  | counterpart hcounterpart hforms =>
    refine hcounterpart.expandForm_leadsTo ?_
    exact forall₂_rewrittenWellFormed hforms
      (fun _ hx => hwf.part (List.mem_cons_of_mem _ hx))
      fun _ hy => hwf'.part (List.mem_cons_of_mem _ hy)
  | _ => cases hm

/-- The three policies agree with `only` of the set of their versions, for any forms and for every
version, and a tree may be rewritten accordingly: where it resolves for a version, the rewritten
tree resolves to the same tree. -/
theorem inclusion_agreesWithOnly :
    (∀ (ctx : Context) condition v (set : Node) forms, Version.ofNode? condition = some v →
      v ∈ ctx.known.toList → set.Lists (fun w => ctx.known.Leads v w) →
        Inclusion.added ctx (condition :: forms) = Inclusion.only ctx (set :: forms)) ∧
    (∀ (ctx : Context) condition v (set : Node) forms, Version.ofNode? condition = some v →
      v ∈ ctx.known.toList → set.Lists (fun w => ctx.known.Precedes w v) →
        Inclusion.removed ctx (condition :: forms) = Inclusion.only ctx (set :: forms)) ∧
    (∀ (m : Manifest) (ctx : Context) condition flag (set : Node) forms,
      condition.text? = some flag → m.isKnownFlag flag = true →
      set.Lists (fun w => w ∈ ctx.known.toList ∧ m.isEnabled w flag = true) →
        Inclusion.feature m ctx (condition :: forms) = Inclusion.only ctx (set :: forms)) ∧
    ∀ m? maxPasses (ctx : Context) (s t u : Node), s.WellFormed → t.WellFormed →
      Rewritten m? ctx.known s t →
      (Resolver.walk ⟨(registry m?).value, maxPasses⟩ ctx s).result = .ok u →
        (Resolver.walk ⟨(registry m?).value, maxPasses⟩ ctx t).result = .ok u := by
  refine ⟨fun ctx condition v set forms hname hv hset => ?_,
    fun ctx condition v set forms hname hv hset => ?_,
    fun m ctx condition flag set forms hname hflag hset => ?_,
    fun m? maxPasses ctx s t u hs ht hst hu => ?_⟩
  · exact (Inclusion.sameAsOnly_added hname hv hset).eq forms
  · exact (Inclusion.sameAsOnly_removed hname hv hset).eq forms
  · exact (Inclusion.sameAsOnly_feature hname hflag hset).eq forms
  · have hinward := inward_registry m?
    rw [← Resolver.result_walkWithin_of_depth_le hinward (Nat.le_max_left s.depth t.depth)] at hu
    rw [← Resolver.result_walkWithin_of_depth_le hinward (Nat.le_max_right s.depth t.depth)]
    obtain ⟨u', hu', rfl⟩ := Resolver.walkWithin_leadsTo (following_of_rewritten m? ctx maxPasses)
      (.eq _ _) ⟨hst, hs, ht⟩ u ⟨hu, fun _ _ => trivial⟩
    exact hu'.1

theorem inclusion_agreesWithOnly_conditional :
    Rewritten (some Sample.darkSecond) Sample.threeVersions Sample.conditional Sample.listed ∧
    (∀ forms, Inclusion.added Sample.atSecond (.str "v1" :: forms) =
      Inclusion.only Sample.atSecond (.set [.str "v1", .str "v2"] :: forms)) ∧
    (∀ forms, Inclusion.removed Sample.atSecond (.str "v1" :: forms) =
      Inclusion.only Sample.atSecond (.set [.str "v0"] :: forms)) ∧
    (∀ forms, Inclusion.feature Sample.darkSecond Sample.atSecond (.symbol "dark-mode" :: forms) =
      Inclusion.only Sample.atSecond (.set [.str "v1"] :: forms)) ∧
    (Resolver.walk ⟨(registry (some Sample.darkSecond)).value, 10⟩ Sample.atSecond
      Sample.conditional).result = .ok (.sequence [.str "a", .str "c"]) ∧
    (Resolver.walk ⟨(registry (some Sample.darkSecond)).value, 10⟩ Sample.atSecond
      Sample.listed).result = .ok (.sequence [.str "a", .str "c"]) := by
  have hmem : ⟨"v1"⟩ ∈ Sample.threeVersions.toList := by decide
  have hsince : (Node.set [.str "v1", .str "v2"]).Lists fun w =>
      Sample.threeVersions.Leads ⟨"v1"⟩ w :=
    Node.lists_filter [⟨"v1"⟩, ⟨"v2"⟩] (by decide) fun _ h => h.mem.2
  have hbefore : (Node.set [.str "v0"]).Lists fun w => Sample.threeVersions.Precedes w ⟨"v1"⟩ :=
    Node.lists_filter [⟨"v0"⟩] (by decide) fun _ h => h.leads.mem.1
  have hbefore' : (Node.set [.str "v0", .str "v1"]).Lists fun w =>
      Sample.threeVersions.Precedes w ⟨"v2"⟩ :=
    Node.lists_filter [⟨"v0"⟩, ⟨"v1"⟩] (by decide) fun _ h => h.leads.mem.1
  have hships : (Node.set [.str "v1"]).Lists fun w =>
      w ∈ Sample.threeVersions.toList ∧ Sample.darkSecond.isEnabled w "dark-mode" = true :=
    Node.lists_filter [⟨"v1"⟩] (by decide) fun _ h => h.1
  have hrewritten : Rewritten (some Sample.darkSecond) Sample.threeVersions Sample.conditional
      Sample.listed := by
    refine .sequence (.cons ?_ (.cons ?_ (.cons ?_ .nil)))
    · exact .counterpart (.added rfl hmem hsince) (.cons (.scalar _) .nil)
    · exact .counterpart (.removed rfl hmem hbefore) (.cons (.scalar _) .nil)
    · refine .counterpart (.feature rfl rfl (by decide) hships) (.cons ?_ .nil)
      exact .counterpart (.removed rfl (by decide) hbefore') (.cons (.scalar _) .nil)
  have hwalk : (Resolver.walk ⟨(registry (some Sample.darkSecond)).value, 10⟩ Sample.atSecond
      Sample.conditional).result = .ok (.sequence [.str "a", .str "c"]) := rfl
  obtain ⟨hadded, hremoved, hfeature, hwalks⟩ := inclusion_agreesWithOnly
  exact ⟨hrewritten, fun forms => hadded Sample.atSecond _ _ _ forms rfl hmem hsince,
    fun forms => hremoved Sample.atSecond _ _ _ forms rfl hmem hbefore,
    fun forms => hfeature _ Sample.atSecond _ _ _ forms rfl (by decide) hships, hwalk,
    hwalks _ 10 Sample.atSecond _ _ _ Sample.wellFormed_conditional Sample.wellFormed_listed
      hrewritten hwalk⟩

end Rewritten

end Standard

end VersionedTree
