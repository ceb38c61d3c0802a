import VersionedTree.Proofs.SideBySide
import VersionedTree.Proofs.Simulation

/-!
# Only the tags of a tree matter

A compilation looks up the tags of the invocations that it meets. Where the qualifiers that it finds
return only what is inside of their arguments, all of these invocations come from the tree, and so
do their tags. So two registries that bind the tags of a tree alike compile it alike, whatever they
bind besides. Where walks run side by side and several of them fail, the order in which they arrive
decides which failure is reported, under one registry as under two.

## What is proved

* `Resolver.agreement_of_mentioned` — walks of a tree run in step under two registries that bind its
  tags alike.
* `Compiler.result_compileArrivingWithin_congr` — a compilation depends on a registry only through
  the walks.
* `Registry.compilesAlike_of_mentioned` — so the tree compiles alike.
* `Standard.get?_register_of_contains` — registering the bundled qualifiers binds their tags alike
  in all registries.
* `Registry.compilesAlike_mentioned` — tags that a tree does not mention may come and go, and what a
  registry held before the bundled qualifiers does not matter for a tree of their tags.
* `Registry.unmentioned_reportsOtherVersion` — two versions that fail, each of which is reported
  under one of two registries.
-/

namespace VersionedTree

/-! ### Tables -/

namespace Table

variable {κ ν : Type} [DecidableEq κ] {key : κ}

/-- Removing one key does not touch the others. -/
theorem get?_erase_of_ne (t : Table κ ν) {other : κ} (h : other ≠ key) :
    (t.erase key).get? other = t.get? other := by
  have hkept : ∀ value, (other, value) ∈ (t.erase key).entries ↔ (other, value) ∈ t.entries := by
    intro value
    simp [erase, h.symm]
  refine Option.ext fun value => ?_
  rw [get?_eq_some_iff, get?_eq_some_iff, hkept]

/-- After some insertions, a key that was inserted is bound alike in all tables. -/
theorem get?_foldl_insert {pairs : List (κ × ν)} {s t : Table κ ν}
    (h : key ∈ pairs.map Prod.fst ∨ s.get? key = t.get? key) :
    (pairs.foldl (fun t p => t.insert p.1 p.2) s).get? key =
      (pairs.foldl (fun t p => t.insert p.1 p.2) t).get? key := by
  induction pairs generalizing s t with
  | nil => exact h.resolve_left (by simp)
  | cons p rest ih =>
    refine ih ?_
    by_cases hkey : key = p.1
    · rw [hkey, get?_insert_self, get?_insert_self]
      exact .inr rfl
    · rw [get?_insert_of_ne s hkey, get?_insert_of_ne t hkey]
      exact h.imp_left fun hmem => (List.mem_cons.1 hmem).resolve_left hkey

end Table

/-! ### Walks of a tree -/

/-- The tag occurs in the tree, at any depth and also inside of arguments. -/
def Node.Mentions (tree : Node) (tag : Tag) : Prop := ∃ args, .invocation tag args ∈ tree.subnodes

/-- What the registry binds to the tags of the tree is inward. -/
def Registry.InwardOn (r : Registry) (tree : Node) : Prop :=
  ∀ tag q, tree.Mentions tag → r.get? tag = some q → q.Inward

/-- Both registries bind the same qualifiers to the tags of the tree, and leave the same of them
unbound. -/
def Registry.AgreeOn (r r' : Registry) (tree : Node) : Prop :=
  ∀ tag, tree.Mentions tag → r.get? tag = r'.get? tag

theorem Node.invokesOnly_mentions (tree : Node) : tree.InvokesOnly tree.Mentions :=
  fun _ args hargs => ⟨args, hargs⟩

variable {r r' : Registry} {tree : Node}

namespace Resolver

variable {ctx : Context}

/-- A form expands in the same way under both registries if its tag is bound alike. -/
theorem expandForm_eq_of_get?_eq {tag : Tag} (h : r.get? tag = r'.get? tag) (maxPasses : Nat)
    (args : List Node) : expandForm ⟨r, maxPasses⟩ ctx (.node (.invocation tag args)) =
      expandForm ⟨r', maxPasses⟩ ctx (.node (.invocation tag args)) := by
  rw [expandForm, expandForm, h]

/-- All tags that a walk meets are tags of the tree, and so walks run in step. -/
theorem agreement_of_mentioned (hinward : r.InwardOn tree) (h : r.AgreeOn r' tree)
    (maxPasses : Nat) (ctx : Context) :
    Agreement id (Node.InvokesOnly tree.Mentions) ⟨r, maxPasses⟩ ctx ⟨r', maxPasses⟩ ctx where
  maxPasses := rfl
  version _ := rfl
  parts _ hn _ _ hm := hn.part hm
  returned tag args hn := by
    refine ⟨fun forms hforms m hm => ?_, fun _ _ => trivial⟩
    exact of_node_mem_expandForm (fun q hq => hinward tag q hn.tag hq)
      (fun n hn m hm => hn.subnode hm) hn hforms hm
  expand tag args hn := by
    rw [expandForm_eq_of_get?_eq (h tag hn.tag)]
    exact Traced.alike_refl _

theorem result_walkWithin_of_mentioned (hinward : r.InwardOn tree) (h : r.AgreeOn r' tree)
    (maxPasses bound : Nat) (ctx : Context) : (walkWithin ⟨r, maxPasses⟩ bound ctx tree).result =
      (walkWithin ⟨r', maxPasses⟩ bound ctx tree).result :=
  (walkWithin_alike (agreement_of_mentioned hinward h maxPasses ctx)
    tree.invokesOnly_mentions).result_eq

end Resolver

/-! ### Compilations of a tree -/

/-- However the tree is compiled, the registry makes no difference. -/
structure Registry.CompilesAlike (r r' : Registry) (tree : Node) : Prop where
  /-- Every walk gives the same under both registries. -/
  walk_eq : ∀ maxPasses bound ctx, (Resolver.walkWithin ⟨r, maxPasses⟩ bound ctx tree).result =
    (Resolver.walkWithin ⟨r', maxPasses⟩ bound ctx tree).result
  /-- Compilations whose walks arrive in the same order give the same artifact or the same error. -/
  compile_eq : ∀ settings arrival bound selector known,
    (Compiler.compileArrivingWithin ⟨r, settings⟩ arrival bound selector known tree).result =
      (Compiler.compileArrivingWithin ⟨r', settings⟩ arrival bound selector known tree).result
  /-- Compilations whose walks arrive in orders of their own repeat each other. -/
  repeats : ∀ settings arrival arrival' bound selector (known : KnownVersions),
    Arrives arrival known.size → Arrives arrival' known.size →
    Compiler.Repeats ⟨r', settings⟩ arrival' bound selector known tree
        (Compiler.compileArrivingWithin ⟨r, settings⟩ arrival bound selector known tree).result ∧
      Compiler.Repeats ⟨r, settings⟩ arrival bound selector known tree
        (Compiler.compileArrivingWithin ⟨r', settings⟩ arrival' bound selector known tree).result

namespace Compiler

variable {settings : Settings} {bound : Nat} (arrival : List Nat)

theorem result_walkAllWithin_congr
    (h : ∀ ctx, (Resolver.walkWithin ⟨r, settings.maxPasses⟩ bound ctx tree).result =
      (Resolver.walkWithin ⟨r', settings.maxPasses⟩ bound ctx tree).result)
    (contexts : List Context) :
    (walkAllWithin ⟨r, settings⟩ arrival bound contexts tree).result =
      (walkAllWithin ⟨r', settings⟩ arrival bound contexts tree).result := by
  cases hpar : settings.parallel with
  | true =>
    rw [result_walkAllWithin_sideBySide hpar, result_walkAllWithin_sideBySide hpar]
    simp only [resolver, h]
  | false =>
    rw [result_walkAllWithin hpar, result_walkAllWithin hpar]
    simp only [resolver, h]

/-- A compilation depends on the registry only through what the walks of the tree give. -/
theorem result_compileArrivingWithin_congr
    (h : ∀ ctx, (Resolver.walkWithin ⟨r, settings.maxPasses⟩ bound ctx tree).result =
      (Resolver.walkWithin ⟨r', settings.maxPasses⟩ bound ctx tree).result)
    (selector : String) (known : KnownVersions) :
    (compileArrivingWithin ⟨r, settings⟩ arrival bound selector known tree).result =
      (compileArrivingWithin ⟨r', settings⟩ arrival bound selector known tree).result := by
  have hwalks : Traced.Alike id
      (walkAllWithin ⟨r, settings⟩ arrival bound (Context.all known (some selector)) tree)
      (walkAllWithin ⟨r', settings⟩ arrival bound (Context.all known (some selector)) tree) :=
    congrArg (Except.mapError id) (result_walkAllWithin_congr arrival h _)
  have hsettings : checkSettings ⟨r, settings⟩ = checkSettings ⟨r', settings⟩ := rfl
  have hrows : Traced.Alike id
      (resolveArrivingWithin ⟨r, settings⟩ arrival bound (some selector) known tree)
      (resolveArrivingWithin ⟨r', settings⟩ arrival bound (some selector) known tree) := by
    rw [resolveArrivingWithin, resolveArrivingWithin, hsettings]
    refine Traced.alike_bind (Traced.alike_refl _) fun _ _ => ?_
    exact Traced.alike_bind hwalks fun _ _ => Traced.alike_refl _
  refine Traced.Alike.result_eq ?_
  by_cases hsize : known.size = 0
  · rw [compileArrivingWithin, compileArrivingWithin, if_pos hsize, if_pos hsize]
    exact Traced.alike_throw rfl
  · rw [compileArrivingWithin, compileArrivingWithin, if_neg hsize, if_neg hsize]
    refine Traced.alike_bind (Traced.alike_refl _) fun _ _ => ?_
    exact Traced.alike_bind hrows fun _ _ => Traced.alike_refl _

end Compiler

namespace Registry

/-- A tree compiles alike if its walks give the same. -/
theorem compilesAlike_of_walks (h : ∀ maxPasses bound ctx,
    (Resolver.walkWithin ⟨r, maxPasses⟩ bound ctx tree).result =
      (Resolver.walkWithin ⟨r', maxPasses⟩ bound ctx tree).result) : r.CompilesAlike r' tree := by
  have hcompile : ∀ settings arrival bound selector known,
      (Compiler.compileArrivingWithin ⟨r, settings⟩ arrival bound selector known tree).result =
        (Compiler.compileArrivingWithin ⟨r', settings⟩ arrival bound selector known tree).result :=
    fun settings arrival bound selector known => Compiler.result_compileArrivingWithin_congr
      arrival (h settings.maxPasses bound) selector known
  refine ⟨h, hcompile, ?_⟩
  intro settings arrival arrival' bound selector known harrives harrives'
  constructor
  · rw [hcompile]
    exact Compiler.repeats harrives harrives'
  · rw [← hcompile]
    exact Compiler.repeats harrives' harrives

/-- A tree compiles alike under registries that bind its tags alike. -/
theorem compilesAlike_of_mentioned (hinward : r.InwardOn tree) (h : r.AgreeOn r' tree) :
    r.CompilesAlike r' tree :=
  compilesAlike_of_walks fun maxPasses bound ctx =>
    Resolver.result_walkWithin_of_mentioned hinward h maxPasses bound ctx

/-! ### Registering and removing -/

theorem value_register (r : Registry) (tag : Tag) (q : Qualifier) :
    (r.register tag q).value = r.insert tag q := by
  unfold register
  split <;> rfl

/-- Registering a tag that the tree does not mention leaves its tags alone. -/
theorem agreeOn_register {tag : Tag} (h : ¬tree.Mentions tag) (q : Qualifier) :
    r.AgreeOn (r.register tag q).value tree := by
  intro other hother
  have hne : other ≠ tag := fun heq => h (heq ▸ hother)
  rw [value_register, Table.get?_insert_of_ne r hne]

/-- Removing a tag that the tree does not mention leaves its tags alone. -/
theorem agreeOn_erase {tag : Tag} (h : ¬tree.Mentions tag) : r.AgreeOn (r.erase tag) tree := by
  intro other hother
  have hne : other ≠ tag := fun heq => h (heq ▸ hother)
  rw [Table.get?_erase_of_ne r hne]

end Registry

namespace Standard

theorem value_register (m? : Option Manifest) (s : Registry) :
    (register m? s).value = (bundle m?).foldl (fun t p => t.insert p.1 p.2) s := by
  cases m? <;>
    simp only [register, registerVersionPolicies, registerFeaturePolicies, Logged.value_bind,
      Logged.value_pure, Registry.value_register, bundle, List.foldl_append, List.foldl_cons,
      List.foldl_nil]

/-- A tag of a bundled qualifier is bound alike, whatever was registered before. -/
theorem get?_register_of_contains {m? : Option Manifest} {tag : Tag}
    (h : (registry m?).value.contains tag = true) (s : Registry) :
    (register m? s).value.get? tag = (registry m?).value.get? tag := by
  have hmem : tag ∈ (bundle m?).map Prod.fst :=
    entries_registry m? ▸ Table.keyed_contains_iff.1 h
  rw [registry, value_register, value_register]
  exact Table.get?_foldl_insert (.inl hmem)

end Standard

/-! ### All of it together -/

/-- A tree compiles alike under any two registries that bind its tags alike to inward qualifiers. So
tags that the tree does not mention may be registered and removed; and if it mentions only tags of
bundled qualifiers, it compiles after these are registered as if nothing had been registered
before. -/
theorem Registry.compilesAlike_mentioned (tree : Node) :
    (∀ r r' : Registry, r.InwardOn tree → r.AgreeOn r' tree → r.CompilesAlike r' tree) ∧
    (∀ (r : Registry) tag q, r.InwardOn tree → ¬tree.Mentions tag →
      r.CompilesAlike (r.register tag q).value tree ∧ r.CompilesAlike (r.erase tag) tree) ∧
    ∀ m? s, (∀ tag, tree.Mentions tag → (Standard.registry m?).value.contains tag = true) →
      (Standard.register m? s).value.CompilesAlike (Standard.registry m?).value tree := by
  refine ⟨fun r r' => compilesAlike_of_mentioned, fun r tag q hinward htag => ⟨?_, ?_⟩,
    fun m? s hbundled => ?_⟩
  · exact compilesAlike_of_mentioned hinward (agreeOn_register htag q)
  · exact compilesAlike_of_mentioned hinward (agreeOn_erase htag)
  · have hagree : AgreeOn (Standard.register m? s).value (Standard.registry m?).value tree :=
      fun tag htag => Standard.get?_register_of_contains (hbundled tag htag) s
    refine compilesAlike_of_mentioned (fun tag q htag hq => ?_) hagree
    exact Standard.inward_registry m? tag q (hagree tag htag ▸ hq)

/-- The only tag of a small tree is `added`. So `switch` may be replaced by something else or
removed, and other qualifiers may be there, some of them under the tags of bundled ones. -/
theorem Registry.compilesAlike_mentioned_growing :
    ¬Sample.growing.Mentions Standard.switchTag ∧
      (Standard.registry none).value.CompilesAlike
        ((Standard.registry none).value.register Standard.switchTag (.silent Sample.drop)).value
        Sample.growing ∧
      (Standard.registry none).value.CompilesAlike
        ((Standard.registry none).value.erase Standard.switchTag) Sample.growing ∧
      (Compiler.compile ⟨(Standard.registry none).value.erase Standard.switchTag, {}⟩ "api"
          Sample.threeVersions Sample.growing).result =
        .ok (Compiler.artifactOf "api" Sample.threeVersions
          [.sequence [], .sequence [.str "y"], .sequence [.str "y"]]) ∧
      (Standard.register none
          (Sample.registry.insert Standard.addedTag (.silent Sample.drop))).value.CompilesAlike
        (Standard.registry none).value Sample.growing := by
  have hmentions : ∀ tag, Sample.growing.Mentions tag → tag = Standard.addedTag := by
    rintro tag ⟨args, h⟩
    simp only [Sample.growing, Sample.nested, Node.subnodes, Node.listSubnodes] at h
    rcases (by simpa using h : _ ∨ _) with ⟨rfl, -⟩ | ⟨rfl, -⟩ <;> rfl
  have hswitch : ¬Sample.growing.Mentions Standard.switchTag :=
    fun h => absurd (hmentions _ h) (by decide)
  have hinward : (Standard.registry none).value.InwardOn Sample.growing :=
    fun tag q _ hq => Standard.inward_registry none tag q hq
  have hbundled : ∀ tag, Sample.growing.Mentions tag →
      (Standard.registry none).value.contains tag = true :=
    fun tag htag => hmentions tag htag ▸ rfl
  have hcompile : (Compiler.compile ⟨(Standard.registry none).value, {}⟩ "api"
      Sample.threeVersions Sample.growing).result =
        .ok (Compiler.artifactOf "api" Sample.threeVersions
          [.sequence [], .sequence [.str "y"], .sequence [.str "y"]]) := rfl
  obtain ⟨-, hunmentioned, hregister⟩ := compilesAlike_mentioned Sample.growing
  obtain ⟨hregistered, herased⟩ := hunmentioned _ Standard.switchTag _ hinward hswitch
  exact ⟨hswitch, hregistered, herased, (herased.compile_eq _ _ _ _ _).symm.trans hcompile,
    hregister none _ hbundled⟩

/-! ### Two versions that fail under two registries -/

namespace Sample

theorem inward_fail : (Qualifier.silent fail).Inward := by
  intro ctx args nodes h
  cases h

theorem inward_failing : failing.registry.Inward := by
  intro tag q hq
  have hentries : failing.registry.entries = [(⟨"fail"⟩, .silent fail)] := rfl
  have hmem := Table.get?_eq_some_iff.1 hq
  rw [hentries, List.mem_singleton, Prod.mk.injEq] at hmem
  rw [hmem.2]
  exact inward_fail

theorem eq_fail_of_mentions {tag : Tag} (h : unresolvable.Mentions tag) : tag = ⟨"fail"⟩ := by
  obtain ⟨args, h⟩ := h
  simp only [unresolvable, Node.subnodes, Node.listSubnodes] at h
  exact (Node.invocation.inj (by simpa using h)).1

end Sample

/-- Two versions fail, each with an error that names it, and a tag is registered that the tree does
not mention. If the walks run side by side and another one is the first to come to an end, another
error comes out. -/
theorem Registry.unmentioned_reportsOtherVersion :
    Sample.failing.registry.InwardOn Sample.unresolvable ∧
      ¬Sample.unresolvable.Mentions ⟨"drop"⟩ ∧
      Sample.failing.registry.AgreeOn
        (Sample.failing.registry.register ⟨"drop"⟩ (.silent Sample.drop)).value
        Sample.unresolvable ∧
      Arrives [0, 1] Sample.twoVersions.size ∧ Arrives [1, 0] Sample.twoVersions.size ∧
      (Compiler.compileArrivingWithin ⟨Sample.failing.registry, { parallel := true }⟩ [0, 1] 1 "api"
        Sample.twoVersions Sample.unresolvable).result = .error (.walk (Sample.refusalAt "v0")) ∧
      (Compiler.compileArrivingWithin
        ⟨(Sample.failing.registry.register ⟨"drop"⟩ (.silent Sample.drop)).value,
          { parallel := true }⟩ [1, 0] 1 "api"
        Sample.twoVersions Sample.unresolvable).result = .error (.walk (Sample.refusalAt "v1")) ∧
      (CompileError.walk (Sample.refusalAt "v1")).message ≠
        (CompileError.walk (Sample.refusalAt "v0")).message := by
  have hunmentioned : ¬Sample.unresolvable.Mentions ⟨"drop"⟩ :=
    fun h => absurd (Sample.eq_fail_of_mentions h) (by decide)
  exact ⟨fun tag q _ hq => Sample.inward_failing tag q hq, hunmentioned,
    agreeOn_register hunmentioned _, List.Perm.refl _, List.Perm.swap 0 1 [], rfl, rfl, by decide⟩

end VersionedTree
