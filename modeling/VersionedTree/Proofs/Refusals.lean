import VersionedTree.Proofs.ExactCover
import VersionedTree.Proofs.FirstMatch
import VersionedTree.Proofs.LatestChange
import VersionedTree.Proofs.Pivots

/-!
# Refused at every version

A bundled qualifier that refuses its arguments at one version refuses them at all of them, and for
the same reason. So a mistake in a tree cannot hide behind the versions for which it is not chosen:
each qualifier reads everything that it may refuse before it looks at the version at hand, or
without looking at it.

## What is proved

* `Outcome.FailAlike` — two computations both succeed or fail with the same error, with a rule for
  each way to put computations together.
* `Inclusion.failAlike_includeWhen`, `Switch.failAlike_switch`, `ChangeLog.failAlike_changed`,
  `FeatureCase.failAlike_featureCase` — one lemma for each family of qualifiers.
* `Standard.refused_everywhere` — at any two versions a bundled qualifier succeeds at both, or is
  refused with one error.
-/

namespace VersionedTree

/-! ### Computations that fail alike -/

namespace Outcome

variable {ε α β γ δ : Type} {x : Except ε α} {y : Except ε β}

/-- The computations fail with the same errors; what they give when they succeed may differ. -/
def FailAlike (x : Except ε α) (y : Except ε β) : Prop := ∀ e, x = .error e ↔ y = .error e

theorem failAlike_ok (a : α) (b : β) : FailAlike (.ok a : Except ε α) (.ok b : Except ε β) :=
  fun _ => iff_of_false nofun nofun

theorem failAlike_error (e : ε) : FailAlike (.error e : Except ε α) (.error e : Except ε β) :=
  fun d => by rw [Except.error.injEq, Except.error.injEq]

/-- Computations that fail alike, and then go on to fail alike, fail alike. -/
theorem FailAlike.bind {f : α → Except ε γ} {g : β → Except ε δ} (h : FailAlike x y)
    (hfg : ∀ a b, FailAlike (f a) (g b)) : FailAlike (x >>= f) (y >>= g) := by
  cases x with
  | error e =>
    rw [(h e).1 rfl]
    exact failAlike_error e
  | ok a =>
    cases y with
    | error e => cases (h e).2 rfl
    | ok b => exact hfg a b

/-- A computation that is the same goes on with the same value. -/
theorem failAlike_bind_same (x : Except ε α) {f : α → Except ε γ} {g : α → Except ε δ}
    (hfg : ∀ a, FailAlike (f a) (g a)) : FailAlike (x >>= f) (x >>= g) := by
  cases x with
  | error e => exact failAlike_error e
  | ok a => exact hfg a

/-- Both computations succeed, or both fail with one error. -/
theorem FailAlike.ok_or_error (h : FailAlike x y) :
    (∃ a b, x = .ok a ∧ y = .ok b) ∨ ∃ e, x = .error e ∧ y = .error e := by
  cases x with
  | error e => exact .inr ⟨e, rfl, (h e).1 rfl⟩
  | ok a =>
    cases y with
    | error e => cases (h e).2 rfl
    | ok b => exact .inl ⟨a, b, rfl, rfl⟩

end Outcome

open Outcome

variable {ctx ctx' : Context}

/-! ### Forms under a condition -/

namespace Inclusion

/-- Where the condition fails alike, forms under it do. -/
theorem failAlike_includeWhen {test : Context → Node → Except QualifierError Bool}
    (h : ∀ n, FailAlike (test ctx n) (test ctx' n)) (usage : String) (args : List Node) :
    FailAlike (includeWhen usage test ctx args) (includeWhen usage test ctx' args) :=
  failAlike_bind_same _ fun headAndForms =>
    (h headAndForms.1).bind fun _ _ => failAlike_ok _ _

/-- The members are read, whichever version is looked for among them. -/
theorem failAlike_isMember (n : Node) : FailAlike (isMember ctx n) (isMember ctx' n) :=
  failAlike_bind_same _ fun _ => failAlike_bind_same _ fun _ => failAlike_ok _ _

/-- The place of a version is found or not, whatever it is then compared with. -/
theorem failAlike_place (hknown : ctx.known = ctx'.known) (n : Node) (f g : Nat → Bool) :
    FailAlike (Arguments.knownPosition ctx n >>= fun k => pure (f k))
      (Arguments.knownPosition ctx' n >>= fun k => pure (g k)) := by
  rw [Standard.knownPosition_congr hknown]
  exact failAlike_bind_same _ fun _ => failAlike_ok _ _

theorem failAlike_isShipped (m : Manifest) (n : Node) :
    FailAlike (isShipped m ctx n) (isShipped m ctx' n) :=
  failAlike_bind_same _ fun _ => failAlike_ok _ _

end Inclusion

/-! ### Clauses and logs -/

namespace Switch

/-- Clauses are chosen from if they cover the known versions, and are refused otherwise. -/
theorem failAlike_choose (hknown : ctx.known = ctx'.known) (read : List (Version × Node)) :
    FailAlike (choose ctx read) (choose ctx' read) := by
  by_cases hperm : (read.map Prod.fst).Perm ctx.known.toList
  · have hchosen : ∀ {c : Context}, c.known = ctx.known → ∃ e, choose c read = .ok e := by
      intro c hc
      have hmem : c.version ∈ read.map Prod.fst := hperm.mem_iff.2 (hc ▸ c.version_mem)
      obtain ⟨⟨v, form⟩, hform, hv⟩ := List.mem_map.1 hmem
      obtain rfl : v = c.version := hv
      exact ⟨.single form, choose_eq_ok_iff.2 ⟨hc ▸ hperm, form, hform, rfl⟩⟩
    obtain ⟨e, he⟩ := hchosen rfl
    obtain ⟨e', he'⟩ := hchosen hknown.symm
    rw [he, he']
    exact failAlike_ok _ _
  · rw [choose_of_not_perm hperm, choose_of_not_perm (hknown ▸ hperm), hknown]
    exact failAlike_error _

theorem failAlike_switch (hknown : ctx.known = ctx'.known) (args : List Node) :
    FailAlike (switch ctx args) (switch ctx' args) := by
  unfold switch
  split
  · exact failAlike_bind_same _ (failAlike_choose hknown)
  · exact failAlike_error _

end Switch

namespace ChangeLog

/-- The whole log is read, whichever of its entries is in force. -/
theorem failAlike_changed (hknown : ctx.known = ctx'.known) (args : List Node) :
    FailAlike (changed ctx args) (changed ctx' args) := by
  refine failAlike_bind_same _ fun ⟨base, log⟩ => ?_
  dsimp only
  split
  · exact failAlike_error _
  · rw [Standard.entries_congr hknown]
    refine failAlike_bind_same _ fun entries => ?_
    cases inForce ctx.position entries <;> cases inForce ctx'.position entries <;>
      exact failAlike_ok _ _

end ChangeLog

namespace FeatureCase

/-- The first flag refused is the same at all versions, also behind a clause that holds. -/
theorem failAlike_featureCase (m : Manifest) (ctx ctx' : Context) (args : List Node) :
    FailAlike (featureCase m ctx args).result (featureCase m ctx' args).result :=
  fun _ => featureCase_eq_error_iff.trans featureCase_eq_error_iff.symm

end FeatureCase

namespace Standard

/-- The bundled qualifiers over a manifest. -/
def qualifiers (m : Manifest) : List Qualifier :=
  [only, added, removed, switch, changed, feature m, featureCase m]

/-- At any two of the known versions a bundled qualifier accepts its arguments at both, or refuses
them at both with the same error. -/
theorem refused_everywhere {m : Manifest} {q : Qualifier} (hq : q ∈ qualifiers m)
    (hknown : ctx.known = ctx'.known) (args : List Node) :
    (∃ e e', (q ctx args).result = .ok e ∧ (q ctx' args).result = .ok e') ∨
      ∃ cause, (q ctx args).result = .error cause ∧ (q ctx' args).result = .error cause := by
  refine FailAlike.ok_or_error ?_
  simp only [qualifiers, List.mem_cons, List.not_mem_nil, or_false] at hq
  rcases hq with rfl | rfl | rfl | rfl | rfl | rfl | rfl
  · exact Inclusion.failAlike_includeWhen Inclusion.failAlike_isMember _ args
  · exact Inclusion.failAlike_includeWhen (fun n => Inclusion.failAlike_place hknown n _ _) _ args
  · exact Inclusion.failAlike_includeWhen (fun n => Inclusion.failAlike_place hknown n _ _) _ args
  · exact Switch.failAlike_switch hknown args
  · exact ChangeLog.failAlike_changed hknown args
  · exact Inclusion.failAlike_includeWhen (Inclusion.failAlike_isShipped m) _ args
  · exact FeatureCase.failAlike_featureCase m ctx ctx' args

/-- A typing error behind a clause that holds at the second version only, and clauses that have a
form for it and for no other version. -/
theorem refused_everywhere_lateTypo :
    (featureCase Sample.shipping Sample.atSecond Sample.lateTypo).result =
        .error (.unknownFeature "Z") ∧
      (featureCase Sample.shipping Sample.atThird Sample.lateTypo).result =
        .error (.unknownFeature "Z") ∧
      (switch Sample.atSecond [.mapping [(.str "v1", .nil)]]).result =
        .error (.mismatchedSwitch [⟨"v0"⟩, ⟨"v2"⟩] [] []) ∧
      (switch Sample.atThird [.mapping [(.str "v1", .nil)]]).result =
        .error (.mismatchedSwitch [⟨"v0"⟩, ⟨"v2"⟩] [] []) := by
  have hknown : Sample.atSecond.known = Sample.atThird.known := rfl
  have htypo : (featureCase Sample.shipping Sample.atSecond Sample.lateTypo).result =
      .error (.unknownFeature "Z") := rfl
  have hgap : (switch Sample.atSecond [.mapping [(.str "v1", .nil)]]).result =
      .error (.mismatchedSwitch [⟨"v0"⟩, ⟨"v2"⟩] [] []) := rfl
  have hfeatureCase : featureCase Sample.shipping ∈ qualifiers Sample.shipping := by
    simp [qualifiers]
  have hswitch : switch ∈ qualifiers Sample.shipping := by simp [qualifiers]
  rcases refused_everywhere hfeatureCase hknown Sample.lateTypo with
    ⟨e, e', h, -⟩ | ⟨cause, h, htypo'⟩
  · cases htypo.symm.trans h
  obtain rfl := Except.error.inj (htypo.symm.trans h)
  rcases refused_everywhere hswitch hknown [.mapping [(.str "v1", .nil)]] with
    ⟨e, e', h, -⟩ | ⟨cause, h, hgap'⟩
  · cases hgap.symm.trans h
  obtain rfl := Except.error.inj (hgap.symm.trans h)
  exact ⟨htypo, htypo', hgap, hgap'⟩

end Standard

end VersionedTree
