import VersionedTree.Proofs.Contexts
import VersionedTree.Proofs.Following
import VersionedTree.Proofs.Rules

/-!
# Reading related arguments

What the bundled qualifiers read of their arguments is which versions and flags these name, and what
they do with versions is to compare places. So they read the same from nodes of the same shape, and
from one node in two contexts where the known versions stand in the same order, also if there are
more of them in one context.

## What is proved

* `Inclusion.isMember_of_opened`, `Inclusion.isSince_of_embeds`, `Inclusion.isBefore_of_embeds` and
  `Inclusion.isShipped_of_text` — the conditions of forms.
* `ChangeLog.isInForce_iff_of_embeds` — the pair of a log that is in force.
* `FeatureCase.isChosen_iff` — the clause that is chosen.
* `Switch.switch_of_matched` — the value under the version at hand.
-/

namespace VersionedTree

/-! ### Known versions in the same order -/

namespace Context

/-- The same version is at hand in both contexts, and the versions that are known in the left one
are known in the right one and stand in the same order there. -/
structure Embeds (ctx ctx' : Context) : Prop where
  version : ctx.version = ctx'.version
  known : ∀ {v k}, ctx.position? v = some k → ∃ k', ctx'.position? v = some k'
  le_iff : ∀ {v w k l k' l'}, ctx.position? v = some k → ctx.position? w = some l →
    ctx'.position? v = some k' → ctx'.position? w = some l' → (k ≤ l ↔ k' ≤ l')

variable {ctx ctx' : Context}

theorem Embeds.refl (ctx : Context) : ctx.Embeds ctx where
  version := rfl
  known h := ⟨_, h⟩
  le_iff hk hl hk' hl' := by
    rw [hk, Option.some.injEq] at hk'
    rw [hl, Option.some.injEq] at hl'
    rw [hk', hl']

/-- A version has come in one context exactly when it has in the other. -/
theorem Embeds.le_position_iff (h : ctx.Embeds ctx') {v : Version} {k k' : Nat}
    (hk : ctx.position? v = some k) (hk' : ctx'.position? v = some k') :
    k ≤ ctx.position ↔ k' ≤ ctx'.position :=
  h.le_iff hk ctx.position?_version hk' (h.version ▸ ctx'.position?_version)

theorem placeOf?_eq_some_iff {n : Node} {k : Nat} :
    ctx.placeOf? n = some k ↔ ∃ v, Version.ofNode? n = some v ∧ ctx.position? v = some k :=
  Option.bind_eq_some_iff

/-- Nodes that name the same version name a place in both contexts. -/
theorem Embeds.exists_placeOf? (h : ctx.Embeds ctx') {m n : Node}
    (hname : Version.ofNode? m = Version.ofNode? n) {k : Nat} (hk : ctx.placeOf? m = some k) :
    ∃ k', ctx'.placeOf? n = some k' ∧ (k ≤ ctx.position ↔ k' ≤ ctx'.position) := by
  obtain ⟨v, hv, hk⟩ := placeOf?_eq_some_iff.1 hk
  obtain ⟨k', hk'⟩ := h.known hk
  exact ⟨k', placeOf?_eq_some_iff.2 ⟨v, hname ▸ hv, hk'⟩, h.le_position_iff hk hk'⟩

end Context

/-! ### Nodes of the same shape -/

namespace Node.Opened

variable {reorder : Prop} {R S : Node → Node → Prop} {m n : Node}

/-- Nodes of the same shape name the same version. -/
theorem ofNode?_eq (h : m.Opened reorder R S n) : Version.ofNode? m = Version.ofNode? n := by
  cases h <;> rfl

/-- Nodes of the same shape have the same text. -/
theorem text?_eq (h : m.Opened reorder R S n) : m.text? = n.text? := by
  cases h <;> rfl

/-- The items of sets and sequences are matched. -/
theorem exists_members (h : m.Opened reorder R S n) {xs : List Node}
    (hxs : m = .set xs ∨ m = .sequence xs) :
    ∃ ys, (n = .set ys ∨ n = .sequence ys) ∧ Matched reorder R xs ys := by
  rcases hxs with rfl | rfl
  · cases h with
    | set hxs => exact ⟨_, .inl rfl, hxs⟩
  · cases h with
    | sequence hxs => exact ⟨_, .inr rfl, .of_forall₂ reorder hxs⟩

end Node.Opened

/-! ### Conditions of forms -/

namespace Inclusion

variable {ctx ctx' : Context} {m n : Node} {b : Bool}

/-- The versions of a set may be listed in another order. -/
theorem isMember_of_opened {reorder : Prop} {R : Node → Node → Prop}
    (hnames : ∀ {m n}, R m n → Version.ofNode? m = Version.ofNode? n)
    (hversion : ctx.version = ctx'.version) (hmn : m.Opened reorder R (fun _ _ => True) n)
    (h : isMember ctx m = .ok b) : isMember ctx' n = .ok b := by
  obtain ⟨xs, hxs, hnamed, hb⟩ := isMember_eq_ok_iff.1 h
  obtain ⟨ys, hys, hmatched⟩ := hmn.exists_members hxs
  refine isMember_eq_ok_iff.2 ⟨ys, hys, fun y hy => ?_, hb.trans ?_⟩
  · obtain ⟨x, hx, hxy⟩ := hmatched.exists_left hy
    exact hnames hxy ▸ hnamed x hx
  · rw [hversion]
    constructor
    · rintro ⟨x, hx, hat⟩
      obtain ⟨y, hy, hxy⟩ := hmatched.exists_right hx
      exact ⟨y, hy, hnames hxy ▸ hat⟩
    · rintro ⟨y, hy, hat⟩
      obtain ⟨x, hx, hxy⟩ := hmatched.exists_left hy
      exact ⟨x, hx, (hnames hxy).trans hat⟩

theorem isSince_of_embeds (hembeds : ctx.Embeds ctx')
    (hname : Version.ofNode? m = Version.ofNode? n) (h : isSince ctx m = .ok b) :
    isSince ctx' n = .ok b := by
  obtain ⟨k, hk, rfl⟩ := isSince_eq_ok_iff.1 h
  obtain ⟨k', hk', hle⟩ := hembeds.exists_placeOf? hname hk
  exact isSince_eq_ok_iff.2 ⟨k', hk', decide_eq_decide.2 hle⟩

theorem isBefore_of_embeds (hembeds : ctx.Embeds ctx')
    (hname : Version.ofNode? m = Version.ofNode? n) (h : isBefore ctx m = .ok b) :
    isBefore ctx' n = .ok b := by
  obtain ⟨k, hk, rfl⟩ := isBefore_eq_ok_iff.1 h
  obtain ⟨k', hk', hle⟩ := hembeds.exists_placeOf? hname hk
  refine isBefore_eq_ok_iff.2 ⟨k', hk', decide_eq_decide.2 ?_⟩
  rw [← Nat.not_le, ← Nat.not_le, hle]

theorem isShipped_of_text {manifest : Manifest} (hversion : ctx.version = ctx'.version)
    (htext : m.text? = n.text?) (h : isShipped manifest ctx m = .ok b) :
    isShipped manifest ctx' n = .ok b := by
  rw [isShipped_eq_ok_iff, Manifest.Knows, Manifest.Enables] at h ⊢
  rwa [← htext, ← hversion]

end Inclusion

/-! ### The pair in force -/

namespace ChangeLog

/-- Two assignments of places are defined together, and the places stand in the same order, also
with respect to the current one. -/
structure SameOrder (current : Nat) (place : Nat → Option Nat) (current' : Nat)
    (place' : Nat → Option Nat) : Prop where
  right : ∀ {i k}, place i = some k → ∃ k', place' i = some k'
  left : ∀ {i k'}, place' i = some k' → ∃ k, place i = some k
  current : ∀ {i k k'}, place i = some k → place' i = some k' → (k ≤ current ↔ k' ≤ current')
  le_iff : ∀ {i j k l k' l'}, place i = some k → place j = some l → place' i = some k' →
    place' j = some l' → (k ≤ l ↔ k' ≤ l')

section SameOrder

variable {current current' : Nat} {place place' : Nat → Option Nat}

theorem SameOrder.symm (h : SameOrder current place current' place') :
    SameOrder current' place' current place where
  right := h.left
  left := h.right
  current hk' hk := (h.current hk hk').symm
  le_iff hk' hl' hk hl := (h.le_iff hk hl hk' hl').symm

/-- The latest place stays the latest in the same order. -/
theorem Latest.of_sameOrder (h : SameOrder current place current' place') {i : Nat}
    (hi : Latest current place i) : Latest current' place' i := by
  obtain ⟨k, hk, hle, hlatest⟩ := hi
  obtain ⟨k', hk'⟩ := h.right hk
  refine ⟨k', hk', (h.current hk hk').1 hle, fun j l' hl' hle' => ?_⟩
  obtain ⟨l, hl⟩ := h.left hl'
  obtain ⟨hlk, hlt⟩ := hlatest j l hl ((h.current hl hl').2 hle')
  refine ⟨(h.le_iff hl hk hl' hk').1 hlk, fun hij => ?_⟩
  rw [← Nat.not_le, ← h.le_iff hk hl hk' hl']
  exact Nat.not_le.2 (hlt hij)

end SameOrder

section Embeds

variable {ctx ctx' : Context} (hembeds : ctx.Embeds ctx') {pairs pairs' : List (Node × Node)}
  (hnames : List.Forall₂ (fun p q => Version.ofNode? p.1 = Version.ofNode? q.1) pairs pairs')

include hembeds hnames

/-- The version that a pair names has a place in both contexts. -/
theorem exists_placeAt? {i k : Nat} (hk : placeAt? ctx pairs i = some k) :
    ∃ v k', ctx.position? v = some k ∧ ctx'.position? v = some k' ∧
      placeAt? ctx' pairs' i = some k' := by
  obtain ⟨p, hp, hk⟩ := Option.bind_eq_some_iff.1 hk
  obtain ⟨q, hq, hname⟩ := exists_getElem?_right hnames hp
  obtain ⟨v, hv, hk⟩ := Context.placeOf?_eq_some_iff.1 hk
  obtain ⟨k', hk'⟩ := hembeds.known hk
  exact ⟨v, k', hk, hk', Option.bind_eq_some_iff.2
    ⟨q, hq, Context.placeOf?_eq_some_iff.2 ⟨v, hname ▸ hv, hk'⟩⟩⟩

/-- The places of a log are in the same order where known versions are. -/
theorem sameOrder_of_embeds (hknown : ∀ p ∈ pairs, ∃ k, ctx.placeOf? p.1 = some k) :
    SameOrder ctx.position (placeAt? ctx pairs) ctx'.position (placeAt? ctx' pairs') := by
  have hboth : ∀ {i k k'}, placeAt? ctx pairs i = some k → placeAt? ctx' pairs' i = some k' →
      ∃ v, ctx.position? v = some k ∧ ctx'.position? v = some k' := by
    intro i k k' hk hk'
    obtain ⟨v, l', hv, hv', hl'⟩ := exists_placeAt? hembeds hnames hk
    rw [hl', Option.some.injEq] at hk'
    exact ⟨v, hv, hk' ▸ hv'⟩
  refine ⟨fun hk => ?_, fun hk' => ?_, fun hk hk' => ?_, fun hk hl hk' hl' => ?_⟩
  · obtain ⟨-, k', -, -, hk'⟩ := exists_placeAt? hembeds hnames hk
    exact ⟨k', hk'⟩
  · obtain ⟨q, hq, -⟩ := Option.bind_eq_some_iff.1 hk'
    obtain ⟨p, hp, -⟩ := exists_getElem?_left hnames hq
    obtain ⟨k, hk⟩ := hknown p (List.mem_of_getElem? hp)
    exact ⟨k, Option.bind_eq_some_iff.2 ⟨p, hp, hk⟩⟩
  · obtain ⟨v, hv, hv'⟩ := hboth hk hk'
    exact hembeds.le_position_iff hv hv'
  · obtain ⟨v, hv, hv'⟩ := hboth hk hk'
    obtain ⟨w, hw, hw'⟩ := hboth hl hl'
    exact hembeds.le_iff hv hw hv' hw'

/-- The same pair of a log is in force where known versions stand in the same order. -/
theorem isInForce_iff_of_embeds (hknown : ∀ p ∈ pairs, ∃ k, ctx.placeOf? p.1 = some k) (i : Nat) :
    IsInForce ctx pairs i ↔ IsInForce ctx' pairs' i :=
  ⟨Latest.of_sameOrder (sameOrder_of_embeds hembeds hnames hknown),
    Latest.of_sameOrder (sameOrder_of_embeds hembeds hnames hknown).symm⟩

end Embeds

end ChangeLog

/-! ### The clause that is chosen -/

namespace FeatureCase

variable {manifest : Manifest} {ctx ctx' : Context} {reorder : Prop} {R : Node → Node → Prop}

/-- The flags of related conditions are matched. -/
theorem matched_flags {c d : Node} (hcd : R c d) (h : c.Opened reorder R (fun _ _ => True) d) :
    Matched reorder R (flags c) (flags d) := by
  cases h with
  | set hxs => exact hxs
  | sequence hxs => exact .of_forall₂ reorder hxs
  | _ => exact .of_forall₂ reorder (.cons hcd .nil)

variable {fs gs : List Node} (htext : ∀ {m n}, R m n → m.text? = n.text?)
  (h : Matched reorder R fs gs)

include htext h

/-- Flags that are matched are all known, or not. -/
theorem knows_of_matched (hknown : ∀ flag ∈ fs, manifest.Knows flag) :
    ∀ flag ∈ gs, manifest.Knows flag := by
  intro g hg
  obtain ⟨f, hf, hfg⟩ := h.exists_left hg
  unfold Manifest.Knows
  rw [← htext hfg]
  exact hknown f hf

/-- Flags that are matched are shipped by the version at hand, or not. -/
theorem enables_iff_of_matched (hversion : ctx.version = ctx'.version) :
    (∃ flag ∈ fs, manifest.Enables ctx flag) ↔ ∃ flag ∈ gs, manifest.Enables ctx' flag := by
  unfold Manifest.Enables
  rw [hversion]
  constructor
  · rintro ⟨f, hf, henabled⟩
    obtain ⟨g, hg, hfg⟩ := h.exists_right hf
    exact ⟨g, hg, htext hfg ▸ henabled⟩
  · rintro ⟨g, hg, henabled⟩
    obtain ⟨f, hf, hfg⟩ := h.exists_left hg
    exact ⟨f, hf, (htext hfg).symm ▸ henabled⟩

omit htext h

/-- The same clause is chosen if the same conditions hold. -/
theorem isChosen_iff {clauses clauses' : List (Node × Node)}
    (h : List.Forall₂ (fun c d => Holds manifest ctx c.1 ↔ Holds manifest ctx' d.1) clauses
      clauses') (i : Nat) :
    IsChosen manifest ctx clauses i ↔ IsChosen manifest ctx' clauses' i := by
  constructor
  · rintro ⟨⟨c, hc, hholds⟩, hfirst⟩
    obtain ⟨d, hd, hcd⟩ := exists_getElem?_right h hc
    refine ⟨⟨d, hd, hcd.1 hholds⟩, fun j hj d' hd' hholds' => ?_⟩
    obtain ⟨c', hc', hcd'⟩ := exists_getElem?_left h hd'
    exact hfirst j hj c' hc' (hcd'.2 hholds')
  · rintro ⟨⟨d, hd, hholds⟩, hfirst⟩
    obtain ⟨c, hc, hcd⟩ := exists_getElem?_left h hd
    refine ⟨⟨c, hc, hcd.2 hholds⟩, fun j hj c' hc' hholds' => ?_⟩
    obtain ⟨d', hd', hcd'⟩ := exists_getElem?_right h hc'
    exact hfirst j hj d' hd' (hcd'.1 hholds')

end FeatureCase

/-! ### The value under a version -/

namespace Switch

/-- Two clauses name the same version, and their forms are related if it is the one at hand. -/
def ClauseRelated (ctx : Context) (R : Node → Node → Prop) (p q : Node × Node) : Prop :=
  Version.ofNode? p.1 = Version.ofNode? q.1 ∧
    (Version.ofNode? p.1 = some ctx.version → R p.2 q.2)

/-- Clauses that are matched name the same versions, perhaps in another order. -/
theorem exists_named_of_matched {reorder : Prop} {ps qs : List (Node × Node)}
    {named : List Version}
    (h : Matched reorder (fun p q => Version.ofNode? p.1 = Version.ofNode? q.1) ps qs)
    (hnamed : List.Forall₂ (fun p v => Version.ofNode? p.1 = some v) ps named) :
    ∃ named', List.Forall₂ (fun q v => Version.ofNode? q.1 = some v) qs named' ∧
      named'.Perm named := by
  obtain ⟨zs, hzs, hqs⟩ := h
  have hzsnamed : List.Forall₂ (fun q v => Version.ofNode? q.1 = some v) zs named := by
    clear hqs
    induction hzs generalizing named with
    | nil => exact hnamed
    | cons hpz _ ih =>
      cases hnamed with
      | cons hv hrest => exact .cons (hpz ▸ hv) (ih hrest)
  rcases hqs with rfl | ⟨-, hqs⟩
  · exact ⟨named, hzsnamed, .refl _⟩
  · obtain ⟨named', hnamed', hperm⟩ := List.perm_comp_forall₂ hqs.symm hzsnamed
    exact ⟨named', hnamed', hperm⟩

/-- Only the form under the version at hand counts. The clauses may be listed in another order, and
so may the known versions. -/
theorem switch_of_matched {ctx ctx' : Context} (hversion : ctx.version = ctx'.version)
    (hknown : ctx.known.toList.Perm ctx'.known.toList) {reorder : Prop} {R : Node → Node → Prop}
    {ps qs : List (Node × Node)} (hps : Matched reorder (ClauseRelated ctx R) ps qs)
    {e : Expansion} (h : switch ctx [.mapping ps] = .ok e) :
    ∃ m n, e = .single m ∧ switch ctx' [.mapping qs] = .ok (.single n) ∧ R m n := by
  obtain ⟨_, named, hargs, hnamed, hperm, p, hp, hat, rfl⟩ := switch_eq_ok_iff.1 h
  cases hargs
  obtain ⟨q, hq, hname, hform⟩ := hps.exists_right hp
  obtain ⟨named', hnamed', hperm'⟩ :=
    exists_named_of_matched (hps.imp fun hpq => hpq.1) hnamed
  have hperm'' := (hperm'.trans hperm).trans hknown
  refine ⟨p.2, q.2, rfl, ?_, hform hat⟩
  refine switch_eq_ok_iff.2 ⟨qs, named', rfl, hnamed', hperm'', q, hq, ?_, rfl⟩
  rw [← hname, hat, hversion]

end Switch

end VersionedTree
