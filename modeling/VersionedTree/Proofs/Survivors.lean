import VersionedTree.Proofs.Following

/-!
# Invocations that a walk leaves

A walk copies the invocations that it meets, for the resolution of their slots has left them. A
resolution compares whole lists of forms: they are stable when the next list is equal, form by form.
That need not make each of them a form that gives itself back. One may vanish, while another one
gives it back beside itself.

This is the only way in which it can happen. Where a list comes back as a whole, and each of its
members that gives itself back gives nothing else, every member gives itself back. In particular the
root and the two sides of a pair, which are single forms, always do.

## What is proved

* `gives_itself_of_forall₂` — lists that come back from their members.
* `Resolver.Stable.settled_iff` — when all invocations among stable forms give themselves back.
* `Resolver.walkWithin_survivors` — what is known of the invocations in the tree of a walk.
* `Resolver.walk_survivors_not_reproduced` — an invocation in such a tree that vanishes by itself.
-/

namespace VersionedTree

/-! ### Lists that come back from their members -/

section Lists

variable {α : Type} {R : α → α → Prop}

/-- The first part of a list ends before the counterpart of an item is reached, or it holds the
counterpart. -/
theorem forall₂_rest_or_exists {first rest waiting l : List α} {a : α}
    (h : List.Forall₂ R (first ++ rest) (waiting ++ a :: l)) :
    (∃ left, List.Forall₂ R rest (left ++ a :: l)) ∨ ∃ b ∈ first, R b a := by
  induction waiting generalizing first with
  | nil =>
    cases first with
    | nil => exact .inl ⟨[], h⟩
    | cons b first => exact .inr ⟨b, List.mem_cons_self .., (List.forall₂_cons.1 h).1⟩
  | cons w waiting ih =>
    cases first with
    | nil => exact .inl ⟨w :: waiting, h⟩
    | cons b first =>
      rcases ih (List.forall₂_cons.1 h).2 with hrest | ⟨b', hb', hab⟩
      · exact .inl hrest
      · exact .inr ⟨b', List.mem_cons_of_mem _ hb', hab⟩

/-- If a list comes back as a whole from what its items give, and an item that gives itself back
gives nothing else, then every item gives itself back, and no others have been `waiting` to come
back from it. -/
theorem gives_itself_of_forall₂ {e : α → List α} {l : List α} (waiting : List α)
    (h : List.Forall₂ R (l.flatMap e) (waiting ++ l))
    (hsingle : ∀ a ∈ l, ∀ b ∈ e a, R b a → (e a).length = 1) :
    waiting = [] ∧ ∀ a ∈ l, ∃ b, e a = [b] ∧ R b a := by
  induction l generalizing waiting with
  | nil =>
    rw [List.flatMap_nil, List.append_nil, List.forall₂_nil_left_iff] at h
    exact ⟨h, by simp⟩
  | cons a l ih =>
    have ih := fun waiting h => ih waiting h fun b hb => hsingle b (List.mem_cons_of_mem _ hb)
    -- an item in front of which some are waiting has to wait itself, so they wait to the end
    have hnot : ∀ left, ¬List.Forall₂ R (l.flatMap e) (left ++ a :: l) := by
      intro left hleft
      rw [List.append_cons] at hleft
      simpa using (ih _ hleft).1
    rw [List.flatMap_cons] at h
    rcases forall₂_rest_or_exists h with ⟨left, hleft⟩ | ⟨b, hb, hab⟩
    · exact absurd hleft (hnot left)
    · obtain ⟨b', hb'⟩ := List.length_eq_one_iff.1 (hsingle a (List.mem_cons_self ..) b hb hab)
      rw [hb', List.singleton_append] at h
      cases waiting with
      | cons w waiting => exact absurd (List.forall₂_cons.1 h).2 (hnot waiting)
      | nil =>
        obtain ⟨hhead, htail⟩ := List.forall₂_cons.1 h
        refine ⟨rfl, fun c hc => ?_⟩
        rcases List.mem_cons.1 hc with rfl | hc
        · exact ⟨b', hb', hhead⟩
        · exact (ih [] htail).2 c hc

end Lists

/-- A node stands in a tree, and not inside of the arguments of an invocation. -/
inductive Node.Holds : Node → Node → Prop where
  /-- The tree itself. -/
  | self (n : Node) : Holds n n
  /-- What stands in a part of a collection. -/
  | part {n p m : Node} : n.isInvocation = false → p ∈ n.parts → Holds p m → Holds n m

theorem Expansion.eq_of_asForms_eq_singleton {e : Expansion} {m : Node}
    (h : e.asForms = [.node m]) : e = .forms [m] := by
  cases e with
  | forms nodes =>
    have hnodes := congrArg (List.filterMap Form.node?) h
    rw [asForms, Form.filterMap_node?_map_node] at hnodes
    rw [hnodes]
    rfl
  | delete => simp [asForms] at h

namespace Resolver

variable {r : Resolver} {ctx : Context} {forms next : List Form}

/-! ### Forms that give themselves back -/

/-- The node expands into exactly one form, and this is equal to it. -/
def Reproduces (r : Resolver) (ctx : Context) (n : Node) : Prop :=
  ∃ m, r.registry.expand ctx n = .ok (.forms [m]) ∧ (m == n) = true

/-- The node expands into several forms, of which one is equal to it. -/
def GivesBackBeside (r : Resolver) (ctx : Context) (n : Node) : Prop :=
  ∃ nodes m, r.registry.expand ctx n = .ok (.forms nodes) ∧ m ∈ nodes ∧ (m == n) = true ∧
    1 < nodes.length

/-- The node is no invocation, or gives itself back. -/
def Settled (r : Resolver) (ctx : Context) (n : Node) : Prop :=
  n.isInvocation = true → r.Reproduces ctx n

/-- What a form expands into, and nothing where it does not expand. -/
def expansionOf (r : Resolver) (ctx : Context) (f : Form) : List Form :=
  (r.expandForm ctx f).result.toOption.getD []

theorem expansionOf_eq {f : Form} {fs : List Form} (h : (r.expandForm ctx f).result = .ok fs) :
    r.expansionOf ctx f = fs := by
  rw [expansionOf, h]
  rfl

/-- A pass leaves what the forms expand into, one after the other. -/
theorem eq_flatMap_of_pass (h : (r.pass ctx forms).result = .ok next) :
    next = forms.flatMap (r.expansionOf ctx) := by
  obtain ⟨expanded, hforms, rfl⟩ := pass_eq_ok_iff.1 h
  have hexpanded := congrArg (List.map fun x => x.toOption.getD []) hforms
  rw [List.map_map, List.map_map] at hexpanded
  have hself : expanded.map ((fun x : Except ResolveError (List Form) => x.toOption.getD []) ∘
      .ok) = expanded := List.map_id _
  rw [hself] at hexpanded
  rw [List.flatMap_def, ← hexpanded]
  rfl

/-- Stable forms come back from what they expand into. -/
theorem Stable.forall₂ (h : r.Stable ctx forms) :
    List.Forall₂ (Form.Related fun m n => (m == n) = true) (forms.flatMap (r.expansionOf ctx))
      forms := by
  obtain ⟨next, hpass, hstable⟩ := h
  rw [← eq_flatMap_of_pass hpass]
  exact Form.related_of_beq hstable

theorem Stable.exists_expand (h : r.Stable ctx forms) {n : Node} (hn : .node n ∈ forms) :
    ∃ e, r.registry.expand ctx n = .ok e ∧ r.expansionOf ctx (.node n) = e.asForms := by
  obtain ⟨next, hpass, -⟩ := h
  obtain ⟨fs, hfs, -⟩ := exists_expansion_of_pass hpass hn
  rw [result_expandForm_node] at hfs
  obtain ⟨e, he, rfl⟩ := Outcome.map_eq_ok_iff.1 hfs
  refine ⟨e, he, expansionOf_eq ?_⟩
  rw [result_expandForm_node, he]
  rfl

/-- Stable forms that give nothing beside themselves give themselves back. -/
theorem Stable.settled (h : r.Stable ctx forms)
    (hsingle : ∀ f ∈ forms, ∀ g ∈ r.expansionOf ctx f,
      Form.Related (fun m n => (m == n) = true) g f → (r.expansionOf ctx f).length = 1)
    {n : Node} (hn : .node n ∈ forms) : r.Settled ctx n := by
  intro _
  obtain ⟨e, he, heq⟩ := h.exists_expand hn
  obtain ⟨g, hg, hgn⟩ := (gives_itself_of_forall₂ [] h.forall₂ hsingle).2 _ hn
  rw [heq] at hg
  cases hgn with
  | @node m _ hmn =>
    obtain rfl := Expansion.eq_of_asForms_eq_singleton hg
    exact ⟨m, he, hmn⟩

/-- The invocations among stable forms all give themselves back unless one of the forms does so and
gives others beside itself. -/
theorem Stable.settled_iff (h : r.Stable ctx forms) :
    (∀ n, .node n ∈ forms → r.Settled ctx n) ↔
      ∀ n, .node n ∈ forms → ¬r.GivesBackBeside ctx n := by
  constructor
  · rintro hsettled n hn ⟨nodes, m, hnodes, -, -, hlen⟩
    have hone : ∃ m', r.registry.expand ctx n = .ok (.forms [m']) := by
      cases hi : n.isInvocation with
      | false => exact ⟨n, Registry.expand_of_not_isInvocation hi⟩
      | true =>
        obtain ⟨m', hm', -⟩ := hsettled n hn hi
        exact ⟨m', hm'⟩
    obtain ⟨m', hm'⟩ := hone
    rw [hnodes, Except.ok.injEq, Expansion.forms.injEq] at hm'
    simp [hm'] at hlen
  · intro hbeside n hn
    refine h.settled (fun f hf g hg hgf => ?_) hn
    cases hgf with
    | deletion => rfl
    | @node m n hmn =>
      obtain ⟨e, he, heq⟩ := h.exists_expand hf
      rw [heq] at hg ⊢
      obtain ⟨nodes, rfl, hm⟩ := Expansion.node_mem_asForms.1 hg
      have hlen : ¬1 < nodes.length := fun hlen => hbeside n hf ⟨nodes, m, he, hm, hmn, hlen⟩
      have hpos := List.length_pos_of_mem hm
      rw [Expansion.asForms, List.length_map]
      omega

/-- A single stable form gives itself back. -/
theorem Stable.settled_of_singleton {n : Node} (h : r.Stable ctx [.node n]) : r.Settled ctx n := by
  refine h.settled (fun f hf _ _ _ => ?_) (List.mem_singleton_self _)
  rw [List.mem_singleton] at hf
  have hlen := h.forall₂.length_eq
  rw [List.flatMap_singleton] at hlen
  rw [hf, hlen]
  rfl

/-! ### Where the invocations in a tree come from -/

/-- The node is one of the stable forms of some slot. -/
def StandsIn (r : Resolver) (ctx : Context) (n : Node) : Prop :=
  ∃ slot forms, (r.resolve ctx slot).result = .ok forms ∧ .node n ∈ forms ∧ r.Stable ctx forms

theorem standsIn_of_resolve {slot n : Node} (h : (r.resolve ctx slot).result = .ok forms)
    (hn : .node n ∈ forms) (hi : n.isInvocation = true) : r.StandsIn ctx n := by
  rcases resolve_eq_ok h with ⟨-, hstable⟩ | ⟨hslot, rfl⟩
  · exact ⟨slot, forms, h, hn, hstable⟩
  · rw [List.mem_singleton, Form.node.injEq] at hn
    rw [hn, hslot] at hi
    cases hi

/-- A slot that becomes a single node becomes a settled one. -/
theorem settled_of_resolve {slot n : Node} (h : (r.resolve ctx slot).result = .ok [.node n]) :
    r.Settled ctx n := by
  intro hi
  rcases resolve_eq_ok h with ⟨-, hstable⟩ | ⟨hslot, heq⟩
  · exact hstable.settled_of_singleton hi
  · rw [List.cons.injEq, Form.node.injEq] at heq
    rw [heq.1, hslot] at hi
    cases hi

/-- What is known of the invocations in a finished tree. -/
structure Survives (r : Resolver) (ctx : Context) (t : Node) : Prop where
  /-- Each of them is one of the stable forms of some slot. -/
  held : ∀ i, t.Holds i → i.isInvocation = true → r.StandsIn ctx i
  /-- The sides of pairs are settled. -/
  sides : ∀ pairs, t.Holds (.mapping pairs) → ∀ p ∈ pairs, r.Settled ctx p.1 ∧ r.Settled ctx p.2

theorem survives_invocation {tag : Tag} {args : List Node}
    (h : r.StandsIn ctx (.invocation tag args)) : r.Survives ctx (.invocation tag args) where
  held i hi _ := by
    cases hi with
    | self => exact h
    | part hn => cases hn
  sides pairs hpairs := by
    cases hpairs with
    | part hn => cases hn

theorem survives_of_parts {n : Node} (hn : n.isInvocation = false)
    (hparts : ∀ p ∈ n.parts, r.Survives ctx p)
    (hsides : ∀ pairs, n = .mapping pairs → ∀ p ∈ pairs, r.Settled ctx p.1 ∧ r.Settled ctx p.2) :
    r.Survives ctx n where
  held i hi hinvocation := by
    cases hi with
    | self =>
      rw [hn] at hinvocation
      cases hinvocation
    | part _ hp hi => exact (hparts _ hp).held i hi hinvocation
  sides pairs hpairs := by
    cases hpairs with
    | self => exact hsides pairs rfl
    | part _ hp hpairs => exact (hparts _ hp).sides pairs hpairs

/-- A key or a value of a finished mapping. -/
def FinishedSide (r : Resolver) (ctx : Context) (n : Node) : Prop :=
  r.Survives ctx n ∧ r.Settled ctx n

theorem survives_mapping {pairs : List (Node × Node)}
    (h : ∀ p ∈ pairs, r.FinishedSide ctx p.1 ∧ r.FinishedSide ctx p.2) :
    r.Survives ctx (.mapping pairs) := by
  refine survives_of_parts rfl (fun n hn => ?_) fun pairs' heq p hp => ?_
  · obtain ⟨p, hp, rfl | rfl⟩ := Node.mem_parts_mapping.1 hn
    · exact (h p hp).1.1
    · exact (h p hp).2.1
  · cases heq
    exact ⟨(h p hp).1.2, (h p hp).2.2⟩

/-- Only an invocation becomes one inside of a walk, and stays as it is. -/
theorem resolveInside_meets_self (bound : Nat) (n : Node) :
    (r.resolveInside ctx bound n).Meets (fun t => t.isInvocation = true → t = n)
      fun _ => True := by
  have hany : ∀ {α : Type} (x : Traced WalkError α), x.Meets (fun _ => True) fun _ => True :=
    fun x => Traced.meets_of_ok fun _ _ => trivial
  cases n with
  | scalar value | invocation tag args => cases bound <;> exact Traced.meets_pure fun _ => rfl
  | sequence items | set items =>
    cases bound with
    | zero => exact Traced.meets_throw trivial
    | succ bound =>
      refine Traced.meets_bind (hany _) fun _ _ _ => ?_
      exact Traced.meets_bind (hany _) fun _ _ _ => Traced.meets_pure nofun
  | mapping pairs =>
    cases bound with
    | zero => exact Traced.meets_throw trivial
    | succ bound => exact Traced.meets_bind (hany _) fun _ _ _ => Traced.meets_pure nofun

theorem settled_of_resolveInside {bound : Nat} {n t : Node} (hn : r.Settled ctx n)
    (ht : (r.resolveInside ctx bound n).result = .ok t) : r.Settled ctx t := by
  intro hi
  obtain rfl := (resolveInside_meets_self bound n).1 t ht hi
  exact hn hi

theorem splice_meets_standsIn (items : List Node) :
    (r.splice ctx items).Meets (fun nodes => ∀ n ∈ nodes, n.isInvocation = true →
      r.StandsIn ctx n) fun _ => True := by
  refine Traced.meets_of_ok fun nodes hnodes n hn hi => ?_
  obtain ⟨slot, -, forms, hforms, hn⟩ := exists_of_mem_splice hnodes hn
  exact standsIn_of_resolve hforms hn hi

/-- What a side of a pair becomes is settled, and stands among the forms of the side. -/
theorem resolveSide_meets_settled (slot : Slot) (n : Node) :
    (r.resolveSide ctx slot n).Meets (fun side => ∀ m, side = some m →
      (m.isInvocation = true → r.StandsIn ctx m) ∧ r.Settled ctx m) fun _ => True := by
  refine Traced.meets_of_ok fun side hside m hm => ?_
  subst hm
  have hforms := resolve_of_resolveSide hside
  exact ⟨standsIn_of_resolve hforms (List.mem_singleton_self _), settled_of_resolve hforms⟩

/-- A pair resolves to finished sides, after pairs with finished sides. -/
theorem resolvePair_meets_finishedSide {bound : Nat}
    (hdescend : ∀ n, (n.isInvocation = true → r.StandsIn ctx n) →
      (r.resolveInside ctx bound n).Meets (r.Survives ctx) fun _ => True)
    {built : List (Node × Node)}
    (hbuilt : ∀ p ∈ built, r.FinishedSide ctx p.1 ∧ r.FinishedSide ctx p.2) (p : Node × Node) :
    (r.resolvePair ctx (r.resolveInside ctx bound) built p).Meets
      (fun built => ∀ p ∈ built, r.FinishedSide ctx p.1 ∧ r.FinishedSide ctx p.2)
      fun _ => True := by
  refine Traced.meets_bind (resolveSide_meets_settled .key p.1) fun key _ hkey => ?_
  refine Traced.meets_bind (resolveSide_meets_settled .value p.2) fun value _ hvalue => ?_
  cases key with
  | none => exact Traced.meets_pure hbuilt
  | some k =>
    cases value with
    | none => exact Traced.meets_pure hbuilt
    | some v =>
      obtain ⟨hk, hsettled⟩ := hkey k rfl
      obtain ⟨hv, hsettled'⟩ := hvalue v rfl
      refine Traced.meets_bind (hdescend k hk) fun k' hk' hsurvives => ?_
      refine Traced.meets_bind (hdescend v hv) fun v' hv' hsurvives' => ?_
      have hinsert : ∀ p ∈ Keyed.insert k' v' built,
          r.FinishedSide ctx p.1 ∧ r.FinishedSide ctx p.2 :=
        Keyed.forall_insert hbuilt ⟨hsurvives, settled_of_resolveInside hsettled hk'⟩
          ⟨hsurvives', settled_of_resolveInside hsettled' hv'⟩
      split
      · exact Traced.meets_bind (Traced.meets_record _) fun _ _ _ => Traced.meets_pure hinsert
      · exact Traced.meets_pure hinsert

theorem resolveInside_survives {bound : Nat} {n : Node}
    (hn : n.isInvocation = true → r.StandsIn ctx n) :
    (r.resolveInside ctx bound n).Meets (r.Survives ctx) fun _ => True := by
  have hscalar : ∀ value, r.Survives ctx (.scalar value) := fun value =>
    survives_of_parts rfl (fun _ hp => nomatch hp) fun _ h => nomatch h
  induction bound generalizing n with
  | zero =>
    cases n with
    | scalar value => exact Traced.meets_pure (hscalar value)
    | invocation tag args => exact Traced.meets_pure (survives_invocation (hn rfl))
    | _ => exact Traced.meets_throw trivial
  | succ bound ih =>
    cases n with
    | scalar value => exact Traced.meets_pure (hscalar value)
    | invocation tag args => exact Traced.meets_pure (survives_invocation (hn rfl))
    | sequence items =>
      refine Traced.meets_bind (splice_meets_standsIn items) fun nodes _ hnodes => ?_
      refine Traced.meets_bind (Traced.meets_mapM fun m hm => ih (hnodes m hm)) ?_
      exact fun finished _ hfinished =>
        Traced.meets_pure (survives_of_parts rfl hfinished fun _ h => nomatch h)
    | set members =>
      refine Traced.meets_bind (splice_meets_standsIn members) fun nodes _ hnodes => ?_
      refine Traced.meets_bind (Traced.meets_mapM fun m hm => ih (hnodes m hm)) ?_
      refine fun finished _ hfinished => Traced.meets_pure (survives_of_parts rfl ?_ ?_)
      · exact fun m hm => hfinished m (Distinct.mem_of_mem_ofList hm)
      · exact fun _ h => nomatch h
    | mapping pairs =>
      have hfold : (pairs.foldlM (r.resolvePair ctx (r.resolveInside ctx bound)) []).Meets
          (fun built => ∀ p ∈ built, r.FinishedSide ctx p.1 ∧ r.FinishedSide ctx p.2)
          fun _ => True := by
        refine Traced.meets_foldlM (by simp) fun built hbuilt p _ => ?_
        exact resolvePair_meets_finishedSide (fun n hn => ih hn) hbuilt p
      exact Traced.meets_bind hfold fun finished _ hfinished =>
        Traced.meets_pure (survives_mapping hfinished)

/-- The tree of a walk is settled itself, and so are the sides of its pairs. -/
theorem walkWithin_survives (bound : Nat) (tree : Node) :
    (r.walkWithin bound ctx tree).Meets (r.FinishedSide ctx) fun _ => True := by
  refine Traced.meets_of_ok fun t ht => ?_
  rw [walkWithin, Traced.result_bind] at ht
  obtain ⟨_, -, ht⟩ := Outcome.bind_eq_ok_iff.1 ht
  split at ht
  · rw [Traced.result_bind] at ht
    obtain ⟨n, hn, ht⟩ := Outcome.bind_eq_ok_iff.1 ht
    have hforms := resolve_of_resolveRoot hn
    have hstands : n.isInvocation = true → r.StandsIn ctx n :=
      standsIn_of_resolve hforms (List.mem_singleton_self _)
    exact ⟨(resolveInside_survives hstands).1 t ht,
      settled_of_resolveInside (settled_of_resolve hforms) ht⟩
  · rename_i hi
    exact ⟨(resolveInside_survives fun h => absurd h hi).1 t ht,
      settled_of_resolveInside (fun h => absurd h hi) ht⟩

/-- What is known of the invocations that a walk leaves, by any qualifiers, outside of the arguments
of other invocations. A root and the sides of pairs give themselves back. Every other one stands
among forms that come back as a whole, and these all give themselves back unless one of them does so
beside others. So all give themselves back where no qualifier gives an invocation back beside other
forms. -/
theorem walkWithin_survivors {bound : Nat} {tree t : Node}
    (h : (r.walkWithin bound ctx tree).result = .ok t) :
    r.Settled ctx t ∧
      (∀ pairs, t.Holds (.mapping pairs) → ∀ p ∈ pairs,
        r.Settled ctx p.1 ∧ r.Settled ctx p.2) ∧
      (∀ i, t.Holds i → i.isInvocation = true →
        ∃ slot forms, (r.resolve ctx slot).result = .ok forms ∧ .node i ∈ forms ∧
          r.Stable ctx forms ∧ ((∀ n, .node n ∈ forms → r.Settled ctx n) ↔
            ∀ n, .node n ∈ forms → ¬r.GivesBackBeside ctx n)) ∧
      ((∀ n, ¬r.GivesBackBeside ctx n) → ∀ i, t.Holds i → r.Settled ctx i) := by
  obtain ⟨⟨hheld, hsides⟩, hsettled⟩ := (walkWithin_survives bound tree).1 t h
  refine ⟨hsettled, hsides, fun i hi hinvocation => ?_, fun hbeside i hi hinvocation => ?_⟩
  · obtain ⟨slot, forms, hforms, hmem, hstable⟩ := hheld i hi hinvocation
    exact ⟨slot, forms, hforms, hmem, hstable, hstable.settled_iff⟩
  · obtain ⟨slot, forms, hforms, hmem, hstable⟩ := hheld i hi hinvocation
    exact hstable.settled_iff.2 (fun n _ => hbeside n) i hmem hinvocation

end Resolver

/-! ### Invocations that do not give themselves back -/

namespace Sample

/-- The same invocation again, behind a `splice` without arguments, which stands for no form. -/
def renew (tag : Tag) (_ : Context) (args : List Node) : Except QualifierError Expansion :=
  .ok (.forms [.invocation ⟨"splice"⟩ [], .invocation tag args])

/-- A registry of `splice` and `renew`. -/
def renewing : Registry :=
  Table.ofList [(⟨"splice"⟩, .silent splice), (⟨"renew"⟩, .silent (renew ⟨"renew"⟩))]

/-- A registry of `rotate`. -/
def rotating : Registry := Table.ofList [(⟨"rotate"⟩, .silent (rotate ⟨"rotate"⟩))]

/-- An invocation with the same set twice, filled in different orders. -/
def turned : Node := .invocation ⟨"rotate"⟩ [.set [.int 1, .int 2], .set [.int 2, .int 1]]

/-- The invocation of `rotate` is all that comes back from it. -/
theorem not_givesBackBeside_rotating (ctx : Context) (n : Node) :
    ¬Resolver.GivesBackBeside ⟨rotating, 10⟩ ctx n := by
  rintro ⟨nodes, m, hnodes, -, -, hlen⟩
  cases hi : n.isInvocation with
  | false =>
    rw [Registry.expand_of_not_isInvocation hi] at hnodes
    cases hnodes
    exact absurd hlen (Nat.lt_irrefl 1)
  | true =>
    cases n with
    | invocation tag args =>
      obtain ⟨q, hq, hresult⟩ := Registry.exists_of_expand hnodes
      have hentries : rotating.entries = [(⟨"rotate"⟩, .silent (rotate ⟨"rotate"⟩))] := rfl
      have hmem := Table.get?_eq_some_iff.1 hq
      rw [hentries, List.mem_singleton, Prod.mk.injEq] at hmem
      rw [hmem.2] at hresult
      cases hresult
      exact absurd hlen (Nat.lt_irrefl 1)
    | _ => cases hi

end Sample

namespace Resolver

theorem walkWithin_survivors_turned :
    ((walk ⟨Sample.renewing, 10⟩ Sample.atSecond (.sequence [.invocation ⟨"renew"⟩ []])).result =
        .ok (.sequence [.invocation ⟨"splice"⟩ [], .invocation ⟨"renew"⟩ []]) ∧
      ∃ slot forms, (resolve ⟨Sample.renewing, 10⟩ Sample.atSecond slot).result = .ok forms ∧
        .node (.invocation ⟨"splice"⟩ []) ∈ forms ∧
        Stable ⟨Sample.renewing, 10⟩ Sample.atSecond forms) ∧
    (walk ⟨Sample.rotating, 10⟩ Sample.atSecond (.sequence [Sample.turned])).result =
        .ok (.sequence [Sample.turned]) ∧
      Reproduces ⟨Sample.rotating, 10⟩ Sample.atSecond Sample.turned := by
  have hrenew : (walk ⟨Sample.renewing, 10⟩ Sample.atSecond
      (.sequence [.invocation ⟨"renew"⟩ []])).result =
        .ok (.sequence [.invocation ⟨"splice"⟩ [], .invocation ⟨"renew"⟩ []]) := rfl
  have hrotate : (walk ⟨Sample.rotating, 10⟩ Sample.atSecond (.sequence [Sample.turned])).result =
      .ok (.sequence [Sample.turned]) := rfl
  obtain ⟨-, -, hheld, -⟩ := walkWithin_survivors hrenew
  obtain ⟨slot, forms, hforms, hmem, hstable, -⟩ :=
    hheld _ (.part rfl (List.mem_cons_self ..) (.self (.invocation ⟨"splice"⟩ []))) rfl
  obtain ⟨-, -, -, hall⟩ := walkWithin_survivors hrotate
  refine ⟨⟨hrenew, slot, forms, hforms, hmem, hstable⟩, hrotate, ?_⟩
  exact hall (Sample.not_givesBackBeside_rotating _) _
    (.part rfl (List.mem_cons_self ..) (.self Sample.turned)) rfl

/-- Forms that come back as a whole need not give themselves back: `splice` without arguments stands
for no form, and its neighbour gives it back. -/
theorem walk_survivors_not_reproduced :
    (walk ⟨Sample.renewing, 10⟩ Sample.atSecond (.sequence [.invocation ⟨"renew"⟩ []])).result =
        .ok (.sequence [.invocation ⟨"splice"⟩ [], .invocation ⟨"renew"⟩ []]) ∧
      (Node.sequence [.invocation ⟨"splice"⟩ [], .invocation ⟨"renew"⟩ []]).Holds
        (.invocation ⟨"splice"⟩ []) ∧
      Sample.renewing.expand Sample.atSecond (.invocation ⟨"splice"⟩ []) = .ok (.forms []) ∧
      ¬Reproduces ⟨Sample.renewing, 10⟩ Sample.atSecond (.invocation ⟨"splice"⟩ []) ∧
      ¬Reproduces ⟨Sample.renewing, 10⟩ Sample.atSecond (.invocation ⟨"renew"⟩ []) := by
  refine ⟨rfl, .part rfl (List.mem_cons_self ..) (.self _), rfl, ?_, ?_⟩
  · rintro ⟨m, hm, -⟩
    cases hm
  · rintro ⟨m, hm, -⟩
    cases hm

end Resolver

end VersionedTree
