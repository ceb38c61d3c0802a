import Mathlib.Data.List.ReduceOption
import VersionedTree.Proofs.BreadthFirst
import VersionedTree.Proofs.Success

/-!
# Walks that lead to walks

Two walks of two trees, by two resolvers in two contexts. A relation between nodes says which nodes
in slots belong together, and another one which finished nodes do. If invocations that belong
together expand into forms that do, and parts of collections that belong together do, then one walk
leads to the other: where it gives a tree the other one gives a tree too, and the two belong
together.

The relation need not be reflexive, and nothing is asked of nodes that are never resolved. It may
also match the members of sets and the pairs of mappings in another order.

## What is proved

* `Resolver.yields_foldlM_resolvePair_iff` — what the pairs of a mapping become.
* `Resolver.resolve_leadsTo` — the stable forms of a node.
* `Resolver.walkWithin_leadsTo` — whole walks.
* `Following.of_inward` — by inward qualifiers, forms of related well-formed nodes are stable after
  the same passes.
-/

namespace VersionedTree

/-! ### Pairs with keys apart -/

namespace Keyed

/-- Each key is new where it stands: it is equal neither to a key in `built` nor to one before
it. -/
def NewTo (built pairs : List (Node × Node)) : Prop :=
  (∀ p ∈ pairs, contains p.1 built = false) ∧ pairs.Pairwise fun p q => (q.1 == p.1) = false

theorem contains_append (key : Node) (pairs pairs' : List (Node × Node)) :
    contains key (pairs ++ pairs') = (contains key pairs || contains key pairs') :=
  List.any_append

/-- A pair in front is new, and the others are new after it. -/
theorem newTo_cons_iff {built pairs : List (Node × Node)} {p : Node × Node} :
    NewTo built (p :: pairs) ↔ contains p.1 built = false ∧ NewTo (built ++ [p]) pairs := by
  have hlast : ∀ q : Node × Node, contains q.1 [p] = (q.1 == p.1) := fun q => Bool.or_false _
  unfold NewTo
  simp only [List.forall_mem_cons, List.pairwise_cons, contains_append, hlast, Bool.or_eq_false_iff]
  constructor
  · rintro ⟨⟨hp, hnew⟩, hother, hapart⟩
    exact ⟨hp, fun q hq => ⟨hnew q hq, hother q hq⟩, hapart⟩
  · rintro ⟨hp, hnew, hapart⟩
    exact ⟨⟨hp, fun q hq => (hnew q hq).1⟩, fun q hq => (hnew q hq).2, hapart⟩

theorem newTo_nil_iff {pairs : List (Node × Node)} :
    NewTo [] pairs ↔ pairs.Pairwise fun p q => (q.1 == p.1) = false :=
  and_iff_right fun _ _ => rfl

/-- New pairs go to the end, one after the other. -/
theorem foldl_insert_of_newTo {built pairs : List (Node × Node)} (h : NewTo built pairs) :
    pairs.foldl (fun built pair => insert pair.1 pair.2 built) built = built ++ pairs := by
  induction pairs generalizing built with
  | nil => rw [List.foldl_nil, List.append_nil]
  | cons p pairs ih =>
    obtain ⟨hp, hpairs⟩ := newTo_cons_iff.1 h
    rw [List.foldl_cons, insert_of_not_contains hp, ih hpairs, List.append_assoc,
      List.singleton_append]

/-- Pairs with keys apart stay as they are. -/
theorem ofList_of_newTo {pairs : List (Node × Node)} (h : NewTo [] pairs) : ofList pairs = pairs :=
  foldl_insert_of_newTo h

end Keyed

/-! ### What belongs together -/

/-- Two forms are nodes that are related, or both deletions. -/
inductive Form.Related (R : Node → Node → Prop) : Form → Form → Prop where
  /-- Related nodes. -/
  | node {m n : Node} : R m n → Related R (.node m) (.node n)
  /-- Deletions. -/
  | deletion : Related R .deletion .deletion

/-- Equal forms are equal one by one. -/
theorem Form.related_of_beq {forms forms' : List Form} (h : (forms == forms') = true) :
    List.Forall₂ (Form.Related fun m n => (m == n) = true) forms forms' := by
  induction forms generalizing forms' with
  | nil =>
    cases forms' with
    | nil => exact .nil
    | cons g rest => cases h
  | cons f forms ih =>
    cases forms' with
    | nil => cases h
    | cons g rest =>
      rw [List.cons_beq_cons, Bool.and_eq_true] at h
      refine .cons ?_ (ih h.2)
      cases f with
      | node m =>
        cases g with
        | node n => exact .node h.1
        | deletion => exact absurd h.1 Bool.false_ne_true
      | deletion =>
        cases g with
        | node n => exact absurd h.1 Bool.false_ne_true
        | deletion => exact .deletion

/-- Two pairs have related keys and related values. -/
def PairRelated (R : Node → Node → Prop) (p q : Node × Node) : Prop := R p.1 q.1 ∧ R p.2 q.2

/-- Pairs are related if their keys are, and their values. -/
theorem forall₂_pairRelated_iff {R : Node → Node → Prop} {ps qs : List (Node × Node)} :
    List.Forall₂ (PairRelated R) ps qs ↔
      List.Forall₂ R (ps.map Prod.fst) (qs.map Prod.fst) ∧
        List.Forall₂ R (ps.map Prod.snd) (qs.map Prod.snd) := by
  induction ps generalizing qs with
  | nil => cases qs <;> simp
  | cons p ps ih =>
    cases qs with
    | nil => simp
    | cons q qs =>
      simp only [List.map_cons, List.forall₂_cons, ih, PairRelated]
      constructor
      · rintro ⟨⟨hkey, hvalue⟩, hkeys, hvalues⟩
        exact ⟨⟨hkey, hkeys⟩, hvalue, hvalues⟩
      · rintro ⟨⟨hkey, hkeys⟩, hvalue, hvalues⟩
        exact ⟨⟨hkey, hvalue⟩, hkeys, hvalues⟩

/-- Two nodes have the same shape. Scalars are the same, the parts of collections are related by
`R`, and invocations are related by `S`, as they are. -/
inductive Node.Opened (reorder : Prop) (R S : Node → Node → Prop) : Node → Node → Prop where
  /-- The same scalar. -/
  | scalar (value : Scalar) : Opened reorder R S (.scalar value) (.scalar value)
  /-- Sequences, item by item. -/
  | sequence {xs ys : List Node} :
    List.Forall₂ R xs ys → Opened reorder R S (.sequence xs) (.sequence ys)
  /-- Sets whose members are matched. -/
  | set {xs ys : List Node} : Matched reorder R xs ys → Opened reorder R S (.set xs) (.set ys)
  /-- Mappings whose pairs are matched. -/
  | mapping {ps qs : List (Node × Node)} :
    Matched reorder (PairRelated R) ps qs → Opened reorder R S (.mapping ps) (.mapping qs)
  /-- Invocations. -/
  | invocation {t u : Tag} {xs ys : List Node} : S (.invocation t xs) (.invocation u ys) →
    Opened reorder R S (.invocation t xs) (.invocation u ys)

namespace Node.Opened

variable {reorder : Prop} {R S T : Node → Node → Prop} {m n : Node}

theorem isInvocation_eq (h : m.Opened reorder R S n) : m.isInvocation = n.isInvocation := by
  cases h <;> rfl

/-- How invocations are related does not matter for other nodes. -/
theorem of_not_isInvocation (h : m.Opened reorder R S n) (hm : m.isInvocation = false) :
    m.Opened reorder R T n := by
  cases h with
  | scalar value => exact .scalar value
  | sequence h => exact .sequence h
  | set h => exact .set h
  | mapping h => exact .mapping h
  | invocation h => cases hm

/-- A node has its own shape. -/
theorem self (n : Node) (h : ∀ m ∈ n.parts, R m m) : n.Opened reorder R (fun _ _ => True) n := by
  cases n with
  | scalar value => exact .scalar value
  | sequence items => exact .sequence (List.forall₂_same.2 h)
  | set members => exact .set (.of_forall₂ _ (List.forall₂_same.2 h))
  | mapping pairs =>
    refine .mapping (.of_forall₂ _ (List.forall₂_same.2 fun p hp => ⟨?_, ?_⟩))
    · exact h p.1 (mem_parts_mapping.2 ⟨p, hp, .inl rfl⟩)
    · exact h p.2 (mem_parts_mapping.2 ⟨p, hp, .inr rfl⟩)
  | invocation tag args => exact .invocation trivial

end Node.Opened

/-- The left resolver expands into nodes that are related by `R` to those of the right one, in a
context each. Forms that are stable on one side are stable on the other, and then they have the same
shape. -/
structure Following (permitted : Event → Prop) (reorder : Prop) (R S : Node → Node → Prop)
    (r : Resolver) (ctx : Context) (r' : Resolver) (ctx' : Context) : Prop where
  maxPasses : r.maxPasses = r'.maxPasses
  version : ctx.version = ctx'.version
  records : ∀ e, (∀ version, e ≠ .keysCollided version) → permitted e
  opened : ∀ {m n}, R m n → m.Opened reorder R (fun _ _ => True) n
  expand : ∀ {m n}, R m n → m.isInvocation = true →
    Traced.LeadsTo permitted (List.Forall₂ (Form.Related R)) (r.expandForm ctx (.node m))
      (r'.expandForm ctx' (.node n))
  settles : ∀ {forms forms' next next'}, List.Forall₂ (Form.Related R) forms forms' →
    (r.pass ctx forms).Yields permitted next → (r'.pass ctx' forms').Yields permitted next' →
    List.Forall₂ (Form.Related R) next next' →
      (next == forms) = (next' == forms') ∧
        ((next == forms) = true →
          List.Forall₂ (Form.Related (Node.Opened reorder R S)) forms forms')

/-- Finished nodes are related by `S` if their parts are, where keys of mappings collide only if
that may be recorded. -/
structure Finishing (permitted : Event → Prop) (reorder : Prop) (S : Node → Node → Prop)
    (version : Version) : Prop where
  scalar : ∀ value, S (.scalar value) (.scalar value)
  sequence : ∀ {xs ys}, List.Forall₂ S xs ys → S (.sequence xs) (.sequence ys)
  set : ∀ {xs ys}, Matched reorder S xs ys → S (.ofMembers xs) (.ofMembers ys)
  mapping : ∀ {ps qs}, Matched reorder (PairRelated S) ps qs →
    (permitted (.keysCollided version) ∨ Keyed.NewTo [] ps) →
      S (.ofPairs ps) (.ofPairs qs) ∧ (permitted (.keysCollided version) ∨ Keyed.NewTo [] qs)

namespace Resolver

/-! ### The pairs of a mapping -/

section Pairs

variable {r : Resolver} {ctx : Context} {permitted : Event → Prop}
  {descend : Node → Traced WalkError Node}

/-- What a pair becomes, apart from the pairs before it: a pair, or nothing where one of its slots
is deleted. -/
def finishPair (r : Resolver) (ctx : Context) (descend : Node → Traced WalkError Node)
    (pair : Node × Node) : Traced WalkError (Option (Node × Node)) := do
  let key ← r.resolveSide ctx .key pair.1
  let value ← r.resolveSide ctx .value pair.2
  match key, value with
  | some key, some value => do
    let key ← descend key
    let value ← descend value
    return some (key, value)
  | _, _ => return none

/-- Put what a pair became after the pairs in `built`. -/
def putPair (ctx : Context) (built : List (Node × Node)) :
    Option (Node × Node) → Traced WalkError (List (Node × Node))
  | some (key, value) => do
    if Keyed.contains key built then Traced.record (.keysCollided ctx.version)
    return Keyed.insert key value built
  | none => return built

/-- A pair is finished first, and then put after the others. -/
theorem resolvePair_eq (built : List (Node × Node)) (pair : Node × Node) :
    r.resolvePair ctx descend built pair = r.finishPair ctx descend pair >>= putPair ctx built := by
  unfold resolvePair finishPair
  simp only [bind_assoc]
  refine bind_congr fun key => bind_congr fun value => ?_
  cases key with
  | none => rfl
  | some key =>
    cases value with
    | none => rfl
    | some value => simp only [bind_assoc, pure_bind, putPair]

theorem yields_putPair_iff {built built' : List (Node × Node)} {p : Node × Node} :
    (putPair ctx built (some p)).Yields permitted built' ↔
      (permitted (.keysCollided ctx.version) ∨ Keyed.contains p.1 built = false) ∧
        Keyed.insert p.1 p.2 built = built' := by
  rw [putPair]
  cases Keyed.contains p.1 built with
  | true =>
    simp only [if_true, Traced.yields_bind_iff, Traced.yields_record_iff, Traced.yields_pure_iff,
      exists_const, Bool.true_eq_false, or_false]
  | false =>
    simp only [Bool.false_eq_true, if_false, Traced.yields_pure_iff, or_true, true_and]

/-- Finished pairs are inserted one after the other, where collisions are permitted or there are
none. -/
theorem yields_foldlM_putPair_iff {finished : List (Option (Node × Node))}
    {built result : List (Node × Node)} :
    (finished.foldlM (putPair ctx) built).Yields permitted result ↔
      (permitted (.keysCollided ctx.version) ∨ Keyed.NewTo built finished.reduceOption) ∧
        finished.reduceOption.foldl (fun built p => Keyed.insert p.1 p.2 built) built = result := by
  induction finished generalizing built with
  | nil =>
    rw [List.foldlM_nil, Traced.yields_pure_iff]
    exact (and_iff_right (.inr ⟨by simp [List.reduceOption], .nil⟩)).symm
  | cons p? finished ih =>
    rw [List.foldlM_cons, Traced.yields_bind_iff]
    cases p? with
    | none =>
      simp only [putPair, Traced.yields_pure_iff, exists_eq_left', List.reduceOption_cons_of_none]
      exact ih
    | some p =>
      simp only [yields_putPair_iff, ih, List.reduceOption_cons_of_some, List.foldl_cons]
      by_cases hpermitted : permitted (.keysCollided ctx.version)
      · simp only [hpermitted, true_or, true_and, exists_eq_left']
      · simp only [hpermitted, false_or, Keyed.newTo_cons_iff]
        constructor
        · rintro ⟨built', ⟨hp, rfl⟩, hnew, hresult⟩
          rw [Keyed.insert_of_not_contains hp] at hnew
          exact ⟨⟨hp, hnew⟩, hresult⟩
        · rintro ⟨⟨hp, hnew⟩, hresult⟩
          refine ⟨_, ⟨hp, rfl⟩, ?_, hresult⟩
          rw [Keyed.insert_of_not_contains hp]
          exact hnew

/-- The pairs of a mapping become finished pairs, which are filled into a mapping. -/
theorem yields_foldlM_resolvePair_iff {pairs result : List (Node × Node)} :
    (pairs.foldlM (r.resolvePair ctx descend) []).Yields permitted result ↔
      ∃ finished, (pairs.mapM (r.finishPair ctx descend)).Yields permitted finished ∧
        (permitted (.keysCollided ctx.version) ∨ Keyed.NewTo [] finished.reduceOption) ∧
          Keyed.ofList finished.reduceOption = result := by
  have hfold : ∀ built : List (Node × Node),
      (pairs.foldlM (r.resolvePair ctx descend) built).Yields permitted result ↔
        ∃ finished, (pairs.mapM (r.finishPair ctx descend)).Yields permitted finished ∧
          (finished.foldlM (putPair ctx) built).Yields permitted result := by
    induction pairs with
    | nil =>
      intro built
      simp only [List.foldlM_nil, List.mapM_nil, Traced.yields_pure_iff, exists_eq_left']
    | cons p pairs ih =>
      intro built
      simp only [List.foldlM_cons, List.mapM_cons, Traced.yields_bind_iff, resolvePair_eq, ih,
        Traced.yields_pure_iff]
      constructor
      · rintro ⟨built', ⟨p?, hp, hput⟩, finished, hfinished, hresult⟩
        refine ⟨p? :: finished, ⟨p?, hp, finished, hfinished, rfl⟩, ?_⟩
        rw [List.foldlM_cons, Traced.yields_bind_iff]
        exact ⟨built', hput, hresult⟩
      · rintro ⟨_, ⟨p?, hp, finished, hfinished, rfl⟩, hresult⟩
        rw [List.foldlM_cons, Traced.yields_bind_iff] at hresult
        obtain ⟨built', hput, hresult⟩ := hresult
        exact ⟨built', ⟨p?, hp, hput⟩, finished, hfinished, hresult⟩
  rw [hfold]
  simp only [yields_foldlM_putPair_iff]
  rfl

end Pairs

/-! ### The stable forms of a node -/

variable {permitted : Event → Prop} {reorder : Prop} {R S : Node → Node → Prop}
  {r r' : Resolver} {ctx ctx' : Context}

theorem expandForm_leadsTo (h : Following permitted reorder R S r ctx r' ctx') {f g : Form}
    (hfg : Form.Related R f g) :
    Traced.LeadsTo permitted (List.Forall₂ (Form.Related R)) (r.expandForm ctx f)
      (r'.expandForm ctx' g) := by
  cases hfg with
  | deletion => exact Traced.leadsTo_pure (.cons .deletion .nil)
  | @node m n hmn =>
    cases hm : m.isInvocation with
    | true => exact h.expand hmn hm
    | false =>
      have hn : n.isInvocation = false := (h.opened hmn).isInvocation_eq ▸ hm
      rw [expandForm_of_not_isInvocation hm, expandForm_of_not_isInvocation hn]
      exact Traced.leadsTo_pure (.cons (.node hmn) .nil)

theorem pass_leadsTo (h : Following permitted reorder R S r ctx r' ctx') {forms forms' : List Form}
    (hforms : List.Forall₂ (Form.Related R) forms forms') :
    Traced.LeadsTo permitted (List.Forall₂ (Form.Related R)) (r.pass ctx forms)
      (r'.pass ctx' forms') := by
  refine Traced.leadsTo_bind (Traced.leadsTo_mapM hforms fun _ _ => expandForm_leadsTo h) ?_
  exact fun _ _ hexpanded _ _ => Traced.leadsTo_pure (List.rel_flatten hexpanded)

/-- After each pass either both lists of forms are stable, or none is. -/
theorem settle_leadsTo (h : Following permitted reorder R S r ctx r' ctx') {start start' : Node}
    {left done : Nat} {forms forms' : List Form}
    (hforms : List.Forall₂ (Form.Related R) forms forms') :
    Traced.LeadsTo permitted (List.Forall₂ (Form.Related (Node.Opened reorder R S)))
      (r.settle ctx start left done forms) (r'.settle ctx' start' left done forms') := by
  induction left generalizing done forms forms' with
  | zero => exact Traced.leadsTo_throw
  | succ left ih =>
    rw [settle, settle]
    refine Traced.leadsTo_bind (pass_leadsTo h hforms) fun next next' hnext hpass hpass' => ?_
    obtain ⟨hsame, hstable⟩ := h.settles hforms hpass hpass' hnext
    rw [← hsame]
    split
    · rename_i heq
      have hrecord : Traced.LeadsTo permitted (fun _ _ => True)
          (Traced.record (.settled ctx.version done forms.length) : Traced ResolveError Unit)
          (Traced.record (.settled ctx'.version done forms'.length) : Traced ResolveError Unit) :=
        Traced.leadsTo_record (h.records _ fun _ he => by cases he)
      exact Traced.leadsTo_bind hrecord fun _ _ _ _ _ => Traced.leadsTo_pure (hstable heq)
    · exact ih hnext

/-- The stable forms of related nodes have the same shape. -/
theorem resolve_leadsTo (h : Following permitted reorder R S r ctx r' ctx') {m n : Node}
    (hmn : R m n) :
    Traced.LeadsTo permitted (List.Forall₂ (Form.Related (Node.Opened reorder R S)))
      (r.resolve ctx m) (r'.resolve ctx' n) := by
  rw [resolve, resolve, ← (h.opened hmn).isInvocation_eq, h.maxPasses]
  split
  · exact settle_leadsTo h (.cons (.node hmn) .nil)
  · rename_i hm
    refine Traced.leadsTo_pure (.cons (.node ?_) .nil)
    exact (h.opened hmn).of_not_isInvocation (Bool.not_eq_true _ ▸ hm)

theorem resolveSlot_leadsTo (h : Following permitted reorder R S r ctx r' ctx') {m n : Node}
    (hmn : R m n) :
    Traced.LeadsTo permitted (List.Forall₂ (Form.Related (Node.Opened reorder R S)))
      (r.resolveSlot ctx m) (r'.resolveSlot ctx' n) :=
  Traced.leadsTo_adapt (resolve_leadsTo h hmn)

/-! ### The walk -/

/-- Items that are matched are spliced into nodes that are. -/
theorem splice_leadsTo (h : Following permitted reorder R S r ctx r' ctx') {reordered : Prop}
    {xs ys : List Node} (hxs : Matched reordered R xs ys) :
    Traced.LeadsTo permitted (Matched reordered (Node.Opened reorder R S)) (r.splice ctx xs)
      (r'.splice ctx' ys) := by
  refine Traced.leadsTo_bind
    (Traced.leadsTo_mapM_matched hxs fun _ _ => resolveSlot_leadsTo h) ?_
  refine fun _ _ hforms _ _ => Traced.leadsTo_pure (hforms.flatten.filterMap fun hfg => ?_)
  cases hfg with
  | node hmn => exact .some hmn
  | deletion => exact .none

theorem resolveSide_leadsTo (h : Following permitted reorder R S r ctx r' ctx') {slot : Slot}
    {m n : Node} (hmn : R m n) :
    Traced.LeadsTo permitted (Option.Rel (Node.Opened reorder R S)) (r.resolveSide ctx slot m)
      (r'.resolveSide ctx' slot n) := by
  refine Traced.leadsTo_bind (resolveSlot_leadsTo h hmn) fun forms forms' hforms _ _ => ?_
  cases hforms with
  | nil => exact Traced.leadsTo_throw
  | cons hfg hrest =>
    cases hrest with
    | nil =>
      cases hfg with
      | node hmn => exact Traced.leadsTo_pure (.some hmn)
      | deletion => exact Traced.leadsTo_pure .none
    | cons _ _ => cases hfg <;> exact Traced.leadsTo_throw

theorem finishPair_leadsTo (h : Following permitted reorder R S r ctx r' ctx')
    {descend descend' : Node → Traced WalkError Node}
    (hdescend : ∀ m n, m.Opened reorder R S n →
      Traced.LeadsTo permitted S (descend m) (descend' n))
    {p q : Node × Node} (hpq : PairRelated R p q) :
    Traced.LeadsTo permitted (Option.Rel (PairRelated S)) (r.finishPair ctx descend p)
      (r'.finishPair ctx' descend' q) := by
  refine Traced.leadsTo_bind (resolveSide_leadsTo h hpq.1) fun key key' hkey _ _ => ?_
  refine Traced.leadsTo_bind (resolveSide_leadsTo h hpq.2) fun value value' hvalue _ _ => ?_
  cases hkey with
  | none => exact Traced.leadsTo_pure .none
  | some hkey =>
    cases hvalue with
    | none => exact Traced.leadsTo_pure .none
    | some hvalue =>
      refine Traced.leadsTo_bind (hdescend _ _ hkey) fun k k' hk _ _ => ?_
      refine Traced.leadsTo_bind (hdescend _ _ hvalue) fun v v' hv _ _ => ?_
      exact Traced.leadsTo_pure (.some ⟨hk, hv⟩)

/-- Pairs that are matched are filled into mappings that are related. -/
theorem foldlM_resolvePair_leadsTo (h : Following permitted reorder R S r ctx r' ctx')
    (hfinish : Finishing permitted reorder S ctx.version)
    {descend descend' : Node → Traced WalkError Node}
    (hdescend : ∀ m n, m.Opened reorder R S n →
      Traced.LeadsTo permitted S (descend m) (descend' n))
    {ps qs : List (Node × Node)} (hps : Matched reorder (PairRelated R) ps qs) :
    Traced.LeadsTo permitted (fun built built' => S (.mapping built) (.mapping built'))
      (ps.foldlM (r.resolvePair ctx descend) []) (qs.foldlM (r'.resolvePair ctx' descend') []) := by
  intro built hbuilt
  obtain ⟨finished, hfinished, hnew, rfl⟩ := yields_foldlM_resolvePair_iff.1 hbuilt
  obtain ⟨finished', hfinished', hmatched⟩ := Traced.leadsTo_mapM_matched hps
    (fun _ _ => finishPair_leadsTo h hdescend) finished hfinished
  obtain ⟨hrelated, hnew'⟩ := hfinish.mapping (hmatched.filterMap fun hpq => hpq) hnew
  rw [h.version] at hnew'
  exact ⟨_, yields_foldlM_resolvePair_iff.2 ⟨finished', hfinished', hnew', rfl⟩, hrelated⟩

/-- What is inside of nodes of the same shape is resolved to related nodes. -/
theorem resolveInside_leadsTo (h : Following permitted reorder R S r ctx r' ctx')
    (hfinish : Finishing permitted reorder S ctx.version) {bound : Nat} {m n : Node}
    (hmn : m.Opened reorder R S n) :
    Traced.LeadsTo permitted S (r.resolveInside ctx bound m) (r'.resolveInside ctx' bound n) := by
  induction bound generalizing m n with
  | zero =>
    cases hmn with
    | scalar value => exact Traced.leadsTo_pure (hfinish.scalar value)
    | invocation hinvocation => exact Traced.leadsTo_pure hinvocation
    | _ => exact Traced.leadsTo_throw
  | succ bound ih =>
    cases hmn with
    | scalar value => exact Traced.leadsTo_pure (hfinish.scalar value)
    | invocation hinvocation => exact Traced.leadsTo_pure hinvocation
    | sequence hitems =>
      have hmatched := Matched.of_forall₂ False hitems
      refine Traced.leadsTo_bind (splice_leadsTo h hmatched) fun _ _ hnodes _ _ => ?_
      refine Traced.leadsTo_bind (Traced.leadsTo_mapM hnodes.forall₂ fun _ _ => ih) ?_
      exact fun _ _ hfinished _ _ => Traced.leadsTo_pure (hfinish.sequence hfinished)
    | set hmembers =>
      refine Traced.leadsTo_bind (splice_leadsTo h hmembers) fun _ _ hnodes _ _ => ?_
      refine Traced.leadsTo_bind (Traced.leadsTo_mapM_matched hnodes fun _ _ => ih) ?_
      exact fun _ _ hfinished _ _ => Traced.leadsTo_pure (hfinish.set hfinished)
    | mapping hpairs =>
      refine Traced.leadsTo_bind (foldlM_resolvePair_leadsTo h hfinish (fun _ _ => ih) hpairs) ?_
      exact fun _ _ hbuilt _ _ => Traced.leadsTo_pure hbuilt

/-- Where the left walk gives a tree, the right one gives a related one. -/
theorem walkWithin_leadsTo (h : Following permitted reorder R S r ctx r' ctx')
    (hfinish : Finishing permitted reorder S ctx.version) {bound : Nat} {s t : Node}
    (hst : R s t) :
    Traced.LeadsTo permitted S (r.walkWithin bound ctx s) (r'.walkWithin bound ctx' t) := by
  have hroot : Traced.LeadsTo permitted (Node.Opened reorder R S) (r.resolveRoot ctx s)
      (r'.resolveRoot ctx' t) := by
    refine Traced.leadsTo_bind (resolveSlot_leadsTo h hst) fun forms forms' hforms _ _ => ?_
    cases hforms with
    | nil => exact Traced.leadsTo_throw
    | cons hfg hrest =>
      cases hrest with
      | nil =>
        cases hfg with
        | node hmn => exact Traced.leadsTo_pure hmn
        | deletion => exact Traced.leadsTo_throw
      | cons _ _ => cases hfg <;> exact Traced.leadsTo_throw
  have hrecord : Traced.LeadsTo permitted (fun _ _ => True)
      (Traced.record (.walking ctx.version) : Traced WalkError Unit)
      (Traced.record (.walking ctx'.version) : Traced WalkError Unit) :=
    Traced.leadsTo_record (h.records _ fun _ he => by cases he)
  refine Traced.leadsTo_bind hrecord fun _ _ _ _ _ => ?_
  rw [← (h.opened hst).isInvocation_eq]
  split
  · exact Traced.leadsTo_bind hroot fun _ _ hmn _ _ => resolveInside_leadsTo h hfinish hmn
  · rename_i hs
    refine resolveInside_leadsTo h hfinish ((h.opened hst).of_not_isInvocation ?_)
    exact Bool.not_eq_true _ ▸ hs

end Resolver

/-! ### Ways to follow -/

/-- Finished nodes that are the same stay the same. -/
theorem Finishing.eq (permitted : Event → Prop) (version : Version) :
    Finishing permitted False Eq version where
  scalar _ := rfl
  sequence h := congrArg _ (List.forall₂_eq_eq_eq ▸ h)
  set h := congrArg _ (List.forall₂_eq_eq_eq ▸ h.forall₂)
  mapping h hnew := by
    have heq : List.Forall₂ Eq _ _ := h.forall₂.imp fun _ _ hpq => Prod.ext hpq.1 hpq.2
    rw [List.forall₂_eq_eq_eq] at heq
    exact ⟨congrArg _ heq, heq ▸ hnew⟩

namespace Resolver

variable {r : Resolver} {ctx : Context}

/-- By inward qualifiers, well-formed forms are stable when there is no invocation among them. -/
theorem pass_stable_iff (h : r.registry.Inward) {forms next : List Form}
    (hforms : NodesSatisfy Node.WellFormed forms) (hnext : NodesSatisfy Node.WellFormed next)
    (hpass : (r.pass ctx forms).result = .ok next) :
    (next == forms) = true ↔ NodesSatisfy (fun n => n.isInvocation = false) forms := by
  constructor
  · intro hstable n hn
    by_contra hi
    have hne : r.registry.invocationsIn ctx 0 forms ≠ [] :=
      List.ne_nil_of_mem (Registry.mem_invocationsIn_zero.2 ⟨hn, Bool.not_eq_false _ ▸ hi⟩)
    rw [pass_not_stable h hforms hnext hpass hne] at hstable
    cases hstable
  · intro hnone
    have hnil : r.registry.invocationsIn ctx 0 forms = [] := by
      refine List.eq_nil_iff_forall_not_mem.2 fun i hi => ?_
      obtain ⟨hmem, hinvocation⟩ := Registry.mem_invocationsIn_zero.1 hi
      rw [hnone i hmem] at hinvocation
      cases hinvocation
    rw [result_pass_of_eq_nil hnil, Except.ok.injEq] at hpass
    exact hpass ▸ forms_beq_refl hforms

end Resolver

namespace Following

variable {permitted : Event → Prop} {reorder : Prop} {R S : Node → Node → Prop}
  {r r' : Resolver} {ctx ctx' : Context}

/-- A node among the left forms is related to one among the right forms. -/
theorem exists_right {forms forms' : List Form} (h : List.Forall₂ (Form.Related R) forms forms')
    {m : Node} (hm : .node m ∈ forms) : ∃ n, .node n ∈ forms' ∧ R m n := by
  obtain ⟨g, hg, hfg⟩ := exists_mem_right_of_forall₂ h hm
  cases hfg with
  | node hmn => exact ⟨_, hg, hmn⟩

/-- A node among the right forms is related to one among the left forms. -/
theorem exists_left {forms forms' : List Form} (h : List.Forall₂ (Form.Related R) forms forms')
    {n : Node} (hn : .node n ∈ forms') : ∃ m, .node m ∈ forms ∧ R m n := by
  obtain ⟨f, hf, hfg⟩ := exists_mem_left_of_forall₂ h hn
  cases hfg with
  | node hmn => exact ⟨_, hf, hmn⟩

/-- The nodes among the left forms have what all nodes on the left have. -/
theorem nodesSatisfy_left {P : Node → Prop} (hP : ∀ {m n}, R m n → P m) {forms forms' : List Form}
    (h : List.Forall₂ (Form.Related R) forms forms') : Resolver.NodesSatisfy P forms := by
  intro m hm
  obtain ⟨n, -, hmn⟩ := exists_right h hm
  exact hP hmn

theorem nodesSatisfy_right {P : Node → Prop} (hP : ∀ {m n}, R m n → P n)
    {forms forms' : List Form} (h : List.Forall₂ (Form.Related R) forms forms') :
    Resolver.NodesSatisfy P forms' := by
  intro n hn
  obtain ⟨m, -, hmn⟩ := exists_left h hn
  exact hP hmn

section Opened

variable (hopened : ∀ {m n}, R m n → m.Opened reorder R (fun _ _ => True) n)
  {forms forms' : List Form} (h : List.Forall₂ (Form.Related R) forms forms')
include hopened h

/-- There is no invocation among the left forms exactly when there is none among the right ones. -/
theorem noInvocation_iff :
    Resolver.NodesSatisfy (fun n => n.isInvocation = false) forms ↔
      Resolver.NodesSatisfy (fun n => n.isInvocation = false) forms' := by
  constructor
  · intro hnone n hn
    obtain ⟨m, hm, hmn⟩ := exists_left h hn
    exact (hopened hmn).isInvocation_eq ▸ hnone m hm
  · intro hnone m hm
    obtain ⟨n, hn, hmn⟩ := exists_right h hm
    exact (hopened hmn).isInvocation_eq.trans (hnone n hn)

/-- Without invocations the forms have the same shape. -/
theorem forall₂_opened (hnone : Resolver.NodesSatisfy (fun n => n.isInvocation = false) forms) :
    List.Forall₂ (Form.Related (Node.Opened reorder R S)) forms forms' := by
  induction h with
  | nil => exact .nil
  | @cons f g _ _ hfg _ ih =>
    refine .cons ?_ (ih fun m hm => hnone m (List.mem_cons_of_mem _ hm))
    cases hfg with
    | deletion => exact .deletion
    | node hmn =>
      exact .node ((hopened hmn).of_not_isInvocation (hnone _ (List.mem_cons_self ..)))

end Opened

/-- By inward qualifiers, related well-formed forms are stable after the same passes. -/
theorem of_inward (hinward : r.registry.Inward) (hinward' : r'.registry.Inward)
    (hmaxPasses : r.maxPasses = r'.maxPasses) (hversion : ctx.version = ctx'.version)
    (hrecords : ∀ e, (∀ version, e ≠ .keysCollided version) → permitted e)
    (hwf : ∀ {m n}, R m n → m.WellFormed ∧ n.WellFormed)
    (hopened : ∀ {m n}, R m n → m.Opened reorder R (fun _ _ => True) n)
    (hexpand : ∀ {m n}, R m n → m.isInvocation = true →
      Traced.LeadsTo permitted (List.Forall₂ (Form.Related R)) (r.expandForm ctx (.node m))
        (r'.expandForm ctx' (.node n))) :
    Following permitted reorder R S r ctx r' ctx' where
  maxPasses := hmaxPasses
  version := hversion
  records := hrecords
  opened := hopened
  expand := hexpand
  settles {forms forms' next next'} hforms hpass hpass' hnext := by
    have hleft : ∀ {fs gs}, List.Forall₂ (Form.Related R) fs gs →
        Resolver.NodesSatisfy Node.WellFormed fs :=
      nodesSatisfy_left (P := Node.WellFormed) fun hmn => (hwf hmn).1
    have hright : ∀ {fs gs}, List.Forall₂ (Form.Related R) fs gs →
        Resolver.NodesSatisfy Node.WellFormed gs :=
      nodesSatisfy_right (P := Node.WellFormed) fun hmn => (hwf hmn).2
    have hstable := Resolver.pass_stable_iff hinward (hleft hforms) (hleft hnext) hpass.1
    have hstable' := Resolver.pass_stable_iff hinward' (hright hforms) (hright hnext) hpass'.1
    constructor
    · rw [Bool.eq_iff_iff, hstable, hstable']
      exact noInvocation_iff hopened hforms
    · intro heq
      exact forall₂_opened hopened hforms (hstable.1 heq)

/-- Forms that are the same are stable after the same passes. -/
theorem of_eq (hmaxPasses : r.maxPasses = r'.maxPasses) (hversion : ctx.version = ctx'.version)
    (hrecords : ∀ e, (∀ version, e ≠ .keysCollided version) → permitted e)
    (heq : ∀ {m n}, R m n → m = n)
    (hopened : ∀ {m n}, R m n → m.Opened reorder R (fun _ _ => True) n)
    (hexpand : ∀ {m n}, R m n → m.isInvocation = true →
      Traced.LeadsTo permitted (List.Forall₂ (Form.Related R)) (r.expandForm ctx (.node m))
        (r'.expandForm ctx' (.node n))) :
    Following permitted reorder R Eq r ctx r' ctx' where
  maxPasses := hmaxPasses
  version := hversion
  records := hrecords
  opened := hopened
  expand := hexpand
  settles {forms forms' next next'} hforms _ _ hnext := by
    have hsame : ∀ {fs gs}, List.Forall₂ (Form.Related R) fs gs → fs = gs := by
      intro fs gs h
      rw [← List.forall₂_eq_eq_eq]
      refine h.imp fun f g hfg => ?_
      cases hfg with
      | node hmn => exact congrArg _ (heq hmn)
      | deletion => rfl
    refine ⟨by rw [hsame hforms, hsame hnext], fun _ => hforms.imp fun f g hfg => ?_⟩
    cases hfg with
    | deletion => exact .deletion
    | @node m n hmn =>
      refine .node ?_
      cases hm : m.isInvocation with
      | false => exact (hopened hmn).of_not_isInvocation hm
      | true =>
        obtain rfl := heq hmn
        cases m with
        | invocation tag args => exact .invocation rfl
        | _ => cases hm

end Following

end VersionedTree
