import VersionedTree.Proofs.Reading

/-!
# The arguments that count

A bundled qualifier decides by its conditions which of its forms it returns for a version. The other
forms are idle there: nothing is read of them. Two invocations of one tag therefore expand into
related forms if their arguments are related apart from idle ones, also in two contexts where the
known versions stand in the same order.

## What is proved

* `Standard.expandForm_leadsTo` — the expansion of invocations that select alike.
-/

namespace VersionedTree

/-! ### Related expansions -/

/-- A registered invocation stands for the forms of what its qualifier gives. -/
theorem Resolver.expandForm_eq {r : Resolver} {ctx : Context} {tag : Tag} {args : List Node}
    {q : Qualifier} (h : r.registry.get? tag = some q) :
    r.expandForm ctx (.node (.invocation tag args)) = do
      let e ← ExceptT.adapt (.qualifier tag ctx.version) (q ctx args)
      return e.asForms := by
  rw [expandForm, h]
  refine bind_congr fun e => ?_
  cases e <;> rfl

/-- Two expansions stand for related forms. -/
def Expansion.Related (R : Node → Node → Prop) (e e' : Expansion) : Prop :=
  List.Forall₂ (Form.Related R) e.asForms e'.asForms

namespace Expansion

variable {R : Node → Node → Prop}

theorem related_forms {xs ys : List Node} (h : List.Forall₂ R xs ys) :
    Related R (.forms xs) (.forms ys) :=
  List.forall₂_map_left_iff.2 (List.forall₂_map_right_iff.2 (h.imp fun _ _ => .node))

theorem related_single {m n : Node} (h : R m n) : Related R (.single m) (.single n) :=
  related_forms (.cons h .nil)

theorem related_delete : Related R .delete .delete := .cons .deletion .nil

end Expansion

namespace Arguments

/-- The pairs of two lists of arguments of the same length. -/
theorem forall₂_inPairs {xs ys : List Node} (hlen : xs.length = ys.length)
    {P : Node × Node → Node × Node → Prop}
    (h : ∀ (i : Nat) (p q : Node × Node), (inPairs xs).1[i]? = some p →
      (inPairs ys).1[i]? = some q → P p q) :
    List.Forall₂ P (inPairs xs).1 (inPairs ys).1 :=
  forall₂_of_getElem? (by rw [length_inPairs, length_inPairs, hlen]) h

/-- The odd arguments at the end of two lists of arguments of the same length. -/
theorem rel_inPairs_snd {xs ys : List Node} (hlen : xs.length = ys.length)
    {R : Node → Node → Prop} (h : ∀ x y, xs[2 * (inPairs xs).1.length]? = some x →
      ys[2 * (inPairs xs).1.length]? = some y → R x y) :
    Option.Rel R (inPairs xs).2 (inPairs ys).2 := by
  have hpairs : (inPairs xs).1.length = (inPairs ys).1.length := by
    rw [length_inPairs, length_inPairs, hlen]
  rw [inPairs_snd, inPairs_snd, ← hpairs]
  exact rel_getElem?_of_length_eq hlen h

/-- Without an odd argument on the left there is none on the right. -/
theorem inPairs_eq_of_length_eq {xs ys : List Node} {pairs : List (Node × Node)}
    (hlen : xs.length = ys.length) (h : inPairs xs = (pairs, none)) :
    inPairs ys = ((inPairs ys).1, none) := by
  have hodd : (inPairs xs).2 = none := congrArg Prod.snd h
  refine Prod.ext rfl ?_
  rw [inPairs_snd, length_inPairs, List.getElem?_eq_none_iff] at hodd ⊢
  rwa [← hlen]

/-- If the same places are selected, what is picked on the left has a counterpart on the right. -/
theorem Picks.exists_related {selected selected' : Nat → Prop} {pairs pairs' : List (Node × Node)}
    {default? default'? answer? : Option Node} {R : Node → Node → Prop}
    (hlen : pairs.length = pairs'.length) (hselected : ∀ i, selected i ↔ selected' i)
    (hpair : ∀ (i : Nat) (p q : Node × Node), selected i → pairs[i]? = some p →
      pairs'[i]? = some q → R p.2 q.2)
    (hdefault : (∀ i, ¬selected i) → Option.Rel R default? default'?)
    (h : Picks selected pairs default? answer?) :
    ∃ answer'?, Picks selected' pairs' default'? answer'? ∧ Option.Rel R answer? answer'? := by
  cases h with
  | @pair i p hi hp =>
    have hlt : i < pairs'.length := hlen ▸ (List.getElem?_eq_some_iff.1 hp).1
    have hq := List.getElem?_eq_getElem hlt
    exact ⟨_, .pair ((hselected i).1 hi) hq, .some (hpair i p _ hi hp hq)⟩
  | default hnot =>
    exact ⟨_, .default fun i hi => hnot i ((hselected i).2 hi), hdefault hnot⟩

end Arguments

namespace Standard

/-! ### Idle arguments -/

/-- The condition of an invocation does not hold for the version at hand. -/
inductive ConditionFails (m? : Option Manifest) (ctx : Context) (tag : Tag) (condition : Node) :
    Prop where
  /-- No version of the set is the one at hand. -/
  | only {items : List Node} : tag = onlyTag →
    (condition = .set items ∨ condition = .sequence items) →
      (∀ item ∈ items, Version.ofNode? item ≠ some ctx.version) →
        ConditionFails m? ctx tag condition
  /-- The version has not come yet. -/
  | added {k : Nat} : tag = addedTag → ctx.placeOf? condition = some k → ctx.position < k →
    ConditionFails m? ctx tag condition
  /-- The version has come. -/
  | removed {k : Nat} : tag = removedTag → ctx.placeOf? condition = some k → k ≤ ctx.position →
    ConditionFails m? ctx tag condition
  /-- The version at hand does not ship the flag. -/
  | feature {m : Manifest} : tag = featureTag → m? = some m → ¬m.Enables ctx condition →
    ConditionFails m? ctx tag condition

/-- The argument of an invocation at a place is a form that is not selected for the version at
hand. -/
inductive Idle (m? : Option Manifest) (ctx : Context) (tag : Tag) : List Node → Nat → Prop where
  /-- A form under a condition that does not hold. -/
  | form {condition : Node} {forms : List Node} {i : Nat} : ConditionFails m? ctx tag condition →
    Idle m? ctx tag (condition :: forms) (i + 1)
  /-- The base of a log that has a pair in force. -/
  | base {base : Node} {log : List Node} {j : Nat} : tag = changedTag →
    ChangeLog.IsInForce ctx (Arguments.inPairs log).1 j → Idle m? ctx tag (base :: log) 0
  /-- The form of a pair of a log that is not in force. -/
  | entry {base : Node} {log : List Node} {j : Nat} : tag = changedTag →
    ¬ChangeLog.IsInForce ctx (Arguments.inPairs log).1 j →
      Idle m? ctx tag (base :: log) (2 * j + 2)
  /-- The form of a clause that is not chosen. -/
  | clause {m : Manifest} {args : List Node} {j : Nat} : tag = featureCaseTag → m? = some m →
    ¬FeatureCase.IsChosen m ctx (Arguments.inPairs args).1 j → Idle m? ctx tag args (2 * j + 1)
  /-- The default, where a clause is chosen. -/
  | default {m : Manifest} {args : List Node} {j : Nat} : tag = featureCaseTag → m? = some m →
    FeatureCase.IsChosen m ctx (Arguments.inPairs args).1 j →
      Idle m? ctx tag args (2 * (Arguments.inPairs args).1.length)

section Idle

variable {m? : Option Manifest} {ctx : Context} {tag : Tag} {args : List Node} {i : Nat}

/-- Under a condition only forms are idle, and only if it fails. -/
theorem Idle.conditionFails (hchanged : tag ≠ changedTag) (hcase : tag ≠ featureCaseTag)
    (h : Idle m? ctx tag args i) : ∃ condition forms j, args = condition :: forms ∧ i = j + 1 ∧
      ConditionFails m? ctx tag condition := by
  cases h with
  | form hfails => exact ⟨_, _, _, rfl, rfl, hfails⟩
  | base htag | entry htag => exact absurd htag hchanged
  | clause htag | default htag => exact absurd htag hcase

theorem Idle.of_changed {base : Node} {log : List Node}
    (h : Idle m? ctx changedTag (base :: log) i) :
    (i = 0 ∧ ∃ j, ChangeLog.IsInForce ctx (Arguments.inPairs log).1 j) ∨
      ∃ j, i = 2 * j + 2 ∧ ¬ChangeLog.IsInForce ctx (Arguments.inPairs log).1 j := by
  cases h with
  | form hfails => cases hfails <;> exact absurd ‹changedTag = _› (by decide)
  | base _ hforce => exact .inl ⟨rfl, _, hforce⟩
  | entry _ hforce => exact .inr ⟨_, rfl, hforce⟩
  | clause htag | default htag => exact absurd htag (by decide)

theorem Idle.of_featureCase {m : Manifest} (h : Idle (some m) ctx featureCaseTag args i) :
    (∃ j, i = 2 * j + 1 ∧ ¬FeatureCase.IsChosen m ctx (Arguments.inPairs args).1 j) ∨
      i = 2 * (Arguments.inPairs args).1.length ∧
        ∃ j, FeatureCase.IsChosen m ctx (Arguments.inPairs args).1 j := by
  cases h with
  | form hfails => cases hfails <;> exact absurd ‹featureCaseTag = _› (by decide)
  | base htag | entry htag => exact absurd htag (by decide)
  | clause _ hm hchosen =>
    cases hm
    exact .inl ⟨_, rfl, hchosen⟩
  | default _ hm hchosen =>
    cases hm
    exact .inr ⟨rfl, _, hchosen⟩

end Idle

/-! ### Invocations that select alike -/

/-- Two lists of arguments are equally long and related place by place, apart from the places where
those of the left one are idle. -/
structure ArgumentsRelated (m? : Option Manifest) (ctx : Context) (R : Node → Node → Prop)
    (tag : Tag) (xs ys : List Node) : Prop where
  length_eq : xs.length = ys.length
  related : ∀ {i : Nat} {x y : Node}, xs[i]? = some x → ys[i]? = some y →
    ¬Idle m? ctx tag xs i → R x y

/-- Two invocations have related arguments, apart from idle ones, or are a `switch` each with
related forms under the version at hand. -/
inductive SelectsAlike (m? : Option Manifest) (ctx : Context) (reorder : Prop)
    (R : Node → Node → Prop) : Tag → List Node → List Node → Prop where
  /-- Arguments that are related, apart from idle ones. -/
  | arguments {tag : Tag} {xs ys : List Node} : ArgumentsRelated m? ctx R tag xs ys →
    SelectsAlike m? ctx reorder R tag xs ys
  /-- Clauses of a `switch` that are matched, apart from the forms under other versions. -/
  | clauses {ps qs : List (Node × Node)} : Matched reorder (Switch.ClauseRelated ctx R) ps qs →
    SelectsAlike m? ctx reorder R switchTag [.mapping ps] [.mapping qs]

/-- Invocations select alike if all their arguments are related. -/
theorem SelectsAlike.of_forall₂ {m? : Option Manifest} {ctx : Context} {reorder : Prop}
    {R : Node → Node → Prop} {tag : Tag} {xs ys : List Node} (h : List.Forall₂ R xs ys) :
    SelectsAlike m? ctx reorder R tag xs ys :=
  .arguments ⟨h.length_eq, fun hx hy _ => rel_of_getElem? h hx hy⟩

/-! ### Arguments that count -/

namespace ArgumentsRelated

variable {m? : Option Manifest} {m : Manifest} {ctx : Context} {R : Node → Node → Prop}
  {tag : Tag} {base base' head head' : Node} {log log' rest rest' xs ys : List Node}
  {i : Nat} {p q : Node × Node}

/-- A condition is never idle. -/
theorem condition (h : ArgumentsRelated m? ctx R tag (head :: rest) (head' :: rest'))
    (hchanged : tag ≠ changedTag) (hcase : tag ≠ featureCaseTag) : R head head' := by
  refine h.related (i := 0) rfl rfl fun hidle => ?_
  obtain ⟨_, _, _, -, hi, -⟩ := hidle.conditionFails hchanged hcase
  cases hi

/-- The forms under a condition that holds are not idle. -/
theorem forms (h : ArgumentsRelated m? ctx R tag (head :: rest) (head' :: rest'))
    (hchanged : tag ≠ changedTag) (hcase : tag ≠ featureCaseTag)
    (hholds : ¬ConditionFails m? ctx tag head) : List.Forall₂ R rest rest' := by
  refine forall₂_of_getElem? (Nat.succ.inj h.length_eq) fun i x y hx hy => ?_
  refine h.related (i := i + 1) hx hy fun hidle => ?_
  obtain ⟨_, _, _, hargs, -, hfails⟩ := hidle.conditionFails hchanged hcase
  cases hargs
  exact hholds hfails

/-- The keys of a log are never idle. -/
theorem log_keys (h : ArgumentsRelated m? ctx R changedTag (base :: log) (base' :: log')) :
    List.Forall₂ (fun p q => R p.1 q.1) (Arguments.inPairs log).1 (Arguments.inPairs log').1 := by
  refine Arguments.forall₂_inPairs (Nat.succ.inj h.length_eq) fun i p q hp hq => ?_
  refine h.related (i := 2 * i + 1) (Arguments.getElem?_inPairs.1 hp).1
    (Arguments.getElem?_inPairs.1 hq).1 fun hidle => ?_
  rcases hidle.of_changed with ⟨hi, -⟩ | ⟨j, hj, -⟩ <;> omega

/-- The form of the pair in force is not idle. -/
theorem log_entry (h : ArgumentsRelated m? ctx R changedTag (base :: log) (base' :: log'))
    (hi : ChangeLog.IsInForce ctx (Arguments.inPairs log).1 i)
    (hp : (Arguments.inPairs log).1[i]? = some p) (hq : (Arguments.inPairs log').1[i]? = some q) :
    R p.2 q.2 := by
  refine h.related (i := 2 * i + 2) (Arguments.getElem?_inPairs.1 hp).2
    (Arguments.getElem?_inPairs.1 hq).2 fun hidle => ?_
  rcases hidle.of_changed with ⟨hzero, -⟩ | ⟨j, hj, hnot⟩
  · omega
  · obtain rfl : i = j := by omega
    exact hnot hi

/-- The base is not idle if no pair is in force. -/
theorem log_base (h : ArgumentsRelated m? ctx R changedTag (base :: log) (base' :: log'))
    (hnot : ∀ i, ¬ChangeLog.IsInForce ctx (Arguments.inPairs log).1 i) : R base base' := by
  refine h.related (i := 0) rfl rfl fun hidle => ?_
  rcases hidle.of_changed with ⟨-, j, hj⟩ | ⟨j, hj, -⟩
  · exact hnot j hj
  · omega

/-- The conditions of clauses are never idle. -/
theorem clause_conditions (h : ArgumentsRelated (some m) ctx R featureCaseTag xs ys) :
    List.Forall₂ (fun c d => R c.1 d.1) (Arguments.inPairs xs).1 (Arguments.inPairs ys).1 := by
  refine Arguments.forall₂_inPairs h.length_eq fun i c d hc hd => ?_
  refine h.related (i := 2 * i) (Arguments.getElem?_inPairs.1 hc).1
    (Arguments.getElem?_inPairs.1 hd).1 fun hidle => ?_
  have hi := (List.getElem?_eq_some_iff.1 hc).1
  rcases hidle.of_featureCase with ⟨j, hj, -⟩ | ⟨hlast, -⟩ <;> omega

/-- The form of the chosen clause is not idle. -/
theorem clause_form (h : ArgumentsRelated (some m) ctx R featureCaseTag xs ys)
    (hi : FeatureCase.IsChosen m ctx (Arguments.inPairs xs).1 i)
    (hp : (Arguments.inPairs xs).1[i]? = some p) (hq : (Arguments.inPairs ys).1[i]? = some q) :
    R p.2 q.2 := by
  refine h.related (i := 2 * i + 1) (Arguments.getElem?_inPairs.1 hp).2
    (Arguments.getElem?_inPairs.1 hq).2 fun hidle => ?_
  have hlt := (List.getElem?_eq_some_iff.1 hp).1
  rcases hidle.of_featureCase with ⟨j, hj, hnot⟩ | ⟨hlast, -⟩
  · obtain rfl : i = j := by omega
    exact hnot hi
  · omega

/-- The default is not idle if no clause is chosen. -/
theorem clause_default (h : ArgumentsRelated (some m) ctx R featureCaseTag xs ys)
    (hnot : ∀ i, ¬FeatureCase.IsChosen m ctx (Arguments.inPairs xs).1 i) :
    Option.Rel R (Arguments.inPairs xs).2 (Arguments.inPairs ys).2 := by
  refine Arguments.rel_inPairs_snd h.length_eq fun x y hx hy => ?_
  refine h.related hx hy fun hidle => ?_
  rcases hidle.of_featureCase with ⟨j, hj, -⟩ | ⟨-, j, hj⟩
  · omega
  · exact hnot j hj

end ArgumentsRelated

/-! ### What qualifiers select -/

section Qualifiers

variable {m? : Option Manifest} {ctx ctx' : Context} {R : Node → Node → Prop}
  {permitted : Event → Prop} {xs ys : List Node}

/-- Where a condition holds, the forms under it are related, and elsewhere they are idle. -/
theorem includeWhen_leadsTo {usage : String}
    {test : Context → Node → Except QualifierError Bool} {tag : Tag}
    (hchanged : tag ≠ changedTag) (hcase : tag ≠ featureCaseTag)
    (htest : ∀ {m n b}, R m n → test ctx m = .ok b → test ctx' n = .ok b)
    (hholds : ∀ {condition}, test ctx condition = .ok true →
      ¬ConditionFails m? ctx tag condition)
    (h : ArgumentsRelated m? ctx R tag xs ys) :
    Traced.LeadsTo permitted (Expansion.Related R)
      (Qualifier.silent (Inclusion.includeWhen usage test) ctx xs)
      (Qualifier.silent (Inclusion.includeWhen usage test) ctx' ys) := by
  intro e he
  obtain ⟨condition, forms, b, rfl, hb, rfl⟩ :=
    Inclusion.includeWhen_eq_ok_iff.1 (Qualifier.yields_silent_iff.1 he)
  cases ys with
  | nil => exact absurd h.length_eq (by simp)
  | cons condition' forms' =>
    have hb' := htest (h.condition hchanged hcase) hb
    refine ⟨.includeIf b forms', Qualifier.yields_silent_iff.2
      (Inclusion.includeWhen_eq_ok_iff.2 ⟨_, _, b, rfl, hb', rfl⟩), ?_⟩
    cases b with
    | false => exact Expansion.related_delete
    | true => exact Expansion.related_forms (h.forms hchanged hcase (hholds hb))

/-- A log of versions that are known on the left leads to one of versions that are known on the
right, and the form that counts to one that is related. -/
theorem changed_leadsTo (hnames : ∀ {m n}, R m n → Version.ofNode? m = Version.ofNode? n)
    (hembeds : ctx.Embeds ctx') (h : ArgumentsRelated m? ctx R changedTag xs ys) :
    Traced.LeadsTo permitted (Expansion.Related R) (changed ctx xs) (changed ctx' ys) := by
  intro e he
  obtain ⟨base, log, pairs, form, rfl, hpairs, hknown, rfl, hpicks⟩ :=
    ChangeLog.changed_eq_ok_iff.1 (Qualifier.yields_silent_iff.1 he)
  cases ys with
  | nil => exact absurd h.length_eq (by simp)
  | cons base' log' =>
    obtain rfl : (Arguments.inPairs log).1 = pairs := congrArg Prod.fst hpairs
    have hkeys : List.Forall₂ (fun p q => Version.ofNode? p.1 = Version.ofNode? q.1)
        (Arguments.inPairs log).1 (Arguments.inPairs log').1 :=
      h.log_keys.imp fun _ _ hpq => hnames hpq
    have hknown' : ∀ q ∈ (Arguments.inPairs log').1, ∃ k, ctx'.placeOf? q.1 = some k := by
      intro q hq
      obtain ⟨p, hp, hname⟩ := exists_mem_left_of_forall₂ hkeys hq
      obtain ⟨k, hk⟩ := hknown p hp
      obtain ⟨k', hk', -⟩ := hembeds.exists_placeOf? hname hk
      exact ⟨k', hk'⟩
    obtain ⟨_, hpicks', hrelated⟩ := hpicks.exists_related hkeys.length_eq
      (ChangeLog.isInForce_iff_of_embeds hembeds hkeys hknown)
      (fun _ _ _ hi => h.log_entry hi) (fun hnot => .some (h.log_base hnot))
    cases hrelated with
    | some hform =>
      exact ⟨_, Qualifier.yields_silent_iff.2 (ChangeLog.changed_eq_ok_iff.2
        ⟨base', log', _, _, rfl,
          Arguments.inPairs_eq_of_length_eq (Nat.succ.inj h.length_eq) hpairs, hknown', rfl,
          hpicks'⟩), Expansion.related_single hform⟩

/-- Conditions that are related hold in the same clauses, and the form that counts leads to one that
is related. -/
theorem featureCase_leadsTo {m : Manifest} {reorder : Prop}
    (hrecords : ∀ text, permitted (.flagSequence text))
    (hopened : ∀ {m n}, R m n → m.Opened reorder R (fun _ _ => True) n)
    (hversion : ctx.version = ctx'.version)
    (h : ArgumentsRelated (some m) ctx R featureCaseTag xs ys) :
    Traced.LeadsTo permitted (Expansion.Related R) (featureCase m ctx xs)
      (featureCase m ctx' ys) := by
  intro e he
  obtain ⟨hknown, form?, hpicks, rfl⟩ := (FeatureCase.yields_featureCase_iff hrecords).1 he
  have htext : ∀ {m n}, R m n → m.text? = n.text? := fun hmn => (hopened hmn).text?_eq
  have hflags : List.Forall₂
      (fun c d => Matched reorder R (FeatureCase.flags c.1) (FeatureCase.flags d.1))
      (Arguments.inPairs xs).1 (Arguments.inPairs ys).1 := by
    refine h.clause_conditions.imp fun c d hcd => ?_
    exact FeatureCase.matched_flags hcd (hopened hcd)
  have hknown' : ∀ d ∈ (Arguments.inPairs ys).1, ∀ flag ∈ FeatureCase.flags d.1,
      m.Knows flag := by
    intro d hd
    obtain ⟨c, hc, hcd⟩ := exists_mem_left_of_forall₂ hflags hd
    exact FeatureCase.knows_of_matched htext hcd (hknown c hc)
  have hchosen : ∀ i, FeatureCase.IsChosen m ctx (Arguments.inPairs xs).1 i ↔
      FeatureCase.IsChosen m ctx' (Arguments.inPairs ys).1 i :=
    FeatureCase.isChosen_iff (hflags.imp fun _ _ hcd =>
      FeatureCase.enables_iff_of_matched htext hcd hversion)
  obtain ⟨form'?, hpicks', hrelated⟩ := hpicks.exists_related hflags.length_eq hchosen
    (fun _ _ _ hi => h.clause_form hi) h.clause_default
  refine ⟨_, (FeatureCase.yields_featureCase_iff hrecords).2 ⟨hknown', form'?, hpicks', rfl⟩, ?_⟩
  cases hrelated with
  | some hform => exact Expansion.related_single hform
  | none => exact Expansion.related_delete

/-- The clauses of a `switch` are its only argument. -/
theorem switch_leadsTo {reorder : Prop}
    (hopened : ∀ {m n}, R m n → m.Opened reorder R (fun _ _ => True) n)
    (hversion : ctx.version = ctx'.version) (hknown : ctx.known.toList.Perm ctx'.known.toList)
    (h : SelectsAlike m? ctx reorder R switchTag xs ys) :
    Traced.LeadsTo permitted (Expansion.Related R) (switch ctx xs) (switch ctx' ys) := by
  intro e he
  have he := Qualifier.yields_silent_iff.1 he
  obtain ⟨ps, -, rfl, -⟩ := Switch.switch_eq_ok_iff.1 he
  obtain ⟨qs, rfl, hps⟩ : ∃ qs, ys = [.mapping qs] ∧
      Matched reorder (Switch.ClauseRelated ctx R) ps qs := by
    cases h with
    | clauses hps => exact ⟨_, rfl, hps⟩
    | arguments hargs =>
      obtain ⟨y, rfl⟩ := List.length_eq_one_iff.1 hargs.length_eq.symm
      have hy : R (.mapping ps) y := hargs.condition (by decide) (by decide)
      cases hopened hy with
      | mapping hps =>
        exact ⟨_, rfl, hps.imp fun hpq => ⟨(hopened hpq.1).ofNode?_eq, fun _ => hpq.2⟩⟩
  obtain ⟨m, n, rfl, hn, hmn⟩ := Switch.switch_of_matched hversion hknown hps he
  exact ⟨_, Qualifier.yields_silent_iff.2 hn, Expansion.related_single hmn⟩

/-- Where a condition holds it does not fail. -/
theorem not_conditionFails_of_isMember {condition : Node}
    (h : Inclusion.isMember ctx condition = .ok true) :
    ¬ConditionFails m? ctx onlyTag condition := by
  intro hfails
  obtain ⟨items, hitems, -, hmember⟩ := Inclusion.isMember_eq_ok_iff.1 h
  obtain ⟨item, hitem, hat⟩ := hmember.1 rfl
  cases hfails with
  | @only items' _ hitems' hnone =>
    obtain rfl : items = items' := by
      rcases hitems with rfl | rfl <;> rcases hitems' with h | h <;> cases h <;> rfl
    exact hnone item hitem hat
  | added htag | removed htag | feature htag => exact absurd htag (by decide)

theorem not_conditionFails_of_isSince {condition : Node}
    (h : Inclusion.isSince ctx condition = .ok true) :
    ¬ConditionFails m? ctx addedTag condition := by
  intro hfails
  obtain ⟨k, hk, htrue⟩ := Inclusion.isSince_eq_ok_iff.1 h
  have hle : k ≤ ctx.position := of_decide_eq_true htrue.symm
  cases hfails with
  | added _ hl hlt =>
    rw [hk, Option.some.injEq] at hl
    omega
  | only htag | removed htag | feature htag => exact absurd htag (by decide)

theorem not_conditionFails_of_isBefore {condition : Node}
    (h : Inclusion.isBefore ctx condition = .ok true) :
    ¬ConditionFails m? ctx removedTag condition := by
  intro hfails
  obtain ⟨k, hk, htrue⟩ := Inclusion.isBefore_eq_ok_iff.1 h
  have hlt : ctx.position < k := of_decide_eq_true htrue.symm
  cases hfails with
  | removed _ hl hle =>
    rw [hk, Option.some.injEq] at hl
    omega
  | only htag | added htag | feature htag => exact absurd htag (by decide)

theorem not_conditionFails_of_isShipped {m : Manifest} {condition : Node}
    (h : Inclusion.isShipped m ctx condition = .ok true) :
    ¬ConditionFails (some m) ctx featureTag condition := by
  intro hfails
  cases hfails with
  | feature _ hm hnot =>
    cases hm
    exact hnot ((Inclusion.isShipped_eq_ok_iff.1 h).2.1 rfl)
  | only htag | added htag | removed htag => exact absurd htag (by decide)

end Qualifiers

/-! ### Expansions -/

section Expansions

variable {m? : Option Manifest} {permitted : Event → Prop} {reorder : Prop}
  {R : Node → Node → Prop} {ctx ctx' : Context} {tag : Tag} {xs ys : List Node}

/-- A bundled qualifier gives related expansions for arguments that select alike. For a `switch` the
same versions have to be known. -/
theorem qualifier_leadsTo {q : Qualifier} (hq : (registry m?).value.get? tag = some q)
    (hrecords : ∀ text, permitted (.flagSequence text))
    (hopened : ∀ {m n}, R m n → m.Opened reorder R (fun _ _ => True) n)
    (hembeds : ctx.Embeds ctx')
    (hknown : tag = switchTag → ctx.known.toList.Perm ctx'.known.toList)
    (h : SelectsAlike m? ctx reorder R tag xs ys) :
    Traced.LeadsTo permitted (Expansion.Related R) (q ctx xs) (q ctx' ys) := by
  have hnames : ∀ {m n}, R m n → Version.ofNode? m = Version.ofNode? n := fun hmn =>
    (hopened hmn).ofNode?_eq
  have hargs : ∀ {tag}, tag ≠ switchTag → SelectsAlike m? ctx reorder R tag xs ys →
      ArgumentsRelated m? ctx R tag xs ys := by
    intro tag htag h
    cases h with
    | arguments hargs => exact hargs
    | clauses => exact absurd rfl htag
  refine forall_registry_over
    (P := fun tag q => (tag = switchTag → ctx.known.toList.Perm ctx'.known.toList) →
      SelectsAlike m? ctx reorder R tag xs ys →
        Traced.LeadsTo permitted (Expansion.Related R) (q ctx xs) (q ctx' ys))
    ?honly ?hadded ?hremoved ?hswitch ?hchanged ?hfeature ?hcase hq hknown h
  case honly =>
    exact fun _ h => includeWhen_leadsTo (by decide) (by decide)
      (fun hmn => Inclusion.isMember_of_opened hnames hembeds.version (hopened hmn))
      not_conditionFails_of_isMember (hargs (by decide) h)
  case hadded =>
    exact fun _ h => includeWhen_leadsTo (by decide) (by decide)
      (fun hmn => Inclusion.isSince_of_embeds hembeds (hnames hmn))
      not_conditionFails_of_isSince (hargs (by decide) h)
  case hremoved =>
    exact fun _ h => includeWhen_leadsTo (by decide) (by decide)
      (fun hmn => Inclusion.isBefore_of_embeds hembeds (hnames hmn))
      not_conditionFails_of_isBefore (hargs (by decide) h)
  case hswitch =>
    exact fun hknown h => switch_leadsTo hopened hembeds.version (hknown rfl) h
  case hchanged =>
    exact fun _ h => changed_leadsTo hnames hembeds (hargs (by decide) h)
  case hfeature =>
    rintro m rfl - h
    exact includeWhen_leadsTo (by decide) (by decide)
      (fun hmn => Inclusion.isShipped_of_text hembeds.version (hopened hmn).text?_eq)
      not_conditionFails_of_isShipped (hargs (by decide) h)
  case hcase =>
    rintro m rfl - h
    exact featureCase_leadsTo hrecords hopened hembeds.version (hargs (by decide) h)

/-- Two invocations that select alike expand into related forms. -/
theorem expandForm_leadsTo {r r' : Resolver} (hr : r.registry = (registry m?).value)
    (hr' : r'.registry = (registry m?).value) (hrecords : ∀ text, permitted (.flagSequence text))
    (hopened : ∀ {m n}, R m n → m.Opened reorder R (fun _ _ => True) n)
    (hembeds : ctx.Embeds ctx')
    (hknown : tag = switchTag → ctx.known.toList.Perm ctx'.known.toList)
    (h : SelectsAlike m? ctx reorder R tag xs ys) :
    Traced.LeadsTo permitted (List.Forall₂ (Form.Related R))
      (r.expandForm ctx (.node (.invocation tag xs)))
      (r'.expandForm ctx' (.node (.invocation tag ys))) := by
  cases hq : (registry m?).value.get? tag with
  | none =>
    rw [Resolver.expandForm, hr, hq]
    exact Traced.leadsTo_throw
  | some q =>
    rw [Resolver.expandForm_eq (hr ▸ hq), Resolver.expandForm_eq (hr' ▸ hq)]
    exact Traced.leadsTo_bind
      (Traced.leadsTo_adapt (qualifier_leadsTo hq hrecords hopened hembeds hknown h))
      fun _ _ he _ _ => Traced.leadsTo_pure he

end Expansions

end Standard

end VersionedTree
