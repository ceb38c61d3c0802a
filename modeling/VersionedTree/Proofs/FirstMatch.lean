import Mathlib.Data.Nat.Find
import VersionedTree.Proofs.Insertion
import VersionedTree.Proofs.Rules

/-!
# First match, after all flags are read

A `feature-case` reads every flag of every condition, in the order in which they are written, before
it stands for anything. The first flag that is refused ends it, also behind a clause that holds; so
whether it is refused, and how, has nothing to do with the version at hand. If all flags are known,
the first clause that holds counts.

A condition is read flag by flag, and whether it is written as a set or as a sequence is only
recorded. A sequence that lists a flag twice becomes a set that has it once, which reads the same.

## What is proved

* `Arguments.knownFlag_eq_error_iff` — which nodes are refused as flags.
* `FeatureCase.featureCase_eq_error_iff` — a `feature-case` fails with the first flag refused.
* `FeatureCase.exists_featureCase_eq_ok` — otherwise it stands for the first clause that holds.
* `FeatureCase.exists_events_featureCase` — what it records.
* `FeatureCase.result_featureCase_of_respelled` — the spelling of conditions does not matter.
* `FeatureCase.featureCase_firstMatch` — all of this together.
-/

namespace VersionedTree

/-- What is done with the value of a computation at last records nothing more. -/
theorem Traced.events_bind_pure {ε α β : Type} (x : Traced ε α) (f : α → β) :
    (x >>= fun a => pure (f a)).events = x.events := by
  rw [events_bind]
  cases x.result <;> exact List.append_nil _

/-! ### Flags -/

namespace Manifest

variable {m : Manifest}

/-- A flag is known if some version ships it. -/
theorem isKnownFlag_iff {name : String} :
    m.isKnownFlag name = true ↔ ∃ v, m.isEnabled v name = true := by
  simp only [isKnownFlag, isEnabled, flagsFor?, Table.values, List.any_map, List.any_eq_true,
    Option.any_eq_true, Table.get?_eq_some_iff, Prod.exists, Function.comp_apply]

theorem isKnownFlag_eq_false_iff {name : String} :
    m.isKnownFlag name = false ↔ ∀ v, m.isEnabled v name = false := by
  simp only [← Bool.not_eq_true, isKnownFlag_iff, not_exists]

/-- Why a node is refused as a flag: it holds no text, or no version ships what it names. -/
inductive Refuses (m : Manifest) (n : Node) : QualifierError → Prop where
  /-- The node holds no text. -/
  | noText : n.text? = none →
    Refuses m n (.invalidArguments ("`" ++ n.display ++ "` is not a feature flag"))
  /-- No version ships the flag. -/
  | unknown {name : String} : n.text? = some name → (∀ v, m.isEnabled v name = false) →
    Refuses m n (.unknownFeature name)

/-- The error is that of the first flag of the list that is refused. -/
inductive FirstRefused (m : Manifest) : List Node → QualifierError → Prop where
  /-- The flag at the head is refused. -/
  | head {flag : Node} {rest : List Node} {e : QualifierError} : m.Refuses flag e →
    FirstRefused m (flag :: rest) e
  /-- The flag at the head is known, and the first one refused comes later. -/
  | later {flag : Node} {rest : List Node} {e : QualifierError} : m.Knows flag →
    FirstRefused m rest e → FirstRefused m (flag :: rest) e

end Manifest

namespace Arguments

variable {m : Manifest} {n : Node} {e : QualifierError}

/-- What is refused as a flag is refused for the reason that is told. -/
theorem knownFlag_eq_error_iff : knownFlag m n = .error e ↔ m.Refuses n e := by
  unfold knownFlag
  constructor
  · intro h
    split at h
    case h_1 htext =>
      cases h
      exact .noText htext
    case h_2 name htext =>
      split at h
      · cases h
      · rename_i hknown
        cases h
        exact .unknown htext (Manifest.isKnownFlag_eq_false_iff.1 (Bool.eq_false_iff.2 hknown))
  · intro h
    cases h with
    | noText htext => rw [htext]
    | unknown htext hnone =>
      rw [htext]
      exact if_neg (Bool.eq_false_iff.1 (Manifest.isKnownFlag_eq_false_iff.2 hnone))

end Arguments

namespace Manifest

variable {m : Manifest} {flag : Node} {flags flags' : List Node} {e : QualifierError}

/-- What is not known is refused for one reason or the other. -/
theorem not_knows_iff : ¬m.Knows flag ↔ ∃ e, m.Refuses flag e := by
  constructor
  · intro h
    cases hread : Arguments.knownFlag m flag with
    | ok name => exact absurd ⟨name, Arguments.knownFlag_eq_ok_iff.1 hread⟩ h
    | error e => exact ⟨e, Arguments.knownFlag_eq_error_iff.1 hread⟩
  · rintro ⟨e, h⟩ ⟨name, hname⟩
    have hread := Arguments.knownFlag_eq_error_iff.2 h
    rw [Arguments.knownFlag_eq_ok_iff.2 hname] at hread
    cases hread

@[simp]
theorem not_firstRefused_nil : ¬m.FirstRefused [] e := nofun

theorem firstRefused_cons_iff : m.FirstRefused (flag :: flags) e ↔
    m.Refuses flag e ∨ m.Knows flag ∧ m.FirstRefused flags e := by
  constructor
  · intro h
    cases h with
    | head h => exact .inl h
    | later hknown h => exact .inr ⟨hknown, h⟩
  · rintro (h | ⟨hknown, h⟩)
    · exact .head h
    · exact .later hknown h

/-- The first flag refused is in the first list, or it is in the second and all before it are
known. -/
theorem firstRefused_append_iff : m.FirstRefused (flags ++ flags') e ↔
    m.FirstRefused flags e ∨ (∀ flag ∈ flags, m.Knows flag) ∧ m.FirstRefused flags' e := by
  induction flags with
  | nil => simp
  | cons flag rest ih =>
    rw [List.cons_append, firstRefused_cons_iff, firstRefused_cons_iff, ih, List.forall_mem_cons]
    tauto

/-- Either all flags are known, or one of them is the first that is refused. -/
theorem exists_firstRefused_iff :
    (∃ e, m.FirstRefused flags e) ↔ ¬∀ flag ∈ flags, m.Knows flag := by
  induction flags with
  | nil => simp
  | cons flag rest ih =>
    simp only [firstRefused_cons_iff, exists_or, exists_and_left, ih, ← not_knows_iff,
      List.forall_mem_cons]
    tauto

/-! ### Flags that are listed twice -/

theorem Knows.wellFormed (h : m.Knows flag) : flag.WellFormed := by
  obtain ⟨name, htext, -⟩ := h
  cases flag with
  | scalar s => trivial
  | _ => cases htext

/-- A node that is equal to a known flag is this flag. -/
theorem Knows.eq_of_beq {n : Node} (h : m.Knows flag) (hbeq : (n == flag) = true) : n = flag := by
  obtain ⟨name, htext, -⟩ := h
  cases flag with
  | scalar b =>
    cases n with
    | scalar a => exact congrArg Node.scalar (eq_of_beq hbeq)
    | _ => cases hbeq
  | _ => cases htext

/-- A set of flags has the same first flag that is refused as the list that it was filled from. -/
theorem firstRefused_ofList_iff :
    m.FirstRefused (Distinct.ofList flags) e ↔ m.FirstRefused flags e := by
  induction flags using List.reverseRecOn generalizing e with
  | nil => rfl
  | append_singleton flags flag ih =>
    rw [Distinct.ofList_append_singleton, firstRefused_append_iff]
    cases helem : (Distinct.ofList flags).elem flag with
    | true =>
      rw [Distinct.insert_of_elem helem, ih]
      refine (or_iff_left ?_).symm
      -- the flag repeats one that was found to be known
      rintro ⟨hknown, hrefused⟩
      obtain ⟨other, hother, hbeq⟩ := Distinct.elem_iff.1 helem
      have hknows := hknown other (Distinct.mem_of_mem_ofList hother)
      rw [hknows.eq_of_beq hbeq] at hrefused
      refine exists_firstRefused_iff.1 ⟨e, hrefused⟩ ?_
      rwa [List.forall_mem_singleton]
    | false =>
      have hknown : (∀ f ∈ Distinct.ofList flags, m.Knows f) ↔ ∀ f ∈ flags, m.Knows f := by
        rw [← not_iff_not, ← exists_firstRefused_iff, ← exists_firstRefused_iff]
        exact exists_congr fun e => ih
      rw [Distinct.insert_of_not_elem helem, firstRefused_append_iff, ih, hknown]

/-- A set of known flags has the flags that it was filled from. -/
theorem mem_ofList_iff (h : ∀ f ∈ flags, m.Knows f) :
    flag ∈ Distinct.ofList flags ↔ flag ∈ flags := by
  refine ⟨Distinct.mem_of_mem_ofList, fun hflag => ?_⟩
  have hwellFormed : ∀ f ∈ flags, f.WellFormed := fun f hf => (h f hf).wellFormed
  obtain ⟨other, hother, hbeq⟩ := Distinct.exists_mem_ofList hwellFormed hflag
  rw [(h other (Distinct.mem_of_mem_ofList hother)).eq_of_beq hbeq]
  exact hother

end Manifest

namespace FeatureCase

variable {m : Manifest} {ctx : Context} {fs : List Node} {condition : Node} {args : List Node}
  {clauses : List (Node × Node)} {e : QualifierError}

/-! ### Reading conditions -/

/-- The conditions of the clauses. -/
def conditions (args : List Node) : List Node := (Arguments.inPairs args).1.map Prod.fst

/-- The flags of all conditions, in the order in which they are written. -/
def allFlags (args : List Node) : List Node := (conditions args).flatMap flags

theorem mapM_knownFlag_eq_error_iff :
    fs.mapM (Arguments.knownFlag m) = .error e ↔ m.FirstRefused fs e := by
  induction fs with
  | nil => exact iff_of_false (by intro h; cases h) Manifest.not_firstRefused_nil
  | cons flag rest ih =>
    rw [List.mapM_cons, Outcome.bind_eq_error_iff, Manifest.firstRefused_cons_iff,
      Arguments.knownFlag_eq_error_iff]
    refine or_congr Iff.rfl ?_
    simp only [Arguments.knownFlag_eq_ok_iff, Outcome.bind_eq_error_iff, ih, Manifest.Knows]
    constructor
    · rintro ⟨name, hname, h | ⟨names, -, h⟩⟩
      · exact ⟨⟨name, hname⟩, h⟩
      · cases h
    · rintro ⟨⟨name, hname⟩, h⟩
      exact ⟨name, hname, .inl h⟩

theorem anyEnabled_eq_error_iff : anyEnabled m ctx fs = .error e ↔ m.FirstRefused fs e := by
  rw [anyEnabled, Outcome.bind_eq_error_iff, mapM_knownFlag_eq_error_iff]
  refine or_iff_left ?_
  rintro ⟨names, -, h⟩
  cases h

/-- A condition can be judged if all of its flags are known. -/
theorem exists_anyEnabled_eq_ok_iff :
    (∃ b, anyEnabled m ctx fs = .ok b) ↔ ∀ flag ∈ fs, m.Knows flag := by
  constructor
  · rintro ⟨b, h⟩
    exact (anyEnabled_eq_ok_iff.1 h).1
  · intro h
    cases hread : anyEnabled m ctx fs with
    | ok b => exact ⟨b, rfl⟩
    | error e =>
      exact absurd h (Manifest.exists_firstRefused_iff.1 ⟨e, anyEnabled_eq_error_iff.1 hread⟩)

/-! ### Judging clauses -/

/-- The verdicts on all clauses, each with the form of its clause. -/
def judge (m : Manifest) (ctx : Context) (clauses : List (Node × Node)) :
    Traced QualifierError (List (Bool × Node)) :=
  clauses.mapM fun clause => do
    let held ← holds m ctx clause.1
    return (held, clause.2)

/-- The form of the first clause that holds, else the default, else nothing. -/
def decision (default? : Option Node) (judged : List (Bool × Node)) : Expansion :=
  (((judged.find? Prod.fst).map Prod.snd <|> default?).map Expansion.single).getD .delete

/-- All clauses are judged before one of them is chosen. -/
theorem featureCase_eq : featureCase m ctx args =
    judge m ctx (Arguments.inPairs args).1 >>= fun judged =>
      pure (decision (Arguments.inPairs args).2 judged) := by
  refine bind_congr fun judged => ?_
  unfold decision
  cases (judged.find? Prod.fst).map Prod.snd <|> (Arguments.inPairs args).2 <;> rfl

theorem judge_cons (c : Node × Node) (rest : List (Node × Node)) : judge m ctx (c :: rest) =
    holds m ctx c.1 >>= fun held => judge m ctx rest >>= fun judged =>
      pure ((held, c.2) :: judged) := by
  simp only [judge, List.mapM_cons, bind_assoc, pure_bind]

theorem result_holds : (holds m ctx condition).result = anyEnabled m ctx (flags condition) := by
  cases condition <;> rfl

theorem result_judge_cons (c : Node × Node) (rest : List (Node × Node)) :
    (judge m ctx (c :: rest)).result =
      anyEnabled m ctx (flags c.1) >>= fun held => (judge m ctx rest).result >>= fun judged =>
        .ok ((held, c.2) :: judged) := by
  simp only [judge_cons, Traced.result_bind, result_holds, Traced.result_pure]

theorem judge_eq_error_iff : (judge m ctx clauses).result = .error e ↔
    m.FirstRefused ((clauses.map Prod.fst).flatMap flags) e := by
  induction clauses with
  | nil => exact iff_of_false (by intro h; cases h) Manifest.not_firstRefused_nil
  | cons c rest ih =>
    rw [result_judge_cons, Outcome.bind_eq_error_iff, anyEnabled_eq_error_iff, List.map_cons,
      List.flatMap_cons, Manifest.firstRefused_append_iff]
    refine or_congr Iff.rfl ?_
    simp only [Outcome.bind_eq_error_iff, reduceCtorEq, and_false, exists_const, or_false, ih,
      exists_and_right, exists_anyEnabled_eq_ok_iff]

/-- A `feature-case` fails with the first flag refused, whether a clause before it holds or not. -/
theorem featureCase_eq_error_iff :
    (featureCase m ctx args).result = .error e ↔ m.FirstRefused (allFlags args) e := by
  rw [featureCase_eq, Traced.result_bind, Outcome.bind_eq_error_iff, judge_eq_error_iff]
  refine or_iff_left ?_
  rintro ⟨judged, -, h⟩
  cases h

/-! ### What is chosen -/

/-- There is a clause at `i`, and its condition holds. -/
def HoldsAt (m : Manifest) (ctx : Context) (args : List Node) (i : Nat) : Prop :=
  ∃ condition form, args[2 * i]? = some condition ∧ args[2 * i + 1]? = some form ∧
    Holds m ctx condition

/-- What the arguments stand for at the version at hand. -/
inductive StandsFor (m : Manifest) (ctx : Context) (args : List Node) : Expansion → Prop where
  /-- The form of the first clause that holds. -/
  | clause {i : Nat} {form : Node} : HoldsAt m ctx args i → (∀ j < i, ¬HoldsAt m ctx args j) →
    args[2 * i + 1]? = some form → StandsFor m ctx args (.single form)
  /-- The odd argument at the end. -/
  | default {form : Node} : (∀ i, ¬HoldsAt m ctx args i) → args.length % 2 = 1 →
    args.getLast? = some form → StandsFor m ctx args (.single form)
  /-- Nothing, where all arguments stand in pairs. -/
  | delete : (∀ i, ¬HoldsAt m ctx args i) → args.length % 2 = 0 → StandsFor m ctx args .delete

/-- A condition without flags never holds. -/
theorem not_holds_of_flags_eq_nil (h : flags condition = []) : ¬Holds m ctx condition := by
  rintro ⟨flag, hflag, -⟩
  rw [h] at hflag
  cases hflag

theorem holdsAt_iff {i : Nat} : HoldsAt m ctx args i ↔
    ∃ c, (Arguments.inPairs args).1[i]? = some c ∧ Holds m ctx c.1 := by
  simp only [HoldsAt, Arguments.getElem?_inPairs, Prod.exists, and_assoc]

theorem isChosen_iff_holdsAt {i : Nat} : IsChosen m ctx (Arguments.inPairs args).1 i ↔
    HoldsAt m ctx args i ∧ ∀ j < i, ¬HoldsAt m ctx args j := by
  simp only [IsChosen, holdsAt_iff, not_exists, not_and]

/-- If a clause holds, there is a first one. -/
theorem exists_isChosen {i : Nat} (h : HoldsAt m ctx args i) :
    ∃ j, IsChosen m ctx (Arguments.inPairs args).1 j := by
  classical
  have hfirst : ∃ j, HoldsAt m ctx args j := ⟨i, h⟩
  refine ⟨Nat.find hfirst, isChosen_iff_holdsAt.2 ⟨Nat.find_spec hfirst, fun j hj => ?_⟩⟩
  exact Nat.find_min hfirst hj

/-- The odd argument is the last one, and there is none if all stand in pairs. -/
theorem standsFor_inPairs_snd (h : ∀ i, ¬HoldsAt m ctx args i) :
    StandsFor m ctx args (((Arguments.inPairs args).2.map Expansion.single).getD .delete) := by
  rw [Arguments.inPairs_snd, Arguments.length_inPairs]
  rcases Nat.mod_two_eq_zero_or_one args.length with heven | hodd
  · rw [List.getElem?_eq_none (by omega)]
    exact .delete h heven
  · have hlast : 2 * (args.length / 2) = args.length - 1 := by omega
    rw [hlast, ← List.getLast?_eq_getElem?]
    cases hform : args.getLast? with
    | none =>
      rw [List.getLast?_eq_none_iff.1 hform] at hodd
      cases hodd
    | some form => exact .default h hodd hform

/-- If all flags are known, a `feature-case` stands for the first clause that holds. -/
theorem exists_featureCase_eq_ok (h : ∀ flag ∈ allFlags args, m.Knows flag) :
    ∃ e, StandsFor m ctx args e ∧ (featureCase m ctx args).result = .ok e := by
  have hclauses : ∀ c ∈ (Arguments.inPairs args).1, ∀ flag ∈ flags c.1, m.Knows flag :=
    fun c hc flag hflag => h flag (List.mem_flatMap.2 ⟨c.1, List.mem_map_of_mem hc, hflag⟩)
  obtain ⟨judged, hjudged⟩ := exists_verdicts m ctx (Arguments.inPairs args).1
  have hpicks := picks_of_verdicts hjudged (Arguments.inPairs args).2
  have hyields : (featureCase m ctx args).Yields (fun _ => True) _ :=
    (yields_featureCase_iff fun _ => trivial).2 ⟨hclauses, _, hpicks, rfl⟩
  refine ⟨_, ?_, hyields.1⟩
  generalize ((judged.find? Prod.fst).map Prod.snd <|> (Arguments.inPairs args).2) = form?
    at hpicks
  cases hpicks with
  | pair hchosen hp =>
    obtain ⟨hholds, hbefore⟩ := isChosen_iff_holdsAt.1 hchosen
    exact .clause hholds hbefore (Arguments.getElem?_inPairs.1 hp).2
  | default hnone =>
    refine standsFor_inPairs_snd fun i hi => ?_
    obtain ⟨j, hj⟩ := exists_isChosen hi
    exact hnone j hj

/-! ### What is recorded -/

/-- The warning about a condition that lists its flags as a sequence. -/
def warnings : Node → List Event
  | .sequence items => [.flagSequence (Node.sequence items).display]
  | _ => []

/-- The conditions that are reached: all of them, or those up to the first one of which a flag is
refused. -/
inductive Reached (m : Manifest) : List Node → List Node → Prop where
  /-- There are no more conditions. -/
  | done : Reached m [] []
  /-- A flag of the first condition is refused. -/
  | stopped {condition : Node} {rest : List Node} : (∃ flag ∈ flags condition, ¬m.Knows flag) →
    Reached m (condition :: rest) [condition]
  /-- All flags of the first condition are known. -/
  | next {condition : Node} {rest reached : List Node} :
    (∀ flag ∈ flags condition, m.Knows flag) → Reached m rest reached →
    Reached m (condition :: rest) (condition :: reached)

theorem events_holds : (holds m ctx condition).events = warnings condition := by
  cases condition <;> rfl

theorem exists_events_judge (m : Manifest) (ctx : Context) (clauses : List (Node × Node)) :
    ∃ reached, Reached m (clauses.map Prod.fst) reached ∧
      (judge m ctx clauses).events = reached.flatMap warnings := by
  induction clauses with
  | nil => exact ⟨[], .done, rfl⟩
  | cons c rest ih =>
    rw [judge_cons, Traced.events_bind, events_holds, result_holds]
    cases hread : anyEnabled m ctx (flags c.1) with
    | error e =>
      have hrefused := Manifest.exists_firstRefused_iff.1 ⟨e, anyEnabled_eq_error_iff.1 hread⟩
      push Not at hrefused
      exact ⟨[c.1], .stopped hrefused, by simp⟩
    | ok held =>
      obtain ⟨reached, hreached, hevents⟩ := ih
      refine ⟨c.1 :: reached, .next (exists_anyEnabled_eq_ok_iff.1 ⟨held, hread⟩) hreached, ?_⟩
      rw [List.flatMap_cons, ← hevents]
      exact congrArg _ (Traced.events_bind_pure _ _)

/-- A `feature-case` records one warning for each sequence among the conditions that it reaches. -/
theorem exists_events_featureCase (m : Manifest) (ctx : Context) (args : List Node) :
    ∃ reached, Reached m (conditions args) reached ∧
      (featureCase m ctx args).events = reached.flatMap warnings := by
  obtain ⟨reached, hreached, hevents⟩ := exists_events_judge m ctx (Arguments.inPairs args).1
  exact ⟨reached, hreached, featureCase_eq ▸ (Traced.events_bind_pure _ _).trans hevents⟩

/-! ### How conditions are written -/

/-- A condition is written in another way: a set of flags as the sequence of its members, or a
sequence of flags as the set filled from it. -/
inductive Respelled : Node → Node → Prop where
  /-- The condition stays as it is. -/
  | same (condition : Node) : Respelled condition condition
  /-- The members of a set become a sequence. -/
  | toSequence (flags : List Node) : Respelled (.set flags) (.sequence flags)
  /-- A set is filled from a sequence. -/
  | toSet (flags : List Node) : Respelled (.sequence flags) (.ofMembers flags)

/-- Some conditions are written in another way, and nothing else changes. -/
inductive RespelledArgs : List Node → List Node → Prop where
  /-- There is no default. -/
  | nil : RespelledArgs [] []
  /-- The default is the same. -/
  | default (form : Node) : RespelledArgs [form] [form]
  /-- A clause keeps its form. -/
  | clause {condition condition' form : Node} {rest rest' : List Node} :
    Respelled condition condition' → RespelledArgs rest rest' →
    RespelledArgs (condition :: form :: rest) (condition' :: form :: rest')

variable {condition' : Node} {args' : List Node}

theorem anyEnabled_ofList : anyEnabled m ctx (Distinct.ofList fs) = anyEnabled m ctx fs := by
  cases hread : anyEnabled m ctx fs with
  | error e =>
    exact anyEnabled_eq_error_iff.2 <|
      Manifest.firstRefused_ofList_iff.2 (anyEnabled_eq_error_iff.1 hread)
  | ok b =>
    obtain ⟨hknown, hb⟩ := anyEnabled_eq_ok_iff.1 hread
    simp only [anyEnabled_eq_ok_iff, Manifest.mem_ofList_iff hknown]
    exact ⟨hknown, hb⟩

theorem Respelled.anyEnabled_eq (h : Respelled condition condition') :
    anyEnabled m ctx (flags condition) = anyEnabled m ctx (flags condition') := by
  cases h with
  | same => rfl
  | toSequence fs => rfl
  | toSet fs => exact anyEnabled_ofList.symm

/-- The same verdicts are given, and the default is the same. -/
theorem RespelledArgs.judge_eq (m : Manifest) (ctx : Context) (h : RespelledArgs args args') :
    (judge m ctx (Arguments.inPairs args).1).result =
        (judge m ctx (Arguments.inPairs args').1).result ∧
      (Arguments.inPairs args).2 = (Arguments.inPairs args').2 := by
  induction h with
  | nil => exact ⟨rfl, rfl⟩
  | default form => exact ⟨rfl, rfl⟩
  | clause hcondition _ ih =>
    refine ⟨?_, ih.2⟩
    rw [Arguments.inPairs, Arguments.inPairs, result_judge_cons, result_judge_cons,
      hcondition.anyEnabled_eq, ih.1]

/-- How conditions are written does not change what a `feature-case` gives, nor how it fails. -/
theorem result_featureCase_of_respelled (h : RespelledArgs args args') :
    (featureCase m ctx args).result = (featureCase m ctx args').result := by
  obtain ⟨hjudge, hdefault⟩ := h.judge_eq m ctx
  rw [featureCase_eq, featureCase_eq, Traced.result_bind, Traced.result_bind, hjudge, hdefault]

/-! ### All of it together -/

/-- A `feature-case` reads all flags and then takes the first match. If a flag of some condition
holds no text or is known to no version, it fails with the error of the first such flag; otherwise
it stands for the form of the first clause that holds, else for the odd argument at the end, else
for nothing, and a condition without flags does not hold. It warns once of each sequence that it
reaches, and apart from these warnings it does not matter which conditions are sequences. -/
theorem featureCase_firstMatch (m : Manifest) (ctx : Context) (args : List Node) :
    ((∃ flag ∈ allFlags args, ¬m.Knows flag) →
      ∃ e, m.FirstRefused (allFlags args) e ∧ (featureCase m ctx args).result = .error e) ∧
    ((∀ flag ∈ allFlags args, m.Knows flag) →
      ∃ e, StandsFor m ctx args e ∧ (featureCase m ctx args).result = .ok e) ∧
    (¬Holds m ctx (.set []) ∧ ¬Holds m ctx (.sequence [])) ∧
    (∀ args', RespelledArgs args args' →
      (featureCase m ctx args).result = (featureCase m ctx args').result) ∧
    ∃ reached, Reached m (conditions args) reached ∧
      (featureCase m ctx args).events = reached.flatMap warnings := by
  refine ⟨fun ⟨flag, hflag, hnot⟩ => ?_, exists_featureCase_eq_ok,
    ⟨not_holds_of_flags_eq_nil rfl, not_holds_of_flags_eq_nil rfl⟩,
    fun args' h => result_featureCase_of_respelled h, exists_events_featureCase m ctx args⟩
  obtain ⟨e, he⟩ := Manifest.exists_firstRefused_iff.2 fun hknown => hnot (hknown flag hflag)
  exact ⟨e, he, featureCase_eq_error_iff.2 he⟩

end FeatureCase

namespace Sample

/-- A manifest with three flags. -/
def shipping : Manifest := .ofList [(⟨"v0"⟩, ["A"]), (⟨"v1"⟩, ["A", "B"]), (⟨"v2"⟩, ["C"])]

/-- Arguments with an unknown flag behind a clause that holds. -/
def lateTypo : List Node := [.str "A", .str "a", .sequence [.str "B", .str "Z"], .str "z"]

/-- Arguments with a default, and with a sequence that lists a flag twice. -/
def casewise : List Node :=
  [.set [], .str "none", .sequence [.str "C", .str "B", .str "C"], .str "bc", .str "A", .str "a",
    .str "else"]

/-- The same arguments with a sequence for the set and a set for the sequence. -/
def casewiseRespelled : List Node :=
  [.sequence [], .str "none", .set [.str "C", .str "B"], .str "bc", .str "A", .str "a",
    .str "else"]

end Sample

theorem FeatureCase.featureCase_firstMatch_second :
    (featureCase Sample.shipping Sample.atSecond Sample.lateTypo).result =
        .error (.unknownFeature "Z") ∧
      Sample.shipping.FirstRefused (allFlags Sample.lateTypo) (.unknownFeature "Z") ∧
      (featureCase Sample.shipping Sample.atSecond Sample.casewise).result =
        .ok (.single (.str "bc")) ∧
      StandsFor Sample.shipping Sample.atSecond Sample.casewise (.single (.str "bc")) ∧
      (featureCase Sample.shipping Sample.atSecond Sample.casewise).events =
        [.flagSequence "[\"C\", \"B\", \"C\"]"] ∧
      (featureCase Sample.shipping Sample.atSecond Sample.casewiseRespelled).result =
        .ok (.single (.str "bc")) := by
  obtain ⟨hfails, -⟩ := featureCase_firstMatch Sample.shipping Sample.atSecond Sample.lateTypo
  obtain ⟨-, hchooses, -, hrespelled, -⟩ :=
    featureCase_firstMatch Sample.shipping Sample.atSecond Sample.casewise
  have hunknown : ¬Sample.shipping.Knows (.str "Z") := by
    rintro ⟨name, htext, hknown⟩
    cases htext
    exact absurd hknown (by decide)
  have hknown : ∀ flag ∈ allFlags Sample.casewise, Sample.shipping.Knows flag := by
    have hknows : ∀ name ∈ ["C", "B", "C", "A"], Sample.shipping.Knows (.str name) :=
      fun name hname => ⟨name, rfl, by revert name; decide⟩
    exact List.forall_mem_map.2 hknows
  have herror : (featureCase Sample.shipping Sample.atSecond Sample.lateTypo).result =
      .error (.unknownFeature "Z") := rfl
  have hvalue : (featureCase Sample.shipping Sample.atSecond Sample.casewise).result =
      .ok (.single (.str "bc")) := rfl
  obtain ⟨e, hfirst, he⟩ := hfails ⟨.str "Z", List.mem_of_getElem? (i := 2) rfl, hunknown⟩
  obtain rfl := Except.error.inj (herror.symm.trans he)
  obtain ⟨expansion, hstands, hexpansion⟩ := hchooses hknown
  obtain rfl := Except.ok.inj (hvalue.symm.trans hexpansion)
  refine ⟨he, hfirst, hexpansion, hstands, by decide, ?_⟩
  rw [← hrespelled Sample.casewiseRespelled, hexpansion]
  exact .clause (.toSequence []) (.clause (.toSet _) (.clause (.same _) (.default _)))

end VersionedTree
