import VersionedTree.Proofs.Walking
import VersionedTree.Qualifier.Sample
import VersionedTree.Qualifier.Standard

/-!
# What bundled qualifiers return

Bundled qualifiers choose among what they are given: every form that one returns is an argument, or
a value of a mapping that is an argument.

## What is proved

* `Standard.entries_registry` — what a registry of bundled qualifiers holds.
* `Standard.forall_registry` — a property of each bundled qualifier is one of all registered ones.
* `Standard.inward_registry` — bundled qualifiers return arguments or what is inside of arguments.
* `Sample.inward_when`, `Sample.inward_since`, `Sample.inward_splice`, `Sample.inward_drop` — so do
  some of the small qualifiers.
-/

namespace VersionedTree

/-! ### Reading arguments -/

namespace Arguments

theorem headAndForms_eq_ok_iff {usage : String} {args forms : List Node} {head : Node} :
    headAndForms usage args = .ok (head, forms) ↔ args = head :: forms := by
  cases args with
  | nil => simp [headAndForms]
  | cons a rest => simp [headAndForms]

/-- Arguments in pairs are arguments. -/
theorem mem_of_mem_inPairs {args : List Node} {p : Node × Node} (h : p ∈ (inPairs args).1) :
    p.1 ∈ args ∧ p.2 ∈ args := by
  induction args using inPairs.induct with
  | case1 a b rest ih =>
    rw [inPairs] at h
    rcases List.mem_cons.1 h with rfl | h
    · simp
    · obtain ⟨h₁, h₂⟩ := ih h
      exact ⟨by simp [h₁], by simp [h₂]⟩
  | case2 a => simp [inPairs] at h
  | case3 => simp [inPairs] at h

/-- The odd argument at the end is an argument. -/
theorem mem_of_inPairs_snd {args : List Node} {a : Node} (h : (inPairs args).2 = some a) :
    a ∈ args := by
  induction args using inPairs.induct with
  | case1 b c rest ih =>
    rw [inPairs] at h
    simp [ih h]
  | case2 b =>
    rw [inPairs, Option.some.injEq] at h
    simp [h]
  | case3 => simp [inPairs] at h

end Arguments

theorem Expansion.includeIf_eq_forms_iff {condition : Bool} {forms nodes : List Node} :
    includeIf condition forms = .forms nodes ↔ condition = true ∧ forms = nodes := by
  cases condition <;> simp [includeIf]

/-! ### Each bundled qualifier -/

/-- A qualifier that returns arguments only is inward. -/
theorem Qualifier.inward_of_mem_args {q : Qualifier} (h : q.Returns fun args n => n ∈ args) :
    q.Inward := by
  intro ctx args nodes hnodes n hn
  exact ⟨n, h ctx args nodes hnodes n hn, n.self_mem_subnodes⟩

/-- A qualifier under a condition returns its arguments after the first. -/
theorem Inclusion.inward_includeWhen {usage : String}
    {test : Context → Node → Except QualifierError Bool} :
    (Qualifier.silent (includeWhen usage test)).Inward := by
  apply Qualifier.inward_of_mem_args
  intro ctx args nodes h
  obtain ⟨⟨condition, forms⟩, hargs, h⟩ := Outcome.bind_eq_ok_iff.1 h
  obtain ⟨holds, -, h⟩ := Outcome.bind_eq_ok_iff.1 h
  obtain ⟨-, rfl⟩ := Expansion.includeIf_eq_forms_iff.1 (Except.ok.inj h)
  rw [Arguments.headAndForms_eq_ok_iff.1 hargs]
  intro n hn
  exact List.mem_cons_of_mem _ hn

/-- A clause of a `switch` holds a value of the mapping. -/
theorem Switch.exists_of_mem_clauses {pairs : List (Node × Node)} {read : List (Version × Node)}
    {clause : Version × Node} (h : clauses pairs = .ok read) (hclause : clause ∈ read) :
    ∃ p ∈ pairs, p.2 = clause.2 := by
  obtain ⟨p, hp, h⟩ := Outcome.exists_of_mem_mapM h hclause
  obtain ⟨v, -, hv⟩ := Outcome.bind_eq_ok_iff.1 h
  cases hv
  exact ⟨p, hp, rfl⟩

/-- A `switch` returns a value of its mapping. -/
theorem Switch.inward_switch : (Qualifier.silent switch).Inward := by
  intro ctx args nodes h
  change switch ctx args = .ok (.forms nodes) at h
  unfold switch at h
  split at h
  · rename_i pairs
    obtain ⟨read, hread, h⟩ := Outcome.bind_eq_ok_iff.1 h
    unfold choose at h
    dsimp only at h
    split at h
    · rename_i form hlookup _ _ _
      cases h
      intro n hn
      rw [List.mem_singleton.1 hn]
      obtain ⟨before, after, hsplit, -⟩ := List.lookup_eq_some_iff.1 hlookup
      have hclause : (ctx.version, form) ∈ read := by simp [hsplit]
      obtain ⟨p, hp, hform⟩ := exists_of_mem_clauses hread hclause
      refine ⟨.mapping pairs, List.mem_cons_self .., Node.mem_subnodes_of_mem_parts ?_⟩
      exact Node.mem_parts_mapping.2 ⟨p, hp, .inr hform.symm⟩
    · cases h
  · cases h

namespace ChangeLog

/-- Going through entries of a log, the best one so far is always an entry of it. -/
theorem mem_of_foldl_inForce {current : Nat} {log rest : List (Nat × Node)}
    {best : Option (Nat × Node)} (hbest : ∀ e, best = some e → e ∈ log)
    (hrest : ∀ e ∈ rest, e ∈ log) {entry : Nat × Node}
    (h : rest.foldl (fun best entry =>
      if entry.1 ≤ current ∧ best.all (fun b => b.1 ≤ entry.1) then some entry else best) best
        = some entry) : entry ∈ log := by
  induction rest generalizing best with
  | nil => exact hbest entry h
  | cons first rest ih =>
    refine ih (fun e he => ?_) (fun e he => hrest e (List.mem_cons_of_mem _ he)) h
    dsimp only at he
    split at he
    · cases he
      exact hrest _ (List.mem_cons_self ..)
    · exact hbest e he

/-- The entry in force is an entry of the log. -/
theorem mem_of_inForce {current : Nat} {log : List (Nat × Node)} {entry : Nat × Node}
    (h : inForce current log = some entry) : entry ∈ log :=
  mem_of_foldl_inForce (fun e he => by cases he) (fun e he => he) h

/-- An entry of the log holds the place of a version of the arguments, and the form beside it. -/
theorem exists_of_mem_entries {ctx : Context} {pairs : List (Node × Node)}
    {log : List (Nat × Node)} {entry : Nat × Node} (h : entries ctx pairs = .ok log)
    (hentry : entry ∈ log) :
    ∃ p ∈ pairs, Arguments.knownPosition ctx p.1 = .ok entry.1 ∧ p.2 = entry.2 := by
  obtain ⟨p, hp, h⟩ := Outcome.exists_of_mem_mapM h hentry
  obtain ⟨position, hposition, h⟩ := Outcome.bind_eq_ok_iff.1 h
  cases h
  exact ⟨p, hp, hposition, rfl⟩

/-- A `changed` returns the base or a form of the log. -/
theorem inward_changed : (Qualifier.silent changed).Inward := by
  apply Qualifier.inward_of_mem_args
  intro ctx args nodes h
  obtain ⟨⟨base, log⟩, hargs, h⟩ := Outcome.bind_eq_ok_iff.1 h
  rw [Arguments.headAndForms_eq_ok_iff.1 hargs]
  dsimp only at h
  split at h
  · cases h
  · rename_i pairs hpairs
    obtain ⟨read, hread, h⟩ := Outcome.bind_eq_ok_iff.1 h
    split at h
    · rename_i entry hentry
      cases h
      intro n hn
      obtain ⟨p, hp, -, hform⟩ := exists_of_mem_entries hread (mem_of_inForce hentry)
      have hlog : p ∈ (Arguments.inPairs log).1 := by rw [hpairs]; exact hp
      rw [List.mem_singleton.1 hn, ← hform]
      exact List.mem_cons_of_mem _ (Arguments.mem_of_mem_inPairs hlog).2
    · cases h
      intro n hn
      rw [List.mem_singleton.1 hn]
      exact List.mem_cons_self ..

end ChangeLog

/-- A `feature-case` returns the form of a clause or the default. -/
theorem FeatureCase.inward_featureCase (m : Manifest) : (featureCase m).Inward := by
  apply Qualifier.inward_of_mem_args
  intro ctx args nodes h
  unfold featureCase at h
  dsimp only at h
  rw [Traced.result_bind, Traced.result_mapM] at h
  obtain ⟨judged, hjudged, h⟩ := Outcome.bind_eq_ok_iff.1 h
  split at h
  · rename_i form hform
    cases h
    intro n hn
    rw [List.mem_singleton.1 hn]
    rw [Option.orElse_eq_orElse, Option.orElse_eq_or] at hform
    rcases Option.or_eq_some_iff.1 hform with hfound | ⟨-, hdefault⟩
    · obtain ⟨clause, hclause, rfl⟩ := Option.map_eq_some_iff.1 hfound
      obtain ⟨p, hp, hheld⟩ :=
        Outcome.exists_of_mem_mapM hjudged (List.mem_of_find?_eq_some hclause)
      rw [Traced.result_bind] at hheld
      obtain ⟨held, -, hheld⟩ := Outcome.bind_eq_ok_iff.1 hheld
      cases hheld
      exact (Arguments.mem_of_mem_inPairs hp).2
    · exact Arguments.mem_of_inPairs_snd hdefault
  · cases h

/-! ### The small qualifiers -/

namespace Sample

/-- The forms after a version are arguments. -/
theorem mem_of_versionAndForms {args : List Node} {v : Version} {forms : List Node}
    (h : versionAndForms args = .ok (v, forms)) : ∀ n ∈ forms, n ∈ args := by
  cases args with
  | nil => cases h
  | cons head rest =>
    simp only [versionAndForms] at h
    split at h
    · cases h
      intro n hn
      exact List.mem_cons_of_mem _ hn
    · cases h

theorem inward_when : (Qualifier.silent when).Inward := by
  apply Qualifier.inward_of_mem_args
  intro ctx args nodes h
  obtain ⟨⟨v, forms⟩, hargs, h⟩ := Outcome.bind_eq_ok_iff.1 h
  obtain ⟨-, rfl⟩ := Expansion.includeIf_eq_forms_iff.1 (Except.ok.inj h)
  exact mem_of_versionAndForms hargs

theorem inward_since : (Qualifier.silent since).Inward := by
  apply Qualifier.inward_of_mem_args
  intro ctx args nodes h
  obtain ⟨⟨v, forms⟩, hargs, h⟩ := Outcome.bind_eq_ok_iff.1 h
  dsimp only at h
  split at h
  · obtain ⟨-, rfl⟩ := Expansion.includeIf_eq_forms_iff.1 (Except.ok.inj h)
    exact mem_of_versionAndForms hargs
  · cases h

theorem inward_splice : (Qualifier.silent splice).Inward := by
  apply Qualifier.inward_of_mem_args
  intro ctx args nodes h n hn
  cases h
  exact hn

theorem inward_drop : (Qualifier.silent drop).Inward := by
  intro ctx args nodes h
  cases h

/-- Some of the small qualifiers return arguments. -/
theorem inward_small : ∀ q ∈ [Qualifier.silent when, Qualifier.silent since,
    Qualifier.silent splice, Qualifier.silent drop], q.Inward := by
  simp only [List.forall_mem_cons, List.not_mem_nil, false_implies, implies_true, and_true]
  exact ⟨inward_when, inward_since, inward_splice, inward_drop⟩

end Sample

/-! ### Registries of bundled qualifiers -/

namespace Standard

/-- Each bundled qualifier returns arguments or what is inside of arguments. -/
theorem inward_bundled (m : Manifest) :
    ∀ q ∈ [only, added, removed, switch, changed, feature m, featureCase m], q.Inward := by
  simp only [List.forall_mem_cons, List.not_mem_nil, false_implies, implies_true, and_true]
  exact ⟨Inclusion.inward_includeWhen, Inclusion.inward_includeWhen, Inclusion.inward_includeWhen,
    Switch.inward_switch, ChangeLog.inward_changed, Inclusion.inward_includeWhen,
    FeatureCase.inward_featureCase m⟩

/-- The bundled qualifiers with their tags, in the order in which they are registered. -/
def bundle (m? : Option Manifest) : List (Tag × Qualifier) :=
  [(onlyTag, only), (addedTag, added), (removedTag, removed), (switchTag, switch),
    (changedTag, changed)] ++
    match m? with
    | some m => [(featureTag, feature m), (featureCaseTag, featureCase m)]
    | none => []

theorem entries_registry (m? : Option Manifest) : (registry m?).value.entries = bundle m? := by
  cases m? <;> rfl

/-- A property of each bundled qualifier is one of all registered ones, where the last two are
registered over the manifest that is given. -/
theorem forall_registry_over {P : Tag → Qualifier → Prop} {m? : Option Manifest}
    (honly : P onlyTag only) (hadded : P addedTag added) (hremoved : P removedTag removed)
    (hswitch : P switchTag switch) (hchanged : P changedTag changed)
    (hfeature : ∀ m, m? = some m → P featureTag (feature m))
    (hcase : ∀ m, m? = some m → P featureCaseTag (featureCase m))
    {tag : Tag} {q : Qualifier} (h : (registry m?).value.get? tag = some q) : P tag q := by
  have hmem : (tag, q) ∈ bundle m? := entries_registry m? ▸ Table.get?_eq_some_iff.1 h
  rcases List.mem_append.1 hmem with hmem | hmem
  · simp only [List.mem_cons, List.not_mem_nil, or_false, Prod.mk.injEq] at hmem
    rcases hmem with ⟨rfl, rfl⟩ | ⟨rfl, rfl⟩ | ⟨rfl, rfl⟩ | ⟨rfl, rfl⟩ | ⟨rfl, rfl⟩ <;> assumption
  · cases m? with
    | none => cases hmem
    | some m =>
      simp only [List.mem_cons, List.not_mem_nil, or_false, Prod.mk.injEq] at hmem
      rcases hmem with ⟨rfl, rfl⟩ | ⟨rfl, rfl⟩
      · exact hfeature m rfl
      · exact hcase m rfl

/-- A property of each bundled qualifier is one of all registered ones. -/
theorem forall_registry {P : Tag → Qualifier → Prop} {m? : Option Manifest}
    (honly : P onlyTag only) (hadded : P addedTag added) (hremoved : P removedTag removed)
    (hswitch : P switchTag switch) (hchanged : P changedTag changed)
    (hfeature : ∀ m, P featureTag (feature m)) (hcase : ∀ m, P featureCaseTag (featureCase m))
    {tag : Tag} {q : Qualifier} (h : (registry m?).value.get? tag = some q) : P tag q :=
  forall_registry_over honly hadded hremoved hswitch hchanged (fun m _ => hfeature m)
    (fun m _ => hcase m) h

/-- Bundled qualifiers return arguments or what is inside of arguments. -/
theorem inward_registry (m? : Option Manifest) : (registry m?).value.Inward := fun _ _ h =>
  forall_registry (P := fun _ q => q.Inward) Inclusion.inward_includeWhen
    Inclusion.inward_includeWhen Inclusion.inward_includeWhen Switch.inward_switch
    ChangeLog.inward_changed (fun _ => Inclusion.inward_includeWhen)
    FeatureCase.inward_featureCase h

end Standard

/-! ### A small tree -/

namespace Sample

/-- The versions `v0`, `v1` and `v2`. -/
def threeVersions : KnownVersions := ⟨[⟨"v0"⟩, ⟨"v1"⟩, ⟨"v2"⟩], by decide⟩

/-- `v1`, the second of three versions. -/
def atSecond : Context := ⟨threeVersions, ⟨"v1"⟩, 1, rfl, none⟩

/-- An invocation that comes back as an invocation, and stands for `y` from `v1` on. -/
def nested : Node :=
  .invocation Standard.addedTag [.str "v0", .invocation Standard.addedTag [.str "v1", .str "y"]]

/-- A list that is empty at `v0` and holds `y` from `v1` on. -/
def growing : Node := .sequence [nested]

theorem wellFormed_nested : nested.WellFormed := ⟨trivial, ⟨trivial, trivial, trivial⟩, trivial⟩

theorem wellFormed_growing : growing.WellFormed := ⟨wellFormed_nested, trivial⟩

end Sample

end VersionedTree
