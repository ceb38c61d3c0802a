import VersionedTree.Proofs.VersionByVersion

/-!
# Walks side by side

Walks that are run side by side come to an end in any order. Trees are gathered by the places of
their versions, so the order in which they arrive is not seen. A failure is reported as soon as it
arrives, and the others are given up: where walks fail in different ways, the order decides which
failure it is.

## What is proved

* `gather_eq_error_iff` — a failure that is gathered is the first one to arrive.
* `Compiler.compileArrivingWithin_eq_ok_iff` — the artifact does not depend on the order of arrival.
* `Compiler.exists_arrival_iff` — each walk that fails is reported in some order.
* `Compiler.compile_sideBySide` — how a compilation side by side compares with one that takes one
  version after the other.
* `Compiler.repeats` — what two compilations have in common whose walks arrive in orders of their
  own.
* `Compiler.compile_reportsLaterVersion` — two versions that fail, the second of which is reported.
-/

namespace VersionedTree

/-- Outcomes in the order in which they arrive. -/
def arrived {α : Type} (arrival : List Nat) (outcomes : List α) : List α :=
  arrival.filterMap fun i => outcomes[i]?

/-- The failure at a place, if there is one. -/
def failureAt {ε α : Type} (outcomes : List (Except ε α)) (i : Nat) : Option ε :=
  match outcomes[i]? with
  | some (.error e) => some e
  | _ => none

/-- An order of arrival names every place once. -/
def Arrives (arrival : List Nat) (count : Nat) : Prop := arrival.Perm (List.range count)

/-! ### The first failure -/

namespace Outcome

variable {ε α : Type}

/-- There is a first failure if there is any. -/
theorem exists_firstFailure_iff {outcomes : List (Except ε α)} :
    (∃ e, FirstFailure outcomes e) ↔ ∃ e, .error e ∈ outcomes := by
  constructor
  · rintro ⟨e, before, after, rfl, -⟩
    exact ⟨e, List.mem_append_right _ (List.mem_cons_self ..)⟩
  · rintro ⟨e, he⟩
    cases h : outcomes.mapM id with
    | ok values =>
      obtain ⟨a, ha⟩ := exists_mapM_eq_ok_iff.1 ⟨values, h⟩ _ he
      cases ha
    | error d =>
      have hd := mapM_eq_error_iff.1 h
      rw [List.map_id] at hd
      exact ⟨d, hd⟩

theorem FirstFailure.mem {outcomes : List (Except ε α)} {e : ε} (h : FirstFailure outcomes e) :
    .error e ∈ outcomes := by
  obtain ⟨before, after, rfl, -⟩ := h
  exact List.mem_append_right _ (List.mem_cons_self ..)

end Outcome

/-! ### Gathering -/

section Gather

variable {ε α : Type} {arrival : List Nat} {outcomes : List (Except ε α)}

theorem arrived_range (outcomes : List α) :
    arrived (List.range outcomes.length) outcomes = outcomes := by
  induction outcomes with
  | nil => rfl
  | cons x rest ih =>
    rw [arrived, List.length_cons, List.range_succ_eq_map, List.filterMap_cons, List.filterMap_map]
    exact congrArg (x :: ·) ih

/-- All outcomes arrive. -/
theorem arrived_perm {outcomes : List α} (h : Arrives arrival outcomes.length) :
    (arrived arrival outcomes).Perm outcomes := by
  have hperm := List.Perm.filterMap (fun i => outcomes[i]?) h
  rwa [← arrived, ← arrived, arrived_range] at hperm

/-- Some outcome arrives before all others. -/
theorem exists_arrived_eq_cons {outcomes : List α} {x : α} (h : x ∈ outcomes) :
    ∃ arrival rest, Arrives arrival outcomes.length ∧ arrived arrival outcomes = x :: rest := by
  obtain ⟨i, hi, rfl⟩ := List.mem_iff_getElem.1 h
  have harrives : Arrives (i :: (List.range outcomes.length).erase i) outcomes.length :=
    (List.perm_cons_erase (List.mem_range.2 hi)).symm
  refine ⟨_, arrived ((List.range outcomes.length).erase i) outcomes, harrives, ?_⟩
  rw [arrived, List.filterMap_cons, List.getElem?_eq_getElem hi]
  rfl

theorem gather_eq (arrival : List Nat) (outcomes : List (Except ε α)) :
    gather arrival outcomes = match arrival.findSome? (failureAt outcomes) with
      | some e => .error e
      | none => outcomes.mapM id := rfl

/-- Going through the places in order of arrival finds the first failure to arrive. -/
theorem findSome?_failureAt_eq_some_iff {e : ε} :
    arrival.findSome? (failureAt outcomes) = some e ↔
      Outcome.FirstFailure (arrived arrival outcomes) e := by
  induction arrival with
  | nil => exact iff_of_false (by simp) fun h => List.not_mem_nil h.mem
  | cons i arrival ih =>
    rw [List.findSome?_cons, failureAt, arrived, List.filterMap_cons]
    cases h : outcomes[i]? with
    | none => exact ih
    | some outcome =>
      cases outcome with
      | ok a => exact ih.trans Outcome.firstFailure_ok_cons_iff.symm
      | error d => exact Option.some_inj.trans Outcome.firstFailure_error_cons_iff.symm

/-- A failure that is gathered is the first one to arrive. -/
theorem gather_eq_error_iff (h : Arrives arrival outcomes.length) {e : ε} :
    gather arrival outcomes = .error e ↔ Outcome.FirstFailure (arrived arrival outcomes) e := by
  rw [gather_eq, ← findSome?_failureAt_eq_some_iff]
  cases hfind : arrival.findSome? (failureAt outcomes) with
  | some d => rw [Except.error.injEq, Option.some.injEq]
  | none =>
    -- No failure arrives, and as all outcomes arrive there is none.
    refine iff_of_false (fun he => ?_) (by simp)
    have hfirst := Outcome.mapM_eq_error_iff.1 he
    rw [List.map_id] at hfirst
    obtain ⟨d, hd⟩ := Outcome.exists_firstFailure_iff.2
      ⟨e, (arrived_perm h).mem_iff.2 hfirst.mem⟩
    rw [← findSome?_failureAt_eq_some_iff, hfind] at hd
    cases hd

/-- Errors may be changed before outcomes are gathered, or afterwards. -/
theorem gather_map_mapError {δ : Type} (g : ε → δ) :
    gather arrival (outcomes.map fun x => x.mapError g) = (gather arrival outcomes).mapError g := by
  have hfailure : failureAt (outcomes.map fun x => x.mapError g) =
      Option.map g ∘ failureAt outcomes := by
    funext i
    rw [failureAt, Function.comp_apply, failureAt, List.getElem?_map]
    cases outcomes[i]? with
    | none => rfl
    | some outcome => cases outcome <;> rfl
  rw [gather_eq, gather_eq, hfailure, ← List.map_findSome?, List.mapM_map]
  cases arrival.findSome? (failureAt outcomes) with
  | some e => rfl
  | none => exact Outcome.mapM_mapError g id outcomes

end Gather

/-! ### Compiling -/

namespace Compiler

/-- The compiler with walks side by side, or with one after the other. -/
def withParallel (c : Compiler) (parallel : Bool) : Compiler :=
  { c with settings := { c.settings with parallel } }

/-- How a compilation compares whose walks run side by side and arrive in the given order, with one
that takes one version after the other. -/
structure AgreesSideBySide (c : Compiler) (arrival : List Nat) (bound : Nat) (selector : String)
    (known : KnownVersions) (tree : Node) : Prop where
  /-- They succeed together, with the same artifact. -/
  ok_iff : ∀ a,
    ((c.withParallel true).compileArrivingWithin arrival bound selector known tree).result =
        .ok a ↔
      ((c.withParallel false).compileWithin bound selector known tree).result = .ok a
  /-- What is refused before any walk is refused alike. -/
  refused_iff : ∀ e, (∀ cause, e ≠ .walk cause) →
    (((c.withParallel true).compileArrivingWithin arrival bound selector known tree).result =
        .error e ↔
      ((c.withParallel false).compileWithin bound selector known tree).result = .error e)
  /-- Side by side, the failure is that of the first walk to arrive that fails. -/
  fails_iff : ∀ cause,
    ((c.withParallel true).compileArrivingWithin arrival bound selector known tree).result =
        .error (.walk cause) ↔
      (∃ first, ((c.withParallel false).compileWithin bound selector known tree).result =
        .error (.walk first)) ∧
      Outcome.FirstFailure (arrived arrival (c.outcomes bound (some selector) known tree)) cause
  /-- Where all walks that fail do so in the same way, the outcome is the same. -/
  result_eq : (∀ cause cause', .error cause ∈ c.outcomes bound (some selector) known tree →
      .error cause' ∈ c.outcomes bound (some selector) known tree → cause = cause') →
    ((c.withParallel true).compileArrivingWithin arrival bound selector known tree).result =
      ((c.withParallel false).compileWithin bound selector known tree).result

variable {c : Compiler} {arrival arrival' : List Nat} {bound : Nat} {known : KnownVersions}
  {tree : Node} {selector : String}

theorem length_outcomes (c : Compiler) (bound : Nat) (selector : Option String)
    (known : KnownVersions) (tree : Node) :
    (c.outcomes bound selector known tree).length = known.size := by
  rw [outcomes, List.length_map, Context.length_all]
  rfl

/-- Side by side, the outcomes of all walks are gathered. -/
theorem result_walkAllWithin_sideBySide (hpar : c.settings.parallel = true)
    (contexts : List Context) :
    (c.walkAllWithin arrival bound contexts tree).result =
      (gather arrival (contexts.map fun ctx =>
        (c.resolver.walkWithin bound ctx tree).result)).mapError .walk := by
  rw [walkAllWithin, if_pos hpar, ← gather_map_mapError, List.map_map]
  show gather arrival ((contexts.map _).map Logged.value) = _
  rw [List.map_map]
  rfl

/-- Usable settings play no role in resolving all versions. -/
theorem result_resolveArrivingWithin_eq_map (hpasses : 1 ≤ c.settings.maxPasses)
    (selector : Option String) :
    (c.resolveArrivingWithin arrival bound selector known tree).result =
      (c.walkAllWithin arrival bound (Context.all known selector) tree).result.map
        known.toList.zip := by
  rw [resolveArrivingWithin, Traced.result_bind, result_checkSettings hpasses]
  show (c.walkAllWithin arrival bound _ tree >>= _).result = _
  rw [Traced.result_bind]
  cases (c.walkAllWithin arrival bound (Context.all known selector) tree).result <;> rfl

/-- However the walks are run, the artifact is that of their trees. -/
theorem compileArrivingWithin_eq_ok_iff (hpasses : 1 ≤ c.settings.maxPasses)
    (hne : known.toList ≠ []) {a : Artifact} :
    (c.compileArrivingWithin arrival bound selector known tree).result = .ok a ↔
      ∃ trees, c.outcomes bound (some selector) known tree = trees.map .ok ∧
        a = artifactOf selector known trees := by
  constructor
  · exact fun h => (outcomes_of_compileArrivingWithin h).2
  · rintro ⟨trees, houtcomes, rfl⟩
    apply result_compileArrivingWithin_of_ok hne (length_of_outcomes houtcomes)
    rw [result_resolveArrivingWithin_eq_map hpasses, result_walkAllWithin_of_ok houtcomes]
    rfl

/-- However the walks are run, a failure to compile is a failure of theirs. -/
theorem compileArrivingWithin_eq_error_iff (hpasses : 1 ≤ c.settings.maxPasses)
    (hne : known.toList ≠ []) {e : CompileError} :
    (c.compileArrivingWithin arrival bound selector known tree).result = .error e ↔
      (c.walkAllWithin arrival bound (Context.all known (some selector)) tree).result =
        .error e := by
  have hrows : (c.resolveArrivingWithin arrival bound (some selector) known tree).result = _ :=
    result_resolveArrivingWithin_eq_map hpasses (some selector)
  cases hwalks :
      (c.walkAllWithin arrival bound (Context.all known (some selector)) tree).result with
  | error d =>
    rw [hwalks] at hrows
    rw [result_compileArrivingWithin_of_error hne hrows, Except.error.injEq, Except.error.injEq]
  | ok trees =>
    have hok : (c.compileArrivingWithin arrival bound selector known tree).result = .ok _ :=
      (compileArrivingWithin_eq_ok_iff hpasses hne).2
        ⟨trees, map_walk_of_walkAllWithin hwalks, rfl⟩
    rw [hok]
    exact iff_of_false (by simp) (by simp)

/-- Side by side, a compilation fails with the failure of the first walk to arrive that fails. -/
theorem sideBySide_eq_error_iff (hpasses : 1 ≤ c.settings.maxPasses)
    (hpar : c.settings.parallel = true) (hne : known.toList ≠ [])
    (harrives : Arrives arrival known.size) {e : CompileError} :
    (c.compileArrivingWithin arrival bound selector known tree).result = .error e ↔
      ∃ cause, e = .walk cause ∧ Outcome.FirstFailure
        (arrived arrival (c.outcomes bound (some selector) known tree)) cause := by
  rw [compileArrivingWithin_eq_error_iff hpasses hne, result_walkAllWithin_sideBySide hpar,
    ← outcomes, Outcome.mapError_eq_error_iff]
  refine exists_congr fun cause => ?_
  rw [gather_eq_error_iff (by rwa [length_outcomes]), eq_comm (a := e), and_comm]

/-- Without versions, or with settings that cannot be used, no walk is run. -/
theorem result_compileArrivingWithin_of_refused (h : known.toList = [] ∨ c.settings.maxPasses = 0) :
    (c.compileArrivingWithin arrival bound selector known tree).result =
      .error (if known.toList = [] then .emptyVersionSet selector
        else .settings (.invalidValue "max_passes" "must be at least 1")) := by
  by_cases hnil : known.toList = []
  · rw [result_compileArrivingWithin_of_nil hnil, if_pos hnil]
  · have hzero := h.resolve_left hnil
    rw [if_neg hnil]
    apply result_compileArrivingWithin_of_error hnil
    rw [resolveArrivingWithin, checkSettings, Settings.validate, if_pos hzero]
    rfl

/-- Then it is no walk that fails. -/
theorem result_ne_walk_of_refused (h : known.toList = [] ∨ c.settings.maxPasses = 0)
    (cause : WalkError) :
    (c.compileArrivingWithin arrival bound selector known tree).result ≠ .error (.walk cause) := by
  intro hcause
  rw [result_compileArrivingWithin_of_refused h] at hcause
  split at hcause <;> cases hcause

/-- Where no walk is run, it does not matter how walks are run. -/
theorem agreesSideBySide_of_refused (h : known.toList = [] ∨ c.settings.maxPasses = 0) :
    c.AgreesSideBySide arrival bound selector known tree := by
  have hside : ((c.withParallel true).compileArrivingWithin arrival bound selector known
      tree).result = _ := result_compileArrivingWithin_of_refused h
  have hseq : ((c.withParallel false).compileWithin bound selector known tree).result = _ :=
    result_compileArrivingWithin_of_refused h
  have heq := hside.trans hseq.symm
  have hwalk : ∀ cause,
      ((c.withParallel false).compileWithin bound selector known tree).result ≠
        .error (.walk cause) := result_ne_walk_of_refused (c := c.withParallel false) h
  refine ⟨fun a => ?_, fun e _ => ?_, fun cause => ?_, fun _ => heq⟩
  · rw [heq, compileWithin]
  · rw [heq, compileWithin]
  · rw [heq]
    exact iff_of_false (hwalk cause) fun h => h.1.elim hwalk

/-- Where walks are run, they agree as far as their failures do. -/
theorem agreesSideBySide_of_usable (hne : known.toList ≠ []) (hpasses : 1 ≤ c.settings.maxPasses)
    (harrives : Arrives arrival known.size) :
    c.AgreesSideBySide arrival bound selector known tree := by
  have hok : ∀ a,
      ((c.withParallel true).compileArrivingWithin arrival bound selector known tree).result =
          .ok a ↔
        ((c.withParallel false).compileWithin bound selector known tree).result = .ok a :=
    fun a => (compileArrivingWithin_eq_ok_iff (c := c.withParallel true) hpasses hne).trans
      (compileArrivingWithin_eq_ok_iff (c := c.withParallel false) hpasses hne).symm
  have hside : ∀ e,
      ((c.withParallel true).compileArrivingWithin arrival bound selector known tree).result =
          .error e ↔ ∃ cause, e = .walk cause ∧ Outcome.FirstFailure
            (arrived arrival (c.outcomes bound (some selector) known tree)) cause :=
    fun e => sideBySide_eq_error_iff (c := c.withParallel true) hpasses rfl hne harrives
  have hseq : ∀ e,
      ((c.withParallel false).compileWithin bound selector known tree).result = .error e ↔
        ∃ cause, e = .walk cause ∧
          Outcome.FirstFailure (c.outcomes bound (some selector) known tree) cause :=
    fun e => compile_eq_error_iff (c := c.withParallel false) hpasses rfl hne
  have hmem : ∀ {cause}, .error cause ∈
      arrived arrival (c.outcomes bound (some selector) known tree) ↔
        .error cause ∈ c.outcomes bound (some selector) known tree :=
    (arrived_perm (by rwa [length_outcomes])).mem_iff
  refine ⟨hok, fun e he => ?_, fun cause => ?_, fun hsame => ?_⟩
  · rw [hside, hseq]
    exact iff_of_false (fun ⟨cause, hcause, _⟩ => he cause hcause)
      fun ⟨cause, hcause, _⟩ => he cause hcause
  · rw [hside]
    constructor
    · rintro ⟨_, ⟨⟩, hfirst⟩
      obtain ⟨first, hfirst'⟩ := Outcome.exists_firstFailure_iff.2 ⟨_, hmem.1 hfirst.mem⟩
      exact ⟨⟨first, (hseq _).2 ⟨first, rfl, hfirst'⟩⟩, hfirst⟩
    · exact fun h => ⟨cause, rfl, h.2⟩
  · cases h : ((c.withParallel false).compileWithin bound selector known tree).result with
    | ok a => exact (hok a).2 h
    | error e =>
      obtain ⟨first, rfl, hfirst⟩ := (hseq e).1 h
      obtain ⟨cause, hcause⟩ := Outcome.exists_firstFailure_iff.2 ⟨_, hmem.2 hfirst.mem⟩
      rw [hsame first cause hfirst.mem (hmem.1 hcause.mem)]
      exact (hside _).2 ⟨cause, rfl, hcause⟩

/-- A failure that comes out side by side is that of a walk. -/
theorem mem_outcomes_of_sideBySide {cause : WalkError} (harrives : Arrives arrival known.size)
    (h : ((c.withParallel true).compileArrivingWithin arrival bound selector known tree).result =
      .error (.walk cause)) :
    1 ≤ c.settings.maxPasses ∧ .error cause ∈ c.outcomes bound (some selector) known tree := by
  by_cases hrefused : known.toList = [] ∨ c.settings.maxPasses = 0
  · exact absurd h (result_ne_walk_of_refused (c := c.withParallel true) hrefused cause)
  · obtain ⟨hne, hpasses⟩ := not_or.1 hrefused
    have hpasses := Nat.one_le_iff_ne_zero.2 hpasses
    obtain ⟨_, ⟨⟩, hfirst⟩ :=
      (sideBySide_eq_error_iff (c := c.withParallel true) hpasses rfl hne harrives).1 h
    exact ⟨hpasses, (arrived_perm (by rwa [length_outcomes])).mem_iff.1 hfirst.mem⟩

/-- The failures that come out side by side, in one order of arrival or another, are those of all
walks. -/
theorem exists_arrival_iff {cause : WalkError} :
    (∃ arrival, Arrives arrival known.size ∧
        ((c.withParallel true).compileArrivingWithin arrival bound selector known tree).result =
          .error (.walk cause)) ↔
      1 ≤ c.settings.maxPasses ∧ .error cause ∈ c.outcomes bound (some selector) known tree := by
  constructor
  · rintro ⟨arrival, harrives, h⟩
    exact mem_outcomes_of_sideBySide harrives h
  · rintro ⟨hpasses, hmem⟩
    obtain ⟨arrival, rest, harrives, harrived⟩ := exists_arrived_eq_cons hmem
    rw [length_outcomes] at harrives
    have hne : known.toList ≠ [] := by
      have hpos := List.length_pos_of_mem hmem
      rw [length_outcomes] at hpos
      exact List.ne_nil_of_length_pos hpos
    have hfirst : Outcome.FirstFailure
        (arrived arrival (c.outcomes bound (some selector) known tree)) cause := by
      rw [harrived]
      exact Outcome.firstFailure_error_cons_iff.2 rfl
    exact ⟨arrival, harrives, (sideBySide_eq_error_iff (c := c.withParallel true) hpasses rfl hne
      harrives).2 ⟨cause, rfl, hfirst⟩⟩

/-- A compilation whose walks run side by side succeeds exactly when one does that takes one version
after the other, with the same artifact, in whatever order the walks come to an end. Where some
walks fail both compilations do; side by side, the failure is that of the first walk to arrive, and
so the same one if all walks that fail do so in the same way. Each walk that fails is the first to
arrive in some order. -/
theorem compile_sideBySide (c : Compiler) (bound : Nat) (selector : String) (known : KnownVersions)
    (tree : Node) :
    (∀ arrival, Arrives arrival known.size →
      c.AgreesSideBySide arrival bound selector known tree) ∧
    ∀ cause, (∃ arrival, Arrives arrival known.size ∧
        ((c.withParallel true).compileArrivingWithin arrival bound selector known tree).result =
          .error (.walk cause)) ↔
      1 ≤ c.settings.maxPasses ∧ .error cause ∈ c.outcomes bound (some selector) known tree := by
  refine ⟨fun arrival harrives => ?_, fun cause => exists_arrival_iff⟩
  by_cases h : known.toList = [] ∨ c.settings.maxPasses = 0
  · exact agreesSideBySide_of_refused h
  · obtain ⟨hne, hpasses⟩ := not_or.1 h
    exact agreesSideBySide_of_usable hne (Nat.one_le_iff_ne_zero.2 hpasses) harrives

/-! ### Compiling again -/

/-- What the walks of a compilation give, in the order in which it takes them up: side by side as
they arrive, and otherwise in the order of declaration. -/
def met (c : Compiler) (arrival : List Nat) (bound : Nat) (selector : String)
    (known : KnownVersions) (tree : Node) : List (Except WalkError Node) :=
  if c.settings.parallel then arrived arrival (c.outcomes bound (some selector) known tree)
  else c.outcomes bound (some selector) known tree

/-- How a compilation whose walks arrive in the given order repeats a result that came out before,
where the walks may have arrived in another order. -/
structure Repeats (c : Compiler) (arrival : List Nat) (bound : Nat) (selector : String)
    (known : KnownVersions) (tree : Node) (result : Except CompileError Artifact) : Prop where
  /-- An artifact comes out again. -/
  ok : ∀ a, result = .ok a →
    (c.compileArrivingWithin arrival bound selector known tree).result = .ok a
  /-- What was refused before any walk is refused again. -/
  refused : ∀ e, (∀ cause, e ≠ .walk cause) → result = .error e →
    (c.compileArrivingWithin arrival bound selector known tree).result = .error e
  /-- A walk that failed fails again in the same way, and the failure that comes out is that of the
  first walk to be taken up that fails. -/
  fails : ∀ cause, result = .error (.walk cause) →
    .error cause ∈ c.outcomes bound (some selector) known tree ∧
      ∃ first, Outcome.FirstFailure (c.met arrival bound selector known tree) first ∧
        (c.compileArrivingWithin arrival bound selector known tree).result = .error (.walk first)
  /-- One version after the other, or where all walks that fail do so in the same way, the result is
  the same. -/
  eq : (c.settings.parallel = false ∨
      ∀ cause cause', .error cause ∈ c.outcomes bound (some selector) known tree →
        .error cause' ∈ c.outcomes bound (some selector) known tree → cause = cause') →
    (c.compileArrivingWithin arrival bound selector known tree).result = result

theorem met_of_sequential (hseq : c.settings.parallel = false) :
    c.met arrival bound selector known tree = c.outcomes bound (some selector) known tree := by
  rw [met, hseq, if_neg Bool.false_ne_true]

/-- All walks are taken up. -/
theorem met_perm (harrives : Arrives arrival known.size) :
    (c.met arrival bound selector known tree).Perm
      (c.outcomes bound (some selector) known tree) := by
  unfold met
  split
  · exact arrived_perm (by rwa [length_outcomes])
  · exact List.Perm.refl _

/-- Where a walk fails, some walk that fails is taken up first. -/
theorem exists_firstFailure_met (harrives : Arrives arrival known.size) {cause : WalkError}
    (h : .error cause ∈ c.outcomes bound (some selector) known tree) :
    ∃ first, Outcome.FirstFailure (c.met arrival bound selector known tree) first :=
  Outcome.exists_firstFailure_iff.2 ⟨cause, (met_perm harrives).mem_iff.2 h⟩

/-- However the walks are run, a compilation fails with the failure of the first walk that it takes
up and that fails. -/
theorem compileArrivingWithin_eq_error_iff_met (hpasses : 1 ≤ c.settings.maxPasses)
    (hne : known.toList ≠ []) (harrives : Arrives arrival known.size) {e : CompileError} :
    (c.compileArrivingWithin arrival bound selector known tree).result = .error e ↔
      ∃ cause, e = .walk cause ∧
        Outcome.FirstFailure (c.met arrival bound selector known tree) cause := by
  cases hpar : c.settings.parallel with
  | true =>
    rw [met, if_pos hpar]
    exact sideBySide_eq_error_iff hpasses hpar hne harrives
  | false =>
    rw [met_of_sequential hpar, compileArrivingWithin_eq_error_iff hpasses hne,
      result_walkAllWithin hpar, Outcome.mapError_eq_error_iff]
    refine exists_congr fun cause => ?_
    rw [Outcome.mapM_eq_error_iff, ← outcomes, eq_comm (a := e), and_comm]

/-- What is refused before any walk is refused in the same way again. -/
theorem repeats_of_refused (h : known.toList = [] ∨ c.settings.maxPasses = 0) :
    c.Repeats arrival' bound selector known tree
      (c.compileArrivingWithin arrival bound selector known tree).result := by
  have heq : (c.compileArrivingWithin arrival' bound selector known tree).result =
      (c.compileArrivingWithin arrival bound selector known tree).result :=
    (result_compileArrivingWithin_of_refused h).trans
      (result_compileArrivingWithin_of_refused h).symm
  constructor
  case ok => exact fun a ha => heq.trans ha
  case refused => exact fun e _ he => heq.trans he
  case fails => exact fun cause hcause => absurd hcause (result_ne_walk_of_refused h cause)
  case eq => exact fun _ => heq

/-- Where walks are run, those that fail are the same ones again. -/
theorem repeats_of_usable (hne : known.toList ≠ []) (hpasses : 1 ≤ c.settings.maxPasses)
    (harrives : Arrives arrival known.size) (harrives' : Arrives arrival' known.size) :
    c.Repeats arrival' bound selector known tree
      (c.compileArrivingWithin arrival bound selector known tree).result := by
  have hok : ∀ a, (c.compileArrivingWithin arrival bound selector known tree).result = .ok a →
      (c.compileArrivingWithin arrival' bound selector known tree).result = .ok a :=
    fun a ha => (compileArrivingWithin_eq_ok_iff hpasses hne).2
      ((compileArrivingWithin_eq_ok_iff hpasses hne).1 ha)
  have hcause : ∀ e,
      (c.compileArrivingWithin arrival bound selector known tree).result = .error e →
        ∃ cause, e = .walk cause ∧
          Outcome.FirstFailure (c.met arrival bound selector known tree) cause :=
    fun e => (compileArrivingWithin_eq_error_iff_met hpasses hne harrives).1
  have hagain : ∀ first,
      Outcome.FirstFailure (c.met arrival' bound selector known tree) first →
        (c.compileArrivingWithin arrival' bound selector known tree).result =
          .error (.walk first) :=
    fun first hfirst =>
      (compileArrivingWithin_eq_error_iff_met hpasses hne harrives').2 ⟨first, rfl, hfirst⟩
  have hfails : ∀ cause,
      (c.compileArrivingWithin arrival bound selector known tree).result = .error (.walk cause) →
        .error cause ∈ c.outcomes bound (some selector) known tree ∧
          ∃ first, Outcome.FirstFailure (c.met arrival' bound selector known tree) first ∧
            (c.compileArrivingWithin arrival' bound selector known tree).result =
              .error (.walk first) := by
    intro cause h
    obtain ⟨_, ⟨⟩, hfirst⟩ := hcause _ h
    have hmem := (met_perm harrives).mem_iff.1 hfirst.mem
    obtain ⟨first, hfirst'⟩ := exists_firstFailure_met harrives' hmem
    exact ⟨hmem, first, hfirst', hagain first hfirst'⟩
  constructor
  case ok => exact hok
  case refused =>
    intro e he h
    obtain ⟨cause, rfl, -⟩ := hcause e h
    exact absurd rfl (he cause)
  case fails => exact hfails
  case eq =>
    intro hsame
    cases h : (c.compileArrivingWithin arrival bound selector known tree).result with
    | ok a => exact hok a h
    | error e =>
      obtain ⟨cause, rfl, hfirst⟩ := hcause e h
      rcases hsame with hseq | hsame
      · have hmet : c.met arrival bound selector known tree =
            c.met arrival' bound selector known tree :=
          (met_of_sequential hseq).trans (met_of_sequential hseq).symm
        exact hagain cause (hmet ▸ hfirst)
      · obtain ⟨hmem, first, hfirst', hfailed⟩ := hfails cause h
        rw [hsame cause first hmem ((met_perm harrives').mem_iff.1 hfirst'.mem)]
        exact hfailed

/-- Run again, a compilation repeats its result, whatever the two orders of arrival. -/
theorem repeats (harrives : Arrives arrival known.size) (harrives' : Arrives arrival' known.size) :
    c.Repeats arrival' bound selector known tree
      (c.compileArrivingWithin arrival bound selector known tree).result := by
  by_cases h : known.toList = [] ∨ c.settings.maxPasses = 0
  · exact repeats_of_refused h
  · obtain ⟨hne, hpasses⟩ := not_or.1 h
    exact repeats_of_usable hne (Nat.one_le_iff_ne_zero.2 hpasses) harrives harrives'

end Compiler

/-! ### Two versions that fail -/

namespace Sample

/-- The versions `v0` and `v1`. -/
def twoVersions : KnownVersions := ⟨[⟨"v0"⟩, ⟨"v1"⟩], List.pairwise_pair.2 (by decide)⟩

/-- A compiler whose only qualifier fails and names the version. -/
def failing : Compiler := ⟨Table.ofList [(⟨"fail"⟩, .silent fail)], {}⟩

/-- An item that resolves for no version. -/
def unresolvable : Node := .sequence [.invocation ⟨"fail"⟩ []]

/-- The error of the item for a version. -/
def refusalAt (version : String) : WalkError :=
  .resolve (.qualifier ⟨"fail"⟩ ⟨version⟩ (.invalidArguments ("fail/0 at " ++ version)))

end Sample

namespace Compiler

theorem compile_sideBySide_failing :
    AgreesSideBySide Sample.failing [1, 0] 1 "api" Sample.twoVersions Sample.unresolvable ∧
      ((Sample.failing.withParallel true).compileArrivingWithin [1, 0] 1 "api" Sample.twoVersions
        Sample.unresolvable).result = .error (.walk (Sample.refusalAt "v1")) ∧
      ∃ arrival, Arrives arrival 2 ∧
        ((Sample.failing.withParallel true).compileArrivingWithin arrival 1 "api" Sample.twoVersions
          Sample.unresolvable).result = .error (.walk (Sample.refusalAt "v0")) := by
  obtain ⟨hagrees, hreported⟩ := compile_sideBySide Sample.failing 1 "api" Sample.twoVersions
    Sample.unresolvable
  have houtcomes : Sample.failing.outcomes 1 (some "api") Sample.twoVersions Sample.unresolvable =
      [.error (Sample.refusalAt "v0"), .error (Sample.refusalAt "v1")] := rfl
  have hswapped := hagrees [1, 0] (List.Perm.swap 0 1 [])
  refine ⟨hswapped, ?_, (hreported (Sample.refusalAt "v0")).2 ⟨by decide, ?_⟩⟩
  · refine (hswapped.fails_iff _).2 ⟨⟨Sample.refusalAt "v0", rfl⟩, ?_⟩
    rw [houtcomes]
    exact Outcome.firstFailure_error_cons_iff.2 rfl
  · rw [houtcomes]
    exact List.mem_cons_self ..

/-- Two versions fail, each with an error that names it. If the walk of the second one comes to an
end first, its error is reported, and the one of the first version if the walks are not run side by
side. -/
theorem compile_reportsLaterVersion :
    Arrives [1, 0] Sample.twoVersions.size ∧
      ((Sample.failing.withParallel true).compileArrivingWithin [1, 0] 1 "api" Sample.twoVersions
        Sample.unresolvable).result = .error (.walk (Sample.refusalAt "v1")) ∧
      ((Sample.failing.withParallel false).compileWithin 1 "api" Sample.twoVersions
        Sample.unresolvable).result = .error (.walk (Sample.refusalAt "v0")) ∧
      (CompileError.walk (Sample.refusalAt "v1")).message ≠
        (CompileError.walk (Sample.refusalAt "v0")).message :=
  ⟨List.Perm.swap 0 1 [], rfl, rfl, by decide⟩

end Compiler

end VersionedTree
