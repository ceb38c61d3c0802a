import VersionedTree.Proofs.Bundled
import VersionedTree.Proofs.Success

/-!
# When bundled qualifiers succeed

For each bundled qualifier the arguments that it accepts, and the form that it then stands for, said
without the way in which it finds it: a condition names a version or a flag, a log has a latest
entry, the clauses of a `switch` name the known versions in some order, and of several clauses that
hold the first one counts.

## What is proved

* `Inclusion.includeWhen_eq_ok_iff`, with a rule for each of the four conditions.
* `ChangeLog.changed_eq_ok_iff`
* `Switch.switch_eq_ok_iff`
* `FeatureCase.yields_featureCase_iff`
-/

namespace VersionedTree

/-- The place, among the known versions, of the version that a node names. -/
def Context.placeOf? (ctx : Context) (n : Node) : Option Nat :=
  (Version.ofNode? n).bind ctx.position?

/-- A node names a flag that some version ships. -/
def Manifest.Knows (m : Manifest) (n : Node) : Prop :=
  ∃ flag, n.text? = some flag ∧ m.isKnownFlag flag = true

/-- A node names a flag that the version at hand ships. -/
def Manifest.Enables (m : Manifest) (ctx : Context) (n : Node) : Prop :=
  ∃ flag, n.text? = some flag ∧ m.isEnabled ctx.version flag = true

/-- A qualifier that records nothing yields what its function gives. -/
theorem Qualifier.yields_silent_iff {f : Context → List Node → Except QualifierError Expansion}
    {permitted : Event → Prop} {ctx : Context} {args : List Node} {e : Expansion} :
    (silent f ctx args).Yields permitted e ↔ f ctx args = .ok e :=
  and_iff_left fun d hd => by cases hd

/-! ### Reading arguments -/

namespace Arguments

theorem version_eq_ok_iff {n : Node} {v : Version} :
    version n = .ok v ↔ Version.ofNode? n = some v := by
  unfold version
  cases Version.ofNode? n <;> simp

theorem knownPosition_eq_ok_iff {ctx : Context} {n : Node} {k : Nat} :
    knownPosition ctx n = .ok k ↔ ctx.placeOf? n = some k := by
  unfold knownPosition Context.placeOf?
  rw [Outcome.bind_eq_ok_iff, Option.bind_eq_some_iff]
  refine exists_congr fun v => and_congr version_eq_ok_iff ?_
  cases ctx.position? v <;> simp

theorem knownFlag_eq_ok_iff {m : Manifest} {n : Node} {flag : String} :
    knownFlag m n = .ok flag ↔ n.text? = some flag ∧ m.isKnownFlag flag = true := by
  unfold knownFlag
  cases n.text? with
  | none => simp
  | some name =>
    by_cases hknown : m.isKnownFlag name = true
    · simp only [hknown, if_true, Except.ok.injEq, Option.some.injEq]
      constructor
      · rintro rfl
        exact ⟨rfl, hknown⟩
      · exact And.left
    · simp only [hknown, Bool.false_eq_true, if_false, reduceCtorEq, Option.some.injEq, false_iff,
        not_and]
      rintro rfl
      exact hknown

/-- A list of things is read, and one of them is looked for: each has to be readable. -/
theorem mapM_any_eq_ok_iff {ε α : Type} {read : Node → Except ε α} {p : α → Bool}
    {items : List Node} {b : Bool} :
    (do let values ← items.mapM read
        return values.any p) = Except.ok b ↔
      (∀ n ∈ items, ∃ a, read n = .ok a) ∧
        (b = true ↔ ∃ n ∈ items, ∃ a, read n = .ok a ∧ p a = true) := by
  rw [← Outcome.exists_mapM_eq_ok_iff, Outcome.bind_eq_ok_iff]
  have hany : ∀ {values : List α}, items.mapM read = .ok values →
      (values.any p = true ↔ ∃ n ∈ items, ∃ a, read n = .ok a ∧ p a = true) := by
    intro values h
    have hvalues := Outcome.mapM_eq_ok_iff_forall₂.1 h
    rw [List.any_eq_true]
    constructor
    · rintro ⟨a, ha, hp⟩
      obtain ⟨n, hn, hread⟩ := Outcome.exists_of_mem_mapM h ha
      exact ⟨n, hn, a, hread, hp⟩
    · rintro ⟨n, hn, a, hread, hp⟩
      obtain ⟨a', ha', hread'⟩ := exists_mem_right_of_forall₂ hvalues hn
      rw [hread] at hread'
      cases hread'
      exact ⟨a, ha', hp⟩
  constructor
  · rintro ⟨values, hvalues, hb⟩
    cases hb
    exact ⟨⟨values, hvalues⟩, hany hvalues⟩
  · rintro ⟨⟨values, hvalues⟩, hb⟩
    refine ⟨values, hvalues, ?_⟩
    rw [Bool.eq_iff_iff.2 (hb.trans (hany hvalues).symm)]
    rfl

/-- Pairs are read by their first parts, and keep the second ones. -/
theorem mapM_fst_eq_ok_iff {ε α : Type} {read : Node → Except ε α} {pairs : List (Node × Node)}
    {values : List (α × Node)} :
    (pairs.mapM fun pair => do
      let a ← read pair.1
      return (a, pair.2)) = .ok values ↔
        List.Forall₂ (fun p value => read p.1 = .ok value.1 ∧ p.2 = value.2) pairs values := by
  have hpair : ∀ (p : Node × Node) (value : α × Node),
      (do let a ← read p.1
          return (a, p.2)) = Except.ok value ↔ read p.1 = .ok value.1 ∧ p.2 = value.2 := by
    rintro ⟨head, form⟩ ⟨a, form'⟩
    rw [Outcome.bind_eq_ok_iff]
    constructor
    · rintro ⟨a', ha, h⟩
      cases h
      exact ⟨ha, rfl⟩
    · rintro ⟨ha, rfl⟩
      exact ⟨a, ha, rfl⟩
  rw [Outcome.mapM_eq_ok_iff_forall₂]
  simp only [hpair]

/-- The pairs are made of the arguments two by two. -/
theorem getElem?_inPairs {args : List Node} {i : Nat} {p : Node × Node} :
    (inPairs args).1[i]? = some p ↔ args[2 * i]? = some p.1 ∧ args[2 * i + 1]? = some p.2 := by
  induction args using inPairs.induct generalizing i with
  | case1 a b rest ih =>
    rw [inPairs]
    cases i with
    | zero =>
      obtain ⟨k, v⟩ := p
      simp
    | succ i =>
      have hi : 2 * (i + 1) = 2 * i + 1 + 1 := by omega
      rw [hi]
      simpa using ih
  | case2 a => cases i <;> simp [inPairs]
  | case3 => simp [inPairs]

/-- There is an odd argument at the end if the number of arguments is odd. -/
theorem inPairs_snd (args : List Node) :
    (inPairs args).2 = args[2 * (inPairs args).1.length]? := by
  induction args using inPairs.induct with
  | case1 a b rest ih =>
    have hlen : 2 * ((inPairs rest).1.length + 1) = 2 * (inPairs rest).1.length + 1 + 1 := by omega
    rw [inPairs, List.length_cons, hlen, ih]
    rfl
  | case2 a => rfl
  | case3 => rfl

theorem length_inPairs (args : List Node) : (inPairs args).1.length = args.length / 2 := by
  induction args using inPairs.induct with
  | case1 a b rest ih =>
    rw [inPairs, List.length_cons, ih, List.length_cons, List.length_cons]
    omega
  | case2 a => simp [inPairs]
  | case3 => rfl

/-- Of the forms of some pairs the one is picked whose place is selected, and the default if no
place is. -/
inductive Picks (selected : Nat → Prop) (pairs : List (Node × Node)) (default? : Option Node) :
    Option Node → Prop where
  /-- The form of the pair at the selected place. -/
  | pair {i : Nat} {p : Node × Node} : selected i → pairs[i]? = some p →
    Picks selected pairs default? (some p.2)
  /-- The default. -/
  | default : (∀ i, ¬selected i) → Picks selected pairs default? default?

/-- Where at most one place is selected, one thing is picked. -/
theorem Picks.unique {selected : Nat → Prop} {pairs : List (Node × Node)}
    {default? answer? answer'? : Option Node}
    (hselected : ∀ i j, selected i → selected j → i = j)
    (h : Picks selected pairs default? answer?) (h' : Picks selected pairs default? answer'?) :
    answer? = answer'? := by
  cases h with
  | pair hi hp =>
    cases h' with
    | pair hj hq =>
      rw [hselected _ _ hi hj, hq, Option.some.injEq] at hp
      rw [hp]
    | default hnot => exact absurd hi (hnot _)
  | default hnot =>
    cases h' with
    | pair hj _ => exact absurd hj (hnot _)
    | default _ => rfl

end Arguments

/-! ### Forms under a condition -/

namespace Inclusion

variable {ctx : Context} {n : Node} {b : Bool}

theorem includeWhen_eq_ok_iff {usage : String} {test : Context → Node → Except QualifierError Bool}
    {args : List Node} {e : Expansion} :
    includeWhen usage test ctx args = .ok e ↔ ∃ condition forms b, args = condition :: forms ∧
      test ctx condition = .ok b ∧ e = .includeIf b forms := by
  unfold includeWhen
  rw [Outcome.bind_eq_ok_iff]
  constructor
  · rintro ⟨⟨condition, forms⟩, hargs, h⟩
    obtain ⟨b, hb, h⟩ := Outcome.bind_eq_ok_iff.1 h
    exact ⟨condition, forms, b, Arguments.headAndForms_eq_ok_iff.1 hargs, hb,
      (Except.ok.inj h).symm⟩
  · rintro ⟨condition, forms, b, rfl, hb, rfl⟩
    exact ⟨(condition, forms), rfl, Outcome.bind_eq_ok_iff.2 ⟨b, hb, rfl⟩⟩

theorem members_eq_ok_iff {items : List Node} :
    members n = .ok items ↔ n = .set items ∨ n = .sequence items := by
  cases n <;> simp [members]

/-- `only` asks whether a member of a list of versions names the version at hand. -/
theorem isMember_eq_ok_iff :
    isMember ctx n = .ok b ↔ ∃ items, (n = .set items ∨ n = .sequence items) ∧
      (∀ item ∈ items, ∃ v, Version.ofNode? item = some v) ∧
      (b = true ↔ ∃ item ∈ items, Version.ofNode? item = some ctx.version) := by
  unfold isMember
  rw [Outcome.bind_eq_ok_iff]
  refine exists_congr fun items => and_congr members_eq_ok_iff ?_
  rw [Arguments.mapM_any_eq_ok_iff]
  simp only [Arguments.version_eq_ok_iff, Context.isAt, beq_iff_eq, exists_eq_right']

/-- `added` asks for a known version that the version at hand does not precede. -/
theorem isSince_eq_ok_iff :
    isSince ctx n = .ok b ↔ ∃ k, ctx.placeOf? n = some k ∧ b = decide (k ≤ ctx.position) := by
  unfold isSince
  rw [Outcome.bind_eq_ok_iff]
  refine exists_congr fun k => and_congr Arguments.knownPosition_eq_ok_iff ?_
  rw [eq_comm (a := b)]
  exact Except.ok.injEq .. |>.to_iff

/-- `removed` asks for a known version that the version at hand precedes. -/
theorem isBefore_eq_ok_iff :
    isBefore ctx n = .ok b ↔ ∃ k, ctx.placeOf? n = some k ∧ b = decide (ctx.position < k) := by
  unfold isBefore
  rw [Outcome.bind_eq_ok_iff]
  refine exists_congr fun k => and_congr Arguments.knownPosition_eq_ok_iff ?_
  rw [eq_comm (a := b)]
  exact Except.ok.injEq .. |>.to_iff

/-- `feature` asks for a flag of the version at hand. -/
theorem isShipped_eq_ok_iff {m : Manifest} :
    isShipped m ctx n = .ok b ↔ m.Knows n ∧ (b = true ↔ m.Enables ctx n) := by
  unfold isShipped Manifest.Knows Manifest.Enables
  rw [Outcome.bind_eq_ok_iff]
  constructor
  · rintro ⟨flag, hflag, hb⟩
    cases hb
    have htext := Arguments.knownFlag_eq_ok_iff.1 hflag
    exact ⟨⟨flag, htext⟩, by simp [htext.1]⟩
  · rintro ⟨⟨flag, htext⟩, hb⟩
    refine ⟨flag, Arguments.knownFlag_eq_ok_iff.2 htext, congrArg Except.ok ?_⟩
    rw [Bool.eq_iff_iff, hb]
    simp [htext.1]

end Inclusion

/-! ### The form in force -/

namespace ChangeLog

/-- Of the places at or before the current one, the one at `i` is the latest, and of several latest
ones the last. -/
def Latest (current : Nat) (place : Nat → Option Nat) (i : Nat) : Prop :=
  ∃ k, place i = some k ∧ k ≤ current ∧
    ∀ j l, place j = some l → l ≤ current → l ≤ k ∧ (i < j → l < k)

/-- The place of the version that a pair of a log names. -/
def placeAt? (ctx : Context) (pairs : List (Node × Node)) (i : Nat) : Option Nat :=
  pairs[i]?.bind fun p => ctx.placeOf? p.1

/-- The pair at `i` is the one that is in force at the version at hand. -/
def IsInForce (ctx : Context) (pairs : List (Node × Node)) (i : Nat) : Prop :=
  Latest ctx.position (placeAt? ctx pairs) i

/-- There is at most one latest place. -/
theorem Latest.unique {current : Nat} {place : Nat → Option Nat} {i j : Nat}
    (hi : Latest current place i) (hj : Latest current place j) : i = j := by
  obtain ⟨k, hk, hle, hlatest⟩ := hi
  obtain ⟨l, hl, hle', hlatest'⟩ := hj
  have h := hlatest j l hl hle'
  have h' := hlatest' i k hk hle
  by_contra hne
  rcases Nat.lt_or_gt_of_ne hne with hlt | hlt
  · have := h.2 hlt
    omega
  · have := h'.2 hlt
    omega

variable {current : Nat} {log : List (Nat × Node)} {entry : Nat × Node}

theorem inForce_append_singleton (log : List (Nat × Node)) (entry : Nat × Node) :
    inForce current (log ++ [entry]) =
      if entry.1 ≤ current ∧ (inForce current log).all (fun b => b.1 ≤ entry.1) then some entry
      else inForce current log := by
  unfold inForce
  rw [List.foldl_append]
  rfl

/-- The places of the entries of a log. -/
def places (log : List (Nat × Node)) (i : Nat) : Option Nat := log[i]?.map Prod.fst

/-- A place of a longer log is one of the log, or that of its last entry. -/
theorem places_append_singleton {i k : Nat} (h : places (log ++ [entry]) i = some k) :
    places log i = some k ∧ i < log.length ∨ i = log.length ∧ k = entry.1 := by
  unfold places at h ⊢
  rcases Nat.lt_trichotomy i log.length with hi | rfl | hi
  · rw [List.getElem?_append_left hi] at h
    exact .inl ⟨h, hi⟩
  · simp at h
    exact .inr ⟨rfl, h.symm⟩
  · rw [List.getElem?_eq_none (by simp; omega)] at h
    cases h

theorem places_append_of_lt {i : Nat} (h : i < log.length) :
    places (log ++ [entry]) i = places log i := by
  rw [places, List.getElem?_append_left h, places]

/-- The last entry of a log is the latest one when no entry that counts comes after it. -/
theorem Latest.last (hentry : entry.1 ≤ current)
    (hbefore : ∀ j l, places log j = some l → l ≤ current → l ≤ entry.1) :
    Latest current (places (log ++ [entry])) log.length := by
  refine ⟨entry.1, by simp [places], hentry, fun j l hj hl => ?_⟩
  rcases places_append_singleton hj with ⟨hj, hlt⟩ | ⟨rfl, rfl⟩
  · exact ⟨hbefore j l hj hl, fun h => absurd h (Nat.lt_asymm hlt)⟩
  · exact ⟨Nat.le_refl _, fun h => absurd h (Nat.lt_irrefl _)⟩

/-- The latest entry of a log stays so when the entry added to it does not take its place. -/
theorem Latest.append_singleton {i k : Nat} (hlatest : Latest current (places log) i)
    (hk : places log i = some k) (hentry : ¬(entry.1 ≤ current ∧ k ≤ entry.1)) :
    Latest current (places (log ++ [entry])) i := by
  obtain ⟨k', hk', hle, hlatest⟩ := hlatest
  obtain rfl : k' = k := Option.some.inj (hk'.symm.trans hk)
  have hlt : i < log.length := by
    obtain ⟨e, he, -⟩ := Option.map_eq_some_iff.1 hk
    exact (List.getElem?_eq_some_iff.1 he).1
  refine ⟨k', (places_append_of_lt hlt).trans hk, hle, fun j l hj hl => ?_⟩
  rcases places_append_singleton hj with ⟨hj, -⟩ | ⟨rfl, rfl⟩
  · exact hlatest j l hj hl
  · exact ⟨by omega, fun _ => by omega⟩

/-- Either nothing is in force, and all entries come later, or it is the latest entry. -/
theorem inForce_spec (current : Nat) (log : List (Nat × Node)) :
    (inForce current log = none ∧ ∀ e ∈ log, ¬e.1 ≤ current) ∨
      ∃ i e, inForce current log = some e ∧ log[i]? = some e ∧ Latest current (places log) i := by
  induction log using List.reverseRecOn with
  | nil => exact .inl ⟨rfl, by simp⟩
  | append_singleton log entry ih =>
    rw [inForce_append_singleton]
    rcases ih with ⟨hnone, hlater⟩ | ⟨i, e, hsome, hi, hlatest⟩
    · rw [hnone]
      by_cases hentry : entry.1 ≤ current
      · -- the first entry that counts is the latest
        refine .inr ⟨log.length, entry, by simp [hentry], by simp, .last hentry fun j l hj hl => ?_⟩
        obtain ⟨e, he, rfl⟩ := Option.map_eq_some_iff.1 hj
        exact absurd hl (hlater e (List.mem_of_getElem? he))
      · refine .inl ⟨by simp [hentry], fun e he => ?_⟩
        rcases List.mem_append.1 he with he | he
        · exact hlater e he
        · exact List.mem_singleton.1 he ▸ hentry
    · have hk : places log i = some e.1 := by simp [places, hi]
      rw [hsome]
      by_cases hentry : entry.1 ≤ current ∧ e.1 ≤ entry.1
      · -- the last entry takes the place of the one before
        refine .inr ⟨log.length, entry, by simp [hentry], by simp,
          .last hentry.1 fun j l hj hl => ?_⟩
        obtain ⟨k, hk', -, hlatest⟩ := hlatest
        obtain rfl : k = e.1 := Option.some.inj (hk'.symm.trans hk)
        exact Nat.le_trans (hlatest j l hj hl).1 hentry.2
      · have hlt : i < log.length := (List.getElem?_eq_some_iff.1 hi).1
        exact .inr ⟨i, e, by simp [hentry], by rw [List.getElem?_append_left hlt, hi],
          hlatest.append_singleton hk hentry⟩

/-- The entry in force is the latest one. -/
theorem inForce_eq_some_iff : inForce current log = some entry ↔
    ∃ i, log[i]? = some entry ∧ Latest current (places log) i := by
  rcases inForce_spec current log with ⟨hnone, hlater⟩ | ⟨i, e, hsome, hi, hlatest⟩
  · rw [hnone]
    refine ⟨fun h => (by cases h), ?_⟩
    rintro ⟨i, hi, k, hk, hle, -⟩
    obtain rfl : entry.1 = k := by simpa [places, hi] using hk
    exact absurd hle (hlater entry (List.mem_of_getElem? hi))
  · rw [hsome]
    constructor
    · rintro h
      cases h
      exact ⟨i, hi, hlatest⟩
    · rintro ⟨j, hj, hlatest'⟩
      rw [← hlatest.unique hlatest', hi] at hj
      exact hj

/-- Without an entry in force there is no latest one. -/
theorem not_latest_of_inForce_eq_none (h : inForce current log = none) (i : Nat) :
    ¬Latest current (places log) i := by
  rintro ⟨k, hk, hlatest⟩
  obtain ⟨e, he, rfl⟩ := Option.map_eq_some_iff.1 hk
  have hsome := inForce_eq_some_iff.2 ⟨i, he, e.1, hk, hlatest⟩
  rw [h] at hsome
  cases hsome

/-- The entries that are read are the pairs, with the places of their versions. -/
theorem entries_eq_ok_iff {ctx : Context} {pairs : List (Node × Node)} :
    entries ctx pairs = .ok log ↔
      List.Forall₂ (fun p e => ctx.placeOf? p.1 = some e.1 ∧ p.2 = e.2) pairs log := by
  unfold entries
  rw [Arguments.mapM_fst_eq_ok_iff]
  simp only [Arguments.knownPosition_eq_ok_iff]

/-- They have the places that the pairs name. -/
theorem places_of_entries {ctx : Context} {pairs : List (Node × Node)}
    (h : entries ctx pairs = .ok log) : places log = placeAt? ctx pairs := by
  funext i
  have hrel := rel_getElem?_of_forall₂ (entries_eq_ok_iff.1 h) i
  unfold places placeAt?
  generalize pairs[i]? = p at hrel ⊢
  generalize log[i]? = e at hrel ⊢
  cases hrel with
  | none => rfl
  | some hpair => exact hpair.1.symm

/-- All entries can be read if all versions of the log are known. -/
theorem exists_entries_eq_ok_iff {ctx : Context} {pairs : List (Node × Node)} :
    (∃ log, entries ctx pairs = .ok log) ↔ ∀ p ∈ pairs, ∃ k, ctx.placeOf? p.1 = some k := by
  unfold entries
  rw [Outcome.exists_mapM_eq_ok_iff]
  refine forall₂_congr fun p _ => ?_
  simp only [← Arguments.knownPosition_eq_ok_iff]
  constructor
  · rintro ⟨entry, h⟩
    obtain ⟨k, hk, -⟩ := Outcome.bind_eq_ok_iff.1 h
    exact ⟨k, hk⟩
  · rintro ⟨k, hk⟩
    exact ⟨(k, p.2), Outcome.bind_eq_ok_iff.2 ⟨k, hk, rfl⟩⟩

/-- The form of a log is that of the pair in force, or the base if there is none. -/
theorem picks_of_entries {ctx : Context} {pairs : List (Node × Node)}
    (h : entries ctx pairs = .ok log) (base : Node) :
    Arguments.Picks (IsInForce ctx pairs) pairs (some base)
      (some (((inForce ctx.position log).map Prod.snd).getD base)) := by
  have hlatest : ∀ i, IsInForce ctx pairs i ↔ Latest ctx.position (places log) i := fun i => by
    rw [IsInForce, places_of_entries h]
  cases hin : inForce ctx.position log with
  | none =>
    exact .default fun i hi => not_latest_of_inForce_eq_none hin i ((hlatest i).1 hi)
  | some entry =>
    obtain ⟨i, hi, hi'⟩ := inForce_eq_some_iff.1 hin
    obtain ⟨p, hp, -, hform⟩ := exists_getElem?_left (entries_eq_ok_iff.1 h) hi
    show Arguments.Picks _ _ _ (some entry.2)
    exact hform ▸ .pair ((hlatest i).2 hi') hp

/-- A log that stands in pairs is read, and its form is the one in force or the base. -/
theorem changed_of_inPairs {ctx : Context} {base : Node} {log : List Node}
    {pairs : List (Node × Node)} (h : Arguments.inPairs log = (pairs, none)) :
    changed ctx (base :: log) = (entries ctx pairs).map fun read =>
      .single (((inForce ctx.position read).map Prod.snd).getD base) := by
  rw [changed, Arguments.headAndForms, Outcome.ok_bind]
  dsimp only
  rw [h]
  dsimp only
  cases entries ctx pairs with
  | error cause => rfl
  | ok read =>
    show _ = Except.ok (Expansion.single (((inForce ctx.position read).map Prod.snd).getD base))
    rw [Outcome.ok_bind]
    cases inForce ctx.position read <;> rfl

/-- `changed` stands for the form of the pair in force, or for the base. All versions of the log
have to be known. -/
theorem changed_eq_ok_iff {ctx : Context} {args : List Node} {e : Expansion} :
    changed ctx args = .ok e ↔ ∃ base log pairs form, args = base :: log ∧
      Arguments.inPairs log = (pairs, none) ∧
      (∀ p ∈ pairs, ∃ k, ctx.placeOf? p.1 = some k) ∧ e = .single form ∧
      Arguments.Picks (IsInForce ctx pairs) pairs (some base) (some form) := by
  constructor
  · intro h
    cases args with
    | nil => cases h
    | cons base log =>
      cases hpairs : Arguments.inPairs log with
      | mk pairs odd =>
        cases odd with
        | some a =>
          rw [changed, Arguments.headAndForms, Outcome.ok_bind] at h
          dsimp only at h
          rw [hpairs] at h
          cases h
        | none =>
          rw [changed_of_inPairs hpairs, Outcome.map_eq_ok_iff] at h
          obtain ⟨read, hread, rfl⟩ := h
          exact ⟨base, log, pairs, _, rfl, hpairs, exists_entries_eq_ok_iff.1 ⟨read, hread⟩, rfl,
            picks_of_entries hread base⟩
  · rintro ⟨base, log, pairs, form, rfl, hpairs, hknown, rfl, hform⟩
    obtain ⟨read, hread⟩ := exists_entries_eq_ok_iff.2 hknown
    rw [changed_of_inPairs hpairs, Outcome.map_eq_ok_iff]
    have heq := (picks_of_entries hread base).unique (fun _ _ => Latest.unique) hform
    exact ⟨read, hread, congrArg Expansion.single (Option.some.inj heq)⟩

end ChangeLog

/-! ### A form for every version -/

namespace Switch

/-- No version is repeated exactly when none is listed twice, or again. -/
theorem repeatedFrom_eq_nil_iff {seen versions : List Version} :
    repeatedFrom seen [] versions = [] ↔ versions.Nodup ∧ ∀ v ∈ versions, v ∉ seen := by
  induction versions generalizing seen with
  | nil => simp [repeatedFrom]
  | cons v rest ih =>
    rw [repeatedFrom]
    by_cases hv : v ∈ seen
    · simp [hv]
    · rw [if_neg hv, ih, List.nodup_cons, List.forall_mem_cons]
      constructor
      · rintro ⟨hnodup, hrest⟩
        exact ⟨⟨fun h => hrest v h (List.mem_cons_self ..), hnodup⟩, hv,
          fun w hw h => hrest w hw (List.mem_cons_of_mem _ h)⟩
      · rintro ⟨⟨hnot, hnodup⟩, -, hrest⟩
        refine ⟨hnodup, fun w hw h => ?_⟩
        rcases List.mem_cons.1 h with rfl | h
        · exact hnot hw
        · exact hrest w hw h

/-- The three complaints are void exactly when the named versions are the known ones in some
order. -/
theorem perm_known_iff {known : KnownVersions} {named : List Version} :
    named.Perm known.toList ↔ (known.toList.filter fun v => !named.contains v) = [] ∧
      (named.filter fun v => !known.contains v) = [] ∧
      repeated (named.filter known.contains) = [] := by
  have hcontains : ∀ v, known.contains v = true ↔ v ∈ known.toList := fun v =>
    List.contains_iff_mem
  simp only [List.filter_eq_nil_iff, Bool.not_eq_true', Bool.not_eq_false, List.contains_iff_mem,
    hcontains, repeated, repeatedFrom_eq_nil_iff, List.not_mem_nil, not_false_eq_true,
    implies_true, and_true]
  constructor
  · intro h
    exact ⟨fun v hv => h.mem_iff.2 hv, fun v hv => h.mem_iff.1 hv,
      (h.nodup_iff.2 known.nodup).filter _⟩
  · rintro ⟨hmissing, hunexpected, hnodup⟩
    have hall : named.filter known.contains = named :=
      List.filter_eq_self.2 fun v hv => (hcontains v).2 (hunexpected v hv)
    rw [hall] at hnodup
    exact (List.perm_ext_iff_of_nodup hnodup known.nodup).2 fun v =>
      ⟨hunexpected v, hmissing v⟩

theorem choose_eq_ok_iff {ctx : Context} {read : List (Version × Node)} {e : Expansion} :
    choose ctx read = .ok e ↔ (read.map Prod.fst).Perm ctx.known.toList ∧
      ∃ form, (ctx.version, form) ∈ read ∧ e = .single form := by
  have hlookup : (read.map Prod.fst).Perm ctx.known.toList → ∀ form,
      read.lookup ctx.version = some form ↔ (ctx.version, form) ∈ read := fun hperm form =>
    Table.get?_eq_some_iff (t := ⟨read, hperm.nodup_iff.2 ctx.known.nodup⟩)
  unfold choose
  dsimp only
  constructor
  · intro h
    split at h
    · rename_i form hform hmissing hunexpected hrepeated
      cases h
      have hperm := perm_known_iff.2 ⟨hmissing, hunexpected, hrepeated⟩
      exact ⟨hperm, form, (hlookup hperm form).1 hform, rfl⟩
    · cases h
  · rintro ⟨hperm, form, hform, rfl⟩
    obtain ⟨hmissing, hunexpected, hrepeated⟩ := perm_known_iff.1 hperm
    rw [(hlookup hperm form).2 hform, hmissing, hunexpected, hrepeated]

/-- The clauses that are read are the pairs, with the versions that their keys name. -/
theorem clauses_eq_ok_iff {pairs : List (Node × Node)} {read : List (Version × Node)} :
    clauses pairs = .ok read ↔
      List.Forall₂ (fun p c => Version.ofNode? p.1 = some c.1 ∧ p.2 = c.2) pairs read := by
  unfold clauses
  rw [Arguments.mapM_fst_eq_ok_iff]
  simp only [Arguments.version_eq_ok_iff]

/-- Clauses whose keys name versions are read. -/
theorem exists_clauses_of_named {pairs : List (Node × Node)} {named : List Version}
    (h : List.Forall₂ (fun p v => Version.ofNode? p.1 = some v) pairs named) :
    ∃ read, clauses pairs = .ok read ∧ read.map Prod.fst = named := by
  refine ⟨named.zip (pairs.map Prod.snd), clauses_eq_ok_iff.2 ?_,
    List.map_fst_zip (by simp [h.length_eq])⟩
  induction h with
  | nil => exact .nil
  | cons hpv _ ih => exact .cons ⟨hpv, rfl⟩ ih

/-- `switch` stands for the value under the version at hand. The keys have to name the known
versions, in any order. -/
theorem switch_eq_ok_iff {ctx : Context} {args : List Node} {e : Expansion} :
    switch ctx args = .ok e ↔ ∃ pairs named, args = [.mapping pairs] ∧
      List.Forall₂ (fun p v => Version.ofNode? p.1 = some v) pairs named ∧
      named.Perm ctx.known.toList ∧
      ∃ p ∈ pairs, Version.ofNode? p.1 = some ctx.version ∧ e = .single p.2 := by
  constructor
  · intro h
    unfold switch at h
    split at h
    · rename_i pairs
      obtain ⟨read, hread, h⟩ := Outcome.bind_eq_ok_iff.1 h
      obtain ⟨hperm, form, hform, rfl⟩ := choose_eq_ok_iff.1 h
      have hrel := clauses_eq_ok_iff.1 hread
      obtain ⟨p, hp, hversion, rfl⟩ := exists_mem_left_of_forall₂ hrel hform
      exact ⟨pairs, read.map Prod.fst, rfl,
        List.forall₂_map_right_iff.2 (hrel.imp fun _ _ hpc => hpc.1), hperm, p, hp, hversion, rfl⟩
    · cases h
  · rintro ⟨pairs, named, rfl, hnamed, hperm, p, hp, hversion, rfl⟩
    obtain ⟨read, hread, rfl⟩ := exists_clauses_of_named hnamed
    obtain ⟨c, hc, hpc, hform⟩ :=
      exists_mem_right_of_forall₂ (clauses_eq_ok_iff.1 hread) hp
    rw [hversion, Option.some.injEq] at hpc
    refine Outcome.bind_eq_ok_iff.2 ⟨read, hread, ?_⟩
    refine choose_eq_ok_iff.2 ⟨hperm, p.2, ?_, rfl⟩
    rw [hpc, hform]
    exact hc

end Switch

/-! ### The first clause that holds -/

namespace FeatureCase

variable {m : Manifest} {ctx : Context} {permitted : Event → Prop}

/-- A condition holds if the version at hand ships one of its flags. -/
def Holds (m : Manifest) (ctx : Context) (condition : Node) : Prop :=
  ∃ flag ∈ flags condition, m.Enables ctx flag

/-- The clause at `i` is the first one whose condition holds. -/
def IsChosen (m : Manifest) (ctx : Context) (clauses : List (Node × Node)) (i : Nat) : Prop :=
  (∃ c, clauses[i]? = some c ∧ Holds m ctx c.1) ∧
    ∀ j, j < i → ∀ c, clauses[j]? = some c → ¬Holds m ctx c.1

theorem anyEnabled_eq_ok_iff {flags : List Node} {b : Bool} :
    anyEnabled m ctx flags = .ok b ↔
      (∀ flag ∈ flags, m.Knows flag) ∧ (b = true ↔ ∃ flag ∈ flags, m.Enables ctx flag) := by
  unfold anyEnabled
  rw [Arguments.mapM_any_eq_ok_iff]
  simp only [Arguments.knownFlag_eq_ok_iff]
  refine and_congr_right fun hknown => iff_congr Iff.rfl ?_
  constructor
  · rintro ⟨flag, hflag, name, ⟨htext, -⟩, henabled⟩
    exact ⟨flag, hflag, name, htext, henabled⟩
  · rintro ⟨flag, hflag, name, htext, henabled⟩
    obtain ⟨name', htext', hname⟩ := hknown flag hflag
    rw [htext, Option.some.injEq] at htext'
    exact ⟨flag, hflag, name, ⟨htext, htext' ▸ hname⟩, henabled⟩

/-- The warning about a sequence of flags does not change whether the condition holds. -/
theorem yields_holds_iff (h : ∀ text, permitted (.flagSequence text)) {condition : Node}
    {b : Bool} : (holds m ctx condition).Yields permitted b ↔
      anyEnabled m ctx (flags condition) = .ok b := by
  have hplain : ∀ x : Except QualifierError Bool,
      Traced.Yields permitted (ExceptT.mk (pure x)) b ↔ x = .ok b := fun x =>
    and_iff_left fun e he => by cases he
  unfold holds
  cases condition with
  | sequence items =>
    rw [← hplain, Traced.yields_bind_iff]
    constructor
    · rintro ⟨_, -, hb⟩
      exact hb
    · intro hb
      exact ⟨(), Traced.yields_record_iff.2 (h _), hb⟩
  | _ => exact hplain _

/-- What is found is the first of its kind. -/
theorem find?_eq_some_iff_getElem? {α : Type} {p : α → Bool} {xs : List α} {a : α} :
    xs.find? p = some a ↔ p a = true ∧
      ∃ i : Nat, xs[i]? = some a ∧ ∀ j : Nat, j < i → ∀ b, xs[j]? = some b → p b = false := by
  rw [List.find?_eq_some_iff_getElem]
  refine and_congr_right fun _ => exists_congr fun i => ?_
  constructor
  · rintro ⟨hi, rfl, hfirst⟩
    refine ⟨List.getElem?_eq_getElem hi, fun j hj b hb => ?_⟩
    obtain ⟨hj', rfl⟩ := List.getElem?_eq_some_iff.1 hb
    simpa using hfirst j hj
  · rintro ⟨hi, hfirst⟩
    obtain ⟨hlt, rfl⟩ := List.getElem?_eq_some_iff.1 hi
    refine ⟨hlt, rfl, fun j hj => ?_⟩
    simpa using hfirst j hj _ (List.getElem?_eq_getElem (Nat.lt_trans hj hlt))

/-- A verdict on a clause, with the form of the clause. -/
def IsVerdict (m : Manifest) (ctx : Context) (clause : Node × Node) (verdict : Bool × Node) :
    Prop :=
  (verdict.1 = true ↔ Holds m ctx clause.1) ∧ clause.2 = verdict.2

/-- At most one clause is chosen. -/
theorem IsChosen.unique {clauses : List (Node × Node)} {i j : Nat} (hi : IsChosen m ctx clauses i)
    (hj : IsChosen m ctx clauses j) : i = j := by
  obtain ⟨⟨c, hc, hholds⟩, hfirst⟩ := hi
  obtain ⟨⟨d, hd, hholds'⟩, hfirst'⟩ := hj
  rcases Nat.lt_trichotomy i j with hlt | heq | hlt
  · exact absurd hholds (hfirst' i hlt c hc)
  · exact heq
  · exact absurd hholds' (hfirst j hlt d hd)

/-- What is found among the verdicts is the form of the first clause that holds. -/
theorem picks_of_verdicts {clauses : List (Node × Node)} {judged : List (Bool × Node)}
    (h : List.Forall₂ (IsVerdict m ctx) clauses judged) (default? : Option Node) :
    Arguments.Picks (IsChosen m ctx clauses) clauses default?
      ((judged.find? Prod.fst).map Prod.snd <|> default?) := by
  cases hfound : judged.find? Prod.fst with
  | some d =>
    obtain ⟨htrue, i, hi, hfirst⟩ := find?_eq_some_iff_getElem?.1 hfound
    obtain ⟨c, hc, hverdict, hform⟩ := exists_getElem?_left h hi
    show Arguments.Picks _ _ _ (some d.2)
    refine hform ▸ .pair ⟨⟨c, hc, hverdict.1 htrue⟩, fun j hj c' hc' hholds => ?_⟩ hc
    obtain ⟨d', hd', hverdict', -⟩ := exists_getElem?_right h hc'
    exact absurd (hverdict'.2 hholds) (by simp [hfirst j hj d' hd'])
  | none =>
    refine .default fun i hi => ?_
    obtain ⟨⟨c, hc, hholds⟩, -⟩ := hi
    obtain ⟨d, hd, hverdict, -⟩ := exists_getElem?_right h hc
    exact List.find?_eq_none.1 hfound d (List.mem_of_getElem? hd) (hverdict.2 hholds)

/-- All clauses are judged if all flags are known. -/
theorem yields_judged_iff (h : ∀ text, permitted (.flagSequence text))
    {clauses : List (Node × Node)} {judged : List (Bool × Node)} :
    (clauses.mapM fun clause : Node × Node => do
      let held ← holds m ctx clause.1
      return (held, clause.2)).Yields permitted judged ↔
      (∀ c ∈ clauses, ∀ flag ∈ flags c.1, m.Knows flag) ∧
        List.Forall₂ (IsVerdict m ctx) clauses judged := by
  have hclause : ∀ (clause : Node × Node) (verdict : Bool × Node),
      (do let held ← holds m ctx clause.1
          return (held, clause.2) : Traced QualifierError _).Yields permitted verdict ↔
        (∀ flag ∈ flags clause.1, m.Knows flag) ∧ IsVerdict m ctx clause verdict := by
    rintro clause ⟨held, form⟩
    simp only [Traced.yields_bind_iff, Traced.yields_pure_iff, Prod.mk.injEq, yields_holds_iff h,
      anyEnabled_eq_ok_iff]
    constructor
    · rintro ⟨_, ⟨hknown, hheld⟩, rfl, hform⟩
      exact ⟨hknown, hheld, hform⟩
    · rintro ⟨hknown, hheld, hform⟩
      exact ⟨held, ⟨hknown, hheld⟩, rfl, hform⟩
  rw [Traced.yields_mapM_iff, ← List.forall₂_and_left]
  simp only [hclause]

/-- There is a verdict on every clause. -/
theorem exists_verdicts (m : Manifest) (ctx : Context) (clauses : List (Node × Node)) :
    ∃ judged, List.Forall₂ (IsVerdict m ctx) clauses judged := by
  classical
  induction clauses with
  | nil => exact ⟨[], .nil⟩
  | cons c rest ih =>
    obtain ⟨judged, hjudged⟩ := ih
    exact ⟨(decide (Holds m ctx c.1), c.2) :: judged, .cons ⟨decide_eq_true_iff, rfl⟩ hjudged⟩

/-- `feature-case` stands for the form of the first clause that holds, else for the odd argument at
the end, and goes away if there is none. All flags have to be known. -/
theorem yields_featureCase_iff (h : ∀ text, permitted (.flagSequence text)) {args : List Node}
    {e : Expansion} : (featureCase m ctx args).Yields permitted e ↔
      (∀ c ∈ (Arguments.inPairs args).1, ∀ flag ∈ flags c.1, m.Knows flag) ∧
      ∃ form?, Arguments.Picks (IsChosen m ctx (Arguments.inPairs args).1)
          (Arguments.inPairs args).1 (Arguments.inPairs args).2 form? ∧
        e = (form?.map Expansion.single).getD .delete := by
  unfold featureCase
  rw [Traced.yields_bind_iff]
  simp only [yields_judged_iff h]
  constructor
  · rintro ⟨judged, ⟨hknown, hjudged⟩, he⟩
    refine ⟨hknown, _, picks_of_verdicts hjudged _, ?_⟩
    split at he
    case h_1 form hform =>
      rw [hform]
      exact (Traced.yields_pure_iff.1 he).symm
    case h_2 hform =>
      rw [hform]
      exact (Traced.yields_pure_iff.1 he).symm
  · rintro ⟨hknown, form?, hpicks, rfl⟩
    obtain ⟨judged, hjudged⟩ := exists_verdicts m ctx (Arguments.inPairs args).1
    refine ⟨judged, ⟨hknown, hjudged⟩, ?_⟩
    rw [hpicks.unique (fun _ _ => IsChosen.unique) (picks_of_verdicts hjudged _)]
    split
    case h_1 form hform =>
      rw [hform]
      exact Traced.yields_pure_iff.2 rfl
    case h_2 hform =>
      rw [hform]
      exact Traced.yields_pure_iff.2 rfl

end FeatureCase

end VersionedTree
