import VersionedTree.Proofs.Pivots
import VersionedTree.Proofs.Reading

/-!
# The latest change

A log is read as a whole, and of the entries that count the latest is in force; of several entries
for one version the last one listed counts. So a log may be reordered as long as entries for one
version stay in order, and what it stands for changes from one version to the next only where it
names the next one.

The entry in force is described without the places of entries in the log: it is the last of those
with the greatest position that counts. A reordering that leaves the entries of each position in
order leaves that description as it is.

## What is proved

* `ChangeLog.inForce_spec_latest` — the entry in force.
* `ChangeLog.inForce_eq_of_filter_eq` — it depends on the entries for each position alone.
* `ChangeLog.changed_eq_of_reordered` — reordered logs stand for the same.
* `ChangeLog.exists_change_between` — what a log stands for changes at positions it names.
* `ChangeLog.changed_followsLog` — all of this together, and which arguments are refused.
-/

namespace VersionedTree

/-- Pairs that are written one after the other stand in pairs. -/
theorem Arguments.inPairs_flatMap (pairs : List (Node × Node)) :
    inPairs (pairs.flatMap fun p => [p.1, p.2]) = (pairs, none) := by
  induction pairs with
  | nil => rfl
  | cons p rest ih => simp [inPairs, ih]

namespace ChangeLog

/-! ### The entry in force -/

section InForce

variable {current : Nat} {log log' : List (Nat × Node)} {entry : Nat × Node}

/-- The entry counts, none that counts is at a later place, and none after it is at its place. -/
structure IsLatest (current : Nat) (log : List (Nat × Node)) (entry : Nat × Node) : Prop where
  counts : entry.1 ≤ current
  greatest : ∀ e ∈ log, e.1 ≤ current → e.1 ≤ entry.1
  last : (log.filter (·.1 = entry.1)).getLast? = some entry

theorem IsLatest.mem (h : IsLatest current log entry) : entry ∈ log :=
  List.mem_of_mem_filter (List.mem_of_getLast? h.last)

theorem IsLatest.unique {entry' : Nat × Node} (h : IsLatest current log entry)
    (h' : IsLatest current log entry') : entry = entry' := by
  have hplace : entry.1 = entry'.1 :=
    Nat.le_antisymm (h'.greatest entry h.mem h.counts) (h.greatest entry' h'.mem h'.counts)
  have hlast := h.last
  rw [hplace, h'.last, Option.some.injEq] at hlast
  exact hlast.symm

/-- The entry at the latest place is the last one of its place. -/
theorem Latest.getLast?_filter {i : Nat} (h : Latest current (places log) i)
    (hi : log[i]? = some entry) : (log.filter (·.1 = entry.1)).getLast? = some entry := by
  obtain ⟨k, hk, hle, hlatest⟩ := h
  obtain rfl : entry.1 = k := by simpa [places, hi] using hk
  obtain ⟨hlt, hentry⟩ := List.getElem?_eq_some_iff.1 hi
  have hsplit : log = log.take i ++ entry :: log.drop (i + 1) := by
    rw [← hentry, ← List.drop_eq_getElem_cons hlt, List.take_append_drop]
  have hafter : (log.drop (i + 1)).filter (·.1 = entry.1) = [] := by
    rw [List.filter_eq_nil_iff]
    intro e he
    obtain ⟨j, hj⟩ := List.mem_iff_getElem?.1 he
    rw [List.getElem?_drop] at hj
    have hlater := (hlatest (i + 1 + j) e.1 (by simp [places, hj]))
    simp only [decide_eq_true_eq]
    intro heq
    have := (hlater (heq ▸ hle)).2 (by omega)
    omega
  rw [hsplit, List.filter_append, List.filter_cons_of_pos (by simp), hafter]
  simp

/-- Either nothing counts, or the latest entry is in force. -/
theorem inForce_spec_latest (current : Nat) (log : List (Nat × Node)) :
    (inForce current log = none ∧ ∀ e ∈ log, ¬e.1 ≤ current) ∨
      ∃ e, inForce current log = some e ∧ IsLatest current log e := by
  rcases inForce_spec current log with hnone | ⟨i, e, hsome, hi, hlatest⟩
  · exact .inl hnone
  · refine .inr ⟨e, hsome, ?_, fun e' he' hle => ?_, hlatest.getLast?_filter hi⟩
    · obtain ⟨k, hk, hle, -⟩ := hlatest
      have hek : e.1 = k := by simpa [places, hi] using hk
      omega
    · obtain ⟨k, hk, -, hgreatest⟩ := hlatest
      obtain ⟨j, hj⟩ := List.mem_iff_getElem?.1 he'
      have hek : e.1 = k := by simpa [places, hi] using hk
      have hle' := (hgreatest j e'.1 (by simp [places, hj]) hle).1
      omega

/-- The same entry is in force in two logs if they have, for each place, the same entries in the
same order. -/
theorem inForce_eq_of_filter_eq (h : ∀ k, log.filter (·.1 = k) = log'.filter (·.1 = k)) :
    inForce current log = inForce current log' := by
  have hmem : ∀ e, e ∈ log ↔ e ∈ log' := fun e => by
    have hfilter := congrArg (e ∈ ·) (h e.1)
    simpa using hfilter
  rcases inForce_spec_latest current log with ⟨hnone, hlater⟩ | ⟨e, hsome, he⟩
  · rcases inForce_spec_latest current log' with ⟨hnone', -⟩ | ⟨e', -, he'⟩
    · rw [hnone, hnone']
    · exact absurd he'.counts (hlater e' ((hmem e').2 he'.mem))
  · rcases inForce_spec_latest current log' with ⟨-, hlater'⟩ | ⟨e', hsome', he'⟩
    · exact absurd he.counts (hlater' e ((hmem e).1 he.mem))
    · have hboth : IsLatest current log' e :=
        ⟨he.counts, fun e' he' => he.greatest e' ((hmem e').2 he'), h e.1 ▸ he.last⟩
      rw [hsome, hsome', hboth.unique he']

end InForce

/-! ### What a log stands for -/

/-- The arguments of a log: a base, and after it the pairs one by one. -/
def arguments (base : Node) (pairs : List (Node × Node)) : List Node :=
  base :: pairs.flatMap fun p => [p.1, p.2]

/-- All pairs name known versions. -/
def AllKnown (ctx : Context) (pairs : List (Node × Node)) : Prop :=
  ∀ p ∈ pairs, ∃ k, ctx.placeOf? p.1 = some k

/-- What a log stands for: the form of the pair in force, or the base if all pairs name later
versions. -/
inductive StandsFor (ctx : Context) (base : Node) (pairs : List (Node × Node)) : Node → Prop where
  /-- The form of the pair in force. -/
  | pair {i : Nat} {p : Node × Node} : IsInForce ctx pairs i → pairs[i]? = some p →
    StandsFor ctx base pairs p.2
  /-- The base. -/
  | base : (∀ p ∈ pairs, ∀ k, ctx.placeOf? p.1 = some k → ctx.position < k) →
    StandsFor ctx base pairs base

/-- The same pairs in another order, with those that name one version in their order. -/
structure Reordered (pairs pairs' : List (Node × Node)) : Prop where
  perm : pairs.Perm pairs'
  same : ∀ v, pairs.filter (fun p => Version.ofNode? p.1 = some v) =
    pairs'.filter fun p => Version.ofNode? p.1 = some v

section StandsFor

variable {ctx ctx' : Context} {base : Node} {pairs pairs' : List (Node × Node)}
  {log log' : List (Nat × Node)}

theorem changed_arguments (ctx : Context) (base : Node) (pairs : List (Node × Node)) :
    changed ctx (arguments base pairs) = (entries ctx pairs).map fun log =>
      .single (((inForce ctx.position log).map Prod.snd).getD base) :=
  changed_of_inPairs (Arguments.inPairs_flatMap pairs)

theorem standsFor_of_entries (h : entries ctx pairs = .ok log) :
    StandsFor ctx base pairs (((inForce ctx.position log).map Prod.snd).getD base) := by
  have hrel := entries_eq_ok_iff.1 h
  rcases inForce_spec ctx.position log with ⟨hnone, hlater⟩ | ⟨i, e, hsome, hi, hlatest⟩
  · rw [hnone]
    refine .base fun p hp k hk => ?_
    obtain ⟨e, he, hplace, -⟩ := exists_mem_right_of_forall₂ hrel hp
    have hek : e.1 = k := Option.some.inj (hplace.symm.trans hk)
    have := hlater e he
    omega
  · obtain ⟨p, hp, -, hform⟩ := exists_getElem?_left hrel hi
    rw [hsome]
    show StandsFor ctx base pairs e.2
    rw [← hform]
    refine .pair ?_ hp
    rw [IsInForce, ← places_of_entries h]
    exact hlatest

theorem exists_standsFor (h : AllKnown ctx pairs) (base : Node) :
    ∃ form, changed ctx (arguments base pairs) = .ok (.single form) ∧
      StandsFor ctx base pairs form := by
  obtain ⟨log, hlog⟩ := exists_entries_eq_ok_iff.2 h
  refine ⟨_, ?_, standsFor_of_entries hlog⟩
  rw [changed_arguments, hlog]
  rfl

/-! ### Reordering a log -/

/-- The entries at a position are made of the pairs that name it. -/
theorem filter_entries (h : entries ctx pairs = .ok log) (k : Nat) :
    log.filter (·.1 = k) =
      (pairs.filter fun p => ctx.placeOf? p.1 = some k).map fun p => (k, p.2) := by
  have hrel := entries_eq_ok_iff.1 h
  clear h
  induction hrel with
  | nil => rfl
  | @cons p e pairs log hpe _ ih =>
    obtain ⟨hplace, hform⟩ := hpe
    by_cases hek : e.1 = k
    · rw [List.filter_cons_of_pos (by simpa using hek),
        List.filter_cons_of_pos (by simpa [hplace] using hek), List.map_cons, ih, hform, ← hek]
    · rw [List.filter_cons_of_neg (by simpa using hek),
        List.filter_cons_of_neg (by simpa [hplace] using hek), ih]

/-- A known position has one version, so the pairs that name a position are those that name a
version. -/
theorem Reordered.filter_placeOf? (h : Reordered pairs pairs') (ctx : Context) (k : Nat) :
    pairs.filter (fun p => ctx.placeOf? p.1 = some k) =
      pairs'.filter fun p => ctx.placeOf? p.1 = some k := by
  have hplace : ∀ p : Node × Node, ctx.placeOf? p.1 = some k ↔
      ∃ v, ctx.known.get? k = some v ∧ Version.ofNode? p.1 = some v := fun p => by
    rw [Context.placeOf?_eq_some_iff]
    refine exists_congr fun v => ?_
    rw [Context.position?, KnownVersions.position?_eq_some_iff, and_comm]
  simp only [hplace]
  cases ctx.known.get? k with
  | none => simp
  | some v => simpa using h.same v

theorem Reordered.allKnown (h : Reordered pairs pairs') (hknown : AllKnown ctx pairs) :
    AllKnown ctx pairs' := fun p hp => hknown p (h.perm.mem_iff.2 hp)

theorem changed_eq_of_reordered (h : Reordered pairs pairs') (hknown : AllKnown ctx pairs)
    (base : Node) :
    changed ctx (arguments base pairs) = changed ctx (arguments base pairs') := by
  obtain ⟨log, hlog⟩ := exists_entries_eq_ok_iff.2 hknown
  obtain ⟨log', hlog'⟩ := exists_entries_eq_ok_iff.2 (h.allKnown hknown)
  have hsame : ∀ k, log.filter (·.1 = k) = log'.filter (·.1 = k) := fun k => by
    rw [filter_entries hlog, filter_entries hlog', h.filter_placeOf?]
  have hforce : inForce ctx.position log = inForce ctx.position log' :=
    inForce_eq_of_filter_eq hsame
  rw [changed_arguments, changed_arguments, hlog, hlog']
  simp only [Except.map, hforce]

/-! ### Along the known versions -/

/-- A log that stands for different things at two versions names one that comes after the first of
them, and not after the second. -/
theorem exists_change_between (hknown : ctx.known = ctx'.known) (hlt : ctx.position < ctx'.position)
    (h : changed ctx (arguments base pairs) ≠ changed ctx' (arguments base pairs)) :
    ∃ p ∈ pairs, ∃ k, ctx.placeOf? p.1 = some k ∧ ctx.position < k ∧ k ≤ ctx'.position := by
  by_contra hnone
  refine h (Standard.changed_congr hknown hlt fun n hn v hv k hk hbetween => ?_)
  rw [Standard.pivotArguments, if_pos rfl, arguments, List.drop_one, List.tail_cons,
    Arguments.inPairs_flatMap] at hn
  obtain ⟨p, hp, rfl⟩ := List.mem_map.1 hn
  exact hnone ⟨p, hp, k, Context.placeOf?_eq_some_iff.2 ⟨v, hv, hk⟩, hbetween⟩

end StandsFor

/-! ### Refused arguments -/

/-- The version of a pair is missing a place, or the last pair is missing its form. -/
def Refused (ctx : Context) (args : List Node) : Prop :=
  args.length % 2 = 0 ∨ ∃ i n, args[2 * i + 1]? = some n ∧ ctx.placeOf? n = none

theorem not_refused_of_changed {ctx : Context} {args : List Node} {e : Expansion}
    (h : changed ctx args = .ok e) : ¬Refused ctx args := by
  obtain ⟨base, log, pairs, -, rfl, hpairs, hknown, -⟩ := changed_eq_ok_iff.1 h
  -- the log has an even number of arguments
  have hodd := Arguments.inPairs_snd log
  have hlen := Arguments.length_inPairs log
  rw [hpairs] at hodd hlen
  have hlog : log.length ≤ 2 * pairs.length := List.getElem?_eq_none_iff.1 hodd.symm
  dsimp only at hlen
  rintro (heven | ⟨i, n, hn, hplace⟩)
  · rw [List.length_cons] at heven
    omega
  · rw [List.getElem?_cons_succ] at hn
    have hi := (List.getElem?_eq_some_iff.1 hn).1
    have hip : i < pairs.length := by omega
    have hfirst : log[2 * i]? = some pairs[i].1 := by
      refine (Arguments.getElem?_inPairs.1 ?_).1
      rw [hpairs]
      exact List.getElem?_eq_getElem hip
    rw [hn, Option.some.injEq] at hfirst
    obtain ⟨k, hk⟩ := hknown _ (List.getElem_mem hip)
    rw [← hfirst, hplace] at hk
    cases hk

theorem Refused.exists_changed_eq_error {ctx ctx' : Context} {args : List Node}
    (hknown : ctx'.known = ctx.known) (h : Refused ctx args) :
    ∃ e, changed ctx' args = .error e := by
  cases hresult : changed ctx' args with
  | error e => exact ⟨e, rfl⟩
  | ok e =>
    have hplace : ∀ n, ctx'.placeOf? n = ctx.placeOf? n := fun n => by
      unfold Context.placeOf? Context.position?
      rw [hknown]
    refine absurd ?_ (not_refused_of_changed hresult)
    unfold Refused at h ⊢
    simpa only [hplace] using h

/-! ### The whole of a log -/

/-- `changed` follows its log. If all pairs name known versions, it stands for the form of the pair
in force, or for the base if there is none, and the log may be reordered as long as the pairs that
name one version stay in their order. What it stands for changes between two versions only if a
pair names a version that comes after the first and not after the second. An even number of
arguments, and a log with something that names no known version, is refused for every version. -/
theorem changed_followsLog (ctx : Context) (base : Node) (pairs : List (Node × Node)) :
    (AllKnown ctx pairs → ∃ form, changed ctx (arguments base pairs) = .ok (.single form) ∧
      StandsFor ctx base pairs form) ∧
    (AllKnown ctx pairs → ∀ pairs', Reordered pairs pairs' →
      changed ctx (arguments base pairs') = changed ctx (arguments base pairs)) ∧
    (∀ ctx' : Context, ctx.known = ctx'.known → ctx.position < ctx'.position →
      changed ctx (arguments base pairs) ≠ changed ctx' (arguments base pairs) →
      ∃ p ∈ pairs, ∃ k, ctx.placeOf? p.1 = some k ∧ ctx.position < k ∧ k ≤ ctx'.position) ∧
    ∀ args, Refused ctx args → ∀ ctx' : Context, ctx'.known = ctx.known →
      ∃ e, changed ctx' args = .error e :=
  ⟨fun h => exists_standsFor h base,
    fun h _ hpairs => (changed_eq_of_reordered hpairs h base).symm,
    fun _ hknown hlt h => exists_change_between hknown hlt h,
    fun _ h _ hknown => h.exists_changed_eq_error hknown⟩

end ChangeLog

/-! ### A log with a tie -/

namespace Sample

/-- Two pairs name `v1`, one a later version before them and one an earlier version between
them. -/
def tiedLog : List (Node × Node) :=
  [(.str "v2", .str "d"), (.str "v1", .str "b"), (.str "v0", .str "a"), (.symbol "v1", .str "c")]

/-- The same pairs by version. -/
def sortedLog : List (Node × Node) :=
  [(.str "v0", .str "a"), (.str "v1", .str "b"), (.symbol "v1", .str "c"), (.str "v2", .str "d")]

theorem reordered_tiedLog : ChangeLog.Reordered tiedLog sortedLog := by
  have hrotated : tiedLog.Perm (tiedLog.drop 1 ++ tiedLog.take 1) := by
    show (tiedLog.take 1 ++ tiedLog.drop 1).Perm _
    exact List.perm_append_comm
  refine ⟨hrotated.trans (.swap ..), fun v => ?_⟩
  by_cases hv : v = ⟨"v1"⟩
  · subst hv
    rfl
  · -- of the other versions at most one pair is left
    have hnot : ¬(⟨"v1"⟩ : Version) = v := fun h => hv h.symm
    by_cases hv0 : (⟨"v0"⟩ : Version) = v
    · subst hv0
      rfl
    · simp [tiedLog, sortedLog, List.filter_cons, Version.ofNode?, hnot, hv0]

/-- `v2`, the last of three versions. -/
def atThird : Context := ⟨threeVersions, ⟨"v2"⟩, 2, rfl, none⟩

end Sample

theorem ChangeLog.changed_followsLog_tied :
    changed Sample.atSecond (arguments (.str "x") Sample.tiedLog) = .ok (.single (.str "c")) ∧
    StandsFor Sample.atSecond (.str "x") Sample.tiedLog (.str "c") ∧
    changed Sample.atSecond (arguments (.str "x") Sample.sortedLog) = .ok (.single (.str "c")) ∧
    (∃ p ∈ Sample.tiedLog, ∃ k, Sample.atSecond.placeOf? p.1 = some k ∧ 1 < k ∧ k ≤ 2) ∧
    (∃ e, changed Sample.atThird [.str "x", .str "v1"] = .error e) ∧
    ∃ e, changed Sample.atThird [.str "x", .str "v1", .str "b", .set [], .str "c"] = .error e := by
  have hknown : AllKnown Sample.atSecond Sample.tiedLog := by
    have hplaces : ∀ p ∈ Sample.tiedLog, (Sample.atSecond.placeOf? p.1).isSome := by decide
    exact fun p hp => Option.isSome_iff_exists.1 (hplaces p hp)
  have hsecond : changed Sample.atSecond (arguments (.str "x") Sample.tiedLog) =
      .ok (.single (.str "c")) := rfl
  have hdiffer : changed Sample.atSecond (arguments (.str "x") Sample.tiedLog) ≠
      changed Sample.atThird (arguments (.str "x") Sample.tiedLog) := by
    have hthird : changed Sample.atThird (arguments (.str "x") Sample.tiedLog) =
        .ok (.single (.str "d")) := rfl
    rw [hsecond, hthird]
    simp [Expansion.single]
  obtain ⟨hstands, hreorder, hchange, hrefused⟩ :=
    changed_followsLog Sample.atSecond (.str "x") Sample.tiedLog
  obtain ⟨form, hform, hstands⟩ := hstands hknown
  rw [hsecond] at hform
  cases hform
  refine ⟨hsecond, hstands, ?_, hchange Sample.atThird rfl (by decide) hdiffer,
    hrefused _ (.inl rfl) Sample.atThird rfl, hrefused _ (.inr ⟨1, .set [], rfl, rfl⟩)
      Sample.atThird rfl⟩
  exact (hreorder hknown Sample.sortedLog Sample.reordered_tiedLog).trans hsecond

end VersionedTree
