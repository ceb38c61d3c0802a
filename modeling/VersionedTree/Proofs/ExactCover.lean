import VersionedTree.Proofs.Contexts
import VersionedTree.Proofs.Rules

/-!
# One clause for every version

The clauses of a `switch` are an exact cover of the known versions: the versions that its keys name
are the known ones, each named once, in any order. Keys are nodes, and different keys may name one
version, so unequal keys are no guarantee.

A mapping that is no exact cover is refused with three lists: the known versions without a clause,
the clauses without a known version, and the versions with several clauses. They say how the named
versions differ from the known ones. The version at hand has no part in them, and at least one of
them says something.

## What is proved

* `Switch.mem_repeated_iff` and `Switch.nodup_repeated` — the versions that are listed as repeated.
* `Switch.Names.isOnlyClause` — in an exact cover a version has one clause.
* `Switch.choose_of_not_perm` — how clauses that are no exact cover are refused.
* `Switch.switch_exactCover` — what a `switch` accepts, what it stands for, and what it complains
  of.
-/

namespace VersionedTree

namespace Switch

/-! ### Repeated versions -/

theorem mem_repeatedFrom_iff {seen reported versions : List Version} {v : Version} :
    v ∈ repeatedFrom seen reported versions ↔
      v ∉ reported ∧ (v ∈ seen ∧ v ∈ versions ∨ 2 ≤ versions.count v) := by
  induction versions generalizing seen reported with
  | nil => simp [repeatedFrom]
  | cons w rest ih =>
    have hcount : v ∈ rest ↔ 1 ≤ rest.count v := List.one_le_count_iff.symm
    rw [repeatedFrom]
    by_cases hvw : v = w
    · subst hvw
      by_cases hseen : v ∈ seen
      · by_cases hreported : v ∈ reported
        · simp [hseen, hreported, ih]
        · simp [hseen, hreported]
      · simp only [hseen, if_false, ih, List.mem_cons_self, true_and, hcount,
          List.count_cons_self, false_and, false_or]
        refine and_congr_right fun _ => ?_
        omega
    · have hne : w ≠ v := Ne.symm hvw
      by_cases hseen : w ∈ seen
      · by_cases hreported : w ∈ reported
        · simp [hseen, hreported, ih, hvw, hne]
        · simp [hseen, hreported, ih, hvw, hne]
      · simp [hseen, ih, hvw, hne]

theorem nodup_repeatedFrom (seen reported versions : List Version) :
    (repeatedFrom seen reported versions).Nodup := by
  induction versions generalizing seen reported with
  | nil => exact .nil
  | cons w rest ih =>
    rw [repeatedFrom]
    split_ifs
    · exact ih seen reported
    · -- what has been reported is not reported again
      refine List.nodup_cons.2 ⟨fun h => ?_, ih seen (w :: reported)⟩
      exact (mem_repeatedFrom_iff.1 h).1 (List.mem_cons_self ..)
    · exact ih (w :: seen) reported

/-- A version is repeated if it is listed twice or more. -/
theorem mem_repeated_iff {versions : List Version} {v : Version} :
    v ∈ repeated versions ↔ 2 ≤ versions.count v := by
  simp [repeated, mem_repeatedFrom_iff]

theorem nodup_repeated (versions : List Version) : (repeated versions).Nodup :=
  nodup_repeatedFrom [] [] versions

/-! ### The clause for a version -/

/-- The keys name the versions, pair by pair. -/
def Names (pairs : List (Node × Node)) (named : List Version) : Prop :=
  List.Forall₂ (fun p v => Version.ofNode? p.1 = some v) pairs named

/-- The form stands under the only key that names the version. -/
def IsOnlyClause (v : Version) (pairs : List (Node × Node)) (form : Node) : Prop :=
  ∃ before key after, pairs = before ++ (key, form) :: after ∧ Version.ofNode? key = some v ∧
    ∀ q ∈ before ++ after, Version.ofNode? q.1 ≠ some v

/-- A version that a key names is among the named ones. -/
theorem Names.mem {pairs : List (Node × Node)} {named : List Version} (h : Names pairs named)
    {p : Node × Node} (hp : p ∈ pairs) {v : Version} (hv : Version.ofNode? p.1 = some v) :
    v ∈ named := by
  obtain ⟨w, hw, hpw⟩ := exists_mem_right_of_forall₂ h hp
  rw [hv, Option.some.injEq] at hpw
  exact hpw ▸ hw

/-- Where no version is named twice, a clause for a version is the only one. -/
theorem Names.isOnlyClause {pairs : List (Node × Node)} {named : List Version}
    (h : Names pairs named) (hnodup : named.Nodup) {p : Node × Node} (hp : p ∈ pairs) {v : Version}
    (hv : Version.ofNode? p.1 = some v) : IsOnlyClause v pairs p.2 := by
  induction h with
  | nil => cases hp
  | @cons q w rest named hqw hrest ih =>
    obtain ⟨hw, hnodup⟩ := List.nodup_cons.1 hnodup
    rcases List.mem_cons.1 hp with rfl | hp
    · refine ⟨[], p.1, rest, rfl, hv, fun q hq hq' => hw ?_⟩
      rw [hqw, Option.some.injEq] at hv
      exact hv ▸ Names.mem hrest hq hq'
    · obtain ⟨before, key, after, hsplit, hkey, hother⟩ := ih hnodup hp
      refine ⟨q :: before, key, after, congrArg (q :: ·) hsplit, hkey, ?_⟩
      refine List.forall_mem_cons.2 ⟨fun hq => hw ?_, hother⟩
      rw [hqw, Option.some.injEq] at hq
      exact hq ▸ Names.mem hrest hp hv

/-- Reordered pairs name the same versions, reordered. -/
theorem Names.perm {pairs pairs' : List (Node × Node)} {named : List Version}
    (h : Names pairs named) (hpairs : pairs.Perm pairs') :
    ∃ named', Names pairs' named' ∧ named'.Perm named := by
  obtain ⟨named', hnamed', hperm⟩ := List.perm_comp_forall₂ hpairs.symm h
  exact ⟨named', hnamed', hperm⟩

/-! ### What a `switch` complains of -/

/-- The three lists tell how the versions that are named differ from the known ones. -/
structure Complaints (known : KnownVersions) (named missing unexpected repeated : List Version) :
    Prop where
  /-- The known versions that are not named, in the order of declaration. -/
  missing : missing = known.toList.filter (· ∉ named)
  /-- The named versions that are not known, in the order of the pairs. -/
  unexpected : unexpected = named.filter (· ∉ known.toList)
  /-- The known versions that are named more than once. -/
  mem_repeated : ∀ v, v ∈ repeated ↔ v ∈ known.toList ∧ 2 ≤ named.count v
  /-- Each of these is listed once. -/
  nodup_repeated : repeated.Nodup

theorem complaints (known : KnownVersions) (named : List Version) :
    Complaints known named (known.toList.filter fun v => !named.contains v)
      (named.filter fun v => !known.contains v) (repeated (named.filter known.contains)) where
  missing := by simp
  unexpected := by simp [KnownVersions.contains]
  mem_repeated v := by
    rw [mem_repeated_iff]
    by_cases hv : known.contains v = true
    · have hmem : v ∈ known.toList := List.contains_iff_mem.1 hv
      rw [List.count_filter hv, and_iff_right hmem]
    · have hmem : v ∉ known.toList := fun h => hv (List.contains_iff_mem.2 h)
      have hcount : (named.filter known.contains).count v = 0 := by
        rw [List.count_eq_zero, List.mem_filter]
        exact fun h => hv h.2
      simp [hcount, hmem]
  nodup_repeated := nodup_repeated _

/-- Clauses that are no exact cover are refused, whatever the version at hand. -/
theorem choose_of_not_perm {ctx : Context} {read : List (Version × Node)}
    (h : ¬(read.map Prod.fst).Perm ctx.known.toList) :
    choose ctx read = .error (.mismatchedSwitch
      (ctx.known.toList.filter fun v => !(read.map Prod.fst).contains v)
      ((read.map Prod.fst).filter fun v => !ctx.known.contains v)
      (repeated ((read.map Prod.fst).filter ctx.known.contains))) := by
  unfold choose
  dsimp only
  split
  · rename_i hmissing hunexpected hrepeated
    exact absurd (perm_known_iff.2 ⟨hmissing, hunexpected, hrepeated⟩) h
  · rfl

/-! ### The whole of a `switch` -/

theorem exists_switch_eq_ok_iff {ctx : Context} {args : List Node} :
    (∃ form, switch ctx args = .ok (.single form)) ↔ ∃ pairs named, args = [.mapping pairs] ∧
      Names pairs named ∧ named.Perm ctx.known.toList := by
  constructor
  · rintro ⟨form, h⟩
    obtain ⟨pairs, named, hargs, hnamed, hperm, -⟩ := switch_eq_ok_iff.1 h
    exact ⟨pairs, named, hargs, hnamed, hperm⟩
  · rintro ⟨pairs, named, rfl, hnamed, hperm⟩
    have hmem : ctx.version ∈ named := hperm.mem_iff.2 ctx.version_mem
    obtain ⟨p, hp, hversion⟩ := exists_mem_left_of_forall₂ hnamed hmem
    exact ⟨p.2, switch_eq_ok_iff.2 ⟨pairs, named, rfl, hnamed, hperm, p, hp, hversion, rfl⟩⟩

/-- A `switch` that succeeds stands for the form of its only clause for the version at hand. -/
theorem isOnlyClause_of_switch {ctx : Context} {args : List Node} {e : Expansion}
    (h : switch ctx args = .ok e) : ∃ pairs form, args = [.mapping pairs] ∧ e = .single form ∧
      IsOnlyClause ctx.version pairs form := by
  obtain ⟨pairs, named, rfl, hnamed, hperm, p, hp, hversion, rfl⟩ := switch_eq_ok_iff.1 h
  exact ⟨pairs, p.2, rfl, rfl,
    Names.isOnlyClause hnamed (hperm.nodup_iff.2 ctx.known.nodup) hp hversion⟩

/-- The order of the pairs does not matter. -/
theorem switch_of_perm {ctx : Context} {pairs pairs' : List (Node × Node)} {e : Expansion}
    (hpairs : pairs.Perm pairs') (h : switch ctx [.mapping pairs] = .ok e) :
    switch ctx [.mapping pairs'] = .ok e := by
  obtain ⟨_, named, hargs, hnamed, hperm, p, hp, hversion, rfl⟩ := switch_eq_ok_iff.1 h
  cases hargs
  obtain ⟨named', hnamed', hperm'⟩ := Names.perm hnamed hpairs
  exact switch_eq_ok_iff.2 ⟨pairs', named', rfl, hnamed', hperm'.trans hperm, p,
    hpairs.mem_iff.1 hp, hversion, rfl⟩

/-- Keys that are all versions, but not the known ones, are refused with the same three lists for
every version. -/
theorem exists_complaints_of_not_perm {known : KnownVersions} {pairs : List (Node × Node)}
    {named : List Version} (hnamed : Names pairs named) (h : ¬named.Perm known.toList) :
    ∃ missing unexpected repeated, Complaints known named missing unexpected repeated ∧
      ¬(missing = [] ∧ unexpected = [] ∧ repeated = []) ∧
      ∀ ctx : Context, ctx.known = known → switch ctx [.mapping pairs] =
        .error (.mismatchedSwitch missing unexpected repeated) := by
  refine ⟨_, _, _, complaints known named, fun hnil => h (perm_known_iff.2 hnil), ?_⟩
  rintro ctx rfl
  obtain ⟨read, hread, rfl⟩ := exists_clauses_of_named hnamed
  rw [switch, hread, Outcome.ok_bind]
  exact choose_of_not_perm h

/-- A `switch` asks for an exact cover. It succeeds exactly when its only argument is a mapping
whose keys name the known versions, each once and in any order. It then stands for the form under
the only key that names the version at hand. If its keys name versions, but not the known ones in
some order, it fails for every version with the same error, which lists what is missing, unexpected
and repeated; at least one of the lists has something in it. -/
theorem switch_exactCover (ctx : Context) (args : List Node) :
    ((∃ form, switch ctx args = .ok (.single form)) ↔ ∃ pairs named, args = [.mapping pairs] ∧
      Names pairs named ∧ named.Perm ctx.known.toList) ∧
    (∀ e, switch ctx args = .ok e → ∃ pairs form, args = [.mapping pairs] ∧ e = .single form ∧
      IsOnlyClause ctx.version pairs form ∧
      ∀ pairs', pairs.Perm pairs' → switch ctx [.mapping pairs'] = .ok (.single form)) ∧
    ∀ pairs named, args = [.mapping pairs] → Names pairs named → ¬named.Perm ctx.known.toList →
      ∃ missing unexpected repeated, Complaints ctx.known named missing unexpected repeated ∧
        ¬(missing = [] ∧ unexpected = [] ∧ repeated = []) ∧
        ∀ ctx' : Context, ctx'.known = ctx.known → switch ctx' args =
          .error (.mismatchedSwitch missing unexpected repeated) := by
  refine ⟨exists_switch_eq_ok_iff, fun e h => ?_, ?_⟩
  · obtain ⟨pairs, form, rfl, rfl, hclause⟩ := isOnlyClause_of_switch h
    exact ⟨pairs, form, rfl, rfl, hclause, fun pairs' hpairs => switch_of_perm hpairs h⟩
  · rintro pairs named rfl hnamed h
    exact exists_complaints_of_not_perm hnamed h

end Switch

/-! ### A version that is named twice -/

namespace Sample

/-- Each of the three known versions is named once, and not in their order. -/
def covering : List (Node × Node) :=
  [(.str "v2", .str "c"), (.symbol "v0", .str "a"), (.str "v1", .str "b")]

/-- Two unequal keys name `v0`, and another one an unknown version; `v1` and `v2` have no clause. -/
def notCovering : List (Node × Node) :=
  [(.str "v0", .str "a"), (.int 9, .str "z"), (.symbol "v0", .str "b")]

end Sample

theorem Switch.switch_exactCover_covering :
    switch Sample.atSecond [.mapping Sample.covering] = .ok (.single (.str "b")) ∧
    IsOnlyClause ⟨"v1"⟩ Sample.covering (.str "b") ∧
    switch Sample.atSecond [.mapping Sample.notCovering] =
      .error (.mismatchedSwitch [⟨"v1"⟩, ⟨"v2"⟩] [⟨"9"⟩] [⟨"v0"⟩]) ∧
    Complaints Sample.threeVersions [⟨"v0"⟩, ⟨"9"⟩, ⟨"v0"⟩] [⟨"v1"⟩, ⟨"v2"⟩] [⟨"9"⟩] [⟨"v0"⟩] := by
  obtain ⟨-, hform, -⟩ := switch_exactCover Sample.atSecond [.mapping Sample.covering]
  obtain ⟨-, -, hrefused⟩ := switch_exactCover Sample.atSecond [.mapping Sample.notCovering]
  have hchosen : switch Sample.atSecond [.mapping Sample.covering] = .ok (.single (.str "b")) := rfl
  have herror : switch Sample.atSecond [.mapping Sample.notCovering] =
      .error (.mismatchedSwitch [⟨"v1"⟩, ⟨"v2"⟩] [⟨"9"⟩] [⟨"v0"⟩]) := rfl
  refine ⟨hchosen, ?_, herror, ?_⟩
  · obtain ⟨_, _, ⟨⟩, ⟨⟩, hclause, -⟩ := hform _ hchosen
    exact hclause
  · have hnamed : Names Sample.notCovering [⟨"v0"⟩, ⟨"9"⟩, ⟨"v0"⟩] :=
      .cons rfl (.cons rfl (.cons rfl .nil))
    obtain ⟨missing, unexpected, repeated, hcomplaints, -, herror'⟩ :=
      hrefused Sample.notCovering _ rfl hnamed (by decide)
    rw [herror' _ rfl] at herror
    cases herror
    exact hcomplaints

end VersionedTree
