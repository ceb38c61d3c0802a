import VersionedTree.Proofs.SideBySide

/-!
# The limit on passes

Passes are made over the forms of an invocation until one of them changes nothing or fails, and at
most one more of them than the limit says. The passes themselves do not depend on the limit, so all
that a limit can do is to cut them off. What is not cut off under a limit comes out in the same way
under every higher limit, for one invocation, for a walk that meets many of them, and for the walks
of a compilation. A compilation whose walks run side by side also depends on the order in which they
arrive, so under a higher limit it may report another of several failures.

## What is proved

* `Resolver.resolve_eq_iff` — what resolving an invocation gives under a limit, said by the passes.
* `Resolver.walkWithin_orCutOff` and `Compiler.compileArrivingWithin_orCutOff` — a higher limit
  changes nothing unless the lower one cuts off.
* `Compiler.limit_onlyCutsOff` — both together.
* `Compiler.limit_reportsOtherVersion` — two versions that fail, each of which is reported under one
  of two limits.
-/

namespace VersionedTree

/-! ### Outcomes up to a cut -/

namespace Outcome

variable {ε δ α β : Type} {cut : ε → Prop}

/-- The first outcome is cut off, or both are the same. -/
def OrCutOff (cut : ε → Prop) (x y : Except ε α) : Prop := (∃ e, x = .error e ∧ cut e) ∨ x = y

theorem orCutOff_refl (x : Except ε α) : OrCutOff cut x x := .inr rfl

/-- What is not cut off is the same. -/
theorem OrCutOff.eq {x y : Except ε α} (h : OrCutOff cut x y) (hx : ∀ e, x = .error e → ¬cut e) :
    x = y := by
  rcases h with ⟨e, he, hcut⟩ | h
  · exact absurd hcut (hx e he)
  · exact h

theorem OrCutOff.bind {x y : Except ε α} {f g : α → Except ε β} (h : OrCutOff cut x y)
    (hf : ∀ a, OrCutOff cut (f a) (g a)) : OrCutOff cut (x >>= f) (y >>= g) := by
  rcases h with ⟨e, rfl, hcut⟩ | rfl
  · exact .inl ⟨e, rfl, hcut⟩
  · cases x with
    | error e => exact orCutOff_refl _
    | ok a => exact hf a

theorem OrCutOff.mapError {x y : Except ε α} {cut' : δ → Prop} {g : ε → δ} (h : OrCutOff cut x y)
    (hcut : ∀ e, cut e → cut' (g e)) : OrCutOff cut' (x.mapError g) (y.mapError g) := by
  rcases h with ⟨e, rfl, he⟩ | rfl
  · exact .inl ⟨g e, rfl, hcut e he⟩
  · exact orCutOff_refl _

theorem orCutOff_mapM {f g : β → Except ε α} {items : List β}
    (h : ∀ b, OrCutOff cut (f b) (g b)) : OrCutOff cut (items.mapM f) (items.mapM g) := by
  induction items with
  | nil => exact orCutOff_refl _
  | cons b rest ih =>
    rw [List.mapM_cons, List.mapM_cons]
    exact (h b).bind fun _ => ih.bind fun _ => orCutOff_refl _

end Outcome

namespace Traced

variable {ε δ α β : Type} {cut : ε → Prop}

/-- The first computation is cut off, or both give the same. -/
def OrCutOff (cut : ε → Prop) (x y : Traced ε α) : Prop :=
  Outcome.OrCutOff cut x.result y.result

theorem orCutOff_refl (x : Traced ε α) : OrCutOff cut x x := Outcome.orCutOff_refl _

theorem orCutOff_bind {x y : Traced ε α} {f g : α → Traced ε β} (h : OrCutOff cut x y)
    (hf : ∀ a, OrCutOff cut (f a) (g a)) : OrCutOff cut (x >>= f) (y >>= g) := by
  rw [OrCutOff, result_bind, result_bind]
  exact Outcome.OrCutOff.bind h hf

theorem orCutOff_adapt {x y : Traced ε α} {cut' : δ → Prop} {g : ε → δ} (h : OrCutOff cut x y)
    (hcut : ∀ e, cut e → cut' (g e)) :
    OrCutOff cut' (ExceptT.adapt g x) (ExceptT.adapt g y) := by
  rw [OrCutOff, result_adapt, result_adapt]
  exact Outcome.OrCutOff.mapError h hcut

theorem orCutOff_mapM {f g : α → Traced ε β} {items : List α}
    (h : ∀ a, OrCutOff cut (f a) (g a)) : OrCutOff cut (items.mapM f) (items.mapM g) := by
  rw [OrCutOff, result_mapM, result_mapM]
  exact Outcome.orCutOff_mapM h

theorem orCutOff_foldlM {f g : β → α → Traced ε β} {init : β} {items : List α}
    (h : ∀ b a, OrCutOff cut (f b a) (g b a)) :
    OrCutOff cut (items.foldlM f init) (items.foldlM g init) := by
  induction items generalizing init with
  | nil => exact orCutOff_refl _
  | cons a rest ih =>
    rw [List.foldlM_cons, List.foldlM_cons]
    exact orCutOff_bind (h init a) fun _ => ih

end Traced

/-! ### How passes end -/

/-- The forms of a node after each number of passes, or the error of the pass that failed. -/
abbrev Passes := Nat → Except ResolveError (List Form)

namespace Passes

/-- The pass after the first `k` passes succeeds and changes the forms. -/
def Changes (passes : Passes) (k : Nat) : Prop :=
  ∃ forms next, passes k = .ok forms ∧ passes (k + 1) = .ok next ∧ (next == forms) = false

/-- Each of the first `k` passes succeeds and changes the forms. -/
def Unsettled (passes : Passes) (k : Nat) : Prop := ∀ i < k, passes.Changes i

/-- How the passes over the forms of a node end under a limit. -/
inductive EndsUnder (passes : Passes) (n : Node) (version : Version) (limit : Nat) :
    Except ResolveError (List Form) → Prop where
  /-- A pass within the limit changes nothing, and none before it does that or fails. -/
  | settles {k : Nat} {forms next : List Form} : k ≤ limit → passes.Unsettled k →
    passes k = .ok forms → passes (k + 1) = .ok next → (next == forms) = true →
    EndsUnder passes n version limit (.ok forms)
  /-- A pass within the limit fails, and none before it does that or changes nothing. -/
  | fails {k : Nat} {forms : List Form} {e : ResolveError} : k ≤ limit → passes.Unsettled k →
    passes k = .ok forms → passes (k + 1) = .error e →
    EndsUnder passes n version limit (.error e)
  /-- All passes within the limit succeed and change the forms. -/
  | cutOff {last : List Form} : passes.Unsettled (limit + 1) → passes (limit + 1) = .ok last →
    EndsUnder passes n version limit (.error (.passLimitExceeded n version limit last))

variable {passes : Passes} {n : Node} {version : Version} {limit limit' : Nat}
  {x y : Except ResolveError (List Form)}

theorem Unsettled.succ {k : Nat} (h : passes.Unsettled k) (hk : passes.Changes k) :
    passes.Unsettled (k + 1) := by
  intro i hi
  rcases Nat.lt_succ_iff_lt_or_eq.1 hi with hi | rfl
  · exact h i hi
  · exact hk

/-- There is one pass at most that is the first to fail or to change nothing. -/
theorem Unsettled.eq {j k : Nat} (hj : passes.Unsettled j) (hj' : ¬passes.Changes j)
    (hk : passes.Unsettled k) (hk' : ¬passes.Changes k) : j = k := by
  rcases Nat.lt_trichotomy j k with h | h | h
  · exact absurd (hk j h) hj'
  · exact h
  · exact absurd (hj k h) hk'

/-- A pass that leaves the forms equal does not change them. -/
theorem not_changes_of_beq {k : Nat} {forms next : List Form} (h : passes k = .ok forms)
    (h' : passes (k + 1) = .ok next) (heq : (next == forms) = true) : ¬passes.Changes k := by
  rintro ⟨_, _, hf, hn, hne⟩
  cases h.symm.trans hf
  cases h'.symm.trans hn
  rw [heq] at hne
  cases hne

/-- A pass that fails does not change the forms. -/
theorem not_changes_of_error {k : Nat} {e : ResolveError} (h : passes (k + 1) = .error e) :
    ¬passes.Changes k := by
  rintro ⟨_, _, -, hn, -⟩
  cases h.symm.trans hn

/-- Passes end in one way only. -/
theorem EndsUnder.eq (hx : passes.EndsUnder n version limit x)
    (hy : passes.EndsUnder n version limit y) : x = y := by
  -- A run that is not cut off stops at a pass within the limit.
  have hcut : ∀ {k}, k ≤ limit → ¬passes.Changes k → ¬passes.Unsettled (limit + 1) :=
    fun hk hstop h => hstop (h _ (Nat.lt_succ_of_le hk))
  cases hx with
  | settles hk hun hf hn heq =>
    have hstop := not_changes_of_beq hf hn heq
    cases hy with
    | settles _ hun' hf' hn' heq' =>
      obtain rfl := hun.eq hstop hun' (not_changes_of_beq hf' hn' heq')
      exact hf.symm.trans hf'
    | fails _ hun' _ hn' =>
      obtain rfl := hun.eq hstop hun' (not_changes_of_error hn')
      cases hn.symm.trans hn'
    | cutOff hun' _ => exact absurd hun' (hcut hk hstop)
  | fails hk hun _ hn =>
    have hstop := not_changes_of_error hn
    cases hy with
    | settles _ hun' hf' hn' heq' =>
      obtain rfl := hun.eq hstop hun' (not_changes_of_beq hf' hn' heq')
      cases hn.symm.trans hn'
    | fails _ hun' _ hn' =>
      obtain rfl := hun.eq hstop hun' (not_changes_of_error hn')
      cases hn.symm.trans hn'
      rfl
    | cutOff hun' _ => exact absurd hun' (hcut hk hstop)
  | cutOff hun hlast =>
    cases hy with
    | settles hk' _ hf' hn' heq' =>
      exact absurd hun (hcut hk' (not_changes_of_beq hf' hn' heq'))
    | fails hk' _ _ hn' => exact absurd hun (hcut hk' (not_changes_of_error hn'))
    | cutOff _ hlast' =>
      cases hlast.symm.trans hlast'
      rfl

/-- Passes that are not cut off end in the same way under a higher limit. -/
theorem EndsUnder.orCutOff (hle : limit ≤ limit') (hx : passes.EndsUnder n version limit x)
    (hy : passes.EndsUnder n version limit' y) :
    Outcome.OrCutOff (fun e => e.kind = .passLimitExceeded) x y := by
  cases hx with
  | settles hk hun hf hn heq =>
    exact .inr (EndsUnder.eq (.settles (Nat.le_trans hk hle) hun hf hn heq) hy)
  | fails hk hun hf hn => exact .inr (EndsUnder.eq (.fails (Nat.le_trans hk hle) hun hf hn) hy)
  | cutOff _ _ => exact .inl ⟨_, rfl, rfl⟩

end Passes

namespace Resolver

/-- The forms of a node after each number of passes. -/
def passes (r : Resolver) (ctx : Context) (n : Node) : Passes
  | 0 => .ok [.node n]
  | k + 1 => passes r ctx n k >>= fun forms => (r.pass ctx forms).result

/-- The resolver under another limit. -/
def withLimit (r : Resolver) (limit : Nat) : Resolver := { r with maxPasses := limit }

variable {r : Resolver} {ctx : Context} {n : Node} {limit limit' : Nat}

/-- The passes do not depend on the limit. -/
theorem passes_withLimit : (r.withLimit limit).passes ctx n = r.passes ctx n := by
  funext k
  induction k with
  | zero => rfl
  | succ k ih =>
    rw [passes, passes, ih]
    rfl

theorem passes_succ {k : Nat} {forms : List Form} (h : r.passes ctx n k = .ok forms) :
    r.passes ctx n (k + 1) = (r.pass ctx forms).result := by
  rw [passes, h]
  rfl

/-- Passes that go on up to the limit end as all passes do. -/
theorem endsUnder_settle {left done : Nat} {forms : List Form}
    (hlimit : done + left = r.maxPasses + 1) (hforms : r.passes ctx n done = .ok forms)
    (hdone : (r.passes ctx n).Unsettled done) :
    (r.passes ctx n).EndsUnder n ctx.version r.maxPasses
      (r.settle ctx n left done forms).result := by
  induction left generalizing done forms with
  | zero =>
    obtain rfl : done = r.maxPasses + 1 := hlimit
    exact .cutOff hdone hforms
  | succ left ih =>
    have hk : done ≤ r.maxPasses := by omega
    have hnext := passes_succ hforms
    rw [settle, Traced.result_bind]
    cases hpass : (r.pass ctx forms).result with
    | error e => exact .fails hk hdone hforms (hnext.trans hpass)
    | ok next =>
      rw [hpass] at hnext
      rw [Outcome.ok_bind]
      cases heq : next == forms with
      | true => exact .settles hk hdone hforms hnext heq
      | false =>
        exact ih (by omega) hnext (hdone.succ ⟨forms, next, hforms, hnext, heq⟩)

/-- What resolving an invocation gives is how its passes end under the limit. -/
theorem resolve_eq_iff (hn : n.isInvocation = true) {x : Except ResolveError (List Form)} :
    (r.resolve ctx n).result = x ↔ (r.passes ctx n).EndsUnder n ctx.version r.maxPasses x := by
  have hends : (r.passes ctx n).EndsUnder n ctx.version r.maxPasses (r.resolve ctx n).result := by
    rw [resolve, if_pos hn]
    exact endsUnder_settle (Nat.zero_add _) rfl fun i hi => absurd hi (Nat.not_lt_zero i)
  constructor
  · rintro rfl
    exact hends
  · exact hends.eq

/-- The passes are the same ones under every limit. -/
theorem resolve_withLimit_eq_iff (hn : n.isInvocation = true)
    {x : Except ResolveError (List Form)} :
    ((r.withLimit limit).resolve ctx n).result = x ↔
      (r.passes ctx n).EndsUnder n ctx.version limit x := by
  rw [resolve_eq_iff hn, passes_withLimit]
  rfl

/-! ### Raising the limit of a walk -/

theorem resolve_orCutOff (hle : limit ≤ limit') (n : Node) :
    Traced.OrCutOff (fun e => e.kind = .passLimitExceeded) ((r.withLimit limit).resolve ctx n)
      ((r.withLimit limit').resolve ctx n) := by
  cases hn : n.isInvocation with
  | false =>
    rw [resolve, resolve, hn]
    exact Traced.orCutOff_refl _
  | true =>
    have hx : (r.passes ctx n).EndsUnder n ctx.version limit _ :=
      (resolve_withLimit_eq_iff hn).1 rfl
    have hy : (r.passes ctx n).EndsUnder n ctx.version limit' _ :=
      (resolve_withLimit_eq_iff hn).1 rfl
    exact hx.orCutOff hle hy

theorem resolveSlot_orCutOff (hle : limit ≤ limit') (n : Node) :
    Traced.OrCutOff (fun e => e.kind = .passLimitExceeded)
      ((r.withLimit limit).resolveSlot ctx n) ((r.withLimit limit').resolveSlot ctx n) :=
  Traced.orCutOff_adapt (resolve_orCutOff hle n) fun _ he => he

theorem splice_orCutOff (hle : limit ≤ limit') (items : List Node) :
    Traced.OrCutOff (fun e => e.kind = .passLimitExceeded)
      ((r.withLimit limit).splice ctx items) ((r.withLimit limit').splice ctx items) :=
  Traced.orCutOff_bind (Traced.orCutOff_mapM (resolveSlot_orCutOff hle)) fun _ =>
    Traced.orCutOff_refl _

theorem resolveSide_orCutOff (hle : limit ≤ limit') (slot : Slot) (n : Node) :
    Traced.OrCutOff (fun e => e.kind = .passLimitExceeded)
      ((r.withLimit limit).resolveSide ctx slot n)
      ((r.withLimit limit').resolveSide ctx slot n) :=
  Traced.orCutOff_bind (resolveSlot_orCutOff hle n) fun _ => Traced.orCutOff_refl _

theorem resolvePair_orCutOff (hle : limit ≤ limit')
    {descend descend' : Node → Traced WalkError Node}
    (hdescend : ∀ n, Traced.OrCutOff (fun e => e.kind = .passLimitExceeded) (descend n)
      (descend' n)) (built : List (Node × Node)) (p : Node × Node) :
    Traced.OrCutOff (fun e => e.kind = .passLimitExceeded)
      ((r.withLimit limit).resolvePair ctx descend built p)
      ((r.withLimit limit').resolvePair ctx descend' built p) := by
  refine Traced.orCutOff_bind (resolveSide_orCutOff hle .key p.1) fun key => ?_
  refine Traced.orCutOff_bind (resolveSide_orCutOff hle .value p.2) fun value => ?_
  cases key with
  | none => exact Traced.orCutOff_refl _
  | some key =>
    cases value with
    | none => exact Traced.orCutOff_refl _
    | some value =>
      refine Traced.orCutOff_bind (hdescend key) fun _ => ?_
      exact Traced.orCutOff_bind (hdescend value) fun _ => Traced.orCutOff_refl _

theorem resolveInside_orCutOff (hle : limit ≤ limit') (bound : Nat) (n : Node) :
    Traced.OrCutOff (fun e => e.kind = .passLimitExceeded)
      ((r.withLimit limit).resolveInside ctx bound n)
      ((r.withLimit limit').resolveInside ctx bound n) := by
  induction bound generalizing n with
  | zero => cases n <;> exact Traced.orCutOff_refl _
  | succ bound ih =>
    cases n with
    | scalar value => exact Traced.orCutOff_refl _
    | invocation tag args => exact Traced.orCutOff_refl _
    | sequence items =>
      refine Traced.orCutOff_bind (splice_orCutOff hle items) fun nodes => ?_
      exact Traced.orCutOff_bind (Traced.orCutOff_mapM ih) fun _ => Traced.orCutOff_refl _
    | set members =>
      refine Traced.orCutOff_bind (splice_orCutOff hle members) fun nodes => ?_
      exact Traced.orCutOff_bind (Traced.orCutOff_mapM ih) fun _ => Traced.orCutOff_refl _
    | mapping pairs =>
      refine Traced.orCutOff_bind (Traced.orCutOff_foldlM fun built p => ?_) fun _ =>
        Traced.orCutOff_refl _
      exact resolvePair_orCutOff hle ih built p

/-- A walk that is not cut off under a limit ends in the same way under a higher one. -/
theorem walkWithin_orCutOff (hle : limit ≤ limit') (bound : Nat) (ctx : Context) (tree : Node) :
    Traced.OrCutOff (fun e => e.kind = .passLimitExceeded)
      ((r.withLimit limit).walkWithin bound ctx tree)
      ((r.withLimit limit').walkWithin bound ctx tree) := by
  refine Traced.orCutOff_bind (Traced.orCutOff_refl _) fun _ => ?_
  split
  · refine Traced.orCutOff_bind ?_ fun n => resolveInside_orCutOff hle bound n
    exact Traced.orCutOff_bind (resolveSlot_orCutOff hle tree) fun _ => Traced.orCutOff_refl _
  · exact resolveInside_orCutOff hle bound tree

end Resolver

/-! ### Raising the limit of a compilation -/

section Gather

variable {ε α γ : Type} {cut : ε → Prop} {f g : γ → Except ε α}

/-- Whichever failure is the first to arrive, it is cut off, or the same. -/
theorem findSome?_failureAt_orCutOff (h : ∀ a, Outcome.OrCutOff cut (f a) (g a))
    (arrival : List Nat) (items : List γ) :
    (∃ e, arrival.findSome? (failureAt (items.map f)) = some e ∧ cut e) ∨
      arrival.findSome? (failureAt (items.map f)) =
        arrival.findSome? (failureAt (items.map g)) := by
  have hplace : ∀ i, (∃ e, failureAt (items.map f) i = some e ∧ cut e) ∨
      failureAt (items.map f) i = failureAt (items.map g) i := by
    intro i
    rw [failureAt, failureAt, List.getElem?_map, List.getElem?_map]
    cases items[i]? with
    | none => exact .inr rfl
    | some a =>
      rcases h a with ⟨e, he, hcut⟩ | heq
      · exact .inl ⟨e, by rw [Option.map_some, he], hcut⟩
      · exact .inr (by rw [Option.map_some, Option.map_some, heq])
  induction arrival with
  | nil => exact .inr rfl
  | cons i arrival ih =>
    rw [List.findSome?_cons, List.findSome?_cons]
    rcases hplace i with ⟨e, he, hcut⟩ | heq
    · rw [he]
      exact .inl ⟨e, rfl, hcut⟩
    · rw [heq]
      cases failureAt (items.map g) i with
      | some d => exact .inr rfl
      | none => exact ih

theorem gather_orCutOff (h : ∀ a, Outcome.OrCutOff cut (f a) (g a)) (arrival : List Nat)
    (items : List γ) :
    Outcome.OrCutOff cut (gather arrival (items.map f)) (gather arrival (items.map g)) := by
  rw [gather_eq, gather_eq, List.mapM_map, List.mapM_map]
  rcases findSome?_failureAt_orCutOff h arrival items with ⟨e, he, hcut⟩ | heq
  · rw [he]
    exact .inl ⟨e, rfl, hcut⟩
  · rw [heq]
    cases arrival.findSome? (failureAt (items.map g)) with
    | some e => exact Outcome.orCutOff_refl _
    | none => exact Outcome.orCutOff_mapM h

end Gather

namespace Compiler

/-- The compiler under another limit. -/
def withLimit (c : Compiler) (limit : Nat) : Compiler :=
  { c with settings := { c.settings with maxPasses := limit } }

variable {c : Compiler} {arrival : List Nat} {bound limit limit' : Nat} {known : KnownVersions}
  {tree : Node}

theorem withLimit_parallel : (c.withLimit limit).settings.parallel = c.settings.parallel := rfl

theorem walkAllWithin_orCutOff (hle : limit ≤ limit') (contexts : List Context) :
    Traced.OrCutOff (fun e => e.kind = .passLimitExceeded)
      ((c.withLimit limit).walkAllWithin arrival bound contexts tree)
      ((c.withLimit limit').walkAllWithin arrival bound contexts tree) := by
  have hwalk : ∀ ctx, Traced.OrCutOff (fun e => e.kind = .passLimitExceeded)
      ((c.withLimit limit).walkWithin bound tree ctx)
      ((c.withLimit limit').walkWithin bound tree ctx) := fun ctx =>
    Traced.orCutOff_adapt (Resolver.walkWithin_orCutOff (r := c.resolver) hle bound ctx tree)
      fun _ he => he
  rw [walkAllWithin, walkAllWithin, withLimit_parallel, withLimit_parallel]
  split
  · show Outcome.OrCutOff _ (gather arrival ((contexts.map _).map Logged.value))
      (gather arrival ((contexts.map _).map Logged.value))
    rw [List.map_map, List.map_map]
    exact gather_orCutOff hwalk arrival contexts
  · exact Traced.orCutOff_mapM hwalk

theorem resolveArrivingWithin_orCutOff (hlimit : 1 ≤ limit) (hle : limit ≤ limit')
    (selector : Option String) :
    Traced.OrCutOff (fun e => e.kind = .passLimitExceeded)
      ((c.withLimit limit).resolveArrivingWithin arrival bound selector known tree)
      ((c.withLimit limit').resolveArrivingWithin arrival bound selector known tree) := by
  have hsettings : Traced.OrCutOff (fun e => e.kind = .passLimitExceeded)
      (c.withLimit limit).checkSettings (c.withLimit limit').checkSettings :=
    .inr ((result_checkSettings (c := c.withLimit limit) hlimit).trans
      (result_checkSettings (c := c.withLimit limit') (Nat.le_trans hlimit hle)).symm)
  refine Traced.orCutOff_bind hsettings fun _ => ?_
  exact Traced.orCutOff_bind (walkAllWithin_orCutOff hle _) fun _ => Traced.orCutOff_refl _

/-- A compilation that is not cut off under a limit ends in the same way under a higher one. -/
theorem compileArrivingWithin_orCutOff (hlimit : 1 ≤ limit) (hle : limit ≤ limit')
    (selector : String) :
    Traced.OrCutOff (fun e => e.kind = .passLimitExceeded)
      ((c.withLimit limit).compileArrivingWithin arrival bound selector known tree)
      ((c.withLimit limit').compileArrivingWithin arrival bound selector known tree) := by
  have hrows : Traced.OrCutOff (fun e => e.kind = .passLimitExceeded)
      ((c.withLimit limit).resolveArrivingWithin arrival bound (some selector) known tree)
      ((c.withLimit limit').resolveArrivingWithin arrival bound (some selector) known tree) :=
    resolveArrivingWithin_orCutOff hlimit hle (some selector)
  by_cases hnil : known.toList = []
  · exact .inr ((result_compileArrivingWithin_of_nil hnil).trans
      (result_compileArrivingWithin_of_nil hnil).symm)
  · have hsize : known.size ≠ 0 := fun h0 => hnil (List.eq_nil_of_length_eq_zero h0)
    rw [compileArrivingWithin, compileArrivingWithin, withLimit_parallel, withLimit_parallel,
      if_neg hsize, if_neg hsize]
    refine Traced.orCutOff_bind (Traced.orCutOff_refl _) fun _ => ?_
    exact Traced.orCutOff_bind hrows fun _ => Traced.orCutOff_refl _

/-- What is not cut off under a limit is repeated under a higher one, whatever the two orders of
arrival. -/
theorem compileArrivingWithin_repeats {arrival' : List Nat} {selector : String} (hlimit : 1 ≤ limit)
    (hle : limit ≤ limit') (harrives : Arrives arrival known.size)
    (harrives' : Arrives arrival' known.size)
    (h : ∀ e, ((c.withLimit limit).compileArrivingWithin arrival bound selector known
      tree).result = .error e → e.kind ≠ .passLimitExceeded) :
    (c.withLimit limit').Repeats arrival' bound selector known tree
      ((c.withLimit limit).compileArrivingWithin arrival bound selector known tree).result := by
  rw [(compileArrivingWithin_orCutOff hlimit hle selector).eq h]
  exact repeats harrives harrives'

/-- The limit on passes only cuts off. Resolving an invocation gives the forms before the first pass
that changes nothing, or the error of the first pass that fails, if that pass comes no later than
pass number `limit`, where the first pass has number zero; otherwise the error tells the limit and
the forms after all `limit + 1` passes. A walk that is not cut off gives the same under every higher
limit, and so does a compilation whose walks arrive in the same order; with an order of its own, a
compilation under a higher limit repeats the result. -/
theorem limit_onlyCutsOff (c : Compiler) :
    (∀ limit ctx n, n.isInvocation = true → ∀ x,
      ((c.resolver.withLimit limit).resolve ctx n).result = x ↔
        (c.resolver.passes ctx n).EndsUnder n ctx.version limit x) ∧
    ∀ limit limit' bound tree, limit ≤ limit' →
      (∀ ctx, (∀ e, ((c.resolver.withLimit limit).walkWithin bound ctx tree).result = .error e →
          e.kind ≠ .passLimitExceeded) →
        ((c.resolver.withLimit limit).walkWithin bound ctx tree).result =
          ((c.resolver.withLimit limit').walkWithin bound ctx tree).result) ∧
      (1 ≤ limit → ∀ arrival selector known,
        (∀ e, ((c.withLimit limit).compileArrivingWithin arrival bound selector known
          tree).result = .error e → e.kind ≠ .passLimitExceeded) →
        ((c.withLimit limit).compileArrivingWithin arrival bound selector known tree).result =
          ((c.withLimit limit').compileArrivingWithin arrival bound selector known
            tree).result ∧
        ∀ arrival', Arrives arrival known.size → Arrives arrival' known.size →
          (c.withLimit limit').Repeats arrival' bound selector known tree
            ((c.withLimit limit).compileArrivingWithin arrival bound selector known
              tree).result) := by
  refine ⟨fun limit ctx n hn x => ?_, fun limit limit' bound tree hle => ⟨?_, ?_⟩⟩
  · exact Resolver.resolve_withLimit_eq_iff hn
  · exact fun ctx hwalk => (Resolver.walkWithin_orCutOff hle bound ctx tree).eq hwalk
  · intro hlimit arrival selector known hcompile
    refine ⟨(compileArrivingWithin_orCutOff hlimit hle selector).eq hcompile, ?_⟩
    exact fun arrival' harrives harrives' =>
      compileArrivingWithin_repeats hlimit hle harrives harrives' hcompile

end Compiler

/-! ### Two passes to go -/

namespace Sample

/-- A compiler whose only qualifier takes a number of passes. -/
def nesting : Compiler := ⟨Table.ofList [(⟨"nest"⟩, .silent (nest ⟨"nest"⟩))], {}⟩

/-- An invocation that is `x` after two passes. -/
def twoPasses : Node := .invocation ⟨"nest"⟩ [.int 1, .str "x"]

end Sample

/-- The passes before the third change the forms. -/
theorem Sample.unsettled_twoPasses :
    (nesting.resolver.passes atSecond twoPasses).Unsettled 2 := by
  intro i hi
  match i, hi with
  | 0, _ => exact ⟨_, _, rfl, rfl, rfl⟩
  | 1, _ => exact ⟨_, _, rfl, rfl, rfl⟩

/-- The limit two is enough for two passes and one that changes nothing, and the limit one is not,
though it gets as far as the forms that do not change any more. -/
theorem Compiler.limit_onlyCutsOff_twoPasses :
    ((Sample.nesting.resolver.withLimit 2).resolve Sample.atSecond Sample.twoPasses).result =
        .ok [.node (.str "x")] ∧
      ((Sample.nesting.resolver.withLimit 1).resolve Sample.atSecond Sample.twoPasses).result =
        .error (.passLimitExceeded Sample.twoPasses ⟨"v1"⟩ 1 [.node (.str "x")]) ∧
      ((Sample.nesting.resolver.withLimit 7).walkWithin 1 Sample.atSecond
        (.sequence [Sample.twoPasses])).result = .ok (.sequence [.str "x"]) ∧
      ((Sample.nesting.withLimit 7).compileArrivingWithin [0, 1, 2] 1 "api" Sample.threeVersions
        (.sequence [Sample.twoPasses])).result = .ok (.resolved (.sequence [.str "x"])) ∧
      Arrives [2, 0, 1] Sample.threeVersions.size ∧
      (Sample.nesting.withLimit 7).Repeats [2, 0, 1] 1 "api" Sample.threeVersions
        (.sequence [Sample.twoPasses]) (.ok (.resolved (.sequence [.str "x"]))) := by
  obtain ⟨hresolve, hhigher⟩ := limit_onlyCutsOff Sample.nesting
  obtain ⟨hwalk, hcompile⟩ := hhigher 2 7 1 (.sequence [Sample.twoPasses]) (by decide)
  obtain ⟨hsame, hrepeats⟩ := hcompile (by decide) [0, 1, 2] "api" Sample.threeVersions
    fun e he => by cases he
  have harrives : Arrives [0, 1, 2] Sample.threeVersions.size := List.Perm.refl _
  have harrives' : Arrives [2, 0, 1] Sample.threeVersions.size := by
    unfold Arrives
    decide
  refine ⟨?_, ?_, ?_, hsame.symm, harrives', hrepeats [2, 0, 1] harrives harrives'⟩
  · exact (hresolve 2 _ _ rfl _).2 (.settles (Nat.le_refl 2) Sample.unsettled_twoPasses rfl rfl rfl)
  · exact (hresolve 1 _ _ rfl _).2 (.cutOff Sample.unsettled_twoPasses rfl)
  · exact (hwalk Sample.atSecond fun e he => by cases he).symm

/-- Two versions fail, each with an error that names it and without being cut off. If the walks run
side by side and another one is the first to come to an end under the higher limit, another error
comes out. -/
theorem Compiler.limit_reportsOtherVersion :
    Arrives [0, 1] Sample.twoVersions.size ∧ Arrives [1, 0] Sample.twoVersions.size ∧
      (((Sample.failing.withParallel true).withLimit 1).compileArrivingWithin [0, 1] 1 "api"
        Sample.twoVersions Sample.unresolvable).result =
          .error (.walk (Sample.refusalAt "v0")) ∧
      (CompileError.walk (Sample.refusalAt "v0")).kind ≠ .passLimitExceeded ∧
      (((Sample.failing.withParallel true).withLimit 2).compileArrivingWithin [1, 0] 1 "api"
        Sample.twoVersions Sample.unresolvable).result =
          .error (.walk (Sample.refusalAt "v1")) ∧
      (CompileError.walk (Sample.refusalAt "v1")).message ≠
        (CompileError.walk (Sample.refusalAt "v0")).message :=
  ⟨List.Perm.refl _, List.Perm.swap 0 1 [], rfl, by decide, rfl, by decide⟩

end VersionedTree
