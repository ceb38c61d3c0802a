import VersionedTree.Log.Logged

/-!
# Outcomes of computations

Rules for reasoning about what a computation gives, apart from what it records. A traced
computation is first reduced to its result, an `Except`; lists of computations are then described
by their outcomes one by one.

## What is proved

* `Outcome.mapM_eq_ok_iff` and `Outcome.mapM_eq_error_iff` — a list of computations succeeds when
  all of them do, and otherwise fails with the first failure.
* `Traced.result_mapM` and `Traced.result_adapt` — the result of a traced computation is computed
  from the results of its parts.
* `Traced.Meets` — what holds of the value when a computation succeeds and of the error when it
  fails, with a rule for each way to put computations together.
* `Traced.Alike` — two computations give the same value, or errors that look the same, with a rule
  for each way to put them together.
* `Traced.bind_congr_of_ok` — only how a computation goes on from the value that it is given
  matters.
-/

namespace VersionedTree

namespace Outcome

variable {ε α β : Type}

theorem ok_bind (a : α) (f : α → Except ε β) : (Except.ok a >>= f) = f a := rfl

theorem mapError_eq_ok_iff {δ : Type} {g : ε → δ} {x : Except ε α} {a : α} :
    x.mapError g = .ok a ↔ x = .ok a := by
  constructor
  · intro h
    cases x with
    | error e => cases h
    | ok b => exact congrArg Except.ok (Except.ok.inj h)
  · rintro rfl
    rfl

theorem mapError_eq_error_iff {δ : Type} {g : ε → δ} {x : Except ε α} {d : δ} :
    x.mapError g = .error d ↔ ∃ e, x = .error e ∧ g e = d := by
  constructor
  · intro h
    cases x with
    | error e => exact ⟨e, rfl, Except.error.inj h⟩
    | ok b => cases h
  · rintro ⟨e, rfl, rfl⟩
    rfl

theorem map_eq_ok_iff {f : α → β} {x : Except ε α} {b : β} :
    x.map f = .ok b ↔ ∃ a, x = .ok a ∧ f a = b := by
  constructor
  · intro h
    cases x with
    | error e => cases h
    | ok a => exact ⟨a, rfl, Except.ok.inj h⟩
  · rintro ⟨a, rfl, rfl⟩
    rfl

theorem map_eq_error_iff {f : α → β} {x : Except ε α} {e : ε} :
    x.map f = .error e ↔ x = .error e := by
  constructor
  · intro h
    cases x with
    | error d => exact congrArg Except.error (Except.error.inj h)
    | ok a => cases h
  · rintro rfl
    rfl

/-- The error is the first failure of a list of outcomes: everything before it is a success. -/
def FirstFailure (outcomes : List (Except ε α)) (e : ε) : Prop :=
  ∃ before after, outcomes = before ++ .error e :: after ∧ ∀ x ∈ before, ∃ a, x = .ok a

theorem bind_eq_ok_iff {x : Except ε α} {f : α → Except ε β} {b : β} :
    (x >>= f) = .ok b ↔ ∃ a, x = .ok a ∧ f a = .ok b := by
  cases x <;> simp [bind, Except.bind]

theorem bind_eq_error_iff {x : Except ε α} {f : α → Except ε β} {e : ε} :
    (x >>= f) = .error e ↔ x = .error e ∨ ∃ a, x = .ok a ∧ f a = .error e := by
  cases x <;> simp [bind, Except.bind]

/-- A list whose first outcome is a failure has no other first failure. -/
theorem firstFailure_error_cons_iff {d e : ε} {outcomes : List (Except ε α)} :
    FirstFailure (.error d :: outcomes) e ↔ d = e := by
  constructor
  · rintro ⟨before, after, h, hbefore⟩
    cases before with
    | nil =>
      rw [List.nil_append, List.cons.injEq, Except.error.injEq] at h
      exact h.1
    | cons x rest =>
      obtain ⟨a, ha⟩ := hbefore x (List.mem_cons_self ..)
      rw [List.cons_append, List.cons.injEq, ha] at h
      cases h.1
  · rintro rfl
    exact ⟨[], outcomes, rfl, by simp⟩

/-- A success at the front does not count. -/
theorem firstFailure_ok_cons_iff {a : α} {e : ε} {outcomes : List (Except ε α)} :
    FirstFailure (.ok a :: outcomes) e ↔ FirstFailure outcomes e := by
  constructor
  · rintro ⟨before, after, h, hbefore⟩
    cases before with
    | nil => cases h
    | cons x rest =>
      rw [List.cons_append, List.cons.injEq] at h
      exact ⟨rest, after, h.2, fun y hy => hbefore y (List.mem_cons_of_mem _ hy)⟩
  · rintro ⟨before, after, rfl, hbefore⟩
    refine ⟨.ok a :: before, after, rfl, fun x hx => ?_⟩
    rcases List.mem_cons.1 hx with rfl | hx
    · exact ⟨a, rfl⟩
    · exact hbefore x hx

/-- A list of computations succeeds exactly when all of them do. -/
theorem mapM_eq_ok_iff {f : α → Except ε β} {items : List α} {values : List β} :
    items.mapM f = .ok values ↔ items.map f = values.map .ok := by
  induction items generalizing values with
  | nil =>
    cases values with
    | nil => simp [pure, Except.pure]
    | cons b rest => simp [pure, Except.pure]
  | cons a rest ih =>
    rw [List.mapM_cons, bind_eq_ok_iff]
    constructor
    · rintro ⟨b, hb, h⟩
      obtain ⟨bs, hbs, h⟩ := bind_eq_ok_iff.1 h
      cases h
      rw [List.map_cons, hb, ih.1 hbs, List.map_cons]
    · intro h
      cases values with
      | nil => simp at h
      | cons b bs =>
        rw [List.map_cons, List.map_cons, List.cons.injEq] at h
        exact ⟨b, h.1, bind_eq_ok_iff.2 ⟨bs, ih.2 h.2, rfl⟩⟩

/-- Otherwise it fails with the first failure. -/
theorem mapM_eq_error_iff {f : α → Except ε β} {items : List α} {e : ε} :
    items.mapM f = .error e ↔ FirstFailure (items.map f) e := by
  induction items with
  | nil =>
    constructor
    · intro h
      cases h
    · rintro ⟨before, after, h, -⟩
      simp at h
  | cons a rest ih =>
    rw [List.mapM_cons, bind_eq_error_iff, List.map_cons]
    cases ha : f a with
    | error d => simp [firstFailure_error_cons_iff]
    | ok b =>
      rw [firstFailure_ok_cons_iff, ← ih]
      simp only [reduceCtorEq, false_or, Except.ok.injEq, exists_eq_left']
      rw [bind_eq_error_iff]
      simp [pure, Except.pure]

/-- A change of errors may be made at each computation of a list, or at the end. -/
theorem mapM_mapError {δ : Type} (g : ε → δ) (f : α → Except ε β) (items : List α) :
    (items.mapM fun a => (f a).mapError g) = (items.mapM f).mapError g := by
  induction items with
  | nil => rfl
  | cons a rest ih =>
    rw [List.mapM_cons, List.mapM_cons, ih]
    cases f a with
    | error e => rfl
    | ok b => cases rest.mapM f <;> rfl

/-- Each value of a list of computations is the value of one of them. -/
theorem exists_of_mem_mapM {f : α → Except ε β} {items : List α} {values : List β} {b : β}
    (h : items.mapM f = .ok values) (hb : b ∈ values) : ∃ a ∈ items, f a = .ok b := by
  have hmem : .ok b ∈ items.map f := mapM_eq_ok_iff.1 h ▸ List.mem_map_of_mem hb
  exact List.mem_map.1 hmem

/-- Some list of values comes out exactly when no outcome is a failure. -/
theorem exists_mapM_eq_ok_iff {f : α → Except ε β} {items : List α} :
    (∃ values, items.mapM f = .ok values) ↔ ∀ a ∈ items, ∃ b, f a = .ok b := by
  constructor
  · rintro ⟨values, h⟩ a ha
    have hmem : f a ∈ values.map .ok := mapM_eq_ok_iff.1 h ▸ List.mem_map_of_mem ha
    obtain ⟨b, -, hb⟩ := List.mem_map.1 hmem
    exact ⟨b, hb.symm⟩
  · intro h
    cases hm : items.mapM f with
    | ok values => exact ⟨values, rfl⟩
    | error e =>
      obtain ⟨before, after, hsplit, -⟩ := mapM_eq_error_iff.1 hm
      have hmem : .error e ∈ items.map f := by rw [hsplit]; simp
      obtain ⟨a, ha, hfa⟩ := List.mem_map.1 hmem
      obtain ⟨b, hb⟩ := h a ha
      rw [hb] at hfa
      cases hfa

end Outcome

namespace Traced

variable {ε δ α β : Type}

/-- The result of a change of errors. -/
@[simp]
theorem result_adapt (g : ε → δ) (x : Traced ε α) :
    result (ExceptT.adapt g x) = x.result.mapError g := rfl

/-- The result of a list of computations is that of the list of their results. -/
theorem result_mapM (f : α → Traced ε β) (items : List α) :
    result (items.mapM f) = items.mapM fun a => (f a).result := by
  induction items with
  | nil => rfl
  | cons a rest ih =>
    rw [List.mapM_cons, List.mapM_cons, result_bind]
    congr 1
    funext b
    rw [result_bind, ih]
    rfl

/-! ### What a computation ensures -/

/-- The value is good if the computation succeeds, and the error is one of those expected if it
fails. -/
def Meets (x : Traced ε α) (good : α → Prop) (bad : ε → Prop) : Prop :=
  (∀ a, x.result = .ok a → good a) ∧ ∀ e, x.result = .error e → bad e

section Meets

variable {good : α → Prop} {better : β → Prop} {bad : ε → Prop}

/-- Where any error will do, only the value matters. -/
theorem meets_of_ok {x : Traced ε α} (h : ∀ a, x.result = .ok a → good a) :
    x.Meets good fun _ => True :=
  ⟨h, fun _ _ => trivial⟩

theorem meets_pure {a : α} (h : good a) : (pure a : Traced ε α).Meets good bad := by
  refine ⟨fun b hb => ?_, fun e he => ?_⟩
  · cases hb
    exact h
  · cases he

theorem meets_throw {e : ε} (h : bad e) : (throw e : Traced ε α).Meets good bad := by
  refine ⟨fun b hb => ?_, fun d hd => ?_⟩
  · cases hb
  · cases hd
    exact h

theorem meets_record (e : Event) : (record e : Traced ε Unit).Meets (fun _ => True) bad := by
  refine ⟨fun _ _ => trivial, fun d hd => ?_⟩
  cases hd

theorem meets_bind {x : Traced ε α} {f : α → Traced ε β} (hx : x.Meets good bad)
    (hf : ∀ a, x.result = .ok a → good a → (f a).Meets better bad) :
    (x >>= f).Meets better bad := by
  unfold Meets
  rw [result_bind]
  refine ⟨fun b hb => ?_, fun e he => ?_⟩
  · obtain ⟨a, ha, hb⟩ := Outcome.bind_eq_ok_iff.1 hb
    exact (hf a ha (hx.1 a ha)).1 b hb
  · rcases Outcome.bind_eq_error_iff.1 he with he | ⟨a, ha, he⟩
    · exact hx.2 e he
    · exact (hf a ha (hx.1 a ha)).2 e he

theorem meets_adapt {g : δ → ε} {x : Traced δ α} (h : x.Meets good fun d => bad (g d)) :
    Meets (ExceptT.adapt g x) good bad := by
  unfold Meets
  rw [result_adapt]
  cases hx : x.result with
  | ok a =>
    refine ⟨fun b hb => ?_, fun e he => ?_⟩
    · cases hb
      exact h.1 a hx
    · cases he
  | error d =>
    refine ⟨fun b hb => ?_, fun e he => ?_⟩
    · cases hb
    · cases he
      exact h.2 d hx

/-- What each computation of a list ensures of its value holds of all values. -/
theorem meets_mapM {f : α → Traced ε β} {items : List α}
    (h : ∀ a ∈ items, (f a).Meets better bad) :
    (items.mapM f).Meets (fun values => ∀ b ∈ values, better b) bad := by
  induction items with
  | nil => exact meets_pure (by simp)
  | cons a rest ih =>
    rw [List.mapM_cons]
    refine meets_bind (h a (List.mem_cons_self ..)) fun b _ hb => ?_
    refine meets_bind (ih fun c hc => h c (List.mem_cons_of_mem _ hc)) fun bs _ hbs => ?_
    refine meets_pure fun c hc => ?_
    rcases List.mem_cons.1 hc with rfl | hc
    · exact hb
    · exact hbs c hc

/-- What a fold starts with and each step keeps holds at the end. -/
theorem meets_foldlM {f : β → α → Traced ε β} {init : β} {items : List α} (hinit : better init)
    (h : ∀ b, better b → ∀ a ∈ items, (f b a).Meets better bad) :
    (items.foldlM f init).Meets better bad := by
  induction items generalizing init with
  | nil => exact meets_pure hinit
  | cons a rest ih =>
    rw [List.foldlM_cons]
    refine meets_bind (h init hinit a (List.mem_cons_self ..)) fun b _ hb => ?_
    exact ih hb fun c hc d hd => h c hc d (List.mem_cons_of_mem _ hd)

end Meets

/-! ### Two computations side by side -/

/-- Both computations give the same value, or both fail with errors that look the same. -/
def Alike (view : ε → δ) (x y : Traced ε α) : Prop :=
  x.result.mapError view = y.result.mapError view

section Alike

variable {view : ε → δ}

theorem alike_refl (x : Traced ε α) : Alike view x x := rfl

theorem alike_throw {d e : ε} (h : view d = view e) :
    Alike view (throw d : Traced ε α) (throw e) := by
  show Except.error (view d) = Except.error (view e)
  rw [h]

/-- Errors that are looked at as they are are the same. -/
theorem Alike.result_eq {x y : Traced ε α} (h : Alike id x y) : x.result = y.result := by
  unfold Alike at h
  cases hx : x.result with
  | ok a =>
    rw [hx] at h
    exact (Outcome.mapError_eq_ok_iff.1 h.symm).symm
  | error e =>
    rw [hx] at h
    obtain ⟨d, hy, rfl⟩ := Outcome.mapError_eq_error_iff.1 h.symm
    exact hy.symm

/-- A value of one is the value of the other. -/
theorem Alike.ok {x y : Traced ε α} (h : Alike view x y) {a : α} (hx : x.result = .ok a) :
    y.result = .ok a := by
  unfold Alike at h
  rw [hx] at h
  cases hy : y.result with
  | ok b =>
    rw [hy] at h
    cases h
    rfl
  | error e =>
    rw [hy] at h
    cases h

/-- An error of one looks the same as the error of the other. -/
theorem Alike.error {x y : Traced ε α} (h : Alike view x y) {d : ε} (hx : x.result = .error d) :
    ∃ e, y.result = .error e ∧ view d = view e := by
  unfold Alike at h
  rw [hx] at h
  cases hy : y.result with
  | ok b =>
    rw [hy] at h
    cases h
  | error e =>
    rw [hy] at h
    exact ⟨e, rfl, Except.error.inj h⟩

/-- Both give the same value, or errors that look the same. -/
theorem Alike.ok_or_error {x y : Traced ε α} (h : Alike view x y) :
    (∃ a, x.result = .ok a ∧ y.result = .ok a) ∨
      ∃ d e, x.result = .error d ∧ y.result = .error e ∧ view d = view e := by
  cases hx : x.result with
  | ok a => exact .inl ⟨a, rfl, h.ok hx⟩
  | error d =>
    obtain ⟨e, hy, hview⟩ := h.error hx
    exact .inr ⟨d, e, rfl, hy, hview⟩

theorem alike_bind {x y : Traced ε α} {f g : α → Traced ε β} (h : Alike view x y)
    (hf : ∀ a, x.result = .ok a → Alike view (f a) (g a)) : Alike view (x >>= f) (y >>= g) := by
  unfold Alike
  rw [result_bind, result_bind]
  cases hx : x.result with
  | ok a =>
    rw [h.ok hx]
    exact hf a hx
  | error d =>
    obtain ⟨e, hy, hview⟩ := h.error hx
    rw [hy]
    show Except.error (view d) = Except.error (view e)
    rw [hview]

theorem alike_adapt {γ : Type} {g : γ → ε} {x y : Traced γ α}
    (h : Alike (fun e => view (g e)) x y) :
    Alike view (ExceptT.adapt g x) (ExceptT.adapt g y) := by
  unfold Alike
  rw [result_adapt, result_adapt]
  cases hx : x.result with
  | ok a => rw [h.ok hx]
  | error d =>
    obtain ⟨e, hy, hview⟩ := h.error hx
    rw [hy]
    show Except.error (view (g d)) = Except.error (view (g e))
    rw [hview]

theorem alike_mapM {f g : α → Traced ε β} {items : List α}
    (h : ∀ a ∈ items, Alike view (f a) (g a)) : Alike view (items.mapM f) (items.mapM g) := by
  induction items with
  | nil => exact alike_refl _
  | cons a rest ih =>
    rw [List.mapM_cons, List.mapM_cons]
    refine alike_bind (h a (List.mem_cons_self ..)) fun b _ => ?_
    exact alike_bind (ih fun c hc => h c (List.mem_cons_of_mem _ hc)) fun _ _ => alike_refl _

theorem alike_foldlM {f g : β → α → Traced ε β} {init : β} {items : List α}
    (h : ∀ b, ∀ a ∈ items, Alike view (f b a) (g b a)) :
    Alike view (items.foldlM f init) (items.foldlM g init) := by
  induction items generalizing init with
  | nil => exact alike_refl _
  | cons a rest ih =>
    rw [List.foldlM_cons, List.foldlM_cons]
    refine alike_bind (h init a (List.mem_cons_self ..)) fun b _ => ?_
    exact ih fun c d hd => h c d (List.mem_cons_of_mem _ hd)

end Alike

/-! ### Computations that go on in the same way -/

/-- Only how a computation goes on from the value that it is given matters. -/
theorem bind_congr_of_ok {x : Traced ε α} {f g : α → Traced ε β}
    (h : ∀ a, x.result = .ok a → f a = g a) : x >>= f = x >>= g := by
  have hcont : ExceptT.bindCont f x.run.value = ExceptT.bindCont g x.run.value := by
    cases hx : x.run.value with
    | error e => rfl
    | ok a => exact h a hx
  have hrun : x.run >>= ExceptT.bindCont f = x.run >>= ExceptT.bindCont g :=
    congrArg (fun y : Logged (Except ε β) =>
      (⟨x.run.events ++ y.events, y.value⟩ : Logged (Except ε β))) hcont
  exact congrArg ExceptT.mk hrun

theorem mapM_congr {f g : α → Traced ε β} {items : List α} (h : ∀ a ∈ items, f a = g a) :
    items.mapM f = items.mapM g := by
  induction items with
  | nil => rfl
  | cons a rest ih =>
    rw [List.mapM_cons, List.mapM_cons, h a (List.mem_cons_self ..),
      ih fun b hb => h b (List.mem_cons_of_mem _ hb)]

theorem foldlM_congr {f g : β → α → Traced ε β} {init : β} {items : List α}
    (h : ∀ b, ∀ a ∈ items, f b a = g b a) : items.foldlM f init = items.foldlM g init := by
  induction items generalizing init with
  | nil => rfl
  | cons a rest ih =>
    rw [List.foldlM_cons, List.foldlM_cons, h init a (List.mem_cons_self ..)]
    exact bind_congr fun b => ih fun c d hd => h c d (List.mem_cons_of_mem _ hd)

end Traced

end VersionedTree
