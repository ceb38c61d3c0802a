import Mathlib.Data.List.Perm.Basic
import VersionedTree.Proofs.Outcome

/-!
# Computations that succeed

A computation yields a value if it succeeds with it and records no other events than permitted ones.
One computation leads to another if the second yields whenever the first does, and the two values
are related. Nothing is said about what the second one does where the first fails, so this is a
relation between two computations that need not be alike.

Lists of computations may also be run in another order, as long as the values of one are matched
with those of the other.

## What is proved

* `Traced.yields_bind_iff`, `Traced.yields_mapM_iff` — what a computation yields, by its parts.
* `Traced.leadsTo_bind`, `Traced.leadsTo_mapM` — one computation leads to another if its parts do.
* `Traced.leadsTo_mapM_matched` — so do lists of computations, if they are matched with each other.
-/

namespace VersionedTree

/-! ### Lists that are matched with each other -/

/-- Two lists are related item by item, where the right one may have been reordered if that is
allowed. -/
def Matched {α β : Type} (reorder : Prop) (R : α → β → Prop) (xs : List α) (ys : List β) : Prop :=
  ∃ zs, List.Forall₂ R xs zs ∧ (zs = ys ∨ reorder ∧ zs.Perm ys)

namespace Matched

variable {α β γ δ : Type} {reorder : Prop} {R : α → β → Prop} {xs : List α} {ys : List β}

theorem of_forall₂ (reorder : Prop) (h : List.Forall₂ R xs ys) : Matched reorder R xs ys :=
  ⟨ys, h, .inl rfl⟩

/-- Where nothing may be reordered, the lists are related item by item. -/
theorem forall₂ (h : Matched False R xs ys) : List.Forall₂ R xs ys := by
  obtain ⟨zs, hzs, rfl | ⟨hfalse, -⟩⟩ := h
  · exact hzs
  · exact hfalse.elim

theorem imp {S : α → β → Prop} (hRS : ∀ {x y}, R x y → S x y) (h : Matched reorder R xs ys) :
    Matched reorder S xs ys := by
  obtain ⟨zs, hzs, hys⟩ := h
  exact ⟨zs, hzs.imp fun _ _ hxy => hRS hxy, hys⟩

theorem length_eq (h : Matched reorder R xs ys) : xs.length = ys.length := by
  obtain ⟨zs, hzs, rfl | ⟨-, hperm⟩⟩ := h
  · exact hzs.length_eq
  · rw [hzs.length_eq, hperm.length_eq]

/-- Every item on the left has a counterpart on the right. -/
theorem exists_right (h : Matched reorder R xs ys) {x : α} (hx : x ∈ xs) : ∃ y ∈ ys, R x y := by
  obtain ⟨zs, hzs, hys⟩ := h
  obtain ⟨i, hi, rfl⟩ := List.getElem_of_mem hx
  have hi' : i < zs.length := hzs.length_eq ▸ hi
  refine ⟨zs[i], ?_, hzs.get hi hi'⟩
  rcases hys with rfl | ⟨-, hperm⟩
  · exact List.getElem_mem hi'
  · exact hperm.mem_iff.1 (List.getElem_mem hi')

/-- Every item on the right has a counterpart on the left. -/
theorem exists_left (h : Matched reorder R xs ys) {y : β} (hy : y ∈ ys) : ∃ x ∈ xs, R x y := by
  obtain ⟨zs, hzs, hys⟩ := h
  have hy : y ∈ zs := by
    rcases hys with rfl | ⟨-, hperm⟩
    · exact hy
    · exact hperm.mem_iff.2 hy
  obtain ⟨i, hi, rfl⟩ := List.getElem_of_mem hy
  have hi' : i < xs.length := hzs.length_eq ▸ hi
  exact ⟨xs[i], List.getElem_mem hi', hzs.get hi' hi⟩

/-- Lists of lists that are matched, and whose items are, are matched when they are joined. -/
theorem flatten {xss : List (List α)} {yss : List (List β)}
    (h : Matched reorder (List.Forall₂ R) xss yss) : Matched reorder R xss.flatten yss.flatten := by
  obtain ⟨zss, hzss, rfl | ⟨hreorder, hperm⟩⟩ := h
  · exact of_forall₂ _ (List.rel_flatten hzss)
  · exact ⟨zss.flatten, List.rel_flatten hzss, .inr ⟨hreorder, hperm.flatten⟩⟩

theorem map {S : γ → δ → Prop} {f : α → γ} {g : β → δ} (hfg : ∀ {x y}, R x y → S (f x) (g y))
    (h : Matched reorder R xs ys) : Matched reorder S (xs.map f) (ys.map g) := by
  obtain ⟨zs, hzs, rfl | ⟨hreorder, hperm⟩⟩ := h
  · exact of_forall₂ _ (List.rel_map (fun _ _ hxy => hfg hxy) hzs)
  · exact ⟨zs.map g, List.rel_map (fun _ _ hxy => hfg hxy) hzs, .inr ⟨hreorder, hperm.map g⟩⟩

theorem filterMap {S : γ → δ → Prop} {f : α → Option γ} {g : β → Option δ}
    (hfg : ∀ {x y}, R x y → Option.Rel S (f x) (g y)) (h : Matched reorder R xs ys) :
    Matched reorder S (xs.filterMap f) (ys.filterMap g) := by
  obtain ⟨zs, hzs, rfl | ⟨hreorder, hperm⟩⟩ := h
  · exact of_forall₂ _ (List.rel_filterMap (fun _ _ hxy => hfg hxy) hzs)
  · exact ⟨zs.filterMap g, List.rel_filterMap (fun _ _ hxy => hfg hxy) hzs,
      .inr ⟨hreorder, hperm.filterMap g⟩⟩

end Matched

section Places

variable {α β : Type} {R : α → β → Prop} {xs : List α} {ys : List β}

/-- Lists that are related item by item are so at every place. -/
theorem rel_getElem?_of_forall₂ (h : List.Forall₂ R xs ys) (i : Nat) :
    Option.Rel R xs[i]? ys[i]? := by
  induction h generalizing i with
  | nil => exact .none
  | cons hxy _ ih =>
    cases i with
    | zero => exact .some hxy
    | succ i => exact ih i

theorem exists_mem_right_of_forall₂ (h : List.Forall₂ R xs ys) {x : α} (hx : x ∈ xs) :
    ∃ y ∈ ys, R x y :=
  (Matched.of_forall₂ False h).exists_right hx

theorem exists_mem_left_of_forall₂ (h : List.Forall₂ R xs ys) {y : β} (hy : y ∈ ys) :
    ∃ x ∈ xs, R x y :=
  (Matched.of_forall₂ False h).exists_left hy

theorem exists_getElem?_right (h : List.Forall₂ R xs ys) {i : Nat} {x : α}
    (hx : xs[i]? = some x) : ∃ y, ys[i]? = some y ∧ R x y := by
  have hrel := rel_getElem?_of_forall₂ h i
  rw [hx] at hrel
  generalize ys[i]? = y? at hrel ⊢
  cases hrel with
  | some hxy => exact ⟨_, rfl, hxy⟩

theorem exists_getElem?_left (h : List.Forall₂ R xs ys) {i : Nat} {y : β}
    (hy : ys[i]? = some y) : ∃ x, xs[i]? = some x ∧ R x y :=
  exists_getElem?_right h.flip hy

/-- The two items at a place are related. -/
theorem rel_of_getElem? (h : List.Forall₂ R xs ys) {i : Nat} {x : α} {y : β}
    (hx : xs[i]? = some x) (hy : ys[i]? = some y) : R x y := by
  obtain ⟨y', hy', hxy⟩ := exists_getElem?_right h hx
  rw [hy, Option.some.injEq] at hy'
  exact hy' ▸ hxy

/-- In lists of the same length a place has two items, which may be related, or none. -/
theorem rel_getElem?_of_length_eq (hlen : xs.length = ys.length) {i : Nat}
    (h : ∀ x y, xs[i]? = some x → ys[i]? = some y → R x y) : Option.Rel R xs[i]? ys[i]? := by
  by_cases hi : i < xs.length
  · have hi' : i < ys.length := hlen ▸ hi
    rw [List.getElem?_eq_getElem hi, List.getElem?_eq_getElem hi'] at h ⊢
    exact .some (h _ _ rfl rfl)
  · rw [List.getElem?_eq_none (Nat.not_lt.1 hi), List.getElem?_eq_none (hlen ▸ Nat.not_lt.1 hi)]
    exact .none

/-- Lists of the same length are related item by item if they are so at every place. -/
theorem forall₂_of_getElem? (hlen : xs.length = ys.length)
    (h : ∀ (i : Nat) (x : α) (y : β), xs[i]? = some x → ys[i]? = some y → R x y) :
    List.Forall₂ R xs ys :=
  List.forall₂_iff_get.2 ⟨hlen, fun i hx hy =>
    h i _ _ (List.getElem?_eq_getElem hx) (List.getElem?_eq_getElem hy)⟩

/-- What holds of the items of each list is added to what relates them. -/
theorem forall₂_and_mem {P : α → Prop} {Q : β → Prop} (h : List.Forall₂ R xs ys)
    (hxs : ∀ x ∈ xs, P x) (hys : ∀ y ∈ ys, Q y) :
    List.Forall₂ (fun x y => R x y ∧ P x ∧ Q y) xs ys :=
  forall₂_of_getElem? h.length_eq fun _ x y hx hy =>
    ⟨rel_of_getElem? h hx hy, hxs x (List.mem_of_getElem? hx), hys y (List.mem_of_getElem? hy)⟩

end Places

/-- A list of computations succeeds with the values of its members. -/
theorem Outcome.mapM_eq_ok_iff_forall₂ {ε α β : Type} {f : α → Except ε β} {items : List α}
    {values : List β} :
    items.mapM f = .ok values ↔ List.Forall₂ (fun a b => f a = .ok b) items values := by
  rw [mapM_eq_ok_iff, ← List.forall₂_eq_eq_eq, List.forall₂_map_left_iff,
    List.forall₂_map_right_iff]

namespace Traced

variable {ε δ α β γ κ : Type} {permitted : Event → Prop}

/-! ### What a computation yields -/

/-- The computation succeeds with the value, and all events that it records are permitted. -/
def Yields (permitted : Event → Prop) (x : Traced ε α) (a : α) : Prop :=
  x.result = .ok a ∧ ∀ e ∈ x.events, permitted e

@[simp]
theorem yields_pure_iff {a b : α} : (pure a : Traced ε α).Yields permitted b ↔ a = b := by
  constructor
  · rintro ⟨h, -⟩
    exact Except.ok.inj h
  · rintro rfl
    exact ⟨rfl, fun e he => by cases he⟩

theorem not_yields_throw {e : ε} {a : α} : ¬(throw e : Traced ε α).Yields permitted a := by
  rintro ⟨h, -⟩
  cases h

theorem yields_record_iff {e : Event} {u : Unit} :
    (record e : Traced ε Unit).Yields permitted u ↔ permitted e := by
  have hevents : (record e : Traced ε Unit).events = [e] := rfl
  rw [Yields, hevents, List.forall_mem_singleton]
  exact and_iff_right rfl

/-- A computation records what its first part records, and then, if that succeeds, what the rest
does. -/
theorem events_bind (x : Traced ε α) (f : α → Traced ε β) :
    (x >>= f).events = x.events ++ match x.result with
      | .ok a => (f a).events
      | .error _ => [] := by
  show x.run.events ++ (ExceptT.bindCont f x.run.value).events = _
  unfold events result
  cases x.run.value <;> rfl

/-- A computation yields what its second part yields from what its first part yields. -/
theorem yields_bind_iff {x : Traced ε α} {f : α → Traced ε β} {b : β} :
    (x >>= f).Yields permitted b ↔ ∃ a, x.Yields permitted a ∧ (f a).Yields permitted b := by
  unfold Yields
  rw [result_bind, events_bind, Outcome.bind_eq_ok_iff, List.forall_mem_append]
  constructor
  · rintro ⟨⟨a, hx, hf⟩, hevents, hevents'⟩
    rw [hx] at hevents'
    exact ⟨a, ⟨hx, hevents⟩, hf, hevents'⟩
  · rintro ⟨a, ⟨hx, hevents⟩, hf, hevents'⟩
    rw [hx]
    exact ⟨⟨a, rfl, hf⟩, hevents, hevents'⟩

/-- A change of errors does not matter. -/
theorem yields_adapt_iff {g : δ → ε} {x : Traced δ α} {a : α} :
    Yields permitted (ExceptT.adapt g x) a ↔ x.Yields permitted a := by
  have hevents : events (ExceptT.adapt g x) = x.events := List.append_nil _
  unfold Yields
  rw [result_adapt, Outcome.mapError_eq_ok_iff, hevents]

/-- A list of computations yields a list of what they yield. -/
theorem yields_mapM_iff {f : α → Traced ε β} {items : List α} {values : List β} :
    (items.mapM f).Yields permitted values ↔
      List.Forall₂ (fun a b => (f a).Yields permitted b) items values := by
  induction items generalizing values with
  | nil =>
    rw [List.mapM_nil, yields_pure_iff, List.forall₂_nil_left_iff, eq_comm]
  | cons a rest ih =>
    rw [List.mapM_cons, yields_bind_iff, List.forall₂_cons_left_iff]
    simp only [yields_bind_iff, yields_pure_iff, ih]
    constructor
    · rintro ⟨b, hb, bs, hbs, rfl⟩
      exact ⟨b, bs, hb, hbs, rfl⟩
    · rintro ⟨b, bs, hb, hbs, rfl⟩
      exact ⟨b, hb, bs, hbs, rfl⟩

/-! ### Computations that lead to others -/

/-- Where the left computation yields a value, the right one yields a related one. -/
def LeadsTo (permitted : Event → Prop) (related : α → β → Prop) (x : Traced ε α)
    (y : Traced δ β) : Prop :=
  ∀ a, x.Yields permitted a → ∃ b, y.Yields permitted b ∧ related a b

section LeadsTo

variable {related : α → β → Prop} {related' : γ → κ → Prop}

theorem leadsTo_pure {a : α} {b : β} (h : related a b) :
    LeadsTo permitted related (pure a : Traced ε α) (pure b : Traced δ β) := by
  intro a' ha'
  rw [yields_pure_iff] at ha'
  subst ha'
  exact ⟨b, yields_pure_iff.2 rfl, h⟩

theorem leadsTo_throw {e : ε} {y : Traced δ β} :
    LeadsTo permitted related (throw e : Traced ε α) y :=
  fun _ h => absurd h not_yields_throw

theorem leadsTo_record {d e : Event} (h : permitted e) :
    LeadsTo permitted (fun _ _ => True) (record d : Traced ε Unit) (record e : Traced δ Unit) :=
  fun _ _ => ⟨(), yields_record_iff.2 h, trivial⟩

theorem leadsTo_bind {x : Traced ε α} {y : Traced δ β} {f : α → Traced ε γ} {g : β → Traced δ κ}
    (h : LeadsTo permitted related x y)
    (hfg : ∀ a b, related a b → x.Yields permitted a → y.Yields permitted b →
      LeadsTo permitted related' (f a) (g b)) :
    LeadsTo permitted related' (x >>= f) (y >>= g) := by
  intro c hc
  obtain ⟨a, ha, hc⟩ := yields_bind_iff.1 hc
  obtain ⟨b, hb, hab⟩ := h a ha
  obtain ⟨d, hd, hcd⟩ := hfg a b hab ha hb c hc
  exact ⟨d, yields_bind_iff.2 ⟨b, hb, hd⟩, hcd⟩

theorem leadsTo_adapt {ε' δ' : Type} {g : ε → ε'} {g' : δ → δ'} {x : Traced ε α}
    {y : Traced δ β} (h : LeadsTo permitted related x y) :
    LeadsTo permitted related (ExceptT.adapt g x) (ExceptT.adapt g' y) := by
  intro a ha
  obtain ⟨b, hb, hab⟩ := h a (yields_adapt_iff.1 ha)
  exact ⟨b, yields_adapt_iff.2 hb, hab⟩

/-- A list of computations leads to another one if it does so item by item. -/
theorem leadsTo_mapM {f : α → Traced ε γ} {g : β → Traced δ κ} {xs : List α} {ys : List β}
    (h : List.Forall₂ related xs ys)
    (hfg : ∀ a b, related a b → LeadsTo permitted related' (f a) (g b)) :
    LeadsTo permitted (List.Forall₂ related') (xs.mapM f) (ys.mapM g) := by
  induction h with
  | nil => exact leadsTo_pure .nil
  | cons hab _ ih =>
    rw [List.mapM_cons, List.mapM_cons]
    refine leadsTo_bind (hfg _ _ hab) fun c d hcd _ _ => ?_
    exact leadsTo_bind ih fun cs ds hcsds _ _ => leadsTo_pure (.cons hcd hcsds)

/-- A list of computations leads to another one if they are matched with each other. -/
theorem leadsTo_mapM_matched {reorder : Prop} {f : α → Traced ε γ} {g : β → Traced δ κ}
    {xs : List α} {ys : List β} (h : Matched reorder related xs ys)
    (hfg : ∀ a b, related a b → LeadsTo permitted related' (f a) (g b)) :
    LeadsTo permitted (Matched reorder related') (xs.mapM f) (ys.mapM g) := by
  intro cs hcs
  obtain ⟨zs, hzs, hys⟩ := h
  obtain ⟨ds, hds, hcsds⟩ := leadsTo_mapM hzs hfg cs hcs
  rcases hys with rfl | ⟨hreorder, hperm⟩
  · exact ⟨ds, hds, .of_forall₂ _ hcsds⟩
  · -- the values of the reordered computations are the values, reordered
    obtain ⟨es, hes, hdses⟩ := List.perm_comp_forall₂ hperm.symm (yields_mapM_iff.1 hds)
    exact ⟨es, yields_mapM_iff.2 hes, ds, hcsds, .inr ⟨hreorder, hdses.symm⟩⟩

end LeadsTo

end Traced

end VersionedTree
