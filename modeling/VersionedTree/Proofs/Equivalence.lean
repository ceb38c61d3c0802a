import Mathlib.Data.List.Forall2
import Mathlib.Data.List.Pairwise
import Mathlib.Data.List.Perm.Subperm
import VersionedTree.Proofs.Subnodes

/-!
# Equality of well-formed nodes is an equivalence

The test `==` is one-sided on sets and mappings: it counts, and then looks for the parts of the left
node in the right one. Without repeated members or keys the parts that are found are different ones,
so counting makes the test symmetric. Transitivity of the test on keys is what makes the look-up of
a key unambiguous; the three laws are therefore proved together, by induction on the depth.

## What is proved

* `Node.beq_iff_matches` — the test, one level at a time.
* `Node.beq_refl`, `Node.beq_symm`, `Node.beq_trans` — the laws, for well-formed nodes.
* `Node.depth_le_of_beq` and `Node.depth_eq_of_beq` — equal nodes are equally deep.
-/

namespace VersionedTree.Node

/-! ### One level of the test -/

/-- Two lists are equal item by item. -/
def ItemsMatch (xs ys : List Node) : Prop :=
  xs.length = ys.length ∧ ∀ i (hx : i < xs.length) (hy : i < ys.length), (xs[i] == ys[i]) = true

/-- Every member of the left list is equal to some member of the right one. -/
def MembersMatch (xs ys : List Node) : Prop :=
  xs.length = ys.length ∧ ∀ x ∈ xs, ∃ y ∈ ys, (x == y) = true

/-- Every key of the left list is found in the right one, with an equal value. -/
def PairsMatch (ps qs : List (Node × Node)) : Prop :=
  ps.length = qs.length ∧
    ∀ p ∈ ps, ∃ q, qs.find? (fun q => p.1 == q.1) = some q ∧ (p.2 == q.2) = true

/-- Two nodes have the same shape, and their parts match. -/
inductive Matches : Node → Node → Prop where
  /-- The same scalar. -/
  | scalar (value : Scalar) : Matches (.scalar value) (.scalar value)
  /-- Sequences, item by item. -/
  | sequence {xs ys : List Node} : ItemsMatch xs ys → Matches (.sequence xs) (.sequence ys)
  /-- Sets, in any order. -/
  | set {xs ys : List Node} : MembersMatch xs ys → Matches (.set xs) (.set ys)
  /-- Mappings, in any order. -/
  | mapping {ps qs : List (Node × Node)} : PairsMatch ps qs → Matches (.mapping ps) (.mapping qs)
  /-- Invocations of one tag, argument by argument. -/
  | invocation (tag : Tag) {xs ys : List Node} :
    ItemsMatch xs ys → Matches (.invocation tag xs) (.invocation tag ys)

theorem sameItems_iff {xs ys : List Node} : sameItems xs ys = true ↔ ItemsMatch xs ys := by
  induction xs generalizing ys with
  | nil => cases ys <;> simp [sameItems, ItemsMatch]
  | cons x xs ih =>
    cases ys with
    | nil => simp [sameItems, ItemsMatch]
    | cons y ys =>
      rw [sameItems, Bool.and_eq_true, ih]
      constructor
      · rintro ⟨hxy, hlen, h⟩
        refine ⟨by simp [hlen], fun i hx hy => ?_⟩
        cases i with
        | zero => exact hxy
        | succ i => exact h i (Nat.lt_of_succ_lt_succ hx) (Nat.lt_of_succ_lt_succ hy)
      · rintro ⟨hlen, h⟩
        refine ⟨h 0 (Nat.succ_pos _) (Nat.succ_pos _), Nat.succ.inj hlen, fun i hx hy => ?_⟩
        exact h (i + 1) (Nat.succ_lt_succ hx) (Nat.succ_lt_succ hy)

theorem membersWithin_iff {xs ys : List Node} :
    membersWithin xs ys = true ↔ ∀ x ∈ xs, ∃ y ∈ ys, (x == y) = true := by
  induction xs with
  | nil => simp [membersWithin]
  | cons x xs ih =>
    rw [membersWithin, Bool.and_eq_true, ih, List.any_eq_true, List.forall_mem_cons]
    exact Iff.rfl

theorem pairsWithin_iff {ps qs : List (Node × Node)} :
    pairsWithin ps qs = true ↔
      ∀ p ∈ ps, ∃ q, qs.find? (fun q => p.1 == q.1) = some q ∧ (p.2 == q.2) = true := by
  induction ps with
  | nil => simp [pairsWithin]
  | cons p ps ih =>
    obtain ⟨k, v⟩ := p
    rw [pairsWithin, Bool.and_eq_true, ih, List.forall_mem_cons]
    refine and_congr ?_ Iff.rfl
    show _ ↔ ∃ q, qs.find? (fun q => same k q.1) = some q ∧ same v q.2 = true
    cases qs.find? fun q => same k q.1 with
    | none => simp
    | some q => simp

/-- The test, one level at a time. -/
theorem beq_iff_matches {x y : Node} : (x == y) = true ↔ Matches x y := by
  show same x y = true ↔ _
  constructor
  · intro h
    cases x <;> cases y <;> try (exact absurd h Bool.false_ne_true)
    case scalar.scalar a b =>
      rw [same, beq_iff_eq] at h
      exact h ▸ .scalar a
    case sequence.sequence xs ys =>
      rw [same, sameItems_iff] at h
      exact .sequence h
    case set.set xs ys =>
      rw [same, Bool.and_eq_true, beq_iff_eq, membersWithin_iff] at h
      exact .set h
    case mapping.mapping ps qs =>
      rw [same, Bool.and_eq_true, beq_iff_eq, pairsWithin_iff] at h
      exact .mapping h
    case invocation.invocation t xs u ys =>
      rw [same, Bool.and_eq_true, beq_iff_eq, sameItems_iff] at h
      exact h.1 ▸ .invocation t h.2
  · intro h
    cases h with
    | scalar value => rw [same, beq_iff_eq]
    | sequence h => rwa [same, sameItems_iff]
    | set h => rwa [same, Bool.and_eq_true, beq_iff_eq, membersWithin_iff]
    | mapping h => rwa [same, Bool.and_eq_true, beq_iff_eq, pairsWithin_iff]
    | invocation tag h => rw [same, sameItems_iff.2 h, Bool.and_true, beq_iff_eq]

/-! ### Depth -/

theorem listDepth_le_iff {items : List Node} {d : Nat} :
    listDepth items ≤ d ↔ ∀ n ∈ items, n.depth ≤ d := by
  induction items with
  | nil => simp [listDepth]
  | cons n rest ih => rw [listDepth, Nat.max_le, ih, List.forall_mem_cons]

theorem pairsDepth_le_iff {pairs : List (Node × Node)} {d : Nat} :
    pairsDepth pairs ≤ d ↔ ∀ p ∈ pairs, p.1.depth ≤ d ∧ p.2.depth ≤ d := by
  induction pairs with
  | nil => simp [pairsDepth]
  | cons p rest ih =>
    obtain ⟨k, v⟩ := p
    rw [pairsDepth, Nat.max_le, Nat.max_le, ih, List.forall_mem_cons]

/-- The left one of two equal nodes is no deeper than the right one. -/
theorem depth_le_of_beq {x y : Node} (h : (x == y) = true) : x.depth ≤ y.depth := by
  induction x using parts_induction generalizing y with
  | step x ih =>
    cases beq_iff_matches.1 h with
    | scalar value => exact Nat.le_refl _
    | @sequence xs ys hm | @invocation tag xs ys hm =>
      refine Nat.succ_le_succ (listDepth_le_iff.2 fun x hx => ?_)
      obtain ⟨i, hi, rfl⟩ := List.getElem_of_mem hx
      have hi' : i < ys.length := hm.1 ▸ hi
      exact Nat.le_trans (ih _ hx (hm.2 i hi hi')) (depth_le_listDepth (List.getElem_mem hi'))
    | @set xs ys hm =>
      refine Nat.succ_le_succ (listDepth_le_iff.2 fun x hx => ?_)
      obtain ⟨y, hy, hxy⟩ := hm.2 x hx
      exact Nat.le_trans (ih x hx hxy) (depth_le_listDepth hy)
    | @mapping ps qs hm =>
      refine Nat.succ_le_succ (pairsDepth_le_iff.2 fun p hp => ?_)
      obtain ⟨q, hq, hv⟩ := hm.2 p hp
      have hk := List.find?_some hq
      obtain ⟨hk', hv'⟩ := depth_le_pairsDepth (List.mem_of_find?_eq_some hq)
      exact ⟨Nat.le_trans (ih _ (mem_parts_mapping.2 ⟨p, hp, .inl rfl⟩) hk) hk',
        Nat.le_trans (ih _ (mem_parts_mapping.2 ⟨p, hp, .inr rfl⟩) hv) hv'⟩

/-! ### The laws -/

/-- Where every item of the left list is matched by an item of the right one, and no two of them by
the same, some of the right items stand in the order in which they match the left ones. -/
theorem exists_subperm_of_match {α β : Type} {R : α → β → Prop} {xs : List α} {ys : List β}
    (hmatch : ∀ x ∈ xs, ∃ y ∈ ys, R x y)
    (hinj : xs.Pairwise fun x x' => ∀ y ∈ ys, R x y → ¬ R x' y) :
    ∃ zs, List.Forall₂ R xs zs ∧ zs.Subperm ys := by
  induction xs generalizing ys with
  | nil => exact ⟨[], .nil, List.nil_subperm⟩
  | cons x xs ih =>
    obtain ⟨y, hy, hx⟩ := hmatch x (List.mem_cons_self ..)
    obtain ⟨l, r, rfl⟩ := List.append_of_mem hy
    obtain ⟨hhead, htail⟩ := List.pairwise_cons.1 hinj
    -- The match of `x` is taken out, and the others still have theirs.
    have hrest : ∀ x' ∈ xs, ∃ z ∈ l ++ r, R x' z := by
      intro x' hx'
      obtain ⟨z, hz, hR⟩ := hmatch x' (List.mem_cons_of_mem _ hx')
      rcases List.mem_cons.1 (List.perm_middle.mem_iff.1 hz) with rfl | hz
      · exact absurd hR (hhead x' hx' z hy hx)
      · exact ⟨z, hz, hR⟩
    obtain ⟨zs, hzs, hsub⟩ := ih hrest <| htail.imp fun h z hz =>
      h z (List.perm_middle.mem_iff.2 (List.mem_cons_of_mem _ hz))
    refine ⟨y :: zs, .cons hx hzs, ?_⟩
    exact ((List.subperm_cons y).2 hsub).trans List.perm_middle.symm.subperm

/-- In that case the left list is no longer than the right one. -/
theorem length_le_of_match {α β : Type} {R : α → β → Prop} {xs : List α} {ys : List β}
    (hmatch : ∀ x ∈ xs, ∃ y ∈ ys, R x y)
    (hinj : xs.Pairwise fun x x' => ∀ y ∈ ys, R x y → ¬ R x' y) : xs.length ≤ ys.length := by
  obtain ⟨zs, hzs, hsub⟩ := exists_subperm_of_match hmatch hinj
  exact hzs.length_eq ▸ hsub.length_le

/-- If both lists are equally long, every item of the right list is matched. -/
theorem exists_match_of_length_eq {α β : Type} {R : α → β → Prop} {xs : List α} {ys : List β}
    (hlen : xs.length = ys.length) (hmatch : ∀ x ∈ xs, ∃ y ∈ ys, R x y)
    (hinj : xs.Pairwise fun x x' => ∀ y ∈ ys, R x y → ¬ R x' y) : ∀ y ∈ ys, ∃ x ∈ xs, R x y := by
  obtain ⟨zs, hzs, hsub⟩ := exists_subperm_of_match hmatch hinj
  have hperm := hsub.perm_of_length_le (Nat.le_of_eq (hlen.symm.trans hzs.length_eq))
  intro y hy
  obtain ⟨i, hi, rfl⟩ := List.getElem_of_mem (hperm.mem_iff.2 hy)
  have hi' : i < xs.length := hzs.length_eq ▸ hi
  exact ⟨xs[i], List.getElem_mem hi', hzs.get hi' hi⟩

/-- Two different pairs with unequal keys have different keys. -/
theorem unequal_keys {qs : List (Node × Node)} (hu : Distinct.Unequal (qs.map Prod.fst))
    {p q : Node × Node} (hp : p ∈ qs) (hq : q ∈ qs) (hne : p ≠ q) : (p.1 == q.1) = false := by
  have : Std.Symm fun p q : Node × Node => (p.1 == q.1) = false ∧ (q.1 == p.1) = false :=
    ⟨fun _ _ h => h.symm⟩
  exact ((List.pairwise_map.1 hu).forall hp hq hne).1

/-- A well-formed node that is less deep than `d`. -/
def Below (d : Nat) (n : Node) : Prop := n.depth < d ∧ n.WellFormed

theorem Below.part {d : Nat} {m n : Node} (hn : Below (d + 1) n) (h : m ∈ n.parts) : Below d m :=
  ⟨Nat.lt_of_lt_of_le (depth_lt_of_mem_parts h) (Nat.le_of_lt_succ hn.1), hn.2.part h⟩

theorem Below.pair {d : Nat} {pairs : List (Node × Node)} (hn : Below (d + 1) (.mapping pairs))
    {p : Node × Node} (h : p ∈ pairs) : Below d p.1 ∧ Below d p.2 :=
  ⟨hn.part (mem_parts_mapping.2 ⟨p, h, .inl rfl⟩), hn.part (mem_parts_mapping.2 ⟨p, h, .inr rfl⟩)⟩

/-- The laws, for well-formed nodes below a depth. -/
structure EquivalenceBelow (d : Nat) : Prop where
  refl : ∀ {x : Node}, Below d x → (x == x) = true
  symm : ∀ {x y : Node}, Below d x → Below d y → (x == y) = true → (y == x) = true
  trans : ∀ {x y z : Node}, Below d x → Below d y → Below d z → (x == y) = true →
    (y == z) = true → (x == z) = true

namespace EquivalenceBelow

variable {d : Nat}

/-- Of unequal keys at most one is equal to a given key, so the look-up finds it. -/
theorem find?_key (h : EquivalenceBelow d) {k : Node} {qs : List (Node × Node)} {q : Node × Node}
    (hk : Below d k) (hqs : ∀ q ∈ qs, Below d q.1) (hu : Distinct.Unequal (qs.map Prod.fst))
    (hq : q ∈ qs) (hkq : (k == q.1) = true) : qs.find? (fun q => k == q.1) = some q := by
  cases hf : qs.find? fun q => k == q.1 with
  | none => exact absurd hkq (List.find?_eq_none.1 hf q hq)
  | some r =>
    have hr := List.mem_of_find?_eq_some hf
    have hkr := List.find?_some hf
    by_contra hne
    have hrq : r ≠ q := fun e => hne (e ▸ rfl)
    have htrue := h.trans (hqs r hr) hk (hqs q hq) (h.symm hk (hqs r hr) hkr) hkq
    rw [unequal_keys hu hr hq hrq] at htrue
    cases htrue

/-- No two unequal nodes are equal to the same node. -/
theorem not_both (h : EquivalenceBelow d) {x x' y : Node} (hx : Below d x) (hx' : Below d x')
    (hy : Below d y) (hu : (x == x') = false) (hxy : (x == y) = true) : ¬ (x' == y) = true := by
  intro hxy'
  rw [h.trans hx hy hx' hxy (h.symm hx' hy hxy')] at hu
  cases hu

theorem refl_succ (h : EquivalenceBelow d) {x : Node} (hx : Below (d + 1) x) :
    (x == x) = true := by
  refine beq_iff_matches.2 ?_
  cases x with
  | scalar value => exact .scalar value
  | sequence items =>
    exact .sequence ⟨rfl, fun i hi _ => h.refl (hx.part (List.getElem_mem hi))⟩
  | set members => exact .set ⟨rfl, fun m hm => ⟨m, hm, h.refl (hx.part hm)⟩⟩
  | mapping pairs =>
    refine .mapping ⟨rfl, fun p hp => ⟨p, ?_, h.refl (hx.pair hp).2⟩⟩
    exact h.find?_key (hx.pair hp).1 (fun q hq => (hx.pair hq).1) hx.2.1 hp
      (h.refl (hx.pair hp).1)
  | invocation tag args =>
    exact .invocation tag ⟨rfl, fun i hi _ => h.refl (hx.part (List.getElem_mem hi))⟩

theorem symm_succ (h : EquivalenceBelow d) {x y : Node} (hx : Below (d + 1) x)
    (hy : Below (d + 1) y) (hxy : (x == y) = true) : (y == x) = true := by
  refine beq_iff_matches.2 ?_
  cases beq_iff_matches.1 hxy with
  | scalar value => exact .scalar value
  | sequence hm =>
    exact .sequence ⟨hm.1.symm, fun i hi hi' =>
      h.symm (hx.part (List.getElem_mem hi')) (hy.part (List.getElem_mem hi)) (hm.2 i hi' hi)⟩
  | @set xs ys hm =>
    have honto := exists_match_of_length_eq hm.1 hm.2 <|
      hx.2.1.imp_of_mem fun ha hb hab y hym =>
        h.not_both (hx.part ha) (hx.part hb) (hy.part hym) hab.1
    refine .set ⟨hm.1.symm, fun y hym => ?_⟩
    obtain ⟨x, hxm, hxy⟩ := honto y hym
    exact ⟨x, hxm, h.symm (hx.part hxm) (hy.part hym) hxy⟩
  | @mapping ps qs hm =>
    have hmatch : ∀ p ∈ ps, ∃ q ∈ qs, (p.1 == q.1) = true ∧ (p.2 == q.2) = true := by
      intro p hp
      obtain ⟨q, hq, hv⟩ := hm.2 p hp
      exact ⟨q, List.mem_of_find?_eq_some hq, by simpa using List.find?_some hq, hv⟩
    have honto := exists_match_of_length_eq hm.1 hmatch <|
      (List.pairwise_map.1 hx.2.1).imp_of_mem fun ha hb hab q hq hR hR' =>
        h.not_both (hx.pair ha).1 (hx.pair hb).1 (hy.pair hq).1 hab.1 hR.1 hR'.1
    refine .mapping ⟨hm.1.symm, fun q hq => ?_⟩
    obtain ⟨p, hp, hk, hv⟩ := honto q hq
    refine ⟨p, ?_, h.symm (hx.pair hp).2 (hy.pair hq).2 hv⟩
    exact h.find?_key (hy.pair hq).1 (fun p hp => (hx.pair hp).1) hx.2.1 hp
      (h.symm (hx.pair hp).1 (hy.pair hq).1 hk)
  | invocation tag hm =>
    exact .invocation tag ⟨hm.1.symm, fun i hi hi' =>
      h.symm (hx.part (List.getElem_mem hi')) (hy.part (List.getElem_mem hi)) (hm.2 i hi' hi)⟩

theorem trans_succ (h : EquivalenceBelow d) {x y z : Node} (hx : Below (d + 1) x)
    (hy : Below (d + 1) y) (hz : Below (d + 1) z) (hxy : (x == y) = true)
    (hyz : (y == z) = true) : (x == z) = true := by
  have items : ∀ {xs ys zs : List Node}, (∀ x ∈ xs, Below d x) → (∀ y ∈ ys, Below d y) →
      (∀ z ∈ zs, Below d z) → ItemsMatch xs ys → ItemsMatch ys zs → ItemsMatch xs zs := by
    intro xs ys zs hxs hys hzs hxy hyz
    refine ⟨hxy.1.trans hyz.1, fun i hi hi' => ?_⟩
    have hiy : i < ys.length := hxy.1 ▸ hi
    exact h.trans (hxs _ (List.getElem_mem hi)) (hys _ (List.getElem_mem hiy))
      (hzs _ (List.getElem_mem hi')) (hxy.2 i hi hiy) (hyz.2 i hiy hi')
  refine beq_iff_matches.2 ?_
  cases beq_iff_matches.1 hxy with
  | scalar value => exact beq_iff_matches.1 hyz
  | sequence hm =>
    cases beq_iff_matches.1 hyz with
    | sequence hm' =>
      exact .sequence (items (fun _ => hx.part) (fun _ => hy.part) (fun _ => hz.part) hm hm')
  | @set xs ys hm =>
    cases beq_iff_matches.1 hyz with
    | set hm' =>
      refine .set ⟨hm.1.trans hm'.1, fun x hxm => ?_⟩
      obtain ⟨y, hym, hxy⟩ := hm.2 x hxm
      obtain ⟨z, hzm, hyz⟩ := hm'.2 y hym
      exact ⟨z, hzm, h.trans (hx.part hxm) (hy.part hym) (hz.part hzm) hxy hyz⟩
  | @mapping ps qs hm =>
    cases beq_iff_matches.1 hyz with
    | @mapping _ rs hm' =>
      refine .mapping ⟨hm.1.trans hm'.1, fun p hp => ?_⟩
      obtain ⟨q, hq, hpq⟩ := hm.2 p hp
      obtain ⟨r, hr, hqr⟩ := hm'.2 q (List.mem_of_find?_eq_some hq)
      have hkpq := List.find?_some hq
      have hkqr := List.find?_some hr
      obtain ⟨hp₁, hp₂⟩ := hx.pair hp
      obtain ⟨hq₁, hq₂⟩ := hy.pair (List.mem_of_find?_eq_some hq)
      obtain ⟨hr₁, hr₂⟩ := hz.pair (List.mem_of_find?_eq_some hr)
      refine ⟨r, ?_, h.trans hp₂ hq₂ hr₂ hpq hqr⟩
      exact h.find?_key hp₁ (fun r hr => (hz.pair hr).1) hz.2.1 (List.mem_of_find?_eq_some hr)
        (h.trans hp₁ hq₁ hr₁ hkpq hkqr)
  | invocation tag hm =>
    cases beq_iff_matches.1 hyz with
    | invocation _ hm' =>
      exact .invocation tag
        (items (fun _ => hx.part) (fun _ => hy.part) (fun _ => hz.part) hm hm')

end EquivalenceBelow

/-- The laws hold below every depth. -/
theorem equivalenceBelow (d : Nat) : EquivalenceBelow d := by
  induction d with
  | zero =>
    refine ⟨fun hx => ?_, fun hx => ?_, fun hx => ?_⟩ <;> exact absurd hx.1 (Nat.not_lt_zero _)
  | succ d ih => exact ⟨ih.refl_succ, ih.symm_succ, ih.trans_succ⟩

/-- A well-formed node is equal to itself. -/
theorem beq_refl {x : Node} (hx : x.WellFormed) : (x == x) = true :=
  (equivalenceBelow (x.depth + 1)).refl ⟨Nat.lt_succ_self _, hx⟩

/-- Equality of well-formed nodes is symmetric. -/
theorem beq_symm {x y : Node} (hx : x.WellFormed) (hy : y.WellFormed) (h : (x == y) = true) :
    (y == x) = true :=
  (equivalenceBelow (max x.depth y.depth + 1)).symm ⟨by omega, hx⟩ ⟨by omega, hy⟩ h

/-- Equality of well-formed nodes is transitive. -/
theorem beq_trans {x y z : Node} (hx : x.WellFormed) (hy : y.WellFormed) (hz : z.WellFormed)
    (hxy : (x == y) = true) (hyz : (y == z) = true) : (x == z) = true :=
  (equivalenceBelow (max (max x.depth y.depth) z.depth + 1)).trans ⟨by omega, hx⟩ ⟨by omega, hy⟩
    ⟨by omega, hz⟩ hxy hyz

/-- Equal well-formed nodes are equally deep. -/
theorem depth_eq_of_beq {x y : Node} (hx : x.WellFormed) (hy : y.WellFormed)
    (h : (x == y) = true) : x.depth = y.depth :=
  Nat.le_antisymm (depth_le_of_beq h) (depth_le_of_beq (beq_symm hx hy h))

end VersionedTree.Node
