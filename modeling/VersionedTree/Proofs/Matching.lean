import VersionedTree.Proofs.Following
import VersionedTree.Proofs.Insertion

/-!
# Equal nodes, part by part

Two nodes are equal when they have the same shape and their parts are matched: items and arguments
in order, members and pairs in any order. As the test for equality looks for the parts of the left
node only, this takes well-formed nodes.

Filling a set or a mapping keeps this, where for mappings the keys have to be apart: of colliding
keys the last value counts, and which one is the last depends on the order.

## What is proved

* `Node.Equal.opened` — equal nodes have the same shape, and their parts are matched.
* `Distinct.Unequal.of_matched` — if keys on the left are apart, so are the keys on the right.
* `Node.Equal.sequence`, `Node.Equal.ofMembers` and `Node.Equal.ofPairs` — collections that are
  filled with matched parts are equal.
-/

namespace VersionedTree

/-- Two nodes are well formed and equal. -/
structure Node.Equal (m n : Node) : Prop where
  beq : (m == n) = true
  left : m.WellFormed
  right : n.WellFormed

namespace Node.Equal

variable {l m n m' n' : Node}

theorem refl (h : n.WellFormed) : n.Equal n := ⟨beq_refl h, h, h⟩

theorem symm (h : m.Equal n) : n.Equal m := ⟨beq_symm h.left h.right h.beq, h.right, h.left⟩

theorem trans (h : l.Equal m) (h' : m.Equal n) : l.Equal n :=
  ⟨beq_trans h.left h.right h'.right h.beq h'.beq, h.left, h'.right⟩

/-- Each of two nodes may be replaced by one that it is equal to. -/
theorem beq_congr (h : m.Equal n) (h' : m'.Equal n') : (m == m') = (n == n') := by
  rw [Bool.eq_iff_iff]
  constructor
  · intro heq
    exact ((h.symm.trans ⟨heq, h.left, h'.left⟩).trans h').beq
  · intro heq
    exact ((h.trans ⟨heq, h.right, h'.right⟩).trans h'.symm).beq

end Node.Equal

/-! ### Matching unequal nodes -/

/-- Lists of the same length are matched if every item on the left has a counterpart on the right,
and no two of them the same one. -/
theorem Matched.of_match {α β : Type} {R : α → β → Prop} {xs : List α} {ys : List β}
    (hlen : xs.length = ys.length) (hmatch : ∀ x ∈ xs, ∃ y ∈ ys, R x y)
    (hinj : xs.Pairwise fun x x' => ∀ y ∈ ys, R x y → ¬R x' y) : Matched True R xs ys := by
  obtain ⟨zs, hzs, hsub⟩ := Node.exists_subperm_of_match hmatch hinj
  have hle : ys.length ≤ zs.length := Nat.le_of_eq (hlen.symm.trans hzs.length_eq)
  exact ⟨zs, hzs, .inr ⟨trivial, hsub.perm_of_length_le hle⟩⟩

namespace Distinct.Unequal

variable {xs ys : List Node}

/-- Unequal nodes are not equal to the same node. -/
theorem not_both (h : Unequal xs) :
    xs.Pairwise fun x x' => ∀ y, x.Equal y → ¬x'.Equal y := by
  refine h.imp fun hne y hxy hxy' => ?_
  have heq := (hxy.trans hxy'.symm).beq
  rw [hne.1] at heq
  cases heq

theorem of_forall₂ (h : List.Forall₂ Node.Equal xs ys) (hxs : Unequal xs) : Unequal ys := by
  induction h with
  | nil => exact .nil
  | @cons x y xs ys hxy hrest ih =>
    obtain ⟨hhead, htail⟩ := List.pairwise_cons.1 hxs
    refine .cons (fun y' hy' => ?_) (ih htail)
    obtain ⟨x', hx', hxy'⟩ := exists_mem_left_of_forall₂ hrest hy'
    rw [← hxy.beq_congr hxy', ← hxy'.beq_congr hxy]
    exact hhead x' hx'

/-- If nodes on the left are apart, so are the nodes that they are matched with. -/
theorem of_matched {reorder : Prop} (h : Matched reorder Node.Equal xs ys) (hxs : Unequal xs) :
    Unequal ys := by
  obtain ⟨zs, hzs, rfl | ⟨-, hperm⟩⟩ := h
  · exact of_forall₂ hzs hxs
  · exact (hperm.pairwise_iff fun h => h.symm).1 (of_forall₂ hzs hxs)

end Distinct.Unequal

/-! ### One level of a node -/

namespace Node.Equal

variable {m n : Node} {xs ys : List Node} {ps qs : List (Node × Node)}

/-- Lists that are equal item by item. -/
theorem forall₂_of_itemsMatch (hxs : ∀ x ∈ xs, x.WellFormed) (hys : ∀ y ∈ ys, y.WellFormed)
    (h : ItemsMatch xs ys) : List.Forall₂ Node.Equal xs ys := by
  refine List.forall₂_iff_get.2 ⟨h.1, fun i hx hy => ⟨h.2 i hx hy, ?_, ?_⟩⟩
  · exact hxs _ (List.getElem_mem hx)
  · exact hys _ (List.getElem_mem hy)

theorem matched_of_membersMatch (hxs : (Node.set xs).WellFormed) (hys : (Node.set ys).WellFormed)
    (h : MembersMatch xs ys) : Matched True Node.Equal xs ys := by
  refine .of_match h.1 (fun x hx => ?_) (hxs.1.not_both.imp fun hne y _ => hne y)
  obtain ⟨y, hy, hxy⟩ := h.2 x hx
  exact ⟨y, hy, hxy, hxs.part hx, hys.part hy⟩

theorem matched_of_pairsMatch (hps : (Node.mapping ps).WellFormed)
    (hqs : (Node.mapping qs).WellFormed) (h : PairsMatch ps qs) :
    Matched True (PairRelated Node.Equal) ps qs := by
  refine .of_match h.1 (fun p hp => ?_) ?_
  · obtain ⟨q, hq, hvalue⟩ := h.2 p hp
    have hmem := List.mem_of_find?_eq_some hq
    have hkey : (p.1 == q.1) = true := by simpa using List.find?_some hq
    exact ⟨q, hmem,
      ⟨hkey, hps.keys _ (List.mem_map_of_mem hp), hqs.keys _ (List.mem_map_of_mem hmem)⟩,
      ⟨hvalue, hps.values _ (List.mem_map_of_mem hp), hqs.values _ (List.mem_map_of_mem hmem)⟩⟩
  · have hinj := List.pairwise_map.1 hps.1.not_both
    exact hinj.imp fun hne q _ hpq hpq' => hne q.1 hpq.1 hpq'.1

/-- Equal nodes have the same shape, and their parts are matched. -/
theorem opened (h : m.Equal n) : m.Opened True Node.Equal (fun _ _ => True) n := by
  obtain ⟨hbeq, hm, hn⟩ := h
  cases beq_iff_matches.1 hbeq with
  | scalar value => exact .scalar value
  | sequence h => exact .sequence (forall₂_of_itemsMatch (fun _ => hm.part) (fun _ => hn.part) h)
  | set h => exact .set (matched_of_membersMatch hm hn h)
  | mapping h => exact .mapping (matched_of_pairsMatch hm hn h)
  | invocation tag h => exact .invocation trivial

/-- The arguments of equal invocations are equal, and their tags are the same. -/
theorem arguments {t u : Tag} (h : (Node.invocation t xs).Equal (.invocation u ys)) :
    t = u ∧ List.Forall₂ Node.Equal xs ys := by
  cases beq_iff_matches.1 h.beq with
  | invocation tag hargs =>
    exact ⟨rfl, forall₂_of_itemsMatch (fun _ => h.left.part) (fun _ => h.right.part) hargs⟩

end Node.Equal

/-! ### Filling sets and mappings -/

section Filling

variable {reorder : Prop} {xs ys : List Node} {ps qs : List (Node × Node)}

theorem Matched.wellFormed_left (h : Matched reorder Node.Equal xs ys) :
    ∀ x ∈ xs, x.WellFormed := by
  intro x hx
  obtain ⟨y, -, hxy⟩ := h.exists_right hx
  exact hxy.left

theorem Matched.wellFormed_right (h : Matched reorder Node.Equal xs ys) :
    ∀ y ∈ ys, y.WellFormed := by
  intro y hy
  obtain ⟨x, -, hxy⟩ := h.exists_left hy
  exact hxy.right

/-- A member that stays has a counterpart that stays. -/
theorem Distinct.exists_equal_mem_ofList (hys : ∀ y ∈ ys, y.WellFormed)
    (h : ∀ x ∈ xs, ∃ y ∈ ys, x.Equal y) : ∀ x ∈ ofList xs, ∃ y ∈ ofList ys, x.Equal y := by
  intro x hx
  obtain ⟨y, hy, hxy⟩ := h x (mem_of_mem_ofList hx)
  obtain ⟨y', hy', hbeq⟩ := exists_mem_ofList hys hy
  exact ⟨y', hy', hxy.trans ⟨hbeq, hxy.right, hys y' (mem_of_mem_ofList hy')⟩⟩

/-- Of members that are matched the same number stays, and those that stay are matched. -/
theorem Matched.ofList (h : Matched reorder Node.Equal xs ys) :
    Matched True Node.Equal (Distinct.ofList xs) (Distinct.ofList ys) := by
  have hright := Distinct.exists_equal_mem_ofList h.wellFormed_right fun x hx => h.exists_right hx
  have hleft : ∀ y ∈ Distinct.ofList ys, ∃ x ∈ Distinct.ofList xs, y.Equal x := by
    refine Distinct.exists_equal_mem_ofList h.wellFormed_left fun y hy => ?_
    obtain ⟨x, hx, hxy⟩ := h.exists_left hy
    exact ⟨x, hx, hxy.symm⟩
  have hinj := (Distinct.unequal_ofList h.wellFormed_left).not_both
  have hinj' := (Distinct.unequal_ofList h.wellFormed_right).not_both
  have hle := Node.length_le_of_match hright (hinj.imp fun hne y _ => hne y)
  have hle' := Node.length_le_of_match hleft (hinj'.imp fun hne x _ => hne x)
  exact .of_match (Nat.le_antisymm hle hle') hright (hinj.imp fun hne y _ => hne y)

namespace Node.Equal

/-- Sequences of equal items are equal. -/
theorem sequence (h : List.Forall₂ Node.Equal xs ys) : (Node.sequence xs).Equal (.sequence ys) := by
  have hmatched := Matched.of_forall₂ False h
  refine ⟨beq_iff_matches.2 (.sequence ⟨h.length_eq, fun i hx hy => (h.get hx hy).beq⟩), ?_, ?_⟩
  · exact allWellFormed_iff.2 hmatched.wellFormed_left
  · exact allWellFormed_iff.2 hmatched.wellFormed_right

/-- Members that are matched fill equal sets. -/
theorem ofMembers (h : Matched reorder Node.Equal xs ys) :
    (Node.ofMembers xs).Equal (.ofMembers ys) := by
  have hmatched := h.ofList
  refine ⟨beq_iff_matches.2 (.set ⟨hmatched.length_eq, fun x hx => ?_⟩),
    .ofMembers h.wellFormed_left, .ofMembers h.wellFormed_right⟩
  obtain ⟨y, hy, hxy⟩ := hmatched.exists_right hx
  exact ⟨y, hy, hxy.beq⟩

/-- Among unequal keys the one that is equal to a given key is found. -/
theorem find?_eq_some {k : Node} {q : Node × Node} (hk : k.Equal q.1)
    (hqs : ∀ q ∈ qs, q.1.WellFormed) (hu : Distinct.Unequal (qs.map Prod.fst)) (hq : q ∈ qs) :
    qs.find? (fun q => k == q.1) = some q := by
  refine (equivalenceBelow (max k.depth (pairsDepth qs) + 1)).find?_key ⟨by omega, hk.left⟩
    (fun r hr => ⟨?_, hqs r hr⟩) hu hq hk.beq
  have hle := (depth_le_pairsDepth hr).1
  omega

/-- Mappings of pairs that are matched are equal, if the keys of one are apart. -/
theorem mapping (h : Matched reorder (PairRelated Node.Equal) ps qs)
    (hps : Distinct.Unequal (ps.map Prod.fst)) : (Node.mapping ps).Equal (.mapping qs) := by
  have hkeys : Matched reorder Node.Equal (ps.map Prod.fst) (qs.map Prod.fst) :=
    h.map fun hpq => hpq.1
  have hvalues : Matched reorder Node.Equal (ps.map Prod.snd) (qs.map Prod.snd) :=
    h.map fun hpq => hpq.2
  have hqs : Distinct.Unequal (qs.map Prod.fst) := hps.of_matched hkeys
  refine ⟨beq_iff_matches.2 (.mapping ⟨h.length_eq, fun p hp => ?_⟩),
    ⟨hps, pairsWellFormed_iff.2 fun p hp => ⟨?_, ?_⟩⟩,
    ⟨hqs, pairsWellFormed_iff.2 fun q hq => ⟨?_, ?_⟩⟩⟩
  · obtain ⟨q, hq, hpq⟩ := h.exists_right hp
    exact ⟨q, hpq.1.find?_eq_some (fun r hr => hkeys.wellFormed_right _ (List.mem_map_of_mem hr))
      hqs hq, hpq.2.beq⟩
  · exact hkeys.wellFormed_left _ (List.mem_map_of_mem hp)
  · exact hvalues.wellFormed_left _ (List.mem_map_of_mem hp)
  · exact hkeys.wellFormed_right _ (List.mem_map_of_mem hq)
  · exact hvalues.wellFormed_right _ (List.mem_map_of_mem hq)

end Node.Equal

/-- Keys are new one after the other exactly when they are apart. -/
theorem Keyed.newTo_nil_iff_unequal (h : ∀ k ∈ ps.map Prod.fst, k.WellFormed) :
    NewTo [] ps ↔ Distinct.Unequal (ps.map Prod.fst) := by
  rw [newTo_nil_iff, Distinct.Unequal, List.pairwise_map]
  constructor
  · intro hnew
    refine hnew.imp_of_mem fun {p q} hp hq hne => ⟨?_, hne⟩
    have hwf := h p.1 (List.mem_map_of_mem hp)
    have hwf' := h q.1 (List.mem_map_of_mem hq)
    by_contra hbeq
    rw [Node.beq_symm hwf hwf' (Bool.not_eq_false _ ▸ hbeq)] at hne
    cases hne
  · intro hunequal
    exact hunequal.imp fun hne => hne.2

/-- Pairs that are matched fill equal mappings if no key collides on the left, and then none
collides on the right. -/
theorem Node.Equal.ofPairs (h : Matched reorder (PairRelated Node.Equal) ps qs)
    (hnew : Keyed.NewTo [] ps) :
    (Node.ofPairs ps).Equal (.ofPairs qs) ∧ Keyed.NewTo [] qs := by
  have hkeys : Matched reorder Node.Equal (ps.map Prod.fst) (qs.map Prod.fst) :=
    h.map fun hpq => hpq.1
  have hps := (Keyed.newTo_nil_iff_unequal hkeys.wellFormed_left).1 hnew
  have hnew' := (Keyed.newTo_nil_iff_unequal hkeys.wellFormed_right).2 (hps.of_matched hkeys)
  refine ⟨?_, hnew'⟩
  rw [Node.ofPairs, Node.ofPairs, Keyed.ofList_of_newTo hnew, Keyed.ofList_of_newTo hnew']
  exact .mapping h hps

end Filling

end VersionedTree
