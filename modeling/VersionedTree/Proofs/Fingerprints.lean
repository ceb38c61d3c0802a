import VersionedTree.Proofs.Matching
import VersionedTree.Tree.Fingerprint

/-!
# Equal nodes have the same fingerprint

The transcript of a set lists the fingerprints of its members in ascending order, and that of a
mapping its pairs of fingerprints. Sorting forgets the order of insertion and nothing else, so equal
nodes have the same transcript, whatever the digest function.

## What is proved

* `Fingerprint.sorted_eq_iff` and `Fingerprint.sortedPairs_eq_iff` — sorting forgets the order and
  nothing else.
* `Node.Equal.fingerprintBy_eq` — equal nodes have the same fingerprint.
-/

namespace VersionedTree

namespace Fingerprint

/-! ### Sorting -/

/-- Lists sorted by bytes that tell their members apart are the same exactly when their members
are. -/
theorem mergeSort_eq_iff_perm {α : Type} {key : α → List UInt8} (hkey : Function.Injective key)
    {xs ys : List α} :
    xs.mergeSort (fun x y => decide (key x ≤ key y)) =
      ys.mergeSort (fun x y => decide (key x ≤ key y)) ↔ xs.Perm ys := by
  have htrans : ∀ x y z : α, decide (key x ≤ key y) = true → decide (key y ≤ key z) = true →
      decide (key x ≤ key z) = true := by
    simp only [decide_eq_true_eq]
    exact fun _ _ _ => List.le_trans
  have htotal : ∀ x y : α, (decide (key x ≤ key y) || decide (key y ≤ key x)) = true := by
    simp only [Bool.or_eq_true, decide_eq_true_eq]
    exact fun x y => List.le_total (key x) (key y)
  constructor
  · intro h
    exact (List.mergeSort_perm xs _).symm.trans (h ▸ List.mergeSort_perm ys _)
  · intro h
    have hperm := (List.mergeSort_perm xs fun x y => decide (key x ≤ key y)).trans
      (h.trans (List.mergeSort_perm ys fun x y => decide (key x ≤ key y)).symm)
    refine hperm.eq_of_pairwise (fun x y _ _ hxy hyx => ?_)
      (List.pairwise_mergeSort htrans htotal _) (List.pairwise_mergeSort htrans htotal _)
    exact hkey (List.le_antisymm (of_decide_eq_true hxy) (of_decide_eq_true hyx))

theorem sorted_eq_iff {fs gs : List Fingerprint} : sorted fs = sorted gs ↔ fs.Perm gs :=
  mergeSort_eq_iff_perm fun _ _ => Fingerprint.ext

/-- The bytes of two fingerprints tell the two. -/
theorem append_bytes_inj {f f' g g' : Fingerprint} :
    f.bytes ++ g.bytes = f'.bytes ++ g'.bytes ↔ f = f' ∧ g = g' := by
  constructor
  · intro h
    obtain ⟨hf, hg⟩ := List.append_inj h (f.length_bytes.trans f'.length_bytes.symm)
    exact ⟨Fingerprint.ext hf, Fingerprint.ext hg⟩
  · rintro ⟨rfl, rfl⟩
    rfl

theorem sortedPairs_eq_iff {ps qs : List (Fingerprint × Fingerprint)} :
    sortedPairs ps = sortedPairs qs ↔ ps.Perm qs := by
  have hkey : Function.Injective fun p : Fingerprint × Fingerprint => p.1.bytes ++ p.2.bytes := by
    intro p q h
    obtain ⟨h₁, h₂⟩ := append_bytes_inj.1 h
    exact Prod.ext h₁ h₂
  exact mergeSort_eq_iff_perm hkey

end Fingerprint

/-! ### Lists that are matched -/

section Lists

variable {α β : Type} {R : α → α → Prop} {f : α → β} {xs ys : List α}

/-- What agrees on related items agrees on lists that are related item by item. -/
theorem map_eq_of_forall₂ (h : List.Forall₂ R xs ys) (hf : ∀ x ∈ xs, ∀ y, R x y → f x = f y) :
    xs.map f = ys.map f := by
  induction h with
  | nil => rfl
  | cons hxy _ ih =>
    rw [List.map_cons, List.map_cons, hf _ (List.mem_cons_self ..) _ hxy,
      ih fun x hx => hf x (List.mem_cons_of_mem _ hx)]

/-- What agrees on related items agrees on matched lists, up to the order. -/
theorem Matched.map_perm {reorder : Prop} (h : Matched reorder R xs ys)
    (hf : ∀ x ∈ xs, ∀ y, R x y → f x = f y) : (xs.map f).Perm (ys.map f) := by
  obtain ⟨zs, hzs, hys⟩ := h
  rw [map_eq_of_forall₂ hzs hf]
  rcases hys with rfl | ⟨-, hperm⟩
  · exact .refl _
  · exact hperm.map f

end Lists

/-! ### Equal nodes -/

namespace Node.Equal

variable {digest : List UInt8 → Fingerprint} {m n : Node}

/-- Nodes of one shape whose parts have the same fingerprints have the same transcript. -/
theorem transcriptBy_eq_of_parts (h : m.Equal n)
    (hparts : ∀ p ∈ m.parts, ∀ q, p.Equal q → p.fingerprintBy digest = q.fingerprintBy digest) :
    m.transcriptBy digest = n.transcriptBy digest := by
  cases h.opened with
  | scalar value => rfl
  | sequence hitems =>
    rw [transcriptBy, transcriptBy, partsBy_eq_map, partsBy_eq_map, hitems.length_eq,
      map_eq_of_forall₂ hitems hparts]
  | set hmembers =>
    rw [transcriptBy, transcriptBy, partsBy_eq_map, partsBy_eq_map, hmembers.length_eq,
      Fingerprint.sorted_eq_iff.2 (hmembers.map_perm hparts)]
  | @mapping ps qs hpairs =>
    have hpair : ∀ p ∈ ps, ∀ q, PairRelated Node.Equal p q →
        (p.1.fingerprintBy digest, p.2.fingerprintBy digest) =
          (q.1.fingerprintBy digest, q.2.fingerprintBy digest) := by
      rintro p hp q ⟨hkey, hvalue⟩
      rw [hparts p.1 (mem_parts_mapping.2 ⟨p, hp, .inl rfl⟩) q.1 hkey,
        hparts p.2 (mem_parts_mapping.2 ⟨p, hp, .inr rfl⟩) q.2 hvalue]
    rw [transcriptBy, transcriptBy, pairPartsBy_eq_map, pairPartsBy_eq_map, hpairs.length_eq,
      Fingerprint.sortedPairs_eq_iff.2 (hpairs.map_perm hpair)]
  | invocation =>
    obtain ⟨rfl, hargs⟩ := h.arguments
    rw [transcriptBy, transcriptBy, partsBy_eq_map, partsBy_eq_map, hargs.length_eq,
      map_eq_of_forall₂ hargs hparts]

/-- Equal nodes have the same fingerprint. -/
theorem fingerprintBy_eq (h : m.Equal n) : m.fingerprintBy digest = n.fingerprintBy digest := by
  induction m using parts_induction generalizing n with
  | step m ih =>
    rw [fingerprintBy, fingerprintBy, h.transcriptBy_eq_of_parts fun p hp q hpq => ih p hp hpq]

end Node.Equal

end VersionedTree
