import VersionedTree.Proofs.Fingerprints
import VersionedTree.Proofs.StoredNodes

/-!
# Building nodes

There are two ways to make a node: from its parts, where sets and mappings are filled one member or
pair at a time, and from a text. What can be made is exactly what is well formed, so equality, which
ignores the order of filling, is an equivalence on what can be made, and the fingerprint respects
it.

## What is proved

* `Node.built_iff_wellFormed` — the nodes that can be made are the well-formed ones.
* `Node.built_equality` — on them, equality is an equivalence, and equal nodes have the same
  fingerprint and feed the same bytes to a hasher.
-/

namespace VersionedTree.Node

/-- The nodes that can be made. -/
inductive Built : Node → Prop where
  /-- A leaf. -/
  | scalar (value : Scalar) : Built (.scalar value)
  /-- A sequence of items. -/
  | sequence {items : List Node} : (∀ n ∈ items, Built n) → Built (.sequence items)
  /-- A set, filled with members of which some may be equal. -/
  | set {members : List Node} : (∀ n ∈ members, Built n) → Built (.ofMembers members)
  /-- A mapping, filled with pairs of which some may have equal keys. -/
  | mapping {pairs : List (Node × Node)} : (∀ p ∈ pairs, Built p.1) → (∀ p ∈ pairs, Built p.2) →
    Built (.ofPairs pairs)
  /-- A mapping with one more pair. -/
  | insert {pairs : List (Node × Node)} {key value : Node} : Built (.mapping pairs) → Built key →
    Built value → Built (.mapping (Keyed.insert key value pairs))
  /-- An invocation of a tag with arguments. -/
  | invocation {args : List Node} (tag : Tag) : (∀ n ∈ args, Built n) →
    Built (.invocation tag args)
  /-- Any node that is read from a text. -/
  | read {text : String} {n : Node} : ofText text = .ok n → Built n

/-- What can be made is well formed. -/
theorem Built.wellFormed {n : Node} (h : n.Built) : n.WellFormed := by
  induction h with
  | scalar value => trivial
  | sequence _ ih => exact allWellFormed_iff.2 ih
  | set _ ih => exact .ofMembers ih
  | mapping _ _ ihk ihv => exact .ofPairs fun p hp => ⟨ihk p hp, ihv p hp⟩
  | insert _ _ _ ih ihk ihv => exact ih.insert ihk ihv
  | invocation tag _ ih => exact allWellFormed_iff.2 ih
  | read h => exact (fits_of_ofText h).wellFormed

/-- What is well formed can be made from its parts: filling keeps all of them. -/
theorem WellFormed.built {n : Node} (h : n.WellFormed) : n.Built := by
  induction n using parts_induction with
  | step n ih =>
    have hparts : ∀ m ∈ n.parts, m.Built := fun m hm => ih m hm (h.part hm)
    cases n with
    | scalar value => exact .scalar value
    | sequence items => exact .sequence hparts
    | set members =>
      rw [← Distinct.ofList_of_unequal h.1]
      exact .set hparts
    | mapping pairs =>
      rw [← Keyed.ofList_of_newTo ((Keyed.newTo_nil_iff_unequal h.keys).2 h.1)]
      exact .mapping (fun p hp => hparts p.1 (mem_parts_mapping.2 ⟨p, hp, .inl rfl⟩))
        fun p hp => hparts p.2 (mem_parts_mapping.2 ⟨p, hp, .inr rfl⟩)
    | invocation tag args => exact .invocation tag hparts

/-- The nodes that can be made are the well-formed ones. -/
theorem built_iff_wellFormed {n : Node} : n.Built ↔ n.WellFormed :=
  ⟨Built.wellFormed, WellFormed.built⟩

/-- Feed a node to a hasher, whose states take bytes: the node writes its fingerprint. -/
def hashInto {σ : Type} (write : σ → List UInt8 → σ) (state : σ) (n : Node) : σ :=
  write state n.fingerprint.bytes

/-- The nodes that can be made are the well-formed ones. On them equality is reflexive, symmetric
and transitive, and equal nodes have the same fingerprint and leave every hasher in the same
state. -/
theorem built_equality :
    (∀ n : Node, n.Built ↔ n.WellFormed) ∧
    Equivalence (fun m n : {n : Node // n.Built} => (m.1 == n.1) = true) ∧
    ∀ m n : Node, m.Built → n.Built → (m == n) = true →
      m.fingerprint = n.fingerprint ∧
      ∀ {σ : Type} (write : σ → List UInt8 → σ) (state : σ),
        m.hashInto write state = n.hashInto write state := by
  refine ⟨fun _ => built_iff_wellFormed,
    ⟨fun m => ?_, fun {m n} h => ?_, fun {l m n} h h' => ?_⟩, fun m n hm hn h => ?_⟩
  · exact beq_refl m.2.wellFormed
  · exact beq_symm m.2.wellFormed n.2.wellFormed h
  · exact beq_trans l.2.wellFormed m.2.wellFormed n.2.wellFormed h h'
  · have hequal : m.Equal n := ⟨h, hm.wellFormed, hn.wellFormed⟩
    have hfingerprint : m.fingerprint = n.fingerprint := hequal.fingerprintBy_eq
    exact ⟨hfingerprint, fun write state => by rw [hashInto, hashInto, hfingerprint]⟩

/-- A mapping with a set as a key. -/
def filledForwards : Node :=
  .ofPairs [(.ofMembers [.scalar (.int 1), .scalar (.int 2)], .scalar .nil),
    (.scalar (.str "k"), .sequence [])]

/-- The same mapping, filled in another order and with a member that is present already. -/
def filledBackwards : Node :=
  .ofPairs [(.scalar (.str "k"), .sequence []),
    (.ofMembers [.scalar (.int 2), .scalar (.int 1), .scalar (.int 2)], .scalar .nil)]

theorem built_equality_filled :
    filledForwards.Built ∧ filledBackwards.Built ∧ (filledForwards == filledBackwards) = true ∧
    filledForwards ≠ filledBackwards ∧
    filledForwards.fingerprint = filledBackwards.fingerprint := by
  have hforwards : filledForwards.Built := by
    refine .mapping (List.forall_mem_cons.2 ⟨.set ?_, ?_⟩) (List.forall_mem_cons.2 ⟨?_, ?_⟩)
    · simp [Built.scalar]
    · simp [Built.scalar]
    · exact .scalar .nil
    · simpa using Built.sequence (List.forall_mem_nil _)
  have hbackwards : filledBackwards.Built := by
    refine .mapping ?_ (List.forall_mem_cons.2 ⟨.sequence (List.forall_mem_nil _), ?_⟩)
    · refine List.forall_mem_cons.2 ⟨.scalar _, List.forall_mem_singleton.2 (.set ?_)⟩
      simp [Built.scalar]
    · simp [Built.scalar]
  have hbeq : (filledForwards == filledBackwards) = true := by decide
  have hne : filledForwards ≠ filledBackwards := by
    intro h
    cases h
  exact ⟨hforwards, hbackwards, hbeq, hne,
    (built_equality.2.2 filledForwards filledBackwards hforwards hbackwards hbeq).1⟩

end VersionedTree.Node
