import VersionedTree.Tree.WellFormed

/-!
# Parts and subnodes

The parts of a node are the nodes directly inside of it: items, members, keys and values, or
arguments. Its subnodes are the node itself, its parts, their parts, and so on.

## What is proved

* `Node.subnodes_eq` — the subnodes of a node are the node and the subnodes of its parts.
* `Node.subnodes_trans` — a subnode of a subnode is a subnode.
* `Node.depth_lt_of_mem_parts` and `Node.depth_le_of_mem_subnodes` — a part is less deep than the
  node, and a subnode is no deeper.
* `Node.InvokesOnly.subnode` — the tags in a subnode are tags in the node.
* `Node.WellFormed.subnode` — a subnode of a well-formed node is well formed.
-/

namespace VersionedTree.Node

/-- The nodes directly inside of a node, from left to right. -/
def parts : Node → List Node
  | .scalar _ => []
  | .sequence items => items
  | .set members => members
  | .mapping pairs => pairs.flatMap fun p => [p.1, p.2]
  | .invocation _ args => args

mutual

/-- The node and everything inside of it, at any depth. -/
def subnodes : Node → List Node
  | .scalar value => [.scalar value]
  | .sequence items => .sequence items :: listSubnodes items
  | .set members => .set members :: listSubnodes members
  | .mapping pairs => .mapping pairs :: pairsSubnodes pairs
  | .invocation tag args => .invocation tag args :: listSubnodes args

/-- The subnodes of the nodes of a list. -/
def listSubnodes : List Node → List Node
  | [] => []
  | n :: rest => n.subnodes ++ listSubnodes rest

/-- The subnodes of keys and values. -/
def pairsSubnodes : List (Node × Node) → List Node
  | [] => []
  | (k, v) :: rest => k.subnodes ++ v.subnodes ++ pairsSubnodes rest

end

theorem listSubnodes_eq_flatMap (items : List Node) :
    listSubnodes items = items.flatMap subnodes := by
  induction items with
  | nil => rfl
  | cons n rest ih => rw [listSubnodes, ih, List.flatMap_cons]

theorem pairsSubnodes_eq_flatMap (pairs : List (Node × Node)) :
    pairsSubnodes pairs = (pairs.flatMap fun p => [p.1, p.2]).flatMap subnodes := by
  induction pairs with
  | nil => rfl
  | cons p rest ih =>
    obtain ⟨k, v⟩ := p
    simp [pairsSubnodes, ih]

/-- The subnodes of a node are the node and the subnodes of its parts. -/
theorem subnodes_eq (n : Node) : n.subnodes = n :: n.parts.flatMap subnodes := by
  cases n with
  | scalar value => rfl
  | sequence items => rw [subnodes, listSubnodes_eq_flatMap, parts]
  | set members => rw [subnodes, listSubnodes_eq_flatMap, parts]
  | mapping pairs => rw [subnodes, pairsSubnodes_eq_flatMap, parts]
  | invocation tag args => rw [subnodes, listSubnodes_eq_flatMap, parts]

theorem mem_subnodes_iff {m n : Node} :
    m ∈ n.subnodes ↔ m = n ∨ ∃ p ∈ n.parts, m ∈ p.subnodes := by
  rw [subnodes_eq, List.mem_cons, List.mem_flatMap]

theorem self_mem_subnodes (n : Node) : n ∈ n.subnodes := mem_subnodes_iff.2 (.inl rfl)

theorem mem_subnodes_of_mem_parts {m n : Node} (h : m ∈ n.parts) : m ∈ n.subnodes :=
  mem_subnodes_iff.2 (.inr ⟨m, h, self_mem_subnodes m⟩)

/-- The parts of a mapping are its keys and values. -/
theorem mem_parts_mapping {m : Node} {pairs : List (Node × Node)} :
    m ∈ (mapping pairs).parts ↔ ∃ p ∈ pairs, m = p.1 ∨ m = p.2 := by
  simp [parts]

/-! ### Depth -/

/-- A key or a value is at most as deep as the list of pairs. -/
theorem depth_le_pairsDepth {p : Node × Node} {pairs : List (Node × Node)} (h : p ∈ pairs) :
    p.1.depth ≤ pairsDepth pairs ∧ p.2.depth ≤ pairsDepth pairs := by
  induction pairs with
  | nil => simp at h
  | cons q rest ih =>
    obtain ⟨k, v⟩ := q
    rw [pairsDepth]
    rcases List.mem_cons.1 h with rfl | h
    · dsimp only
      omega
    · obtain ⟨hk, hv⟩ := ih h
      omega

/-- A part is less deep than the node. -/
theorem depth_lt_of_mem_parts {m n : Node} (h : m ∈ n.parts) : m.depth < n.depth := by
  cases n with
  | scalar value => simp [parts] at h
  | sequence items => exact Nat.lt_succ_of_le (depth_le_listDepth h)
  | set members => exact Nat.lt_succ_of_le (depth_le_listDepth h)
  | mapping pairs =>
    obtain ⟨p, hp, rfl | rfl⟩ := mem_parts_mapping.1 h
    all_goals obtain ⟨hk, hv⟩ := depth_le_pairsDepth hp
    · exact Nat.lt_succ_of_le hk
    · exact Nat.lt_succ_of_le hv
  | invocation tag args => exact Nat.lt_succ_of_le (depth_le_listDepth h)

/-- What holds of a node as soon as it holds of its parts holds of every node. -/
theorem parts_induction {motive : Node → Prop}
    (step : ∀ n, (∀ m ∈ n.parts, motive m) → motive n) (n : Node) : motive n :=
  step n fun m _ => parts_induction step m
termination_by n.depth
decreasing_by exact depth_lt_of_mem_parts ‹_›

/-- A property that passes to parts passes to subnodes. -/
theorem of_mem_subnodes {P : Node → Prop} (step : ∀ n, P n → ∀ m ∈ n.parts, P m) {m n : Node}
    (hn : P n) (h : m ∈ n.subnodes) : P m := by
  induction n using parts_induction with
  | step n ih =>
    rcases mem_subnodes_iff.1 h with rfl | ⟨p, hp, hm⟩
    · exact hn
    · exact ih p hp (step n hn p hp) hm

/-- A subnode of a subnode is a subnode. -/
theorem subnodes_trans {l m n : Node} (hlm : l ∈ m.subnodes) (hmn : m ∈ n.subnodes) :
    l ∈ n.subnodes := by
  induction n using parts_induction with
  | step n ih =>
    rcases mem_subnodes_iff.1 hmn with rfl | ⟨p, hp, hm⟩
    · exact hlm
    · exact mem_subnodes_iff.2 (.inr ⟨p, hp, ih p hp hm⟩)

/-- A subnode is no deeper than the node. -/
theorem depth_le_of_mem_subnodes {m n : Node} (h : m ∈ n.subnodes) : m.depth ≤ n.depth :=
  of_mem_subnodes (P := fun p => p.depth ≤ n.depth)
    (fun _ hp _ hm => Nat.le_trans (Nat.le_of_lt (depth_lt_of_mem_parts hm)) hp) (Nat.le_refl _) h

/-! ### The tags in a tree -/

/-- Every invocation of the tree, at any depth and also inside of arguments, has a tag of a kind. -/
def InvokesOnly (allowed : Tag → Prop) (tree : Node) : Prop :=
  ∀ tag args, .invocation tag args ∈ tree.subnodes → allowed tag

theorem InvokesOnly.subnode {allowed : Tag → Prop} {m n : Node} (hn : n.InvokesOnly allowed)
    (h : m ∈ n.subnodes) : m.InvokesOnly allowed :=
  fun tag args hargs => hn tag args (subnodes_trans hargs h)

theorem InvokesOnly.part {allowed : Tag → Prop} {m n : Node} (hn : n.InvokesOnly allowed)
    (h : m ∈ n.parts) : m.InvokesOnly allowed :=
  hn.subnode (mem_subnodes_of_mem_parts h)

/-- The tag of an invocation is one of those in it. -/
theorem InvokesOnly.tag {allowed : Tag → Prop} {tag : Tag} {args : List Node}
    (h : (Node.invocation tag args).InvokesOnly allowed) : allowed tag :=
  h tag args (self_mem_subnodes _)

/-! ### Well-formed parts -/

/-- A part of a well-formed node is well formed. -/
theorem WellFormed.part {m n : Node} (hn : n.WellFormed) (h : m ∈ n.parts) : m.WellFormed := by
  cases n with
  | scalar value => simp [parts] at h
  | sequence items =>
    rw [WellFormed, allWellFormed_iff] at hn
    exact hn m h
  | set members =>
    rw [WellFormed, allWellFormed_iff] at hn
    exact hn.2 m h
  | mapping pairs =>
    rw [WellFormed, pairsWellFormed_iff] at hn
    obtain ⟨p, hp, rfl | rfl⟩ := mem_parts_mapping.1 h
    · exact (hn.2 p hp).1
    · exact (hn.2 p hp).2
  | invocation tag args =>
    rw [WellFormed, allWellFormed_iff] at hn
    exact hn m h

/-- The keys of a well-formed mapping are well formed. -/
theorem WellFormed.keys {pairs : List (Node × Node)} (h : (mapping pairs).WellFormed) :
    ∀ k ∈ pairs.map Prod.fst, k.WellFormed := by
  intro k hk
  obtain ⟨p, hp, rfl⟩ := List.mem_map.1 hk
  exact h.part (mem_parts_mapping.2 ⟨p, hp, .inl rfl⟩)

/-- The values of a well-formed mapping are well formed. -/
theorem WellFormed.values {pairs : List (Node × Node)} (h : (mapping pairs).WellFormed) :
    ∀ v ∈ pairs.map Prod.snd, v.WellFormed := by
  intro v hv
  obtain ⟨p, hp, rfl⟩ := List.mem_map.1 hv
  exact h.part (mem_parts_mapping.2 ⟨p, hp, .inr rfl⟩)

/-- A subnode of a well-formed node is well formed. -/
theorem WellFormed.subnode {m n : Node} (hn : n.WellFormed) (h : m ∈ n.subnodes) :
    m.WellFormed :=
  of_mem_subnodes (fun _ hp _ hm => hp.part hm) hn h

end VersionedTree.Node
