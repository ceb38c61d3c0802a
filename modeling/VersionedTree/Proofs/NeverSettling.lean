import VersionedTree.Proofs.Descent
import VersionedTree.Proofs.PassLimit

/-!
# Invocations that never settle

An invocation that comes back with one more argument is longer after every pass. No pass leaves the
forms equal to the ones before, and none fails, so under every limit the invocation runs into it.
The error tells how far it got: one argument more than at the start for each pass that the limit
admits, and the limit admits one pass more than its number.

A node that does not resolve stops every walk that reaches its slot. What a walk does before it gets
there may fail first; nothing that comes after can be of influence, not even a deletion in the other
slot of a pair.

## The model

`Resolver.Reaches` lists the slots at the root of a tree and right below it, each with what a walk
does until it comes to the slot. `Traced.StopsAfter` says that a computation does something first
and then fails, with a rule for each way to put computations together.

## What is proved

* `Resolver.passes_grow` — the forms of a growing invocation after each number of passes.
* `Resolver.resolve_grow` — a growing invocation runs into the limit.
* `Resolver.walkWithin_stopsAfter` — a slot whose node does not resolve stops the walk.
* `Resolver.grow_caughtAtLimit` — both together.
-/

namespace VersionedTree

/-! ### Computations that are stopped -/

namespace Traced

variable {ε δ α β γ : Type}

/-- The computation fails with the error, unless it fails with what is done before. -/
def StopsAfter (x : Traced ε α) (before : Traced ε β) (e : ε) : Prop :=
  x.result = before.result >>= fun _ => .error e

theorem stopsAfter_of_error {x : Traced ε α} {e : ε} (h : x.result = .error e) :
    x.StopsAfter (pure ()) e := h

/-- What would come afterwards is of no influence. -/
theorem StopsAfter.bind {x : Traced ε α} {before : Traced ε β} {e : ε} (h : x.StopsAfter before e)
    (f : α → Traced ε γ) : (x >>= f).StopsAfter before e := by
  rw [StopsAfter, result_bind, h]
  cases before.result <;> rfl

/-- What comes first and succeeds does not count. -/
theorem stopsAfter_bind_of_ok {x : Traced ε α} {a : α} {f : α → Traced ε γ} {before : Traced ε β}
    {e : ε} (hx : x.result = .ok a) (h : (f a).StopsAfter before e) :
    (x >>= f).StopsAfter before e := by
  rw [StopsAfter, result_bind, hx]
  exact h

/-- What comes first is done before. -/
theorem stopsAfter_bind (x : Traced ε α) {f : α → Traced ε γ} {before : α → Traced ε β} {e : ε}
    (h : ∀ a, (f a).StopsAfter (before a) e) : (x >>= f).StopsAfter (x >>= before) e := by
  rw [StopsAfter, result_bind, result_bind]
  cases x.result with
  | error d => rfl
  | ok a => exact h a

theorem stopsAfter_adapt {x : Traced ε α} {e : ε} (h : x.StopsAfter (pure ()) e) (g : ε → δ) :
    StopsAfter (ExceptT.adapt g x) (pure () : Traced δ Unit) (g e) := by
  rw [StopsAfter, result_adapt, h]
  rfl

/-- What is done before is known by whether it fails, and how. -/
theorem StopsAfter.map {x : Traced ε α} {before : Traced ε β} {e : ε} (h : x.StopsAfter before e)
    (g : β → γ) : x.StopsAfter (before >>= fun b => pure (g b)) e := by
  rw [StopsAfter, h, result_bind]
  cases before.result <;> rfl

/-- Of a list of computations, those in front of the one that fails are done before. -/
theorem stopsAfter_mapM {f : α → Traced ε β} {items : List α} {i : Nat} {a : α} {e : ε}
    (hi : items[i]? = some a) (h : (f a).StopsAfter (pure ()) e) :
    (items.mapM f).StopsAfter ((items.take i).mapM f) e := by
  induction items generalizing i with
  | nil => cases hi
  | cons b rest ih =>
    rw [List.mapM_cons]
    cases i with
    | zero =>
      obtain rfl := Option.some.inj hi
      exact (h.bind _).map fun _ => []
    | succ i =>
      rw [List.take_succ_cons, List.mapM_cons]
      exact stopsAfter_bind _ fun c => ((ih hi).bind _).map _

/-- A fold is stopped by the first step that fails from wherever the fold has got to. -/
theorem stopsAfter_foldlM {f : β → α → Traced ε β} {items : List α} {i : Nat} {a : α}
    {before : Traced ε γ} {e : ε} (hi : items[i]? = some a) (h : ∀ b, (f b a).StopsAfter before e)
    (init : β) :
    (items.foldlM f init).StopsAfter ((items.take i).foldlM f init >>= fun _ => before) e := by
  induction items generalizing i init with
  | nil => cases hi
  | cons c rest ih =>
    rw [List.foldlM_cons]
    cases i with
    | zero =>
      obtain rfl := Option.some.inj hi
      rw [List.take_zero, List.foldlM_nil, pure_bind]
      exact (h init).bind _
    | succ i =>
      rw [List.take_succ_cons, List.foldlM_cons, bind_assoc]
      exact stopsAfter_bind _ fun b => ih hi b

end Traced

/-! ### Slots near the root -/

namespace Resolver

variable {r : Resolver} {ctx : Context} {bound : Nat} {n tree : Node}
  {before : Traced WalkError Unit}

/-- The node stands in a slot at the root of the tree or right below it, and `before` is what a walk
of the tree does until it comes to the slot. What is inside of earlier pairs is resolved on the way,
descending at most `bound` collections deep. -/
inductive Reaches (r : Resolver) (ctx : Context) (bound : Nat) (n : Node) :
    Node → Traced WalkError Unit → Prop where
  /-- The root comes first. -/
  | root : Reaches r ctx bound n n (pure ())
  /-- An item comes after the items in front of it. -/
  | item {items : List Node} {i : Nat} : items[i]? = some n →
    Reaches r ctx bound n (.sequence items) (do
      let _ ← r.splice ctx (items.take i)
      return ())
  /-- A member comes after the members in front of it. -/
  | member {members : List Node} {i : Nat} : members[i]? = some n →
    Reaches r ctx bound n (.set members) (do
      let _ ← r.splice ctx (members.take i)
      return ())
  /-- A key comes after the pairs in front of it. -/
  | key {pairs : List (Node × Node)} {i : Nat} {value : Node} : pairs[i]? = some (n, value) →
    Reaches r ctx bound n (.mapping pairs) (do
      let _ ← (pairs.take i).foldlM (r.resolvePair ctx (r.resolveInside ctx bound)) []
      return ())
  /-- A value comes after the pairs in front of it and after its key. -/
  | value {pairs : List (Node × Node)} {i : Nat} {key : Node} : pairs[i]? = some (key, n) →
    Reaches r ctx bound n (.mapping pairs) (do
      let _ ← (pairs.take i).foldlM (r.resolvePair ctx (r.resolveInside ctx bound)) []
      let _ ← r.resolveSide ctx .key key
      return ())

/-- Every node at the root or right below it stands in such a slot, except for arguments. -/
theorem exists_reaches_iff : (∃ before, r.Reaches ctx bound n tree before) ↔
    tree = n ∨ tree.isInvocation = false ∧ n ∈ tree.parts := by
  constructor
  · rintro ⟨before, hn⟩
    cases hn with
    | root => exact .inl rfl
    | item hi => exact .inr ⟨rfl, List.mem_of_getElem? hi⟩
    | member hi => exact .inr ⟨rfl, List.mem_of_getElem? hi⟩
    | key hi => exact .inr ⟨rfl, Node.mem_parts_mapping.2 ⟨_, List.mem_of_getElem? hi, .inl rfl⟩⟩
    | value hi => exact .inr ⟨rfl, Node.mem_parts_mapping.2 ⟨_, List.mem_of_getElem? hi, .inr rfl⟩⟩
  · rintro (rfl | ⟨htree, hn⟩)
    · exact ⟨_, .root⟩
    · cases tree with
      | scalar value => cases hn
      | invocation tag args => cases htree
      | sequence items =>
        obtain ⟨i, hi⟩ := List.mem_iff_getElem?.1 hn
        exact ⟨_, .item hi⟩
      | set members =>
        obtain ⟨i, hi⟩ := List.mem_iff_getElem?.1 hn
        exact ⟨_, .member hi⟩
      | mapping pairs =>
        obtain ⟨⟨key, value⟩, hp, hside⟩ := Node.mem_parts_mapping.1 hn
        obtain ⟨i, hi⟩ := List.mem_iff_getElem?.1 hp
        rcases hside with rfl | rfl
        · exact ⟨_, .key hi⟩
        · exact ⟨_, .value hi⟩

variable {e : ResolveError}

theorem isInvocation_of_resolve_eq_error (h : (r.resolve ctx n).result = .error e) :
    n.isInvocation = true := by
  rw [resolve] at h
  split at h
  · assumption
  · cases h

theorem resolveSlot_stopsAfter (h : (r.resolve ctx n).result = .error e) :
    (r.resolveSlot ctx n).StopsAfter (pure ()) (.resolve e) :=
  Traced.stopsAfter_adapt (Traced.stopsAfter_of_error h) WalkError.resolve

theorem splice_stopsAfter (h : (r.resolve ctx n).result = .error e) {items : List Node} {i : Nat}
    (hi : items[i]? = some n) :
    (r.splice ctx items).StopsAfter (r.splice ctx (items.take i)) (.resolve e) :=
  ((Traced.stopsAfter_mapM hi (resolveSlot_stopsAfter h)).bind _).map _

theorem resolveSide_stopsAfter (h : (r.resolve ctx n).result = .error e) (slot : Slot) :
    (r.resolveSide ctx slot n).StopsAfter (pure ()) (.resolve e) :=
  (resolveSlot_stopsAfter h).bind _

theorem resolvePair_stopsAfter_key (h : (r.resolve ctx n).result = .error e)
    (descend : Node → Traced WalkError Node) (value : Node) (built : List (Node × Node)) :
    (r.resolvePair ctx descend built (n, value)).StopsAfter (pure ()) (.resolve e) :=
  (resolveSide_stopsAfter h .key).bind _

/-- The value is resolved also where the key was deleted. -/
theorem resolvePair_stopsAfter_value (h : (r.resolve ctx n).result = .error e)
    (descend : Node → Traced WalkError Node) (key : Node) (built : List (Node × Node)) :
    (r.resolvePair ctx descend built (key, n)).StopsAfter (do
      let _ ← r.resolveSide ctx .key key
      return ()) (.resolve e) :=
  Traced.stopsAfter_bind _ fun _ => (resolveSide_stopsAfter h .value).bind _

/-- A slot whose node does not resolve stops the walk, unless the walk fails before it gets
there. -/
theorem walkWithin_stopsAfter (h : (r.resolve ctx n).result = .error e)
    (hn : r.Reaches ctx bound n tree before) :
    (r.walkWithin (bound + 1) ctx tree).StopsAfter before (.resolve e) := by
  refine Traced.stopsAfter_bind_of_ok (Traced.result_record _) ?_
  cases hn with
  | root =>
    rw [isInvocation_of_resolve_eq_error h]
    exact ((resolveSlot_stopsAfter h).bind _).bind _
  | item hi => exact ((splice_stopsAfter h hi).bind _).map _
  | member hi => exact ((splice_stopsAfter h hi).bind _).map _
  | key hi =>
    exact (Traced.stopsAfter_foldlM hi (resolvePair_stopsAfter_key h _ _) []).bind _
  | value hi =>
    exact (Traced.stopsAfter_foldlM hi (resolvePair_stopsAfter_value h _ _) []).bind _

/-! ### Growing invocations -/

section Grow

variable {tag : Tag}

/-- After `k` passes a growing invocation has `k` more arguments. -/
theorem passes_grow (hq : r.registry.get? tag = some (.silent (Sample.grow tag)))
    (args : List Node) (k : Nat) : r.passes ctx (.invocation tag args) k =
      .ok [.node (.invocation tag (args ++ List.replicate k .nil))] := by
  induction k with
  | zero => rw [List.replicate_zero, List.append_nil]; rfl
  | succ k ih =>
    rw [passes_succ ih, List.replicate_succ', ← List.append_assoc, pass, Traced.result_bind,
      Traced.result_mapM, List.mapM_cons, result_expandForm hq]
    rfl

/-- An invocation is not equal to one with more arguments. -/
theorem not_beq_of_length_ne {xs ys : List Node} (h : xs.length ≠ ys.length) :
    ([Form.node (.invocation tag xs)] == [.node (.invocation tag ys)]) = false := by
  refine Bool.eq_false_iff.2 fun heq => ?_
  rw [List.cons_beq_cons, Bool.and_eq_true] at heq
  cases Node.beq_iff_matches.1 heq.1 with
  | invocation _ hargs => exact h hargs.1

theorem unsettled_grow (hq : r.registry.get? tag = some (.silent (Sample.grow tag)))
    (args : List Node) (k : Nat) : (r.passes ctx (.invocation tag args)).Unsettled k := by
  refine fun i _ => ⟨_, _, passes_grow hq args i, passes_grow hq args (i + 1), ?_⟩
  refine not_beq_of_length_ne ?_
  simp

/-- A growing invocation runs into the limit, whatever the limit. -/
theorem resolve_grow (hq : r.registry.get? tag = some (.silent (Sample.grow tag)))
    (ctx : Context) (args : List Node) : (r.resolve ctx (.invocation tag args)).result =
      .error (.passLimitExceeded (.invocation tag args) ctx.version r.maxPasses
        [.node (.invocation tag (args ++ List.replicate (r.maxPasses + 1) .nil))]) :=
  (resolve_eq_iff rfl).2 (.cutOff (unsettled_grow hq args _) (passes_grow hq args _))

end Grow

end Resolver

namespace Sample

/-- An invocation that grows. -/
def grower (args : List Node) : Node := .invocation ⟨"grow"⟩ args

/-- How a growing invocation fails under a limit: it has an argument more for each number up to the
limit, zero included. -/
def stillGrowing (limit : Nat) (ctx : Context) (args : List Node) : ResolveError :=
  .passLimitExceeded (grower args) ctx.version limit
    [.node (grower (args ++ List.replicate (limit + 1) .nil))]

end Sample

namespace Resolver

/-- A growing invocation is caught at the limit, whatever the limit. A walk of a tree is caught with
it where such an invocation is the root, an item of a sequence, a member of a set, or a key or a
value of a mapping: it fails with the error of the invocation, or with an error of what it does
before it comes to the slot. -/
theorem grow_caughtAtLimit (limit : Nat) (ctx : Context) (args : List Node) :
    (resolve ⟨Sample.registry, limit⟩ ctx (Sample.grower args)).result =
        .error (Sample.stillGrowing limit ctx args) ∧
      (∀ bound tree,
        (∃ before, Reaches ⟨Sample.registry, limit⟩ ctx bound (Sample.grower args) tree before) ↔
          tree = Sample.grower args ∨ tree.isInvocation = false ∧ Sample.grower args ∈ tree.parts) ∧
      ∀ bound tree before,
        Reaches ⟨Sample.registry, limit⟩ ctx bound (Sample.grower args) tree before →
        tree.depth ≤ bound + 1 →
        ∃ e, (walkWithin ⟨Sample.registry, limit⟩ (bound + 1) ctx tree).result =
            .error (.resolve e) ∧
          (before.result = .error (.resolve e) ∨
            before.result = .ok () ∧ e = Sample.stillGrowing limit ctx args) := by
  have hgrow : (resolve ⟨Sample.registry, limit⟩ ctx (Sample.grower args)).result =
      .error (Sample.stillGrowing limit ctx args) := resolve_grow rfl ctx args
  refine ⟨hgrow, fun _ _ => exists_reaches_iff, fun bound tree before hn hdepth => ?_⟩
  have hstops := walkWithin_stopsAfter hgrow hn
  have hterminates := terminates (r := ⟨Sample.registry, limit⟩) Sample.inwardOrGrowing_registry ctx
  rw [Traced.StopsAfter] at hstops
  cases hbefore : before.result with
  | ok u =>
    rw [hbefore] at hstops
    exact ⟨_, hstops, .inr ⟨rfl, rfl⟩⟩
  | error d =>
    rw [hbefore] at hstops
    cases d with
    | resolve e => exact ⟨e, hstops, .inl rfl⟩
    | tooDeep version =>
      -- the bound is deep enough, so the walk does not get to it
      rw [hterminates.bound _ _ hdepth] at hstops
      exact absurd hstops (hterminates.withinBound tree version)

end Resolver

/-! ### Beside a deletion and behind an error -/

namespace Sample

/-- A pair whose key is deleted, and whose value grows. -/
def besideDeletion : Node := .mapping [(.invocation ⟨"drop"⟩ [], grower [.nil])]

/-- An item that grows behind one that is refused. -/
def behindError : Node := .sequence [.invocation ⟨"when"⟩ [], grower [.nil]]

end Sample

/-- The value that grows is caught although the pair goes away with its key, and where another item
is refused before, the walk fails with that. -/
theorem Resolver.grow_caughtAtLimit_twice :
    (Sample.besideDeletion.depth ≤ 2 ∧
      (walkWithin ⟨Sample.registry, 2⟩ 2 Sample.atSecond Sample.besideDeletion).result =
        .error (.resolve (.passLimitExceeded (Sample.grower [.nil]) ⟨"v1"⟩ 2
          [.node (Sample.grower [.nil, .nil, .nil, .nil])]))) ∧
      Sample.behindError.depth ≤ 2 ∧
      (walkWithin ⟨Sample.registry, 2⟩ 2 Sample.atSecond Sample.behindError).result =
        .error (.resolve (.qualifier ⟨"when"⟩ ⟨"v1"⟩ (.invalidArguments "missing version"))) := by
  obtain ⟨-, -, hwalk⟩ := grow_caughtAtLimit 2 Sample.atSecond [.nil]
  obtain ⟨e, he, hbefore⟩ := hwalk 1 Sample.besideDeletion _ (.value (i := 0) rfl) (by decide)
  obtain ⟨d, hd, hrefused⟩ := hwalk 1 Sample.behindError _ (.item (i := 1) rfl) (by decide)
  refine ⟨⟨by decide, ?_⟩, by decide, ?_⟩
  · rcases hbefore with hfails | ⟨-, rfl⟩
    · cases hfails
    · exact he
  · rcases hrefused with hfails | ⟨hok, -⟩
    · cases hfails
      exact hd
    · cases hok

end VersionedTree
