import VersionedTree.Proofs.Bundled
import VersionedTree.Proofs.StoredNodes

/-!
# What a value spells

A JSON value spells a node when it lists what the node is made of, whatever the limit on nesting and
whether or not members or keys are equal. A set of two equal members can be spelled, and so can a
mapping of two equal keys. The decoder accepts what spells a well-formed node and nothing that
spells another one, so it neither merges duplicates nor lets any through.

## The model

`Json.Spells` has one rule for each kind of node. In the rules for collections the items of an array
correspond to the parts of the node one by one, so a set has as many members as the array that
spells it, and a mapping as many pairs.

## What is proved

* `Json.Spells.unique` — a value spells at most one node.
* `Node.spells_toJson` — every node is spelled by its JSON form, also one that is not well formed.
* `Node.spells_of_ofJson` — what is read is spelled by the value that it is read from.
* `Node.wellFormed_throughout` — nodes are well formed when they are read, and stay so in a walk.
-/

namespace VersionedTree

/-- The name of the kind of a node. -/
def Node.variantName : Node → String
  | .scalar _ => "Scalar"
  | .sequence _ => "Sequence"
  | .set _ => "Set"
  | .mapping _ => "Mapping"
  | .invocation _ _ => "Invocation"

mutual

/-- The value lists what the node is made of, in order: an item for each item, member or argument,
and an array of two for each pair. -/
inductive Json.Spells : Json → Node → Prop where
  /-- A scalar. -/
  | scalar {raw : List Char} {v : Json} {value : Scalar} {left : Nat} :
    Json.nameOf raw = .ok "Scalar" → Scalar.ofJson left v = .ok value →
    Spells (.object [(raw, v)]) (.scalar value)
  /-- A sequence of items. -/
  | sequence {raw : List Char} {vs : List Json} {items : List Node} :
    Json.nameOf raw = .ok "Sequence" → List.Forall₂ Spells vs items →
    Spells (.object [(raw, .array vs)]) (.sequence items)
  /-- A set of members, which may be equal. -/
  | set {raw : List Char} {vs : List Json} {members : List Node} :
    Json.nameOf raw = .ok "Set" → List.Forall₂ Spells vs members →
    Spells (.object [(raw, .array vs)]) (.set members)
  /-- A mapping of pairs, whose keys may be equal. -/
  | mapping {raw : List Char} {vs : List Json} {pairs : List (Node × Node)} :
    Json.nameOf raw = .ok "Mapping" → List.Forall₂ SpellsPair vs pairs →
    Spells (.object [(raw, .array vs)]) (.mapping pairs)
  /-- A tag with arguments. -/
  | invocation {raw : List Char} {v : Json} {tag : Tag} {vs : List Json} {args : List Node} :
    Json.nameOf raw = .ok "Invocation" → Node.InvocationParts v tag (.array vs) →
    List.Forall₂ Spells vs args → Spells (.object [(raw, v)]) (.invocation tag args)

/-- The value is an array of two that spell the sides of a pair. -/
inductive Json.SpellsPair : Json → Node × Node → Prop where
  /-- A pair. -/
  | pair {k w : Json} {p : Node × Node} : Spells k p.1 → Spells w p.2 → SpellsPair (.array [k, w]) p

end

/-! ### One node at most -/

/-- Lists that are related to one list are the same, if this is so for each of their items. -/
theorem eq_of_forall₂ {α β : Type} {R : α → β → Prop} {xs : List α} {ys ys' : List β}
    (h : List.Forall₂ R xs ys) (h' : List.Forall₂ R xs ys')
    (hitem : ∀ y ∈ ys, ∀ x y', R x y → R x y' → y = y') : ys = ys' := by
  induction h generalizing ys' with
  | nil =>
    cases h'
    rfl
  | @cons x y xs ys hxy _ ih =>
    cases h' with
    | @cons _ y' _ ys' hxy' hrest' =>
      obtain ⟨hy, hys⟩ := List.forall_mem_cons.1 hitem
      rw [hy x y' hxy hxy', ih hrest' hys]

/-- The limit on nesting makes no difference to the scalar that is read. -/
theorem Scalar.eq_of_ofJson {left left' : Nat} {v : Json} {value value' : Scalar}
    (h : Scalar.ofJson left v = .ok value) (h' : Scalar.ofJson left' v = .ok value') :
    value = value' := by
  cases v with
  | string raw => exact Except.ok.inj (h.symm.trans h')
  | object fields =>
    cases fields with
    | nil => cases h
    | cons f rest =>
      obtain ⟨l, -, h⟩ := Outcome.bind_eq_ok_iff.1 h
      obtain ⟨l', -, h'⟩ := Outcome.bind_eq_ok_iff.1 h'
      exact Except.ok.inj (h.symm.trans h')
  | _ => cases h

theorem Node.InvocationParts.unique {v args args' : Json} {tag tag' : Tag}
    (h : InvocationParts v tag args) (h' : InvocationParts v tag' args') :
    tag = tag' ∧ args = args' := by
  cases h with
  | array htag =>
    cases h' with
    | array htag' =>
      rw [htag, Except.ok.injEq] at htag'
      exact ⟨congrArg Tag.mk htag', rfl⟩
  | object hf htag hargs =>
    cases h' with
    | object hf' htag' hargs' =>
      rw [hf, List.singleton_inj] at hf'
      rw [hargs, List.singleton_inj, Prod.mk.injEq] at hargs'
      rw [hf', htag', Except.ok.injEq] at htag
      exact ⟨congrArg Tag.mk htag.symm, hargs'.2⟩

namespace Json.Spells

variable {v : Json} {m n : Node}

/-- The name of the only field says which kind of node it is. -/
theorem exists_variant (h : v.Spells n) :
    ∃ raw w, v = .object [(raw, w)] ∧ nameOf raw = .ok n.variantName := by
  cases h with
  | scalar hname _ => exact ⟨_, _, rfl, hname⟩
  | sequence hname _ => exact ⟨_, _, rfl, hname⟩
  | set hname _ => exact ⟨_, _, rfl, hname⟩
  | mapping hname _ => exact ⟨_, _, rfl, hname⟩
  | invocation hname _ _ => exact ⟨_, _, rfl, hname⟩

theorem variantName_eq (hm : v.Spells m) (hn : v.Spells n) : m.variantName = n.variantName := by
  obtain ⟨raw, w, rfl, hname⟩ := hm.exists_variant
  obtain ⟨_, _, heq, hname'⟩ := hn.exists_variant
  cases heq
  exact Except.ok.inj (hname.symm.trans hname')

/-- A value spells at most one node. -/
theorem unique (hm : v.Spells m) (hn : v.Spells n) : m = n := by
  induction m using Node.parts_induction generalizing v n with
  | step m ih =>
    have hkind := variantName_eq hm hn
    cases m with
    | scalar value =>
      cases n with
      | scalar value' =>
        cases hm with
        | scalar _ hvalue =>
          cases hn with
          | scalar _ hvalue' => rw [Scalar.eq_of_ofJson hvalue hvalue']
      | _ => simp [Node.variantName] at hkind
    | sequence items =>
      cases n with
      | sequence items' =>
        cases hm with
        | sequence _ hitems =>
          cases hn with
          | sequence _ hitems' =>
            rw [eq_of_forall₂ hitems hitems' fun m hm _ _ h h' => ih m hm h h']
      | _ => simp [Node.variantName] at hkind
    | set members =>
      cases n with
      | set members' =>
        cases hm with
        | set _ hmembers =>
          cases hn with
          | set _ hmembers' =>
            rw [eq_of_forall₂ hmembers hmembers' fun m hm _ _ h h' => ih m hm h h']
      | _ => simp [Node.variantName] at hkind
    | mapping pairs =>
      cases n with
      | mapping pairs' =>
        cases hm with
        | mapping _ hpairs =>
          cases hn with
          | mapping _ hpairs' =>
            rw [eq_of_forall₂ hpairs hpairs' fun p hp v p' h h' => ?_]
            cases h with
            | pair hk hw =>
              cases h' with
              | pair hk' hw' =>
                have hkey := ih p.1 (Node.mem_parts_mapping.2 ⟨p, hp, .inl rfl⟩) hk hk'
                have hvalue := ih p.2 (Node.mem_parts_mapping.2 ⟨p, hp, .inr rfl⟩) hw hw'
                exact Prod.ext hkey hvalue
      | _ => simp [Node.variantName] at hkind
    | invocation tag args =>
      cases n with
      | invocation tag' args' =>
        cases hm with
        | invocation _ hparts hargs =>
          cases hn with
          | invocation _ hparts' hargs' =>
            obtain ⟨rfl, hvs⟩ := hparts.unique hparts'
            cases hvs
            rw [eq_of_forall₂ hargs hargs' fun m hm _ _ h h' => ih m hm h h']
      | _ => simp [Node.variantName] at hkind

end Json.Spells

/-! ### What is written and what is read -/

namespace Node

/-- Every node is spelled by its JSON form, also one that is not well formed. -/
theorem spells_toJson (n : Node) : n.toJson.Spells n := by
  induction n using parts_induction with
  | step n ih =>
    have hlist : ∀ {items : List Node}, (∀ m ∈ items, m.toJson.Spells m) →
        List.Forall₂ Json.Spells (items.map toJson) items := fun h =>
      List.forall₂_map_left_iff.2 (List.forall₂_same.2 h)
    cases n with
    | scalar value =>
      have hvalue := scalarOfJson_toJson value.toJson.nesting value
      rw [Json.within_of_le (Nat.le_refl _)] at hvalue
      exact .scalar (Json.nameOf_escape "Scalar") hvalue
    | sequence items =>
      rw [toJson, itemsToJson_eq_map]
      exact .sequence (Json.nameOf_escape _) (hlist ih)
    | set members =>
      rw [toJson, itemsToJson_eq_map]
      exact .set (Json.nameOf_escape _) (hlist ih)
    | mapping pairs =>
      rw [toJson, pairsToJson_eq_map]
      refine .mapping (Json.nameOf_escape _) ?_
      refine List.forall₂_map_left_iff.2 (List.forall₂_same.2 fun p hp => .pair ?_ ?_)
      · exact ih p.1 (mem_parts_mapping.2 ⟨p, hp, .inl rfl⟩)
      · exact ih p.2 (mem_parts_mapping.2 ⟨p, hp, .inr rfl⟩)
    | invocation tag args =>
      rw [toJson_invocation]
      exact .invocation (Json.nameOf_escape _) (.object rfl (Json.asText_ofText tag.name) rfl)
        (hlist ih)

/-- Whatever passes the test for equal members or keys is spelled as it is. -/
theorem readingRules_spells : ReadingRules fun _ v n => v.Spells n where
  scalar hname hvalue := .scalar hname hvalue
  sequence hname hitems := .sequence hname hitems
  set hname hmembers hset := by
    obtain ⟨hlength, rfl⟩ := setOf_eq_ok_iff.1 hset
    rw [ofMembers, (Distinct.ofList_sublist _).eq_of_length hlength]
    exact .set hname hmembers
  mapping hname hpairs hmapping := by
    obtain ⟨hlength, rfl⟩ := mappingOf_eq_ok_iff.1 hmapping
    rw [ofPairs, Keyed.ofList_of_length_eq hlength]
    refine .mapping hname (hpairs.imp fun v p hp => ?_)
    obtain ⟨_, k, w, -, rfl, hk, hw⟩ := hp
    exact .pair hk hw
  invocation hname hparts hargs := .invocation hname hparts hargs

theorem spells_of_ofJson {left : Nat} {v : Json} {n : Node} (h : ofJson left v = .ok n) :
    v.Spells n :=
  readingRules_spells.holds_of_ofJson h

theorem spells_of_ofText {text : String} {n : Node} (h : ofText text = .ok n) :
    (Json.read text).value.Spells n := by
  obtain ⟨m, hm, h⟩ := Outcome.bind_eq_ok_iff.1 h
  split at h
  · cases h
    exact spells_of_ofJson hm
  · cases h

theorem exists_ofText_eq_error {text : String} {n : Node} (h : (Json.read text).value.Spells n)
    (hn : ¬n.WellFormed) : ∃ e, ofText text = .error e := by
  cases hresult : ofText text with
  | error e => exact ⟨e, rfl⟩
  | ok m =>
    obtain rfl := (spells_of_ofText hresult).unique h
    exact absurd (fits_of_ofText hresult).wellFormed hn

/-- Well-formedness is an invariant of trees. A node that is read from a text is well formed, and
the text spells it: an array has one item for each member of a set and for each pair of a mapping.
A text that spells a node with equal members or keys, at any depth, is refused. And where qualifiers
return well-formed nodes from well-formed arguments, a walk takes well-formed trees to well-formed
trees. -/
theorem wellFormed_throughout :
    (∀ text n, ofText text = .ok n → n.WellFormed ∧ (Json.read text).value.Spells n) ∧
    (∀ text n, (Json.read text).value.Spells n → ¬n.WellFormed → ∃ e, ofText text = .error e) ∧
    ∀ (r : Resolver) (bound : Nat) (ctx : Context) (tree result : Node),
      r.registry.KeepsWellFormed → tree.WellFormed →
      (r.walkWithin bound ctx tree).result = .ok result → result.WellFormed :=
  ⟨fun _ _ h => ⟨(fits_of_ofText h).wellFormed, spells_of_ofText h⟩,
    fun _ _ h hn => exists_ofText_eq_error h hn,
    fun _ _ _ _ _ hr htree h => Resolver.walkWithin_wellFormed hr htree h⟩

end Node

/-! ### Duplicates far inside -/

namespace Sample

/-- A set of two unequal sets, in the argument of a key. -/
def filled : Node :=
  .mapping [(.invocation ⟨"only"⟩ [.set [.set [.str "x", .str "y"], .set [.str "x"]]], .nil)]

/-- The same place holds one set twice, with the members in different orders. -/
def filledTwice : Node :=
  .mapping [(.invocation ⟨"only"⟩
    [.set [.set [.str "x", .str "y"], .set [.str "y", .str "x"]]], .nil)]

/-- Two sets that are unequal until `nested` stands for `y`. -/
def coinciding : Node := .set [.set [.str "y"], .set [nested]]

theorem wellFormed_filled : filled.WellFormed := by
  simp only [filled, Node.WellFormed, Node.AllWellFormed, Node.PairsWellFormed, and_true]
  unfold Distinct.Unequal
  decide

theorem not_wellFormed_filledTwice : ¬filledTwice.WellFormed := by
  simp only [filledTwice, Node.WellFormed, Node.AllWellFormed, Node.PairsWellFormed, and_true]
  unfold Distinct.Unequal
  decide

theorem wellFormed_coinciding : coinciding.WellFormed := by
  simp only [coinciding, nested, Node.WellFormed, Node.AllWellFormed, and_true]
  unfold Distinct.Unequal
  decide

end Sample

theorem Node.wellFormed_throughout_filled :
    (Sample.filled.WellFormed ∧
      (Json.read Sample.filled.toText).value.Spells Sample.filled) ∧
    (∃ e, ofText Sample.filledTwice.toText = .error e) ∧
    (Resolver.walkWithin ⟨(Standard.registry none).value, 10⟩ 4 Sample.atSecond
      Sample.coinciding).result = .ok (.set [.set [.str "y"]]) ∧
    (Node.set [.set [.str "y"]]).WellFormed := by
  obtain ⟨hread, hrefused, hwalk⟩ := wellFormed_throughout
  have hfilled : ofText Sample.filled.toText = .ok Sample.filled := by
    have hlimit : Json.textNesting Sample.filled.toText ≤ Json.maxNesting := by
      rw [toText, (written_toJson _).textNesting_render]
      decide
    rw [ofText_toText_of_wellFormed Sample.wellFormed_filled, if_pos hlimit]
  have htwice : (Json.read Sample.filledTwice.toText).value.Spells Sample.filledTwice := by
    rw [toText, (written_toJson _).read_render]
    exact spells_toJson _
  have hresult : (Resolver.walkWithin ⟨(Standard.registry none).value, 10⟩ 4 Sample.atSecond
      Sample.coinciding).result = .ok (.set [.set [.str "y"]]) := rfl
  refine ⟨hread _ _ hfilled, hrefused _ _ htwice Sample.not_wellFormed_filledTwice, hresult, ?_⟩
  exact hwalk _ 4 Sample.atSecond _ _ (Standard.inward_registry none).keepsWellFormed
    Sample.wellFormed_coinciding hresult

end VersionedTree
