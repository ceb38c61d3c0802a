import VersionedTree.Proofs.Decoding
import VersionedTree.Proofs.Matching
import VersionedTree.Storage.Node

/-!
# Nodes in storage

A well-formed node is read from its text as it was, up to the limit on nesting: the tests for equal
members and keys find none, and nothing else can go wrong. Whatever text is read as a node, the node
is well formed and needs no more brackets than the decoder could open, so its own text is read
again.

## What is proved

* `Node.ofJson_toJson` — reading the JSON form of a well-formed node gives the node.
* `Node.ReadingRules.holds_of_ofJson` — what passes to a node in every way in which one is read
  holds of every node that is read.
* `Node.fits_of_ofJson` — a node that was read is well formed and within the limit.
* `Node.ofText_toText` — the two together, for texts.
-/

namespace VersionedTree

open Json (within)

/-! ### The JSON form of a node -/

theorem Json.Written.variant {v : Json} (name : String) (h : v.Written) :
    (Json.variant name v).Written :=
  .object (List.forall_mem_singleton.2 ⟨name, rfl⟩) (List.forall_mem_singleton.2 h)

theorem Json.nesting_variant (name : String) (v : Json) :
    (Json.variant name v).nesting = v.nesting + 1 := by
  rw [Json.variant, Json.nesting, Json.fieldsNesting, Json.fieldsNesting, Nat.max_zero]

namespace Node

theorem itemsToJson_eq_map (items : List Node) : itemsToJson items = items.map toJson := by
  induction items with
  | nil => rfl
  | cons n rest ih => rw [itemsToJson, ih, List.map_cons]

/-- The JSON form of a pair. -/
def pairToJson (p : Node × Node) : Json := .array [p.1.toJson, p.2.toJson]

theorem pairsToJson_eq_map (pairs : List (Node × Node)) :
    pairsToJson pairs = pairs.map pairToJson := by
  induction pairs with
  | nil => rfl
  | cons p rest ih =>
    obtain ⟨k, v⟩ := p
    rw [pairsToJson, ih, List.map_cons, pairToJson]

theorem written_scalar (value : Scalar) : value.toJson.Written := by
  cases value with
  | nil => exact Json.written_ofText "Nil"
  | bool value => exact (Json.Written.bool value).variant "Bool"
  | int value => exact (Json.Written.number value.toInt).variant "Int"
  | str value => exact (Json.written_ofText value).variant "Str"
  | symbol value => exact (Json.written_ofText value).variant "Symbol"

theorem written_array {items : List Node} (h : ∀ n ∈ items, n.toJson.Written) :
    (Json.array (items.map toJson)).Written :=
  .array (List.forall_mem_map.2 h)

/-- The JSON form of an invocation. -/
def invocationToJson (tag : Tag) (args : List Node) : Json :=
  .object [(Json.escape "tag", .ofText tag.name), (Json.escape "args", .array (args.map toJson))]

theorem toJson_invocation (tag : Tag) (args : List Node) :
    (invocation tag args).toJson = .variant "Invocation" (invocationToJson tag args) := by
  rw [toJson, itemsToJson_eq_map, invocationToJson]

theorem nesting_invocationToJson (tag : Tag) (args : List Node) :
    (invocationToJson tag args).nesting = (Json.array (args.map toJson)).nesting + 1 := by
  simp only [invocationToJson, Json.ofText, Json.nesting, Json.fieldsNesting, Nat.max_zero,
    Nat.zero_max]

/-- The JSON form of a node is without a fault. -/
theorem written_toJson (n : Node) : n.toJson.Written := by
  induction n using parts_induction with
  | step n ih =>
    cases n with
    | scalar value => exact (written_scalar value).variant "Scalar"
    | sequence items =>
      rw [toJson, itemsToJson_eq_map]
      exact (written_array ih).variant "Sequence"
    | set members =>
      rw [toJson, itemsToJson_eq_map]
      exact (written_array ih).variant "Set"
    | mapping pairs =>
      rw [toJson, pairsToJson_eq_map]
      refine Json.Written.variant "Mapping" (.array (List.forall_mem_map.2 fun p hp => ?_))
      refine .array (List.forall_mem_cons.2 ⟨?_, List.forall_mem_singleton.2 ?_⟩)
      · exact ih p.1 (mem_parts_mapping.2 ⟨p, hp, .inl rfl⟩)
      · exact ih p.2 (mem_parts_mapping.2 ⟨p, hp, .inr rfl⟩)
    | invocation tag args =>
      rw [toJson_invocation]
      refine Json.Written.variant "Invocation" (.object ?_ ?_)
      · exact List.forall_mem_cons.2 ⟨⟨"tag", rfl⟩, List.forall_mem_singleton.2 ⟨"args", rfl⟩⟩
      · exact List.forall_mem_cons.2 ⟨Json.written_ofText tag.name,
          List.forall_mem_singleton.2 (written_array ih)⟩

/-! ### The decoder, rule by rule -/

/-- Read the content of a node of the named kind. -/
def contentOfJson (left : Nat) (name : String) (v : Json) : Except DecodeError Node :=
  if name = "Scalar" then .scalar <$> Scalar.ofJson left v
  else if name = "Sequence" then .sequence <$> v.asList left ofJson
  else if name = "Set" then v.asList left ofJson >>= setOf
  else if name = "Mapping" then v.asList left pairOfJson >>= mappingOf
  else if name = "Invocation" then invocationOfJson left v
  else .error .malformed

theorem itemsOfJson_eq_mapM (left : Nat) (items : List Json) :
    itemsOfJson left items = items.mapM (ofJson left) := by
  induction items with
  | nil => rfl
  | cons v rest ih => rw [itemsOfJson, ih, List.mapM_cons]

theorem listOfJson_eq (left : Nat) (v : Json) : listOfJson left v = v.asList left ofJson := by
  cases v with
  | array items =>
    rw [listOfJson, Json.asList]
    simp only [itemsOfJson_eq_mapM]
  | _ => rfl

theorem pairsOfJson_eq_mapM (left : Nat) (items : List Json) :
    pairsOfJson left items = items.mapM (pairOfJson left) := by
  induction items with
  | nil => rfl
  | cons v rest ih => rw [pairsOfJson, ih, List.mapM_cons]

theorem pairListOfJson_eq (left : Nat) (v : Json) :
    pairListOfJson left v = v.asList left pairOfJson := by
  cases v with
  | array items =>
    rw [pairListOfJson, Json.asList]
    simp only [pairsOfJson_eq_mapM]
  | _ => rfl

theorem ofJson_object (left : Nat) (raw : List Char) (v : Json) (rest : List (List Char × Json)) :
    ofJson left (.object ((raw, v) :: rest)) = (do
      let left ← Json.descend left
      let name ← Json.nameOf raw
      let n ← contentOfJson left name v
      Json.finish n rest) := by
  rw [ofJson]
  simp only [contentOfJson, listOfJson_eq, pairListOfJson_eq]

/-! ### Reading what was written -/

theorem scalarOfJson_toJson (left : Nat) (value : Scalar) :
    Scalar.ofJson left value.toJson = within left value.toJson.nesting value := by
  have hvariant : ∀ {name : String} {v : Json}, v.nesting = 0 →
      Scalar.ofVariant name v = .ok value →
      Scalar.ofJson left (.variant name v) = within left (Json.variant name v).nesting value := by
    intro name v hnesting hv
    rw [Json.nesting_variant, hnesting]
    exact Json.variant_bind fun l => hv.trans Json.within_zero.symm
  cases value with
  | nil =>
    rw [Scalar.toJson, Json.ofText, Scalar.ofJson, Json.nameOf_escape]
    exact Json.within_zero.symm
  | bool value => exact hvariant rfl rfl
  | int value =>
    refine hvariant rfl ?_
    show Scalar.int <$> _ = _
    rw [Json.asInt64_literal]
    rfl
  | str value =>
    refine hvariant rfl ?_
    show Scalar.str <$> _ = _
    rw [Json.asText_ofText]
    rfl
  | symbol value =>
    refine hvariant rfl ?_
    show Scalar.symbol <$> _ = _
    rw [Json.asText_ofText]
    rfl

theorem setOf_of_unequal {members : List Node} (h : Distinct.Unequal members) :
    setOf members = .ok (.set members) := by
  rw [setOf, Distinct.ofList_of_unequal h]
  exact if_pos rfl

theorem mappingOf_of_unequal {pairs : List (Node × Node)} (h : (mapping pairs).WellFormed) :
    mappingOf pairs = .ok (.mapping pairs) := by
  rw [mappingOf, Keyed.ofList_of_newTo ((Keyed.newTo_nil_iff_unequal h.keys).2 h.1)]
  exact if_pos rfl

/-- The decoder gives back the node, if it may open enough. -/
def ReadsBack (n : Node) : Prop :=
  ∀ left, ofJson left n.toJson = within left n.toJson.nesting n

theorem ofJson_variant {name : String} {v : Json} {n : Node}
    (h : ∀ l, contentOfJson l name v = within l v.nesting n) (left : Nat) :
    ofJson left (.variant name v) = within left (Json.variant name v).nesting n := by
  rw [Json.nesting_variant, Json.variant, ofJson_object]
  exact Json.variant_bind h

/-- An array of nodes is read where each of them is. -/
theorem asList_toJson {items : List Node} (h : ∀ n ∈ items, n.ReadsBack) (left : Nat) :
    Json.asList left ofJson (.array (items.map toJson)) =
      within left (Json.array (items.map toJson)).nesting items :=
  Json.asList_map h

theorem pairOfJson_toJson {p : Node × Node} (hk : p.1.ReadsBack) (hv : p.2.ReadsBack)
    (left : Nat) : pairOfJson left (pairToJson p) = within left (pairToJson p).nesting p := by
  rw [pairToJson, pairOfJson, Json.nesting, Json.itemsNesting, Json.itemsNesting,
    Json.itemsNesting, Nat.max_zero]
  refine Json.descend_bind fun l => ?_
  rw [hk l]
  refine Json.within_bind ?_
  rw [hv l]
  exact Json.within_bind_ok rfl

theorem invocationOfJson_toJson {tag : Tag} {args : List Node} (h : ∀ n ∈ args, n.ReadsBack)
    (left : Nat) :
    invocationOfJson left (invocationToJson tag args) =
      within left (invocationToJson tag args).nesting (.invocation tag args) := by
  rw [nesting_invocationToJson, invocationToJson, invocationOfJson]
  refine Json.descend_bind fun l => ?_
  rw [invocationFields, Json.nameOf_escape, Outcome.ok_bind, if_pos rfl]
  show ((Json.ofText tag.name).asText >>= _) = _
  rw [Json.asText_ofText, Outcome.ok_bind, invocationFields, Json.nameOf_escape, Outcome.ok_bind,
    if_neg (by decide), if_pos rfl]
  show (listOfJson l (.array (args.map toJson)) >>= _) = _
  rw [listOfJson_eq, asList_toJson h]
  exact Json.within_bind_ok rfl

/-- Reading the JSON form of a well-formed node gives the node. -/
theorem ofJson_toJson {n : Node} (h : n.WellFormed) : n.ReadsBack := by
  induction n using parts_induction with
  | step n ih =>
    have hparts : ∀ m ∈ n.parts, m.ReadsBack := fun m hm => ih m hm (h.part hm)
    cases n with
    | scalar value =>
      refine ofJson_variant fun l => ?_
      show Node.scalar <$> Scalar.ofJson l value.toJson = _
      rw [scalarOfJson_toJson, Json.map_within]
    | sequence items =>
      have hitems : ∀ m ∈ items, m.ReadsBack := hparts
      rw [ReadsBack, toJson, itemsToJson_eq_map]
      refine ofJson_variant fun l => ?_
      show Node.sequence <$> Json.asList l ofJson _ = _
      rw [asList_toJson hitems, Json.map_within]
    | set members =>
      have hmembers : ∀ m ∈ members, m.ReadsBack := hparts
      rw [ReadsBack, toJson, itemsToJson_eq_map]
      refine ofJson_variant fun l => ?_
      show (Json.asList l ofJson _ >>= setOf) = _
      rw [asList_toJson hmembers]
      exact Json.within_bind_ok (setOf_of_unequal h.1)
    | mapping pairs =>
      have hpairs : ∀ p ∈ pairs, ∀ l,
          pairOfJson l (pairToJson p) = within l (pairToJson p).nesting p := fun p hp =>
        pairOfJson_toJson (hparts p.1 (mem_parts_mapping.2 ⟨p, hp, .inl rfl⟩))
          (hparts p.2 (mem_parts_mapping.2 ⟨p, hp, .inr rfl⟩))
      rw [ReadsBack, toJson, pairsToJson_eq_map]
      refine ofJson_variant fun l => ?_
      show (Json.asList l pairOfJson _ >>= mappingOf) = _
      rw [Json.asList_map hpairs]
      exact Json.within_bind_ok (mappingOf_of_unequal h)
    | invocation tag args =>
      have hargs : ∀ m ∈ args, m.ReadsBack := hparts
      rw [ReadsBack, toJson_invocation]
      exact ofJson_variant fun l => invocationOfJson_toJson hargs l

/-! ### Values that are read -/

/-- The fields of an object that have a name. -/
def fieldsNamed (name : String) (fields : List (List Char × Json)) : List (List Char × Json) :=
  fields.filter fun f => Json.unescape? f.1 = some name

/-- The value holds the tag of an invocation, and its arguments as a value: in an array of the two,
or as the only fields of their names. -/
inductive InvocationParts : Json → Tag → Json → Prop where
  /-- An array of the two. -/
  | array {t args : Json} {tag : String} : t.asText = .ok tag →
    InvocationParts (.array [t, args]) ⟨tag⟩ args
  /-- An object with the two, and perhaps other fields. -/
  | object {fields : List (List Char × Json)} {f : List Char × Json} {raw : List Char} {args : Json}
    {tag : String} : fieldsNamed "tag" fields = [f] → f.2.asText = .ok tag →
    fieldsNamed "args" fields = [(raw, args)] → InvocationParts (.object fields) ⟨tag⟩ args

/-- The value is an array of two, with a relation to both sides of a pair. -/
def PairParts (P : Nat → Json → Node → Prop) (left : Nat) (v : Json) (p : Node × Node) : Prop :=
  ∃ l k w, left = l + 1 ∧ v = .array [k, w] ∧ P l k p.1 ∧ P l w p.2

/-- A relation between how many arrays and objects may be opened, a value and a node that passes
from the parts of a node to the node, in each of the ways in which a node is read. -/
structure ReadingRules (P : Nat → Json → Node → Prop) : Prop where
  scalar : ∀ {left raw v value}, Json.nameOf raw = .ok "Scalar" →
    Scalar.ofJson left v = .ok value → P (left + 1) (.object [(raw, v)]) (.scalar value)
  sequence : ∀ {left raw vs ns}, Json.nameOf raw = .ok "Sequence" → List.Forall₂ (P left) vs ns →
    P (left + 2) (.object [(raw, .array vs)]) (.sequence ns)
  set : ∀ {left raw vs ns n}, Json.nameOf raw = .ok "Set" → List.Forall₂ (P left) vs ns →
    setOf ns = .ok n → P (left + 2) (.object [(raw, .array vs)]) n
  mapping : ∀ {left raw vs ps n}, Json.nameOf raw = .ok "Mapping" →
    List.Forall₂ (PairParts P left) vs ps → mappingOf ps = .ok n →
    P (left + 2) (.object [(raw, .array vs)]) n
  invocation : ∀ {left raw v tag vs ns}, Json.nameOf raw = .ok "Invocation" →
    InvocationParts v tag (.array vs) → List.Forall₂ (P left) vs ns →
    P (left + 3) (.object [(raw, v)]) (.invocation tag ns)

/-- Something was read before, and no field gives it again, or one field gives it. -/
def GivenOnce {α : Type} (read : Json → Except DecodeError α) (given? : Option α)
    (named : List (List Char × Json)) (a : α) : Prop :=
  given? = some a ∧ named = [] ∨ given? = none ∧ ∃ f, named = [f] ∧ read f.2 = .ok a

theorem GivenOnce.cons {α : Type} {read : Json → Except DecodeError α} {a b : α}
    {named : List (List Char × Json)} {f : List Char × Json} (h : GivenOnce read (some b) named a)
    (hf : read f.2 = .ok b) : GivenOnce read none (f :: named) a := by
  rcases h with ⟨heq, rfl⟩ | ⟨hnone, -⟩
  · cases heq
    exact .inr ⟨rfl, f, rfl, hf⟩
  · cases hnone

theorem fieldsNamed_cons {raw : List Char} {name : String} (h : Json.nameOf raw = .ok name)
    (name' : String) (v : Json) (rest : List (List Char × Json)) :
    fieldsNamed name' ((raw, v) :: rest) =
      if name = name' then (raw, v) :: fieldsNamed name' rest else fieldsNamed name' rest := by
  have hname : Json.unescape? raw = some name := by
    rw [Json.nameOf] at h
    split at h
    · rename_i name' hname
      cases h
      exact hname
    · cases h
  simp [fieldsNamed, List.filter_cons, hname]

/-- The fields of an invocation that is read have a tag and arguments, each once. -/
theorem givenOnce_of_invocationFields {left : Nat} {fields : List (List Char × Json)}
    {tag? : Option String} {args? : Option (List Node)} {n : Node}
    (h : invocationFields left tag? args? fields = .ok n) :
    ∃ tag ns, n = .invocation ⟨tag⟩ ns ∧ GivenOnce Json.asText tag? (fieldsNamed "tag" fields) tag ∧
      GivenOnce (Json.asList left ofJson) args? (fieldsNamed "args" fields) ns := by
  induction fields generalizing tag? args? with
  | nil =>
    match tag?, args? with
    | some tag, some ns =>
      cases h
      exact ⟨tag, ns, rfl, .inl ⟨rfl, rfl⟩, .inl ⟨rfl, rfl⟩⟩
    | some _, none => cases h
    | none, some _ => cases h
    | none, none => cases h
  | cons f rest ih =>
    obtain ⟨raw, v⟩ := f
    rw [invocationFields] at h
    obtain ⟨name, hname, h⟩ := Outcome.bind_eq_ok_iff.1 h
    rw [fieldsNamed_cons hname, fieldsNamed_cons hname]
    split_ifs at h with htag hgiven hargs hgiven
    -- A second tag.
    · obtain ⟨e, he, -⟩ := Outcome.bind_eq_ok_iff.1 h
      cases he
    · obtain ⟨-, -, h⟩ := Outcome.bind_eq_ok_iff.1 h
      obtain ⟨text, htext, hrest⟩ := Outcome.bind_eq_ok_iff.1 h
      obtain rfl : tag? = none := by simpa using hgiven
      obtain ⟨tag, ns, rfl, htags, hns⟩ := ih hrest
      rw [if_pos htag, if_neg (by rw [htag]; decide)]
      exact ⟨tag, ns, rfl, htags.cons htext, hns⟩
    -- A second list of arguments.
    · obtain ⟨e, he, -⟩ := Outcome.bind_eq_ok_iff.1 h
      cases he
    · obtain ⟨-, -, h⟩ := Outcome.bind_eq_ok_iff.1 h
      obtain ⟨ms, hms, hrest⟩ := Outcome.bind_eq_ok_iff.1 h
      obtain rfl : args? = none := by simpa using hgiven
      obtain ⟨tag, ns, rfl, htags, hns⟩ := ih hrest
      rw [if_neg htag, if_pos hargs]
      exact ⟨tag, ns, rfl, htags, hns.cons (listOfJson_eq left v ▸ hms)⟩
    · obtain ⟨-, -, h⟩ := Outcome.bind_eq_ok_iff.1 h
      rw [if_neg htag, if_neg hargs]
      exact ih h

section Inside

variable {P : Nat → Json → Node → Prop} {d left : Nat} {v : Json}
  (hinside : ∀ w : Json, w.nesting < d → ∀ left n, ofJson left w = .ok n → P left w n)

include hinside

theorem forall₂_of_asList (hv : v.nesting ≤ d) {ns : List Node}
    (h : v.asList left ofJson = .ok ns) :
    ∃ l vs, left = l + 1 ∧ v = .array vs ∧ List.Forall₂ (P l) vs ns := by
  obtain ⟨l, vs, rfl, rfl, hread⟩ := Json.asList_eq_ok_iff.1 h
  have hless : ∀ w ∈ vs, w.nesting < d := fun w hw =>
    Nat.lt_of_lt_of_le (Json.nesting_lt_of_mem_items hw) hv
  have hrel := (List.forall₂_and_left ..).2 ⟨hless, Outcome.mapM_eq_ok_iff_forall₂.1 hread⟩
  exact ⟨l, vs, rfl, rfl, hrel.imp fun w n hwn => hinside w hwn.1 l n hwn.2⟩

theorem pairParts_of_pairOfJson (hv : v.nesting ≤ d) {p : Node × Node}
    (h : pairOfJson left v = .ok p) : PairParts P left v p := by
  cases v with
  | array items =>
    have hparts : ∀ w ∈ items, ∀ left n, ofJson left w = .ok n → P left w n := fun w hw =>
      hinside w (Nat.lt_of_lt_of_le (Json.nesting_lt_of_mem_items hw) hv)
    match items with
    | [] => cases h
    | [k] =>
      obtain ⟨l, -, h⟩ := Outcome.bind_eq_ok_iff.1 h
      obtain ⟨n, -, h⟩ := Outcome.bind_eq_ok_iff.1 h
      cases h
    | k :: w :: rest =>
      obtain ⟨l, hl, h⟩ := Outcome.bind_eq_ok_iff.1 h
      obtain ⟨m, hm, h⟩ := Outcome.bind_eq_ok_iff.1 h
      obtain ⟨n, hn, h⟩ := Outcome.bind_eq_ok_iff.1 h
      obtain ⟨rfl, rfl⟩ := Json.finish_eq_ok_iff.1 h
      exact ⟨l, k, w, Json.descend_eq_ok_iff.1 hl, rfl, hparts k (by simp) l m hm,
        hparts w (by simp) l n hn⟩
  | _ => cases h

theorem forall₂_of_asPairList (hv : v.nesting ≤ d) {ps : List (Node × Node)}
    (h : v.asList left pairOfJson = .ok ps) :
    ∃ l vs, left = l + 1 ∧ v = .array vs ∧ List.Forall₂ (PairParts P l) vs ps := by
  obtain ⟨l, vs, rfl, rfl, hread⟩ := Json.asList_eq_ok_iff.1 h
  have hless : ∀ w ∈ vs, w.nesting ≤ d := fun w hw =>
    Nat.le_of_lt (Nat.lt_of_lt_of_le (Json.nesting_lt_of_mem_items hw) hv)
  have hrel := (List.forall₂_and_left ..).2 ⟨hless, Outcome.mapM_eq_ok_iff_forall₂.1 hread⟩
  exact ⟨l, vs, rfl, rfl, hrel.imp fun w p hwp => pairParts_of_pairOfJson hinside hwp.1 hwp.2⟩

theorem parts_of_invocationOfJson (hv : v.nesting ≤ d) {n : Node}
    (h : invocationOfJson left v = .ok n) : ∃ l tag vs ns, left = l + 2 ∧ n = .invocation tag ns ∧
      InvocationParts v tag (.array vs) ∧ List.Forall₂ (P l) vs ns := by
  cases v with
  | array items =>
    match items with
    | [] => cases h
    | [_] => cases h
    | t :: args :: rest =>
      obtain ⟨l, hl, h⟩ := Outcome.bind_eq_ok_iff.1 h
      obtain ⟨tag, htag, h⟩ := Outcome.bind_eq_ok_iff.1 h
      obtain ⟨ns, hns, h⟩ := Outcome.bind_eq_ok_iff.1 h
      obtain ⟨rfl, rfl⟩ := Json.finish_eq_ok_iff.1 h
      obtain rfl := Json.descend_eq_ok_iff.1 hl
      have hmem : args ∈ [t, args] := by simp
      have hlt := Json.nesting_lt_of_mem_items hmem
      rw [listOfJson_eq] at hns
      obtain ⟨l, vs, rfl, rfl, hrel⟩ := forall₂_of_asList hinside (by omega) hns
      exact ⟨l, ⟨tag⟩, vs, ns, rfl, rfl, .array htag, hrel⟩
  | object fields =>
    obtain ⟨l, hl, h⟩ := Outcome.bind_eq_ok_iff.1 h
    obtain rfl := Json.descend_eq_ok_iff.1 hl
    obtain ⟨tag, ns, rfl, htags, hargs⟩ := givenOnce_of_invocationFields h
    obtain ⟨f, hf, htag⟩ := (htags.resolve_left fun hsome => nomatch hsome.1).2
    obtain ⟨⟨raw, args⟩, hg, hns⟩ := (hargs.resolve_left fun hsome => nomatch hsome.1).2
    have hmem : (raw, args) ∈ fields := List.mem_of_mem_filter (hg ▸ List.mem_singleton_self _)
    have hlt : args.nesting < _ := Json.nesting_lt_of_mem_fields hmem
    obtain ⟨l, vs, rfl, rfl, hrel⟩ :=
      forall₂_of_asList hinside (Nat.le_of_lt (Nat.lt_of_lt_of_le hlt hv)) hns
    exact ⟨l, ⟨tag⟩, vs, ns, rfl, rfl, .object hf htag hg, hrel⟩
  | _ => cases h

theorem holds_of_contentOfJson (hrules : ReadingRules P) (hv : v.nesting ≤ d) {raw : List Char}
    {name : String} (hname : Json.nameOf raw = .ok name) {n : Node}
    (h : contentOfJson left name v = .ok n) : P (left + 1) (.object [(raw, v)]) n := by
  rw [contentOfJson] at h
  split_ifs at h with hkind hkind hkind hkind hkind
  all_goals subst hkind
  · obtain ⟨value, hvalue, rfl⟩ := Outcome.map_eq_ok_iff.1 h
    exact hrules.scalar hname hvalue
  · obtain ⟨items, hitems, rfl⟩ := Outcome.map_eq_ok_iff.1 h
    obtain ⟨l, vs, rfl, rfl, hrel⟩ := forall₂_of_asList hinside hv hitems
    exact hrules.sequence hname hrel
  · obtain ⟨members, hmembers, hset⟩ := Outcome.bind_eq_ok_iff.1 h
    obtain ⟨l, vs, rfl, rfl, hrel⟩ := forall₂_of_asList hinside hv hmembers
    exact hrules.set hname hrel hset
  · obtain ⟨pairs, hpairs, hmapping⟩ := Outcome.bind_eq_ok_iff.1 h
    obtain ⟨l, vs, rfl, rfl, hrel⟩ := forall₂_of_asPairList hinside hv hpairs
    exact hrules.mapping hname hrel hmapping
  · obtain ⟨l, tag, vs, ns, rfl, rfl, hparts, hrel⟩ := parts_of_invocationOfJson hinside hv h
    exact hrules.invocation hname hparts hrel

end Inside

/-- What passes to a node in every way in which one is read holds of every node that is read. -/
theorem ReadingRules.holds_of_ofJson {P : Nat → Json → Node → Prop} (hrules : ReadingRules P)
    {left : Nat} {v : Json} {n : Node} (h : ofJson left v = .ok n) : P left v n := by
  -- The parts of a node stand several levels further in, so the induction is on the nesting and
  -- not on the value.
  induction hd : v.nesting using Nat.strongRecOn generalizing left v n with
  | _ d ih =>
    cases v with
    | object fields =>
      cases fields with
      | nil => cases h
      | cons f rest =>
        obtain ⟨raw, v⟩ := f
        rw [ofJson_object] at h
        obtain ⟨l, hl, hvariant⟩ := Outcome.bind_eq_ok_iff.1 h
        obtain ⟨name, hname, hcontent⟩ := Outcome.bind_eq_ok_iff.1 hvariant
        obtain ⟨m, hm, hfinish⟩ := Outcome.bind_eq_ok_iff.1 hcontent
        obtain ⟨rfl, rfl⟩ := Json.finish_eq_ok_iff.1 hfinish
        obtain rfl := Json.descend_eq_ok_iff.1 hl
        have hmem : (raw, v) ∈ [(raw, v)] := List.mem_cons_self ..
        have hlt : v.nesting < _ := Json.nesting_lt_of_mem_fields hmem
        exact holds_of_contentOfJson (fun w hw _ _ hn => ih w.nesting hw hn rfl) hrules (by omega)
          hname hm
    | _ => cases h

/-! ### Whatever is read fits -/

/-- A node as a decoder gives it that may open `left` arrays and objects: it is well formed, and it
can be written within the same limit. -/
structure Fits (left : Nat) (n : Node) : Prop where
  /-- Members and keys are unequal. -/
  wellFormed : n.WellFormed
  /-- Its own text opens no more. -/
  nesting : n.toJson.nesting ≤ left

section Fits

variable {left : Nat}

theorem nesting_array_le {items : List Node} (h : ∀ n ∈ items, n.Fits left) :
    (Json.array (items.map toJson)).nesting ≤ left + 1 := by
  rw [Json.nesting, Nat.add_le_add_iff_right, Json.itemsNesting_le_iff]
  exact List.forall_mem_map.2 fun n hn => (h n hn).nesting

theorem fits_sequence {items : List Node} (h : ∀ n ∈ items, n.Fits left) :
    (sequence items).Fits (left + 2) := by
  refine ⟨allWellFormed_iff.2 fun n hn => (h n hn).wellFormed, ?_⟩
  rw [toJson, itemsToJson_eq_map, Json.nesting_variant]
  exact Nat.succ_le_succ (nesting_array_le h)

theorem fits_invocation {args : List Node} (h : ∀ n ∈ args, n.Fits left) (tag : Tag) :
    (invocation tag args).Fits (left + 3) := by
  refine ⟨allWellFormed_iff.2 fun n hn => (h n hn).wellFormed, ?_⟩
  rw [toJson_invocation, Json.nesting_variant, nesting_invocationToJson]
  exact Nat.succ_le_succ (Nat.succ_le_succ (nesting_array_le h))

theorem setOf_eq_ok_iff {members : List Node} {n : Node} : setOf members = .ok n ↔
    (Distinct.ofList members).length = members.length ∧ ofMembers members = n := by
  rw [setOf]
  split
  · rename_i hlength
    simp [hlength, ofMembers]
  · rename_i hlength
    simp [hlength]

theorem mappingOf_eq_ok_iff {pairs : List (Node × Node)} {n : Node} : mappingOf pairs = .ok n ↔
    (Keyed.ofList pairs).length = pairs.length ∧ ofPairs pairs = n := by
  rw [mappingOf]
  split
  · rename_i hlength
    simp [hlength, ofPairs]
  · rename_i hlength
    simp [hlength]

/-- A set is filled with the members that were read. -/
theorem fits_ofMembers {members : List Node} (h : ∀ m ∈ members, m.Fits left) :
    (ofMembers members).Fits (left + 2) := by
  refine ⟨.ofMembers fun m hm => (h m hm).wellFormed, ?_⟩
  rw [ofMembers, toJson, itemsToJson_eq_map, Json.nesting_variant]
  exact Nat.succ_le_succ (nesting_array_le fun m hm => h m (Distinct.mem_of_mem_ofList hm))

theorem fits_scalarOfJson {v : Json} {value : Scalar} (h : Scalar.ofJson left v = .ok value) :
    (scalar value).Fits (left + 1) := by
  refine ⟨trivial, ?_⟩
  rw [toJson, Json.nesting_variant]
  refine Nat.succ_le_succ ?_
  have hle : value.toJson.nesting ≤ 1 := by
    cases value
    · exact Nat.zero_le 1
    all_goals exact Nat.le_refl 1
  cases v with
  | string raw =>
    obtain ⟨name, -, h⟩ := Outcome.bind_eq_ok_iff.1 h
    split at h
    · cases h
      exact Nat.zero_le left
    · cases h
  | object fields =>
    cases fields with
    | nil => cases h
    | cons f rest =>
      obtain ⟨l, hl, -⟩ := Outcome.bind_eq_ok_iff.1 h
      rw [Json.descend_eq_ok_iff.1 hl]
      exact Nat.le_trans hle (Nat.succ_le_succ (Nat.zero_le l))
  | _ => cases h

/-- A mapping is filled with the pairs that were read. -/
theorem fits_ofPairs {pairs : List (Node × Node)}
    (h : ∀ p ∈ pairs, ∃ l, left = l + 1 ∧ p.1.Fits l ∧ p.2.Fits l) :
    (ofPairs pairs).Fits (left + 2) := by
  have hfits : ∀ p ∈ pairs, 0 < left ∧ p.1.Fits (left - 1) ∧ p.2.Fits (left - 1) := fun p hp => by
    obtain ⟨l, rfl, hp⟩ := h p hp
    exact ⟨Nat.succ_pos l, hp⟩
  refine ⟨.ofPairs fun p hp => ⟨(hfits p hp).2.1.wellFormed, (hfits p hp).2.2.wellFormed⟩, ?_⟩
  rw [ofPairs, toJson, pairsToJson_eq_map, Json.nesting_variant, Json.nesting]
  refine Nat.succ_le_succ (Nat.succ_le_succ (Json.itemsNesting_le_iff.2 ?_))
  refine List.forall_mem_map.2 fun p hp => ?_
  obtain ⟨⟨k, hk, hkey⟩, v, hv, hvalue⟩ := Keyed.mem_ofList hp
  refine Nat.add_le_of_le_sub (hfits k hk).1 (Json.itemsNesting_le_iff.2 ?_)
  refine List.forall_mem_cons.2 ⟨?_, List.forall_mem_singleton.2 ?_⟩
  · exact hkey ▸ (hfits k hk).2.1.nesting
  · exact hvalue ▸ (hfits v hv).2.2.nesting

theorem fits_of_forall₂ {vs : List Json} {ns : List Node}
    (h : List.Forall₂ (fun _ n => n.Fits left) vs ns) : ∀ n ∈ ns, n.Fits left := by
  intro n hn
  obtain ⟨_, -, hfits⟩ := exists_mem_left_of_forall₂ h hn
  exact hfits

/-- What is read fits if its parts do. -/
theorem readingRules_fits : ReadingRules fun left _ n => n.Fits left where
  scalar _ hvalue := fits_scalarOfJson hvalue
  sequence _ hrel := fits_sequence (fits_of_forall₂ hrel)
  set _ hrel hset := by
    obtain ⟨-, rfl⟩ := setOf_eq_ok_iff.1 hset
    exact fits_ofMembers (fits_of_forall₂ hrel)
  mapping _ hrel hmapping := by
    obtain ⟨-, rfl⟩ := mappingOf_eq_ok_iff.1 hmapping
    refine fits_ofPairs fun p hp => ?_
    obtain ⟨_, -, l, _, _, hl, -, hfits⟩ := exists_mem_left_of_forall₂ hrel hp
    exact ⟨l, hl, hfits⟩
  invocation _ _ hrel := fits_invocation (fits_of_forall₂ hrel) _

end Fits

/-- A node that was read is well formed and within the limit. -/
theorem fits_of_ofJson {left : Nat} {v : Json} {n : Node} (h : ofJson left v = .ok n) :
    n.Fits left :=
  readingRules_fits.holds_of_ofJson h

/-! ### Texts -/

/-- A node that was read from a text is well formed and within the limit. -/
theorem fits_of_ofText {text : String} {n : Node} (h : ofText text = .ok n) :
    n.Fits Json.maxNesting := by
  obtain ⟨m, hm, h⟩ := Outcome.bind_eq_ok_iff.1 h
  split at h
  · cases h
    exact fits_of_ofJson hm
  · cases h

theorem ofText_toText_of_wellFormed {n : Node} (h : n.WellFormed) :
    ofText n.toText =
      if Json.textNesting n.toText ≤ Json.maxNesting then .ok n else .error .malformed :=
  Json.decodeText_render n.written_toJson (ofJson_toJson h Json.maxNesting)

/-- A well-formed node is read from its text exactly as it was, if the brackets of the text are
nested at most 127 deep, and otherwise refused; and a node that was read from any text is read
again from its own text. -/
theorem ofText_toText :
    (∀ n : Node, n.WellFormed → ofText n.toText =
      if Json.textNesting n.toText ≤ 127 then .ok n else .error .malformed) ∧
    ∀ text n, ofText text = .ok n → ofText n.toText = .ok n := by
  refine ⟨fun n hn => ofText_toText_of_wellFormed hn, fun text n h => ?_⟩
  have hfits := fits_of_ofText h
  rw [ofText_toText_of_wellFormed hfits.wellFormed, toText, n.written_toJson.textNesting_render,
    if_pos hfits.nesting]

/-- A mapping with a set as its key. -/
def exampleMapping : Node :=
  .mapping [(.set [.scalar (.int (-5)), .scalar (.str "a\"\n")], .sequence [])]

/-- A mapping between an absent value and an invocation. -/
def exampleNode : Node :=
  .invocation ⟨"added"⟩ [.scalar .nil, exampleMapping, .invocation ⟨"only"⟩ []]

/-- The same node in another form: the absent value as an object, one invocation as an array, and a
further field between the arguments and the tag of the other. -/
def looseJson : Json :=
  .variant "Invocation" (.object [
    (Json.escape "args", .array [.variant "Scalar" (.variant "Nil" .null), exampleMapping.toJson,
      .variant "Invocation" (.array [.ofText "only", .array []])]),
    (Json.escape "note", .array [.null]),
    (Json.escape "tag", .ofText "added")])

theorem written_looseJson : looseJson.Written := by
  have hnil : (Json.variant "Scalar" (.variant "Nil" .null)).Written :=
    (Json.Written.null.variant "Nil").variant "Scalar"
  have hempty : (Json.array []).Written := .array (List.forall_mem_nil _)
  have honly : (Json.array [.ofText "only", .array []]).Written :=
    .array (List.forall_mem_cons.2 ⟨Json.written_ofText "only", List.forall_mem_singleton.2 hempty⟩)
  have hargs : (Json.array [.variant "Scalar" (.variant "Nil" .null), exampleMapping.toJson,
      .variant "Invocation" (.array [.ofText "only", .array []])]).Written :=
    .array (List.forall_mem_cons.2 ⟨hnil, List.forall_mem_cons.2 ⟨written_toJson exampleMapping,
      List.forall_mem_singleton.2 (honly.variant "Invocation")⟩⟩)
  have hnote : (Json.array [.null]).Written := .array (List.forall_mem_singleton.2 .null)
  refine Json.Written.variant "Invocation" (.object ?_ ?_)
  · exact List.forall_mem_cons.2 ⟨⟨"args", rfl⟩, List.forall_mem_cons.2 ⟨⟨"note", rfl⟩,
      List.forall_mem_singleton.2 ⟨"tag", rfl⟩⟩⟩
  · exact List.forall_mem_cons.2 ⟨hargs, List.forall_mem_cons.2 ⟨hnote,
      List.forall_mem_singleton.2 (Json.written_ofText "added")⟩⟩

/-- Sequences inside of sequences. -/
def nestedSequences : Nat → Node
  | 0 => .scalar .nil
  | depth + 1 => .sequence [nestedSequences depth]

theorem wellFormed_nestedSequences (depth : Nat) : (nestedSequences depth).WellFormed := by
  induction depth with
  | zero => trivial
  | succ depth ih => exact ⟨ih, trivial⟩

theorem nesting_nestedSequences (depth : Nat) :
    (nestedSequences depth).toJson.nesting = 2 * depth + 1 := by
  induction depth with
  | zero => rfl
  | succ depth ih =>
    rw [nestedSequences, toJson, Json.nesting_variant, itemsToJson, itemsToJson, Json.nesting,
      Json.itemsNesting, Json.itemsNesting, Nat.max_zero, ih]
    omega

theorem ofText_toText_example :
    (exampleNode.WellFormed ∧ ofText exampleNode.toText = .ok exampleNode) ∧
    (ofText looseJson.render = .ok exampleNode ∧ ofText exampleNode.toText = .ok exampleNode) ∧
    (nestedSequences 64).WellFormed ∧
    ofText (nestedSequences 64).toText = .error .malformed := by
  have hread : ofText looseJson.render = .ok exampleNode := by
    rw [ofText, Json.decodeText, written_looseJson.read_render]
    rfl
  have hwellFormed : exampleNode.WellFormed := by
    simp only [exampleNode, exampleMapping, WellFormed, AllWellFormed, PairsWellFormed,
      Distinct.Unequal]
    decide
  have hnested := wellFormed_nestedSequences 64
  have hexample := ofText_toText.1 exampleNode hwellFormed
  have hrefused := ofText_toText.1 (nestedSequences 64) hnested
  rw [toText, (written_toJson _).textNesting_render, if_pos (by decide)] at hexample
  rw [toText, (written_toJson _).textNesting_render, nesting_nestedSequences,
    if_neg (by decide)] at hrefused
  exact ⟨⟨hwellFormed, hexample⟩, ⟨hread, ofText_toText.2 looseJson.render exampleNode hread⟩,
    hnested, hrefused⟩

end Node

end VersionedTree
