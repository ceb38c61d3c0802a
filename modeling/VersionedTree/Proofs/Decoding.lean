import VersionedTree.Proofs.Outcome
import VersionedTree.Proofs.Rendering
import VersionedTree.Storage.Decode

/-!
# Decoders and the limit on nesting

A decoder that is given what its encoder wrote can fail in one way only: more arrays and objects
are open at one place than it may open. `Json.within` is this answer. It passes from the parts of a
value to the value, whose nesting is that of the deepest part and one more.

## What is proved

* `Json.nameOf_escape`, `Json.asText_ofText`, `Json.asNatural_ofNat`, `Json.asInt64_literal` — plain
  values are read as they were written.
* `Json.asList_map`, `Json.asEntries_map` and `Json.variant_bind` — so are arrays and objects, where
  their parts are.
* `Json.decodeText_render` — a text is refused exactly when its brackets are nested too deeply.
* `Json.asList_eq_ok_iff` — what an array was that has been read.
-/

namespace VersionedTree.Json

/-! ### Plain values -/

theorem nameOf_escape (s : String) : nameOf (escape s) = .ok s := by
  rw [nameOf, unescape?_escape]

theorem asText_ofText (s : String) : asText (ofText s) = .ok s := nameOf_escape s

theorem asNatural_ofNat {n : Nat} (h : n < UInt64.size) : asNatural (ofNat n) = .ok n := by
  rw [ofNat, asNatural, natural?_digits h]

theorem asInt64_literal (i : Int64) : asInt64 (.number (literal i.toInt)) = .ok i := by
  rw [asInt64, integer?_literal]
  dsimp only
  rw [if_pos ⟨i.minValue_le_toInt, i.toInt_le⟩, Int64.ofInt_toInt]

theorem written_ofText (s : String) : (ofText s).Written := .string s

theorem written_ofNat (n : Nat) : (ofNat n).Written := by
  have h := Written.number n
  rwa [literal, if_neg (Int.not_lt.2 (Int.natCast_nonneg n)), Int.natAbs_natCast] at h

/-! ### The nesting of a value -/

theorem itemsNesting_le_iff {items : List Json} {depth : Nat} :
    itemsNesting items ≤ depth ↔ ∀ v ∈ items, v.nesting ≤ depth := by
  induction items with
  | nil => simp [itemsNesting]
  | cons v items ih => rw [itemsNesting, Nat.max_le, ih, List.forall_mem_cons]

/-- The fields of an object are nested like the items of an array. -/
theorem fieldsNesting_eq (fields : List (List Char × Json)) :
    fieldsNesting fields = itemsNesting (fields.map Prod.snd) := by
  induction fields with
  | nil => rfl
  | cons f fields ih => rw [fieldsNesting, ih, List.map_cons, itemsNesting]

/-- An item is less deeply nested than the array. -/
theorem nesting_lt_of_mem_items {items : List Json} {v : Json} (h : v ∈ items) :
    v.nesting < (array items).nesting :=
  Nat.lt_succ_of_le (itemsNesting_le_iff.1 (Nat.le_refl _) v h)

/-- The value of a field is less deeply nested than the object. -/
theorem nesting_lt_of_mem_fields {fields : List (List Char × Json)} {f : List Char × Json}
    (h : f ∈ fields) : f.2.nesting < (object fields).nesting := by
  rw [nesting, fieldsNesting_eq]
  exact Nat.lt_succ_of_le (itemsNesting_le_iff.1 (Nat.le_refl _) f.2 (List.mem_map_of_mem h))

/-! ### Reading what is nested within the limit -/

/-- What a decoder gives that may open `left` arrays and objects, about a value that is nested
`depth` deep and otherwise in order. -/
def within {α : Type} (left depth : Nat) (a : α) : Except DecodeError α :=
  if depth ≤ left then .ok a else .error .malformed

section Within

variable {α β : Type} {left depth : Nat} {a : α} {b : β}

theorem within_of_le (h : depth ≤ left) : within left depth a = .ok a := if_pos h

theorem within_zero : within left 0 a = .ok a := within_of_le (Nat.zero_le left)

theorem map_within (f : α → β) : f <$> within left depth a = within left depth (f a) := by
  unfold within
  split <;> rfl

/-- What is done afterwards without opening anything makes no difference. -/
theorem within_bind_ok {f : α → Except DecodeError β} (h : f a = .ok b) :
    (within left depth a >>= f) = within left depth b := by
  unfold within
  split
  · exact h
  · rfl

/-- Two parts fit where the deeper one does. -/
theorem within_bind {depth' : Nat} {f : α → Except DecodeError β}
    (h : f a = within left depth' b) :
    (within left depth a >>= f) = within left (max depth depth') b := by
  rw [within, within]
  split_ifs with hdepth hmax hmax
  · rw [Outcome.ok_bind, h, within_of_le (by omega)]
  · rw [Outcome.ok_bind, h, within, if_neg (by omega)]
  · omega
  · rfl

/-- To open an array or object takes one more. -/
theorem descend_bind {f : Nat → Except DecodeError β} (h : ∀ l, f l = within l depth b) :
    (descend left >>= f) = within left (depth + 1) b := by
  cases left with
  | zero => rw [within, if_neg (by omega)]; rfl
  | succ left =>
    show f left = _
    rw [h, within, within]
    simp only [Nat.add_le_add_iff_right]

/-- An object with a single field is read where its content is, which depends on the name. -/
theorem variant_bind {name : String} {content : Nat → String → Except DecodeError α}
    (h : ∀ l, content l name = within l depth a) :
    (do
      let l ← descend left
      let name ← nameOf (escape name)
      let a ← content l name
      finish a ([] : List (List Char × Json))) = within left (depth + 1) a := by
  refine descend_bind fun l => ?_
  rw [nameOf_escape, Outcome.ok_bind, h]
  exact within_bind_ok rfl

/-- Parts are read where each of them is. -/
theorem mapM_map {part : β → Except DecodeError α} {write : α → β} {value : β → Json} {xs : List α}
    (h : ∀ x ∈ xs, part (write x) = within left (value (write x)).nesting x) :
    (xs.map write).mapM part = within left (itemsNesting ((xs.map write).map value)) xs := by
  induction xs with
  | nil => exact within_zero.symm
  | cons x xs ih =>
    obtain ⟨hx, hxs⟩ := List.forall_mem_cons.1 h
    rw [List.map_cons, List.mapM_cons, hx, List.map_cons, itemsNesting]
    refine within_bind ?_
    rw [ih hxs]
    exact map_within (x :: ·)

/-- An array is read where its items are. -/
theorem asList_map {item : Nat → Json → Except DecodeError α} {write : α → Json} {xs : List α}
    (h : ∀ x ∈ xs, ∀ l, item l (write x) = within l (write x).nesting x) :
    asList left item (.array (xs.map write)) = within left (array (xs.map write)).nesting xs := by
  refine descend_bind fun l => ?_
  have hitems : (xs.map write).mapM (item l) =
      within l (itemsNesting ((xs.map write).map id)) xs := mapM_map fun x hx => h x hx l
  rwa [List.map_id] at hitems

/-- An object is read where its names and values are. -/
theorem asEntries_map {κ ν : Type} {key : List Char → Except DecodeError κ}
    {value : Nat → Json → Except DecodeError ν} {write : κ × ν → List Char × Json}
    {rows : List (κ × ν)} (hkey : ∀ row ∈ rows, key (write row).1 = .ok row.1)
    (hvalue : ∀ row ∈ rows, ∀ l, value l (write row).2 = within l (write row).2.nesting row.2) :
    asEntries left key value (.object (rows.map write)) =
      within left (object (rows.map write)).nesting rows := by
  rw [nesting, fieldsNesting_eq]
  refine descend_bind fun l => mapM_map fun row hrow => ?_
  rw [hkey row hrow, Outcome.ok_bind, hvalue row hrow l]
  exact map_within (row.1, ·)

/-- A text is refused exactly when its brackets are nested too deeply. -/
theorem decodeText_render {decode : Nat → Json → Except DecodeError α} {v : Json} (hv : v.Written)
    (h : decode maxNesting v = within maxNesting v.nesting a) :
    decodeText decode v.render =
      if textNesting v.render ≤ maxNesting then .ok a else .error .malformed := by
  rw [decodeText, hv.read_render, hv.textNesting_render]
  dsimp only
  rw [h]
  by_cases hdepth : v.nesting ≤ maxNesting
  · rw [within_of_le hdepth, if_pos hdepth]
    rfl
  · rw [within, if_neg hdepth]
    rfl

end Within

/-! ### What has been read -/

section Read

variable {α : Type} {left : Nat}

theorem descend_eq_ok_iff {l : Nat} : descend left = .ok l ↔ left = l + 1 := by
  cases left with
  | zero => simp [descend]
  | succ left => simp [descend]

theorem finish_eq_ok_iff {β : Type} {a b : α} {rest : List β} :
    finish a rest = .ok b ↔ rest = [] ∧ a = b := by
  cases rest <;> simp [finish]

/-- What was read as an array was one, and its items were read one less deep. -/
theorem asList_eq_ok_iff {item : Nat → Json → Except DecodeError α} {v : Json} {xs : List α} :
    asList left item v = .ok xs ↔
      ∃ l items, left = l + 1 ∧ v = .array items ∧ items.mapM (item l) = .ok xs := by
  constructor
  · intro h
    cases v with
    | array items =>
      obtain ⟨l, hl, h⟩ := Outcome.bind_eq_ok_iff.1 h
      exact ⟨l, items, descend_eq_ok_iff.1 hl, rfl, h⟩
    | _ => cases h
  · rintro ⟨l, items, rfl, rfl, h⟩
    exact h

end Read

end VersionedTree.Json
