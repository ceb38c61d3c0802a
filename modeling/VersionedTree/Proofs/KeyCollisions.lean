import VersionedTree.Proofs.Following
import VersionedTree.Proofs.Grouping

/-!
# Keys that collide

The pairs of a mapping are resolved one after the other, each into a row: a finished pair, or
nothing where a slot is deleted. Keys that were apart in the source may become equal. The mapping
then keeps the first key object at its place with the value of the last row, and each time that a
value is replaced this is reported. So the rows are as many as the pairs of the result and the
reports together.

## What is proved

* `Keyed.map_fst_ofList`, `Keyed.value_of_mem_ofList` and `Keyed.length_insert` — which keys and
  values stay when pairs are inserted one after the other.
* `Resolver.exists_rows_of_foldlM` — what a mapping makes of its rows, and what it records.
* `Resolver.pairBecomes_of_finishPair` — when a pair becomes which row.
* `Resolver.mapping_losesNoPair` — all of this together, and the failure for a slot that does not
  resolve to one form.
-/

namespace VersionedTree

/-! ### Filling a mapping -/

namespace Keyed

variable {key value : Node} {pairs : List (Node × Node)} {p : Node × Node}

theorem contains_eq_elem (key : Node) (pairs : List (Node × Node)) :
    contains key pairs = (pairs.map Prod.fst).elem key := by
  rw [contains, List.elem_eq_contains, List.contains_eq_any_beq, List.any_map]
  rfl

/-- The keys that stay are the members of a set that is filled with all keys. -/
theorem map_fst_ofList (pairs : List (Node × Node)) :
    (ofList pairs).map Prod.fst = Distinct.ofList (pairs.map Prod.fst) := by
  induction pairs using List.reverseRecOn with
  | nil => rfl
  | append_singleton pairs p ih =>
    rw [ofList_append_singleton, List.map_append, List.map_singleton,
      Distinct.ofList_append_singleton, ← ih]
    cases h : contains p.1 (ofList pairs) with
    | true =>
      rw [map_fst_insert_of_contains h, Distinct.insert_of_elem (contains_eq_elem _ _ ▸ h)]
    | false =>
      rw [insert_of_not_contains h, Distinct.insert_of_not_elem (contains_eq_elem _ _ ▸ h),
        List.map_append, List.map_singleton]

/-- After an insertion a pair with an equal key has the new value, and the others were there. -/
theorem value_of_mem_insert (hunequal : Distinct.Unequal (pairs.map Prod.fst))
    (hwf : ∀ q ∈ pairs, q.1.WellFormed) (hkey : key.WellFormed) (h : p ∈ insert key value pairs) :
    (key == p.1) = true ∧ p.2 = value ∨ (key == p.1) = false ∧ p ∈ pairs := by
  induction pairs with
  | nil =>
    obtain rfl := List.mem_singleton.1 h
    exact .inl ⟨Node.beq_refl hkey, rfl⟩
  | cons q rest ih =>
    obtain ⟨k, v⟩ := q
    obtain ⟨hfirst, hrest⟩ := List.pairwise_cons.1 hunequal
    obtain ⟨hk, hwf⟩ := List.forall_mem_cons.1 hwf
    rw [insert] at h
    split at h
    · rename_i hequal
      rcases List.mem_cons.1 h with rfl | h
      · exact .inl ⟨hequal, rfl⟩
      · refine .inr ⟨Bool.eq_false_iff.2 fun hp => ?_, List.mem_cons_of_mem _ h⟩
        have hsame := Node.beq_trans hk hkey (hwf p h) (Node.beq_symm hkey hk hequal) hp
        rw [(hfirst p.1 (List.mem_map_of_mem h)).1] at hsame
        cases hsame
    · rename_i hequal
      rcases List.mem_cons.1 h with rfl | h
      · exact .inr ⟨Bool.eq_false_iff.2 hequal, List.mem_cons_self ..⟩
      · rcases ih hrest hwf h with hp | ⟨hne, hp⟩
        · exact .inl hp
        · exact .inr ⟨hne, List.mem_cons_of_mem _ hp⟩

/-- The value under a key is that of the last pair with an equal key. -/
theorem value_of_mem_ofList (hwf : ∀ q ∈ pairs, q.1.WellFormed) (h : p ∈ ofList pairs) :
    (pairs.reverse.find? fun q => q.1 == p.1).map Prod.snd = some p.2 := by
  induction pairs using List.reverseRecOn with
  | nil => cases h
  | append_singleton pairs q ih =>
    have hold : ∀ q ∈ pairs, q.1.WellFormed := fun q hq => hwf q (List.mem_append_left _ hq)
    have hq : q.1.WellFormed := hwf q (List.mem_append_right _ (List.mem_singleton_self q))
    have hkeys : ∀ k ∈ pairs.map Prod.fst, k.WellFormed := List.forall_mem_map.2 hold
    have hunequal : Distinct.Unequal ((ofList pairs).map Prod.fst) := by
      rw [map_fst_ofList]
      exact Distinct.unequal_ofList hkeys
    have hbuilt : ∀ p ∈ ofList pairs, p.1.WellFormed := by
      intro p hp
      obtain ⟨q, hq, hkey⟩ := (mem_ofList hp).1
      exact hkey ▸ hold q hq
    rw [ofList_append_singleton] at h
    rw [List.reverse_append, List.reverse_singleton, List.singleton_append, List.find?_cons]
    rcases value_of_mem_insert hunequal hbuilt hq h with ⟨hequal, hvalue⟩ | ⟨hne, hp⟩
    · rw [hequal]
      exact congrArg some hvalue.symm
    · rw [hne]
      exact ih hold hp

/-- An insertion makes a list longer by one, unless the key collides. -/
theorem length_insert (key value : Node) (pairs : List (Node × Node)) :
    (contains key pairs).toNat + (insert key value pairs).length = pairs.length + 1 := by
  cases h : contains key pairs with
  | true =>
    rw [length_insert_of_contains h, Bool.toNat_true, Nat.add_comm]
  | false =>
    rw [insert_of_not_contains h, List.length_append, List.length_singleton, Bool.toNat_false,
      Nat.zero_add]

end Keyed

/-! ### The rows of a mapping -/

namespace Resolver

section Rows

variable {r : Resolver} {ctx : Context} {descend : Node → Traced WalkError Node}

theorem result_putPair (built : List (Node × Node)) (p : Node × Node) :
    (putPair ctx built (some p)).result = .ok (Keyed.insert p.1 p.2 built) := by
  rw [putPair]
  cases Keyed.contains p.1 built <;> rfl

theorem events_putPair (built : List (Node × Node)) (p : Node × Node) :
    (putPair ctx built (some p)).events =
      if Keyed.contains p.1 built then [.keysCollided ctx.version] else [] := by
  rw [putPair]
  cases Keyed.contains p.1 built <;> rfl

/-- What is recorded while the pairs of a mapping are resolved: for each pair what is recorded for
it alone, and then the warning if there is one. -/
def recorded (r : Resolver) (ctx : Context) (descend : Node → Traced WalkError Node)
    (pairs : List (Node × Node)) (warned : List Bool) : List Event :=
  (pairs.zip warned).flatMap fun x =>
    (r.finishPair ctx descend x.1).events ++ if x.2 then [.keysCollided ctx.version] else []

theorem recorded_cons (p : Node × Node) (pairs : List (Node × Node)) (w : Bool)
    (warned : List Bool) :
    r.recorded ctx descend (p :: pairs) (w :: warned) = (r.finishPair ctx descend p).events ++
      (if w then [.keysCollided ctx.version] else []) ++ r.recorded ctx descend pairs warned := by
  rw [recorded, List.zip_cons_cons, List.flatMap_cons]
  rfl

/-- One row after the others: what it makes of the pairs in `built`, and whether it is reported. -/
theorem exists_warned_of_putPair {built built' : List (Node × Node)} {row : Option (Node × Node)}
    (h : (putPair ctx built row).result = .ok built') :
    ∃ w : Bool, built' = row.toList.foldl (fun built p => Keyed.insert p.1 p.2 built) built ∧
      (putPair ctx built row).events = (if w then [.keysCollided ctx.version] else []) ∧
      w.toNat + built'.length = built.length + row.toList.length := by
  cases row with
  | none =>
    cases h
    exact ⟨false, rfl, rfl, Nat.zero_add _⟩
  | some p =>
    rw [result_putPair] at h
    cases h
    exact ⟨Keyed.contains p.1 built, rfl, events_putPair built p,
      Keyed.length_insert p.1 p.2 built⟩

/-- The pairs of a mapping become rows, the rows are inserted one after the other, and the rows are
as many as the pairs of the result and the warnings together. -/
theorem exists_rows_of_foldlM {pairs built result : List (Node × Node)}
    (h : (pairs.foldlM (r.resolvePair ctx descend) built).result = .ok result) :
    ∃ rows warned,
      List.Forall₂ (fun p row => (r.finishPair ctx descend p).result = .ok row) pairs rows ∧
      rows.reduceOption.foldl (fun built p => Keyed.insert p.1 p.2 built) built = result ∧
      (pairs.foldlM (r.resolvePair ctx descend) built).events =
        r.recorded ctx descend pairs warned ∧
      warned.length = rows.length ∧
      warned.count true + result.length = built.length + rows.reduceOption.length := by
  induction pairs generalizing built with
  | nil =>
    cases h
    exact ⟨[], [], .nil, rfl, rfl, rfl, by simp [List.reduceOption]⟩
  | cons p pairs ih =>
    rw [List.foldlM_cons, resolvePair_eq] at h ⊢
    rw [Traced.result_bind] at h
    obtain ⟨built', hbuilt', hrest⟩ := Outcome.bind_eq_ok_iff.1 h
    obtain ⟨rows, warned, hrows, hfilled, hevents, hlen, hcount⟩ := ih hrest
    have hstep := hbuilt'
    rw [Traced.result_bind] at hstep
    obtain ⟨row, hrow, hput⟩ := Outcome.bind_eq_ok_iff.1 hstep
    obtain ⟨w, hinserted, hwarning, hlength⟩ := exists_warned_of_putPair hput
    have hreduced : (row :: rows).reduceOption = row.toList ++ rows.reduceOption := by
      cases row <;> rfl
    refine ⟨row :: rows, w :: warned, .cons hrow hrows, ?_, ?_, congrArg (· + 1) hlen, ?_⟩
    · rw [hreduced, List.foldl_append, ← hinserted, hfilled]
    · rw [Traced.events_bind, hbuilt', Traced.events_bind, hrow, recorded_cons, ← hwarning,
        ← hevents]
    · have hw : (if (w == true) = true then 1 else 0) = w.toNat := by cases w <;> rfl
      rw [hreduced, List.length_append, List.count_cons, hw]
      omega

end Rows

/-! ### One pair -/

/-- How a pair becomes a row. -/
inductive PairBecomes (r : Resolver) (ctx : Context) (bound : Nat) (p : Node × Node) :
    Option (Node × Node) → Prop where
  /-- Both slots resolve to one node each, and what is inside of the nodes is resolved. -/
  | kept {m n key value : Node} : (r.resolve ctx p.1).result = .ok [.node m] →
    (r.resolve ctx p.2).result = .ok [.node n] →
    (r.resolveInside ctx bound m).result = .ok key →
    (r.resolveInside ctx bound n).result = .ok value → PairBecomes r ctx bound p (some (key, value))
  /-- Both slots resolve to one form each, and a slot is deleted. -/
  | deleted {f g : Form} : (r.resolve ctx p.1).result = .ok [f] →
    (r.resolve ctx p.2).result = .ok [g] → f = .deletion ∨ g = .deletion →
    PairBecomes r ctx bound p none

section Pair

variable {r : Resolver} {ctx : Context} {bound : Nat} {p : Node × Node}

theorem result_resolveSlot {n : Node} {forms : List Form}
    (h : (r.resolve ctx n).result = .ok forms) : (r.resolveSlot ctx n).result = .ok forms := by
  rw [resolveSlot, Traced.result_adapt, h]
  rfl

/-- A side resolves exactly when its slot resolves to one form. -/
theorem resolveSide_eq_ok_iff {slot : Slot} {n : Node} {side : Option Node} :
    (r.resolveSide ctx slot n).result = .ok side ↔
      ∃ f, (r.resolve ctx n).result = .ok [f] ∧ f.node? = side := by
  rw [resolveSide, Traced.result_bind, Outcome.bind_eq_ok_iff]
  constructor
  · rintro ⟨forms, hforms, h⟩
    have hforms := result_resolveSlot_ok hforms
    split at h
    · cases h
      exact ⟨_, hforms, rfl⟩
    · cases h
      exact ⟨_, hforms, rfl⟩
    · cases h
  · rintro ⟨f, hf, rfl⟩
    refine ⟨[f], result_resolveSlot hf, ?_⟩
    cases f <;> rfl

/-- A slot that does not resolve to exactly one form is an error, whatever the forms are. -/
theorem result_resolveSide_of_length_ne_one {slot : Slot} {n : Node} {forms : List Form}
    (h : (r.resolve ctx n).result = .ok forms) (hlen : forms.length ≠ 1) :
    (r.resolveSide ctx slot n).result =
      .error (.resolve (.multiFormInSlot slot n ctx.version forms.length)) := by
  rw [resolveSide, Traced.result_bind, result_resolveSlot h, Outcome.ok_bind]
  split
  · exact absurd rfl hlen
  · exact absurd rfl hlen
  · rfl

theorem pairBecomes_of_finishPair {row : Option (Node × Node)}
    (h : (r.finishPair ctx (r.resolveInside ctx bound) p).result = .ok row) :
    r.PairBecomes ctx bound p row := by
  rw [finishPair, Traced.result_bind] at h
  obtain ⟨key, hkey, h⟩ := Outcome.bind_eq_ok_iff.1 h
  rw [Traced.result_bind] at h
  obtain ⟨value, hvalue, h⟩ := Outcome.bind_eq_ok_iff.1 h
  obtain ⟨f, hf, rfl⟩ := resolveSide_eq_ok_iff.1 hkey
  obtain ⟨g, hg, rfl⟩ := resolveSide_eq_ok_iff.1 hvalue
  cases f with
  | deletion =>
    cases h
    exact .deleted hf hg (.inl rfl)
  | node m =>
    cases g with
    | deletion =>
      cases h
      exact .deleted hf hg (.inr rfl)
    | node n =>
      simp only [Form.node?] at h
      rw [Traced.result_bind] at h
      obtain ⟨key, hkey, h⟩ := Outcome.bind_eq_ok_iff.1 h
      rw [Traced.result_bind] at h
      obtain ⟨value, hvalue, h⟩ := Outcome.bind_eq_ok_iff.1 h
      cases h
      exact .kept hf hg hkey hvalue

/-- The key of a row is well formed. -/
theorem PairBecomes.wellFormed_key (hkeeps : r.registry.KeepsWellFormed) {q : Node × Node}
    (hp : p.1.WellFormed) (h : r.PairBecomes ctx bound p (some q)) : q.1.WellFormed := by
  cases h with
  | kept hm _ hkey _ =>
    have hstable := ((wellFormedInvariant hkeeps).slot p.1 hp).1 _ hm _ (List.mem_cons_self ..)
    exact (resolveInside_meets (wellFormedInvariant hkeeps) hstable).1 _ hkey

end Pair

/-! ### The whole mapping -/

/-- How the pairs of a mapping come out of its rows. -/
structure FilledFrom (rows : List (Option (Node × Node))) (warned : List Bool)
    (result : List (Node × Node)) : Prop where
  /-- The keys are those that no row before has an equal key for, in the order of the rows. -/
  keys : (result.map fun p => some p.1) =
    (Grouping.firstPlaces (rows.reduceOption.map Prod.fst)).map fun i =>
      (rows.reduceOption.map Prod.fst)[i]?
  /-- The value under a key is that of the last row with an equal key. -/
  value : ∀ p ∈ result,
    (rows.reduceOption.reverse.find? fun q => q.1 == p.1).map Prod.snd = some p.2
  /-- For each row it is known whether it is reported. -/
  length_warned : warned.length = rows.length
  /-- There are as many warnings as there are rows more than pairs in the result. -/
  count_warned : warned.count true + result.length = rows.reduceOption.length

variable {r : Resolver} {ctx : Context} {bound : Nat} {pairs before after : List (Node × Node)}
  {p : Node × Node}

theorem result_resolveInside_mapping :
    (r.resolveInside ctx (bound + 1) (.mapping pairs)).result =
      (pairs.foldlM (r.resolvePair ctx (r.resolveInside ctx bound)) []).result.map
        Node.mapping := by
  rw [resolveInside, Traced.result_bind]
  cases (pairs.foldlM (r.resolvePair ctx (r.resolveInside ctx bound)) []).result <;> rfl

theorem events_resolveInside_mapping :
    (r.resolveInside ctx (bound + 1) (.mapping pairs)).events =
      (pairs.foldlM (r.resolvePair ctx (r.resolveInside ctx bound)) []).events := by
  rw [resolveInside, Traced.events_bind]
  cases (pairs.foldlM (r.resolvePair ctx (r.resolveInside ctx bound)) []).result <;>
    exact List.append_nil _

/-- The rows of a mapping that resolves, and what the mapping makes of them. -/
theorem exists_rows_of_mapping (hkeeps : r.registry.KeepsWellFormed)
    (hwf : (Node.mapping pairs).WellFormed) {t : Node}
    (h : (r.resolveInside ctx (bound + 1) (.mapping pairs)).result = .ok t) :
    ∃ rows warned result, t = .mapping result ∧
      List.Forall₂ (r.PairBecomes ctx bound) pairs rows ∧ FilledFrom rows warned result ∧
      (r.resolveInside ctx (bound + 1) (.mapping pairs)).events =
        r.recorded ctx (r.resolveInside ctx bound) pairs warned := by
  rw [result_resolveInside_mapping] at h
  obtain ⟨result, hresult, rfl⟩ := Outcome.map_eq_ok_iff.1 h
  obtain ⟨rows, warned, hfinished, hfilled, hevents, hlen, hcount⟩ :=
    exists_rows_of_foldlM hresult
  have hrows : List.Forall₂ (r.PairBecomes ctx bound) pairs rows :=
    hfinished.imp fun _ _ => pairBecomes_of_finishPair
  have hkeys : ∀ q ∈ rows.reduceOption, q.1.WellFormed := by
    intro q hq
    obtain ⟨p, hp, hpq⟩ := exists_mem_left_of_forall₂ hrows (List.reduceOption_mem_iff.1 hq)
    exact hpq.wellFormed_key hkeeps (hwf.keys p.1 (List.mem_map_of_mem hp))
  refine ⟨rows, warned, result, rfl, hrows, ⟨?_, ?_, hlen, ?_⟩, ?_⟩
  · rw [← Grouping.distinct_eq_firstPlaces (List.forall_mem_map.2 hkeys), Grouping.distinct,
      ← Keyed.map_fst_ofList, Keyed.ofList, hfilled, List.map_map]
    rfl
  · intro p hp
    rw [← hfilled] at hp
    exact Keyed.value_of_mem_ofList hkeys hp
  · rwa [List.length_nil, Nat.zero_add] at hcount
  · rw [events_resolveInside_mapping, hevents]

/-- A mapping fails if the pairs before some pair do. -/
theorem mapping_eq_error_of_before {e : WalkError}
    (h : (r.resolveInside ctx (bound + 1) (.mapping before)).result = .error e) :
    (r.resolveInside ctx (bound + 1) (.mapping (before ++ after))).result = .error e := by
  rw [result_resolveInside_mapping, Outcome.map_eq_error_iff] at h ⊢
  rw [List.foldlM_append, Traced.result_bind, h]
  rfl

/-- A mapping fails with a pair if the pairs before resolve. -/
theorem mapping_eq_error_of_pair {t : Node} {e : WalkError}
    (h : (r.resolveInside ctx (bound + 1) (.mapping before)).result = .ok t)
    (hp : (r.finishPair ctx (r.resolveInside ctx bound) p).result = .error e) :
    (r.resolveInside ctx (bound + 1) (.mapping (before ++ p :: after))).result = .error e := by
  rw [result_resolveInside_mapping] at h ⊢
  obtain ⟨built, hbuilt, -⟩ := Outcome.map_eq_ok_iff.1 h
  rw [Outcome.map_eq_error_iff, List.foldlM_append, Traced.result_bind, hbuilt, Outcome.ok_bind,
    List.foldlM_cons, Traced.result_bind, resolvePair_eq, Traced.result_bind, hp]
  rfl

/-- A pair fails if its key does not resolve to one form. -/
theorem finishPair_eq_error_of_key {descend : Node → Traced WalkError Node} {forms : List Form}
    (h : (r.resolve ctx p.1).result = .ok forms) (hlen : forms.length ≠ 1) :
    (r.finishPair ctx descend p).result =
      .error (.resolve (.multiFormInSlot .key p.1 ctx.version forms.length)) := by
  rw [finishPair, Traced.result_bind, result_resolveSide_of_length_ne_one h hlen]
  rfl

/-- A pair fails if its key resolves to one form, and its value does not. -/
theorem finishPair_eq_error_of_value {descend : Node → Traced WalkError Node} {f : Form}
    {forms : List Form} (hkey : (r.resolve ctx p.1).result = .ok [f])
    (h : (r.resolve ctx p.2).result = .ok forms) (hlen : forms.length ≠ 1) :
    (r.finishPair ctx descend p).result =
      .error (.resolve (.multiFormInSlot .value p.2 ctx.version forms.length)) := by
  rw [finishPair, Traced.result_bind, resolveSide_eq_ok_iff.2 ⟨f, hkey, rfl⟩, Outcome.ok_bind,
    Traced.result_bind, result_resolveSide_of_length_ne_one h hlen]
  rfl

/-- Resolving a mapping loses no pair silently. If it succeeds, every pair became a row; the result
has the keys of the rows that no row before has an equal key for, in order, each with the value of
the last row with an equal key; and besides what is recorded for the pairs one by one, a warning is
recorded for each row that is not in the result for itself. A slot that does not resolve to exactly
one form makes it fail, if no pair before does. -/
theorem mapping_losesNoPair (r : Resolver) (ctx : Context) (bound : Nat)
    (pairs : List (Node × Node)) (hkeeps : r.registry.KeepsWellFormed)
    (hwf : (Node.mapping pairs).WellFormed) :
    (∀ t, (r.resolveInside ctx (bound + 1) (.mapping pairs)).result = .ok t →
      ∃ rows warned result, t = .mapping result ∧
        List.Forall₂ (r.PairBecomes ctx bound) pairs rows ∧ FilledFrom rows warned result ∧
        (r.resolveInside ctx (bound + 1) (.mapping pairs)).events =
          r.recorded ctx (r.resolveInside ctx bound) pairs warned) ∧
    ∀ before p after, pairs = before ++ p :: after →
      (∀ e, (r.resolveInside ctx (bound + 1) (.mapping before)).result = .error e →
        (r.resolveInside ctx (bound + 1) (.mapping pairs)).result = .error e) ∧
      ∀ t, (r.resolveInside ctx (bound + 1) (.mapping before)).result = .ok t →
        (∀ forms, (r.resolve ctx p.1).result = .ok forms → forms.length ≠ 1 →
          (r.resolveInside ctx (bound + 1) (.mapping pairs)).result =
            .error (.resolve (.multiFormInSlot .key p.1 ctx.version forms.length))) ∧
        ∀ f forms, (r.resolve ctx p.1).result = .ok [f] → (r.resolve ctx p.2).result = .ok forms →
          forms.length ≠ 1 →
          (r.resolveInside ctx (bound + 1) (.mapping pairs)).result =
            .error (.resolve (.multiFormInSlot .value p.2 ctx.version forms.length)) := by
  refine ⟨fun t => exists_rows_of_mapping hkeeps hwf, ?_⟩
  rintro before p after rfl
  refine ⟨fun e => mapping_eq_error_of_before, fun t ht => ⟨fun forms hforms hlen => ?_, ?_⟩⟩
  · exact mapping_eq_error_of_pair ht (finishPair_eq_error_of_key hforms hlen)
  · intro f forms hkey hforms hlen
    exact mapping_eq_error_of_pair ht (finishPair_eq_error_of_value hkey hforms hlen)

end Resolver

/-! ### Two collisions and a value that is deleted twice -/

namespace Sample

/-- Two keys become equal to keys before them, and the value under another key is deleted. -/
def colliding : List (Node × Node) :=
  [(.invocation Standard.addedTag [.str "v0", .str "a"], .int 1),
    (.str "b", .invocation Standard.removedTag [.str "v1", .int 0]),
    (.set [.str "x", .str "y"], .int 2), (.str "a", .int 3),
    (.invocation Standard.addedTag [.str "v0", .set [.str "y", .str "x"]], .int 4)]

/-- A value that resolves to two deletions. -/
def deletedTwice : Node :=
  .invocation Standard.addedTag [.str "v0", .invocation Standard.removedTag [.str "v1"],
    .invocation Standard.removedTag [.str "v1"]]

theorem wellFormed_colliding : (Node.mapping colliding).WellFormed := by
  have hkeys : (colliding.map Prod.fst).Pairwise
      fun x y => (x == y) = false ∧ (y == x) = false := by decide
  have hset : Distinct.Unequal [.str "x", .str "y"] := List.pairwise_pair.2 ⟨rfl, rfl⟩
  have hset' : Distinct.Unequal [.str "y", .str "x"] := List.pairwise_pair.2 ⟨rfl, rfl⟩
  exact ⟨hkeys, ⟨trivial, trivial, trivial⟩, trivial, trivial, ⟨trivial, trivial, trivial⟩,
    ⟨hset, trivial, trivial, trivial⟩, trivial, trivial, trivial,
    ⟨trivial, ⟨hset', trivial, trivial, trivial⟩, trivial⟩, trivial, trivial⟩

theorem wellFormed_deletedTwice :
    (Node.mapping [(.str "a", .int 1), (.str "k", deletedTwice)]).WellFormed :=
  ⟨List.pairwise_pair.2 ⟨rfl, rfl⟩, trivial, trivial, trivial,
    ⟨trivial, ⟨trivial, trivial⟩, ⟨trivial, trivial⟩, trivial⟩, trivial⟩

end Sample

theorem Resolver.mapping_losesNoPair_colliding :
    (resolveInside ⟨(Standard.registry none).value, 10⟩ Sample.atSecond 3
      (.mapping Sample.colliding)).events.count (.keysCollided ⟨"v1"⟩) = 2 ∧
    (∃ rows warned,
      List.Forall₂ (PairBecomes ⟨(Standard.registry none).value, 10⟩ Sample.atSecond 2)
        Sample.colliding rows ∧
      FilledFrom rows warned [(.str "a", .int 3), (.set [.str "x", .str "y"], .int 4)]) ∧
    (resolveInside ⟨(Standard.registry none).value, 10⟩ Sample.atSecond 3
      (.mapping [(.str "a", .int 1), (.str "k", Sample.deletedTwice)])).result =
        .error (.resolve (.multiFormInSlot .value Sample.deletedTwice ⟨"v1"⟩ 2)) := by
  have hkeeps := (Standard.inward_registry none).keepsWellFormed
  obtain ⟨hresolves, -⟩ := mapping_losesNoPair ⟨(Standard.registry none).value, 10⟩ Sample.atSecond
    2 Sample.colliding hkeeps Sample.wellFormed_colliding
  obtain ⟨-, hfails⟩ := mapping_losesNoPair ⟨(Standard.registry none).value, 10⟩ Sample.atSecond
    2 [(.str "a", .int 1), (.str "k", Sample.deletedTwice)] hkeeps Sample.wellFormed_deletedTwice
  refine ⟨rfl, ?_, ?_⟩
  · obtain ⟨rows, warned, result, ⟨⟩, hrows, hfilled, -⟩ := hresolves
      (.mapping [(.str "a", .int 3), (.set [.str "x", .str "y"], .int 4)]) rfl
    exact ⟨rows, warned, hrows, hfilled⟩
  · obtain ⟨-, hpair⟩ := hfails [(.str "a", .int 1)] (.str "k", Sample.deletedTwice) [] rfl
    exact (hpair (.mapping [(.str "a", .int 1)]) rfl).2 (.node (.str "k")) [.deletion, .deletion]
      rfl rfl (by decide)

end VersionedTree
