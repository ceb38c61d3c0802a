import Mathlib.Algebra.Group.Nat.Defs
import VersionedTree.Proofs.Fingerprints

/-!
# Fingerprints name nodes

The bytes that are digested for a node can be read in one way only: the first byte tells the kind, a
count takes eight bytes, the bytes of a tag come after their count, and a fingerprint takes 32
bytes. They tell the kind of the node, its scalar or tag, and the fingerprints of its parts, in
order for items and arguments, and up to the order for members and pairs.

So unequal nodes with the same fingerprint give two different byte streams with the same digest,
and these streams are found among those that were digested for the two nodes. Nothing is assumed of
the digest function.

Only the length of a tag has to fit in the 64 bits that are written for it: the other bytes of free
length, and the fingerprints of parts, go on to the end of the stream.

## What is proved

* `Transcript.eq_of_stream_parts_eq` — the fingerprints of parts can be told from their bytes.
* `Node.outline_of_stream_eq` — the bytes that are digested for a node tell its outline.
* `Node.fingerprint_names` — nodes with the same fingerprint are equal, or two streams collide.
-/

namespace VersionedTree

/-! ### Numbers and texts as bytes -/

namespace Text

/-- A number that fits is told by its bytes. -/
theorem eq_of_littleEndian_eq {count m n : Nat} (hm : m < 256 ^ count) (hn : n < 256 ^ count)
    (h : littleEndian count m = littleEndian count n) : m = n := by
  induction count generalizing m n with
  | zero => omega
  | succ count ih =>
    rw [littleEndian, littleEndian, List.cons.injEq] at h
    rw [Nat.pow_succ] at hm hn
    have hhigh : m / 256 = n / 256 := ih (by omega) (by omega) h.2
    have hlow : m % 256 = n % 256 := by simpa using congrArg UInt8.toNat h.1
    omega

/-- A text is told by its bytes. -/
theorem eq_of_utf8_eq {s t : String} (h : utf8 s = utf8 t) : s = t := by
  rw [← String.toByteArray_inj, ← String.utf8Encode_toList, ← String.utf8Encode_toList]
  exact congrArg List.toByteArray h

end Text

/-- The length of the tag fits in 64 bits. -/
def Tag.Fits (tag : Tag) : Prop := (Text.utf8 tag.name).length < 2 ^ 64

/-! ### Reading a stream -/

namespace Transcript

/-- After a count the streams go on alike. -/
theorem eq_of_count_append_eq {m n : Nat} {xs ys : List UInt8}
    (h : (Entry.count m).stream ++ xs = (Entry.count n).stream ++ ys) :
    Text.littleEndian 8 m = Text.littleEndian 8 n ∧ xs = ys :=
  List.append_inj h ((Text.length_littleEndian 8 m).trans (Text.length_littleEndian 8 n).symm)

/-- After bytes of free length, where these fit, the streams go on alike. -/
theorem eq_of_bytes_append_eq {bs cs xs ys : List UInt8} (hbs : bs.length < 2 ^ 64)
    (hcs : cs.length < 2 ^ 64)
    (h : (Entry.bytes bs).stream ++ xs = (Entry.bytes cs).stream ++ ys) : bs = cs ∧ xs = ys := by
  rw [Entry.stream, Entry.stream, List.append_assoc, List.append_assoc] at h
  obtain ⟨hcount, hrest⟩ := eq_of_count_append_eq h
  exact List.append_inj hrest (Text.eq_of_littleEndian_eq hbs hcs hcount)

/-- The fingerprints of parts can be told from their bytes. -/
theorem eq_of_stream_parts_eq {fs gs : List Fingerprint}
    (h : (fs.map Entry.part).flatMap Entry.stream = (gs.map Entry.part).flatMap Entry.stream) :
    fs = gs := by
  have hne : ∀ (f : Fingerprint) (rest : List UInt8), f.bytes ++ rest ≠ [] := by
    intro f rest hnil
    have hlen := f.length_bytes
    rw [(List.append_eq_nil_iff.1 hnil).1] at hlen
    cases hlen
  induction fs generalizing gs with
  | nil =>
    cases gs with
    | nil => rfl
    | cons g gs => exact absurd h.symm (hne g _)
  | cons f fs ih =>
    cases gs with
    | nil => exact absurd h (hne f _)
    | cons g gs =>
      rw [List.map_cons, List.map_cons, List.flatMap_cons, List.flatMap_cons] at h
      obtain ⟨hf, hfs⟩ := List.append_inj h (f.length_bytes.trans g.length_bytes.symm)
      rw [Fingerprint.ext hf, ih hfs]

/-- The entries for pairs are the entries for their components in turn. -/
theorem flatMap_pairs_eq (ps : List (Fingerprint × Fingerprint)) :
    (ps.flatMap fun p => [Entry.part p.1, Entry.part p.2]) =
      (ps.flatMap fun p => [p.1, p.2]).map Entry.part := by
  simp [List.map_flatMap]

/-- Pairs can be told from their components in turn. -/
theorem eq_of_flatMap_eq {α : Type} {ps qs : List (α × α)}
    (h : (ps.flatMap fun p => [p.1, p.2]) = qs.flatMap fun q => [q.1, q.2]) : ps = qs := by
  induction ps generalizing qs with
  | nil => cases qs <;> simp_all
  | cons p ps ih =>
    cases qs with
    | nil => simp at h
    | cons q qs =>
      simp only [List.flatMap_cons, List.cons_append, List.nil_append, List.cons.injEq] at h
      rw [Prod.ext h.1 h.2.1, ih h.2.2]

end Transcript

namespace Node

variable {digest : List UInt8 → Fingerprint} {m n : Node}

/-- Two nodes of one kind, with the same scalar or tag, whose parts have the same fingerprints: in
order for items and arguments, up to the order for members and pairs. -/
inductive SameOutline (digest : List UInt8 → Fingerprint) : Node → Node → Prop where
  /-- The same scalar. -/
  | scalar (value : Scalar) : SameOutline digest (.scalar value) (.scalar value)
  /-- Sequences whose items have the same fingerprints. -/
  | sequence {xs ys : List Node} : xs.map (fingerprintBy digest) = ys.map (fingerprintBy digest) →
    SameOutline digest (.sequence xs) (.sequence ys)
  /-- Sets whose members have the same fingerprints, in any order. -/
  | set {xs ys : List Node} : (xs.map (fingerprintBy digest)).Perm (ys.map (fingerprintBy digest)) →
    SameOutline digest (.set xs) (.set ys)
  /-- Mappings whose pairs have the same pairs of fingerprints, in any order. -/
  | mapping {ps qs : List (Node × Node)} :
    (ps.map fun p => (p.1.fingerprintBy digest, p.2.fingerprintBy digest)).Perm
      (qs.map fun q => (q.1.fingerprintBy digest, q.2.fingerprintBy digest)) →
    SameOutline digest (.mapping ps) (.mapping qs)
  /-- Invocations of one tag whose arguments have the same fingerprints. -/
  | invocation (tag : Tag) {xs ys : List Node} :
    xs.map (fingerprintBy digest) = ys.map (fingerprintBy digest) →
    SameOutline digest (.invocation tag xs) (.invocation tag ys)

/-- The first byte of a stream tells the kind of the node, and the entries follow. -/
theorem kind_eq_of_stream_eq
    (h : (m.transcriptBy digest).stream = (n.transcriptBy digest).stream) :
    (m.transcriptBy digest).kind = (n.transcriptBy digest).kind ∧
      (m.transcriptBy digest).entries.flatMap Entry.stream =
        (n.transcriptBy digest).entries.flatMap Entry.stream := by
  have hkind : ∀ n : Node, ∃ kind, (n.transcriptBy digest).kind = some kind := by
    intro n
    cases n with
    | scalar value => cases value <;> exact ⟨_, rfl⟩
    | _ => exact ⟨_, rfl⟩
  obtain ⟨k, hk⟩ := hkind m
  obtain ⟨l, hl⟩ := hkind n
  rw [Transcript.stream, Transcript.stream, hk, hl] at h
  obtain ⟨hkl, hentries⟩ := List.cons.inj h
  exact ⟨by rw [hk, hl, hkl], hentries⟩

/-- A scalar is told by the kind and the entries of its transcript. -/
theorem scalar_eq_of_transcript_eq {a b : Scalar} (hkind : a.transcript.kind = b.transcript.kind)
    (h : a.transcript.entries.flatMap Entry.stream = b.transcript.entries.flatMap Entry.stream) :
    a = b := by
  -- A scalar that is not `nil` has one entry, and its bytes go on to the end of the stream.
  have hbytes : ∀ {bs cs : List UInt8}, [Entry.bytes bs].flatMap Entry.stream =
      [Entry.bytes cs].flatMap Entry.stream → bs = cs := by
    intro bs cs h
    rw [List.flatMap_singleton, List.flatMap_singleton] at h
    exact (Transcript.eq_of_count_append_eq h).2
  cases a <;> cases b <;> simp only [Scalar.transcript, Option.some.injEq] at hkind h
  case nil.nil => rfl
  case bool.bool x y =>
    have hxy := hbytes h
    cases x <;> cases y <;> simp_all
  case int.int x y =>
    have hxy := Text.eq_of_littleEndian_eq x.toUInt64.toNat_lt y.toUInt64.toNat_lt (hbytes h)
    exact congrArg (fun word => Scalar.int (.ofUInt64 word)) (UInt64.toNat_inj.1 hxy)
  case str.str x y => rw [Text.eq_of_utf8_eq (hbytes h)]
  case symbol.symbol x y => rw [Text.eq_of_utf8_eq (hbytes h)]
  all_goals cases hkind

/-- The bytes that are digested for a node tell its outline. -/
theorem outline_of_stream_eq (hm : m.InvokesOnly Tag.Fits) (hn : n.InvokesOnly Tag.Fits)
    (h : (m.transcriptBy digest).stream = (n.transcriptBy digest).stream) :
    SameOutline digest m n := by
  obtain ⟨hkind, hentries⟩ := kind_eq_of_stream_eq h
  cases m <;> cases n
  case scalar.scalar a b =>
    rw [scalar_eq_of_transcript_eq hkind hentries]
    exact .scalar b
  case sequence.sequence xs ys =>
    have hparts := Transcript.eq_of_stream_parts_eq (Transcript.eq_of_count_append_eq hentries).2
    rw [partsBy_eq_map, partsBy_eq_map] at hparts
    exact .sequence hparts
  case set.set xs ys =>
    have hparts := Transcript.eq_of_stream_parts_eq (Transcript.eq_of_count_append_eq hentries).2
    rw [Fingerprint.sorted_eq_iff, partsBy_eq_map, partsBy_eq_map] at hparts
    exact .set hparts
  case mapping.mapping ps qs =>
    have hrest := (Transcript.eq_of_count_append_eq hentries).2
    rw [Transcript.flatMap_pairs_eq, Transcript.flatMap_pairs_eq] at hrest
    have hpairs := Transcript.eq_of_flatMap_eq (Transcript.eq_of_stream_parts_eq hrest)
    rw [Fingerprint.sortedPairs_eq_iff, pairPartsBy_eq_map, pairPartsBy_eq_map] at hpairs
    exact .mapping hpairs
  case invocation.invocation t xs u ys =>
    obtain ⟨htag, hrest⟩ := Transcript.eq_of_bytes_append_eq hm.tag hn.tag hentries
    have hparts := Transcript.eq_of_stream_parts_eq (Transcript.eq_of_count_append_eq hrest).2
    rw [partsBy_eq_map, partsBy_eq_map] at hparts
    obtain rfl : t = u := congrArg Tag.mk (Text.eq_of_utf8_eq htag)
    exact .invocation t hparts
  -- Nodes of different kinds begin with different bytes.
  case scalar.sequence a _ | scalar.set a _ | scalar.mapping a _ | scalar.invocation a _ _ =>
    cases a <;> simp [transcriptBy, Scalar.transcript] at hkind
  case sequence.scalar _ b | set.scalar _ b | mapping.scalar _ b | invocation.scalar _ _ b =>
    cases b <;> simp [transcriptBy, Scalar.transcript] at hkind
  all_goals simp [transcriptBy] at hkind

/-! ### Collisions -/

/-- The byte streams that are digested to name a node: its own and those of everything in it. -/
def streams (digest : List UInt8 → Fingerprint) (n : Node) : List (List UInt8) :=
  n.subnodes.map fun m => (m.transcriptBy digest).stream

/-- Two different streams, one digested for each node, have the same digest. -/
def Collide (digest : List UInt8 → Fingerprint) (m n : Node) : Prop :=
  ∃ s ∈ m.streams digest, ∃ t ∈ n.streams digest, s ≠ t ∧ digest s = digest t

theorem stream_mem_streams (n : Node) : (n.transcriptBy digest).stream ∈ n.streams digest :=
  List.mem_map_of_mem n.self_mem_subnodes

/-- What is digested for parts is digested for the nodes. -/
theorem Collide.of_parts {p q : Node} (h : p.Collide digest q) (hp : p ∈ m.parts)
    (hq : q ∈ n.parts) : m.Collide digest n := by
  obtain ⟨s, hs, t, ht, hst⟩ := h
  obtain ⟨p', hp', rfl⟩ := List.mem_map.1 hs
  obtain ⟨q', hq', rfl⟩ := List.mem_map.1 ht
  exact ⟨_, List.mem_map_of_mem (subnodes_trans hp' (mem_subnodes_of_mem_parts hp)), _,
    List.mem_map_of_mem (subnodes_trans hq' (mem_subnodes_of_mem_parts hq)), hst⟩

/-- Nodes with the same outline are equal if their parts with the same fingerprints are. -/
theorem SameOutline.beq (h : SameOutline digest m n) (hm : m.WellFormed) (hn : n.WellFormed)
    (hparts : ∀ p ∈ m.parts, ∀ q ∈ n.parts, p.fingerprintBy digest = q.fingerprintBy digest →
      (p == q) = true) : (m == n) = true := by
  have items : ∀ {xs ys : List Node}, (∀ x ∈ xs, ∀ y ∈ ys,
      x.fingerprintBy digest = y.fingerprintBy digest → (x == y) = true) →
      xs.map (fingerprintBy digest) = ys.map (fingerprintBy digest) → ItemsMatch xs ys := by
    intro xs ys hparts hmap
    have hlen : xs.length = ys.length := by simpa using congrArg List.length hmap
    refine ⟨hlen, fun i hx hy => hparts _ (List.getElem_mem hx) _ (List.getElem_mem hy) ?_⟩
    have hi := congrArg (fun l => l[i]?) hmap
    simpa [hx, hy] using hi
  refine beq_iff_matches.2 ?_
  cases h with
  | scalar value => exact .scalar value
  | sequence hmap => exact .sequence (items hparts hmap)
  | @set xs ys hperm =>
    refine .set ⟨by simpa using hperm.length_eq, fun x hx => ?_⟩
    obtain ⟨y, hy, hxy⟩ := List.mem_map.1 (hperm.mem_iff.1 (List.mem_map_of_mem hx))
    exact ⟨y, hy, hparts x hx y hy hxy.symm⟩
  | @mapping ps qs hperm =>
    refine .mapping ⟨by simpa using hperm.length_eq, fun p hp => ?_⟩
    obtain ⟨q, hq, hpq⟩ := List.mem_map.1 (hperm.mem_iff.1 (List.mem_map_of_mem hp))
    obtain ⟨hkey, hvalue⟩ := Prod.mk.inj hpq
    have hk : (p.1 == q.1) = true := hparts _ (mem_parts_mapping.2 ⟨p, hp, .inl rfl⟩) _
      (mem_parts_mapping.2 ⟨q, hq, .inl rfl⟩) hkey.symm
    have hequal : p.1.Equal q.1 :=
      ⟨hk, hm.keys _ (List.mem_map_of_mem hp), hn.keys _ (List.mem_map_of_mem hq)⟩
    refine ⟨q, hequal.find?_eq_some (fun r hr => hn.keys _ (List.mem_map_of_mem hr)) hn.1 hq, ?_⟩
    exact hparts _ (mem_parts_mapping.2 ⟨p, hp, .inr rfl⟩) _
      (mem_parts_mapping.2 ⟨q, hq, .inr rfl⟩) hvalue.symm
  | invocation tag hmap => exact .invocation tag (items hparts hmap)

/-- Well-formed nodes with the same fingerprint are equal, or streams that were digested for them
collide. -/
theorem beq_or_collide (hm : m.WellFormed) (hn : n.WellFormed) (hfm : m.InvokesOnly Tag.Fits)
    (hfn : n.InvokesOnly Tag.Fits) (h : m.fingerprintBy digest = n.fingerprintBy digest) :
    (m == n) = true ∨ m.Collide digest n := by
  induction m using parts_induction generalizing n with
  | step m ih =>
    by_cases hstream : (m.transcriptBy digest).stream = (n.transcriptBy digest).stream
    · by_cases hcollide : m.Collide digest n
      · exact .inr hcollide
      · refine .inl ((outline_of_stream_eq hfm hfn hstream).beq hm hn fun p hp q hq hpq => ?_)
        refine (ih p hp (hm.part hp) (hn.part hq) (hfm.part hp) (hfn.part hq) hpq).resolve_right ?_
        exact fun hparts => hcollide (hparts.of_parts hp hq)
    · exact .inr ⟨_, stream_mem_streams m, _, stream_mem_streams n, hstream, h⟩

/-- The bytes that are digested for a node tell its outline, and nodes with the same fingerprint are
equal unless two different streams that were digested for them have the same digest. -/
theorem fingerprint_names (digest : List UInt8 → Fingerprint) (hm : m.WellFormed)
    (hn : n.WellFormed) (hfm : m.InvokesOnly Tag.Fits) (hfn : n.InvokesOnly Tag.Fits) :
    ((m.transcriptBy digest).stream = (n.transcriptBy digest).stream → SameOutline digest m n) ∧
    (m.fingerprintBy digest = n.fingerprintBy digest →
      (m == n) = true ∨ ∃ s ∈ m.streams digest, ∃ t ∈ n.streams digest,
        s ≠ t ∧ digest s = digest t) :=
  ⟨outline_of_stream_eq hfm hfn, beq_or_collide hm hn hfm hfn⟩

/-- Under a digest that is always the same any two nodes have one fingerprint, and unequal ones give
two streams that collide. -/
theorem fingerprint_names_constant :
    ∃ digest : List UInt8 → Fingerprint,
      (Node.set [.str "x", .invocation ⟨"only"⟩ [.nil]]).fingerprintBy digest =
        (Node.mapping [(.str "x", .int 1)]).fingerprintBy digest ∧
      ∃ s ∈ (Node.set [.str "x", .invocation ⟨"only"⟩ [.nil]]).streams digest,
        ∃ t ∈ (Node.mapping [(.str "x", .int 1)]).streams digest, s ≠ t ∧ digest s = digest t := by
  let digest : List UInt8 → Fingerprint := fun _ => ⟨List.replicate 32 0, rfl⟩
  have hset : (Node.set [.str "x", .invocation ⟨"only"⟩ [.nil]]).WellFormed := by
    simp only [WellFormed, AllWellFormed, and_true]
    unfold Distinct.Unequal
    decide
  have hmapping : (Node.mapping [(.str "x", .int 1)]).WellFormed := by
    simp only [WellFormed, PairsWellFormed, and_true]
    unfold Distinct.Unequal
    decide
  have hfits : (Node.set [.str "x", .invocation ⟨"only"⟩ [.nil]]).InvokesOnly Tag.Fits := by
    intro tag args h
    obtain ⟨rfl, -⟩ : tag = ⟨"only"⟩ ∧ args = [.nil] := by
      simpa [subnodes, listSubnodes] using h
    show (Text.utf8 "only").length < 2 ^ 64
    decide
  have hfits' : (Node.mapping [(.str "x", .int 1)]).InvokesOnly Tag.Fits := by
    intro tag args h
    simp [subnodes, pairsSubnodes] at h
  have hequal : (Node.set [.str "x", .invocation ⟨"only"⟩ [.nil]]).fingerprintBy digest =
      (Node.mapping [(.str "x", .int 1)]).fingerprintBy digest := rfl
  refine ⟨digest, hequal, ?_⟩
  exact ((fingerprint_names digest hset hmapping hfits hfits').2 hequal).resolve_left (by decide)

end Node

end VersionedTree
