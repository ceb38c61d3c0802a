import VersionedTree.Proofs.Collisions

/-!
# How far a transcript can be read back

The three shapes of entries share their bytes: a count is eight bytes, bytes of free length begin
with eight bytes, and a fingerprint may begin with any. Nothing on the stream says which shape comes
next, so a stream can be read back by someone who knows the shapes and by no one else. Two lists of
entries with one stream are the same up to a place where entries of different shapes stand, and any
two shapes can be mistaken for each other.

Transcripts of nodes are written for readers who know the shapes: the kind of a node says in which
order counts, bytes and fingerprints follow.

## What is proved

* `Entry.eq_of_append_eq` — after entries of one shape that read alike the streams go on alike.
* `Transcript.eq_or_partAt_of_flatMap_eq` — lists of entries with one stream are the same, or part
  at entries of different shapes.
* `Transcript.exists_mistaken` — entries of any two shapes may give one stream.
* `Transcript.stream_toldByShapes` — what the stream of a transcript tells.
* `Transcript.stream_not_injective` — it does not tell the entries.
-/

namespace VersionedTree

namespace Entry

/-- The three shapes of entries. -/
inductive Shape where
  /-- A length or count. -/
  | count
  /-- Bytes of free length. -/
  | bytes
  /-- The fingerprint of a part. -/
  | part
  deriving DecidableEq

/-- The shape of an entry. -/
def shape : Entry → Shape
  | .count _ => .count
  | .bytes _ => .bytes
  | .part _ => .part

/-- A count, or the length of bytes, fits in 64 bits. -/
def Fits : Entry → Prop
  | .count n => n < 2 ^ 64
  | .bytes content => content.length < 2 ^ 64
  | .part _ => True

instance (e : Entry) : Decidable e.Fits :=
  match e with
  | .count n => inferInstanceAs (Decidable (n < 2 ^ 64))
  | .bytes content => inferInstanceAs (Decidable (content.length < 2 ^ 64))
  | .part _ => .isTrue trivial

/-- Every entry writes something. -/
theorem stream_ne_nil (e : Entry) : e.stream ≠ [] := by
  intro hnil
  cases e with
  | count n => cases hnil
  | bytes content => cases hnil
  | part fingerprint =>
    have hlen := fingerprint.length_bytes
    rw [show fingerprint.bytes = [] from hnil] at hlen
    cases hlen

/-- After entries of one shape that read alike the streams go on alike. -/
theorem eq_of_append_eq {e f : Entry} {xs ys : List UInt8} (he : e.Fits) (hf : f.Fits)
    (hshape : e.shape = f.shape) (h : e.stream ++ xs = f.stream ++ ys) : e = f ∧ xs = ys := by
  cases e <;> cases f <;> try cases hshape
  case count.count m n =>
    obtain ⟨hcount, hrest⟩ := Transcript.eq_of_count_append_eq h
    exact ⟨congrArg _ (Text.eq_of_littleEndian_eq he hf hcount), hrest⟩
  case bytes.bytes bs cs =>
    obtain ⟨hbytes, hrest⟩ := Transcript.eq_of_bytes_append_eq he hf h
    exact ⟨congrArg _ hbytes, hrest⟩
  case part.part p q =>
    obtain ⟨hbytes, hrest⟩ := List.append_inj h (p.length_bytes.trans q.length_bytes.symm)
    exact ⟨congrArg _ (Fingerprint.ext hbytes), hrest⟩

end Entry

namespace Transcript

/-- Two lists of entries are the same up to a place where an entry of the one shape stands in the
left one and an entry of the other shape in the right one. -/
inductive PartAt (a b : Entry.Shape) : List Entry → List Entry → Prop where
  /-- They part at once. -/
  | here {e f : Entry} {es fs : List Entry} : e.shape = a → f.shape = b →
    PartAt a b (e :: es) (f :: fs)
  /-- They part after the same entry. -/
  | later (e : Entry) {es fs : List Entry} : PartAt a b es fs → PartAt a b (e :: es) (e :: fs)

variable {a b : Entry.Shape} {es fs : List Entry}

theorem PartAt.symm (h : PartAt a b es fs) : PartAt b a fs es := by
  induction h with
  | here he hf => exact .here hf he
  | later e _ ih => exact .later e ih

/-- Lists that part at different shapes do not have the same shapes. -/
theorem PartAt.map_shape_ne (h : PartAt a b es fs) (hab : a ≠ b) :
    es.map Entry.shape ≠ fs.map Entry.shape := by
  induction h with
  | here he hf =>
    intro hmap
    exact hab (he.symm.trans ((List.cons.inj hmap).1.trans hf))
  | later e _ ih => exact fun hmap => ih (List.cons.inj hmap).2

/-- Lists of entries with one stream are the same, or part at entries of different shapes. None of
them can end before the other, because every entry writes something. -/
theorem eq_or_partAt_of_flatMap_eq (hes : ∀ e ∈ es, e.Fits) (hfs : ∀ f ∈ fs, f.Fits)
    (h : es.flatMap Entry.stream = fs.flatMap Entry.stream) :
    es = fs ∨ ∃ a b, a ≠ b ∧ PartAt a b es fs := by
  induction es generalizing fs with
  | nil =>
    cases fs with
    | nil => exact .inl rfl
    | cons f fs =>
      rw [List.flatMap_nil, List.flatMap_cons, eq_comm, List.append_eq_nil_iff] at h
      exact absurd h.1 f.stream_ne_nil
  | cons e es ih =>
    cases fs with
    | nil =>
      rw [List.flatMap_nil, List.flatMap_cons, List.append_eq_nil_iff] at h
      exact absurd h.1 e.stream_ne_nil
    | cons f fs =>
      by_cases hshape : e.shape = f.shape
      · obtain ⟨he, hrest⟩ := List.forall_mem_cons.1 hes
        obtain ⟨hf, hrest'⟩ := List.forall_mem_cons.1 hfs
        obtain ⟨rfl, hstream⟩ := Entry.eq_of_append_eq he hf hshape h
        rcases ih hrest hrest' hstream with rfl | ⟨a, b, hab, hpart⟩
        · exact .inl rfl
        · exact .inr ⟨a, b, hab, .later e hpart⟩
      · exact .inr ⟨_, _, hshape, .here rfl rfl⟩

/-! ### Streams that can be read in two ways -/

/-- Lists of entries that fit may be mistaken for each other: they part at the two shapes, and their
streams are the same. -/
structure Mistaken (a b : Entry.Shape) (es fs : List Entry) : Prop where
  left : ∀ e ∈ es, e.Fits
  right : ∀ f ∈ fs, f.Fits
  partAt : PartAt a b es fs
  stream_eq : es.flatMap Entry.stream = fs.flatMap Entry.stream

theorem Mistaken.symm (h : Mistaken a b es fs) : Mistaken b a fs es :=
  ⟨h.right, h.left, h.partAt.symm, h.stream_eq.symm⟩

/-- The fingerprint that begins with the given byte, where all others are zero. -/
def leading (first : UInt8) : Fingerprint := ⟨first :: List.replicate 31 0, rfl⟩

/-- A count of zero is no bytes behind their length. -/
theorem mistaken_count_bytes : Mistaken .count .bytes [.count 0] [.bytes []] :=
  ⟨by decide, by decide, .here rfl rfl, rfl⟩

/-- Four counts are the bytes of a fingerprint. -/
theorem mistaken_count_part :
    Mistaken .count .part (List.replicate 4 (.count 0)) [.part (leading 0)] :=
  ⟨by decide, by decide, .here rfl rfl, by decide⟩

/-- Twenty-four bytes behind their length are the bytes of a fingerprint. -/
theorem mistaken_bytes_part :
    Mistaken .bytes .part [.bytes (List.replicate 24 0)] [.part (leading 24)] :=
  ⟨by decide, by decide, .here rfl rfl, by decide⟩

/-- Entries of any two shapes may be mistaken for each other. -/
theorem exists_mistaken (hab : a ≠ b) : ∃ es fs, Mistaken a b es fs := by
  cases a <;> cases b <;> try exact absurd rfl hab
  case count.bytes => exact ⟨_, _, mistaken_count_bytes⟩
  case count.part => exact ⟨_, _, mistaken_count_part⟩
  case bytes.part => exact ⟨_, _, mistaken_bytes_part⟩
  case bytes.count => exact ⟨_, _, mistaken_count_bytes.symm⟩
  case part.count => exact ⟨_, _, mistaken_count_part.symm⟩
  case part.bytes => exact ⟨_, _, mistaken_bytes_part.symm⟩

/-! ### What a stream tells -/

/-- The transcript of a value of a kind, after entries have been written one by one. -/
def written (kind : UInt8) (es : List Entry) : Transcript := es.foldl write (start kind)

theorem foldl_write (t : Transcript) (es : List Entry) :
    es.foldl write t = ⟨t.kind, t.entries ++ es⟩ := by
  induction es generalizing t with
  | nil => rw [List.foldl_nil, List.append_nil]
  | cons e es ih => rw [List.foldl_cons, ih, write, List.append_assoc, List.singleton_append]

/-- The byte for the kind comes first, and the entries follow in the order of writing. -/
theorem stream_written (kind : UInt8) (es : List Entry) :
    (written kind es).stream = kind :: es.flatMap Entry.stream := by
  rw [written, foldl_write]
  rfl

/-- The stream of a transcript tells the kind of the value, and the entries up to a place where
entries of different shapes stand. So it tells entries whose shapes are known. Where they are not
known it does not: any two shapes may be mistaken for each other, whatever the kind. -/
theorem stream_toldByShapes (kind kind' : UInt8) (es fs : List Entry) (hes : ∀ e ∈ es, e.Fits)
    (hfs : ∀ f ∈ fs, f.Fits) :
    ((written kind es).stream = (written kind' fs).stream →
      kind = kind' ∧ (es = fs ∨ ∃ a b, a ≠ b ∧ PartAt a b es fs)) ∧
    (es.map Entry.shape = fs.map Entry.shape →
      ((written kind es).stream = (written kind' fs).stream ↔ kind = kind' ∧ es = fs)) ∧
    ∀ a b, a ≠ b → ∃ es fs, (∀ e ∈ es, e.Fits) ∧ (∀ f ∈ fs, f.Fits) ∧ PartAt a b es fs ∧
      (written kind es).stream = (written kind fs).stream := by
  have htold : (written kind es).stream = (written kind' fs).stream →
      kind = kind' ∧ (es = fs ∨ ∃ a b, a ≠ b ∧ PartAt a b es fs) := by
    intro h
    rw [stream_written, stream_written, List.cons.injEq] at h
    exact ⟨h.1, eq_or_partAt_of_flatMap_eq hes hfs h.2⟩
  refine ⟨htold, fun hshapes => ⟨fun h => ?_, ?_⟩, fun a b hab => ?_⟩
  · obtain ⟨hkind, hentries⟩ := htold h
    refine ⟨hkind, hentries.resolve_right ?_⟩
    rintro ⟨a, b, hab, hpart⟩
    exact hpart.map_shape_ne hab hshapes
  · rintro ⟨rfl, rfl⟩
    rfl
  · obtain ⟨es, fs, hmistaken⟩ := exists_mistaken hab
    refine ⟨es, fs, hmistaken.left, hmistaken.right, hmistaken.partAt, ?_⟩
    rw [stream_written, stream_written, hmistaken.stream_eq]

/-- Two texts in a row are cut where they were written and not elsewhere, but no bytes behind their
length may be a count. -/
theorem stream_toldByShapes_texts :
    (written 0 [.bytes [97, 98], .bytes [99]]).stream ≠
        (written 0 [.bytes [97], .bytes [98, 99]]).stream ∧
    (∀ e ∈ [Entry.bytes []], e.Fits) ∧ (∀ f ∈ [Entry.count 0], f.Fits) ∧
    (written 0 [.bytes []]).stream = (written 0 [.count 0]).stream ∧
    ∃ a b, a ≠ b ∧ PartAt a b [.bytes []] [.count 0] := by
  have hleft : ∀ e ∈ [Entry.bytes []], e.Fits := by decide
  have hright : ∀ f ∈ [Entry.count 0], f.Fits := by decide
  have hstream : (written 0 [.bytes []]).stream = (written 0 [.count 0]).stream := rfl
  refine ⟨fun h => ?_, hleft, hright, hstream, ?_⟩
  · obtain ⟨-, htexts, -⟩ := stream_toldByShapes 0 0 [.bytes [97, 98], .bytes [99]]
      [.bytes [97], .bytes [98, 99]] (by decide) (by decide)
    exact absurd ((htexts rfl).1 h).2 (by decide)
  · obtain ⟨htold, -, -⟩ := stream_toldByShapes 0 0 _ _ hleft hright
    exact (htold hstream).2.resolve_left (by decide)

/-- The stream of a transcript does not tell its entries: no bytes of free length give the stream
of a count of zero. -/
theorem stream_not_injective :
    ¬∀ kind es fs, (∀ e ∈ es, Entry.Fits e) → (∀ f ∈ fs, Entry.Fits f) → es ≠ fs →
      (written kind es).stream ≠ (written kind fs).stream := by
  intro h
  exact h 0 [.count 0] [.bytes []] (by decide) (by decide) (by decide) rfl

end Transcript

end VersionedTree
