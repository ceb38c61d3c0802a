import VersionedTree.Digest.Fingerprint
import VersionedTree.Proofs.Outcome

/-!
# Fingerprints in hexadecimal

A fingerprint is written with 64 digits, in lower case, and read back from them. Letters of either
case are read, so a text that is read as a fingerprint is its written form up to case. What is read
are the UTF-8 bytes of a text, and a text can be at fault in three ways at once: it has an odd
number of bytes, some of them are no digits, and there are not 64 of them. The faults are looked
for in this order.

## The model

`Fingerprint.Reads` says by the bytes of a text what reading it gives, with one rule for each of the
faults and one for a fingerprint. A digit is told by the range in which it lies, the first fault by
what stands before it, and the case of the text that is read is changed by `String.toLower`.

## What is proved

* `Text.utf8_ofList_map_letter` and `Text.toList_eq_of_ascii` — characters below 128 are their
  bytes.
* `Hex.exists_decodePairs_eq_ok` and `Hex.decodePairs_of_firstFault` — what pairs of digits are read
  as, and where reading stops.
* `Fingerprint.ofText_eq_iff` — what reading gives, for every text.
* `Fingerprint.ofText_faithful` — together with what is written.
-/

namespace VersionedTree

/-! ### Bytes and characters -/

namespace Text

/-- The bytes of a text are those that it is stored as. -/
theorem toByteArray_utf8 (s : String) : (utf8 s).toByteArray = s.toByteArray :=
  String.utf8Encode_toList

theorem length_utf8 (s : String) : (utf8 s).length = s.utf8ByteSize := by
  rw [← String.size_toByteArray, ← toByteArray_utf8, List.size_toByteArray]

/-- The characters change case one by one. -/
theorem toList_toLower (s : String) : s.toLower.toList = s.toList.map Char.toLower :=
  String.toList_map

/-- A byte as a character. -/
def letter (b : UInt8) : Char := Char.ofNat b.toNat

/-- Every byte of a character beyond 127 is itself beyond 127; here it is the last one. -/
theorem mem_utf8EncodeChar_of_lt {c : Char} (h : 127 < c.toNat) :
    UInt8.ofNat (c.toNat % 64 + 128) ∈ String.utf8EncodeChar c := by
  show _ ∈ ite (c.toNat ≤ 127) _ _
  rw [if_neg (Nat.not_le_of_lt h)]
  split
  · simp
  · split <;> simp

theorem toNat_le_of_ascii {c : Char} (h : ∀ b ∈ String.utf8EncodeChar c, b < 128) :
    c.toNat ≤ 127 := by
  refine Nat.le_of_not_lt fun hlt => ?_
  have hlast := UInt8.lt_iff_toNat_lt.1 (h _ (mem_utf8EncodeChar_of_lt hlt))
  have h128 : (128 : UInt8).toNat = 128 := rfl
  rw [UInt8.toNat_ofNat', h128] at hlast
  omega

theorem utf8EncodeChar_of_le {c : Char} (h : c.toNat ≤ 127) :
    String.utf8EncodeChar c = [UInt8.ofNat c.toNat] := if_pos h

theorem letter_ofNat {c : Char} (h : c.toNat ≤ 127) : letter (UInt8.ofNat c.toNat) = c := by
  rw [letter, UInt8.toNat_ofNat', Nat.mod_eq_of_lt (by omega), Char.ofNat_toNat]

/-- A text of bytes below 128 has them as characters. -/
theorem toList_eq_of_ascii {s : String} (h : ∀ b ∈ utf8 s, b < 128) :
    s.toList = (utf8 s).map letter := by
  unfold utf8 at h ⊢
  generalize s.toList = chars at h ⊢
  induction chars with
  | nil => rfl
  | cons c rest ih =>
    rw [List.flatMap_cons, List.forall_mem_append] at h
    have hc := toNat_le_of_ascii h.1
    rw [List.flatMap_cons, utf8EncodeChar_of_le hc, List.singleton_append, List.map_cons,
      letter_ofNat hc, ← ih h.2]

/-- Characters below 128 have a byte each. -/
theorem utf8_ofList_map_letter {bytes : List UInt8} (h : ∀ b ∈ bytes, b < 128) :
    utf8 (String.ofList (bytes.map letter)) = bytes := by
  rw [utf8, String.toList_ofList]
  induction bytes with
  | nil => rfl
  | cons b rest ih =>
    obtain ⟨hb, hrest⟩ := List.forall_mem_cons.1 h
    have hlt : b.toNat < 128 := UInt8.lt_iff_toNat_lt.1 hb
    have hletter : (letter b).toNat = b.toNat := by
      rw [letter, Char.ofNat, dif_pos (.inl (by omega))]
      rfl
    rw [List.map_cons, List.flatMap_cons, utf8EncodeChar_of_le (by omega), hletter, ih hrest,
      UInt8.ofNat_toNat, List.singleton_append]

end Text

/-! ### Digits -/

namespace Hex

/-- The byte is a digit, of either case. -/
def IsDigit (b : UInt8) : Prop :=
  '0'.toUInt8 ≤ b ∧ b ≤ '9'.toUInt8 ∨ 'a'.toUInt8 ≤ b ∧ b ≤ 'f'.toUInt8 ∨
    'A'.toUInt8 ≤ b ∧ b ≤ 'F'.toUInt8

instance (b : UInt8) : Decidable (IsDigit b) := inferInstanceAs (Decidable (_ ∨ _ ∨ _))

/-- Only the bytes of the list are looked at, and not all bytes there are. -/
instance (bytes : List UInt8) : Decidable (∀ b ∈ bytes, IsDigit b) :=
  List.decidableBAll IsDigit bytes

/-- The character is a digit as it is written. -/
def IsLowerDigit (c : Char) : Prop := '0' ≤ c ∧ c ≤ '9' ∨ 'a' ≤ c ∧ c ≤ 'f'

instance (c : Char) : Decidable (IsLowerDigit c) := inferInstanceAs (Decidable (_ ∨ _))

/-- The first byte that is no digit stands at the position. -/
def FirstFault (bytes : List UInt8) (b : UInt8) (position : Nat) : Prop :=
  ∃ before after, bytes = before ++ b :: after ∧ before.length = position ∧
    (∀ c ∈ before, IsDigit c) ∧ ¬IsDigit b

variable {a b : UInt8} {bytes : List UInt8} {k position : Nat}

theorem IsDigit.lt (h : IsDigit b) : b < 128 := by
  rcases h with ⟨-, h⟩ | ⟨-, h⟩ | ⟨-, h⟩ <;> exact UInt8.lt_of_le_of_lt h (by decide)

theorem digit_spec {n : Nat} (h : n < 16) :
    digit n < 128 ∧ IsLowerDigit (Text.letter (digit n)) := by
  have key : ∀ m : Fin 16, digit m.val < 128 ∧ IsLowerDigit (Text.letter (digit m.val)) := by decide
  exact key ⟨n, h⟩

/-- A digit has a value below sixteen, and what is written for the value is the digit in lower
case. -/
theorem exists_digitValue? (h : IsDigit b) : ∃ n, digitValue? b = some n ∧ n < 16 ∧
    Text.letter (digit n) = (Text.letter b).toLower := by
  have key : ∀ m : Fin 256, IsDigit (.ofFin m) → ∃ n : Fin 16,
      digitValue? (.ofFin m) = some n.val ∧
        Text.letter (digit n.val) = (Text.letter (.ofFin m)).toLower := by decide +kernel
  obtain ⟨n, hvalue, hletter⟩ := key b.toFin h
  exact ⟨n, hvalue, n.isLt, hletter⟩

/-- No other byte has a value. -/
theorem digitValue?_eq_none (h : ¬IsDigit b) : digitValue? b = none := by
  have key : ∀ m : Fin 256, ¬IsDigit (.ofFin m) → digitValue? (.ofFin m) = none := by
    decide +kernel
  exact key b.toFin h

theorem digitAt_of_not_isDigit (h : ¬IsDigit b) (position : Nat) :
    digitAt b position = .error (.invalidDigit b position) := by
  rw [digitAt, digitValue?_eq_none h]

theorem exists_digitAt (h : IsDigit b) (position : Nat) : ∃ n, digitAt b position = .ok n ∧
    n < 16 ∧ Text.letter (digit n) = (Text.letter b).toLower := by
  obtain ⟨n, hvalue, hn⟩ := exists_digitValue? h
  exact ⟨n, by rw [digitAt, hvalue], hn⟩

theorem firstFault_cons_of_not (h : ¬IsDigit a) :
    FirstFault (a :: bytes) b position ↔ b = a ∧ position = 0 := by
  constructor
  · rintro ⟨before, after, hbytes, rfl, hbefore, -⟩
    cases before with
    | nil => exact ⟨(List.cons.inj hbytes).1.symm, rfl⟩
    | cons c before =>
      obtain rfl := (List.cons.inj hbytes).1
      exact absurd (hbefore a (List.mem_cons_self ..)) h
  · rintro ⟨rfl, rfl⟩
    exact ⟨[], bytes, rfl, rfl, nofun, h⟩

theorem firstFault_cons_of_isDigit (h : IsDigit a) :
    FirstFault (a :: bytes) b position ↔ ∃ k, position = k + 1 ∧ FirstFault bytes b k := by
  constructor
  · rintro ⟨before, after, hbytes, rfl, hbefore, hb⟩
    cases before with
    | nil =>
      obtain rfl := (List.cons.inj hbytes).1
      exact absurd h hb
    | cons c before =>
      exact ⟨before.length, rfl, before, after, (List.cons.inj hbytes).2, rfl,
        (List.forall_mem_cons.1 hbefore).2, hb⟩
  · rintro ⟨k, rfl, before, after, rfl, rfl, hbefore, hb⟩
    exact ⟨a :: before, after, rfl, rfl, List.forall_mem_cons.2 ⟨h, hbefore⟩, hb⟩

theorem FirstFault.not_all (h : FirstFault bytes b position) : ¬∀ c ∈ bytes, IsDigit c := by
  obtain ⟨before, after, rfl, -, -, hb⟩ := h
  exact fun hall => hb (hall b (by simp))

/-- Where not all bytes are digits, one of them is the first fault. -/
theorem exists_firstFault (h : ¬∀ c ∈ bytes, IsDigit c) : ∃ b position,
    FirstFault bytes b position := by
  induction bytes with
  | nil => exact absurd nofun h
  | cons a bytes ih =>
    by_cases ha : IsDigit a
    · obtain ⟨b, k, hfault⟩ := ih fun hall => h (List.forall_mem_cons.2 ⟨ha, hall⟩)
      exact ⟨b, k + 1, (firstFault_cons_of_isDigit ha).2 ⟨k, rfl, hfault⟩⟩
    · exact ⟨a, 0, (firstFault_cons_of_not ha).2 ⟨rfl, rfl⟩⟩

/-! ### Pairs of digits -/

/-- The digits of the byte that two digits are read as are these digits in lower case. -/
theorem digits_ofNat {high low : Nat} (hhigh : high < 16) (hlow : low < 16) :
    digits (UInt8.ofNat (16 * high + low)) = [digit high, digit low] := by
  rw [digits, UInt8.toNat_ofNat', Nat.mod_eq_of_lt (by omega), show (16 * high + low) / 16 = high by
    omega, show (16 * high + low) % 16 = low by omega]

/-- An even number of digits is read as half as many bytes, which are written as the digits in lower
case. -/
theorem exists_decodePairs_eq_ok (heven : bytes.length % 2 = 0) (h : ∀ b ∈ bytes, IsDigit b)
    (position : Nat) : ∃ out, decodePairs bytes position = .ok out ∧
      2 * out.length = bytes.length ∧
      (out.flatMap digits).map Text.letter = bytes.map fun b => (Text.letter b).toLower := by
  fun_induction decodePairs bytes position with
  | case1 high low rest position ih =>
    obtain ⟨hhigh, h⟩ := List.forall_mem_cons.1 h
    obtain ⟨hlow, hrest⟩ := List.forall_mem_cons.1 h
    obtain ⟨m, hm, hm16, hmletter⟩ := exists_digitAt hhigh position
    obtain ⟨n, hn, hn16, hnletter⟩ := exists_digitAt hlow (position + 1)
    rw [List.length_cons, List.length_cons] at heven
    obtain ⟨out, hout, hlength, hletters⟩ := ih (by omega) hrest
    refine ⟨UInt8.ofNat (16 * m + n) :: out, by rw [hm, hn, hout]; rfl, ?_, ?_⟩
    · rw [List.length_cons, List.length_cons, List.length_cons]
      omega
    · rw [List.flatMap_cons, digits_ofNat hm16 hn16, List.map_append, hletters]
      simp only [List.map_cons, List.map_nil, List.cons_append, List.nil_append, hmletter,
        hnletter]
  | case2 b position => cases heven
  | case3 position => exact ⟨[], rfl, rfl, rfl⟩

/-- Reading stops at the first byte that is no digit. -/
theorem decodePairs_of_firstFault (heven : bytes.length % 2 = 0) (h : FirstFault bytes b k)
    (position : Nat) : decodePairs bytes position = .error (.invalidDigit b (position + k)) := by
  fun_induction decodePairs bytes position generalizing k with
  | case1 high low rest position ih =>
    by_cases hhigh : IsDigit high
    · obtain ⟨m, hm, -⟩ := exists_digitAt hhigh position
      obtain ⟨j, rfl, hj⟩ := (firstFault_cons_of_isDigit hhigh).1 h
      by_cases hlow : IsDigit low
      · obtain ⟨n, hn, -⟩ := exists_digitAt hlow (position + 1)
        obtain ⟨i, rfl, hi⟩ := (firstFault_cons_of_isDigit hlow).1 hj
        rw [List.length_cons, List.length_cons] at heven
        rw [hm, hn, ih (by omega) hi, show position + 2 + i = position + (i + 1 + 1) by omega]
        rfl
      · obtain ⟨rfl, rfl⟩ := (firstFault_cons_of_not hlow).1 hj
        rw [hm, digitAt_of_not_isDigit hlow]
        rfl
    · obtain ⟨rfl, rfl⟩ := (firstFault_cons_of_not hhigh).1 h
      rw [digitAt_of_not_isDigit hhigh]
      rfl
  | case2 b position => cases heven
  | case3 position => exact absurd (nofun : ∀ c ∈ [], IsDigit c) h.not_all

/-! ### What is written -/

theorem exists_of_mem_digits (h : b ∈ bytes.flatMap digits) : ∃ n < 16, b = digit n := by
  obtain ⟨c, -, hb⟩ := List.mem_flatMap.1 h
  have hc : c.toNat < 256 := c.toNat_lt
  rcases List.mem_cons.1 hb with rfl | hb
  · exact ⟨c.toNat / 16, by omega, rfl⟩
  · exact ⟨c.toNat % 16, by omega, List.mem_singleton.1 hb⟩

theorem toList_encode (bytes : List UInt8) :
    (encode bytes).toList = (bytes.flatMap digits).map Text.letter := String.toList_ofList

/-- The bytes of the written form are its digits. -/
theorem utf8_encode (bytes : List UInt8) : Text.utf8 (encode bytes) = bytes.flatMap digits := by
  refine Text.utf8_ofList_map_letter fun b hb => ?_
  obtain ⟨n, hn, rfl⟩ := exists_of_mem_digits hb
  exact (digit_spec hn).1

theorem isLowerDigit_of_mem_encode {c : Char} (h : c ∈ (encode bytes).toList) :
    IsLowerDigit c := by
  rw [toList_encode] at h
  obtain ⟨b, hb, rfl⟩ := List.mem_map.1 h
  obtain ⟨n, hn, rfl⟩ := exists_of_mem_digits hb
  exact (digit_spec hn).2

theorem decode_encode (bytes : List UInt8) : decode (encode bytes) = .ok bytes := by
  rw [decode, utf8_encode, decodeBytes_digits]

end Hex

/-! ### Fingerprints -/

namespace Fingerprint

variable {f g : Fingerprint} {s : String}

theorem ofBytes_bytes (f : Fingerprint) : ofBytes f.bytes = .ok f := dif_pos f.length_bytes

theorem ofText_text (f : Fingerprint) : ofText f.text = .ok f := by
  rw [ofText, text, Hex.decode_encode]
  exact f.ofBytes_bytes

theorem length_text (f : Fingerprint) : f.text.length = 64 := by
  rw [text, ← String.length_toList, Hex.toList_encode, List.length_map, Hex.length_flatMap_digits,
    f.length_bytes]

/-- A fingerprint is told by its text. -/
theorem eq_of_text_eq (h : f.text = g.text) : f = g := by
  have hf := ofText_text f
  rw [h, ofText_text] at hf
  exact (Except.ok.inj hf).symm

/-- What reading a text as a fingerprint gives. The number of bytes is looked at for being odd, then
the bytes are looked at one by one, and then their number is looked at again. -/
inductive Reads (s : String) : Except FingerprintError Fingerprint → Prop where
  /-- There is an odd number of bytes. -/
  | odd : s.utf8ByteSize % 2 = 1 → Reads s (.error (.invalidHex .oddLength))
  /-- Some byte is no digit, and the first one is told. -/
  | fault {b : UInt8} {position : Nat} : s.utf8ByteSize % 2 = 0 →
    Hex.FirstFault (Text.utf8 s) b position →
    Reads s (.error (.invalidHex (.invalidDigit b position)))
  /-- There are only digits, but not 64. -/
  | length : s.utf8ByteSize % 2 = 0 → (∀ b ∈ Text.utf8 s, Hex.IsDigit b) → s.utf8ByteSize ≠ 64 →
    Reads s (.error (.invalidLength (s.utf8ByteSize / 2)))
  /-- There are 64 digits, and the fingerprint is written with them in lower case. -/
  | fingerprint {f : Fingerprint} : s.utf8ByteSize = 64 → (∀ b ∈ Text.utf8 s, Hex.IsDigit b) →
    f.text = s.toLower → Reads s (.ok f)

theorem ofText_of_odd (h : s.utf8ByteSize % 2 = 1) :
    ofText s = .error (.invalidHex .oddLength) := by
  rw [ofText, Hex.decode, Hex.decodeBytes, if_pos (by rwa [Text.length_utf8])]

theorem ofText_of_firstFault {b : UInt8} {position : Nat} (heven : s.utf8ByteSize % 2 = 0)
    (h : Hex.FirstFault (Text.utf8 s) b position) :
    ofText s = .error (.invalidHex (.invalidDigit b position)) := by
  rw [← Text.length_utf8] at heven
  rw [ofText, Hex.decode, Hex.decodeBytes, if_neg (by omega),
    Hex.decodePairs_of_firstFault heven h, Nat.zero_add]

/-- An even number of digits is counted at last. -/
theorem exists_ofText_eq_ofBytes (heven : s.utf8ByteSize % 2 = 0)
    (h : ∀ b ∈ Text.utf8 s, Hex.IsDigit b) : ∃ bytes, ofText s = ofBytes bytes ∧
      2 * bytes.length = s.utf8ByteSize ∧ Hex.encode bytes = s.toLower := by
  rw [← Text.length_utf8] at heven
  obtain ⟨bytes, hbytes, hlength, hletters⟩ := Hex.exists_decodePairs_eq_ok heven h 0
  refine ⟨bytes, ?_, by rw [hlength, Text.length_utf8], ?_⟩
  · rw [ofText, Hex.decode, Hex.decodeBytes, if_neg (by omega), hbytes]
  · rw [← String.toList_inj, Hex.toList_encode, hletters, Text.toList_toLower,
      Text.toList_eq_of_ascii fun b hb => (h b hb).lt, List.map_map]
    rfl

/-- What reading gives is what the rules say. -/
theorem ofText_of_reads {x : Except FingerprintError Fingerprint} (h : Reads s x) :
    ofText s = x := by
  cases h with
  | odd h => exact ofText_of_odd h
  | fault heven h => exact ofText_of_firstFault heven h
  | length heven h hne =>
    obtain ⟨bytes, htext, hlength, -⟩ := exists_ofText_eq_ofBytes heven h
    rw [htext, ofBytes, dif_neg (by omega), show s.utf8ByteSize / 2 = bytes.length by omega]
  | @fingerprint f hsize h hlower =>
    obtain ⟨bytes, htext, hlength, hencode⟩ := exists_ofText_eq_ofBytes (by omega) h
    have hbytes : bytes.length = 32 := by omega
    have hf : ⟨bytes, hbytes⟩ = f := eq_of_text_eq (hencode.trans hlower.symm)
    rw [htext, ofBytes, dif_pos hbytes, hf]

/-- One of the rules applies. -/
theorem exists_reads (s : String) : ∃ x, Reads s x := by
  rcases Nat.mod_two_eq_zero_or_one s.utf8ByteSize with heven | hodd
  · by_cases h : ∀ b ∈ Text.utf8 s, Hex.IsDigit b
    · by_cases hsize : s.utf8ByteSize = 64
      · obtain ⟨bytes, -, hlength, hencode⟩ := exists_ofText_eq_ofBytes heven h
        exact ⟨.ok ⟨bytes, by omega⟩, .fingerprint hsize h hencode⟩
      · exact ⟨_, .length heven h hsize⟩
    · obtain ⟨b, position, hfault⟩ := Hex.exists_firstFault h
      exact ⟨_, .fault heven hfault⟩
  · exact ⟨_, .odd hodd⟩

theorem ofText_eq_iff {x : Except FingerprintError Fingerprint} : ofText s = x ↔ Reads s x := by
  refine ⟨?_, ofText_of_reads⟩
  rintro rfl
  obtain ⟨x, hx⟩ := exists_reads s
  rwa [ofText_of_reads hx]

theorem exists_ofText_eq_ok_iff : (∃ f, ofText s = .ok f) ↔
    s.utf8ByteSize = 64 ∧ ∀ b ∈ Text.utf8 s, Hex.IsDigit b := by
  constructor
  · rintro ⟨f, hf⟩
    cases ofText_eq_iff.1 hf with
    | fingerprint hsize h _ => exact ⟨hsize, h⟩
  · rintro ⟨hsize, h⟩
    obtain ⟨bytes, -, hlength, hencode⟩ := exists_ofText_eq_ofBytes (by omega) h
    exact ⟨⟨bytes, by omega⟩, ofText_eq_iff.2 (.fingerprint hsize h hencode)⟩

/-- A fingerprint is written with 64 digits in lower case and read back from them. A text is read as
a fingerprint when it has 64 bytes and all of them are digits, of either case, and then it is the
written form up to case. Every other text is refused for the first of its faults. -/
theorem ofText_faithful :
    (∀ f : Fingerprint, ofText f.text = .ok f ∧ f.text.length = 64 ∧
      ∀ c ∈ f.text.toList, Hex.IsLowerDigit c) ∧
    (∀ s, (∃ f, ofText s = .ok f) ↔ s.utf8ByteSize = 64 ∧ ∀ b ∈ Text.utf8 s, Hex.IsDigit b) ∧
    ∀ s x, ofText s = x ↔ Reads s x :=
  ⟨fun f => ⟨ofText_text f, length_text f, fun _ hc => Hex.isLowerDigit_of_mem_encode hc⟩,
    fun _ => exists_ofText_eq_ok_iff, fun _ _ => ofText_eq_iff⟩

/-- The first text has all three faults, the second has two, and the third has too few digits. In
the last one the case of letters is mixed. -/
theorem ofText_faithful_mixed :
    ofText "0é" = .error (.invalidHex .oddLength) ∧
      ofText "0é!" = .error (.invalidHex (.invalidDigit 0xC3 1)) ∧
      ofText "0aF1" = .error (.invalidLength 2) ∧
      ∃ f, ofText "0123456789abcdefABCDEF0123456789abcdefABCDEF0123456789abcdefABCD" = .ok f ∧
        f.text = "0123456789abcdefabcdef0123456789abcdefabcdef0123456789abcdefabcd" := by
  obtain ⟨-, hdigits, hreads⟩ := ofText_faithful
  refine ⟨?_, ?_, ?_, ?_⟩
  · exact (hreads _ _).2 (.odd (by decide))
  · exact (hreads _ _).2 (.fault (by decide) ⟨[48], [0xA9, 33], by decide, rfl, by decide,
      by decide⟩)
  · exact (hreads _ _).2 (.length (by decide) (by decide) (by decide))
  · obtain ⟨f, hf⟩ := (hdigits
      "0123456789abcdefABCDEF0123456789abcdefABCDEF0123456789abcdefABCD").2 (by decide)
    refine ⟨f, hf, ?_⟩
    cases (hreads _ _).1 hf with
    | fingerprint _ _ htext =>
      rw [htext, ← String.toList_inj, Text.toList_toLower]
      decide

end Fingerprint

end VersionedTree
