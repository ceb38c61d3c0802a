import Mathlib.Data.List.TakeWhile
import Mathlib.Tactic.SplitIfs
import VersionedTree.Json.Number
import VersionedTree.Json.Text

/-!
# Strings and numbers read back

Writing a string escapes what cannot stand in it, and reading undoes this, character by character.
Surrogates need no attention on the way back: no character is one. The digits of a number have no
leading zero, so the literal of an integer is one that reading accepts.

## What is proved

* `Json.unescape?_escape` — reading a string that was written gives the string.
* `Json.integer?_literal`, `Json.natural?_digits` — reading a number that was written gives the
  number.
* `Json.isNumber_literal` — the literal of an integer is the literal of a number.
-/

namespace VersionedTree.Json

/-! ### Strings -/

/-- The digits of an escaped control character stand for its code. -/
theorem hexQuad?_hexDigit {n : Nat} (h : n < 32) :
    hexQuad? '0' '0' (hexDigit (n / 16)) (hexDigit (n % 16)) = some n := by
  have key : ∀ m : Fin 32,
      hexQuad? '0' '0' (hexDigit (m.val / 16)) (hexDigit (m.val % 16)) = some m.val := by decide
  exact key ⟨n, h⟩

/-- A character that stands for itself is read as itself. -/
theorem codes?_cons {c : Char} (h : c ≠ '\\') (hc : ¬c.toNat < 0x20) (rest : List Char) :
    codes? (c :: rest) = (codes? rest).map (c.toNat :: ·) := by
  rw [codes?.eq_4 c rest (fun _ _ _ _ _ hslash => absurd hslash h)
      (fun _ _ hslash => absurd hslash h), if_neg (not_or.2 ⟨h, hc⟩)]
  cases codes? rest <;> rfl

/-- A one-letter escape is read as the code that it stands for. -/
theorem codes?_shortEscape {letter : Char} {code : Nat} (hu : letter ≠ 'u')
    (h : shortEscape? letter = some code) (rest : List Char) :
    codes? ('\\' :: letter :: rest) = (codes? rest).map (code :: ·) := by
  rw [codes?.eq_3 letter rest (fun _ _ _ _ _ hletter => absurd hletter hu), h]
  cases codes? rest <;> rfl

/-- A character that was written is read as its code. -/
theorem codes?_escapeChar_append (c : Char) (rest : List Char) :
    codes? (escapeChar c ++ rest) = (codes? rest).map (c.toNat :: ·) := by
  unfold escapeChar
  split_ifs with hquote hslash hbackspace htab hnewline hfeed hreturn hcontrol
  · rw [hquote]
    exact codes?_shortEscape (by decide) rfl rest
  · rw [hslash]
    exact codes?_shortEscape (by decide) rfl rest
  · rw [hbackspace]
    exact codes?_shortEscape (by decide) rfl rest
  · rw [htab]
    exact codes?_shortEscape (by decide) rfl rest
  · rw [hnewline]
    exact codes?_shortEscape (by decide) rfl rest
  · rw [hfeed]
    exact codes?_shortEscape (by decide) rfl rest
  · rw [hreturn]
    exact codes?_shortEscape (by decide) rfl rest
  · show codes? ('\\' :: 'u' :: '0' :: '0' :: _ :: _ :: rest) = _
    rw [codes?, hexQuad?_hexDigit hcontrol]
    cases codes? rest <;> rfl
  · exact codes?_cons hslash hcontrol rest

/-- A string that was written is read as the codes of its characters. -/
theorem codes?_escape (s : String) : codes? (escape s) = some (s.toList.map Char.toNat) := by
  rw [escape]
  induction s.toList with
  | nil => rfl
  | cons c cs ih =>
    rw [List.flatMap_cons, codes?_escapeChar_append, ih, Option.map_some, List.map_cons]

/-- No character is half of a surrogate pair. -/
theorem not_surrogate (c : Char) :
    isHighSurrogate c.toNat = false ∧ isLowSurrogate c.toNat = false := by
  have hvalid : c.toNat < 0xd800 ∨ 0xdfff < c.toNat ∧ c.toNat < 0x110000 := c.valid
  simp only [isHighSurrogate, isLowSurrogate, Bool.and_eq_false_iff, decide_eq_false_iff_not]
  omega

/-- The codes of characters stand for these characters. -/
theorem joinSurrogates?_map_toNat (cs : List Char) :
    joinSurrogates? (cs.map Char.toNat) = some cs := by
  induction cs with
  | nil => rfl
  | cons c cs ih =>
    obtain ⟨hhigh, hlow⟩ := not_surrogate c
    cases cs with
    | nil => simp [joinSurrogates?, hhigh, hlow, Char.ofNat_toNat]
    | cons d ds =>
      rw [List.map_cons] at ih
      rw [List.map_cons, List.map_cons, joinSurrogates?, hhigh, hlow, ih]
      simp [Char.ofNat_toNat]

/-- Reading a string that was written gives the string. -/
theorem unescape?_escape (s : String) : unescape? (escape s) = some s := by
  rw [unescape?, codes?_escape, Option.bind_eq_bind, Option.bind_some, joinSurrogates?_map_toNat]
  exact congrArg some String.ofList_toList

/-! ### Numbers -/

theorem isDigit_of_mem_digits {n : Nat} {c : Char} (h : c ∈ digits n) : c.isDigit = true :=
  Nat.isDigit_of_mem_toDigits (by decide) (by decide) h

/-- A digit needs no escape. -/
theorem escapeChar_of_isDigit {c : Char} (h : c.isDigit = true) : escapeChar c = [c] := by
  have hrange : 48 ≤ c.toNat ∧ c.toNat ≤ 57 := Char.isDigit_iff_toNat.1 h
  have hne : ∀ d : Char, ¬(48 ≤ d.toNat ∧ d.toNat ≤ 57) → c ≠ d := by
    rintro d hd rfl
    exact hd hrange
  rw [escapeChar, if_neg (hne _ (by decide)), if_neg (hne _ (by decide)),
    if_neg (hne _ (by decide)), if_neg (hne _ (by decide)), if_neg (hne _ (by decide)),
    if_neg (hne _ (by decide)), if_neg (hne _ (by decide)), if_neg (by omega)]

/-- The digits of a number are a string that is written without escapes. -/
theorem escape_digits (n : Nat) : escape (String.ofList (digits n)) = digits n := by
  have hplain : ∀ cs : List Char, (∀ c ∈ cs, c.isDigit = true) → cs.flatMap escapeChar = cs := by
    intro cs h
    induction cs with
    | nil => rfl
    | cons c cs ih =>
      obtain ⟨hc, hcs⟩ := List.forall_mem_cons.1 h
      rw [List.flatMap_cons, escapeChar_of_isDigit hc, ih hcs, List.singleton_append]
  rw [escape, String.toList_ofList]
  exact hplain (digits n) fun c hc => isDigit_of_mem_digits hc

theorem allDigits_digits (n : Nat) : allDigits (digits n) = true := by
  rw [allDigits, Bool.and_eq_true, Bool.not_eq_true', List.isEmpty_eq_false_iff, List.all_eq_true]
  exact ⟨Nat.toDigits_ne_nil, fun c hc => isDigit_of_mem_digits hc⟩

/-- Digits do not begin with a sign. -/
theorem digits_eq_cons (n : Nat) : ∃ c cs, digits n = c :: cs ∧ c ≠ '-' := by
  cases h : digits n with
  | nil => exact absurd h Nat.toDigits_ne_nil
  | cons c cs =>
    refine ⟨c, cs, rfl, ?_⟩
    rintro rfl
    have hdigit := isDigit_of_mem_digits (h ▸ List.mem_cons_self .. : '-' ∈ digits n)
    exact absurd hdigit (by decide)

/-- Only the number zero has a leading zero. -/
theorem head?_digits {n : Nat} (h : 0 < n) : (digits n).head? ≠ some '0' := by
  induction n using Nat.strongRecOn with
  | _ n ih =>
    rw [digits]
    by_cases hn : n < 10
    · have key : ∀ m : Fin 10, 0 < m.val → m.val.digitChar ≠ '0' := by decide
      rw [Nat.toDigits_of_lt_base hn, List.head?_cons]
      exact fun hzero => key ⟨n, hn⟩ h (Option.some.inj hzero)
    · obtain ⟨c, cs, hcons, -⟩ := digits_eq_cons (n / 10)
      have hhead := ih (n / 10) (by omega) (by omega)
      rw [digits] at hcons hhead
      rw [Nat.toDigits_of_base_le (by decide) (by omega), hcons]
      rwa [hcons] at hhead

theorem isPlain_digits (n : Nat) : isPlain (digits n) = true := by
  rw [isPlain, allDigits_digits, Bool.true_and, Bool.or_eq_true]
  rcases Nat.eq_zero_or_pos n with rfl | h
  · exact .inr rfl
  · exact .inl (bne_iff_ne.2 (head?_digits h))

theorem ofDigits_digits (n : Nat) : ofDigits (digits n) = n := Nat.ofDigitChars_ten_toDigits

/-- Reading a natural number that was written gives the number. -/
theorem natural?_digits {bound n : Nat} (h : n < bound) : natural? bound (digits n) = some n := by
  rw [natural?, isPlain_digits, ofDigits_digits, Bool.true_and, if_pos (decide_eq_true h)]

/-- Reading an integer that was written gives the integer. -/
theorem integer?_literal (i : Int) : integer? (literal i) = some i := by
  rw [literal]
  split_ifs with h
  · have hne : i.natAbs ≠ 0 := by omega
    rw [integer?, isPlain_digits, ofDigits_digits, Bool.true_and, if_pos (bne_iff_ne.2 hne)]
    congr 1
    omega
  · obtain ⟨c, cs, hcons, hc⟩ := digits_eq_cons i.natAbs
    have hunsigned : integer? (digits i.natAbs) = some (ofDigits (digits i.natAbs) : Int) := by
      rw [hcons, integer?.eq_2 _ fun rest hminus => hc (List.cons.inj hminus).1, ← hcons,
        if_pos (isPlain_digits _)]
    rw [hunsigned, ofDigits_digits]
    congr 1
    omega

theorem isUnsigned_digits (n : Nat) : isUnsigned (digits n) = true := by
  have hall : ∀ c ∈ digits n, Char.isDigit c = true := fun _ hc => isDigit_of_mem_digits hc
  rw [isUnsigned, List.takeWhile_eq_self_iff.2 hall, List.dropWhile_eq_nil_iff.2 hall,
    isPlain_digits]
  rfl

/-- The literal of an integer is the literal of a number. -/
theorem isNumber_literal (i : Int) : isNumber (literal i) = true := by
  rw [literal]
  split_ifs
  · exact isUnsigned_digits i.natAbs
  · obtain ⟨c, cs, hcons, hc⟩ := digits_eq_cons i.natAbs
    rw [hcons, isNumber.eq_2 _ fun rest hminus => hc (List.cons.inj hminus).1, ← hcons]
    exact isUnsigned_digits i.natAbs

end VersionedTree.Json
