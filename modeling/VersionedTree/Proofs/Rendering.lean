import VersionedTree.Json.Reader
import VersionedTree.Proofs.Literals

/-!
# Reading what was written

A value is written as the texts of its tokens, one after the other and without blanks. Only a word
could run into what follows it, and after a value there is always a bracket or a comma or the end of
the text, so the same tokens are found again. The stack of the reader then grows and shrinks with
the arrays and objects of the value.

## What is proved

* `Json.Written.lex_tokens` — the tokens of a value are found in its text.
* `Json.Written.run_tokens` — the reader is done with a value at the end of its tokens.
* `Json.Written.read_render` — reading the text of a value gives the value.
* `Json.Written.textNesting_render` — the brackets of the text are nested as deeply as the value.
-/

namespace VersionedTree.Json

/-- A value as it is written: without a fault, its numbers integers, and its strings and names with
those escapes only that they need. -/
inductive Written : Json → Prop where
  /-- The literal `null`. -/
  | null : Written .null
  /-- A truth value. -/
  | bool (value : Bool) : Written (.bool value)
  /-- An integer. -/
  | number (i : Int) : Written (.number (literal i))
  /-- A string. -/
  | string (s : String) : Written (.string (escape s))
  /-- An array of such values. -/
  | array {items : List Json} : (∀ v ∈ items, Written v) → Written (.array items)
  /-- An object of such values. -/
  | object {fields : List (List Char × Json)} : (∀ f ∈ fields, ∃ name, f.1 = escape name) →
    (∀ f ∈ fields, Written f.2) → Written (.object fields)

/-! ### From characters to tokens -/

/-- Nothing follows, or a character that ends a word. -/
def Ends (cs : List Char) : Prop := ∀ c ∈ cs.head?, endsWord c = true

theorem ends_nil : Ends [] := by simp [Ends]

theorem ends_cons {c : Char} {cs : List Char} (h : endsWord c = true) : Ends (c :: cs) := by
  simpa [Ends] using h

theorem lex_word_append {seen cs : List Char} (h : ∀ c ∈ cs, endsWord c = false)
    (rest : List Char) : lex (.word seen) (cs ++ rest) = lex (.word (cs.reverse ++ seen)) rest := by
  induction cs generalizing seen with
  | nil => rfl
  | cons c cs ih =>
    obtain ⟨hc, hcs⟩ := List.forall_mem_cons.1 h
    rw [List.cons_append, lex, stepChar, hc, if_neg Bool.false_ne_true, List.reverse_cons,
      List.append_assoc]
    exact ih hcs

/-- A word is a token where it ends. -/
theorem lex_word_of_ends {seen rest : List Char} (h : Ends rest) :
    lex (.word seen) rest = wordToken seen.reverse :: lex .gap rest := by
  cases rest with
  | nil => rfl
  | cons c rest =>
    rw [lex, stepChar, if_pos (h c rfl)]
    rfl

/-- Characters that end no word are one token up to where they end. -/
theorem lex_gap_word {cs rest : List Char} (hne : cs ≠ []) (hcs : ∀ c ∈ cs, endsWord c = false)
    (hrest : Ends rest) : lex .gap (cs ++ rest) = wordToken cs :: lex .gap rest := by
  obtain ⟨c, cs, rfl⟩ := List.exists_cons_of_ne_nil hne
  obtain ⟨hc, hcs⟩ := List.forall_mem_cons.1 hcs
  simp only [endsWord, Bool.or_eq_false_iff, beq_eq_false_iff_ne, Option.isSome_eq_false_iff,
    Option.isNone_iff_eq_none] at hc
  have hstart : startToken c = ([], .word [c]) := by
    rw [startToken, hc.1.1, if_neg Bool.false_ne_true, if_neg hc.1.2, hc.2]
  rw [List.cons_append, lex, stepChar, hstart, List.nil_append, lex_word_append hcs,
    lex_word_of_ends hrest]
  simp

/-- Inside a string a character other than the quote and the backslash goes on with the string. -/
theorem lex_string_cons {c : Char} (hquote : c ≠ '"') (hslash : c ≠ '\\') (seen rest : List Char) :
    lex (.string seen false) (c :: rest) = lex (.string (c :: seen) false) rest := by
  rw [lex, stepChar, if_neg hquote, List.nil_append, decide_eq_false hslash]

/-- Inside a string a character that was written goes on with the string. -/
theorem lex_string_escapeChar (seen : List Char) (c : Char) (rest : List Char) :
    lex (.string seen false) (escapeChar c ++ rest) =
      lex (.string ((escapeChar c).reverse ++ seen) false) rest := by
  have hdigit : ∀ m : Fin 16, hexDigit m.val ≠ '"' ∧ hexDigit m.val ≠ '\\' := by decide
  unfold escapeChar
  split_ifs with hquote hslash hbackspace htab hnewline hfeed hreturn hcontrol
  · rfl
  · rfl
  · rfl
  · rfl
  · rfl
  · rfl
  · rfl
  · obtain ⟨hquote', hslash'⟩ := hdigit ⟨c.toNat / 16, by omega⟩
    obtain ⟨hquote'', hslash''⟩ := hdigit ⟨c.toNat % 16, by omega⟩
    show lex (.string ('0' :: '0' :: 'u' :: '\\' :: seen) false)
      (hexDigit _ :: hexDigit _ :: rest) = _
    rw [lex_string_cons hquote' hslash', lex_string_cons hquote'' hslash'']
    rfl
  · exact lex_string_cons hquote hslash seen rest

/-- A string that was written ends at its closing quote. -/
theorem lex_string_escape (s : String) (rest : List Char) :
    lex .gap ('"' :: escape s ++ '"' :: rest) = .string (escape s) :: lex .gap rest := by
  have hchars : ∀ (cs seen : List Char),
      lex (.string seen false) (cs.flatMap escapeChar ++ '"' :: rest) =
        stringToken (seen.reverse ++ cs.flatMap escapeChar) :: lex .gap rest := by
    intro cs
    induction cs with
    | nil =>
      intro seen
      simp [lex, stepChar]
    | cons c cs ih =>
      intro seen
      rw [List.flatMap_cons, List.append_assoc, lex_string_escapeChar, ih]
      simp
  have htoken : stringToken (escape s) = .string (escape s) := by
    rw [stringToken, codes?_escape]
  have hstring := hchars s.toList []
  rw [List.reverse_nil, List.nil_append] at hstring
  rw [← htoken]
  exact hstring

/-- A punctuation character is a token by itself. -/
theorem lex_punctuation {t : Token} {c : Char} (htext : t.text = [c])
    (h : startToken c = ([t], .gap)) (rest : List Char) :
    lex .gap (t.text ++ rest) = t :: lex .gap rest := by
  rw [htext, List.singleton_append, lex, stepChar, h]
  rfl

/-- The characters of a value are read as its tokens, where nothing runs into it. -/
def LexesBack (v : Json) : Prop :=
  ∀ rest, Ends rest → lex .gap (v.tokens.flatMap Token.text ++ rest) = v.tokens ++ lex .gap rest

theorem ends_itemTokens (items : List Json) (rest : List Char) :
    Ends ((itemTokens items).flatMap Token.text ++ (Token.arrayClose.text ++ rest)) := by
  cases items <;> exact ends_cons rfl

theorem ends_fieldTokens (fields : List (List Char × Json)) (rest : List Char) :
    Ends ((fieldTokens fields).flatMap Token.text ++ (Token.objectClose.text ++ rest)) := by
  cases fields with
  | nil => exact ends_cons rfl
  | cons f fields => exact ends_cons rfl

theorem lex_itemTokens {items : List Json} (h : ∀ v ∈ items, v.LexesBack) (rest : List Char) :
    lex .gap ((itemTokens items).flatMap Token.text ++ (Token.arrayClose.text ++ rest)) =
      itemTokens items ++ .arrayClose :: lex .gap rest := by
  induction items with
  | nil => exact lex_punctuation rfl rfl rest
  | cons v items ih =>
    obtain ⟨hv, hitems⟩ := List.forall_mem_cons.1 h
    simp only [itemTokens, List.cons_append, List.flatMap_cons, List.flatMap_append,
      List.append_assoc]
    rw [lex_punctuation rfl rfl, hv _ (ends_itemTokens items rest), ih hitems]

/-- The name of a field, and the colon after it. -/
theorem lex_name (name : String) (rest : List Char) :
    lex .gap ((Token.string (escape name)).text ++ (Token.colon.text ++ rest)) =
      .string (escape name) :: .colon :: lex .gap rest := by
  have hname := lex_string_escape name (Token.colon.text ++ rest)
  rw [lex_punctuation rfl rfl] at hname
  rw [← hname]
  simp only [Token.text, List.cons_append, List.append_assoc, List.nil_append]

theorem lex_fieldTokens {fields : List (List Char × Json)}
    (hnames : ∀ f ∈ fields, ∃ name, f.1 = escape name) (h : ∀ f ∈ fields, f.2.LexesBack)
    (rest : List Char) :
    lex .gap ((fieldTokens fields).flatMap Token.text ++ (Token.objectClose.text ++ rest)) =
      fieldTokens fields ++ .objectClose :: lex .gap rest := by
  induction fields with
  | nil => exact lex_punctuation rfl rfl rest
  | cons f fields ih =>
    obtain ⟨raw, v⟩ := f
    obtain ⟨hv, hfields⟩ := List.forall_mem_cons.1 h
    obtain ⟨⟨name, rfl⟩, hnames'⟩ := List.forall_mem_cons.1 hnames
    simp only [fieldTokens, List.cons_append, List.flatMap_cons, List.flatMap_append,
      List.append_assoc]
    rw [lex_punctuation rfl rfl, lex_name, hv _ (ends_fieldTokens fields rest), ih hnames' hfields]

theorem endsWord_of_isDigit {c : Char} (h : c.isDigit = true) : endsWord c = false := by
  have key : ∀ d : Fin 10, endsWord (Char.ofNat (48 + d.val)) = false := by decide
  have hrange : 48 ≤ c.toNat ∧ c.toNat ≤ 57 := Char.isDigit_iff_toNat.1 h
  have hc := key ⟨c.toNat - 48, by omega⟩
  rwa [show 48 + (c.toNat - 48) = c.toNat by omega, Char.ofNat_toNat] at hc

/-- A literal holds no character that ends a word. -/
theorem endsWord_of_mem_literal {i : Int} {c : Char} (h : c ∈ literal i) : endsWord c = false := by
  rw [literal] at h
  split_ifs at h
  · rcases List.mem_cons.1 h with rfl | h
    · decide
    · exact endsWord_of_isDigit (isDigit_of_mem_digits h)
  · exact endsWord_of_isDigit (isDigit_of_mem_digits h)

/-- The literal of an integer is the token of a number. -/
theorem wordToken_literal (i : Int) : wordToken (literal i) = .number (literal i) := by
  have hnumber := isNumber_literal i
  have hne : ∀ {cs}, isNumber cs = false → literal i ≠ cs := by
    rintro cs hcs rfl
    exact Bool.false_ne_true (hcs.symm.trans hnumber)
  rw [wordToken, if_neg (hne (by decide)), if_neg (hne (by decide)), if_neg (hne (by decide)),
    if_pos hnumber]

/-- A value that is written as one word is read as that word. -/
theorem lexesBack_word {v : Json} {t : Token} (htokens : v.tokens = [t]) (hne : t.text ≠ [])
    (hends : t.text.any endsWord = false) (hword : wordToken t.text = t) : LexesBack v := by
  intro rest hrest
  have hchars : ∀ c ∈ t.text, endsWord c = false := fun c hc =>
    Bool.eq_false_iff.2 (List.any_eq_false.1 hends c hc)
  rw [htokens, List.flatMap_singleton, lex_gap_word hne hchars hrest, hword]
  rfl

theorem lexesBack_number (i : Int) : LexesBack (.number (literal i)) := by
  refine lexesBack_word rfl ?_ ?_ (wordToken_literal i)
  · intro hnil
    exact Bool.false_ne_true (hnil ▸ isNumber_literal i : isNumber [] = true)
  · exact List.any_eq_false.2 fun c hc => Bool.eq_false_iff.1 (endsWord_of_mem_literal hc)

/-- The tokens of a value are found in its text. -/
theorem Written.lex_tokens {v : Json} (h : v.Written) : v.LexesBack := by
  induction h with
  | null => exact lexesBack_word rfl (by decide) (by decide) rfl
  | bool value =>
    cases value
    · exact lexesBack_word rfl (by decide) (by decide) rfl
    · exact lexesBack_word rfl (by decide) (by decide) rfl
  | number i => exact lexesBack_number i
  | string s =>
    intro rest _
    rw [tokens, List.flatMap_singleton, Token.text, List.append_assoc]
    exact lex_string_escape s rest
  | @array items _ ih =>
    intro rest _
    cases items with
    | nil => rfl
    | cons v items =>
      obtain ⟨hv, hitems⟩ := List.forall_mem_cons.1 ih
      simp only [tokens, List.cons_append, List.flatMap_cons, List.flatMap_append,
        List.append_assoc, List.flatMap_nil, List.nil_append]
      rw [lex_punctuation rfl rfl, hv _ (ends_itemTokens items rest), lex_itemTokens hitems]
  | @object fields hnames _ ih =>
    intro rest _
    cases fields with
    | nil => rfl
    | cons f fields =>
      obtain ⟨raw, v⟩ := f
      obtain ⟨hv, hfields⟩ := List.forall_mem_cons.1 ih
      obtain ⟨⟨name, rfl⟩, hnames'⟩ := List.forall_mem_cons.1 hnames
      simp only [tokens, List.cons_append, List.flatMap_cons, List.flatMap_append,
        List.append_assoc, List.flatMap_nil, List.nil_append]
      rw [lex_punctuation rfl rfl, lex_name, hv _ (ends_fieldTokens fields rest),
        lex_fieldTokens hnames' hfields]

/-- The text of a value is read as its tokens. -/
theorem Written.lex_render {v : Json} (h : v.Written) : lex .gap v.render.toList = v.tokens := by
  have hlex := h.lex_tokens [] ends_nil
  rw [List.append_nil, show lex .gap [] = [] from rfl, List.append_nil] at hlex
  rw [render, String.toList_ofList, hlex]

/-! ### From tokens to values -/

theorem run_cons {state next : State} {t : Token} (h : stepToken state t = some next)
    (rest : List Token) : run state (t :: rest) = run next rest := by
  rw [run, h]

/-- The reader is done with a value at the end of its tokens, whatever is still open around it. -/
def RunsBack (v : Json) : Prop :=
  ∀ stack rest, run (.value stack) (v.tokens ++ rest) = run (.after v stack) rest

/-- The first item of an array begins like any value. -/
theorem run_firstItem {v : Json} (hv : v.Written) (stack : List Frame) (rest : List Token) :
    run (.firstItem stack) (v.tokens ++ rest) =
      run (.value (.array [] :: stack)) (v.tokens ++ rest) := by
  cases hv with
  | @array items _ => cases items <;> rfl
  | @object fields _ _ => cases fields <;> rfl
  | _ => rfl

theorem run_itemTokens {items : List Json} (h : ∀ v ∈ items, v.RunsBack) (v : Json)
    (before : List Json) (stack : List Frame) (rest : List Token) :
    run (.after v (.array before :: stack)) (itemTokens items ++ .arrayClose :: rest) =
      run (.after (.array (before.reverse ++ v :: items)) stack) rest := by
  induction items generalizing v before with
  | nil => exact run_cons rfl rest
  | cons w items ih =>
    obtain ⟨hw, hitems⟩ := List.forall_mem_cons.1 h
    rw [itemTokens, List.cons_append, List.cons_append, run_cons rfl, List.append_assoc, hw,
      ih hitems, List.reverse_cons, List.append_assoc, List.singleton_append]

theorem run_fieldTokens {fields : List (List Char × Json)} (h : ∀ f ∈ fields, f.2.RunsBack)
    (name : List Char) (v : Json) (before : List (List Char × Json)) (stack : List Frame)
    (rest : List Token) :
    run (.after v (.object before name :: stack)) (fieldTokens fields ++ .objectClose :: rest) =
      run (.after (.object (before.reverse ++ (name, v) :: fields)) stack) rest := by
  induction fields generalizing name v before with
  | nil => exact run_cons rfl rest
  | cons f fields ih =>
    obtain ⟨name', w⟩ := f
    obtain ⟨hw, hfields⟩ := List.forall_mem_cons.1 h
    simp only [fieldTokens, List.cons_append, List.append_assoc]
    rw [run_cons rfl, run_cons rfl, run_cons rfl, hw, ih hfields, List.reverse_cons,
      List.append_assoc, List.singleton_append]

/-- The reader is done with a value at the end of its tokens. -/
theorem Written.run_tokens {v : Json} (h : v.Written) : v.RunsBack := by
  induction h with
  | null => exact fun stack rest => run_cons rfl rest
  | bool value => exact fun stack rest => run_cons rfl rest
  | number i => exact fun stack rest => run_cons rfl rest
  | string s => exact fun stack rest => run_cons rfl rest
  | @array items hwritten ih =>
    intro stack rest
    cases items with
    | nil => rfl
    | cons v items =>
      obtain ⟨hv, hitems⟩ := List.forall_mem_cons.1 ih
      simp only [tokens, List.cons_append, List.append_assoc, List.nil_append]
      rw [run_cons rfl, run_firstItem (hwritten v (List.mem_cons_self ..)), hv,
        run_itemTokens hitems]
      rfl
  | @object fields _ _ ih =>
    intro stack rest
    cases fields with
    | nil => rfl
    | cons f fields =>
      obtain ⟨name, v⟩ := f
      obtain ⟨hv, hfields⟩ := List.forall_mem_cons.1 ih
      simp only [tokens, List.cons_append, List.append_assoc, List.nil_append]
      rw [run_cons rfl, run_cons rfl, run_cons rfl, hv, run_fieldTokens hfields]
      rfl

/-- Reading the text of a value gives the value. -/
theorem Written.read_render {v : Json} (h : v.Written) : read v.render = ⟨v, true⟩ := by
  have hrun := h.run_tokens [] []
  rw [List.append_nil] at hrun
  rw [read, h.lex_render, hrun]
  rfl

/-! ### The brackets of a text -/

/-- The number of open brackets after a token. -/
def Token.levelAfter (level : Nat) : Token → Nat
  | .arrayOpen | .objectOpen => level + 1
  | .arrayClose | .objectClose => level - 1
  | _ => level

/-- The greatest number of brackets that are open at a time. -/
def openBrackets : Nat → List Token → Nat
  | level, [] => level
  | level, t :: rest => max level (openBrackets (t.levelAfter level) rest)

/-- The greatest number of brackets that are open at a time in a text. -/
def textNesting (text : String) : Nat := openBrackets 0 (lex .gap text.toList)

theorem le_openBrackets (level : Nat) (ts : List Token) : level ≤ openBrackets level ts := by
  cases ts with
  | nil => exact Nat.le_refl level
  | cons t rest => exact Nat.le_max_left ..

/-- A token that is no bracket opens none. -/
theorem openBrackets_cons {level : Nat} {t : Token} (h : t.levelAfter level = level)
    (rest : List Token) : openBrackets level (t :: rest) = openBrackets level rest := by
  rw [openBrackets, h]
  exact Nat.max_eq_right (le_openBrackets level rest)

/-- The tokens of a value open as many brackets as the value is nested, and close them again. -/
def Balanced (v : Json) : Prop :=
  ∀ level rest, openBrackets level (v.tokens ++ rest) =
    max (level + v.nesting) (openBrackets level rest)

theorem openBrackets_itemTokens {items : List Json} (h : ∀ v ∈ items, v.Balanced) (level : Nat)
    (rest : List Token) :
    openBrackets level (itemTokens items ++ rest) =
      max (level + itemsNesting items) (openBrackets level rest) := by
  induction items with
  | nil => exact (Nat.max_eq_right (le_openBrackets level rest)).symm
  | cons v items ih =>
    obtain ⟨hv, hitems⟩ := List.forall_mem_cons.1 h
    rw [itemTokens, List.cons_append, List.cons_append, openBrackets_cons rfl, List.append_assoc,
      hv, ih hitems, itemsNesting]
    omega

theorem openBrackets_fieldTokens {fields : List (List Char × Json)}
    (h : ∀ f ∈ fields, f.2.Balanced) (level : Nat) (rest : List Token) :
    openBrackets level (fieldTokens fields ++ rest) =
      max (level + fieldsNesting fields) (openBrackets level rest) := by
  induction fields with
  | nil => exact (Nat.max_eq_right (le_openBrackets level rest)).symm
  | cons f fields ih =>
    obtain ⟨name, v⟩ := f
    obtain ⟨(hv : v.Balanced), hfields⟩ := List.forall_mem_cons.1 h
    simp only [fieldTokens, List.cons_append, List.append_assoc]
    rw [openBrackets_cons rfl, openBrackets_cons rfl, openBrackets_cons rfl, hv, ih hfields,
      fieldsNesting]
    omega

/-- The tokens between two brackets, and the brackets. -/
theorem openBrackets_between {first last : Token} (hfirst : ∀ l, first.levelAfter l = l + 1)
    (hlast : ∀ l, last.levelAfter l = l - 1) {ts : List Token} {depth : Nat}
    (h : ∀ level rest, openBrackets level (ts ++ rest) =
      max (level + depth) (openBrackets level rest)) (level : Nat) (rest : List Token) :
    openBrackets level (first :: (ts ++ last :: rest)) =
      max (level + (depth + 1)) (openBrackets level rest) := by
  have hle := le_openBrackets level rest
  rw [openBrackets, hfirst, h, openBrackets, hlast, Nat.add_sub_cancel]
  omega

/-- The brackets of a value are balanced. -/
theorem Written.balanced {v : Json} (h : v.Written) : v.Balanced := by
  have hleaf : ∀ {t : Token} (level : Nat) (rest : List Token), t.levelAfter level = level →
      openBrackets level ([t] ++ rest) = max (level + 0) (openBrackets level rest) := by
    intro t level rest ht
    rw [List.singleton_append, openBrackets, ht, Nat.add_zero]
  induction h with
  | null => exact fun level rest => hleaf level rest rfl
  | bool value => exact fun level rest => hleaf level rest rfl
  | number i => exact fun level rest => hleaf level rest rfl
  | string s => exact fun level rest => hleaf level rest rfl
  | @array items _ ih =>
    intro level rest
    cases items with
    | nil =>
      exact openBrackets_between (fun _ => rfl) (fun _ => rfl)
        (openBrackets_itemTokens (List.forall_mem_nil _)) level rest
    | cons v items =>
      obtain ⟨hv, hitems⟩ := List.forall_mem_cons.1 ih
      have hall : ∀ level rest, openBrackets level (v.tokens ++ itemTokens items ++ rest) =
          max (level + itemsNesting (v :: items)) (openBrackets level rest) := by
        intro level rest
        rw [List.append_assoc, hv, openBrackets_itemTokens hitems, itemsNesting]
        omega
      rw [tokens, List.cons_append, List.append_assoc]
      exact openBrackets_between (fun _ => rfl) (fun _ => rfl) hall level rest
  | @object fields _ _ ih =>
    intro level rest
    cases fields with
    | nil =>
      exact openBrackets_between (fun _ => rfl) (fun _ => rfl)
        (openBrackets_fieldTokens (List.forall_mem_nil _)) level rest
    | cons f fields =>
      obtain ⟨name, v⟩ := f
      obtain ⟨(hv : v.Balanced), hfields⟩ := List.forall_mem_cons.1 ih
      have hall : ∀ level rest, openBrackets level
          (.string name :: .colon :: (v.tokens ++ fieldTokens fields) ++ rest) =
            max (level + fieldsNesting ((name, v) :: fields)) (openBrackets level rest) := by
        intro level rest
        rw [List.cons_append, List.cons_append, openBrackets_cons rfl, openBrackets_cons rfl,
          List.append_assoc, hv, openBrackets_fieldTokens hfields, fieldsNesting]
        omega
      rw [tokens, List.cons_append, List.append_assoc]
      exact openBrackets_between (fun _ => rfl) (fun _ => rfl) hall level rest

/-- The brackets of the text of a value are nested as deeply as the value. -/
theorem Written.textNesting_render {v : Json} (h : v.Written) :
    textNesting v.render = v.nesting := by
  have hbalanced := h.balanced 0 []
  rw [List.append_nil] at hbalanced
  rw [textNesting, h.lex_render, hbalanced]
  simp [openBrackets]

end VersionedTree.Json
