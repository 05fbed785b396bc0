import GambitCore.Codec.Json
import Mathlib.Data.List.Forall2

/-!
# JSON values

Values of JSON and the text a serialiser prints for them: no white space, strings with the escapes
that are needed and otherwise as they are. What is printed for a value of UTF-8 strings and
numerals is again a JSON value.

A text of an object that is cut anywhere before its last brace is no value at all, since its
brackets close at the end and not before.

## Main definitions

* `Json.Value`, `Json.Value.dump` — values and their text
* `Json.IsUtf8`, `Json.Value.WellFormed` — what a parser can have made
* `Json.IsObjectText` — the text of an object up to its last brace

## Main results

* `Json.Value.WellFormed.lex_dump` — the text of a value is that of a value
* `Json.IsObjectText.not_value_of_cut` — no text that has lost its end is a value
-/

namespace Codec.Json

/-! ### Values and their text -/

/-- A value. A number is kept as the text it is printed with. -/
inductive Value
  | null
  | boolean (b : Bool)
  | number (text : List UInt8)
  | string (s : List UInt8)
  | array (items : List Value)
  | object (members : List (List UInt8 × Value))

/-- One byte of a string, escaped where it has to be. -/
def escapeByte (c : UInt8) : List UInt8 :=
  if c = 8 then [92, 98]
  else if c = 9 then [92, 116]
  else if c = 10 then [92, 110]
  else if c = 12 then [92, 102]
  else if c = 13 then [92, 114]
  else if c = 34 then [92, 34]
  else if c = 92 then [92, 92]
  else if c < 32 then [92, 117, 48, 48, 48 + c / 16] ++ hexText (c.toNat % 16)
  else [c]

/-- What stands between the quotation marks of a string. -/
def escape (s : List UInt8) : List UInt8 := s.flatMap escapeByte

mutual

/-- The text of a value. -/
def Value.dump : Value → List UInt8
  | .null => [110, 117, 108, 108]
  | .boolean true => [116, 114, 117, 101]
  | .boolean false => [102, 97, 108, 115, 101]
  | .number text => text
  | .string s => 34 :: escape s ++ [34]
  | .array items => 91 :: [44].intercalate (dumpItems items) ++ [93]
  | .object members => 123 :: [44].intercalate (dumpMembers members) ++ [125]
termination_by structural v => v

/-- The texts of the items of an array. -/
def dumpItems : List Value → List (List UInt8)
  | [] => []
  | v :: vs => v.dump :: dumpItems vs
termination_by structural vs => vs

/-- The text of a member of an object. -/
def dumpMember : List UInt8 × Value → List UInt8
  | (key, v) => 34 :: escape key ++ 34 :: 58 :: v.dump
termination_by structural m => m

/-- The texts of the members of an object. -/
def dumpMembers : List (List UInt8 × Value) → List (List UInt8)
  | [] => []
  | m :: ms => dumpMember m :: dumpMembers ms
termination_by structural ms => ms

end

theorem dumpItems_eq (vs : List Value) : dumpItems vs = vs.map Value.dump := by
  induction vs with
  | nil => rfl
  | cons v vs ih => rw [dumpItems, ih, List.map_cons]

theorem dumpMembers_eq (ms : List (List UInt8 × Value)) : dumpMembers ms = ms.map dumpMember := by
  induction ms with
  | nil => rfl
  | cons m ms ih => rw [dumpMembers, ih, List.map_cons]

/-! ### Well-formed values -/

/-- One byte of a UTF-8 text. -/
def utf8Next : StrState → UInt8 → Option StrState
  | .plain, c => if c < 128 then some .plain else utf8Lead c
  | .utf8 lo hi n, c => (StrState.utf8 lo hi n).next c
  | _, _ => none

/-- The text is UTF-8. -/
def IsUtf8 (s : List UInt8) : Prop := s.foldlM utf8Next .plain = some .plain

instance (s : List UInt8) : Decidable (IsUtf8 s) :=
  inferInstanceAs (Decidable (s.foldlM utf8Next .plain = some .plain))

/-- The strings are UTF-8 and the numbers are spelled as such. -/
inductive Value.WellFormed : Value → Prop
  | null : WellFormed .null
  | boolean (b : Bool) : WellFormed (.boolean b)
  | number {text : List UInt8} (h : isNumeral text) : WellFormed (.number text)
  | string {s : List UInt8} (h : IsUtf8 s) : WellFormed (.string s)
  | array {items : List Value} (h : ∀ v ∈ items, WellFormed v) : WellFormed (.array items)
  | object {members : List (List UInt8 × Value)} (hkeys : ∀ m ∈ members, IsUtf8 m.1)
      (h : ∀ m ∈ members, WellFormed m.2) : WellFormed (.object members)

/-- A byte below 128 is a character, whatever it is escaped to. -/
theorem scan_escapeByte_of_lt {c : UInt8} (h : c < 128) :
    scan .plain (escapeByte c) = some .plain := by
  have hall : ∀ c : UInt8, c < 128 → scan .plain (escapeByte c) = some .plain :=
    forall_byte (by decide +kernel)
  exact hall c h

theorem escapeByte_of_le {c : UInt8} (h : 128 ≤ c) : escapeByte c = [c] := by
  have hall : ∀ c : UInt8, 128 ≤ c → escapeByte c = [c] := forall_byte (by decide +kernel)
  exact hall c h

/-- Inside a multi-byte character there are only bytes from 128 on. -/
theorem le_of_next_utf8 {lo hi c : UInt8} {n : ℕ} {st : StrState}
    (h : (StrState.utf8 lo hi n).next c = some st) : 128 ≤ c := by
  simp only [StrState.next] at h
  split at h
  · next hc => exact hc.1
  · cases h

theorem scan_escapeByte {st st' : StrState} {c : UInt8} (h : utf8Next st c = some st') :
    scan st (escapeByte c) = some st' := by
  cases st with
  | plain =>
    rw [utf8Next] at h
    split at h
    · next hlt =>
      obtain rfl := Option.some.inj h
      exact scan_escapeByte_of_lt hlt
    · next hge =>
      have hle : 128 ≤ c := UInt8.not_lt.mp hge
      have hnext : StrState.plain.next c = utf8Lead c := by
        have hall : ∀ c : UInt8, 128 ≤ c → StrState.plain.next c = utf8Lead c :=
          forall_byte (by decide +kernel)
        exact hall c hle
      rw [escapeByte_of_le hle, scan_cons, hnext, h]
      rfl
  | utf8 lo hi n =>
    rw [utf8Next] at h
    rw [escapeByte_of_le (le_of_next_utf8 h), scan_cons, h]
    rfl
  | escape => cases h
  | hex n => cases h

/-- An escaped UTF-8 text may stand inside a literal. -/
theorem isStringBody_escape {s : List UInt8} (h : IsUtf8 s) : IsStringBody (escape s) := by
  have hscan : ∀ {s : List UInt8} {st st' : StrState}, s.foldlM utf8Next st = some st' →
      scan st (escape s) = some st' := by
    intro s
    induction s with
    | nil =>
      intro st st' h
      exact h
    | cons c s ih =>
      intro st st' h
      rw [List.foldlM_cons] at h
      obtain ⟨st₁, hnext, hrest⟩ := Option.bind_eq_some_iff.mp h
      rw [escape, List.flatMap_cons, scan_append, scan_escapeByte hnext]
      exact ih hrest
  exact hscan h

/-! ### Reading the text of a value -/

/-- A text behind one that ends outside of all tokens. -/
theorem lex_append_of_run {text : List UInt8} {tokens : List Token}
    (h : lexer.run .outside text = (.outside, tokens)) {rest : List UInt8} {more : List Token}
    (hrest : lex rest = some more) : lex (text ++ rest) = some (tokens ++ more) := by
  have happend : lexer.run .outside (text ++ rest) =
      ((lexer.run .outside rest).1, tokens ++ (lexer.run .outside rest).2) := by
    rw [Machine.run_append, h]
  unfold lex at hrest ⊢
  rw [happend]
  split at hrest
  · next ts hrun =>
    rw [hrun, Option.some.inj hrest]
  · next w ts hrun =>
    rw [hrun]
    dsimp only
    split at hrest
    · next hword => rw [if_pos hword, ← Option.some.inj hrest, List.append_assoc]
    · cases hrest
  · cases hrest

/-- Texts with commas between them, and punctuation behind. -/
theorem run_intercalate {texts : List (List UInt8)} {tokens : List (List Token)}
    (h : List.Forall₂ (fun text ts => lex text = some ts) texts tokens) {c : UInt8} {t : Token}
    (hc : punctuation c = some t) (rest : List UInt8) :
    lexer.run .outside ([44].intercalate texts ++ c :: rest) =
      ((lexer.run .outside rest).1,
        [Token.comma].intercalate tokens ++ t :: (lexer.run .outside rest).2) := by
  induction h with
  | nil => exact run_punctuation hc rest
  | @cons text ts texts tokens hfirst hothers ih =>
    cases hothers with
    | nil => simpa using run_lex hfirst hc rest
    | cons hnext hlater =>
      have hcomma : punctuation 44 = some .comma := rfl
      rw [List.intercalate_cons_cons, List.intercalate_cons_cons, List.append_assoc,
        List.append_assoc, List.singleton_append, run_lex hfirst hcomma, ih]
      simp

theorem lex_dumpMember {key : List UInt8} (hkey : IsUtf8 key) {v : Value} {ts : List Token}
    (h : lex v.dump = some ts) :
    lex (dumpMember (key, v)) = some (.string (escape key) :: .colon :: ts) := by
  have hhead : lexer.run .outside (34 :: escape key ++ 34 :: [58]) =
      (.outside, [.string (escape key), .colon]) := by
    rw [run_string (isStringBody_escape hkey)]
    rfl
  have htext : dumpMember (key, v) = (34 :: escape key ++ 34 :: [58]) ++ v.dump := by
    simp [dumpMember]
  rw [htext, lex_append_of_run hhead h]
  rfl

/-- The tokens of a bare word. -/
theorem lex_word {text : List UInt8} (hbare : ∀ c ∈ text, isDelimiter c = false)
    (hword : isWord text) : lex text = some [.word text] := by
  cases text with
  | nil => cases hword
  | cons c cs =>
    rw [List.forall_mem_cons] at hbare
    have hfirst : step .outside c = (.inWord [c], []) := start_of_bare hbare.1
    have hrun : lexer.run .outside (c :: cs) = (.inWord (c :: cs), []) := by
      rw [run_cons, hfirst, run_inWord_of_bare hbare.2]
      rfl
    rw [lex, hrun]
    exact if_pos hword

/-! ### The bytes of a numeral -/

/-- The bytes of numbers: digits, signs, the point and the letter of an exponent. -/
def isNumeralByte (c : UInt8) : Bool :=
  isDigit 10 c || c == 43 || c == 45 || c == 46 || c == 101 || c == 69

theorem isDelimiter_of_isNumeralByte {c : UInt8} (h : isNumeralByte c) : isDelimiter c = false := by
  have hall : ∀ c : UInt8, isNumeralByte c → isDelimiter c = false :=
    forall_byte (by decide +kernel)
  exact hall c h

theorem isNumeralByte_of_isDigit {c : UInt8} (h : isDigit 10 c) : isNumeralByte c := by
  simp [isNumeralByte, h]

theorem isNumeralByte_of_isExponent {cs : List UInt8} (h : isExponent cs) :
    ∀ c ∈ cs, isNumeralByte c := by
  cases cs with
  | nil => simp
  | cons e cs =>
    simp only [isExponent, Bool.and_eq_true, Bool.or_eq_true, beq_iff_eq, List.all_eq_true] at h
    obtain ⟨⟨he, -⟩, hdigits⟩ := h
    rw [List.forall_mem_cons]
    refine ⟨by rcases he with rfl | rfl <;> decide, ?_⟩
    split at hdigits
    · next hsign =>
      cases cs with
      | nil => simp
      | cons s cs =>
        rw [List.forall_mem_cons]
        refine ⟨?_, fun c hc => isNumeralByte_of_isDigit (hdigits c hc)⟩
        have hs : s = 43 ∨ s = 45 := by simpa using hsign
        rcases hs with rfl | rfl <;> decide
    · exact fun c hc => isNumeralByte_of_isDigit (hdigits c hc)

/-- Digits, and then what is known to consist of such bytes. -/
theorem isNumeralByte_of_dropWhile {cs : List UInt8}
    (h : ∀ c ∈ cs.dropWhile (isDigit 10), isNumeralByte c) : ∀ c ∈ cs, isNumeralByte c := by
  intro c hc
  rw [← List.takeWhile_append_dropWhile (p := isDigit 10) (l := cs)] at hc
  rcases List.mem_append.mp hc with hdigit | hrest
  · exact isNumeralByte_of_isDigit (List.mem_takeWhile_imp hdigit)
  · exact h c hrest

theorem isNumeralByte_of_isFraction {cs : List UInt8} (h : isFraction cs) :
    ∀ c ∈ cs, isNumeralByte c := by
  unfold isFraction at h
  split at h
  · next c cs =>
    rw [Bool.and_eq_true] at h
    have hrest := isNumeralByte_of_dropWhile (isNumeralByte_of_isExponent h.2)
    rw [List.forall_mem_cons, List.forall_mem_cons]
    exact ⟨by decide, isNumeralByte_of_isDigit h.1, hrest⟩
  · exact isNumeralByte_of_isExponent h

theorem isNumeralByte_of_isNumeral {text : List UInt8} (h : isNumeral text) :
    ∀ c ∈ text, isNumeralByte c := by
  have hunsigned : ∀ c ∈ (if text.head? = some 45 then text.tail else text), isNumeralByte c := by
    unfold isNumeral at h
    generalize (if text.head? = some 45 then text.tail else text) = cs at h ⊢
    split at h
    · rw [List.forall_mem_cons]
      exact ⟨by decide, isNumeralByte_of_isFraction h⟩
    · rw [Bool.and_eq_true] at h
      rw [List.forall_mem_cons]
      exact ⟨isNumeralByte_of_isDigit h.1,
        isNumeralByte_of_dropWhile (isNumeralByte_of_isFraction h.2)⟩
    · cases h
  split at hunsigned
  · next hsign =>
    cases text with
    | nil => simp
    | cons s cs =>
      obtain rfl : s = 45 := by simpa using hsign
      rw [List.forall_mem_cons]
      exact ⟨by decide, hunsigned⟩
  · exact hunsigned

/-! ### The text of a value is a value -/

/-- From a list of texts that are values, the list of their tokens. -/
theorem exists_tokens {texts : List (List UInt8)}
    (h : ∀ text ∈ texts, ∃ ts, lex text = some ts ∧ IsValue ts) :
    ∃ tokens, List.Forall₂ (fun text ts => lex text = some ts) texts tokens ∧
      ∀ ts ∈ tokens, IsValue ts := by
  induction texts with
  | nil => exact ⟨[], .nil, by simp⟩
  | cons text texts ih =>
    rw [List.forall_mem_cons] at h
    obtain ⟨⟨ts, hts, hvalue⟩, hothers⟩ := h
    obtain ⟨tokens, htokens, hvalues⟩ := ih hothers
    exact ⟨ts :: tokens, .cons hts htokens, List.forall_mem_cons.mpr ⟨hvalue, hvalues⟩⟩

/-- The same for the members of an object. -/
theorem exists_memberTokens {ms : List (List UInt8 × Value)} (hkeys : ∀ m ∈ ms, IsUtf8 m.1)
    (h : ∀ m ∈ ms, ∃ ts, lex m.2.dump = some ts ∧ IsValue ts) :
    ∃ members : List (List UInt8 × List Token),
      List.Forall₂ (fun text ts => lex text = some ts) (ms.map dumpMember)
        (members.map fun m => .string m.1 :: .colon :: m.2) ∧
      ∀ m ∈ members, IsValue m.2 := by
  induction ms with
  | nil => exact ⟨[], .nil, by simp⟩
  | cons m ms ih =>
    rw [List.forall_mem_cons] at hkeys h
    obtain ⟨⟨ts, hts, hvalue⟩, hothers⟩ := h
    obtain ⟨members, hmembers, hvalues⟩ := ih hkeys.2 hothers
    exact ⟨(escape m.1, ts) :: members, .cons (lex_dumpMember hkeys.1 hts) hmembers,
      List.forall_mem_cons.mpr ⟨hvalue, hvalues⟩⟩

/-- The text of a well-formed value is that of a value. -/
theorem Value.WellFormed.lex_dump {v : Value} (h : v.WellFormed) :
    ∃ ts, lex v.dump = some ts ∧ IsValue ts := by
  induction h with
  | null => exact ⟨_, rfl, IsValue.word _⟩
  | boolean b => cases b <;> exact ⟨_, rfl, IsValue.word _⟩
  | @number text h =>
    have hbare : ∀ c ∈ text, isDelimiter c = false := fun c hc =>
      isDelimiter_of_isNumeralByte (isNumeralByte_of_isNumeral h c hc)
    have hword : isWord text := by simp [isWord, h]
    rw [Value.dump]
    exact ⟨_, lex_word hbare hword, IsValue.word _⟩
  | @string s h =>
    refine ⟨_, lex_of_run ?_, IsValue.string (escape s)⟩
    rw [Value.dump, run_string (isStringBody_escape h)]
    rfl
  | @array items _ ih =>
    have hitems : ∀ text ∈ items.map Value.dump, ∃ ts, lex text = some ts ∧ IsValue ts :=
      List.forall_mem_map.mpr ih
    obtain ⟨tokens, htokens, hvalues⟩ := exists_tokens hitems
    refine ⟨_, lex_of_run ?_, IsValue.array tokens hvalues⟩
    rw [Value.dump, dumpItems_eq, List.cons_append, run_punctuation (t := .lbracket) rfl,
      run_intercalate htokens (t := .rbracket) rfl]
    rfl
  | @object members hkeys _ ih =>
    obtain ⟨tokens, htokens, hvalues⟩ := exists_memberTokens hkeys ih
    refine ⟨_, lex_of_run ?_, IsValue.object tokens hvalues⟩
    rw [Value.dump, dumpMembers_eq, List.cons_append, run_punctuation (t := .lbrace) rfl,
      run_intercalate htokens (t := .rbrace) rfl]
    rfl

/-! ### Cut texts -/

/-- The text of an object up to its last brace, with nothing but white space before its first. -/
structure IsObjectText (text : List UInt8) : Prop where
  braces : ∃ lead inner, (∀ c ∈ lead, isWhite c) ∧ text = lead ++ 123 :: inner ++ [125]
  object : ∃ members, lex text = some (objectTokens members) ∧ ∀ m ∈ members, IsValue m.2

theorem ne_zero_of_isWhite {c : UInt8} (h : isWhite c) : c ≠ 0 := by
  rintro rfl
  cases h

theorem start_of_isWhite {c : UInt8} (h : isWhite c) : start c = (.outside, []) := by
  have hcases : c = 32 ∨ c = 9 ∨ c = 10 ∨ c = 13 := by simpa [isWhite, or_assoc] using h
  rcases hcases with rfl | rfl | rfl | rfl <;> rfl

theorem run_of_isWhite {lead : List UInt8} (h : ∀ c ∈ lead, isWhite c) :
    lexer.run .outside lead = (.outside, []) := by
  induction lead with
  | nil => rfl
  | cons c lead ih =>
    rw [List.forall_mem_cons] at h
    rw [run_cons, step, start_of_isWhite h.1, ih h.2]
    rfl

/-- A white byte at the end of a text adds no token. -/
theorem lex_concat_of_isWhite {c : UInt8} (h : isWhite c) (text : List UInt8) :
    lex (text ++ [c]) = lex text := by
  have hdelimiter : isDelimiter c = true := by simp [isDelimiter, h]
  have hquote : c ≠ 34 := by
    rintro rfl
    cases h
  unfold lex
  rw [Machine.run_append]
  generalize lexer.run .outside text = run
  obtain ⟨s, tokens⟩ := run
  rw [run_cons, Machine.run_nil, List.append_nil]
  cases s with
  | outside =>
    rw [step, start_of_isWhite h]
    simp
  | failed => rfl
  | literal body st =>
    -- In a literal it is a byte of the literal or fails.
    rw [step, if_neg fun hend => hquote hend.2]
    cases st.next c <;> rfl
  | inWord w =>
    simp only [step, hdelimiter, start_of_isWhite h]
    by_cases hword : isWord w <;> simp [hword]

/-- White space behind a text changes nothing. -/
theorem lex_append_of_isWhite {blank : List UInt8} (h : ∀ c ∈ blank, isWhite c)
    (text : List UInt8) : lex (text ++ blank) = lex text := by
  induction blank generalizing text with
  | nil => rw [List.append_nil]
  | cons c blank ih =>
    rw [List.forall_mem_cons] at h
    rw [List.append_cons, ih h.2, lex_concat_of_isWhite h.1]

/-- Where a text ends with a brace, that brace is its last token. -/
theorem lex_eq_emitted_of_rbrace {text : List UInt8} {ts : List Token}
    (h : lex (text ++ [125]) = some ts) :
    ∃ more, ts = (lexer.run .outside text).2 ++ more ++ [Token.rbrace] := by
  unfold lex at h
  rw [Machine.run_append] at h
  generalize lexer.run .outside text = run at h ⊢
  obtain ⟨s, tokens⟩ := run
  have hstep : lexer.run s [125] = step s 125 := by rw [run_cons, Machine.run_nil, List.append_nil]
  rw [hstep] at h
  cases s with
  | outside => exact ⟨[], by rw [← Option.some.inj h, List.append_nil]; rfl⟩
  | failed => cases h
  | literal body st =>
    -- A brace does not close a literal.
    rw [step, if_neg (by simp)] at h
    split at h
    · next heq => split at heq <;> cases heq
    · next heq => split at heq <;> cases heq
    · cases h
  | inWord w =>
    by_cases hword : isWord w
    · have hend : step (.inWord w) 125 = (.outside, [.word w, .rbrace]) := by
        rw [step, hword]
        rfl
      rw [hend] at h
      exact ⟨[.word w], by simp [← Option.some.inj h]⟩
    · have hend : step (.inWord w) 125 = (.failed, []) := by
        rw [step, Bool.eq_false_of_not_eq_true hword]
        rfl
      rw [hend] at h
      cases h

/-- The tokens emitted for a beginning of an object leave a bracket open, unless there are none. -/
theorem IsObjectText.depth_pos_of_cut {kept lost : List UInt8} (h : IsObjectText (kept ++ lost))
    (hlost : lost ≠ []) (hne : (lexer.run .outside kept).2 ≠ []) :
    0 < depth (lexer.run .outside kept).2 := by
  obtain ⟨⟨lead, inner, -, hbraces⟩, members, hwhole, hmembers⟩ := h
  have hobject : IsValue (objectTokens members) := IsValue.object members hmembers
  -- The last byte that was lost is the last brace.
  obtain ⟨lost', last, rfl⟩ : ∃ lost' last, lost = lost' ++ [last] :=
    ⟨_, _, (List.dropLast_append_getLast hlost).symm⟩
  obtain rfl : last = 125 := by
    rw [← List.append_assoc] at hbraces
    exact List.singleton_inj.mp (List.append_inj_right' hbraces rfl)
  rw [← List.append_assoc] at hwhole
  obtain ⟨more, hmore⟩ := lex_eq_emitted_of_rbrace hwhole
  rw [Machine.run_append] at hmore
  refine hobject.closed.pos _ ((lexer.run (lexer.run .outside kept).1 lost').2 ++ more ++
    [Token.rbrace]) ?_ hne (by simp)
  rw [hmore]
  simp

/-- Inside a word of an object its first brace has been emitted. -/
theorem IsObjectText.emitted_of_inWord {kept lost w : List UInt8} {tokens : List Token}
    (h : IsObjectText (kept ++ lost)) (hrun : lexer.run .outside kept = (.inWord w, tokens)) :
    tokens ≠ [] := by
  obtain ⟨lead, inner, hlead, hbraces⟩ := h.braces
  rw [List.append_assoc] at hbraces
  rcases List.append_eq_append_iff.mp hbraces with ⟨more, hmore, -⟩ | ⟨more, hkept, hrest⟩
  · -- Only white space was kept, which is no word.
    rw [hmore] at hlead
    rw [run_of_isWhite fun c hc => hlead c (List.mem_append_left _ hc)] at hrun
    cases hrun
  · rw [hkept, Machine.run_append, run_of_isWhite hlead] at hrun
    cases more with
    | nil => cases hrun
    | cons c more =>
      obtain ⟨rfl, -⟩ := List.cons.inj hrest
      rw [run_punctuation (t := .lbrace) rfl] at hrun
      rw [← (Prod.mk.inj hrun).2]
      simp

/-- No text that has lost its end is a value: what is emitted before the last brace leaves a bracket
open. -/
theorem IsObjectText.not_value_of_cut {text kept lost : List UInt8} (h : IsObjectText text)
    (htext : text = kept ++ lost) (hlost : lost ≠ []) {ts : List Token}
    (hlex : lex kept = some ts) : ¬ IsValue ts := by
  intro hvalue
  subst htext
  have hopen := h.depth_pos_of_cut hlost
  unfold lex at hlex
  split at hlex
  · next tokens hrun =>
    obtain rfl := Option.some.inj hlex
    rw [hrun] at hopen
    have hpos := hopen hvalue.ne_nil
    rw [hvalue.closed.depth_eq] at hpos
    exact absurd hpos (lt_irrefl 0)
  · next w tokens hrun =>
    split at hlex
    · obtain rfl := Option.some.inj hlex
      rw [hrun] at hopen
      -- The word at the end opens and closes nothing.
      have hdepth : depth tokens = 0 := by
        have hzero := hvalue.closed.depth_eq
        rw [depth_append] at hzero
        simpa [Token.weight] using hzero
      have hpos := hopen (h.emitted_of_inWord hrun)
      rw [hdepth] at hpos
      exact absurd hpos (lt_irrefl 0)
    · cases hlex
  · cases hlex

end Codec.Json
