import GambitCore.Codec.NumberText
import GambitCore.Semantics.Run
import Mathlib.Algebra.Order.Ring.Int

/-!
# JSON texts

The grammar of JSON in two levels. A machine reads the text byte by byte and emits its tokens;
it checks what is inside the string literals (control characters, escapes, UTF-8) and the spelling
of numbers and of the three words. Over the tokens, a value is a word, a string, an array or an
object.

## Main definitions

* `Json.IsStringBody` — what may stand between the quotation marks of a literal
* `Json.lexer`, `Json.lex` — the tokens of a text
* `Json.IsValue` — the token sequences that are values
* `Json.objectTokens` — the tokens of an object, member by member

## Main results

* `Json.run_literal`, `Json.run_literal_cases` — what the lexer makes of a text inside a literal
* `Json.closesLiteral_name` — a name between quotation marks stands inside a literal
* `Json.IsValue.closed` — a value ends where its brackets do, and not before
-/

namespace Codec.Json

/-! ### Inside a literal -/

/-- Where a scan of a literal stands. -/
inductive StrState
  | plain
  /-- Behind a backslash. -/
  | escape
  /-- In a `\u` with one more hexadecimal digit to come, and then `n`. -/
  | hex (n : ℕ)
  /-- In a multi-byte character: the next byte is between `lo` and `hi`, and `n` bytes follow it. -/
  | utf8 (lo hi : UInt8) (n : ℕ)
  deriving DecidableEq

/-- The first byte of a multi-byte character decides what may follow. -/
def utf8Lead (c : UInt8) : Option StrState :=
  if 0xC2 ≤ c ∧ c ≤ 0xDF then some (.utf8 0x80 0xBF 0)
  else if c = 0xE0 then some (.utf8 0xA0 0xBF 1)
  else if c = 0xED then some (.utf8 0x80 0x9F 1)
  else if 0xE1 ≤ c ∧ c ≤ 0xEF then some (.utf8 0x80 0xBF 1)
  else if c = 0xF0 then some (.utf8 0x90 0xBF 2)
  else if 0xF1 ≤ c ∧ c ≤ 0xF3 then some (.utf8 0x80 0xBF 2)
  else if c = 0xF4 then some (.utf8 0x80 0x8F 2)
  else none

/-- One byte of a literal. An unescaped quotation mark is not part of it. -/
def StrState.next : StrState → UInt8 → Option StrState
  | plain, c =>
    if c = 92 then some escape
    else if c = 34 ∨ c < 32 then none
    else if c < 128 then some plain
    else utf8Lead c
  | escape, c =>
    if c = 117 then some (hex 3)
    else if c ∈ [34, 92, 47, 98, 102, 110, 114, 116] then some plain
    else none
  | hex n, c =>
    if isDigit 16 c then some (match n with | 0 => plain | n + 1 => hex n) else none
  | utf8 lo hi n, c =>
    if 128 ≤ c ∧ lo ≤ c ∧ c ≤ hi then
      some (match n with | 0 => plain | n + 1 => utf8 0x80 0xBF n)
    else none

/-- A whole text. -/
def scan (st : StrState) (t : List UInt8) : Option StrState := t.foldlM StrState.next st

/-- The text may stand between the quotation marks of a literal. -/
def IsStringBody (t : List UInt8) : Prop := scan .plain t = some .plain

instance (t : List UInt8) : Decidable (IsStringBody t) :=
  inferInstanceAs (Decidable (scan .plain t = some .plain))

/-! ### Tokens -/

inductive Token
  | lbrace
  | rbrace
  | lbracket
  | rbracket
  | colon
  | comma
  | string (body : List UInt8)
  | word (text : List UInt8)
  deriving DecidableEq

def punctuation (c : UInt8) : Option Token :=
  if c = 123 then some .lbrace
  else if c = 125 then some .rbrace
  else if c = 91 then some .lbracket
  else if c = 93 then some .rbracket
  else if c = 58 then some .colon
  else if c = 44 then some .comma
  else none

def isWhite (c : UInt8) : Bool := c == 32 || c == 9 || c == 10 || c == 13

/-- What a word ends at. -/
def isDelimiter (c : UInt8) : Bool := (punctuation c).isSome || isWhite c || c == 34

/-- The exponent of a number, if there is one. -/
def isExponent : List UInt8 → Bool
  | [] => true
  | e :: cs =>
    let digits := if cs.head? = some 43 ∨ cs.head? = some 45 then cs.tail else cs
    (e == 101 || e == 69) && !digits.isEmpty && digits.all (isDigit 10)

/-- The fraction and the exponent of a number. -/
def isFraction : List UInt8 → Bool
  | 46 :: c :: cs => isDigit 10 c && isExponent (cs.dropWhile (isDigit 10))
  | cs => isExponent cs

/-- The numbers of JSON: no plus sign, no leading zeros. -/
def isNumeral (text : List UInt8) : Bool :=
  match if text.head? = some 45 then text.tail else text with
  | 48 :: cs => isFraction cs
  | c :: cs => isDigit 10 c && isFraction (cs.dropWhile (isDigit 10))
  | [] => false

/-- `true`, `false`, `null` or a number. -/
def isWord (text : List UInt8) : Bool :=
  text == [116, 114, 117, 101] || text == [102, 97, 108, 115, 101] ||
    text == [110, 117, 108, 108] || isNumeral text

/-- Where the lexer stands. -/
inductive State
  | outside
  | literal (body : List UInt8) (st : StrState)
  | inWord (text : List UInt8)
  | failed
  deriving DecidableEq

/-- The first byte of a token. -/
def start (c : UInt8) : State × List Token :=
  match punctuation c with
  | some t => (.outside, [t])
  | none =>
    if isWhite c then (.outside, [])
    else if c = 34 then (.literal [] .plain, [])
    else (.inWord [c], [])

def step : State → UInt8 → State × List Token
  | .outside, c => start c
  | .literal body st, c =>
    if st = .plain ∧ c = 34 then (.outside, [.string body])
    else
      match st.next c with
      | some st' => (.literal (body ++ [c]) st', [])
      | none => (.failed, [])
  | .inWord text, c =>
    if !isDelimiter c then (.inWord (text ++ [c]), [])
    else if isWord text then ((start c).1, .word text :: (start c).2)
    else (.failed, [])
  | .failed, _ => (.failed, [])

/-- The lexer reads bytes and emits tokens. -/
def lexer : Machine State UInt8 Token := ⟨step⟩

/-- The tokens of a text. -/
def lex (text : List UInt8) : Option (List Token) :=
  match lexer.run .outside text with
  | (.outside, tokens) => some tokens
  | (.inWord w, tokens) => if isWord w then some (tokens ++ [.word w]) else none
  | _ => none

/-! ### Values -/

/-- The tokens of an object with the given members. -/
def objectTokens (members : List (List UInt8 × List Token)) : List Token :=
  .lbrace :: [.comma].intercalate (members.map fun m => .string m.1 :: .colon :: m.2) ++ [.rbrace]

/-- The token sequences that are values. -/
inductive IsValue : List Token → Prop
  | word (text : List UInt8) : IsValue [.word text]
  | string (body : List UInt8) : IsValue [.string body]
  | array (items : List (List Token)) (h : ∀ item ∈ items, IsValue item) :
    IsValue (.lbracket :: [.comma].intercalate items ++ [.rbracket])
  | object (members : List (List UInt8 × List Token)) (h : ∀ m ∈ members, IsValue m.2) :
    IsValue (objectTokens members)

/-! ### Brackets -/

/-- What a token adds to the depth. -/
def Token.weight : Token → ℤ
  | lbrace => 1
  | lbracket => 1
  | rbrace => -1
  | rbracket => -1
  | _ => 0

/-- The brackets a token sequence leaves open. -/
def depth (ts : List Token) : ℤ := (ts.map Token.weight).sum

@[simp] theorem depth_nil : depth [] = 0 := rfl

@[simp] theorem depth_cons (t : Token) (ts : List Token) :
    depth (t :: ts) = t.weight + depth ts := by
  simp [depth]

@[simp] theorem depth_append (ts us : List Token) : depth (ts ++ us) = depth ts + depth us := by
  simp [depth]

/-- All brackets are closed at the end, and none is closed that was not opened. -/
structure Balanced (ts : List Token) : Prop where
  depth_eq : depth ts = 0
  nonneg : ∀ us vs, ts = us ++ vs → 0 ≤ depth us

/-- Besides, they are all closed only at the end. -/
structure Closed (ts : List Token) : Prop where
  depth_eq : depth ts = 0
  pos : ∀ us vs, ts = us ++ vs → us ≠ [] → vs ≠ [] → 0 < depth us

theorem Closed.balanced {ts : List Token} (h : Closed ts) : Balanced ts := by
  refine ⟨h.depth_eq, fun us vs hsplit => ?_⟩
  by_cases hus : us = []
  · simp [hus]
  by_cases hvs : vs = []
  · rw [hvs, List.append_nil] at hsplit
    rw [← hsplit, h.depth_eq]
  · exact (h.pos us vs hsplit hus hvs).le

theorem Closed.singleton {t : Token} (h : t.weight = 0) : Closed [t] := by
  refine ⟨by simp [h], fun us vs hsplit hus hvs => ?_⟩
  obtain ⟨hnil, -⟩ | ⟨-, hnil⟩ := List.append_eq_singleton_iff.mp hsplit.symm
  · exact absurd hnil hus
  · exact absurd hnil hvs

theorem Balanced.append {ts us : List Token} (hts : Balanced ts) (hus : Balanced us) :
    Balanced (ts ++ us) := by
  refine ⟨by simp [hts.depth_eq, hus.depth_eq], fun vs ws hsplit => ?_⟩
  obtain ⟨m, rfl, rfl⟩ | ⟨m, rfl, rfl⟩ := List.append_eq_append_iff.mp hsplit
  · rw [depth_append, hts.depth_eq, zero_add]
    exact hus.nonneg m ws rfl
  · exact hts.nonneg vs m rfl

theorem Balanced.nil : Balanced [] := ⟨rfl, fun us vs h => by
  obtain ⟨rfl, -⟩ := List.append_eq_nil_iff.mp h.symm
  exact le_rfl⟩

theorem Balanced.intercalate {parts : List (List Token)} (h : ∀ part ∈ parts, Balanced part) :
    Balanced ([.comma].intercalate parts) := by
  have hcomma : Balanced [.comma] := (Closed.singleton rfl).balanced
  induction parts with
  | nil => exact Balanced.nil
  | cons part parts ih =>
    have hpart := h part List.mem_cons_self
    have hparts := ih fun q hq => h q (List.mem_cons_of_mem _ hq)
    cases parts with
    | nil => simpa using hpart
    | cons next rest =>
      rw [List.intercalate_cons_cons]
      exact (hpart.append hcomma).append hparts

/-- Between an opening bracket and its own closing one. -/
theorem Balanced.closed {ts : List Token} (h : Balanced ts) {o c : Token} (ho : o.weight = 1)
    (hc : c.weight = -1) : Closed (o :: ts ++ [c]) := by
  refine ⟨by simp [ho, hc, h.depth_eq], fun us vs hsplit hus hvs => ?_⟩
  obtain ⟨u, us, rfl⟩ := List.exists_cons_of_ne_nil hus
  rw [List.cons_append, List.cons_append] at hsplit
  obtain ⟨rfl, hrest⟩ := List.cons.inj hsplit
  -- The last token of the split's second part is the closing bracket.
  obtain ⟨m, rfl, hm⟩ | ⟨m, rfl, rfl⟩ := List.append_eq_append_iff.mp hrest
  · obtain ⟨hnil, -⟩ | ⟨-, hnil⟩ := List.append_eq_singleton_iff.mp hm.symm
    · subst hnil
      rw [List.append_nil, depth_cons, ho, h.depth_eq]
      exact one_pos
    · exact absurd hnil hvs
  · have hpart := h.nonneg us m rfl
    rw [depth_cons, ho]
    omega

/-- A value ends where its brackets do, and not before. -/
theorem IsValue.closed {ts : List Token} (h : IsValue ts) : Closed ts := by
  induction h with
  | word text => exact Closed.singleton rfl
  | string body => exact Closed.singleton rfl
  | array items _ ih =>
    exact (Balanced.intercalate fun item hitem => (ih item hitem).balanced).closed rfl rfl
  | object members _ ih =>
    refine (Balanced.intercalate fun part hpart => ?_).closed rfl rfl
    obtain ⟨m, hm, rfl⟩ := List.mem_map.mp hpart
    have hname : Balanced [.string m.1] := (Closed.singleton rfl).balanced
    have hcolon : Balanced [.colon] := (Closed.singleton rfl).balanced
    exact (hname.append hcolon).append (ih m hm).balanced

theorem IsValue.ne_nil {ts : List Token} (h : IsValue ts) : ts ≠ [] := by
  cases h <;> simp [objectTokens]

/-- No value is the end of a longer one. -/
theorem IsValue.eq_nil_of_append {ts us : List Token} (hwhole : IsValue (ts ++ us))
    (hpart : IsValue us) : ts = [] := by
  by_contra hts
  have hpos := hwhole.closed.pos ts us rfl hts hpart.ne_nil
  have hdepth := hwhole.closed.depth_eq
  rw [depth_append, hpart.closed.depth_eq] at hdepth
  omega

/-! ### Runs of the lexer -/

theorem run_cons (s : State) (c : UInt8) (cs : List UInt8) :
    lexer.run s (c :: cs) =
      ((lexer.run (step s c).1 cs).1, (step s c).2 ++ (lexer.run (step s c).1 cs).2) := rfl

theorem run_failed (text : List UInt8) : lexer.run .failed text = (.failed, []) := by
  induction text with
  | nil => rfl
  | cons c cs ih => rw [run_cons, step, ih, List.append_nil]

theorem run_cons_of_failed {s : State} {c : UInt8} (h : (step s c).1 = .failed)
    (cs : List UInt8) : (lexer.run s (c :: cs)).1 = .failed := by
  rw [run_cons, h, run_failed]

/-- A quotation mark is never read as part of a literal in its plain state. -/
theorem next_quote : StrState.plain.next 34 = none := by decide

theorem scan_cons (st : StrState) (c : UInt8) (cs : List UInt8) :
    scan st (c :: cs) = (st.next c).bind fun st' => scan st' cs := rfl

theorem scan_append (st : StrState) (t u : List UInt8) :
    scan st (t ++ u) = (scan st t).bind fun st' => scan st' u := by
  simp [scan, List.foldlM_append]

theorem step_literal {body : List UInt8} {st st' : StrState} {c : UInt8}
    (h : st.next c = some st') :
    step (.literal body st) c = (.literal (body ++ [c]) st', []) := by
  have hopen : ¬ (st = .plain ∧ c = 34) := by
    rintro ⟨rfl, rfl⟩
    rw [next_quote] at h
    cases h
  rw [step, if_neg hopen, h]

/-- A text that may stand inside a literal is taken into it. -/
theorem run_literal {st st' : StrState} {t : List UInt8} (h : scan st t = some st')
    (body : List UInt8) :
    lexer.run (.literal body st) t = (.literal (body ++ t) st', []) := by
  induction t generalizing st body with
  | nil =>
    obtain rfl := Option.some.inj h
    rw [List.append_nil, Machine.run_nil]
  | cons c cs ih =>
    rw [scan_cons] at h
    obtain ⟨st₁, hnext, hscan⟩ := Option.bind_eq_some_iff.mp h
    rw [run_cons, step_literal hnext, ih hscan, List.append_assoc]
    rfl

/-- A text read from inside a literal to inside a literal: it stayed in the same one, or the first
token emitted is that literal. -/
theorem run_literal_cases {body body' : List UInt8} {st st' : StrState} {t : List UInt8}
    {tokens : List Token} (h : lexer.run (.literal body st) t = (.literal body' st', tokens)) :
    (tokens = [] ∧ body' = body ++ t ∧ scan st t = some st') ∨
      ∃ b rest, tokens = .string b :: rest := by
  induction t generalizing st body with
  | nil =>
    obtain ⟨hstate, rfl⟩ := Prod.mk.inj h
    obtain ⟨rfl, rfl⟩ := State.literal.inj hstate
    exact Or.inl ⟨rfl, (List.append_nil _).symm, rfl⟩
  | cons c cs ih =>
    by_cases hclose : st = .plain ∧ c = 34
    · rw [run_cons, step, if_pos hclose] at h
      exact Or.inr ⟨body, _, (Prod.mk.inj h).2.symm⟩
    cases hnext : st.next c with
    | none =>
      rw [run_cons, step, if_neg hclose, hnext, run_failed] at h
      cases (Prod.mk.inj h).1
    | some st₁ =>
      rw [run_cons, step_literal hnext] at h
      obtain ⟨rfl, rfl, hscan⟩ | hfirst := ih h
      · refine Or.inl ⟨rfl, by simp, ?_⟩
        rw [scan_cons, hnext]
        exact hscan
      · exact Or.inr hfirst

/-- The quotation mark that ends a literal. -/
theorem run_close (body rest : List UInt8) :
    lexer.run (.literal body .plain) (34 :: rest) =
      ((lexer.run .outside rest).1, .string body :: (lexer.run .outside rest).2) := rfl

/-- The quotation mark that begins one. -/
theorem run_open (rest : List UInt8) :
    lexer.run .outside (34 :: rest) = lexer.run (.literal [] .plain) rest := rfl

/-- A literal of a plain text. -/
theorem run_string {t : List UInt8} (h : IsStringBody t) (rest : List UInt8) :
    lexer.run .outside (34 :: t ++ 34 :: rest) =
      ((lexer.run .outside rest).1, .string t :: (lexer.run .outside rest).2) := by
  rw [List.cons_append, run_open, Machine.run_append, run_literal h, List.nil_append]
  rfl

/-! ### Bare words -/

/-- A name that is no value of its own outside a literal. -/
structure IsName (name : List UInt8) : Prop where
  ne_nil : name ≠ []
  body : IsStringBody name
  bare : ∀ c ∈ name, isDelimiter c = false
  not_word : isWord name = false

/-- The same with tests that can be evaluated. -/
theorem IsName.of_any {name : List UInt8} (hne : name ≠ []) (hbody : IsStringBody name)
    (hbare : name.any isDelimiter = false) (hword : isWord name = false) : IsName name :=
  ⟨hne, hbody, by simpa using hbare, hword⟩

theorem step_inWord_of_bare {c : UInt8} (h : isDelimiter c = false) (text : List UInt8) :
    step (.inWord text) c = (.inWord (text ++ [c]), []) := by
  rw [step, h]
  rfl

theorem run_inWord_of_bare {text name : List UInt8} (h : ∀ c ∈ name, isDelimiter c = false) :
    lexer.run (.inWord text) name = (.inWord (text ++ name), []) := by
  induction name generalizing text with
  | nil => rw [List.append_nil, Machine.run_nil]
  | cons c cs ih =>
    rw [run_cons, step_inWord_of_bare (h c List.mem_cons_self),
      ih fun d hd => h d (List.mem_cons_of_mem _ hd), List.append_assoc]
    rfl

theorem start_of_bare {c : UInt8} (h : isDelimiter c = false) : start c = (.inWord [c], []) := by
  simp only [isDelimiter, Bool.or_eq_false_iff, Option.isSome_eq_false_iff,
    Option.isNone_iff_eq_none, beq_eq_false_iff_ne] at h
  obtain ⟨⟨hpunct, hwhite⟩, hquote⟩ := h
  simp [start, hpunct, hwhite, hquote]

/-- Outside a literal a name leads to no token. -/
theorem run_name {name : List UInt8} (h : IsName name) (rest : List UInt8) :
    (lexer.run .outside (name ++ 34 :: rest)).1 = .failed := by
  obtain ⟨c, cs, rfl⟩ := List.exists_cons_of_ne_nil h.ne_nil
  have hword : lexer.run .outside (c :: cs) = (.inWord (c :: cs), []) := by
    have hfirst : step .outside c = (.inWord [c], []) := start_of_bare (h.bare c List.mem_cons_self)
    rw [run_cons, hfirst, run_inWord_of_bare fun d hd => h.bare d (List.mem_cons_of_mem _ hd)]
    rfl
  have hend : step (.inWord (c :: cs)) 34 = (.failed, []) := by
    rw [step, h.not_word]
    rfl
  rw [Machine.run_append, hword, run_cons, hend, run_failed]

/-- A literal that is closed before a name. -/
theorem run_literal_name {mid name : List UInt8} (hmid : IsStringBody mid) (hname : IsName name)
    (body rest : List UInt8) :
    (lexer.run (.literal body .plain) (mid ++ 34 :: (name ++ 34 :: rest))).1 = .failed := by
  rw [Machine.run_append, run_literal hmid, run_close, run_name hname]

/-- A text that only a literal in its plain state can be followed by. -/
def ClosesLiteral (text : List UInt8) : Prop :=
  ∀ s, (lexer.run s text).1 ≠ .failed → ∃ body, s = .literal body .plain

/-- Of a name between quotation marks, with a text before it that could be inside a literal: the
first quotation mark closes a literal, since otherwise the name would stand outside one. -/
theorem closesLiteral_name {mid name : List UInt8} (hmid : IsStringBody mid) (hname : IsName name)
    (rest : List UInt8) : ClosesLiteral (34 :: (mid ++ 34 :: (name ++ 34 :: rest))) := by
  intro s h
  have hbad := run_literal_name hmid hname
  cases s with
  | outside => exact absurd (hbad [] rest) h
  | failed => exact absurd (run_cons_of_failed rfl _) h
  | inWord text =>
    cases hword : isWord text with
    | true =>
      -- The quotation mark ends the word and begins a literal.
      have hstep : (step (.inWord text) 34).1 = .literal [] .plain := by
        rw [step, hword]
        rfl
      rw [run_cons, hstep] at h
      exact absurd (hbad [] rest) h
    | false =>
      refine absurd (run_cons_of_failed ?_ _) h
      rw [step, hword]
      rfl
  | literal body st =>
    cases st with
    | plain => exact ⟨body, rfl⟩
    -- An escaped quotation mark stays in the literal, which the next one closes.
    | escape => exact absurd (hbad (body ++ [34]) rest) h
    | hex n => exact absurd (run_cons_of_failed rfl _) h
    | utf8 lo hi n =>
      refine absurd (run_cons_of_failed ?_ _) h
      simp [step, StrState.next]

/-! ### Texts in a row -/

theorem run_punctuation {c : UInt8} {t : Token} (h : punctuation c = some t) (rest : List UInt8) :
    lexer.run .outside (c :: rest) =
      ((lexer.run .outside rest).1, t :: (lexer.run .outside rest).2) := by
  have hstep : step .outside c = (.outside, [t]) := by
    show start c = _
    rw [start, h]
  rw [run_cons, hstep]
  rfl

/-- The tokens of a text, with punctuation behind it. -/
theorem run_lex {text : List UInt8} {tokens : List Token} (h : lex text = some tokens) {c : UInt8}
    {t : Token} (hc : punctuation c = some t) (rest : List UInt8) :
    lexer.run .outside (text ++ c :: rest) =
      ((lexer.run .outside rest).1, tokens ++ t :: (lexer.run .outside rest).2) := by
  have hdelimiter : isDelimiter c := by simp [isDelimiter, hc]
  have hstart : start c = (.outside, [t]) := by rw [start, hc]
  rw [Machine.run_append]
  unfold lex at h
  split at h
  · next ts hrun =>
    obtain rfl := Option.some.inj h
    rw [hrun, run_punctuation hc]
  · next w ts hrun =>
    split at h
    · next hword =>
      obtain rfl := Option.some.inj h
      have hstep : step (.inWord w) c = (.outside, [.word w, t]) := by
        simp [step, hdelimiter, hword, hstart]
      rw [hrun, run_cons, hstep]
      simp
    · cases h
  · cases h

theorem lex_of_run {text : List UInt8} {tokens : List Token}
    (h : lexer.run .outside text = (.outside, tokens)) : lex text = some tokens := by
  rw [lex, h]

theorem run_ne_failed_of_lex {text : List UInt8} {tokens : List Token}
    (h : lex text = some tokens) :
    (lexer.run .outside text).1 ≠ .failed := by
  intro hfailed
  unfold lex at h
  split at h
  · next heq => rw [heq] at hfailed; cases hfailed
  · next heq => rw [heq] at hfailed; cases hfailed
  · cases h

end Codec.Json
