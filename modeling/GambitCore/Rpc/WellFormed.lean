import GambitCore.Codec.Json
import GambitCore.Rpc.Blocks

/-!
# Replies as JSON

The handlers put their replies together from pieces of text, and nothing is escaped: the parameter
of the request and the strings of a block, which a peer may have chosen, go between the quotation
marks as they are. The reply is the object it is meant to be exactly when each of these texts may
stand inside a string literal.

One direction is to read the pieces one after the other. For the other one, the names in the
template are of use: a name is no value, so the lexer must be inside a literal before each of them,
and an inserted text that leaves its literal and comes back adds at least one literal to the reply.

## Main definitions

* `ValidId` — the `id` of a request
* `WellFormedReply` — the reply is an object with the members the handler names
* `valuesText` — what follows the quotation mark before the text of a member

## Main results

* `run_valuesText` — the literals of a reply are counted by its members and what the texts add
* `wellFormedReply_object_iff` — an object is well formed exactly when its texts are
* `blockReplies_wellFormed_iff` — the replies of the two handlers
-/

namespace Gambit

open Codec Codec.Json

/-! ### Well-formed replies -/

/-- The `id` of a request: none, or the text of a JSON value. -/
def ValidId (id : Str) : Prop := id = [] ∨ ∃ ts, lex id = some ts ∧ IsValue ts

/-- The tokens of a reply with the given result and `id`. -/
def replyTokens (result id : List Token) : List Token :=
  objectTokens [(str "jsonrpc", [.string (str "2.0")]), (str "result", result), (str "id", id)]

/-- The tokens of an object whose members are all strings. -/
def stringsObject (members : List (String × Str)) : List Token :=
  objectTokens (members.map fun m => (str m.1, [.string m.2]))

/-- The body is one JSON object with the members of a reply, of which the result is `null` or an
object with the members named, each of them a string. -/
def WellFormedReply (names : List String) (body : Str) : Prop :=
  ∃ result id, lex body = some (replyTokens result id) ∧ IsValue id ∧
    (result = [.word (str "null")] ∨
      ∃ members, members.map Prod.fst = names ∧ result = stringsObject members)

theorem isValue_stringsObject (members : List (String × Str)) :
    IsValue (stringsObject members) := by
  refine IsValue.object _ fun m hm => ?_
  obtain ⟨m', -, rfl⟩ := List.mem_map.mp hm
  exact IsValue.string _

/-- What is well formed as a reply is well formed as JSON. -/
theorem WellFormedReply.isValue {names : List String} {body : Str}
    (h : WellFormedReply names body) :
    ∃ ts, lex body = some ts ∧ IsValue ts := by
  obtain ⟨result, id, hlex, hid, hresult⟩ := h
  refine ⟨_, hlex, IsValue.object _ ?_⟩
  have hvalue : IsValue result := by
    obtain rfl | ⟨members, -, rfl⟩ := hresult
    · exact IsValue.word _
    · exact isValue_stringsObject members
  simp [hid, hvalue, IsValue.string]

/-! ### The text of an object -/

/-- What follows the quotation mark before the text of a member: the text, the other members, and
what comes behind the last quotation mark. -/
def valuesText (t : Str) : Members → Str → Str
  | [], tail => t ++ 34 :: tail
  | (name, t') :: ms, tail =>
    t ++ 34 :: ([44] ++ 34 :: (str name ++ 34 :: (58 :: 34 :: valuesText t' ms tail)))

theorem intercalate_memberText (name : String) (t : Str) (ms : Members) (tail : Str) :
    (str ",").intercalate (((name, t) :: ms).map memberText) ++ tail =
      34 :: (str name ++ 34 :: (58 :: 34 :: valuesText t ms tail)) := by
  induction ms generalizing name t with
  | nil => simp [memberText, quoted, valuesText, str]
  | cons m ms ih =>
    obtain ⟨name', t'⟩ := m
    have hmember : memberText (name, t) = 34 :: (str name ++ 34 :: 58 :: 34 :: (t ++ [34])) := by
      simp [memberText, quoted, str]
    rw [List.map_cons, List.map_cons, List.intercalate_cons_cons, ← List.map_cons,
      List.append_assoc, ih, hmember]
    simp [valuesText, str]

/-- How a result goes on behind its object. -/
def tailText (id : Str) : Str := [125, 44] ++ 34 :: (str "id" ++ 34 :: (58 :: safeId id ++ [125]))

/-- The text of a reply with an object, up to the first text inserted. -/
theorem jsonResult_objectText (id : Str) (name : String) (t : Str) (ms : Members) :
    jsonResult id (objectText ((name, t) :: ms)) =
      str "\x7b\"jsonrpc\":\"2.0\",\"result\":" ++
        123 :: 34 :: (str name ++ 34 :: (58 :: 34 :: valuesText t ms (tailText id))) := by
  rw [← intercalate_memberText, jsonResult, objectText]
  simp [tailText, str]

/-! ### Reading an object -/

/-- The number of literals. -/
def literals (ts : List Token) : ℕ :=
  ts.countP fun t => match t with | .string _ => true | _ => false

@[simp] theorem literals_append (ts us : List Token) :
    literals (ts ++ us) = literals ts + literals us :=
  List.countP_append

@[simp] theorem literals_nil : literals [] = 0 := rfl

@[simp] theorem literals_string (body : Str) (ts : List Token) :
    literals (.string body :: ts) = literals ts + 1 := by
  simp [literals]

@[simp] theorem literals_lbrace (ts : List Token) : literals (.lbrace :: ts) = literals ts := rfl

@[simp] theorem literals_rbrace (ts : List Token) : literals (.rbrace :: ts) = literals ts := rfl

@[simp] theorem literals_comma (ts : List Token) : literals (.comma :: ts) = literals ts := rfl

@[simp] theorem literals_colon (ts : List Token) : literals (.colon :: ts) = literals ts := rfl

/-- From behind the quotation mark before a name to behind the one before its text. -/
theorem run_memberName {name : Str} (h : IsName name) (rest : Str) :
    lexer.run (.literal [] .plain) (name ++ 34 :: (58 :: 34 :: rest)) =
      ((lexer.run (.literal [] .plain) rest).1,
        .string name :: .colon :: (lexer.run (.literal [] .plain) rest).2) := by
  rw [Machine.run_append, run_literal h.body, List.nil_append, List.nil_append]
  rfl

/-- From the end of a text to behind the quotation mark before the next one. -/
theorem run_nextMember {name : Str} (h : IsName name) (body rest : Str) :
    lexer.run (.literal body .plain) (34 :: ([44] ++ 34 :: (name ++ 34 :: (58 :: 34 :: rest)))) =
      ((lexer.run (.literal [] .plain) rest).1,
        .string body :: .comma :: .string name :: .colon ::
          (lexer.run (.literal [] .plain) rest).2) := by
  have hcomma : lexer.run .outside ([44] ++ 34 :: (name ++ 34 :: (58 :: 34 :: rest))) =
      ((lexer.run (.literal [] .plain) (name ++ 34 :: (58 :: 34 :: rest))).1,
        .comma :: (lexer.run (.literal [] .plain) (name ++ 34 :: (58 :: 34 :: rest))).2) := rfl
  rw [run_close, hcomma, run_memberName h]

/-- A text before what can only close a literal: it stays inside its literal, or it adds one. -/
theorem run_text {t rest body : Str} (hrest : ClosesLiteral rest)
    (hok : (lexer.run (.literal body .plain) (t ++ rest)).1 ≠ .failed) :
    ∃ body' extra, lexer.run (.literal body .plain) (t ++ rest) =
        ((lexer.run (.literal body' .plain) rest).1,
          extra ++ (lexer.run (.literal body' .plain) rest).2) ∧
      (literals extra = 0 → IsStringBody t) := by
  obtain ⟨s, extra, hrun⟩ : ∃ s extra, lexer.run (.literal body .plain) t = (s, extra) :=
    ⟨_, _, rfl⟩
  rw [Machine.run_append, hrun] at hok
  obtain ⟨body', rfl⟩ := hrest s hok
  refine ⟨body', extra, by rw [Machine.run_append, hrun], fun hextra => ?_⟩
  obtain ⟨-, -, hscan⟩ | ⟨b, ts, rfl⟩ := run_literal_cases hrun
  · exact hscan
  · rw [literals_string] at hextra
    omega

/-- The texts of an object, up to the last quotation mark, have a literal for each text and for each
name behind the first, and no others only if each text stays inside its literal. -/
theorem run_valuesText {ms : Members} {tail : Str} (htail : ClosesLiteral (34 :: tail))
    (hnames : ∀ m ∈ ms, IsName (str m.1)) {body t : Str}
    (hok : (lexer.run (.literal body .plain) (valuesText t ms tail)).1 ≠ .failed) :
    ∃ ts, lexer.run (.literal body .plain) (valuesText t ms tail) =
        ((lexer.run .outside tail).1, ts ++ (lexer.run .outside tail).2) ∧
      2 * ms.length + 1 ≤ literals ts ∧
      (literals ts = 2 * ms.length + 1 → ∀ u ∈ t :: ms.map Prod.snd, IsStringBody u) := by
  induction ms generalizing body t with
  | nil =>
    rw [valuesText] at hok ⊢
    obtain ⟨body', extra, hrun, hextra⟩ := run_text htail hok
    refine ⟨extra ++ [Token.string body'], ?_, ?_, ?_⟩
    · rw [hrun, run_close, List.append_assoc]
      rfl
    · simp
    · intro hcount
      have hnone : literals extra = 0 := by simpa using hcount
      simpa using hextra hnone
  | cons m ms ih =>
    obtain ⟨name, t'⟩ := m
    have hname : IsName (str name) := hnames (name, t') List.mem_cons_self
    have hcomma : IsStringBody [44] := by decide
    rw [valuesText] at hok ⊢
    obtain ⟨body', extra, hrun, hextra⟩ := run_text (closesLiteral_name hcomma hname _) hok
    rw [run_nextMember hname] at hrun
    rw [hrun] at hok
    obtain ⟨ts, hrest, hle, hall⟩ := ih (fun m hm => hnames m (List.mem_cons_of_mem _ hm)) hok
    rw [hrest] at hrun
    refine ⟨extra ++ .string body' :: .comma :: .string (str name) :: .colon :: ts, ?_, ?_, ?_⟩
    · rw [hrun, List.append_assoc]
      rfl
    · simp only [literals_append, literals_string, literals_comma, literals_colon,
        List.length_cons]
      omega
    · intro hcount
      simp only [literals_append, literals_string, literals_comma, literals_colon,
        List.length_cons] at hcount
      rw [List.map_cons, List.forall_mem_cons]
      exact ⟨hextra (by omega), hall (by omega)⟩

/-- The tokens of the members behind the first. -/
def laterMembers (ms : Members) : List Token :=
  ms.flatMap fun m => [.comma, .string (str m.1), .colon, .string m.2]

theorem stringsObject_cons (name : String) (t : Str) (ms : Members) :
    stringsObject ((name, t) :: ms) =
      .lbrace :: .string (str name) :: .colon :: .string t :: laterMembers ms ++
        [Token.rbrace] := by
  have hmembers : [Token.comma].intercalate
      (((name, t) :: ms).map fun m => [.string (str m.1), .colon, .string m.2]) =
        .string (str name) :: .colon :: .string t :: laterMembers ms := by
    induction ms generalizing name t with
    | nil => simp [laterMembers]
    | cons m ms ih =>
      obtain ⟨name', t'⟩ := m
      have hrest := ih name' t'
      rw [List.map_cons] at hrest
      rw [List.map_cons, List.map_cons, List.intercalate_cons_cons, hrest]
      simp [laterMembers]
  rw [stringsObject, objectTokens, List.map_map, ← hmembers]
  rfl

theorem run_valuesText_of_bodies {ms : Members} (hnames : ∀ m ∈ ms, IsName (str m.1)) {t : Str}
    (ht : IsStringBody t) (hms : ∀ m ∈ ms, IsStringBody m.2) (body tail : Str) :
    lexer.run (.literal body .plain) (valuesText t ms tail) =
      ((lexer.run .outside tail).1,
        .string (body ++ t) :: laterMembers ms ++ (lexer.run .outside tail).2) := by
  induction ms generalizing body t with
  | nil =>
    rw [valuesText, Machine.run_append, run_literal ht, run_close]
    rfl
  | cons m ms ih =>
    obtain ⟨name, t'⟩ := m
    have hname : IsName (str name) := hnames (name, t') List.mem_cons_self
    rw [valuesText, Machine.run_append, run_literal ht, run_nextMember hname,
      ih (fun m hm => hnames m (List.mem_cons_of_mem _ hm)) (hms (name, t') List.mem_cons_self)
        (fun m hm => hms m (List.mem_cons_of_mem _ hm))]
    simp [laterMembers]

/-! ### The frame of a reply -/

/-- The tokens before the result. -/
def headTokens : List Token :=
  [.lbrace, .string (str "jsonrpc"), .colon, .string (str "2.0"), .comma, .string (str "result"),
    .colon]

theorem run_head (rest : Str) :
    lexer.run .outside (str "\x7b\"jsonrpc\":\"2.0\",\"result\":" ++ rest) =
      ((lexer.run .outside rest).1, headTokens ++ (lexer.run .outside rest).2) := by
  have hhead : lexer.run .outside (str "\x7b\"jsonrpc\":\"2.0\",\"result\":") =
      (.outside, headTokens) := by decide +kernel
  rw [Machine.run_append, hhead]

theorem isName_id : IsName (str "id") :=
  IsName.of_any (by decide) (by decide) (by decide) (by decide)

/-- The tokens of the `id`. -/
theorem ValidId.lex_safeId {id : Str} (h : ValidId id) :
    ∃ ts, lex (safeId id) = some ts ∧ IsValue ts := by
  obtain rfl | hid := h
  · exact ⟨[.word (str "null")], by decide, IsValue.word _⟩
  · unfold safeId
    split
    · exact ⟨[.word (str "null")], by decide, IsValue.word _⟩
    · exact hid

/-- The tokens behind the result. -/
theorem run_id {id : Str} {ts : List Token} (h : lex (safeId id) = some ts) :
    lexer.run .outside (34 :: (str "id" ++ 34 :: (58 :: safeId id ++ [125]))) =
      (.outside, .string (str "id") :: .colon :: ts ++ [Token.rbrace]) := by
  rw [← List.cons_append, run_string isName_id.body, List.cons_append, run_punctuation rfl,
    run_lex h rfl []]
  rfl

theorem replyTokens_eq (result id : List Token) :
    replyTokens result id =
      headTokens ++
        (result ++ (.comma :: (.string (str "id") :: .colon :: id ++ [Token.rbrace]))) := by
  simp [replyTokens, objectTokens, headTokens, List.intercalate]

theorem lex_body_null {id : Str} {ts : List Token} (h : lex (safeId id) = some ts) :
    lex (jsonResult id (str "null")) = some (replyTokens [.word (str "null")] ts) := by
  have htext : jsonResult id (str "null") = str "\x7b\"jsonrpc\":\"2.0\",\"result\":" ++
      (str "null" ++ 44 :: 34 :: (str "id" ++ 34 :: (58 :: safeId id ++ [125]))) := by
    simp [jsonResult, str]
  have hnull : lex (str "null") = some [.word (str "null")] := by decide
  apply lex_of_run
  rw [htext, run_head, run_lex hnull rfl, run_id h, replyTokens_eq]

/-- A reply with an object, up to the first text inserted. -/
theorem run_body (id : Str) {name : String} (hname : IsName (str name)) (t : Str) (ms : Members) :
    lexer.run .outside (jsonResult id (objectText ((name, t) :: ms))) =
      ((lexer.run (.literal [] .plain) (valuesText t ms (tailText id))).1,
        headTokens ++ (.lbrace :: .string (str name) :: .colon ::
          (lexer.run (.literal [] .plain) (valuesText t ms (tailText id))).2)) := by
  rw [jsonResult_objectText, run_head, run_punctuation (t := .lbrace) rfl, run_open,
    run_memberName hname]

theorem run_tailText {id : Str} {ts : List Token} (h : lex (safeId id) = some ts) :
    lexer.run .outside (tailText id) =
      (.outside, .rbrace :: .comma :: (.string (str "id") :: .colon :: ts ++ [Token.rbrace])) := by
  rw [tailText, List.cons_append, run_punctuation (t := .rbrace) rfl, List.cons_append,
    run_punctuation (t := .comma) rfl, List.nil_append, run_id h]

/-- The tokens of a reply with an object, from those of the texts inserted. -/
theorem lex_body {id : Str} {ts : List Token} (h : lex (safeId id) = some ts) {name : String}
    (hname : IsName (str name)) {t : Str} {ms : Members} {us : List Token}
    (hvalues : lexer.run (.literal [] .plain) (valuesText t ms (tailText id)) =
      ((lexer.run .outside (tailText id)).1, us ++ (lexer.run .outside (tailText id)).2)) :
    lex (jsonResult id (objectText ((name, t) :: ms))) =
      some (replyTokens (.lbrace :: .string (str name) :: .colon :: us ++ [Token.rbrace]) ts) := by
  apply lex_of_run
  rw [run_body id hname, hvalues, run_tailText h, replyTokens_eq]
  simp

theorem lex_body_of_bodies {id : Str} {ts : List Token} (h : lex (safeId id) = some ts)
    {name : String} {t : Str} {ms : Members} (hnames : ∀ m ∈ (name, t) :: ms, IsName (str m.1))
    (hbodies : ∀ m ∈ (name, t) :: ms, IsStringBody m.2) :
    lex (jsonResult id (objectText ((name, t) :: ms))) =
      some (replyTokens (stringsObject ((name, t) :: ms)) ts) := by
  obtain ⟨hname, hnames⟩ := List.forall_mem_cons.mp hnames
  obtain ⟨ht, hms⟩ := List.forall_mem_cons.mp hbodies
  rw [lex_body h hname (run_valuesText_of_bodies hnames ht hms [] (tailText id)),
    stringsObject_cons]
  rfl

theorem literals_laterMembers (ms : Members) : literals (laterMembers ms) = 2 * ms.length := by
  induction ms with
  | nil => rfl
  | cons m ms ih =>
    have hm : laterMembers (m :: ms) =
      .comma :: .string (str m.1) :: .colon :: .string m.2 :: laterMembers ms := rfl
    rw [hm, literals_comma, literals_string, literals_colon, literals_string, ih, List.length_cons]
    omega

theorem literals_stringsObject (ms : Members) : literals (stringsObject ms) = 2 * ms.length := by
  cases ms with
  | nil => rfl
  | cons m ms =>
    rw [stringsObject_cons]
    simp only [List.cons_append, literals_append, literals_lbrace, literals_rbrace, literals_string,
      literals_colon, literals_laterMembers, literals_nil, List.length_cons]
    omega

/-- Two sequences that end with a value each: of equal wholes, the parts are equal. -/
theorem eq_of_append_value {ts us vs ws : List Token} (hus : IsValue us) (hws : IsValue ws)
    (h : ts ++ us = vs ++ ws) : ts = vs := by
  obtain ⟨m, rfl, rfl⟩ | ⟨m, rfl, rfl⟩ := List.append_eq_append_iff.mp h
  · rw [hus.eq_nil_of_append hws, List.append_nil]
  · rw [hws.eq_nil_of_append hus, List.append_nil]

/-- The result is determined by the tokens of a reply. -/
theorem result_of_replyTokens_eq {result result' id id' : List Token} (hid : IsValue id)
    (hid' : IsValue id') (h : replyTokens result id = replyTokens result' id') :
    result = result' := by
  have hbody : result ++ [Token.comma, .string (str "id"), .colon] ++ id ++ [Token.rbrace] =
      result' ++ [Token.comma, .string (str "id"), .colon] ++ id' ++ [Token.rbrace] := by
    rw [replyTokens_eq, replyTokens_eq, List.append_cancel_left_eq] at h
    simpa using h
  exact List.append_cancel_right (eq_of_append_value hid hid' (List.append_cancel_right hbody))

/-- In a well-formed reply each text stays inside its literal, since one that does not adds a literal
to the object. -/
theorem bodies_of_wellFormed {id : Str} (hid : ValidId id) {name : String} {t : Str} {ms : Members}
    (hnames : ∀ m ∈ (name, t) :: ms, IsName (str m.1))
    (h : WellFormedReply (((name, t) :: ms).map Prod.fst)
      (jsonResult id (objectText ((name, t) :: ms)))) :
    ∀ m ∈ (name, t) :: ms, IsStringBody m.2 := by
  obtain ⟨ts, hts, hvalue⟩ := hid.lex_safeId
  obtain ⟨result, id', hlex, hid', hresult⟩ := h
  have hmid : IsStringBody [125, 44] := by decide
  have htail : ClosesLiteral (34 :: tailText id) := by
    rw [tailText]
    exact closesLiteral_name hmid isName_id _
  obtain ⟨hname, hothers⟩ := List.forall_mem_cons.mp hnames
  have hok := run_ne_failed_of_lex hlex
  rw [run_body id hname] at hok
  obtain ⟨us, hvalues, -, hall⟩ := run_valuesText htail hothers hok
  have hobject := result_of_replyTokens_eq hid' hvalue
    (Option.some.inj (hlex.symm.trans (lex_body hts hname hvalues)))
  obtain rfl | ⟨members, hfst, rfl⟩ := hresult
  · cases (List.cons.inj hobject).1
  -- As many literals as the handler names leave none for the texts to add.
  have hcount := congrArg literals hobject
  have hlength : members.length = ms.length + 1 := by simpa using congrArg List.length hfst
  simp only [List.cons_append, literals_append, literals_stringsObject, literals_lbrace,
    literals_rbrace, literals_colon, literals_string, literals_nil, hlength] at hcount
  have hbodies := hall (by omega)
  intro m hm
  exact hbodies m.2 (List.mem_map_of_mem (f := Prod.snd) hm)

/-- A reply with an object is well formed exactly when each text inserted may stand inside a
literal. -/
theorem wellFormedReply_object_iff {id : Str} (hid : ValidId id) {ms : Members} (hne : ms ≠ [])
    (hnames : ∀ m ∈ ms, IsName (str m.1)) :
    WellFormedReply (ms.map Prod.fst) (jsonResult id (objectText ms)) ↔
      ∀ m ∈ ms, IsStringBody m.2 := by
  obtain ⟨⟨name, t⟩, ms, rfl⟩ := List.exists_cons_of_ne_nil hne
  refine ⟨bodies_of_wellFormed hid hnames, fun hbodies => ?_⟩
  obtain ⟨ts, hts, hvalue⟩ := hid.lex_safeId
  exact ⟨_, ts, lex_body_of_bodies hts hnames hbodies, hvalue, Or.inr ⟨_, rfl, rfl⟩⟩

theorem wellFormedReply_null {id : Str} (hid : ValidId id) (names : List String) :
    WellFormedReply names (jsonResult id (str "null")) := by
  obtain ⟨ts, hts, hvalue⟩ := hid.lex_safeId
  exact ⟨_, ts, lex_body_null hts, hvalue, Or.inl rfl⟩

/-! ### The replies of the two handlers -/

/-- The members the handlers name. -/
def blockNames : List String := ["number", "hash", "parentHash", "stateRoot", "txRoot", "timestamp"]

theorem isName_of_mem_blockNames {name : String} (h : name ∈ blockNames) : IsName (str name) := by
  have hall : ∀ name ∈ blockNames, str name ≠ [] ∧ IsStringBody (str name) ∧
      (str name).any isDelimiter = false ∧ isWord (str name) = false := by decide
  obtain ⟨hne, hbody, hbare, hword⟩ := hall name h
  exact IsName.of_any hne hbody hbare hword

/-- A `0x` before a text changes nothing. -/
theorem isStringBody_prefixed_iff (t : Str) : IsStringBody (str "0x" ++ t) ↔ IsStringBody t := by
  have hmark : scan .plain (str "0x") = some .plain := by decide
  rw [IsStringBody, scan_append, hmark]
  rfl

theorem next_plain_of_isDigit {c : UInt8} (h : isDigit 16 c) :
    StrState.plain.next c = some .plain := by
  have hall : ∀ c : UInt8, isDigit 16 c → StrState.plain.next c = some .plain :=
    forall_byte (by decide +kernel)
  exact hall c h

theorem isStringBody_of_digits {t : Str} (h : ∀ c ∈ t, isDigit 16 c) : IsStringBody t := by
  induction t with
  | nil => rfl
  | cons c cs ih =>
    rw [IsStringBody, scan_cons, next_plain_of_isDigit (h c List.mem_cons_self)]
    exact ih fun d hd => h d (List.mem_cons_of_mem _ hd)

theorem isStringBody_quantity (v : UInt64) : IsStringBody (quantity v) :=
  (isStringBody_prefixed_iff _).mpr (isStringBody_of_digits fun _ hc => isDigit_of_mem_toHex hc)

/-- The strings of a block that both handlers insert. -/
def Block.shownTexts (b : Block) : List Str := [b.hash, b.prevHash, b.stateAfter, b.txRoot]

theorem numberObject_wellFormed_iff {id : Str} (hid : ValidId id) (numHex : Str) (b : Block) :
    WellFormedReply blockNames (jsonResult id (objectText (numberObject numHex b))) ↔
      ∀ t ∈ numHex :: b.shownTexts, IsStringBody t := by
  have hiff : WellFormedReply blockNames (jsonResult id (objectText (numberObject numHex b))) ↔
      ∀ m ∈ numberObject numHex b, IsStringBody m.2 :=
    wellFormedReply_object_iff hid (List.cons_ne_nil _ _)
      fun m hm => isName_of_mem_blockNames (List.mem_map_of_mem (f := Prod.fst) hm)
  rw [hiff]
  simp [numberObject, Block.shownTexts, isStringBody_prefixed_iff, isStringBody_quantity]

theorem hashObject_wellFormed_iff {id : Str} (hid : ValidId id) (b : Block) :
    WellFormedReply blockNames (jsonResult id (objectText (hashObject b))) ↔
      ∀ t ∈ b.shownTexts, IsStringBody t := by
  have hiff : WellFormedReply blockNames (jsonResult id (objectText (hashObject b))) ↔
      ∀ m ∈ hashObject b, IsStringBody m.2 :=
    wellFormedReply_object_iff hid (List.cons_ne_nil _ _)
      fun m hm => isName_of_mem_blockNames (List.mem_map_of_mem (f := Prod.fst) hm)
  rw [hiff]
  simp [hashObject, Block.shownTexts, isStringBody_prefixed_iff, isStringBody_quantity]

/-- The body of a reply to a valid `id` is the object the handler means exactly when the parameter
echoed and the strings of the block found may each stand inside a string literal. -/
theorem blockReplies_wellFormed_iff (bc : Blockchain) {id : Str} (hid : ValidId id) :
    (∀ numHex body, handleGetBlockByNumber bc id numHex = .ok body →
      (WellFormedReply blockNames body ↔
        ∀ num b, stoull16 numHex = .ok num → blockAt bc num = some b →
          ∀ t ∈ numHex :: b.shownTexts, IsStringBody t)) ∧
    ∀ hashHex, WellFormedReply blockNames (handleGetBlockByHash bc id hashHex) ↔
      ∀ b, blockWithHash bc hashHex = some b → ∀ t ∈ b.shownTexts, IsStringBody t := by
  constructor
  · intro numHex body hbody
    obtain ⟨reply, hreply, hbody⟩ := bind_eq_ok.mp hbody
    obtain rfl := Except.ok.inj hbody
    obtain ⟨num, hnum, hreply⟩ := bind_eq_ok.mp hreply
    cases hblock : blockAt bc num with
    | none =>
      rw [hblock] at hreply
      obtain rfl := Except.ok.inj hreply
      refine iff_of_true (wellFormedReply_null hid _) fun num' b hnum' hb => ?_
      obtain rfl := Except.ok.inj (hnum.symm.trans hnum')
      rw [hblock] at hb
      cases hb
    | some b =>
      rw [hblock] at hreply
      obtain rfl := Except.ok.inj hreply
      rw [Reply.text, numberObject_wellFormed_iff hid]
      constructor
      · intro h num' b' hnum' hb'
        obtain rfl := Except.ok.inj (hnum.symm.trans hnum')
        obtain rfl := Option.some.inj (hblock.symm.trans hb')
        exact h
      · intro h
        exact h num b hnum hblock
  · intro hashHex
    rw [handleGetBlockByHash, getBlockByHash]
    cases hblock : blockWithHash bc hashHex with
    | none => simpa [Reply.text] using wellFormedReply_null hid blockNames
    | some b =>
      dsimp only
      rw [Reply.text, hashObject_wellFormed_iff hid]
      simp

/-! ### The genesis block -/

theorem validId_one : ValidId (str "1") :=
  Or.inr ⟨[.word (str "1")], by decide, IsValue.word _⟩

theorem shownTexts_genesis : ∀ t ∈ freshChain.back.shownTexts, IsStringBody t := by
  have hhash : IsStringBody freshChain.back.hash :=
    isStringBody_of_digits fun _ hc => isDigit_of_mem_toHex hc
  have hroot : IsStringBody freshChain.back.stateAfter :=
    (isStringBody_prefixed_iff _).mpr (isStringBody_of_digits fun _ hc => isDigit_of_mem_toHex hc)
  have hzero : IsStringBody (str "0x00") := by decide
  have htexts : freshChain.back.shownTexts =
      [freshChain.back.hash, str "0x00", freshChain.back.stateAfter, str "0x00"] := rfl
  rw [htexts]
  simp [hhash, hroot, hzero]

/-- Asked for block `0`, the handler answers with a well-formed reply. -/
theorem blockReplies_wellFormed_genesis :
    ValidId (str "1") ∧ ∃ body, handleGetBlockByNumber freshChain (str "1") (str "0") = .ok body ∧
      WellFormedReply blockNames body := by
  obtain ⟨body, hbody⟩ : ∃ body, handleGetBlockByNumber freshChain (str "1") (str "0") = .ok body :=
    ⟨_, rfl⟩
  have hzero : stoull16 (str "0") = .ok 0 := rfl
  have hiff := (blockReplies_wellFormed_iff freshChain validId_one).1 _ _ hbody
  refine ⟨validId_one, body, hbody, hiff.mpr fun num b hnum hb => ?_⟩
  obtain rfl := Except.ok.inj (hzero.symm.trans hnum)
  obtain rfl : freshChain.back = b := Option.some.inj hb
  exact List.forall_mem_cons.mpr ⟨by decide, shownTexts_genesis⟩

/-- Asked for block `0","x":"y`, which is read as the number 0, it answers with a member `x`. -/
theorem injected_member :
    Blockchain.new 0 {} = .ok freshChain ∧ ValidId (str "1") ∧
      ∃ body, handleGetBlockByNumber freshChain (str "1") (str "0\",\"x\":\"y") = .ok body ∧
        ¬ WellFormedReply blockNames body := by
  refine ⟨new_eq_freshChain, validId_one,
    jsonResult (str "1") (objectText (numberObject (str "0\",\"x\":\"y") freshChain.back)), rfl, ?_⟩
  rw [numberObject_wellFormed_iff validId_one]
  intro h
  exact absurd (h _ List.mem_cons_self) (by decide)

end Gambit
