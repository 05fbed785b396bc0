import GambitCore.Rpc.Server
import GambitCore.Rpc.WellFormed

/-!
# What the server answers

Whatever bytes arrive, the server answers with a JSON-RPC response to them: the `id` is that of the
request, and the rest is a result or an error. The texts of all exceptions that can end in an answer
may stand inside a string literal. The only replies that can go wrong are those of the lookups, into
which strings of the chain and of the request are inserted as they are.

## Main definitions

* `Plain` — the text of an exception may stand inside a literal
* `WellFormedResponse` — a response with a given `id`
* `shown`, `insertedTexts`, `shownNames` — what a lookup puts into its answer

## Main results

* `plain_fromHex` — the exceptions of a transaction that cannot be decoded
* `response_wellFormed_iff` — which answers are well formed
-/

namespace Gambit

open Codec Codec.Json

/-! ### The texts of exceptions -/

/-- The text of an exception may stand inside a literal. -/
def Plain {α : Type} (r : Result α) : Prop := ∀ e, r = .error e → IsStringBody (str e.what)

section Plain

variable {α β : Type}

theorem plain_ok (a : α) : Plain (.ok a : Result α) := by
  intro e h
  cases h

theorem plain_error {e : Exn} (h : IsStringBody (str e.what)) : Plain (.error e : Result α) := by
  intro e he
  cases he
  exact h

theorem plain_runtimeError {what : String} (h : IsStringBody (str what)) :
    Plain (runtimeError what : Result α) :=
  plain_error h

theorem Plain.bind {x : Result α} {f : α → Result β} (hx : Plain x) (hf : ∀ a, Plain (f a)) :
    Plain (x >>= f) := by
  intro e h
  rcases bind_eq_error.mp h with hfirst | ⟨a, -, hsecond⟩
  · exact hx e hfirst
  · exact hf a e hsecond

theorem plain_ite {p : Prop} [Decidable p] {x y : Result α} (hx : Plain x) (hy : Plain y) :
    Plain (if p then x else y) := by
  split
  · exact hx
  · exact hy

theorem plain_slice (b : Bytes) (first last : UInt64) : Plain (slice b first last) :=
  plain_ite (plain_error (by decide)) (plain_ite (plain_ok _) (plain_error (by decide)))

theorem plain_readAt (b : Bytes) (i : UInt64) : Plain (readAt b i) := by
  unfold readAt
  split
  · exact plain_ok _
  · exact plain_error (by decide)

end Plain

theorem plain_hexCharToNibble (c : UInt8) : Plain (hexCharToNibble c) :=
  plain_ite (plain_ok _) (plain_ite (plain_ok _) (plain_ite (plain_ok _)
    (plain_runtimeError (by decide))))

theorem plain_fromHexPairs (s : Str) : Plain (fromHexPairs s) := by
  induction s using fromHexPairs.induct with
  | case1 hi lo rest ih =>
    rw [fromHexPairs]
    exact (plain_hexCharToNibble hi).bind fun _ => (plain_hexCharToNibble lo).bind fun _ =>
      ih.bind fun _ => plain_ok _
  | case2 s hshort =>
    rw [fromHexPairs]
    · exact plain_ok _
    · exact hshort

theorem plain_gambitFromHex (hex : Str) : Plain (fromHex hex) :=
  plain_ite (plain_runtimeError (by decide)) (plain_fromHexPairs _)

theorem plain_readBigEndian (inp : Bytes) (n : ℕ) (offset out : UInt64) :
    Plain (Rlp.readBigEndian inp n offset out) := by
  induction n generalizing offset out with
  | zero => exact plain_ok _
  | succ n ih => exact (plain_readAt inp offset).bind fun _ => ih _ _

theorem plain_readLen (inp : Bytes) (offset pfx base : UInt64) :
    Plain (Rlp.readLen inp offset pfx base) :=
  plain_ite (plain_ok _) (plain_ite (plain_runtimeError (by decide))
    ((plain_readBigEndian _ _ _ _).bind fun _ => plain_ok _))

/-- The decoder and its loop over the items of a list, by induction on the step budget. -/
theorem plain_decodeAt_decodeItems (fuel : ℕ) :
    (∀ inp offset, Plain (Rlp.decodeAt fuel inp offset)) ∧
      ∀ inp offset stop, Plain (Rlp.decodeItems fuel inp offset stop) := by
  have hfuel : ∀ {α : Type}, Plain (.error .outOfFuel : Result α) := fun e h => by
    cases h
    decide
  induction fuel with
  | zero => exact ⟨fun _ _ => hfuel, fun _ _ _ => hfuel⟩
  | succ fuel ih =>
    obtain ⟨hitem, hitems⟩ := ih
    constructor
    · intro inp offset
      rw [Rlp.decodeAt]
      refine plain_ite (plain_runtimeError (by decide)) ((plain_readAt _ _).bind fun pfx => ?_)
      refine plain_ite (plain_ok _) (plain_ite ?_ ?_)
      · exact (plain_readLen _ _ _ _).bind fun _ => plain_ite (plain_runtimeError (by decide))
          ((plain_slice _ _ _).bind fun _ => plain_ok _)
      · exact (plain_readLen _ _ _ _).bind fun _ => plain_ite (plain_runtimeError (by decide))
          ((hitems _ _ _).bind fun _ => plain_ok _)
    · intro inp offset stop
      rw [Rlp.decodeItems]
      exact plain_ite ((hitem _ _).bind fun _ => (hitems _ _ _).bind fun _ => plain_ok _)
        (plain_ok _)

theorem plain_decode (inp : Bytes) : Plain (Rlp.decode inp) :=
  ((plain_decodeAt_decodeItems _).1 _ _).bind fun _ => plain_ok _

theorem plain_fromBytes (bytes : Bytes) : Plain (Address.fromBytes bytes) := by
  unfold Address.fromBytes
  split
  · exact plain_ok _
  · exact plain_runtimeError (by decide)

theorem plain_recoverAddress (S : Secp256k1) (msgHash : Bytes32) (sig : Signature)
    (chainId : UInt64) : Plain (recoverAddress S msgHash sig chainId) := by
  have hid : Plain (recoveryId sig.v chainId) :=
    plain_ite (plain_ok _) (plain_ite (plain_runtimeError (by decide))
      (plain_ite (plain_runtimeError (by decide)) (plain_ok _)))
  refine hid.bind fun recId => ?_
  split
  · split
    · exact plain_runtimeError (by decide)
    · split
      · exact plain_runtimeError (by decide)
      · exact plain_fromBytes _
  · exact plain_runtimeError (by decide)

/-- The exceptions of a transaction that cannot be decoded. -/
theorem plain_fromHex (S : Secp256k1) (hex : Str) : Plain (Transaction.fromHex S hex) := by
  refine (plain_gambitFromHex _).bind fun raw => (plain_decode raw).bind fun root => ?_
  unfold Transaction.ofDecoded
  split
  · refine (plain_ite (plain_ok _) (plain_fromBytes _)).bind fun to_ => ?_
    exact plain_ite (plain_runtimeError (by decide))
      ((plain_recoverAddress _ _ _ _).bind fun _ => plain_ok _)
  · exact plain_runtimeError (by decide)

/-- The messages of a transaction that is not valid. -/
theorem isStringBody_of_validateTransaction {S : Secp256k1} {bc : Blockchain} {tx : Transaction}
    {err : String} (h : bc.validateTransaction S tx = .error err) : IsStringBody (str err) := by
  have hall : ∀ err ∈ ["Invalid chainId", "Invalid signature", "Invalid nonce", "Gas cost overflow",
      "Total cost overflow", "Insufficient funds"], IsStringBody (str err) := by decide
  refine hall err ?_
  unfold Blockchain.validateTransaction at h
  dsimp only at h
  repeat' split at h
  all_goals cases h
  all_goals simp

/-! ### Responses -/

/-- The tokens of an error. -/
def errorTokens (code : Int) (message : Str) (id : List Token) : List Token :=
  objectTokens [(str "jsonrpc", [.string (str "2.0")]),
    (str "error", objectTokens
      [(str "code", [.word (str (toString code))]), (str "message", [.string message])]),
    (str "id", id)]

/-- The body is one JSON object: a response with the given `id`. A result is `null`, a string, or an
object with the members named, each of them a string. -/
def WellFormedResponse (names : List String) (id : List Token) (body : Str) : Prop :=
  (∃ result, lex body = some (replyTokens result id) ∧
    (result = [.word (str "null")] ∨ (∃ s, result = [.string s]) ∨
      ∃ members, members.map Prod.fst = names ∧ result = stringsObject members)) ∨
  ∃ code message, lex body = some (errorTokens code message id)

/-- The tokens before the code of an error. -/
def errorHead : List Token :=
  [.lbrace, .string (str "jsonrpc"), .colon, .string (str "2.0"), .comma, .string (str "error"),
    .colon, .lbrace, .string (str "code"), .colon]

theorem lex_jsonError {id : Str} {ts : List Token} (hid : lex (safeId id) = some ts) {code : Int}
    (hcode : lex (str (toString code)) = some [.word (str (toString code))]) {message : Str}
    (hmessage : IsStringBody message) :
    lex (jsonError id code message) = some (errorTokens code message ts) := by
  have htext : jsonError id code message =
      str "\x7b\"jsonrpc\":\"2.0\",\"error\":\x7b\"code\":" ++ (str (toString code) ++ 44 ::
        (34 :: str "message" ++ 34 :: (58 :: (34 :: message ++ 34 ::
          (125 :: 44 :: (34 :: (str "id" ++ 34 :: (58 :: safeId id ++ [125])))))))) := by
    simp [jsonError, str]
  have hhead : lexer.run .outside (str "\x7b\"jsonrpc\":\"2.0\",\"error\":\x7b\"code\":") =
      (.outside, errorHead) := by decide +kernel
  have hname : IsStringBody (str "message") := by decide
  apply lex_of_run
  rw [htext, Machine.run_append, hhead, run_lex hcode rfl, run_string hname, run_punctuation rfl,
    run_string hmessage, run_punctuation rfl, run_punctuation rfl, run_id hid]
  simp [errorTokens, errorHead, objectTokens, List.intercalate]

theorem lex_jsonResult_quoted {id : Str} {ts : List Token} (hid : lex (safeId id) = some ts)
    {s : Str} (hs : IsStringBody s) :
    lex (jsonResult id (quoted s)) = some (replyTokens [.string s] ts) := by
  have htext : jsonResult id (quoted s) = str "\x7b\"jsonrpc\":\"2.0\",\"result\":" ++
      (34 :: s ++ 34 :: (44 :: (34 :: (str "id" ++ 34 :: (58 :: safeId id ++ [125]))))) := by
    simp [jsonResult, quoted, str]
  apply lex_of_run
  rw [htext, run_head, run_string hs, run_punctuation rfl, run_id hid, replyTokens_eq]
  rfl

/-! ### Objects -/

/-- The texts a lookup inserts as they are. -/
def Request.texts (r : Request) : Found → List Str
  | .block b =>
    match r with
    | getBlockByNumber numHex => numHex :: b.shownTexts
    | _ => b.shownTexts
  | .pending tx => [tx.hash]
  | .mined b tx => [tx.hash, b.hash]

theorem isStringBody_toHex (a : Address) : IsStringBody (a.toHex true) := by
  have hlen : (toHex a.bytes).length ≤ (toHex (keccak256 (toHex a.bytes))).length := by
    rw [length_toHex, length_toHex, a.length_bytes, length_keccak256]
    decide
  obtain ⟨hdigits, -⟩ := Address.zipWith_checksumChar hlen
    (isHexText_toHex a.bytes).isDigit (map_toLower_toHex a.bytes)
  exact (isStringBody_prefixed_iff _).mpr (isStringBody_of_digits hdigits)

/-- The other texts of an object are digits. -/
theorem bodies_object_iff (r : Request) (f : Found) :
    (∀ m ∈ r.object f, IsStringBody m.2) ↔ ∀ t ∈ r.texts f, IsStringBody t := by
  cases f with
  | block b =>
    cases r <;> simp [Request.object, Request.texts, numberObject, hashObject, Block.shownTexts,
      isStringBody_prefixed_iff, isStringBody_quantity]
  | pending tx => simp [Request.object, Request.texts, isStringBody_quantity, isStringBody_toHex]
  | mined b tx => simp [Request.object, Request.texts, isStringBody_quantity, isStringBody_toHex]

/-- The members a transaction can have. -/
def txNames : List String := ["hash", "blockHash", "blockNumber", "from", "to", "value", "nonce"]

theorem isName_of_mem_txNames {name : String} (h : name ∈ txNames) : IsName (str name) := by
  have hall : ∀ name ∈ txNames, str name ≠ [] ∧ IsStringBody (str name) ∧
      (str name).any isDelimiter = false ∧ isWord (str name) = false := by decide
  obtain ⟨hne, hbody, hbare, hword⟩ := hall name h
  exact IsName.of_any hne hbody hbare hword

theorem isName_object (r : Request) (f : Found) : ∀ m ∈ r.object f, IsName (str m.1) := by
  have hnames : ∀ m ∈ r.object f, m.1 ∈ blockNames ∨ m.1 ∈ txNames := by
    cases f with
    | block b => cases r <;> simp [Request.object, numberObject, hashObject, blockNames]
    | pending tx => simp [Request.object, txNames]
    | mined b tx => simp [Request.object, txNames]
  intro m hm
  rcases hnames m hm with hblock | htx
  · exact isName_of_mem_blockNames hblock
  · exact isName_of_mem_txNames htx

/-- The text of an object is no other response than one with an object. -/
theorem tokens_of_lex_object {id : Str} {name : String} (hname : IsName (str name)) {t : Str}
    {ms : Members} {us : List Token}
    (h : lex (jsonResult id (objectText ((name, t) :: ms))) = some us) :
    ∃ rest, us = headTokens ++ .lbrace :: rest := by
  -- The lexer is past the first brace of the object before it meets an inserted text.
  unfold lex at h
  rw [run_body id hname] at h
  split at h
  · next tokens hrun =>
    obtain rfl := Option.some.inj h
    exact ⟨_, (Prod.mk.inj hrun).2.symm⟩
  · next w tokens hrun =>
    split at h
    · obtain rfl := Option.some.inj h
      rw [← (Prod.mk.inj hrun).2, List.append_assoc]
      exact ⟨_, rfl⟩
    · cases h
  · cases h

theorem wellFormedReply_of_response {id : Str} {name : String} (hname : IsName (str name)) {t : Str}
    {ms : Members} {names : List String} {ts : List Token} (hts : IsValue ts)
    (h : WellFormedResponse names ts (jsonResult id (objectText ((name, t) :: ms)))) :
    WellFormedReply names (jsonResult id (objectText ((name, t) :: ms))) := by
  rcases h with ⟨result, hlex, hnull | ⟨s, rfl⟩ | hobject⟩ | ⟨code, message, hlex⟩
  · exact ⟨result, ts, hlex, hts, .inl hnull⟩
  · obtain ⟨rest, hrest⟩ := tokens_of_lex_object hname hlex
    rw [replyTokens_eq] at hrest
    cases (List.cons.inj (List.append_cancel_left hrest)).1
  · exact ⟨result, ts, hlex, hts, .inr hobject⟩
  · obtain ⟨rest, hrest⟩ := tokens_of_lex_object hname hlex
    have hmember : some (Token.string (str "error")) = some (.string (str "result")) :=
      congrArg (fun us : List Token => us[5]?) hrest
    exact absurd hmember (by decide)

/-- The response to a lookup that has found something. -/
theorem wellFormedResponse_object_iff {id : Str} {ts : List Token} (hid : lex id = some ts)
    (hts : IsValue ts) (hsafe : lex (safeId id) = some ts) (r : Request) (f : Found) :
    WellFormedResponse ((r.object f).map Prod.fst) ts (jsonResult id (objectText (r.object f))) ↔
      ∀ t ∈ r.texts f, IsStringBody t := by
  rw [← bodies_object_iff]
  have hvalid : ValidId id := .inr ⟨ts, hid, hts⟩
  have hnames := isName_object r f
  obtain ⟨name, t, ms, hms⟩ : ∃ name t ms, r.object f = (name, t) :: ms := by
    cases f with
    | block b => cases r <;> exact ⟨_, _, _, rfl⟩
    | pending tx => exact ⟨_, _, _, rfl⟩
    | mined b tx => exact ⟨_, _, _, rfl⟩
  rw [hms] at hnames ⊢
  constructor
  · intro h
    exact bodies_of_wellFormed hvalid hnames
      (wellFormedReply_of_response (hnames _ List.mem_cons_self) hts h)
  · intro hbodies
    exact .inl ⟨_, lex_body_of_bodies hsafe hnames hbodies, .inr (.inr ⟨_, rfl, rfl⟩)⟩

/-! ### Other replies -/

/-- The replies that are well formed whatever the chain is: `null`, a plain string, or an error. -/
inductive PlainReply : Reply → Prop
  | null : PlainReply (.result (str "null"))
  | text {s : Str} (h : IsStringBody s) : PlainReply (.result (quoted s))
  | error {code : Int} (hcode : code ∈ [-32799, -32700, -32602, -32601, -32000]) {message : Str}
      (h : IsStringBody message) : PlainReply (.error code message)

theorem PlainReply.wellFormed {reply : Reply} (h : PlainReply reply) {id : Str} {ts : List Token}
    (hid : lex (safeId id) = some ts) (names : List String) :
    WellFormedResponse names ts (reply.text id) := by
  cases h with
  | null => exact .inl ⟨_, lex_body_null hid, .inl rfl⟩
  | text h => exact .inl ⟨_, lex_jsonResult_quoted hid h, .inr (.inl ⟨_, rfl⟩)⟩
  | @error code hcode message h =>
    have hall : ∀ code ∈ [(-32799 : Int), -32700, -32602, -32601, -32000],
        lex (str (toString code)) = some [.word (str (toString code))] := by decide
    exact .inr ⟨_, _, lex_jsonError hid (hall code hcode) h⟩

theorem isStringBody_hexNumber (v : UInt64) : IsStringBody (hexNumber v) :=
  (isStringBody_prefixed_iff _).mpr (isStringBody_of_digits (isNumber_hexText v.toNat).digits)

theorem plainReply_accountQuery (field : Account → UInt64) (bc : Blockchain) (addrHex : Str) :
    PlainReply (accountQuery field bc addrHex) := by
  unfold accountQuery
  split
  · exact .text (isStringBody_hexNumber _)
  · exact .error (by decide) (by decide)

theorem plainReply_netVersion (bc : Blockchain) : PlainReply (netVersion bc) := by
  refine .text (isStringBody_of_digits fun c hc => ?_)
  have hdigit : isDigit 10 c := (isNumber_toString bc.chainId.toNat).digits c hc
  simp only [isDigit, decide_eq_true_eq] at hdigit ⊢
  omega

theorem plainReply_sendRawTransaction (S : Secp256k1) (bc : Blockchain) (txHex : Str) :
    PlainReply (sendRawTransaction S bc txHex).2 := by
  unfold sendRawTransaction
  split
  · next e he => exact .error (by decide) (plain_fromHex S txHex e he)
  · next tx htx =>
    split
    · next err herr => exact .error (by decide) (isStringBody_of_validateTransaction herr)
    · -- The answer repeats a field of the transaction, which the decoder has computed.
      have hhash : tx.answeredHash = tx.computeHash := by
        rw [Transaction.answeredHash, (Transaction.derived_of_fromHex htx).1, ite_self]
      rw [hhash]
      exact .text ((isStringBody_prefixed_iff _).mpr
        (isStringBody_of_digits fun _ hc => isDigit_of_mem_toHex hc))

/-! ### Whole requests -/

/-- What a lookup shows. -/
def shown (bc : Blockchain) (req : Value) : Option (Request × Found) :=
  (lookupOf req).bind fun r =>
    match r.found bc with
    | .ok (some f) => some (r, f)
    | _ => none

/-- The names of its members. -/
def shownNames : Option (Request × Found) → List String
  | some (r, f) => (r.object f).map Prod.fst
  | none => []

/-- The texts it inserts. -/
def insertedTexts : Option (Request × Found) → List Str
  | some (r, f) => r.texts f
  | none => []

/-- The request behind the bytes, if there is one. -/
def asked (J : JsonLibrary) (httpReq : Str) : Option Value := (bodyOf httpReq).bind J.parse

/-- The text of its `id`. -/
def askedId (req : Option Value) : Str := (req.map requestId).getD (str "null")

theorem lex_null : lex (str "null") = some [.word (str "null")] := by decide

/-- The `id` of a request is a value. -/
theorem lex_requestId {req : Value} (h : req.WellFormed) :
    ∃ ts, lex (requestId req) = some ts ∧ IsValue ts := by
  have hnull : ∃ ts, lex (str "null") = some ts ∧ IsValue ts := ⟨_, lex_null, IsValue.word _⟩
  cases h with
  | @object members hkeys hmembers =>
    rw [requestId]
    cases hid : members.lookup (str "id") with
    | none => exact hnull
    | some v =>
      have hmem : (str "id", v) ∈ members := by
        obtain ⟨before, after, rfl, -⟩ := List.lookup_eq_some_iff.mp hid
        exact List.mem_append_right _ List.mem_cons_self
      exact (hmembers _ hmem).lex_dump
  | _ => exact hnull

theorem lex_safeId {id : Str} {ts : List Token} (h : lex id = some ts) (hts : IsValue ts) :
    lex (safeId id) = some ts := by
  cases id with
  | nil =>
    obtain rfl := Option.some.inj h
    exact absurd rfl hts.ne_nil
  | cons c cs => exact h

theorem shown_of_none {bc : Blockchain} {req : Value} (h : lookupOf req = none) :
    shown bc req = none := by
  rw [shown, h]
  rfl

/-- The reply to a request that was parsed. -/
def replyOf : Result (Blockchain × Reply) → Reply
  | .ok (_, reply) => reply
  | .error _ => .error (-32799) (str "Parse error")

theorem execute_snd (S : Secp256k1) (bc : Blockchain) (req : Value) :
    (execute S bc req).2 = (replyOf (dispatch S bc req)).text (requestId req) := by
  unfold execute
  cases dispatch S bc req <;> rfl

theorem response_of_dispatch {S : Secp256k1} {bc : Blockchain} {req : Value}
    {result : Result (Blockchain × Reply)} (hcase : DispatchCase S bc req result) {ts : List Token}
    (hid : lex (requestId req) = some ts) (hts : IsValue ts) :
    WellFormedResponse (shownNames (shown bc req)) ts ((replyOf result).text (requestId req)) ↔
      ∀ t ∈ insertedTexts (shown bc req), IsStringBody t := by
  have hsafe := lex_safeId hid hts
  have hthrew : PlainReply (.error (-32799) (str "Parse error")) := .error (by decide) (by decide)
  have hplain : ∀ {reply : Reply}, lookupOf req = none → PlainReply reply →
      (WellFormedResponse (shownNames (shown bc req)) ts (reply.text (requestId req)) ↔
        ∀ t ∈ insertedTexts (shown bc req), IsStringBody t) := by
    intro reply hno hreply
    refine iff_of_true (hreply.wellFormed hsafe _) ?_
    rw [shown_of_none hno]
    simp [insertedTexts]
  cases hcase with
  | threw e hno => exact hplain hno hthrew
  | number hno => exact hplain hno (.text (isStringBody_hexNumber _))
  | account hno field addr => exact hplain hno (plainReply_accountQuery field bc addr)
  | version hno => exact hplain hno (plainReply_netVersion bc)
  | send hno txHex => exact hplain hno (plainReply_sendRawTransaction S bc txHex)
  | unknown hno => exact hplain hno (.error (by decide) (by decide))
  | lookup r hr =>
    rw [r.reply_eq]
    cases hfound : r.found bc with
    | error e =>
      have hnone : shown bc req = none := by simp [shown, hr, hfound]
      rw [hnone]
      exact iff_of_true (hthrew.wellFormed hsafe _) (by simp [insertedTexts])
    | ok found =>
      cases found with
      | none =>
        have hnone : shown bc req = none := by simp [shown, hr, hfound]
        rw [hnone]
        exact iff_of_true (PlainReply.null.wellFormed hsafe _) (by simp [insertedTexts])
      | some f =>
        have hsome : shown bc req = some (r, f) := by simp [shown, hr, hfound]
        rw [hsome]
        exact wellFormedResponse_object_iff hid hts hsafe r f

/-- A body as it should be sent in answer to a request, or to none: its `id` is that of the request,
and it is a response exactly when the texts that a lookup has inserted may each stand inside a
string literal. Where there is no lookup, or nothing is found, it always is one. -/
def ResponseTo (bc : Blockchain) (req : Option Value) (body : Str) : Prop :=
  ∃ ts, lex (askedId req) = some ts ∧ IsValue ts ∧
    (WellFormedResponse (shownNames (req.bind (shown bc))) ts body ↔
      ∀ t ∈ insertedTexts (req.bind (shown bc)), IsStringBody t)

theorem responseTo_none (bc : Blockchain) {code : Int}
    (hcode : code ∈ [-32799, -32700, -32602, -32601, -32000]) :
    ResponseTo bc none (jsonError (str "null") code (str "Parse error")) := by
  have hreply : PlainReply (.error code (str "Parse error")) := .error hcode (by decide)
  exact ⟨_, lex_null, IsValue.word _,
    iff_of_true (hreply.wellFormed (lex_safeId lex_null (IsValue.word _)) _)
      (by simp [insertedTexts])⟩

/-- Whatever bytes arrive, the answer is an HTTP response that states the length of its body, and
its body answers the request that was sent. -/
theorem response_wellFormed_iff {J : JsonLibrary} (hJ : J.Sound) (S : Secp256k1) (bc : Blockchain)
    (httpReq : Str) :
    ∃ body, bodyOf (handleRequest J S bc httpReq).2 = some body ∧
      (∃ head digits, (handleRequest J S bc httpReq).2 =
          head ++ str "Content-Length: " ++ digits ++ str "\r\nConnection: close\r\n\r\n" ++ body ∧
        IsNumber 10 digits body.length) ∧
      ResponseTo bc (asked J httpReq) body := by
  -- The frame is the same in all cases, so that it remains to look at the body.
  suffices h : ∃ body, (handleRequest J S bc httpReq).2 = httpResponse body (str "200 OK") ∧
      ResponseTo bc (asked J httpReq) body by
    obtain ⟨body, hresponse, hbody⟩ := h
    refine ⟨body, by rw [hresponse, bodyOf_httpResponse], ?_, hbody⟩
    refine ⟨str "HTTP/1.1 200 OK\r\nContent-Type: application/json\r\n", _, ?_,
      isNumber_length body⟩
    rw [hresponse]
    simp [httpResponse, str]
  cases hbody : bodyOf httpReq with
  | none =>
    have hnone : asked J httpReq = none := by rw [asked, hbody]; rfl
    rw [handleRequest_of_no_body hbody, hnone]
    exact ⟨_, rfl, responseTo_none bc (by decide)⟩
  | some body =>
    cases hparse : J.parse body with
    | none =>
      have hnone : asked J httpReq = none := by rw [asked, hbody]; exact hparse
      rw [handleRequest_of_not_parsed hbody hparse, hnone]
      exact ⟨_, rfl, responseTo_none bc (by decide)⟩
    | some req =>
      have hasked : asked J httpReq = some req := by rw [asked, hbody]; exact hparse
      obtain ⟨ts, hid, hts⟩ := lex_requestId (hJ.wellFormed body req hparse)
      refine ⟨_, by rw [handleRequest_of_parsed hbody hparse], ?_⟩
      rw [hasked, execute_snd]
      exact ⟨ts, hid, hts, response_of_dispatch (dispatch_cases S bc req) hid hts⟩

/-- The newest block of a fresh chain is asked for, and the answer is well formed. -/
theorem response_wellFormed_ping :
    ∃ body, bodyOf (handleRequest pingJson devLib freshChain pingStream).2 = some body ∧
      WellFormedResponse [] [.word (str "1")] body := by
  obtain ⟨body, hbody, -, ts, hid, -, hiff⟩ := response_wellFormed_iff pingJson_sound devLib
    freshChain pingStream
  have hasked : asked pingJson pingStream = some pingValue := by
    rw [asked, bodyOf_pingStream, Option.bind_some, parse_ping]
  have hno : lookupOf pingValue = none := by decide
  have hts : lex (str "1") = some [.word (str "1")] := by decide
  rw [hasked] at hid hiff
  obtain rfl := Option.some.inj (hts.symm.trans hid)
  rw [Option.bind_some, shown_of_none hno] at hiff
  exact ⟨body, hbody, hiff.mpr (by simp [insertedTexts])⟩

end Gambit
