import GambitCore.Codec.JsonValue
import GambitCore.Process
import GambitCore.Rpc.Queries
import Mathlib.Data.List.DropRight

/-!
# The RPC server

`RpcServer` from the bytes of a connection to the bytes of the answer. `handleClient` calls `recv`
once, for at most 8192 bytes, and takes what it gets for the whole request. `handleRequest` looks
for the body behind the first blank line, and `handleJsonRpc` parses it and calls the handler of the
method. The parser is that of the JSON library; what the node relies on is stated as properties of
it.

A client may send a request in pieces, or one that is longer than the buffer. Then the server sees
only its beginning. If that ends before the last brace of the object in its body, nothing is
executed, since no beginning of an object is a JSON value: the client gets the answer to a request
that cannot be parsed. White space behind the brace may be missing.

## Main definitions

* `JsonLibrary`, `JsonLibrary.Sound` — the parser and what the node relies on
* `dispatch`, `execute`, `handleJsonRpc`, `handleRequest`, `handleClient`

## Main results

* `bodyOf_httpResponse` — the answer can be taken apart again
* `execute_of_submission`, `chain_execute` — the one request that changes the chain, and all others
* `request_all_or_nothing` — a request is executed as a whole or not at all
-/

namespace Gambit

open Codec Codec.Json

/-! ### The JSON library -/

/-- The parser of the JSON library. -/
structure JsonLibrary where
  /-- `json::parse`; none where it throws. -/
  parse : Str → Option Value

/-- What the parser looks at: behind a byte order mark, and up to the first null byte, which it
takes for the end of the input. -/
def significant (text : Str) : Str :=
  (match text with
  | 0xEF :: 0xBB :: 0xBF :: rest => rest
  | text => text).takeWhile (· ≠ 0)

/-- What the node relies on: only a JSON value is accepted, and its strings and numbers are such. -/
structure JsonLibrary.Sound (J : JsonLibrary) : Prop where
  wellFormed : ∀ text v, J.parse text = some v → v.WellFormed
  isValue : ∀ text v, J.parse text = some v → ∃ ts, lex (significant text) = some ts ∧ IsValue ts

/-- White space behind a text changes nothing for the parser. -/
def JsonLibrary.IgnoresBlanks (J : JsonLibrary) : Prop :=
  ∀ text blank, (∀ c ∈ blank, isWhite c) → J.parse (text ++ blank) = J.parse text

/-- `v[key]`. A member that is missing is `null`, and `null` is taken for an empty object. -/
def member (key : String) : Value → Result Value
  | .object members => .ok ((members.lookup (str key)).getD .null)
  | .null => .ok .null
  | _ => runtimeError "cannot use operator[] with a string argument"

/-- `v[0]`, in the same way. -/
def firstItem : Value → Result Value
  | .array items => .ok (items.head?.getD .null)
  | .null => .ok .null
  | _ => runtimeError "cannot use operator[] with a numeric argument"

/-- The conversion to `std::string`. -/
def asString : Value → Result Str
  | .string s => .ok s
  | _ => runtimeError "type must be string"

/-! ### The handlers -/

/-- `req["method"]` as a string. -/
def method (req : Value) : Result Str := member "method" req >>= asString

/-- `req["params"][0]` as a string. -/
def firstParam (req : Value) : Result Str := member "params" req >>= firstItem >>= asString

/-- The `id` of a request as text: that of the member, or `null`. -/
def requestId : Value → Str
  | .object members => ((members.lookup (str "id")).map Value.dump).getD (str "null")
  | _ => str "null"

/-- The calls of `handleJsonRpc` up to the text of the reply. -/
def dispatch (S : Secp256k1) (bc : Blockchain) (req : Value) : Result (Blockchain × Reply) := do
  let m ← method req
  if m = str "eth_blockNumber" then
    return (bc, blockNumber bc)
  else if m = str "eth_getBalance" then
    let addr ← firstParam req
    return (bc, getBalance bc addr)
  else if m = str "eth_sendRawTransaction" then
    let txHex ← firstParam req
    return sendRawTransaction S bc txHex
  else if m = str "net_version" then
    return (bc, netVersion bc)
  else if m = str "eth_getBlockByNumber" then
    let num ← firstParam req
    let reply ← getBlockByNumber bc num
    return (bc, reply)
  else if m = str "eth_getBlockByHash" then
    let hash ← firstParam req
    return (bc, getBlockByHash bc hash)
  else if m = str "eth_getTransactionByHash" then
    let h ← firstParam req
    return (bc, getTransactionByHash bc h)
  else if m = str "eth_getTransactionCount" then
    let addr ← firstParam req
    return (bc, getTransactionCount bc addr)
  else
    return (bc, .error (-32601) (str "Method not found"))

/-- `handleJsonRpc` behind its parser. -/
def execute (S : Secp256k1) (bc : Blockchain) (req : Value) : Blockchain × Str :=
  match dispatch S bc req with
  | .ok (bc, reply) => (bc, reply.text (requestId req))
  | .error _ => (bc, jsonError (requestId req) (-32799) (str "Parse error"))

variable (J : JsonLibrary) (S : Secp256k1)

/-- `handleJsonRpc`. Every exception is answered in the same way; until the `id` has been read it is
`null`. -/
def handleJsonRpc (bc : Blockchain) (jsonStr : Str) : Blockchain × Str :=
  match J.parse jsonStr with
  | none => (bc, jsonError (str "null") (-32799) (str "Parse error"))
  | some req => execute S bc req

/-! ### HTTP -/

/-- `httpResponse`. -/
def httpResponse (body status : Str) : Str :=
  str "HTTP/1.1 " ++ status ++ str "\r\n" ++
    str "Content-Type: application/json\r\n" ++
    str "Content-Length: " ++ str (toString body.length) ++ str "\r\n" ++
    str "Connection: close\r\n" ++
    str "\r\n" ++ body

/-- What follows the first blank line. -/
def bodyOf : Str → Option Str
  | 13 :: 10 :: 13 :: 10 :: rest => some rest
  | _ :: rest => bodyOf rest
  | [] => none

/-- The answer to a request without a blank line. -/
def noBody : Str :=
  str "\x7b\"jsonrpc\":\"2.0\",\"error\":\x7b\"code\":-32700,\"message\":\"Parse error\"\x7d,\"id\":null\x7d"

/-- `handleRequest`. -/
def handleRequest (bc : Blockchain) (httpReq : Str) : Blockchain × Str :=
  match bodyOf httpReq with
  | none => (bc, httpResponse noBody (str "200 OK"))
  | some body =>
    let (bc, jsonResp) := handleJsonRpc J S bc body
    (bc, httpResponse jsonResp (str "200 OK"))

/-- `BUF_SIZE`. -/
def bufSize : ℕ := 8192

/-- What one `recv` hands over when `n` bytes of what a client sends have arrived. -/
def received (stream : Str) (n : ℕ) : Str := stream.take (min n bufSize)

/-- `handleClient`, when `n` bytes of what the client sends have arrived as it calls `recv`. Without
any there is no answer. -/
def handleClient (bc : Blockchain) (stream : Str) (n : ℕ) : Blockchain × Option Str :=
  match received stream n with
  | [] => (bc, none)
  | req =>
    let (bc, resp) := handleRequest J S bc req
    (bc, some resp)

variable {J S}

/-! ### What a request can do -/

/-- The lookup a request asks for. -/
def lookupOf (req : Value) : Option Request :=
  match method req, firstParam req with
  | .ok m, .ok param =>
    if m = str "eth_getBlockByNumber" then some (.getBlockByNumber param)
    else if m = str "eth_getBlockByHash" then some (.getBlockByHash param)
    else if m = str "eth_getTransactionByHash" then some (.getTransactionByHash param)
    else none
  | _, _ => none

/-- The transaction a request submits. -/
def submissionOf (req : Value) : Option Str :=
  match method req, firstParam req with
  | .ok m, .ok txHex => if m = str "eth_sendRawTransaction" then some txHex else none
  | _, _ => none

/-- How a request is answered. -/
inductive DispatchCase (S : Secp256k1) (bc : Blockchain) (req : Value) :
    Result (Blockchain × Reply) → Prop
  | threw (e : Exn) (hno : lookupOf req = none) : DispatchCase S bc req (.error e)
  | number (hno : lookupOf req = none) : DispatchCase S bc req (.ok (bc, blockNumber bc))
  | account (hno : lookupOf req = none) (field : Account → UInt64) (addr : Str) :
    DispatchCase S bc req (.ok (bc, accountQuery field bc addr))
  | version (hno : lookupOf req = none) : DispatchCase S bc req (.ok (bc, netVersion bc))
  | send (hno : lookupOf req = none) (txHex : Str) (hsend : submissionOf req = some txHex) :
    DispatchCase S bc req (.ok (sendRawTransaction S bc txHex))
  | unknown (hno : lookupOf req = none) :
    DispatchCase S bc req (.ok (bc, .error (-32601) (str "Method not found")))
  | lookup (r : Request) (hr : lookupOf req = some r) :
    DispatchCase S bc req ((fun reply => (bc, reply)) <$> r.reply bc)

/-- The methods that look nothing up have other names than those that do. -/
theorem not_lookup_names {m : Str}
    (h : m ∈ [str "eth_blockNumber", str "eth_getBalance", str "eth_sendRawTransaction",
      str "net_version", str "eth_getTransactionCount"]) :
    m ≠ str "eth_getBlockByNumber" ∧ m ≠ str "eth_getBlockByHash" ∧
      m ≠ str "eth_getTransactionByHash" := by
  have hall : ∀ m ∈ [str "eth_blockNumber", str "eth_getBalance", str "eth_sendRawTransaction",
      str "net_version", str "eth_getTransactionCount"],
      m ≠ str "eth_getBlockByNumber" ∧ m ≠ str "eth_getBlockByHash" ∧
        m ≠ str "eth_getTransactionByHash" := by decide
  exact hall m h

theorem lookupOf_eq_none {req : Value} {m : Str} (hm : method req = .ok m)
    (h : m ≠ str "eth_getBlockByNumber" ∧ m ≠ str "eth_getBlockByHash" ∧
      m ≠ str "eth_getTransactionByHash") : lookupOf req = none := by
  unfold lookupOf
  rw [hm]
  cases firstParam req with
  | error e => rfl
  | ok param => simp [h.1, h.2.1, h.2.2]

theorem lookupOf_of_error {req : Value} {e : Exn} (h : method req = .error e ∨
    firstParam req = .error e) : lookupOf req = none := by
  unfold lookupOf
  rcases h with h | h
  · rw [h]
  · rw [h]
    cases method req <;> rfl

/-- A method that reads its parameter throws or goes on with it. -/
theorem DispatchCase.bind_firstParam {bc : Blockchain} {req : Value}
    {k : Str → Result (Blockchain × Reply)}
    (h : ∀ param, firstParam req = .ok param → DispatchCase S bc req (k param)) :
    DispatchCase S bc req (firstParam req >>= k) := by
  cases hparam : firstParam req with
  | error e => exact .threw e (lookupOf_of_error (.inr hparam))
  | ok param => exact h param hparam

variable (S) in
theorem dispatch_cases (bc : Blockchain) (req : Value) :
    DispatchCase S bc req (dispatch S bc req) := by
  unfold dispatch
  cases hm : method req with
  | error e => exact .threw e (lookupOf_of_error (.inl hm))
  | ok m =>
    have hother := fun h => lookupOf_eq_none hm (not_lookup_names (m := m) h)
    change DispatchCase S bc req (if m = str "eth_blockNumber" then _ else _)
    -- One branch after the other, in the order of the source.
    split
    · next h => exact .number (hother (by simp [h]))
    split
    · next h =>
      exact .bind_firstParam fun addr _ => .account (hother (by simp [h])) Account.balance addr
    split
    · next h =>
      exact .bind_firstParam fun txHex hp => .send (hother (by simp [h])) txHex
        (by simp only [submissionOf, hm, hp, if_pos h])
    split
    · next h => exact .version (hother (by simp [h]))
    split
    · next h =>
      refine .bind_firstParam fun num hp => ?_
      rw [bind_pure_comp]
      exact .lookup (.getBlockByNumber num) (by simp only [lookupOf, hm, hp, if_pos h])
    split
    · next hne h =>
      exact .bind_firstParam fun hash hp => .lookup (.getBlockByHash hash)
        (by simp only [lookupOf, hm, hp, if_neg hne, if_pos h])
    split
    · next hne hne' h =>
      exact .bind_firstParam fun hash hp => .lookup (.getTransactionByHash hash)
        (by simp only [lookupOf, hm, hp, if_neg hne, if_neg hne', if_pos h])
    split
    · next h =>
      exact .bind_firstParam fun addr _ => .account (hother (by simp [h])) Account.nonce addr
    · next hnumber hhash htx _ => exact .unknown (lookupOf_eq_none hm ⟨hnumber, hhash, htx⟩)

/-- A request for a lookup is answered by that lookup. -/
theorem dispatch_of_lookup {req : Value} {r : Request} (h : lookupOf req = some r)
    (bc : Blockchain) : dispatch S bc req = (fun reply => (bc, reply)) <$> r.reply bc := by
  have hcase := dispatch_cases S bc req
  have hsome : lookupOf req ≠ none := by simp [h]
  generalize dispatch S bc req = result at hcase ⊢
  cases hcase with
  | threw _ hno => exact absurd hno hsome
  | number hno => exact absurd hno hsome
  | account hno => exact absurd hno hsome
  | version hno => exact absurd hno hsome
  | send hno => exact absurd hno hsome
  | unknown hno => exact absurd hno hsome
  | lookup r' hr => rw [Option.some.inj (hr.symm.trans h)]

theorem method_of_submission {req : Value} {txHex : Str} (h : submissionOf req = some txHex) :
    method req = .ok (str "eth_sendRawTransaction") ∧ firstParam req = .ok txHex := by
  unfold submissionOf at h
  split at h
  · next m txHex' hm hp =>
    split at h
    · next heq =>
      obtain rfl := Option.some.inj h
      exact ⟨by rw [hm, heq], hp⟩
    · cases h
  · cases h

/-- A request to submit a transaction is executed by its handler. -/
theorem execute_of_submission {req : Value} {txHex : Str} (h : submissionOf req = some txHex)
    (bc : Blockchain) :
    execute S bc req = ((sendRawTransaction S bc txHex).1,
      (sendRawTransaction S bc txHex).2.text (requestId req)) := by
  obtain ⟨hm, hp⟩ := method_of_submission h
  have hdispatch : dispatch S bc req = .ok (sendRawTransaction S bc txHex) := by
    simp only [dispatch, hm, hp, bind, Except.bind]
    rw [if_neg (by decide), if_neg (by decide), if_pos trivial]
    rfl
  simp only [execute, hdispatch]

/-- No other request changes the chain. -/
theorem chain_execute {req : Value} (h : submissionOf req = none) (bc : Blockchain) :
    (execute S bc req).1 = bc := by
  have hcase := dispatch_cases S bc req
  unfold execute
  generalize dispatch S bc req = result at hcase ⊢
  cases hcase with
  | send _ txHex hsend => cases h.symm.trans hsend
  | lookup r _ =>
    split
    · next hreply =>
      obtain ⟨reply, -, heq⟩ := map_eq_ok.mp hreply
      exact (Prod.mk.inj heq).1.symm
    · rfl
  | _ => rfl

/-- The question for the newest block. -/
theorem dispatch_blockNumber {req : Value} (h : method req = .ok (str "eth_blockNumber"))
    (bc : Blockchain) : dispatch S bc req = .ok (bc, blockNumber bc) := by
  rw [dispatch, h]
  simp only [bind, Except.bind, if_true]
  rfl

/-! ### Blank lines -/

theorem bodyOf_cons_of_ne {c : UInt8} (h : c ≠ 13) (rest : Str) :
    bodyOf (c :: rest) = bodyOf rest := by
  rw [bodyOf]
  rintro rest' rfl
  exact absurd rfl h

/-- A text without line ends is skipped. -/
theorem bodyOf_append_of_not_mem {line : Str} (h : 13 ∉ line) (rest : Str) :
    bodyOf (line ++ rest) = bodyOf rest := by
  induction line with
  | nil => rfl
  | cons c line ih =>
    rw [List.mem_cons, not_or] at h
    rw [List.cons_append, bodyOf_cons_of_ne (Ne.symm h.1), ih h.2]

/-- One line end, with another line behind it. -/
theorem bodyOf_lineEnd {line : Str} (hne : line ≠ []) (h : 13 ∉ line) (rest : Str) :
    bodyOf (13 :: 10 :: (line ++ rest)) = bodyOf rest := by
  obtain ⟨c, line, rfl⟩ := List.exists_cons_of_ne_nil hne
  have hc : c ≠ 13 := fun heq => h (heq ▸ List.mem_cons_self)
  have hfirst : bodyOf (13 :: 10 :: (c :: line ++ rest)) = bodyOf (10 :: (c :: line ++ rest)) := by
    rw [bodyOf]
    rintro rest' - heq
    exact hc (List.cons.inj (List.cons.inj heq).2).1
  rw [hfirst, bodyOf_cons_of_ne (by decide), bodyOf_append_of_not_mem h]

/-- The first blank line stays the first when more follows. -/
theorem bodyOf_append {text body : Str} (h : bodyOf text = some body) (rest : Str) :
    bodyOf (text ++ rest) = some (body ++ rest) := by
  induction text using bodyOf.induct with
  | case1 tail =>
    obtain rfl := Option.some.inj h
    rfl
  | case2 c tail hblank ih =>
    rw [bodyOf.eq_2 _ _ hblank] at h
    -- Behind `c` there is a blank line, so that at least four bytes follow.
    rcases tail with _ | ⟨a, _ | ⟨b, _ | ⟨d, tail⟩⟩⟩
    · cases h
    · simp [bodyOf] at h
    · simp [bodyOf] at h
    · have hblank' : ∀ rest', c = 13 → a :: b :: d :: (tail ++ rest) = 10 :: 13 :: 10 :: rest' →
          False := by
        intro rest' hc heq
        simp only [List.cons.injEq] at heq
        obtain ⟨ha, hb, hd, -⟩ := heq
        exact hblank tail hc (by rw [ha, hb, hd])
      exact (bodyOf.eq_2 _ _ hblank').trans (ih h)
  | case3 => cases h

/-- A text with a body is a header that ends with the first blank line, and the body. -/
theorem exists_header {text body : Str} (h : bodyOf text = some body) :
    ∃ header, text = header ++ body ∧ bodyOf header = some [] := by
  induction text using bodyOf.induct with
  | case1 tail =>
    obtain rfl := Option.some.inj h
    exact ⟨[13, 10, 13, 10], rfl, rfl⟩
  | case2 c tail hblank ih =>
    rw [bodyOf.eq_2 _ _ hblank] at h
    obtain ⟨header, rfl, hheader⟩ := ih h
    refine ⟨c :: header, rfl, ?_⟩
    rw [bodyOf.eq_2 _ _ fun rest hc hrest => hblank (rest ++ body) hc (by rw [hrest]; rfl)]
    exact hheader
  | case3 => cases h

/-- Lines as they may stand in a header: none is empty, and none has a line end in it. -/
def IsHeader (lines : List Str) : Prop := ∀ line ∈ lines, line ≠ [] ∧ 13 ∉ line

/-- The body behind the lines of a header. -/
theorem bodyOf_lines {lines : List Str} (h : IsHeader lines) (body : Str) :
    bodyOf (13 :: 10 :: (lines.flatMap (· ++ [13, 10]) ++ 13 :: 10 :: body)) = some body := by
  induction lines with
  | nil => rfl
  | cons line lines ih =>
    obtain ⟨⟨hne, hline⟩, hlines⟩ := List.forall_mem_cons.mp h
    have hsplit : (line :: lines).flatMap (· ++ [13, 10]) ++ 13 :: 10 :: body =
        line ++ 13 :: 10 :: (lines.flatMap (· ++ [13, 10]) ++ 13 :: 10 :: body) := by simp
    rw [hsplit, bodyOf_lineEnd hne hline, ih hlines]

/-- The lines of an answer behind the first. -/
def responseLines (body : Str) : List Str :=
  [str "Content-Type: application/json", str "Content-Length: " ++ str (toString body.length),
    str "Connection: close"]

theorem httpResponse_eq (body status : Str) :
    httpResponse body status = (str "HTTP/1.1 " ++ status) ++
      13 :: 10 :: ((responseLines body).flatMap (· ++ [13, 10]) ++ 13 :: 10 :: body) := by
  simp [httpResponse, responseLines, str]

/-- The length of the body is a decimal number. -/
theorem isNumber_length (body : Str) : IsNumber 10 (str (toString body.length)) body.length :=
  isNumber_toString body.length

theorem isHeader_responseLines (body : Str) : IsHeader (responseLines body) := by
  have hdigits : (13 : UInt8) ∉ str (toString body.length) := fun hmem =>
    absurd ((isNumber_length body).digits 13 hmem) (by decide)
  have htype : str "Content-Type: application/json" ≠ [] ∧
      13 ∉ str "Content-Type: application/json" := by decide
  have hlength : str "Content-Length: " ≠ [] ∧ 13 ∉ str "Content-Length: " := by decide
  have hclose : str "Connection: close" ≠ [] ∧ 13 ∉ str "Connection: close" := by decide
  intro line hline
  simp only [responseLines, List.mem_cons, List.not_mem_nil, or_false] at hline
  rcases hline with rfl | rfl | rfl
  · exact htype
  · exact ⟨List.append_ne_nil_of_left_ne_nil hlength.1 _,
      List.not_mem_append hlength.2 hdigits⟩
  · exact hclose

/-- An answer can be taken apart again. -/
theorem bodyOf_httpResponse (body : Str) :
    bodyOf (httpResponse body (str "200 OK")) = some body := by
  have hstatus : (13 : UInt8) ∉ str "HTTP/1.1 " ++ str "200 OK" := by decide
  rw [httpResponse_eq, bodyOf_append_of_not_mem hstatus, bodyOf_lines (isHeader_responseLines body)]

/-! ### Requests that have lost their end -/

/-- The answer to what cannot be parsed, with one of its two codes. -/
def unparsed (code : Int) : Str :=
  httpResponse (jsonError (str "null") code (str "Parse error")) (str "200 OK")

theorem noBody_eq : noBody = jsonError (str "null") (-32700) (str "Parse error") := by
  decide +kernel

theorem handleRequest_of_no_body {httpReq : Str} (h : bodyOf httpReq = none) (bc : Blockchain) :
    handleRequest J S bc httpReq = (bc, unparsed (-32700)) := by
  rw [handleRequest, h, unparsed, ← noBody_eq]

theorem handleRequest_of_not_parsed {httpReq body : Str} (hbody : bodyOf httpReq = some body)
    (h : J.parse body = none) (bc : Blockchain) :
    handleRequest J S bc httpReq = (bc, unparsed (-32799)) := by
  simp only [handleRequest, hbody, handleJsonRpc, h, unparsed]

/-- What the parser looks at, of a text that does not begin with a byte order mark. -/
theorem significant_of_head {text : Str} (h : ∀ c ∈ text.head?, c ≠ 0xEF) :
    significant text = text.takeWhile (· ≠ 0) := by
  unfold significant
  split
  · exact absurd rfl (h 0xEF rfl)
  · rfl

/-- The text of an object begins with white space or a brace. -/
theorem head_of_isObjectText {text kept lost : Str} (h : IsObjectText text)
    (htext : text = kept ++ lost) : ∀ c ∈ kept.head?, c ≠ 0xEF := by
  obtain ⟨lead, inner, hlead, hbraces⟩ := h.braces
  have hhead : ∀ c ∈ text.head?, c ≠ 0xEF := by
    rw [hbraces]
    cases lead with
    | nil =>
      rintro c ⟨⟩
      decide
    | cons w lead =>
      rintro c ⟨⟩ rfl
      exact absurd (hlead 0xEF List.mem_cons_self) (by decide)
  cases kept with
  | nil => simp
  | cons c kept =>
    rw [htext] at hhead
    exact hhead

/-- No beginning of an object is parsed. -/
theorem parse_eq_none_of_cut (hJ : J.Sound) {body kept lost : Str} (h : IsObjectText body)
    (hbody : body = kept ++ lost) (hlost : lost ≠ []) : J.parse kept = none := by
  cases hparse : J.parse kept with
  | none => rfl
  | some v =>
    exfalso
    obtain ⟨ts, hlex, hvalue⟩ := hJ.isValue kept v hparse
    rw [significant_of_head (head_of_isObjectText h hbody)] at hlex
    have hcut : body = kept.takeWhile (· ≠ 0) ++ (kept.dropWhile (· ≠ 0) ++ lost) := by
      rw [← List.append_assoc, List.takeWhile_append_dropWhile, hbody]
    exact h.not_value_of_cut hcut (List.append_ne_nil_of_right_ne_nil _ hlost) hlex hvalue

/-- A request that has lost its end is answered as one that cannot be parsed. -/
theorem handleRequest_of_cut (hJ : J.Sound) {kept lost body : Str}
    (hbody : bodyOf (kept ++ lost) = some body) (h : IsObjectText body) (hlost : lost ≠ [])
    (bc : Blockchain) :
    ∃ code ∈ [-32700, -32799], handleRequest J S bc kept = (bc, unparsed code) := by
  cases hkept : bodyOf kept with
  | none => exact ⟨-32700, by simp, handleRequest_of_no_body hkept bc⟩
  | some kept' =>
    have hsplit : body = kept' ++ lost :=
      Option.some.inj (hbody.symm.trans (bodyOf_append hkept lost))
    exact ⟨-32799, by simp,
      handleRequest_of_not_parsed hkept (parse_eq_none_of_cut hJ h hsplit hlost) bc⟩

theorem handleClient_of_nil {stream : Str} {n : ℕ} (h : received stream n = []) (bc : Blockchain) :
    handleClient J S bc stream n = (bc, none) := by
  rw [handleClient, h]

theorem handleClient_of_ne_nil {stream : Str} {n : ℕ} (h : received stream n ≠ [])
    (bc : Blockchain) :
    handleClient J S bc stream n =
      ((handleRequest J S bc (received stream n)).1,
        some (handleRequest J S bc (received stream n)).2) := by
  unfold handleClient
  split
  · next hnil => exact absurd hnil h
  · rfl

theorem handleRequest_of_parsed {httpReq body : Str} {req : Value}
    (hbody : bodyOf httpReq = some body) (h : J.parse body = some req) (bc : Blockchain) :
    handleRequest J S bc httpReq =
      ((execute S bc req).1, httpResponse (execute S bc req).2 (str "200 OK")) := by
  simp only [handleRequest, hbody, handleJsonRpc, h]

/-- A request is executed as its object when only white space behind it is missing. -/
theorem handleClient_of_whole (hblanks : J.IgnoresBlanks) {header object blank : Str} {req : Value}
    (hheader : bodyOf header = some []) (hblank : ∀ c ∈ blank, isWhite c)
    (hreq : J.parse object = some req) {n : ℕ}
    (hwhole : (header ++ object).length ≤ min n bufSize) (bc : Blockchain) :
    handleClient J S bc (header ++ (object ++ blank)) n =
      ((execute S bc req).1, some (httpResponse (execute S bc req).2 (str "200 OK"))) := by
  obtain ⟨kept, hkept, hreceived⟩ : ∃ kept, (∀ c ∈ kept, isWhite c) ∧
      received (header ++ (object ++ blank)) n = header ++ (object ++ kept) := by
    refine ⟨blank.take (min n bufSize - (header ++ object).length),
      fun c hc => hblank c (List.mem_of_mem_take hc), ?_⟩
    rw [received, ← List.append_assoc, List.take_append, List.take_of_length_le hwhole,
      List.append_assoc]
  have hbody : bodyOf (header ++ (object ++ kept)) = some (object ++ kept) :=
    bodyOf_append hheader (object ++ kept)
  have hne : received (header ++ (object ++ blank)) n ≠ [] := by
    intro hnil
    rw [← hreceived, hnil] at hbody
    cases hbody
  rw [handleClient_of_ne_nil hne, hreceived,
    handleRequest_of_parsed hbody ((hblanks object kept hkept).trans hreq)]

/-- A request that is cut before the last brace of its object has no effect. -/
theorem handleClient_of_cut (hJ : J.Sound) {header object : Str} (hheader : bodyOf header = some [])
    (hobject : IsObjectText object) (blank : Str) {n : ℕ}
    (hcut : ¬ (header ++ object).length ≤ min n bufSize) (bc : Blockchain) :
    (handleClient J S bc (header ++ (object ++ blank)) n).1 = bc ∧
      ∀ resp ∈ (handleClient J S bc (header ++ (object ++ blank)) n).2,
        resp ∈ [unparsed (-32700), unparsed (-32799)] := by
  have hreceived : received (header ++ (object ++ blank)) n =
      (header ++ object).take (min n bufSize) := by
    rw [received, ← List.append_assoc, List.take_append_of_le_length (Nat.le_of_not_le hcut)]
  by_cases hnil : received (header ++ (object ++ blank)) n = []
  · rw [handleClient_of_nil hnil]
    simp
  · have hlost : (header ++ object).drop (min n bufSize) ≠ [] := by
      rw [Ne, List.drop_eq_nil_iff]
      exact hcut
    have hbody : bodyOf ((header ++ object).take (min n bufSize) ++
        (header ++ object).drop (min n bufSize)) = some object := by
      rw [List.take_append_drop]
      exact bodyOf_append hheader object
    obtain ⟨code, hcode, hhandle⟩ := handleRequest_of_cut (S := S) hJ hbody hobject hlost bc
    rw [handleClient_of_ne_nil hnil, hreceived, hhandle]
    simp only [List.mem_cons, List.not_mem_nil, or_false] at hcode
    rcases hcode with rfl | rfl <;> simp

/-- A request whose body is an object that the parser accepts, with or without white space around
it, is executed as a whole if all bytes up to the last brace have arrived and fit the buffer.
Otherwise the chain stays as it is, and the client is told, if it is told anything, that the request
cannot be parsed. -/
theorem request_all_or_nothing (hJ : J.Sound) (hblanks : J.IgnoresBlanks) (S : Secp256k1)
    (bc : Blockchain) {stream object blank : Str} {req : Value}
    (hbody : bodyOf stream = some (object ++ blank)) (hobject : IsObjectText object)
    (hblank : ∀ c ∈ blank, isWhite c) (hreq : J.parse object = some req) (n : ℕ) :
    (stream.length ≤ min n bufSize + blank.length →
      handleClient J S bc stream n =
        ((execute S bc req).1, some (httpResponse (execute S bc req).2 (str "200 OK")))) ∧
    (¬ stream.length ≤ min n bufSize + blank.length →
      (handleClient J S bc stream n).1 = bc ∧
        ∀ resp ∈ (handleClient J S bc stream n).2,
          resp ∈ [unparsed (-32700), unparsed (-32799)]) := by
  obtain ⟨header, rfl, hheader⟩ := exists_header hbody
  -- The blank is on both sides of the bound, which is about header and object only.
  rw [List.length_append, List.length_append, ← add_assoc, Nat.add_le_add_iff_right,
    ← List.length_append]
  exact ⟨fun hwhole => handleClient_of_whole hblanks hheader hblank hreq hwhole bc,
    fun hcut => handleClient_of_cut hJ hheader hobject blank hcut bc⟩

/-- A question for the newest block. -/
def ping : Str := str "\x7b\"method\":\"eth_blockNumber\",\"id\":1\x7d"

/-- The same as a value. -/
def pingValue : Value :=
  .object [(str "id", .number (str "1")), (str "method", .string (str "eth_blockNumber"))]

/-- The tokens of the two members. -/
def pingMembers : List (Str × List Token) :=
  [(str "method", [.string (str "eth_blockNumber")]), (str "id", [.word (str "1")])]

theorem isValue_pingMembers : ∀ m ∈ pingMembers, IsValue m.2 := by
  simp [pingMembers, IsValue.string, IsValue.word]

theorem lex_ping : lex ping = some (objectTokens pingMembers) := by decide +kernel

theorem isObjectText_ping : IsObjectText ping :=
  ⟨⟨[], (ping.drop 1).dropLast, by simp, by decide +kernel⟩,
    ⟨pingMembers, lex_ping, isValue_pingMembers⟩⟩

/-- The library on this question, whatever white space follows it. -/
def pingJson : JsonLibrary :=
  ⟨fun text => if text.rdropWhile isWhite = ping then some pingValue else none⟩

theorem parse_ping : pingJson.parse ping = some pingValue := by
  have htrim : ping.rdropWhile isWhite = ping := by decide +kernel
  simp only [pingJson, htrim, if_true]

theorem pingJson_ignoresBlanks : pingJson.IgnoresBlanks := by
  intro text blank hblank
  have htrim : (text ++ blank).rdropWhile isWhite = text.rdropWhile isWhite := by
    rw [List.rdropWhile, List.rdropWhile, List.reverse_append,
      List.dropWhile_append_of_pos fun c hc => hblank c (List.mem_reverse.mp hc)]
  simp only [pingJson, htrim]

/-- The question behind a short header. -/
def pingStream : Str := str "POST\r\n\r\n" ++ ping

theorem bodyOf_pingStream : bodyOf pingStream = some ping := rfl

theorem pingJson_sound : pingJson.Sound := by
  have hparse : ∀ {text : Str} {v : Value}, pingJson.parse text = some v →
      text.rdropWhile isWhite = ping ∧ v = pingValue := by
    intro text v h
    simp only [pingJson] at h
    split at h
    · next htext => exact ⟨htext, (Option.some.inj h).symm⟩
    · cases h
  constructor
  · intro text v h
    obtain ⟨-, rfl⟩ := hparse h
    have hkeys : IsUtf8 (str "id") ∧ IsUtf8 (str "method") := by decide
    have hnumber : isNumeral (str "1") := by decide
    have hmethod : IsUtf8 (str "eth_blockNumber") := by decide
    exact .object (by simpa using hkeys) (by simpa using ⟨.number hnumber, .string hmethod⟩)
  · intro text v h
    have htext : text = ping ++ text.rtakeWhile isWhite := by
      rw [← (hparse h).1, List.rdropWhile_append_rtakeWhile]
    have hblank : ∀ c ∈ text.rtakeWhile isWhite, isWhite c := fun c hc =>
      List.mem_rtakeWhile_imp hc
    generalize text.rtakeWhile isWhite = blank at htext hblank
    subst htext
    have hzero : ∀ c ∈ ping ++ blank, (c ≠ 0 : Bool) := by
      have hping : ∀ c ∈ ping, (c ≠ 0 : Bool) := List.all_eq_true.mp (by decide)
      intro c hc
      rcases List.mem_append.mp hc with hc | hc
      · exact hping c hc
      · exact decide_eq_true (ne_zero_of_isWhite (hblank c hc))
    refine ⟨objectTokens pingMembers, ?_, IsValue.object _ isValue_pingMembers⟩
    have hhead : ∀ c ∈ (ping ++ blank).head?, c ≠ 0xEF := by
      rintro c ⟨⟩
      decide
    rw [significant_of_head hhead, List.takeWhile_eq_self_iff.mpr hzero,
      lex_append_of_isWhite hblank, lex_ping]

/-- The question with a line end behind it is answered when all of it has arrived but for the line
end. When the last brace is missing too, the client is told that it cannot be parsed. -/
theorem request_all_or_nothing_ping :
    (handleClient pingJson devLib freshChain (pingStream ++ str "\r\n") 43).2 =
        some (httpResponse (jsonResult (str "1") (quoted (str "0x0"))) (str "200 OK")) ∧
      ∀ resp ∈ (handleClient pingJson devLib freshChain (pingStream ++ str "\r\n") 42).2,
        resp ∈ [unparsed (-32700), unparsed (-32799)] := by
  have hlength : (pingStream ++ str "\r\n").length = 45 := by decide +kernel
  have hblank : ∀ c ∈ str "\r\n", isWhite c := List.all_eq_true.mp (by decide)
  have hall := request_all_or_nothing pingJson_sound pingJson_ignoresBlanks devLib freshChain
    (bodyOf_append bodyOf_pingStream (str "\r\n")) isObjectText_ping hblank parse_ping
  constructor
  · rw [(hall 43).1 (by rw [hlength]; decide)]
    rfl
  · exact ((hall 42).2 (by rw [hlength]; decide)).2

end Gambit
