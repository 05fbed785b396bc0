import GambitCore.Rpc.Threads

/-!
# What clients are told over time

A run of the node with clients that connect at any moment and send any bytes, each in a thread of
its own. Two requests that are under way at once may be answered in either order, and the one that
is answered first may have seen the longer chain. But everything a client has been told stays true
for each request that is read from then on: the number of the newest block has not gone down, every
block up to the number that was answered can be asked for by that number, and a block that was found
once is found again with the same bytes in the answer. Blocks are only ever put at the end of the
chain, with their position for an index.

## Main definitions

* `respond` — the answer to a request that was parsed
* `Consistent` — what an earlier answer says about a later one
* `Lasting` — what an answer that was given says about the chain
* `Server.Unread` — the request of a client has not been read

## Main results

* `found_of_grown` — a block that was found is found on every longer chain
* `answers_consistent` — an answer is consistent with all that were sent before its request was read
-/

namespace Gambit

open Codec Codec.Json

variable {J : JsonLibrary} {S : Secp256k1}

/-! ### Answers about the chain -/

/-- The answer to a request that was parsed. -/
def respond (S : Secp256k1) (bc : Blockchain) (req : Value) : Str :=
  httpResponse ((replyOf (dispatch S bc req)).text (requestId req)) (str "200 OK")

/-- The question for the newest block. -/
def AsksNumber (req : Value) : Prop := method req = .ok (str "eth_blockNumber")

/-- The lookups of blocks. -/
def Request.IsBlockLookup : Request → Prop
  | getBlockByNumber _ => True
  | getBlockByHash _ => True
  | getTransactionByHash _ => False

/-- The requests whose answers are looked at here. -/
def AsksBlocks (req : Value) : Prop :=
  AsksNumber req ∨ ∃ r, lookupOf req = some r ∧ r.IsBlockLookup

/-- The answer with a number. -/
def numberResponse (req : Value) (k : UInt64) : Str :=
  httpResponse (jsonResult (requestId req) (quoted (hexNumber k))) (str "200 OK")

/-- The answer to a lookup that has found something, or nothing. -/
def lookupResponse (req : Value) (r : Request) (found : Option Found) : Str :=
  httpResponse (jsonResult (requestId req) (resultText r found)) (str "200 OK")

theorem respond_of_asksNumber {req : Value} (h : AsksNumber req) (bc : Blockchain) :
    respond S bc req = numberResponse req bc.back.index := by
  rw [respond, dispatch_blockNumber h]
  rfl

/-- What is found decides the answer to a lookup. -/
theorem respond_of_lookup {req : Value} {r : Request} (h : lookupOf req = some r)
    {bc : Blockchain} {found : Option Found} (hfound : r.found bc = .ok found) :
    respond S bc req = lookupResponse req r found := by
  rw [respond, dispatch_of_lookup h, r.reply_eq, hfound]
  rfl

/-- A lookup that throws does so whatever the chain is. -/
theorem found_eq_error {r : Request} {bc : Blockchain} {e : Exn} (h : r.found bc = .error e)
    (bc' : Blockchain) : r.found bc' = .error e := by
  cases r with
  | getBlockByNumber numHex =>
    rcases bind_eq_error.mp h with hread | ⟨num, -, hreturn⟩
    · exact bind_eq_error.mpr (.inl hread)
    · cases hreturn
  | getBlockByHash hashHex => cases h
  | getTransactionByHash hashHex =>
    simp only [Request.found] at h
    split at h <;> cases h

/-- A block that was found is found on every longer chain. -/
theorem found_of_grown {r : Request} (hr : r.IsBlockLookup) {bc bc' : Blockchain}
    (hgrow : bc.chain <+: bc'.chain) {f : Found} (h : r.found bc = .ok (some f)) :
    r.found bc' = .ok (some f) := by
  obtain ⟨later, hlater⟩ := hgrow
  cases r with
  | getBlockByNumber numHex =>
    obtain ⟨num, hnum, hfound⟩ := bind_eq_ok.mp h
    obtain ⟨b, hb, rfl⟩ := Option.map_eq_some_iff.mp (Except.ok.inj hfound)
    have hb' : blockAt bc' num = some b := by
      obtain ⟨hlt, -⟩ := List.getElem?_eq_some_iff.mp hb
      rw [blockAt, ← hlater, List.getElem?_append_left hlt]
      exact hb
    simp only [Request.found, hnum, hb', bind, Except.bind]
    rfl
  | getBlockByHash hashHex =>
    obtain ⟨b, hb, rfl⟩ := Option.map_eq_some_iff.mp (Except.ok.inj h)
    have hb' : blockWithHash bc' hashHex = some b := by
      rw [blockWithHash, ← hlater, List.find?_append]
      simp only [blockWithHash] at hb
      rw [hb]
      rfl
    rw [Request.found, hb']
    rfl
  | getTransactionByHash hashHex => cases hr

/-- The answer to a lookup of a block, unless it was that there is none, is the same on every longer
chain. -/
theorem respond_of_grown {req : Value} {r : Request} (h : lookupOf req = some r)
    (hr : r.IsBlockLookup) {bc bc' : Blockchain} (hgrow : bc.chain <+: bc'.chain)
    (hfound : respond S bc req ≠ lookupResponse req r none) :
    respond S bc' req = respond S bc req := by
  cases hcase : r.found bc with
  | error e =>
    rw [respond, respond, dispatch_of_lookup h, dispatch_of_lookup h, r.reply_eq, r.reply_eq, hcase,
      found_eq_error hcase bc']
    rfl
  | ok found =>
    cases found with
    | none => exact absurd (respond_of_lookup h hcase) hfound
    | some f =>
      rw [respond_of_lookup h hcase, respond_of_lookup h (found_of_grown hr hgrow hcase)]

/-! ### Consistent answers -/

/-- What an earlier answer says about a later one. -/
structure Consistent (e e' : Exchange) : Prop where
  /-- The number of the newest block does not go down. -/
  number : ∀ req req', e.asked = some req → e'.asked = some req' → AsksNumber req →
    AsksNumber req' → ∃ k k', e.response = numberResponse req k ∧
      e'.response = numberResponse req' k' ∧ k.toNat ≤ k'.toNat
  /-- Under a number that was answered there is a block with that index. -/
  found : ∀ req req' k, e.asked = some req → AsksNumber req →
    e.response = numberResponse req k → e'.asked = some req' →
    lookupOf req' = some (.getBlockByNumber (hexNumber k)) → ∃ b : Block, b.index = k ∧
      e'.response = lookupResponse req' (.getBlockByNumber (hexNumber k)) (some (.block b))
  /-- A block that was found is found again, and shown in the same way. -/
  stays : ∀ req r, e.asked = some req → e'.asked = some req → lookupOf req = some r →
    r.IsBlockLookup → e.response ≠ lookupResponse req r none → e'.response = e.response

/-- What an answer that was given says about the chain. -/
structure Lasting (S : Secp256k1) (bc : Blockchain) (e : Exchange) : Prop where
  number : ∀ req, e.asked = some req → AsksNumber req →
    ∃ b ∈ bc.chain, b.index.toNat ≤ bc.back.index.toNat ∧ e.response = numberResponse req b.index
  stays : ∀ req r, e.asked = some req → lookupOf req = some r → r.IsBlockLookup →
    e.response ≠ lookupResponse req r none → e.response = respond S bc req

/-- The answer about blocks that the chain gives. -/
def Exchange.TakenFrom (S : Secp256k1) (bc : Blockchain) (e : Exchange) : Prop :=
  ∀ req, e.asked = some req → AsksBlocks req → e.response = respond S bc req

/-- The indices of a linked chain that is not too long. -/
structure Indexed (bc : Blockchain) : Prop where
  linkage : Linkage bc.chain
  length_le : bc.chain.length ≤ 2 ^ 64

theorem Indexed.toNat_index {bc : Blockchain} (h : Indexed bc) {i : ℕ} (hi : i < bc.chain.length) :
    (bc.chain[i].index).toNat = i := by
  rw [h.linkage.index_eq i hi, UInt64.toNat_ofNat_of_lt' (Nat.lt_of_lt_of_le hi h.length_le)]

theorem Indexed.toNat_back {bc : Blockchain} (h : Indexed bc) :
    bc.back.index.toNat = bc.chain.length - 1 := by
  rw [Blockchain.back, List.getLast_eq_getElem]
  exact h.toNat_index _

/-- No block has a greater index than the last one. -/
theorem Indexed.le_back {bc : Blockchain} (h : Indexed bc) {b : Block} (hb : b ∈ bc.chain) :
    b.index.toNat ≤ bc.back.index.toNat := by
  obtain ⟨i, hi, rfl⟩ := List.getElem_of_mem hb
  rw [h.toNat_index hi, h.toNat_back]
  omega

/-- What an answer says holds for the chain it was taken from. -/
theorem Exchange.TakenFrom.lasting {bc : Blockchain} {e : Exchange} (h : e.TakenFrom S bc) :
    Lasting S bc e := by
  refine ⟨fun req hasked hnumber => ?_, fun req r hasked hlookup hr _ =>
    h req hasked (.inr ⟨r, hlookup, hr⟩)⟩
  refine ⟨bc.back, List.getLast_mem _, le_rfl, ?_⟩
  rw [h req hasked (.inl hnumber), respond_of_asksNumber hnumber]

/-- And for every longer chain. -/
theorem Lasting.of_grown {bc bc' : Blockchain} {e : Exchange} (h : Lasting S bc e)
    (hindexed : Indexed bc') (hgrow : bc.chain <+: bc'.chain) : Lasting S bc' e := by
  constructor
  · intro req hasked hnumber
    obtain ⟨b, hb, -, hresponse⟩ := h.number req hasked hnumber
    have hb' : b ∈ bc'.chain := hgrow.subset hb
    exact ⟨b, hb', hindexed.le_back hb', hresponse⟩
  · intro req r hasked hlookup hr hfound
    have hresponse := h.stays req r hasked hlookup hr hfound
    rw [hresponse, respond_of_grown hlookup hr hgrow fun heq => hfound (by rw [hresponse, heq])]

theorem hexNumber_injective : Function.Injective hexNumber := by
  intro k k' h
  have hk := (isNumber_hexText k.toNat).unique
    (by rw [List.append_cancel_left h]; exact isNumber_hexText k'.toNat)
  exact UInt64.toNat_inj.mp hk

/-- The number in an answer can be read from it. -/
theorem numberResponse_injective {req : Value} {k k' : UInt64}
    (h : numberResponse req k = numberResponse req k') : k = k' := by
  have hbody := congrArg bodyOf h
  rw [numberResponse, numberResponse, bodyOf_httpResponse, bodyOf_httpResponse] at hbody
  have htext : jsonResult (requestId req) (quoted (hexNumber k)) =
      jsonResult (requestId req) (quoted (hexNumber k')) := Option.some.inj hbody
  simp only [jsonResult, List.append_cancel_right_eq, List.append_cancel_left_eq] at htext
  exact hexNumber_injective (quoted_injective htext)

/-- A later answer is consistent with what earlier ones have said about the chain it is taken
from. -/
theorem Lasting.consistent {bc : Blockchain} {e e' : Exchange} (h : Lasting S bc e)
    (hindexed : Indexed bc) (h' : e'.TakenFrom S bc) : Consistent e e' := by
  constructor
  · intro req req' hasked hasked' hnumber hnumber'
    obtain ⟨b, hb, hle, hresponse⟩ := h.number req hasked hnumber
    refine ⟨b.index, bc.back.index, hresponse, ?_, hle⟩
    rw [h' req' hasked' (.inl hnumber'), respond_of_asksNumber hnumber']
  · intro req req' k hasked hnumber hk hasked' hlookup
    obtain ⟨b, hb, -, hresponse⟩ := h.number req hasked hnumber
    obtain rfl := numberResponse_injective (hk.symm.trans hresponse)
    refine ⟨b, rfl, ?_⟩
    rw [h' req' hasked' (.inr ⟨_, hlookup, trivial⟩),
      respond_of_lookup hlookup (found_hexNumber hindexed.linkage hindexed.length_le hb)]
  · intro req r hasked hasked' hlookup hr hfound
    rw [h' req hasked' (.inr ⟨r, hlookup, hr⟩), h.stays req r hasked hlookup hr hfound]

/-! ### What a step answers -/

/-- The requests that take more than one step do not ask for blocks. -/
def ClientPhase.Placed : ClientPhase → Prop
  | decoded req _ => ¬ AsksBlocks req
  | validated req _ => ¬ AsksBlocks req
  | searching req _ => ¬ AsksBlocks req
  | _ => True

theorem not_asksBlocks_of_submission {req : Value} {txHex : Str}
    (h : submissionOf req = some txHex) : ¬ AsksBlocks req := by
  rintro (hnumber | ⟨r, hlookup, -⟩)
  · have hmethod := (method_of_submission h).1.symm.trans hnumber
    exact absurd (Except.ok.inj hmethod) (by decide)
  · cases (lookupOf_of_submission h).symm.trans hlookup

theorem not_asksBlocks_of_getTransaction {req : Value} {hashHex : Str}
    (h : lookupOf req = some (.getTransactionByHash hashHex)) : ¬ AsksBlocks req := by
  rintro (hnumber | ⟨r, hlookup, hr⟩)
  · cases h.symm.trans (lookupOf_eq_none hnumber (by decide))
  · obtain rfl := Option.some.inj (h.symm.trans hlookup)
    exact hr

theorem takenFrom_reply_of_not {req : Value} (h : ¬ AsksBlocks req) (bc : Blockchain)
    (reply : Reply) : (Exchange.reply req reply).TakenFrom S bc := by
  intro req' hasked hblocks
  obtain rfl := Option.some.inj hasked
  exact absurd hblocks h

/-- A handler has given the answer of the chain, or it answers no question for blocks. -/
theorem beginRequest_cases (bc : Blockchain) (req : Value) :
    (beginRequest S bc req).Placed ∧
      ∀ e, beginRequest S bc req = .answered e → e.TakenFrom S bc := by
  unfold beginRequest
  split
  · next hsub =>
    have hnot := not_asksBlocks_of_submission hsub
    split
    · exact ⟨hnot, fun e he => by cases he⟩
    · refine ⟨trivial, fun e he => ?_⟩
      obtain rfl := ClientPhase.answered.inj he
      exact takenFrom_reply_of_not hnot bc _
  · next hlookup =>
    have hnot := not_asksBlocks_of_getTransaction hlookup
    split
    · refine ⟨trivial, fun e he => ?_⟩
      obtain rfl := ClientPhase.answered.inj he
      exact takenFrom_reply_of_not hnot bc _
    · exact ⟨hnot, fun e he => by cases he⟩
  · refine ⟨trivial, fun e he => ?_⟩
    obtain rfl := ClientPhase.answered.inj he
    intro req' hasked _
    obtain rfl := Option.some.inj hasked
    rfl

/-- The same for each step of a thread. An answer that is there stays as it is. -/
theorem ClientPhase.Placed.next {phase : ClientPhase} (h : phase.Placed) (J : JsonLibrary)
    (bc : Blockchain) :
    (phase.next J S bc).2.Placed ∧ ∀ e, (phase.next J S bc).2 = .answered e →
      phase = .answered e ∨ e.TakenFrom S bc := by
  have hreply {req : Value} (hnot : ¬ AsksBlocks req) (reply : Reply) (e : Exchange)
      (he : ClientPhase.answered (.reply req reply) = .answered e) : e.TakenFrom S bc := by
    obtain rfl := ClientPhase.answered.inj he
    exact takenFrom_reply_of_not hnot bc reply
  cases phase with
  | connected stream => exact ⟨trivial, fun e he => .inl he⟩
  | answered e => exact ⟨trivial, fun e he => .inl he⟩
  | closed => exact ⟨trivial, fun e he => .inl he⟩
  | searching req hashHex => exact ⟨trivial, fun e he => .inr (hreply h _ e he)⟩
  | validated req tx => exact ⟨trivial, fun e he => .inr (hreply h _ e he)⟩
  | decoded req tx =>
    rw [ClientPhase.next]
    split
    · exact ⟨h, fun e he => by cases he⟩
    · exact ⟨trivial, fun e he => .inr (hreply h _ e he)⟩
  | read httpReq =>
    rw [ClientPhase.next]
    split
    · next req _ =>
      obtain ⟨hplaced, htaken⟩ := beginRequest_cases (S := S) bc req
      exact ⟨hplaced, fun e he => .inr (htaken e he)⟩
    · refine ⟨trivial, fun e he => .inr ?_⟩
      obtain rfl := ClientPhase.answered.inj he
      intro req hasked
      cases hasked

namespace Server

/-- Each thread is where it can be. -/
def Placed (s : Server) : Prop := ∀ phase ∈ s.clients, phase.Placed

/-- What a step does to the threads, and what it sends. -/
structure StepCase (S : Secp256k1) (s next : Server) (sent : List (ℕ × Exchange)) : Prop where
  placed : next.Placed
  answered : ∀ (k : ℕ) (e : Exchange), next.clients[k]? = some (.answered e) →
    s.clients[k]? = some (.answered e) ∨ e.TakenFrom S s.node.chain
  sent : ∀ k e, (k, e) ∈ sent → s.clients[k]? = some (.answered e)

theorem Placed.stepCase_of_eq {s next : Server} (h : s.Placed)
    (hclients : next.clients = s.clients) : StepCase S s next [] :=
  ⟨fun phase hphase => h phase (hclients ▸ hphase), fun k e hk => .inl (hclients ▸ hk), by simp⟩

/-- A step of the thread of client `k`. -/
theorem Placed.advance {s : Server} (h : s.Placed) {k : ℕ} {phase : ClientPhase}
    (hk : s.clients[k]? = some phase) {result : Blockchain × ClientPhase}
    (hplaced : result.2.Placed)
    (hanswered : ∀ e, result.2 = .answered e →
      phase = .answered e ∨ e.TakenFrom S s.node.chain)
    {sent : List (ℕ × Exchange)}
    (hsent : ∀ k e, (k, e) ∈ sent → s.clients[k]? = some (.answered e)) :
    StepCase S s (s.advance k result) sent := by
  refine ⟨fun phase' hphase' => ?_, fun k' e hk' => ?_, hsent⟩
  · rcases List.mem_or_eq_of_mem_set hphase' with hold | rfl
    · exact h phase' hold
    · exact hplaced
  · by_cases heq : k' = k
    · subst heq
      obtain ⟨hlt, -⟩ := List.getElem?_eq_some_iff.mp hk
      have hself : (s.advance k' result).clients[k']? = some result.2 := List.getElem?_set_self hlt
      rcases hanswered e (Option.some.inj (hself.symm.trans hk')) with rfl | htaken
      · exact .inl hk
      · exact .inr htaken
    · have hother : (s.advance k result).clients[k']? = s.clients[k']? :=
        List.getElem?_set_ne (Ne.symm heq)
      exact .inl (hother ▸ hk')

/-- A new client has been answered nothing. -/
theorem Placed.accept {s : Server} (h : s.Placed) (stream : Str) :
    StepCase S s { s with clients := s.clients ++ [.connected stream] } [] := by
  refine ⟨fun phase hphase => ?_, fun k e hk => ?_, by simp⟩
  · rcases List.mem_append.mp hphase with hold | hnew
    · exact h phase hold
    · rw [List.mem_singleton.mp hnew]
      trivial
  · rw [List.getElem?_append] at hk
    split at hk
    · exact .inl hk
    · cases List.mem_singleton.mp (List.mem_of_getElem? hk)

theorem Placed.step {s : Server} (h : s.Placed) (J : JsonLibrary) (act : ServerAct) :
    StepCase S s ((serverMachine J S).step s act).1 ((serverMachine J S).step s act).2 := by
  have hnothing : StepCase S s s [] := h.stepCase_of_eq rfl
  rcases s.step_eq_or J S act with hstep | hstep
  · rw [hstep]
    cases act with
    | process act => exact h.stepCase_of_eq rfl
    | accept stream => exact h.accept stream
    | recv k n =>
      rw [ServerAct.step]
      split
      · next stream hk =>
        split
        · exact h.advance hk (by trivial) (fun e he => by cases he) (by simp)
        · exact h.advance hk (by trivial) (fun e he => by cases he) (by simp)
      · exact hnothing
    | handle k =>
      rw [ServerAct.step]
      split
      · next phase hk =>
        obtain ⟨hplaced, hanswered⟩ :=
          (h phase (List.mem_of_getElem? hk)).next (S := S) J s.node.chain
        exact h.advance hk hplaced hanswered (by simp)
      · exact hnothing
    | send k =>
      rw [ServerAct.step]
      split
      · next e hk =>
        refine h.advance hk (by trivial) (fun e he => by cases he) fun k' e' hsent => ?_
        obtain ⟨rfl, rfl⟩ := Prod.mk.inj (List.mem_singleton.mp hsent)
        exact hk
      · exact hnothing
  · rw [hstep]
    exact hnothing

/-- The request of client `k` has not been read, or the client is not there yet. -/
def Unread (s : Server) (k : ℕ) : Prop :=
  ∀ phase, s.clients[k]? = some phase → ∃ stream, phase = .connected stream

/-- The server as it starts, to mine `n` blocks. -/
def start (bc : Blockchain) (n : ℕ) : Server := ⟨.start bc n, []⟩

end Server

/-! ### Whole runs -/

/-- A step of the node and its clients keeps the chain linked, and only adds to it. -/
theorem linkage_server {s : Server} (h : Linkage s.node.chain.chain) (J : JsonLibrary)
    (S : Secp256k1) (act : ServerAct) :
    Linkage ((serverMachine J S).step s act).1.node.chain.chain ∧
      s.node.chain.chain <+: ((serverMachine J S).step s act).1.node.chain.chain := by
  -- The process with the submissions of the clients does the same to the chain.
  obtain ⟨node, hnode⟩ : ∃ node, s.ExtendedBy node :=
    ⟨⟨⟨s.node.chain, s.node.inFlight ++ s.clients.filterMap ClientPhase.submission⟩, s.node.main,
      s.node.loop⟩, rfl, rfl, rfl, .refl _⟩
  obtain ⟨acts, hacts⟩ := exists_process_run J S hnode [act]
  have hchain : _ = ((serverMachine J S).step s act).1.node.chain := hacts.chain_eq
  obtain ⟨ops, hops⟩ := exists_op_run S node acts
  rw [hnode.chain_eq, hchain] at hops
  rw [← hops]
  exact linkage_run h ops

/-- What a run keeps: the chain is linked, and as long as its indices fit, what clients were told or
are about to be told lasts. -/
structure Told (S : Secp256k1) (s : Server) (history : List (ℕ × Exchange)) : Prop where
  linkage : Linkage s.node.chain.chain
  placed : s.Placed
  sent : s.node.chain.chain.length ≤ 2 ^ 64 → ∀ k e, (k, e) ∈ history → Lasting S s.node.chain e
  answered : s.node.chain.chain.length ≤ 2 ^ 64 → ∀ (k : ℕ) (e : Exchange),
    s.clients[k]? = some (.answered e) → Lasting S s.node.chain e

theorem Told.step {s : Server} {history : List (ℕ × Exchange)} (h : Told S s history)
    (act : ServerAct) :
    Told S ((serverMachine J S).step s act).1
      (history ++ ((serverMachine J S).step s act).2) := by
  obtain ⟨hlink, hgrow⟩ := linkage_server h.linkage J S act
  obtain ⟨hplaced, hanswered, hsent⟩ := h.placed.step (S := S) J act
  generalize (serverMachine J S).step s act = next at *
  have hshorter := hgrow.length_le
  refine ⟨hlink, hplaced, fun hlen k e he => ?_, fun hlen k e hk => ?_⟩
  · -- What is sent was answered before.
    have hbefore : Lasting S s.node.chain e := by
      rcases List.mem_append.mp he with hold | hnew
      · exact h.sent (hshorter.trans hlen) k e hold
      · exact h.answered (hshorter.trans hlen) k e (hsent k e hnew)
    exact hbefore.of_grown ⟨hlink, hlen⟩ hgrow
  · -- A new answer was taken from the chain before the step, which only extends it.
    have hbefore : Lasting S s.node.chain e := by
      rcases hanswered k e hk with hold | htaken
      · exact h.answered (hshorter.trans hlen) k e hold
      · exact htaken.lasting
    exact hbefore.of_grown ⟨hlink, hlen⟩ hgrow

/-- What a run keeps for an answer `e` that was sent before the request of client `k` was read. -/
structure Ahead (S : Secp256k1) (e : Exchange) (k : ℕ) (s : Server)
    (history : List (ℕ × Exchange)) : Prop where
  linkage : Linkage s.node.chain.chain
  placed : s.Placed
  lasting : s.node.chain.chain.length ≤ 2 ^ 64 → Lasting S s.node.chain e
  sent : s.node.chain.chain.length ≤ 2 ^ 64 → ∀ e', (k, e') ∈ history → Consistent e e'
  answered : s.node.chain.chain.length ≤ 2 ^ 64 → ∀ e',
    s.clients[k]? = some (.answered e') → Consistent e e'

theorem Ahead.step {e : Exchange} {k : ℕ} {s : Server} {history : List (ℕ × Exchange)}
    (h : Ahead S e k s history) (act : ServerAct) :
    Ahead S e k ((serverMachine J S).step s act).1
      (history ++ ((serverMachine J S).step s act).2) := by
  obtain ⟨hlink, hgrow⟩ := linkage_server h.linkage J S act
  obtain ⟨hplaced, hanswered, hsent⟩ := h.placed.step (S := S) J act
  generalize (serverMachine J S).step s act = next at *
  have hshorter := hgrow.length_le
  refine ⟨hlink, hplaced, fun hlen => ?_, fun hlen e' he' => ?_, fun hlen e' hk => ?_⟩
  · exact (h.lasting (hshorter.trans hlen)).of_grown ⟨hlink, hlen⟩ hgrow
  · rcases List.mem_append.mp he' with hold | hnew
    · exact h.sent (hshorter.trans hlen) e' hold
    · exact h.answered (hshorter.trans hlen) e' (hsent k e' hnew)
  · -- The request of the client is read behind `e`, so that its answer is taken from a chain for
    -- which what `e` says still holds.
    rcases hanswered k e' hk with hold | htaken
    · exact h.answered (hshorter.trans hlen) e' hold
    · have hindexed : Indexed s.node.chain := ⟨h.linkage, hshorter.trans hlen⟩
      exact (h.lasting hindexed.length_le).consistent hindexed htaken

theorem ahead_of_told {s : Server} {history : List (ℕ × Exchange)} (h : Told S s history) {j k : ℕ}
    {e : Exchange} (he : (j, e) ∈ history) (hk : s.Unread k) : Ahead S e k s [] := by
  refine ⟨h.linkage, h.placed, fun hlen => h.sent hlen j e he, by simp, fun _ e' hanswered => ?_⟩
  obtain ⟨stream, hstream⟩ := hk _ hanswered
  cases hstream

/-- In every run of the node with any clients, an answer that was sent before the request of another
client was read says nothing that the answer to that request takes back: the number of the newest
block does not go down, each number that was answered belongs to a block that can be looked up, and
a block that was found is found again with the same bytes. -/
theorem answers_consistent {now : UInt64} {genesis : GenesisConfig} {bc : Blockchain}
    (hnew : Blockchain.new now genesis = .ok bc) (J : JsonLibrary) (S : Secp256k1) (n : ℕ)
    {acts acts' : List ServerAct} {s s' : Server} {sent sent' : List (ℕ × Exchange)}
    (hrun : (serverMachine J S).run (.start bc n) acts = (s, sent))
    (hrun' : (serverMachine J S).run s acts' = (s', sent'))
    (hlen : s'.node.chain.chain.length ≤ 2 ^ 64) {j k : ℕ} {e e' : Exchange}
    (he : (j, e) ∈ sent) (hk : s.Unread k) (he' : (k, e') ∈ sent') : Consistent e e' := by
  have hguard (s : Server) (acts : List ServerAct) :
      (serverMachine J S).Guarded (fun _ _ => True) s acts :=
    (serverMachine J S).guarded_of_forall (fun _ _ => trivial) s acts
  have hstart : Told S (.start bc n) [] :=
    ⟨linkage_new hnew, by simp [Server.Placed, Server.start], fun _ => by simp,
      fun _ => by simp [Server.start]⟩
  have htold := Machine.run_history (Told S) (fun s history act h _ => h.step act) hstart
    (hguard (.start bc n) acts)
  rw [hrun, List.nil_append] at htold
  have hahead := Machine.run_history (Ahead S e k) (fun s history act h _ => h.step act)
    (ahead_of_told htold he hk) (hguard s acts')
  rw [hrun', List.nil_append] at hahead
  exact hahead.sent hlen e' he'

theorem received_pingStream : received pingStream 100 = pingStream := by decide +kernel

theorem asked_pingStream : asked pingJson (received pingStream 100) = some pingValue := by
  rw [received_pingStream, asked, bodyOf_pingStream, Option.bind_some, parse_ping]

/-- The question is answered with the number of the newest block. -/
theorem handleClient_pingStream (bc : Blockchain) :
    handleClient pingJson devLib bc pingStream 100 =
      (bc, some (numberResponse pingValue bc.back.index)) := by
  have hmethod : method pingValue = .ok (str "eth_blockNumber") := by decide
  have hne : received pingStream 100 ≠ [] := by
    rw [received_pingStream]
    decide
  have hexecute : execute devLib bc pingValue =
      (bc, (blockNumber bc).text (requestId pingValue)) := by
    simp only [execute, dispatch_blockNumber hmethod]
  rw [handleClient_of_ne_nil hne, received_pingStream,
    handleRequest_of_parsed bodyOf_pingStream parse_ping, hexecute]
  rfl

/-- Client `k` connects and asks the question. -/
def pingBy (k : ℕ) : List ServerAct :=
  [.accept pingStream, .recv k 100, .handle k, .handle k, .handle k, .send k]

theorem run_pingBy {s : Server} (halive : s.node.alive = true) :
    (serverMachine pingJson devLib).run s (pingBy s.clients.length) =
      (⟨s.node, s.clients ++ [.closed]⟩,
        [(s.clients.length,
          ⟨some pingValue, numberResponse pingValue s.node.chain.back.index⟩)]) := by
  have haccept : (serverMachine pingJson devLib).step s (.accept pingStream) =
      (⟨s.node, s.clients ++ [.connected pingStream]⟩, []) := if_pos halive
  have hlast : (s.clients ++ [.connected pingStream])[s.clients.length]? =
      some (.connected pingStream) := by simp
  have hthread := run_thread (J := pingJson) (S := devLib)
    (s := ⟨s.node, s.clients ++ [.connected pingStream]⟩) halive hlast 100
  rw [handleClient_pingStream, asked_pingStream] at hthread
  rw [pingBy, Machine.run_cons, haccept, hthread]
  simp [Server.advance]

/-- The node behind the block that `main` mines. -/
def minedOne : Process :=
  ⟨⟨(freshChain.mineBlock 0).1, []⟩, .mined freshBlock 0, .building .idle⟩

/-- A client asks for the newest block, `main` mines one, and another client asks. -/
theorem answers_consistent_pingTwice :
    ((serverMachine pingJson devLib).run (.start freshChain 1) (pingBy 0)).2 =
        [(0, ⟨some pingValue, numberResponse pingValue 0⟩)] ∧
      ((serverMachine pingJson devLib).run ⟨.start freshChain 1, [.closed]⟩
          (.process (.thread (.mainStep 0)) :: pingBy 1)).2 =
        [(1, ⟨some pingValue, numberResponse pingValue 1⟩)] ∧
      Consistent ⟨some pingValue, numberResponse pingValue 0⟩
        ⟨some pingValue, numberResponse pingValue 1⟩ := by
  have hfirst : (serverMachine pingJson devLib).run (.start freshChain 1) (pingBy 0) =
      (⟨.start freshChain 1, [.closed]⟩,
        [(0, ⟨some pingValue, numberResponse pingValue 0⟩)]) :=
    run_pingBy (s := .start freshChain 1) rfl
  have hmine : (serverMachine pingJson devLib).step ⟨.start freshChain 1, [.closed]⟩
      (.process (.thread (.mainStep 0))) = (⟨minedOne, [.closed]⟩, []) := rfl
  have hsecond : (serverMachine pingJson devLib).run ⟨.start freshChain 1, [.closed]⟩
      (.process (.thread (.mainStep 0)) :: pingBy 1) =
      (⟨minedOne, [.closed, .closed]⟩,
        [(1, ⟨some pingValue, numberResponse pingValue 1⟩)]) := by
    rw [Machine.run_cons, hmine]
    exact run_pingBy (s := ⟨minedOne, [.closed]⟩) rfl
  refine ⟨congrArg Prod.snd hfirst, congrArg Prod.snd hsecond, ?_⟩
  refine answers_consistent new_eq_freshChain pingJson devLib 1 hfirst hsecond (by decide)
    List.mem_cons_self (fun phase hphase => ?_) List.mem_cons_self
  cases hphase

end Gambit
