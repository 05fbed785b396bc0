import GambitCore.Process
import Mathlib.Logic.Function.Basic

/-!
# A network of nodes

Any number of nodes that all run this program, with connections between them. A node broadcasts the
blocks it makes to its peers; `broadcastNewTx` is called nowhere. What is written to a connection is
a stream of bytes, which the thread of the receiving peer turns back into messages and hands to
`onMessage`, sooner or later, and which may break off at any byte. The system may end a node at any
moment, as it does by `SIGPIPE` when a node announces a block to a peer that is gone.

A block that one of these nodes makes is dropped by every other one, whatever its chain: with
transactions its text is refused, and without them its proof has lost what it commits to. So a
network of honest nodes is a set of nodes that each run alone.

## Main definitions

* `Link`, `Network`, `NetAct`, `netMachine`
* `NetAct.own` — what of an action is a node's own
* `Faithful` — the texts that are sent fit into a frame, and the hash does not collide on them
* `Proven` — the proof of a block was generated over a state root

## Main results

* `Dropped.of_announced` — a block that a node announces is dropped by every node
* `Apart.step` — what one action keeps, and does to one node
* `nodes_run_alone` — every run of the network is, for each node, a run of that node alone
-/

namespace Gambit

variable {ι : Type*} {S : Secp256k1}

/-! ### Connections -/

/-- One direction of a connection. -/
structure Link (ι : Type*) where
  source : ι
  target : ι
  /-- What the header buffer of the receiver holds before each read. -/
  stale : ℕ → FixedBytes 5
  /-- The bytes that were written. -/
  stream : Bytes
  isOpen : Bool
  /-- How many messages the receiver has handled. -/
  handled : ℕ

namespace Link

/-- A node writes messages to one of its connections. On one that is broken the bytes are lost, and
`send` may raise `SIGPIPE`: then the end of the node is the next step. -/
def write [DecidableEq ι] (i : ι) (msgs : List Message) (l : Link ι) : Link ι :=
  if l.source = i ∧ l.isOpen then { l with stream := msgs.foldl Peer.send l.stream } else l

/-- The connection breaks, and the receiver gets `n` bytes in all. -/
def cut (n : ℕ) (l : Link ι) : Link ι := { l with stream := l.stream.take n, isOpen := false }

/-- The message that the receiver handles next. -/
def next? (l : Link ι) : Option Message := (Peer.recvLoop l.stale 0 l.stream)[l.handled]?

end Link

/-- The nodes, and the directions of their connections. -/
structure Network (ι : Type*) where
  nodes : ι → Process
  links : List (Link ι)

/-- A step of the network. -/
inductive NetAct (ι : Type*)
  /-- A step of a thread of node `i`. -/
  | thread (i : ι) (act : ThreadAct)
  /-- `connectTo` on one side and `acceptLoop` on the other. -/
  | connect (i j : ι) (stale stale' : ℕ → FixedBytes 5)
  /-- The receiver of a connection handles its next message. -/
  | deliver (k : ℕ)
  /-- A connection breaks. -/
  | cut (k n : ℕ)
  /-- The system ends node `i`. -/
  | killed (i : ι)

/-- The network a step leaves. -/
def NetAct.next [DecidableEq ι] (S : Secp256k1) (net : Network ι) : NetAct ι → Network ι
  | thread i act =>
    let (node, msgs) := (processMachine S).step (net.nodes i) (.thread act)
    ⟨Function.update net.nodes i node, net.links.map (Link.write i msgs)⟩
  | connect i j stale stale' =>
    { net with
      links := net.links ++ [⟨i, j, stale, [], true, 0⟩, ⟨j, i, stale', [], true, 0⟩] }
  | deliver k =>
    match net.links[k]? with
    | none => net
    | some l =>
      match l.next? with
      | none => net
      | some msg =>
        ⟨Function.update net.nodes l.target
            ((processMachine S).step (net.nodes l.target) (.receive msg)).1,
          net.links.set k { l with handled := l.handled + 1 }⟩
  | cut k n =>
    match net.links[k]? with
    | none => net
    | some l => { net with links := net.links.set k (l.cut n) }
  | killed i =>
    { net with
      nodes := Function.update net.nodes i ((processMachine S).step (net.nodes i) .killed).1 }

/-- The network as a machine. -/
def netMachine [DecidableEq ι] (S : Secp256k1) : Machine (Network ι) (NetAct ι) Empty :=
  ⟨fun net act => (act.next S net, [])⟩

/-- What of an action is a step of a thread of node `i`, or its end. -/
def NetAct.own [DecidableEq ι] (i : ι) : NetAct ι → Option ProcessAct
  | thread j act => if j = i then some (.thread act) else none
  | killed j => if j = i then some .killed else none
  | _ => none

/-! ### The blocks a node announces -/

/-- The proof was generated over a state root. -/
def Proven (b : Block) : Prop :=
  ∃ before after txRoot, before ≠ [] ∧ b.proof = ZkProver.generate before after txRoot

theorem State.root_ne_nil {s : State} {root : Str} (h : s.root = .ok root) : root ≠ [] := by
  obtain ⟨trie, -, hroot⟩ := s.root_eq_ok
  obtain rfl := Except.ok.inj (h.symm.trans hroot)
  simp [MptTrie.rootHash, str]

/-- What the miner has read of the ledger is a state root. -/
def MinerPhase.Rooted : MinerPhase → Prop
  | .idle => True
  | .rooted before => before ≠ []
  | .copied before _ => before ≠ []
  | .applied before _ => before ≠ []
  | .txRooted before _ _ => before ≠ []
  | .numbered before _ _ _ => before ≠ []
  | .built block => Proven block
  | .ready block => Proven block

theorem MinerPhase.Rooted.next {phase : MinerPhase} (h : phase.Rooted) (bc : Blockchain)
    (now : UInt64) : (phase.next bc now).Rooted := by
  cases phase with
  | idle =>
    rw [MinerPhase.next]
    split
    · next hroot => exact State.root_ne_nil hroot
    · trivial
  | copied before temp =>
    rw [MinerPhase.next]
    split
    · trivial
    · split
      · exact h
      · trivial
  | numbered before after txRoot index => exact ⟨before, after, txRoot, h, rfl⟩
  | built block => exact h
  | ready block => trivial
  | rooted before => exact h
  | applied before after => exact h
  | txRooted before after txRoot => exact h

theorem proven_of_mineBlock {bc bc' : Blockchain} {now : UInt64} {block : Block}
    (h : bc.mineBlock now = (bc', .ok block)) : Proven block := by
  rcases bc.mineBlock_cases now with ⟨s', b, -, hsealed, hmine⟩ | ⟨s', e, -, hmine⟩
  · obtain rfl := Except.ok.inj (Prod.mk.inj (hmine.symm.trans h)).2
    obtain ⟨before, after, receiptsRoot, hbefore, -, rfl⟩ := hsealed
    exact ⟨before, after, _, State.root_ne_nil hbefore, rfl⟩
  · cases (Prod.mk.inj (hmine.symm.trans h)).2

/-- What a node is about to announce is proven. -/
structure Proving (node : Process) : Prop where
  main : ∀ block n, node.main = .mined block n → Proven block
  building : ∀ phase, node.loop = .building phase → phase.Rooted
  added : ∀ block, node.loop = .added block → Proven block

theorem Proving.mainStep {node : Process} (h : Proving node) (now : UInt64) :
    Proving (node.mainStep now).1 := by
  unfold Process.mainStep
  split
  · exact h
  · split
    · next chain block hmine =>
      refine ⟨fun b n hb => ?_, h.building, h.added⟩
      obtain ⟨rfl, -⟩ := MainPhase.mined.inj hb
      exact proven_of_mineBlock hmine
    · exact ⟨by simp, h.building, h.added⟩
  · split
    · exact ⟨by simp, h.building, h.added⟩
    · exact ⟨by simp, h.building, h.added⟩
  · exact h

theorem Proving.loopStep {node : Process} (h : Proving node) (now : UInt64) :
    Proving (node.loopStep now).1 := by
  unfold Process.loopStep
  split
  · next block hloop =>
    refine ⟨h.main, by simp, fun b hb => ?_⟩
    obtain rfl := LoopPhase.added.inj hb
    exact h.building _ hloop
  · next phase _ hloop =>
    refine ⟨h.main, fun phase' hphase => ?_, by simp⟩
    obtain rfl := LoopPhase.building.inj hphase
    exact (h.building phase hloop).next node.chain now
  · refine ⟨h.main, fun phase hphase => ?_, by simp⟩
    obtain rfl := LoopPhase.building.inj hphase
    trivial

theorem Proving.killed {node : Process} (h : Proving node) :
    Proving ((processMachine S).step node .killed).1 := by
  rcases node.step_eq_or S .killed with hstep | hstep
  · rw [hstep]
    exact ⟨by simp [ProcessAct.step], h.building, h.added⟩
  · rw [hstep]
    exact h

theorem Proving.step {node : Process} (h : Proving node) (act : ThreadAct) :
    Proving ((processMachine S).step node (.thread act)).1 := by
  rcases node.step_eq_or S (.thread act) with hstep | hstep
  · rw [hstep]
    cases act with
    | mainStep now => exact h.mainStep now
    | loopStep now => exact h.loopStep now
    | _ => exact ⟨h.main, h.building, h.added⟩
  · rw [hstep]
    exact h

/-- The block that a step of a thread announces. -/
def ThreadAct.announces (node : Process) : ThreadAct → Option Block
  | mainStep _ =>
    match node.main with
    | .mined block _ => some block
    | _ => none
  | loopStep _ =>
    match node.loop with
    | .added block => some block
    | _ => none
  | _ => none

theorem ThreadAct.mem_announcement {node : Process} {act : ThreadAct} {msg : Message}
    (h : msg ∈ ((processMachine S).step node (.thread act)).2) :
    ∃ block, act.announces node = some block ∧ msg ∈ announcement block := by
  rcases node.step_eq_or S (.thread act) with hstep | hstep
  · rw [hstep] at h
    cases act with
    | mainStep now =>
      simp only [ProcessAct.step, ThreadAct.step, Process.mainStep] at h
      split at h
      · cases h
      · split at h <;> cases h
      · next block n hmain =>
        split at h
        · exact ⟨block, by rw [announces, hmain], h⟩
        · cases h
      · cases h
    | loopStep now =>
      simp only [ProcessAct.step, ThreadAct.step, Process.loopStep] at h
      split at h
      · cases h
      · cases h
      · next block hloop => exact ⟨block, by rw [announces, hloop], h⟩
    | _ => cases h
  · rw [hstep] at h
    cases h

theorem Proving.announces {node : Process} (h : Proving node) {act : ThreadAct} {block : Block}
    (hblock : act.announces node = some block) : Proven block := by
  cases act with
  | mainStep now =>
    rw [ThreadAct.announces] at hblock
    split at hblock
    · next b n hmain =>
      obtain rfl := Option.some.inj hblock
      exact h.main b n hmain
    · cases hblock
  | loopStep now =>
    rw [ThreadAct.announces] at hblock
    split at hblock
    · next b hloop =>
      obtain rfl := Option.some.inj hblock
      exact h.added b hloop
    · cases hblock
  | _ => cases hblock

/-! ### What the others do with them -/

/-- The message fits into a frame, and no node does anything with it. -/
structure Dropped (S : Secp256k1) (msg : Message) : Prop where
  payload_ne_nil : msg.payload ≠ []
  length_lt : msg.payload.length < 2 ^ 32
  receive_eq : ∀ node : Process, node.receive S msg = node

/-- The text of the block fits into a frame, and the hash does not collide on the texts its
commitment is compared over. -/
structure Uncollided (block : Block) : Prop where
  length_lt : ∀ hex, block.toHex = .ok hex → hex.length < 2 ^ 32
  noCollision : NoCollision (commitmentText block.proof.proof [] [] [])
    (commitmentText block.proof.proof block.proof.stateBefore block.proof.stateAfter
      block.proof.txRoot)

theorem Process.receive_of_zero_mem (node : Process) {msg : Message} (h : 0 ∈ msg.payload) :
    node.receive S msg = node := by
  obtain ⟨e, htx, hblock⟩ := fromHex_payload_of_zero_mem S h
  unfold receive
  split
  · simp only [submit, Act.next, htx]
  · rw [handleNewBlock_of_error hblock]
  · rfl

/-- A proven block is dropped wherever it is received. -/
theorem handleNewBlock_of_proven {block : Block} (hproven : Proven block)
    (h : Uncollided block) {hex : Str} (hhex : block.toHex = .ok hex) (peer : Blockchain) :
    handleNewBlock S peer hex = peer := by
  have hlen : ∀ raw, block.rlpEncode = .ok raw → raw.length < 2 ^ 64 := by
    intro raw hraw
    obtain ⟨raw', hraw', rfl⟩ := toHex_eq_ok hhex
    obtain rfl := Except.ok.inj (hraw.symm.trans hraw')
    have hsize := h.length_lt _ hhex
    rw [List.length_append, length_toHex] at hsize
    omega
  -- The text lists transactions the decoder cannot read back, and leaves the proof's texts out.
  by_cases htxs : block.transactions = []
  · obtain ⟨before, after, txRoot, hne, hproof⟩ := hproven
    have hcol := h.noCollision
    rw [hproof] at hcol
    apply handleNewBlock_of_no_transactions S peer hlen hhex htxs
    rw [Block.onWire, hproof]
    exact not_verify_stripped hne hcol
  · exact handleNewBlock_of_transactions S peer hlen hhex htxs

/-- A block that a node announces is dropped by every node. -/
theorem Dropped.of_announced {block : Block} (hproven : Proven block) (h : Uncollided block)
    {msg : Message} (hmsg : msg ∈ announcement block) : Dropped S msg := by
  unfold announcement at hmsg
  split at hmsg
  · next hex hhex =>
    obtain rfl := List.mem_singleton.mp hmsg
    refine ⟨(Broadcast.newBlock hhex).payload_ne_nil, h.length_lt hex hhex, fun node => ?_⟩
    simp only [Process.receive, handleNewBlock_of_proven hproven h hhex]
  · cases hmsg

/-! ### Connections that carry nothing -/

/-- The stream is made of frames that are dropped, up to where it was cut. -/
def Link.Inert (S : Secp256k1) (l : Link ι) : Prop :=
  ∃ (msgs : List Message) (n : ℕ), l.stream = (msgs.flatMap Message.encode).take n ∧
    (l.isOpen = true → (msgs.flatMap Message.encode).length ≤ n) ∧ ∀ msg ∈ msgs, Dropped S msg

theorem Link.Inert.cut {l : Link ι} (h : l.Inert S) (n : ℕ) : (l.cut n).Inert S := by
  obtain ⟨msgs, m, hstream, -, hdropped⟩ := h
  refine ⟨msgs, min n m, ?_, by simp [Link.cut], hdropped⟩
  rw [Link.cut, hstream, List.take_take]

theorem Link.Inert.write [DecidableEq ι] {l : Link ι} (h : l.Inert S) (i : ι) {msgs : List Message}
    (hmsgs : ∀ msg ∈ msgs, Dropped S msg) : (l.write i msgs).Inert S := by
  unfold Link.write
  split
  · next hopen =>
    obtain ⟨sent, n, hstream, hlen, hdropped⟩ := h
    refine ⟨sent ++ msgs, ((sent ++ msgs).flatMap Message.encode).length, ?_, fun _ => le_rfl,
      fun msg hmsg => ?_⟩
    · rw [List.take_length, Peer.foldl_send, hstream, List.take_of_length_le (hlen hopen.2),
        List.flatMap_append]
    · rcases List.mem_append.mp hmsg with hold | hnew
      · exact hdropped msg hold
      · exact hmsgs msg hnew
  · exact h

/-- Whatever the receiver makes of such a stream, whole or torn, it changes nothing. -/
theorem Link.Inert.receive_next {l : Link ι} (h : l.Inert S) {msg : Message}
    (hnext : l.next? = some msg) (node : Process) : node.receive S msg = node := by
  obtain ⟨msgs, n, hstream, -, hdropped⟩ := h
  have hmem : msg ∈ Peer.recvLoop l.stale 0 l.stream := List.mem_of_getElem? hnext
  rw [hstream, Peer.recvLoop_take_flatMap l.stale 0 fun msg hmsg =>
    ⟨(hdropped msg hmsg).payload_ne_nil, (hdropped msg hmsg).length_lt⟩] at hmem
  -- A whole message was announced by a node, and a torn one is no hexadecimal text.
  rcases List.mem_append.mp hmem with hwhole | htorn
  · exact (hdropped msg ((complete_isPrefix msgs n).subset hwhole)).receive_eq node
  · obtain ⟨sent, -, k, hk, rfl⟩ := exists_torn_of_mem_tornTail htorn
    exact node.receive_of_zero_mem (Message.zero_mem_torn hk)

/-! ### Runs of the network -/

/-- The blocks announced in a step fit into a frame, and the hash does not collide on them. -/
def Faithful (net : Network ι) (act : NetAct ι) : Prop :=
  ∀ i thread block, act = .thread i thread → thread.announces (net.nodes i) = some block →
    Uncollided block

/-- What a run keeps: each node announces proven blocks only, and each connection is inert. -/
structure Apart (S : Secp256k1) (net : Network ι) : Prop where
  nodes : ∀ i, Proving (net.nodes i)
  links : ∀ l ∈ net.links, l.Inert S

/-- What an action keeps of the network and does to node `i`: what of it is the node's own, and
nothing else. -/
structure ActCase [DecidableEq ι] (S : Secp256k1) (net : Network ι) (act : NetAct ι) (i : ι) :
    Prop where
  apart : Apart S (act.next S net)
  own : ∀ b, act.own i = some b →
    (act.next S net).nodes i = ((processMachine S).step (net.nodes i) b).1
  other : act.own i = none → (act.next S net).nodes i = net.nodes i

namespace Apart

variable {net : Network ι}

theorem set_inert (h : Apart S net) (k : ℕ) {l : Link ι} (hl : l.Inert S) :
    ∀ l' ∈ net.links.set k l, l'.Inert S := by
  intro l' hl'
  rcases List.mem_or_eq_of_mem_set hl' with hold | rfl
  · exact h.links l' hold
  · exact hl

variable [DecidableEq ι]

/-- Actions that touch connections only. -/
theorem of_nodes_eq {act : NetAct ι} {i : ι} (h : Apart S net)
    (hnodes : (act.next S net).nodes = net.nodes)
    (hlinks : ∀ l ∈ (act.next S net).links, l.Inert S) (hown : act.own i = none) :
    ActCase S net act i :=
  ⟨⟨fun k => by rw [hnodes]; exact h.nodes k, hlinks⟩, by simp [hown], fun _ => by rw [hnodes]⟩

/-- Actions that are a step of node `j`. -/
theorem of_update {act : NetAct ι} {j i : ι} {b : ProcessAct} (h : Apart S net)
    (hnodes : (act.next S net).nodes =
      Function.update net.nodes j ((processMachine S).step (net.nodes j) b).1)
    (hproving : Proving ((processMachine S).step (net.nodes j) b).1)
    (hlinks : ∀ l ∈ (act.next S net).links, l.Inert S)
    (hown : act.own i = if j = i then some b else none) : ActCase S net act i := by
  refine ⟨⟨fun k => ?_, hlinks⟩, fun b' hb' => ?_, fun hnone => ?_⟩
  · rw [hnodes]
    by_cases hk : k = j
    · subst hk
      rwa [Function.update_self]
    · rw [Function.update_of_ne hk]
      exact h.nodes k
  · rw [hown] at hb'
    split at hb'
    · next hj =>
      subst hj
      obtain rfl := Option.some.inj hb'
      rw [hnodes, Function.update_self]
    · cases hb'
  · rw [hown] at hnone
    split at hnone
    · cases hnone
    · next hj => rw [hnodes, Function.update_of_ne (Ne.symm hj)]

theorem thread {j : ι} {act : ThreadAct} (h : Apart S net) (hact : Faithful net (.thread j act))
    (i : ι) : ActCase S net (.thread j act) i := by
  -- All that the step can write to a connection is the announcement of a proven block.
  refine h.of_update rfl ((h.nodes j).step act) (fun l hl => ?_) rfl
  obtain ⟨old, hold, rfl⟩ := List.mem_map.mp hl
  refine (h.links old hold).write j fun msg hmsg => ?_
  obtain ⟨block, hblock, hmsg⟩ := ThreadAct.mem_announcement hmsg
  exact Dropped.of_announced ((h.nodes j).announces hblock) (hact j act block rfl hblock) hmsg

theorem killed (h : Apart S net) (j i : ι) : ActCase S net (.killed j) i :=
  h.of_update rfl (h.nodes j).killed h.links rfl

theorem connect (h : Apart S net) (j k : ι) (stale stale' : ℕ → FixedBytes 5) (i : ι) :
    ActCase S net (.connect j k stale stale') i := by
  refine h.of_nodes_eq rfl (fun l hl => ?_) rfl
  rcases List.mem_append.mp hl with hold | hnew
  · exact h.links l hold
  · have hempty : l.stream = [] := by
      rcases List.mem_cons.mp hnew with rfl | hnew
      · rfl
      · rw [List.mem_singleton.mp hnew]
    exact ⟨[], 0, hempty, fun _ => le_rfl, by simp⟩

/-- What is delivered leaves its target as it was. -/
theorem update_receive {l : Link ι} (hl : l.Inert S) {msg : Message} (hmsg : l.next? = some msg) :
    Function.update net.nodes l.target
      ((processMachine S).step (net.nodes l.target) (.receive msg)).1 = net.nodes := by
  have htarget : ((processMachine S).step (net.nodes l.target) (.receive msg)).1 =
      net.nodes l.target := by
    rcases (net.nodes l.target).step_eq_or S (.receive msg) with hstep | hstep
    · rw [hstep]
      exact hl.receive_next hmsg _
    · rw [hstep]
  rw [htarget, Function.update_eq_self]

theorem deliver (h : Apart S net) (k : ℕ) (i : ι) : ActCase S net (.deliver k) i := by
  cases hl : net.links[k]? with
  | none =>
    have hnext : (NetAct.deliver k).next S net = net := by simp only [NetAct.next, hl]
    exact h.of_nodes_eq (by rw [hnext]) (by rw [hnext]; exact h.links) rfl
  | some l =>
    have hinert : l.Inert S := h.links l (List.mem_of_getElem? hl)
    cases hmsg : l.next? with
    | none =>
      have hnext : (NetAct.deliver k).next S net = net := by simp only [NetAct.next, hl, hmsg]
      exact h.of_nodes_eq (by rw [hnext]) (by rw [hnext]; exact h.links) rfl
    | some msg =>
      have hnext : (NetAct.deliver k).next S net =
          ⟨net.nodes, net.links.set k { l with handled := l.handled + 1 }⟩ := by
        simp only [NetAct.next, hl, hmsg, update_receive hinert hmsg]
      refine h.of_nodes_eq (by rw [hnext]) ?_ rfl
      rw [hnext]
      exact h.set_inert k hinert

theorem cut (h : Apart S net) (k n : ℕ) (i : ι) : ActCase S net (.cut k n) i := by
  cases hl : net.links[k]? with
  | none =>
    have hnext : (NetAct.cut k n).next S net = net := by simp only [NetAct.next, hl]
    exact h.of_nodes_eq (by rw [hnext]) (by rw [hnext]; exact h.links) rfl
  | some l =>
    have hnext : (NetAct.cut k n).next S net = { net with links := net.links.set k (l.cut n) } := by
      simp only [NetAct.next, hl]
    refine h.of_nodes_eq (by rw [hnext]) ?_ rfl
    rw [hnext]
    exact h.set_inert k ((h.links l (List.mem_of_getElem? hl)).cut n)

theorem step (h : Apart S net) {act : NetAct ι} (hact : Faithful net act) (i : ι) :
    ActCase S net act i := by
  cases act with
  | thread j act => exact h.thread hact i
  | connect j k stale stale' => exact h.connect j k stale stale' i
  | deliver k => exact h.deliver k i
  | cut k n => exact h.cut k n i
  | killed j => exact h.killed j i

end Apart

theorem apart_start (nodes : ι → Blockchain × ℕ) :
    Apart S (⟨fun i => .start (nodes i).1 (nodes i).2, []⟩ : Network ι) := by
  refine ⟨fun i => ⟨?_, ?_, ?_⟩, by simp⟩
  · intro block n hmain
    cases hmain
  · intro phase hloop
    obtain rfl := LoopPhase.building.inj hloop
    trivial
  · intro block hloop
    cases hloop

/-- In a network of any number of nodes that run this program, however they are connected, whatever
is delivered, wherever connections break and whichever nodes the system ends, each node is where its
own threads would have taken it had it run alone and ended at the same moment. -/
theorem nodes_run_alone [DecidableEq ι] (nodes : ι → Blockchain × ℕ) (acts : List (NetAct ι))
    (hfaithful : (netMachine S).Guarded Faithful
      ⟨fun i => .start (nodes i).1 (nodes i).2, []⟩ acts) (i : ι) :
    ((netMachine S).run ⟨fun i => .start (nodes i).1 (nodes i).2, []⟩ acts).1.nodes i =
      ((processMachine S).run (.start (nodes i).1 (nodes i).2) (acts.filterMap (NetAct.own i))).1 :=
  Machine.run_project (fun net : Network ι => net.nodes i) (NetAct.own i) (Apart S)
    (fun _ _ h hact => ⟨(h.step hact i).apart, (h.step hact i).own, (h.step hact i).other⟩)
    (apart_start nodes) hfaithful

/-- Two fresh nodes are connected, one mines and announces a block, and the other receives it. -/
def announceOnce : List (NetAct Bool) :=
  let stale : ℕ → FixedBytes 5 := fun _ => ⟨[0, 0, 0, 0, 0], rfl⟩
  [.connect false true stale stale, .thread false (.mainStep 0), .thread false (.mainStep 0),
    .deliver 0]

theorem uncollided_freshBlock : Uncollided freshBlock := by
  refine ⟨fun hex hhex => ?_, noCollision_freshBlock⟩
  obtain rfl := Except.ok.inj hhex
  decide +kernel

theorem nodes_run_alone_announceOnce :
    let net := (netMachine (ι := Bool) devLib).run ⟨fun _ => .start freshChain 1, []⟩ announceOnce
    (net.1.nodes false).chain = (freshChain.mineBlock 0).1 ∧
      (net.1.nodes true).chain = freshChain := by
  have hfaithful : (netMachine (ι := Bool) devLib).Guarded Faithful
      ⟨fun _ => .start freshChain 1, []⟩ announceOnce := by
    refine ⟨?_, ?_, ?_, ?_, trivial⟩
    · rintro i thread block ⟨⟩
    · rintro i thread block ⟨⟩ hblock
      cases show (none : Option Block) = some block from hblock
    · rintro i thread block ⟨⟩ hblock
      obtain rfl := Option.some.inj (show some freshBlock = some block from hblock)
      exact uncollided_freshBlock
    · rintro i thread block ⟨⟩
  have halone := nodes_run_alone (S := devLib) (fun _ : Bool => (freshChain, 1)) announceOnce
    hfaithful
  exact ⟨by rw [halone false]; rfl, by rw [halone true]; rfl⟩

end Gambit
