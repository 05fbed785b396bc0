import GambitCore.Blockchain.Integrity
import GambitCore.Hash.Lanes

/-!
# The genesis block

Two nodes with the same genesis configuration build the same ledger, whatever the iteration order
of their account maps, and so the same roots and the same proof. The constructor of `Block` also
reads the clock, and the time goes into the hash. Nodes started at different times therefore have
different genesis blocks, and no block of one links to the chain of the other.

## Main definitions

* `Blockchain.newIn` — the constructor, with the iteration order of the account map
* `Blockchain.front` — the genesis block

## Main results

* `newIn_eq_new` — the iteration order does not show
* `genesis_hash_eq_iff` — two nodes agree on the genesis block when they read the same time
* `not_accepts_first_block` — when they do not, neither accepts the other's first block
-/

namespace Gambit

namespace Blockchain

/-- The constructor with `initGenesis`, where `state_.root()` iterates over the accounts in
`order`. -/
def newIn (order : List (Σ _ : Str, Account)) (now : UInt64) (genesis : GenesisConfig) :
    Result Blockchain := do
  let state := State.ofGenesis genesis
  let root ← rootIn order
  let genesisBlock :=
    Block.new now 0 (str "0x00") root root (str "0x00")
      (ZkProver.generate root root (str "0x00"))
  return ⟨[genesisBlock], state, [], genesis.chainId, List.cons_ne_nil _ _⟩

/-- `chain_[0]`. -/
def front (bc : Blockchain) : Block := bc.chain.head bc.chain_ne_nil

/-- The iteration order does not show. -/
theorem newIn_eq_new {order : List (Σ _ : Str, Account)} {genesis : GenesisConfig}
    (hperm : order.Perm (State.ofGenesis genesis).accounts.entries) (now : UInt64) :
    newIn order now genesis = new now genesis := by
  have hroot : rootIn order = (State.ofGenesis genesis).root :=
    rootIn_congr rfl hperm (List.Perm.refl _)
  rw [newIn, hroot]
  rfl

section Clocks

variable {now now' : UInt64} {genesis : GenesisConfig} {bc bc' : Blockchain}

/-- Of two genesis blocks of one configuration, the hashes agree exactly when the clocks did. -/
theorem front_hash_eq_iff (h : new now genesis = .ok bc) (h' : new now' genesis = .ok bc')
    (hcol : NoCollision bc.front.hashText bc'.front.hashText) :
    bc.front.hash = bc'.front.hash ↔ now = now' := by
  obtain ⟨root, hroot, rfl⟩ := new_eq_ok h
  obtain ⟨root', hroot', rfl⟩ := new_eq_ok h'
  obtain rfl := Except.ok.inj (hroot.symm.trans hroot')
  constructor
  · intro hhash
    -- The texts differ in nothing but the time at their end.
    have htext := hcol (toHex_injective hhash)
    exact Block.decimal_injective (List.append_cancel_left htext)
  · rintro rfl
    rfl

/-- A node refuses the first block of a node that was started from the same configuration at another
time, whether `mineBlock` made it or the miner. -/
theorem not_accepts_first_block (h : new now genesis = .ok bc) (h' : new now' genesis = .ok bc')
    (hcol : NoCollision bc.front.hashText bc'.front.hashText) (hne : now ≠ now') {block : Block}
    (hlink : block.prevHash = bc.back.hash) : ¬ bc'.Accepts block := by
  intro haccepts
  have hback : bc.back = bc.front ∧ bc'.back = bc'.front := by
    obtain ⟨_, -, rfl⟩ := new_eq_ok h
    obtain ⟨_, -, rfl⟩ := new_eq_ok h'
    exact ⟨rfl, rfl⟩
  have hprev := haccepts.prevHash_eq
  rw [hlink, hback.1, hback.2] at hprev
  exact hne ((front_hash_eq_iff h h' hcol).mp hprev)

end Clocks

/-- Two nodes started from one configuration have the same genesis hash exactly when their clocks
read the same time. Neither iteration order matters. `hcol` is the absence of a collision between
the two texts hashed. -/
theorem genesis_hash_eq_iff {genesis : GenesisConfig} {order order' : List (Σ _ : Str, Account)}
    (hperm : order.Perm (State.ofGenesis genesis).accounts.entries)
    (hperm' : order'.Perm (State.ofGenesis genesis).accounts.entries) {now now' : UInt64}
    {bc bc' : Blockchain} (h : newIn order now genesis = .ok bc)
    (h' : newIn order' now' genesis = .ok bc')
    (hcol : NoCollision bc.front.hashText bc'.front.hashText) :
    bc.front.hash = bc'.front.hash ↔ now = now' := by
  rw [newIn_eq_new hperm] at h
  rw [newIn_eq_new hperm'] at h'
  exact front_hash_eq_iff h h' hcol

/-- Two nodes started in the same tick, on two accounts in the two possible orders. -/
theorem genesis_hash_eq_same_tick :
    let genesis : GenesisConfig :=
      { premine := [{ address := Address.zero, balance := 1 }, { address := payer, balance := 5 }] }
    let order := (State.ofGenesis genesis).accounts.entries
    ∃ bc bc', newIn order 7 genesis = .ok bc ∧ newIn order.reverse 7 genesis = .ok bc' ∧
      bc.front.hash = bc'.front.hash := by
  intro genesis order
  have hperm : order.reverse.Perm order := List.reverse_perm order
  obtain ⟨bc, hbc⟩ := exists_new 7 genesis
  have h : newIn order 7 genesis = .ok bc := hbc
  have h' : newIn order.reverse 7 genesis = .ok bc := (newIn_eq_new hperm 7).trans hbc
  exact ⟨bc, bc, h, h',
    (genesis_hash_eq_iff (List.Perm.refl _) hperm h h' fun _ => rfl).mpr rfl⟩

/-- Two nodes without accounts, started one tick apart, have different genesis hashes. -/
theorem genesis_hash_ne_one_tick :
    ∃ bc bc', new 0 {} = .ok bc ∧ new 1 {} = .ok bc' ∧ bc.front.hash ≠ bc'.front.hash := by
  have hroot : (State.ofGenesis {}).root = .ok MptTrie.new.rootHash := rfl
  obtain ⟨bc, hbc⟩ := exists_new 0 {}
  obtain ⟨bc', hbc'⟩ := exists_new 1 {}
  refine ⟨bc, bc', hbc, hbc', ?_⟩
  obtain ⟨root, hroot₀, rfl⟩ := new_eq_ok hbc
  obtain ⟨root', hroot₁, rfl⟩ := new_eq_ok hbc'
  obtain rfl := Except.ok.inj (hroot.symm.trans hroot₀)
  obtain rfl := Except.ok.inj (hroot.symm.trans hroot₁)
  simp only [front, List.head_cons, Block.new, Block.computeHash, ZkProver.generate,
    MptTrie.rootHash, keccak256_eq_eval]
  decide +kernel

end Blockchain

end Gambit
