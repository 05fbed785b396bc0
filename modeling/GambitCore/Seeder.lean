import GambitCore.Blockchain.Basic
import GambitCore.Codec.BigEndian

/-!
# Registration with the seeder

A node proves to `ZkSeederService` that it holds the key of its `nodeId` by signing the record it
registers. `ZkSeederClient::buildSeederProof` puts the client's time into the record and signs it;
`registerPeer` puts the server's time into the record before it verifies the signature. The two
messages agree only if both clocks are read within the same second.

## Main definitions

* `PeerInfo`, `ZkSeederService`, `verifyProof`, `registerPeer`
* `ZkSeederClient.buildSeederProof`

## Main results

* `ZkSeederService.message_eq_iff` — records that differ in time have different messages
* `ZkSeederService.message_unambiguous` — the message determines the four fields it is made of, and
  both sides build the same one
* `ZkSeederService.registerPeer_buildSeederProof_iff` — a proof is accepted exactly in the second it
  was made
-/

namespace Gambit

/-- `PeerInfo`. -/
structure PeerInfo where
  nodeId : Address
  ip : Str
  port : UInt16
  lastSeen : UInt64
  score : UInt64
  deriving DecidableEq

/-- The loop over the eight bytes of a time, the most significant first. -/
def bigEndian64 (n : UInt64) : Bytes :=
  [7, 6, 5, 4, 3, 2, 1, 0].map fun i : UInt64 => ((n >>> (8 * i)) &&& 0xFF).toUInt8

theorem toNat_byteOf (n : UInt64) {i : ℕ} (hi : i < 8) :
    ((n >>> (8 * UInt64.ofNat i)) &&& 0xFF).toUInt8.toNat = n.toNat / 256 ^ i % 256 := by
  have hmul : (8 * UInt64.ofNat i).toNat % 64 = 8 * i := by
    rw [UInt64.toNat_mul, UInt64.toNat_ofNat_of_lt' (Nat.lt_trans hi (by decide))]
    simp only [UInt64.reduceToNat]
    omega
  have hpow : 2 ^ (8 * i) = 256 ^ i := Nat.pow_mul 2 8 i
  rw [Rlp.toUInt8_lowByte, UInt8.toNat_ofNat', UInt64.toNat_shiftRight, hmul,
    Nat.shiftRight_eq_div_pow, hpow]
  exact Nat.mod_mod _ _

theorem bigEndian64_injective : Function.Injective bigEndian64 := by
  intro m n h
  have hloop : ∀ i < 8, UInt64.ofNat i ∈ ([7, 6, 5, 4, 3, 2, 1, 0] : List UInt64) := by decide
  apply UInt64.toNat_inj.mp
  apply Codec.eq_of_bytes_eq (k := 8) m.toNat_lt n.toNat_lt
  intro i hi
  rw [← toNat_byteOf m hi, ← toNat_byteOf n hi, List.map_inj_left.mp h _ (hloop i hi)]

/-- The record `verifyProof` takes for signed. -/
def ZkSeederService.message (peer : PeerInfo) : Bytes :=
  peer.nodeId.bytes ++ peer.ip ++ [(peer.port >>> 8).toUInt8, (peer.port &&& 0xFF).toUInt8] ++
    bigEndian64 peer.lastSeen

/-- The record `buildSeederProof` signs. -/
def ZkSeederClient.message (peer : PeerInfo) : Bytes :=
  peer.nodeId.bytes ++ peer.ip ++ [(peer.port >>> 8).toUInt8, (peer.port &&& 0xFF).toUInt8] ++
    bigEndian64 peer.lastSeen

/-- `ZkSeederClient::buildSeederProof`, with the record it leaves. -/
def ZkSeederClient.buildSeederProof {S : Secp256k1} (key : KeyPair S) (peer : PeerInfo)
    (chainId now : UInt64) : PeerInfo × Result Bytes :=
  match key.address with
  | .error e => (peer, .error e)
  | .ok addrFromKey =>
    if peer.nodeId ≠ Address.zero ∧ peer.nodeId ≠ addrFromKey then
      (peer, runtimeError "buildSeederProof: peer.nodeId does not match key")
    else
      let peer := { peer with nodeId := addrFromKey, lastSeen := now }
      (peer, do
        let sig ← key.sign (keccak256_32 (message peer)) chainId
        if sig.r.length ≠ 32 ∨ sig.s.length ≠ 32 then
          runtimeError "buildSeederProof: signer produced invalid r/s size"
        else return sig.r ++ sig.s ++ [sig.v])

/-- `ZkSeederService`. -/
structure ZkSeederService where
  chain : Blockchain
  peers : List PeerInfo

namespace ZkSeederService

/-- `verifyProof`: the text it leaves in `err` when it returns `false`. -/
def verifyProof (S : Secp256k1) (service : ZkSeederService) (peer : PeerInfo) (proof : Bytes) :
    Except String Unit :=
  let msgHash := keccak256_32 (message peer)
  if proof.length ≠ 65 then .error "Invalid proof size"
  else
    let sig : Signature :=
      { r := proof.take 32, s := (proof.drop 32).take 32, v := proof.getD 64 0 }
    match recoverAddress S msgHash sig service.chain.chainId with
    | .error e => .error e.what
    | .ok recovered =>
      if recovered ≠ peer.nodeId then .error "Proof does not match nodeId" else .ok ()

/-- The first record of the same node is replaced; without one the record goes to the end. -/
def upsert (p : PeerInfo) : List PeerInfo → List PeerInfo
  | [] => [p]
  | x :: xs => if x.nodeId = p.nodeId then p :: xs else x :: upsert p xs

/-- `registerPeer` at a time of the server: the service it leaves, and the text in `err` when it
returns `false`. -/
def registerPeer (S : Secp256k1) (service : ZkSeederService) (now : UInt64) (peer : PeerInfo)
    (proof : Bytes) : ZkSeederService × Except String Unit :=
  let p := { peer with lastSeen := now }
  match service.verifyProof S p proof with
  | .error err => (service, .error err)
  | .ok () => ({ service with peers := upsert p service.peers }, .ok ())

end ZkSeederService

/-- When `buildSeederProof` returns, and what. -/
theorem ZkSeederClient.buildSeederProof_eq_ok_iff {S : Secp256k1} {key : KeyPair S}
    {peer peer' : PeerInfo} {chainId now : UInt64} {proof : Bytes} :
    buildSeederProof key peer chainId now = (peer', .ok proof) ↔
      (peer.nodeId = Address.zero ∨ peer.nodeId = addressOf key.pub) ∧
      peer' = { peer with nodeId := addressOf key.pub, lastSeen := now } ∧
      ∃ recsig, S.signRecoverable (keccak256_32 (message peer')) key.priv = some recsig ∧
        proof = recsig.compact.val ++ [UInt8.ofNat recsig.recid.val] := by
  rw [buildSeederProof, KeyPair.address_eq]
  dsimp only
  constructor
  · intro h
    split at h
    · cases h
    next hnode =>
    obtain ⟨rfl, hproof⟩ := Prod.mk.inj h
    obtain ⟨sig, hsign, hproof⟩ := bind_eq_ok.mp hproof
    obtain ⟨recsig, hrec, rfl⟩ := key.sign_eq_ok hsign
    refine ⟨by tauto, rfl, recsig, hrec, ?_⟩
    split at hproof
    · cases hproof
    · have hcompact := Except.ok.inj hproof
      rw [List.take_append_drop] at hcompact
      exact hcompact.symm
  · rintro ⟨hnode, rfl, recsig, hrec, rfl⟩
    have hsize : recsig.compact.val.length = 64 := recsig.compact.property
    rw [if_neg (by tauto)]
    simp [KeyPair.sign, hrec, hsize, bind, Except.bind, pure, Except.pure]

namespace ZkSeederService

variable {S : Secp256k1} {service : ZkSeederService}

/-- The time can be read off the message. -/
theorem message_eq_iff (peer : PeerInfo) (t : UInt64) :
    message { peer with lastSeen := t } = message peer ↔ t = peer.lastSeen := by
  rw [message, message, List.append_cancel_left_eq, bigEndian64_injective.eq_iff]

/-- The two bytes of a port. -/
theorem port_eq_of_bytes {p q : UInt16}
    (h : [(p >>> 8).toUInt8, (p &&& 0xFF).toUInt8] = [(q >>> 8).toUInt8, (q &&& 0xFF).toUInt8]) :
    p = q := by
  have hbytes (p : UInt16) :
      (p >>> 8).toUInt8.toNat = p.toNat / 256 ∧ (p &&& 0xFF).toUInt8.toNat = p.toNat % 256 := by
    have hlt := p.toNat_lt
    have hmask : p.toNat &&& 255 = p.toNat % 256 := Nat.and_two_pow_sub_one_eq_mod p.toNat 8
    constructor
    · rw [UInt16.toNat_toUInt8, UInt16.toNat_shiftRight, Nat.shiftRight_eq_div_pow]
      simp only [UInt16.reduceToNat, Nat.reduceMod, Nat.reducePow]
      omega
    · rw [UInt16.toNat_toUInt8, UInt16.toNat_and]
      simp only [UInt16.reduceToNat]
      omega
  simp only [List.cons.injEq, and_true] at h
  have hhigh := congrArg UInt8.toNat h.1
  have hlow := congrArg UInt8.toNat h.2
  rw [(hbytes p).1, (hbytes q).1] at hhigh
  rw [(hbytes p).2, (hbytes q).2] at hlow
  apply UInt16.toNat_inj.mp
  omega

theorem length_bigEndian64 (n : UInt64) : (bigEndian64 n).length = 8 := rfl

/-- The fields before and behind the `ip` have fixed widths, so the `ip` needs no length. -/
theorem fields_eq_of_message_eq {p q : PeerInfo} (h : message p = message q) :
    p.nodeId = q.nodeId ∧ p.ip = q.ip ∧ p.port = q.port ∧ p.lastSeen = q.lastSeen := by
  obtain ⟨hfront, htime⟩ := List.append_inj' h
    ((length_bigEndian64 p.lastSeen).trans (length_bigEndian64 q.lastSeen).symm)
  obtain ⟨hfront, hport⟩ := List.append_inj' hfront rfl
  obtain ⟨hnode, hip⟩ := List.append_inj hfront
    (p.nodeId.length_bytes.trans q.nodeId.length_bytes.symm)
  exact ⟨Address.ext hnode, hip, port_eq_of_bytes hport, bigEndian64_injective htime⟩

/-- Equal messages come from records with the same node, ip, port and time, and what
`buildSeederProof` signs is the message `verifyProof` builds from the same fields. -/
theorem message_unambiguous :
    (∀ p q : PeerInfo, message p = message q ↔
      p.nodeId = q.nodeId ∧ p.ip = q.ip ∧ p.port = q.port ∧ p.lastSeen = q.lastSeen) ∧
    (∀ p q : PeerInfo,
      p.nodeId = q.nodeId ∧ p.ip = q.ip ∧ p.port = q.port ∧ p.lastSeen = q.lastSeen →
        ZkSeederClient.message p = message q) ∧
    ∀ (S : Secp256k1) (key : KeyPair S) (peer peer' : PeerInfo) (chainId now : UInt64)
      (proof : Bytes),
      ZkSeederClient.buildSeederProof key peer chainId now = (peer', .ok proof) →
        ∃ recsig, S.signRecoverable (keccak256_32 (message peer')) key.priv = some recsig ∧
          proof = recsig.compact.val ++ [UInt8.ofNat recsig.recid.val] := by
  refine ⟨fun p q => ⟨fields_eq_of_message_eq, ?_⟩, ?_, ?_⟩
  · rintro ⟨hnode, hip, hport, htime⟩
    rw [message, message, hnode, hip, hport, htime]
  · rintro p q ⟨hnode, hip, hport, htime⟩
    rw [ZkSeederClient.message, message, hnode, hip, hport, htime]
  · intro S key peer peer' chainId now proof hbuild
    obtain ⟨-, -, hsigned⟩ := ZkSeederClient.buildSeederProof_eq_ok_iff.mp hbuild
    exact hsigned

/-- The answer is that of the verification at the server's time. -/
theorem registerPeer_snd (now : UInt64) (peer : PeerInfo) (proof : Bytes) :
    (service.registerPeer S now peer proof).2 =
      service.verifyProof S { peer with lastSeen := now } proof := by
  unfold registerPeer
  dsimp only
  split
  · next err herr => rw [herr]
  · next hok => rw [hok]

theorem proof_v (compact : FixedBytes 64) (v : UInt8) : (compact.val ++ [v]).getD 64 0 = v := by
  rw [List.getD_eq_getElem?_getD, List.getElem?_append_right (by rw [compact.property]),
    compact.property]
  rfl

/-- A proof of 64 bytes and a `v` is taken apart again. -/
theorem verifyProof_append (peer : PeerInfo) (compact : FixedBytes 64) (v : UInt8) :
    service.verifyProof S peer (compact.val ++ [v]) =
      match recoverAddress S (keccak256_32 (message peer))
        ⟨compact.val.take 32, compact.val.drop 32, v⟩ service.chain.chainId with
      | .error e => .error e.what
      | .ok recovered =>
        if recovered ≠ peer.nodeId then .error "Proof does not match nodeId" else .ok () := by
  have hlen : ¬ (compact.val ++ [v]).length ≠ 65 := by simp [compact.property]
  have hr : (compact.val ++ [v]).take 32 = compact.val.take 32 :=
    List.take_append_of_le_length (by simp [compact.property])
  have hs : ((compact.val ++ [v]).drop 32).take 32 = compact.val.drop 32 := by
    rw [List.drop_append_of_le_length (by simp [compact.property])]
    exact List.take_left' (by simp [compact.property])
  rw [verifyProof, if_neg hlen, hr, hs, proof_v]

/-- It is refused when it recovers to another address. -/
theorem verifyProof_of_ne {peer : PeerInfo} {compact : FixedBytes 64} {v : UInt8} {a : Address}
    (hrec : recoverAddress S (keccak256_32 (message peer))
      ⟨compact.val.take 32, compact.val.drop 32, v⟩ service.chain.chainId = .ok a)
    (hne : a ≠ peer.nodeId) :
    service.verifyProof S peer (compact.val ++ [v]) = .error "Proof does not match nodeId" := by
  rw [verifyProof_append, hrec]
  exact if_pos hne

/-- It is accepted when it recovers to the node. -/
theorem verifyProof_eq_ok_iff (peer : PeerInfo) {node : Address} (hnode : peer.nodeId = node)
    (compact : FixedBytes 64) (v : UInt8) :
    service.verifyProof S peer (compact.val ++ [v]) = .ok () ↔
      recoverAddress S (keccak256_32 (message peer))
        ⟨compact.val.take 32, compact.val.drop 32, v⟩ service.chain.chainId = .ok node := by
  rw [verifyProof_append, hnode]
  split
  · next e he => simp [he]
  · next recovered hrec => simp [hrec]

/-- The byte `buildSeederProof` appends is read back as the recovery id. The chain id does not enter
into it. -/
theorem recoveryId_proof {compact : FixedBytes 64} {recid : Fin 4}
    (h : ((compact.val ++ [UInt8.ofNat recid.val]).getD 64 0).toNat ≤ 1) (chainId : UInt64) :
    recoveryId (UInt8.ofNat recid.val) chainId = .ok recid.val := by
  have hlt : recid.val < UInt8.size := Nat.lt_of_lt_of_le recid.isLt (by decide)
  rw [proof_v] at h
  rw [recoveryId, if_pos (bare_iff.mpr h), UInt8.toNat_ofNat_of_lt' hlt]

/-- Under ideal signatures, and if the hashes of the two messages do not collide, the seeder accepts
a proof exactly when its clock shows the time the client has signed. -/
theorem registerPeer_buildSeederProof_iff (hS : S.Ideal) (key : KeyPair S)
    {peer peer' : PeerInfo} {chainId t₁ t₂ : UInt64} {proof : Bytes}
    (hbuild : ZkSeederClient.buildSeederProof key peer chainId t₁ = (peer', .ok proof))
    (hrecid : (proof.getD 64 0).toNat ≤ 1)
    (hcol : NoCollision (message { peer' with lastSeen := t₂ }) (message peer')) :
    (service.registerPeer S t₂ peer' proof).2 = .ok () ↔ t₂ = t₁ := by
  obtain ⟨-, hpeer, recsig, hsign, rfl⟩ := ZkSeederClient.buildSeederProof_eq_ok_iff.mp hbuild
  have hnode : peer'.nodeId = addressOf key.pub := by rw [hpeer]
  have hseen : peer'.lastSeen = t₁ := by rw [hpeer]
  -- Recovery from the server's message gives the node exactly when it is the client's message.
  rw [registerPeer_snd, verifyProof_eq_ok_iff { peer' with lastSeen := t₂ } hnode,
    recoverAddress_sign_iff hS key hsign (recoveryId_proof hrecid _) rfl rfl,
    ← hseen, ← message_eq_iff]
  constructor
  · intro hhash
    exact hcol (congrArg Subtype.val hhash)
  · intro hmessage
    rw [hmessage]
    rfl

/-! ### A node of the development key -/

/-- A record without a node id. -/
def freshPeer : PeerInfo := ⟨Address.zero, str "127.0.0.1", 30303, 0, 0⟩

/-- The record the node signs, and what the server makes of it a second later. -/
def signedPeer : PeerInfo := { freshPeer with nodeId := devAddress, lastSeen := 1700000000 }

def latePeer : PeerInfo := { signedPeer with lastSeen := 1700000001 }

/-- The development key's signature of `signedPeer`. -/
def peerSignature : RecoverableSignature where
  compact :=
    ⟨[70, 180, 113, 231, 100, 10, 172, 170, 133, 164, 159, 194, 133, 69, 33, 24, 212, 137, 1, 124,
      183, 223, 65, 73, 108, 55, 49, 5, 240, 243, 147, 109, 3, 150, 196, 44, 113, 199, 12, 124, 250,
      162, 213, 108, 217, 120, 179, 211, 44, 247, 103, 118, 128, 82, 218, 127, 118, 8, 187, 254, 20,
      123, 64, 161], rfl⟩
  recid := ⟨1, Nat.one_lt_succ_succ 2⟩

/-- The public key this signature recovers to for `latePeer`. -/
def lateKey : FixedBytes 64 :=
  ⟨[38, 214, 33, 202, 37, 129, 225, 237, 132, 110, 147, 105, 236, 138, 246, 104, 53, 136, 75, 28, 42,
    60, 94, 195, 151, 129, 41, 198, 219, 30, 250, 204, 78, 241, 76, 45, 165, 252, 191, 233, 114, 82,
    33, 19, 97, 200, 168, 107, 120, 19, 189, 25, 68, 142, 163, 175, 154, 202, 137, 180, 2, 143, 253,
    81], rfl⟩

/-- The library on this signature and the two records. -/
def peerSecp : Secp256k1 where
  seckeyVerify sk := sk == devPriv
  pubkeyCreate sk := if sk = devPriv then some devPub else none
  signRecoverable h sk :=
    if sk = devPriv ∧ h = keccak256_32 (message signedPeer) then some peerSignature else none
  parseCompact compact recid :=
    if h : compact = peerSignature.compact ∧ recid < 4 then some ⟨compact, recid, h.2⟩ else none
  recover sig h :=
    if sig ≠ peerSignature then none
    else if h = keccak256_32 (message signedPeer) then some devPub
    else if h = keccak256_32 (message latePeer) then some lateKey
    else none

/-- The development key pair. -/
def peerKey : KeyPair peerSecp := ⟨devPriv, devPub, Or.inr (by simp [peerSecp])⟩

theorem addressOf_lateKey_ne : addressOf lateKey ≠ addressOf devPub := by
  intro h
  have hbytes : (addressOf lateKey).bytes = devAddress.bytes := congrArg Address.bytes h
  rw [bytes_devAddress] at hbytes
  revert hbytes
  show Address.lastBytes (keccak256 lateKey.val) ≠ _
  rw [keccak256_eq_eval]
  decide +kernel

theorem hash_latePeer_ne : keccak256_32 (message latePeer) ≠ keccak256_32 (message signedPeer) := by
  intro h
  have hbytes : keccak256 (message latePeer) = keccak256 (message signedPeer) :=
    congrArg Subtype.val h
  revert hbytes
  show keccak256 (devAddress.bytes ++ _ ++ _ ++ _) ≠ keccak256 (devAddress.bytes ++ _ ++ _ ++ _)
  rw [bytes_devAddress, keccak256_eq_eval, keccak256_eq_eval]
  decide +kernel

theorem peerSecp_ideal : peerSecp.Ideal where
  sign_zeroKey h := by
    have hzero : zeroKey ≠ devPriv := by decide
    simp [peerSecp, hzero]
  recover_sign := by
    intro h sk sig pub hsign hpub
    simp only [peerSecp, Option.ite_none_right_eq_some, Option.some.injEq] at hsign hpub
    obtain ⟨⟨-, rfl⟩, rfl⟩ := hsign
    obtain ⟨-, rfl⟩ := hpub
    exact ⟨peerSignature, by simp [peerSecp], by simp [peerSecp]⟩
  hash_eq_of_recover := by
    intro h h' sk sig sig' pub pub' hsign hpub hparse hrec haddress
    simp only [peerSecp, Option.ite_none_right_eq_some, Option.some.injEq] at hsign hpub
    obtain ⟨⟨-, rfl⟩, rfl⟩ := hsign
    obtain ⟨-, rfl⟩ := hpub
    simp only [peerSecp] at hrec
    split at hrec
    · cases hrec
    split at hrec
    · assumption
    split at hrec
    · cases hrec
      exact absurd haddress addressOf_lateKey_ne
    · cases hrec

/-- The proof the node sends. -/
def peerProof : Bytes := peerSignature.compact.val ++ [UInt8.ofNat peerSignature.recid.val]

theorem buildSeederProof_freshPeer :
    ZkSeederClient.buildSeederProof peerKey freshPeer 1337 1700000000 =
      (signedPeer, .ok peerProof) :=
  ZkSeederClient.buildSeederProof_eq_ok_iff.mpr
    ⟨Or.inl rfl, rfl, peerSignature, if_pos ⟨rfl, rfl⟩, rfl⟩

/-- A seeder of chain 1337. -/
def emptySeeder : ZkSeederService :=
  ⟨⟨[{}], State.empty, [], 1337, List.cons_ne_nil _ _⟩, []⟩

/-- Within the second the proof is accepted. -/
theorem registerPeer_same_second :
    peerSecp.Ideal ∧ (emptySeeder.registerPeer peerSecp 1700000000 signedPeer peerProof).2 = .ok () :=
  ⟨peerSecp_ideal, (registerPeer_buildSeederProof_iff peerSecp_ideal peerKey
    buildSeederProof_freshPeer (by decide) fun _ => (message_eq_iff signedPeer _).mpr rfl).mpr rfl⟩

/-- A second later it is refused. -/
theorem registerPeer_next_second :
    peerSecp.Ideal ∧ NoCollision (message latePeer) (message signedPeer) ∧
      ZkSeederClient.buildSeederProof peerKey freshPeer 1337 1700000000 =
        (signedPeer, .ok peerProof) ∧
      (emptySeeder.registerPeer peerSecp 1700000001 signedPeer peerProof).2 =
        .error "Proof does not match nodeId" := by
  have hparse : peerSecp.parseCompact peerSignature.compact peerSignature.recid.val =
      some peerSignature := by simp [peerSecp]
  have hrecover : peerSecp.recover peerSignature (keccak256_32 (message latePeer)) =
      some lateKey := by simp [peerSecp, hash_latePeer_ne]
  refine ⟨peerSecp_ideal, ?_, buildSeederProof_freshPeer, ?_⟩
  · intro h
    exact absurd (Subtype.ext h) hash_latePeer_ne
  · rw [registerPeer_snd]
    exact verifyProof_of_ne (recoverAddress_of_recover peerSecp rfl rfl rfl hparse hrecover)
      addressOf_lateKey_ne

end ZkSeederService

end Gambit
