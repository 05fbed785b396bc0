import GambitCore.Seeder
import GambitCore.Semantics.Run

/-!
# The seeder's registry

`peers_` as a map from node ids to records. `registerPeer` replaces the record of a node in place or
puts a new one at the end, so the list stays free of duplicates, its order is that of the first
registrations, and what stands in it for a node is what its last registration said.

The service holds its chain by reference, so in a run the chain may move between two calls.

## Main definitions

* `getPeers`, `getRecordFor`
* `SeederAct`, `seederMachine` — calls of `registerPeer` on a chain that moves
* `firstRegistered`, `lastFor` — what the calls so far make of the registry
* `UpToDate` — the registry is what the calls say

## Main results

* `upsert_eq_map` — a registration of a known node replaces its record and nothing else
* `UpToDate.step` — a call keeps the registry up to date
* `registry_of_run` — the registry after any run
-/

namespace Gambit

namespace ZkSeederService

/-- `getPeers`. -/
def getPeers (service : ZkSeederService) (limit : ℕ) : List PeerInfo :=
  if service.peers.length > limit then service.peers.take limit else service.peers

/-- `getRecordFor`: the record it leaves in `out` when it returns `true`. -/
def getRecordFor (service : ZkSeederService) (nodeId : Address) : Option PeerInfo :=
  service.peers.find? (·.nodeId = nodeId)

theorem getPeers_eq_take (service : ZkSeederService) (limit : ℕ) :
    service.getPeers limit = service.peers.take limit := by
  unfold getPeers
  split
  · rfl
  · next h => exact (List.take_of_length_le (Nat.le_of_not_gt h)).symm

/-! ### One registration -/

section Upsert

variable (p : PeerInfo) (xs : List PeerInfo)

theorem find?_upsert (id : Address) :
    (upsert p xs).find? (·.nodeId = id) =
      if p.nodeId = id then some p else xs.find? (·.nodeId = id) := by
  induction xs with
  | nil => by_cases hid : p.nodeId = id <;> simp [upsert, hid]
  | cons x xs ih =>
    rw [upsert]
    by_cases hx : x.nodeId = p.nodeId
    · by_cases hid : p.nodeId = id <;> simp [hx, hid]
    · rw [if_neg hx, List.find?_cons, List.find?_cons, ih]
      by_cases hid : p.nodeId = id
      · simp [hid ▸ hx, hid]
      · simp [hid]

/-- A known node keeps its place, a new one gets the last. -/
theorem map_nodeId_upsert :
    (upsert p xs).map PeerInfo.nodeId =
      if p.nodeId ∈ xs.map PeerInfo.nodeId then xs.map PeerInfo.nodeId
      else xs.map PeerInfo.nodeId ++ [p.nodeId] := by
  induction xs with
  | nil => simp [upsert]
  | cons x xs ih =>
    rw [upsert]
    by_cases hx : x.nodeId = p.nodeId
    · simp [hx]
    · rw [if_neg hx, List.map_cons, ih]
      simp only [List.map_cons, List.mem_cons, Ne.symm hx, false_or]
      split <;> rfl

variable {p xs}

theorem nodup_upsert (h : (xs.map PeerInfo.nodeId).Nodup) :
    ((upsert p xs).map PeerInfo.nodeId).Nodup := by
  rw [map_nodeId_upsert]
  split
  · exact h
  · next hnew =>
    rw [← List.concat_eq_append]
    exact List.Nodup.concat hnew h

/-- A registration of a known node replaces its record and nothing else. -/
theorem upsert_eq_map (hnodup : (xs.map PeerInfo.nodeId).Nodup)
    (hknown : p.nodeId ∈ xs.map PeerInfo.nodeId) :
    upsert p xs = xs.map fun x => if x.nodeId = p.nodeId then p else x := by
  induction xs with
  | nil => cases hknown
  | cons x xs ih =>
    obtain ⟨hfirst, hrest⟩ := List.nodup_cons.mp hnodup
    rw [upsert, List.map_cons]
    by_cases hx : x.nodeId = p.nodeId
    · -- No later record is of this node.
      have hother : ∀ y ∈ xs, (if y.nodeId = p.nodeId then p else y) = y := by
        intro y hy
        apply if_neg
        intro hyp
        exact hfirst (List.mem_map.mpr ⟨y, hy, hyp.trans hx.symm⟩)
      rw [if_pos hx, if_pos hx, List.map_congr_left hother, List.map_id']
    · rw [if_neg hx, if_neg hx, ih hrest ((List.mem_cons.mp hknown).resolve_left (Ne.symm hx))]

end Upsert

/-- All a call can do. -/
theorem registerPeer_cases (S : Secp256k1) (service : ZkSeederService) (now : UInt64)
    (peer : PeerInfo) (proof : Bytes) :
    (∃ err, service.registerPeer S now peer proof = (service, .error err)) ∨
      service.registerPeer S now peer proof =
        ({ service with peers := upsert { peer with lastSeen := now } service.peers }, .ok ()) := by
  unfold registerPeer
  dsimp only
  split
  · next err _ => exact Or.inl ⟨err, rfl⟩
  · exact Or.inr rfl

/-! ### Runs -/

/-- The chain moves, or a node registers. -/
inductive SeederAct
  | chain (bc : Blockchain)
  | registerPeer (now : UInt64) (peer : PeerInfo) (proof : Bytes)

/-- A call of `registerPeer` with the time of the server and the answer. -/
structure Call where
  now : UInt64
  peer : PeerInfo
  answer : Except String Unit

/-- The record a call stores. -/
def Call.record (c : Call) : PeerInfo := { c.peer with lastSeen := c.now }

/-- The service as a machine that emits the calls made. -/
def seederMachine (S : Secp256k1) : Machine ZkSeederService SeederAct Call where
  step service
    | .chain bc => ({ service with chain := bc }, [])
    | .registerPeer now peer proof =>
      let (service', answer) := service.registerPeer S now peer proof
      (service', [⟨now, peer, answer⟩])

/-- The nodes with a successful registration, in the order of their first one. -/
def firstRegistered (history : List Call) : List Address :=
  ((history.filter (·.answer.isOk)).map (·.peer.nodeId)).eraseDups

/-- The last successful registration of a node. -/
def lastFor (id : Address) (history : List Call) : Option Call :=
  (history.filter fun c => c.answer.isOk && c.peer.nodeId = id).getLast?

/-- The registry is what the calls so far make of it. -/
structure UpToDate (service : ZkSeederService) (history : List Call) : Prop where
  nodup : (service.peers.map PeerInfo.nodeId).Nodup
  order : service.peers.map PeerInfo.nodeId = firstRegistered history
  fresh : ∀ id, service.getRecordFor id = (lastFor id history).map Call.record

theorem eraseDups_concat (l : List Address) (a : Address) :
    (l ++ [a]).eraseDups = if a ∈ l then l.eraseDups else l.eraseDups ++ [a] := by
  rw [List.eraseDups_append]
  by_cases ha : a ∈ l <;> simp [List.removeAll, List.eraseDups_cons, ha]

theorem firstRegistered_append_error (history : List Call) (now : UInt64) (peer : PeerInfo)
    (err : String) :
    firstRegistered (history ++ [⟨now, peer, .error err⟩]) = firstRegistered history := by
  simp [firstRegistered, Except.isOk, Except.toBool]

theorem firstRegistered_append_ok (history : List Call) (now : UInt64) (peer : PeerInfo) :
    firstRegistered (history ++ [⟨now, peer, .ok ()⟩]) =
      if peer.nodeId ∈ firstRegistered history then firstRegistered history
      else firstRegistered history ++ [peer.nodeId] := by
  simp only [firstRegistered, List.mem_eraseDups, List.filter_append, List.map_append]
  exact eraseDups_concat _ _

theorem lastFor_append_error (id : Address) (history : List Call) (now : UInt64) (peer : PeerInfo)
    (err : String) : lastFor id (history ++ [⟨now, peer, .error err⟩]) = lastFor id history := by
  simp [lastFor, Except.isOk, Except.toBool]

theorem lastFor_append_ok (id : Address) (history : List Call) (now : UInt64) (peer : PeerInfo) :
    lastFor id (history ++ [⟨now, peer, .ok ()⟩]) =
      if peer.nodeId = id then some ⟨now, peer, .ok ()⟩ else lastFor id history := by
  by_cases hid : peer.nodeId = id <;>
    simp [lastFor, Except.isOk, Except.toBool, hid]

theorem UpToDate.empty (bc : Blockchain) : UpToDate ⟨bc, []⟩ [] :=
  ⟨List.nodup_nil, rfl, fun _ => rfl⟩

/-- A call keeps the registry up to date, and so does a move of the chain. -/
theorem UpToDate.step {S : Secp256k1} {service : ZkSeederService} {history : List Call}
    (h : UpToDate service history) (act : SeederAct) :
    UpToDate ((seederMachine S).step service act).1
      (history ++ ((seederMachine S).step service act).2) := by
  cases act with
  | chain bc =>
    simp only [seederMachine, List.append_nil]
    exact ⟨h.nodup, h.order, h.fresh⟩
  | registerPeer now peer proof =>
    simp only [seederMachine]
    obtain ⟨err, hcall⟩ | hcall := registerPeer_cases S service now peer proof
    · rw [hcall]
      refine ⟨h.nodup, ?_, fun id => ?_⟩
      · rw [firstRegistered_append_error, h.order]
      · rw [lastFor_append_error, h.fresh]
    · rw [hcall]
      refine ⟨nodup_upsert h.nodup, ?_, fun id => ?_⟩
      · rw [firstRegistered_append_ok, ← h.order, map_nodeId_upsert]
      · rw [lastFor_append_ok, getRecordFor, find?_upsert, apply_ite (Option.map Call.record),
          ← h.fresh]
        rfl

theorem upToDate_of_run (S : Secp256k1) (bc : Blockchain) (acts : List SeederAct) :
    UpToDate ((seederMachine S).run ⟨bc, []⟩ acts).1 ((seederMachine S).run ⟨bc, []⟩ acts).2 := by
  have hguard : (seederMachine S).Guarded (fun _ _ => True) ⟨bc, []⟩ acts :=
    (seederMachine S).guarded_of_forall (fun _ _ => trivial) _ _
  exact Machine.run_history UpToDate (fun _ _ act h _ => h.step act) (UpToDate.empty bc) hguard

theorem isSome_lastFor (id : Address) (history : List Call) :
    (lastFor id history).isSome ↔
      ∃ c ∈ history, c.answer.isOk ∧ c.peer.nodeId = id := by
  simp [lastFor]

/-- The registry after any calls from the empty one: no node stands twice in it, a refused call
changes nothing, the record of a node is that of its last successful call at the time of the call, a
further successful call of a known node replaces its record and nothing else, and `getPeers` lists
the nodes in the order of their first registration. -/
theorem registry_of_run (S : Secp256k1) (bc : Blockchain) (acts : List SeederAct) :
    let service := ((seederMachine S).run ⟨bc, []⟩ acts).1
    let history := ((seederMachine S).run ⟨bc, []⟩ acts).2
    (service.peers.map PeerInfo.nodeId).Nodup ∧
    (∀ now peer proof err, (service.registerPeer S now peer proof).2 = .error err →
      (service.registerPeer S now peer proof).1.peers = service.peers) ∧
    (∀ id, (service.getRecordFor id).isSome ↔
      ∃ c ∈ history, c.answer.isOk ∧ c.peer.nodeId = id) ∧
    (∀ id, service.getRecordFor id =
      (lastFor id history).map fun c => { c.peer with lastSeen := c.now }) ∧
    (∀ now peer proof, (service.registerPeer S now peer proof).2 = .ok () →
      peer.nodeId ∈ service.peers.map PeerInfo.nodeId →
      (service.registerPeer S now peer proof).1.peers =
        service.peers.map fun x =>
          if x.nodeId = peer.nodeId then { peer with lastSeen := now } else x) ∧
    ∀ limit, service.getPeers limit = service.peers.take (min limit service.peers.length) ∧
      (service.getPeers limit).map PeerInfo.nodeId = (firstRegistered history).take limit := by
  intro service history
  have h : UpToDate service history := upToDate_of_run S bc acts
  refine ⟨h.nodup, ?_, fun id => ?_, h.fresh, ?_, fun limit => ⟨?_, ?_⟩⟩
  · intro now peer proof err herr
    obtain ⟨err', hcall⟩ | hcall := registerPeer_cases S service now peer proof
    · rw [hcall]
    · rw [hcall] at herr
      cases herr
  · rw [h.fresh, Option.isSome_map, isSome_lastFor]
  · intro now peer proof hok hknown
    obtain ⟨err', hcall⟩ | hcall := registerPeer_cases S service now peer proof
    · rw [hcall] at hok
      cases hok
    · rw [hcall]
      exact upsert_eq_map h.nodup hknown
  · rw [getPeers_eq_take, List.take_eq_take_min]
  · rw [getPeers_eq_take, List.map_take, h.order]

end ZkSeederService

end Gambit
