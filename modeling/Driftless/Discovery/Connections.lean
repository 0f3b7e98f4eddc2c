import Mathlib.Data.List.Perm.Basic
import Driftless.Cooldown
import Driftless.Discovery.Coordinator
import Driftless.Raft.Peers

/-!
# The connections of a coordinator

With a registry a node starts with the peers it expects, under ids that tell them apart
(`registry_peers`). Later a peer always has the connection that was dialed for its address, an
address that was registered under its id, and each connection it had before is closed once, or about
to be (`connections_sound`). And the time stamps of a peer's lookups are half a second apart
(`reresolve_rate`).
-/

namespace Driftless.Discovery

/-! ## Invariants -/

/-- The record was looked up at most twice the TTL after it was registered. -/
def Fresh (h : List Output) (info : Info) : Prop :=
  ∃ sent now, .registered info sent ∈ h ∧ .found info now ∈ h ∧ now ≤ sent + 2 * ttl

theorem Fresh.append {h : List Output} {info : Info} (hf : Fresh h info) (out : List Output) :
    Fresh (h ++ out) info := by
  obtain ⟨sent, now, hreg, hfound, hle⟩ := hf
  exact ⟨sent, now, List.mem_append_left _ hreg, List.mem_append_left _ hfound, hle⟩

/-- The rows of the table were registered. -/
structure Rows (s : Coordinator) (h : List Output) : Prop where
  now : s.now < int64Bound
  rows : ∀ id item, s.table.lookup id = some item → ∃ info isLeader sent,
    info.nodeID = id ∧ item = info.item isLeader sent ∧ sent < int64Bound ∧ .registered info sent ∈ h

/-- Where `main` is with the peers. -/
def Boots (expected : List String) (h : List Output) (peers : List GRPCPeer) : Main → Prop
  | .waiting found todo => peers = [] ∧ (∀ id ∈ todo, id ∈ expected) ∧
      ∀ id info, found.lookup id = some info → id ∈ expected ∧ info.nodeID = id ∧ Fresh h info
  | .dialing resolved => expected.Nodup ∧ (∀ info ∈ resolved, Fresh h info) ∧
      peers.map GRPCPeer.id ++ resolved.map Info.nodeID = expected
  | .running => expected.Nodup ∧ peers.map GRPCPeer.id = expected
  | .exited => True

/-- The connection that a call is about to close. -/
def closingConn (call : ℕ × Reresolve) : Option ℕ :=
  match call.2 with
  | .closing oldConn => some oldConn
  | _ => none

/-- Every peer has a connection of its own, which was dialed for its address, and the address was
registered under its id. Every connection is that of one peer, or one call is about to close it, or
it was closed once. -/
structure ConnectionsSound (s : Coordinator) (h : List Output) : Prop where
  conns : ∀ p ∈ s.peers, p.client = p.conn ∧ s.dialed[p.conn]? = some p.addr
  registered : ∀ p ∈ s.peers, ∃ info, Fresh h info ∧ info.nodeID = p.id ∧ info.grpcAddr = p.addr
  once : (s.peers.map GRPCPeer.conn ++ s.calls.filterMap closingConn ++ s.closed).Perm
    (List.range s.dialed.length)

/-- What the calls have resolved was registered under the id of their peer. -/
def Resolved (s : Coordinator) (h : List Output) : Prop :=
  ∀ call ∈ s.calls, ∀ newGRPC newHTTP, call.2 = .resolved newGRPC newHTTP →
    ∃ info, Fresh h info ∧ (s.peers.map GRPCPeer.id)[call.1]? = some info.nodeID ∧
      info.grpcAddr = newGRPC

section Keep

variable {expected : List String} {s s' : Coordinator} {ev : Event} {h out : List Output}

/-- What a lookup returns is fresh. -/
theorem Rows.fresh (hi : Rows s h) {id : String} {ok : Bool} {info : Info}
    (hl : lookup s.table id s.now ok = .ok info) :
    info.nodeID = id ∧ Fresh (h ++ [.found info s.now]) info := by
  cases hrow : s.table.lookup id with
  | none => cases ok <;> simp [lookup, hrow] at hl
  | some item =>
    obtain ⟨self, isLeader, sent, hid, rfl, hsent, hreg⟩ := hi.rows id item hrow
    obtain ⟨rfl, hle⟩ := lookup_registered hrow hsent hl
    exact ⟨hid, sent, s.now, List.mem_append_left _ hreg, by simp, hle⟩

theorem Rows.step (hi : Rows s h) (hok : s.Admits h ev)
    (hs : Coordinator.Step expected s ev s' out) : Rows s' (h ++ out) := by
  have hold : ∀ id item, s.table.lookup id = some item → ∃ info isLeader sent,
      info.nodeID = id ∧ item = info.item isLeader sent ∧ sent < int64Bound ∧
        .registered info sent ∈ h ++ out := by
    intro id item hrow
    obtain ⟨info, isLeader, sent, hid, hitem, hsent, hreg⟩ := hi.rows id item hrow
    exact ⟨info, isLeader, sent, hid, hitem, hsent, List.mem_append_left _ hreg⟩
  cases hs with
  | tick now => exact ⟨hok.2, hold⟩
  | register info isLeader sent =>
    refine ⟨hi.now, fun id item hrow => ?_⟩
    by_cases hid : id = info.nodeID
    · subst hid
      rw [AList.lookup_insert] at hrow
      cases hrow
      exact ⟨info, isLeader, sent, rfl, rfl, hok.trans_lt hi.now, by simp⟩
    · rw [AList.lookup_insert_ne hid] at hrow
      exact hold id item hrow
  | expire nodeID =>
    refine ⟨hi.now, fun id item hrow => ?_⟩
    by_cases hid : id = nodeID
    · subst hid
      rw [AList.lookup_erase] at hrow
      cases hrow
    · rw [AList.lookup_erase_ne hid] at hrow
      exact hold id item hrow
  | _ => exact ⟨hi.now, hold⟩

/-- `WaitForPeers` returns when it has found every expected id, and no id is expected twice. -/
theorem found_all {found : AList fun _ : String => Info}
    (hsub : ∀ id info, found.lookup id = some info → id ∈ expected)
    (hlen : found.keys.length = expected.length) :
    expected.Nodup ∧ ∀ id ∈ expected, ∃ info, found.lookup id = some info := by
  have hkeys : found.keys ⊆ expected := by
    intro id hid
    obtain ⟨info, hinfo⟩ := Option.isSome_iff_exists.1 (AList.lookup_isSome.2 hid)
    exact hsub id info hinfo
  have hperm := (List.subperm_of_subset found.keys_nodup hkeys).perm_of_length_le hlen.ge
  refine ⟨hperm.nodup found.keys_nodup, fun id hid => ?_⟩
  exact Option.isSome_iff_exists.1 (AList.lookup_isSome.2 (hperm.mem_iff.2 hid))

theorem Coordinator.Resolves.id_eq {i : ℕ} {p p' : GRPCPeer} {stage stage' : Reresolve}
    {addrs : List String} {closed : List ℕ} (hr : s.Resolves i p stage p' stage' addrs closed out) :
    p'.id = p.id := by
  cases hr <;> rfl

theorem map_id_set {peers : List GRPCPeer} {i : ℕ} {p p' : GRPCPeer} (hp : peers[i]? = some p)
    (hid : p'.id = p.id) : (peers.set i p').map GRPCPeer.id = peers.map GRPCPeer.id := by
  obtain ⟨hlt, rfl⟩ := List.getElem?_eq_some_iff.1 hp
  have hlt' : i < (peers.map GRPCPeer.id).length := by simpa using hlt
  simpa [List.map_set, hid] using List.set_getElem_self hlt'

theorem Boots.append {peers : List GRPCPeer} {main : Main} (hb : Boots expected h peers main)
    (out : List Output) : Boots expected (h ++ out) peers main := by
  cases main with
  | waiting found todo =>
    exact ⟨hb.1, hb.2.1, fun id info hl =>
      ⟨(hb.2.2 id info hl).1, (hb.2.2 id info hl).2.1, (hb.2.2 id info hl).2.2.append out⟩⟩
  | dialing resolved => exact ⟨hb.1, fun info hinfo => (hb.2.1 info hinfo).append out, hb.2.2⟩
  | running => exact hb
  | exited => trivial

theorem Boots.step (hb : Boots expected h s.peers s.main) (hi : Rows s h)
    (hs : Coordinator.Step expected s ev s' out) : Boots expected (h ++ out) s'.peers s'.main := by
  have hkeep := hb.append out
  cases hs with
  | tick | register | expire | reresolve => exact hkeep
  | exit => trivial
  | skip hm =>
    rw [hm] at hkeep
    exact ⟨hkeep.1, fun id hid => hkeep.2.1 id (List.mem_cons_of_mem _ hid), hkeep.2.2⟩
  | found hm hl =>
    rename_i found id todo info
    rw [hm] at hkeep
    refine ⟨hkeep.1, fun id hid => hkeep.2.1 id (List.mem_cons_of_mem _ hid), ?_⟩
    intro id' info' hl'
    by_cases hid : id' = id
    · subst hid
      rw [AList.lookup_insert] at hl'
      cases hl'
      exact ⟨hkeep.2.1 id' (by simp), hi.fresh hl⟩
    · rw [AList.lookup_insert_ne hid] at hl'
      exact hkeep.2.2 id' info' hl'
  | returned hm hlen =>
    rename_i found
    rw [hm] at hkeep
    obtain ⟨hpeers, -, hfound⟩ := hkeep
    obtain ⟨hnd, hall⟩ := found_all (fun id info hl => (hfound id info hl).1) hlen
    refine ⟨hnd, ?_, ?_⟩
    · intro info hinfo
      obtain ⟨id, hid, rfl⟩ := List.mem_map.1 hinfo
      obtain ⟨info, hl⟩ := hall id hid
      rw [hl]
      exact (hfound id info hl).2.2
    · rw [hpeers, List.map_nil, List.nil_append, List.map_map]
      conv_rhs => rw [← List.map_id expected]
      refine List.map_congr_left fun id hid => ?_
      obtain ⟨info, hl⟩ := hall id hid
      simpa [hl] using (hfound id info hl).2.1
  | again hm =>
    rw [hm] at hkeep
    exact ⟨hkeep.1, fun _ hid => hid, hkeep.2.2⟩
  | dial hm =>
    rw [hm] at hkeep
    obtain ⟨hnd, hfresh, hids⟩ := hkeep
    refine ⟨hnd, fun info hinfo => hfresh info (List.mem_cons_of_mem _ hinfo), ?_⟩
    simpa using hids
  | run hm =>
    rw [hm] at hkeep
    exact ⟨hkeep.1, by simpa using hkeep.2.2⟩
  | resolve hk hp hr =>
    rename_i k i ok p p' stage stage' addrs closed
    have hids := map_id_set hp hr.id_eq
    show Boots expected (h ++ out) (s.peers.set i p') s.main
    cases hm : s.main with
    | waiting found todo =>
      rw [hm] at hkeep
      rw [hkeep.1] at hp
      cases hp
    | dialing resolved =>
      rw [hm] at hkeep
      exact ⟨hkeep.1, hkeep.2.1, hids ▸ hkeep.2.2⟩
    | running =>
      rw [hm] at hkeep
      exact ⟨hkeep.1, hids ▸ hkeep.2⟩
    | exited => trivial

theorem Resolved.step (hr : Resolved s h) (hi : Rows s h)
    (hs : Coordinator.Step expected s ev s' out) : Resolved s' (h ++ out) := by
  have hkeep : Resolved s (h ++ out) := by
    intro call hcall newGRPC newHTTP hst
    obtain ⟨info, hf, hid, haddr⟩ := hr call hcall newGRPC newHTTP hst
    exact ⟨info, hf.append out, hid, haddr⟩
  cases hs with
  | dial hm =>
    intro call hcall newGRPC newHTTP hst
    obtain ⟨info, hf, hid, haddr⟩ := hkeep call hcall newGRPC newHTTP hst
    refine ⟨info, hf, ?_, haddr⟩
    rw [List.map_append, List.getElem?_append_left (List.getElem?_eq_some_iff.1 hid).1, hid]
  | reresolve =>
    intro call hcall newGRPC newHTTP hst
    rcases List.mem_append.1 hcall with hold | hnew
    · exact hkeep call hold newGRPC newHTTP hst
    · rw [List.mem_singleton.1 hnew] at hst
      cases hst
  | resolve hk hp hres =>
    have hids := map_id_set hp hres.id_eq
    intro call hcall newGRPC newHTTP hst
    show ∃ info, Fresh _ info ∧ ((s.peers.set _ _).map GRPCPeer.id)[call.1]? = some info.nodeID ∧ _
    rw [hids]
    rcases List.mem_or_eq_of_mem_set hcall with hold | rfl
    · exact hkeep call hold newGRPC newHTTP hst
    · cases hres with
      | found hl =>
        cases hst
        obtain ⟨hid, hf⟩ := hi.fresh hl
        rename_i i p ok info
        refine ⟨info, ?_, by simp [hp, hid], rfl⟩
        rw [← hid]
        exact hf
      | _ => cases hst
  | _ => exact hkeep

/-- Replacing an element moves it to the front. -/
theorem perm_set {α : Type*} {l : List α} {i : ℕ} {a b : α} (h : l[i]? = some a) :
    (a :: l.set i b).Perm (b :: l) := by
  obtain ⟨hlt, rfl⟩ := List.getElem?_eq_some_iff.1 h
  have hset := List.set_perm_cons_eraseIdx hlt b
  have hget := List.getElem_cons_eraseIdx_perm hlt
  exact ((hset.cons _).trans (.swap _ _ _)).trans (hget.cons _)

/-- One call and its peer pass connections on. -/
theorem ConnectionsSound.once_set (hc : ConnectionsSound s h) {k i n : ℕ} {p p' : GRPCPeer}
    {call call' : ℕ × Reresolve} {closed : List ℕ} (hk : s.calls[k]? = some call)
    (hp : s.peers[i]? = some p)
    (hmove : ([p'.conn] ++ (closingConn call').toList ++ closed ++
      List.range s.dialed.length).Perm ([p.conn] ++ (closingConn call).toList ++ List.range n)) :
    ((s.peers.set i p').map GRPCPeer.conn ++ (s.calls.set k call').filterMap closingConn ++
      (s.closed ++ closed)).Perm (List.range n) := by
  rw [List.perm_iff_count] at hmove ⊢
  intro c
  have honce := hc.once.count_eq c
  have hpeers := ((perm_set (b := p') hp).map GRPCPeer.conn).count_eq c
  have hcalls := ((perm_set (b := call') hk).filterMap closingConn).count_eq c
  have hmove := hmove c
  have hcons : ∀ (call : ℕ × Reresolve) (l : List (ℕ × Reresolve)),
      (call :: l).filterMap closingConn = (closingConn call).toList ++ l.filterMap closingConn := by
    intro call l
    rw [List.filterMap_cons]
    cases closingConn call <;> rfl
  rw [hcons, hcons] at hcalls
  simp only [List.map_cons, List.count_cons] at hpeers
  simp only [List.count_append, List.count_cons, List.count_nil] at honce hcalls hmove ⊢
  omega

/-- A call dials another connection, and is to close the one before. -/
theorem ConnectionsSound.resolve (hc : ConnectionsSound s h) (hr : Resolved s h) {k i : ℕ}
    {p p' : GRPCPeer} {stage stage' : Reresolve} {addrs : List String} {closed : List ℕ}
    (hk : s.calls[k]? = some (i, stage)) (hp : s.peers[i]? = some p)
    (hres : s.Resolves i p stage p' stage' addrs closed out) :
    ConnectionsSound { s with
      peers := s.peers.set i p'
      calls := s.calls.set k (i, stage')
      dialed := s.dialed ++ addrs
      closed := s.closed ++ closed } (h ++ out) := by
  have hmem := List.mem_of_getElem? hp
  have hconns : ∀ q ∈ s.peers, q.client = q.conn ∧ (s.dialed ++ addrs)[q.conn]? = some q.addr := by
    intro q hq
    obtain ⟨hclient, hconn⟩ := hc.conns q hq
    rw [List.getElem?_append_left (List.getElem?_eq_some_iff.1 hconn).1]
    exact ⟨hclient, hconn⟩
  have hreg : ∀ q ∈ s.peers, ∃ info, Fresh (h ++ out) info ∧ info.nodeID = q.id ∧
      info.grpcAddr = q.addr := by
    intro q hq
    obtain ⟨info, hf, hid, haddr⟩ := hc.registered q hq
    exact ⟨info, hf.append out, hid, haddr⟩
  have hset : ∀ {P : GRPCPeer → Prop}, (∀ q ∈ s.peers, P q) → P p' → ∀ q ∈ s.peers.set i p', P q :=
    fun hall hnew q hq => (List.mem_or_eq_of_mem_set hq).elim (hall q) fun heq => heq ▸ hnew
  cases hres with
  | dial =>
    refine ⟨hset hconns ⟨rfl, by simp⟩, hset hreg ?_, hc.once_set hk hp ?_⟩
    · obtain ⟨info, hf, hid, haddr⟩ := hr _ (List.mem_of_getElem? hk) _ _ rfl
      exact ⟨info, hf.append _, by simpa [hp] using hid.symm, haddr⟩
    · rw [List.length_append, List.length_singleton, List.range_succ]
      show ([s.dialed.length, p.conn] ++ List.range s.dialed.length).Perm
        (p.conn :: (List.range s.dialed.length ++ [s.dialed.length]))
      refine (List.Perm.swap _ _ _).trans (.cons _ ?_)
      show ([s.dialed.length] ++ List.range s.dialed.length).Perm _
      exact List.perm_append_comm
  | close =>
    exact ⟨hset hconns (hconns p hmem), hset hreg (hreg p hmem),
      hc.once_set hk hp (by simp [closingConn])⟩
  | swap | clock | load | found =>
    exact ⟨hset hconns (hconns p hmem), hset hreg (hreg p hmem),
      hc.once_set hk hp (by simp [closingConn])⟩
  | leave hst =>
    have hnone : closingConn (i, stage) = none := by
      cases stage with
      | closing oldConn => exact absurd rfl (hst oldConn)
      | _ => rfl
    refine ⟨hset hconns (hconns p hmem), hset hreg (hreg p hmem), hc.once_set hk hp ?_⟩
    rw [hnone]
    simp [closingConn]

theorem ConnectionsSound.step (hc : ConnectionsSound s h) (hr : Resolved s h)
    (hb : Boots expected h s.peers s.main)
    (hs : Coordinator.Step expected s ev s' out) : ConnectionsSound s' (h ++ out) := by
  have hreg : ∀ p ∈ s.peers, ∃ info, Fresh (h ++ out) info ∧ info.nodeID = p.id ∧
      info.grpcAddr = p.addr := by
    intro p hp
    obtain ⟨info, hf, hid, haddr⟩ := hc.registered p hp
    exact ⟨info, hf.append out, hid, haddr⟩
  cases hs with
  | dial hm =>
    rename_i ok info resolved
    rw [hm] at hb
    refine ⟨?_, ?_, ?_⟩
    · refine List.forall_mem_append.2 ⟨fun p hp => ⟨(hc.conns p hp).1, ?_⟩, by simp⟩
      have hconn := (hc.conns p hp).2
      rw [List.getElem?_append_left (List.getElem?_eq_some_iff.1 hconn).1, hconn]
    · refine List.forall_mem_append.2 ⟨hreg, ?_⟩
      simpa using ⟨info, hb.2.1 info (by simp), rfl, rfl⟩
    · rw [List.perm_iff_count]
      intro c
      have hold := hc.once.count_eq c
      simp only [List.map_append, List.map_cons, List.map_nil, List.length_append,
        List.length_singleton, List.range_succ, List.count_append] at hold ⊢
      omega
  | reresolve =>
    refine ⟨hc.conns, hreg, ?_⟩
    rw [List.filterMap_append]
    simpa [List.filterMap_cons, closingConn] using hc.once
  | resolve hk hp hres => exact hc.resolve hr hk hp hres
  | _ => exact ⟨hc.conns, hreg, hc.once⟩

/-! ## The rate of lookups -/

/-- The time stamps of the lookups for the `i`-th peer. -/
def stamps (i : ℕ) (h : List Output) : List ℕ :=
  h.filterMap fun
    | .resolving j now => if j = i then some now else none
    | _ => none

/-- The stamps of a peer are apart, and its `lastResolveNs` is the last of them. -/
structure Spaced (s : Coordinator) (h : List Output) : Prop where
  loaded : ∀ call ∈ s.calls, ∀ now last, call.2 = .loaded now last → last + reresolveCooldown ≤ now
  absent : ∀ i, s.peers.length ≤ i → stamps i h = []
  last : ∀ i p, s.peers[i]? = some p → ∀ t ∈ stamps i h, t ≤ p.lastResolveNs
  apart : ∀ i, (stamps i h).Pairwise fun t t' => t + reresolveCooldown ≤ t'

theorem stamps_append (i : ℕ) (h out : List Output) :
    stamps i (h ++ out) = stamps i h ++ stamps i out := List.filterMap_append

/-- A step without a lookup of `tryReresolve`. -/
theorem Spaced.keep (hi : Spaced s h) (hout : ∀ i, stamps i out = [])
    (hloaded : ∀ call ∈ s'.calls, ∀ now last, call.2 = .loaded now last →
      last + reresolveCooldown ≤ now)
    (hpeers : ∀ i p, s'.peers[i]? = some p → s.peers.length ≤ i ∨
      ∃ q, s.peers[i]? = some q ∧ p.lastResolveNs = q.lastResolveNs)
    (hlen : s.peers.length ≤ s'.peers.length) : Spaced s' (h ++ out) := by
  have hsame : ∀ i, stamps i (h ++ out) = stamps i h := by
    intro i
    rw [stamps_append, hout, List.append_nil]
  refine ⟨hloaded, fun i hle => ?_, fun i p hp => ?_, fun i => ?_⟩
  · rw [hsame]
    exact hi.absent i (hlen.trans hle)
  · rw [hsame]
    rcases hpeers i p hp with hle | ⟨q, hq, heq⟩
    · rw [hi.absent i hle]
      exact nofun
    · rw [heq]
      exact hi.last i q hq
  · rw [hsame]
    exact hi.apart i

theorem Spaced.resolve (hi : Spaced s h) {k i : ℕ} {p p' : GRPCPeer} {stage stage' : Reresolve}
    {addrs : List String} {closed : List ℕ} (hk : s.calls[k]? = some (i, stage))
    (hp : s.peers[i]? = some p) (hres : s.Resolves i p stage p' stage' addrs closed out) :
    Spaced { s with
      peers := s.peers.set i p'
      calls := s.calls.set k (i, stage')
      dialed := s.dialed ++ addrs
      closed := s.closed ++ closed } (h ++ out) := by
  have hlt := (List.getElem?_eq_some_iff.1 hp).1
  have hloaded : (∀ now last, stage' = .loaded now last → last + reresolveCooldown ≤ now) →
      ∀ call ∈ s.calls.set k (i, stage'), ∀ now last, call.2 = .loaded now last →
        last + reresolveCooldown ≤ now := by
    intro hnew call hcall
    rcases List.mem_or_eq_of_mem_set hcall with hold | rfl
    · exact hi.loaded call hold
    · exact hnew
  have hget : ∀ {j : ℕ} {q : GRPCPeer}, (s.peers.set i p')[j]? = some q →
      (j = i ∧ q = p') ∨ (j ≠ i ∧ s.peers[j]? = some q) := by
    intro j q hq
    by_cases hij : i = j
    · subst hij
      rw [List.getElem?_set_self hlt] at hq
      exact .inl ⟨rfl, (Option.some.inj hq).symm⟩
    · rw [List.getElem?_set_ne hij] at hq
      exact .inr ⟨Ne.symm hij, hq⟩
  have hpeers : p'.lastResolveNs = p.lastResolveNs → ∀ j q, (s.peers.set i p')[j]? = some q →
      s.peers.length ≤ j ∨ ∃ q', s.peers[j]? = some q' ∧ q.lastResolveNs = q'.lastResolveNs := by
    intro heq j q hq
    rcases hget hq with ⟨rfl, rfl⟩ | ⟨-, hq⟩
    · exact .inr ⟨p, hp, heq⟩
    · exact .inr ⟨q, hq, rfl⟩
  cases hres with
  | swap =>
    rename_i now
    have hnow : p.lastResolveNs + reresolveCooldown ≤ now :=
      hi.loaded _ (List.mem_of_getElem? hk) now _ rfl
    have hstamps : ∀ j, stamps j (h ++ [.resolving i now]) =
        stamps j h ++ if i = j then [now] else [] := by
      intro j
      by_cases hij : i = j <;> simp [stamps, hij]
    refine ⟨hloaded nofun, fun j hle => ?_, fun j q hq t ht => ?_, fun j => ?_⟩
    · have hle : s.peers.length ≤ j := by simpa using hle
      rw [hstamps, hi.absent j hle, if_neg (by omega), List.append_nil]
    · rw [hstamps] at ht
      rcases hget hq with ⟨rfl, rfl⟩ | ⟨hij, hq⟩
      · rcases List.mem_append.1 ht with ht | ht
        · have hle := hi.last j p hp t ht
          show t ≤ now
          omega
        · simp only [if_true, List.mem_singleton] at ht
          exact ht.le
      · rw [if_neg (Ne.symm hij), List.append_nil] at ht
        exact hi.last j q hq t ht
    · rw [hstamps]
      split_ifs with hij
      · subst hij
        refine List.pairwise_append.2 ⟨hi.apart i, List.pairwise_singleton _ _, ?_⟩
        intro t ht t' ht'
        rw [List.mem_singleton.1 ht']
        have hle := hi.last i p hp t ht
        omega
      · rw [List.append_nil]
        exact hi.apart j
  | load hnow =>
    refine hi.keep (fun _ => rfl) (hloaded ?_) (hpeers rfl) (by simp)
    intro now last hst
    cases hst
    omega
  | clock | found | dial | close | leave =>
    exact hi.keep (fun _ => rfl) (hloaded nofun) (hpeers rfl) (by simp)

theorem Spaced.step (hi : Spaced s h) (hs : Coordinator.Step expected s ev s' out) :
    Spaced s' (h ++ out) := by
  have hkeep : ∀ i p, s.peers[i]? = some p → s.peers.length ≤ i ∨
      ∃ q, s.peers[i]? = some q ∧ p.lastResolveNs = q.lastResolveNs :=
    fun i p hp => .inr ⟨p, hp, rfl⟩
  cases hs with
  | dial =>
    refine hi.keep (fun _ => rfl) hi.loaded (fun i p hp => ?_) (by simp)
    by_cases hlt : i < s.peers.length
    · rw [List.getElem?_append_left hlt] at hp
      exact hkeep i p hp
    · exact .inl (not_lt.1 hlt)
  | reresolve =>
    refine hi.keep (fun _ => rfl) (List.forall_mem_append.2 ⟨hi.loaded, ?_⟩) hkeep le_rfl
    intro call hcall now last hst
    rw [List.mem_singleton.1 hcall] at hst
    cases hst
  | resolve hk hp hres => exact hi.resolve hk hp hres
  | _ => exact hi.keep (fun _ => rfl) hi.loaded hkeep le_rfl

end Keep

/-! ## Runs -/

/-- What a coordinator keeps. -/
structure Kept (expected : List String) (s : Coordinator) (h : List Output) : Prop where
  rows : Rows s h
  boots : Boots expected h s.peers s.main
  resolved : Resolved s h
  connections : ConnectionsSound s h
  spaced : Spaced s h

section Run

variable {expected : List String} {s : Coordinator} {h : List Output}

theorem kept_boot (expected : List String) : Kept expected (Coordinator.boot expected) [] where
  rows := ⟨by simp [Coordinator.boot, int64Bound], nofun⟩
  boots := by
    unfold Coordinator.boot
    split_ifs with hnil
    · exact ⟨hnil ▸ List.nodup_nil, hnil.symm⟩
    · exact ⟨rfl, fun _ hid => hid, nofun⟩
  resolved := nofun
  connections := ⟨nofun, nofun, .refl _⟩
  spaced := ⟨nofun, fun _ _ => rfl, fun _ _ _ => nofun, fun _ => .nil⟩

theorem kept_run
    (r : Run (Coordinator.step expected) Coordinator.Admits (Coordinator.boot expected) [] s h) :
    Kept expected s h :=
  r.invariant (kept_boot expected) fun _ _ _ _ _ hi hok hs => by
    have hstep := Coordinator.step_inv hs
    exact ⟨hi.rows.step hok hstep, hi.boots.step hi.rows hstep, hi.resolved.step hi.rows hstep,
      hi.connections.step hi.resolved hi.boots hstep, hi.spaced.step hstep⟩

/-- **A node runs with the peers it expects**, and each has an id, map entries and acknowledgements
of its own. So it does not start at all where an id is expected twice. -/
theorem registry_peers
    (r : Run (Coordinator.step expected) Coordinator.Admits (Coordinator.boot expected) [] s h)
    (hm : s.main = .running) :
    s.peers.map GRPCPeer.id = expected ∧ Raft.Identified (s.peers.map GRPCPeer.id) := by
  have hb := (kept_run r).boots
  rw [hm] at hb
  exact ⟨hb.2, hb.2 ▸ Raft.identified_of_nodup hb.1⟩

/-- **No connection is lost or closed twice**, whatever lookups go on at the same time: every peer
has the connection of its address, which was registered under its id not long before it was looked
up, and every other connection is closed once, or about to be. -/
theorem connections_sound
    (r : Run (Coordinator.step expected) Coordinator.Admits (Coordinator.boot expected) [] s h) :
    ConnectionsSound s h :=
  (kept_run r).connections

/-- **The time stamps of a peer's lookups are half a second apart**: in `n` times the cooldown
there are at most `n` of them, however many calls fail. A stamp is read when the call starts, so
the lookups themselves may come closer together. -/
theorem reresolve_rate
    (r : Run (Coordinator.step expected) Coordinator.Admits (Coordinator.boot expected) [] s h)
    (i t n : ℕ) :
    ((stamps i h).filter fun now => t ≤ now ∧ now < t + n * reresolveCooldown).length ≤ n := by
  refine Cooldown.length_le_of_apart (t := t) (((kept_run r).spaced.apart i).filter _) fun x hx => ?_
  simpa using (List.mem_filter.1 hx).2

end Run

/-- The node finds `"b"` and `"c"`. Then `"b"` is at another address, two calls fail, and one of the
two lookups that they start replaces the connection. -/
def restartedPeer : List Event :=
  [.tick (100 * second),
    .register ⟨"b", "10.0.0.2:50051", "10.0.0.2:8080"⟩ false (100 * second), .lookup true,
    .lookup true, .round false,
    .register ⟨"c", "10.0.0.3:50051", "10.0.0.3:8080"⟩ true (100 * second), .lookup true,
    .lookup true, .round false, .dial true, .dial true, .dial true, .tick (110 * second),
    .register ⟨"b", "10.0.0.9:50051", "10.0.0.9:8080"⟩ false (110 * second), .reresolve 0,
    .reresolve 0, .resolve 0 true, .resolve 1 true, .resolve 0 true, .resolve 1 true,
    .resolve 0 true, .resolve 1 true, .resolve 0 true, .resolve 0 true, .resolve 0 true]

theorem registry_peers_of_restart : ∃ s h,
    Run (Coordinator.step ["b", "c"]) Coordinator.Admits (Coordinator.boot ["b", "c"]) [] s h ∧
    s.main = .running ∧ s.peers.map GRPCPeer.id = ["b", "c"] ∧
      Raft.Identified (s.peers.map GRPCPeer.id) := by
  obtain ⟨s, h, r, hm⟩ := exists_run_of_exec (Coordinator.step ["b", "c"]) Coordinator.Admits
    (Coordinator.boot ["b", "c"]) [] restartedPeer (fun s _ => s.main = .running)
    (by decide +kernel)
  exact ⟨s, h, r, hm, registry_peers r hm⟩

theorem connections_sound_of_restart : ∃ s h,
    Run (Coordinator.step ["b", "c"]) Coordinator.Admits (Coordinator.boot ["b", "c"]) [] s h ∧
    s.peers.map GRPCPeer.addr = ["10.0.0.9:50051", "10.0.0.3:50051"] ∧
    s.peers.map GRPCPeer.conn = [2, 1] ∧ s.closed = [0] ∧ ConnectionsSound s h := by
  obtain ⟨s, h, r, haddr, hconn, hclosed⟩ := exists_run_of_exec (Coordinator.step ["b", "c"])
    Coordinator.Admits (Coordinator.boot ["b", "c"]) [] restartedPeer
    (fun s _ => s.peers.map GRPCPeer.addr = ["10.0.0.9:50051", "10.0.0.3:50051"] ∧
      s.peers.map GRPCPeer.conn = [2, 1] ∧ s.closed = [0]) (by decide +kernel)
  exact ⟨s, h, r, haddr, hconn, hclosed, connections_sound r⟩

theorem reresolve_rate_of_restart : ∃ s h,
    Run (Coordinator.step ["b", "c"]) Coordinator.Admits (Coordinator.boot ["b", "c"]) [] s h ∧
    stamps 0 h = [110 * second] ∧
    ((stamps 0 h).filter fun now =>
      110 * second ≤ now ∧ now < 110 * second + 1 * reresolveCooldown).length ≤ 1 := by
  obtain ⟨s, h, r, hstamps⟩ := exists_run_of_exec (Coordinator.step ["b", "c"]) Coordinator.Admits
    (Coordinator.boot ["b", "c"]) [] restartedPeer (fun _ h => stamps 0 h = [110 * second])
    (by decide +kernel)
  exact ⟨s, h, r, hstamps, reresolve_rate r 0 (110 * second) 1⟩

end Driftless.Discovery
