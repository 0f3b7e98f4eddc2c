import Driftless.Transition
import Driftless.Discovery.Registry

/-!
# A coordinator and its peers

`WaitForPeers` looks for the expected ids until it has found them all, `main` dials what it returns,
and a `GRPCPeer` whose calls fail looks its address up again in the background (`tryReresolve`).
Any number of these lookups go on at the same time; what they share is the time stamp of the last
one, which is swapped atomically, and the connection, which is under a lock.
-/

namespace Driftless.Discovery

/-! ## Peers -/

/-- Connections are numbered in the order in which they are dialed. -/
structure GRPCPeer where
  id : String
  addr : String
  httpURL : String
  conn : ℕ
  /-- The connection that the client uses. -/
  client : ℕ
  lastResolveNs : ℕ
  deriving DecidableEq, Repr

def reresolveCooldown : ℕ := 500 * 1000000

/-- Where a call of `tryReresolve` is. -/
inductive Reresolve
  | started
  | clocked (now : ℕ)
  | loaded (now last : ℕ)
  /-- The swap succeeded. -/
  | swapped
  | resolved (newGRPC newHTTP : String)
  /-- Before it closes the connection it replaced. -/
  | closing (oldConn : ℕ)
  | left
  deriving DecidableEq, Repr

/-- Where `main` is: in the loop of `WaitForPeers`, with the ids that are left in this round, in the
loop that dials, or past it, or the process has exited. -/
inductive Main
  | waiting (found : AList fun _ : String => Info) (todo : List String)
  | dialing (resolved : List Info)
  | running
  | exited
  deriving DecidableEq

/-- A coordinator and the table. -/
structure Coordinator where
  /-- Nanoseconds since the epoch. -/
  now : ℕ
  table : Table
  main : Main
  peers : List GRPCPeer
  /-- The calls of `tryReresolve`, with the peer they are for. -/
  calls : List (ℕ × Reresolve)
  /-- The addresses of all connections. -/
  dialed : List String
  closed : List ℕ

inductive Event
  | tick (now : ℕ)
  /-- A write of `Register`, by whichever coordinator, that was sent at this time. -/
  | register (info : Info) (isLeader : Bool) (sent : ℕ)
  /-- The row is deleted: it expired. -/
  | expire (nodeID : String)
  | lookup (ok : Bool)
  /-- The end of a round, at which the context may be done. -/
  | round (done : Bool)
  | dial (ok : Bool)
  /-- A call of the peer failed, or its connection was not ready. -/
  | reresolve (i : ℕ)
  | resolve (k : ℕ) (ok : Bool)
  deriving DecidableEq, Repr

inductive Output
  | registered (info : Info) (sent : ℕ)
  /-- A lookup returned this. -/
  | found (info : Info) (now : ℕ)
  /-- A lookup of `tryReresolve` for the peer, with its time stamp. -/
  | resolving (i : ℕ) (now : ℕ)
  deriving DecidableEq, Repr

/-- One step of a call of `tryReresolve` for the peer, with the stage after it and the address that
is dialed. The part under the lock is one step. -/
def GRPCPeer.resolve (p : GRPCPeer) (table : Table) (now conns : ℕ) (ok : Bool) :
    Reresolve → GRPCPeer × Reresolve × Option String
  | .started => (p, .clocked now, none)
  | .clocked now =>
    let last := p.lastResolveNs
    if (now : ℤ) - last < reresolveCooldown then (p, .left, none) else (p, .loaded now last, none)
  | .loaded now last =>
    if p.lastResolveNs = last then ({ p with lastResolveNs := now }, .swapped, none)
    else (p, .left, none)
  | .swapped =>
    match lookup table p.id now ok with
    | .error _ => (p, .left, none)
    | .ok info =>
      if info.grpcAddr = "" then (p, .left, none)
      else (p, .resolved info.grpcAddr info.httpAddr, none)
  | .resolved newGRPC newHTTP =>
    if newGRPC = p.addr then (p, .left, none)
    else if ok then
      ({ p with
        conn := conns
        client := conns
        addr := newGRPC
        httpURL := if newHTTP ≠ "" then "http://" ++ newHTTP else p.httpURL },
        .closing p.conn, some newGRPC)
    else (p, .left, none)
  | .closing _ => (p, .left, none)
  | .left => (p, .left, none)

/-- The connections that the next step of the call closes. -/
def Reresolve.closes : Reresolve → List ℕ
  | .closing oldConn => [oldConn]
  | _ => []

/-- What a step of a call for the `i`-th peer does to the outside. -/
def GRPCPeer.reports (p : GRPCPeer) (i now : ℕ) : Reresolve → Reresolve → List Output
  | .loaded now _, .swapped => [.resolving i now]
  | .swapped, .resolved newGRPC newHTTP => [.found ⟨p.id, newGRPC, newHTTP⟩ now]
  | _, _ => []

namespace Coordinator

def boot (expected : List String) : Coordinator :=
  ⟨0, ∅, if expected = [] then .running else .waiting ∅ expected, [], [], [], []⟩

def step (expected : List String) (s : Coordinator) :
    Event → Option (Coordinator × List Output)
  | .tick now => some ({ s with now := now }, [])
  | .register info isLeader sent =>
    some ({ s with table := s.table.insert info.nodeID (info.item isLeader sent) },
      [.registered info sent])
  | .expire nodeID => some ({ s with table := s.table.erase nodeID }, [])
  | .lookup ok =>
    match s.main with
    | .waiting found (id :: todo) =>
      if id ∈ found then some ({ s with main := .waiting found todo }, [])
      else
        match Discovery.lookup s.table id s.now ok with
        | .ok info =>
          some ({ s with main := .waiting (found.insert id info) todo }, [.found info s.now])
        | .error _ => some ({ s with main := .waiting found todo }, [])
    | _ => none
  | .round done =>
    match s.main with
    | .waiting found [] =>
      if found.keys.length = expected.length then
        some ({ s with main := .dialing (expected.map fun id =>
          (found.lookup id).getD ⟨"", "", ""⟩) }, [])
      else if done then some ({ s with main := .exited }, [])
      else some ({ s with main := .waiting found expected }, [])
    | _ => none
  | .dial ok =>
    match s.main with
    | .dialing (info :: resolved) =>
      if ok then
        some ({ s with
          main := .dialing resolved
          peers := s.peers ++ [⟨info.nodeID, info.grpcAddr, "http://" ++ info.httpAddr,
            s.dialed.length, s.dialed.length, 0⟩]
          dialed := s.dialed ++ [info.grpcAddr] }, [])
      else some ({ s with main := .exited }, [])
    | .dialing [] => some ({ s with main := .running }, [])
    | _ => none
  | .reresolve i =>
    if i < s.peers.length then some ({ s with calls := s.calls ++ [(i, .started)] }, []) else none
  | .resolve k ok =>
    match s.calls[k]? with
    | some (i, stage) =>
      match s.peers[i]? with
      | some p =>
        let res := p.resolve s.table s.now s.dialed.length ok stage
        some ({ s with
          peers := s.peers.set i res.1
          calls := s.calls.set k (i, res.2.1)
          dialed := s.dialed ++ res.2.2.toList
          closed := s.closed ++ stage.closes }, p.reports i s.now stage res.2.1)
      | none => none
    | none => none

/-- What can happen: the clock is not set back, and writes take place after they are sent. -/
def Admits (s : Coordinator) (_ : List Output) : Event → Prop
  | .tick now => s.now ≤ now ∧ now < int64Bound
  | .register _ _ sent => sent ≤ s.now
  | _ => True

instance (s : Coordinator) (h : List Output) (ev : Event) : Decidable (s.Admits h ev) := by
  rcases ev <;> dsimp only [Admits] <;> infer_instance

/-! ## What a step can do -/

/-- The steps of `tryReresolve` for the peer `p`, branch by branch, with the peer, the stage, the
address that is dialed and the output after it. -/
inductive Resolves (s : Coordinator) (i : ℕ) (p : GRPCPeer) :
    Reresolve → GRPCPeer → Reresolve → List String → List ℕ → List Output → Prop
  | clock : Resolves s i p .started p (.clocked s.now) [] [] []
  | load {now : ℕ} (hnow : reresolveCooldown ≤ (now : ℤ) - p.lastResolveNs) :
      Resolves s i p (.clocked now) p (.loaded now p.lastResolveNs) [] [] []
  | swap {now : ℕ} :
      Resolves s i p (.loaded now p.lastResolveNs) { p with lastResolveNs := now } .swapped [] []
        [.resolving i now]
  | found {ok : Bool} {info : Info} (hl : Discovery.lookup s.table p.id s.now ok = .ok info) :
      Resolves s i p .swapped p (.resolved info.grpcAddr info.httpAddr) [] []
        [.found ⟨p.id, info.grpcAddr, info.httpAddr⟩ s.now]
  | dial {newGRPC newHTTP httpURL : String} :
      Resolves s i p (.resolved newGRPC newHTTP)
        { p with
          conn := s.dialed.length
          client := s.dialed.length
          addr := newGRPC
          httpURL := httpURL } (.closing p.conn) [newGRPC] [] []
  | close {oldConn : ℕ} : Resolves s i p (.closing oldConn) p .left [] [oldConn] []
  /-- The call returns early. -/
  | leave {stage : Reresolve} (hst : ∀ oldConn, stage ≠ .closing oldConn) :
      Resolves s i p stage p .left [] [] []

/-- The steps of a coordinator, branch by branch. -/
inductive Step (expected : List String) (s : Coordinator) :
    Event → Coordinator → List Output → Prop
  | tick (now : ℕ) : Step expected s (.tick now) { s with now := now } []
  | register (info : Info) (isLeader : Bool) (sent : ℕ) :
      Step expected s (.register info isLeader sent)
        { s with table := s.table.insert info.nodeID (info.item isLeader sent) }
        [.registered info sent]
  | expire (nodeID : String) :
      Step expected s (.expire nodeID) { s with table := s.table.erase nodeID } []
  | skip {ok : Bool} {found : AList fun _ : String => Info} {id : String} {todo : List String}
      (hm : s.main = .waiting found (id :: todo)) :
      Step expected s (.lookup ok) { s with main := .waiting found todo } []
  | found {ok : Bool} {found : AList fun _ : String => Info} {id : String} {todo : List String}
      {info : Info} (hm : s.main = .waiting found (id :: todo))
      (hl : Discovery.lookup s.table id s.now ok = .ok info) :
      Step expected s (.lookup ok) { s with main := .waiting (found.insert id info) todo }
        [.found info s.now]
  | returned {done : Bool} {found : AList fun _ : String => Info}
      (hm : s.main = .waiting found []) (hlen : found.keys.length = expected.length) :
      Step expected s (.round done)
        { s with main := .dialing (expected.map fun id =>
          (found.lookup id).getD ⟨"", "", ""⟩) } []
  | again {done : Bool} {found : AList fun _ : String => Info}
      (hm : s.main = .waiting found []) :
      Step expected s (.round done) { s with main := .waiting found expected } []
  | exit {ev : Event} : Step expected s ev { s with main := .exited } []
  | dial {ok : Bool} {info : Info} {resolved : List Info}
      (hm : s.main = .dialing (info :: resolved)) :
      Step expected s (.dial ok)
        { s with
          main := .dialing resolved
          peers := s.peers ++ [⟨info.nodeID, info.grpcAddr, "http://" ++ info.httpAddr,
            s.dialed.length, s.dialed.length, 0⟩]
          dialed := s.dialed ++ [info.grpcAddr] } []
  | run {ok : Bool} (hm : s.main = .dialing []) :
      Step expected s (.dial ok) { s with main := .running } []
  | reresolve {i : ℕ} (hi : i < s.peers.length) :
      Step expected s (.reresolve i) { s with calls := s.calls ++ [(i, .started)] } []
  | resolve {k i : ℕ} {ok : Bool} {p p' : GRPCPeer} {stage stage' : Reresolve}
      {addrs : List String} {closed : List ℕ} {out : List Output}
      (hk : s.calls[k]? = some (i, stage)) (hp : s.peers[i]? = some p)
      (hr : s.Resolves i p stage p' stage' addrs closed out) :
      Step expected s (.resolve k ok)
        { s with
          peers := s.peers.set i p'
          calls := s.calls.set k (i, stage')
          dialed := s.dialed ++ addrs
          closed := s.closed ++ closed } out

theorem resolves_resolve (s : Coordinator) (i : ℕ) (p : GRPCPeer) (ok : Bool)
    (stage : Reresolve) :
    s.Resolves i p stage (p.resolve s.table s.now s.dialed.length ok stage).1
      (p.resolve s.table s.now s.dialed.length ok stage).2.1
      (p.resolve s.table s.now s.dialed.length ok stage).2.2.toList stage.closes
      (p.reports i s.now stage (p.resolve s.table s.now s.dialed.length ok stage).2.1) := by
  cases stage with
  | started => exact .clock
  | clocked now =>
    simp only [GRPCPeer.resolve]
    split_ifs with hnow
    · exact .leave nofun
    · exact .load (Int.not_lt.1 hnow)
  | loaded now last =>
    simp only [GRPCPeer.resolve]
    split_ifs with hlast
    · subst hlast
      exact .swap
    · exact .leave nofun
  | swapped =>
    simp only [GRPCPeer.resolve]
    split
    next => exact .leave nofun
    next info hl =>
      split_ifs
      · exact .leave nofun
      · exact .found hl
  | resolved newGRPC newHTTP =>
    simp only [GRPCPeer.resolve]
    split_ifs
    · exact .leave nofun
    · exact .dial
    · exact .dial
    · exact .leave nofun
  | closing oldConn => exact .close
  | left => exact .leave nofun

theorem step_inv {expected : List String} {s s' : Coordinator} {ev : Event} {out : List Output}
    (h : s.step expected ev = some (s', out)) : Step expected s ev s' out := by
  cases ev with
  | tick now =>
    cases h
    exact .tick now
  | register info isLeader sent =>
    cases h
    exact .register info isLeader sent
  | expire nodeID =>
    cases h
    exact .expire nodeID
  | lookup ok =>
    simp only [step] at h
    split at h
    next found id todo hm =>
      split_ifs at h
      · cases h
        exact .skip hm
      · split at h <;> cases h
        next info hl => exact .found hm hl
        next => exact .skip hm
    next => cases h
  | round done =>
    simp only [step] at h
    split at h
    next found hm =>
      split_ifs at h with hlen
      · cases h
        exact .returned hm hlen
      · cases h
        exact .exit
      · cases h
        exact .again hm
    next => cases h
  | dial ok =>
    simp only [step] at h
    split at h
    next info resolved hm =>
      split_ifs at h
      · cases h
        exact .dial hm
      · cases h
        exact .exit
    next hm =>
      cases h
      exact .run hm
    next => cases h
  | reresolve i =>
    simp only [step] at h
    split_ifs at h with hi
    cases h
    exact .reresolve hi
  | resolve k ok =>
    simp only [step] at h
    split at h
    next i stage hk =>
      split at h <;> cases h
      next p hp => exact .resolve hk hp (s.resolves_resolve i p ok stage)
    next => cases h

end Coordinator

end Driftless.Discovery
