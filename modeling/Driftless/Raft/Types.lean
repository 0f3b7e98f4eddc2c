import Mathlib.Data.List.AList

/-!
# The data of a Raft node

The types of `raft/node.go` and `raft/snapshot.go`. Go's `[]byte` is a list of bytes, and a
`Command`, which the apply loop compares with `nil`, an optional one. A Go map is an association
list without repeated keys, read with the zero value where a key is absent, and a channel of
capacity one that only carries a signal is a flag. Logging, contexts and the wall-clock stamp
`TakenAt`, which no code reads, are left out.
-/

namespace Driftless.Raft

/-- Go's `[]byte`. -/
abbrev Bytes := List UInt8

/-- A Go map from peer ids to integers. -/
abbrev PeerMap := AList (fun _ : String => ℕ)

/-- The role of a node. -/
inductive NodeState
  | follower
  | candidate
  | leader
  deriving DecidableEq, Repr

/-- One entry of the replicated log. -/
structure LogEntry where
  term : ℕ
  index : ℕ
  command : Option Bytes
  deriving DecidableEq, Repr, Inhabited

structure RequestVoteArgs where
  term : ℕ
  candidateID : String
  lastLogIndex : ℕ
  lastLogTerm : ℕ
  deriving DecidableEq, Repr

structure RequestVoteReply where
  term : ℕ
  voteGranted : Bool
  deriving DecidableEq, Repr

structure AppendEntriesArgs where
  term : ℕ
  leaderID : String
  prevLogIndex : ℕ
  prevLogTerm : ℕ
  entries : List LogEntry
  leaderCommit : ℕ
  deriving DecidableEq, Repr

structure AppendEntriesReply where
  term : ℕ
  success : Bool
  deriving DecidableEq, Repr

structure InstallSnapshotArgs where
  term : ℕ
  leaderID : String
  lastIncludedIndex : ℕ
  lastIncludedTerm : ℕ
  data : Bytes
  deriving DecidableEq, Repr

structure InstallSnapshotReply where
  term : ℕ
  success : Bool
  deriving DecidableEq, Repr

/-- What a `Propose` channel delivers. -/
structure ProposeResult where
  committed : Bool
  index : ℕ
  term : ℕ
  deriving DecidableEq, Repr

/-- What `TakeSnapshot` persists. -/
structure RaftSnapshot where
  lastIncludedIndex : ℕ
  lastIncludedTerm : ℕ
  currentTerm : ℕ
  votedFor : String
  data : Bytes
  deriving DecidableEq, Repr

/-- What the code asks of the installed state machine: whether it is `nil`, and whether it
implements `SnapshotableStateMachine`. -/
inductive StateMachineKind
  | absent
  | plain
  | snapshotable
  deriving DecidableEq, Repr

/-- The fields of `Node` behind its mutex, with the peers' ids for the peers. -/
structure Node where
  id : String
  peer : List String
  currentTerm : ℕ
  /-- `""` means no vote cast this term. -/
  votedFor : String
  logEntries : List LogEntry
  state : NodeState
  commitIndex : ℕ
  lastApplied : ℕ
  nextIndex : PeerMap
  matchIndex : PeerMap
  replicateSig : AList (fun _ : String => Bool)
  sm : StateMachineKind
  applyCh : Bool
  /-- Log index to the channel of the `Propose` call waiting for it. -/
  commitWaits : AList (fun _ : ℕ => ℕ)
  lastSnapshot : Option RaftSnapshot
  resetElectionTimer : Bool
  stepDownCh : Bool

/-- The value of a Go map at a key, zero where it is absent. -/
def PeerMap.get (m : PeerMap) (id : String) : ℕ := (m.lookup id).getD 0

@[simp] theorem PeerMap.get_insert_self (m : PeerMap) (id : String) (v : ℕ) :
    PeerMap.get (m.insert id v) id = v := by
  simp [PeerMap.get]

@[simp] theorem PeerMap.get_insert_ne (m : PeerMap) {id id' : String} (v : ℕ) (h : id' ≠ id) :
    PeerMap.get (m.insert id v) id' = m.get id' := by
  simp [PeerMap.get, AList.lookup_insert_ne h]

/-- A bound on the values of a map, after one of them was set or not. -/
theorem PeerMap.get_ite_insert_le (m : PeerMap) (bound : String → ℕ) {id id' : String} {v : ℕ}
    {c : Prop} [Decidable c] (hv : v ≤ bound id) (hm : m.get id' ≤ bound id') :
    PeerMap.get (if c then m.insert id v else m) id' ≤ bound id' := by
  split_ifs
  · by_cases h : id' = id
    · subst h
      rwa [get_insert_self]
    · rwa [get_insert_ne m v h]
  · exact hm

@[simp] theorem PeerMap.get_empty (id : String) : PeerMap.get ∅ id = 0 := by
  simp [PeerMap.get]

theorem lookup_foldl_erase {β : Type} (ws : List (Sigma fun _ : ℕ => β))
    (m : AList fun _ : ℕ => β) (i : ℕ) :
    (ws.foldl (fun m w => m.erase w.1) m).lookup i =
      if i ∈ ws.map Sigma.fst then none else m.lookup i := by
  induction ws generalizing m with
  | nil => simp
  | cons w ws ih =>
    rw [List.foldl_cons, ih]
    by_cases hi : i = w.1
    · subst hi
      simp
    · simp only [List.map_cons, List.mem_cons, hi, false_or, AList.lookup_erase_ne hi]

/-- A map with the same value for each peer, as `initLeaderState` fills its maps. -/
def fillPeers {β : Type} (peers : List String) (v : β) : AList (fun _ : String => β) :=
  peers.foldl (fun m p => m.insert p v) ∅

theorem PeerMap.get_fillPeers_le (peers : List String) (v : ℕ) (id : String) :
    PeerMap.get (fillPeers peers v) id ≤ v := by
  suffices h : ∀ m : PeerMap, m.get id ≤ v →
      PeerMap.get (peers.foldl (fun m p => m.insert p v) m) id ≤ v from
    h ∅ (by rw [PeerMap.get_empty]; exact Nat.zero_le v)
  induction peers with
  | nil => exact fun _ hm => hm
  | cons p peers ih =>
    intro m hm
    refine ih (m.insert p v) ?_
    by_cases h : id = p
    · subst h
      rw [get_insert_self]
    · rwa [get_insert_ne m v h]

/-- `majority` of a cluster of this node and its peers. -/
def Node.majority (n : Node) : ℕ := (n.peer.length + 1) / 2 + 1

end Driftless.Raft
