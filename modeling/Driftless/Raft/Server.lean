import Driftless.Raft.Node
import Driftless.Transition

/-!
# A running node

A `Server` is a node together with the locals of its goroutines: where `Run` is in its role loop,
the RPCs its replicators wait for, where the apply loop is, the `TakeSnapshot` in progress, the
`HandleInstallSnapshot` calls that have released the lock and not yet restored the state machine,
and the snapshot in durable storage. Each lock section, and each action between two of them that
another goroutine can observe, is one `Event`; `Server.step` says when it can happen and what it
does. An event carries what the environment decides: the arguments of a request, the reply to an
RPC, whether a call outside the node failed.
-/

namespace Driftless.Raft

/-! ## Goroutines -/

/-- The locals of a `runCandidate` call. -/
structure Election where
  args : RequestVoteArgs
  votes : ℕ
  majority : ℕ
  /-- The peers whose goroutine still waits for its reply. -/
  waiting : List String
  wonElection : Bool
  steppedDown : Bool
  deriving DecidableEq, Repr

/-- Where `Run` is. -/
inductive RunLoop
  /-- About to read the role. -/
  | dispatch
  /-- In the select of `runFollower`. -/
  | follower
  /-- In `runCandidate`, before its first lock section. -/
  | candidate
  /-- In the select of `runCandidate`. -/
  | election (e : Election)
  /-- In the `wg.Wait` of `runCandidate`. -/
  | electionOver (e : Election)
  /-- In `runLeader`, before the stale step-down signal is drained. -/
  | leader
  /-- In the select of `runLeader`. -/
  | leading
  /-- After the select of `runLeader`, in its `wg.Wait`. -/
  | leaderOver
  deriving DecidableEq, Repr

/-- An RPC a replicator waits for. -/
inductive Call
  | append (args : AppendEntriesArgs)
  | install (args : InstallSnapshotArgs)
  deriving DecidableEq, Repr

/-- Where a replicator is: at its select, between `sendAppend` and the section of
`sendInstallSnapshot`, or waiting for an RPC. -/
inductive Replicator
  | idle
  | shipping
  | waiting (call : Call)
  deriving DecidableEq, Repr

/-- Where the apply loop is. -/
inductive ApplyLoop
  /-- Waiting for `applyCh`. -/
  | idle
  /-- At the top of the inner loop. -/
  | next
  /-- Between reading the entry for index `next` and calling `Apply`. -/
  | read (next : ℕ) (entry : LogEntry) (waiter : Option ℕ)
  /-- Between the return of `Apply` and the write of `lastApplied`. -/
  | applied (next : ℕ) (entry : LogEntry) (waiter : Option ℕ)
  /-- After the write of `lastApplied`, before the waiter is notified. -/
  | written (entry : LogEntry) (waiter : Option ℕ)
  deriving DecidableEq, Repr

/-- Where `TakeSnapshot` is. -/
inductive SnapshotLoop
  | idle
  /-- After the first section. -/
  | begun (rs : RaftSnapshot)
  /-- The state machine is serialized. -/
  | serialized (rs : RaftSnapshot)
  /-- The snapshot is saved. -/
  | saved (rs : RaftSnapshot)
  deriving DecidableEq, Repr

/-- The index the apply loop has read and not yet written to `lastApplied`. -/
def ApplyLoop.inFlight : ApplyLoop → Option ℕ
  | .read idx _ _ => some idx
  | .applied idx _ _ => some idx
  | _ => none

/-- The snapshot `TakeSnapshot` is at work on. -/
def SnapshotLoop.taking : SnapshotLoop → Option RaftSnapshot
  | .idle => none
  | .begun rs => some rs
  | .serialized rs => some rs
  | .saved rs => some rs

/-- A node, its goroutines and its durable storage. -/
structure Server where
  node : Node
  run : RunLoop
  replicators : String → Replicator
  apply : ApplyLoop
  snapshot : SnapshotLoop
  /-- Calls of `HandleInstallSnapshot` about to restore the state machine, with their reply. -/
  installs : List (InstallSnapshotArgs × InstallSnapshotReply)
  /-- The number of `Propose` channels made. -/
  chans : ℕ
  /-- What `Load` returns. -/
  store : Option RaftSnapshot

/-- What a step hands to the outside. -/
inductive Output
  /-- `RequestVote` RPCs to every peer, after the vote for itself. -/
  | requestVote (args : RequestVoteArgs)
  | requestVoteReply (args : RequestVoteArgs) (reply : RequestVoteReply)
  | appendEntries (dst : String) (args : AppendEntriesArgs)
  | appendEntriesReply (args : AppendEntriesArgs) (reply : AppendEntriesReply)
  | installSnapshot (dst : String) (args : InstallSnapshotArgs)
  | installSnapshotReply (args : InstallSnapshotArgs) (reply : InstallSnapshotReply)
  /-- `Propose` returned the channel `ch` for this entry. -/
  | proposed (ch : ℕ) (entry : LogEntry)
  /-- The channel `ch` delivers a result. -/
  | result (ch : ℕ) (res : ProposeResult)
  /-- `sm.Apply(entry)`. -/
  | apply (entry : LogEntry)
  /-- `sm.Restore(data)`, returning without an error or with one. -/
  | restore (data : Bytes) (ok : Bool)
  deriving DecidableEq, Repr

/-- The steps of a server. -/
inductive Event
  -- the role loop
  | dispatch
  | resetTimer
  | followerTimeout
  | startElection
  | voteReply (peer : String) (reply : RequestVoteReply)
  | voteError (peer : String)
  | wonElection
  | steppedDown
  | electionTimeout
  | electionDone
  | drainStepDown
  | leaderStepDown
  | abortPendingProposals
  -- the replicators
  | sendAppend (peer : String)
  | appendReply (peer : String) (args : AppendEntriesArgs) (reply : AppendEntriesReply)
  | sendInstallSnapshot (peer : String)
  | installReply (peer : String) (args : InstallSnapshotArgs) (reply : InstallSnapshotReply)
  | rpcError (peer : String)
  -- the RPC handlers
  | handleRequestVote (args : RequestVoteArgs)
  | handleAppendEntries (args : AppendEntriesArgs)
  | handleInstallSnapshot (args : InstallSnapshotArgs)
  | finishInstall (k : ℕ) (ok : Bool)
  -- clients
  | propose (cmd : Option Bytes)
  -- the apply loop
  | applyWake
  | applyRead
  | applyCall
  | applyWrite
  | applyNotify
  -- `TakeSnapshot`
  | beginSnapshot
  | serialize (data : Option Bytes)
  | saveSnapshot (ok : Bool)
  | finishSnapshot
  -- a crash, and a new process after it
  | restart
  deriving DecidableEq, Repr

/-- How a node of three becomes leader of the term after the current one, `T`, with the vote of
one peer. -/
def electedIn (T : ℕ) (p q : String) : List Event :=
  [.dispatch, .followerTimeout, .dispatch, .startElection, .voteReply p ⟨T, true⟩, .wonElection,
    .voteError q, .electionDone, .dispatch, .drainStepDown]

/-! ## Steps -/

/-- The process `main` starts: `NewNode`, `SetStateMachine` and `RestoreSnapshot`. -/
def Server.boot (id : String) (peers : List String) (sm : StateMachineKind)
    (store : Option RaftSnapshot) : Server where
  node := match store with
    | none => (newNode id peers).setStateMachine sm
    | some s => ((newNode id peers).setStateMachine sm).restoreSnapshot s
  run := .dispatch
  replicators := fun _ => .idle
  apply := .idle
  snapshot := .idle
  installs := []
  chans := 0
  store := store

/-- The election that a candidate's first section starts. A cluster of one is won by the
self-vote. -/
def Node.newElection (n : Node) (args : RequestVoteArgs) : Election :=
  ⟨args, 1, n.majority, n.peer, decide (1 ≥ n.majority), false⟩

/-- The section of a vote goroutine. -/
def handleVoteReply (n : Node) (e : Election) (reply : RequestVoteReply) : Node × Election :=
  if reply.term > n.currentTerm then (n.adoptTerm reply.term, { e with steppedDown := true })
  else if reply.voteGranted then
    (n, { e with votes := e.votes + 1,
                 wonElection := e.wonElection || decide (e.votes + 1 ≥ e.majority) })
  else (n, e)

/-- The election `runCandidate` is in, as long as its vote goroutines run. -/
def RunLoop.current : RunLoop → Option Election
  | .election e => some e
  | .electionOver e => some e
  | _ => none

def RunLoop.setElection (r : RunLoop) (e : Election) : RunLoop :=
  match r with
  | .election _ => .election e
  | .electionOver _ => .electionOver e
  | r => r

/-- `runLeader` has its replicators running. -/
def RunLoop.replicating : RunLoop → Bool
  | .leading => true
  | .leaderOver => true
  | _ => false

namespace Server

/-- The first section of a round of the apply loop. -/
def applyRead (s : Server) : Server :=
  let next := s.node.lastApplied + 1
  if next > s.node.commitIndex then { s with apply := .idle }
  else match entryAt s.node.logEntries next with
    | none =>
      let first := firstIndex s.node.logEntries
      { s with
        apply := .idle
        node := if next ≤ first then { s.node with lastApplied := first } else s.node }
    | some entry =>
      { s with
        apply := .read next entry (s.node.commitWaits.lookup next)
        node := { s.node with commitWaits := s.node.commitWaits.erase next } }

/-- A step of the role loop. -/
def stepRun (s : Server) : Event → Option (Server × List Output)
  | .dispatch =>
    if s.run = .dispatch then
      some ({ s with run := match s.node.state with
        | .follower => .follower
        | .candidate => .candidate
        | .leader => .leader }, [])
    else none
  | .resetTimer =>
    if s.run = .follower ∧ s.node.resetElectionTimer = true then
      some ({ s with node := { s.node with resetElectionTimer := false } }, [])
    else none
  | .followerTimeout =>
    if s.run = .follower then
      some ({ s with node := s.node.followerTimeout, run := .dispatch }, [])
    else none
  | .startElection =>
    if s.run = .candidate then
      some ({ s with node := s.node.startElection.1,
                     run := .election (s.node.newElection s.node.startElection.2) },
        [.requestVote s.node.startElection.2])
    else none
  | .voteReply p reply =>
    match s.run.current with
    | some e =>
      if p ∈ e.waiting then
        let r := handleVoteReply s.node { e with waiting := e.waiting.erase p } reply
        some ({ s with node := r.1, run := s.run.setElection r.2 }, [])
      else none
    | none => none
  | .voteError p =>
    match s.run.current with
    | some e =>
      some ({ s with run := s.run.setElection { e with waiting := e.waiting.erase p } }, [])
    | none => none
  | .wonElection =>
    match s.run with
    | .election e =>
      if e.wonElection then
        some ({ s with node := s.node.becomeLeader, run := .electionOver e }, [])
      else none
    | _ => none
  | .steppedDown =>
    match s.run with
    | .election e => if e.steppedDown then some ({ s with run := .electionOver e }, []) else none
    | _ => none
  | .electionTimeout =>
    match s.run with
    | .election e => some ({ s with run := .electionOver e }, [])
    | _ => none
  | .electionDone =>
    match s.run with
    | .electionOver e => if e.waiting = [] then some ({ s with run := .dispatch }, []) else none
    | _ => none
  | .drainStepDown =>
    if s.run = .leader then
      some ({ s with node := { s.node with stepDownCh := false }, run := .leading }, [])
    else none
  | .leaderStepDown =>
    if s.run = .leading ∧ s.node.stepDownCh = true then
      some ({ s with node := { s.node with stepDownCh := false, state := .follower },
                     run := .leaderOver }, [])
    else none
  | .abortPendingProposals =>
    if s.run = .leaderOver ∧ ∀ p ∈ s.node.peer, s.replicators p = .idle then
      some ({ s with node := s.node.abortPendingProposals.1, run := .dispatch },
        s.node.abortPendingProposals.2.map fun r => .result r.1 r.2)
    else none
  | _ => none

/-- A step of a replicator. -/
def stepReplicator (s : Server) : Event → Option (Server × List Output)
  | .sendAppend p =>
    if s.run.replicating = true ∧ p ∈ s.node.peer ∧ (s.node.replicateSig.lookup p).isSome = true ∧
        s.replicators p = .idle then
      match s.node.sendAppend p with
      | (n, .none) => some ({ s with node := n }, [])
      | (n, .snapshot) =>
        some ({ s with node := n, replicators := Function.update s.replicators p .shipping }, [])
      | (n, .append args) =>
        some ({ s with node := n,
                       replicators := Function.update s.replicators p (.waiting (.append args)) },
          [.appendEntries p args])
    else none
  | .appendReply p args reply =>
    if s.replicators p = .waiting (.append args) then
      some ({ s with node := s.node.handleAppendReply p args reply,
                     replicators := Function.update s.replicators p .idle }, [])
    else none
  | .sendInstallSnapshot p =>
    if s.replicators p = .shipping then
      match s.node.sendInstallSnapshot with
      | none => some ({ s with replicators := Function.update s.replicators p .idle }, [])
      | some args =>
        some ({ s with replicators := Function.update s.replicators p (.waiting (.install args)) },
          [.installSnapshot p args])
    else none
  | .installReply p args reply =>
    if s.replicators p = .waiting (.install args) then
      some ({ s with node := s.node.handleInstallReply p args reply,
                     replicators := Function.update s.replicators p .idle }, [])
    else none
  | .rpcError p =>
    match s.replicators p with
    | .waiting _ => some ({ s with replicators := Function.update s.replicators p .idle }, [])
    | _ => none
  | _ => none

/-- A step of an RPC handler, or of a client. -/
def stepHandler (s : Server) : Event → Option (Server × List Output)
  | .handleRequestVote args =>
    some ({ s with node := (s.node.handleRequestVote args).1 },
      [.requestVoteReply args (s.node.handleRequestVote args).2])
  | .handleAppendEntries args =>
    some ({ s with node := (s.node.handleAppendEntries args).1 },
      [.appendEntriesReply args (s.node.handleAppendEntries args).2])
  | .handleInstallSnapshot args =>
    match s.node.handleInstallSnapshot args with
    | (n, reply, false) => some ({ s with node := n }, [.installSnapshotReply args reply])
    | (n, reply, true) => some ({ s with node := n, installs := s.installs ++ [(args, reply)] }, [])
  | .finishInstall k ok =>
    match s.installs[k]? with
    | some (args, reply) =>
      -- without a snapshotable state machine or data there is nothing to restore, and no error
      if s.node.sm = .snapshotable ∧ args.data ≠ [] then
        some ({ s with installs := s.installs.eraseIdx k },
          [.restore args.data ok, .installSnapshotReply args { reply with success := ok }])
      else
        some ({ s with installs := s.installs.eraseIdx k },
          [.installSnapshotReply args { reply with success := true }])
    | none => none
  | .propose cmd =>
    match s.node.propose cmd s.chans with
    | some (n, entry) => some ({ s with node := n, chans := s.chans + 1 }, [.proposed s.chans entry])
    | none => none
  | _ => none

/-- A step of the apply loop. -/
def stepApply (s : Server) : Event → Option (Server × List Output)
  | .applyWake =>
    if s.apply = .idle ∧ s.node.applyCh = true then
      some ({ s with node := { s.node with applyCh := false }, apply := .next }, [])
    else none
  | .applyRead => if s.apply = .next then some (s.applyRead, []) else none
  | .applyCall =>
    match s.apply with
    | .read next entry waiter =>
      some ({ s with apply := .applied next entry waiter },
        if s.node.sm ≠ .absent ∧ entry.command.isSome then [.apply entry] else [])
    | _ => none
  | .applyWrite =>
    match s.apply with
    | .applied next entry waiter =>
      some ({ s with node := { s.node with lastApplied := next }, apply := .written entry waiter },
        [])
    | _ => none
  | .applyNotify =>
    match s.apply with
    | .written entry waiter =>
      some ({ s with apply := .next },
        (waiter.map fun ch => Output.result ch ⟨true, entry.index, entry.term⟩).toList)
    | _ => none
  | _ => none

/-- A step of `TakeSnapshot`. -/
def stepSnapshot (s : Server) : Event → Option (Server × List Output)
  | .beginSnapshot =>
    if s.snapshot = .idle then
      match s.node.beginSnapshot with
      | some rs => some ({ s with snapshot := .begun rs }, [])
      | none => none
    else none
  | .serialize data =>
    match s.snapshot with
    | .begun rs => some ({ s with snapshot := match data with
        | some d => .serialized { rs with data := d }
        | none => .idle }, [])
    | _ => none
  | .saveSnapshot ok =>
    match s.snapshot with
    | .serialized rs =>
      if ok then some ({ s with store := some rs, snapshot := .saved rs }, [])
      else some ({ s with snapshot := .idle }, [])
    | _ => none
  | .finishSnapshot =>
    match s.snapshot with
    | .saved rs => some ({ s with node := s.node.finishSnapshot rs, snapshot := .idle }, [])
    | _ => none
  | _ => none

/-- A step of a server. -/
def step (s : Server) (ev : Event) : Option (Server × List Output) :=
  match ev with
  | .restart => some (Server.boot s.node.id s.node.peer s.node.sm s.store, [])
  | .sendAppend _ | .appendReply _ _ _ | .sendInstallSnapshot _ | .installReply _ _ _
  | .rpcError _ => s.stepReplicator ev
  | .handleRequestVote _ | .handleAppendEntries _ | .handleInstallSnapshot _ | .finishInstall _ _
  | .propose _ => s.stepHandler ev
  | .applyWake | .applyRead | .applyCall | .applyWrite | .applyNotify => s.stepApply ev
  | .beginSnapshot | .serialize _ | .saveSnapshot _ | .finishSnapshot => s.stepSnapshot ev
  | _ => s.stepRun ev

/-! ## What a step can do -/

/-- The steps of a server, branch by branch: `Step s ev s' out` when `s.step ev` can only be
`(s', out)`. -/
inductive Step (s : Server) : Event → Server → List Output → Prop
  -- the role loop
  | dispatch (hr : s.run = .dispatch) (r : RunLoop)
      (h : (s.node.state = .follower ∧ r = .follower) ∨
        (s.node.state = .candidate ∧ r = .candidate) ∨ (s.node.state = .leader ∧ r = .leader)) :
      Step s .dispatch { s with run := r } []
  | resetTimer (hr : s.run = .follower) :
      Step s .resetTimer { s with node := { s.node with resetElectionTimer := false } } []
  | followerTimeout (hr : s.run = .follower) :
      Step s .followerTimeout { s with node := s.node.followerTimeout, run := .dispatch } []
  | startElection (hr : s.run = .candidate) :
      Step s .startElection { s with
        node := s.node.startElection.1
        run := .election (s.node.newElection s.node.startElection.2) }
        [.requestVote s.node.startElection.2]
  | voteHigherTerm (p : String) (reply : RequestVoteReply) (e : Election)
      (hr : s.run.current = some e) (hp : p ∈ e.waiting) (ht : reply.term > s.node.currentTerm) :
      Step s (.voteReply p reply) { s with
        node := s.node.adoptTerm reply.term
        run := s.run.setElection
          { e with waiting := e.waiting.erase p, steppedDown := true } } []
  | voteCounted (p : String) (reply : RequestVoteReply) (e : Election)
      (hr : s.run.current = some e) (hp : p ∈ e.waiting) (ht : reply.term ≤ s.node.currentTerm)
      (hg : reply.voteGranted = true) :
      Step s (.voteReply p reply) { s with
        run := s.run.setElection
          { e with
            waiting := e.waiting.erase p
            votes := e.votes + 1
            wonElection := e.wonElection || decide (e.votes + 1 ≥ e.majority) } } []
  | voteDenied (p : String) (reply : RequestVoteReply) (e : Election)
      (hr : s.run.current = some e) (hp : p ∈ e.waiting) (ht : reply.term ≤ s.node.currentTerm)
      (hg : reply.voteGranted = false) :
      Step s (.voteReply p reply)
        { s with run := s.run.setElection { e with waiting := e.waiting.erase p } } []
  | voteError (p : String) (e : Election) (hr : s.run.current = some e) :
      Step s (.voteError p)
        { s with run := s.run.setElection { e with waiting := e.waiting.erase p } } []
  | wonElection (e : Election) (hr : s.run = .election e) (hw : e.wonElection = true) :
      Step s .wonElection { s with node := s.node.becomeLeader, run := .electionOver e } []
  | steppedDown (e : Election) (hr : s.run = .election e) :
      Step s .steppedDown { s with run := .electionOver e } []
  | electionTimeout (e : Election) (hr : s.run = .election e) :
      Step s .electionTimeout { s with run := .electionOver e } []
  | electionDone (e : Election) (hr : s.run = .electionOver e) (hw : e.waiting = []) :
      Step s .electionDone { s with run := .dispatch } []
  | drainStepDown (hr : s.run = .leader) :
      Step s .drainStepDown
        { s with node := { s.node with stepDownCh := false }, run := .leading } []
  | leaderStepDown (hr : s.run = .leading) (hd : s.node.stepDownCh = true) :
      Step s .leaderStepDown
        { s with node := { s.node with stepDownCh := false, state := .follower },
                 run := .leaderOver } []
  | abortPendingProposals (hr : s.run = .leaderOver)
      (hp : ∀ p ∈ s.node.peer, s.replicators p = .idle) :
      Step s .abortPendingProposals
        { s with node := s.node.abortPendingProposals.1, run := .dispatch }
        (s.node.abortPendingProposals.2.map fun r => .result r.1 r.2)
  -- the replicators
  | sendNothing (p : String) : Step s (.sendAppend p) s []
  | sendShip (p : String) (hr : s.run.replicating = true) (hi : s.replicators p = .idle)
      (hp : p ∈ s.node.peer)
      (hl : s.node.state = .leader)
      (hn : s.node.nextIndex.get p ≤ firstIndex s.node.logEntries) :
      Step s (.sendAppend p)
        { s with replicators := Function.update s.replicators p .shipping } []
  | sendAppend (p : String) (n : Node) (args : AppendEntriesArgs)
      (hr : s.run.replicating = true) (hi : s.replicators p = .idle) (hp : p ∈ s.node.peer)
      (hl : s.node.state = .leader) (hs : s.node.sendAppend p = (n, .append args)) :
      Step s (.sendAppend p)
        { s with node := n,
                 replicators := Function.update s.replicators p (.waiting (.append args)) }
        [.appendEntries p args]
  | appendReply (p : String) (args : AppendEntriesArgs) (reply : AppendEntriesReply)
      (hw : s.replicators p = .waiting (.append args)) :
      Step s (.appendReply p args reply)
        { s with node := s.node.handleAppendReply p args reply,
                 replicators := Function.update s.replicators p .idle } []
  | shipNothing (p : String) (hi : s.replicators p = .shipping) :
      Step s (.sendInstallSnapshot p)
        { s with replicators := Function.update s.replicators p .idle } []
  | sendInstallSnapshot (p : String) (args : InstallSnapshotArgs)
      (hi : s.replicators p = .shipping) (hs : s.node.sendInstallSnapshot = some args) :
      Step s (.sendInstallSnapshot p)
        { s with replicators := Function.update s.replicators p (.waiting (.install args)) }
        [.installSnapshot p args]
  | installReply (p : String) (args : InstallSnapshotArgs) (reply : InstallSnapshotReply)
      (hw : s.replicators p = .waiting (.install args)) :
      Step s (.installReply p args reply)
        { s with node := s.node.handleInstallReply p args reply,
                 replicators := Function.update s.replicators p .idle } []
  | rpcError (p : String) :
      Step s (.rpcError p) { s with replicators := Function.update s.replicators p .idle } []
  -- the RPC handlers and clients
  | handleRequestVote (args : RequestVoteArgs) :
      Step s (.handleRequestVote args) { s with node := (s.node.handleRequestVote args).1 }
        [.requestVoteReply args (s.node.handleRequestVote args).2]
  | handleAppendEntries (args : AppendEntriesArgs) :
      Step s (.handleAppendEntries args) { s with node := (s.node.handleAppendEntries args).1 }
        [.appendEntriesReply args (s.node.handleAppendEntries args).2]
  | installStale (args : InstallSnapshotArgs) (ht : args.term < s.node.currentTerm) :
      Step s (.handleInstallSnapshot args) s
        [.installSnapshotReply args ⟨s.node.currentTerm, false⟩]
  | installOld (args : InstallSnapshotArgs) (ht : s.node.currentTerm ≤ args.term)
      (ho : ¬ Node.Newer s.node.logEntries args) :
      Step s (.handleInstallSnapshot args) { s with node := s.node.recognizeLeader args.term }
        [.installSnapshotReply args ⟨args.term, true⟩]
  | install (args : InstallSnapshotArgs) (ht : s.node.currentTerm ≤ args.term)
      (ho : Node.Newer s.node.logEntries args) :
      Step s (.handleInstallSnapshot args)
        { s with node := s.node.installed args
                 installs := s.installs ++ [(args, ⟨args.term, false⟩)] } []
  | finishInstall (k : ℕ) (ok : Bool) (args : InstallSnapshotArgs) (reply : InstallSnapshotReply)
      (hk : s.installs[k]? = some (args, reply)) (hd : s.node.sm = .snapshotable ∧ args.data ≠ []) :
      Step s (.finishInstall k ok) { s with installs := s.installs.eraseIdx k }
        [.restore args.data ok, .installSnapshotReply args { reply with success := ok }]
  | finishEmptyInstall (k : ℕ) (ok : Bool) (args : InstallSnapshotArgs)
      (reply : InstallSnapshotReply) (hk : s.installs[k]? = some (args, reply))
      (hd : ¬ (s.node.sm = .snapshotable ∧ args.data ≠ [])) :
      Step s (.finishInstall k ok) { s with installs := s.installs.eraseIdx k }
        [.installSnapshotReply args { reply with success := true }]
  | propose (cmd : Option Bytes) (n : Node) (entry : LogEntry)
      (hp : s.node.propose cmd s.chans = some (n, entry)) :
      Step s (.propose cmd) { s with node := n, chans := s.chans + 1 } [.proposed s.chans entry]
  -- the apply loop
  | applyWake (ha : s.apply = .idle) :
      Step s .applyWake { s with node := { s.node with applyCh := false }, apply := .next } []
  | applyIdle (ha : s.apply = .next) : Step s .applyRead { s with apply := .idle } []
  | applySkip (ha : s.apply = .next)
      (hf : s.node.lastApplied + 1 ≤ firstIndex s.node.logEntries)
      (hc : s.node.lastApplied + 1 ≤ s.node.commitIndex)
      (hn : entryAt s.node.logEntries (s.node.lastApplied + 1) = none) :
      Step s .applyRead
        { s with node := { s.node with lastApplied := firstIndex s.node.logEntries },
                 apply := .idle } []
  | applyRead (entry : LogEntry) (ha : s.apply = .next)
      (hc : s.node.lastApplied + 1 ≤ s.node.commitIndex)
      (he : entryAt s.node.logEntries (s.node.lastApplied + 1) = some entry) :
      Step s .applyRead
        { s with
          node := { s.node with
            commitWaits := s.node.commitWaits.erase (s.node.lastApplied + 1) }
          apply := .read (s.node.lastApplied + 1) entry
            (s.node.commitWaits.lookup (s.node.lastApplied + 1)) } []
  | applyCall (next : ℕ) (entry : LogEntry) (waiter : Option ℕ)
      (ha : s.apply = .read next entry waiter) :
      Step s .applyCall { s with apply := .applied next entry waiter }
        (if s.node.sm ≠ .absent ∧ entry.command.isSome then [.apply entry] else [])
  | applyWrite (next : ℕ) (entry : LogEntry) (waiter : Option ℕ)
      (ha : s.apply = .applied next entry waiter) :
      Step s .applyWrite
        { s with node := { s.node with lastApplied := next }, apply := .written entry waiter } []
  | applyNotify (entry : LogEntry) (waiter : Option ℕ) (ha : s.apply = .written entry waiter) :
      Step s .applyNotify { s with apply := .next }
        (waiter.map fun ch => Output.result ch ⟨true, entry.index, entry.term⟩).toList
  -- `TakeSnapshot`
  | beginSnapshot (rs : RaftSnapshot) (hs : s.snapshot = .idle)
      (hb : s.node.beginSnapshot = some rs) :
      Step s .beginSnapshot { s with snapshot := .begun rs } []
  | serialize (rs : RaftSnapshot) (d : Bytes) (hs : s.snapshot = .begun rs) :
      Step s (.serialize (some d)) { s with snapshot := .serialized { rs with data := d } } []
  | serializeError (rs : RaftSnapshot) (hs : s.snapshot = .begun rs) :
      Step s (.serialize none) { s with snapshot := .idle } []
  | saveSnapshot (rs : RaftSnapshot) (hs : s.snapshot = .serialized rs) :
      Step s (.saveSnapshot true) { s with store := some rs, snapshot := .saved rs } []
  | saveError (rs : RaftSnapshot) (hs : s.snapshot = .serialized rs) :
      Step s (.saveSnapshot false) { s with snapshot := .idle } []
  | finishSnapshot (rs : RaftSnapshot) (hs : s.snapshot = .saved rs) :
      Step s .finishSnapshot { s with node := s.node.finishSnapshot rs, snapshot := .idle } []
  | restart : Step s .restart (Server.boot s.node.id s.node.peer s.node.sm s.store) []

variable {s s' : Server} {ev : Event} {out : List Output}

theorem Step.of_stepRun (h : s.stepRun ev = some (s', out)) : Step s ev s' out := by
  cases ev with
  | dispatch =>
    simp only [stepRun] at h
    split_ifs at h with hr
    cases h
    exact .dispatch hr _ (by cases s.node.state <;> simp)
  | resetTimer =>
    simp only [stepRun] at h
    split_ifs at h with hr
    cases h
    exact .resetTimer hr.1
  | followerTimeout =>
    simp only [stepRun] at h
    split_ifs at h with hr
    cases h
    exact .followerTimeout hr
  | startElection =>
    simp only [stepRun] at h
    split_ifs at h with hr
    cases h
    exact .startElection hr
  | voteReply p reply =>
    simp only [stepRun] at h
    split at h
    next e hr =>
      split_ifs at h with hp
      cases h
      unfold handleVoteReply
      split_ifs with ht hg
      · exact .voteHigherTerm p reply e hr hp ht
      · exact .voteCounted p reply e hr hp (by omega) hg
      · exact .voteDenied p reply e hr hp (by omega) (by simpa using hg)
    next => cases h
  | voteError p =>
    simp only [stepRun] at h
    split at h
    next e hr => cases h; exact .voteError p e hr
    next => cases h
  | wonElection =>
    simp only [stepRun] at h
    split at h
    next e hr =>
      split_ifs at h with hw
      cases h
      exact .wonElection e hr hw
    next => cases h
  | steppedDown =>
    simp only [stepRun] at h
    split at h
    next e hr =>
      split_ifs at h
      cases h
      exact .steppedDown e hr
    next => cases h
  | electionTimeout =>
    simp only [stepRun] at h
    split at h
    next e hr => cases h; exact .electionTimeout e hr
    next => cases h
  | electionDone =>
    simp only [stepRun] at h
    split at h
    next e hr =>
      split_ifs at h with hw
      cases h
      exact .electionDone e hr hw
    next => cases h
  | drainStepDown =>
    simp only [stepRun] at h
    split_ifs at h with hr
    cases h
    exact .drainStepDown hr
  | leaderStepDown =>
    simp only [stepRun] at h
    split_ifs at h with hr
    cases h
    exact .leaderStepDown hr.1 hr.2
  | abortPendingProposals =>
    simp only [stepRun] at h
    split_ifs at h with hr
    cases h
    exact .abortPendingProposals hr.1 hr.2
  | _ => cases h

theorem Step.of_stepReplicator (h : s.stepReplicator ev = some (s', out)) : Step s ev s' out := by
  cases ev with
  | sendAppend p =>
    simp only [stepReplicator] at h
    split_ifs at h with hr
    obtain ⟨hr, hp, -, hi⟩ := hr
    have hs : s.node.sendAppend p = s.node.sendAppend p := rfl
    conv at hs => rhs; unfold Node.sendAppend
    split_ifs at hs with h₁ h₂
    · rw [hs] at h
      cases h
      exact .sendNothing p
    · rw [hs] at h
      cases h
      exact .sendShip p hr hi hp (not_not.1 h₁) h₂.1
    · rw [hs] at h
      cases h
      exact .sendAppend p _ _ hr hi hp (not_not.1 h₁) hs
  | appendReply p args reply =>
    simp only [stepReplicator] at h
    split_ifs at h with hr
    cases h
    exact .appendReply p args reply hr
  | sendInstallSnapshot p =>
    simp only [stepReplicator] at h
    split_ifs at h with hr
    split at h
    next => cases h; exact .shipNothing p hr
    next args hs => cases h; exact .sendInstallSnapshot p args hr hs
  | installReply p args reply =>
    simp only [stepReplicator] at h
    split_ifs at h with hr
    cases h
    exact .installReply p args reply hr
  | rpcError p =>
    simp only [stepReplicator] at h
    split at h <;> cases h
    exact .rpcError p
  | _ => cases h

theorem Step.of_stepHandler (h : s.stepHandler ev = some (s', out)) : Step s ev s' out := by
  cases ev with
  | handleRequestVote args => cases h; exact .handleRequestVote args
  | handleAppendEntries args => cases h; exact .handleAppendEntries args
  | handleInstallSnapshot args =>
    simp only [stepHandler] at h
    rcases s.node.handleInstallSnapshot_cases args with ⟨ht, he⟩ | ⟨ht, ho, he⟩ | ⟨ht, ho, he⟩
    · rw [he] at h
      cases h
      exact .installStale args ht
    · rw [he] at h
      cases h
      exact .installOld args ht ho
    · rw [he] at h
      cases h
      exact .install args ht ho
  | finishInstall k ok =>
    simp only [stepHandler] at h
    split at h
    next args reply hk =>
      split_ifs at h with hd
      · cases h
        exact .finishInstall k ok args reply hk hd
      · cases h
        exact .finishEmptyInstall k ok args reply hk hd
    next => cases h
  | propose cmd =>
    simp only [stepHandler] at h
    split at h
    next n entry hp => cases h; exact .propose cmd n entry hp
    next => cases h
  | _ => cases h

theorem Step.of_stepApply (h : s.stepApply ev = some (s', out)) : Step s ev s' out := by
  cases ev with
  | applyWake =>
    simp only [stepApply] at h
    split_ifs at h with ha
    cases h
    exact .applyWake ha.1
  | applyRead =>
    simp only [stepApply] at h
    split_ifs at h with ha
    cases h
    by_cases hc : s.node.lastApplied + 1 > s.node.commitIndex
    · simp only [Server.applyRead, if_pos hc]
      exact .applyIdle ha
    · simp only [Server.applyRead, if_neg hc]
      split
      next hn =>
        by_cases hf : s.node.lastApplied + 1 ≤ firstIndex s.node.logEntries
        · rw [if_pos hf]
          exact .applySkip ha hf (by omega) hn
        · rw [if_neg hf]
          exact .applyIdle ha
      next entry he => exact .applyRead entry ha (by omega) he
  | applyCall =>
    simp only [stepApply] at h
    split at h <;> cases h
    next next entry waiter ha => exact .applyCall next entry waiter ha
  | applyWrite =>
    simp only [stepApply] at h
    split at h <;> cases h
    next next entry waiter ha => exact .applyWrite next entry waiter ha
  | applyNotify =>
    simp only [stepApply] at h
    split at h <;> cases h
    next entry waiter ha => exact .applyNotify entry waiter ha
  | _ => cases h

theorem Step.of_stepSnapshot (h : s.stepSnapshot ev = some (s', out)) : Step s ev s' out := by
  cases ev with
  | beginSnapshot =>
    simp only [stepSnapshot] at h
    split_ifs at h with hs
    split at h <;> cases h
    next rs hb => exact .beginSnapshot rs hs hb
  | serialize data =>
    simp only [stepSnapshot] at h
    split at h <;> cases h
    next rs hs =>
      cases data with
      | none => exact .serializeError rs hs
      | some d => exact .serialize rs d hs
  | saveSnapshot ok =>
    simp only [stepSnapshot] at h
    split at h
    next rs hs =>
      cases ok <;> cases h
      · exact .saveError rs hs
      · exact .saveSnapshot rs hs
    next => cases h
  | finishSnapshot =>
    simp only [stepSnapshot] at h
    split at h <;> cases h
    next rs hs => exact .finishSnapshot rs hs
  | _ => cases h

/-- Every step is one of the branches. -/
theorem step_inv (h : s.step ev = some (s', out)) : Step s ev s' out := by
  cases ev with
  | restart => cases h; exact .restart
  | sendAppend _ | appendReply _ _ _ | sendInstallSnapshot _ | installReply _ _ _
  | rpcError _ => exact .of_stepReplicator h
  | handleRequestVote _ | handleAppendEntries _ | handleInstallSnapshot _ | finishInstall _ _
  | propose _ => exact .of_stepHandler h
  | applyWake | applyRead | applyCall | applyWrite | applyNotify => exact .of_stepApply h
  | beginSnapshot | serialize _ | saveSnapshot _ | finishSnapshot => exact .of_stepSnapshot h
  | _ => exact .of_stepRun h

end Server

/-! ## What steps leave alone -/

namespace Node

/-- The fields that are set before `Run` and never written again. -/
def static (n : Node) : String × List String × StateMachineKind := (n.id, n.peer, n.sm)

theorem seeTerm_static (n : Node) (t : ℕ) : (n.seeTerm t).static = n.static := by
  unfold seeTerm
  split_ifs <;> rfl

theorem recognizeLeader_static (n : Node) (t : ℕ) : (n.recognizeLeader t).static = n.static := by
  unfold recognizeLeader
  split_ifs <;> rfl

theorem handleRequestVote_static (n : Node) (args : RequestVoteArgs) :
    (n.handleRequestVote args).1.static = n.static := by
  rcases n.handleRequestVote_cases args with h | ⟨-, -, -, h⟩ <;> rw [h] <;>
    exact n.seeTerm_static args.term

theorem handleAppendEntries_static (n : Node) (args : AppendEntriesArgs) :
    (n.handleAppendEntries args).1.static = n.static := by
  rcases n.handleAppendEntries_cases args with ⟨-, h⟩ | ⟨-, -, h⟩ | ⟨-, -, h⟩ <;> rw [h]
  · exact n.recognizeLeader_static args.term
  · exact n.recognizeLeader_static args.term

theorem handleAppendReply_static (n : Node) (p : String) (args : AppendEntriesArgs)
    (reply : AppendEntriesReply) : (n.handleAppendReply p args reply).static = n.static := by
  unfold handleAppendReply
  split_ifs <;> rfl

theorem handleInstallReply_static (n : Node) (p : String) (args : InstallSnapshotArgs)
    (reply : InstallSnapshotReply) : (n.handleInstallReply p args reply).static = n.static := by
  unfold handleInstallReply
  split_ifs <;> rfl

theorem sendAppend_static (n : Node) (p : String) : (n.sendAppend p).1.static = n.static := by
  unfold sendAppend
  split_ifs <;> rfl

/-- What `Propose` does to the log and the waiters. -/
theorem propose_spec {n n' : Node} {cmd : Option Bytes} {ch : ℕ} {e : LogEntry}
    (h : n.propose cmd ch = some (n', e)) :
    n.state = .leader ∧ n'.logEntries = n.logEntries ++ [e] ∧
      n'.commitWaits = n.commitWaits.insert e.index ch ∧ e.index = lastIndex n.logEntries + 1 ∧
      e.term = n.currentTerm ∧ n'.lastApplied = n.lastApplied := by
  unfold propose at h
  split_ifs at h with hl
  cases h
  exact ⟨not_not.1 hl, rfl, rfl, rfl, rfl, rfl⟩

/-- The entry carries the command, and the cached snapshot stays. -/
theorem propose_command {n n' : Node} {cmd : Option Bytes} {ch : ℕ} {e : LogEntry}
    (h : n.propose cmd ch = some (n', e)) :
    e.command = cmd ∧ n'.lastSnapshot = n.lastSnapshot := by
  unfold propose at h
  split_ifs at h
  cases h
  exact ⟨rfl, rfl⟩

theorem propose_static {n n' : Node} {cmd : Option Bytes} {ch : ℕ} {e : LogEntry}
    (h : n.propose cmd ch = some (n', e)) : n'.static = n.static := by
  unfold propose at h
  split_ifs at h
  cases h
  rfl

/-- The fields that only the handlers of log entries, the apply loop and `TakeSnapshot` write. -/
def held (n : Node) : List LogEntry × AList (fun _ : ℕ => ℕ) × ℕ × Option RaftSnapshot :=
  (n.logEntries, n.commitWaits, n.lastApplied, n.lastSnapshot)

section Held

variable {n n' : Node} (h : n'.held = n.held)
include h

theorem logEntries_of_held : n'.logEntries = n.logEntries := congrArg Prod.fst h

theorem commitWaits_of_held : n'.commitWaits = n.commitWaits := congrArg (fun x => x.2.1) h

theorem lastApplied_of_held : n'.lastApplied = n.lastApplied := congrArg (fun x => x.2.2.1) h

theorem lastSnapshot_of_held : n'.lastSnapshot = n.lastSnapshot := congrArg (fun x => x.2.2.2) h

end Held

theorem seeTerm_held (n : Node) (t : ℕ) : (n.seeTerm t).held = n.held := by
  unfold seeTerm
  split_ifs <;> rfl

theorem recognizeLeader_held (n : Node) (t : ℕ) : (n.recognizeLeader t).held = n.held := by
  unfold recognizeLeader
  split_ifs <;> rfl

theorem handleRequestVote_held (n : Node) (args : RequestVoteArgs) :
    (n.handleRequestVote args).1.held = n.held := by
  rcases n.handleRequestVote_cases args with h | ⟨-, -, -, h⟩ <;> rw [h] <;>
    exact n.seeTerm_held args.term

theorem handleAppendReply_held (n : Node) (p : String) (args : AppendEntriesArgs)
    (reply : AppendEntriesReply) : (n.handleAppendReply p args reply).held = n.held := by
  unfold handleAppendReply
  split_ifs <;> rfl

theorem handleInstallReply_held (n : Node) (p : String) (args : InstallSnapshotArgs)
    (reply : InstallSnapshotReply) : (n.handleInstallReply p args reply).held = n.held := by
  unfold handleInstallReply
  split_ifs <;> rfl

theorem sendAppend_held {n n' : Node} {p : String} {a : SendAction}
    (h : n.sendAppend p = (n', a)) : n'.held = n.held := by
  unfold sendAppend at h
  split_ifs at h <;> cases h <;> rfl

/-- `HandleAppendEntries` neither applies nor answers anything. -/
theorem handleAppendEntries_waits (n : Node) (args : AppendEntriesArgs) :
    (n.handleAppendEntries args).1.commitWaits = n.commitWaits ∧
      (n.handleAppendEntries args).1.lastApplied = n.lastApplied := by
  have hwaits := commitWaits_of_held (n.recognizeLeader_held args.term)
  have hla := lastApplied_of_held (n.recognizeLeader_held args.term)
  rcases n.handleAppendEntries_cases args with ⟨-, he⟩ | ⟨-, -, he⟩ | ⟨-, -, he⟩ <;> rw [he]
  · exact ⟨rfl, rfl⟩
  · exact ⟨hwaits, hla⟩
  · exact ⟨hwaits, hla⟩

/-- The log stays well formed, over the same snapshot. -/
theorem handleAppendEntries_log {n : Node} {args : AppendEntriesArgs}
    (hwf : WellFormed n.logEntries) (hargs : args.WellFormed) :
    WellFormed (n.handleAppendEntries args).1.logEntries ∧
      firstIndex (n.handleAppendEntries args).1.logEntries = firstIndex n.logEntries := by
  rcases n.handleAppendEntries_cases args with ⟨-, he⟩ | ⟨-, -, he⟩ | ⟨-, hc, he⟩ <;> rw [he]
  · exact ⟨hwf, rfl⟩
  · rw [recognizeLeader_logEntries]
    exact ⟨hwf, rfl⟩
  · have happ := appended_appendEntries hwf hargs (Nat.succ_le_succ hc.1)
    exact ⟨happ.wellFormed, happ.firstIndex_eq⟩

@[simp] theorem installed_commitWaits (n : Node) (args : InstallSnapshotArgs) :
    (n.installed args).commitWaits = n.commitWaits := by
  have hwaits := commitWaits_of_held (n.recognizeLeader_held args.term)
  exact hwaits

end Node

namespace Server

theorem boot_static (id : String) (peers : List String) (sm : StateMachineKind)
    (store : Option RaftSnapshot) :
    (boot id peers sm store).node.static = (id, peers, sm) := by
  cases store <;> rfl

@[simp] theorem boot_id (id : String) (peers : List String) (sm : StateMachineKind)
    (store : Option RaftSnapshot) : (boot id peers sm store).node.id = id :=
  congrArg Prod.fst (boot_static id peers sm store)

@[simp] theorem boot_peer (id : String) (peers : List String) (sm : StateMachineKind)
    (store : Option RaftSnapshot) : (boot id peers sm store).node.peer = peers :=
  congrArg (fun t => t.2.1) (boot_static id peers sm store)

@[simp] theorem boot_sm (id : String) (peers : List String) (sm : StateMachineKind)
    (store : Option RaftSnapshot) : (boot id peers sm store).node.sm = sm :=
  congrArg (fun t => t.2.2) (boot_static id peers sm store)

theorem Step.static (h : Step s ev s' out) : s'.node.static = s.node.static := by
  cases h with
  | sendAppend p n args hr hi hp hl hs => simpa only [hs] using s.node.sendAppend_static p
  | appendReply p args reply hw => exact s.node.handleAppendReply_static p args reply
  | installReply p args reply hw => exact s.node.handleInstallReply_static p args reply
  | handleRequestVote args => exact s.node.handleRequestVote_static args
  | handleAppendEntries args => exact s.node.handleAppendEntries_static args
  | installOld args ht ho => exact s.node.recognizeLeader_static args.term
  | install args ht ho => exact s.node.recognizeLeader_static args.term
  | propose cmd n entry hp => exact Node.propose_static hp
  | restart => exact boot_static _ _ _ _
  | _ => rfl

theorem Step.id_eq (h : Step s ev s' out) : s'.node.id = s.node.id :=
  congrArg Prod.fst h.static

theorem Step.peer_eq (h : Step s ev s' out) : s'.node.peer = s.node.peer :=
  congrArg (fun t => t.2.1) h.static

theorem Step.sm_eq (h : Step s ev s' out) : s'.node.sm = s.node.sm :=
  congrArg (fun t => t.2.2) h.static

/-! ## Logs stay well formed -/

theorem wellFormed_boot (id : String) (peers : List String) (sm : StateMachineKind)
    (store : Option RaftSnapshot) : WellFormed (boot id peers sm store).node.logEntries := by
  cases store <;> exact wellFormed_singleton _

/-- A request carries entries with consecutive indices, as `sendAppend` sends them. -/
def CarriesIndexed : Event → Prop
  | .handleAppendEntries args => args.WellFormed
  | _ => True

instance (ev : Event) : Decidable (CarriesIndexed ev) := by
  rcases ev <;> dsimp only [CarriesIndexed] <;> infer_instance

theorem Step.wellFormed (h : Step s ev s' out) (hwf : WellFormed s.node.logEntries)
    (hev : CarriesIndexed ev) : WellFormed s'.node.logEntries := by
  cases h with
  | sendAppend p n args hr hi hp hl hs =>
    exact Node.logEntries_of_held (Node.sendAppend_held hs) ▸ hwf
  | appendReply p args reply hw =>
    exact Node.logEntries_of_held (s.node.handleAppendReply_held p args reply) ▸ hwf
  | installReply p args reply hw =>
    exact Node.logEntries_of_held (s.node.handleInstallReply_held p args reply) ▸ hwf
  | handleRequestVote args =>
    exact Node.logEntries_of_held (s.node.handleRequestVote_held args) ▸ hwf
  | handleAppendEntries args =>
    exact (Node.handleAppendEntries_log hwf hev).1
  | installOld args ht ho =>
    rw [Node.recognizeLeader_logEntries]
    exact hwf
  | install args ht ho => exact wellFormed_singleton _
  | propose cmd n entry hp =>
    obtain ⟨-, hlog, -, hidx, -⟩ := Node.propose_spec hp
    rw [hlog]
    exact hwf.concat hidx
  | finishSnapshot rs hs => exact hwf.compactLogLocked _ _
  | restart => exact wellFormed_boot _ _ _ _
  | _ => exact hwf

end Server

end Driftless.Raft
