import Driftless.Raft.Log

/-!
# The lock sections of a node

Each mutex-protected section of `raft/node.go` and `raft/snapshot.go` as a function on `Node`.
A section that follows an RPC takes the arguments of the call for the locals it captured before
it. What a section hands to the outside (a reply, a request, a result on a `Propose` channel) is
returned beside the new node.
-/

namespace Driftless.Raft

/-- `NewNode`. -/
def newNode (id : String) (peers : List String) : Node where
  id := id
  peer := peers
  currentTerm := 0
  votedFor := ""
  logEntries := [⟨0, 0, none⟩]
  state := .follower
  commitIndex := 0
  lastApplied := 0
  nextIndex := ∅
  matchIndex := ∅
  replicateSig := ∅
  sm := .absent
  applyCh := false
  commitWaits := ∅
  lastSnapshot := none
  resetElectionTimer := false
  stepDownCh := false

namespace Node

def setStateMachine (n : Node) (sm : StateMachineKind) : Node := { n with sm := sm }

/-- A higher term was seen: take it over, with no vote cast in it, as a follower. -/
def adoptTerm (n : Node) (term : ℕ) : Node :=
  { n with currentTerm := term, votedFor := "", state := .follower }

/-- The rule of every handler that sees a higher term. -/
def seeTerm (n : Node) (term : ℕ) : Node := if term > n.currentTerm then n.adoptTerm term else n

/-! ## Elections -/

/-- The timeout branch of `runFollower`. -/
def followerTimeout (n : Node) : Node := { n with state := .candidate }

/-- The first section of `runCandidate`. -/
def startElection (n : Node) : Node × RequestVoteArgs :=
  let n := { n with currentTerm := n.currentTerm + 1, votedFor := n.id }
  (n, ⟨n.currentTerm, n.id, (lastLogIndexAndTerm n.logEntries).1,
    (lastLogIndexAndTerm n.logEntries).2⟩)

def initLeaderState (n : Node) : Node :=
  let lastIdx := lastIndex n.logEntries
  { n with
    nextIndex := fillPeers n.peer (lastIdx + 1)
    matchIndex := (fillPeers n.peer 0).insert n.id lastIdx
    replicateSig := fillPeers n.peer false }

/-- The `wonElection` branch of `runCandidate`. -/
def becomeLeader (n : Node) : Node := { n with state := .leader }.initLeaderState

/-- `logOK` of `HandleRequestVote`: the candidate's log is at least as up to date. -/
def LogOK (args : RequestVoteArgs) (log : List LogEntry) : Prop :=
  args.lastLogTerm > (lastLogIndexAndTerm log).2 ∨
    (args.lastLogTerm = (lastLogIndexAndTerm log).2 ∧
      args.lastLogIndex ≥ (lastLogIndexAndTerm log).1)

instance (args : RequestVoteArgs) (log : List LogEntry) : Decidable (LogOK args log) :=
  inferInstanceAs (Decidable (_ ∨ _))

def handleRequestVote (n : Node) (args : RequestVoteArgs) : Node × RequestVoteReply :=
  let n := n.seeTerm args.term
  if args.term < n.currentTerm then (n, ⟨n.currentTerm, false⟩)
  else if n.votedFor ≠ "" ∧ n.votedFor ≠ args.candidateID then (n, ⟨n.currentTerm, false⟩)
  else if ¬ LogOK args n.logEntries then (n, ⟨n.currentTerm, false⟩)
  else ({ n with votedFor := args.candidateID, resetElectionTimer := true }, ⟨n.currentTerm, true⟩)

/-! ## The follower's side of replication -/

/-- Rule 2 of `HandleAppendEntries` and the timer reset after it, which `HandleInstallSnapshot`
repeats: the sender of a request that is not stale is the leader. -/
def recognizeLeader (n : Node) (term : ℕ) : Node :=
  if term > n.currentTerm ∨ n.state ≠ .follower then
    { n.adoptTerm term with resetElectionTimer := true }
  else { n with resetElectionTimer := true }

/-- Rule 5 of `HandleAppendEntries`. -/
def advanceCommit (n : Node) (leaderCommit lastNew : ℕ) : Node :=
  let newCommit := if lastNew < leaderCommit then lastNew else leaderCommit
  let advance := leaderCommit > n.commitIndex ∧ newCommit > n.commitIndex
  { n with
    commitIndex := if advance then newCommit else n.commitIndex
    applyCh := n.applyCh || decide advance }

def handleAppendEntries (n : Node) (args : AppendEntriesArgs) : Node × AppendEntriesReply :=
  if args.term < n.currentTerm then (n, ⟨n.currentTerm, false⟩)
  else
    let n := n.recognizeLeader args.term
    if args.prevLogIndex > lastIndex n.logEntries then (n, ⟨n.currentTerm, false⟩)
    else if args.prevLogIndex ≥ firstIndex n.logEntries ∧
        termAt n.logEntries args.prevLogIndex ≠ args.prevLogTerm then
      (n, ⟨n.currentTerm, false⟩)
    else
      let n := { n with
        logEntries := appendEntries n.logEntries (args.prevLogIndex + 1) args.entries }
      (n.advanceCommit args.leaderCommit (args.prevLogIndex + args.entries.length),
        ⟨n.currentTerm, true⟩)

/-- The locked section of `HandleInstallSnapshot`, with whether the call goes on to restore the
state machine; its reply then has yet to be marked successful. -/
def handleInstallSnapshot (n : Node) (args : InstallSnapshotArgs) :
    Node × InstallSnapshotReply × Bool :=
  if args.term < n.currentTerm then (n, ⟨n.currentTerm, false⟩, false)
  else
    let n := n.recognizeLeader args.term
    if args.lastIncludedIndex ≤ firstIndex n.logEntries ∧ firstIndex n.logEntries > 0 then
      (n, ⟨n.currentTerm, true⟩, false)
    else
      ({ n with
          logEntries := [⟨args.lastIncludedTerm, args.lastIncludedIndex, none⟩]
          commitIndex := args.lastIncludedIndex
          lastApplied := args.lastIncludedIndex
          lastSnapshot := some ⟨args.lastIncludedIndex, args.lastIncludedTerm, n.currentTerm,
            n.votedFor, args.data⟩ },
        ⟨n.currentTerm, false⟩, true)

/-! ## The leader's side of replication -/

/-- The replicas counted for index `N`: the leader and the peers that match it. -/
def replicas (n : Node) (N : ℕ) : ℕ := 1 + (n.peer.filter fun p => n.matchIndex.get p ≥ N).length

/-- The loop of `maybeAdvanceCommitLocked`, from index `N` down to the index it commits. -/
def quorumIndex (n : Node) : ℕ → Option ℕ
  | 0 => none
  | N + 1 =>
    if N + 1 > n.commitIndex then
      if N + 1 < firstIndex n.logEntries then none
      else if termAt n.logEntries (N + 1) ≠ n.currentTerm then n.quorumIndex N
      else if n.replicas (N + 1) ≥ n.majority then some (N + 1)
      else n.quorumIndex N
    else none

def maybeAdvanceCommitLocked (n : Node) : Node :=
  { n with
    commitIndex := (n.quorumIndex (lastIndex n.logEntries)).getD n.commitIndex
    applyCh := n.applyCh || (n.quorumIndex (lastIndex n.logEntries)).isSome }

/-- What `sendAppend` goes on to do once it has released the lock. -/
inductive SendAction
  | none
  | append (args : AppendEntriesArgs)
  | snapshot
  deriving DecidableEq, Repr

/-- The first section of `sendAppend`. -/
def sendAppend (n : Node) (peerID : String) : Node × SendAction :=
  if n.state ≠ .leader then (n, .none)
  else if n.nextIndex.get peerID ≤ firstIndex n.logEntries ∧ n.lastSnapshot.isSome then
    (n, .snapshot)
  else
    -- without a cached snapshot, clamp forward
    let low := n.nextIndex.get peerID ≤ firstIndex n.logEntries
    let next := if low then firstIndex n.logEntries + 1 else n.nextIndex.get peerID
    ({ n with nextIndex := if low then n.nextIndex.insert peerID next else n.nextIndex },
      .append ⟨n.currentTerm, n.id, next - 1, termAt n.logEntries (next - 1),
        entriesFrom n.logEntries next, n.commitIndex⟩)

/-- A reply came with a higher term: step down, and tell `runLeader`. -/
def stepDown (n : Node) (term : ℕ) : Node := { n.adoptTerm term with stepDownCh := true }

/-- The peer is known to hold the log up to `newMatch`. -/
def recordMatch (n : Node) (peerID : String) (newMatch : ℕ) : Node :=
  { n with
    matchIndex := if newMatch > n.matchIndex.get peerID then
      n.matchIndex.insert peerID newMatch else n.matchIndex
    nextIndex := if newMatch + 1 > n.nextIndex.get peerID then
      n.nextIndex.insert peerID (newMatch + 1) else n.nextIndex }.maybeAdvanceCommitLocked

/-- The peer's log conflicts: back off by one and kick the replicator. -/
def backOff (n : Node) (peerID : String) : Node :=
  { n with
    nextIndex := if n.nextIndex.get peerID > firstIndex n.logEntries + 1 then
      n.nextIndex.insert peerID (n.nextIndex.get peerID - 1) else n.nextIndex
    replicateSig := if (n.replicateSig.lookup peerID).isSome then
      n.replicateSig.insert peerID true else n.replicateSig }

/-- The second section of `sendAppend`, for the reply to `args`. -/
def handleAppendReply (n : Node) (peerID : String) (args : AppendEntriesArgs)
    (reply : AppendEntriesReply) : Node :=
  if reply.term > n.currentTerm then n.stepDown reply.term
  else if n.state ≠ .leader ∨ n.currentTerm ≠ args.term then n
  else if reply.success then n.recordMatch peerID (args.prevLogIndex + args.entries.length)
  else n.backOff peerID

/-- The first section of `sendInstallSnapshot`. -/
def sendInstallSnapshot (n : Node) : Option InstallSnapshotArgs :=
  if n.state ≠ .leader then none
  else n.lastSnapshot.map fun snap =>
    ⟨n.currentTerm, n.id, snap.lastIncludedIndex, snap.lastIncludedTerm, snap.data⟩

/-- The second section of `sendInstallSnapshot`, for the reply to `args`. -/
def handleInstallReply (n : Node) (peerID : String) (args : InstallSnapshotArgs)
    (reply : InstallSnapshotReply) : Node :=
  if reply.term > n.currentTerm then n.stepDown reply.term
  else if ¬ reply.success ∨ n.state ≠ .leader ∨ n.currentTerm ≠ args.term then n
  else n.recordMatch peerID args.lastIncludedIndex

/-! ## Proposals -/

/-- `Propose`, with `ch` for the channel it makes. -/
def propose (n : Node) (cmd : Option Bytes) (ch : ℕ) : Option (Node × LogEntry) :=
  if n.state ≠ .leader then none
  else
    let entry : LogEntry := ⟨n.currentTerm, lastIndex n.logEntries + 1, cmd⟩
    let n := { n with
      logEntries := n.logEntries ++ [entry]
      matchIndex := n.matchIndex.insert n.id entry.index
      commitWaits := n.commitWaits.insert entry.index ch }
    let n := n.maybeAdvanceCommitLocked
    some ({ n with
      replicateSig := n.replicateSig.keys.foldl (fun m p => m.insert p true) n.replicateSig },
      entry)

/-- The waiters `abortPendingProposals` fires on. -/
def pendingWaits (n : Node) : List (Sigma fun _ : ℕ => ℕ) :=
  n.commitWaits.entries.filter fun w => w.1 > n.commitIndex

/-- `abortPendingProposals`, with the results it delivers to their channels. -/
def abortPendingProposals (n : Node) : Node × List (ℕ × ProposeResult) :=
  ({ n with commitWaits := n.pendingWaits.foldl (fun m w => m.erase w.1) n.commitWaits },
    n.pendingWaits.map fun w => (w.2, ⟨false, w.1, 0⟩))

/-! ## Snapshots -/

/-- The first section of `TakeSnapshot`: the snapshot to take, without its data. -/
def beginSnapshot (n : Node) : Option RaftSnapshot :=
  if n.sm ≠ .snapshotable ∨ n.lastApplied ≤ firstIndex n.logEntries then none
  else some ⟨n.lastApplied, termAt n.logEntries n.lastApplied, n.currentTerm, n.votedFor, []⟩

/-- The second section of `TakeSnapshot`. -/
def finishSnapshot (n : Node) (rs : RaftSnapshot) : Node :=
  { n with
    logEntries := compactLogLocked n.logEntries rs.lastIncludedIndex rs.lastIncludedTerm
    lastSnapshot := some rs }

/-- `RestoreSnapshot` with a snapshot that `Load` returned and the state machine restored. -/
def restoreSnapshot (n : Node) (s : RaftSnapshot) : Node :=
  { n with
    logEntries := [⟨s.lastIncludedTerm, s.lastIncludedIndex, none⟩]
    commitIndex := s.lastIncludedIndex
    lastApplied := s.lastIncludedIndex
    currentTerm := s.currentTerm
    votedFor := s.votedFor
    lastSnapshot := some s }

/-! ## What the handlers do -/

section Cases

variable (n : Node)

@[simp] theorem seeTerm_logEntries (t : ℕ) : (n.seeTerm t).logEntries = n.logEntries := by
  unfold seeTerm
  split_ifs <;> rfl

theorem seeTerm_currentTerm (t : ℕ) : (n.seeTerm t).currentTerm = max n.currentTerm t := by
  unfold seeTerm
  split_ifs
  · simp only [adoptTerm]
    omega
  · omega

@[simp] theorem seeTerm_commitIndex (t : ℕ) : (n.seeTerm t).commitIndex = n.commitIndex := by
  unfold seeTerm
  split_ifs <;> rfl

theorem seeTerm_of_leader {t : ℕ} (h : (n.seeTerm t).state = .leader) : n.seeTerm t = n := by
  unfold seeTerm at h ⊢
  split_ifs at h ⊢
  · cases h
  · rfl

@[simp] theorem recognizeLeader_logEntries (t : ℕ) :
    (n.recognizeLeader t).logEntries = n.logEntries := by
  unfold recognizeLeader
  split_ifs <;> rfl

theorem recognizeLeader_currentTerm {t : ℕ} (h : n.currentTerm ≤ t) :
    (n.recognizeLeader t).currentTerm = t := by
  unfold recognizeLeader
  split_ifs
  · rfl
  · show n.currentTerm = t
    omega

@[simp] theorem recognizeLeader_state (t : ℕ) : (n.recognizeLeader t).state = .follower := by
  unfold recognizeLeader
  split_ifs with h
  · rfl
  · simpa using fun hs => h (.inr hs)

@[simp] theorem recognizeLeader_commitIndex (t : ℕ) :
    (n.recognizeLeader t).commitIndex = n.commitIndex := by
  unfold recognizeLeader
  split_ifs <;> rfl

/-- Rule 5 in one formula. -/
theorem advanceCommit_commitIndex (leaderCommit lastNew : ℕ) :
    (n.advanceCommit leaderCommit lastNew).commitIndex =
      max n.commitIndex (min leaderCommit lastNew) := by
  simp only [advanceCommit]
  split_ifs <;> omega

/-- `HandleRequestVote` denies the vote, having seen the term, or grants it. -/
theorem handleRequestVote_cases (args : RequestVoteArgs) :
    n.handleRequestVote args =
      (n.seeTerm args.term, ⟨(n.seeTerm args.term).currentTerm, false⟩) ∨
    (n.currentTerm ≤ args.term ∧
      ((n.seeTerm args.term).votedFor = "" ∨ (n.seeTerm args.term).votedFor = args.candidateID) ∧
      LogOK args n.logEntries ∧
      n.handleRequestVote args =
        ({ n.seeTerm args.term with votedFor := args.candidateID, resetElectionTimer := true },
          ⟨args.term, true⟩)) := by
  have ht := n.seeTerm_currentTerm args.term
  simp only [handleRequestVote, seeTerm_logEntries]
  split_ifs with h₁ h₂ h₃
  · exact .inl rfl
  · exact .inl rfl
  · refine .inr ⟨by omega, ?_, h₃,
      by rw [show (n.seeTerm args.term).currentTerm = args.term by omega]⟩
    by_cases hv : (n.seeTerm args.term).votedFor = ""
    · exact .inl hv
    · exact .inr (by simpa [hv] using h₂)
  · exact .inl rfl

/-- Rule 3 of `HandleAppendEntries`: the log holds the entry the new ones follow, or its
snapshot covers it. -/
def Consistent (log : List LogEntry) (args : AppendEntriesArgs) : Prop :=
  args.prevLogIndex ≤ lastIndex log ∧
    (firstIndex log ≤ args.prevLogIndex → termAt log args.prevLogIndex = args.prevLogTerm)

instance (log : List LogEntry) (args : AppendEntriesArgs) : Decidable (Consistent log args) :=
  inferInstanceAs (Decidable (_ ∧ _))

/-- `HandleAppendEntries` refuses a stale leader, rejects an inconsistent request, or accepts. -/
theorem handleAppendEntries_cases (args : AppendEntriesArgs) :
    (args.term < n.currentTerm ∧ n.handleAppendEntries args = (n, ⟨n.currentTerm, false⟩)) ∨
    (n.currentTerm ≤ args.term ∧ ¬ Consistent n.logEntries args ∧
      n.handleAppendEntries args = (n.recognizeLeader args.term, ⟨args.term, false⟩)) ∨
    (n.currentTerm ≤ args.term ∧ Consistent n.logEntries args ∧
      n.handleAppendEntries args =
        (advanceCommit
          { n.recognizeLeader args.term with
            logEntries := appendEntries n.logEntries (args.prevLogIndex + 1) args.entries }
          args.leaderCommit (args.prevLogIndex + args.entries.length), ⟨args.term, true⟩)) := by
  simp only [handleAppendEntries, recognizeLeader_logEntries, Consistent]
  split_ifs with h₁ h₂ h₃
  · exact .inl ⟨h₁, rfl⟩
  · exact .inr (.inl ⟨by omega, by omega,
      by rw [recognizeLeader_currentTerm n (by omega)]⟩)
  · exact .inr (.inl ⟨by omega, fun h => h₃.2 (h.2 h₃.1),
      by rw [recognizeLeader_currentTerm n (by omega)]⟩)
  · refine .inr (.inr ⟨by omega, ⟨by omega, fun hf => ?_⟩,
      by rw [recognizeLeader_currentTerm n (by omega)]⟩)
    by_contra hne
    exact h₃ ⟨hf, hne⟩

theorem handleAppendEntries_currentTerm {args : AppendEntriesArgs}
    (h : n.currentTerm ≤ args.term) : (n.handleAppendEntries args).1.currentTerm = args.term := by
  rcases n.handleAppendEntries_cases args with ⟨hlt, -⟩ | ⟨-, -, he⟩ | ⟨-, -, he⟩
  · omega
  · rw [he]
    exact n.recognizeLeader_currentTerm h
  · rw [he]
    exact n.recognizeLeader_currentTerm h

/-- The snapshot is newer than the log's placeholder, or the log has none. -/
def Newer (log : List LogEntry) (args : InstallSnapshotArgs) : Prop :=
  ¬ (args.lastIncludedIndex ≤ firstIndex log ∧ firstIndex log > 0)

instance (log : List LogEntry) (args : InstallSnapshotArgs) : Decidable (Newer log args) :=
  inferInstanceAs (Decidable (¬ _))

/-- The node once a snapshot is installed. -/
def installed (n : Node) (args : InstallSnapshotArgs) : Node :=
  { n.recognizeLeader args.term with
    logEntries := [⟨args.lastIncludedTerm, args.lastIncludedIndex, none⟩]
    commitIndex := args.lastIncludedIndex
    lastApplied := args.lastIncludedIndex
    lastSnapshot := some ⟨args.lastIncludedIndex, args.lastIncludedTerm, args.term,
      (n.recognizeLeader args.term).votedFor, args.data⟩ }

/-- `HandleInstallSnapshot` refuses a stale leader, ignores an old snapshot, or installs. -/
theorem handleInstallSnapshot_cases (args : InstallSnapshotArgs) :
    (args.term < n.currentTerm ∧
      n.handleInstallSnapshot args = (n, ⟨n.currentTerm, false⟩, false)) ∨
    (n.currentTerm ≤ args.term ∧ ¬ Newer n.logEntries args ∧
      n.handleInstallSnapshot args = (n.recognizeLeader args.term, ⟨args.term, true⟩, false)) ∨
    (n.currentTerm ≤ args.term ∧ Newer n.logEntries args ∧
      n.handleInstallSnapshot args = (n.installed args, ⟨args.term, false⟩, true)) := by
  simp only [handleInstallSnapshot, recognizeLeader_logEntries, Newer, installed]
  split_ifs with h₁ h₂
  · exact .inl ⟨h₁, rfl⟩
  · exact .inr (.inl ⟨by omega, not_not.2 h₂, by rw [recognizeLeader_currentTerm n (by omega)]⟩)
  · exact .inr (.inr ⟨by omega, h₂, by rw [recognizeLeader_currentTerm n (by omega)]⟩)

/-! ## What the leader sends and commits -/

/-- An AppendEntries carries the log from an index above the placeholder on. -/
theorem sendAppend_spec {n' : Node} {p : String} {args : AppendEntriesArgs}
    (h : n.sendAppend p = (n', .append args)) :
    n.state = .leader ∧ ∃ next, firstIndex n.logEntries < next ∧
      (next = firstIndex n.logEntries + 1 ∨ next = n.nextIndex.get p) ∧
      args = ⟨n.currentTerm, n.id, next - 1, termAt n.logEntries (next - 1),
        entriesFrom n.logEntries next, n.commitIndex⟩ := by
  unfold sendAppend at h
  split_ifs at h with h₁ h₂
  · cases h
  · cases h
  · simp only [Prod.mk.injEq, SendAction.append.injEq] at h
    refine ⟨not_not.1 h₁, if n.nextIndex.get p ≤ firstIndex n.logEntries then
      firstIndex n.logEntries + 1 else n.nextIndex.get p, ?_, ?_, h.2.symm⟩
    · split_ifs <;> omega
    · split_ifs
      · exact .inl rfl
      · exact .inr rfl

/-- Above the floor the request starts where `nextIndex` says. -/
theorem sendAppend_of_lt {p : String} (hl : n.state = .leader)
    (hlo : firstIndex n.logEntries < n.nextIndex.get p) :
    n.sendAppend p = (n, .append ⟨n.currentTerm, n.id, n.nextIndex.get p - 1,
      termAt n.logEntries (n.nextIndex.get p - 1),
      entriesFrom n.logEntries (n.nextIndex.get p), n.commitIndex⟩) := by
  have hlow : ¬ n.nextIndex.get p ≤ firstIndex n.logEntries := Nat.not_le.2 hlo
  unfold sendAppend
  rw [if_neg (not_not.2 hl), if_neg fun hc => hlow hc.1]
  simp only [if_neg hlow]

/-- An InstallSnapshot carries the cached snapshot. -/
theorem sendInstallSnapshot_spec {args : InstallSnapshotArgs}
    (h : n.sendInstallSnapshot = some args) :
    n.state = .leader ∧ ∃ snap, n.lastSnapshot = some snap ∧
      args = ⟨n.currentTerm, n.id, snap.lastIncludedIndex, snap.lastIncludedTerm, snap.data⟩ := by
  unfold sendInstallSnapshot at h
  split_ifs at h with hl
  obtain ⟨snap, hs, rfl⟩ := Option.map_eq_some_iff.1 h
  exact ⟨not_not.1 hl, snap, hs, rfl⟩

/-- The index the loop of `maybeAdvanceCommitLocked` commits holds an entry of the current term
that a majority of replicas match. -/
theorem quorumIndex_spec {N k : ℕ} (h : n.quorumIndex N = some k) :
    k ≤ N ∧ n.commitIndex < k ∧ firstIndex n.logEntries ≤ k ∧
      termAt n.logEntries k = n.currentTerm ∧ n.majority ≤ n.replicas k := by
  induction N with
  | zero => cases h
  | succ N ih =>
    unfold quorumIndex at h
    split_ifs at h with h₁ h₂ h₃ h₄
    · obtain ⟨hk, hrest⟩ := ih h
      exact ⟨Nat.le_succ_of_le hk, hrest⟩
    · cases h
      exact ⟨le_rfl, h₁, Nat.le_of_not_lt h₂, not_not.1 h₃, h₄⟩
    · obtain ⟨hk, hrest⟩ := ih h
      exact ⟨Nat.le_succ_of_le hk, hrest⟩

/-- `maybeAdvanceCommitLocked` leaves the commit index or moves it to such an index. -/
theorem maybeAdvanceCommitLocked_cases :
    n.maybeAdvanceCommitLocked.commitIndex = n.commitIndex ∨
      (n.commitIndex < n.maybeAdvanceCommitLocked.commitIndex ∧
        n.maybeAdvanceCommitLocked.commitIndex ≤ lastIndex n.logEntries ∧
        firstIndex n.logEntries ≤ n.maybeAdvanceCommitLocked.commitIndex ∧
        termAt n.logEntries n.maybeAdvanceCommitLocked.commitIndex = n.currentTerm ∧
        n.majority ≤ n.replicas n.maybeAdvanceCommitLocked.commitIndex) := by
  cases h : n.quorumIndex (lastIndex n.logEntries) with
  | none => exact .inl (by simp [maybeAdvanceCommitLocked, h])
  | some k =>
    have hk : n.maybeAdvanceCommitLocked.commitIndex = k := by simp [maybeAdvanceCommitLocked, h]
    obtain ⟨h₁, h₂, h₃, h₄, h₅⟩ := n.quorumIndex_spec h
    rw [hk]
    exact .inr ⟨h₂, h₁, h₃, h₄, h₅⟩

/-- The pointers of a peer only move up. -/
theorem recordMatch_next {p : String} (i : ℕ) :
    (n.recordMatch p i).nextIndex.get p = max (n.nextIndex.get p) (i + 1) ∧
      (n.recordMatch p i).matchIndex.get p = max (n.matchIndex.get p) i := by
  simp only [recordMatch, maybeAdvanceCommitLocked]
  constructor
  · split_ifs
    · rw [PeerMap.get_insert_self]
      omega
    · omega
  · split_ifs
    · rw [PeerMap.get_insert_self]
      omega
    · omega

end Cases

end Node

end Driftless.Raft
