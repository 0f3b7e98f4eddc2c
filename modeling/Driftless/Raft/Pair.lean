import Driftless.Raft.Cluster
import Driftless.Raft.Pointers

/-!
# A leader and one of its peers

A leader that stays leader of its term, one of its peers, and the RPCs between them (`Pair`). One
RPC waits for its reply at a time; a request arrives late or never but at most once, also after
its RPC was abandoned, and only the reply to the RPC that waits is handled. `Steady` are the steps
in which the leader stays leader and the peer is left to it. `LeaderMove` and `PeerMove` say what
such a step can do, as far as the peer's replication goes.
-/

namespace Driftless.Raft

/-! ## The two servers and their messages -/

/-- A leader, its history, a peer, and the messages between them. -/
structure Pair where
  leader : Server
  /-- The leader's whole log. -/
  history : List LogEntry
  peer : Server
  /-- The number of RPCs sent to the peer, and so the id of the last one. -/
  rpc : ℕ
  /-- The requests in flight, with the id of their RPC. -/
  requests : List (ℕ × Call)
  /-- The RPC ids of the peer's `installs`. -/
  installing : List ℕ
  /-- The replies in flight, with the id of their RPC. -/
  replies : List (ℕ × Output)

inductive PairEvent
  /-- A step of the leader other than the handling of a reply of the peer. -/
  | leader (ev : Event)
  /-- The leader handles a reply of the peer. -/
  | receive (k : ℕ)
  /-- A step of the peer other than the handling of a request of the leader. -/
  | peer (ev : Event)
  /-- The peer handles a request of the leader. -/
  | deliver (k : ℕ)
  /-- The peer's `Restore` returns, and `HandleInstallSnapshot` with it. -/
  | restored (k : ℕ) (ok : Bool)
  deriving DecidableEq

/-- The request to `p` among the outputs of a step. -/
def Output.requestTo (p : String) : Output → Option Call
  | .appendEntries dst args => if dst = p then some (.append args) else none
  | .installSnapshot dst args => if dst = p then some (.install args) else none
  | _ => none

/-- The entry that a step has proposed. -/
def Output.proposal : Output → Option LogEntry
  | .proposed _ entry => some entry
  | _ => none

/-- Whether the output is the reply to a request of the leader. -/
def Output.isReply : Output → Bool
  | .appendEntriesReply _ _ => true
  | .installSnapshotReply _ _ => true
  | _ => false

namespace Pair

/-- After a step of the leader. -/
def afterLeader (x : Pair) (p : String) (l : Server) (out : List Output) : Pair :=
  { x with
    leader := l
    history := x.history ++ out.filterMap Output.proposal
    rpc := x.rpc + (out.filterMap (Output.requestTo p)).length
    requests := x.requests ++ (out.filterMap (Output.requestTo p)).map fun c => (x.rpc + 1, c) }

theorem afterLeader_nil (x : Pair) (p : String) (l : Server) :
    x.afterLeader p l [] = { x with leader := l } := by
  simp [afterLeader]

theorem afterLeader_appendEntries (x : Pair) (p : String) (l : Server) (args : AppendEntriesArgs) :
    x.afterLeader p l [.appendEntries p args] =
      { x with leader := l, rpc := x.rpc + 1,
               requests := x.requests ++ [(x.rpc + 1, .append args)] } := by
  simp [afterLeader, List.filterMap, Output.proposal, Output.requestTo]

theorem afterLeader_installSnapshot (x : Pair) (p : String) (l : Server)
    (args : InstallSnapshotArgs) :
    x.afterLeader p l [.installSnapshot p args] =
      { x with leader := l, rpc := x.rpc + 1,
               requests := x.requests ++ [(x.rpc + 1, .install args)] } := by
  simp [afterLeader, List.filterMap, Output.proposal, Output.requestTo]

/-- After the peer's handler has run for the request at place `k`, of the RPC `id`. -/
def afterDeliver (x : Pair) (k id : ℕ) (s : Server) (out : List Output) : Pair :=
  { x with
    peer := s
    requests := x.requests.eraseIdx k
    installing := if x.peer.installs.length < s.installs.length then x.installing ++ [id]
      else x.installing
    replies := x.replies ++ (out.filter Output.isReply).map fun o => (id, o) }

def step (p : String) (x : Pair) : PairEvent → Option (Pair × List Output)
  | .leader ev => (x.leader.step ev).map fun r => (x.afterLeader p r.1 r.2, r.2)
  | .receive k =>
    match x.replies[k]? with
    | some (id, .appendEntriesReply args reply) =>
      if id = x.rpc then
        (x.leader.step (.appendReply p args reply)).map fun r =>
          ({ x with leader := r.1, replies := x.replies.eraseIdx k }, r.2)
      else none
    | some (id, .installSnapshotReply args reply) =>
      if id = x.rpc then
        (x.leader.step (.installReply p args reply)).map fun r =>
          ({ x with leader := r.1, replies := x.replies.eraseIdx k }, r.2)
      else none
    | _ => none
  | .peer ev => (x.peer.step ev).map fun r =>
    ({ x with
        peer := r.1
        installing := if x.peer.installs.length < r.1.installs.length then x.installing ++ [0]
          else x.installing }, r.2)
  | .deliver k =>
    match x.requests[k]? with
    | some (id, .append args) =>
      (x.peer.step (.handleAppendEntries args)).map fun r => (x.afterDeliver k id r.1 r.2, r.2)
    | some (id, .install args) =>
      (x.peer.step (.handleInstallSnapshot args)).map fun r => (x.afterDeliver k id r.1 r.2, r.2)
    | none => none
  | .restored k ok =>
    (x.peer.step (.finishInstall k ok)).map fun r =>
      ({ x with
          peer := r.1
          installing := x.installing.eraseIdx k
          replies := x.replies ++
            (r.2.filter Output.isReply).map fun o => ((x.installing[k]?).getD 0, o) }, r.2)

/-! ## The runs considered -/

/-- The leader is leader of term `T` after the step. -/
def LeaderStays (T : ℕ) (p : String) (x : Pair) (ev : PairEvent) : Prop :=
  ∀ r ∈ x.step p ev, r.1.leader.node.state = .leader ∧ r.1.leader.node.currentTerm = T

instance (T : ℕ) (p : String) (x : Pair) (ev : PairEvent) : Decidable (LeaderStays T p x ev) :=
  inferInstanceAs (Decidable (∀ r ∈ x.step p ev, _))

/-- The steps the leader takes without a reply of `p`. -/
def OwnStep (p : String) : Event → Prop
  | .appendReply q _ _ => q ≠ p
  | .installReply q _ _ => q ≠ p
  | .restart => False
  | _ => True

instance (p : String) (ev : Event) : Decidable (OwnStep p ev) := by
  rcases ev <;> dsimp only [OwnStep] <;> infer_instance

/-- The steps of the peer besides its handling of the leader's requests: requests of another
leader are stale or of a later term, in which alone it acts as a leader itself, and `TakeSnapshot`
does not overlap `HandleInstallSnapshot`. -/
def PeerStep (T : ℕ) (s : Server) : Event → Prop
  | .handleAppendEntries args => args.term < s.node.currentTerm ∨ T < args.term
  | .handleInstallSnapshot args =>
      (args.term < s.node.currentTerm ∨ T < args.term) ∧ s.snapshot = .idle
  | .propose _ => T < s.node.currentTerm
  | .appendReply _ _ _ => T < s.node.currentTerm
  | .installReply _ _ _ => T < s.node.currentTerm
  | .beginSnapshot => s.installs = []
  | .finishInstall _ _ => False
  | .restart => False
  | _ => True

instance (T : ℕ) (s : Server) (ev : Event) : Decidable (PeerStep T s ev) := by
  rcases ev <;> dsimp only [PeerStep] <;> infer_instance

/-- An InstallSnapshot of the leader does not overlap a `TakeSnapshot` of the peer. -/
def Undisturbed (s : Server) : Option (ℕ × Call) → Prop
  | some (_, .install _) => s.snapshot = .idle
  | _ => True

instance (s : Server) (c : Option (ℕ × Call)) : Decidable (Undisturbed s c) := by
  rcases c with _ | ⟨_, _ | _⟩ <;> dsimp only [Undisturbed] <;> infer_instance

/-- The leader stays leader, and the peer is left to it. -/
def Steady (T : ℕ) (p : String) (x : Pair) (_ : List Output) (ev : PairEvent) : Prop :=
  LeaderStays T p x ev ∧
    match ev with
    | .leader ev => OwnStep p ev
    | .peer ev => PeerStep T x.peer ev
    | .deliver k => Undisturbed x.peer x.requests[k]?
    | _ => True

instance (T : ℕ) (p : String) (x : Pair) (h : List Output) (ev : PairEvent) :
    Decidable (Steady T p x h ev) := by
  rcases ev <;> dsimp only [Steady] <;> infer_instance

/-- `TakeSnapshot` begins with an index that is committed and in the log. -/
def BeginsCommitted (s : Server) : Event → Prop
  | .beginSnapshot => s.node.lastApplied ≤ s.node.commitIndex ∧
      s.node.lastApplied ≤ lastIndex s.node.logEntries
  | _ => True

instance (s : Server) (ev : Event) : Decidable (BeginsCommitted s ev) := by
  rcases ev <;> dsimp only [BeginsCommitted] <;> infer_instance

/-- The steps under which `matchIndex` is sound. -/
def SnapshotsCommitted (T : ℕ) (p : String) (x : Pair) (h : List Output) (ev : PairEvent) : Prop :=
  Steady T p x h ev ∧
    match ev with
    | .leader ev => BeginsCommitted x.leader ev
    | .peer ev => BeginsCommitted x.peer ev
    | _ => True

instance (T : ℕ) (p : String) (x : Pair) (h : List Output) (ev : PairEvent) :
    Decidable (SnapshotsCommitted T p x h ev) := by
  rcases ev <;> dsimp only [SnapshotsCommitted] <;> infer_instance

end Pair

/-! ## What a step can do -/

/-- What the leader keeps about `p`. -/
structure Progress where
  next : ℕ
  matched : ℕ
  replicator : Replicator

def Server.progress (s : Server) (p : String) : Progress :=
  ⟨s.node.nextIndex.get p, s.node.matchIndex.get p, s.replicators p⟩

theorem Server.progress_update (s : Server) (p : String) (r : Replicator) :
    Server.progress { s with replicators := Function.update s.replicators p r } p =
      { s.progress p with replicator := r } := by
  simp [progress]

/-- The index and term of the snapshot that `TakeSnapshot` is at work on. -/
def Server.captured (s : Server) : Option (ℕ × ℕ) :=
  s.snapshot.taking.map fun rs => (rs.lastIncludedIndex, rs.lastIncludedTerm)

/-- A step of a leader that stays leader, but for its handling of a reply of `p`. -/
inductive LeaderMove (p : String) (s : Server) (ev : Event) (s' : Server) (out : List Output) : Prop
  /-- Nothing that concerns `p`. -/
  | keep (hg : s'.progress p = s.progress p)
      (hlog : s'.node.logEntries = s.node.logEntries)
      (hsnap : s'.node.lastSnapshot = s.node.lastSnapshot)
      (hc : s'.captured = s.captured ∨ s'.captured = none)
      (hout : out.filterMap Output.proposal = [] ∧ out.filterMap (Output.requestTo p) = [])
  | propose (e : LogEntry) (he : e.index = lastIndex s.node.logEntries + 1)
      (ht : e.term = s.node.currentTerm) (hg : s'.progress p = s.progress p)
      (hlog : s'.node.logEntries = s.node.logEntries ++ [e])
      (hsnap : s'.node.lastSnapshot = s.node.lastSnapshot) (hc : s'.captured = s.captured)
      (hout : out.filterMap Output.proposal = [e] ∧ out.filterMap (Output.requestTo p) = [])
  | capture (hev : ev = .beginSnapshot) (rs : RaftSnapshot) (hb : s.node.beginSnapshot = some rs)
      (hs : s' = { s with snapshot := .begun rs }) (hout : out = [])
  | finish (rs : RaftSnapshot) (hrs : s.snapshot = .saved rs)
      (hs : s' = { s with node := s.node.finishSnapshot rs, snapshot := .idle }) (hout : out = [])
  /-- The replicator is about to ship a snapshot. -/
  | ship (hl : s.node.nextIndex.get p ≤ firstIndex s.node.logEntries)
      (hs : s' = { s with replicators := Function.update s.replicators p .shipping })
      (hout : out = [])
  | append (n : Node) (args : AppendEntriesArgs) (hi : s.replicators p = .idle)
      (hn : s.node.sendAppend p = (n, .append args))
      (hs : s' = { s with
        node := n
        replicators := Function.update s.replicators p (.waiting (.append args)) })
      (hout : out = [.appendEntries p args])
  | install (args : InstallSnapshotArgs) (hi : s.replicators p = .shipping)
      (hn : s.node.sendInstallSnapshot = some args)
      (hs : s' = { s with
        replicators := Function.update s.replicators p (.waiting (.install args)) })
      (hout : out = [.installSnapshot p args])
  /-- The replicator gives up on its RPC, or has nothing to ship. -/
  | giveUp (hs : s' = { s with replicators := Function.update s.replicators p .idle })
      (hout : out = [])

section LeaderMove

variable {p q : String} {n n' : Node} {s s' : Server} {ev : Event} {out : List Output}

theorem Node.sendAppend_progress {a : SendAction} (h : n.sendAppend q = (n', a)) (hq : p ≠ q) :
    n'.nextIndex.get p = n.nextIndex.get p ∧ n'.matchIndex.get p = n.matchIndex.get p := by
  unfold sendAppend at h
  split_ifs at h <;> cases h
  · exact ⟨rfl, rfl⟩
  · exact ⟨rfl, rfl⟩
  · refine ⟨?_, rfl⟩
    show PeerMap.get (if _ then _ else _) p = _
    split_ifs
    · exact PeerMap.get_insert_ne _ _ hq
    · rfl

theorem Node.recordMatch_progress (i : ℕ) (hq : p ≠ q) :
    (n.recordMatch q i).nextIndex.get p = n.nextIndex.get p ∧
      (n.recordMatch q i).matchIndex.get p = n.matchIndex.get p := by
  simp only [recordMatch, maybeAdvanceCommitLocked]
  split_ifs <;> simp [PeerMap.get_insert_ne _ _ hq]

theorem Node.handleAppendReply_progress (args : AppendEntriesArgs) (reply : AppendEntriesReply)
    (hq : p ≠ q) :
    (n.handleAppendReply q args reply).nextIndex.get p = n.nextIndex.get p ∧
      (n.handleAppendReply q args reply).matchIndex.get p = n.matchIndex.get p := by
  unfold handleAppendReply
  split_ifs
  · exact ⟨rfl, rfl⟩
  · exact ⟨rfl, rfl⟩
  · exact recordMatch_progress _ hq
  · simp only [backOff]
    split_ifs <;> simp [PeerMap.get_insert_ne _ _ hq]

theorem Node.handleInstallReply_progress (args : InstallSnapshotArgs)
    (reply : InstallSnapshotReply) (hq : p ≠ q) :
    (n.handleInstallReply q args reply).nextIndex.get p = n.nextIndex.get p ∧
      (n.handleInstallReply q args reply).matchIndex.get p = n.matchIndex.get p := by
  unfold handleInstallReply
  split_ifs
  · exact ⟨rfl, rfl⟩
  · exact ⟨rfl, rfl⟩
  · exact recordMatch_progress _ hq

theorem Node.propose_progress {cmd : Option Bytes} {ch : ℕ} {e : LogEntry}
    (h : n.propose cmd ch = some (n', e)) (hp : p ≠ n.id) :
    n'.nextIndex.get p = n.nextIndex.get p ∧ n'.matchIndex.get p = n.matchIndex.get p := by
  unfold propose at h
  split_ifs at h
  cases h
  exact ⟨rfl, PeerMap.get_insert_ne _ _ hp⟩

theorem Node.handleRequestVote_progress (args : RequestVoteArgs) :
    (n.handleRequestVote args).1.nextIndex = n.nextIndex ∧
      (n.handleRequestVote args).1.matchIndex = n.matchIndex := by
  have hsee : (n.seeTerm args.term).nextIndex = n.nextIndex ∧
      (n.seeTerm args.term).matchIndex = n.matchIndex := by
    unfold seeTerm
    split_ifs <;> exact ⟨rfl, rfl⟩
  rcases n.handleRequestVote_cases args with h | ⟨-, -, -, h⟩ <;> rw [h] <;> exact hsee

theorem Server.progress_eq (hn : s'.node.nextIndex.get p = s.node.nextIndex.get p ∧
      s'.node.matchIndex.get p = s.node.matchIndex.get p)
    (hr : s'.replicators p = s.replicators p) : s'.progress p = s.progress p := by
  simp only [progress, hn.1, hn.2, hr]

/-- **What a leader that stays leader does**, between two replies of `p`. -/
theorem Server.Step.leaderMove (hs : Server.Step s ev s' out) (hown : Pair.OwnStep p ev)
    (hp : p ≠ s.node.id) (hrun : s.run = .leading) (hl : s'.node.state = .leader) :
    s'.run = .leading ∧ LeaderMove p s ev s' out := by
  cases hs with
  | dispatch hr | resetTimer hr | followerTimeout hr | startElection hr | wonElection _ hr
  | steppedDown _ hr | electionTimeout _ hr | electionDone _ hr | drainStepDown hr
  | abortPendingProposals hr =>
    rw [hrun] at hr
    cases hr
  | voteHigherTerm _ _ _ hr | voteCounted _ _ _ hr | voteDenied _ _ _ hr | voteError _ _ hr =>
    rw [hrun] at hr
    cases hr
  | leaderStepDown => cases hl
  | sendNothing => exact ⟨hrun, .keep rfl rfl rfl (.inl rfl) ⟨rfl, rfl⟩⟩
  | sendShip q hr hi hq hl hn =>
    refine ⟨hrun, ?_⟩
    by_cases hpq : p = q
    · subst hpq
      exact .ship hn rfl rfl
    · exact .keep (progress_eq ⟨rfl, rfl⟩ (Function.update_of_ne hpq _ _)) rfl rfl (.inl rfl)
        ⟨rfl, rfl⟩
  | sendAppend q n args hr hi hq hl hn =>
    refine ⟨hrun, ?_⟩
    by_cases hpq : p = q
    · subst hpq
      exact .append n args hi hn rfl rfl
    · have hheld := Node.sendAppend_held hn
      refine .keep (progress_eq (Node.sendAppend_progress hn hpq) (Function.update_of_ne hpq _ _))
        (Node.logEntries_of_held hheld) (Node.lastSnapshot_of_held hheld) (.inl rfl) ⟨rfl, ?_⟩
      simp [Output.requestTo, Ne.symm hpq]
  | appendReply q args reply hw =>
    have hheld := s.node.handleAppendReply_held q args reply
    have hpq : p ≠ q := Ne.symm hown
    exact ⟨hrun, .keep (progress_eq (Node.handleAppendReply_progress args reply hpq)
      (Function.update_of_ne hpq _ _)) (Node.logEntries_of_held hheld)
      (Node.lastSnapshot_of_held hheld) (.inl rfl) ⟨rfl, rfl⟩⟩
  | shipNothing q | rpcError q =>
    refine ⟨hrun, ?_⟩
    by_cases hpq : p = q
    · subst hpq
      exact .giveUp rfl rfl
    · exact .keep (progress_eq ⟨rfl, rfl⟩ (Function.update_of_ne hpq _ _)) rfl rfl (.inl rfl)
        ⟨rfl, rfl⟩
  | sendInstallSnapshot q args hi hn =>
    refine ⟨hrun, ?_⟩
    by_cases hpq : p = q
    · subst hpq
      exact .install args hi hn rfl rfl
    · refine .keep (progress_eq ⟨rfl, rfl⟩ (Function.update_of_ne hpq _ _)) rfl rfl (.inl rfl)
        ⟨rfl, ?_⟩
      simp [Output.requestTo, Ne.symm hpq]
  | installReply q args reply hw =>
    have hheld := s.node.handleInstallReply_held q args reply
    have hpq : p ≠ q := Ne.symm hown
    exact ⟨hrun, .keep (progress_eq (Node.handleInstallReply_progress args reply hpq)
      (Function.update_of_ne hpq _ _)) (Node.logEntries_of_held hheld)
      (Node.lastSnapshot_of_held hheld) (.inl rfl) ⟨rfl, rfl⟩⟩
  | handleRequestVote args =>
    have hheld := s.node.handleRequestVote_held args
    obtain ⟨hn, hm⟩ := s.node.handleRequestVote_progress args
    exact ⟨hrun, .keep (progress_eq ⟨congrArg (PeerMap.get · p) hn, congrArg (PeerMap.get · p) hm⟩
      rfl) (Node.logEntries_of_held hheld) (Node.lastSnapshot_of_held hheld) (.inl rfl) ⟨rfl, rfl⟩⟩
  | handleAppendEntries args =>
    have hn := Node.handleAppendEntries_leader hl
    refine ⟨hrun, .keep ?_ (congrArg Node.logEntries hn) (congrArg Node.lastSnapshot hn) (.inl rfl)
      ⟨rfl, rfl⟩⟩
    exact progress_eq ⟨congrArg (·.nextIndex.get p) hn, congrArg (·.matchIndex.get p) hn⟩ rfl
  | installOld args => cases (s.node.recognizeLeader_state args.term).symm.trans hl
  | install args => cases (s.node.recognizeLeader_state args.term).symm.trans hl
  | propose cmd n e hn =>
    obtain ⟨-, hlog, -, he, ht, -⟩ := Node.propose_spec hn
    exact ⟨hrun, .propose e he ht (progress_eq (Node.propose_progress hn hp) rfl) hlog
      (Node.propose_command hn).2 rfl ⟨rfl, rfl⟩⟩
  | applyCall =>
    refine ⟨hrun, .keep rfl rfl rfl (.inl rfl) ?_⟩
    split_ifs <;> exact ⟨rfl, rfl⟩
  | applyNotify entry waiter =>
    refine ⟨hrun, .keep rfl rfl rfl (.inl rfl) ?_⟩
    cases waiter <;> exact ⟨rfl, rfl⟩
  | beginSnapshot rs hsn hb => exact ⟨hrun, .capture rfl rs hb rfl rfl⟩
  | serialize rs d hsn =>
    refine ⟨hrun, .keep rfl rfl rfl (.inl ?_) ⟨rfl, rfl⟩⟩
    simp [captured, SnapshotLoop.taking, hsn]
  | saveSnapshot rs hsn =>
    refine ⟨hrun, .keep rfl rfl rfl (.inl ?_) ⟨rfl, rfl⟩⟩
    simp [captured, SnapshotLoop.taking, hsn]
  | serializeError | saveError => exact ⟨hrun, .keep rfl rfl rfl (.inr rfl) ⟨rfl, rfl⟩⟩
  | finishSnapshot rs hsn => exact ⟨hrun, .finish rs hsn rfl rfl⟩
  | restart => exact hown.elim
  | _ => exact ⟨hrun, .keep rfl rfl rfl (.inl rfl) ⟨rfl, rfl⟩⟩

end LeaderMove

/-- A step of the peer that leaves it in a term up to that of the leader. -/
inductive PeerMove (s : Server) (ev : Event) (s' : Server) : Prop
  | keep (hlog : s'.node.logEntries = s.node.logEntries)
      (hcommit : s'.node.commitIndex = s.node.commitIndex)
      (hc : s'.captured = s.captured ∨ s'.captured = none) (hi : s'.installs = s.installs)
  | capture (hev : ev = .beginSnapshot) (rs : RaftSnapshot) (hb : s.node.beginSnapshot = some rs)
      (hs : s' = { s with snapshot := .begun rs })
  | finish (rs : RaftSnapshot) (hrs : s.snapshot = .saved rs)
      (hs : s' = { s with node := s.node.finishSnapshot rs, snapshot := .idle })

section PeerMove

variable {T : ℕ} {s s' : Server} {ev : Event} {out : List Output}

theorem PeerMove.of_held (hheld : s'.node.held = s.node.held)
    (hcommit : s'.node.commitIndex = s.node.commitIndex) (hc : s'.captured = s.captured)
    (hi : s'.installs = s.installs) : PeerMove s ev s' :=
  .keep (Node.logEntries_of_held hheld) hcommit (.inl hc) hi

/-- Without a crash no step lowers the term. -/
theorem Server.Step.le_currentTerm (hs : Server.Step s ev s' out) (hne : ev ≠ .restart) :
    s.node.currentTerm ≤ s'.node.currentTerm :=
  (hs.voteStep hne).le_currentTerm

/-- **What the peer does** besides handling the requests of the leader. -/
theorem Server.Step.peerMove (hs : Server.Step s ev s' out) (hok : Pair.PeerStep T s ev)
    (ht : s'.node.currentTerm ≤ T) : PeerMove s ev s' := by
  have hle : s.node.currentTerm ≤ s'.node.currentTerm := by
    refine hs.le_currentTerm ?_
    rintro rfl
    exact hok
  cases hs with
  | sendAppend q n args hr hi hq hl hn =>
    exact .of_held (Node.sendAppend_held hn) (Node.sendAppend_commitIndex hn) rfl rfl
  | appendReply | installReply | propose => exact absurd (hle.trans ht) (Nat.not_le.2 hok)
  | handleRequestVote args =>
    exact .of_held (s.node.handleRequestVote_held args) (s.node.handleRequestVote_commitIndex args)
      rfl rfl
  | handleAppendEntries args =>
    rcases Nat.lt_or_ge args.term s.node.currentTerm with hstale | hge
    · have hnode : s.node.handleAppendEntries args = (s.node, ⟨s.node.currentTerm, false⟩) :=
        if_pos hstale
      exact .keep (by rw [hnode]) (by rw [hnode]) (.inl rfl) rfl
    · have hterm := s.node.handleAppendEntries_currentTerm hge
      exact absurd ((hok.resolve_left (Nat.not_lt.2 hge)).trans_eq hterm.symm) (Nat.not_lt.2 ht)
  | installOld args hge ho =>
    exact .of_held (s.node.recognizeLeader_held _) (s.node.recognizeLeader_commitIndex _) rfl rfl
  | install args hge ho =>
    have hterm := s.node.recognizeLeader_currentTerm hge
    exact absurd ((hok.1.resolve_left (Nat.not_lt.2 hge)).trans_eq hterm.symm) (Nat.not_lt.2 ht)
  | finishInstall | finishEmptyInstall => exact hok.elim
  | beginSnapshot rs hsn hb => exact .capture rfl rs hb rfl
  | serialize rs d hsn =>
    refine .keep rfl rfl (.inl ?_) rfl
    simp [captured, SnapshotLoop.taking, hsn]
  | saveSnapshot rs hsn =>
    refine .keep rfl rfl (.inl ?_) rfl
    simp [captured, SnapshotLoop.taking, hsn]
  | serializeError | saveError => exact .keep rfl rfl (.inr rfl) rfl
  | finishSnapshot rs hsn => exact .finish rs hsn rfl
  | restart => exact hok.elim
  | _ => exact .keep rfl rfl (.inl rfl) rfl

end PeerMove

end Driftless.Raft
