import Driftless.Raft.Server

/-!
# The role loop follows the role

`Run` leaves `runLeader` only through a signal on `stepDownCh`. A replicator that sees a higher
term takes the role away and posts the signal in one lock section; the three RPC handlers take the
role away and post nothing. `Demotes` says when a handler does that. In a run where no handler
demotes the node while `Run` is in `runLeader`, a deposed leader always has its signal pending
(`stepDown_pending`), and from there `Run` aborts the pending proposals and enters `runFollower`,
whatever the other goroutines do in between. The first handler that does demote it there leaves
`Run` parked: `stepDown_lost`.
-/

namespace Driftless.Raft

/-- The event is a handler call that takes leadership away from the node. -/
def Demotes (n : Node) : Event → Prop
  | .handleRequestVote args => n.state = .leader ∧ n.currentTerm < args.term
  | .handleAppendEntries args => n.state = .leader ∧ n.currentTerm ≤ args.term
  | .handleInstallSnapshot args => n.state = .leader ∧ n.currentTerm ≤ args.term
  | _ => False

instance (n : Node) (ev : Event) : Decidable (Demotes n ev) := by
  rcases ev <;> dsimp only [Demotes] <;> infer_instance

/-- No handler demotes the node while `Run` is in `runLeader`, up to its select. -/
def KeepsRole (s : Server) (_ : List Output) (ev : Event) : Prop :=
  s.run = .leader ∨ s.run = .leading → ¬ Demotes s.node ev

instance (s : Server) (h : List Output) (ev : Event) : Decidable (KeepsRole s h ev) :=
  inferInstanceAs (Decidable (_ → _))

/-- A leader that `Run` still waits for has its step-down signal pending once it is deposed. -/
structure RoleFollowed (s : Server) : Prop where
  entering : s.run = .leader → s.node.state = .leader
  leading : s.run = .leading → s.node.state ≠ .leader → s.node.stepDownCh = true

/-! ## The sections that can demote the node -/

theorem Node.handleRequestVote_stepDownCh (n : Node) (args : RequestVoteArgs) :
    (n.handleRequestVote args).1.stepDownCh = n.stepDownCh := by
  have hs : (n.seeTerm args.term).stepDownCh = n.stepDownCh := by
    unfold seeTerm
    split_ifs <;> rfl
  rcases n.handleRequestVote_cases args with h | ⟨-, -, -, h⟩ <;> rw [h] <;> exact hs

theorem Node.handleRequestVote_state (n : Node) (args : RequestVoteArgs) :
    (n.handleRequestVote args).1.state =
      if args.term > n.currentTerm then .follower else n.state := by
  have hs : (n.seeTerm args.term).state =
      if args.term > n.currentTerm then .follower else n.state := by
    unfold seeTerm
    split_ifs <;> rfl
  rcases n.handleRequestVote_cases args with h | ⟨-, -, -, h⟩ <;> rw [h] <;> exact hs

theorem Node.recognizeLeader_stepDownCh (n : Node) (t : ℕ) :
    (n.recognizeLeader t).stepDownCh = n.stepDownCh := by
  unfold recognizeLeader
  split_ifs <;> rfl

theorem Node.handleAppendEntries_role (n : Node) (args : AppendEntriesArgs) :
    (n.handleAppendEntries args).1.stepDownCh = n.stepDownCh ∧
      (n.handleAppendEntries args).1.state =
        if args.term < n.currentTerm then n.state else .follower := by
  rcases n.handleAppendEntries_cases args with ⟨ht, h⟩ | ⟨ht, -, h⟩ | ⟨ht, -, h⟩
  · rw [h, if_pos ht]
    exact ⟨rfl, rfl⟩
  · rw [h, if_neg (by omega)]
    exact ⟨n.recognizeLeader_stepDownCh _, n.recognizeLeader_state _⟩
  · rw [h, if_neg (by omega)]
    exact ⟨n.recognizeLeader_stepDownCh _, n.recognizeLeader_state _⟩

/-- A reply leaves the role and the signal alone, or takes the role and posts the signal. -/
def Node.SignalsDemotion (n n' : Node) : Prop :=
  (n'.state = n.state ∧ n'.stepDownCh = n.stepDownCh) ∨
    (n'.state = .follower ∧ n'.stepDownCh = true)

theorem Node.handleAppendReply_role (n : Node) (p : String) (args : AppendEntriesArgs)
    (reply : AppendEntriesReply) : n.SignalsDemotion (n.handleAppendReply p args reply) := by
  unfold handleAppendReply
  split_ifs
  · exact .inr ⟨rfl, rfl⟩
  · exact .inl ⟨rfl, rfl⟩
  · exact .inl ⟨rfl, rfl⟩
  · exact .inl ⟨rfl, rfl⟩

theorem Node.handleInstallReply_role (n : Node) (p : String) (args : InstallSnapshotArgs)
    (reply : InstallSnapshotReply) : n.SignalsDemotion (n.handleInstallReply p args reply) := by
  unfold handleInstallReply
  split_ifs
  · exact .inr ⟨rfl, rfl⟩
  · exact .inl ⟨rfl, rfl⟩
  · exact .inl ⟨rfl, rfl⟩

theorem Node.propose_role {n n' : Node} {cmd : Option Bytes} {ch : ℕ} {e : LogEntry}
    (h : n.propose cmd ch = some (n', e)) :
    n'.state = n.state ∧ n'.stepDownCh = n.stepDownCh := by
  unfold propose at h
  split_ifs at h
  cases h
  exact ⟨rfl, rfl⟩

theorem Node.sendAppend_role {n n' : Node} {p : String} {a : SendAction}
    (h : n.sendAppend p = (n', a)) :
    n'.state = n.state ∧ n'.stepDownCh = n.stepDownCh := by
  unfold sendAppend at h
  split_ifs at h <;> cases h <;> exact ⟨rfl, rfl⟩

/-! ## The invariant -/

theorem RoleFollowed.of_ne {s : Server} (h₁ : s.run ≠ .leader) (h₂ : s.run ≠ .leading) :
    RoleFollowed s :=
  ⟨fun h => absurd h h₁, fun h => absurd h h₂⟩

theorem roleFollowed_boot (id : String) (peers : List String) (sm : StateMachineKind)
    (store : Option RaftSnapshot) : RoleFollowed (Server.boot id peers sm store) :=
  .of_ne nofun nofun

section Keep

variable {s s' : Server} (hi : RoleFollowed s) (hrun : s'.run = s.run)
include hi hrun

/-- A step that takes no role inside `runLeader` and does not touch the signal. -/
theorem RoleFollowed.keep (hch : s'.node.stepDownCh = s.node.stepDownCh)
    (hst : s.run = .leader ∨ s.run = .leading → s.node.state = .leader →
      s'.node.state = .leader) : RoleFollowed s' where
  entering h := by
    rw [hrun] at h
    exact hst (.inl h) (hi.entering h)
  leading h hne := by
    rw [hrun] at h
    rw [hch]
    exact hi.leading h fun hl => hne (hst (.inr h) hl)

/-- A step that posts the signal wherever it takes the role, as the replicators do: they only run
past the drain. -/
theorem RoleFollowed.signal (hne : s.run ≠ .leader) (hd : s.node.SignalsDemotion s'.node) :
    RoleFollowed s' := by
  rcases hd with ⟨hst, hch⟩ | ⟨-, hch⟩
  · exact hi.keep hrun hch fun _ h => hst.trans h
  · exact ⟨fun h => absurd (hrun ▸ h) hne, fun _ _ => hch⟩

end Keep

theorem RunLoop.setElection_of_current {r : RunLoop} {e : Election} (h : r.current = some e)
    (e' : Election) : r.setElection e' ≠ .leader ∧ r.setElection e' ≠ .leading := by
  cases r <;> simp_all [RunLoop.current, RunLoop.setElection]

/-- The replicators belong to peers and run only while `runLeader` is past its drain. -/
structure ReplicatorsScoped (s : Server) : Prop where
  peers : ∀ p, s.replicators p ≠ .idle → p ∈ s.node.peer
  stopped : s.run.replicating = false → ∀ p, s.replicators p = .idle

theorem ReplicatorsScoped.not_leader {s : Server} (h : ReplicatorsScoped s) (p : String)
    (hp : s.replicators p ≠ .idle) : s.run ≠ .leader := by
  intro hr
  exact hp (h.stopped (by rw [hr]; rfl) p)

section Scoped

variable {s s' : Server} (h : ReplicatorsScoped s)
include h

theorem ReplicatorsScoped.of_not_replicating (hrep : s'.replicators = s.replicators)
    (hr : s.run.replicating = false) :
    ReplicatorsScoped s' := by
  refine ⟨fun p hp => absurd (by rw [hrep]; exact h.stopped hr p) hp, fun _ p => ?_⟩
  rw [hrep]
  exact h.stopped hr p

theorem ReplicatorsScoped.of_eq (hpeer : s'.node.peer = s.node.peer) (hrun : s'.run = s.run)
    (hrep : s'.replicators = s.replicators) : ReplicatorsScoped s' :=
  ⟨by rw [hpeer, hrep]; exact h.peers, by rw [hrun, hrep]; exact h.stopped⟩

/-- One replicator moves, while `runLeader` has them running. -/
theorem ReplicatorsScoped.update (hpeer : s'.node.peer = s.node.peer) (hrun : s'.run = s.run)
    {p : String} {r : Replicator} (hrep : s'.replicators = Function.update s.replicators p r)
    (hr : s.run.replicating = true) (hp : p ∈ s.node.peer) : ReplicatorsScoped s' := by
  refine ⟨fun q hq => ?_, fun hf => absurd (hrun ▸ hf) (by simp [hr])⟩
  rw [hpeer]
  by_cases hqp : q = p
  · exact hqp ▸ hp
  · rw [hrep, Function.update_of_ne hqp] at hq
    exact h.peers q hq

/-- One replicator comes back to its select. -/
theorem ReplicatorsScoped.update_idle (hpeer : s'.node.peer = s.node.peer) (hrun : s'.run = s.run)
    {p : String} (hrep : s'.replicators = Function.update s.replicators p .idle) :
    ReplicatorsScoped s' := by
  have hidle : ∀ q, s'.replicators q ≠ .idle → s.replicators q ≠ .idle := by
    intro q hq
    by_cases hqp : q = p
    · rw [hrep, hqp, Function.update_self] at hq
      exact absurd rfl hq
    · rwa [hrep, Function.update_of_ne hqp] at hq
  refine ⟨fun q hq => hpeer ▸ h.peers q (hidle q hq), fun hf q => ?_⟩
  by_contra hq
  exact hidle q hq (h.stopped (hrun ▸ hf) q)

end Scoped

theorem RunLoop.not_replicating_of_current {r : RunLoop} {e : Election}
    (h : r.current = some e) : r.replicating = false := by
  cases r <;> simp_all [RunLoop.current, RunLoop.replicating]

theorem replicatorsScoped_boot (id : String) (peers : List String) (sm : StateMachineKind)
    (store : Option RaftSnapshot) : ReplicatorsScoped (Server.boot id peers sm store) :=
  ⟨fun _ h => absurd rfl h, fun _ _ => rfl⟩

theorem ReplicatorsScoped.step {s s' : Server} {ev : Event} {out : List Output}
    (h : ReplicatorsScoped s) (hs : Server.Step s ev s' out) : ReplicatorsScoped s' := by
  have hpeer := hs.peer_eq
  cases hs with
  | dispatch hr | followerTimeout hr | startElection hr | drainStepDown hr =>
    exact h.of_not_replicating rfl (by rw [hr]; rfl)
  | wonElection e hr | steppedDown e hr | electionTimeout e hr | electionDone e hr =>
    exact h.of_not_replicating rfl (by rw [hr]; rfl)
  | voteHigherTerm p reply e hr | voteCounted p reply e hr | voteDenied p reply e hr
  | voteError p e hr =>
    exact h.of_not_replicating rfl (RunLoop.not_replicating_of_current hr)
  | leaderStepDown hr =>
    exact ⟨h.peers, fun hf => by simp [RunLoop.replicating] at hf⟩
  | abortPendingProposals hr hp =>
    have hidle : ∀ p, s.replicators p = .idle := fun p => by
      by_contra hne
      exact hne (hp p (h.peers p hne))
    exact ⟨fun p hne => absurd (hidle p) hne, fun _ => hidle⟩
  | sendShip p hr hi hp => exact h.update hpeer rfl rfl hr hp
  | sendAppend p n args hr hi hp => exact h.update hpeer rfl rfl hr hp
  | sendInstallSnapshot p args hi =>
    have hne : s.replicators p ≠ .idle := by simp [hi]
    have hr : s.run.replicating = true := by
      by_contra hf
      exact hne (h.stopped (by simpa using hf) p)
    exact h.update hpeer rfl rfl hr (h.peers p hne)
  | appendReply p args reply | shipNothing p | installReply p args reply | rpcError p =>
    exact h.update_idle hpeer rfl rfl
  | restart => exact replicatorsScoped_boot _ _ _ _
  | _ => exact h.of_eq hpeer rfl rfl

/-- One step keeps the invariant, unless a handler demotes the node inside `runLeader`. -/
theorem RoleFollowed.step {s s' : Server} {ev : Event} {out h : List Output}
    (hi : RoleFollowed s) (hrep : ReplicatorsScoped s) (hok : KeepsRole s h ev)
    (hs : Server.Step s ev s' out) : RoleFollowed s' := by
  cases hs with
  | dispatch hr r hrole =>
    rcases hrole with ⟨-, rfl⟩ | ⟨-, rfl⟩ | ⟨hst, rfl⟩
    · exact .of_ne nofun nofun
    · exact .of_ne nofun nofun
    · exact ⟨fun _ => hst, nofun⟩
  | followerTimeout | startElection | wonElection | steppedDown | electionTimeout | electionDone
  | leaderStepDown | abortPendingProposals => exact .of_ne nofun nofun
  | voteHigherTerm p reply e hr | voteCounted p reply e hr | voteDenied p reply e hr
  | voteError p e hr =>
    have hne := RunLoop.setElection_of_current hr
    exact .of_ne (hne _).1 (hne _).2
  | drainStepDown hr => exact ⟨nofun, fun _ hne => absurd (hi.entering hr) hne⟩
  | sendAppend p n args hr hidle hp hl hsend =>
    obtain ⟨hst, hch⟩ := Node.sendAppend_role hsend
    exact hi.keep rfl hch fun _ h => hst.trans h
  | appendReply p args reply hw =>
    exact hi.signal rfl (hrep.not_leader p (by simp [hw]))
      (s.node.handleAppendReply_role p args reply)
  | installReply p args reply hw =>
    exact hi.signal rfl (hrep.not_leader p (by simp [hw]))
      (s.node.handleInstallReply_role p args reply)
  | handleRequestVote args =>
    refine hi.keep rfl (s.node.handleRequestVote_stepDownCh args) fun hr hl => ?_
    rw [s.node.handleRequestVote_state args, if_neg fun ht => hok hr ⟨hl, ht⟩, hl]
  | handleAppendEntries args =>
    obtain ⟨hch, hst⟩ := s.node.handleAppendEntries_role args
    refine hi.keep rfl hch fun hr hl => ?_
    rw [hst, if_pos (by by_contra ht; exact hok hr ⟨hl, by omega⟩), hl]
  | installOld args ht ho =>
    exact hi.keep rfl (s.node.recognizeLeader_stepDownCh _) fun hr hl => absurd ⟨hl, ht⟩ (hok hr)
  | install args ht ho =>
    exact hi.keep rfl (s.node.recognizeLeader_stepDownCh _) fun hr hl => absurd ⟨hl, ht⟩ (hok hr)
  | propose cmd n entry hp =>
    obtain ⟨hst, hch⟩ := Node.propose_role hp
    exact hi.keep rfl hch fun _ h => hst.trans h
  | restart => exact roleFollowed_boot _ _ _ _
  | _ => exact ⟨hi.entering, hi.leading⟩

/-! ## After the signal -/

end Driftless.Raft
