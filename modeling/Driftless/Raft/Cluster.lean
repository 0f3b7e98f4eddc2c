import Driftless.Consensus.Basic
import Driftless.Raft.Votes

/-!
# Elections in a cluster

A cluster is a server for each of its members, started with the other members as peers. The
history holds what every member sent, and is the network: a request or a reply can be delivered
once it was sent, at any time, in any order, or never (`Network`).

A member that leads a term has the votes of a majority in that term, as long as the term is still
the one the votes were collected in when leadership is assumed (`WinsOwnTerm`). `runCandidate` does
not check that. Together with one vote per term (`NoRevote`) it gives election safety:
`leader_unique`. `leaders_differ` is a cluster with two leaders of one term.
-/

namespace Driftless.Raft

open Consensus

abbrev Cluster := String → Server

namespace Cluster

/-- A cluster of fresh nodes. -/
def boot (members : List String) (sm : String → StateMachineKind) : Cluster :=
  fun i => Server.boot i (members.erase i) (sm i) none

/-- A step of one member. -/
def step (c : Cluster) (x : String × Event) : Option (Cluster × List (String × Output)) :=
  match (c x.1).step x.2 with
  | some (s', out) => some (Function.update c x.1 s', out.map (Prod.mk x.1))
  | none => none

theorem step_eq {c c' : Cluster} {x : String × Event} {out : List (String × Output)}
    (h : c.step x = some (c', out)) :
    ∃ s' o, Server.Step (c x.1) x.2 s' o ∧ c' = Function.update c x.1 s' ∧
      out = o.map (Prod.mk x.1) := by
  unfold step at h
  split at h
  next s' o hs =>
    cases h
    exact ⟨s', o, Server.step_inv hs, rfl, rfl⟩
  next => cases h

end Cluster

/-! ## The history of a member -/

/-- What the member `i` sent. -/
def sentBy (i : String) (h : List (String × Output)) : List Output :=
  h.filterMap fun o => if o.1 = i then some o.2 else none

theorem mem_sentBy {i : String} {h : List (String × Output)} {o : Output} :
    o ∈ sentBy i h ↔ (i, o) ∈ h := by
  simp only [sentBy, List.mem_filterMap, Option.ite_none_right_eq_some, Option.some.injEq]
  constructor
  · rintro ⟨⟨j, o'⟩, hm, rfl, rfl⟩
    exact hm
  · exact fun hm => ⟨(i, o), hm, rfl, rfl⟩

theorem sentBy_append_self (i : String) (h : List (String × Output)) (out : List Output) :
    sentBy i (h ++ out.map (Prod.mk i)) = sentBy i h ++ out := by
  simp [sentBy, List.filterMap_map]

theorem sentBy_append_ne {i j : String} (hne : j ≠ i) (h : List (String × Output))
    (out : List Output) : sentBy j (h ++ out.map (Prod.mk i)) = sentBy j h := by
  simp [sentBy, List.filterMap_map, hne.symm]

theorem mem_votes_append {i : String} {h : List (String × Output)} {T : ℕ} {c : String}
    (hv : (T, c) ∈ votes (sentBy i h)) (out : List (String × Output)) :
    (T, c) ∈ votes (sentBy i (h ++ out)) := by
  rw [sentBy, List.filterMap_append, votes_append]
  exact List.mem_append_left _ hv

/-! ## The network -/

/-- What can happen at a member: a request or a reply is delivered after it was sent, and nobody
crashes. -/
def Delivered (s : Server) (h : List (String × Output)) (i : String) : Event → Prop
  | .handleRequestVote args => ∃ o ∈ h, o.2 = .requestVote args
  | .handleAppendEntries args => ∃ o ∈ h, o.2 = .appendEntries i args
  | .handleInstallSnapshot args => ∃ o ∈ h, o.2 = .installSnapshot i args
  | .voteReply p reply => ∀ e ∈ s.run.current, (p, .requestVoteReply e.args reply) ∈ h
  | .appendReply p args reply => (p, .appendEntriesReply args reply) ∈ h
  | .installReply p args reply => (p, .installSnapshotReply args reply) ∈ h
  | .restart => False
  | _ => True

instance (s : Server) (h : List (String × Output)) (i : String) (ev : Event) :
    Decidable (Delivered s h i ev) := by
  rcases ev <;> dsimp only [Delivered] <;> infer_instance

/-- The steps of a cluster with these members. -/
def Network (members : List String) (c : Cluster) (h : List (String × Output))
    (x : String × Event) : Prop :=
  x.1 ∈ members ∧ Delivered (c x.1) h x.1 x.2

instance (members : List String) (c : Cluster) (h : List (String × Output))
    (x : String × Event) : Decidable (Network members c h x) :=
  inferInstanceAs (Decidable (_ ∧ _))

theorem Delivered.ne_restart {s : Server} {h : List (String × Output)} {i : String} {ev : Event}
    (hd : Delivered s h i ev) : ev ≠ .restart := by
  rintro rfl
  exact hd

/-- Leadership is assumed in the term of the election that was won. -/
def WinsOwnTerm (s : Server) : Event → Prop
  | .wonElection => ∀ e ∈ s.run.current, s.node.currentTerm = e.args.term
  | _ => True

instance (s : Server) (ev : Event) : Decidable (WinsOwnTerm s ev) := by
  rcases ev <;> dsimp only [WinsOwnTerm] <;> infer_instance

/-- The steps of a cluster in which every vote is cast once and leadership is assumed in time. -/
def ElectsSoundly (members : List String) (c : Cluster) (h : List (String × Output))
    (x : String × Event) : Prop :=
  Network members c h x ∧ WinsOwnTerm (c x.1) x.2 ∧ NoRevote (c x.1).node (sentBy x.1 h) x.2

instance (members : List String) (c : Cluster) (h : List (String × Output))
    (x : String × Event) : Decidable (ElectsSoundly members c h x) :=
  inferInstanceAs (Decidable (_ ∧ _))

/-! ## The leader's role -/

/-- Where `Run` is while the node is not leader yet. -/
def RunLoop.campaigning : RunLoop → Bool
  | .follower => true
  | .candidate => true
  | .election _ => true
  | _ => false

theorem RunLoop.setElection_campaigning (r : RunLoop) (e : Election) :
    (r.setElection e).campaigning = r.campaigning := by
  cases r <;> rfl

section Leads

variable {s s' : Server} {ev : Event} {out : List Output}

theorem Node.handleAppendReply_leader {n : Node} {p : String} {args : AppendEntriesArgs}
    {reply : AppendEntriesReply} (h : (n.handleAppendReply p args reply).state = .leader) :
    n.state = .leader ∧ (n.handleAppendReply p args reply).currentTerm = n.currentTerm := by
  unfold handleAppendReply at h ⊢
  split_ifs at h ⊢
  · cases h
  · exact ⟨h, rfl⟩
  · exact ⟨h, rfl⟩
  · exact ⟨h, rfl⟩

theorem Node.handleInstallReply_leader {n : Node} {p : String} {args : InstallSnapshotArgs}
    {reply : InstallSnapshotReply} (h : (n.handleInstallReply p args reply).state = .leader) :
    n.state = .leader ∧ (n.handleInstallReply p args reply).currentTerm = n.currentTerm := by
  unfold handleInstallReply at h ⊢
  split_ifs at h ⊢
  · cases h
  · exact ⟨h, rfl⟩
  · exact ⟨h, rfl⟩

theorem Node.handleRequestVote_leader {n : Node} {args : RequestVoteArgs}
    (h : (n.handleRequestVote args).1.state = .leader) :
    n.state = .leader ∧ (n.handleRequestVote args).1.currentTerm = n.currentTerm := by
  have hs : (n.seeTerm args.term).state = .leader →
      n.state = .leader ∧ (n.seeTerm args.term).currentTerm = n.currentTerm := by
    intro hl
    have heq := n.seeTerm_of_leader hl
    rw [heq] at hl ⊢
    exact ⟨hl, rfl⟩
  rcases n.handleRequestVote_cases args with he | ⟨-, -, -, he⟩
  · rw [he] at h ⊢
    exact hs h
  · rw [he] at h ⊢
    exact hs h

theorem Node.handleAppendEntries_leader {n : Node} {args : AppendEntriesArgs}
    (h : (n.handleAppendEntries args).1.state = .leader) :
    (n.handleAppendEntries args).1 = n := by
  rcases n.handleAppendEntries_cases args with ⟨-, he⟩ | ⟨-, -, he⟩ | ⟨-, -, he⟩
  · rw [he]
  · rw [he, n.recognizeLeader_state] at h
    cases h
  · rw [he] at h
    cases (n.recognizeLeader_state args.term).symm.trans h

theorem Node.propose_leader {n n' : Node} {cmd : Option Bytes} {ch : ℕ} {e : LogEntry}
    (h : n.propose cmd ch = some (n', e)) :
    n.state = .leader ∧ n'.currentTerm = n.currentTerm :=
  ⟨(Node.propose_spec h).1, (Node.propose_vote h).1⟩

/-- A leader was leader of the same term before the step, or has just won an election. -/
theorem Server.Step.leader_cases (hs : Server.Step s ev s' out) (hne : ev ≠ .restart)
    (hc : s.node.state = .leader → s.run.campaigning = false) (hl : s'.node.state = .leader) :
    (s.node.state = .leader ∧ s'.node.currentTerm = s.node.currentTerm ∧
      s'.run.campaigning = false) ∨
    (ev = .wonElection ∧ ∃ e, s.run = .election e ∧ e.wonElection = true ∧
      s' = { s with node := s.node.becomeLeader, run := .electionOver e }) := by
  cases hs with
  | dispatch hr r hrole =>
    rcases hrole with ⟨hst, -⟩ | ⟨hst, -⟩ | ⟨hst, rfl⟩
    · cases hst.symm.trans hl
    · cases hst.symm.trans hl
    · exact .inl ⟨hl, rfl, rfl⟩
  | startElection hr =>
    have hf := hc hl
    rw [hr] at hf
    cases hf
  | followerTimeout | voteHigherTerm | leaderStepDown => cases hl
  | voteCounted p reply e hr | voteDenied p reply e hr | voteError p e hr =>
    exact .inl ⟨hl, rfl, (RunLoop.setElection_campaigning _ _).trans (hc hl)⟩
  | wonElection e hr hw => exact .inr ⟨rfl, e, hr, hw, rfl⟩
  | sendAppend p n args hr hidle hp hlead hsend =>
    exact .inl ⟨hlead, (Node.sendAppend_vote hsend).1, hc hlead⟩
  | appendReply p args reply hw =>
    obtain ⟨hl, ht⟩ := Node.handleAppendReply_leader hl
    exact .inl ⟨hl, ht, hc hl⟩
  | installReply p args reply hw =>
    obtain ⟨hl, ht⟩ := Node.handleInstallReply_leader hl
    exact .inl ⟨hl, ht, hc hl⟩
  | handleRequestVote args =>
    obtain ⟨hl, ht⟩ := Node.handleRequestVote_leader hl
    exact .inl ⟨hl, ht, hc hl⟩
  | handleAppendEntries args =>
    have hn := Node.handleAppendEntries_leader hl
    have hl : s.node.state = .leader := hn ▸ hl
    exact .inl ⟨hl, congrArg Node.currentTerm hn, hc hl⟩
  | installOld args ht ho => cases (s.node.recognizeLeader_state args.term).symm.trans hl
  | install args ht ho => cases (s.node.recognizeLeader_state args.term).symm.trans hl
  | propose cmd n entry hp =>
    obtain ⟨hl, ht⟩ := Node.propose_leader hp
    exact .inl ⟨hl, ht, hc hl⟩
  | steppedDown | electionTimeout | electionDone | drainStepDown | abortPendingProposals =>
    exact .inl ⟨hl, rfl, rfl⟩
  | restart => exact absurd rfl hne
  | _ => exact .inl ⟨hl, rfl, hc hl⟩

end Leads

/-! ## Counting votes -/

section Count

variable {members : List String} {h : List (String × Output)} {i : String} {e : Election}

/-- A majority voted for `i` in term `T`. -/
def Elected (members : List String) (h : List (String × Output)) (i : String) (T : ℕ) : Prop :=
  ∃ A, IsMajority members.toFinset A ∧ ∀ v ∈ A, (T, i) ∈ votes (sentBy v h)

theorem Elected.mono {T : ℕ} (he : Elected members h i T) (out : List (String × Output)) :
    Elected members (h ++ out) i T := by
  obtain ⟨A, hA, hv⟩ := he
  exact ⟨A, hA, fun v hvA => mem_votes_append (hv v hvA) out⟩

/-- Two members elected in a term are the same, if everybody votes once. -/
theorem Elected.unique {T : ℕ} {j : String}
    (honce : ∀ v c c', (T, c) ∈ votes (sentBy v h) → (T, c') ∈ votes (sentBy v h) → c = c')
    (hi : Elected members h i T) (hj : Elected members h j T) : i = j := by
  obtain ⟨A, hA, ha⟩ := hi
  obtain ⟨B, hB, hb⟩ := hj
  obtain ⟨v, hvA, hvB⟩ := hA.exists_mem_mem hB
  exact honce v i j (ha v hvA) (hb v hvB)

/-- The election `e` of the member `i` counted votes that were cast, each once. -/
structure Ballot (members : List String) (h : List (String × Output)) (i : String)
    (e : Election) : Prop where
  candidate : e.args.candidateID = i
  self : (e.args.term, i) ∈ votes (sentBy i h)
  majority : e.majority = members.length / 2 + 1
  nodup : e.waiting.Nodup
  waiting : ∀ p ∈ e.waiting, p ∈ members ∧ p ≠ i
  counted : ∃ G : Finset String, G ⊆ members.toFinset ∧ i ∉ G ∧ e.votes = G.card + 1 ∧
    ∀ p ∈ G, p ∉ e.waiting ∧ (e.args.term, i) ∈ votes (sentBy p h)
  won : e.wonElection = true → e.majority ≤ e.votes

theorem Ballot.mono (hb : Ballot members h i e) (out : List (String × Output)) :
    Ballot members (h ++ out) i e := by
  obtain ⟨G, hG, hi, hv, hp⟩ := hb.counted
  exact ⟨hb.candidate, mem_votes_append hb.self out, hb.majority, hb.nodup, hb.waiting,
    ⟨G, hG, hi, hv, fun p hpG => ⟨(hp p hpG).1, mem_votes_append (hp p hpG).2 out⟩⟩, hb.won⟩

/-- A goroutine is done, without a vote. -/
theorem Ballot.erase (hb : Ballot members h i e) (p : String) (b : Bool) :
    Ballot members h i { e with waiting := e.waiting.erase p, steppedDown := b } := by
  obtain ⟨G, hG, hi, hv, hp⟩ := hb.counted
  exact ⟨hb.candidate, hb.self, hb.majority, hb.nodup.erase p,
    fun q hq => hb.waiting q (List.mem_of_mem_erase hq),
    ⟨G, hG, hi, hv, fun q hq => ⟨fun hm => (hp q hq).1 (List.mem_of_mem_erase hm), (hp q hq).2⟩⟩,
    hb.won⟩

/-- A goroutine is done, with a vote. -/
theorem Ballot.count (hb : Ballot members h i e) {p : String} (hp : p ∈ e.waiting)
    (hvote : (e.args.term, i) ∈ votes (sentBy p h)) :
    Ballot members h i { e with
      waiting := e.waiting.erase p
      votes := e.votes + 1
      wonElection := e.wonElection || decide (e.votes + 1 ≥ e.majority) } := by
  obtain ⟨G, hG, hi, hv, hall⟩ := hb.counted
  have hpG : p ∉ G := fun hm => (hall p hm).1 hp
  obtain ⟨hpm, hpi⟩ := hb.waiting p hp
  refine ⟨hb.candidate, hb.self, hb.majority, hb.nodup.erase p,
    fun q hq => hb.waiting q (List.mem_of_mem_erase hq), ⟨insert p G, ?_, ?_, ?_, ?_⟩, ?_⟩
  · exact Finset.insert_subset (List.mem_toFinset.2 hpm) hG
  · rw [Finset.mem_insert, not_or]
    exact ⟨hpi.symm, hi⟩
  · rw [Finset.card_insert_of_notMem hpG, hv]
  · intro q hq
    rcases Finset.mem_insert.1 hq with rfl | hq
    · exact ⟨hb.nodup.not_mem_erase, hvote⟩
    · exact ⟨fun hm => (hall q hq).1 (List.mem_of_mem_erase hm), (hall q hq).2⟩
  · intro hw
    show e.majority ≤ e.votes + 1
    rcases Bool.or_eq_true_iff.1 hw with hold | hnew
    · exact Nat.le_succ_of_le (hb.won hold)
    · exact of_decide_eq_true hnew

/-- A won election was decided by a majority. -/
theorem Ballot.elected (hb : Ballot members h i e) (hnd : members.Nodup) (hi : i ∈ members)
    (hw : e.wonElection = true) : Elected members h i e.args.term := by
  obtain ⟨G, hG, hiG, hv, hall⟩ := hb.counted
  have hle := hb.won hw
  rw [hb.majority, hv] at hle
  refine ⟨insert i G, ⟨Finset.insert_subset (List.mem_toFinset.2 hi) hG, ?_⟩, fun v hv => ?_⟩
  · rw [List.toFinset_card_of_nodup hnd, Finset.card_insert_of_notMem hiG]
    omega
  · rcases Finset.mem_insert.1 hv with rfl | hv
    · exact hb.self
    · exact (hall v hv).2

/-- The election a member starts: it has its own vote. -/
theorem ballot_newElection (hnd : members.Nodup) (hi : i ∈ members) {n : Node} (hid : n.id = i)
    (hpeer : n.peer = members.erase i) :
    Ballot members (h ++ [(i, .requestVote n.startElection.2)]) i
      (n.newElection n.startElection.2) := by
  have hlen : n.majority = members.length / 2 + 1 := by
    have := List.length_pos_of_mem hi
    rw [Node.majority, hpeer, List.length_erase_of_mem hi]
    congr 2
    omega
  refine ⟨hid, ?_, hlen, ?_, fun p hp => ?_, ⟨∅, ?_, ?_, rfl, ?_⟩, fun hw => ?_⟩
  · rw [sentBy, List.filterMap_append, votes_append]
    refine List.mem_append_right _ ?_
    simp [votes, Output.vote, Node.newElection, Node.startElection, hid]
  · show n.peer.Nodup
    rw [hpeer]
    exact hnd.erase i
  · have hp : p ∈ n.peer := hp
    rw [hpeer, hnd.mem_erase_iff] at hp
    exact ⟨hp.2, hp.1⟩
  · exact Finset.empty_subset _
  · exact Finset.notMem_empty i
  · exact fun p hp => absurd hp (Finset.notMem_empty p)
  · exact of_decide_eq_true hw

end Count

/-! ## The invariant of elections -/

/-- Granted votes are in the term of the request. -/
def GrantsInTerm (h : List (String × Output)) : Prop :=
  ∀ p args reply, (p, .requestVoteReply args reply) ∈ h → reply.voteGranted = true →
    reply.term = args.term

/-- What holds of the member `i`. -/
structure Elects (members : List String) (s : Server) (h : List (String × Output)) (i : String) :
    Prop where
  id : s.node.id = i
  peer : s.node.peer = members.erase i
  once : VotesOnce s.node (sentBy i h)
  ballot : ∀ e, s.run.current = some e → Ballot members h i e
  past : s.node.state = .leader → s.run.campaigning = false
  elected : s.node.state = .leader → Elected members h i s.node.currentTerm

theorem elects_boot (members : List String) (sm : String → StateMachineKind) (i : String) :
    Elects members (Cluster.boot members sm i) [] i :=
  ⟨rfl, rfl, .nil _, nofun, nofun, nofun⟩

section Step

variable {members : List String} {s s' : Server} {h : List (String × Output)} {i : String}
  {ev : Event} {out : List Output}

theorem grantsInTerm_step (hg : GrantsInTerm h) (hs : Server.Step s ev s' out) :
    GrantsInTerm (h ++ out.map (Prod.mk i)) := by
  intro p args reply hm hgr
  rcases List.mem_append.1 hm with hold | hnew
  · exact hg p args reply hold hgr
  · obtain ⟨o, ho, heq⟩ := List.mem_map.1 hnew
    obtain ⟨rfl, rfl⟩ : i = p ∧ o = .requestVoteReply args reply := by
      rw [Prod.mk.injEq] at heq
      exact heq
    cases hs with
    | handleRequestVote args' =>
      simp only [List.mem_singleton, Output.requestVoteReply.injEq] at ho
      obtain ⟨rfl, rfl⟩ := ho
      rcases s.node.handleRequestVote_cases args with he | ⟨-, -, -, he⟩
      · rw [he] at hgr
        cases hgr
      · rw [he]
    | applyCall idx entry waiter ha =>
      split_ifs at ho <;> simp at ho
    | _ => simp at ho

/-- The ballot of the running election, after a step of its member. -/
theorem Elects.ballot_step (hi : Elects members s h i) (hg : GrantsInTerm h)
    (hnd : members.Nodup) (hmem : i ∈ members) (hok : Delivered s h i ev)
    (hs : Server.Step s ev s' out) {e : Election} (he : s'.run.current = some e) :
    Ballot members (h ++ out.map (Prod.mk i)) i e := by
  have hcur : ∀ (r : RunLoop) (e₀ e₁ : Election), r.current = some e₀ →
      (r.setElection e₁).current = some e → e₁ = e := by
    intro r e₀ e₁ hr hx
    cases r <;> simp_all [RunLoop.current, RunLoop.setElection]
  cases hs with
  | dispatch hr r hrole => rcases hrole with ⟨-, rfl⟩ | ⟨-, rfl⟩ | ⟨-, rfl⟩ <;> cases he
  | followerTimeout | electionDone | drainStepDown | leaderStepDown | abortPendingProposals
  | restart => cases he
  | startElection hr =>
    cases he
    exact ballot_newElection hnd hmem hi.id hi.peer
  | voteHigherTerm p reply e₀ hr hp ht =>
    obtain rfl := hcur _ _ _ hr he
    exact ((hi.ballot e₀ hr).erase p true).mono _
  | voteCounted p reply e₀ hr hp ht hgr =>
    obtain rfl := hcur _ _ _ hr he
    have hb := hi.ballot e₀ hr
    have hm := hok e₀ hr
    refine (hb.count hp ?_).mono _
    refine List.mem_filterMap.2 ⟨_, mem_sentBy.2 hm, ?_⟩
    rw [Output.vote, if_pos hgr, hg p _ _ hm hgr, hb.candidate]
  | voteDenied p reply e₀ hr hp ht hgr =>
    obtain rfl := hcur _ _ _ hr he
    exact ((hi.ballot e₀ hr).erase p e₀.steppedDown).mono _
  | voteError p e₀ hr =>
    obtain rfl := hcur _ _ _ hr he
    exact ((hi.ballot e₀ hr).erase p e₀.steppedDown).mono _
  | wonElection e₀ hr hw =>
    cases he
    exact (hi.ballot e (by rw [hr]; rfl)).mono _
  | steppedDown e₀ hr | electionTimeout e₀ hr =>
    cases he
    exact (hi.ballot e (by rw [hr]; rfl)).mono _
  | _ => exact (hi.ballot e he).mono _

theorem Elects.step (hi : Elects members s h i) (hg : GrantsInTerm h) (hnd : members.Nodup)
    (hmem : i ∈ members) (hok : Delivered s h i ev) (hown : WinsOwnTerm s ev)
    (hrev : NoRevote s.node (sentBy i h) ev) (hs : Server.Step s ev s' out) :
    Elects members s' (h ++ out.map (Prod.mk i)) i where
  id := hs.id_eq.trans hi.id
  peer := hs.peer_eq.trans hi.peer
  once := by
    rw [sentBy_append_self]
    exact hi.once.step (hs.voteStep hok.ne_restart) hrev
  ballot _ he := hi.ballot_step hg hnd hmem hok hs he
  past hl := by
    rcases hs.leader_cases hok.ne_restart hi.past hl with ⟨-, -, hr⟩ | ⟨-, e, -, -, rfl⟩
    · exact hr
    · rfl
  elected hl := by
    rcases hs.leader_cases hok.ne_restart hi.past hl with ⟨hold, ht, -⟩ | ⟨rfl, e, hr, hw, rfl⟩
    · rw [ht]
      exact (hi.elected hold).mono _
    · have hcur : s.run.current = some e := by rw [hr]; rfl
      have ht : s.node.currentTerm = e.args.term := hown e hcur
      show Elected members _ i s.node.currentTerm
      rw [ht]
      exact ((hi.ballot e hcur).elected hnd hmem hw).mono _

theorem Elects.frame (hi : Elects members s h i) {j : String} (hne : i ≠ j) :
    Elects members s (h ++ out.map (Prod.mk j)) i :=
  ⟨hi.id, hi.peer, by rw [sentBy_append_ne hne]; exact hi.once,
    fun e he => (hi.ballot e he).mono _, hi.past, fun hl => (hi.elected hl).mono _⟩

end Step

/-- What holds of every member. -/
structure ClusterElects (members : List String) (c : Cluster) (h : List (String × Output)) :
    Prop where
  grants : GrantsInTerm h
  member : ∀ i, Elects members (c i) h i

theorem ClusterElects.step {members : List String} (hnd : members.Nodup) {c c' : Cluster}
    {h out : List (String × Output)} {x : String × Event} (hi : ClusterElects members c h)
    (hok : ElectsSoundly members c h x) (hs : c.step x = some (c', out)) :
    ClusterElects members c' (h ++ out) := by
  obtain ⟨s', o, hstep, rfl, rfl⟩ := Cluster.step_eq hs
  refine ⟨grantsInTerm_step hi.grants hstep, fun j => ?_⟩
  by_cases hj : j = x.1
  · subst hj
    rw [Function.update_self]
    exact (hi.member x.1).step hi.grants hnd hok.1.1 hok.1.2 hok.2.1 hok.2.2 hstep
  · rw [Function.update_of_ne hj]
    exact (hi.member j).frame hj

theorem clusterElects_run {members : List String} (hnd : members.Nodup)
    {sm : String → StateMachineKind} {c : Cluster} {h : List (String × Output)}
    (r : Run Cluster.step (ElectsSoundly members) (Cluster.boot members sm) [] c h) :
    ClusterElects members c h := by
  refine r.invariant (I := ClusterElects members) ⟨nofun, elects_boot members sm⟩ ?_
  intro c h x c' out hi hok hs
  exact hi.step hnd hok hs

/-- **Election safety**: in every run in which leadership is assumed in the term of the election and
no vote of a term is cast twice, two members that were leader of the same term, at any two
times, are the same. -/
theorem leader_unique {members : List String} (hnd : members.Nodup)
    {sm : String → StateMachineKind} {c₁ c₂ : Cluster} {h₁ h₂ : List (String × Output)}
    (r₁ : Run Cluster.step (ElectsSoundly members) (Cluster.boot members sm) [] c₁ h₁)
    (r₂ : Run Cluster.step (ElectsSoundly members) c₁ h₁ c₂ h₂) {i j : String}
    (hi : (c₁ i).node.state = .leader) (hj : (c₂ j).node.state = .leader)
    (ht : (c₁ i).node.currentTerm = (c₂ j).node.currentTerm) : i = j := by
  have hinv₁ := clusterElects_run hnd r₁
  have hinv₂ := clusterElects_run hnd (r₁.trans r₂)
  obtain ⟨out, rfl⟩ := r₂.history_prefix
  have hei := ((hinv₁.member i).elected hi).mono out
  have hej := (hinv₂.member j).elected hj
  rw [ht] at hei
  exact hei.unique (fun v c c' => (hinv₂.member v).once.unique _ c c') hej

/-- Two elections: `"a"` leads term 1 with the vote of `"b"`, which then leads term 2. -/
theorem leader_unique_of_two_terms : ∃ c₁ h₁ c₂ h₂,
    Run Cluster.step (ElectsSoundly ["a", "b", "c"]) (Cluster.boot ["a", "b", "c"] fun _ => .absent)
      [] c₁ h₁ ∧
    Run Cluster.step (ElectsSoundly ["a", "b", "c"]) c₁ h₁ c₂ h₂ ∧
    ((c₁ "a").node.state = .leader ∧ (c₁ "a").node.currentTerm = 1 ∧
      (c₂ "b").node.state = .leader ∧ (c₂ "b").node.currentTerm = 2) ∧
    ∀ j, (c₂ j).node.state = .leader → (c₂ j).node.currentTerm = 1 → j = "a" := by
  obtain ⟨c₁, h₁, c₂, h₂, r₁, r₂, hc⟩ := exists_runs_of_exec Cluster.step
    (ElectsSoundly ["a", "b", "c"]) (Cluster.boot ["a", "b", "c"] fun _ => .absent) []
    [("a", .dispatch), ("a", .followerTimeout), ("a", .dispatch), ("a", .startElection),
      ("b", .handleRequestVote ⟨1, "a", 0, 0⟩), ("a", .voteReply "b" ⟨1, true⟩),
      ("a", .wonElection)]
    [("b", .dispatch), ("b", .followerTimeout), ("b", .dispatch), ("b", .startElection),
      ("c", .handleRequestVote ⟨2, "b", 0, 0⟩), ("b", .voteReply "c" ⟨2, true⟩),
      ("b", .wonElection)]
    (fun c₁ c₂ => (c₁ "a").node.state = .leader ∧ (c₁ "a").node.currentTerm = 1 ∧
      (c₂ "b").node.state = .leader ∧ (c₂ "b").node.currentTerm = 2) (by decide +kernel)
  refine ⟨c₁, h₁, c₂, h₂, r₁, r₂, hc, fun j hj ht => ?_⟩
  exact (leader_unique (by decide) r₁ r₂ hc.1 hj (hc.2.1.trans ht.symm)).symm

/-- **A term can have two leaders**: a candidate that has its majority votes for another one in
the next term before it gets to assume leadership, and then leads that term as well. -/
theorem leaders_differ : ¬ ∀ (members : List String) (sm : String → StateMachineKind)
    (c₁ c₂ : Cluster) (h₁ h₂ : List (String × Output)), members.Nodup →
    Run Cluster.step (Network members) (Cluster.boot members sm) [] c₁ h₁ →
    Run Cluster.step (Network members) c₁ h₁ c₂ h₂ →
      ∀ i j, (c₁ i).node.state = .leader → (c₂ j).node.state = .leader →
        (c₁ i).node.currentTerm = (c₂ j).node.currentTerm → i = j := by
  intro hall
  obtain ⟨c₁, h₁, c₂, h₂, r₁, r₂, ha, hc, ht⟩ := exists_runs_of_exec Cluster.step
    (Network ["a", "b", "c"]) (Cluster.boot ["a", "b", "c"] fun _ => .absent) []
    [("a", .dispatch), ("a", .followerTimeout), ("a", .dispatch), ("a", .startElection),
      ("b", .handleRequestVote ⟨1, "a", 0, 0⟩), ("a", .voteReply "b" ⟨1, true⟩),
      ("c", .dispatch), ("c", .followerTimeout), ("c", .dispatch), ("c", .startElection),
      ("c", .electionTimeout), ("c", .voteError "a"), ("c", .voteError "b"),
      ("c", .electionDone), ("c", .dispatch), ("c", .startElection),
      ("a", .handleRequestVote ⟨2, "c", 0, 0⟩), ("a", .wonElection)]
    [("c", .voteReply "a" ⟨2, true⟩), ("c", .wonElection)]
    (fun c₁ c₂ => (c₁ "a").node.state = .leader ∧ (c₂ "c").node.state = .leader ∧
      (c₁ "a").node.currentTerm = (c₂ "c").node.currentTerm) (by decide +kernel)
  exact absurd (hall _ _ c₁ c₂ h₁ h₂ (by decide) r₁ r₂ "a" "c" ha hc ht) (by decide)

end Driftless.Raft
