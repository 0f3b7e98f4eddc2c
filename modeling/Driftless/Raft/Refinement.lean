import Driftless.Raft.Mirror

/-!
# The cluster refines the protocol

Every step of a member is some steps of the protocol by the same node (`Sim.step`), as long as
elections are sound and a snapshot never discards entries it does not conflict with
(`ReplicatesSoundly`). `Sim` relates a cluster and its history to the state of the protocol: each
node to its part of it (`NodeSim`), and each message to what its sender had (`Sent`).

Entries handed to `Apply` are committed, and what is committed is a prefix of anything else that
is: `applied_agree`. `applied_differ` is a cluster in which two members apply different entries at
an index.
-/

namespace Driftless.Raft

open Consensus

/-! ## The relation -/

/-- The entry is part of what the cluster committed, at its index. -/
def Chosen (members : List String) (g : Ghost) (e : LogEntry) : Prop :=
  ∃ T S, Agreed members g T S ∧ 0 < e.index ∧ S[e.index - 1]? = some e

/-- What the apply loop of a server holds. -/
structure AppliesChosen (members : List String) (g : Ghost) (s : Server) : Prop where
  applied_le : s.node.lastApplied ≤ s.node.commitIndex
  inFlight_le : ∀ idx, s.apply.inFlight = some idx → idx ≤ s.node.commitIndex
  read : ∀ idx e w, s.apply = .read idx e w → e.command.isSome = true → Chosen members g e

/-- The snapshot is of something committed. -/
def SnapshotOf (members : List String) (g : Ghost) (n : Node) (rs : RaftSnapshot) : Prop :=
  rs.lastIncludedIndex ≤ n.commitIndex ∧
    Covers members g n.currentTerm rs.lastIncludedIndex rs.lastIncludedTerm

/-- The snapshots a server holds: the one `TakeSnapshot` works on, the cached one, and those its
replicators wait for. -/
structure SnapshotsChosen (members : List String) (g : Ghost) (s : Server) : Prop where
  taking : ∀ rs, s.snapshot.taking = some rs → SnapshotOf members g s.node rs
  cached : ∀ rs, s.node.lastSnapshot = some rs → SnapshotOf members g s.node rs
  shipped : ∀ p args, s.replicators p = .waiting (.install args) →
    args.lastIncludedIndex ≤ s.node.commitIndex

/-- What the server of the member `i` has of the protocol. -/
structure NodeSim (members : List String) (g : Ghost) (i : String) (s : Server) : Prop where
  mirrors : Mirrors members g i s.node
  leads : s.node.state = .leader → LeadsTerm g i s.node
  applies : AppliesChosen members g s
  snapshots : SnapshotsChosen members g s

/-- What the protocol knows of something the member `i` sent. -/
def Sent (members : List String) (g : Ghost) (i : String) : Output → Prop
  | .requestVote args => args.candidateID = i ∧ ∃ l, g.clog i args.term = some l ∧
      args.lastLogIndex = l.length ∧ args.lastLogTerm = lastTerm LogEntry.term l
  | .appendEntries _ args => ∃ L, Carries members g args L
  | .appendEntriesReply args reply => reply.success = true →
      args.prevLogIndex + args.entries.length ≤ g.acked i args.term
  | .installSnapshot _ args => g.led args.term ≠ none ∧
      Covers members g args.term args.lastIncludedIndex args.lastIncludedTerm
  | .apply e => Chosen members g e
  | _ => True

/-- The relation of a cluster with its history to the state of the protocol. -/
structure Sim (members : List String) (c : Cluster) (h : List (String × Output)) (g : Ghost) :
    Prop where
  inv : GhostInv members g
  node : ∀ i, NodeSim members g i (c i)
  sent : ∀ i o, (i, o) ∈ h → Sent members g i o
  voted : ∀ v T x, g.vote v T = some x ↔ (T, x) ∈ votes (sentBy v h)

/-! ## What grows stays related -/

section Mono

variable {members : List String} {g g' : Ghost} {i : String} {s s' : Server}

theorem Chosen.mono {e : LogEntry} (h : Chosen members g e) (hext : g.Ext g') :
    Chosen members g' e := by
  obtain ⟨T, S, hS, hrest⟩ := h
  exact ⟨T, S, hS.mono hext le_rfl, hrest⟩

theorem Carries.mono {args : AppendEntriesArgs} {L : List LogEntry}
    (h : Carries members g args L) (hext : g.Ext g') : Carries members g' args L := by
  refine ⟨?_, h.indexed, h.isPrefix.trans (hext.tlog _), h.prev_le, h.entries, h.prevTerm,
    h.commit_le, h.commit.mono hext le_rfl⟩
  obtain ⟨c, hc⟩ := Option.ne_none_iff_exists'.1 h.led
  rw [hext.led _ c hc]
  exact nofun

theorem Sent.mono {o : Output} (h : Sent members g i o) (hext : g.Ext g') :
    Sent members g' i o := by
  cases o with
  | requestVote args =>
    obtain ⟨hc, l, hl, hrest⟩ := h
    exact ⟨hc, l, hext.clog _ _ l hl, hrest⟩
  | appendEntries dst args =>
    obtain ⟨L, hL⟩ := h
    exact ⟨L, hL.mono hext⟩
  | appendEntriesReply args reply => exact fun hs => (h hs).trans (hext.acked i _)
  | installSnapshot dst args =>
    obtain ⟨hled, hcov⟩ := h
    obtain ⟨c, hc⟩ := Option.ne_none_iff_exists'.1 hled
    refine ⟨?_, hcov.mono hext le_rfl⟩
    rw [hext.led _ c hc]
    exact nofun
  | apply e => exact Chosen.mono h hext
  | _ => trivial

/-- A step that leaves the apply loop. -/
theorem AppliesChosen.mono (h : AppliesChosen members g s) (hext : g.Ext g')
    (hc : s.node.commitIndex ≤ s'.node.commitIndex)
    (hla : s'.node.lastApplied = s.node.lastApplied) (ha : s'.apply = s.apply) :
    AppliesChosen members g' s' := by
  refine ⟨?_, fun idx hx => ?_, fun idx e w hx he => ?_⟩
  · rw [hla]
    exact h.applied_le.trans hc
  · exact (h.inFlight_le idx (ha ▸ hx)).trans hc
  · exact (h.read idx e w (ha ▸ hx) he).mono hext

theorem SnapshotOf.mono {n n' : Node} {rs : RaftSnapshot} (h : SnapshotOf members g n rs)
    (hext : g.Ext g') (ht : n.currentTerm ≤ n'.currentTerm)
    (hc : n.commitIndex ≤ n'.commitIndex) : SnapshotOf members g' n' rs :=
  ⟨h.1.trans hc, h.2.mono hext ht⟩

/-- A step that leaves the snapshots. -/
theorem SnapshotsChosen.mono (h : SnapshotsChosen members g s) (hext : g.Ext g')
    (ht : s.node.currentTerm ≤ s'.node.currentTerm)
    (hc : s.node.commitIndex ≤ s'.node.commitIndex)
    (hls : s'.node.lastSnapshot = s.node.lastSnapshot) (hsn : s'.snapshot = s.snapshot)
    (hrep : ∀ p args, s'.replicators p = .waiting (.install args) →
      s.replicators p = .waiting (.install args)) :
    SnapshotsChosen members g' s' := by
  refine ⟨fun rs hx => ?_, fun rs hx => ?_, fun p args hx => ?_⟩
  · exact (h.taking rs (hsn ▸ hx)).mono hext ht hc
  · exact (h.cached rs (hls ▸ hx)).mono hext ht hc
  · exact (h.shipped p args (hrep p args hx)).trans hc

/-- The steps of the other members. -/
theorem NodeSim.frame (h : NodeSim members g i s) (hext : g.Ext g')
    (hterm : g'.term i = g.term i) (hlog : g'.log i = g.log i) : NodeSim members g' i s :=
  ⟨h.mirrors.mono hext (hterm.trans h.mirrors.term) hlog rfl rfl,
    fun hl => (h.leads hl).mono hext hlog, h.applies.mono hext le_rfl rfl rfl,
    h.snapshots.mono hext le_rfl le_rfl rfl rfl fun _ _ => id⟩

end Mono

/-! ## Steps of one member -/

/-- The protocol can follow a step of the member `i` that leads to `s'` and sends `out`. -/
structure Simulated (members : List String) (g : Ghost) (i : String) (s' : Server)
    (out : List Output) (g' : Ghost) : Prop where
  steps : g.Steps LogEntry.term members.toFinset i g'
  node : NodeSim members g' i s'
  sent : ∀ o ∈ out, Sent members g' i o
  voted : ∀ T x, g'.vote i T = some x ↔ g.vote i T = some x ∨ (T, x) ∈ votes out

section Steps

variable {members : List String} {g g' : Ghost} {i : String} {s s' : Server} {out : List Output}

/-- The protocol stands still. -/
theorem Simulated.stutter (hn : NodeSim members g i s') (hsent : ∀ o ∈ out, Sent members g i o)
    (hv : votes out = []) : Simulated members g i s' out g :=
  ⟨.refl, hn, hsent, fun T x => by simp [hv]⟩

theorem Simulated.quiet (hn : NodeSim members g i s') : Simulated members g i s' [] g :=
  .stutter hn (by simp) rfl

/-- A step that leaves the apply loop and the snapshots. -/
theorem NodeSim.advance (h : NodeSim members g i s) (hinv : GhostInv members g)
    (hsteps : g.Steps LogEntry.term members.toFinset i g') (hm : Mirrors members g' i s'.node)
    (hl : s'.node.state = .leader → LeadsTerm g' i s'.node)
    (hc : s.node.commitIndex ≤ s'.node.commitIndex)
    (hla : s'.node.lastApplied = s.node.lastApplied)
    (hls : s'.node.lastSnapshot = s.node.lastSnapshot) (ha : s'.apply = s.apply)
    (hsn : s'.snapshot = s.snapshot)
    (hrep : ∀ p args, s'.replicators p = .waiting (.install args) →
      s.replicators p = .waiting (.install args)) : NodeSim members g' i s' := by
  obtain ⟨-, hext, -⟩ := State.Steps.spec hsteps hinv
  have ht : s.node.currentTerm ≤ s'.node.currentTerm := by
    rw [← h.mirrors.term, ← hm.term]
    exact hext.term i
  exact ⟨hm, hl, h.applies.mono hext hc hla ha, h.snapshots.mono hext ht hc hls hsn hrep⟩

/-- A step that only moves the goroutines, or sets fields the protocol does not have. -/
theorem NodeSim.keep (h : NodeSim members g i s) (ht : s'.node.currentTerm = s.node.currentTerm)
    (hh : s'.node.held = s.node.held) (hc : s'.node.commitIndex = s.node.commitIndex)
    (hl : s'.node.state = .leader → LeadsTerm g i s'.node) (ha : s'.apply = s.apply)
    (hsn : s'.snapshot = s.snapshot)
    (hrep : ∀ p args, s'.replicators p = .waiting (.install args) →
      s.replicators p = .waiting (.install args)) : NodeSim members g i s' :=
  ⟨h.mirrors.mono (.refl g) (h.mirrors.term.trans ht.symm) rfl (Node.logEntries_of_held hh) hc,
    hl, h.applies.mono (.refl g) hc.ge (Node.lastApplied_of_held hh) ha,
    h.snapshots.mono (.refl g) ht.ge hc.ge (Node.lastSnapshot_of_held hh) hsn hrep⟩

/-- The node enters a higher term, or hears of its own. -/
theorem Simulated.bump (h : NodeSim members g i s) (hinv : GhostInv members g) {t : ℕ}
    (ht : s.node.currentTerm ≤ t) (hterm : s'.node.currentTerm = t)
    (hh : s'.node.held = s.node.held) (hc : s'.node.commitIndex = s.node.commitIndex)
    (hl : s'.node.state = .leader → LeadsTerm g i s'.node) (ha : s'.apply = s.apply)
    (hsn : s'.snapshot = s.snapshot)
    (hrep : ∀ p args, s'.replicators p = .waiting (.install args) →
      s.replicators p = .waiting (.install args))
    (hsent : ∀ o ∈ out, Sent members (g.bump i t) i o) (hv : votes out = []) :
    Simulated members g i s' out (g.bump i t) := by
  obtain ⟨hstep, hm⟩ := h.mirrors.bump hinv ht hterm (Node.logEntries_of_held hh) hc
  refine ⟨hstep.steps, h.advance hinv hstep.steps hm (fun hlead => ?_) hc.ge
    (Node.lastApplied_of_held hh) (Node.lastSnapshot_of_held hh) ha hsn hrep, hsent,
    fun T x => by simp [hv, State.bump]⟩
  exact (hl hlead).mono (hstep.ext hinv) rfl

/-- The first section of `runCandidate`. -/
theorem Simulated.startElection (h : NodeSim members g i s) (hinv : GhostInv members g)
    (hid : s.node.id = i) (hne : s.node.state ≠ .leader) (r : RunLoop) :
    Simulated members g i { s with node := s.node.startElection.1, run := r }
      [.requestVote s.node.startElection.2] (g.campaign i) := by
  have hsteps := hinv.campaign_steps i
  obtain ⟨-, hext, -⟩ := State.Steps.spec hsteps hinv
  have hterm : (g.campaign i).term i = s.node.currentTerm + 1 := by
    rw [← h.mirrors.term]
    exact State.bump_term i _
  have hclog : (g.campaign i).clog i (s.node.currentTerm + 1) = some (g.log i) := by
    rw [← h.mirrors.term]
    exact State.campaign_clog i
  have hlast := h.mirrors.log.lastLogIndexAndTerm_eq
  refine ⟨hsteps, h.advance hinv hsteps (h.mirrors.mono hext hterm rfl rfl rfl)
    (fun hl => absurd hl hne) le_rfl rfl rfl rfl rfl fun _ _ => id, fun o ho => ?_, fun T x => ?_⟩
  · rw [List.mem_singleton.1 ho]
    refine ⟨hid, g.log i, hclog, ?_, ?_⟩
    · exact congrArg Prod.fst hlast
    · exact congrArg Prod.snd hlast
  · rw [hinv.campaign_vote i T x, h.mirrors.term]
    simp [votes, Output.vote, Node.startElection, hid]

/-- A request that is at least as up to date by its arguments comes from such a log. -/
theorem Mirrors.upToDate {n : Node} (hm : Mirrors members g i n) {args : RequestVoteArgs}
    {l : List LogEntry} (hidx : args.lastLogIndex = l.length)
    (hterm : args.lastLogTerm = lastTerm LogEntry.term l) (hok : Node.LogOK args n.logEntries) :
    UpToDate LogEntry.term l (g.log i) := by
  unfold Node.LogOK at hok
  rw [hm.log.lastLogIndexAndTerm_eq, hidx, hterm] at hok
  exact hok

/-- `HandleRequestVote`: the term is seen, and a vote is cast or not. -/
theorem Simulated.handleRequestVote {h : List (String × Output)} (hn : NodeSim members g i s)
    (hinv : GhostInv members g) (hel : Elects members s h i)
    (hvoted : ∀ T x, g.vote i T = some x → (T, x) ∈ votes (sentBy i h))
    {args : RequestVoteArgs} {c : String} (hreq : Sent members g c (.requestVote args))
    (hrev : NoRevote s.node (sentBy i h) (.handleRequestVote args)) :
    ∃ g', Simulated members g i { s with node := (s.node.handleRequestVote args).1 }
      [.requestVoteReply args (s.node.handleRequestVote args).2] g' := by
  have hlead : (s.node.seeTerm args.term).state = .leader → LeadsTerm g i s.node ∧
      s.node.seeTerm args.term = s.node := by
    intro hl
    have heq := s.node.seeTerm_of_leader hl
    exact ⟨hn.leads (heq ▸ hl), heq⟩
  rcases s.node.handleRequestVote_cases args with he | ⟨ht, hfree, hok, he⟩
  · rw [he]
    refine ⟨g.bump i (max s.node.currentTerm args.term), .bump hn hinv (le_max_left _ _)
      (s.node.seeTerm_currentTerm args.term) (s.node.seeTerm_held args.term)
      (s.node.seeTerm_commitIndex args.term) (fun hl => ?_) rfl rfl (fun _ _ => id) ?_ rfl⟩
    · obtain ⟨hl, heq⟩ := hlead hl
      show LeadsTerm g i (s.node.seeTerm args.term)
      rw [heq]
      exact hl
    · intro o ho
      rw [List.mem_singleton.1 ho]
      trivial
  · rw [he]
    obtain ⟨rfl, l, hl, hidx, hterm⟩ := hreq
    have hcur : (s.node.seeTerm args.term).currentTerm = args.term :=
      (s.node.seeTerm_currentTerm args.term).trans (max_eq_right ht)
    obtain ⟨hbump, hm⟩ := hn.mirrors.bump hinv ht hcur (s.node.seeTerm_logEntries args.term)
      (s.node.seeTerm_commitIndex args.term)
    have hsame : args.term = s.node.currentTerm →
        s.node.votedFor = "" ∨ s.node.votedFor = args.candidateID := by
      intro heq
      simpa only [Node.seeTerm, heq, gt_iff_lt, lt_irrefl, if_false] using hfree
    have hvote : (g.bump i args.term).vote i ((g.bump i args.term).term i) = none ∨
        (g.bump i args.term).vote i ((g.bump i args.term).term i) = some args.candidateID := by
      rw [State.bump_term]
      show g.vote i args.term = none ∨ g.vote i args.term = some args.candidateID
      cases hx : g.vote i args.term with
      | none => exact .inl rfl
      | some x =>
        rw [hel.once.eq_candidate ht hsame hok hrev (hvoted _ x hx)]
        exact .inr rfl
    have hgrant : (g.bump i args.term).Step LogEntry.term members.toFinset i
        ((g.bump i args.term).grant i args.candidateID) := by
      refine .grant i _ l ?_ hvote (hn.mirrors.upToDate hidx hterm hok)
      rw [State.bump_term]
      exact hl
    have hsteps := hbump.steps.tail hgrant
    obtain ⟨-, hext, -⟩ := State.Steps.spec hsteps hinv
    refine ⟨_, hsteps, hn.advance hinv hsteps ?_ (fun hl => ?_)
      (s.node.seeTerm_commitIndex args.term).ge ?_ ?_ rfl rfl (fun _ _ => id), ?_, fun T x => ?_⟩
    · exact ⟨hm.term, hm.log, hm.first_le, hm.commit_le,
        hm.commit.mono (hgrant.ext (hinv.step hbump)) le_rfl⟩
    · obtain ⟨hl, heq⟩ := hlead hl
      have hl' := hl.mono hext rfl
      rw [heq]
      exact ⟨hl'.led, hl'.next, hl'.matched⟩
    · exact Node.lastApplied_of_held (s.node.seeTerm_held args.term)
    · exact Node.lastSnapshot_of_held (s.node.seeTerm_held args.term)
    · intro o ho
      rw [List.mem_singleton.1 ho]
      trivial
    · rw [State.grant_vote hvote T x, State.bump_term]
      simp [votes, Output.vote, State.bump]

/-- The `wonElection` branch: the votes that were counted elect the node. -/
theorem Simulated.wonElection {h : List (String × Output)} (hn : NodeSim members g i s)
    (hinv : GhostInv members g) (hel : Elects members s h i) (hnd : members.Nodup)
    (hi : i ∈ members) (hvoted : ∀ v T x, (T, x) ∈ votes (sentBy v h) → g.vote v T = some x)
    {e : Election} (hr : s.run = .election e) (hw : e.wonElection = true)
    (hown : s.node.currentTerm = e.args.term) (r : RunLoop) :
    ∃ g', Simulated members g i { s with node := s.node.becomeLeader, run := r } [] g' := by
  have hb := hel.ballot e (by rw [hr]; rfl)
  obtain ⟨V, hV, hall⟩ := hb.elected hnd hi hw
  have hself := hvoted i _ i hb.self
  rw [← hown, ← hn.mirrors.term] at hall hself
  have hvotes : ∀ v ∈ V, g.vote v (g.term i) = some i := fun v hv => hvoted v _ i (hall v hv)
  obtain ⟨-, l, hl⟩ := hinv.voted i _ i hself
  cases hled : g.led (g.term i) with
  | none =>
    have hwin : g.Step LogEntry.term members.toFinset i (g.win i) := .win i l hl hled V hV hvotes
    have hm : Mirrors members (g.win i) i s.node.becomeLeader :=
      hn.mirrors.mono (hwin.ext hinv) hn.mirrors.term rfl rfl rfl
    refine ⟨g.win i, hwin.steps, hn.advance hinv hwin.steps hm (fun _ => ?_) le_rfl rfl rfl rfl rfl
      fun _ _ => id, nofun, fun T x => by simp [votes, State.win]⟩
    refine LeadsTerm.becomeLeader (hn.mirrors.mono (hwin.ext hinv) hn.mirrors.term rfl rfl rfl) ?_
      hnd hel.peer hel.id
    rw [← hn.mirrors.term]
    exact Function.update_self _ _ _
  | some j =>
    -- somebody leads the term already: the same majority voted for both
    obtain ⟨W, hW, hall'⟩ := hinv.elected _ j hled
    obtain ⟨v, hvV, hvW⟩ := hV.exists_mem_mem hW
    obtain rfl : i = j := Option.some.inj ((hvotes v hvV).symm.trans (hall' v hvW))
    refine ⟨g, .quiet (hn.keep rfl rfl rfl (fun _ => ?_) rfl rfl fun _ _ => id)⟩
    refine LeadsTerm.becomeLeader hn.mirrors ?_ hnd hel.peer hel.id
    rw [← hn.mirrors.term]
    exact hled

/-- A replicator that does not ship a snapshot now leaves those that do. -/
theorem waiting_of_update {f : String → Replicator} {p : String} {r : Replicator}
    (hr : ∀ a, r ≠ .waiting (.install a)) (q : String) (a : InstallSnapshotArgs)
    (hq : Function.update f p r q = .waiting (.install a)) : f q = .waiting (.install a) := by
  by_cases hqp : q = p
  · subst hqp
    rw [Function.update_self] at hq
    exact absurd hq (hr a)
  · rwa [Function.update_of_ne hqp] at hq

/-- The second section of `sendAppend`: step down, record a match, back off, or nothing. -/
theorem Simulated.appendReply (hn : NodeSim members g i s) (hinv : GhostInv members g)
    (hpeer : s.node.peer = members.erase i) (hnd : members.Nodup) (hi : i ∈ members) {p : String}
    {args : AppendEntriesArgs} {reply : AppendEntriesReply}
    (hreply : Sent members g p (.appendEntriesReply args reply)) :
    ∃ g', Simulated members g i
      { s with node := s.node.handleAppendReply p args reply,
               replicators := Function.update s.replicators p .idle } [] g' := by
  have hrep := fun q a => waiting_of_update (f := s.replicators) (p := p) (r := .idle) nofun q a
  unfold Node.handleAppendReply
  split_ifs with ht hstale hsucc
  · exact ⟨_, .bump hn hinv ht.le rfl rfl rfl nofun rfl rfl hrep nofun rfl⟩
  · exact ⟨g, .quiet (hn.keep rfl rfl rfl hn.leads rfl rfl hrep)⟩
  · simp only [not_or, not_not] at hstale
    have hl := hn.leads hstale.1
    have hnew : args.prevLogIndex + args.entries.length ≤
        max (g.acked p s.node.currentTerm) s.node.commitIndex := by
      rw [hstale.2]
      exact (hreply hsucc).trans (le_max_left _ _)
    obtain ⟨hm, hl, hc⟩ := hn.mirrors.recordMatch hl hinv hnd hi hpeer hnew
    exact ⟨g, .quiet (hn.advance hinv .refl hm (fun _ => hl) hc rfl rfl rfl rfl hrep)⟩
  · simp only [not_or, not_not] at hstale
    have hl := hn.leads hstale.1
    refine ⟨g, .quiet (hn.keep rfl rfl rfl (fun _ => ⟨hl.led, fun q => ?_, hl.matched⟩) rfl rfl
      hrep)⟩
    refine PeerMap.get_ite_insert_le _ (fun _ => (g.log i).length + 1) ?_ (hl.next q)
    exact (Nat.sub_le _ _).trans (hl.next p)

theorem Simulated.installReply (hn : NodeSim members g i s) (hinv : GhostInv members g)
    (hpeer : s.node.peer = members.erase i) (hnd : members.Nodup) (hi : i ∈ members) {p : String}
    {args : InstallSnapshotArgs} {reply : InstallSnapshotReply}
    (hw : s.replicators p = .waiting (.install args)) :
    ∃ g', Simulated members g i
      { s with node := s.node.handleInstallReply p args reply,
               replicators := Function.update s.replicators p .idle } [] g' := by
  have hrep := fun q a => waiting_of_update (f := s.replicators) (p := p) (r := .idle) nofun q a
  unfold Node.handleInstallReply
  split_ifs with ht hstale
  · exact ⟨_, .bump hn hinv ht.le rfl rfl rfl nofun rfl rfl hrep nofun rfl⟩
  · exact ⟨g, .quiet (hn.keep rfl rfl rfl hn.leads rfl rfl hrep)⟩
  · simp only [not_or, not_not] at hstale
    have hl := hn.leads hstale.2.1
    have hnew := (hn.snapshots.shipped p args hw).trans
      (le_max_right (g.acked p s.node.currentTerm) _)
    obtain ⟨hm, hl, hc⟩ := hn.mirrors.recordMatch hl hinv hnd hi hpeer hnew
    exact ⟨g, .quiet (hn.advance hinv .refl hm (fun _ => hl) hc rfl rfl rfl rfl hrep)⟩

/-- The first section of `sendAppend`. -/
theorem Simulated.sendAppend (hn : NodeSim members g i s) (hinv : GhostInv members g) {p : String}
    {n : Node} {args : AppendEntriesArgs} (hlead : s.node.state = .leader)
    (hsend : s.node.sendAppend p = (n, .append args)) :
    Simulated members g i
      { s with node := n,
               replicators := Function.update s.replicators p (.waiting (.append args)) }
      [.appendEntries p args] g := by
  have hl := hn.leads hlead
  refine .stutter (hn.keep (Node.sendAppend_vote hsend).1 (Node.sendAppend_held hsend)
    (Node.sendAppend_commitIndex hsend) (fun _ => hl.sendAppend hn.mirrors hsend) rfl rfl
    (waiting_of_update nofun)) (fun o ho => ?_) rfl
  rw [List.mem_singleton.1 ho]
  exact ⟨g.log i, hl.carries hn.mirrors hinv hsend⟩

/-- The first section of `sendInstallSnapshot`. -/
theorem Simulated.sendInstallSnapshot (hn : NodeSim members g i s) {p : String}
    {args : InstallSnapshotArgs} (hsend : s.node.sendInstallSnapshot = some args) :
    Simulated members g i
      { s with replicators := Function.update s.replicators p (.waiting (.install args)) }
      [.installSnapshot p args] g := by
  obtain ⟨hlead, snap, hsnap, rfl⟩ := s.node.sendInstallSnapshot_spec hsend
  obtain ⟨hle, hcov⟩ := hn.snapshots.cached snap hsnap
  refine .stutter ⟨hn.mirrors, hn.leads, hn.applies.mono (.refl g) le_rfl rfl rfl,
    hn.snapshots.taking, hn.snapshots.cached, fun q a hq => ?_⟩ (fun o ho => ?_) rfl
  · by_cases hqp : q = p
    · subst hqp
      have heq := (Function.update_self q _ s.replicators).symm.trans hq
      simp only [Replicator.waiting.injEq, Call.install.injEq] at heq
      rw [← heq]
      exact hle
    · exact hn.snapshots.shipped q a ((Function.update_of_ne hqp _ _).symm.trans hq)
  · rw [List.mem_singleton.1 ho]
    refine ⟨?_, hcov⟩
    show g.led s.node.currentTerm ≠ none
    rw [(hn.leads hlead).led]
    exact nofun

/-- `HandleAppendEntries`: a stale request, one that does not fit, or one that is accepted. -/
theorem Simulated.handleAppendEntries (hn : NodeSim members g i s) (hinv : GhostInv members g)
    {args : AppendEntriesArgs} {L : List LogEntry} (hc : Carries members g args L) :
    ∃ g', Simulated members g i { s with node := (s.node.handleAppendEntries args).1 }
      [.appendEntriesReply args (s.node.handleAppendEntries args).2] g' := by
  rcases s.node.handleAppendEntries_cases args with ⟨-, he⟩ | ⟨ht, -, he⟩ | ⟨ht, hcons, he⟩
  · rw [he]
    refine ⟨g, .stutter (hn.keep rfl rfl rfl hn.leads rfl rfl fun _ _ => id) (fun o ho => ?_) rfl⟩
    rw [List.mem_singleton.1 ho]
    exact nofun
  · rw [he]
    refine ⟨_, .bump hn hinv ht (s.node.recognizeLeader_currentTerm ht)
      (s.node.recognizeLeader_held args.term) (s.node.recognizeLeader_commitIndex args.term)
      (fun hl => ?_) rfl rfl (fun _ _ => id) (fun o ho => ?_) rfl⟩
    · cases (s.node.recognizeLeader_state args.term).symm.trans hl
    · rw [List.mem_singleton.1 ho]
      exact nofun
  · obtain ⟨hsteps, hm, hle⟩ := hn.mirrors.handleAppendEntries hinv hc ht hcons
    have hla := Node.lastApplied_of_held (s.node.recognizeLeader_held args.term)
    have hls := Node.lastSnapshot_of_held (s.node.recognizeLeader_held args.term)
    refine ⟨_, hsteps, hn.advance hinv hsteps hm (fun hl => ?_) hle ?_ ?_ rfl rfl fun _ _ => id,
      fun o ho => ?_, fun T x => by simp [votes, Output.vote, State.acceptPrefix, State.bump]⟩
    · rw [he] at hl
      cases (s.node.recognizeLeader_state args.term).symm.trans hl
    · rw [he]
      exact hla
    · rw [he]
      exact hls
    · rw [List.mem_singleton.1 ho]
      exact fun _ => hc.acked

/-- The locked section of `HandleInstallSnapshot`, for a snapshot that is installed. -/
theorem Simulated.install (hn : NodeSim members g i s) (hinv : GhostInv members g)
    {args : InstallSnapshotArgs} {c : String} {dst : String}
    (hsent : Sent members g c (.installSnapshot dst args)) (ht : s.node.currentTerm ≤ args.term)
    (hnew : Node.Newer s.node.logEntries args)
    (hkeep : KeepsTail s.node (.handleInstallSnapshot args))
    (is : List (InstallSnapshotArgs × InstallSnapshotReply)) :
    ∃ g', Simulated members g i { s with node := s.node.installed args, installs := is } [] g' := by
  obtain ⟨hled, hcov⟩ := hsent
  obtain ⟨S, hsteps, hm, hle⟩ := hn.mirrors.installed hinv hled hcov ht hnew hkeep
  obtain ⟨-, hext, -⟩ := State.Steps.spec hsteps hinv
  have hcur : (s.node.installed args).currentTerm = args.term :=
    s.node.recognizeLeader_currentTerm ht
  have hterm : s.node.currentTerm ≤ (s.node.installed args).currentTerm := hcur ▸ ht
  refine ⟨_, hsteps, ⟨hm, fun hl => ?_, ⟨le_rfl, fun idx hx => ?_, fun idx e w hx he => ?_⟩,
    ⟨fun rs hx => ?_, fun rs hx => ?_, fun p a hx => ?_⟩⟩, nofun,
    fun T x => by simp [votes, State.install, State.bump]⟩
  · cases (s.node.recognizeLeader_state args.term).symm.trans hl
  · exact (hn.applies.inFlight_le idx hx).trans hle
  · exact (hn.applies.read idx e w hx he).mono hext
  · exact (hn.snapshots.taking rs hx).mono hext hterm hle
  · cases hx
    refine ⟨le_rfl, ?_⟩
    show Covers members _ (s.node.installed args).currentTerm _ _
    rw [hcur]
    exact hcov.mono hext le_rfl
  · exact (hn.snapshots.shipped p a hx).trans hle

/-- `Propose`. -/
theorem Simulated.propose (hn : NodeSim members g i s) (hinv : GhostInv members g)
    (hpeer : s.node.peer = members.erase i) (hid : s.node.id = i) (hnd : members.Nodup)
    (hi : i ∈ members) {cmd : Option Bytes} {ch : ℕ} {n : Node} {e : LogEntry}
    (hp : s.node.propose cmd ch = some (n, e)) (k : ℕ) :
    Simulated members g i { s with node := n, chans := k } [.proposed ch e] (g.propose i e) := by
  obtain ⟨hlead, -, -, -, -, hla⟩ := Node.propose_spec hp
  obtain ⟨hstep, hm, hl, hc⟩ :=
    hn.mirrors.propose (hn.leads hlead) hinv hnd hi hpeer hid hp
  refine ⟨hstep.steps, hn.advance hinv hstep.steps hm (fun _ => hl) hc hla
    (Node.propose_command hp).2 rfl rfl fun _ _ => id, fun o ho => ?_,
    fun T x => by simp [votes, Output.vote, State.propose]⟩
  rw [List.mem_singleton.1 ho]
  trivial

/-- The entry the apply loop reads is committed, or is the placeholder, which has no command. -/
theorem Mirrors.chosen {n : Node} (hm : Mirrors members g i n) {idx : ℕ} {e : LogEntry}
    (hc : idx ≤ n.commitIndex) (he : entryAt n.logEntries idx = some e)
    (hcmd : e.command.isSome = true) : Chosen members g e := by
  have hidx := hm.log.wellFormed.index_of_entryAt he
  rcases Nat.lt_or_eq_of_le (entryAt_bounds he).1 with hlt | heq
  · have hpos : 0 < idx := Nat.zero_lt_of_lt hlt
    refine ⟨n.currentTerm, (g.log i).take n.commitIndex, hm.commit, hidx ▸ hpos, ?_⟩
    rw [hidx, List.getElem?_take, if_pos (by omega), ← hm.log.entryAt_eq idx hlt, he]
  · obtain ⟨x, hx, hnone, -⟩ := hm.log.placeholder
    rw [heq, he] at hx
    rw [Option.some.inj hx, hnone] at hcmd
    cases hcmd

/-- A round of the apply loop. -/
theorem NodeSim.applyStep (hn : NodeSim members g i s) {k : ℕ} (hk : k ≤ s.node.commitIndex)
    {ws : AList (fun _ : ℕ => ℕ)} {b : Bool} {a : ApplyLoop}
    (hfly : ∀ idx, a.inFlight = some idx → idx ≤ s.node.commitIndex)
    (hread : ∀ idx e w, a = .read idx e w → e.command.isSome = true → Chosen members g e) :
    NodeSim members g i { s with
      node := { s.node with lastApplied := k, commitWaits := ws, applyCh := b }, apply := a } := by
  refine ⟨hn.mirrors.mono (.refl g) hn.mirrors.term rfl rfl rfl, fun hl => ?_, ⟨hk, hfly, hread⟩,
    hn.snapshots.mono (.refl g) le_rfl le_rfl rfl rfl fun _ _ => id⟩
  exact ⟨(hn.leads hl).led, (hn.leads hl).next, (hn.leads hl).matched⟩

/-- A step of the apply loop that leaves it without an entry. -/
theorem NodeSim.applyPause (hn : NodeSim members g i s) {k : ℕ} (hk : k ≤ s.node.commitIndex)
    {ws : AList (fun _ : ℕ => ℕ)} {b : Bool} {a : ApplyLoop} (ha : a.inFlight = none) :
    NodeSim members g i { s with
      node := { s.node with lastApplied := k, commitWaits := ws, applyCh := b }, apply := a } := by
  refine hn.applyStep hk (fun idx hx => ?_) fun idx e w hx => ?_
  · cases ha.symm.trans hx
  · rw [hx] at ha
    cases ha

/-- A step of `TakeSnapshot` that leaves the node. -/
theorem NodeSim.snapshotStep (hn : NodeSim members g i s) {store : Option RaftSnapshot}
    {l : SnapshotLoop} (ht : ∀ rs, l.taking = some rs → SnapshotOf members g s.node rs) :
    NodeSim members g i { s with snapshot := l, store := store } :=
  ⟨hn.mirrors, hn.leads, hn.applies.mono (.refl g) le_rfl rfl rfl, ht, hn.snapshots.cached,
    hn.snapshots.shipped⟩

/-- The second section of `TakeSnapshot`. -/
theorem NodeSim.finishSnapshot (hn : NodeSim members g i s) (hinv : GhostInv members g)
    {rs : RaftSnapshot} (hrs : SnapshotOf members g s.node rs) :
    NodeSim members g i { s with node := s.node.finishSnapshot rs, snapshot := .idle } := by
  refine ⟨hn.mirrors.finishSnapshot hinv hrs.1 hrs.2, fun hl => ?_,
    hn.applies.mono (.refl g) le_rfl rfl rfl, nofun, fun rs' hx => ?_, hn.snapshots.shipped⟩
  · exact ⟨(hn.leads hl).led, (hn.leads hl).next, (hn.leads hl).matched⟩
  · cases hx
    exact hrs

end Steps

/-! ## Every step of a member -/

/-- The steps of a cluster that elects soundly and in which no snapshot discards entries it does
not conflict with. -/
def ReplicatesSoundly (members : List String) (c : Cluster) (h : List (String × Output))
    (x : String × Event) : Prop :=
  ElectsSoundly members c h x ∧ KeepsTail (c x.1).node x.2

instance (members : List String) (c : Cluster) (h : List (String × Output))
    (x : String × Event) : Decidable (ReplicatesSoundly members c h x) :=
  inferInstanceAs (Decidable (_ ∧ _))

section Member

variable {members : List String} {c : Cluster} {h : List (String × Output)} {g : Ghost}
  {i : String} {ev : Event} {s' : Server} {out : List Output}

/-- **Each step of a member is some steps of the protocol.** -/
theorem Sim.member (hsim : Sim members c h g) (hel : Elects members (c i) h i)
    (hnd : members.Nodup) (hok : ReplicatesSoundly members c h (i, ev))
    (hs : Server.Step (c i) ev s' out) : ∃ g', Simulated members g i s' out g' := by
  obtain ⟨⟨⟨hi, hdel⟩, hown, hrev⟩, hkeep⟩ := hok
  have hn := hsim.node i
  have hinv := hsim.inv
  have hsame : ∀ s' : Server, s'.node = (c i).node → s'.apply = (c i).apply →
      s'.snapshot = (c i).snapshot →
      (∀ p args, s'.replicators p = .waiting (.install args) →
        (c i).replicators p = .waiting (.install args)) → NodeSim members g i s' := by
    intro s' hnode ha hsn hrep
    refine hn.keep (congrArg _ hnode) (congrArg _ hnode) (congrArg _ hnode) ?_ ha hsn hrep
    rw [hnode]
    exact hn.leads
  cases hs with
  | dispatch | voteCounted | voteDenied | voteError | steppedDown | electionTimeout | electionDone
  | sendNothing =>
    exact ⟨g, .quiet (hsame _ rfl rfl rfl fun _ _ => id)⟩
  | resetTimer | drainStepDown =>
    refine ⟨g, .quiet (hn.keep rfl rfl rfl (fun hl => ?_) rfl rfl fun _ _ => id)⟩
    exact ⟨(hn.leads hl).led, (hn.leads hl).next, (hn.leads hl).matched⟩
  | followerTimeout | leaderStepDown =>
    exact ⟨g, .quiet (hn.keep rfl rfl rfl nofun rfl rfl fun _ _ => id)⟩
  | startElection hr =>
    have hne : (c i).node.state ≠ .leader := by
      intro hl
      have := hel.past hl
      rw [hr] at this
      cases this
    exact ⟨_, .startElection hn hinv hel.id hne _⟩
  | voteHigherTerm p reply e hr hp ht =>
    exact ⟨_, .bump hn hinv ht.le rfl rfl rfl nofun rfl rfl (fun _ _ => id) (by simp) rfl⟩
  | wonElection e hr hw =>
    have ht : (c i).node.currentTerm = e.args.term := hown e (by rw [hr]; rfl)
    exact Simulated.wonElection hn hinv hel hnd hi (fun v T x => (hsim.voted v T x).2) hr hw ht _
  | abortPendingProposals hr hp =>
    refine ⟨g, .stutter (hn.advance hinv .refl (hn.mirrors.mono (.refl g) hn.mirrors.term rfl rfl
      rfl) (fun hl => ?_) le_rfl rfl rfl rfl rfl fun _ _ => id) (fun o ho => ?_) ?_⟩
    · exact ⟨(hn.leads hl).led, (hn.leads hl).next, (hn.leads hl).matched⟩
    · obtain ⟨r, -, rfl⟩ := List.mem_map.1 ho
      trivial
    · exact votes_map_result _
  | sendShip p | shipNothing p | rpcError p =>
    exact ⟨g, .quiet (hsame _ rfl rfl rfl (waiting_of_update (by simp)))⟩
  | sendAppend p n args hr hidle hp hl hsend => exact ⟨g, .sendAppend hn hinv hl hsend⟩
  | appendReply p args reply hw =>
    exact Simulated.appendReply hn hinv hel.peer hnd hi (hsim.sent p _ hdel)
  | sendInstallSnapshot p args hidle hsend => exact ⟨g, .sendInstallSnapshot hn hsend⟩
  | installReply p args reply hw => exact Simulated.installReply hn hinv hel.peer hnd hi hw
  | handleRequestVote args =>
    obtain ⟨⟨j, o⟩, hm, rfl⟩ := hdel
    exact Simulated.handleRequestVote hn hinv hel (fun T x => (hsim.voted i T x).1)
      (hsim.sent j _ hm) hrev
  | handleAppendEntries args =>
    obtain ⟨⟨j, o⟩, hm, rfl⟩ := hdel
    obtain ⟨L, hL⟩ := hsim.sent j _ hm
    exact Simulated.handleAppendEntries hn hinv hL
  | installStale args ht =>
    exact ⟨g, .stutter hn (by simp [Sent]) rfl⟩
  | installOld args ht ho =>
    refine ⟨_, .bump hn hinv ht ((c i).node.recognizeLeader_currentTerm ht)
      ((c i).node.recognizeLeader_held args.term) ((c i).node.recognizeLeader_commitIndex args.term)
      (fun hl => ?_) rfl rfl (fun _ _ => id) (by simp [Sent]) rfl⟩
    cases ((c i).node.recognizeLeader_state args.term).symm.trans hl
  | install args ht ho =>
    obtain ⟨⟨j, o⟩, hm, rfl⟩ := hdel
    exact Simulated.install hn hinv (hsim.sent j _ hm) ht ho hkeep _
  | finishInstall | finishEmptyInstall =>
    exact ⟨g, .stutter (hsame _ rfl rfl rfl fun _ _ => id) (by simp [Sent]) rfl⟩
  | propose cmd n entry hp => exact ⟨_, .propose hn hinv hel.peer hel.id hnd hi hp _⟩
  | applyWake ha =>
    exact ⟨g, .quiet (hn.applyPause hn.applies.applied_le rfl)⟩
  | applyIdle ha =>
    exact ⟨g, .quiet (hn.applyPause hn.applies.applied_le rfl)⟩
  | applySkip ha hf hc hnone =>
    exact ⟨g, .quiet (hn.applyPause hn.mirrors.first_le rfl)⟩
  | applyRead entry ha hc he =>
    refine ⟨g, .quiet (hn.applyStep hn.applies.applied_le (fun idx hx => ?_)
      fun idx e w hx hcmd => ?_)⟩
    · cases hx
      exact hc
    · cases hx
      exact hn.mirrors.chosen hc he hcmd
  | applyCall idx entry waiter ha =>
    refine ⟨g, .stutter (hn.applyStep hn.applies.applied_le (fun j hx => ?_) (by simp)) ?_ ?_⟩
    · cases hx
      exact hn.applies.inFlight_le idx (by rw [ha]; rfl)
    · intro o ho
      split_ifs at ho with hcmd
      · rw [List.mem_singleton.1 ho]
        exact hn.applies.read idx entry waiter ha hcmd.2
      · cases ho
    · split_ifs <;> rfl
  | applyWrite idx entry waiter ha =>
    have hle := hn.applies.inFlight_le idx (by rw [ha]; rfl)
    exact ⟨g, .quiet (hn.applyPause hle rfl)⟩
  | applyNotify entry waiter ha =>
    refine ⟨g, .stutter (hn.applyPause hn.applies.applied_le rfl) ?_ ?_⟩
    · cases waiter <;> simp [Sent]
    · cases waiter <;> rfl
  | beginSnapshot rs hs hb =>
    refine ⟨g, .quiet (hn.snapshotStep fun rs' hx => ?_)⟩
    cases hx
    unfold Node.beginSnapshot at hb
    split_ifs at hb with hcond
    cases hb
    have hfirst := Nat.lt_of_not_le fun hle => hcond (.inr hle)
    exact ⟨hn.applies.applied_le, hn.mirrors.covers hfirst.le hn.applies.applied_le⟩
  | serialize rs d hs =>
    refine ⟨g, .quiet (hn.snapshotStep fun rs' hx => ?_)⟩
    cases hx
    exact hn.snapshots.taking rs (by rw [hs]; rfl)
  | saveSnapshot rs hs =>
    refine ⟨g, .quiet (hn.snapshotStep fun rs' hx => ?_)⟩
    cases hx
    exact hn.snapshots.taking rs (by rw [hs]; rfl)
  | serializeError | saveError =>
    exact ⟨g, .quiet (hn.snapshotStep (by simp [SnapshotLoop.taking]))⟩
  | finishSnapshot rs hs =>
    have hrs := hn.snapshots.taking rs (by rw [hs]; rfl)
    exact ⟨g, .quiet (hn.finishSnapshot hinv hrs)⟩
  | restart => exact hdel.elim

end Member

/-! ## Runs -/

section Runs

variable {members : List String} {sm : String → StateMachineKind} {c c' : Cluster}
  {h out : List (String × Output)} {g : Ghost}

theorem sim_boot (members : List String) (sm : String → StateMachineKind) :
    Sim members (Cluster.boot members sm) [] State.init where
  inv := State.inv_init _ _
  node _ := ⟨⟨rfl, window_dummy, le_rfl, le_rfl, .inl rfl⟩, nofun, ⟨le_rfl, nofun, nofun⟩,
    ⟨nofun, nofun, nofun⟩⟩
  sent := nofun
  voted _ _ _ := ⟨nofun, nofun⟩

theorem Sim.step (hsim : Sim members c h g) (hel : ClusterElects members c h)
    (hnd : members.Nodup) {x : String × Event} (hok : ReplicatesSoundly members c h x)
    (hs : c.step x = some (c', out)) : ∃ g', Sim members c' (h ++ out) g' ∧ g.Ext g' := by
  obtain ⟨i, ev⟩ := x
  obtain ⟨s', o, hstep, rfl, rfl⟩ := Cluster.step_eq hs
  obtain ⟨g', hg⟩ := hsim.member (hel.member i) hnd hok hstep
  obtain ⟨hinv, hext, hframe⟩ := State.Steps.spec hg.steps hsim.inv
  refine ⟨g', ⟨hinv, fun j => ?_, fun j y hy => ?_, fun v T x => ?_⟩, hext⟩
  · by_cases hj : j = i
    · subst hj
      rw [Function.update_self]
      exact hg.node
    · obtain ⟨ht, hl, -⟩ := hframe j hj
      rw [Function.update_of_ne hj]
      exact (hsim.node j).frame hext ht hl
  · rcases List.mem_append.1 hy with hold | hnew
    · exact (hsim.sent j y hold).mono hext
    · obtain ⟨z, hz, heq⟩ := List.mem_map.1 hnew
      obtain ⟨rfl, rfl⟩ := Prod.mk.inj heq
      exact hg.sent z hz
  · by_cases hv : v = i
    · subst hv
      rw [sentBy_append_self, votes_append, List.mem_append, hg.voted, hsim.voted]
    · rw [sentBy_append_ne hv, (hframe v hv).2.2, hsim.voted]

theorem sim_run (hnd : members.Nodup)
    (r : Run Cluster.step (ReplicatesSoundly members) (Cluster.boot members sm) [] c h) :
    ∃ g, Sim members c h g := by
  have hinv : ClusterElects members c h ∧ ∃ g, Sim members c h g := by
    refine r.invariant (I := fun c h => ClusterElects members c h ∧ ∃ g, Sim members c h g)
      ⟨⟨nofun, elects_boot members sm⟩, _, sim_boot members sm⟩ ?_
    rintro c h x c' out ⟨hel, g, hsim⟩ hok hs
    obtain ⟨g', hsim', -⟩ := hsim.step hel hnd hok hs
    exact ⟨hel.step hnd hok.1 hs, g', hsim'⟩
  exact hinv.2

/-- Two entries that are part of what the cluster committed, at one index, are equal. -/
theorem Chosen.unique (hinv : GhostInv members g) {e e' : LogEntry} (he : Chosen members g e)
    (he' : Chosen members g e') (hidx : e.index = e'.index) : e = e' := by
  obtain ⟨T, S, hS, -, hx⟩ := he
  obtain ⟨T', S', hS', -, hx'⟩ := he'
  rw [← hidx] at hx'
  obtain ⟨hlt, heq⟩ := List.getElem?_eq_some_iff.1 hx
  obtain ⟨hlt', heq'⟩ := List.getElem?_eq_some_iff.1 hx'
  rcases hinv.decided_comparable hS hS' with hp | hp
  · exact heq.symm.trans ((hp.getElem hlt).trans heq')
  · exact heq.symm.trans ((hp.getElem hlt').symm.trans heq')

/-- **State-machine safety**: in every run in which elections are sound and no snapshot discards
entries it does not conflict with, two entries handed to `Apply` at the same index, by any two
members at any two times, are the same. -/
theorem applied_agree (hnd : members.Nodup)
    (r : Run Cluster.step (ReplicatesSoundly members) (Cluster.boot members sm) [] c h)
    {i j : String} {e e' : LogEntry} (he : (i, .apply e) ∈ h) (he' : (j, .apply e') ∈ h)
    (hidx : e.index = e'.index) : e.term = e'.term ∧ e.command = e'.command := by
  obtain ⟨g, hsim⟩ := sim_run hnd r
  have heq : e = e' := Chosen.unique hsim.inv (hsim.sent i _ he) (hsim.sent j _ he') hidx
  exact ⟨congrArg LogEntry.term heq, congrArg LogEntry.command heq⟩

end Runs

/-- Where the leader `"a"` of term 1 replicates an entry to `"b"`, and both apply it. -/
theorem applied_agree_of_replication : ∃ c h,
    Run Cluster.step (ReplicatesSoundly ["a", "b", "c"])
      (Cluster.boot ["a", "b", "c"] fun _ => .plain) [] c h ∧
    (("a", .apply ⟨1, 1, some [7]⟩) ∈ h ∧ ("b", .apply ⟨1, 1, some [7]⟩) ∈ h) ∧
    ∀ i e, (i, .apply e) ∈ h → e.index = 1 → e.term = 1 ∧ e.command = some [7] := by
  obtain ⟨c, h, r, ha, hb⟩ := exists_run_of_exec Cluster.step (ReplicatesSoundly ["a", "b", "c"])
    (Cluster.boot ["a", "b", "c"] fun _ => .plain) []
    [("a", .dispatch), ("a", .followerTimeout), ("a", .dispatch), ("a", .startElection),
      ("b", .handleRequestVote ⟨1, "a", 0, 0⟩), ("a", .voteReply "b" ⟨1, true⟩),
      ("a", .wonElection), ("a", .voteError "c"), ("a", .electionDone), ("a", .dispatch),
      ("a", .drainStepDown), ("a", .propose (some [7])), ("a", .sendAppend "b"),
      ("b", .handleAppendEntries ⟨1, "a", 0, 0, [⟨1, 1, some [7]⟩], 0⟩),
      ("a", .appendReply "b" ⟨1, "a", 0, 0, [⟨1, 1, some [7]⟩], 0⟩ ⟨1, true⟩),
      ("a", .applyWake), ("a", .applyRead), ("a", .applyCall), ("a", .sendAppend "b"),
      ("b", .handleAppendEntries ⟨1, "a", 1, 1, [], 1⟩), ("b", .applyWake), ("b", .applyRead),
      ("b", .applyCall)]
    (fun _ h => ("a", .apply ⟨1, 1, some [7]⟩) ∈ h ∧ ("b", .apply ⟨1, 1, some [7]⟩) ∈ h)
    (by decide +kernel)
  exact ⟨c, h, r, ⟨ha, hb⟩, fun i e he hidx => applied_agree (by decide) r he ha hidx⟩

/-- **Two members can apply different entries at an index**: both lead term 2, and the third
member takes the second leader's entry for the first leader's, which has the same index and
term. -/
theorem applied_differ : ¬ ∀ (members : List String) (sm : String → StateMachineKind)
    (c : Cluster) (h : List (String × Output)), members.Nodup →
    Run Cluster.step (Network members) (Cluster.boot members sm) [] c h →
      ∀ i j e e', (i, .apply e) ∈ h → (j, .apply e') ∈ h → e.index = e'.index →
        e.term = e'.term ∧ e.command = e'.command := by
  intro hall
  obtain ⟨c, h, r, ha, hc⟩ := exists_run_of_exec Cluster.step (Network ["a", "b", "c"])
    (Cluster.boot ["a", "b", "c"] fun _ => .plain) []
    [("a", .dispatch), ("a", .followerTimeout), ("a", .dispatch), ("a", .startElection),
      ("b", .handleRequestVote ⟨1, "a", 0, 0⟩), ("a", .voteReply "b" ⟨1, true⟩),
      ("c", .dispatch), ("c", .followerTimeout), ("c", .dispatch), ("c", .startElection),
      ("c", .electionTimeout), ("c", .voteError "a"), ("c", .voteError "b"),
      ("c", .electionDone), ("c", .dispatch), ("c", .startElection),
      ("a", .handleRequestVote ⟨2, "c", 0, 0⟩), ("a", .wonElection), ("a", .voteError "c"),
      ("a", .electionDone), ("a", .dispatch), ("a", .drainStepDown),
      ("c", .voteReply "a" ⟨2, true⟩), ("c", .wonElection), ("c", .voteError "b"),
      ("c", .electionDone), ("c", .dispatch), ("c", .drainStepDown),
      ("a", .propose (some [7])), ("a", .sendAppend "b"),
      ("b", .handleAppendEntries ⟨2, "a", 0, 0, [⟨2, 1, some [7]⟩], 0⟩),
      ("a", .appendReply "b" ⟨2, "a", 0, 0, [⟨2, 1, some [7]⟩], 0⟩ ⟨2, true⟩),
      ("a", .applyWake), ("a", .applyRead), ("a", .applyCall),
      ("c", .propose (some [8])), ("c", .sendAppend "b"),
      ("b", .handleAppendEntries ⟨2, "c", 0, 0, [⟨2, 1, some [8]⟩], 0⟩),
      ("c", .appendReply "b" ⟨2, "c", 0, 0, [⟨2, 1, some [8]⟩], 0⟩ ⟨2, true⟩),
      ("c", .applyWake), ("c", .applyRead), ("c", .applyCall)]
    (fun _ h => ("a", .apply ⟨2, 1, some [7]⟩) ∈ h ∧ ("c", .apply ⟨2, 1, some [8]⟩) ∈ h)
    (by decide +kernel)
  exact absurd (hall _ _ c h (by decide) r "a" "c" _ _ ha hc rfl).2 (by decide)

end Driftless.Raft
