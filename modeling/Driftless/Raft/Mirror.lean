import Driftless.Consensus.Protocol
import Driftless.Raft.Cluster
import Driftless.Raft.FullLog
import Driftless.Raft.Pointers

/-!
# What a node has of the protocol

The cluster runs the protocol of `Driftless.Consensus` with the nodes' ids for its nodes and whole
logs for its logs. `Mirrors` relates the log and the commit index of a node to the state of the
protocol, and `LeadsTerm` what a leader knows of its peers. Each lock section that changes them is
described here by the step of the protocol it takes: the commit rule of the leader
(`Mirrors.maybeAdvanceCommitLocked`), and what a follower does with entries
(`Mirrors.handleAppendEntries`) and with a snapshot (`Mirrors.installed`).
-/

namespace Driftless.Raft

open Consensus

/-- The state of the protocol behind a cluster. -/
abbrev Ghost := State String LogEntry

/-- `S` is part of what the cluster committed up to the term `T`. -/
abbrev Agreed (members : List String) (g : Ghost) (T : ℕ) (S : List LogEntry) : Prop :=
  g.Decided LogEntry.term members.toFinset T S

/-- The invariant of the protocol. -/
abbrev GhostInv (members : List String) (g : Ghost) : Prop := g.Inv LogEntry.term members.toFinset

/-- The log of the node `i`, up to its commit index. -/
structure Mirrors (members : List String) (g : Ghost) (i : String) (n : Node) : Prop where
  term : g.term i = n.currentTerm
  log : Window n.logEntries (g.log i)
  first_le : firstIndex n.logEntries ≤ n.commitIndex
  commit_le : n.commitIndex ≤ (g.log i).length
  commit : Agreed members g n.currentTerm ((g.log i).take n.commitIndex)

/-- What the leader `i` knows of its peers. -/
structure LeadsTerm (g : Ghost) (i : String) (n : Node) : Prop where
  led : g.led n.currentTerm = some i
  next : ∀ p, n.nextIndex.get p ≤ (g.log i).length + 1
  matched : ∀ p ∈ n.peer, n.matchIndex.get p ≤ max (g.acked p n.currentTerm) n.commitIndex

section

variable {members : List String} {g g' : Ghost} {i : String} {n n' : Node}

/-- What is agreed stays a prefix of the log of every later leader. -/
theorem Mirrors.prefix_tlog (hm : Mirrors members g i n) (hinv : GhostInv members g) {T : ℕ}
    (hT : n.currentTerm ≤ T) (hled : g.led T ≠ none) :
    (g.log i).take n.commitIndex <+: g.tlog T :=
  hinv.prefix_tlog_of_decided (hm.commit.mono (.refl g) hT) hled

/-- The steps of other nodes, and those of this one that leave its log. -/
theorem Mirrors.mono (hm : Mirrors members g i n) (hext : g.Ext g')
    (hterm : g'.term i = n'.currentTerm) (hlog : g'.log i = g.log i)
    (hn : n'.logEntries = n.logEntries) (hc : n'.commitIndex = n.commitIndex) :
    Mirrors members g' i n' := by
  have hle : n.currentTerm ≤ n'.currentTerm := by
    rw [← hm.term, ← hterm]
    exact hext.term i
  refine ⟨hterm, ?_, ?_, ?_, ?_⟩
  · rw [hn, hlog]
    exact hm.log
  · rw [hn, hc]
    exact hm.first_le
  · rw [hc, hlog]
    exact hm.commit_le
  · rw [hc, hlog]
    exact hm.commit.mono hext hle

theorem LeadsTerm.mono (hl : LeadsTerm g i n) (hext : g.Ext g') (hlog : g'.log i = g.log i) :
    LeadsTerm g' i n := by
  refine ⟨hext.led _ i hl.led, fun p => ?_, fun p hp => ?_⟩
  · rw [hlog]
    exact hl.next p
  · exact (hl.matched p hp).trans (max_le_max_right _ (hext.acked p _))

theorem LeadsTerm.log_eq (hl : LeadsTerm g i n) (hm : Mirrors members g i n)
    (hinv : GhostInv members g) : g.log i = g.tlog n.currentTerm :=
  (hinv.leader _ i hl.led).2 hm.term

end

/-! ## The commit rule of the leader -/

section Commit

variable {members : List String} {g : Ghost} {i : String} {n : Node}

/-- The replicas counted for an index are a majority of the members. -/
theorem isMajority_replicas (hnd : members.Nodup) (hi : i ∈ members)
    (hpeer : n.peer = members.erase i) {N : ℕ} (hmaj : n.majority ≤ n.replicas N) :
    IsMajority members.toFinset
      (insert i (n.peer.filter fun p => n.matchIndex.get p ≥ N).toFinset) := by
  have hnot : i ∉ (n.peer.filter fun p => n.matchIndex.get p ≥ N).toFinset := by
    rw [List.mem_toFinset, List.mem_filter, hpeer]
    exact fun hm => hnd.not_mem_erase hm.1
  have hsub : (n.peer.filter fun p => n.matchIndex.get p ≥ N).toFinset ⊆ members.toFinset := by
    intro p hp
    rw [List.mem_toFinset, List.mem_filter, hpeer] at hp
    exact List.mem_toFinset.2 (List.mem_of_mem_erase hp.1)
  have hcard : (n.peer.filter fun p => n.matchIndex.get p ≥ N).toFinset.card =
      (n.peer.filter fun p => n.matchIndex.get p ≥ N).length :=
    List.toFinset_card_of_nodup ((hpeer ▸ hnd.erase i).filter _)
  have hlen : n.peer.length + 1 = members.length := by
    rw [hpeer, List.length_erase_add_one hi]
  refine ⟨Finset.insert_subset (List.mem_toFinset.2 hi) hsub, ?_⟩
  rw [List.toFinset_card_of_nodup hnd, Finset.card_insert_of_notMem hnot, hcard]
  simp only [Node.majority, Node.replicas] at hmaj
  omega

/-- An index the leader commits ends a committed prefix. -/
theorem LeadsTerm.committed (hl : LeadsTerm g i n) (hm : Mirrors members g i n)
    (hinv : GhostInv members g) (hnd : members.Nodup) (hi : i ∈ members)
    (hpeer : n.peer = members.erase i) {N : ℕ} (hc : n.commitIndex < N)
    (hlast : N ≤ lastIndex n.logEntries) (ht : termAt n.logEntries N = n.currentTerm)
    (hmaj : n.majority ≤ n.replicas N) :
    g.Committed LogEntry.term members.toFinset ((g.log i).take N) := by
  rw [hm.log.lastIndex_eq] at hlast
  have hlog := hl.log_eq hm hinv
  have hterm : lastTerm LogEntry.term ((g.log i).take N) = n.currentTerm := by
    rw [← hm.log.termAt_eq (hm.first_le.trans hc.le) hlast, ht]
  have hlen : ((g.log i).take N).length = N := by rw [List.length_take, min_eq_left hlast]
  refine ⟨⟨?_, ?_⟩, _, isMajority_replicas hnd hi hpeer hmaj, fun v hv => ?_⟩
  · rw [← List.length_pos_iff, hlen]
    omega
  · rw [hterm, ← hlog]
    exact List.take_prefix _ _
  · rw [State.Acked, hterm, hlen]
    rcases Finset.mem_insert.1 hv with rfl | hv
    · refine hlast.trans ?_
      rw [hlog]
      exact hinv.leader_acked _ _ hl.led
    · rw [List.mem_toFinset, List.mem_filter] at hv
      have hmatch := hl.matched v hv.1
      have hge : N ≤ n.matchIndex.get v := of_decide_eq_true hv.2
      omega

/-- **The leader's commit rule is sound.** -/
theorem Mirrors.maybeAdvanceCommitLocked (hm : Mirrors members g i n) (hl : LeadsTerm g i n)
    (hinv : GhostInv members g) (hnd : members.Nodup) (hi : i ∈ members)
    (hpeer : n.peer = members.erase i) :
    Mirrors members g i n.maybeAdvanceCommitLocked ∧
      LeadsTerm g i n.maybeAdvanceCommitLocked ∧
      n.commitIndex ≤ n.maybeAdvanceCommitLocked.commitIndex := by
  rcases n.maybeAdvanceCommitLocked_cases with he | ⟨hc, hlast, hf, ht, hmaj⟩
  · refine ⟨hm.mono (.refl g) hm.term rfl rfl he, ⟨hl.led, hl.next, fun p hp => ?_⟩, he.ge⟩
    rw [he]
    exact hl.matched p hp
  · have hX := hl.committed hm hinv hnd hi hpeer hc hlast ht hmaj
    refine ⟨⟨hm.term, hm.log, hf, ?_, .inr ⟨_, hX, List.prefix_rfl, ?_⟩⟩,
      ⟨hl.led, hl.next, fun p hp => ?_⟩, hc.le⟩
    · rw [← hm.log.lastIndex_eq]
      exact hlast
    · rw [← hm.log.termAt_eq hf (hm.log.lastIndex_eq ▸ hlast)]
      exact ht.le
    · exact (hl.matched p hp).trans (max_le_max_left _ hc.le)

/-- A peer is known to hold what it accepted in this term, or what is committed anyway. -/
theorem Mirrors.recordMatch (hm : Mirrors members g i n) (hl : LeadsTerm g i n)
    (hinv : GhostInv members g) (hnd : members.Nodup) (hi : i ∈ members)
    (hpeer : n.peer = members.erase i) {p : String} {newMatch : ℕ}
    (hnew : newMatch ≤ max (g.acked p n.currentTerm) n.commitIndex) :
    Mirrors members g i (n.recordMatch p newMatch) ∧ LeadsTerm g i (n.recordMatch p newMatch) ∧
      n.commitIndex ≤ (n.recordMatch p newMatch).commitIndex := by
  have hlen : newMatch ≤ (g.log i).length := by
    have hack := hinv.acked_le p n.currentTerm
    have hcommit := hm.commit_le
    rw [← hl.log_eq hm hinv] at hack
    omega
  refine Mirrors.maybeAdvanceCommitLocked (n := { n with
    matchIndex := if newMatch > n.matchIndex.get p then
      n.matchIndex.insert p newMatch else n.matchIndex
    nextIndex := if newMatch + 1 > n.nextIndex.get p then
      n.nextIndex.insert p (newMatch + 1) else n.nextIndex })
    ⟨hm.term, hm.log, hm.first_le, hm.commit_le, hm.commit⟩
    ⟨hl.led, fun q => ?_, fun q hq => ?_⟩ hinv hnd hi hpeer
  · exact PeerMap.get_ite_insert_le _ (fun _ => (g.log i).length + 1) (Nat.succ_le_succ hlen)
      (hl.next q)
  · exact PeerMap.get_ite_insert_le _ (fun q => max (g.acked q n.currentTerm) n.commitIndex) hnew
      (hl.matched q hq)

/-- A leader's own entry extends the log of its term. -/
theorem Mirrors.propose (hm : Mirrors members g i n) (hl : LeadsTerm g i n)
    (hinv : GhostInv members g) (hnd : members.Nodup) (hi : i ∈ members)
    (hpeer : n.peer = members.erase i) (hid : n.id = i) {n' : Node} {cmd : Option Bytes} {ch : ℕ}
    {e : LogEntry} (hp : n.propose cmd ch = some (n', e)) :
    g.Step LogEntry.term members.toFinset i (g.propose i e) ∧
      Mirrors members (g.propose i e) i n' ∧ LeadsTerm (g.propose i e) i n' ∧
      n.commitIndex ≤ n'.commitIndex := by
  unfold Node.propose at hp
  split_ifs at hp with hlead
  obtain ⟨rfl, rfl⟩ := Prod.mk.inj (Option.some.inj hp)
  have hled : g.led (g.term i) = some i := by
    rw [hm.term]
    exact hl.led
  have hidx : lastIndex n.logEntries + 1 = (g.log i).length + 1 := by rw [hm.log.lastIndex_eq]
  have hstep : g.Step LogEntry.term members.toFinset i
      (g.propose i ⟨n.currentTerm, lastIndex n.logEntries + 1, cmd⟩) :=
    .propose i _ hled hm.term.symm
  have hext := hstep.ext hinv
  have hnot : i ∉ n.peer := by
    rw [hpeer]
    exact hnd.not_mem_erase
  have hadv := Mirrors.maybeAdvanceCommitLocked
    (g := g.propose i ⟨n.currentTerm, lastIndex n.logEntries + 1, cmd⟩) (n := { n with
      logEntries := n.logEntries ++ [⟨n.currentTerm, lastIndex n.logEntries + 1, cmd⟩]
      matchIndex := n.matchIndex.insert n.id (lastIndex n.logEntries + 1)
      commitWaits := n.commitWaits.insert (lastIndex n.logEntries + 1) ch })
    ⟨hm.term, ?_, ?_, ?_, ?_⟩ ⟨hext.led _ i hl.led, fun p => ?_, fun p hp => ?_⟩ (hinv.step hstep)
    hnd hi hpeer
  · obtain ⟨⟨h₁, h₂, h₃, h₄, h₅⟩, ⟨h₆, h₇, h₈⟩, hle⟩ := hadv
    exact ⟨hstep, ⟨h₁, h₂, h₃, h₄, h₅⟩, ⟨h₆, h₇, h₈⟩, hle⟩
  · rw [State.propose_log]
    exact hm.log.concat hidx
  · show firstIndex (n.logEntries ++ _) ≤ n.commitIndex
    rw [firstIndex_append hm.log.wellFormed.ne_nil]
    exact hm.first_le
  · rw [State.propose_log, List.length_append]
    exact hm.commit_le.trans (Nat.le_add_right _ _)
  · rw [State.propose_log, List.take_append_of_le_length hm.commit_le]
    exact hm.commit.mono hext le_rfl
  · rw [State.propose_log, List.length_append]
    exact (hl.next p).trans (Nat.add_le_add_right (Nat.le_add_right _ _) 1)
  · have hpi : p ≠ n.id := by
      rintro rfl
      exact hnot (hid ▸ hp)
    show PeerMap.get (n.matchIndex.insert n.id _) p ≤ _
    rw [PeerMap.get_insert_ne _ _ hpi]
    exact (hl.matched p hp).trans (max_le_max_right _ (hext.acked p _))

/-- The maps a new leader starts with claim nothing. -/
theorem LeadsTerm.becomeLeader (hm : Mirrors members g i n) (hled : g.led n.currentTerm = some i)
    (hnd : members.Nodup) (hpeer : n.peer = members.erase i) (hid : n.id = i) :
    LeadsTerm g i n.becomeLeader := by
  have hnot : i ∉ n.peer := by
    rw [hpeer]
    exact hnd.not_mem_erase
  refine ⟨hled, fun p => ?_, fun p hp => ?_⟩
  · rw [← hm.log.lastIndex_eq]
    exact PeerMap.get_fillPeers_le n.peer (lastIndex n.logEntries + 1) p
  · have hpi : p ≠ n.id := by
      rintro rfl
      exact hnot (hid ▸ hp)
    show PeerMap.get ((fillPeers n.peer 0).insert n.id _) p ≤ _
    rw [PeerMap.get_insert_ne _ _ hpi]
    exact (PeerMap.get_fillPeers_le n.peer 0 p).trans (Nat.zero_le _)

end Commit

/-! ## The follower's side -/

/-- `L` is what the leader had when it sent the request. -/
structure Carries (members : List String) (g : Ghost) (args : AppendEntriesArgs)
    (L : List LogEntry) : Prop where
  led : g.led args.term ≠ none
  indexed : Indexed 1 L
  isPrefix : L <+: g.tlog args.term
  prev_le : args.prevLogIndex ≤ L.length
  entries : L.drop args.prevLogIndex = args.entries
  prevTerm : args.prevLogTerm = lastTerm LogEntry.term (L.take args.prevLogIndex)
  commit_le : args.leaderCommit ≤ L.length
  commit : Agreed members g args.term (L.take args.leaderCommit)

/-- What a leader sends is what it has. -/
theorem LeadsTerm.carries {members : List String} {g : Ghost} {i : String} {n n' : Node}
    (hl : LeadsTerm g i n) (hm : Mirrors members g i n) (hinv : GhostInv members g) {p : String}
    {args : AppendEntriesArgs} (h : n.sendAppend p = (n', .append args)) :
    Carries members g args (g.log i) := by
  obtain ⟨-, next, hlt, hnext, rfl⟩ := n.sendAppend_spec h
  have hle : next ≤ (g.log i).length + 1 := by
    rcases hnext with rfl | rfl
    · exact Nat.succ_le_succ hm.log.firstIndex_le
    · exact hl.next p
  have hprev : next - 1 ≤ (g.log i).length := by omega
  refine ⟨?_, hm.log.indexed, ?_, hprev, (hm.log.entriesFrom_eq hlt hle).symm,
    hm.log.termAt_eq (by omega) hprev, hm.commit_le, hm.commit⟩
  · show g.led n.currentTerm ≠ none
    rw [hl.led]
    exact nofun
  · show g.log i <+: g.tlog n.currentTerm
    rw [hl.log_eq hm hinv]

theorem LeadsTerm.sendAppend {members : List String} {g : Ghost} {i : String} {n n' : Node}
    (hl : LeadsTerm g i n) (hm : Mirrors members g i n) {p : String} {a : Node.SendAction}
    (h : n.sendAppend p = (n', a)) : LeadsTerm g i n' := by
  unfold Node.sendAppend at h
  split_ifs at h with h₁ h₂
  · cases h
    exact hl
  · cases h
    exact hl
  · cases h
    refine ⟨hl.led, fun q => ?_, hl.matched⟩
    refine PeerMap.get_ite_insert_le _ (fun _ => (g.log i).length + 1) ?_ (hl.next q)
    have := hm.log.firstIndex_le
    have := hl.next p
    split_ifs <;> omega

/-- A snapshot up to this index and term covers something agreed on. -/
def Covers (members : List String) (g : Ghost) (T idx term : ℕ) : Prop :=
  ∃ S, Agreed members g T S ∧ Indexed 1 S ∧ S.length = idx ∧ lastTerm LogEntry.term S = term

theorem Covers.mono {members : List String} {g g' : Ghost} {T T' idx term : ℕ}
    (h : Covers members g T idx term) (hext : g.Ext g') (hT : T ≤ T') :
    Covers members g' T' idx term := by
  obtain ⟨S, hS, hrest⟩ := h
  exact ⟨S, hS.mono hext hT, hrest⟩

section Follower

variable {members : List String} {g : Ghost} {i : String} {n n' : Node}

/-- A higher term was seen. -/
theorem Mirrors.bump (hm : Mirrors members g i n) (hinv : GhostInv members g) {t : ℕ}
    (ht : n.currentTerm ≤ t) (hterm : n'.currentTerm = t) (hn : n'.logEntries = n.logEntries)
    (hc : n'.commitIndex = n.commitIndex) :
    g.Step LogEntry.term members.toFinset i (g.bump i t) ∧
      Mirrors members (g.bump i t) i n' := by
  have hstep : g.Step LogEntry.term members.toFinset i (g.bump i t) :=
    .bump i t (hm.term.le.trans ht)
  refine ⟨hstep, hm.mono (hstep.ext hinv) ?_ rfl hn hc⟩
  rw [State.bump_term, hterm]

/-- Log matching, for the log of a node and the log of a leader. -/
theorem GhostInv.matches (hinv : GhostInv members g) {L : List LogEntry} {T : ℕ}
    (hL : L <+: g.tlog T) : Matches (g.log i) L := by
  intro k hk hkL ht
  refine (hinv.log_anchored i).eq_of_lastTerm (hinv.tlog_anchored T) (List.take_prefix _ _)
    ((List.take_prefix _ _).trans hL) ?_ ht
  rw [List.length_take, List.length_take, min_eq_left hk, min_eq_left hkL]

/-- The consistency check finds the leader's prefix in the log. -/
theorem Mirrors.take_isPrefix (hm : Mirrors members g i n) (hinv : GhostInv members g)
    {args : AppendEntriesArgs} {L : List LogEntry} (hc : Carries members g args L)
    (ht : n.currentTerm ≤ args.term) (hcons : Node.Consistent n.logEntries args) :
    L.take args.prevLogIndex <+: g.log i := by
  have hprev : args.prevLogIndex ≤ (g.log i).length := hm.log.lastIndex_eq ▸ hcons.1
  rcases Nat.lt_or_ge args.prevLogIndex (firstIndex n.logEntries) with hlt | hge
  · -- the check is skipped below the placeholder, where everything is agreed on
    have hfull : L.take args.prevLogIndex <+: (g.log i).take n.commitIndex := by
      refine List.prefix_of_prefix_length_le ((List.take_prefix _ _).trans hc.isPrefix)
        (hm.prefix_tlog hinv ht hc.led) ?_
      rw [List.length_take, List.length_take, min_eq_left hc.prev_le, min_eq_left hm.commit_le]
      exact hlt.le.trans hm.first_le
    exact hfull.trans (List.take_prefix _ _)
  · have hterm := hcons.2 hge
    rw [hm.log.termAt_eq hge hprev, hc.prevTerm] at hterm
    rw [← hinv.matches hc.isPrefix _ hprev hc.prev_le hterm]
    exact List.take_prefix _ _

/-- What an accepted request leaves: the log after rule 4, and a commit index that stays or moves
within what the leader had committed. -/
theorem Node.handleAppendEntries_of_consistent {args : AppendEntriesArgs}
    (ht : n.currentTerm ≤ args.term) (hcons : Consistent n.logEntries args) :
    (n.handleAppendEntries args).1.currentTerm = args.term ∧
      (n.handleAppendEntries args).1.logEntries =
        appendEntries n.logEntries (args.prevLogIndex + 1) args.entries ∧
      ((n.handleAppendEntries args).1.commitIndex = n.commitIndex ∨
        (n.commitIndex < (n.handleAppendEntries args).1.commitIndex ∧
          (n.handleAppendEntries args).1.commitIndex ≤ args.leaderCommit)) := by
  rcases n.handleAppendEntries_cases args with ⟨hlt, -⟩ | ⟨-, hno, -⟩ | ⟨-, -, he⟩
  · omega
  · exact absurd hcons hno
  · rw [he]
    refine ⟨n.recognizeLeader_currentTerm ht, rfl, ?_⟩
    simp only [advanceCommit, n.recognizeLeader_commitIndex]
    split_ifs <;> omega

/-- **An accepted request takes over what the leader sent.** -/
theorem Mirrors.handleAppendEntries (hm : Mirrors members g i n) (hinv : GhostInv members g)
    {args : AppendEntriesArgs} {L : List LogEntry} (hc : Carries members g args L)
    (ht : n.currentTerm ≤ args.term) (hcons : Node.Consistent n.logEntries args) :
    g.Steps LogEntry.term members.toFinset i ((g.bump i args.term).acceptPrefix i L) ∧
      Mirrors members ((g.bump i args.term).acceptPrefix i L) i (n.handleAppendEntries args).1 ∧
      n.commitIndex ≤ (n.handleAppendEntries args).1.commitIndex := by
  have hbump : g.Step LogEntry.term members.toFinset i (g.bump i args.term) :=
    .bump i _ (hm.term.le.trans ht)
  have hacc : (g.bump i args.term).Step LogEntry.term members.toFinset i
      ((g.bump i args.term).acceptPrefix i L) := by
    refine .accept i L ?_ ?_
    · rw [State.bump_term]
      exact hc.led
    · rw [State.bump_term]
      exact hc.isPrefix
  have hsteps := hbump.steps.tail hacc
  obtain ⟨-, hext, -⟩ := State.Steps.spec hsteps hinv
  have hagreed := hm.prefix_tlog hinv ht hc.led
  have hshared := prefix_accept_of_shared (List.take_prefix n.commitIndex (g.log i)) hagreed
    hc.isPrefix
  have hw : Window (appendEntries n.logEntries (args.prevLogIndex + 1) args.entries)
      (accept L (g.log i)) := by
    refine hm.log.appendEntries hc.indexed hc.entries (hm.take_isPrefix hinv hc ht hcons)
      (hinv.matches hc.isPrefix) (List.prefix_or_prefix_of_prefix ?_ hc.isPrefix)
    refine List.IsPrefix.trans ?_ hagreed
    exact List.take_prefix_take_left hm.first_le
  have hes : Indexed (args.prevLogIndex + 1) args.entries := by
    rw [← hc.entries, Nat.add_comm]
    exact hc.indexed.drop args.prevLogIndex
  have happ := appended_appendEntries hm.log.wellFormed hes (Nat.succ_le_succ hcons.1)
  obtain ⟨hterm, hlog, hcommit⟩ := Node.handleAppendEntries_of_consistent ht hcons
  -- what is committed now is a prefix of the new log, and was agreed on before
  obtain ⟨hle, hcommitted⟩ : (n.handleAppendEntries args).1.commitIndex ≤
        (accept L (g.log i)).length ∧
      Agreed members g args.term
        ((accept L (g.log i)).take (n.handleAppendEntries args).1.commitIndex) := by
    rcases hcommit with heq | ⟨-, hle⟩
    · rw [heq, take_eq_of_isPrefix hm.commit_le hshared]
      refine ⟨?_, hm.commit.mono (.refl g) ht⟩
      have := hshared.length_le
      rwa [List.length_take, min_eq_left hm.commit_le] at this
    · have hleL := hle.trans hc.commit_le
      have hpre := prefix_accept L (g.log i)
      rw [take_eq_of_isPrefix hleL ((List.take_prefix _ _).trans hpre)]
      exact ⟨hleL.trans hpre.length_le, hc.commit.of_isPrefix (List.take_prefix_take_left hle)⟩
  refine ⟨hsteps, ⟨?_, ?_, ?_, ?_, ?_⟩, by omega⟩
  · rw [hterm]
    exact State.bump_term i args.term
  · rw [hlog, State.acceptPrefix_log]
    exact hw
  · have := hm.first_le
    rw [hlog, happ.firstIndex_eq]
    omega
  · rw [State.acceptPrefix_log]
    exact hle
  · rw [State.acceptPrefix_log, hterm]
    exact hcommitted.mono hext le_rfl

/-- What was accepted is acknowledged. -/
theorem Carries.acked {args : AppendEntriesArgs} {L : List LogEntry}
    (hc : Carries members g args L) :
    args.prevLogIndex + args.entries.length ≤
      ((g.bump i args.term).acceptPrefix i L).acked i args.term := by
  have hlen : args.prevLogIndex + args.entries.length = L.length := by
    have := hc.prev_le
    rw [← hc.entries, List.length_drop]
    omega
  have hack : ((g.bump i args.term).acceptPrefix i L).acked i ((g.bump i args.term).term i) =
      max (g.acked i ((g.bump i args.term).term i)) L.length := update₂_self _
  rw [State.bump_term] at hack
  rw [hlen, hack]
  exact le_max_right _ _

/-! ## Snapshots -/

/-- A snapshot that ends with an entry of the log ends with its last one, so that installing it
discards only what conflicts with it. -/
def KeepsTail (n : Node) : Event → Prop
  | .handleInstallSnapshot args => n.currentTerm ≤ args.term → Node.Newer n.logEntries args →
      args.lastIncludedIndex ≤ lastIndex n.logEntries →
      termAt n.logEntries args.lastIncludedIndex = args.lastIncludedTerm →
        lastIndex n.logEntries ≤ args.lastIncludedIndex
  | _ => True

instance (n : Node) (ev : Event) : Decidable (KeepsTail n ev) := by
  rcases ev <;> dsimp only [KeepsTail] <;> infer_instance

/-- An agreed prefix up to the commit index is the one in the log. -/
theorem Mirrors.take_eq (hm : Mirrors members g i n) (hinv : GhostInv members g) {T : ℕ}
    {S : List LogEntry} (hS : Agreed members g T S) (hle : S.length ≤ n.commitIndex) :
    (g.log i).take S.length = S := by
  have hpre : S <+: (g.log i).take n.commitIndex := by
    rcases hinv.decided_comparable hS hm.commit with hp | hp
    · exact hp
    · have hlen := hp.length_le
      rw [List.length_take, min_eq_left hm.commit_le] at hlen
      rw [hp.eq_of_length_le (by rw [List.length_take, min_eq_left hm.commit_le]; exact hle)]
  exact (List.prefix_iff_eq_take.1 (hpre.trans (List.take_prefix _ _))).symm

/-- **An installed snapshot takes over what the leader had committed.** -/
theorem Mirrors.installed (hm : Mirrors members g i n) (hinv : GhostInv members g)
    {args : InstallSnapshotArgs} (hled : g.led args.term ≠ none)
    (hcov : Covers members g args.term args.lastIncludedIndex args.lastIncludedTerm)
    (ht : n.currentTerm ≤ args.term) (hnew : Node.Newer n.logEntries args)
    (hkeep : KeepsTail n (.handleInstallSnapshot args)) :
    ∃ S, g.Steps LogEntry.term members.toFinset i ((g.bump i args.term).install i S) ∧
      Mirrors members ((g.bump i args.term).install i S) i (n.installed args) ∧
      n.commitIndex ≤ args.lastIncludedIndex := by
  obtain ⟨S, hS, hidx, hlen, hterm⟩ := hcov
  have hbump : g.Step LogEntry.term members.toFinset i (g.bump i args.term) :=
    .bump i _ (hm.term.le.trans ht)
  have hfirst : firstIndex n.logEntries ≤ S.length := by
    unfold Node.Newer at hnew
    omega
  -- a snapshot that is a prefix of the log is all of it
  have hwhole : S <+: g.log i → (g.log i).length ≤ S.length := by
    intro hp
    have hle := hp.length_le
    rw [← hm.log.lastIndex_eq, hlen]
    refine hkeep ht hnew (by rw [hm.log.lastIndex_eq, ← hlen]; exact hle) ?_
    rw [← hlen, hm.log.termAt_eq hfirst hle, ← List.prefix_iff_eq_take.1 hp, hterm]
  have hcommit : n.commitIndex ≤ S.length := by
    by_contra hlt
    have heq := hm.take_eq hinv hS (Nat.le_of_not_le hlt)
    have := hwhole (heq ▸ List.take_prefix _ _)
    have := hm.commit_le
    omega
  have hinst : (g.bump i args.term).Step LogEntry.term members.toFinset i
      ((g.bump i args.term).install i S) := by
    refine .install i S ?_ ?_ hwhole
    · rw [State.bump_term]
      exact hled
    · rw [State.bump_term]
      exact hS.mono (hbump.ext hinv) le_rfl
  have hsteps := hbump.steps.tail hinst
  obtain ⟨-, hext, -⟩ := State.Steps.spec hsteps hinv
  have hcur : (n.installed args).currentTerm = args.term := n.recognizeLeader_currentTerm ht
  refine ⟨S, hsteps, ⟨?_, ?_, le_rfl, ?_, ?_⟩, hlen ▸ hcommit⟩
  · rw [hcur]
    exact State.bump_term i args.term
  · rw [State.install_log]
    show Window [⟨args.lastIncludedTerm, args.lastIncludedIndex, none⟩] S
    rw [← hterm, ← hlen]
    exact window_singleton hidx
  · rw [State.install_log]
    exact hlen.ge
  · rw [State.install_log, hcur]
    show Agreed members _ args.term (S.take args.lastIncludedIndex)
    rw [← hlen, List.take_length]
    exact hS.mono hext le_rfl

/-- A snapshot taken of what is committed compacts the log. -/
theorem Mirrors.finishSnapshot (hm : Mirrors members g i n) (hinv : GhostInv members g)
    {rs : RaftSnapshot} {T : ℕ} (hle : rs.lastIncludedIndex ≤ n.commitIndex)
    (hcov : Covers members g T rs.lastIncludedIndex rs.lastIncludedTerm) :
    Mirrors members g i (n.finishSnapshot rs) := by
  obtain ⟨S, hS, -, hlen, hterm⟩ := hcov
  have heq := hm.take_eq hinv hS (hlen ▸ hle)
  refine ⟨hm.term, ?_, ?_, hm.commit_le, hm.commit⟩
  · show Window (compactLogLocked n.logEntries rs.lastIncludedIndex rs.lastIncludedTerm) _
    rw [← hterm, ← heq, hlen]
    exact hm.log.compact (hle.trans hm.commit_le)
  · show firstIndex (compactLogLocked _ _ _) ≤ n.commitIndex
    rw [firstIndex_compactLogLocked]
    exact max_le hm.first_le hle

/-- What is applied can be covered by a snapshot. -/
theorem Mirrors.covers (hm : Mirrors members g i n) {k : ℕ} (hf : firstIndex n.logEntries ≤ k)
    (hk : k ≤ n.commitIndex) : Covers members g n.currentTerm k (termAt n.logEntries k) := by
  have hlen := hk.trans hm.commit_le
  refine ⟨(g.log i).take k, hm.commit.of_isPrefix (List.take_prefix_take_left hk),
    hm.log.indexed.of_isPrefix (List.take_prefix _ _), ?_, (hm.log.termAt_eq hf hlen).symm⟩
  rw [List.length_take, min_eq_left hlen]

end Follower

end Driftless.Raft
