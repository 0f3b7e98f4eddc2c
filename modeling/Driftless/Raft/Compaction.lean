import Driftless.Raft.Pointers

/-!
# Compaction is invisible to the protocol

A node and the same node with its log compacted at an index that is applied, committed and in the
log (`Compacted`) answer the same calls with the same results and stay so related:
`compaction_invisible`, over any sequence of calls. An AppendEntries that reaches below that index
has to agree there with the log in its terms, as one from a leader that holds the committed
entries does: the one node checks and keeps the entries that the other one skips.

`compactLogLocked` at an index beyond the log's end moves the end of the log, and that the other
nodes do see: `compaction_seen`.
-/

namespace Driftless.Raft

/-- The log compacted at `c`, as `TakeSnapshot` compacts it. -/
def compactAt (log : List LogEntry) (c : ℕ) : List LogEntry :=
  compactLogLocked log c (termAt log c)

/-! ## The helpers on the two logs -/

section Helpers

variable {log : List LogEntry} {c : ℕ} (h : WellFormed log) (h₁ : firstIndex log ≤ c)

omit h h₁ in
theorem compactAt_of_le (hc : c ≤ firstIndex log) : compactAt log c = log := if_pos hc

omit h₁ in
theorem WellFormed.compactAt (h : WellFormed log) (c : ℕ) : WellFormed (compactAt log c) :=
  h.compactLogLocked c _

include h₁

omit h in
theorem firstIndex_compactAt : firstIndex (compactAt log c) = c :=
  (firstIndex_compactLogLocked c _).trans (max_eq_right h₁)

include h

omit h₁ in
theorem entryAt_compactAt {idx : ℕ} (hidx : c < idx) :
    entryAt (compactAt log c) idx = entryAt log idx :=
  entryAt_compactLogLocked h c _ hidx

omit h₁ in
theorem entryAt_compactAt_self (hlt : firstIndex log < c) :
    entryAt (compactAt log c) c = some ⟨termAt log c, c, none⟩ := by
  have hhead := (h.compactAt c).entryAt_firstIndex
  rwa [firstIndex_compactAt hlt.le, compactAt, headD_compactLogLocked _ hlt] at hhead

/-- The two logs have the same terms from `c` on. -/
theorem termAt_compactAt {idx : ℕ} (hidx : c ≤ idx) :
    termAt (compactAt log c) idx = termAt log idx := by
  rcases Nat.lt_or_eq_of_le hidx with hlt | rfl
  · rw [termAt_eq, termAt_eq, entryAt_compactAt h hlt]
  · rcases Nat.lt_or_eq_of_le h₁ with hlt | heq
    · exact termAt_of_entryAt (entryAt_compactAt_self h hlt)
    · rw [compactAt_of_le heq.ge]

variable (h₂ : c ≤ lastIndex log)
include h₂

omit h₁ in
theorem lastIndex_compactAt : lastIndex (compactAt log c) = lastIndex log :=
  (lastIndex_compactLogLocked h c _).trans (max_eq_left h₂)

theorem lastLogIndexAndTerm_compactAt :
    lastLogIndexAndTerm (compactAt log c) = lastLogIndexAndTerm log := by
  rw [(h.compactAt c).lastLogIndexAndTerm_eq, h.lastLogIndexAndTerm_eq,
    lastIndex_compactAt h h₂, termAt_compactAt h h₁ h₂]

theorem entriesFrom_compactAt {next : ℕ} (hnext : c < next) :
    entriesFrom (compactAt log c) next = entriesFrom log next := by
  simp only [entriesFrom, firstIndex_compactAt h₁, lastIndex_compactAt h h₂,
    if_neg (Nat.not_le.2 hnext), if_neg (Nat.not_le.2 (h₁.trans_lt hnext))]
  split_ifs with hgt
  · rfl
  · ext1 i
    have he := entryAt_compactAt h (show c < next + i by omega)
    rw [(h.compactAt c).entryAt_eq, h.entryAt_eq, firstIndex_compactAt h₁,
      if_pos (by omega), if_pos (by omega)] at he
    rw [List.getElem?_drop, List.getElem?_drop,
      show next - c + i = next + i - c by omega,
      show next - firstIndex log + i = next + i - firstIndex log by omega]
    exact he

end Helpers

/-! ## Writing into the two logs -/

section Append

variable {log log' : List LogEntry} {c idx : ℕ} {e : LogEntry}

/-- The log after writing an entry is determined. -/
theorem WrittenAt.unique {l₁ l₂ : List LogEntry} (h₁ : WrittenAt log idx e l₁)
    (h₂ : WrittenAt log idx e l₂) : l₁ = l₂ :=
  h₁.wellFormed.ext h₂.wellFormed (h₁.firstIndex_eq.trans h₂.firstIndex_eq.symm)
    fun j => (h₁.entryAt_eq j).trans (h₂.entryAt_eq j).symm

/-- Writing above `c` leaves the terms up to `c`. -/
theorem WrittenAt.termAt_eq (hw : WrittenAt log idx e log') (hc : c < idx) :
    termAt log' c = termAt log c := by
  rw [Raft.termAt_eq, Raft.termAt_eq, hw.entryAt_eq, if_pos hc]

/-- Writing above `c` and compacting at `c` commute. -/
theorem WrittenAt.compactAt (h : WellFormed log) (h₁ : firstIndex log ≤ c) (hc : c < idx)
    (hw : WrittenAt log idx e log') : WrittenAt (compactAt log c) idx e (compactAt log' c) := by
  have hf : firstIndex log' ≤ c := hw.firstIndex_eq.trans_le h₁
  rcases Nat.lt_or_eq_of_le h₁ with hlt | heq
  · refine ⟨hw.wellFormed.compactAt c, ?_, ?_, fun j => ?_⟩
    · rw [firstIndex_compactAt hf, firstIndex_compactAt h₁]
    · rw [lastIndex_compactAt hw.wellFormed (hc.le.trans_eq hw.lastIndex_eq.symm),
        hw.lastIndex_eq]
    · rcases Nat.lt_trichotomy c j with habove | rfl | hbelow
      · rw [entryAt_compactAt hw.wellFormed habove, entryAt_compactAt h habove, hw.entryAt_eq]
      · rw [if_pos hc, entryAt_compactAt_self h hlt,
          entryAt_compactAt_self hw.wellFormed (hw.firstIndex_eq.trans_lt hlt), hw.termAt_eq hc]
      · rw [entryAt_eq_none.2 (.inl (by rwa [firstIndex_compactAt hf])),
          if_pos (hbelow.trans hc), entryAt_eq_none.2 (.inl (by rwa [firstIndex_compactAt h₁]))]
  · rwa [compactAt_of_le heq.ge, compactAt_of_le (hw.firstIndex_eq.trans heq).ge]

variable (h : WellFormed log) (h₁ : firstIndex log ≤ c) (h₂ : c ≤ lastIndex log)
include h h₁ h₂

theorem compactAt_concat (he : e.index = lastIndex log + 1) :
    compactAt (log ++ [e]) c = compactAt log c ++ [e] := by
  have hl := lastIndex_compactAt h h₂
  have hw := writtenAt_concat h he
  exact (hw.compactAt h h₁ (by omega)).unique (writtenAt_concat (h.compactAt c) (by rw [hl, he]))

/-- One round of rule 4's loop: an entry at or below `c` that agrees with the log leaves both
logs, one above is written into both or into none. -/
theorem appendEntry_compactAt (he : e.index ≤ lastIndex log + 1)
    (hagree : firstIndex log < e.index → e.index ≤ c → termAt log e.index = e.term) :
    appendEntry (compactAt log c) e.index e = compactAt (appendEntry log e.index e) c ∧
      c ≤ lastIndex (appendEntry log e.index e) ∧
      (c < e.index ∨ appendEntry log e.index e = log) := by
  have hf := firstIndex_compactAt h₁
  have hl := lastIndex_compactAt h h₂
  have hcases' := appendEntry_cases (h.compactAt c) (e := e) (by omega)
  rcases appendEntry_cases h he with ⟨hk, hle, hterm⟩ | ⟨hlt, hne, hw⟩
  · rcases hcases' with ⟨hk', -, -⟩ | ⟨hlt', hne', -⟩
    · exact ⟨by rw [hk, hk'], by rwa [hk], .inr hk⟩
    · rw [termAt_compactAt h h₁ (by omega)] at hne'
      exact absurd (hterm (by omega)) (hne' (by omega))
  · have hc : c < e.index := by
      by_contra hcon
      exact hne (by omega) (hagree hlt (by omega))
    rcases hcases' with ⟨-, hle', hterm'⟩ | ⟨-, -, hw'⟩
    · rw [termAt_compactAt h h₁ hc.le] at hterm'
      exact absurd (hterm' (by omega)) (hne (by omega))
    · exact ⟨hw'.unique (hw.compactAt h h₁ hc), hc.le.trans_eq hw.lastIndex_eq.symm, .inl hc⟩

/-- **Rule 4's loop and compaction commute**, for entries that agree with the log up to `c`. -/
theorem appendEntries_compactAt {es : List LogEntry} (hes : Indexed idx es)
    (hidx : idx ≤ lastIndex log + 1)
    (hagree : ∀ e ∈ es, firstIndex log < e.index → e.index ≤ c → termAt log e.index = e.term) :
    appendEntries (compactAt log c) idx es = compactAt (appendEntries log idx es) c := by
  induction es generalizing log idx with
  | nil => rfl
  | cons e es ih =>
    obtain rfl := hes.head
    obtain ⟨heq, hlast, habove⟩ :=
      appendEntry_compactAt h h₁ h₂ hidx (hagree e List.mem_cons_self)
    have hf := firstIndex_appendEntry h hidx
    have hle := le_lastIndex_appendEntry h hidx
    show appendEntries (appendEntry (compactAt log c) e.index e) (e.index + 1) es = _
    rw [heq]
    refine ih (h.appendEntry hidx) (hf.trans_le h₁) hlast hes.tail (by omega)
      fun e' he' hlt hc => ?_
    rcases habove with habove | hsame
    · obtain ⟨k, hk⟩ := List.getElem?_of_mem he'
      have hi := hes.tail k e' hk
      omega
    · rw [hsame] at hlt ⊢
      exact hagree e' (List.mem_cons_of_mem _ he') hlt hc

end Append

/-! ## The two nodes -/

def Node.withLog (n : Node) (log : List LogEntry) : Node := { n with logEntries := log }

/-- The second node is the first with its log compacted at `c`, an index of the log that is
applied and committed. -/
structure Compacted (c : ℕ) (n n' : Node) : Prop where
  wellFormed : WellFormed n.logEntries
  first_le : firstIndex n.logEntries ≤ c
  le_last : c ≤ lastIndex n.logEntries
  le_applied : c ≤ n.lastApplied
  le_commit : c ≤ n.commitIndex
  eq_withLog : n' = n.withLog (compactAt n.logEntries c)

/-- The calls that both nodes are to answer alike. -/
inductive NodeCall
  | handleRequestVote (args : RequestVoteArgs)
  | handleAppendEntries (args : AppendEntriesArgs)
  | propose (cmd : Option Bytes) (ch : ℕ)
  | maybeAdvanceCommitLocked
  | sendAppend (peerID : String)

/-- What a call hands to the outside. -/
inductive NodeResult
  | vote (reply : RequestVoteReply)
  | append (reply : AppendEntriesReply)
  | proposed (entry : Option LogEntry)
  | committed
  | sent (action : Node.SendAction)
  deriving DecidableEq

def Node.call (n : Node) : NodeCall → Node × NodeResult
  | .handleRequestVote args => ((n.handleRequestVote args).1, .vote (n.handleRequestVote args).2)
  | .handleAppendEntries args =>
    ((n.handleAppendEntries args).1, .append (n.handleAppendEntries args).2)
  | .propose cmd ch =>
    (((n.propose cmd ch).map Prod.fst).getD n, .proposed ((n.propose cmd ch).map Prod.snd))
  | .maybeAdvanceCommitLocked => (n.maybeAdvanceCommitLocked, .committed)
  | .sendAppend p => ((n.sendAppend p).1, .sent (n.sendAppend p).2)

/-- Calls one after the other, with their results. -/
def Node.calls (n : Node) : List NodeCall → Node × List NodeResult
  | [] => (n, [])
  | k :: ks => (((n.call k).1.calls ks).1, (n.call k).2 :: ((n.call k).1.calls ks).2)

/-- An AppendEntries agrees in term with the log at its indices up to `c`, and `sendAppend` is
called for a peer whose next index is above `c`. -/
def NodeCall.Admissible (c : ℕ) (n : Node) : NodeCall → Prop
  | .handleAppendEntries args => args.WellFormed ∧
      (firstIndex n.logEntries ≤ args.prevLogIndex → args.prevLogIndex ≤ c →
        termAt n.logEntries args.prevLogIndex = args.prevLogTerm) ∧
      ∀ e ∈ args.entries, firstIndex n.logEntries < e.index → e.index ≤ c →
        termAt n.logEntries e.index = e.term
  | .sendAppend p => c < n.nextIndex.get p
  | _ => True

instance (c : ℕ) (n : Node) (k : NodeCall) : Decidable (k.Admissible c n) := by
  rcases k <;> dsimp only [NodeCall.Admissible] <;> infer_instance

/-- Each call is admissible at the node it is made on. -/
def Node.AllAdmissible (c : ℕ) (n : Node) : List NodeCall → Prop
  | [] => True
  | k :: ks => k.Admissible c n ∧ Node.AllAdmissible c (n.call k).1 ks

/-! ## One call on the two nodes -/

section WithLog

variable (n : Node) (log : List LogEntry)

@[simp] theorem Node.withLog_logEntries : (n.withLog log).logEntries = log := rfl

@[simp] theorem Node.withLog_currentTerm : (n.withLog log).currentTerm = n.currentTerm := rfl

@[simp] theorem Node.withLog_votedFor : (n.withLog log).votedFor = n.votedFor := rfl

theorem Node.seeTerm_withLog (t : ℕ) : (n.withLog log).seeTerm t = (n.seeTerm t).withLog log :=
  (apply_ite (withLog · log) (t > n.currentTerm) (n.adoptTerm t) n).symm

theorem Node.recognizeLeader_withLog (t : ℕ) :
    (n.withLog log).recognizeLeader t = (n.recognizeLeader t).withLog log := by
  by_cases ht : t > n.currentTerm ∨ n.state ≠ .follower
  · rw [recognizeLeader, recognizeLeader, if_pos ht]
    exact if_pos ht
  · rw [recognizeLeader, recognizeLeader, if_neg ht]
    exact if_neg ht

/-- The vote depends on the log only through `logOK`. -/
theorem Node.handleRequestVote_withLog (args : RequestVoteArgs)
    (hlast : lastLogIndexAndTerm log = lastLogIndexAndTerm n.logEntries) :
    (n.withLog log).handleRequestVote args =
      ((n.handleRequestVote args).1.withLog log, (n.handleRequestVote args).2) := by
  simp only [handleRequestVote, seeTerm_withLog, withLog_logEntries, withLog_currentTerm,
    withLog_votedFor, seeTerm_logEntries, LogOK, hlast]
  split_ifs <;> rfl

end WithLog

/-- `Propose` up to its call of `maybeAdvanceCommitLocked`. -/
def Node.appendProposal (n : Node) (entry : LogEntry) (ch : ℕ) : Node :=
  { n with
    logEntries := n.logEntries ++ [entry]
    matchIndex := n.matchIndex.insert n.id entry.index
    commitWaits := n.commitWaits.insert entry.index ch }

/-- The end of `Propose`: every replicator is kicked. -/
def Node.kickReplicators (n : Node) : Node :=
  { n with replicateSig := n.replicateSig.keys.foldl (fun m p => m.insert p true) n.replicateSig }

theorem Node.propose_of_leader {n : Node} (hl : n.state = .leader) (cmd : Option Bytes) (ch : ℕ) :
    n.propose cmd ch =
      some ((n.appendProposal ⟨n.currentTerm, lastIndex n.logEntries + 1, cmd⟩
        ch).maybeAdvanceCommitLocked.kickReplicators,
        ⟨n.currentTerm, lastIndex n.logEntries + 1, cmd⟩) :=
  if_neg (not_not.2 hl)

section Call

variable {c : ℕ} {n n' m : Node} (h : Compacted c n n')
include h

/-- A node with the same log that has committed and applied as much. -/
theorem Compacted.keep (hheld : m.held = n.held) (hcommit : n.commitIndex ≤ m.commitIndex) :
    Compacted c m (m.withLog (compactAt n.logEntries c)) := by
  have hlog := Node.logEntries_of_held hheld
  refine ⟨?_, ?_, ?_, ?_, h.le_commit.trans hcommit, by rw [hlog]⟩
  · rw [hlog]
    exact h.wellFormed
  · rw [hlog]
    exact h.first_le
  · rw [hlog]
    exact h.le_last
  · rw [Node.lastApplied_of_held hheld]
    exact h.le_applied

theorem Compacted.consistent_iff {args : AppendEntriesArgs}
    (hprev : firstIndex n.logEntries ≤ args.prevLogIndex → args.prevLogIndex ≤ c →
      termAt n.logEntries args.prevLogIndex = args.prevLogTerm) :
    Node.Consistent (compactAt n.logEntries c) args ↔ Node.Consistent n.logEntries args := by
  have hfirst := h.first_le
  unfold Node.Consistent
  rw [firstIndex_compactAt hfirst, lastIndex_compactAt h.wellFormed h.le_last]
  refine and_congr_right fun _ => ⟨fun hc hle => ?_, fun hc hle => ?_⟩
  · rcases Nat.le_or_ge args.prevLogIndex c with hbelow | habove
    · exact hprev hle hbelow
    · rw [← termAt_compactAt h.wellFormed hfirst habove]
      exact hc habove
  · rw [termAt_compactAt h.wellFormed hfirst hle]
    exact hc (hfirst.trans hle)

/-- The loop of `maybeAdvanceCommitLocked` never looks at or below `c`. -/
theorem Compacted.quorumIndex_eq (N : ℕ) : n'.quorumIndex N = n.quorumIndex N := by
  have hfirst := h.first_le
  have hcommit := h.le_commit
  rw [h.eq_withLog]
  induction N with
  | zero => rfl
  | succ N ih =>
    by_cases hN : N + 1 > n.commitIndex
    · have hterm := termAt_compactAt h.wellFormed hfirst (show c ≤ N + 1 by omega)
      simp only [Node.quorumIndex, Node.withLog_logEntries, firstIndex_compactAt hfirst, hterm, ih]
      rw [if_neg (show ¬ N + 1 < c by omega),
        if_neg (show ¬ N + 1 < firstIndex n.logEntries by omega)]
      rfl
    · unfold Node.quorumIndex
      rw [if_neg hN]
      exact if_neg hN

/-- Both nodes commit up to the same index. -/
theorem Compacted.maybeAdvanceCommitLocked :
    Compacted c n.maybeAdvanceCommitLocked n'.maybeAdvanceCommitLocked := by
  have hlast : lastIndex n'.logEntries = lastIndex n.logEntries := by
    rw [h.eq_withLog]
    exact lastIndex_compactAt h.wellFormed h.le_last
  have hsame : n'.maybeAdvanceCommitLocked =
      n.maybeAdvanceCommitLocked.withLog (compactAt n.logEntries c) := by
    unfold Node.maybeAdvanceCommitLocked
    rw [h.quorumIndex_eq, hlast, h.eq_withLog]
    rfl
  rw [hsame]
  exact h.keep rfl n.maybeAdvanceCommitLocked_commits.1

theorem Compacted.handleRequestVote (args : RequestVoteArgs) :
    (n'.handleRequestVote args).2 = (n.handleRequestVote args).2 ∧
      Compacted c (n.handleRequestVote args).1 (n'.handleRequestVote args).1 := by
  have hvote := n.handleRequestVote_withLog (compactAt n.logEntries c) args
    (lastLogIndexAndTerm_compactAt h.wellFormed h.first_le h.le_last)
  rw [h.eq_withLog, hvote]
  exact ⟨rfl, h.keep (n.handleRequestVote_held args) (n.handleRequestVote_commitIndex args).ge⟩

/-- Both nodes send the same request to a peer whose next index is above `c`. -/
theorem Compacted.sendAppend {p : String} (hp : c < n.nextIndex.get p) :
    (n'.sendAppend p).2 = (n.sendAppend p).2 ∧
      Compacted c (n.sendAppend p).1 (n'.sendAppend p).1 := by
  have hfirst := h.first_le
  by_cases hl : n.state = .leader
  · have hsend := n.sendAppend_of_lt hl (hfirst.trans_lt hp)
    have hsend' : n'.sendAppend p = (n', .append ⟨n.currentTerm, n.id, n.nextIndex.get p - 1,
        termAt n.logEntries (n.nextIndex.get p - 1),
        entriesFrom n.logEntries (n.nextIndex.get p), n.commitIndex⟩) := by
      rw [← termAt_compactAt h.wellFormed hfirst (by omega),
        ← entriesFrom_compactAt h.wellFormed hfirst h.le_last hp, h.eq_withLog]
      exact Node.sendAppend_of_lt _ hl
        (by rwa [Node.withLog_logEntries, firstIndex_compactAt hfirst])
    rw [hsend, hsend']
    exact ⟨rfl, h⟩
  · have hsend : n.sendAppend p = (n, .none) := if_pos hl
    have hsend' : n'.sendAppend p = (n', .none) := if_pos (by rwa [h.eq_withLog])
    rw [hsend, hsend']
    exact ⟨rfl, h⟩

theorem Compacted.appendProposal {entry : LogEntry}
    (he : entry.index = lastIndex n.logEntries + 1) (ch : ℕ) :
    Compacted c (n.appendProposal entry ch) (n'.appendProposal entry ch) := by
  have hconcat := compactAt_concat h.wellFormed h.first_le h.le_last he
  have hlast := h.le_last
  refine ⟨h.wellFormed.concat he, ?_, ?_, h.le_applied, h.le_commit, ?_⟩
  · exact (firstIndex_append h.wellFormed.ne_nil _).trans_le h.first_le
  · show c ≤ lastIndex (n.logEntries ++ [entry])
    rw [lastIndex_concat]
    omega
  · rw [h.eq_withLog]
    simp only [Node.appendProposal, Node.withLog, hconcat]

theorem Compacted.kickReplicators : Compacted c n.kickReplicators n'.kickReplicators := by
  rw [h.eq_withLog]
  exact h.keep rfl le_rfl

/-- Both nodes append the same entry. -/
theorem Compacted.propose (cmd : Option Bytes) (ch : ℕ) :
    (n'.propose cmd ch).map Prod.snd = (n.propose cmd ch).map Prod.snd ∧
      Compacted c (((n.propose cmd ch).map Prod.fst).getD n)
        (((n'.propose cmd ch).map Prod.fst).getD n') := by
  by_cases hl : n.state = .leader
  · have hl' : n'.state = .leader := by rwa [h.eq_withLog]
    have hterm : n'.currentTerm = n.currentTerm := by rw [h.eq_withLog]; rfl
    have hlast : lastIndex n'.logEntries = lastIndex n.logEntries := by
      rw [h.eq_withLog]
      exact lastIndex_compactAt h.wellFormed h.le_last
    rw [Node.propose_of_leader hl, Node.propose_of_leader hl', hterm, hlast]
    exact ⟨rfl, (h.appendProposal rfl ch).maybeAdvanceCommitLocked.kickReplicators⟩
  · have hnone : n.propose cmd ch = none := if_pos hl
    have hnone' : n'.propose cmd ch = none := if_pos (by rwa [h.eq_withLog])
    rw [hnone, hnone']
    exact ⟨rfl, h⟩

/-- **Both nodes answer an admissible AppendEntries alike.** -/
theorem Compacted.handleAppendEntries {args : AppendEntriesArgs}
    (hok : (NodeCall.handleAppendEntries args).Admissible c n) :
    (n'.handleAppendEntries args).2 = (n.handleAppendEntries args).2 ∧
      Compacted c (n.handleAppendEntries args).1 (n'.handleAppendEntries args).1 := by
  obtain ⟨hargs, hprev, hes⟩ := hok
  have hcons := h.consistent_iff hprev
  have hlog' : n'.logEntries = compactAt n.logEntries c := by rw [h.eq_withLog]; rfl
  have hterm' : n'.currentTerm = n.currentTerm := by rw [h.eq_withLog]; rfl
  have hrec : n'.recognizeLeader args.term =
      (n.recognizeLeader args.term).withLog (compactAt n.logEntries c) := by
    rw [h.eq_withLog, Node.recognizeLeader_withLog]
  rcases n.handleAppendEntries_cases args with ⟨hlt, he⟩ | ⟨hle, hno, he⟩ | ⟨hle, hyes, he⟩
  · have he' : n'.handleAppendEntries args = (n', ⟨n'.currentTerm, false⟩) :=
      if_pos (hterm' ▸ hlt)
    rw [he, he', hterm']
    exact ⟨rfl, h⟩
  · rcases n'.handleAppendEntries_cases args with ⟨hlt', -⟩ | ⟨-, -, he'⟩ | ⟨-, hyes', -⟩
    · omega
    · rw [he, he', hrec]
      exact ⟨rfl, h.keep (n.recognizeLeader_held _) (n.recognizeLeader_commitIndex _).ge⟩
    · exact absurd (hcons.1 (hlog' ▸ hyes')) hno
  · rcases n'.handleAppendEntries_cases args with ⟨hlt', -⟩ | ⟨-, hno', -⟩ | ⟨-, -, he'⟩
    · omega
    · exact absurd (hlog' ▸ hcons.2 hyes) hno'
    · have happ := appended_appendEntries h.wellFormed hargs (Nat.succ_le_succ hyes.1)
      have hcomm := appendEntries_compactAt h.wellFormed h.first_le h.le_last hargs
        (Nat.succ_le_succ hyes.1) hes
      rw [he, he', hrec, hlog', hcomm]
      refine ⟨rfl, happ.wellFormed, happ.firstIndex_eq.trans_le h.first_le, ?_, ?_, ?_, rfl⟩
      · exact lastIndex_appendEntries_of_agree h.wellFormed hargs (Nat.succ_le_succ hyes.1)
          h.le_last hes
      · exact h.le_applied.trans_eq (Node.lastApplied_of_held (n.recognizeLeader_held _)).symm
      · rw [Node.advanceCommit_commitIndex]
        exact h.le_commit.trans ((n.recognizeLeader_commitIndex _).ge.trans (le_max_left _ _))

theorem Compacted.call {k : NodeCall} (hk : k.Admissible c n) :
    (n'.call k).2 = (n.call k).2 ∧ Compacted c (n.call k).1 (n'.call k).1 := by
  cases k with
  | handleRequestVote args =>
    obtain ⟨hr, hc⟩ := h.handleRequestVote args
    exact ⟨congrArg NodeResult.vote hr, hc⟩
  | handleAppendEntries args =>
    obtain ⟨hr, hc⟩ := h.handleAppendEntries hk
    exact ⟨congrArg NodeResult.append hr, hc⟩
  | propose cmd ch =>
    obtain ⟨hr, hc⟩ := h.propose cmd ch
    exact ⟨congrArg NodeResult.proposed hr, hc⟩
  | maybeAdvanceCommitLocked => exact ⟨rfl, h.maybeAdvanceCommitLocked⟩
  | sendAppend p =>
    obtain ⟨hr, hc⟩ := h.sendAppend hk
    exact ⟨congrArg NodeResult.sent hr, hc⟩

end Call

/-- **Compaction is invisible**: under any admissible calls, one after the other, the node and the
compacted one give the same results and stay related. -/
theorem compaction_invisible {c : ℕ} {n n' : Node} (h : Compacted c n n') {ks : List NodeCall}
    (hks : n.AllAdmissible c ks) :
    (n'.calls ks).2 = (n.calls ks).2 ∧ Compacted c (n.calls ks).1 (n'.calls ks).1 := by
  induction ks generalizing n n' with
  | nil => exact ⟨rfl, h⟩
  | cons k ks ih =>
    obtain ⟨hk, hks⟩ := hks
    obtain ⟨hr, hc⟩ := h.call hk
    obtain ⟨hrs, hcs⟩ := ih hc hks
    refine ⟨?_, hcs⟩
    show (n'.call k).2 :: ((n'.call k).1.calls ks).2 = _
    rw [hr, hrs]
    rfl

/-- A leader that has applied two of its three entries. -/
def uncompactedLeader : Node :=
  { newNode "a" ["b", "c"] with
    currentTerm := 1
    votedFor := "a"
    state := .leader
    logEntries := [⟨0, 0, none⟩, ⟨1, 1, some [1]⟩, ⟨1, 2, some [2]⟩, ⟨1, 3, some [3]⟩]
    commitIndex := 2
    lastApplied := 2
    nextIndex := (∅ : PeerMap).insert "b" 3 }

/-- It sends, proposes, votes and is deposed by a leader that overwrites its third entry. -/
def leaderCalls : List NodeCall :=
  [.sendAppend "b", .propose (some [4]) 0, .maybeAdvanceCommitLocked,
    .handleRequestVote ⟨2, "c", 3, 1⟩,
    .handleAppendEntries ⟨2, "c", 1, 1, [⟨1, 2, some [2]⟩, ⟨2, 3, some [9]⟩], 3⟩]

theorem compacted_uncompactedLeader :
    Compacted 2 uncompactedLeader
      (uncompactedLeader.withLog [⟨1, 2, none⟩, ⟨1, 3, some [3]⟩]) :=
  ⟨⟨by decide, (by decide : Indexed 0 uncompactedLeader.logEntries)⟩, by decide, by decide,
    by decide, by decide, rfl⟩

theorem compaction_invisible_leaderCalls :
    uncompactedLeader.AllAdmissible 2 leaderCalls ∧
      ((uncompactedLeader.withLog [⟨1, 2, none⟩, ⟨1, 3, some [3]⟩]).calls leaderCalls).2 =
        (uncompactedLeader.calls leaderCalls).2 := by
  have hadm : uncompactedLeader.AllAdmissible 2 leaderCalls :=
    ⟨by decide +kernel, trivial, trivial, trivial, by decide +kernel, trivial⟩
  exact ⟨hadm, (compaction_invisible compacted_uncompactedLeader hadm).1⟩

/-- A node whose two applied entries another leader overwrites with one. -/
def overwrittenNode : Node :=
  let n := ((newNode "a" ["b", "c"]).handleAppendEntries
    ⟨1, "b", 0, 0, [⟨1, 1, some [7]⟩, ⟨1, 2, some [8]⟩], 2⟩).1
  ({ n with lastApplied := 2 }.handleAppendEntries ⟨2, "c", 0, 0, [⟨2, 1, some [9]⟩], 0⟩).1

/-- **Compaction beyond the end of the log is seen**: the node refuses its vote to a candidate
whose last entry is of term 1, and grants it once its log is compacted at index 2. -/
theorem compaction_seen :
    ¬ ∀ (c : ℕ) (n : Node), WellFormed n.logEntries → firstIndex n.logEntries ≤ c →
      c ≤ min n.lastApplied n.commitIndex → ∀ args,
        ((n.withLog (compactAt n.logEntries c)).handleRequestVote args).2 =
          (n.handleRequestVote args).2 := by
  intro hall
  have hwf : WellFormed overwrittenNode.logEntries :=
    ⟨by decide, (by decide : Indexed 0 overwrittenNode.logEntries)⟩
  exact absurd (hall 2 overwrittenNode hwf (by decide) (by decide) ⟨3, "b", 1, 1⟩) (by decide)

end Driftless.Raft
