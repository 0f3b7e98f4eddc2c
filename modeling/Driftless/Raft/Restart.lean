import Driftless.Raft.Votes

/-!
# Promises across a restart

A node promises a term in every message it sends, its vote, and the entries it acknowledges. A
crash leaves what `TakeSnapshot` last saved, and the new process starts from there. The promises
survive every run whose crashes find the persistent state in durable storage (`Durable`), with
the snapshots and votes otherwise handled soundly (`KeepsPromises`): `promises_kept`. But the code
saves that state only together with a snapshot: `promises_broken` is a crash right after a vote.
-/

namespace Driftless.Raft

/-- The term a message carries. -/
def Output.term : Output → Option ℕ
  | .requestVote args => some args.term
  | .requestVoteReply _ reply => some reply.term
  | .appendEntries _ args => some args.term
  | .appendEntriesReply _ reply => some reply.term
  | .installSnapshot _ args => some args.term
  | .installSnapshotReply _ reply => some reply.term
  | _ => none

/-! ## The entries a node has acknowledged -/

/-- An AppendEntries takes the entry `x` out of the log: it conflicts at or below its index. -/
def Overwritten (log : List LogEntry) (args : AppendEntriesArgs) (x : LogEntry) : Prop :=
  ∃ e ∈ args.entries, firstIndex log < e.index ∧ e.index ≤ x.index ∧ termAt log e.index ≠ e.term

instance (log : List LogEntry) (args : AppendEntriesArgs) (x : LogEntry) :
    Decidable (Overwritten log args x) :=
  inferInstanceAs (Decidable (∃ e ∈ args.entries, _))

/-- The entries that an accepted AppendEntries makes the node hold, above its placeholder. -/
def acknowledged (log : List LogEntry) (args : AppendEntriesArgs) : List LogEntry :=
  args.entries.filterMap fun e => if firstIndex log < e.index then entryAt log e.index else none

/-- A server with the entries it acknowledged and that were not overwritten since. -/
structure Keeper where
  server : Server
  acked : List LogEntry

namespace Keeper

/-- The acknowledged entries after an event that takes the node from `n` to `n'`. -/
def track (acked : List LogEntry) (n n' : Node) : Event → List LogEntry
  | .handleAppendEntries args =>
    if (n.handleAppendEntries args).2.success then
      (acked.filter fun x => ¬ Overwritten n.logEntries args x) ++ acknowledged n'.logEntries args
    else acked
  | _ => acked

def step (x : Keeper) (ev : Event) : Option (Keeper × List Output) :=
  match x.server.step ev with
  | some (s', out) => some (⟨s', track x.acked x.server.node s'.node ev⟩, out)
  | none => none

theorem step_eq {x x' : Keeper} {ev : Event} {out : List Output}
    (h : x.step ev = some (x', out)) :
    ∃ s', Server.Step x.server ev s' out ∧
      x' = ⟨s', track x.acked x.server.node s'.node ev⟩ := by
  unfold step at h
  split at h
  next s' out' hs =>
    cases h
    exact ⟨s', Server.step_inv hs, rfl⟩
  next => cases h

/-- The process `main` starts for the first time. -/
def boot (id : String) (peers : List String) (sm : StateMachineKind)
    (store : Option RaftSnapshot) : Keeper :=
  ⟨Server.boot id peers sm store, []⟩

end Keeper

/-! ## Crashes and other steps -/

/-- The steps of a node with crashes: requests name their candidate and carry consecutive
entries. -/
def NodeSteps (_ : Keeper) (_ : List Output) (ev : Event) : Prop :=
  NamesCandidate ev ∧ Server.CarriesIndexed ev

instance (x : Keeper) (h : List Output) (ev : Event) : Decidable (NodeSteps x h ev) :=
  inferInstanceAs (Decidable (_ ∧ _))

/-- A crash finds the persistent state of the node in durable storage: the new process has its
term and its vote, and its snapshot covers what the node has acknowledged. -/
def Durable (x : Keeper) : Event → Prop
  | .restart =>
    let s := x.server
    let n := (Server.boot s.node.id s.node.peer s.node.sm s.store).node
    n.currentTerm = s.node.currentTerm ∧ n.votedFor = s.node.votedFor ∧
      ∀ y ∈ x.acked, y.index ≤ firstIndex n.logEntries
  | _ => True

instance (x : Keeper) (ev : Event) : Decidable (Durable x ev) := by
  rcases ev <;> dsimp only [Durable] <;> infer_instance

/-- A snapshot that is installed covers what the node has acknowledged. -/
def InstallsAcknowledged (x : Keeper) : Event → Prop
  | .handleInstallSnapshot args => x.server.node.currentTerm ≤ args.term →
      Node.Newer x.server.node.logEntries args → ∀ y ∈ x.acked, y.index ≤ args.lastIncludedIndex
  | _ => True

instance (x : Keeper) (ev : Event) : Decidable (InstallsAcknowledged x ev) := by
  rcases ev <;> dsimp only [InstallsAcknowledged] <;> infer_instance

def KeepsPromises (x : Keeper) (h : List Output) (ev : Event) : Prop :=
  NodeSteps x h ev ∧ Durable x ev ∧ InstallsAcknowledged x ev ∧ NoRevote x.server.node h ev

instance (x : Keeper) (h : List Output) (ev : Event) : Decidable (KeepsPromises x h ev) :=
  inferInstanceAs (Decidable (_ ∧ _))

/-! ## Terms -/

/-- Every term the node sent, or is about to reply, is one it has reached. -/
structure TermsReached (s : Server) (h : List Output) : Prop where
  sent : ∀ o ∈ h, ∀ T ∈ o.term, T ≤ s.node.currentTerm
  due : ∀ p ∈ s.installs, p.2.term ≤ s.node.currentTerm

section Terms

variable {s s' : Server} {ev : Event} {h out : List Output}

theorem Node.handleRequestVote_term (n : Node) (args : RequestVoteArgs) :
    (n.handleRequestVote args).2.term ≤ (n.handleRequestVote args).1.currentTerm := by
  rcases n.handleRequestVote_cases args with h | ⟨-, -, -, h⟩
  · rw [h]
  · rw [h]
    exact (le_max_right _ _).trans_eq (n.seeTerm_currentTerm args.term).symm

theorem Node.handleAppendEntries_term (n : Node) (args : AppendEntriesArgs) :
    (n.handleAppendEntries args).2.term ≤ (n.handleAppendEntries args).1.currentTerm := by
  rcases n.handleAppendEntries_cases args with ⟨-, h⟩ | ⟨ht, -, h⟩ | ⟨ht, -, h⟩
  · rw [h]
  · rw [h]
    exact (n.recognizeLeader_currentTerm ht).ge
  · rw [h]
    exact (n.recognizeLeader_currentTerm ht).ge

/-- A step sends only the term it leaves the node in, or one the node has reached before. -/
theorem Server.Step.term_le (hs : Server.Step s ev s' out) (hi : TermsReached s h) :
    ∀ o ∈ out, ∀ T ∈ o.term, T ≤ s'.node.currentTerm := by
  cases hs with
  | startElection hr =>
    intro o ho T hT
    obtain rfl := List.mem_singleton.1 ho
    cases hT
    exact le_rfl
  | sendAppend p n args hr hidle hp hl hsend =>
    intro o ho T hT
    obtain rfl := List.mem_singleton.1 ho
    obtain ⟨-, next, -, -, rfl⟩ := s.node.sendAppend_spec hsend
    cases hT
    exact (Node.sendAppend_vote hsend).1.ge
  | sendInstallSnapshot p args hidle hsend =>
    intro o ho T hT
    obtain rfl := List.mem_singleton.1 ho
    obtain ⟨-, snap, -, rfl⟩ := s.node.sendInstallSnapshot_spec hsend
    cases hT
    exact le_rfl
  | handleRequestVote args =>
    intro o ho T hT
    obtain rfl := List.mem_singleton.1 ho
    cases hT
    exact s.node.handleRequestVote_term args
  | handleAppendEntries args =>
    intro o ho T hT
    obtain rfl := List.mem_singleton.1 ho
    cases hT
    exact s.node.handleAppendEntries_term args
  | installStale args ht =>
    intro o ho T hT
    obtain rfl := List.mem_singleton.1 ho
    cases hT
    exact le_rfl
  | installOld args ht hold =>
    intro o ho T hT
    obtain rfl := List.mem_singleton.1 ho
    cases hT
    exact (s.node.recognizeLeader_currentTerm ht).ge
  | finishInstall k ok args reply hk hd =>
    intro o ho T hT
    rcases List.mem_cons.1 ho with rfl | ho
    · cases hT
    · obtain rfl := List.mem_singleton.1 ho
      cases hT
      exact hi.due _ (List.mem_of_getElem? hk)
  | finishEmptyInstall k ok args reply hk hd =>
    intro o ho T hT
    obtain rfl := List.mem_singleton.1 ho
    cases hT
    exact hi.due _ (List.mem_of_getElem? hk)
  | propose cmd n entry hp =>
    intro o ho T hT
    obtain rfl := List.mem_singleton.1 ho
    cases hT
  | abortPendingProposals =>
    intro o ho T hT
    obtain ⟨r, -, rfl⟩ := List.mem_map.1 ho
    cases hT
  | applyCall idx entry waiter ha =>
    intro o ho T hT
    split_ifs at ho
    · obtain rfl := List.mem_singleton.1 ho
      cases hT
    · cases ho
  | applyNotify entry waiter ha =>
    intro o ho T hT
    cases waiter with
    | none => cases ho
    | some ch =>
      obtain rfl := List.mem_singleton.1 ho
      cases hT
  | _ => exact nofun

theorem TermsReached.step (hi : TermsReached s h) (hs : Server.Step s ev s' out)
    (hle : s.node.currentTerm ≤ s'.node.currentTerm) : TermsReached s' (h ++ out) := by
  refine ⟨fun o ho T hT => ?_, ?_⟩
  · rcases List.mem_append.1 ho with hold | hnew
    · exact (hi.sent o hold T hT).trans hle
    · exact hs.term_le hi o hnew T hT
  · have hkeep : ∀ p ∈ s.installs, p.2.term ≤ s'.node.currentTerm :=
      fun p hp => (hi.due p hp).trans hle
    cases hs with
    | install args ht ho =>
      intro p hp
      rcases List.mem_append.1 hp with hold | hnew
      · exact hkeep p hold
      · obtain rfl := List.mem_singleton.1 hnew
        exact (s.node.recognizeLeader_currentTerm ht).ge
    | finishInstall k ok args reply hk hd =>
      exact fun p hp => hkeep p (List.mem_of_mem_eraseIdx hp)
    | finishEmptyInstall k ok args reply hk hd =>
      exact fun p hp => hkeep p (List.mem_of_mem_eraseIdx hp)
    | restart => exact nofun
    | _ => exact hkeep

end Terms

/-! ## Entries -/

/-- The log holds the entry, or a snapshot covers it. -/
def Holds (log : List LogEntry) (x : LogEntry) : Prop :=
  x.index ≤ firstIndex log ∨ entryAt log x.index = some x

/-- An entry of an accepted request is recorded as acknowledged, under its index and term. -/
theorem mem_acknowledged {log : List LogEntry} (hwf : WellFormed log) {args : AppendEntriesArgs}
    (hargs : args.WellFormed) (hc : Node.Consistent log args) {e : LogEntry}
    (he : e ∈ args.entries) (hf : firstIndex log < e.index) :
    ∃ x ∈ acknowledged (appendEntries log (args.prevLogIndex + 1) args.entries) args,
      x.index = e.index ∧ x.term = e.term := by
  have hidx : args.prevLogIndex + 1 ≤ lastIndex log + 1 := Nat.succ_le_succ hc.1
  have happ := appended_appendEntries hwf hargs hidx
  obtain ⟨x, hx, ht⟩ := exists_entryAt_appendEntries hwf hargs hidx he hf
  refine ⟨x, List.mem_filterMap.2 ⟨e, he, ?_⟩, happ.wellFormed.index_of_entryAt hx, ht⟩
  rw [if_pos (happ.firstIndex_eq ▸ hf)]
  exact hx

theorem holds_acknowledged {log : List LogEntry} (hwf : WellFormed log) {args : AppendEntriesArgs}
    {x : LogEntry} (hx : x ∈ acknowledged log args) : Holds log x := by
  obtain ⟨e, -, hx⟩ := List.mem_filterMap.1 hx
  split_ifs at hx
  rw [← hwf.index_of_entryAt hx] at hx
  exact .inr hx

structure AckedHeld (x : Keeper) : Prop where
  wellFormed : WellFormed x.server.node.logEntries
  held : ∀ y ∈ x.acked, Holds x.server.node.logEntries y

section Acked

variable {x : Keeper} {s' : Server} {ev : Event} {h out : List Output}

theorem Holds.le_lastIndex {log : List LogEntry} {y : LogEntry} (hwf : WellFormed log)
    (hy : Holds log y) : y.index ≤ lastIndex log := by
  rcases hy with hle | he
  · exact hle.trans hwf.firstIndex_le_lastIndex
  · exact (entryAt_bounds he).2

theorem AckedHeld.handleAppendEntries (hi : AckedHeld x) (args : AppendEntriesArgs)
    (hargs : args.WellFormed) :
    ∀ y ∈ Keeper.track x.acked x.server.node (x.server.node.handleAppendEntries args).1
      (.handleAppendEntries args),
      Holds (x.server.node.handleAppendEntries args).1.logEntries y := by
  intro y hy
  rcases x.server.node.handleAppendEntries_cases args with ⟨-, he⟩ | ⟨-, -, he⟩ | ⟨-, hc, he⟩
  · rw [he]
    refine hi.held y ?_
    simpa [Keeper.track, he] using hy
  · rw [he, Node.recognizeLeader_logEntries]
    refine hi.held y ?_
    simpa [Keeper.track, he] using hy
  · have hidx : args.prevLogIndex + 1 ≤ lastIndex x.server.node.logEntries + 1 :=
      Nat.succ_le_succ hc.1
    have happ := appended_appendEntries hi.wellFormed hargs hidx
    have hy : y ∈ (x.acked.filter fun z => ¬ Overwritten x.server.node.logEntries args z) ++
        acknowledged (appendEntries x.server.node.logEntries (args.prevLogIndex + 1) args.entries)
          args := by
      rw [Keeper.track, he] at hy
      exact hy
    rw [he]
    rcases List.mem_append.1 hy with hold | hnew
    · -- an older entry that this request does not overwrite
      obtain ⟨hmem, hnot⟩ := List.mem_filter.1 hold
      have hnot := of_decide_eq_true hnot
      have hlast := (hi.held y hmem).le_lastIndex hi.wellFormed
      rcases hi.held y hmem with hle | hent
      · exact .inl (hle.trans_eq happ.firstIndex_eq.symm)
      · refine .inr ((entryAt_appendEntries_of_agree hi.wellFormed hargs hidx hlast ?_ _
          le_rfl).trans hent)
        intro e hmem' hf hle
        by_contra hne
        exact hnot ⟨e, hmem', hf, hle, hne⟩
    · exact holds_acknowledged happ.wellFormed hnew

theorem AckedHeld.step (hi : AckedHeld x) (hok : KeepsPromises x h ev)
    (hs : Server.Step x.server ev s' out) :
    AckedHeld ⟨s', Keeper.track x.acked x.server.node s'.node ev⟩ := by
  refine ⟨hs.wellFormed hi.wellFormed hok.1.2, ?_⟩
  have hold := hi.held
  cases hs with
  | sendAppend p n args hr hidle hp hl hsend =>
    exact Node.logEntries_of_held (Node.sendAppend_held hsend) ▸ hold
  | appendReply p args reply hw =>
    exact Node.logEntries_of_held (x.server.node.handleAppendReply_held p args reply) ▸ hold
  | installReply p args reply hw =>
    exact Node.logEntries_of_held (x.server.node.handleInstallReply_held p args reply) ▸ hold
  | handleRequestVote args =>
    exact Node.logEntries_of_held (x.server.node.handleRequestVote_held args) ▸ hold
  | handleAppendEntries args => exact hi.handleAppendEntries args hok.1.2
  | installOld args ht ho =>
    exact Node.logEntries_of_held (x.server.node.recognizeLeader_held args.term) ▸ hold
  | install args ht ho =>
    intro y hy
    exact .inl (hok.2.2.1 ht ho y hy)
  | propose cmd n entry hp =>
    obtain ⟨-, hlog, -, hidx, -⟩ := Node.propose_spec hp
    intro y hy
    show Holds n.logEntries y
    rw [hlog]
    rcases hold y hy with hle | hent
    · exact .inl (hle.trans_eq (firstIndex_append hi.wellFormed.ne_nil _).symm)
    · have hlast := (entryAt_bounds hent).2
      exact .inr ((entryAt_concat hi.wellFormed hidx _).trans (by rw [if_neg (by omega), hent]))
  | finishSnapshot rs hsn =>
    intro y hy
    show Holds (compactLogLocked _ _ _) y
    rcases Nat.lt_or_ge rs.lastIncludedIndex y.index with hlt | hge
    · rcases hold y hy with hle | hent
      · refine .inl (hle.trans ?_)
        rw [firstIndex_compactLogLocked]
        exact le_max_left _ _
      · exact .inr ((entryAt_compactLogLocked hi.wellFormed _ _ hlt).trans hent)
    · refine .inl (hge.trans ?_)
      rw [firstIndex_compactLogLocked]
      exact le_max_right _ _
  | restart =>
    intro y hy
    exact .inl (hok.2.1.2.2 y hy)
  | _ => exact hold

end Acked

/-! ## All promises -/

structure PromisesInv (x : Keeper) (h : List Output) : Prop where
  terms : TermsReached x.server h
  once : VotesOnce x.server.node h
  acked : AckedHeld x

/-- A crash that finds the term and the vote in storage changes neither. -/
theorem VoteStep.of_durable {x : Keeper} {s' : Server} {ev : Event} {out : List Output}
    (hs : Server.Step x.server ev s' out) (hd : Durable x ev) :
    VoteStep x.server.node ev s'.node (votes out) := by
  by_cases hne : ev = .restart
  · subst hne
    cases hs
    exact .keep hd.1 hd.2.1
  · exact hs.voteStep hne

theorem PromisesInv.step {x : Keeper} {s' : Server} {ev : Event} {h out : List Output}
    (hi : PromisesInv x h) (hok : KeepsPromises x h ev)
    (hs : Server.Step x.server ev s' out) :
    PromisesInv ⟨s', Keeper.track x.acked x.server.node s'.node ev⟩ (h ++ out) where
  terms := hi.terms.step hs (VoteStep.of_durable hs hok.2.1).le_currentTerm
  once := hi.once.step (VoteStep.of_durable hs hok.2.1) hok.2.2.2
  acked := hi.acked.step hok hs

end Driftless.Raft
