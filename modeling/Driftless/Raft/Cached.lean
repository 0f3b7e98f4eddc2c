import Driftless.Raft.Server

/-!
# The cached snapshot

A leader whose log is compacted ships its cached snapshot, `lastSnapshot`, to followers below the
placeholder of its log. That brings them as far as its log reaches down if the cached snapshot is
the one the placeholder stands for (`SnapshotMatches`); then they can go on with AppendEntries
(`SnapshotMatches.goesOn`).

`TakeSnapshot` reads the index in one section and writes `lastSnapshot` in another, whatever has
happened in between. `snapshot_matches` is under the condition that the log has not been replaced
by that of a later snapshot (`FinishesAbove`); `snapshot_stale` is a snapshot installed in between.
-/

namespace Driftless.Raft

/-- The cached snapshot is the one the placeholder stands for, and a log that does not start at
zero has one. -/
structure Node.SnapshotMatches (n : Node) : Prop where
  floor : ∀ snap ∈ n.lastSnapshot, snap.lastIncludedIndex = firstIndex n.logEntries ∧
    snap.lastIncludedTerm = (n.logEntries.headD default).term
  cached : 0 < firstIndex n.logEntries → n.lastSnapshot.isSome

/-- A follower that installs the snapshot the leader ships goes on from there: the next request is
an AppendEntries from the index after the placeholder, and the follower accepts it. -/
def Node.GoesOn (n : Node) : Prop :=
  ∀ (p : String) (args : InstallSnapshotArgs) (m : Node), n.sendInstallSnapshot = some args →
    n.nextIndex.get p ≤ firstIndex n.logEntries → m.currentTerm ≤ args.term →
      Newer m.logEntries args →
        ∃ n' a, (n.handleInstallReply p args ⟨args.term, true⟩).sendAppend p = (n', .append a) ∧
          a.prevLogIndex = firstIndex n.logEntries ∧
          ((m.installed args).handleAppendEntries a).2.success = true

/-- The second section of `TakeSnapshot` finds a log that starts below the captured index, or at it
with the captured term. -/
def FinishesAbove (s : Server) : Event → Prop
  | .finishSnapshot => ∀ rs ∈ s.snapshot.taking,
      firstIndex s.node.logEntries < rs.lastIncludedIndex ∨
        (firstIndex s.node.logEntries = rs.lastIncludedIndex ∧
          (s.node.logEntries.headD default).term = rs.lastIncludedTerm)
  | _ => True

instance (s : Server) (ev : Event) : Decidable (FinishesAbove s ev) := by
  rcases ev <;> dsimp only [FinishesAbove] <;> infer_instance

/-- The steps considered: requests carry consecutive entries, as `sendAppend` sends them. -/
def KeepsSnapshot (s : Server) (_ : List Output) (ev : Event) : Prop :=
  Server.CarriesIndexed ev ∧ FinishesAbove s ev

instance (s : Server) (h : List Output) (ev : Event) : Decidable (KeepsSnapshot s h ev) :=
  inferInstanceAs (Decidable (_ ∧ _))

/-! ## The placeholder -/

theorem headD_appendEntries {log : List LogEntry} (h : WellFormed log) {idx : ℕ}
    {es : List LogEntry} (hes : Indexed idx es) (hidx : idx ≤ lastIndex log + 1) :
    (appendEntries log idx es).headD default = log.headD default := by
  have happ := appended_appendEntries h hes hidx
  have hkept := entryAt_appendEntries_of_agree h hes hidx h.firstIndex_le_lastIndex
    (fun e _ hlt hle => by omega) (firstIndex log) le_rfl
  have hhead := happ.wellFormed.entryAt_firstIndex
  rw [happ.firstIndex_eq, hkept, h.entryAt_firstIndex] at hhead
  exact (Option.some.inj hhead).symm

/-- An accepted request leaves the placeholder, and so does one that is not. -/
theorem Node.headD_handleAppendEntries {n : Node} {args : AppendEntriesArgs}
    (hwf : WellFormed n.logEntries) (hargs : args.WellFormed) :
    (n.handleAppendEntries args).1.logEntries.headD default = n.logEntries.headD default := by
  rcases n.handleAppendEntries_cases args with ⟨-, he⟩ | ⟨-, -, he⟩ | ⟨-, hc, he⟩ <;> rw [he]
  · rw [recognizeLeader_logEntries]
  · exact headD_appendEntries hwf hargs (Nat.succ_le_succ hc.1)

theorem Node.lastSnapshot_handleAppendEntries (n : Node) (args : AppendEntriesArgs) :
    (n.handleAppendEntries args).1.lastSnapshot = n.lastSnapshot := by
  have hsnap := lastSnapshot_of_held (n.recognizeLeader_held args.term)
  rcases n.handleAppendEntries_cases args with ⟨-, he⟩ | ⟨-, -, he⟩ | ⟨-, -, he⟩ <;> rw [he]
  · exact hsnap
  · exact hsnap

theorem termAt_firstIndex {log : List LogEntry} (h : WellFormed log) :
    termAt log (firstIndex log) = (log.headD default).term :=
  termAt_of_entryAt h.entryAt_firstIndex

/-- A request from the index of the snapshot on is accepted once the snapshot is installed. -/
theorem Node.installed_accepts (m : Node) {args : InstallSnapshotArgs} {a : AppendEntriesArgs}
    (ht : m.currentTerm ≤ args.term) (hterm : a.term = args.term)
    (hprev : a.prevLogIndex = args.lastIncludedIndex)
    (hprevTerm : a.prevLogTerm = args.lastIncludedTerm) :
    ((m.installed args).handleAppendEntries a).2.success = true := by
  have hcur : (m.installed args).currentTerm = args.term := m.recognizeLeader_currentTerm ht
  have hlog : (m.installed args).logEntries =
      [⟨args.lastIncludedTerm, args.lastIncludedIndex, none⟩] := rfl
  have hcons : Consistent (m.installed args).logEntries a := by
    refine ⟨hprev.le, fun _ => ?_⟩
    rw [hlog, hprev, hprevTerm]
    exact termAt_firstIndex (wellFormed_singleton _)
  rcases (m.installed args).handleAppendEntries_cases a with ⟨hlt, -⟩ | ⟨-, hno, -⟩ | ⟨-, -, he⟩
  · omega
  · exact absurd hcons hno
  · rw [he]

namespace Node.SnapshotMatches

variable {n n' : Node}

/-- A step that leaves the placeholder and the cached snapshot. -/
theorem keep (h : n.SnapshotMatches)
    (hhead : n'.logEntries.headD default = n.logEntries.headD default)
    (hsnap : n'.lastSnapshot = n.lastSnapshot) : n'.SnapshotMatches := by
  have hfirst : firstIndex n'.logEntries = firstIndex n.logEntries :=
    congrArg LogEntry.index hhead
  constructor
  · rw [hfirst, hsnap, hhead]
    exact h.floor
  · rw [hfirst, hsnap]
    exact h.cached

theorem of_held (h : n.SnapshotMatches) (hheld : n'.held = n.held) : n'.SnapshotMatches :=
  h.keep (by rw [logEntries_of_held hheld]) (lastSnapshot_of_held hheld)

/-- A log that is only the placeholder of the cached snapshot. -/
theorem of_singleton {snap : RaftSnapshot} (hs : n.lastSnapshot = some snap)
    (hl : n.logEntries = [⟨snap.lastIncludedTerm, snap.lastIncludedIndex, none⟩]) :
    n.SnapshotMatches := by
  constructor
  · rw [hs, hl]
    rintro _ ⟨⟩
    exact ⟨rfl, rfl⟩
  · simp [hs]

/-- The second section of `TakeSnapshot`. -/
theorem finishSnapshot {rs : RaftSnapshot}
    (hab : firstIndex n.logEntries < rs.lastIncludedIndex ∨
      (firstIndex n.logEntries = rs.lastIncludedIndex ∧
        (n.logEntries.headD default).term = rs.lastIncludedTerm)) :
    (n.finishSnapshot rs).SnapshotMatches := by
  refine ⟨?_, fun _ => rfl⟩
  rintro _ ⟨⟩
  show rs.lastIncludedIndex = firstIndex (compactLogLocked _ _ _) ∧
    rs.lastIncludedTerm = ((compactLogLocked _ _ _).headD default).term
  rcases hab with hlt | ⟨heq, hterm⟩
  · rw [firstIndex_compactLogLocked, max_eq_right hlt.le, headD_compactLogLocked _ hlt]
    exact ⟨rfl, rfl⟩
  · rw [compactLogLocked_of_le heq.ge]
    exact ⟨heq.symm, hterm.symm⟩

/-- Where the condition fails, so does the match. -/
theorem finishSnapshot_iff {rs : RaftSnapshot} : (n.finishSnapshot rs).SnapshotMatches ↔
    firstIndex n.logEntries < rs.lastIncludedIndex ∨
      (firstIndex n.logEntries = rs.lastIncludedIndex ∧
        (n.logEntries.headD default).term = rs.lastIncludedTerm) := by
  refine ⟨fun h => ?_, finishSnapshot⟩
  rcases Nat.lt_or_ge (firstIndex n.logEntries) rs.lastIncludedIndex with hlt | hge
  · exact .inl hlt
  · obtain ⟨hidx, hterm⟩ := h.floor rs rfl
    have hlog : (n.finishSnapshot rs).logEntries = n.logEntries := compactLogLocked_of_le hge
    rw [hlog] at hidx hterm
    exact .inr ⟨hidx.symm, hterm.symm⟩

/-- **A follower that installs the shipped snapshot goes on from there.** -/
theorem goesOn (h : n.SnapshotMatches) (hwf : WellFormed n.logEntries) : n.GoesOn := by
  intro p args m hship hlow hterm hnew
  obtain ⟨hl, snap, hsnap, rfl⟩ := n.sendInstallSnapshot_spec hship
  obtain ⟨hidx, ht⟩ := h.floor snap hsnap
  -- the leader takes the reply into account and stays leader
  have hreply : n.handleInstallReply p ⟨n.currentTerm, n.id, snap.lastIncludedIndex,
      snap.lastIncludedTerm, snap.data⟩ ⟨n.currentTerm, true⟩ =
        n.recordMatch p snap.lastIncludedIndex := by
    simp [handleInstallReply, hl]
  have hnext : (n.recordMatch p snap.lastIncludedIndex).nextIndex.get p =
      firstIndex n.logEntries + 1 := by
    rw [(n.recordMatch_next _).1, hidx]
    omega
  have hsend := (n.recordMatch p snap.lastIncludedIndex).sendAppend_of_lt (p := p) hl
    (by rw [hnext]; exact Nat.lt_succ_self _)
  rw [hnext] at hsend
  refine ⟨_, _, by rw [hreply]; exact hsend, rfl, ?_⟩
  refine m.installed_accepts hterm rfl hidx.symm ?_
  exact (termAt_firstIndex hwf).trans ht.symm

end Node.SnapshotMatches

/-! ## Runs -/

theorem snapshotMatches_boot (id : String) (peers : List String) (sm : StateMachineKind)
    (store : Option RaftSnapshot) : (Server.boot id peers sm store).node.SnapshotMatches := by
  cases store with
  | none => exact ⟨nofun, nofun⟩
  | some rs => exact .of_singleton rfl rfl

theorem Node.SnapshotMatches.step {s s' : Server} {ev : Event} {h out : List Output}
    (hm : s.node.SnapshotMatches) (hwf : WellFormed s.node.logEntries)
    (hok : KeepsSnapshot s h ev) (hs : Server.Step s ev s' out) : s'.node.SnapshotMatches := by
  cases hs with
  | sendAppend p n args hr hi hp hl hsend => exact hm.of_held (Node.sendAppend_held hsend)
  | appendReply p args reply hw => exact hm.of_held (s.node.handleAppendReply_held p args reply)
  | installReply p args reply hw => exact hm.of_held (s.node.handleInstallReply_held p args reply)
  | handleRequestVote args => exact hm.of_held (s.node.handleRequestVote_held args)
  | handleAppendEntries args =>
    exact hm.keep (Node.headD_handleAppendEntries hwf hok.1)
      (s.node.lastSnapshot_handleAppendEntries args)
  | installOld args ht ho => exact hm.of_held (s.node.recognizeLeader_held _)
  | install args ht ho => exact .of_singleton rfl rfl
  | propose cmd n entry hp =>
    obtain ⟨-, hlog, -⟩ := Node.propose_spec hp
    refine hm.keep ?_ (Node.propose_command hp).2
    rw [hlog]
    obtain ⟨e, l, hel⟩ := List.exists_cons_of_ne_nil hwf.ne_nil
    simp [hel]
  | finishSnapshot rs hsn => exact .finishSnapshot (hok.2 rs (by rw [hsn]; rfl))
  | restart => exact snapshotMatches_boot _ _ _ _
  | _ => exact hm.keep rfl rfl

/-- **The cached snapshot matches the placeholder**, and who installs it goes on, in every run in
which `TakeSnapshot` finishes on a log that no later snapshot has replaced. -/
theorem snapshot_matches {id : String} {peers : List String} {sm : StateMachineKind}
    {store : Option RaftSnapshot} {s : Server} {h : List Output}
    (r : Run Server.step KeepsSnapshot (Server.boot id peers sm store) [] s h) :
    s.node.SnapshotMatches ∧ s.node.GoesOn := by
  have hinv : WellFormed s.node.logEntries ∧ s.node.SnapshotMatches := by
    refine r.invariant (I := fun s _ => WellFormed s.node.logEntries ∧ s.node.SnapshotMatches)
      ⟨Server.wellFormed_boot _ _ _ _, snapshotMatches_boot _ _ _ _⟩ ?_
    intro s h ev s' out ⟨hwf, hm⟩ hok hs
    have hstep := Server.step_inv hs
    exact ⟨hstep.wellFormed hwf hok.1, hm.step hwf hok hstep⟩
  exact ⟨hinv.2, hinv.2.goesOn hinv.1⟩

/-- A follower applies an entry and takes a snapshot of it. -/
def snapshotTaken : List Event :=
  [.handleAppendEntries ⟨1, "b", 0, 0, [⟨1, 1, some [7]⟩, ⟨1, 2, some [8]⟩], 1⟩, .applyWake,
    .applyRead, .applyCall, .applyWrite, .applyNotify, .beginSnapshot, .serialize (some [1]),
    .saveSnapshot true]

theorem snapshot_matches_of_compaction : ∃ s h,
    Run Server.step KeepsSnapshot (Server.boot "a" ["b", "c"] .snapshotable none) [] s h ∧
      firstIndex s.node.logEntries = 1 ∧ s.node.SnapshotMatches ∧ s.node.GoesOn := by
  obtain ⟨s, h, r, hf⟩ := exists_run_of_exec Server.step KeepsSnapshot
    (Server.boot "a" ["b", "c"] .snapshotable none) [] (snapshotTaken ++ [.finishSnapshot])
    (fun s _ => firstIndex s.node.logEntries = 1) (by decide +kernel)
  exact ⟨s, h, r, hf, snapshot_matches r⟩

/-- **A snapshot installed during the save is forgotten**: the log starts at index 2 and the cached
snapshot is that of index 1. -/
theorem snapshot_stale : ¬ ∀ (id : String) (peers : List String) (sm : StateMachineKind)
    (store : Option RaftSnapshot) (s : Server) (h : List Output),
    Run Server.step (fun _ _ ev => Server.CarriesIndexed ev) (Server.boot id peers sm store) [] s h →
      s.node.SnapshotMatches := by
  intro hall
  obtain ⟨s, h, r, hf, hs⟩ := exists_run_of_exec Server.step
    (fun _ _ ev => Server.CarriesIndexed ev) (Server.boot "a" ["b", "c"] .snapshotable none) []
    (snapshotTaken ++ [.handleInstallSnapshot ⟨1, "b", 2, 1, [1, 2]⟩, .finishInstall 0 true,
      .finishSnapshot])
    (fun s _ => firstIndex s.node.logEntries = 2 ∧
      s.node.lastSnapshot.map RaftSnapshot.lastIncludedIndex = some 1) (by decide +kernel)
  obtain ⟨snap, hsnap, hidx⟩ := Option.map_eq_some_iff.1 hs
  have hfloor := ((hall _ _ _ _ s h r).floor snap hsnap).1
  omega

end Driftless.Raft
