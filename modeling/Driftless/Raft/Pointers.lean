import Mathlib.Order.Lattice
import Driftless.Raft.Server

/-!
# The progress pointers of a node

`firstIndex ≤ lastApplied ≤ commitIndex ≤ lastIndex`, and the first three never move back, as
long as the requests agree with what the node has committed (`AgreesCommitted`) and a snapshot is
installed only at or above the commit index, with no lower index in the hands of the apply loop
(`InstallsAhead`): `pointers_forward`. `HandleInstallSnapshot` checks the first of these against
`firstIndex` and the second not at all; `pointers_back` is a late snapshot that moves
`commitIndex` back.
-/

namespace Driftless.Raft

/-! ## Messages and runs -/

/-- What a leader whose log agrees with the node's committed entries sends, and no crash. -/
def AgreesCommitted (s : Server) (_ : List Output) : Event → Prop
  | .handleAppendEntries args => args.WellFormed ∧ (s.node.currentTerm ≤ args.term →
      ∀ e ∈ args.entries, firstIndex s.node.logEntries < e.index →
        e.index ≤ s.node.commitIndex → termAt s.node.logEntries e.index = e.term)
  | .restart => False
  | _ => True

instance (s : Server) (h : List Output) (ev : Event) : Decidable (AgreesCommitted s h ev) := by
  rcases ev <;> dsimp only [AgreesCommitted] <;> infer_instance

/-- A snapshot that is installed is not behind the commit index, nor ahead of what the apply
loop has in hand. -/
def InstallsAhead (s : Server) : Event → Prop
  | .handleInstallSnapshot args => s.node.currentTerm ≤ args.term →
      Node.Newer s.node.logEntries args → s.node.commitIndex ≤ args.lastIncludedIndex ∧
        ∀ idx ∈ s.apply.inFlight, args.lastIncludedIndex ≤ idx
  | _ => True

instance (s : Server) (ev : Event) : Decidable (InstallsAhead s ev) := by
  rcases ev <;> dsimp only [InstallsAhead] <;> infer_instance

def KeepsPointers (s : Server) (h : List Output) (ev : Event) : Prop :=
  AgreesCommitted s h ev ∧ InstallsAhead s ev

instance (s : Server) (h : List Output) (ev : Event) : Decidable (KeepsPointers s h ev) :=
  inferInstanceAs (Decidable (_ ∧ _))

/-! ## The order and the way forward -/

def Node.PointersOrdered (n : Node) : Prop :=
  firstIndex n.logEntries ≤ n.lastApplied ∧ n.lastApplied ≤ n.commitIndex ∧
    n.commitIndex ≤ lastIndex n.logEntries

instance (n : Node) : Decidable n.PointersOrdered := inferInstanceAs (Decidable (_ ∧ _))

/-- No pointer of `n'` is behind its value in `n`. -/
def Node.Forward (n n' : Node) : Prop :=
  firstIndex n.logEntries ≤ firstIndex n'.logEntries ∧ n.lastApplied ≤ n'.lastApplied ∧
    n.commitIndex ≤ n'.commitIndex

instance (n n' : Node) : Decidable (n.Forward n') := inferInstanceAs (Decidable (_ ∧ _))

theorem Node.Forward.refl (n : Node) : n.Forward n := ⟨le_rfl, le_rfl, le_rfl⟩

theorem Node.Forward.trans {n₁ n₂ n₃ : Node} (h : n₁.Forward n₂) (h' : n₂.Forward n₃) :
    n₁.Forward n₃ :=
  ⟨h.1.trans h'.1, h.2.1.trans h'.2.1, h.2.2.trans h'.2.2⟩

/-- The pointers are in order, and so are the indices that the apply loop and `TakeSnapshot`
captured and will write. -/
structure PointersInv (s : Server) : Prop where
  wellFormed : WellFormed s.node.logEntries
  ordered : s.node.PointersOrdered
  inFlight : ∀ idx ∈ s.apply.inFlight, s.node.lastApplied ≤ idx ∧ idx ≤ s.node.commitIndex
  taking : ∀ rs ∈ s.snapshot.taking, rs.lastIncludedIndex ≤ s.node.lastApplied

theorem pointersInv_boot (id : String) (peers : List String) (sm : StateMachineKind)
    (store : Option RaftSnapshot) : PointersInv (Server.boot id peers sm store) := by
  refine ⟨Server.wellFormed_boot _ _ _ _, ?_, nofun, nofun⟩
  cases store <;> exact ⟨le_rfl, le_rfl, le_rfl⟩

/-! ## The commit index of the leader -/

/-- The commit index moves forward, inside the log. -/
def Node.Commits (n n' : Node) : Prop :=
  n.commitIndex ≤ n'.commitIndex ∧ n'.commitIndex ≤ max n.commitIndex (lastIndex n.logEntries)

theorem Node.Commits.of_eq {n n' : Node} (h : n'.commitIndex = n.commitIndex) : n.Commits n' :=
  ⟨le_of_eq h.symm, h ▸ le_max_left _ _⟩

theorem Node.maybeAdvanceCommitLocked_commits (n : Node) :
    n.Commits n.maybeAdvanceCommitLocked := by
  rcases n.maybeAdvanceCommitLocked_cases with h | ⟨h₁, h₂, -⟩
  · exact .of_eq h
  · exact ⟨h₁.le, h₂.trans (le_max_right _ _)⟩

theorem Node.recordMatch_commits (n : Node) (p : String) (m : ℕ) :
    n.Commits (n.recordMatch p m) := by
  have h := Node.maybeAdvanceCommitLocked_commits { n with
    matchIndex := if m > n.matchIndex.get p then n.matchIndex.insert p m else n.matchIndex
    nextIndex := if m + 1 > n.nextIndex.get p then n.nextIndex.insert p (m + 1) else n.nextIndex }
  exact h

theorem Node.handleAppendReply_commits (n : Node) (p : String) (args : AppendEntriesArgs)
    (reply : AppendEntriesReply) : n.Commits (n.handleAppendReply p args reply) := by
  unfold handleAppendReply
  split_ifs
  · exact .of_eq rfl
  · exact .of_eq rfl
  · exact n.recordMatch_commits p _
  · exact .of_eq rfl

theorem Node.handleInstallReply_commits (n : Node) (p : String) (args : InstallSnapshotArgs)
    (reply : InstallSnapshotReply) : n.Commits (n.handleInstallReply p args reply) := by
  unfold handleInstallReply
  split_ifs
  · exact .of_eq rfl
  · exact .of_eq rfl
  · exact n.recordMatch_commits p _

theorem Node.propose_commits {n n' : Node} {cmd : Option Bytes} {ch : ℕ} {e : LogEntry}
    (h : n.propose cmd ch = some (n', e)) :
    n.commitIndex ≤ n'.commitIndex ∧
      n'.commitIndex ≤ max n.commitIndex (lastIndex n.logEntries + 1) := by
  unfold propose at h
  split_ifs at h
  cases h
  have hc := Node.maybeAdvanceCommitLocked_commits { n with
    logEntries := n.logEntries ++ [⟨n.currentTerm, lastIndex n.logEntries + 1, cmd⟩]
    matchIndex := n.matchIndex.insert n.id (lastIndex n.logEntries + 1)
    commitWaits := n.commitWaits.insert (lastIndex n.logEntries + 1) ch }
  simpa only [Commits, lastIndex_concat] using hc

theorem Node.handleRequestVote_commitIndex (n : Node) (args : RequestVoteArgs) :
    (n.handleRequestVote args).1.commitIndex = n.commitIndex := by
  rcases n.handleRequestVote_cases args with h | ⟨-, -, -, h⟩ <;> rw [h] <;>
    exact n.seeTerm_commitIndex args.term

theorem Node.sendAppend_commitIndex {n n' : Node} {p : String} {a : SendAction}
    (h : n.sendAppend p = (n', a)) : n'.commitIndex = n.commitIndex := by
  unfold sendAppend at h
  split_ifs at h <;> cases h <;> rfl

/-- Rule 5: the commit index moves forward, to the last new entry at most. -/
theorem Node.advanceCommit_commits (n : Node) (lc lastNew : ℕ) :
    n.commitIndex ≤ (n.advanceCommit lc lastNew).commitIndex ∧
      (n.advanceCommit lc lastNew).commitIndex ≤ max n.commitIndex lastNew := by
  rw [n.advanceCommit_commitIndex]
  omega

/-! ## One step -/

section Step

variable {s s' : Server} {ev : Event} {h out : List Output}

/-- A step that writes no pointer but the commit index. -/
theorem PointersInv.keep (hi : PointersInv s) (hh : s'.node.held = s.node.held)
    (hc : s.node.Commits s'.node) (ha : s'.apply = s.apply) (hsn : s'.snapshot = s.snapshot) :
    PointersInv s' ∧ s.node.Forward s'.node := by
  have hlog := Node.logEntries_of_held hh
  have hla := Node.lastApplied_of_held hh
  obtain ⟨h₁, h₂, h₃⟩ := hi.ordered
  obtain ⟨hc₁, hc₂⟩ := hc
  rw [max_eq_right h₃] at hc₂
  refine ⟨⟨hlog ▸ hi.wellFormed, ⟨?_, ?_, ?_⟩, fun idx hx => ?_, fun rs hx => ?_⟩, ?_, ?_, hc₁⟩
  · rwa [hlog, hla]
  · rw [hla]
    exact h₂.trans hc₁
  · rwa [hlog]
  · obtain ⟨hl, hr⟩ := hi.inFlight idx (ha ▸ hx)
    exact ⟨hla ▸ hl, hr.trans hc₁⟩
  · exact hla ▸ hi.taking rs (hsn ▸ hx)
  · rw [hlog]
  · rw [hla]

/-- A step of the apply loop or of `TakeSnapshot` that writes nothing but a captured index. -/
theorem PointersInv.move (hi : PointersInv s) (hn : s'.node.logEntries = s.node.logEntries)
    (hc : s'.node.commitIndex = s.node.commitIndex)
    (hla : s.node.lastApplied ≤ s'.node.lastApplied)
    (hle : s'.node.lastApplied ≤ s.node.commitIndex)
    (ha : ∀ idx ∈ s'.apply.inFlight, s'.node.lastApplied ≤ idx ∧ idx ≤ s.node.commitIndex)
    (hsn : ∀ rs ∈ s'.snapshot.taking, rs.lastIncludedIndex ≤ s'.node.lastApplied) :
    PointersInv s' ∧ s.node.Forward s'.node := by
  obtain ⟨h₁, h₂, h₃⟩ := hi.ordered
  refine ⟨⟨hn ▸ hi.wellFormed, ⟨?_, hc ▸ hle, ?_⟩, ?_, hsn⟩, ?_, hla, le_of_eq hc.symm⟩
  · rw [hn]
    exact h₁.trans hla
  · rwa [hn, hc]
  · rwa [hc]
  · rw [hn]

theorem PointersInv.handleAppendEntries (hi : PointersInv s) (args : AppendEntriesArgs)
    (hok : AgreesCommitted s h (.handleAppendEntries args)) :
    PointersInv { s with node := (s.node.handleAppendEntries args).1 } ∧
      s.node.Forward (s.node.handleAppendEntries args).1 := by
  obtain ⟨h₁, h₂, h₃⟩ := hi.ordered
  have hheld := s.node.recognizeLeader_held args.term
  have hcommit := s.node.recognizeLeader_commitIndex args.term
  rcases s.node.handleAppendEntries_cases args with ⟨-, he⟩ | ⟨-, -, he⟩ | ⟨ht, hc, he⟩
  · rw [he]
    exact hi.keep rfl (.of_eq rfl) rfl rfl
  · rw [he]
    exact hi.keep hheld (.of_eq hcommit) rfl rfl
  · have hidx : args.prevLogIndex + 1 ≤ lastIndex s.node.logEntries + 1 := Nat.succ_le_succ hc.1
    have happ := appended_appendEntries hi.wellFormed hok.1 hidx
    have hlast := lastIndex_appendEntries_of_agree hi.wellFormed hok.1 hidx h₃ (hok.2 ht)
    have hnew : args.prevLogIndex + args.entries.length ≤
        lastIndex (appendEntries s.node.logEntries (args.prevLogIndex + 1) args.entries) := by
      have := happ.reaches
      omega
    have hadv := Node.advanceCommit_commits { s.node.recognizeLeader args.term with
      logEntries := appendEntries s.node.logEntries (args.prevLogIndex + 1) args.entries }
      args.leaderCommit (args.prevLogIndex + args.entries.length)
    rw [show Node.commitIndex _ = s.node.commitIndex from hcommit] at hadv
    have hla := Node.lastApplied_of_held hheld
    rw [he]
    refine ⟨⟨happ.wellFormed, ⟨?_, ?_, ?_⟩, fun idx hx => ?_, fun rs hx => ?_⟩, ?_, ?_, hadv.1⟩
    · exact (happ.firstIndex_eq.trans_le h₁).trans_eq hla.symm
    · exact (hla.trans_le h₂).trans hadv.1
    · exact hadv.2.trans (max_le hlast hnew)
    · obtain ⟨hl, hr⟩ := hi.inFlight idx hx
      exact ⟨hla.trans_le hl, hr.trans hadv.1⟩
    · exact (hi.taking rs hx).trans_eq hla.symm
    · exact happ.firstIndex_eq.ge
    · exact hla.ge

theorem PointersInv.step (hi : PointersInv s) (hok : KeepsPointers s h ev)
    (hs : Server.Step s ev s' out) : PointersInv s' ∧ s.node.Forward s'.node := by
  obtain ⟨h₁, h₂, h₃⟩ := hi.ordered
  cases hs with
  | sendAppend p n args hr hidle hp hl hsend =>
    exact hi.keep (Node.sendAppend_held hsend) (.of_eq (Node.sendAppend_commitIndex hsend)) rfl rfl
  | appendReply p args reply hw =>
    exact hi.keep (s.node.handleAppendReply_held p args reply)
      (s.node.handleAppendReply_commits p args reply) rfl rfl
  | installReply p args reply hw =>
    exact hi.keep (s.node.handleInstallReply_held p args reply)
      (s.node.handleInstallReply_commits p args reply) rfl rfl
  | handleRequestVote args =>
    exact hi.keep (s.node.handleRequestVote_held args)
      (.of_eq (s.node.handleRequestVote_commitIndex args)) rfl rfl
  | handleAppendEntries args => exact hi.handleAppendEntries args hok.1
  | installOld args ht ho =>
    exact hi.keep (s.node.recognizeLeader_held _) (.of_eq (s.node.recognizeLeader_commitIndex _))
      rfl rfl
  | install args ht ho =>
    obtain ⟨hcl, hfl⟩ := hok.2 ht ho
    refine ⟨⟨wellFormed_singleton _, ⟨le_rfl, le_rfl, le_rfl⟩, fun idx hx => ?_, fun rs hx => ?_⟩,
      h₁.trans (h₂.trans hcl), h₂.trans hcl, hcl⟩
    · exact ⟨hfl idx hx, (hi.inFlight idx hx).2.trans hcl⟩
    · exact (hi.taking rs hx).trans (h₂.trans hcl)
  | propose cmd n entry hp =>
    obtain ⟨-, hlog, -, hidx, -, hla⟩ := Node.propose_spec hp
    obtain ⟨hc₁, hc₂⟩ := Node.propose_commits hp
    have hfirst : firstIndex n.logEntries = firstIndex s.node.logEntries := by
      rw [hlog, firstIndex_append hi.wellFormed.ne_nil]
    refine ⟨⟨hlog ▸ hi.wellFormed.concat hidx, ⟨?_, ?_, ?_⟩, fun idx hx => ?_, fun rs hx => ?_⟩,
      hfirst.ge, hla.ge, hc₁⟩
    · exact (hfirst.trans_le h₁).trans_eq hla.symm
    · exact (hla.trans_le h₂).trans hc₁
    · rw [hlog, lastIndex_concat, hidx]
      exact hc₂.trans (max_le (by omega) le_rfl)
    · obtain ⟨hl, hr⟩ := hi.inFlight idx hx
      exact ⟨hla.trans_le hl, hr.trans hc₁⟩
    · exact (hi.taking rs hx).trans_eq hla.symm
  | applyWake ha => exact hi.move rfl rfl le_rfl h₂ nofun hi.taking
  | applyIdle ha => exact hi.move rfl rfl le_rfl h₂ nofun hi.taking
  | applySkip ha hf hc hn => omega
  | applyRead entry ha hc he =>
    refine hi.move rfl rfl le_rfl h₂ ?_ hi.taking
    rintro idx ⟨⟩
    exact ⟨Nat.le_succ _, hc⟩
  | applyCall idx entry waiter ha =>
    refine hi.move rfl rfl le_rfl h₂ ?_ hi.taking
    rintro _ ⟨⟩
    exact hi.inFlight idx (by rw [ha]; rfl)
  | applyWrite idx entry waiter ha =>
    obtain ⟨hl, hr⟩ := hi.inFlight idx (by rw [ha]; rfl)
    exact hi.move rfl rfl hl hr nofun fun rs hx => (hi.taking rs hx).trans hl
  | applyNotify entry waiter ha => exact hi.move rfl rfl le_rfl h₂ nofun hi.taking
  | beginSnapshot rs hsn hb =>
    refine hi.move rfl rfl le_rfl h₂ hi.inFlight ?_
    rintro _ ⟨⟩
    unfold Node.beginSnapshot at hb
    split_ifs at hb
    cases hb
    exact le_rfl
  | serialize rs d hsn =>
    refine hi.move rfl rfl le_rfl h₂ hi.inFlight ?_
    rintro _ ⟨⟩
    exact hi.taking rs (by rw [hsn]; rfl)
  | saveSnapshot rs hsn =>
    refine hi.move rfl rfl le_rfl h₂ hi.inFlight ?_
    rintro _ ⟨⟩
    exact hi.taking rs (by rw [hsn]; rfl)
  | serializeError | saveError => exact hi.move rfl rfl le_rfl h₂ hi.inFlight nofun
  | finishSnapshot rs hsn =>
    have hle := hi.taking rs (by rw [hsn]; rfl)
    have hf := @firstIndex_compactLogLocked s.node.logEntries rs.lastIncludedIndex
      rs.lastIncludedTerm
    have hl := lastIndex_compactLogLocked hi.wellFormed rs.lastIncludedIndex rs.lastIncludedTerm
    refine ⟨⟨hi.wellFormed.compactLogLocked _ _, ⟨?_, h₂, ?_⟩, hi.inFlight, nofun⟩, ?_, le_rfl,
      le_rfl⟩
    · exact hf.trans_le (max_le h₁ hle)
    · exact h₃.trans ((le_max_left _ _).trans_eq hl.symm)
    · exact (le_max_left _ _).trans_eq hf.symm
  | abortPendingProposals => exact hi.move rfl rfl le_rfl h₂ hi.inFlight hi.taking
  | restart => exact hok.1.elim
  | _ => exact hi.keep rfl (.of_eq rfl) rfl rfl

end Step

/-- **The progress pointers are in order and never move back**: from a start of the process, in
every run that keeps to `KeepsPointers`, at every state and compared with every earlier one. -/
theorem pointers_forward {id : String} {peers : List String} {sm : StateMachineKind}
    {store : Option RaftSnapshot} {s₁ s₂ : Server} {h₁ h₂ : List Output}
    (r₁ : Run Server.step KeepsPointers (Server.boot id peers sm store) [] s₁ h₁)
    (r₂ : Run Server.step KeepsPointers s₁ h₁ s₂ h₂) :
    s₂.node.PointersOrdered ∧ s₁.node.Forward s₂.node := by
  have hinv₁ : PointersInv s₁ := by
    refine r₁.invariant (I := fun s _ => PointersInv s) (pointersInv_boot _ _ _ _) ?_
    intro s h ev s' out hi hok hs
    exact (hi.step hok (Server.step_inv hs)).1
  have hrel : PointersInv s₂ ∧ s₁.node.Forward s₂.node := by
    refine r₂.relate (I := fun s _ => PointersInv s) (R := fun s s' => s.node.Forward s'.node)
      hinv₁ (fun s => .refl _) (fun _ _ _ => .trans) ?_
    intro s h ev s' out hi hok hs
    exact hi.step hok (Server.step_inv hs)
  exact ⟨hrel.1.ordered, hrel.2⟩

/-- A follower that takes an entry, commits and applies it, and compacts its log. -/
theorem pointers_forward_of_compaction : ∃ s h,
    Run Server.step KeepsPointers (Server.boot "a" ["b"] .snapshotable none) [] s h ∧
      firstIndex s.node.logEntries = 1 ∧ s.node.PointersOrdered ∧
      (Server.boot "a" ["b"] .snapshotable none).node.Forward s.node := by
  obtain ⟨s, h, r, hf⟩ := exists_run_of_exec Server.step KeepsPointers
    (Server.boot "a" ["b"] .snapshotable none) []
    [.handleAppendEntries ⟨1, "b", 0, 0, [⟨1, 1, some [7]⟩], 1⟩, .applyWake, .applyRead,
      .applyCall, .applyWrite, .beginSnapshot, .serialize (some [1]), .saveSnapshot true,
      .finishSnapshot]
    (fun s _ => firstIndex s.node.logEntries = 1) (by decide +kernel)
  exact ⟨s, h, r, hf, pointers_forward .refl r⟩

/-- **A late snapshot moves the commit index back**: the node holds and has committed two
entries, and installs the snapshot of the first. -/
theorem pointers_back : ¬ ∀ (id : String) (peers : List String) (sm : StateMachineKind)
    (store : Option RaftSnapshot) (s₁ s₂ : Server) (h₁ h₂ : List Output),
    Run Server.step AgreesCommitted (Server.boot id peers sm store) [] s₁ h₁ →
      Run Server.step AgreesCommitted s₁ h₁ s₂ h₂ →
        s₂.node.PointersOrdered ∧ s₁.node.Forward s₂.node := by
  intro hall
  obtain ⟨s₁, h₁, s₂, h₂, r₁, r₂, hc₁, hc₂⟩ := exists_runs_of_exec Server.step AgreesCommitted
    (Server.boot "a" ["b"] .snapshotable none) []
    [.handleAppendEntries ⟨1, "b", 0, 0, [⟨1, 1, some [7]⟩, ⟨1, 2, some [8]⟩], 2⟩]
    [.handleInstallSnapshot ⟨1, "b", 1, 1, [1]⟩]
    (fun s₁ s₂ => s₁.node.commitIndex = 2 ∧ s₂.node.commitIndex = 1) (by decide +kernel)
  have hforward := (hall _ _ _ _ s₁ s₂ h₁ h₂ r₁ r₂).2.2.2
  omega

end Driftless.Raft
