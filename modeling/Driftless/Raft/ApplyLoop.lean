import Mathlib.Data.List.Range
import Driftless.Raft.Refinement

/-!
# The apply loop catches up

`applyLoop` waits for a signal on `applyCh`, which holds at most one, and then applies entries until
it has reached the commit index. It stops early when the log has been replaced by a snapshot under
its feet. No signal is lost (`Wakes`): a loop that waits is at the commit index, or has a signal
pending. Hence, left alone in any state of a run, the loop takes finitely many steps to a state in
which everything committed is applied, and hands each entry that was not applied yet to the state
machine, in order and once: `applyLoop_drains`.
-/

namespace Driftless.Raft

/-! ## The commit index rises with a signal -/

/-- The floor of the log and `lastApplied` stay, and the commit index moves with a signal. -/
structure Node.Signals (n n' : Node) : Prop where
  first : firstIndex n'.logEntries = firstIndex n.logEntries
  applied : n'.lastApplied = n.lastApplied
  commit : n'.applyCh = true ∨ (n'.commitIndex = n.commitIndex ∧ n'.applyCh = n.applyCh)

namespace Node

theorem Signals.of_held {n n' : Node} (hh : n'.held = n.held)
    (hc : n'.applyCh = true ∨ (n'.commitIndex = n.commitIndex ∧ n'.applyCh = n.applyCh)) :
    n.Signals n' :=
  ⟨by rw [logEntries_of_held hh], lastApplied_of_held hh, hc⟩

theorem maybeAdvanceCommitLocked_signals (n : Node) :
    n.maybeAdvanceCommitLocked.applyCh = true ∨
      (n.maybeAdvanceCommitLocked.commitIndex = n.commitIndex ∧
        n.maybeAdvanceCommitLocked.applyCh = n.applyCh) := by
  cases h : n.quorumIndex (lastIndex n.logEntries) with
  | none => exact .inr (by simp [maybeAdvanceCommitLocked, h])
  | some k => exact .inl (by simp [maybeAdvanceCommitLocked, h])

theorem advanceCommit_signals (n : Node) (leaderCommit lastNew : ℕ) :
    (n.advanceCommit leaderCommit lastNew).applyCh = true ∨
      ((n.advanceCommit leaderCommit lastNew).commitIndex = n.commitIndex ∧
        (n.advanceCommit leaderCommit lastNew).applyCh = n.applyCh) := by
  unfold advanceCommit
  dsimp only
  generalize (if lastNew < leaderCommit then lastNew else leaderCommit) = newCommit
  split_ifs with h
  · exact .inl (by rw [decide_eq_true h, Bool.or_true])
  · exact .inr ⟨rfl, by rw [decide_eq_false h, Bool.or_false]⟩

theorem recordMatch_signals (n : Node) (p : String) (m : ℕ) :
    (n.recordMatch p m).applyCh = true ∨
      ((n.recordMatch p m).commitIndex = n.commitIndex ∧
        (n.recordMatch p m).applyCh = n.applyCh) :=
  maybeAdvanceCommitLocked_signals _

theorem handleAppendReply_signals (n : Node) (p : String) (args : AppendEntriesArgs)
    (reply : AppendEntriesReply) : n.Signals (n.handleAppendReply p args reply) := by
  refine .of_held (n.handleAppendReply_held p args reply) ?_
  unfold handleAppendReply
  split_ifs
  · exact .inr ⟨rfl, rfl⟩
  · exact .inr ⟨rfl, rfl⟩
  · exact n.recordMatch_signals p _
  · exact .inr ⟨rfl, rfl⟩

theorem handleInstallReply_signals (n : Node) (p : String) (args : InstallSnapshotArgs)
    (reply : InstallSnapshotReply) : n.Signals (n.handleInstallReply p args reply) := by
  refine .of_held (n.handleInstallReply_held p args reply) ?_
  unfold handleInstallReply
  split_ifs
  · exact .inr ⟨rfl, rfl⟩
  · exact .inr ⟨rfl, rfl⟩
  · exact n.recordMatch_signals p _

theorem recognizeLeader_signals (n : Node) (t : ℕ) : n.Signals (n.recognizeLeader t) := by
  refine .of_held (n.recognizeLeader_held t) (.inr ⟨n.recognizeLeader_commitIndex t, ?_⟩)
  unfold recognizeLeader
  split_ifs <;> rfl

theorem handleRequestVote_signals (n : Node) (args : RequestVoteArgs) :
    n.Signals (n.handleRequestVote args).1 := by
  refine .of_held (n.handleRequestVote_held args)
    (.inr ⟨n.handleRequestVote_commitIndex args, ?_⟩)
  have hsee : (n.seeTerm args.term).applyCh = n.applyCh := by
    unfold seeTerm
    split_ifs <;> rfl
  rcases n.handleRequestVote_cases args with he | ⟨-, -, -, he⟩
  · rw [he]
    exact hsee
  · rw [he]
    exact hsee

theorem sendAppend_signals {n n' : Node} {p : String} {a : SendAction}
    (h : n.sendAppend p = (n', a)) : n.Signals n' := by
  refine .of_held (sendAppend_held h) (.inr ⟨sendAppend_commitIndex h, ?_⟩)
  unfold sendAppend at h
  split_ifs at h
  · cases h
    rfl
  · cases h
    rfl
  · cases h
    rfl

theorem propose_signals {n n' : Node} {cmd : Option Bytes} {ch : ℕ} {e : LogEntry}
    (hwf : WellFormed n.logEntries) (h : n.propose cmd ch = some (n', e)) : n.Signals n' := by
  unfold propose at h
  split_ifs at h
  cases h
  exact ⟨firstIndex_append hwf.ne_nil _, rfl, maybeAdvanceCommitLocked_signals _⟩

theorem handleAppendEntries_signals {n : Node} {args : AppendEntriesArgs}
    (hwf : WellFormed n.logEntries) (hes : Indexed (args.prevLogIndex + 1) args.entries) :
    n.Signals (n.handleAppendEntries args).1 := by
  have hrec := n.recognizeLeader_signals args.term
  rcases n.handleAppendEntries_cases args with ⟨-, he⟩ | ⟨-, -, he⟩ | ⟨-, hc, he⟩
  · rw [he]
    exact ⟨rfl, rfl, .inr ⟨rfl, rfl⟩⟩
  · rw [he]
    exact hrec
  · rw [he]
    refine ⟨(appended_appendEntries hwf hes (Nat.succ_le_succ hc.1)).firstIndex_eq,
      hrec.applied, ?_⟩
    rcases advanceCommit_signals { n.recognizeLeader args.term with
        logEntries := appendEntries n.logEntries (args.prevLogIndex + 1) args.entries }
      args.leaderCommit (args.prevLogIndex + args.entries.length) with hsig | ⟨hsame, hch⟩
    · exact .inl hsig
    · refine hrec.commit.imp (fun hsig => ?_) fun hkept => ⟨hsame.trans hkept.1, hch.trans hkept.2⟩
      exact hch.trans hsig

end Node

/-! ## No signal is lost -/

/-- Where the apply loop is: at the entry in flight, or at the last one it has applied. -/
def Server.position (s : Server) : ℕ := s.apply.inFlight.getD s.node.lastApplied

/-- A loop that waits is done or has a signal pending, and so is a loop below the floor of the log,
once it gives up. -/
structure Wakes (s : Server) : Prop where
  idle : s.apply = .idle → firstIndex s.node.logEntries ≤ s.node.lastApplied ∧
    (s.node.lastApplied = s.node.commitIndex ∨ s.node.applyCh = true)
  behind : s.apply ≠ .idle → s.position < firstIndex s.node.logEntries →
    s.node.commitIndex = firstIndex s.node.logEntries ∨ s.node.applyCh = true
  /-- The entry in flight is the next one, or a snapshot has been installed meanwhile. -/
  inFlight : ∀ k, s.apply.inFlight = some k → k = s.node.lastApplied + 1 ∨
    (k ≤ firstIndex s.node.logEntries ∧ s.node.lastApplied = firstIndex s.node.logEntries)
  taking : ∀ rs, s.snapshot.taking = some rs →
    rs.lastIncludedIndex ≤ max (firstIndex s.node.logEntries) s.position

/-- The log reaches from a placeholder without a command to the commit index and beyond. -/
structure Node.Readable (n : Node) : Prop where
  wellFormed : WellFormed n.logEntries
  placeholder : ∃ e, entryAt n.logEntries (firstIndex n.logEntries) = some e ∧ e.command = none
  first_le : firstIndex n.logEntries ≤ n.commitIndex
  commit_le : n.commitIndex ≤ lastIndex n.logEntries

/-- What the apply loop relies on. -/
structure Applicable (s : Server) : Prop extends s.node.Readable where
  position_le : s.position ≤ s.node.commitIndex
  applied_le : s.node.lastApplied ≤ s.node.commitIndex
  taking_le : ∀ rs, s.snapshot.taking = some rs → rs.lastIncludedIndex ≤ s.node.commitIndex

/-- The requests of a sound run: entries come with their indices, and a snapshot that is installed
covers what is committed. -/
def Fits (s : Server) : Event → Prop
  | .handleAppendEntries args => Indexed (args.prevLogIndex + 1) args.entries
  | .handleInstallSnapshot args => s.node.currentTerm ≤ args.term →
      Node.Newer s.node.logEntries args → s.node.commitIndex ≤ args.lastIncludedIndex
  | .restart => False
  | _ => True

theorem wakes_boot (members : List String) (sm : String → StateMachineKind) (i : String) :
    Wakes (Cluster.boot members sm i) :=
  ⟨fun _ => ⟨le_rfl, .inl rfl⟩, fun h => absurd rfl h, nofun, nofun⟩

section Step

variable {s s' : Server} {ev : Event} {out : List Output}

/-- A step outside the apply loop that does not replace the log. -/
theorem Wakes.keep (hw : Wakes s) (hn : s.node.Signals s'.node) (ha : s'.apply = s.apply)
    (hsn : ∀ rs, s'.snapshot.taking = some rs →
      rs.lastIncludedIndex ≤ max (firstIndex s.node.logEntries) s.position) : Wakes s' := by
  have hpos : s'.position = s.position := by
    unfold Server.position
    rw [ha, hn.applied]
  refine ⟨fun hx => ?_, fun hx hlt => ?_, fun k hk => ?_, fun rs hrs => ?_⟩
  · obtain ⟨hle, hdone⟩ := hw.idle (ha ▸ hx)
    rw [hn.first, hn.applied]
    refine ⟨hle, ?_⟩
    rcases hn.commit with hsig | ⟨hc, hch⟩
    · exact .inr hsig
    · rwa [hc, hch]
  · rw [hpos, hn.first] at hlt
    rcases hn.commit with hsig | ⟨hc, hch⟩
    · exact .inr hsig
    · rw [hc, hch, hn.first]
      exact hw.behind (ha ▸ hx) hlt
  · rw [hn.first, hn.applied]
    exact hw.inFlight k (ha ▸ hk)
  · rw [hn.first, hpos]
    exact hsn rs hrs

/-- A snapshot is installed: the loop is at the commit index, unless an entry is in flight. -/
theorem Wakes.install (happ : Applicable s) {args : InstallSnapshotArgs}
    (hle : s.node.commitIndex ≤ args.lastIncludedIndex)
    (is : List (InstallSnapshotArgs × InstallSnapshotReply)) :
    Wakes { s with node := s.node.installed args, installs := is } := by
  refine ⟨fun _ => ⟨le_rfl, .inl rfl⟩, fun _ _ => .inl rfl, fun k hk => .inr ⟨?_, rfl⟩,
    fun rs hrs => ?_⟩
  · have hk : s.apply.inFlight = some k := hk
    have hpos := happ.position_le
    rw [Server.position, hk] at hpos
    exact hpos.trans hle
  · exact le_max_of_le_left ((happ.taking_le rs hrs).trans hle)

/-- The log is compacted, up to an index that the loop has passed. -/
theorem Wakes.finishSnapshot (hw : Wakes s) {rs : RaftSnapshot}
    (hs : s.snapshot.taking = some rs) :
    Wakes { s with node := s.node.finishSnapshot rs, snapshot := .idle } := by
  have hle := hw.taking rs hs
  have hf : firstIndex (s.node.finishSnapshot rs).logEntries =
      max (firstIndex s.node.logEntries) rs.lastIncludedIndex :=
    firstIndex_compactLogLocked _ _
  have hpos : Server.position { s with node := s.node.finishSnapshot rs, snapshot := .idle } =
      s.position := rfl
  refine ⟨fun hx => ?_, fun hx hlt => ?_, fun k hk => ?_, nofun⟩
  · obtain ⟨h₁, h₂⟩ := hw.idle hx
    refine ⟨hf.trans_le ?_, h₂⟩
    have hx : s.apply = .idle := hx
    rw [Server.position, hx] at hle
    exact (max_le (le_max_left _ _) hle).trans (max_le h₁ le_rfl)
  · rw [hpos, hf] at hlt
    have hsame : max (firstIndex s.node.logEntries) rs.lastIncludedIndex =
        firstIndex s.node.logEntries := by omega
    rw [hsame] at hlt hf
    rw [hf]
    exact hw.behind hx hlt
  · rcases hw.inFlight k hk with hnext | ⟨hk', hla⟩
    · exact .inl hnext
    · have hk : s.apply.inFlight = some k := hk
      rw [Server.position, hk, Option.getD_some, max_eq_left hk'] at hle
      rw [hf, max_eq_left hle]
      exact .inr ⟨hk', hla⟩

/-- Everything committed is applied: the loop goes back to wait. -/
theorem Server.applyRead_of_lt (h : s.node.commitIndex < s.node.lastApplied + 1) :
    s.applyRead = { s with apply := .idle } :=
  if_pos h

/-- The next entry is below the floor: the loop skips to the floor, and waits. -/
theorem Server.applyRead_of_none (h : s.node.lastApplied + 1 ≤ s.node.commitIndex)
    (hf : s.node.lastApplied + 1 ≤ firstIndex s.node.logEntries)
    (he : entryAt s.node.logEntries (s.node.lastApplied + 1) = none) :
    s.applyRead = { s with
      apply := .idle
      node := { s.node with lastApplied := firstIndex s.node.logEntries } } := by
  unfold applyRead
  dsimp only
  rw [if_neg (Nat.not_lt.2 h), he, if_pos hf]

theorem Server.applyRead_of_some (h : s.node.lastApplied + 1 ≤ s.node.commitIndex) {e : LogEntry}
    (he : entryAt s.node.logEntries (s.node.lastApplied + 1) = some e) :
    s.applyRead = { s with
      apply := .read (s.node.lastApplied + 1) e
        (s.node.commitWaits.lookup (s.node.lastApplied + 1))
      node := { s.node with
        commitWaits := s.node.commitWaits.erase (s.node.lastApplied + 1) } } := by
  unfold applyRead
  dsimp only
  rw [if_neg (Nat.not_lt.2 h), he]

/-- An entry is only missing below the floor. -/
theorem Node.Readable.lt_first {n : Node} (hr : n.Readable) {idx : ℕ} (hle : idx ≤ n.commitIndex)
    (he : entryAt n.logEntries idx = none) : idx < firstIndex n.logEntries := by
  have := hr.commit_le
  rcases entryAt_eq_none.1 he with hlow | hhigh
  · exact hlow
  · omega

/-- The first section of a round: the loop gives up, skips to the floor, or has the next entry. -/
theorem Wakes.applyRead (hw : Wakes s) (happ : Applicable s) (ha : s.apply = .next) :
    Wakes s.applyRead := by
  have hpos : s.position = s.node.lastApplied := by
    rw [Server.position, ha]
    rfl
  have htaking := hw.taking
  have hbehind := hw.behind (by rw [ha]; exact nofun)
  have h₁ := happ.first_le
  have h₃ := happ.applied_le
  rw [hpos] at htaking hbehind
  rcases Nat.lt_or_ge s.node.commitIndex (s.node.lastApplied + 1) with hgt | hle
  · rw [Server.applyRead_of_lt hgt]
    have heq : s.node.lastApplied = s.node.commitIndex := by omega
    exact ⟨fun _ => ⟨h₁.trans heq.ge, .inl heq⟩, fun hx => absurd rfl hx, nofun, htaking⟩
  · cases he : entryAt s.node.logEntries (s.node.lastApplied + 1) with
    | none =>
      have hlt := happ.toReadable.lt_first hle he
      rw [Server.applyRead_of_none hle hlt.le he]
      refine ⟨fun _ => ⟨le_rfl, ?_⟩, fun hx => absurd rfl hx, nofun, fun rs hrs => ?_⟩
      · exact (hbehind (by omega)).imp_left Eq.symm
      · have hle := htaking rs hrs
        rw [max_eq_left (by omega)] at hle
        exact le_max_of_le_left hle
    | some entry =>
      rw [Server.applyRead_of_some hle he]
      refine ⟨nofun, fun _ hlt => ?_, fun k hk => ?_, fun rs hrs => ?_⟩
      · have hlt : s.node.lastApplied + 1 < firstIndex s.node.logEntries := hlt
        exact hbehind (by omega)
      · cases hk
        exact .inl rfl
      · exact (htaking rs hrs).trans (max_le_max_left _ (Nat.le_succ _))

/-- A step of the apply loop within a round. -/
theorem Wakes.round (hw : Wakes s) {k : ℕ} {a : ApplyLoop} (hne : s.apply ≠ .idle)
    (hna : a ≠ .idle) (hpos : a.inFlight.getD k = s.position)
    (hfly : ∀ j, a.inFlight = some j → s.apply.inFlight = some j ∧ k = s.node.lastApplied) :
    Wakes { s with node := { s.node with lastApplied := k }, apply := a } := by
  have hpos' : Server.position { s with node := { s.node with lastApplied := k }, apply := a } =
      s.position := hpos
  refine ⟨fun hx => absurd hx hna, fun _ hlt => ?_, fun j hj => ?_, fun rs hrs => ?_⟩
  · rw [hpos'] at hlt
    exact hw.behind hne hlt
  · obtain ⟨hj', rfl⟩ := hfly j hj
    exact hw.inFlight j hj'
  · rw [hpos']
    exact hw.taking rs hrs

/-- **Every step keeps the apply loop awake.** -/
theorem Wakes.step (hw : Wakes s) (happ : Applicable s) (hfit : Fits s ev)
    (hs : s.step ev = some (s', out)) : Wakes s' := by
  have hkeep : ∀ {n : Node} {s' : Server}, s'.node = n → s.node.Signals n → s'.apply = s.apply →
      s'.snapshot = s.snapshot → Wakes s' := by
    rintro n s' rfl hn ha hsn
    exact hw.keep hn ha fun rs hrs => hw.taking rs (hsn ▸ hrs)
  have hsame : s.node.Signals s.node := ⟨rfl, rfl, .inr ⟨rfl, rfl⟩⟩
  by_cases hev : ev = .applyRead
  · -- the branches of the step relation do not say why the loop gives up
    subst hev
    have hs : (if s.apply = .next then some (s.applyRead, []) else none) = some (s', out) := hs
    split_ifs at hs with ha
    cases hs
    exact hw.applyRead happ ha
  · cases Server.step_inv hs with
    | sendAppend p n args hr hidle hp hl hsend =>
      exact hkeep rfl (Node.sendAppend_signals hsend) rfl rfl
    | appendReply p args reply hwait =>
      exact hkeep rfl (s.node.handleAppendReply_signals p args reply) rfl rfl
    | installReply p args reply hwait =>
      exact hkeep rfl (s.node.handleInstallReply_signals p args reply) rfl rfl
    | handleRequestVote args => exact hkeep rfl (s.node.handleRequestVote_signals args) rfl rfl
    | handleAppendEntries args =>
      exact hkeep rfl (Node.handleAppendEntries_signals happ.wellFormed hfit) rfl rfl
    | installOld args ht ho => exact hkeep rfl (s.node.recognizeLeader_signals _) rfl rfl
    | install args ht ho => exact .install happ (hfit ht ho) _
    | propose cmd n entry hp => exact hkeep rfl (Node.propose_signals happ.wellFormed hp) rfl rfl
    | applyWake ha =>
      have hpos : s.position = s.node.lastApplied := by
        rw [Server.position, ha]
        rfl
      refine ⟨nofun, fun _ hlt => ?_, nofun, fun rs hrs => ?_⟩
      · have hle := (hw.idle ha).1
        have hlt : s.node.lastApplied < firstIndex s.node.logEntries := hlt
        omega
      · have hle := hw.taking rs hrs
        rw [hpos] at hle
        exact hle
    | applyIdle | applySkip | applyRead => exact absurd rfl hev
    | applyCall idx entry waiter ha =>
      refine hw.round (by rw [ha]; exact nofun) nofun ?_ fun j hj => ?_
      · rw [Server.position, ha]
        rfl
      · rw [ha]
        exact ⟨hj, rfl⟩
    | applyWrite idx entry waiter ha =>
      refine hw.round (by rw [ha]; exact nofun) nofun ?_ nofun
      rw [Server.position, ha]
      rfl
    | applyNotify entry waiter ha =>
      refine hw.round (by rw [ha]; exact nofun) nofun ?_ nofun
      rw [Server.position, ha]
      rfl
    | beginSnapshot rs hsn hb =>
      refine hw.keep hsame rfl fun rs' hrs => ?_
      cases hrs
      unfold Node.beginSnapshot at hb
      split_ifs at hb with hcond
      cases hb
      have hlt := Nat.lt_of_not_le fun hle => hcond (.inr hle)
      refine le_max_of_le_right ?_
      show s.node.lastApplied ≤ s.position
      unfold Server.position
      cases hfly : s.apply.inFlight with
      | none => exact le_rfl
      | some k =>
        rcases hw.inFlight k hfly with rfl | ⟨-, hla⟩
        · exact Nat.le_succ _
        · exact absurd hla hlt.ne'
    | serialize rs d hsn | saveSnapshot rs hsn =>
      refine hw.keep hsame rfl fun rs' hrs => ?_
      cases hrs
      exact hw.taking rs (by rw [hsn]; rfl)
    | serializeError | saveError => exact hw.keep hsame rfl nofun
    | finishSnapshot rs hsn => exact hw.finishSnapshot (by rw [hsn]; rfl)
    | restart => exact hfit.elim
    | _ => exact hkeep rfl ⟨rfl, rfl, .inr ⟨rfl, rfl⟩⟩ rfl rfl

end Step

/-! ## The loop on its own -/

/-- The step the apply loop takes next. -/
def ApplyLoop.event : ApplyLoop → Event
  | .idle => .applyWake
  | .next => .applyRead
  | .read _ _ _ => .applyCall
  | .applied _ _ _ => .applyWrite
  | .written _ _ => .applyNotify

/-- `applyLoop` as a system of its own. It stops where it waits for a signal. -/
def Server.applyLoop (s : Server) (_ : Unit) : Option (Server × List Output) :=
  s.step s.apply.event

/-- The entry a step hands to the state machine. -/
def Output.applied : Output → Option LogEntry
  | .apply e => some e
  | _ => none

/-- Left alone, the loop comes from `s` to `s'` and applies `es`. -/
def Loops (s : Server) (es : List LogEntry) (s' : Server) : Prop :=
  ∃ out, (∀ h, Run Server.applyLoop (fun _ _ _ => True) s h s' (h ++ out)) ∧
    out.filterMap Output.applied = es

theorem Loops.refl (s : Server) : Loops s [] s := by
  refine ⟨[], fun h => ?_, rfl⟩
  rw [List.append_nil]
  exact .refl

theorem Loops.trans {s₁ s₂ s₃ : Server} {es es' : List LogEntry} (h : Loops s₁ es s₂)
    (h' : Loops s₂ es' s₃) : Loops s₁ (es ++ es') s₃ := by
  obtain ⟨out, hr, rfl⟩ := h
  obtain ⟨out', hr', rfl⟩ := h'
  refine ⟨out ++ out', fun h => ?_, List.filterMap_append⟩
  rw [← List.append_assoc]
  exact (hr h).trans (hr' _)

theorem Loops.single {s s' : Server} (out : List Output) {es : List LogEntry}
    (h : s.step s.apply.event = some (s', out)) (hes : out.filterMap Output.applied = es) :
    Loops s es s' :=
  ⟨out, fun _ => Run.tail (i := ()) .refl trivial h, hes⟩

/-- The entries of a list that are handed to the state machine. -/
def Node.handed (n : Node) (es : List LogEntry) : List LogEntry :=
  if n.sm = .absent then [] else es.filter fun e => e.command.isSome

/-- The entries in the log from above `p` to the commit index. -/
def Node.above (n : Node) (p : ℕ) : List LogEntry :=
  (List.range' (p + 1) (n.commitIndex - p)).filterMap (entryAt n.logEntries)

/-- What is committed and has not been handed to the state machine. -/
def Server.pending (s : Server) : List LogEntry :=
  match s.apply with
  | .read _ e _ => s.node.handed (e :: s.node.above s.position)
  | _ => s.node.handed (s.node.above s.position)

namespace Node

variable {n : Node}

theorem handed_append (es es' : List LogEntry) :
    n.handed (es ++ es') = n.handed es ++ n.handed es' := by
  unfold handed
  split_ifs
  · rfl
  · exact List.filter_append _ _

theorem above_self : n.above n.commitIndex = [] := by simp [above]

theorem above_of_lt {p : ℕ} (h : p < n.commitIndex) :
    n.above p = (entryAt n.logEntries (p + 1)).toList ++ n.above (p + 1) := by
  unfold above
  rw [show n.commitIndex - p = n.commitIndex - (p + 1) + 1 by omega, List.range'_succ,
    List.filterMap_cons]
  cases entryAt n.logEntries (p + 1) <;> rfl

/-- Nothing below the floor is handed to the state machine. -/
theorem Readable.handed_above (hr : n.Readable) {p : ℕ} (hp : p ≤ firstIndex n.logEntries) :
    n.handed (n.above p) = n.handed (n.above (firstIndex n.logEntries)) := by
  induction hp using Nat.decreasingInduction with
  | self => rfl
  | of_succ p hlt ih =>
    have hc := hr.first_le
    rw [above_of_lt (by omega), handed_append, ih]
    suffices hnone : n.handed (entryAt n.logEntries (p + 1)).toList = [] by
      rw [hnone, List.nil_append]
    rcases Nat.lt_or_eq_of_le (Nat.succ_le_of_lt hlt) with hlow | heq
    · rw [entryAt_eq_none.2 (.inl hlow)]
      simp [handed]
    · obtain ⟨e, he, hcmd⟩ := hr.placeholder
      rw [← heq] at he
      rw [he]
      simp [handed, hcmd]

end Node

/-- The loop comes from `s` to a state in which it looks for a signal, with everything applied. -/
structure ReachesCommit (s : Server) (es : List LogEntry) (s' : Server) : Prop where
  loops : Loops s es s'
  waits : s'.apply = .idle
  applied : s'.node.lastApplied = s.node.commitIndex
  commit : s'.node.commitIndex = s.node.commitIndex
  signal : s'.node.applyCh = s.node.applyCh

/-- The loop comes from `s` to a state in which it waits for a signal that is not there, with
everything applied, and applies `es` on the way. -/
structure Drains (s : Server) (es : List LogEntry) (s' : Server) : Prop where
  loops : Loops s es s'
  waits : s'.apply = .idle
  signal : s'.node.applyCh = false
  applied : s'.node.lastApplied = s.node.commitIndex
  commit : s'.node.commitIndex = s.node.commitIndex

section Loop

variable {s : Server}

/-- The loop gets on to a state from which it drains. -/
theorem Loops.drains {s₁ s' : Server} {es es' : List LogEntry} (h : Loops s es s₁)
    (hd : Drains s₁ es' s') (hc : s₁.node.commitIndex = s.node.commitIndex) :
    Drains s (es ++ es') s' :=
  ⟨h.trans hd.loops, hd.waits, hd.signal, hd.applied.trans hc, hd.commit.trans hc⟩

/-- A loop that has drained goes no further. -/
theorem Drains.applyLoop_eq_none {s' : Server} {es : List LogEntry} (hd : Drains s es s') :
    s'.applyLoop () = none := by
  unfold Server.applyLoop
  rw [hd.waits]
  exact if_neg (by simp [hd.signal])

theorem loops_wake (ha : s.apply = .idle) (hch : s.node.applyCh = true) :
    Loops s [] { s with node := { s.node with applyCh := false }, apply := .next } := by
  refine .single [] ?_ rfl
  rw [ha]
  exact if_pos ⟨ha, hch⟩

theorem loops_read (ha : s.apply = .next) : Loops s [] s.applyRead := by
  refine .single [] ?_ rfl
  rw [ha]
  exact if_pos ha

theorem loops_done (ha : s.apply = .next) (h : s.node.commitIndex < s.node.lastApplied + 1) :
    Loops s [] { s with apply := .idle } := by
  have hread := loops_read ha
  rwa [Server.applyRead_of_lt h] at hread

theorem loops_call {k : ℕ} {e : LogEntry} {w : Option ℕ} (ha : s.apply = .read k e w) :
    Loops s (s.node.handed [e]) { s with apply := .applied k e w } := by
  refine .single (if s.node.sm ≠ .absent ∧ e.command.isSome then [.apply e] else []) ?_ ?_
  · rw [ha]
    simp only [ApplyLoop.event, Server.step, Server.stepApply, ha]
  · unfold Node.handed
    cases hc : e.command.isSome <;> by_cases hs : s.node.sm = .absent <;>
      simp [hc, hs, Output.applied]

theorem loops_write {k : ℕ} {e : LogEntry} {w : Option ℕ} (ha : s.apply = .applied k e w) :
    Loops s [] { s with node := { s.node with lastApplied := k }, apply := .written e w } := by
  refine .single [] ?_ rfl
  rw [ha]
  simp only [ApplyLoop.event, Server.step, Server.stepApply, ha]

theorem loops_notify {e : LogEntry} {w : Option ℕ} (ha : s.apply = .written e w) :
    Loops s [] { s with apply := .next } := by
  refine .single (w.map fun ch => Output.result ch ⟨true, e.index, e.term⟩).toList ?_ ?_
  · rw [ha]
    simp only [ApplyLoop.event, Server.step, Server.stepApply, ha]
  · cases w <;> rfl

/-- A round of the inner loop: the next entry is applied. -/
theorem loops_round (ha : s.apply = .next) (hle : s.node.lastApplied + 1 ≤ s.node.commitIndex)
    {e : LogEntry} (he : entryAt s.node.logEntries (s.node.lastApplied + 1) = some e) :
    Loops s (s.node.handed [e]) { s with
      apply := .next
      node := { s.node with
        lastApplied := s.node.lastApplied + 1
        commitWaits := s.node.commitWaits.erase (s.node.lastApplied + 1) } } := by
  have hread := loops_read ha
  rw [Server.applyRead_of_some hle he] at hread
  have hrest := (loops_call (s := { s with
    apply := .read (s.node.lastApplied + 1) e
      (s.node.commitWaits.lookup (s.node.lastApplied + 1))
    node := { s.node with
      commitWaits := s.node.commitWaits.erase (s.node.lastApplied + 1) } }) rfl).trans
    ((loops_write rfl).trans (loops_notify rfl))
  have hround := hread.trans hrest
  rw [List.nil_append, List.append_nil, List.append_nil] at hround
  exact hround

/-- From the floor on, the inner loop applies one entry after the other. -/
theorem reachesCommit_of_next {d : ℕ} (hr : s.node.Readable) (ha : s.apply = .next)
    (hf : firstIndex s.node.logEntries ≤ s.node.lastApplied + 1)
    (hd : s.node.lastApplied + d = s.node.commitIndex) :
    ∃ s', ReachesCommit s (s.node.handed (s.node.above s.node.lastApplied)) s' := by
  induction d generalizing s with
  | zero =>
    have hdone : s.node.lastApplied = s.node.commitIndex := hd
    refine ⟨{ s with apply := .idle }, ?_, rfl, hdone, rfl, rfl⟩
    rw [hdone, Node.above_self]
    simpa [Node.handed] using loops_done ha (by omega)
  | succ d ih =>
    have hlt : s.node.lastApplied + 1 ≤ s.node.commitIndex := by omega
    obtain ⟨e, he⟩ := Option.ne_none_iff_exists'.1 fun hnone =>
      absurd (hr.lt_first hlt hnone) (Nat.not_lt.2 hf)
    obtain ⟨s', hcatch⟩ := ih (s := { s with
      apply := .next
      node := { s.node with
        lastApplied := s.node.lastApplied + 1
        commitWaits := s.node.commitWaits.erase (s.node.lastApplied + 1) } })
      ⟨hr.wellFormed, hr.placeholder, hr.first_le, hr.commit_le⟩ rfl (Nat.le_succ_of_le hf) (by
        show s.node.lastApplied + 1 + d = s.node.commitIndex
        omega)
    refine ⟨s', ?_, hcatch.waits, hcatch.applied, hcatch.commit, hcatch.signal⟩
    rw [Node.above_of_lt (by omega), he, Node.handed_append]
    exact (loops_round ha hlt he).trans hcatch.loops

/-- Waiting, the loop is done, or it has a signal and catches up. -/
theorem drains_of_idle (hr : s.node.Readable) (ha : s.apply = .idle)
    (hf : firstIndex s.node.logEntries ≤ s.node.lastApplied)
    (hle : s.node.lastApplied ≤ s.node.commitIndex)
    (hdone : s.node.lastApplied = s.node.commitIndex ∨ s.node.applyCh = true) :
    ∃ s', Drains s (s.node.handed (s.node.above s.node.lastApplied)) s' := by
  cases hch : s.node.applyCh with
  | false =>
    have hdone : s.node.lastApplied = s.node.commitIndex := by simpa [hch] using hdone
    refine ⟨s, ?_, ha, hch, hdone, rfl⟩
    rw [hdone, Node.above_self]
    simpa [Node.handed] using Loops.refl s
  | true =>
    obtain ⟨s', hcatch⟩ := reachesCommit_of_next
      (s := { s with node := { s.node with applyCh := false }, apply := .next })
      (d := s.node.commitIndex - s.node.lastApplied)
      ⟨hr.wellFormed, hr.placeholder, hr.first_le, hr.commit_le⟩ rfl (Nat.le_succ_of_le hf)
      (Nat.add_sub_of_le hle)
    exact ⟨s', (loops_wake ha hch).trans hcatch.loops, hcatch.waits, hcatch.signal, hcatch.applied,
      hcatch.commit⟩

/-- At the top of the inner loop: below the floor it skips to it, and needs a signal to go on. -/
theorem drains_of_next (hr : s.node.Readable) (ha : s.apply = .next)
    (hle : s.node.lastApplied ≤ s.node.commitIndex)
    (hbehind : s.node.lastApplied < firstIndex s.node.logEntries →
      s.node.commitIndex = firstIndex s.node.logEntries ∨ s.node.applyCh = true) :
    ∃ s', Drains s (s.node.handed (s.node.above s.node.lastApplied)) s' := by
  rcases Nat.lt_or_ge (s.node.lastApplied + 1) (firstIndex s.node.logEntries) with hlow | hhigh
  · have hread := loops_read ha
    rw [Server.applyRead_of_none (hlow.le.trans hr.first_le) hlow.le
      (entryAt_eq_none.2 (.inl hlow))] at hread
    obtain ⟨s', hd⟩ := drains_of_idle (s := { s with
      apply := .idle
      node := { s.node with lastApplied := firstIndex s.node.logEntries } })
      ⟨hr.wellFormed, hr.placeholder, hr.first_le, hr.commit_le⟩ rfl le_rfl hr.first_le
      ((hbehind (by omega)).imp_left Eq.symm)
    refine ⟨s', ?_⟩
    rw [hr.handed_above (by omega)]
    exact hread.drains hd rfl
  · obtain ⟨s₁, hcatch⟩ := reachesCommit_of_next
      (d := s.node.commitIndex - s.node.lastApplied) hr ha hhigh (Nat.add_sub_of_le hle)
    cases hch : s.node.applyCh with
    | false =>
      exact ⟨s₁, hcatch.loops, hcatch.waits, hcatch.signal.trans hch, hcatch.applied,
        hcatch.commit⟩
    | true =>
      -- one more signal came meanwhile, for something already applied
      have hwake := loops_wake hcatch.waits (hcatch.signal.trans hch)
      have hlt : s₁.node.commitIndex < s₁.node.lastApplied + 1 := by
        rw [hcatch.applied, hcatch.commit]
        exact Nat.lt_succ_self _
      have hloops := hcatch.loops.trans (hwake.trans (loops_done rfl hlt))
      rw [List.append_nil, List.append_nil] at hloops
      exact ⟨_, hloops, rfl, rfl, hcatch.applied, hcatch.commit⟩

/-- From anywhere in a round, the loop comes to the top of the inner loop. -/
theorem Wakes.drains (hw : Wakes s) (happ : Applicable s) : ∃ s', Drains s s.pending s' := by
  have hr := happ.toReadable
  have hpos := happ.position_le
  have hbehind := hw.behind
  unfold Server.pending
  unfold Server.position at hpos hbehind ⊢
  cases ha : s.apply with
  | idle => exact drains_of_idle hr ha (hw.idle ha).1 happ.applied_le (hw.idle ha).2
  | next =>
    rw [ha] at hbehind
    exact drains_of_next hr ha happ.applied_le (hbehind nofun)
  | written e w =>
    rw [ha] at hbehind
    obtain ⟨s', hd⟩ := drains_of_next (s := { s with apply := .next }) hr rfl happ.applied_le
      (hbehind nofun)
    exact ⟨s', (loops_notify ha).drains hd rfl⟩
  | applied k e w =>
    rw [ha] at hpos hbehind
    obtain ⟨s', hd⟩ := drains_of_next
      (s := { s with node := { s.node with lastApplied := k }, apply := .next })
      ⟨hr.wellFormed, hr.placeholder, hr.first_le, hr.commit_le⟩ rfl hpos (hbehind nofun)
    exact ⟨s', (loops_write ha).drains ((loops_notify rfl).drains hd rfl) rfl⟩
  | read k e w =>
    rw [ha] at hpos hbehind
    obtain ⟨s', hd⟩ := drains_of_next
      (s := { s with node := { s.node with lastApplied := k }, apply := .next })
      ⟨hr.wellFormed, hr.placeholder, hr.first_le, hr.commit_le⟩ rfl hpos (hbehind nofun)
    refine ⟨s', ?_⟩
    show Drains s (s.node.handed ([e] ++ s.node.above k)) s'
    rw [Node.handed_append]
    exact (loops_call ha).drains ((loops_write rfl).drains ((loops_notify rfl).drains hd rfl) rfl)
      rfl

end Loop

/-! ## Runs of the cluster -/

section Runs

variable {members : List String} {sm : String → StateMachineKind} {c : Cluster}
  {h : List (String × Output)} {g : Ghost} {i : String}

theorem NodeSim.applicable {s : Server} (hn : NodeSim members g i s) : Applicable s where
  wellFormed := hn.mirrors.log.wellFormed
  placeholder := by
    obtain ⟨e, he, hcmd, -⟩ := hn.mirrors.log.placeholder
    exact ⟨e, he, hcmd⟩
  first_le := hn.mirrors.first_le
  commit_le := hn.mirrors.commit_le.trans hn.mirrors.log.lastIndex_eq.ge
  position_le := by
    unfold Server.position
    cases hfly : s.apply.inFlight with
    | none => exact hn.applies.applied_le
    | some k => exact hn.applies.inFlight_le k hfly
  applied_le := hn.applies.applied_le
  taking_le rs hrs := (hn.snapshots.taking rs hrs).1

/-- What members send fits. -/
theorem Sim.fits (hsim : Sim members c h g) {ev : Event}
    (hok : ReplicatesSoundly members c h (i, ev)) : Fits (c i) ev := by
  obtain ⟨⟨⟨-, hdel⟩, -⟩, hkeep⟩ := hok
  cases ev with
  | handleAppendEntries args =>
    obtain ⟨⟨j, o⟩, hm, rfl⟩ := hdel
    obtain ⟨L, hL⟩ := hsim.sent j _ hm
    show Indexed (args.prevLogIndex + 1) args.entries
    rw [← hL.entries, Nat.add_comm]
    exact hL.indexed.drop _
  | handleInstallSnapshot args =>
    intro ht hnew
    obtain ⟨⟨j, o⟩, hm, rfl⟩ := hdel
    obtain ⟨hled, hcov⟩ := hsim.sent j _ hm
    obtain ⟨-, -, -, hle⟩ := (hsim.node i).mirrors.installed hsim.inv hled hcov ht hnew hkeep
    exact hle
  | restart => exact hdel
  | _ => trivial

theorem wakes_run (hnd : members.Nodup)
    (r : Run Cluster.step (ReplicatesSoundly members) (Cluster.boot members sm) [] c h) :
    ClusterElects members c h ∧ (∃ g, Sim members c h g) ∧ ∀ i, Wakes (c i) := by
  refine r.invariant
    (I := fun c h => ClusterElects members c h ∧ (∃ g, Sim members c h g) ∧ ∀ i, Wakes (c i))
    ⟨⟨nofun, elects_boot members sm⟩, ⟨_, sim_boot members sm⟩, wakes_boot members sm⟩ ?_
  rintro c h ⟨j, ev⟩ c' out ⟨hel, ⟨g, hsim⟩, hw⟩ hok hs
  obtain ⟨g', hsim', -⟩ := hsim.step hel hnd hok hs
  refine ⟨hel.step hnd hok.1 hs, ⟨g', hsim'⟩, fun i => ?_⟩
  unfold Cluster.step at hs
  split at hs
  next s' o hstep =>
    cases hs
    by_cases hi : i = j
    · subst hi
      rw [Function.update_self]
      exact (hw i).step (hsim.node i).applicable (hsim.fits hok) hstep
    · rw [Function.update_of_ne hi]
      exact hw i
  next => cases hs

/-- **The apply loop catches up**: in every state of a run, the apply loop of a member, left alone,
comes after finitely many steps to wait for a signal with everything committed applied, and on the
way hands to the state machine the entries that were committed and not yet applied, in order and
each once. -/
theorem applyLoop_drains (hnd : members.Nodup)
    (r : Run Cluster.step (ReplicatesSoundly members) (Cluster.boot members sm) [] c h)
    (i : String) : ∃ s', Drains (c i) (c i).pending s' := by
  obtain ⟨-, ⟨g, hsim⟩, hw⟩ := wakes_run hnd r
  exact (hw i).drains (hsim.node i).applicable

end Runs

/-- Where the leader has two entries committed, and the loop is about to apply the first. -/
theorem applyLoop_drains_of_commit : ∃ c h, Run Cluster.step (ReplicatesSoundly ["a", "b", "c"])
      (Cluster.boot ["a", "b", "c"] fun _ => .plain) [] c h ∧
    (c "a").node.commitIndex = 2 ∧ (c "a").apply.inFlight = some 1 ∧
    ∃ s', Drains (c "a") [⟨1, 1, some [7]⟩, ⟨1, 2, some [8]⟩] s' := by
  obtain ⟨c, h, r, hc, hfly, hp⟩ := exists_run_of_exec Cluster.step
    (ReplicatesSoundly ["a", "b", "c"]) (Cluster.boot ["a", "b", "c"] fun _ => .plain) []
    [("a", .dispatch), ("a", .followerTimeout), ("a", .dispatch), ("a", .startElection),
      ("b", .handleRequestVote ⟨1, "a", 0, 0⟩), ("a", .voteReply "b" ⟨1, true⟩),
      ("a", .wonElection), ("a", .voteError "c"), ("a", .electionDone), ("a", .dispatch),
      ("a", .drainStepDown), ("a", .propose (some [7])), ("a", .propose (some [8])),
      ("a", .sendAppend "b"),
      ("b", .handleAppendEntries
        ⟨1, "a", 0, 0, [⟨1, 1, some [7]⟩, ⟨1, 2, some [8]⟩], 0⟩),
      ("a", .appendReply "b"
        ⟨1, "a", 0, 0, [⟨1, 1, some [7]⟩, ⟨1, 2, some [8]⟩], 0⟩ ⟨1, true⟩),
      ("a", .applyWake), ("a", .applyRead)]
    (fun c _ => (c "a").node.commitIndex = 2 ∧ (c "a").apply.inFlight = some 1 ∧
      (c "a").pending = [⟨1, 1, some [7]⟩, ⟨1, 2, some [8]⟩]) (by decide +kernel)
  obtain ⟨s', hd⟩ := applyLoop_drains (by decide) r "a"
  rw [hp] at hd
  exact ⟨c, h, r, hc, hfly, s', hd⟩

end Driftless.Raft
