import Driftless.Raft.Server

/-!
# The waiters of `Propose`

`Propose` registers its channel under the index of the entry it appends, and the apply loop
delivers `Committed: true` to the channel registered under the index it applies. The two entries
are the same as long as no entry with a waiter is taken out of the log (`KeepsWaiters`):
`committed_own`. A conflicting AppendEntries does take such entries out, and leaves their
waiters: `committed_other`.
-/

namespace Driftless.Raft

/-- The entry and the waiter the apply loop has in hand. -/
def ApplyLoop.holding : ApplyLoop → Option (LogEntry × ℕ)
  | .read _ entry (some ch) => some (entry, ch)
  | .applied _ entry (some ch) => some (entry, ch)
  | .written entry (some ch) => some (entry, ch)
  | _ => none

/-- The apply loop has been at index `i` and does not come back to it. -/
def Server.Passed (s : Server) (i : ℕ) : Prop :=
  i ≤ s.node.lastApplied ∧ ∀ next, s.apply.inFlight = some next → i ≤ next

/-- The state machine was called with the entry, if there is one and the entry has a command. -/
def HandedOver (sm : StateMachineKind) (h : List Output) (e : LogEntry) : Prop :=
  sm ≠ .absent → e.command.isSome = true → Output.apply e ∈ h

/-- In a run to `s`, a call `Propose(cmd)` appended the entry and returned the channel. -/
def Proposes (ok : Server → List Output → Event → Prop) (s₀ s : Server) (h : List Output)
    (cmd : Option Bytes) (ch : ℕ) (e : LogEntry) : Prop :=
  ∃ s₁ h₁ s₂, Run Server.step ok s₀ [] s₁ h₁ ∧ ok s₁ h₁ (.propose cmd) ∧
    s₁.step (.propose cmd) = some (s₂, [.proposed ch e]) ∧
    Run Server.step ok s₂ (h₁ ++ [.proposed ch e]) s h

/-- The steps of a node without `TakeSnapshot` and crashes, on requests whose entries carry
consecutive indices. -/
def ProposerSteps (_ : Server) (_ : List Output) : Event → Prop
  | .handleAppendEntries args => args.WellFormed
  | .beginSnapshot => False
  | .restart => False
  | _ => True

instance (s : Server) (h : List Output) (ev : Event) : Decidable (ProposerSteps s h ev) := by
  rcases ev <;> dsimp only [ProposerSteps] <;> infer_instance

/-- No entry with a registered waiter is taken out of the log: an AppendEntries that is accepted
does not conflict with it or with an entry below, and an installed snapshot reaches above it, or up
to it with no lower index in the hands of the apply loop. -/
def SparesWaiters (s : Server) : Event → Prop
  | .handleAppendEntries args => s.node.currentTerm ≤ args.term →
      Node.Consistent s.node.logEntries args → ∀ i ∈ s.node.commitWaits.keys, ∀ e ∈ args.entries,
        firstIndex s.node.logEntries < e.index → e.index ≤ i →
          termAt s.node.logEntries e.index = e.term
  | .handleInstallSnapshot args => s.node.currentTerm ≤ args.term →
      Node.Newer s.node.logEntries args → ∀ i ∈ s.node.commitWaits.keys,
        i < args.lastIncludedIndex ∨ (i = args.lastIncludedIndex ∧
          ∀ next ∈ s.apply.inFlight, i ≤ next)
  | _ => True

instance (s : Server) (ev : Event) : Decidable (SparesWaiters s ev) := by
  rcases ev <;> dsimp only [SparesWaiters] <;> infer_instance

def KeepsWaiters (s : Server) (h : List Output) (ev : Event) : Prop :=
  ProposerSteps s h ev ∧ SparesWaiters s ev

instance (s : Server) (h : List Output) (ev : Event) : Decidable (KeepsWaiters s h ev) :=
  inferInstanceAs (Decidable (_ ∧ _))

/-! ## The invariant -/

/-- The waiter registered under `i` belongs to the entry at `i`, or `i` is behind the apply
loop and below the log. -/
def Owns (s : Server) (h : List Output) (i ch : ℕ) : Prop :=
  0 < i ∧ ∃ e, .proposed ch e ∈ h ∧
    (i < firstIndex s.node.logEntries ∨ (i = firstIndex s.node.logEntries ∧ s.Passed i) ∨
      (firstIndex s.node.logEntries < i ∧ entryAt s.node.logEntries i = some e))

/-- Every channel belongs to one proposal. -/
structure ChannelsFresh (s : Server) (h : List Output) : Prop where
  lt : ∀ ch e, .proposed ch e ∈ h → ch < s.chans
  unique : ∀ ch e e', .proposed ch e ∈ h → .proposed ch e' ∈ h → e = e'

/-- Every registered waiter belongs to the entry at its index. -/
structure WaitersOwn (s : Server) (h : List Output) : Prop where
  wellFormed : WellFormed s.node.logEntries
  idle : s.snapshot = .idle
  registered : ∀ i ch, s.node.commitWaits.lookup i = some ch → Owns s h i ch

/-- The entry in the hands of the apply loop is the one its waiter proposed, and so was every
entry whose commit was reported. -/
structure ResultsOwn (s : Server) (h : List Output) : Prop where
  holding : ∀ e ch, s.apply.holding = some (e, ch) → .proposed ch e ∈ h
  handed : ∀ e ch, s.apply.holding = some (e, ch) →
    (∃ idx w, s.apply = .read idx e w) ∨ HandedOver s.node.sm h e
  results : ∀ ch i t, .result ch ⟨true, i, t⟩ ∈ h →
    ∃ e, .proposed ch e ∈ h ∧ e.index = i ∧ e.term = t ∧ HandedOver s.node.sm h e

section Step

variable {s s' : Server} {ev : Event} {h out : List Output}

theorem Owns.mono {i ch : ℕ} (ho : Owns s h i ch)
    (hf : firstIndex s'.node.logEntries = firstIndex s.node.logEntries)
    (he : firstIndex s.node.logEntries < i →
      entryAt s'.node.logEntries i = entryAt s.node.logEntries i)
    (hp : i = firstIndex s.node.logEntries → s.Passed i → s'.Passed i) :
    Owns s' (h ++ out) i ch := by
  obtain ⟨hpos, e, hm, hpl⟩ := ho
  refine ⟨hpos, e, List.mem_append_left _ hm, ?_⟩
  rw [hf]
  rcases hpl with hlt | ⟨heq, hpass⟩ | ⟨hgt, hent⟩
  · exact .inl hlt
  · exact .inr (.inl ⟨heq, hp heq hpass⟩)
  · exact .inr (.inr ⟨hgt, (he hgt).trans hent⟩)

/-- A step that leaves the log alone and registers nobody. -/
theorem WaitersOwn.of_log (hi : WaitersOwn s h) (hsn : s'.snapshot = s.snapshot)
    (hlog : s'.node.logEntries = s.node.logEntries)
    (hw : ∀ i ch, s'.node.commitWaits.lookup i = some ch → s.node.commitWaits.lookup i = some ch)
    (hp : ∀ i, s.Passed i → i = firstIndex s.node.logEntries → s'.Passed i) :
    WaitersOwn s' (h ++ out) where
  wellFormed := hlog ▸ hi.wellFormed
  idle := hsn.trans hi.idle
  registered i ch hl := (hi.registered i ch (hw i ch hl)).mono (by rw [hlog])
    (fun _ => by rw [hlog]) fun heq hpass => hp i hpass heq

theorem WaitersOwn.of_held (hi : WaitersOwn s h) (hsn : s'.snapshot = s.snapshot)
    (hh : s'.node.held = s.node.held) (ha : s'.apply = s.apply) : WaitersOwn s' (h ++ out) := by
  refine hi.of_log hsn (Node.logEntries_of_held hh) (fun i ch hl => ?_) fun i hp _ => ?_
  · rwa [Node.commitWaits_of_held hh] at hl
  · exact ⟨Node.lastApplied_of_held hh ▸ hp.1, ha ▸ hp.2⟩

theorem WaitersOwn.handleAppendEntries (hi : WaitersOwn s h) (args : AppendEntriesArgs)
    (hok : KeepsWaiters s h (.handleAppendEntries args)) :
    WaitersOwn { s with node := (s.node.handleAppendEntries args).1 } (h ++ out) := by
  rcases s.node.handleAppendEntries_cases args with ⟨-, he⟩ | ⟨-, -, he⟩ | ⟨ht, hc, he⟩
  · exact hi.of_held rfl (congrArg (fun x => x.1.held) he) rfl
  · exact hi.of_held rfl
      ((congrArg (fun x => x.1.held) he).trans (s.node.recognizeLeader_held _)) rfl
  · have hidx : args.prevLogIndex + 1 ≤ lastIndex s.node.logEntries + 1 := Nat.succ_le_succ hc.1
    have happ := appended_appendEntries hi.wellFormed hok.1 hidx
    have hheld := s.node.recognizeLeader_held args.term
    rw [he]
    refine ⟨happ.wellFormed, hi.idle, fun i ch hl => ?_⟩
    have hold : s.node.commitWaits.lookup i = some ch := Node.commitWaits_of_held hheld ▸ hl
    have hkey : i ∈ s.node.commitWaits.keys := AList.lookup_isSome.1 (by rw [hold]; rfl)
    refine (hi.registered i ch hold).mono happ.firstIndex_eq (fun hgt => ?_) fun _ hp =>
      ⟨Node.lastApplied_of_held hheld ▸ hp.1, hp.2⟩
    obtain ⟨-, e, -, hlt | ⟨heq, -⟩ | ⟨-, hent⟩⟩ := hi.registered i ch hold
    · omega
    · omega
    · exact entryAt_appendEntries_of_agree hi.wellFormed hok.1 hidx (entryAt_bounds hent).2
        (hok.2 ht hc i hkey) i le_rfl

theorem WaitersOwn.install (hi : WaitersOwn s h) (args : InstallSnapshotArgs)
    (ht : s.node.currentTerm ≤ args.term) (hn : Node.Newer s.node.logEntries args)
    (hok : KeepsWaiters s h (.handleInstallSnapshot args)) {r : InstallSnapshotReply} :
    WaitersOwn { s with node := s.node.installed args, installs := s.installs ++ [(args, r)] }
      (h ++ out) := by
  refine ⟨wellFormed_singleton _, hi.idle, fun i ch hl => ?_⟩
  rw [Node.installed_commitWaits] at hl
  obtain ⟨hpos, e, hm, -⟩ := hi.registered i ch hl
  refine ⟨hpos, e, List.mem_append_left _ hm, ?_⟩
  show i < args.lastIncludedIndex ∨ (i = args.lastIncludedIndex ∧ _) ∨ _
  rcases hok.2 ht hn i (AList.lookup_isSome.1 (by rw [hl]; rfl)) with hlt | ⟨heq, hfl⟩
  · exact .inl hlt
  · exact .inr (.inl ⟨heq, le_of_eq heq, fun next hx => hfl next hx⟩)

theorem WaitersOwn.propose (hi : WaitersOwn s h) {cmd : Option Bytes} {n : Node} {e : LogEntry}
    (hp : s.node.propose cmd s.chans = some (n, e)) :
    WaitersOwn { s with node := n, chans := s.chans + 1 } (h ++ [.proposed s.chans e]) := by
  obtain ⟨-, hlog, hwaits, hidx, -, hla⟩ := Node.propose_spec hp
  have hle := hi.wellFormed.firstIndex_le_lastIndex
  refine ⟨hlog ▸ hi.wellFormed.concat hidx, hi.idle, fun i ch hl => ?_⟩
  by_cases hie : i = e.index
  · -- the new waiter
    have hch : ch = s.chans := by
      rw [hwaits, hie, AList.lookup_insert, Option.some.injEq] at hl
      exact hl.symm
    refine ⟨by omega, e, hch ▸ by simp, .inr (.inr ?_)⟩
    rw [hlog, firstIndex_append hi.wellFormed.ne_nil, entryAt_concat hi.wellFormed hidx,
      if_pos (by omega)]
    exact ⟨by omega, rfl⟩
  · have hold : s.node.commitWaits.lookup i = some ch := by
      rwa [hwaits, AList.lookup_insert_ne hie] at hl
    refine (hi.registered i ch hold).mono ?_ (fun _ => ?_) fun _ hpass => ⟨hla ▸ hpass.1, hpass.2⟩
    · rw [hlog, firstIndex_append hi.wellFormed.ne_nil]
    · rw [hlog, entryAt_concat hi.wellFormed hidx, if_neg (by omega)]

theorem WaitersOwn.step (hi : WaitersOwn s h) (hok : KeepsWaiters s h ev)
    (hs : Server.Step s ev s' out) : WaitersOwn s' (h ++ out) := by
  cases hs with
  | abortPendingProposals =>
    refine hi.of_log rfl rfl (fun i ch hl => ?_) fun i hp _ => hp
    rw [Node.abortPendingProposals, lookup_foldl_erase] at hl
    split_ifs at hl
    exact hl
  | sendAppend p n args hr hidle hp hl hsend =>
    exact hi.of_held rfl (Node.sendAppend_held hsend) rfl
  | appendReply p args reply hw =>
    exact hi.of_held rfl (s.node.handleAppendReply_held p args reply) rfl
  | installReply p args reply hw =>
    exact hi.of_held rfl (s.node.handleInstallReply_held p args reply) rfl
  | handleRequestVote args => exact hi.of_held rfl (s.node.handleRequestVote_held args) rfl
  | handleAppendEntries args => exact hi.handleAppendEntries args hok
  | installOld args ht ho => exact hi.of_held rfl (s.node.recognizeLeader_held _) rfl
  | install args ht ho => exact hi.install args ht ho hok
  | propose cmd n entry hp => exact hi.propose hp
  | applyWake ha => exact hi.of_log rfl rfl (fun _ _ => id) fun i hp _ => ⟨hp.1, nofun⟩
  | applyIdle ha => exact hi.of_log rfl rfl (fun _ _ => id) fun i hp _ => ⟨hp.1, nofun⟩
  | applySkip ha hf hc hn =>
    exact hi.of_log rfl rfl (fun _ _ => id) fun i hp heq => ⟨le_of_eq heq, nofun⟩
  | applyRead entry ha hc he =>
    refine hi.of_log rfl rfl (fun i ch hl => ?_) fun i hp _ => ⟨hp.1, ?_⟩
    · by_cases hin : i = s.node.lastApplied + 1
      · rw [hin, AList.lookup_erase] at hl
        cases hl
      · rwa [AList.lookup_erase_ne hin] at hl
    · rintro idx ⟨⟩
      have := hp.1
      omega
  | applyCall idx entry waiter ha =>
    refine hi.of_log rfl rfl (fun _ _ => id) fun i hp _ => ⟨hp.1, ?_⟩
    rintro _ ⟨⟩
    exact hp.2 idx (by rw [ha]; rfl)
  | applyWrite idx entry waiter ha =>
    exact hi.of_log rfl rfl (fun _ _ => id) fun i hp _ => ⟨hp.2 idx (by rw [ha]; rfl), nofun⟩
  | applyNotify entry waiter ha =>
    exact hi.of_log rfl rfl (fun _ _ => id) fun i hp _ => ⟨hp.1, nofun⟩
  | beginSnapshot => exact hok.1.elim
  | serialize rs d hsn | serializeError rs hsn | saveSnapshot rs hsn | saveError rs hsn
  | finishSnapshot rs hsn =>
    rw [hi.idle] at hsn
    cases hsn
  | restart => exact hok.1.elim
  | _ => exact hi.of_held rfl rfl rfl

theorem ChannelsFresh.step (hi : ChannelsFresh s h) (hne : ev ≠ .restart)
    (hs : Server.Step s ev s' out) : ChannelsFresh s' (h ++ out) := by
  have keep : (∀ ch e, .proposed ch e ∉ out) → s'.chans = s.chans →
      ChannelsFresh s' (h ++ out) := by
    intro hout hch
    have hold : ∀ ch e, .proposed ch e ∈ h ++ out → .proposed ch e ∈ h := fun ch e hm =>
      (List.mem_append.1 hm).resolve_right (hout ch e)
    exact ⟨fun ch e hm => hch ▸ hi.lt ch e (hold ch e hm),
      fun ch e e' hm hm' => hi.unique ch e e' (hold ch e hm) (hold ch e' hm')⟩
  cases hs with
  | propose cmd n entry hp =>
    have hmem : ∀ ch e, .proposed ch e ∈ h ++ [.proposed s.chans entry] →
        .proposed ch e ∈ h ∨ (ch = s.chans ∧ e = entry) := by
      intro ch e hm
      simpa using hm
    refine ⟨fun ch e hm => ?_, fun ch e e' hm hm' => ?_⟩
    · rcases hmem ch e hm with hold | ⟨rfl, -⟩
      · exact Nat.lt_succ_of_lt (hi.lt ch e hold)
      · exact Nat.lt_succ_self _
    · rcases hmem ch e hm with o₁ | ⟨h₁, rfl⟩ <;> rcases hmem ch e' hm' with o₂ | ⟨h₂, rfl⟩
      · exact hi.unique ch e e' o₁ o₂
      · exact absurd (hi.lt ch e o₁) (by omega)
      · exact absurd (hi.lt ch e' o₂) (by omega)
      · rfl
  | applyCall => exact keep (by split_ifs <;> simp) rfl
  | abortPendingProposals => exact keep (by simp) rfl
  | applyNotify => exact keep (by simp) rfl
  | restart => exact absurd rfl hne
  | _ => exact keep (by simp) rfl

theorem HandedOver.mono {sm : StateMachineKind} {e : LogEntry} (hh : HandedOver sm h e) :
    HandedOver sm (h ++ out) e :=
  fun hsm hc => List.mem_append_left _ (hh hsm hc)

/-- What was reported before stays true. -/
theorem ResultsOwn.old (hi : ResultsOwn s h) (hsm : s'.node.sm = s.node.sm) {ch i t : ℕ}
    (hm : .result ch ⟨true, i, t⟩ ∈ h) : ∃ e, .proposed ch e ∈ h ++ out ∧ e.index = i ∧
      e.term = t ∧ HandedOver s'.node.sm (h ++ out) e := by
  obtain ⟨e, hp, hix, htm, hh⟩ := hi.results ch i t hm
  exact ⟨e, List.mem_append_left _ hp, hix, htm, hsm ▸ hh.mono⟩

/-- A step that reports no commit and leaves the apply loop where it is. -/
theorem ResultsOwn.keep (hi : ResultsOwn s h) (hsm : s'.node.sm = s.node.sm)
    (hout : ∀ ch i t, .result ch ⟨true, i, t⟩ ∉ out) (ha : s'.apply = s.apply) :
    ResultsOwn s' (h ++ out) where
  holding e ch hh := List.mem_append_left _ (hi.holding e ch (ha ▸ hh))
  handed e ch hh := by
    rw [ha] at hh ⊢
    rw [hsm]
    exact (hi.handed e ch hh).imp_right HandedOver.mono
  results ch i t hm := hi.old hsm ((List.mem_append.1 hm).resolve_right (hout ch i t))

/-- A step that reports no commit and after which the apply loop holds nothing. -/
theorem ResultsOwn.empty (hi : ResultsOwn s h) (hsm : s'.node.sm = s.node.sm)
    (hout : ∀ ch i t, .result ch ⟨true, i, t⟩ ∉ out) (ha : s'.apply.holding = none) :
    ResultsOwn s' (h ++ out) where
  holding e ch hh := by cases ha.symm.trans hh
  handed e ch hh := by cases ha.symm.trans hh
  results ch i t hm := hi.old hsm ((List.mem_append.1 hm).resolve_right (hout ch i t))

/-- The apply loop takes the entry in hand, with the waiter at its index. -/
theorem ResultsOwn.read (hi : ResultsOwn s h) (hw : WaitersOwn s h) {idx : ℕ} {entry : LogEntry}
    (hidx : idx = s.node.lastApplied + 1) (he : entryAt s.node.logEntries idx = some entry)
    (hsm : s'.node.sm = s.node.sm)
    (ha : s'.apply = .read idx entry (s.node.commitWaits.lookup idx)) :
    ResultsOwn s' (h ++ []) where
  holding e ch hh := by
    rw [ha] at hh
    cases hl : s.node.commitWaits.lookup idx with
    | none => simp [ApplyLoop.holding, hl] at hh
    | some w =>
      obtain ⟨rfl, rfl⟩ : entry = e ∧ w = ch := by simpa [ApplyLoop.holding, hl] using hh
      obtain ⟨-, e', hm, hlt | ⟨heq, hp⟩ | ⟨-, hent⟩⟩ := hw.registered _ _ hl
      · exact absurd (entryAt_bounds he).1 (by omega)
      · exact absurd hp.1 (by omega)
      · obtain rfl : entry = e' := Option.some.inj (he.symm.trans hent)
        exact List.mem_append_left _ hm
  handed e ch hh := by
    rw [ha] at hh ⊢
    cases hl : s.node.commitWaits.lookup idx with
    | none => simp [ApplyLoop.holding, hl] at hh
    | some w =>
      obtain ⟨rfl, rfl⟩ : entry = e ∧ w = ch := by simpa [ApplyLoop.holding, hl] using hh
      exact .inl ⟨_, _, rfl⟩
  results ch i t hm := hi.old hsm (by simpa using hm)

/-- The state machine is called with the entry in hand. -/
theorem ResultsOwn.call (hi : ResultsOwn s h) {idx : ℕ} {entry : LogEntry} {waiter : Option ℕ}
    (ha : s.apply = .read idx entry waiter) (hsm : s'.node.sm = s.node.sm)
    (ha' : s'.apply = .applied idx entry waiter) :
    ResultsOwn s' (h ++ if s.node.sm ≠ .absent ∧ entry.command.isSome then [.apply entry]
      else []) where
  holding e ch hh := by
    refine List.mem_append_left _ (hi.holding e ch ?_)
    rw [ha]
    rw [ha'] at hh
    cases waiter with
    | none => cases hh
    | some w => exact hh
  handed e ch hh := by
    refine .inr fun h₁ h₂ => List.mem_append_right _ ?_
    obtain rfl : entry = e := by
      rw [ha'] at hh
      cases waiter with
      | none => cases hh
      | some w => cases hh; rfl
    rw [if_pos ⟨hsm ▸ h₁, h₂⟩]
    exact List.mem_singleton_self _
  results ch i t hm := by
    refine hi.old hsm ((List.mem_append.1 hm).resolve_right ?_)
    split_ifs <;> simp

/-- The index of the entry in hand is written to `lastApplied`. -/
theorem ResultsOwn.write (hi : ResultsOwn s h) {idx : ℕ} {entry : LogEntry} {waiter : Option ℕ}
    (ha : s.apply = .applied idx entry waiter) (hsm : s'.node.sm = s.node.sm)
    (ha' : s'.apply = .written entry waiter) : ResultsOwn s' (h ++ []) := by
  have hh' : s.apply.holding = s'.apply.holding := by
    rw [ha, ha']
    cases waiter <;> rfl
  refine ⟨fun e ch hh => ?_, fun e ch hh => ?_, fun ch i t hm => hi.old hsm (by simpa using hm)⟩
  · exact List.mem_append_left _ (hi.holding e ch (hh'.trans hh))
  · rcases hi.handed e ch (hh'.trans hh) with ⟨idx', w, hr⟩ | hd
    · rw [ha] at hr
      cases hr
    · exact .inr (hsm ▸ hd.mono)

/-- The waiter in hand is told of the entry in hand. -/
theorem ResultsOwn.notify (hi : ResultsOwn s h) {entry : LogEntry} {waiter : Option ℕ}
    (ha : s.apply = .written entry waiter) (hsm : s'.node.sm = s.node.sm)
    (ha' : s'.apply = .next) : ResultsOwn s'
      (h ++ (waiter.map fun ch => Output.result ch ⟨true, entry.index, entry.term⟩).toList) := by
  refine ⟨?_, ?_, fun ch i t hm => ?_⟩
  · rw [ha']
    exact nofun
  · rw [ha']
    exact nofun
  rcases List.mem_append.1 hm with hold | hnew
  · exact hi.old hsm hold
  cases waiter with
  | none => simp at hnew
  | some w =>
    obtain ⟨rfl, rfl, rfl⟩ : ch = w ∧ i = entry.index ∧ t = entry.term := by simpa using hnew
    have hhold : s.apply.holding = some (entry, ch) := by rw [ha]; rfl
    refine ⟨entry, List.mem_append_left _ (hi.holding _ _ hhold), rfl, rfl, ?_⟩
    rcases hi.handed _ _ hhold with ⟨idx', w, hr⟩ | hd
    · rw [ha] at hr
      cases hr
    · exact hsm ▸ hd.mono

theorem ResultsOwn.step (hi : ResultsOwn s h) (hw : WaitersOwn s h) (hok : KeepsWaiters s h ev)
    (hs : Server.Step s ev s' out) : ResultsOwn s' (h ++ out) := by
  have hsm := hs.sm_eq
  cases hs with
  | applyWake ha => exact hi.empty hsm (by simp) rfl
  | applyIdle ha => exact hi.empty hsm (by simp) rfl
  | applySkip ha hf hc hn => exact hi.empty hsm (by simp) rfl
  | applyRead entry ha hc he => exact hi.read hw rfl he hsm rfl
  | applyCall idx entry waiter ha => exact hi.call ha hsm rfl
  | applyWrite idx entry waiter ha => exact hi.write ha hsm rfl
  | applyNotify entry waiter ha => exact hi.notify ha hsm rfl
  | abortPendingProposals => exact hi.keep hsm (by simp [Node.abortPendingProposals]) rfl
  | restart => exact hok.1.elim
  | _ => exact hi.keep hsm (by simp) rfl

/-- Channels come from calls of `Propose`. -/
theorem propose_of_mem {ch : ℕ} {e : LogEntry} (hs : Server.Step s ev s' out)
    (hm : .proposed ch e ∈ out) : ev = .propose e.command ∧ out = [.proposed ch e] := by
  cases hs with
  | propose cmd n entry hp =>
    obtain ⟨rfl, rfl⟩ : ch = s.chans ∧ e = entry := by simpa using hm
    exact ⟨congrArg Event.propose (Node.propose_command hp).1.symm, rfl⟩
  | abortPendingProposals => simp at hm
  | applyCall => split_ifs at hm <;> simp at hm
  | applyNotify => simp at hm
  | _ => simp at hm

/-- The calls of `Propose` of a run, by their outputs. -/
theorem proposes_iff {ok : Server → List Output → Event → Prop} {s₀ : Server}
    (r : Run Server.step ok s₀ [] s h) {cmd : Option Bytes} {ch : ℕ} {e : LogEntry} :
    Proposes ok s₀ s h cmd ch e ↔ .proposed ch e ∈ h ∧ cmd = e.command := by
  constructor
  · rintro ⟨s₁, h₁, s₂, -, -, hstep, r₂⟩
    obtain ⟨hev, -⟩ := propose_of_mem (Server.step_inv hstep) (List.mem_singleton_self _)
    exact ⟨r₂.history_prefix.subset (by simp), Event.propose.inj hev⟩
  · rintro ⟨hm, rfl⟩
    obtain ⟨s₁, h₁, ev, s₂, out, r₁, hok, hstep, hout, r₂⟩ :=
      (r.exists_step_of_mem hm).resolve_left (by simp)
    obtain ⟨rfl, rfl⟩ := propose_of_mem (Server.step_inv hstep) hout
    exact ⟨s₁, h₁, s₂, r₁, hok, hstep, r₂⟩

end Step

/-- **A committed result is for the proposer's own command**, in every run that takes no entry with
a waiter out of the log: the channel was returned by one call `Propose(cmd)`, the index and term it
reports are those of the entry that this call appended with its command, and that entry was handed
to the state machine. -/
theorem committed_own {id : String} {peers : List String} {sm : StateMachineKind}
    {store : Option RaftSnapshot} {s : Server} {h : List Output}
    (r : Run Server.step KeepsWaiters (Server.boot id peers sm store) [] s h) {ch i t : ℕ}
    (hres : .result ch ⟨true, i, t⟩ ∈ h) :
    ∃ cmd, (∀ cmd' e, Proposes KeepsWaiters (Server.boot id peers sm store) s h cmd' ch e ↔
        cmd' = cmd ∧ e = ⟨t, i, cmd⟩) ∧ HandedOver sm h ⟨t, i, cmd⟩ := by
  have hinv : (ChannelsFresh s h ∧ s.node.sm = sm) ∧ WaitersOwn s h ∧ ResultsOwn s h := by
    refine r.invariant (I := fun s h => (ChannelsFresh s h ∧ s.node.sm = sm) ∧ WaitersOwn s h ∧
      ResultsOwn s h) ⟨⟨⟨nofun, nofun⟩, ?_⟩, ⟨Server.wellFormed_boot _ _ _ _, rfl, ?_⟩,
        ⟨nofun, nofun, nofun⟩⟩ ?_
    · exact Server.boot_sm id peers sm store
    · intro i ch hl
      cases store <;> cases hl
    · intro s h ev s' out ⟨⟨hc, hsm⟩, hw, hr⟩ hok hs
      have hstep := Server.step_inv hs
      have hne : ev ≠ .restart := by
        rintro rfl
        exact hok.1
      exact ⟨⟨hc.step hne hstep, hstep.sm_eq.trans hsm⟩, hw.step hok hstep, hr.step hw hok hstep⟩
  obtain ⟨⟨hc, hsm⟩, -, hr⟩ := hinv
  obtain ⟨⟨_, _, cmd⟩, hp, rfl, rfl, hh⟩ := hr.results ch i t hres
  refine ⟨cmd, fun cmd' e => ?_, hsm ▸ hh⟩
  rw [proposes_iff r]
  constructor
  · rintro ⟨hp', rfl⟩
    obtain rfl := hc.unique ch _ _ hp' hp
    exact ⟨rfl, rfl⟩
  · rintro ⟨rfl, rfl⟩
    exact ⟨hp, rfl⟩

/-- A leader proposes, replicates the entry to one peer, and reports the commit. -/
theorem committed_own_of_replication : ∃ s h,
    Run Server.step KeepsWaiters (Server.boot "a" ["b", "c"] .plain none) [] s h ∧
      .result 0 ⟨true, 1, 1⟩ ∈ h ∧ .apply ⟨1, 1, some [7]⟩ ∈ h ∧
      ∃ cmd, (∀ cmd' e,
        Proposes KeepsWaiters (Server.boot "a" ["b", "c"] .plain none) s h cmd' 0 e ↔
          cmd' = cmd ∧ e = ⟨1, 1, cmd⟩) ∧ HandedOver .plain h ⟨1, 1, cmd⟩ := by
  obtain ⟨s, h, r, hres, happly⟩ := exists_run_of_exec Server.step KeepsWaiters
    (Server.boot "a" ["b", "c"] .plain none) []
    (electedIn 1 "b" "c" ++ [.propose (some [7]), .sendAppend "b",
      .appendReply "b" ⟨1, "a", 0, 0, [⟨1, 1, some [7]⟩], 0⟩ ⟨1, true⟩, .applyWake, .applyRead,
      .applyCall, .applyWrite, .applyNotify])
    (fun _ h => .result 0 ⟨true, 1, 1⟩ ∈ h ∧ .apply ⟨1, 1, some [7]⟩ ∈ h) (by decide +kernel)
  exact ⟨s, h, r, hres, happly, committed_own r hres⟩

/-- **A committed result can be for another leader's entry**: a deposed leader's entry is
overwritten, its waiter stays registered under the index, and the commit of the new entry is
reported to it. -/
theorem committed_other : ¬ ∀ (id : String) (peers : List String) (sm : StateMachineKind)
    (store : Option RaftSnapshot) (s : Server) (h : List Output) (ch i t : ℕ),
    Run Server.step ProposerSteps (Server.boot id peers sm store) [] s h →
      .result ch ⟨true, i, t⟩ ∈ h →
        ∃ cmd, (∀ cmd' e, Proposes ProposerSteps (Server.boot id peers sm store) s h cmd' ch e ↔
          cmd' = cmd ∧ e = ⟨t, i, cmd⟩) ∧ HandedOver sm h ⟨t, i, cmd⟩ := by
  intro hall
  obtain ⟨s, h, r, hprop, hres⟩ := exists_run_of_exec Server.step ProposerSteps
    (Server.boot "a" ["b", "c"] .plain none) []
    (electedIn 1 "b" "c" ++ [.propose (some [7]),
      .handleAppendEntries ⟨2, "b", 0, 0, [⟨2, 1, some [8]⟩], 1⟩, .applyWake, .applyRead,
      .applyCall, .applyWrite, .applyNotify])
    (fun _ h => .proposed 0 ⟨1, 1, some [7]⟩ ∈ h ∧ .result 0 ⟨true, 1, 2⟩ ∈ h)
    (by decide +kernel)
  obtain ⟨cmd, hcalls, -⟩ := hall _ _ _ _ s h 0 1 2 r hres
  obtain ⟨-, he⟩ := (hcalls _ _).1 ((proposes_iff r).2 ⟨hprop, rfl⟩)
  simp at he

end Driftless.Raft
