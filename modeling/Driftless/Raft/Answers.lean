import Driftless.Raft.Waiters

/-!
# Every proposal is answered once

A channel of `Propose` gets its result from the apply loop, when the entry under its index is
applied, or from `abortPendingProposals`, at the end of `runLeader`. Either takes the waiter out
of `commitWaits` first, so that no channel gets two results, and a proposal that has none keeps
its waiter, ahead of `lastApplied`, as long as nothing jumps over the waiter and nobody takes its
place (`KeepsPending`): `answered_once`. An installed snapshot jumps over waiters:
`proposal_skipped`.
-/

namespace Driftless.Raft

/-- What the channel `ch` has delivered. -/
def resultsOn (ch : ℕ) (h : List Output) : List ProposeResult :=
  h.filterMap fun
    | .result c res => if c = ch then some res else none
    | _ => none

/-- Every channel gets at most one result, and outside a round of the apply loop a proposal without
one is ahead of `lastApplied` and registered. -/
structure AnsweredOnce (s : Server) (h : List Output) : Prop where
  once : ∀ ch, (resultsOn ch h).length ≤ 1
  pending : s.apply = .idle ∨ s.apply = .next → ∀ ch e, .proposed ch e ∈ h →
    resultsOn ch h = [] → s.node.lastApplied < e.index ∧
      s.node.commitWaits.lookup e.index = some ch

/-- Nothing jumps over a waiter or takes its place: an installed snapshot ends below every
registered index, and `Propose` finds its index unregistered and above `lastApplied` and the index
in the hands of the apply loop. -/
def KeepsPending (s : Server) (h : List Output) (ev : Event) : Prop :=
  ProposerSteps s h ev ∧ match ev with
    | .handleInstallSnapshot args => s.node.currentTerm ≤ args.term →
        Node.Newer s.node.logEntries args →
          ∀ i ∈ s.node.commitWaits.keys, args.lastIncludedIndex < i
    | .propose _ => s.node.lastApplied ≤ lastIndex s.node.logEntries ∧
        (∀ next ∈ s.apply.inFlight, next ≤ lastIndex s.node.logEntries) ∧
          lastIndex s.node.logEntries + 1 ∉ s.node.commitWaits.keys
    | _ => True

instance (s : Server) (h : List Output) (ev : Event) : Decidable (KeepsPending s h ev) := by
  rcases ev <;> dsimp only [KeepsPending] <;> infer_instance

/-! ## Results of a channel -/

theorem resultsOn_append (ch : ℕ) (h out : List Output) :
    resultsOn ch (h ++ out) = resultsOn ch h ++ resultsOn ch out :=
  List.filterMap_append

theorem resultsOn_append_of_silent {ch : ℕ} {out : List Output} (h : List Output)
    (hout : ∀ res, .result ch res ∉ out) : resultsOn ch (h ++ out) = resultsOn ch h := by
  have hnil : resultsOn ch out = [] := by
    rw [resultsOn, List.filterMap_eq_nil_iff]
    intro o ho
    cases o with
    | result c res =>
      have hc : c ≠ ch := by
        rintro rfl
        exact hout res ho
      simp [hc]
    | _ => rfl
  rw [resultsOn_append, hnil, List.append_nil]

/-- The results of `abortPendingProposals` on one channel, waiter by waiter. -/
theorem resultsOn_abort (ch : ℕ) (n : Node) :
    resultsOn ch (n.abortPendingProposals.2.map fun r => .result r.1 r.2) =
      (n.pendingWaits.filter fun w => w.2 = ch).map fun w => ⟨false, w.1, 0⟩ := by
  rw [Node.abortPendingProposals]
  induction n.pendingWaits with
  | nil => rfl
  | cons w ws ih =>
    by_cases hw : w.2 = ch
    · simpa [resultsOn, hw] using ih
    · simpa [resultsOn, hw] using ih

/-! ## The invariants -/

/-- The index `i` is ahead of everything the apply loop has passed or jumps to. -/
structure Ahead (s : Server) (i : ℕ) : Prop where
  floor : firstIndex s.node.logEntries < i
  applied : s.node.lastApplied < i
  inFlight : ∀ next, s.apply.inFlight = some next → next < i

/-- Every registered index is ahead of the apply loop. -/
structure WaitersAhead (s : Server) : Prop where
  wellFormed : WellFormed s.node.logEntries
  idle : s.snapshot = .idle
  ahead : ∀ i ch, s.node.commitWaits.lookup i = some ch → Ahead s i

/-- Every channel without a result is registered under its index or in the hands of the apply
loop, and those with one are neither. -/
structure Accounted (s : Server) (h : List Output) : Prop where
  registered : ∀ i ch, s.node.commitWaits.lookup i = some ch →
    resultsOn ch h = [] ∧ ∃ e, .proposed ch e ∈ h ∧ e.index = i
  holding : ∀ e ch, s.apply.holding = some (e, ch) →
    resultsOn ch h = [] ∧ (∀ i, s.node.commitWaits.lookup i ≠ some ch) ∧ ch < s.chans
  once : ∀ ch, (resultsOn ch h).length ≤ 1
  made : ∀ ch, resultsOn ch h ≠ [] → ch < s.chans
  pending : ∀ ch e, .proposed ch e ∈ h → resultsOn ch h = [] →
    s.node.commitWaits.lookup e.index = some ch ∨ ∃ e', s.apply.holding = some (e', ch)

section Step

variable {s s' : Server} {ev : Event} {h out : List Output}

/-- A step that leaves the log alone and moves the apply loop over no waiter. -/
theorem WaitersAhead.of_log (hi : WaitersAhead s) (hsn : s'.snapshot = s.snapshot)
    (hlog : s'.node.logEntries = s.node.logEntries)
    (hw : ∀ i ch, s'.node.commitWaits.lookup i = some ch →
      s.node.commitWaits.lookup i = some ch ∧
        (Ahead s i → s'.node.lastApplied < i ∧ ∀ next, s'.apply.inFlight = some next → next < i)) :
    WaitersAhead s' where
  wellFormed := hlog ▸ hi.wellFormed
  idle := hsn.trans hi.idle
  ahead i ch hl := by
    obtain ⟨hold, hah⟩ := hw i ch hl
    have ha := hi.ahead i ch hold
    exact ⟨hlog ▸ ha.floor, (hah ha).1, (hah ha).2⟩

theorem WaitersAhead.of_held (hi : WaitersAhead s) (hsn : s'.snapshot = s.snapshot)
    (hh : s'.node.held = s.node.held) (ha : s'.apply = s.apply) : WaitersAhead s' := by
  refine hi.of_log hsn (Node.logEntries_of_held hh) fun i ch hl => ⟨?_, fun hp => ⟨?_, ?_⟩⟩
  · rwa [Node.commitWaits_of_held hh] at hl
  · exact Node.lastApplied_of_held hh ▸ hp.applied
  · exact ha ▸ hp.inFlight

theorem WaitersAhead.handleAppendEntries (hi : WaitersAhead s) (args : AppendEntriesArgs)
    (hok : args.WellFormed) :
    WaitersAhead { s with node := (s.node.handleAppendEntries args).1 } := by
  obtain ⟨hwf, hfirst⟩ := Node.handleAppendEntries_log hi.wellFormed hok
  obtain ⟨hwaits, hla⟩ := s.node.handleAppendEntries_waits args
  refine ⟨hwf, hi.idle, fun i ch hl => ?_⟩
  have ha := hi.ahead i ch (hwaits ▸ hl)
  exact ⟨hfirst ▸ ha.floor, hla ▸ ha.applied, ha.inFlight⟩

theorem WaitersAhead.install (hi : WaitersAhead s) (args : InstallSnapshotArgs)
    (hok : ∀ i ∈ s.node.commitWaits.keys, args.lastIncludedIndex < i) {r : InstallSnapshotReply} :
    WaitersAhead
      { s with node := s.node.installed args, installs := s.installs ++ [(args, r)] } := by
  refine ⟨wellFormed_singleton _, hi.idle, fun i ch hl => ?_⟩
  rw [Node.installed_commitWaits] at hl
  have hlt := hok i (AList.lookup_isSome.1 (by rw [hl]; rfl))
  exact ⟨hlt, hlt, (hi.ahead i ch hl).inFlight⟩

theorem WaitersAhead.propose (hi : WaitersAhead s) {cmd : Option Bytes} {n : Node} {e : LogEntry}
    (hok : KeepsPending s h (.propose cmd)) (hp : s.node.propose cmd s.chans = some (n, e)) :
    WaitersAhead { s with node := n, chans := s.chans + 1 } := by
  obtain ⟨-, hlog, hwaits, hidx, -, hla⟩ := Node.propose_spec hp
  obtain ⟨-, hap, hfl, -⟩ := hok
  have hle := hi.wellFormed.firstIndex_le_lastIndex
  refine ⟨hlog ▸ hi.wellFormed.concat hidx, hi.idle, fun i ch hl => ?_⟩
  have hf : firstIndex n.logEntries = firstIndex s.node.logEntries := by
    rw [hlog, firstIndex_append hi.wellFormed.ne_nil]
  by_cases hie : i = e.index
  · -- the new waiter, under the index after the log
    refine ⟨by rw [hf]; omega, by rw [hla]; omega, fun next hn => ?_⟩
    have := hfl next hn
    omega
  · have ha := hi.ahead i ch (by rwa [hwaits, AList.lookup_insert_ne hie] at hl)
    exact ⟨hf ▸ ha.floor, hla ▸ ha.applied, ha.inFlight⟩

theorem WaitersAhead.step (hi : WaitersAhead s) (hok : KeepsPending s h ev)
    (hs : Server.Step s ev s' out) : WaitersAhead s' := by
  cases hs with
  | abortPendingProposals =>
    refine hi.of_log rfl rfl fun i ch hl => ⟨?_, fun ha => ⟨ha.applied, ha.inFlight⟩⟩
    rw [Node.abortPendingProposals, lookup_foldl_erase] at hl
    split_ifs at hl
    exact hl
  | sendAppend p n args hr hidle hp hl hsend =>
    exact hi.of_held rfl (Node.sendAppend_held hsend) rfl
  | appendReply p args reply hw =>
    exact hi.of_held rfl (s.node.handleAppendReply_held p args reply) rfl
  | installReply p args reply hw =>
    exact hi.of_held rfl (s.node.handleInstallReply_held p args reply) rfl
  | handleRequestVote args => exact hi.of_held rfl (s.node.handleRequestVote_held args) rfl
  | handleAppendEntries args => exact hi.handleAppendEntries args hok.1
  | installOld args ht ho => exact hi.of_held rfl (s.node.recognizeLeader_held _) rfl
  | install args ht ho => exact hi.install args (hok.2 ht ho)
  | propose cmd n entry hp => exact hi.propose hok hp
  | applyWake ha | applyIdle ha | applyNotify entry waiter ha =>
    exact hi.of_log rfl rfl fun i ch hl =>
      ⟨hl, fun hah => ⟨hah.applied, by simp [ApplyLoop.inFlight]⟩⟩
  | applySkip ha hf hc hn =>
    exact hi.of_log rfl rfl fun i ch hl =>
      ⟨hl, fun hah => ⟨hah.floor, by simp [ApplyLoop.inFlight]⟩⟩
  | applyRead entry ha hc he =>
    refine hi.of_log rfl rfl fun i ch hl => ?_
    by_cases hin : i = s.node.lastApplied + 1
    · rw [hin, AList.lookup_erase] at hl
      cases hl
    · rw [AList.lookup_erase_ne hin] at hl
      refine ⟨hl, fun hah => ⟨hah.applied, ?_⟩⟩
      have := hah.applied
      rintro next ⟨⟩
      omega
  | applyCall next entry waiter ha =>
    refine hi.of_log rfl rfl fun i ch hl => ⟨hl, fun hah => ⟨hah.applied, ?_⟩⟩
    rintro _ ⟨⟩
    exact hah.inFlight next (by rw [ha]; rfl)
  | applyWrite next entry waiter ha =>
    refine hi.of_log rfl rfl fun i ch hl => ⟨hl, fun hah => ⟨?_, by simp [ApplyLoop.inFlight]⟩⟩
    exact hah.inFlight next (by rw [ha]; rfl)
  | beginSnapshot => exact hok.1.elim
  | serialize rs d hsn | serializeError rs hsn | saveSnapshot rs hsn | saveError rs hsn
  | finishSnapshot rs hsn =>
    rw [hi.idle] at hsn
    cases hsn
  | restart => exact hok.1.elim
  | _ => exact hi.of_held rfl rfl rfl

/-! ## Channels -/

theorem Accounted.distinct (hi : Accounted s h) (hc : ChannelsFresh s h) {i j ch : ℕ}
    (hil : s.node.commitWaits.lookup i = some ch) (hjl : s.node.commitWaits.lookup j = some ch) :
    i = j := by
  obtain ⟨-, e, he, rfl⟩ := hi.registered i ch hil
  obtain ⟨-, e', he', rfl⟩ := hi.registered j ch hjl
  rw [hc.unique ch e e' he he']

theorem Accounted.registered_lt (hi : Accounted s h) (hc : ChannelsFresh s h) {i ch : ℕ}
    (hl : s.node.commitWaits.lookup i = some ch) : ch < s.chans := by
  obtain ⟨-, e, he, -⟩ := hi.registered i ch hl
  exact hc.lt ch e he

/-- A step without a proposal or a result that keeps the waiters where they are. -/
theorem Accounted.keep (hi : Accounted s h) (hp : ∀ ch e, .proposed ch e ∉ out)
    (hr : ∀ ch res, .result ch res ∉ out) (hw : s'.node.commitWaits = s.node.commitWaits)
    (ha : s'.apply.holding = s.apply.holding) (hch : s'.chans = s.chans) :
    Accounted s' (h ++ out) := by
  have hsame : ∀ ch, resultsOn ch (h ++ out) = resultsOn ch h := fun ch =>
    resultsOn_append_of_silent h (hr ch)
  refine ⟨fun i ch hl => ?_, fun e ch hh => ?_, fun ch => ?_, fun ch hne => ?_,
    fun ch e hm hn => ?_⟩
  · rw [hw] at hl
    obtain ⟨hnone, e, he, hix⟩ := hi.registered i ch hl
    exact ⟨(hsame ch).trans hnone, e, List.mem_append_left _ he, hix⟩
  · rw [hsame, hw, hch]
    exact hi.holding e ch (ha ▸ hh)
  · rw [hsame]
    exact hi.once ch
  · rw [hsame] at hne
    exact hch ▸ hi.made ch hne
  · rw [hw, ha]
    exact hi.pending ch e ((List.mem_append.1 hm).resolve_right (hp ch e)) (hsame ch ▸ hn)

theorem Accounted.of_held (hi : Accounted s h) (hp : ∀ ch e, .proposed ch e ∉ out)
    (hr : ∀ ch res, .result ch res ∉ out) (hh : s'.node.held = s.node.held)
    (ha : s'.apply = s.apply) (hch : s'.chans = s.chans) : Accounted s' (h ++ out) :=
  hi.keep hp hr (Node.commitWaits_of_held hh) (congrArg ApplyLoop.holding ha) hch

theorem Accounted.propose (hi : Accounted s h) {cmd : Option Bytes}
    {n : Node} {e : LogEntry} (hfree : lastIndex s.node.logEntries + 1 ∉ s.node.commitWaits.keys)
    (hp : s.node.propose cmd s.chans = some (n, e)) :
    Accounted { s with node := n, chans := s.chans + 1 } (h ++ [.proposed s.chans e]) := by
  obtain ⟨-, -, hwaits, hidx, -⟩ := Node.propose_spec hp
  have hsame : ∀ ch, resultsOn ch (h ++ [.proposed s.chans e]) = resultsOn ch h := fun ch =>
    resultsOn_append_of_silent h (by simp)
  have hnone : s.node.commitWaits.lookup e.index = none := AList.lookup_eq_none.2 (hidx ▸ hfree)
  have hnew : resultsOn s.chans h = [] := by
    by_contra hne
    exact absurd (hi.made _ hne) (lt_irrefl _)
  refine ⟨fun i ch hl => ?_, fun e' ch hh => ?_, fun ch => ?_, fun ch hne => ?_,
    fun ch e' hm hn => ?_⟩
  · rw [hsame]
    by_cases hie : i = e.index
    · -- the new waiter
      rw [hwaits, hie, AList.lookup_insert, Option.some.injEq] at hl
      subst hl
      exact ⟨hnew, e, by simp, hie.symm⟩
    · rw [hwaits, AList.lookup_insert_ne hie] at hl
      obtain ⟨hn, e', he', hix⟩ := hi.registered i ch hl
      exact ⟨hn, e', List.mem_append_left _ he', hix⟩
  · obtain ⟨hn, hreg, hlt⟩ := hi.holding e' ch hh
    refine ⟨(hsame ch).trans hn, fun i hl => ?_, Nat.lt_succ_of_lt hlt⟩
    by_cases hie : i = e.index
    · rw [hwaits, hie, AList.lookup_insert, Option.some.injEq] at hl
      omega
    · rw [hwaits, AList.lookup_insert_ne hie] at hl
      exact hreg i hl
  · rw [hsame]
    exact hi.once ch
  · rw [hsame] at hne
    exact Nat.lt_succ_of_lt (hi.made ch hne)
  · rcases List.mem_append.1 hm with hold | hnew
    · rcases hi.pending ch e' hold (hsame ch ▸ hn) with hl | hh
      · -- the index of the new entry was free, so this waiter is still there
        have hne : e'.index ≠ e.index := by
          intro heq
          rw [heq, hnone] at hl
          cases hl
        exact .inl (by rw [hwaits, AList.lookup_insert_ne hne]; exact hl)
      · exact .inr hh
    · obtain ⟨rfl, rfl⟩ : ch = s.chans ∧ e' = e := by simpa using hnew
      exact .inl (by rw [hwaits, AList.lookup_insert])

/-- The apply loop takes the waiter of the next index in hand. -/
theorem Accounted.applyRead (hi : Accounted s h) (hc : ChannelsFresh s h) {entry : LogEntry}
    (ha : s.apply = .next) :
    Accounted { s with
      node := { s.node with commitWaits := s.node.commitWaits.erase (s.node.lastApplied + 1) }
      apply := .read (s.node.lastApplied + 1) entry
        (s.node.commitWaits.lookup (s.node.lastApplied + 1)) } (h ++ []) := by
  rw [List.append_nil]
  have hold : ∀ i ch, (s.node.commitWaits.erase (s.node.lastApplied + 1)).lookup i = some ch →
      i ≠ s.node.lastApplied + 1 ∧ s.node.commitWaits.lookup i = some ch := by
    intro i ch hl
    by_cases hin : i = s.node.lastApplied + 1
    · rw [hin, AList.lookup_erase] at hl
      cases hl
    · exact ⟨hin, by rwa [AList.lookup_erase_ne hin] at hl⟩
  have hand : ∀ e ch, (ApplyLoop.read (s.node.lastApplied + 1) entry
      (s.node.commitWaits.lookup (s.node.lastApplied + 1))).holding = some (e, ch) →
        s.node.commitWaits.lookup (s.node.lastApplied + 1) = some ch := by
    intro e ch hh
    cases hl : s.node.commitWaits.lookup (s.node.lastApplied + 1) with
    | none => simp [ApplyLoop.holding, hl] at hh
    | some w =>
      obtain ⟨-, rfl⟩ : entry = e ∧ w = ch := by simpa [ApplyLoop.holding, hl] using hh
      rfl
  refine ⟨fun i ch hl => hi.registered i ch (hold i ch hl).2, fun e ch hh => ?_, hi.once, hi.made,
    fun ch e hm hn => ?_⟩
  · have hl := hand e ch hh
    refine ⟨(hi.registered _ ch hl).1, fun i hli => ?_, hi.registered_lt hc hl⟩
    exact (hold i ch hli).1 (hi.distinct hc (hold i ch hli).2 hl)
  · rcases hi.pending ch e hm hn with hl | ⟨e', hh⟩
    · by_cases hin : e.index = s.node.lastApplied + 1
      · rw [hin] at hl
        exact .inr ⟨entry, by simp [ApplyLoop.holding, hl]⟩
      · exact .inl (by rw [← hl]; exact AList.lookup_erase_ne hin)
    · rw [ha] at hh
      cases hh

/-- The apply loop delivers the result of the waiter it has in hand. -/
theorem Accounted.applyNotify (hi : Accounted s h) {entry : LogEntry} {waiter : Option ℕ}
    (ha : s.apply = .written entry waiter) :
    Accounted { s with apply := .next }
      (h ++ (waiter.map fun ch => Output.result ch ⟨true, entry.index, entry.term⟩).toList) := by
  cases waiter with
  | none => exact hi.keep (by simp) (by simp) rfl (by rw [ha]; rfl) rfl
  | some w =>
    have hhold : s.apply.holding = some (entry, w) := by rw [ha]; rfl
    obtain ⟨hnone, hreg, hlt⟩ := hi.holding entry w hhold
    have hself : resultsOn w (h ++ [.result w ⟨true, entry.index, entry.term⟩]) =
        [⟨true, entry.index, entry.term⟩] := by
      rw [resultsOn_append, hnone]
      simp [resultsOn]
    have hother : ∀ ch, ch ≠ w →
        resultsOn ch (h ++ [.result w ⟨true, entry.index, entry.term⟩]) = resultsOn ch h :=
      fun ch hne => resultsOn_append_of_silent h (by simp [hne])
    refine ⟨fun i ch hl => ?_, nofun, fun ch => ?_, fun ch hne => ?_, fun ch e hm hn => ?_⟩
    · have hne : ch ≠ w := by
        rintro rfl
        exact hreg i hl
      obtain ⟨hn, e, he, hix⟩ := hi.registered i ch hl
      exact ⟨(hother ch hne).trans hn, e, List.mem_append_left _ he, hix⟩
    · by_cases hch : ch = w
      · rw [hch]
        exact le_of_eq (congrArg List.length hself)
      · exact (congrArg List.length (hother ch hch)).trans_le (hi.once ch)
    · by_cases hch : ch = w
      · exact hch ▸ hlt
      · exact hi.made ch ((hother ch hch) ▸ hne)
    · have hch : ch ≠ w := by
        rintro rfl
        cases hself.symm.trans hn
      have hm' : .proposed ch e ∈ h := by simpa using hm
      rcases hi.pending ch e hm' ((hother ch hch).symm.trans hn) with hl | ⟨e', hh⟩
      · exact .inl hl
      · rw [hhold] at hh
        cases hh
        exact absurd rfl hch

theorem mem_pendingWaits {n : Node} {i ch : ℕ} :
    ⟨i, ch⟩ ∈ n.pendingWaits ↔ n.commitWaits.lookup i = some ch ∧ n.commitIndex < i := by
  rw [Node.pendingWaits, List.mem_filter, ← AList.mem_lookup_iff, Option.mem_def]
  simp

/-- The waiter of a channel is aborted once, since it is registered once. -/
theorem Accounted.length_pendingWaits (hi : Accounted s h) (hc : ChannelsFresh s h) {i ch : ℕ}
    (hl : s.node.commitWaits.lookup i = some ch) :
    (s.node.pendingWaits.filter fun w => w.2 = ch).length ≤ 1 := by
  have hall : ∀ w ∈ s.node.pendingWaits.filter fun w => w.2 = ch, w = ⟨i, ch⟩ := by
    rintro ⟨j, c⟩ hw
    obtain ⟨hmem, hch⟩ := List.mem_filter.1 hw
    obtain rfl : c = ch := by simpa using hch
    obtain rfl : j = i := hi.distinct hc (mem_pendingWaits.1 hmem).1 hl
    rfl
  have hnodup : (s.node.pendingWaits.filter fun w => w.2 = ch).Nodup :=
    (s.node.commitWaits.nodupKeys.nodup.filter _).filter _
  rw [List.eq_replicate_of_mem hall] at hnodup
  exact List.nodup_replicate.1 hnodup

/-- `abortPendingProposals` takes out the waiters above `commitIndex` and delivers a result to
each. -/
theorem Accounted.abort (hi : Accounted s h) (hc : ChannelsFresh s h) :
    Accounted { s with node := s.node.abortPendingProposals.1, run := .dispatch }
      (h ++ s.node.abortPendingProposals.2.map fun r => .result r.1 r.2) := by
  have hres : ∀ ch, resultsOn ch (h ++ s.node.abortPendingProposals.2.map fun r =>
      .result r.1 r.2) = resultsOn ch h ++
        (s.node.pendingWaits.filter fun w => w.2 = ch).map fun w => ⟨false, w.1, 0⟩ := by
    intro ch
    rw [resultsOn_append, resultsOn_abort]
  have hquiet : ∀ ch, (∀ i, ⟨i, ch⟩ ∉ s.node.pendingWaits) →
      resultsOn ch (h ++ s.node.abortPendingProposals.2.map fun r => .result r.1 r.2) =
        resultsOn ch h := by
    intro ch hne
    have hnil : (s.node.pendingWaits.filter fun w => w.2 = ch) = [] := by
      rw [List.filter_eq_nil_iff]
      rintro ⟨i, c⟩ hw hcw
      obtain rfl : c = ch := by simpa using hcw
      exact hne i hw
    rw [hres, hnil, List.map_nil, List.append_nil]
  have hlookup : ∀ i, s.node.abortPendingProposals.1.commitWaits.lookup i =
      if i ∈ s.node.pendingWaits.map Sigma.fst then none else s.node.commitWaits.lookup i :=
    fun i => lookup_foldl_erase _ _ i
  -- the waiters that are left, none of whose channels is among those aborted
  have hleft : ∀ i ch, s.node.abortPendingProposals.1.commitWaits.lookup i = some ch →
      s.node.commitWaits.lookup i = some ch ∧ ∀ j, ⟨j, ch⟩ ∉ s.node.pendingWaits := by
    intro i ch hl
    rw [hlookup] at hl
    split_ifs at hl with hmem
    refine ⟨hl, fun j hj => hmem (List.mem_map.2 ⟨⟨j, ch⟩, hj, ?_⟩)⟩
    exact hi.distinct hc (mem_pendingWaits.1 hj).1 hl
  refine ⟨fun i ch hl => ?_, fun e ch hh => ?_, fun ch => ?_, fun ch hne => ?_,
    fun ch e hm hn => ?_⟩
  · obtain ⟨hold, hne⟩ := hleft i ch hl
    obtain ⟨hn, e, he, hix⟩ := hi.registered i ch hold
    exact ⟨(hquiet ch hne).trans hn, e, List.mem_append_left _ he, hix⟩
  · obtain ⟨hn, hreg, hlt⟩ := hi.holding e ch hh
    have hne : ∀ i, ⟨i, ch⟩ ∉ s.node.pendingWaits := fun i hm => hreg i (mem_pendingWaits.1 hm).1
    exact ⟨(hquiet ch hne).trans hn, fun i hl => hreg i (hleft i ch hl).1, hlt⟩
  · by_cases hex : ∃ i, ⟨i, ch⟩ ∈ s.node.pendingWaits
    · obtain ⟨i, hm⟩ := hex
      have hl := (mem_pendingWaits.1 hm).1
      rw [hres, (hi.registered i ch hl).1, List.nil_append, List.length_map]
      exact hi.length_pendingWaits hc hl
    · rw [hquiet ch (not_exists.1 hex)]
      exact hi.once ch
  · by_cases hex : ∃ i, ⟨i, ch⟩ ∈ s.node.pendingWaits
    · obtain ⟨i, hm⟩ := hex
      exact hi.registered_lt hc (mem_pendingWaits.1 hm).1
    · exact hi.made ch (hquiet ch (not_exists.1 hex) ▸ hne)
  · have hm' : .proposed ch e ∈ h := by simpa using hm
    rw [hres] at hn
    obtain ⟨hnone, hnil⟩ := List.append_eq_nil_iff.1 hn
    refine (hi.pending ch e hm' hnone).imp_left fun hl => ?_
    rw [hlookup, if_neg, hl]
    rintro hmem
    obtain ⟨⟨j, c⟩, hw, rfl⟩ := List.mem_map.1 hmem
    obtain rfl : c = ch := Option.some.inj ((mem_pendingWaits.1 hw).1.symm.trans hl)
    rw [List.map_eq_nil_iff, List.filter_eq_nil_iff] at hnil
    exact hnil _ hw (by simp)

theorem Accounted.step (hi : Accounted s h) (hc : ChannelsFresh s h) (hok : KeepsPending s h ev)
    (hs : Server.Step s ev s' out) : Accounted s' (h ++ out) := by
  cases hs with
  | abortPendingProposals => exact hi.abort hc
  | sendAppend p n args hr hidle hp hl hsend =>
    exact hi.of_held (by simp) (by simp) (Node.sendAppend_held hsend) rfl rfl
  | appendReply p args reply hw =>
    exact hi.of_held (by simp) (by simp) (s.node.handleAppendReply_held p args reply) rfl rfl
  | installReply p args reply hw =>
    exact hi.of_held (by simp) (by simp) (s.node.handleInstallReply_held p args reply) rfl rfl
  | handleRequestVote args =>
    exact hi.of_held (by simp) (by simp) (s.node.handleRequestVote_held args) rfl rfl
  | handleAppendEntries args =>
    exact hi.keep (by simp) (by simp) (s.node.handleAppendEntries_waits args).1 rfl rfl
  | installOld args ht ho =>
    exact hi.of_held (by simp) (by simp) (s.node.recognizeLeader_held _) rfl rfl
  | install args ht ho =>
    exact hi.keep (by simp) (by simp) (s.node.installed_commitWaits args) rfl rfl
  | propose cmd n entry hp => exact hi.propose hok.2.2.2 hp
  | applyWake ha | applyIdle ha | applySkip ha hf hc hn =>
    exact hi.keep (by simp) (by simp) rfl (by rw [ha]; rfl) rfl
  | applyRead entry ha hcm he => exact hi.applyRead hc ha
  | applyCall next entry waiter ha =>
    refine hi.keep (by split_ifs <;> simp) (by split_ifs <;> simp) rfl ?_ rfl
    rw [ha]
    cases waiter <;> rfl
  | applyWrite next entry waiter ha =>
    refine hi.keep (by simp) (by simp) rfl ?_ rfl
    rw [ha]
    cases waiter <;> rfl
  | applyNotify entry waiter ha => exact hi.applyNotify ha
  | restart => exact hok.1.elim
  | beginSnapshot => exact hok.1.elim
  | finishSnapshot rs hsn => exact hi.keep (by simp) (by simp) rfl rfl rfl
  | _ => exact hi.of_held (by simp) (by simp) rfl rfl rfl

end Step

theorem answeredOnce_of_accounted {s : Server} {h : List Output} (hw : WaitersAhead s)
    (ha : Accounted s h) : AnsweredOnce s h where
  once := ha.once
  pending hidle ch e hm hn := by
    rcases ha.pending ch e hm hn with hl | ⟨e', hh⟩
    · exact ⟨(hw.ahead _ _ hl).applied, hl⟩
    · rcases hidle with hap | hap <;> rw [hap] at hh <;> cases hh

/-- **Every proposal is answered once**, in every run in which nothing jumps over a waiter or
takes its place. -/
theorem answered_once {id : String} {peers : List String} {sm : StateMachineKind}
    {store : Option RaftSnapshot} {s : Server} {h : List Output}
    (r : Run Server.step KeepsPending (Server.boot id peers sm store) [] s h) :
    AnsweredOnce s h := by
  have hinv : ChannelsFresh s h ∧ WaitersAhead s ∧ Accounted s h := by
    refine r.invariant (I := fun s h => ChannelsFresh s h ∧ WaitersAhead s ∧ Accounted s h)
      ⟨⟨nofun, nofun⟩, ⟨Server.wellFormed_boot _ _ _ _, rfl, ?_⟩, ⟨?_, nofun, ?_, ?_, nofun⟩⟩ ?_
    · intro i ch hl
      cases store <;> cases hl
    · intro i ch hl
      cases store <;> cases hl
    · exact fun _ => Nat.zero_le _
    · exact fun _ hne => absurd rfl hne
    · intro s h ev s' out ⟨hc, hw, ha⟩ hok hs
      have hstep := Server.step_inv hs
      have hne : ev ≠ .restart := by
        rintro rfl
        exact hok.1
      exact ⟨hc.step hne hstep, hw.step hok hstep, ha.step hc hok hstep⟩
  exact answeredOnce_of_accounted hinv.2.1 hinv.2.2

/-- A leader proposes twice: the first proposal commits, the second is aborted after the leader is
deposed and has installed a snapshot that ends below it. -/
theorem answered_once_of_abort : ∃ s h,
    Run Server.step KeepsPending (Server.boot "a" ["b", "c"] .plain none) [] s h ∧
      resultsOn 0 h = [⟨true, 1, 1⟩] ∧ resultsOn 1 h = [⟨false, 2, 0⟩] ∧ AnsweredOnce s h := by
  obtain ⟨s, h, r, h₀, h₁⟩ := exists_run_of_exec Server.step KeepsPending
    (Server.boot "a" ["b", "c"] .plain none) []
    (electedIn 1 "b" "c" ++ [.propose (some [7]), .sendAppend "b",
      .appendReply "b" ⟨1, "a", 0, 0, [⟨1, 1, some [7]⟩], 0⟩ ⟨1, true⟩, .applyWake, .applyRead,
      .applyCall, .applyWrite, .applyNotify, .propose (some [8]), .sendAppend "b",
      .appendReply "b" ⟨1, "a", 1, 1, [⟨1, 2, some [8]⟩], 1⟩ ⟨2, false⟩,
      .handleInstallSnapshot ⟨2, "b", 1, 1, []⟩, .leaderStepDown, .abortPendingProposals])
    (fun _ h => resultsOn 0 h = [⟨true, 1, 1⟩] ∧ resultsOn 1 h = [⟨false, 2, 0⟩])
    (by decide +kernel)
  exact ⟨s, h, r, h₀, h₁, answered_once r⟩

/-- **A proposal can be skipped**: a leader proposes index 1, and the next leader, which committed
another entry there, ships it a snapshot up to index 1. The waiter stays registered behind
`lastApplied`, and neither the apply loop nor `abortPendingProposals` answers it. -/
theorem proposal_skipped : ¬ ∀ (id : String) (peers : List String) (sm : StateMachineKind)
    (store : Option RaftSnapshot) (s : Server) (h : List Output),
    Run Server.step ProposerSteps (Server.boot id peers sm store) [] s h → AnsweredOnce s h := by
  intro hall
  obtain ⟨s, h, r, hprop, hres, hidle, hla⟩ := exists_run_of_exec Server.step ProposerSteps
    (Server.boot "a" ["b", "c"] .plain none) []
    (electedIn 1 "b" "c" ++ [.propose (some [7]), .sendAppend "b",
      .appendReply "b" ⟨1, "a", 0, 0, [⟨1, 1, some [7]⟩], 0⟩ ⟨2, false⟩,
      .handleInstallSnapshot ⟨2, "b", 1, 2, []⟩, .finishInstall 0 true, .leaderStepDown,
      .abortPendingProposals])
    (fun s h => .proposed 0 ⟨1, 1, some [7]⟩ ∈ h ∧ resultsOn 0 h = [] ∧ s.apply = .idle ∧
      s.node.lastApplied = 1)
    (by decide +kernel)
  have hlt := ((hall _ _ _ _ s h r).pending (.inl hidle) 0 _ hprop hres).1
  rw [hla] at hlt
  exact absurd hlt (lt_irrefl 1)

end Driftless.Raft
