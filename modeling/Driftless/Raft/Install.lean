import Driftless.Raft.StateMachine

/-!
# Installing a snapshot on a follower

`HandleInstallSnapshot` rewrites the log, the pointers and the cached snapshot, releases the lock,
and only then tries to restore the state machine. A call is all or nothing (`CallAtomic`) when a
failed restore leaves the node as it was and a successful reply means that the state machine covers
what the snapshot is labelled with. Over a sequence of calls this comes down to the installed
snapshots being restored, from data that covers their index: `allOrNothing_iff`. After a failed
restore the node keeps the new floor, and a retry of the same snapshot is answered as an older one:
`install_half_done`.
-/

namespace Driftless.Raft

/-- The state machine of a node that is sent snapshots: `Restore` replaces the state by what the
data holds, or returns an error on data that it cannot read, and a state covers that many entries
of the history. -/
structure Coverage (σ : Type) where
  restore : Bytes → Option σ
  covers : σ → ℕ

/-- A node that is sent snapshots, and the state of its state machine. -/
structure Receiver (σ : Type) where
  node : Node
  sm : σ

/-- A request, and whether `Restore` gets as far as reading the data if it is called. -/
structure InstallCall where
  args : InstallSnapshotArgs
  restoreOk : Bool
  deriving DecidableEq, Repr

/-- The call of `HandleInstallSnapshot` reaches `Restore`. -/
def Node.ReachesRestore (n : Node) (args : InstallSnapshotArgs) : Prop :=
  n.currentTerm ≤ args.term ∧ Node.Newer n.logEntries args ∧ n.sm = .snapshotable ∧ args.data ≠ []

variable {σ : Type} (S : Coverage σ)

/-- What `Restore` makes of the data if it is called: the new state, unless it returns an error. -/
def InstallCall.restored (c : InstallCall) : Option σ :=
  if c.restoreOk then S.restore c.args.data else none

/-- `HandleInstallSnapshot` from beginning to end. A `Restore` that returns an error leaves the
state alone. -/
def Receiver.installSnapshot (r : Receiver σ) (c : InstallCall) :
    Receiver σ × InstallSnapshotReply :=
  match r.node.handleInstallSnapshot c.args with
  | (n, reply, false) => ({ r with node := n }, reply)
  | (n, reply, true) =>
    if n.sm = .snapshotable ∧ c.args.data ≠ [] then
      match c.restored S with
      | some x => (⟨n, x⟩, { reply with success := true })
      | none => ({ r with node := n }, reply)
    else ({ r with node := n }, { reply with success := true })

/-- The log, the pointers and the cached snapshot are as before. -/
structure Untouched (n n' : Node) : Prop where
  logEntries : n'.logEntries = n.logEntries
  commitIndex : n'.commitIndex = n.commitIndex
  lastApplied : n'.lastApplied = n.lastApplied
  lastSnapshot : n'.lastSnapshot = n.lastSnapshot

/-- One call is all or nothing. -/
structure CallAtomic (r : Receiver σ) (c : InstallCall) : Prop where
  untouched : r.node.ReachesRestore c.args → c.restored S = none →
    Untouched r.node (r.installSnapshot S c).1.node
  covered : (r.installSnapshot S c).2.success = true →
    c.args.lastIncludedIndex ≤ S.covers (r.installSnapshot S c).1.sm

/-- What holds of every call of a sequence, in the state it finds. -/
def ForEachCall (P : Receiver σ → InstallCall → Prop) : Receiver σ → List InstallCall → Prop
  | _, [] => True
  | r, c :: cs => P r c ∧ ForEachCall P (r.installSnapshot S c).1 cs

/-- **All or nothing**, call by call. -/
def AllOrNothing : Receiver σ → List InstallCall → Prop := ForEachCall S (CallAtomic S)

/-- The node's log, pointers and cached snapshot are those of the request. -/
structure Node.HasInstalled (n : Node) (args : InstallSnapshotArgs) : Prop where
  logEntries : n.logEntries = [⟨args.lastIncludedTerm, args.lastIncludedIndex, none⟩]
  commitIndex : n.commitIndex = args.lastIncludedIndex
  lastApplied : n.lastApplied = args.lastIncludedIndex
  lastSnapshot : n.lastSnapshot = some ⟨args.lastIncludedIndex, args.lastIncludedTerm, args.term,
    (n.recognizeLeader args.term).votedFor, args.data⟩

/-- A snapshot that is installed is restored, from data that covers its index, or there is nothing
to do: the node holds it already, or nothing is to be restored and the state machine covers it. -/
def Receiver.Restored (r : Receiver σ) (c : InstallCall) : Prop :=
  r.node.currentTerm ≤ c.args.term → Node.Newer r.node.logEntries c.args →
    if r.node.sm = .snapshotable ∧ c.args.data ≠ [] then
      match c.restored S with
      | some x => c.args.lastIncludedIndex ≤ S.covers x
      | none => r.node.HasInstalled c.args
    else c.args.lastIncludedIndex ≤ S.covers r.sm

/-- The state machine covers what the log has discarded. -/
def Receiver.FloorCovered (r : Receiver σ) : Prop :=
  firstIndex r.node.logEntries ≤ S.covers r.sm

/-- A snapshot that is ignored as an older one is covered, at least with the floor. -/
def Receiver.IgnoredCovered (r : Receiver σ) (c : InstallCall) : Prop :=
  r.node.currentTerm ≤ c.args.term → ¬ Node.Newer r.node.logEntries c.args →
    r.FloorCovered S ∨ c.args.lastIncludedIndex ≤ S.covers r.sm

section Call

variable {S} {r : Receiver σ} {c : InstallCall}

theorem installSnapshot_stale (ht : c.args.term < r.node.currentTerm) :
    r.installSnapshot S c = (r, ⟨r.node.currentTerm, false⟩) := by
  rcases r.node.handleInstallSnapshot_cases c.args with ⟨-, he⟩ | ⟨h, -⟩ | ⟨h, -⟩
  · simp [Receiver.installSnapshot, he]
  · omega
  · omega

theorem installSnapshot_ignored (ht : r.node.currentTerm ≤ c.args.term)
    (ho : ¬ Node.Newer r.node.logEntries c.args) : r.installSnapshot S c =
      ({ r with node := r.node.recognizeLeader c.args.term }, ⟨c.args.term, true⟩) := by
  rcases r.node.handleInstallSnapshot_cases c.args with ⟨h, -⟩ | ⟨-, -, he⟩ | ⟨-, h, -⟩
  · omega
  · simp [Receiver.installSnapshot, he]
  · exact absurd h ho

/-- A snapshot that passes both checks: the node is rewritten whatever `Restore` returns. -/
theorem installSnapshot_newer (ht : r.node.currentTerm ≤ c.args.term)
    (hn : Node.Newer r.node.logEntries c.args) : r.installSnapshot S c =
      if r.node.sm = .snapshotable ∧ c.args.data ≠ [] then
        match c.restored S with
        | some x => (⟨r.node.installed c.args, x⟩, ⟨c.args.term, true⟩)
        | none => ({ r with node := r.node.installed c.args }, ⟨c.args.term, false⟩)
      else ({ r with node := r.node.installed c.args }, ⟨c.args.term, true⟩) := by
  rcases r.node.handleInstallSnapshot_cases c.args with ⟨h, -⟩ | ⟨-, h, -⟩ | ⟨-, -, he⟩
  · omega
  · exact absurd hn h
  · have hsm : (r.node.installed c.args).sm = r.node.sm :=
      congrArg (fun t => t.2.2) (r.node.recognizeLeader_static c.args.term)
    simp [Receiver.installSnapshot, he, hsm]

theorem untouched_installed {n : Node} {args : InstallSnapshotArgs} :
    Untouched n (n.installed args) ↔ n.HasInstalled args :=
  ⟨fun h => ⟨h.1.symm, h.2.symm, h.3.symm, h.4.symm⟩,
    fun h => ⟨h.1.symm, h.2.symm, h.3.symm, h.4.symm⟩⟩

/-- A call that reaches `Restore`. -/
theorem callAtomic_of_reaches (hr : r.node.ReachesRestore c.args) :
    CallAtomic S r c ↔ r.Restored S c := by
  obtain ⟨ht, hn, hd⟩ := hr
  have he := installSnapshot_newer (S := S) ht hn
  rw [if_pos hd] at he
  cases hx : c.restored S with
  | some x =>
    simp only [hx] at he
    constructor
    · intro h _ _
      have hc := h.covered (by rw [he])
      rw [he] at hc
      rw [if_pos hd]
      simpa only [hx] using hc
    · intro h
      have hres := h ht hn
      rw [if_pos hd] at hres
      simp only [hx] at hres
      refine ⟨fun _ hno => ?_, fun _ => ?_⟩
      · cases hx.symm.trans hno
      · rwa [he]
  | none =>
    simp only [hx] at he
    constructor
    · intro h _ _
      have hu := h.untouched ⟨ht, hn, hd⟩ hx
      rw [he] at hu
      rw [if_pos hd]
      simpa only [hx] using untouched_installed.1 hu
    · intro h
      have hres := h ht hn
      rw [if_pos hd] at hres
      simp only [hx] at hres
      refine ⟨fun _ _ => ?_, fun hs => ?_⟩
      · rw [he]
        exact untouched_installed.2 hres
      · rw [he] at hs
        cases hs

/-- **One call is all or nothing** exactly if an installed snapshot is restored and an ignored one
is covered. -/
theorem callAtomic_iff : CallAtomic S r c ↔ r.Restored S c ∧ r.IgnoredCovered S c := by
  by_cases ht : c.args.term < r.node.currentTerm
  · have he := installSnapshot_stale (S := S) ht
    refine ⟨fun _ => ⟨fun h => ?_, fun h => ?_⟩, fun _ => ⟨fun h => ?_, fun h => ?_⟩⟩
    · omega
    · omega
    · exact absurd h.1 (by omega)
    · rw [he] at h
      cases h
  rw [not_lt] at ht
  by_cases hn : Node.Newer r.node.logEntries c.args
  · have hex : r.IgnoredCovered S c := fun _ h => absurd hn h
    rw [and_iff_left hex]
    by_cases hd : r.node.sm = .snapshotable ∧ c.args.data ≠ []
    · exact callAtomic_of_reaches ⟨ht, hn, hd⟩
    · have he := installSnapshot_newer (S := S) ht hn
      rw [if_neg hd] at he
      refine ⟨fun h _ _ => ?_, fun h => ⟨fun hr _ => ?_, fun _ => ?_⟩⟩
      · have hc := h.covered (by rw [he])
        rw [he] at hc
        rwa [if_neg hd]
      · exact absurd hr.2.2 hd
      · have hres := h ht hn
        rw [if_neg hd] at hres
        rwa [he]
  · have he := installSnapshot_ignored (S := S) ht hn
    have hle : c.args.lastIncludedIndex ≤ firstIndex r.node.logEntries := (not_not.1 hn).1
    refine ⟨fun h => ⟨fun _ h' => absurd h' hn, fun _ _ => .inr ?_⟩,
      fun h => ⟨fun hr _ => absurd hr.2.1 hn, fun _ => ?_⟩⟩
    · have hc := h.covered (by rw [he])
      rwa [he] at hc
    · rw [he]
      rcases h.2 ht hn with hf | hc
      · exact hle.trans hf
      · exact hc

/-- The floor stays covered through calls that are all or nothing. -/
theorem Receiver.FloorCovered.install (hf : r.FloorCovered S) (h : CallAtomic S r c) :
    (r.installSnapshot S c).1.FloorCovered S := by
  by_cases ht : c.args.term < r.node.currentTerm
  · rw [installSnapshot_stale ht]
    exact hf
  rw [not_lt] at ht
  by_cases hn : Node.Newer r.node.logEntries c.args
  · have hc := h.covered
    have hu := h.untouched
    rw [installSnapshot_newer ht hn] at hc hu ⊢
    by_cases hd : r.node.sm = .snapshotable ∧ c.args.data ≠ []
    · rw [if_pos hd] at hc hu ⊢
      cases hx : c.restored S with
      | some x =>
        simp only [hx] at hc ⊢
        exact hc trivial
      | none =>
        simp only [hx] at hu ⊢
        exact (congrArg firstIndex (hu ⟨ht, hn, hd⟩ trivial).logEntries).trans_le hf
    · rw [if_neg hd] at hc ⊢
      exact hc rfl
  · rw [installSnapshot_ignored ht hn]
    exact (congrArg firstIndex (r.node.recognizeLeader_logEntries c.args.term)).trans_le hf

end Call

/-- The first section of a running server's `HandleInstallSnapshot`, for a snapshot that passes both
checks. -/
theorem step_install {s : Server} {args : InstallSnapshotArgs} (hs : s.installs = [])
    (he : s.node.handleInstallSnapshot args =
      (s.node.installed args, ⟨args.term, false⟩, true)) :
    s.step (.handleInstallSnapshot args) = some ({ s with
      node := s.node.installed args
      installs := [(args, ⟨args.term, false⟩)] }, []) := by
  simp [Server.step, Server.stepHandler, he, hs]

/-- The rest of it, once `Restore` has returned. -/
theorem step_finishInstall {s : Server} (hs : s.installs = []) (n : Node)
    (args : InstallSnapshotArgs) (reply : InstallSnapshotReply) (ok : Bool) :
    Server.step { s with node := n, installs := [(args, reply)] } (.finishInstall 0 ok) =
      if n.sm = .snapshotable ∧ args.data ≠ [] then
        some ({ s with node := n }, [.restore args.data ok,
          .installSnapshotReply args { reply with success := ok }])
      else some ({ s with node := n },
        [.installSnapshotReply args { reply with success := true }]) := by
  simp only [Server.step, Server.stepHandler, hs, List.getElem?_cons_zero, List.eraseIdx_cons_zero]

/-- A running server that handles the request and, if it comes to that, restores its state machine
before anything else happens does what `installSnapshot` says. -/
theorem run_installSnapshot (s : Server) (x : σ) (c : InstallCall) (h : List Output)
    (hs : s.installs = []) : ∃ out,
      Run Server.step (fun _ _ _ => True) s h
        { s with node := (Receiver.installSnapshot S ⟨s.node, x⟩ c).1.node } (h ++ out) ∧
      .installSnapshotReply c.args (Receiver.installSnapshot S ⟨s.node, x⟩ c).2 ∈ out ∧
      (Receiver.installSnapshot S ⟨s.node, x⟩ c).1.sm =
        if .restore c.args.data true ∈ out then (S.restore c.args.data).getD x else x := by
  rcases s.node.handleInstallSnapshot_cases c.args with ⟨ht, he⟩ | ⟨ht, ho, he⟩ | ⟨ht, hn, he⟩
  · rw [installSnapshot_stale (r := ⟨s.node, x⟩) ht]
    have hstep : s.step (.handleInstallSnapshot c.args) =
        some (s, [.installSnapshotReply c.args ⟨s.node.currentTerm, false⟩]) := by
      simp [Server.step, Server.stepHandler, he]
    exact ⟨_, Run.refl.tail trivial hstep, by simp, by simp⟩
  · rw [installSnapshot_ignored (r := ⟨s.node, x⟩) ht ho]
    have hstep : s.step (.handleInstallSnapshot c.args) =
        some ({ s with node := s.node.recognizeLeader c.args.term },
          [.installSnapshotReply c.args ⟨c.args.term, true⟩]) := by
      simp [Server.step, Server.stepHandler, he]
    exact ⟨_, Run.refl.tail trivial hstep, by simp, by simp⟩
  · -- two steps, with the lock released between them
    have hsm : (s.node.installed c.args).sm = s.node.sm :=
      congrArg (fun t => t.2.2) (s.node.recognizeLeader_static c.args.term)
    have hbegin : Run Server.step (fun _ _ _ => True) s h _ (h ++ []) :=
      Run.refl.tail trivial (step_install hs he)
    have hend := step_finishInstall hs (s.node.installed c.args) c.args ⟨c.args.term, false⟩
      (c.restored S).isSome
    rw [List.append_nil] at hbegin
    rw [installSnapshot_newer (r := ⟨s.node, x⟩) ht hn]
    by_cases hd : s.node.sm = .snapshotable ∧ c.args.data ≠ []
    · rw [hsm, if_pos hd] at hend
      have hrun := hbegin.tail trivial hend
      rw [if_pos hd]
      cases hx : c.restored S with
      | none =>
        rw [hx] at hrun
        exact ⟨_, hrun, by simp, by simp⟩
      | some y =>
        have hread : S.restore c.args.data = some y := by
          rw [InstallCall.restored] at hx
          split_ifs at hx
          exact hx
        rw [hx] at hrun
        exact ⟨_, hrun, by simp, by simp [hread]⟩
    · rw [hsm, if_neg hd] at hend
      rw [if_neg hd]
      exact ⟨_, hbegin.tail trivial hend, by simp, by simp⟩

theorem forEachCall_congr {P Q : Receiver σ → InstallCall → Prop} (h : ∀ r c, P r c ↔ Q r c)
    (r : Receiver σ) (cs : List InstallCall) : ForEachCall S P r cs ↔ ForEachCall S Q r cs := by
  induction cs generalizing r with
  | nil => exact Iff.rfl
  | cons c cs ih => exact and_congr (h r c) (ih _)

/-- **A sequence of calls is all or nothing** exactly if every snapshot that is installed is
restored from data that covers its index, and every one that is ignored is covered; and the second
is no condition when the state machine covers the floor at the start. -/
theorem allOrNothing_iff (r : Receiver σ) (cs : List InstallCall) :
    (AllOrNothing S r cs ↔ ForEachCall S (fun r c => r.Restored S c ∧ r.IgnoredCovered S c) r cs) ∧
      (r.FloorCovered S → (AllOrNothing S r cs ↔ ForEachCall S (Receiver.Restored S) r cs)) := by
  refine ⟨forEachCall_congr S (fun _ _ => callAtomic_iff) r cs, ?_⟩
  -- the floor is covered before every call, as long as the calls so far were all or nothing
  induction cs generalizing r with
  | nil => exact fun _ => Iff.rfl
  | cons c cs ih =>
    intro hf
    constructor
    · rintro ⟨hc, hcs⟩
      exact ⟨(callAtomic_iff.1 hc).1, (ih _ (hf.install hc)).1 hcs⟩
    · rintro ⟨hc, hcs⟩
      have hatomic : CallAtomic S r c := callAtomic_iff.2 ⟨hc, fun _ _ => .inl hf⟩
      exact ⟨hatomic, (ih _ (hf.install hatomic)).2 hcs⟩

/-- A machine whose state covers an entry for each command that it holds. -/
def appendCoverage : Coverage Bytes := ⟨appendMachine.restore, List.length⟩

/-- A follower whose state machine has applied nothing. -/
def freshReceiver : Receiver Bytes :=
  ⟨(newNode "b" ["a", "c"]).setStateMachine .snapshotable, appendMachine.init⟩

/-- A snapshot of two commands of one byte. -/
def twoCommands : InstallSnapshotArgs := ⟨4, "a", 2, 3, [0, 7, 8]⟩

/-- The snapshot is restored at the first attempt, and a repeated request changes nothing. -/
theorem allOrNothing_of_restore :
    AllOrNothing appendCoverage freshReceiver [⟨twoCommands, true⟩, ⟨twoCommands, true⟩] := by
  refine ((allOrNothing_iff _ _ _).2 (Nat.zero_le _)).2 ⟨fun _ _ => ?_, fun _ hn => ?_, trivial⟩
  · exact (show 2 ≤ 2 from le_rfl)
  · exact absurd hn (by decide)

/-- A snapshot that the machine cannot read. -/
def unreadable : InstallSnapshotArgs := ⟨4, "a", 7, 3, [1, 2, 3]⟩

/-- **A failed restore leaves a half-installed snapshot**: the node's log, pointers and cached
snapshot are those of a snapshot its state machine does not have, and when the leader retries, the
request is answered with success. -/
theorem install_half_done :
    (¬ ∀ (r : Receiver Bytes) (c : InstallCall), r.node.currentTerm ≤ c.args.term →
      r.node.ReachesRestore c.args → c.restored appendCoverage = none →
        Untouched r.node (r.installSnapshot appendCoverage c).1.node) ∧
    ¬ ∀ (r : Receiver Bytes) (cs : List InstallCall), r.FloorCovered appendCoverage →
      ForEachCall appendCoverage (fun r c => (r.installSnapshot appendCoverage c).2.success = true →
        c.args.lastIncludedIndex ≤
          appendCoverage.covers (r.installSnapshot appendCoverage c).1.sm) r cs := by
  constructor
  · intro hall
    have hu := hall freshReceiver ⟨unreadable, true⟩ (by decide)
      ⟨by decide, by decide, rfl, by decide⟩ rfl
    exact absurd hu.commitIndex (by decide)
  · intro hall
    obtain ⟨-, hretry, -⟩ := hall freshReceiver [⟨unreadable, true⟩, ⟨unreadable, true⟩]
      (Nat.zero_le _)
    exact absurd (hretry (by decide)) (by decide)

end Driftless.Raft
