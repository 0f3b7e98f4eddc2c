import Mathlib.Order.Lattice
import Driftless.Raft.Server

/-!
# The state machine of a replica

A `Machine` is what the code calls a `SnapshotableStateMachine`: it applies entries, serializes
its state and restores it. A `Replica` is a server with the state of its machine, which changes
through the calls `Apply` and `Restore` that the server makes.

The committed history is a fixed list `H`, and the messages carry slices of it and the machine's
state after a prefix of it (`Delivers`). The machine's state is then the result of the entries up
to `lastApplied`, between two calls, in every run where no snapshot is installed in the middle of a
call, and no entry is read before the snapshot before it is restored (`Serializes`):
`sm_eq_after`. The code orders none of these calls: `sm_differs` restores between the read of an
entry and its `Apply`.
-/

namespace Driftless.Raft

/-- A state machine with snapshots, from its initial state. A snapshot is never empty. -/
structure Machine (σ : Type) where
  init : σ
  apply : σ → LogEntry → σ
  snapshot : σ → Bytes
  restore : Bytes → Option σ
  restore_snapshot : ∀ x, restore (snapshot x) = some x
  snapshot_ne_nil : ∀ x, snapshot x ≠ []

variable {σ : Type}

namespace Machine

variable (M : Machine σ)

/-- What the apply loop does with an entry: one without a command is skipped. -/
def applyEntry (x : σ) (e : LogEntry) : σ := if e.command.isSome then M.apply x e else x

/-- The state after the first `k` entries of a history, each applied once, in order. -/
def after (H : List LogEntry) (k : ℕ) : σ := (H.take k).foldl M.applyEntry M.init

/-- What an output of the server does to the machine. A `Restore` that fails changes nothing. -/
def perform (x : σ) : Output → σ
  | .apply e => M.apply x e
  | .restore data _ => (M.restore data).getD x
  | _ => x

theorem after_succ {H : List LogEntry} {k : ℕ} {e : LogEntry} (h : H[k]? = some e) :
    M.after H (k + 1) = M.applyEntry (M.after H k) e := by
  simp [after, List.take_add_one, h]

end Machine

/-- A server and the state of its machine. -/
structure Replica (σ : Type) where
  server : Server
  sm : σ

namespace Replica

variable (M : Machine σ)

/-- The process `main` starts: `RestoreSnapshot` restores the machine too. -/
def boot (id : String) (peers : List String) (store : Option RaftSnapshot) : Replica σ where
  server := Server.boot id peers .snapshotable store
  sm := match store with
    | none => M.init
    | some rs => if rs.data = [] then M.init else (M.restore rs.data).getD M.init

/-- A step of the server, with the calls it makes. -/
def step (x : Replica σ) (ev : Event) : Option (Replica σ × List Output) :=
  match x.server.step ev with
  | some (s', out) => some (⟨s', out.foldl M.perform x.sm⟩, out)
  | none => none

theorem step_eq {M : Machine σ} {x x' : Replica σ} {ev : Event} {out : List Output}
    (h : x.step M ev = some (x', out)) :
    Server.Step x.server ev x'.server out ∧ x'.sm = out.foldl M.perform x.sm := by
  unfold step at h
  split at h
  next s' out' hs =>
    cases h
    exact ⟨Server.step_inv hs, rfl⟩
  next => cases h

/-- No `Apply` is in progress, from the read of its entry to the write of `lastApplied`, and no
`Restore` is due. -/
def Quiet (x : Replica σ) : Prop := x.server.apply.inFlight = none ∧ x.server.installs = []

instance (x : Replica σ) : Decidable x.Quiet := inferInstanceAs (Decidable (_ ∧ _))

end Replica

/-! ## Deliveries of a history -/

variable (M : Machine σ) (H : List LogEntry)

/-- The follower receives the history: entries of it, and snapshots with the state after them.
`Restore` fails on data it cannot read, and `Snapshot` serializes the state. -/
def Delivers (x : Replica σ) (_ : List Output) : Event → Prop
  | .handleAppendEntries args => args.WellFormed ∧ ∀ e ∈ args.entries, H[e.index - 1]? = some e
  | .handleInstallSnapshot args => args.data = M.snapshot (M.after H args.lastIncludedIndex)
  | .finishInstall k ok => ∀ p ∈ x.server.installs[k]?, ok = (M.restore p.1.data).isSome
  | .serialize (some data) => data = M.snapshot x.sm
  | .propose _ => False
  | .restart => False
  | _ => True

instance (x : Replica σ) (h : List Output) (ev : Event) : Decidable (Delivers M H x h ev) := by
  rcases ev
  case serialize data => rcases data <;> dsimp only [Delivers] <;> infer_instance
  all_goals
    dsimp only [Delivers]
    infer_instance

/-- A snapshot is installed while no `Apply` is in progress, no other `Restore` is due, and no
`TakeSnapshot` is at work on a higher index; and no entry is read while a `Restore` is due. -/
def Serializes (x : Replica σ) : Event → Prop
  | .handleInstallSnapshot args => x.server.node.currentTerm ≤ args.term →
      Node.Newer x.server.node.logEntries args → x.Quiet ∧
        ∀ rs ∈ x.server.snapshot.taking, rs.lastIncludedIndex ≤ args.lastIncludedIndex
  | .applyRead => x.server.node.lastApplied < x.server.node.commitIndex → x.server.installs = []
  | _ => True

instance (x : Replica σ) (ev : Event) : Decidable (Serializes x ev) := by
  rcases ev <;> dsimp only [Serializes] <;> infer_instance

def DeliversInOrder (x : Replica σ) (h : List Output) (ev : Event) : Prop :=
  Delivers M H x h ev ∧ Serializes x ev

instance (x : Replica σ) (h : List Output) (ev : Event) : Decidable (DeliversInOrder M H x h ev) :=
  inferInstanceAs (Decidable (_ ∧ _))

/-! ## The invariant -/

/-- The entries that went into the machine, once a due `Restore` has run: those up to the one the
apply loop just applied, or up to `lastApplied`. -/
def Server.reached (s : Server) : ℕ :=
  match s.apply with
  | .applied idx _ _ => idx
  | _ => s.node.lastApplied

theorem Server.reached_of_inFlight {s : Server} (h : s.apply.inFlight = none) :
    s.reached = s.node.lastApplied := by
  unfold Server.reached
  split
  next idx e w ha =>
    rw [ha] at h
    cases h
  next => rfl

/-- The log holds the history, the apply loop works on the next entry of it, and the machine has
the state of `reached`, or a `Restore` of it is due. -/
structure AppliedPrefix (x : Replica σ) : Prop where
  sm_eq : x.server.node.sm = .snapshotable
  wellFormed : WellFormed x.server.node.logEntries
  log : ∀ i e, firstIndex x.server.node.logEntries < i →
    entryAt x.server.node.logEntries i = some e → H[i - 1]? = some e
  first_le : firstIndex x.server.node.logEntries ≤ x.server.node.lastApplied
  taking : ∀ rs ∈ x.server.snapshot.taking, rs.lastIncludedIndex ≤ x.server.node.lastApplied
  reading : ∀ idx e w, x.server.apply = .read idx e w → idx = x.server.node.lastApplied + 1 ∧
    H[x.server.node.lastApplied]? = some e
  le_reached : x.server.node.lastApplied ≤ x.server.reached
  due : (x.server.installs = [] ∧ x.sm = M.after H x.server.reached) ∨
    (x.server.apply.inFlight = none ∧ ∃ args r, x.server.installs = [(args, r)] ∧
      args.data = M.snapshot (M.after H x.server.reached))

variable {M H}

theorem appliedPrefix_boot (id : String) (peers : List String) {store : Option RaftSnapshot}
    (hstore : ∀ rs ∈ store, rs.data = M.snapshot (M.after H rs.lastIncludedIndex)) :
    AppliedPrefix M H (Replica.boot M id peers store) := by
  refine ⟨?_, Server.wellFormed_boot _ _ _ _, fun i e hlt he => ?_, ?_, nofun, nofun, le_rfl,
    .inl ⟨rfl, ?_⟩⟩
  · exact Server.boot_sm id peers .snapshotable store
  · have hb := (entryAt_bounds he).2
    cases store <;> exact absurd (Nat.lt_of_lt_of_le hlt hb) (lt_irrefl _)
  · cases store <;> exact le_rfl
  · cases store with
    | none => rfl
    | some rs =>
      have hd := hstore rs rfl
      have hne : rs.data ≠ [] := hd ▸ M.snapshot_ne_nil _
      show (if rs.data = [] then M.init else (M.restore rs.data).getD M.init) = _
      rw [if_neg hne, hd, M.restore_snapshot]
      rfl

section Step

variable {x : Replica σ} {s' : Server} {ev : Event} {h out : List Output}

/-- A step of the server that calls nothing and leaves the log and the apply loop alone. -/
theorem AppliedPrefix.keep (hi : AppliedPrefix M H x) {sm' : σ} (hx : sm' = x.sm)
    (hk : s'.node.sm = x.server.node.sm) (hh : s'.node.held = x.server.node.held)
    (ha : s'.apply = x.server.apply)
    (ht : ∀ rs ∈ s'.snapshot.taking, rs.lastIncludedIndex ≤ x.server.node.lastApplied)
    (hins : s'.installs = x.server.installs) : AppliedPrefix M H ⟨s', sm'⟩ := by
  have hlog : s'.node.logEntries = x.server.node.logEntries := Node.logEntries_of_held hh
  have hla : s'.node.lastApplied = x.server.node.lastApplied := Node.lastApplied_of_held hh
  have hr : s'.reached = x.server.reached := by
    unfold Server.reached
    rw [ha, hla]
  refine ⟨hk.trans hi.sm_eq, hlog ▸ hi.wellFormed, ?_, ?_, fun rs hrs => ?_, ?_, ?_, ?_⟩
  · simpa only [hlog] using hi.log
  · simpa only [hlog, hla] using hi.first_le
  · simpa only [hla] using ht rs hrs
  · simpa only [ha, hla] using hi.reading
  · simpa only [hla, hr] using hi.le_reached
  · simpa only [ha, hins, hr, hx] using hi.due

theorem AppliedPrefix.handleAppendEntries (hi : AppliedPrefix M H x) (args : AppendEntriesArgs)
    (hok : Delivers M H x h (.handleAppendEntries args)) :
    AppliedPrefix M H
      ⟨{ x.server with node := (x.server.node.handleAppendEntries args).1 }, x.sm⟩ := by
  have hk : (x.server.node.handleAppendEntries args).1.sm = x.server.node.sm :=
    congrArg (fun t => t.2.2) (x.server.node.handleAppendEntries_static args)
  have hheld := x.server.node.recognizeLeader_held args.term
  rcases x.server.node.handleAppendEntries_cases args with ⟨-, he⟩ | ⟨-, -, he⟩ | ⟨-, hc, he⟩
  · exact hi.keep rfl hk (congrArg (fun y => y.1.held) he) rfl hi.taking rfl
  · exact hi.keep rfl hk ((congrArg (fun y => y.1.held) he).trans hheld) rfl hi.taking rfl
  · have hidx : args.prevLogIndex + 1 ≤ lastIndex x.server.node.logEntries + 1 :=
      Nat.succ_le_succ hc.1
    have happ := appended_appendEntries hi.wellFormed hok.1 hidx
    have hla := Node.lastApplied_of_held hheld
    have hr : { x.server with node := (x.server.node.handleAppendEntries args).1 }.reached =
        x.server.reached := by
      simp only [Server.reached, he]
      split
      · rfl
      · exact hla
    refine ⟨hk.trans hi.sm_eq, ?_, ?_, ?_, ?_, ?_, ?_, hr ▸ hi.due⟩
    · rw [he]
      exact happ.wellFormed
    · rw [he]
      intro i e hlt hent
      have hf : firstIndex x.server.node.logEntries < i := happ.firstIndex_eq ▸ hlt
      rcases entryAt_appendEntries_source hi.wellFormed hok.1 hidx hent with hold | hnew
      · exact hi.log i e hf hold
      · have hie : e.index = i := happ.wellFormed.index_of_entryAt hent
        exact hie ▸ hok.2 e hnew
    · rw [he]
      exact (happ.firstIndex_eq.trans_le hi.first_le).trans_eq hla.symm
    · rw [he]
      exact fun rs hrs => (hi.taking rs hrs).trans_eq hla.symm
    · rw [he]
      intro idx e w ha
      show idx = (x.server.node.recognizeLeader args.term).lastApplied + 1 ∧
        H[(x.server.node.recognizeLeader args.term).lastApplied]? = some e
      rw [hla]
      exact hi.reading idx e w ha
    · rw [hr, he]
      exact hla.trans_le hi.le_reached

theorem AppliedPrefix.install (hi : AppliedPrefix M H x) (args : InstallSnapshotArgs)
    (ht : x.server.node.currentTerm ≤ args.term)
    (hn : Node.Newer x.server.node.logEntries args) (r : InstallSnapshotReply)
    (hok : DeliversInOrder M H x h (.handleInstallSnapshot args)) :
    AppliedPrefix M H ⟨{ x.server with
      node := x.server.node.installed args
      installs := x.server.installs ++ [(args, r)] }, x.sm⟩ := by
  obtain ⟨⟨hq, hins⟩, htake⟩ := hok.2 ht hn
  have hr : Server.reached { x.server with
      node := x.server.node.installed args
      installs := x.server.installs ++ [(args, r)] } = args.lastIncludedIndex :=
    Server.reached_of_inFlight hq
  refine ⟨?_, wellFormed_singleton _, fun i e hlt he => ?_, le_rfl, htake, fun idx e w ha => ?_,
    hr.ge, .inr ⟨hq, args, r, ?_, ?_⟩⟩
  · exact (congrArg (fun t => t.2.2) (x.server.node.recognizeLeader_static args.term)).trans
      hi.sm_eq
  · exact absurd (Nat.lt_of_lt_of_le hlt (entryAt_bounds he).2) (lt_irrefl _)
  · have ha : x.server.apply = .read idx e w := ha
    rw [ha] at hq
    cases hq
  · show x.server.installs ++ [(args, r)] = [(args, r)]
    rw [hins, List.nil_append]
  · rw [hr]
    exact hok.1

theorem AppliedPrefix.finishInstall (hi : AppliedPrefix M H x) {k : ℕ} (ok : Bool)
    {args : InstallSnapshotArgs} {r : InstallSnapshotReply} (r' : InstallSnapshotReply)
    (hk : x.server.installs[k]? = some (args, r)) :
    (x.server.node.sm = .snapshotable ∧ args.data ≠ []) ∧
    AppliedPrefix M H ⟨{ x.server with installs := x.server.installs.eraseIdx k },
      [Output.restore args.data ok, .installSnapshotReply args r'].foldl M.perform x.sm⟩ := by
  rcases hi.due with ⟨hins, -⟩ | ⟨hq, args', r₀, hins, hd⟩
  · rw [hins] at hk
    cases hk
  · rw [hins] at hk
    obtain ⟨rfl, hk⟩ : k = 0 ∧ (args', r₀) = (args, r) := by
      cases k with
      | zero => exact ⟨rfl, Option.some.inj hk⟩
      | succ k => cases hk
    cases hk
    refine ⟨⟨hi.sm_eq, hd ▸ M.snapshot_ne_nil _⟩, hi.sm_eq, hi.wellFormed, hi.log, hi.first_le,
      hi.taking, hi.reading, hi.le_reached, .inl ⟨?_, ?_⟩⟩
    · show x.server.installs.eraseIdx 0 = []
      rw [hins]
      rfl
    · show (M.restore args.data).getD x.sm = M.after H x.server.reached
      rw [hd, M.restore_snapshot]
      rfl

/-- A step of the apply loop from a phase in which nothing is in flight to another one. -/
theorem AppliedPrefix.idle (hi : AppliedPrefix M H x) (ha : x.server.apply.inFlight = none)
    {a : ApplyLoop} (ha' : a.inFlight = none) {n : Node} (hn : n.held = x.server.node.held)
    (hk : n.sm = x.server.node.sm) :
    AppliedPrefix M H ⟨{ x.server with node := n, apply := a }, x.sm⟩ := by
  have hlog := Node.logEntries_of_held hn
  have hla := Node.lastApplied_of_held hn
  have hr : x.server.reached = x.server.node.lastApplied := Server.reached_of_inFlight ha
  have hr' : Server.reached { x.server with node := n, apply := a } = n.lastApplied :=
    Server.reached_of_inFlight ha'
  refine ⟨hk.trans hi.sm_eq, hlog ▸ hi.wellFormed, ?_, ?_, fun rs hrs => ?_, fun idx e w hx => ?_,
    hr'.ge, ?_⟩
  · simpa only [hlog] using hi.log
  · simpa only [hlog, hla] using hi.first_le
  · simpa only [hla] using hi.taking rs hrs
  · have hx : a = .read idx e w := hx
    rw [hx] at ha'
    cases ha'
  · rw [hr', hla, ← hr]
    rcases hi.due with hd | ⟨-, hd⟩
    · exact .inl hd
    · exact .inr ⟨ha', hd⟩

/-- While an entry is in flight no `Restore` is due. -/
theorem AppliedPrefix.applied_of_inFlight (hi : AppliedPrefix M H x)
    (ha : x.server.apply.inFlight ≠ none) :
    x.server.installs = [] ∧ x.sm = M.after H x.server.reached := by
  rcases hi.due with hd | ⟨hq, -⟩
  · exact hd
  · exact absurd hq ha

theorem AppliedPrefix.read (hi : AppliedPrefix M H x) {entry : LogEntry}
    (ha : x.server.apply = .next) (hins : x.server.installs = [])
    (he : entryAt x.server.node.logEntries (x.server.node.lastApplied + 1) = some entry)
    (waits : AList fun _ : ℕ => ℕ) (waiter : Option ℕ) :
    AppliedPrefix M H ⟨{ x.server with
      node := { x.server.node with commitWaits := waits }
      apply := .read (x.server.node.lastApplied + 1) entry waiter }, x.sm⟩ := by
  have hr : x.server.reached = x.server.node.lastApplied := by
    unfold Server.reached
    rw [ha]
  have hlt : firstIndex x.server.node.logEntries < x.server.node.lastApplied + 1 :=
    Nat.lt_succ_of_le hi.first_le
  refine ⟨hi.sm_eq, hi.wellFormed, hi.log, hi.first_le, hi.taking, ?_, le_rfl, .inl ?_⟩
  · rintro idx e w ⟨⟩
    exact ⟨rfl, hi.log _ _ hlt he⟩
  · rcases hi.due with ⟨-, hd⟩ | ⟨-, args, r, hdue, -⟩
    · exact ⟨hins, hd.trans (congrArg _ hr)⟩
    · rw [hins] at hdue
      cases hdue

/-- `Apply` takes the machine one entry further. -/
theorem AppliedPrefix.call (hi : AppliedPrefix M H x) {idx : ℕ} {entry : LogEntry}
    {waiter : Option ℕ} (ha : x.server.apply = .read idx entry waiter) :
    AppliedPrefix M H ⟨{ x.server with apply := .applied idx entry waiter },
      M.applyEntry x.sm entry⟩ := by
  obtain ⟨hidx, hent⟩ := hi.reading idx entry waiter ha
  have hr : x.server.reached = x.server.node.lastApplied := by
    unfold Server.reached
    rw [ha]
  obtain ⟨hins, hd⟩ := hi.applied_of_inFlight (by simp [ha, ApplyLoop.inFlight])
  refine ⟨hi.sm_eq, hi.wellFormed, hi.log, hi.first_le, hi.taking, nofun, ?_, .inl ⟨hins, ?_⟩⟩
  · show x.server.node.lastApplied ≤ idx
    omega
  · show M.applyEntry x.sm entry = M.after H idx
    rw [hidx, M.after_succ hent, hd, hr]

/-- The server calls `Apply` exactly for an entry with a command. -/
theorem AppliedPrefix.perform_call (hi : AppliedPrefix M H x) (entry : LogEntry) :
    (if x.server.node.sm ≠ .absent ∧ entry.command.isSome = true then [Output.apply entry]
      else []).foldl M.perform x.sm = M.applyEntry x.sm entry := by
  have hsm : x.server.node.sm ≠ .absent := by
    rw [hi.sm_eq]
    exact nofun
  unfold Machine.applyEntry
  by_cases hcmd : entry.command.isSome = true
  · rw [if_pos ⟨hsm, hcmd⟩, if_pos hcmd]
    rfl
  · rw [if_neg fun h => hcmd h.2, if_neg hcmd]
    rfl

theorem AppliedPrefix.write (hi : AppliedPrefix M H x) {idx : ℕ} {entry : LogEntry}
    {waiter : Option ℕ} (ha : x.server.apply = .applied idx entry waiter) :
    AppliedPrefix M H ⟨{ x.server with
      node := { x.server.node with lastApplied := idx }
      apply := .written entry waiter }, x.sm⟩ := by
  have hr : x.server.reached = idx := by
    unfold Server.reached
    rw [ha]
  have hle : x.server.node.lastApplied ≤ idx := hi.le_reached.trans_eq hr
  obtain ⟨hins, hd⟩ := hi.applied_of_inFlight (by simp [ha, ApplyLoop.inFlight])
  exact ⟨hi.sm_eq, hi.wellFormed, hi.log, hi.first_le.trans hle,
    fun rs hrs => (hi.taking rs hrs).trans hle, nofun, le_rfl,
    .inl ⟨hins, hd.trans (congrArg _ hr)⟩⟩

/-- The log is compacted up to an applied index, so what is left of it is still of the history. -/
theorem AppliedPrefix.finishSnapshot (hi : AppliedPrefix M H x) {rs : RaftSnapshot}
    (hsn : x.server.snapshot = .saved rs) :
    AppliedPrefix M H ⟨{ x.server with
      node := x.server.node.finishSnapshot rs
      snapshot := .idle }, x.sm⟩ := by
  have hle := hi.taking rs (by rw [hsn]; rfl)
  have hf := @firstIndex_compactLogLocked x.server.node.logEntries rs.lastIncludedIndex
    rs.lastIncludedTerm
  refine ⟨hi.sm_eq, hi.wellFormed.compactLogLocked _ _, fun i e hlt he => ?_, ?_, nofun,
    hi.reading, hi.le_reached, hi.due⟩
  · have hlt : max (firstIndex x.server.node.logEntries) rs.lastIncludedIndex < i := hf ▸ hlt
    have he : entryAt (compactLogLocked x.server.node.logEntries rs.lastIncludedIndex
      rs.lastIncludedTerm) i = some e := he
    rw [entryAt_compactLogLocked hi.wellFormed _ _ (lt_of_le_of_lt (le_max_right _ _) hlt)] at he
    exact hi.log i e (lt_of_le_of_lt (le_max_left _ _) hlt) he
  · exact hf.trans_le (max_le hi.first_le hle)

/-- **One step keeps the machine at the applied prefix.** -/
theorem AppliedPrefix.step (hi : AppliedPrefix M H x) (hok : DeliversInOrder M H x h ev)
    (hs : Server.Step x.server ev s' out) :
    AppliedPrefix M H ⟨s', out.foldl M.perform x.sm⟩ := by
  have hk := hs.sm_eq
  cases hs with
  | abortPendingProposals =>
    have hout : (x.server.node.abortPendingProposals.2.map fun r => Output.result r.1 r.2).foldl
        M.perform x.sm = x.sm := by
      generalize x.server.node.abortPendingProposals.2 = rs
      induction rs with
      | nil => rfl
      | cons r rs ih => exact ih
    rw [hout]
    exact ⟨hi.sm_eq, hi.wellFormed, hi.log, hi.first_le, hi.taking, hi.reading, hi.le_reached,
      hi.due⟩
  | sendAppend p n args hr hidle hp hl hsend =>
    exact hi.keep rfl hk (Node.sendAppend_held hsend) rfl hi.taking rfl
  | appendReply p args reply hw =>
    exact hi.keep rfl hk (x.server.node.handleAppendReply_held p args reply) rfl hi.taking rfl
  | installReply p args reply hw =>
    exact hi.keep rfl hk (x.server.node.handleInstallReply_held p args reply) rfl hi.taking rfl
  | handleRequestVote args =>
    exact hi.keep rfl hk (x.server.node.handleRequestVote_held args) rfl hi.taking rfl
  | handleAppendEntries args => exact hi.handleAppendEntries args hok.1
  | installOld args ht ho =>
    exact hi.keep rfl hk (x.server.node.recognizeLeader_held _) rfl hi.taking rfl
  | install args ht ho => exact hi.install args ht ho _ hok
  | finishInstall k ok args reply hx hd => exact (hi.finishInstall ok _ hx).2
  | finishEmptyInstall k ok args reply hx hd =>
    exact absurd (hi.finishInstall ok reply hx).1 hd
  | propose => exact hok.1.elim
  | applyWake ha => exact hi.idle (by rw [ha]; rfl) rfl rfl rfl
  | applyIdle ha => exact hi.idle (by rw [ha]; rfl) rfl rfl rfl
  | applySkip ha hf hc hn =>
    have := hi.first_le
    omega
  | applyRead entry ha hc he => exact hi.read ha (hok.2 hc) he _ _
  | applyCall idx entry waiter ha =>
    rw [hi.perform_call entry]
    exact hi.call ha
  | applyWrite idx entry waiter ha => exact hi.write ha
  | applyNotify entry waiter ha =>
    have hout : ((waiter.map fun ch => Output.result ch ⟨true, entry.index,
        entry.term⟩).toList).foldl M.perform x.sm = x.sm := by
      cases waiter <;> rfl
    rw [hout]
    exact hi.idle (by rw [ha]; rfl) rfl rfl rfl
  | beginSnapshot rs hsn hb =>
    refine hi.keep rfl rfl rfl rfl ?_ rfl
    rintro _ ⟨⟩
    unfold Node.beginSnapshot at hb
    split_ifs at hb
    cases hb
    exact le_rfl
  | serialize rs d hsn =>
    refine hi.keep rfl rfl rfl rfl ?_ rfl
    rintro _ ⟨⟩
    exact hi.taking rs (by rw [hsn]; rfl)
  | saveSnapshot rs hsn =>
    refine hi.keep rfl rfl rfl rfl ?_ rfl
    rintro _ ⟨⟩
    exact hi.taking rs (by rw [hsn]; rfl)
  | serializeError | saveError => exact hi.keep rfl rfl rfl rfl nofun rfl
  | finishSnapshot rs hsn => exact hi.finishSnapshot hsn
  | restart => exact hok.1.elim
  | _ => exact hi.keep rfl rfl rfl rfl hi.taking rfl

end Step

/-- **The state machine is exactly the applied prefix**, whenever no `Apply` or `Restore` is in
progress, in every run that keeps to `DeliversInOrder`. -/
theorem sm_eq_after {id : String} {peers : List String} {store : Option RaftSnapshot}
    (hstore : ∀ rs ∈ store, rs.data = M.snapshot (M.after H rs.lastIncludedIndex))
    {x : Replica σ} {h : List Output}
    (r : Run (Replica.step M) (DeliversInOrder M H) (Replica.boot M id peers store) [] x h)
    (hq : x.Quiet) : x.sm = M.after H x.server.node.lastApplied := by
  have hinv : AppliedPrefix M H x := by
    refine r.invariant (I := fun x _ => AppliedPrefix M H x) (appliedPrefix_boot id peers hstore) ?_
    rintro x h ev ⟨s', sm'⟩ out hi hok hs
    obtain ⟨hstep, rfl⟩ := Replica.step_eq hs
    exact hi.step hok hstep
  rcases hinv.due with ⟨-, hsm⟩ | ⟨-, args, r, hins, -⟩
  · rw [hsm, Server.reached_of_inFlight hq.1]
  · rw [hq.2] at hins
    cases hins

/-- A machine that appends the commands, with a byte in front of its snapshots. -/
def appendMachine : Machine Bytes where
  init := []
  apply x e := x ++ e.command.getD []
  snapshot x := 0 :: x
  restore
    | 0 :: x => some x
    | _ => none
  restore_snapshot _ := rfl
  snapshot_ne_nil _ := by simp

/-- A follower applies an entry, installs the snapshot of two and restores it. -/
theorem sm_eq_after_of_install : ∃ x h,
    Run (Replica.step appendMachine)
      (DeliversInOrder appendMachine [⟨1, 1, some [7]⟩, ⟨1, 2, some [8]⟩])
      (Replica.boot appendMachine "a" ["b"] none) [] x h ∧ x.Quiet ∧
      x.server.node.lastApplied = 2 ∧
      x.sm = appendMachine.after [⟨1, 1, some [7]⟩, ⟨1, 2, some [8]⟩]
        x.server.node.lastApplied := by
  obtain ⟨x, h, r, hq, hla⟩ := exists_run_of_exec (Replica.step appendMachine)
    (DeliversInOrder appendMachine [⟨1, 1, some [7]⟩, ⟨1, 2, some [8]⟩])
    (Replica.boot appendMachine "a" ["b"] none) []
    [.handleAppendEntries ⟨1, "b", 0, 0, [⟨1, 1, some [7]⟩], 1⟩, .applyWake, .applyRead,
      .applyCall, .applyWrite, .applyNotify, .handleInstallSnapshot ⟨1, "b", 2, 1, [0, 7, 8]⟩,
      .finishInstall 0 true]
    (fun x _ => x.Quiet ∧ x.server.node.lastApplied = 2) (by decide +kernel)
  exact ⟨x, h, r, hq, hla, sm_eq_after (by simp) r hq⟩

/-- **The state machine can hold an entry twice**: a snapshot is installed and restored between
the read of an entry and its `Apply`. -/
theorem sm_differs : ¬ ∀ (M : Machine Bytes) (H : List LogEntry) (id : String)
    (peers : List String) (store : Option RaftSnapshot) (x : Replica Bytes) (h : List Output),
    (∀ rs ∈ store, rs.data = M.snapshot (M.after H rs.lastIncludedIndex)) →
      Run (Replica.step M) (Delivers M H) (Replica.boot M id peers store) [] x h → x.Quiet →
        x.sm = M.after H x.server.node.lastApplied := by
  intro hall
  obtain ⟨x, h, r, hq, hne⟩ := exists_run_of_exec (Replica.step appendMachine)
    (Delivers appendMachine [⟨1, 1, some [7]⟩, ⟨1, 2, some [8]⟩])
    (Replica.boot appendMachine "a" ["b"] none) []
    [.handleAppendEntries ⟨1, "b", 0, 0, [⟨1, 1, some [7]⟩], 1⟩, .applyWake, .applyRead,
      .handleInstallSnapshot ⟨1, "b", 2, 1, [0, 7, 8]⟩, .finishInstall 0 true, .applyCall,
      .applyWrite]
    (fun x _ => x.Quiet ∧ x.sm ≠ appendMachine.after [⟨1, 1, some [7]⟩, ⟨1, 2, some [8]⟩]
      x.server.node.lastApplied) (by decide +kernel)
  exact hne (hall _ _ _ _ none x h (by simp) r hq)

end Driftless.Raft
