import Driftless.Raft.Pointers

/-!
# The snapshot loop

`RunSnapshotLoop` looks at every tick at how many applied entries the log holds above its floor,
and calls `TakeSnapshot` when there are `threshold` of them. The look and the first section of
`TakeSnapshot` are two critical sections, and between the save and the compaction anything can
happen, a crash included. Still every snapshot that is saved covers at least `threshold` entries
more than the last one, so that a node that has applied `k` entries has saved at most
`k / threshold` snapshots over all its lives: `snapshots_spaced`.
-/

namespace Driftless.Raft

/-- The threshold `RunSnapshotLoop` goes by. -/
def snapshotThreshold (threshold : ℤ) : ℕ := if threshold < 1 then 1000 else threshold.toNat

/-- A server and its snapshot loop. -/
structure Snapshotting where
  server : Server
  /-- The loop has seen a tail that is long enough and has not called `TakeSnapshot` yet. -/
  due : Bool

inductive SnapshotEvent
  /-- The ticker fires, and the loop looks at the log. -/
  | tick
  /-- The loop calls `TakeSnapshot`, which runs its first section. -/
  | takeSnapshot
  /-- Any other step of the server. -/
  | server (ev : Event)
  deriving DecidableEq

namespace Snapshotting

def boot (id : String) (peers : List String) (sm : StateMachineKind)
    (store : Option RaftSnapshot) : Snapshotting := ⟨Server.boot id peers sm store, false⟩

/-- A step, with the snapshot that `Save` wrote in it. `RunSnapshotLoop` is the only caller of
`TakeSnapshot`. -/
def step (threshold : ℤ) (x : Snapshotting) :
    SnapshotEvent → Option (Snapshotting × List RaftSnapshot)
  | .tick =>
    if x.due = false ∧ x.server.snapshot = .idle then
      let uncompacted : ℤ := x.server.node.lastApplied - firstIndex x.server.node.logEntries
      some ({ x with due := ¬ uncompacted < snapshotThreshold threshold }, [])
    else none
  | .takeSnapshot =>
    if x.due = true then
      match x.server.node.beginSnapshot with
      | none => some ({ x with due := false }, [])
      | some _ => (x.server.step .beginSnapshot).map fun y => (⟨y.1, false⟩, [])
    else none
  | .server .beginSnapshot => none
  | .server .restart => (x.server.step .restart).map fun y => (⟨y.1, false⟩, [])
  | .server (.saveSnapshot ok) =>
    (x.server.step (.saveSnapshot ok)).map fun y =>
      (⟨y.1, x.due⟩, if ok then y.1.store.toList else [])
  | .server ev => (x.server.step ev).map fun y => (⟨y.1, x.due⟩, [])

/-- The steps that keep the pointers in order, and crashes. -/
def Keeps (x : Snapshotting) (_ : List RaftSnapshot) : SnapshotEvent → Prop
  | .server ev => ev = .restart ∨ KeepsPointers x.server [] ev
  | _ => True

instance (x : Snapshotting) (h : List RaftSnapshot) (ev : SnapshotEvent) :
    Decidable (x.Keeps h ev) := by
  cases ev <;> dsimp only [Keeps] <;> infer_instance

end Snapshotting

/-! ## What is stored -/

/-- The index of the snapshot that `Load` would return. -/
def Server.stored (s : Server) : ℕ := (s.store.map RaftSnapshot.lastIncludedIndex).getD 0

/-- Where the stored snapshot stands to the log, to the snapshot that is being taken and, while
the loop is about to take one, to what is applied. -/
structure Server.Covers (limit : ℕ) (s : Server) (due : Bool) : Prop where
  pointers : PointersInv s
  floor : (∀ rs, s.snapshot ≠ .saved rs) → s.stored ≤ firstIndex s.node.logEntries
  due : due = true → s.snapshot = .idle ∧ s.stored + limit ≤ s.node.lastApplied
  begun : ∀ rs, s.snapshot = .begun rs → s.stored + limit ≤ rs.lastIncludedIndex
  serialized : ∀ rs, s.snapshot = .serialized rs → s.stored + limit ≤ rs.lastIncludedIndex
  saved : ∀ rs, s.snapshot = .saved rs → s.store = some rs

section Step

variable {limit : ℕ} {s s' : Server} {due : Bool} {ev : Event} {out : List Output}

theorem Server.covers_boot (id : String) (peers : List String) (sm : StateMachineKind)
    (store : Option RaftSnapshot) : (Server.boot id peers sm store).Covers limit false := by
  refine ⟨pointersInv_boot _ _ _ _, fun _ => ?_, nofun, nofun, nofun, nofun⟩
  cases store <;> exact le_rfl

/-- What is stored is applied. -/
theorem Server.Covers.stored_le (hc : s.Covers limit due) : s.stored ≤ s.node.lastApplied := by
  by_cases hsaved : ∃ rs, s.snapshot = .saved rs
  · obtain ⟨rs, hrs⟩ := hsaved
    have hle := hc.pointers.taking rs (by rw [hrs]; rfl)
    simpa [Server.stored, hc.saved rs hrs] using hle
  · exact (hc.floor fun rs hrs => hsaved ⟨rs, hrs⟩).trans hc.pointers.ordered.1

/-- A step that leaves `TakeSnapshot` and the storage alone. -/
theorem Server.Covers.keep (hc : s.Covers limit due) (hi : PointersInv s')
    (hf : s.node.Forward s'.node) (hsn : s'.snapshot = s.snapshot) (hst : s'.store = s.store) :
    s'.Covers limit due := by
  have hstored : s'.stored = s.stored := by simp [Server.stored, hst]
  constructor
  · exact hi
  · rw [hsn, hstored]
    exact fun h => (hc.floor h).trans hf.1
  · rw [hsn, hstored]
    exact fun hd => ⟨(hc.due hd).1, (hc.due hd).2.trans hf.2.1⟩
  · rw [hsn, hstored]
    exact hc.begun
  · rw [hsn, hstored]
    exact hc.serialized
  · rw [hsn, hst]
    exact hc.saved

/-- While `TakeSnapshot` is at work the loop waits for it. -/
theorem Server.Covers.due_ne (hc : s.Covers limit due) (hsn : s.snapshot ≠ .idle) :
    due ≠ true :=
  fun hd => hsn (hc.due hd).1

/-- What a step that is no call of `TakeSnapshot` does to what is stored. -/
theorem Server.Covers.step (hc : s.Covers limit due) (hok : KeepsPointers s [] ev)
    (hb : ev ≠ .beginSnapshot) (hs : Server.Step s ev s' out) :
    s'.Covers limit due ∧ if ev = .saveSnapshot true then
      ∃ rs, s'.store = some rs ∧ s.stored + limit ≤ rs.lastIncludedIndex
    else s'.store = s.store := by
  obtain ⟨hi, hf⟩ := hc.pointers.step hok hs
  cases hs with
  | beginSnapshot => exact absurd rfl hb
  | serialize rs d hsn =>
    have hdue := hc.due_ne (by simp [hsn])
    refine ⟨⟨hi, fun _ => hc.floor (by simp [hsn]), fun hd => absurd hd hdue, nofun, ?_, nofun⟩,
      rfl⟩
    rintro _ ⟨⟩
    exact hc.begun rs hsn
  | serializeError rs hsn =>
    have hdue := hc.due_ne (by simp [hsn])
    exact ⟨⟨hi, fun _ => hc.floor (by simp [hsn]), fun hd => absurd hd hdue, nofun, nofun, nofun⟩,
      rfl⟩
  | saveSnapshot rs hsn =>
    have hdue := hc.due_ne (by simp [hsn])
    refine ⟨⟨hi, fun h => absurd rfl (h rs), fun hd => absurd hd hdue, nofun, nofun, ?_⟩, ?_⟩
    · rintro _ ⟨⟩
      rfl
    · exact ⟨rs, rfl, hc.serialized rs hsn⟩
  | saveError rs hsn =>
    have hdue := hc.due_ne (by simp [hsn])
    exact ⟨⟨hi, fun _ => hc.floor (by simp [hsn]), fun hd => absurd hd hdue, nofun, nofun, nofun⟩,
      rfl⟩
  | finishSnapshot rs hsn =>
    have hdue := hc.due_ne (by simp [hsn])
    -- the log is compacted to what was saved
    have hfloor : s.stored ≤ firstIndex (s.node.finishSnapshot rs).logEntries := by
      have hcompact := @firstIndex_compactLogLocked s.node.logEntries rs.lastIncludedIndex
        rs.lastIncludedTerm
      have hle : rs.lastIncludedIndex ≤ firstIndex (s.node.finishSnapshot rs).logEntries :=
        (le_max_right _ _).trans_eq hcompact.symm
      simpa [Server.stored, hc.saved rs hsn] using hle
    exact ⟨⟨hi, fun _ => hfloor, fun hd => absurd hd hdue, nofun, nofun, nofun⟩, rfl⟩
  | restart => exact hok.1.elim
  | _ => exact ⟨hc.keep hi hf rfl rfl, rfl⟩

end Step

/-! ## Runs -/

namespace Snapshotting

/-- The snapshots of the history are `limit` apart and end with the stored one. -/
structure Spaced (limit start : ℕ) (x : Snapshotting) (h : List RaftSnapshot) : Prop where
  covers : x.server.Covers limit x.due
  apart : (h.map RaftSnapshot.lastIncludedIndex).Pairwise fun i j => i + limit ≤ j
  le_stored : ∀ rs ∈ h, rs.lastIncludedIndex ≤ x.server.stored
  length : start + h.length * limit ≤ x.server.stored

variable {limit start : ℕ} {threshold : ℤ} {x x' : Snapshotting} {h out : List RaftSnapshot}
  {ev : SnapshotEvent}

theorem Spaced.keep (hi : Spaced limit start x h) (hc : x'.server.Covers limit x'.due)
    (hst : x'.server.store = x.server.store) : Spaced limit start x' (h ++ []) := by
  have hstored : x'.server.stored = x.server.stored := by simp [Server.stored, hst]
  rw [List.append_nil]
  exact ⟨hc, hi.apart, hstored ▸ hi.le_stored, hstored ▸ hi.length⟩

theorem Spaced.save (hi : Spaced limit start x h) (hc : x'.server.Covers limit x'.due)
    {rs : RaftSnapshot} (hst : x'.server.store = some rs)
    (hle : x.server.stored + limit ≤ rs.lastIncludedIndex) :
    Spaced limit start x' (h ++ [rs]) := by
  have hstored : x'.server.stored = rs.lastIncludedIndex := by simp [Server.stored, hst]
  constructor
  · exact hc
  · rw [List.map_append, List.pairwise_append]
    refine ⟨hi.apart, List.pairwise_singleton _ _, ?_⟩
    simp only [List.mem_map, List.map_cons, List.map_nil, List.mem_singleton]
    rintro _ ⟨r, hr, rfl⟩ _ rfl
    have := hi.le_stored r hr
    omega
  · intro r hr
    rcases List.mem_append.1 hr with hr | hr
    · have := hi.le_stored r hr
      omega
    · rw [List.mem_singleton.1 hr, hstored]
  · have := hi.length
    rw [List.length_append, List.length_singleton, Nat.succ_mul]
    omega

theorem Spaced.tick (hi : Spaced (snapshotThreshold threshold) start x h)
    (hs : x.step threshold .tick = some (x', out)) :
    Spaced (snapshotThreshold threshold) start x' (h ++ out) := by
  simp only [step] at hs
  split_ifs at hs with hidle
  cases hs
  refine hi.keep ⟨hi.covers.pointers, hi.covers.floor, fun hd => ⟨hidle.2, ?_⟩, hi.covers.begun,
    hi.covers.serialized, hi.covers.saved⟩ rfl
  have hfloor := hi.covers.floor (by simp [hidle.2])
  have hlong := of_decide_eq_true hd
  change x.server.stored + snapshotThreshold threshold ≤ x.server.node.lastApplied
  omega

theorem Spaced.takeSnapshot (hi : Spaced limit start x h)
    (hs : x.step threshold .takeSnapshot = some (x', out)) :
    Spaced limit start x' (h ++ out) := by
  simp only [step] at hs
  split_ifs at hs with hdue
  obtain ⟨hidle, hle⟩ := hi.covers.due hdue
  split at hs
  next =>
    cases hs
    exact hi.keep ⟨hi.covers.pointers, hi.covers.floor, nofun, hi.covers.begun,
      hi.covers.serialized, hi.covers.saved⟩ rfl
  next rs hb =>
    obtain ⟨⟨s', o⟩, hstep, heq⟩ := Option.map_eq_some_iff.1 hs
    cases heq
    have hstep := Server.step_inv hstep
    have hkeeps : KeepsPointers x.server [] .beginSnapshot := ⟨trivial, trivial⟩
    obtain ⟨hp, -⟩ := hi.covers.pointers.step hkeeps hstep
    cases hstep with
    | beginSnapshot rs' hsn hb' =>
      have hidx : rs'.lastIncludedIndex = x.server.node.lastApplied := by
        unfold Node.beginSnapshot at hb'
        split_ifs at hb'
        cases hb'
        rfl
      refine hi.keep ⟨hp, fun _ => hi.covers.floor (by simp [hsn]), nofun, ?_, nofun, nofun⟩ rfl
      rintro _ ⟨⟩
      exact hle.trans_eq hidx.symm

theorem Spaced.restart (hi : Spaced limit start x h)
    (hs : x.step threshold (.server .restart) = some (x', out)) :
    Spaced limit start x' (h ++ out) := by
  simp only [step] at hs
  obtain ⟨⟨s', o⟩, hstep, heq⟩ := Option.map_eq_some_iff.1 hs
  cases heq
  cases Server.step_inv hstep with
  | restart => exact hi.keep (Server.covers_boot _ _ _ _) rfl

/-- A step of the server that is neither a crash nor a call of `TakeSnapshot`. -/
theorem step_server_eq {ev : Event} (hb : ev ≠ .beginSnapshot) (hr : ev ≠ .restart)
    (hs : x.step threshold (.server ev) = some (x', out)) : ∃ s' o,
      x.server.step ev = some (s', o) ∧ x' = ⟨s', x.due⟩ ∧
        out = if ev = .saveSnapshot true then s'.store.toList else [] := by
  cases ev with
  | beginSnapshot => exact absurd rfl hb
  | restart => exact absurd rfl hr
  | saveSnapshot ok =>
    obtain ⟨⟨s', o⟩, hstep, heq⟩ := Option.map_eq_some_iff.1 hs
    cases heq
    exact ⟨s', o, hstep, rfl, by cases ok <;> rfl⟩
  | _ =>
    simp only [step] at hs
    obtain ⟨⟨s', o⟩, hstep, heq⟩ := Option.map_eq_some_iff.1 hs
    cases heq
    exact ⟨s', o, hstep, rfl, rfl⟩

theorem Spaced.step (hi : Spaced (snapshotThreshold threshold) start x h) (hok : x.Keeps h ev)
    (hs : x.step threshold ev = some (x', out)) :
    Spaced (snapshotThreshold threshold) start x' (h ++ out) := by
  cases ev with
  | tick => exact hi.tick hs
  | takeSnapshot => exact hi.takeSnapshot hs
  | server ev =>
    by_cases hr : ev = .restart
    · subst hr
      exact hi.restart hs
    have hb : ev ≠ .beginSnapshot := by
      rintro rfl
      cases hs
    obtain ⟨s', o, hstep, rfl, rfl⟩ := step_server_eq hb hr hs
    obtain ⟨hc, hstore⟩ := hi.covers.step (hok.resolve_left hr) hb (Server.step_inv hstep)
    split_ifs at hstore ⊢ with hsave
    · obtain ⟨rs, hst, hle⟩ := hstore
      rw [hst]
      exact hi.save hc hst hle
    · exact hi.keep hc hstore

/-- **Every snapshot is worth its threshold**: in every life of a process that starts with the
snapshot `store`, crashes included, each snapshot it saves covers at least the threshold more than
the one before, so it has saved at most one for each threshold of entries it has applied. -/
theorem snapshots_spaced {id : String} {peers : List String} {sm : StateMachineKind}
    {store : Option RaftSnapshot}
    (r : Run (step threshold) Keeps (boot id peers sm store) [] x h) :
    (h.map RaftSnapshot.lastIncludedIndex).Pairwise
        (fun i j => i + snapshotThreshold threshold ≤ j) ∧
      (boot id peers sm store).server.stored + h.length * snapshotThreshold threshold ≤
        x.server.node.lastApplied := by
  have hi : Spaced (snapshotThreshold threshold) (boot id peers sm store).server.stored x h := by
    refine r.invariant ⟨Server.covers_boot _ _ _ _, .nil, nofun, ?_⟩ ?_
    · simp
    · intro x h ev x' out hi hok hs
      exact hi.step hok hs
  exact ⟨hi.apart, hi.length.trans hi.covers.stored_le⟩

/-- A follower that crashes after its first save, before the log is compacted, and takes another
snapshot after it came back. -/
def crashedAfterSave : List SnapshotEvent :=
  let applies : List SnapshotEvent := [.server .applyRead, .server .applyCall, .server .applyWrite,
    .server .applyNotify]
  let takes : List SnapshotEvent := [.tick, .takeSnapshot, .server (.serialize (some [1])),
    .server (.saveSnapshot true)]
  [.server (.handleAppendEntries ⟨1, "b", 0, 0, [⟨1, 1, some [7]⟩, ⟨1, 2, some [8]⟩], 2⟩), .tick,
    .server .applyWake] ++ applies ++ applies ++ takes ++ [.server .restart,
    .server (.handleAppendEntries ⟨1, "b", 2, 1, [⟨1, 3, some [9]⟩, ⟨1, 4, some [7]⟩], 4⟩),
    .server .applyWake] ++ applies ++ applies ++ takes ++ [.server .finishSnapshot, .tick]

theorem snapshots_spaced_of_crash : ∃ x h,
    Run (step 2) Keeps (boot "a" ["b"] .snapshotable none) [] x h ∧
      h.map RaftSnapshot.lastIncludedIndex = [2, 4] ∧
      (h.map RaftSnapshot.lastIncludedIndex).Pairwise (fun i j => i + snapshotThreshold 2 ≤ j) ∧
      (boot "a" ["b"] .snapshotable none).server.stored + h.length * snapshotThreshold 2 ≤
        x.server.node.lastApplied := by
  obtain ⟨x, h, r, hh⟩ := exists_run_of_exec (step 2) Keeps (boot "a" ["b"] .snapshotable none) []
    crashedAfterSave (fun _ h => h.map RaftSnapshot.lastIncludedIndex = [2, 4]) (by decide +kernel)
  exact ⟨x, h, r, hh, snapshots_spaced r⟩

end Snapshotting

end Driftless.Raft
