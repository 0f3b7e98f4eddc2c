import Driftless.Raft.Install
import Driftless.Dispatch.Replicas

/-!
# Recovery from a snapshot

`TakeSnapshot` reads `lastApplied` and lets the dispatcher serialize its markers afterwards, while
`Apply` goes on: the snapshot can be ahead of the index it is labelled with, and a dispatcher that
restores it applies the entries in between a second time. Where no publish fails, the markers are
at any time the tasks of the entries recorded so far (`Publishes.mem_dispatched`), so that applying
an entry again changes nothing and the order of the two captures does not matter:
`restore_replay`. Such a snapshot covers the index it is labelled with, so that a follower to which
it is shipped has nothing to fear but a `Restore` that fails (`restored_of_snapshots`).
-/

namespace Driftless.Dispatch

open Raft

/-- `Restore`: the markers become those of the snapshot. -/
def Coordinator.restore (json : Codec) (data : Bytes) (c : Coordinator) : Option Coordinator :=
  (json.unmarshalSnap data).map fun ids => { c with dispatched := ids.toFinset }

/-- The bytes `Snapshot` returns, for some order of the map. -/
def Coordinator.Snapshots (json : Codec) (c : Coordinator) (data : Bytes) : Prop :=
  ∃ ids : List String, ids.Nodup ∧ ids.toFinset = c.dispatched ∧ json.marshalSnap ids = some data

section Step

variable {json : Codec} {s3Key : String → String} {c c' : Coordinator} {out : List Output}

/-- What the running coordinator serializes for `TakeSnapshot`. -/
theorem Coordinator.snapshots_of_step {ids : List String} {rs : RaftSnapshot}
    (hs : c.step json s3Key (.snapshot ids) = some (c', out))
    (hrs : c'.server.snapshot = .serialized rs) : c.Snapshots json rs.data := by
  simp only [step, stepSnapshot] at hs
  split_ifs at hs with hids
  refine ⟨ids, hids.1, hids.2, ?_⟩
  obtain ⟨s, o, hsrv, rfl, -⟩ := stepServer_inv hs
  cases hm : json.marshalSnap ids with
  | none =>
    rw [hm] at hsrv
    cases hsrv
    simp at hrs
  | some b =>
    rw [hm] at hsrv
    cases hsrv
    simp only [SnapshotLoop.serialized.injEq] at hrs
    rw [← hrs]

/-- The `Restore` of `HandleInstallSnapshot`; an error leaves the markers. -/
theorem Coordinator.restore_of_step {k : ℕ} {args : InstallSnapshotArgs}
    {reply : InstallSnapshotReply} (hk : c.server.installs[k]? = some (args, reply))
    (hne : args.data ≠ []) (hs : c.step json s3Key (.restore k) = some (c', out)) :
    c'.dispatched = ((c.restore json args.data).getD c).dispatched := by
  simp only [step, stepSnapshot, hk, if_neg hne] at hs
  unfold restore
  split at hs
  next hnone =>
    obtain ⟨s, o, -, rfl, -⟩ := stepServer_inv hs
    rw [hnone]
    rfl
  next ids hsome =>
    obtain ⟨s, o, -, rfl, -⟩ := stepServer_inv hs
    rw [hsome]
    rfl

end Step

/-- A well-formed dispatch command for the task, with a non-empty id, is among the entries. -/
def Assigns (json : Codec) (es : List LogEntry) (t : String) : Prop :=
  ∃ e ∈ es, dispatchedTask json e = some t

section Assigns

variable {json : Codec} {es es' : List LogEntry} {t : String}

@[simp] theorem assigns_append :
    Assigns json (es ++ es') t ↔ Assigns json es t ∨ Assigns json es' t := by
  simp [Assigns, or_and_right, exists_or]

@[simp] theorem assigns_singleton {e : LogEntry} :
    Assigns json [e] t ↔ dispatchedTask json e = some t := by
  simp [Assigns]

/-- An entry without a command dispatches nothing. -/
@[simp] theorem assigns_filter :
    Assigns json (es.filter fun e => e.command.isSome) t ↔ Assigns json es t := by
  have hsome : ∀ e : LogEntry, dispatchedTask json e = some t → e.command.isSome = true := by
    intro e he
    unfold dispatchedTask at he
    cases hcmd : e.command with
    | none => simp [hcmd] at he
    | some b => rfl
  constructor
  · rintro ⟨e, he, ht⟩
    exact ⟨e, (List.mem_filter.1 he).1, ht⟩
  · rintro ⟨e, he, ht⟩
    exact ⟨e, List.mem_filter.2 ⟨he, hsome e ht⟩, ht⟩

/-- Two parts of a list that overlap or meet dispatch what the whole list does. -/
theorem assigns_take_or_drop {k j : ℕ} (hkj : k ≤ j) :
    Assigns json (es.take j) t ∨ Assigns json (es.drop k) t ↔ Assigns json es t := by
  constructor
  · rintro (⟨e, he, ht⟩ | ⟨e, he, ht⟩)
    · exact ⟨e, List.mem_of_mem_take he, ht⟩
    · exact ⟨e, List.mem_of_mem_drop he, ht⟩
  · intro h
    rw [← List.take_append_drop j es, assigns_append] at h
    refine h.imp_right ?_
    rintro ⟨e, he, ht⟩
    rw [← Nat.add_sub_cancel' hkj, ← List.drop_drop] at he
    exact ⟨e, List.mem_of_mem_drop he, ht⟩

end Assigns

namespace Traced

/-- The entry that a call of `Apply` is past its first lock section with. -/
def pending (x : Traced) : Option LogEntry :=
  match x.coordinator.applying, x.coordinator.server.apply with
  | .idle, _ => none
  | _, .read _ entry _ => some entry
  | _, _ => none

/-- The entries whose effect on the markers has been recorded. -/
def recorded (x : Traced) : List LogEntry := x.calls.map Prod.fst ++ x.pending.toList

/-- No snapshot is restored and no publish fails. -/
def PublishesAll (x : Traced) (h : List Output) (ev : Event) : Prop :=
  AppliesOnly x h ev ∧ ev ≠ .sendMessage false

instance (x : Traced) (h : List Output) (ev : Event) : Decidable (PublishesAll x h ev) :=
  inferInstanceAs (Decidable (_ ∧ _))

/-- `c` calls `Apply` for the entries `es` that have a command, one after the other and without a
failed publish, and gets to `x`, possibly still inside the last call. -/
structure Applies (json : Codec) (s3Key : String → String) (c : Coordinator) (es : List LogEntry)
    (x : Traced) : Prop where
  run : ∃ h, Run (step json s3Key) PublishesAll ⟨c, [], ⟨false, true⟩⟩ [] x h
  recorded : x.recorded = es.filter fun e => e.command.isSome

/-! ## The markers are the tasks recorded -/

/-- The markers are those of the calls of `Apply`, none of which found `SendMessage` failing. -/
structure Publishes (json : Codec) (x : Traced) : Prop where
  replays : Replays json x
  calls : ∀ c ∈ x.calls, c.2.sendOk = true
  current : x.current.sendOk = true

section Markers

variable {json : Codec} {s3Key : String → String} {x x' : Traced} {ev : Event}
  {h h' out : List Output}

theorem Publishes.step (hi : Publishes json x) (hok : PublishesAll x h ev)
    (hs : step json s3Key x ev = some (x', out)) : Publishes json x' := by
  obtain ⟨⟨c', out'⟩, hc, he⟩ := Option.map_eq_some_iff.1 hs
  cases he
  refine ⟨hi.replays.step hok.1 hc, ?_, ?_⟩
  · cases ev with
    | applied =>
      simp only [record]
      split
      · split_ifs
        · intro c hm
          rcases List.mem_append.1 hm with hold | hnew
          · exact hi.calls c hold
          · rw [List.mem_singleton.1 hnew]
            exact hi.current
        · exact hi.calls
      · exact hi.calls
    | _ => exact hi.calls
  · cases ev with
    | sendMessage ok =>
      cases ok with
      | false => exact absurd rfl hok.2
      | true => rfl
    | mark => rfl
    | _ => exact hi.current

/-- **The markers at any time**: the tasks of the entries recorded, whoever published them. -/
theorem Publishes.mem_dispatched (hi : Publishes json x) {t : String} :
    t ∈ x.coordinator.dispatched ↔ Assigns json x.recorded t := by
  have hcalls : t ∈ applyAll json x.calls ↔ Assigns json (x.calls.map Prod.fst) t := by
    rw [mem_applyAll]
    constructor
    · rintro ⟨c, hc, ht, -⟩
      exact ⟨c.1, List.mem_map_of_mem hc, ht⟩
    · rintro ⟨e, he, ht⟩
      obtain ⟨c, hc, rfl⟩ := List.mem_map.1 he
      exact ⟨c, hc, ht, by simp [Outcome.Retracts, hi.calls c hc]⟩
  have hno : ¬ x.current.Retracts := by simp [Outcome.Retracts, hi.current]
  have hr := hi.replays
  unfold Replays at hr
  -- inside a call the marker of its entry is there already
  have inside : ∀ cmd, Marks json x cmd → x.coordinator.applying ≠ .idle →
      (t ∈ x.coordinator.dispatched ↔ Assigns json x.recorded t) := by
    rintro cmd ⟨⟨idx, e, w, hread, -, htask⟩, -, hd⟩ hne
    have hpend : x.pending = some e := by
      unfold pending
      rw [hread]
      cases hap : x.coordinator.applying with
      | idle => exact absurd hap hne
      | _ => rfl
    simp [recorded, hpend, hd, hcalls, htask, or_comm, eq_comm]
  cases hap : x.coordinator.applying with
  | idle =>
    rw [hap] at hr
    rw [recorded, pending, hap, hr, hcalls]
    simp
  | marked cmd =>
    rw [hap] at hr
    exact inside cmd hr (by simp [hap])
  | sending cmd | failed cmd =>
    rw [hap] at hr
    exact inside cmd hr.1 (by simp [hap])
  | returned =>
    rw [hap] at hr
    obtain ⟨idx, e, w, hread, -, hd⟩ := hr
    rw [recorded, pending, hap, hread, hd]
    cases htask : dispatchedTask json e with
    | none => simp [apply_of_none htask, hcalls, htask]
    | some t' => simp [apply_of_some htask, hno, hcalls, htask, or_comm, eq_comm]

/-! ## Calls that came before -/

/-- The same coordinator, with calls of `Apply` written down that its markers stand for. -/
def after (p : List (LogEntry × Outcome)) (x : Traced) : Traced :=
  ⟨x.coordinator, p ++ x.calls, x.current⟩

theorem step_after (p : List (LogEntry × Outcome)) (hs : step json s3Key x ev = some (x', out)) :
    step json s3Key (x.after p) ev = some (x'.after p, out) := by
  obtain ⟨⟨c', out'⟩, hc, he⟩ := Option.map_eq_some_iff.1 hs
  cases he
  have hrec : (x.after p).record ev = p ++ x.record ev := by
    cases ev with
    | applied =>
      simp only [record, after]
      split
      · split_ifs <;> simp
      · rfl
    | _ => rfl
  have hobs : (x.after p).observe ev = x.observe ev := by cases ev <;> rfl
  unfold step
  rw [hrec, hobs]
  exact Option.map_eq_some_iff.2 ⟨(c', out'), hc, rfl⟩

theorem run_after (p : List (LogEntry × Outcome))
    (r : Run (step json s3Key) PublishesAll x h x' h') :
    Run (step json s3Key) PublishesAll (x.after p) h (x'.after p) h' := by
  induction r with
  | refl => exact .refl
  | tail _ hok hs ih => exact ih.tail hok (step_after p hs)

theorem recorded_after (p : List (LogEntry × Outcome)) (x : Traced) :
    (x.after p).recorded = p.map Prod.fst ++ x.recorded := by
  simp [recorded, pending, after]

theorem publishes_run (r : Run (step json s3Key) PublishesAll x h x' h')
    (hi : Publishes json x) : Publishes json x' :=
  r.invariant (I := fun x _ => Publishes json x) hi fun _ _ _ _ _ hi hok hs => hi.step hok hs

end Markers

/-- A coordinator whose markers are the tasks of `es₀` and that applies `es` ends with the tasks of
both. -/
theorem Applies.mem_dispatched {json : Codec} {s3Key : String → String} {c : Coordinator}
    {es₀ es : List LogEntry} {x : Traced} (ha : Applies json s3Key c es x)
    (hidle : c.applying = .idle) (hc : ∀ t, t ∈ c.dispatched ↔ Assigns json es₀ t)
    {t : String} :
    t ∈ x.coordinator.dispatched ↔ Assigns json es₀ t ∨ Assigns json es t := by
  obtain ⟨h, r⟩ := ha.run
  -- the markers at the start, as if `c` had applied `es₀` itself
  let p : List (LogEntry × Outcome) := es₀.map fun e => (e, ⟨false, true⟩)
  have hstart : Publishes json ((⟨c, [], ⟨false, true⟩⟩ : Traced).after p) := by
    refine ⟨?_, by simp [after, p], rfl⟩
    have hset : c.dispatched = applyAll json p := by
      ext t
      rw [hc, mem_applyAll]
      simp [Kept, p, Outcome.Retracts, Assigns]
    unfold Replays
    simp only [after, hidle, List.append_nil]
    exact hset
  have hend := (publishes_run (run_after p r) hstart).mem_dispatched (t := t)
  have hmap : p.map Prod.fst = es₀ := by simp [p, Function.comp_def]
  rwa [recorded_after, hmap, ha.recorded, assigns_append, assigns_filter] at hend

/-- A coordinator that starts without markers ends with the tasks of what it applies. -/
theorem Applies.mem_dispatched_boot {json : Codec} {s3Key : String → String} {id : String}
    {peers : List String} {es : List LogEntry} {x : Traced}
    (ha : Applies json s3Key (Coordinator.boot id peers) es x) {t : String} :
    t ∈ x.coordinator.dispatched ↔ Assigns json es t := by
  have hnone : ∀ t, t ∈ (Coordinator.boot id peers).dispatched ↔ Assigns json [] t := by
    simp [Assigns, Coordinator.boot]
  simpa [Assigns] using ha.mem_dispatched rfl hnone (t := t)

end Traced

/-- **A snapshot and the entries after its index amount to all entries**: the snapshot is taken
when `j` entries are recorded and labelled `k`; a dispatcher that restores it and applies the
entries after the first `k` has the markers of one that applied them all. -/
theorem restore_replay {json : Codec} (hjson : json.Lawful) {s3Key : String → String}
    {es : List LogEntry} {k j : ℕ} (hkj : k ≤ j) {id₁ id₃ : String} {peers₁ peers₃ : List String}
    {x₁ x₃ : Traced} {data : Bytes}
    (h₁ : Traced.Applies json s3Key (Coordinator.boot id₁ peers₁) (es.take j) x₁)
    (hsnap : x₁.coordinator.Snapshots json data) {c₂ : Coordinator} (hidle : c₂.applying = .idle)
    (h₃ : Traced.Applies json s3Key (Coordinator.boot id₃ peers₃) es x₃) :
    ∃ c₂', c₂.restore json data = some c₂' ∧
      ∀ x₂, Traced.Applies json s3Key c₂' (es.drop k) x₂ →
        x₂.coordinator.dispatched = x₃.coordinator.dispatched ∧
          ∀ t, t ∈ x₂.coordinator.dispatched ↔ Assigns json es t := by
  obtain ⟨ids, -, hset, hdata⟩ := hsnap
  refine ⟨{ c₂ with dispatched := ids.toFinset }, ?_, fun x₂ h₂ => ?_⟩
  · rw [Coordinator.restore, hjson.snap ids data hdata]
    rfl
  have hstart : ∀ t, t ∈ ids.toFinset ↔ Assigns json (es.take j) t := by
    intro t
    rw [hset]
    exact h₁.mem_dispatched_boot
  have hend : ∀ t, t ∈ x₂.coordinator.dispatched ↔ Assigns json es t := fun t =>
    (h₂.mem_dispatched hidle hstart).trans (assigns_take_or_drop hkj)
  refine ⟨?_, hend⟩
  ext t
  rw [hend, h₃.mem_dispatched_boot]

/-! ## What the markers cover -/

/-- The dispatcher as the state machine of a node that is sent snapshots of the history `es`: the
markers cover the entries before the first one whose task is not among them. -/
def coverage (json : Codec) (es : List LogEntry) : Coverage (Finset String) where
  restore data := (json.unmarshalSnap data).map List.toFinset
  covers markers :=
    (es.takeWhile fun e => (dispatchedTask json e).all fun t => t ∈ markers).length

theorem coverage_restore {json : Codec} {es : List LogEntry} {data : Bytes} {c : Coordinator} :
    (coverage json es).restore data = (c.restore json data).map Coordinator.dispatched := by
  simp [coverage, Coordinator.restore, Function.comp_def]

theorem le_covers {json : Codec} {es : List LogEntry} {markers : Finset String} {k : ℕ}
    (hk : k ≤ es.length) (hall : ∀ t, Assigns json (es.take k) t → t ∈ markers) :
    k ≤ (coverage json es).covers markers := by
  have htake : ∀ e ∈ es.take k,
      ((dispatchedTask json e).all fun t => decide (t ∈ markers)) = true := by
    intro e he
    cases ht : dispatchedTask json e with
    | none => rfl
    | some t => simpa using hall t ⟨e, he, ht⟩
  show k ≤ (es.takeWhile _).length
  rw [← List.take_append_drop k es, List.takeWhile_append_of_pos htake, List.length_append,
    List.length_take_of_le hk]
  exact Nat.le_add_right _ _

/-- **A snapshot covers its index**: a follower is sent what a dispatcher made of its markers when
at least as many entries were recorded as the snapshot is labelled with. If `Restore` returns no
error, the install is all or nothing. -/
theorem restored_of_snapshots {json : Codec} (hjson : json.Lawful) {s3Key : String → String}
    {es : List LogEntry} {j : ℕ} {id : String} {peers : List String} {x : Traced}
    (hx : Traced.Applies json s3Key (Coordinator.boot id peers) (es.take j) x) {c : InstallCall}
    (hsnap : x.coordinator.Snapshots json c.args.data) (hj : c.args.lastIncludedIndex ≤ j)
    (hlen : c.args.lastIncludedIndex ≤ es.length) (hne : c.args.data ≠ [])
    (hok : c.restoreOk = true) {r : Receiver (Finset String)}
    (hsm : r.node.sm = .snapshotable) : r.Restored (coverage json es) c := by
  obtain ⟨ids, -, hset, hdata⟩ := hsnap
  have hread : c.restored (coverage json es) = some ids.toFinset := by
    rw [InstallCall.restored, if_pos hok, coverage_restore (c := x.coordinator),
      Coordinator.restore, hjson.snap ids _ hdata]
    rfl
  have hcover : c.args.lastIncludedIndex ≤ (coverage json es).covers ids.toFinset := by
    refine le_covers hlen fun t ht => ?_
    rw [hset, hx.mem_dispatched_boot]
    obtain ⟨e, he, htask⟩ := ht
    exact ⟨e, (List.take_prefix_take_left hj).subset he, htask⟩
  intro _ _
  rw [if_pos ⟨hsm, hne⟩]
  simpa only [hread] using hcover

/-- `{"dispatched":["t1"]}`. -/
def snapEncoded : Bytes :=
  [123, 34, 100, 105, 115, 112, 97, 116, 99, 104, 101, 100, 34, 58, 91, 34, 116, 49, 34, 93, 125]

/-- `encoding/json` on this task and its snapshot. -/
def snapCodec : Codec :=
  { taskCodec with
    marshalSnap := fun ids => if ids = ["t1"] then some snapEncoded else none
    unmarshalSnap := fun b => if b = snapEncoded then some ["t1"] else none }

theorem snapCodec_lawful : snapCodec.Lawful where
  command := taskCodec_lawful.command
  command_nil := rfl
  snap ids b hb := by
    obtain ⟨rfl, rfl⟩ : ids = ["t1"] ∧ snapEncoded = b := by simpa [snapCodec] using hb
    rfl

/-- A follower's snapshot is labelled 0 and taken inside the call of `Apply` for entry 1; who
restores it applies entry 1 again. -/
theorem restore_replay_of_overlap : ∃ x₁ x₃ c₂ x₂,
    Traced.Applies snapCodec (fun _ => "in/t1") (Coordinator.boot "b" ["a", "c"]) [taskEntry] x₁ ∧
    x₁.coordinator.Snapshots snapCodec snapEncoded ∧
    Traced.Applies snapCodec (fun _ => "in/t1") (Coordinator.boot "a" ["b", "c"]) [taskEntry] x₃ ∧
    (Coordinator.boot "c" ["a", "b"]).restore snapCodec snapEncoded = some c₂ ∧
    Traced.Applies snapCodec (fun _ => "in/t1") c₂ [taskEntry] x₂ ∧
      x₂.coordinator.dispatched = x₃.coordinator.dispatched ∧
        ∀ t, t ∈ x₂.coordinator.dispatched ↔ Assigns snapCodec [taskEntry] t := by
  obtain ⟨x₁, h₁, r₁, hrec₁, hd₁⟩ := exists_run_of_exec
    (Traced.step snapCodec fun _ => "in/t1") Traced.PublishesAll
    ⟨Coordinator.boot "b" ["a", "c"], [], ⟨false, true⟩⟩ [] (followerApplies.take 4)
    (fun x _ => x.recorded = [taskEntry] ∧ x.coordinator.dispatched = {"t1"}) (by decide +kernel)
  obtain ⟨x₃, h₃, r₃, hrec₃⟩ := exists_run_of_exec
    (Traced.step snapCodec fun _ => "in/t1") Traced.PublishesAll
    ⟨Coordinator.boot "a" ["b", "c"], [], ⟨false, true⟩⟩ []
    (leaderApplies ++ [.sendMessage true, .applied]) (fun x _ => x.recorded = [taskEntry])
    (by decide +kernel)
  have ha₁ : Traced.Applies snapCodec (fun _ => "in/t1") (Coordinator.boot "b" ["a", "c"])
      [taskEntry] x₁ := ⟨⟨h₁, r₁⟩, hrec₁⟩
  have ha₃ : Traced.Applies snapCodec (fun _ => "in/t1") (Coordinator.boot "a" ["b", "c"])
      [taskEntry] x₃ := ⟨⟨h₃, r₃⟩, hrec₃⟩
  have hsnap : x₁.coordinator.Snapshots snapCodec snapEncoded :=
    ⟨["t1"], by decide, hd₁.symm, by decide⟩
  have hidle : (Coordinator.boot "c" ["a", "b"]).applying = .idle := rfl
  obtain ⟨c₂, hc₂, hall⟩ := restore_replay (k := 0) (j := 1) snapCodec_lawful (Nat.zero_le _) ha₁
    hsnap hidle ha₃
  obtain ⟨x₂, h₂, r₂, hrec₂⟩ := exists_run_of_exec
    (Traced.step snapCodec fun _ => "in/t1") Traced.PublishesAll
    ⟨{ Coordinator.boot "c" ["a", "b"] with dispatched := ["t1"].toFinset }, [], ⟨false, true⟩⟩ []
    (followerApplies.take 4 ++ [.applied]) (fun x _ => x.recorded = [taskEntry]) (by decide +kernel)
  have ha₂ : Traced.Applies snapCodec (fun _ => "in/t1") c₂ [taskEntry] x₂ := by
    cases hc₂
    exact ⟨⟨h₂, r₂⟩, hrec₂⟩
  exact ⟨x₁, x₃, c₂, x₂, ha₁, hsnap, ha₃, hc₂, ha₂, hall x₂ ha₂⟩

end Driftless.Dispatch
