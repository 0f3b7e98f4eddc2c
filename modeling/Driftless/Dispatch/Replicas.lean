import Driftless.Dispatch.Acknowledge

/-!
# The dispatcher as a replicated state machine

Coordinators that apply the same entries should mark the same tasks. What `Apply` does to the
markers depends on more than the entry: on a leader whose `SendMessage` fails it takes the marker
back, and everybody else keeps theirs. A task is marked in the end exactly if one of the calls of
`Apply` for it was not such a call (`mem_applyAll`), and two coordinators that applied the same
entries agree exactly if they have such calls for the same tasks: `replicas_agree_iff`. A failed
publish makes the leader and its followers differ: `replicas_differ`.
-/

namespace Driftless.Dispatch

open Raft

/-! ## Apply -/

/-- What a call of `Apply` finds outside: what `IsLeader` returns, and whether `SendMessage`
returns without an error. -/
structure Outcome where
  isLeader : Bool
  sendOk : Bool
  deriving DecidableEq, Repr

/-- The call takes its marker back. -/
def Outcome.Retracts (o : Outcome) : Prop := o.isLeader = true ∧ o.sendOk = false

instance (o : Outcome) : Decidable o.Retracts := inferInstanceAs (Decidable (_ ∧ _))

/-- `Apply` from beginning to end, on the set of markers. -/
def apply (json : Codec) (o : Outcome) (dispatched : Finset String) (entry : LogEntry) :
    Finset String :=
  match entry.command with
  | none => dispatched
  | some command =>
    if command = [] then dispatched
    else match json.unmarshalCommand command with
      | none => dispatched
      | some cmd =>
        if cmd.type ≠ "dispatch" ∨ cmd.taskID = "" then dispatched
        else if cmd.taskID ∈ dispatched then dispatched
        else if o.isLeader = false then insert cmd.taskID dispatched
        else if o.sendOk = false then (insert cmd.taskID dispatched).erase cmd.taskID
        else insert cmd.taskID dispatched

/-- Calls of `Apply` one after the other, from an empty set of markers. -/
def applyAll (json : Codec) (calls : List (LogEntry × Outcome)) : Finset String :=
  calls.foldl (fun d c => apply json c.2 d c.1) ∅

/-- The task an entry dispatches. -/
def dispatchedTask (json : Codec) (entry : LogEntry) : Option String :=
  match entry.command with
  | none => none
  | some command =>
    if command = [] then none
    else match json.unmarshalCommand command with
      | none => none
      | some cmd => if cmd.type ≠ "dispatch" ∨ cmd.taskID = "" then none else some cmd.taskID

/-- Some call of `Apply` for the task does not take its marker back. -/
def Kept (json : Codec) (calls : List (LogEntry × Outcome)) (t : String) : Prop :=
  ∃ c ∈ calls, dispatchedTask json c.1 = some t ∧ ¬ c.2.Retracts

section Apply

variable {json : Codec} {o : Outcome} {d : Finset String} {e : LogEntry} {t : String}

theorem apply_of_none (h : dispatchedTask json e = none) : apply json o d e = d := by
  unfold dispatchedTask at h
  unfold apply
  grind

/-- What `Apply` does with a task. -/
theorem apply_of_some (h : dispatchedTask json e = some t) :
    apply json o d e = if o.Retracts then d else insert t d := by
  unfold dispatchedTask at h
  unfold apply
  cases hc : e.command with
  | none => simp [hc] at h
  | some command =>
    by_cases hnil : command = []
    · simp [hc, hnil] at h
    simp only [hc, hnil, if_false] at h ⊢
    cases hdec : json.unmarshalCommand command with
    | none => simp [hdec] at h
    | some cmd =>
      simp only [hdec] at h ⊢
      split_ifs at h with hbad
      obtain rfl := Option.some.inj h
      by_cases hd : cmd.taskID ∈ d
      · simp [hbad, hd]
      · cases hl : o.isLeader <;> cases hs : o.sendOk <;>
          simp [hbad, hd, hl, hs, Outcome.Retracts]

theorem applyAll_append_singleton (json : Codec) (calls : List (LogEntry × Outcome))
    (c : LogEntry × Outcome) :
    applyAll json (calls ++ [c]) = apply json c.2 (applyAll json calls) c.1 := by
  simp [applyAll, List.foldl_append]

/-- **The markers after a sequence of calls.** -/
theorem mem_applyAll {calls : List (LogEntry × Outcome)} :
    t ∈ applyAll json calls ↔ Kept json calls t := by
  induction calls using List.reverseRecOn with
  | nil => simp [applyAll, Kept]
  | append_singleton calls c ih =>
    have hkept : Kept json (calls ++ [c]) t ↔
        Kept json calls t ∨ (dispatchedTask json c.1 = some t ∧ ¬ c.2.Retracts) := by
      simp [Kept, or_and_right, exists_or]
    rw [applyAll_append_singleton, hkept, ← ih]
    cases hc : dispatchedTask json c.1 with
    | none =>
      rw [apply_of_none hc]
      simp
    | some t' =>
      rw [apply_of_some hc]
      by_cases hr : c.2.Retracts
      · simp [hr]
      · simp [hr, eq_comm, or_comm]

end Apply

/-! ## A coordinator's calls of Apply -/

/-- A coordinator, the calls of `Apply` it has completed, and what the call in progress has found
so far. -/
structure Traced where
  coordinator : Coordinator
  calls : List (LogEntry × Outcome)
  current : Outcome

namespace Traced

def boot (id : String) (peers : List String) : Traced :=
  ⟨Coordinator.boot id peers, [], ⟨false, true⟩⟩

/-- What the call in progress has found after an event. -/
def observe (x : Traced) : Event → Outcome
  | .mark => ⟨false, true⟩
  | .checkLeader =>
    { x.current with isLeader := decide (x.coordinator.server.node.state = .leader) }
  | .sendMessage ok => { x.current with sendOk := ok }
  | _ => x.current

/-- The calls that have completed after an event. -/
def record (x : Traced) : Event → List (LogEntry × Outcome)
  | .applied =>
    match x.coordinator.server.apply with
    | .read _ entry _ => if entry.command.isSome then x.calls ++ [(entry, x.current)] else x.calls
    | _ => x.calls
  | _ => x.calls

/-- A step of a coordinator, with its calls of `Apply` written down. -/
def step (json : Codec) (s3Key : String → String) (x : Traced) (ev : Event) :
    Option (Traced × List Output) :=
  (x.coordinator.step json s3Key ev).map fun r => (⟨r.1, x.record ev, x.observe ev⟩, r.2)

/-- The markers come from `Apply` alone: no snapshot is restored. -/
def AppliesOnly (_ : Traced) (_ : List Output) : Event → Prop
  | .restore _ => False
  | _ => True

instance (x : Traced) (h : List Output) (ev : Event) : Decidable (AppliesOnly x h ev) := by
  rcases ev <;> dsimp only [AppliesOnly] <;> infer_instance

/-- The call in progress has marked the task of its entry. -/
structure Marks (json : Codec) (x : Traced) (cmd : DispatchCommand) : Prop where
  reading : ∃ idx e w, x.coordinator.server.apply = .read idx e w ∧ e.command.isSome = true ∧
    dispatchedTask json e = some cmd.taskID
  fresh : cmd.taskID ∉ applyAll json x.calls
  dispatched : x.coordinator.dispatched = insert cmd.taskID (applyAll json x.calls)

/-- The markers are those of the completed calls and, from its first lock section on, of the one
in progress. -/
def Replays (json : Codec) (x : Traced) : Prop :=
  match x.coordinator.applying with
  | .idle => x.coordinator.dispatched = applyAll json x.calls
  | .marked cmd => Marks json x cmd
  | .sending cmd => Marks json x cmd ∧ x.current.isLeader = true
  | .failed cmd => Marks json x cmd ∧ x.current.Retracts
  | .returned => ∃ idx e w, x.coordinator.server.apply = .read idx e w ∧
      e.command.isSome = true ∧
        x.coordinator.dispatched = apply json x.current (applyAll json x.calls) e

section Step

variable {json : Codec} {s3Key : String → String} {x : Traced} {c' : Coordinator} {ev : Event}
  {h out : List Output}

/-- An entry in the hands of the apply loop stays there until `Apply` returns. -/
theorem reading_kept {s s' : Server} {ev : Raft.Event} {out : List Raft.Output} {idx : ℕ}
    {e : LogEntry} {w : Option ℕ} (hs : Server.Step s ev s' out) (hr : s.apply = .read idx e w)
    (hcall : ev ≠ .applyCall) (hne : ev ≠ .restart) : s'.apply = .read idx e w := by
  cases hs with
  | applyCall => exact absurd rfl hcall
  | restart => exact absurd rfl hne
  | applyWake ha | applyIdle ha | applySkip ha | applyRead _ ha | applyWrite _ _ _ ha
  | applyNotify _ _ ha =>
    rw [hr] at ha
    cases ha
  | _ => exact hr

/-- A step that leaves the dispatcher and its entry alone. -/
theorem Replays.keep (hi : Replays json x) (hd : c'.dispatched = x.coordinator.dispatched)
    (ha : c'.applying = x.coordinator.applying)
    (hr : ∀ idx e w, x.coordinator.server.apply = .read idx e w →
      c'.server.apply = .read idx e w) : Replays json ⟨c', x.calls, x.current⟩ := by
  have marks : ∀ cmd, Marks json x cmd → Marks json ⟨c', x.calls, x.current⟩ cmd := by
    rintro cmd ⟨⟨idx, e, w, hread, hrest⟩, hfresh, hset⟩
    exact ⟨⟨idx, e, w, hr idx e w hread, hrest⟩, hfresh, hd.trans hset⟩
  unfold Replays at hi ⊢
  simp only [ha]
  cases hap : x.coordinator.applying with
  | idle =>
    rw [hap] at hi
    exact hd.trans hi
  | marked cmd =>
    rw [hap] at hi
    exact marks cmd hi
  | sending cmd | failed cmd =>
    rw [hap] at hi
    exact ⟨marks cmd hi.1, hi.2⟩
  | returned =>
    rw [hap] at hi
    obtain ⟨idx, e, w, hread, hrest⟩ := hi
    exact ⟨idx, e, w, hr idx e w hread, hrest.1, hd.trans hrest.2⟩

/-- `Apply` up to the end of its first lock section. -/
theorem Replays.mark (hi : x.coordinator.dispatched = applyAll json x.calls) {idx : ℕ}
    {e : LogEntry} {w : Option ℕ} {command : Bytes} {o : Outcome}
    (hr : x.coordinator.server.apply = .read idx e w) (hc : e.command = some command) :
    Replays json ⟨x.coordinator.mark json command, x.calls, o⟩ := by
  have hsome : e.command.isSome = true := by rw [hc]; rfl
  -- where nothing is marked, `Apply` leaves the markers alone whatever it finds outside
  have nothing : (dispatchedTask json e = none ∨
      ∃ t ∈ x.coordinator.dispatched, dispatchedTask json e = some t) →
        Replays json ⟨{ x.coordinator with applying := .returned }, x.calls, o⟩ := by
    rintro (hno | ⟨t, ht, hsome'⟩)
    · exact ⟨idx, e, w, hr, hsome, by rw [apply_of_none hno]; exact hi⟩
    · refine ⟨idx, e, w, hr, hsome, ?_⟩
      rw [hi] at ht
      rw [apply_of_some hsome', Finset.insert_eq_self.2 ht, ite_self]
      exact hi
  unfold Coordinator.mark
  split
  next hnil => exact nothing (.inl (by simp [dispatchedTask, hc, hnil]))
  next hne =>
    split
    next hnone => exact nothing (.inl (by simp [dispatchedTask, hc, hne, hnone]))
    next cmd hdec =>
      split_ifs with hbad hdup
      · exact nothing (.inl (by simp [dispatchedTask, hc, hne, hdec, hbad]))
      · exact nothing (.inr ⟨_, hdup, by simp [dispatchedTask, hc, hne, hdec, hbad]⟩)
      · refine ⟨⟨idx, e, w, hr, hsome, ?_⟩, hi ▸ hdup, congrArg (insert cmd.taskID) hi⟩
        simp [dispatchedTask, hc, hne, hdec, hbad]

/-- A call that marked its task returns, having taken the marker back or not. -/
theorem Marks.returns {cmd : DispatchCommand} (hm : Marks json x cmd) {d : Finset String}
    {o : Outcome} (hd : d = if o.Retracts then applyAll json x.calls
      else insert cmd.taskID (applyAll json x.calls)) :
    Replays json ⟨{ x.coordinator with dispatched := d, applying := .returned }, x.calls, o⟩ := by
  obtain ⟨⟨idx, e, w, hr, hc, ht⟩, -, -⟩ := hm
  exact ⟨idx, e, w, hr, hc, by rw [apply_of_some ht]; exact hd⟩

theorem Replays.step (hi : Replays json x) (hok : AppliesOnly x h ev)
    (hs : x.coordinator.step json s3Key ev = some (c', out)) :
    Replays json ⟨c', x.record ev, x.observe ev⟩ := by
  by_cases hmark : ev = .mark
  · subst hmark
    simp only [Coordinator.step, Coordinator.stepApply] at hs
    split at hs
    next idx t i command w hr hidle =>
      cases hs
      unfold Replays at hi
      rw [hidle] at hi
      exact Replays.mark hi hr rfl
    next => cases hs
  have hstep := Coordinator.step_inv hs
  cases hstep with
  | node ev s o hown hsrv =>
    refine hi.keep rfl rfl fun idx e w hr => reading_kept hsrv hr ?_ ?_
    · rintro rfl
      cases hown
    · rintro rfl
      cases hown
  | markNothing | mark => exact absurd rfl hmark
  | leader cmd ha hl =>
    unfold Replays at hi
    rw [ha] at hi
    exact ⟨⟨hi.reading, hi.fresh, hi.dispatched⟩, by simp [observe, hl]⟩
  | notLeader cmd ha hl =>
    unfold Replays at hi
    rw [ha] at hi
    have hno : ¬ (x.observe .checkLeader).Retracts := by simp [observe, Outcome.Retracts, hl]
    exact hi.returns (by rw [if_neg hno]; exact hi.dispatched)
  | published cmd ha =>
    unfold Replays at hi
    rw [ha] at hi
    have hno : ¬ (x.observe (.sendMessage true)).Retracts := by simp [observe, Outcome.Retracts]
    exact hi.1.returns (by rw [if_neg hno]; exact hi.1.dispatched)
  | sendFailed cmd ha =>
    unfold Replays at hi
    rw [ha] at hi
    exact ⟨⟨hi.1.reading, hi.1.fresh, hi.1.dispatched⟩, hi.2, rfl⟩
  | retract cmd ha =>
    unfold Replays at hi
    rw [ha] at hi
    have hret : (x.observe .retract).Retracts := hi.2
    refine hi.1.returns ?_
    rw [if_pos hret, hi.1.dispatched, Finset.erase_insert hi.1.fresh]
  | applied idx e w s o ha hret hsrv =>
    unfold Replays at hi ⊢
    rcases hret with hret | ⟨hidle, hnone⟩
    · rw [hret] at hi
      obtain ⟨idx', e', w', hr, hc, hd⟩ := hi
      obtain ⟨-, rfl, -⟩ : idx = idx' ∧ e = e' ∧ w = w' := by simpa [ha] using hr
      show x.coordinator.dispatched = applyAll json (x.record .applied)
      simp only [record, ha, hc, if_true, applyAll_append_singleton]
      exact hd
    · rw [hidle] at hi
      show x.coordinator.dispatched = applyAll json (x.record .applied)
      simp only [record, ha, hnone]
      exact hi
  | snapshot ids s o hids hsrv =>
    exact hi.keep rfl rfl fun idx e w hr => reading_kept hsrv hr (by simp) (by simp)
  | restore => exact hok.elim
  | propose m taskID b s o hing hsrv =>
    exact hi.keep rfl rfl fun idx e w hr => reading_kept hsrv hr (by simp) (by simp)
  | _ => exact hi.keep rfl rfl fun idx e w hr => hr

end Step

/-- While no call of `Apply` is in progress, the markers are those of the completed calls. -/
theorem dispatched_eq {json : Codec} {s3Key : String → String} {id : String} {peers : List String}
    {x : Traced} {h : List Output}
    (r : Run (step json s3Key) AppliesOnly (boot id peers) [] x h)
    (hidle : x.coordinator.applying = .idle) :
    x.coordinator.dispatched = applyAll json x.calls := by
  have hinv : Replays json x := by
    refine r.invariant (I := fun x _ => Replays json x) rfl ?_
    intro x h ev x' out hi hok hs
    obtain ⟨⟨c', out'⟩, hc, he⟩ := Option.map_eq_some_iff.1 hs
    cases he
    exact hi.step hok hc
  unfold Replays at hinv
  rw [hidle] at hinv
  exact hinv

end Traced

/-! ## Two coordinators -/

/-- Two coordinators have the same markers and treat every message the same way. -/
structure Agree (json : Codec) (c₁ c₂ : Coordinator) : Prop where
  dispatched : c₁.dispatched = c₂.dispatched
  ingest : ∀ m, (c₁.checkDispatched json m).1.ingest = (c₂.checkDispatched json m).1.ingest ∧
    (c₁.checkDispatched json m).2 = (c₂.checkDispatched json m).2

theorem agree_iff {json : Codec} {c₁ c₂ : Coordinator} :
    Agree json c₁ c₂ ↔ c₁.dispatched = c₂.dispatched := by
  refine ⟨Agree.dispatched, fun hd => ⟨hd, fun m => ?_⟩⟩
  unfold Coordinator.checkDispatched
  rw [hd]
  cases m.body with
  | none => exact ⟨rfl, rfl⟩
  | some body =>
    cases hdec : json.unmarshalIngest body with
    | none => simp [hdec]
    | some msg =>
      simp only [hdec]
      split_ifs <;> exact ⟨rfl, rfl⟩

/-- **Coordinators that applied the same entries agree** exactly if the same tasks have, on the one
and on the other, a call of `Apply` that did not take its marker back. -/
theorem replicas_agree_iff {json : Codec} {s3Key : String → String} {id₁ id₂ : String}
    {peers₁ peers₂ : List String} {x₁ x₂ : Traced} {h₁ h₂ : List Output}
    (r₁ : Run (Traced.step json s3Key) Traced.AppliesOnly (Traced.boot id₁ peers₁) [] x₁ h₁)
    (r₂ : Run (Traced.step json s3Key) Traced.AppliesOnly (Traced.boot id₂ peers₂) [] x₂ h₂)
    (hi₁ : x₁.coordinator.applying = .idle) (hi₂ : x₂.coordinator.applying = .idle)
    (hsame : x₁.calls.map Prod.fst = x₂.calls.map Prod.fst) :
    Agree json x₁.coordinator x₂.coordinator ↔
      ∀ e ∈ x₁.calls.map Prod.fst, ∀ t ∈ dispatchedTask json e,
        (Kept json x₁.calls t ↔ Kept json x₂.calls t) := by
  rw [agree_iff, Traced.dispatched_eq r₁ hi₁, Traced.dispatched_eq r₂ hi₂]
  constructor
  · intro heq e _ t _
    rw [← mem_applyAll, ← mem_applyAll, heq]
  · intro hkept
    ext t
    rw [mem_applyAll, mem_applyAll]
    constructor
    · rintro ⟨c, hc, ht, hr⟩
      exact (hkept c.1 (List.mem_map_of_mem hc) t ht).1 ⟨c, hc, ht, hr⟩
    · rintro ⟨c, hc, ht, hr⟩
      exact (hkept c.1 (hsame ▸ List.mem_map_of_mem hc) t ht).2 ⟨c, hc, ht, hr⟩

/-- The entry of the task, on the leader `"a"` up to the call of `SendMessage` and on a follower
`"b"`. -/
def taskEntry : LogEntry := ⟨1, 1, some taskEncoded⟩

def leaderApplies : List Event :=
  taskCommitted.filterMap fun x => if x.1 = "a" then some x.2 else none

def followerApplies : List Event :=
  [.node (.handleAppendEntries ⟨1, "a", 0, 0, [taskEntry], 1⟩), .node .applyWake, .node .applyRead,
    .mark, .checkLeader, .applied]

/-- The leader publishes, and both have the task marked. -/
theorem replicas_agree_of_publish : ∃ x₁ h₁ x₂ h₂,
    Run (Traced.step taskCodec fun _ => "in/t1") Traced.AppliesOnly (Traced.boot "a" ["b", "c"])
      [] x₁ h₁ ∧
    Run (Traced.step taskCodec fun _ => "in/t1") Traced.AppliesOnly (Traced.boot "b" ["a", "c"])
      [] x₂ h₂ ∧
    x₁.calls = [(taskEntry, ⟨true, true⟩)] ∧ x₂.calls = [(taskEntry, ⟨false, true⟩)] ∧
      Agree taskCodec x₁.coordinator x₂.coordinator := by
  obtain ⟨x₁, h₁, r₁, hi₁, hc₁⟩ := exists_run_of_exec
    (Traced.step taskCodec fun _ => "in/t1") Traced.AppliesOnly (Traced.boot "a" ["b", "c"]) []
    (leaderApplies ++ [.sendMessage true, .applied])
    (fun x _ => x.coordinator.applying = .idle ∧ x.calls = [(taskEntry, ⟨true, true⟩)])
    (by decide +kernel)
  obtain ⟨x₂, h₂, r₂, hi₂, hc₂⟩ := exists_run_of_exec
    (Traced.step taskCodec fun _ => "in/t1") Traced.AppliesOnly (Traced.boot "b" ["a", "c"]) []
    followerApplies
    (fun x _ => x.coordinator.applying = .idle ∧ x.calls = [(taskEntry, ⟨false, true⟩)])
    (by decide +kernel)
  refine ⟨x₁, h₁, x₂, h₂, r₁, r₂, hc₁, hc₂,
    (replicas_agree_iff r₁ r₂ hi₁ hi₂ (by rw [hc₁, hc₂]; rfl)).2 fun e _ t _ => ?_⟩
  simp [hc₁, hc₂, Kept, Outcome.Retracts]

/-- **A failed publish makes coordinators differ**: the leader takes the marker of the task back,
the follower that applied the same entry keeps it. -/
theorem replicas_differ : ¬ ∀ (json : Codec) (s3Key : String → String) (id₁ id₂ : String)
    (peers₁ peers₂ : List String) (x₁ x₂ : Traced) (h₁ h₂ : List Output), json.Lawful →
    Run (Traced.step json s3Key) Traced.AppliesOnly (Traced.boot id₁ peers₁) [] x₁ h₁ →
    Run (Traced.step json s3Key) Traced.AppliesOnly (Traced.boot id₂ peers₂) [] x₂ h₂ →
    x₁.coordinator.applying = .idle → x₂.coordinator.applying = .idle →
    x₁.calls.map Prod.fst = x₂.calls.map Prod.fst →
      Agree json x₁.coordinator x₂.coordinator := by
  intro hall
  obtain ⟨x₁, h₁, r₁, hi₁, hc₁, hd₁⟩ := exists_run_of_exec
    (Traced.step taskCodec fun _ => "in/t1") Traced.AppliesOnly (Traced.boot "a" ["b", "c"]) []
    (leaderApplies ++ [.sendMessage false, .retract, .applied])
    (fun x _ => x.coordinator.applying = .idle ∧ x.calls.map Prod.fst = [taskEntry] ∧
      "t1" ∉ x.coordinator.dispatched)
    (by decide +kernel)
  obtain ⟨x₂, h₂, r₂, hi₂, hc₂, hd₂⟩ := exists_run_of_exec
    (Traced.step taskCodec fun _ => "in/t1") Traced.AppliesOnly (Traced.boot "b" ["a", "c"]) []
    followerApplies
    (fun x _ => x.coordinator.applying = .idle ∧ x.calls.map Prod.fst = [taskEntry] ∧
      "t1" ∈ x.coordinator.dispatched)
    (by decide +kernel)
  have hagree := hall taskCodec (fun _ => "in/t1") _ _ _ _ x₁ x₂ h₁ h₂ taskCodec_lawful r₁ r₂ hi₁
    hi₂ (hc₁.trans hc₂.symm)
  exact hd₁ (hagree.dispatched ▸ hd₂)

end Driftless.Dispatch
