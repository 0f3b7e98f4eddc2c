import Driftless.Lincheck.Polls

/-!
# What experiment 3 counts

`analyze` of `exp3.py` counts the tasks that were submitted, those that a poller saw end and those
that a poller gave up on, and calls the rest lost. But a poller records one of the two last whatever
has become of the task. So a task counts as lost only while its poller is still at work, and once
all have ended nothing is lost, also if a task was never dispatched; and what is recorded as
`COMPLETED` is completed for good (`lost_eq_running`).
-/

namespace Driftless.Lincheck

open Pipeline

/-! ## Counting -/

structure Counts where
  submitted : ℕ
  completed : ℕ
  timedOut : ℕ
  deriving DecidableEq, Repr

/-- What the loop does with an event. -/
def Counts.add (x : Counts) (ev : RawEvent) : Counts :=
  if ev.op = "submit" then { x with submitted := x.submitted + 1 }
  else if ev.op = "complete" then { x with completed := x.completed + 1 }
  else if ev.op = "timeout" then { x with timedOut := x.timedOut + 1 }
  else x

def Counts.lost (x : Counts) : ℤ := max 0 (x.submitted - x.completed - x.timedOut)

/-- The counts of `analyze`. -/
def counts (history : List RawEvent) : Counts := history.foldl Counts.add ⟨0, 0, 0⟩

@[simp] theorem counts_concat (history : List RawEvent) (ev : RawEvent) :
    counts (history ++ [ev]) = (counts history).add ev := by
  simp [counts]

/-! ## Runs -/

/-- The steps of an experiment in which no poll raises an exception, and only submitters and pollers
record that a task was submitted or has ended. -/
def Bench.Tallied (members : List String) (s : Bench) (h : List (String × Dispatch.Output))
    (ev : BenchEvent) : Prop :=
  s.Admits members h ev ∧
    match ev with
    | .poll _ _ ok => ok = true
    | .record ev => ev.op ∉ ["submit", "complete", "timeout"]
    | _ => True

instance (members : List String) (s : Bench) (h : List (String × Dispatch.Output))
    (ev : BenchEvent) : Decidable (s.Tallied members h ev) := by
  cases ev <;> dsimp only [Bench.Tallied] <;> infer_instance

/-- The status that a poller has in hand. -/
def PollStage.status : PollStage → Option TaskStatus
  | .read _ status => status
  | .returned _ _ status => some status
  | .terminal status => some status
  | _ => none

def TracedPoll.ended (p : TracedPoll) : Bool := p.stage = .stopped

/-- A poller for each submitted task, an event for each poller that has ended, and tasks that were
seen completed. -/
structure Accounted (s : Bench) : Prop where
  submitted : (counts s.history).submitted = s.polls.length
  ended : (counts s.history).completed + (counts s.history).timedOut =
    s.polls.countP TracedPoll.ended
  seen : ∀ p ∈ s.polls, p.stage.status = some .completed →
    (s.system.store.item p.taskID).status = some .completed
  recorded : ∀ ev ∈ s.history, ev.op = "complete" → ev.status = "COMPLETED" →
    (s.system.store.item ev.taskID).status = some .completed

section Keep

variable {s : Bench} {k : ℕ} {p : TracedPoll} {now : ℤ} {stage : PollStage}

theorem countP_set_poll (hk : s.polls[k]? = some p) (stage : PollStage) :
    (s.polls.set k { p with stage := stage }).countP TracedPoll.ended +
        (if p.stage = .stopped then 1 else 0) =
      s.polls.countP TracedPoll.ended + if stage = .stopped then 1 else 0 := by
  obtain ⟨hlt, hget⟩ := List.getElem?_eq_some_iff.1 hk
  have hpos : p.stage = .stopped → 0 < s.polls.countP TracedPoll.ended := fun hst =>
    List.countP_pos_iff.2 ⟨p, List.mem_of_getElem? hk, decide_eq_true hst⟩
  rw [List.countP_set hlt, hget]
  simp only [TracedPoll.ended, decide_eq_true_eq]
  by_cases hp : p.stage = .stopped
  · have hpos := hpos hp
    simp only [hp, if_true]
    omega
  · simp only [hp, if_false]
    omega

/-- A poller gets on, and records `evs`. -/
theorem Accounted.advance (hi : Accounted s) (hk : s.polls[k]? = some p) {evs : List RawEvent}
    (hsub : (counts (s.history ++ evs)).submitted = (counts s.history).submitted)
    (hend : (counts (s.history ++ evs)).completed + (counts (s.history ++ evs)).timedOut +
        (if p.stage = .stopped then 1 else 0) =
      (counts s.history).completed + (counts s.history).timedOut +
        if stage = .stopped then 1 else 0)
    (hseen : stage.status = some .completed →
      (s.system.store.item p.taskID).status = some .completed)
    (hrec : ∀ ev ∈ evs, ev.op = "complete" → ev.status = "COMPLETED" →
      (s.system.store.item ev.taskID).status = some .completed) :
    Accounted { s with
      polls := s.polls.set k { p with stage := stage }
      clock := now
      history := s.history ++ evs } where
  submitted := by
    rw [hsub, List.length_set]
    exact hi.submitted
  ended := by
    have hset := countP_set_poll hk stage
    have hold := hi.ended
    change (counts (s.history ++ evs)).completed + (counts (s.history ++ evs)).timedOut =
      (s.polls.set k { p with stage := stage }).countP TracedPoll.ended
    omega
  seen q hq hst := by
    rcases List.mem_or_eq_of_mem_set hq with hq | rfl
    · exact hi.seen q hq hst
    · exact hseen hst
  recorded ev hev hop hst := by
    rcases List.mem_append.1 hev with hev | hev
    · exact hi.recorded ev hev hop hst
    · exact hrec ev hev hop hst

theorem Accounted.poll (hi : Accounted s) (hk : s.polls[k]? = some p) :
    Accounted { s with
      polls := s.polls.set k { p with stage := (p.step s.system.store now true).1 }
      clock := now
      history := s.history ++ (p.step s.system.store now true).2 } := by
  have hp := List.mem_of_getElem? hk
  have hseen := hi.seen p hp
  cases hst : p.stage with
  | waiting =>
    simp only [TracedPoll.step, hst]
    exact hi.advance hk (by simp) (by simp [hst]) (by simp [PollStage.status]) (by simp)
  | called callNs =>
    simp only [TracedPoll.step, hst, if_true]
    exact hi.advance hk (by simp) (by simp [hst]) (fun h => h) (by simp)
  | read callNs status =>
    rw [hst] at hseen
    cases status with
    | none =>
      simp only [TracedPoll.step, hst]
      exact hi.advance hk (by simp) (by simp [hst]) (by simp [PollStage.status]) (by simp)
    | some status =>
      simp only [TracedPoll.step, hst]
      exact hi.advance hk (by simp) (by simp [hst]) hseen (by simp)
  | returned callNs returnNs status =>
    rw [hst] at hseen
    simp only [TracedPoll.step, hst]
    refine hi.advance hk (by simp [Counts.add]) ?_ ?_ (by simp)
    · split_ifs <;> simp_all [Counts.add]
    · split_ifs with hdone
      · exact hseen
      · simp [PollStage.status]
  | terminal status =>
    rw [hst] at hseen
    simp only [TracedPoll.step, hst]
    refine hi.advance hk (by simp [Counts.add]) ?_ (by simp [PollStage.status]) ?_
    · simp [Counts.add, hst]
      omega
    · rintro ev hev - hstatus
      rw [List.mem_singleton.1 hev] at hstatus ⊢
      cases status with
      | completed => exact hseen rfl
      | pending => exact absurd hstatus (by simp [statusText])
      | assigned => exact absurd hstatus (by simp [statusText])
      | failed => exact absurd hstatus (by simp [statusText])
  | stopped =>
    simp only [TracedPoll.step, hst]
    exact hi.advance hk (by simp) (by simp [hst]) (by simp [PollStage.status]) (by simp)

/-- The pipeline takes a step, after which a completed task is still completed. -/
theorem Accounted.pipeline (hi : Accounted s) {system : System}
    (hkeep : ∀ t, (s.system.store.item t).status = some .completed →
      (system.store.item t).status = some .completed) :
    Accounted { s with system := system } where
  submitted := hi.submitted
  ended := hi.ended
  seen p hp hst := hkeep _ (hi.seen p hp hst)
  recorded ev hev hop hst := hkeep _ (hi.recorded ev hev hop hst)

/-- A task is submitted, and its poller starts. -/
theorem Accounted.start (hi : Accounted s) (taskID : String) :
    Accounted { s with
      polls := s.polls ++ [⟨taskID, .waiting⟩]
      history := s.history ++ [⟨"submit", taskID, 0, 0, ""⟩] } where
  submitted := by
    simpa [Counts.add] using hi.submitted
  ended := by
    simpa [Counts.add, TracedPoll.ended] using hi.ended
  seen := List.forall_mem_append.2 ⟨hi.seen, by simp [PollStage.status]⟩
  recorded := List.forall_mem_append.2 ⟨hi.recorded, by simp⟩

/-- Another thread records something else. -/
theorem Accounted.record (hi : Accounted s) {ev : RawEvent}
    (hop : ev.op ∉ ["submit", "complete", "timeout"]) :
    Accounted { s with history := s.history ++ [ev] } := by
  obtain ⟨hsub, hdone, hlate⟩ : ev.op ≠ "submit" ∧ ev.op ≠ "complete" ∧ ev.op ≠ "timeout" := by
    simpa using hop
  have hcounts : counts (s.history ++ [ev]) = counts s.history := by
    simp [Counts.add, hsub, hdone, hlate]
  refine ⟨?_, ?_, hi.seen, List.forall_mem_append.2 ⟨hi.recorded, by simp [hdone]⟩⟩
  · rw [hcounts]
    exact hi.submitted
  · rw [hcounts]
    exact hi.ended

theorem Accounted.step {json : Json} {members : List String} {s' : Bench} {ev : BenchEvent}
    {h out : List (String × Dispatch.Output)} (hsound : Sound json s.system h) (hi : Accounted s)
    (hok : s.Tallied members h ev) (hs : s.step json ev = some (s', out)) : Accounted s' := by
  cases ev with
  | pipeline ev =>
    obtain ⟨⟨system, out'⟩, hsys, he⟩ := Option.map_eq_some_iff.1 hs
    cases he
    have hstep := System.step_inv hsys
    exact hi.pipeline fun t ht => (hsound.submitted.completed_step hstep ht).1
  | submitted k =>
    simp only [Bench.step] at hs
    split at hs
    next c hk =>
      split_ifs at hs
      cases hs
      exact hi.start c.taskID
    next => cases hs
  | poll k now ok =>
    obtain rfl : ok = true := hok.2
    simp only [Bench.step] at hs
    split at hs <;> cases hs
    next p hk => exact hi.poll hk
  | timeout k =>
    simp only [Bench.step] at hs
    split at hs
    next p hk =>
      split_ifs at hs with hst
      cases hs
      refine hi.advance hk (by simp [Counts.add]) ?_ (by simp [PollStage.status]) (by simp)
      simp [Counts.add, hst]
      omega
    next => cases hs
  | record ev =>
    cases hs
    exact hi.record hok.2

end Keep

section Run

variable {json : Json} {members : List String} {s : Bench} {clock : ℤ}
  {h : List (String × Dispatch.Output)}

theorem accounted_boot (members : List String) (clock : ℤ) :
    Accounted (Bench.boot members clock) :=
  ⟨rfl, rfl, nofun, nofun⟩

theorem accounted_run (hjson : json.Lawful)
    (r : Run (Bench.step json) (Bench.Tallied members) (Bench.boot members clock) [] s h) :
    (Sound json s.system h ∧ Sequential s) ∧ Accounted s :=
  r.invariant (I := fun s h => (Sound json s.system h ∧ Sequential s) ∧ Accounted s)
    ⟨⟨sound_boot json members, sequential_boot members clock⟩, accounted_boot members clock⟩
    fun _ _ _ _ _ hi hok hs =>
      ⟨hi.1.2.step hjson hi.1.1 hok.1 hs, hi.2.step hi.1.1 hok hs⟩

/-- **What is lost is what is still polled**: in every run of the experiment the number of lost
tasks is that of the pollers at work, whatever became of the tasks of the others. And a task that
was recorded as completed is completed. -/
theorem lost_eq_running (hjson : json.Lawful)
    (r : Run (Bench.step json) (Bench.Tallied members) (Bench.boot members clock) [] s h) :
    (counts s.history).lost = s.polls.countP (fun p => p.stage ≠ .stopped) ∧
      ∀ ev ∈ s.history, ev.op = "complete" → ev.status = "COMPLETED" →
        (s.system.store.item ev.taskID).status = some .completed := by
  have hi := (accounted_run hjson r).2
  refine ⟨?_, hi.recorded⟩
  have hsplit := List.length_eq_countP_add_countP TracedPoll.ended (l := s.polls)
  have hrest : s.polls.countP (fun p => ¬ TracedPoll.ended p = true) =
      s.polls.countP (fun p => p.stage ≠ .stopped) :=
    List.countP_congr fun p _ => by simp [TracedPoll.ended]
  have hsub := hi.submitted
  have hend := hi.ended
  rw [Counts.lost, ← hrest]
  omega

end Run

/-- No worker takes the task before its poller gives up. -/
def polledLate : List BenchEvent :=
  taskPublished.map .pipeline ++ [.submitted 0, .poll 0 10 true, .poll 0 15 true,
    .poll 0 20 true, .poll 0 25 true, .record ⟨"chaos.kill_leader", "", 0, 0, ""⟩, .timeout 0]

/-- The poller of a task that stays pending has given up, and nothing is lost. -/
theorem lost_eq_running_of_timeout : ∃ s h, submittedJson.Lawful ∧
    Run (Bench.step submittedJson) (Bench.Tallied ["a", "b", "c"])
      (Bench.boot ["a", "b", "c"] 0) [] s h ∧
    s.polls.length = 1 ∧ (s.system.store.item "t1").status = some .pending ∧
    (counts s.history).lost = s.polls.countP (fun p => p.stage ≠ .stopped) ∧
    (counts s.history).lost = 0 := by
  obtain ⟨s, h, r, hlen, hst, hstop⟩ := exists_run_of_exec (Bench.step submittedJson)
    (Bench.Tallied ["a", "b", "c"]) (Bench.boot ["a", "b", "c"] 0) [] polledLate
    (fun s _ => s.polls.length = 1 ∧ (s.system.store.item "t1").status = some .pending ∧
      s.polls.countP (fun p => p.stage ≠ .stopped) = 0) (by decide +kernel)
  have hlost := (lost_eq_running submittedJson_lawful r).1
  refine ⟨s, h, submittedJson_lawful, r, hlen, hst, hlost, ?_⟩
  rw [hlost, hstop]
  rfl

end Driftless.Lincheck
