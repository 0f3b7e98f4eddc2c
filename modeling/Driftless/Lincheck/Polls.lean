import Driftless.Lincheck.Verdict
import Driftless.Pipeline.Status

/-!
# The history of experiment 3

The experiment submits tasks, and for each one that it submitted a thread polls the status until it
is `COMPLETED` or `FAILED`. Every status that is seen goes to the history that `lincheck` reads,
with the times before and after the read.

One thread polls a task, one poll after the other, and it stops at the first status with the highest
code. The pipeline takes tasks back, but only from `FAILED`, so that what the thread has seen before
bounds the code from below (`floor_le_step`), and no poll goes backward. Hence `linearizable`
in every run, also in those in which tasks are taken back: `polls_linearizable`.
-/

namespace Driftless.Lincheck

open Pipeline Dispatch

/-! ## Polls -/

/-- The `status` attribute. -/
def statusText : TaskStatus → String
  | .pending => "PENDING"
  | .assigned => "ASSIGNED"
  | .completed => "COMPLETED"
  | .failed => "FAILED"

@[simp] theorem statusCode_statusText (status : TaskStatus) :
    statusCode (statusText status) = status.code := by
  cases status <;> rfl

/-- Where a thread is in `_poll_to_completion_traced`. -/
inductive PollStage
  /-- Before the deadline is checked. -/
  | waiting
  | called (callNs : ℤ)
  | read (callNs : ℤ) (status : Option TaskStatus)
  | returned (callNs returnNs : ℤ) (status : TaskStatus)
  /-- Before the `complete` event. -/
  | terminal (status : TaskStatus)
  | stopped
  deriving DecidableEq, Repr

structure TracedPoll where
  taskID : String
  stage : PollStage
  deriving DecidableEq, Repr

/-- The next step of a thread, with what it records. The clock shows `now`, and a `poll_status` that
is not `ok` raises an exception, which ends the thread. -/
def TracedPoll.step (p : TracedPoll) (st : Store) (now : ℤ) (ok : Bool) :
    PollStage × List RawEvent :=
  match p.stage with
  | .waiting => (.called now, [])
  | .called callNs => (if ok then .read callNs (st.item p.taskID).status else .stopped, [])
  | .read _ none => (.waiting, [])
  | .read callNs (some status) => (.returned callNs now status, [])
  | .returned callNs returnNs status =>
    (if status = .completed ∨ status = .failed then .terminal status else .waiting,
      [⟨"poll_observe", p.taskID, callNs, returnNs, statusText status⟩])
  | .terminal status => (.stopped, [⟨"complete", p.taskID, 0, 0, statusText status⟩])
  | .stopped => (.stopped, [])

/-- The experiment and the pipeline. -/
structure Bench where
  system : System
  polls : List TracedPoll
  clock : ℤ
  /-- The events of `history.jsonl`, with the fields that `lincheck` decodes. -/
  history : List RawEvent

inductive BenchEvent
  | pipeline (ev : Pipeline.Event)
  /-- `do_submit` after the calls of `submit`, which are those of `handleSubmitTask`. -/
  | submitted (k : ℕ)
  | poll (k : ℕ) (now : ℤ) (ok : Bool)
  /-- A thread finds its deadline passed. -/
  | timeout (k : ℕ)
  /-- Other threads record their events. -/
  | record (ev : RawEvent)
  deriving DecidableEq, Repr

namespace Bench

def boot (members : List String) (clock : ℤ) : Bench := ⟨System.boot members, [], clock, []⟩

def step (json : Json) (s : Bench) :
    BenchEvent → Option (Bench × List (String × Dispatch.Output))
  | .pipeline ev => (s.system.step json ev).map fun x => ({ s with system := x.1 }, x.2)
  | .submitted k =>
    match s.system.submits[k]? with
    | some c =>
      if c.stage = .over then
        some ({ s with
          polls := s.polls ++ [⟨c.taskID, .waiting⟩]
          history := s.history ++ [⟨"submit", c.taskID, 0, 0, ""⟩] }, [])
      else none
    | none => none
  | .poll k now ok =>
    match s.polls[k]? with
    | some p =>
      let res := p.step s.system.store now ok
      some ({ s with
        polls := s.polls.set k { p with stage := res.1 }
        clock := now
        history := s.history ++ res.2 }, [])
    | none => none
  | .timeout k =>
    match s.polls[k]? with
    | some p =>
      if p.stage = .waiting then
        some ({ s with
          polls := s.polls.set k { p with stage := .stopped }
          history := s.history ++ [⟨"timeout", p.taskID, 0, 0, "TIMEOUT"⟩] }, [])
      else none
    | none => none
  | .record ev => some ({ s with history := s.history ++ [ev] }, [])

/-- What can happen: the pipeline does what it can, a task is submitted by one call, which starts
one thread, and the clock is not set back. Only polls are recorded as polls. -/
def Admits (members : List String) (s : Bench) (h : List (String × Dispatch.Output)) :
    BenchEvent → Prop
  | .pipeline ev => s.system.Admits members h ev
  | .submitted k => ∀ c ∈ s.system.submits[k]?, ∀ p ∈ s.polls, p.taskID ≠ c.taskID
  | .poll _ now _ => s.clock ≤ now
  | .timeout _ => True
  | .record ev => ev.op ≠ "poll_observe"

instance (members : List String) (s : Bench) (h : List (String × Dispatch.Output))
    (ev : BenchEvent) : Decidable (s.Admits members h ev) := by
  rcases ev <;> dsimp only [Admits] <;> infer_instance

end Bench

/-! ## What the pipeline keeps -/

/-- The code of a task, with the two highest taken as one. -/
def floor (st : Store) (t : String) : ℕ := min 2 (st.code t)

theorem floor_le_code (st : Store) (t : String) : floor st t ≤ st.code t := min_le_right _ _

section Step

variable {json : Json} {members : List String} {s s' : System} {ev : Pipeline.Event}
  {out : List (String × Dispatch.Output)}

/-- A task goes back no further than to assigned. -/
theorem floor_le_step (hsub : Submitted s) (hs : System.Step json s ev s' out) (t : String) :
    floor s.store t ≤ floor s'.store t := by
  rcases hsub.step_status hs t with ⟨hst, -⟩ | ⟨w, r, status, key, hw, -, hset, hst, -⟩
  · simp [floor, Store.code, hst]
  · refine le_min (min_le_left _ _) ?_
    rw [Store.code_eq hst]
    cases hset with
    | putItem priority s3Key hnew =>
      simp [floor, Store.code, Store.item_of_notMem hnew, TaskItem.blank]
    | markAssigned => exact min_le_left _ _
    | updateStatus status key =>
      cases status with
      | pending =>
        have hno : Write.updateStatus t .pending key ≠ .updateStatus t .pending key :=
          (updates_of_issues hw).1
        exact absurd rfl hno
      | _ => exact (min_le_left _ _).trans (by decide)

end Step

/-! ## What a thread keeps -/

namespace PollStage

/-- The thread goes on polling. -/
@[simp] def Live : PollStage → Prop
  | .terminal _ => False
  | .stopped => False
  | _ => True

/-- When the poll in progress was called. -/
@[simp] def callNs : PollStage → Option ℤ
  | .called callNs => some callNs
  | .read callNs _ => some callNs
  | .returned callNs _ _ => some callNs
  | _ => none

/-- When it returned. -/
@[simp] def returnNs : PollStage → Option ℤ
  | .returned _ returnNs _ => some returnNs
  | _ => none

/-- The status that it saw. -/
@[simp] def seen : PollStage → Option TaskStatus
  | .read _ status => status
  | .returned _ _ status => some status
  | _ => none

end PollStage

/-- A thread and one of the observations of its task so far: the thread stopped there, or the poll
in progress came later and saw no smaller code, and the next one will not either. -/
structure TracedPoll.After (st : Store) (p : TracedPoll) (a : RawEvent) : Prop where
  floor : statusCode a.status ≤ floor st p.taskID
  call : ∀ callNs ∈ p.stage.callNs, a.returnNs ≤ callNs
  seen : ∀ status ∈ p.stage.seen, statusCode a.status ≤ status.code

/-- The times of a poll in progress, and the status that it saw. -/
structure TracedPoll.Timely (st : Store) (clock : ℤ) (p : TracedPoll) : Prop where
  call : ∀ callNs ∈ p.stage.callNs, callNs ≤ clock
  ret : ∀ returnNs ∈ p.stage.returnNs, ∀ callNs ∈ p.stage.callNs,
    callNs ≤ returnNs ∧ returnNs ≤ clock
  floor : ∀ status ∈ p.stage.seen, min 2 status.code ≤ Lincheck.floor st p.taskID

/-- The first observation is the earlier one and saw no greater code, if both are of one task. -/
def Precedes (a b : RawEvent) : Prop :=
  a.Observes → b.Observes → a.taskID = b.taskID →
    a.returnNs ≤ b.callNs ∧ statusCode a.status ≤ statusCode b.status

/-- The polls of each task come one after the other. -/
structure Sequential (s : Bench) : Prop where
  distinct : (s.polls.map TracedPoll.taskID).Nodup
  polled : ∀ a ∈ s.history, a.Observes → a.taskID ∈ s.polls.map TracedPoll.taskID
  times : ∀ a ∈ s.history, a.Observes → a.callNs ≤ a.returnNs ∧ a.returnNs ≤ s.clock
  precedes : s.history.Pairwise Precedes
  timely : ∀ p ∈ s.polls, p.Timely s.system.store s.clock
  after : ∀ p ∈ s.polls, p.stage.Live → ∀ a ∈ s.history, a.Observes → a.taskID = p.taskID →
    p.After s.system.store a

theorem not_observes {ev : RawEvent} (h : ev.op ≠ "poll_observe") : ¬ ev.Observes :=
  fun ho => h ho.1

section Keep

variable {json : Json} {members : List String} {s : Bench} {k : ℕ} {p : TracedPoll} {now : ℤ}
  {st st' : Store} {h : List (String × Dispatch.Output)}

theorem TracedPoll.After.extend {a : RawEvent} (ha : p.After st a)
    (hle : Lincheck.floor st p.taskID ≤ Lincheck.floor st' p.taskID) : p.After st' a :=
  ⟨ha.floor.trans hle, ha.call, ha.seen⟩

theorem TracedPoll.Timely.extend {clock : ℤ} (ht : p.Timely st clock)
    (hle : Lincheck.floor st p.taskID ≤ Lincheck.floor st' p.taskID) (hclock : clock ≤ now) :
    p.Timely st' now where
  call callNs hc := (ht.call callNs hc).trans hclock
  ret returnNs hr callNs hc := (ht.ret returnNs hr callNs hc).imp_right hclock.trans'
  floor status hst := (ht.floor status hst).trans hle

/-- An event is recorded. -/
theorem Sequential.append (hi : Sequential s) {ev : RawEvent}
    (hpolled : ev.Observes → ev.taskID ∈ s.polls.map TracedPoll.taskID)
    (htimes : ev.Observes → ev.callNs ≤ ev.returnNs ∧ ev.returnNs ≤ s.clock)
    (hprec : ∀ a ∈ s.history, Precedes a ev)
    (hafter : ∀ p ∈ s.polls, p.stage.Live → ev.Observes → ev.taskID = p.taskID →
      p.After s.system.store ev) : Sequential { s with history := s.history ++ [ev] } where
  distinct := hi.distinct
  polled := List.forall_mem_append.2 ⟨hi.polled, by simpa using hpolled⟩
  times := List.forall_mem_append.2 ⟨hi.times, by simpa using htimes⟩
  precedes :=
    List.pairwise_append.2 ⟨hi.precedes, List.pairwise_singleton _ _, by simpa using hprec⟩
  timely := hi.timely
  after p hp hlive := List.forall_mem_append.2
    ⟨hi.after p hp hlive, by simpa using hafter p hp hlive⟩

/-- An event that is no observation is recorded. -/
theorem Sequential.append_other (hi : Sequential s) {ev : RawEvent} (hev : ¬ ev.Observes) :
    Sequential { s with history := s.history ++ [ev] } :=
  hi.append (absurd · hev) (absurd · hev) (fun _ _ _ ho => absurd ho hev)
    fun _ _ _ ho => absurd ho hev

theorem map_taskID_set_poll (hk : s.polls[k]? = some p) (stage : PollStage) :
    (s.polls.set k { p with stage := stage }).map TracedPoll.taskID =
      s.polls.map TracedPoll.taskID := by
  obtain ⟨hlt, rfl⟩ := List.getElem?_eq_some_iff.1 hk
  have hlt' : k < (s.polls.map TracedPoll.taskID).length := by simpa using hlt
  simpa [List.map_set] using List.set_getElem_self hlt'

/-- A thread takes a step. -/
theorem Sequential.advance (hi : Sequential s) (hk : s.polls[k]? = some p) (hclock : s.clock ≤ now)
    {stage : PollStage} (htimely : TracedPoll.Timely s.system.store now ⟨p.taskID, stage⟩)
    (hafter : stage.Live → ∀ a ∈ s.history, a.Observes → a.taskID = p.taskID →
      TracedPoll.After s.system.store ⟨p.taskID, stage⟩ a) :
    Sequential { s with polls := s.polls.set k { p with stage := stage }, clock := now } where
  distinct := by
    rw [map_taskID_set_poll hk]
    exact hi.distinct
  polled a ha hobs := by
    rw [map_taskID_set_poll hk]
    exact hi.polled a ha hobs
  times a ha hobs := (hi.times a ha hobs).imp_right hclock.trans'
  precedes := hi.precedes
  timely := forall_mem_set (fun q hq => (hi.timely q hq).extend le_rfl hclock) htimely
  after := forall_mem_set hi.after hafter

/-- The pipeline takes a step. -/
theorem Sequential.pipeline (hi : Sequential s) {system : System}
    (hle : ∀ t, floor s.system.store t ≤ floor system.store t) :
    Sequential { s with system := system } where
  distinct := hi.distinct
  polled := hi.polled
  times := hi.times
  precedes := hi.precedes
  timely p hp := (hi.timely p hp).extend (hle _) le_rfl
  after p hp hlive a ha hobs htask := (hi.after p hp hlive a ha hobs htask).extend (hle _)

/-- A thread for another task starts. -/
theorem Sequential.start (hi : Sequential s) {taskID : String}
    (hnew : ∀ p ∈ s.polls, p.taskID ≠ taskID) :
    Sequential { s with polls := s.polls ++ [⟨taskID, .waiting⟩] } where
  distinct := by
    rw [List.map_append]
    refine List.nodup_append'.2 ⟨hi.distinct, List.nodup_singleton _, ?_⟩
    simpa using hnew
  polled a ha hobs := by
    rw [List.map_append]
    exact List.mem_append_left _ (hi.polled a ha hobs)
  times := hi.times
  precedes := hi.precedes
  timely := List.forall_mem_append.2
    ⟨hi.timely, by simpa using ⟨by simp, by simp, by simp⟩⟩
  after := by
    refine List.forall_mem_append.2 ⟨hi.after, ?_⟩
    intro p hp _ a ha hobs htask
    rw [List.mem_singleton.1 hp] at htask
    obtain ⟨q, hq, heq⟩ := List.mem_map.1 (hi.polled a ha hobs)
    exact absurd (heq.trans htask) (hnew q hq)

/-- A poll is recorded: it came after the polls of its task that were recorded before, and unless it
is the last one, what it saw bounds the code from below. -/
theorem Sequential.observe (hi : Sequential s) (hk : s.polls[k]? = some p) (hclock : s.clock ≤ now)
    {callNs returnNs : ℤ} {status : TaskStatus} (hst : p.stage = .returned callNs returnNs status) :
    Sequential { s with
      polls := s.polls.set k { p with
        stage := if status = .completed ∨ status = .failed then .terminal status else .waiting }
      clock := now
      history := s.history ++
        [⟨"poll_observe", p.taskID, callNs, returnNs, statusText status⟩] } := by
  have hp := List.mem_of_getElem? hk
  have hafter := hi.after p hp (by simp [hst])
  obtain ⟨hle, hret⟩ := (hi.timely p hp).ret returnNs (by simp [hst]) callNs (by simp [hst])
  have hfloor := (hi.timely p hp).floor status (by simp [hst])
  have hadv : Sequential { s with
      polls := s.polls.set k { p with
        stage := if status = .completed ∨ status = .failed then .terminal status else .waiting }
      clock := now } := by
    refine hi.advance hk hclock ?_ fun _ a ha hobs htask => ?_
    · split_ifs <;> exact ⟨by simp, by simp, by simp⟩
    · split_ifs <;> exact ⟨(hafter a ha hobs htask).floor, by simp, by simp⟩
  refine hadv.append ?_ ?_ ?_ ?_
  · intro _
    rw [map_taskID_set_poll hk]
    exact List.mem_map_of_mem hp
  · exact fun _ => ⟨hle, hret.trans hclock⟩
  · intro a ha hobs _ htask
    have hold := hafter a ha hobs htask
    exact ⟨hold.call callNs (by simp [hst]), by simpa using hold.seen status (by simp [hst])⟩
  · intro q hq hlive _ htask
    -- the threads of other tasks do not mind
    have hset := List.mem_set (List.getElem?_eq_some_iff.1 hk).1 { p with
      stage := if status = .completed ∨ status = .failed then .terminal status else .waiting }
    obtain rfl := List.inj_on_of_nodup_map hadv.distinct hq hset htask.symm
    split_ifs at hlive ⊢ with hend
    · exact hlive.elim
    · have hcode : status.code ≤ 2 := by cases status <;> simp_all [TaskStatus.code]
      refine ⟨?_, by simp, by simp⟩
      rw [statusCode_statusText]
      exact (le_min hcode le_rfl).trans hfloor

theorem Sequential.poll (hi : Sequential s) (hk : s.polls[k]? = some p) (hclock : s.clock ≤ now)
    (ok : Bool) :
    Sequential { s with
      polls := s.polls.set k { p with stage := (p.step s.system.store now ok).1 }
      clock := now
      history := s.history ++ (p.step s.system.store now ok).2 } := by
  have hp := List.mem_of_getElem? hk
  have ht := hi.timely p hp
  have hafter := hi.after p hp
  cases hst : p.stage with
  | waiting =>
    simp only [TracedPoll.step, hst, List.append_nil]
    refine hi.advance hk hclock ⟨by simp, by simp, by simp⟩ fun _ a ha hobs htask => ?_
    have hold := hafter (by simp [hst]) a ha hobs htask
    exact ⟨hold.floor, by simpa using (hi.times a ha hobs).2.trans hclock, by simp⟩
  | called callNs =>
    simp only [TracedPoll.step, hst, List.append_nil]
    have hcall : callNs ≤ now := (ht.call callNs (by simp [hst])).trans hclock
    cases ok with
    | false => exact hi.advance hk hclock ⟨by simp, by simp, by simp⟩ False.elim
    | true =>
      refine hi.advance hk hclock ⟨by simpa using hcall, by simp, ?_⟩ fun _ a ha hobs htask => ?_
      · intro status hread
        exact (min_le_min_left 2 (Store.code_eq hread).ge)
      · have hold := hafter (by simp [hst]) a ha hobs htask
        refine ⟨hold.floor, by simpa using hold.call callNs (by simp [hst]), fun status hread => ?_⟩
        rw [← Store.code_eq hread]
        exact hold.floor.trans (floor_le_code _ _)
  | read callNs status =>
    have hcall : callNs ≤ now := (ht.call callNs (by simp [hst])).trans hclock
    cases status with
    | none =>
      simp only [TracedPoll.step, hst, List.append_nil]
      refine hi.advance hk hclock ⟨by simp, by simp, by simp⟩ fun _ a ha hobs htask => ?_
      exact ⟨(hafter (by simp [hst]) a ha hobs htask).floor, by simp, by simp⟩
    | some status =>
      simp only [TracedPoll.step, hst, List.append_nil]
      refine hi.advance hk hclock ⟨by simpa using hcall, by simpa using hcall, ?_⟩
        fun _ a ha hobs htask => ?_
      · simpa using ht.floor status (by simp [hst])
      · have hold := hafter (by simp [hst]) a ha hobs htask
        exact ⟨hold.floor, by simpa using hold.call callNs (by simp [hst]),
          by simpa using hold.seen status (by simp [hst])⟩
  | returned callNs returnNs status =>
    simp only [TracedPoll.step, hst]
    exact hi.observe hk hclock hst
  | terminal status =>
    simp only [TracedPoll.step, hst]
    exact (hi.advance hk hclock ⟨by simp, by simp, by simp⟩ False.elim).append_other
      (not_observes (by simp))
  | stopped =>
    simp only [TracedPoll.step, hst, List.append_nil]
    exact hi.advance hk hclock ⟨by simp, by simp, by simp⟩ False.elim

theorem Sequential.step {s' : Bench} {ev : BenchEvent} {out : List (String × Dispatch.Output)}
    (hjson : json.Lawful) (hsound : Sound json s.system h) (hi : Sequential s)
    (hok : s.Admits members h ev) (hs : s.step json ev = some (s', out)) :
    Sound json s'.system (h ++ out) ∧ Sequential s' := by
  cases ev with
  | pipeline ev =>
    obtain ⟨⟨system, out'⟩, hsys, he⟩ := Option.map_eq_some_iff.1 hs
    cases he
    have hstep := System.step_inv hsys
    exact ⟨hsound.step hjson hok hstep, hi.pipeline (floor_le_step hsound.submitted hstep)⟩
  | submitted k =>
    simp only [Bench.step] at hs
    split at hs
    next c hk =>
      split_ifs at hs
      cases hs
      rw [List.append_nil]
      exact ⟨hsound, (hi.start (hok c hk)).append_other (not_observes (by simp))⟩
    next => cases hs
  | poll k now ok =>
    simp only [Bench.step] at hs
    split at hs <;> cases hs
    next p hk =>
      rw [List.append_nil]
      exact ⟨hsound, hi.poll hk hok ok⟩
  | timeout k =>
    simp only [Bench.step] at hs
    split at hs
    next p hk =>
      split_ifs at hs
      cases hs
      rw [List.append_nil]
      have hover : TracedPoll.Timely s.system.store s.clock ⟨p.taskID, .stopped⟩ :=
        ⟨by simp, by simp, by simp⟩
      have hadv := hi.advance hk le_rfl hover False.elim
      exact ⟨hsound, hadv.append_other (not_observes (by simp))⟩
    next => cases hs
  | record ev =>
    cases hs
    rw [List.append_nil]
    exact ⟨hsound, hi.append_other (not_observes hok)⟩

end Keep

/-! ## Runs -/

section Run

variable {json : Json} {members : List String} {s : Bench} {clock : ℤ}
  {h : List (String × Dispatch.Output)}

theorem sequential_boot (members : List String) (clock : ℤ) :
    Sequential (Bench.boot members clock) where
  distinct := List.nodup_nil
  polled := nofun
  times := nofun
  precedes := .nil
  timely := nofun
  after := nofun

theorem sequential_run (hjson : json.Lawful)
    (r : Run (Bench.step json) (Bench.Admits members) (Bench.boot members clock) [] s h) :
    Sound json s.system h ∧ Sequential s :=
  r.invariant (I := fun s h => Sound json s.system h ∧ Sequential s)
    ⟨sound_boot json members, sequential_boot members clock⟩
    fun _ _ _ _ _ hi hok hs => hi.2.step hjson hi.1 hok hs

/-- Of two polls, the one that is recorded later neither saw less nor ended earlier. -/
theorem Sequential.not_backward (hi : Sequential s) :
    ¬ ∃ a ∈ s.history, ∃ b ∈ s.history, Backward a b := by
  rintro ⟨a, ha, b, hb, hoa, hob, htask, hlt, hcode⟩
  have hta := hi.times a ha hoa
  have htb := hi.times b hb hob
  obtain ⟨i, hi', rfl⟩ := List.mem_iff_getElem.1 ha
  obtain ⟨j, hj', rfl⟩ := List.mem_iff_getElem.1 hb
  have hpair := List.pairwise_iff_getElem.1 hi.precedes
  rcases lt_trichotomy i j with hij | rfl | hji
  · exact absurd (hpair i j hi' hj' hij hoa hob htask).2 (not_le.2 hcode)
  · exact absurd hcode (lt_irrefl _)
  · have hle := (hpair j i hj' hi' hji hob hoa htask.symm).1
    omega

/-- **`lincheck` finds every run linearizable**: whatever the pipeline does, and whatever else is
recorded, the verdict on the history of the experiment is that no poll goes backward. -/
theorem polls_linearizable {env : Env} (hjson : json.Lawful) (henv : env.Lawful)
    (r : Run (Bench.step json) (Bench.Admits members) (Bench.boot members clock) [] s h)
    {lines : List String} (hlines : env.events lines = s.history) :
    ∃ res, env.main (.ok ⟨lines, none⟩) = .ok res ∧ res.linearizable = true := by
  have hi := (sequential_run hjson r).2
  obtain ⟨groups, res, -, hmain, hlin, -⟩ := verdict_iff henv lines (by
    rw [hlines]
    exact fun ev hev hobs => (hi.times ev hev hobs).1)
  refine ⟨res, hmain, hlin.2 ?_⟩
  rw [hlines]
  exact hi.not_backward

end Run

/-- What is recorded below, with the lines of the file. -/
def recorded : List (String × RawEvent) :=
  [("\x7b\"op\": \"submit\", \"task_id\": \"t1\", \"submitted_ns\": 5\x7d",
    ⟨"submit", "t1", 0, 0, ""⟩),
   ("\x7b\"op\": \"poll_observe\", \"task_id\": \"t1\", \"call_ns\": 10, \"return_ns\": 20, " ++
      "\"status\": \"ASSIGNED\"\x7d",
    ⟨"poll_observe", "t1", 10, 20, "ASSIGNED"⟩),
   ("\x7b\"op\": \"chaos.skip\", \"fault\": \"kill_leader\"\x7d", ⟨"chaos.skip", "", 0, 0, ""⟩),
   ("\x7b\"op\": \"poll_observe\", \"task_id\": \"t1\", \"call_ns\": 30, \"return_ns\": 40, " ++
      "\"status\": \"ASSIGNED\"\x7d",
    ⟨"poll_observe", "t1", 30, 40, "ASSIGNED"⟩)]

/-- A worker fails on the task after it was seen as assigned. -/
def polledFailed : List BenchEvent :=
  taskPublished.map .pipeline ++ [.submitted 0] ++
    [.pipeline (.receive "w1" assignmentBody), .pipeline (.work 0 .ok ""),
      .pipeline (.work 0 .ok ""), .poll 0 10 true, .poll 0 15 true, .poll 0 20 true,
      .poll 0 25 true, .pipeline (.work 0 .failed "timeout"), .pipeline (.work 0 .ok "")]

/-- Another worker takes it back to assigned before the next poll. -/
def polledAgain : List BenchEvent :=
  [.pipeline (.receive "w2" assignmentBody), .pipeline (.work 1 .ok ""),
    .pipeline (.work 1 .ok ""), .record ⟨"chaos.skip", "", 0, 0, ""⟩, .poll 0 30 true,
    .poll 0 35 true, .poll 0 40 true, .poll 0 45 true]

/-- The task goes back from failed to assigned between two polls. -/
theorem polls_linearizable_of_redelivery : ∃ s h s' h', submittedJson.Lawful ∧
    (tabulated recorded).Lawful ∧
    Run (Bench.step submittedJson) (Bench.Admits ["a", "b", "c"])
      (Bench.boot ["a", "b", "c"] 0) [] s h ∧
    Run (Bench.step submittedJson) (Bench.Admits ["a", "b", "c"]) s h s' h' ∧
    (s.system.store.item "t1").status = some .failed ∧
    (s'.system.store.item "t1").status = some .assigned ∧
    (tabulated recorded).events (recorded.map Prod.fst) = s'.history ∧
    ∃ res, (tabulated recorded).main (.ok ⟨recorded.map Prod.fst, none⟩) = .ok res ∧
      res.linearizable = true := by
  obtain ⟨s, h, s', h', r, r', hf, ha, hhist⟩ := exists_runs_of_exec (Bench.step submittedJson)
    (Bench.Admits ["a", "b", "c"]) (Bench.boot ["a", "b", "c"] 0) [] polledFailed polledAgain
    (fun s s' => (s.system.store.item "t1").status = some .failed ∧
      (s'.system.store.item "t1").status = some .assigned ∧
      s'.history = recorded.map Prod.snd) (by decide +kernel)
  have hlines : (tabulated recorded).events (recorded.map Prod.fst) = s'.history := by
    rw [hhist]
    decide +kernel
  exact ⟨s, h, s', h', submittedJson_lawful, tabulated_lawful recorded, r, r', hf, ha, hlines,
    polls_linearizable submittedJson_lawful (tabulated_lawful recorded) (r.trans r') hlines⟩

end Driftless.Lincheck
