import Driftless.Pipeline.Status

/-!
# Messages of completed tasks

A task can be delivered to a worker again after it is completed: it was published twice, or a worker
died before it deleted the message. The conditional update then refuses `ASSIGNED`, `processTask`
returns the error, and `poll` leaves the message on the queue, as after any other error. The
worker does no harm, but no such message is ever deleted: `duplicate_stays`.
-/

namespace Driftless.Pipeline

open Raft Dispatch

/-- No call to AWS fails, other than by its condition. -/
def System.Healthy (members : List String) (s : System) (h : List (String × Dispatch.Output))
    (ev : Event) : Prop :=
  s.Admits members h ev ∧
    match ev with
    | .submitCall _ r | .republish _ r | .markAssigned _ r | .work _ r _ => r = .ok
    | .coordinator _ ev stale lost =>
      ev ≠ .lookupS3Key false ∧ ev ≠ .sendMessage false ∧ stale = false ∧ lost = false
    | _ => True

instance (members : List String) (s : System) (h : List (String × Dispatch.Output)) (ev : Event) :
    Decidable (s.Healthy members h ev) := by
  rcases ev <;> dsimp only [System.Healthy] <;> infer_instance

/-- A worker is done with its message: `poll` returned. -/
def WorkerCall.Over (c : WorkerCall) : Prop := c.stage = .deleted ∨ c.stage = .returned

instance (c : WorkerCall) : Decidable c.Over := inferInstanceAs (Decidable (_ ∨ _))

/-- Nothing changes but the `receive_count` of the task. -/
structure OnlyCounts (taskID : String) (st st' : Store) : Prop where
  objects : st'.objects = st.objects
  item : ∃ n, st'.item taskID = { st.item taskID with receiveCount := n }
  others : ∀ t, t ≠ taskID → st'.item t = st.item t

theorem OnlyCounts.refl (taskID : String) (st : Store) : OnlyCounts taskID st st :=
  ⟨rfl, ⟨_, rfl⟩, fun _ _ => rfl⟩

/-- A worker with a message of a completed task has yet to count it, has yet to be refused, or was
refused. -/
def WorkerCall.Refused (c : WorkerCall) : Prop :=
  c.stage = .received ∨ c.stage = .counted ∨ c.stage = .returned

section Step

variable {json : Json} {members : List String} {s s' : System} {ev : Event}
  {h out : List (String × Dispatch.Output)} {c : WorkerCall} {st st' : Store}
  {r : CallResult} {err : String} {stage : WorkerStage}

/-- The conditional update refuses a completed task. -/
theorem perform_of_completed {t : String} (hc : (st.item t).status = some .completed)
    (status : TaskStatus) (key : String) :
    st.perform (.updateStatus t status key) r = (st, false) := by
  have hno : ¬ st.accepts (.updateStatus t status key) := by simp [Store.accepts, hc]
  simp [Store.perform, hno]

theorem onlyCounts_increment (t : String) :
    OnlyCounts t st (st.perform (.incrementReceiveCount t) r).1 := by
  rcases st.perform_cases (.incrementReceiveCount t) r with he | ⟨-, -, he⟩
  · rw [he]
    exact .refl t st
  · rw [he]
    refine ⟨rfl, ⟨_, st.item_setItem _⟩, fun t' ht' => Store.item_write_ne ?_⟩
    simpa [Write.task] using ht'.symm

/-- **A step with a message of a completed task**: the count, and then the refusal. -/
theorem WorkerCall.Refused.step (hr : c.Refused)
    (hc : (st.item c.assignment.taskID).status = some .completed)
    (hs : c.step st r err = some (st', stage)) :
    ({ c with stage := stage } : WorkerCall).Refused ∧ OnlyCounts c.assignment.taskID st st' := by
  rcases hr with hst | hst | hst
  · simp only [WorkerCall.step, hst, Option.some.injEq, Prod.mk.injEq] at hs
    obtain ⟨rfl, rfl⟩ := hs
    exact ⟨.inr (.inl rfl), onlyCounts_increment _⟩
  · simp only [WorkerCall.step, hst, perform_of_completed hc, Option.some.injEq,
      Prod.mk.injEq] at hs
    obtain ⟨rfl, rfl⟩ := hs
    exact ⟨.inr (.inr rfl), .refl _ _⟩
  · simp [WorkerCall.step, hst] at hs

/-- The worker at position `k` has a message for the completed task. -/
structure Holding (s : System) (k : ℕ) (a : AssignmentMessage) : Prop where
  completed : (s.store.item a.taskID).status = some .completed
  call : ∃ c, s.workers[k]? = some c ∧ c.assignment = a ∧ c.Refused

/-- A step of another program leaves the worker where it is. -/
theorem workers_step {k : ℕ} (hs : System.Step json s ev s' out)
    (hk : s.workers[k]? = some c) :
    s'.workers[k]? = some c ∨ ∃ r err st stage, ev = .work k r err ∧
      c.step s.store r err = some (st, stage) ∧ s'.store = st ∧
      s'.workers[k]? = some { c with stage := stage } := by
  have hlt := (List.getElem?_eq_some_iff.1 hk).1
  cases hs with
  | submitCall k' r' c' _ hk' hs =>
    unfold System.stepSubmit at hs
    split at hs <;> cases hs <;> exact .inl hk
  | receive workerID body a ha =>
    exact .inl (by rw [List.getElem?_append_left hlt, hk])
  | work k' r err c' st stage hk' hs =>
    by_cases heq : k' = k
    · subst heq
      obtain rfl := Option.some.inj (hk'.symm.trans hk)
      exact .inr ⟨r, err, st, stage, rfl, hs, rfl, by simp [hlt]⟩
    · exact .inl (by simpa [List.getElem?_set, heq] using hk)
  | _ => exact .inl hk

theorem Holding.step {k : ℕ} {a : AssignmentMessage} (hi : Holding s k a) (hsub : Submitted s)
    (hs : System.Step json s ev s' out) : Holding s' k a := by
  obtain ⟨c, hk, rfl, href⟩ := hi.call
  refine ⟨(hsub.completed_step hs hi.completed).1, ?_⟩
  rcases workers_step hs hk with hsame | ⟨r, err, st, stage, -, hstep, -, hnew⟩
  · exact ⟨c, hsame, rfl, href⟩
  · exact ⟨_, hnew, rfl, (href.step hi.completed hstep).1⟩

end Step

/-! ## Runs -/

/-- What draining asks of the worker at position `k`, from here on and while no call fails: when
`poll` returns the message is deleted, and all it changes is the count. -/
structure Drains (json : Json) (members : List String) (s : System)
    (h : List (String × Dispatch.Output)) (k : ℕ) (taskID : String) : Prop where
  deletes : ∀ s' h' c, Run (System.step json) (System.Healthy members) s h s' h' →
    s'.workers[k]? = some c → c.Over → c.stage = .deleted
  counts : ∀ s' h' err s'' out, Run (System.step json) (System.Healthy members) s h s' h' →
    s'.step json (.work k .ok err) = some (s'', out) → OnlyCounts taskID s'.store s''.store

section Run

variable {json : Json} {members : List String} {s s₁ s₂ : System} {k : ℕ} {a : AssignmentMessage}
  {h h₁ h₂ : List (String × Dispatch.Output)}

theorem holding_run (hjson : json.Lawful) (hsound : Sound json s₁ h₁) (hi : Holding s₁ k a)
    (r : Run (System.step json) (System.Admits members) s₁ h₁ s₂ h₂) : Holding s₂ k a := by
  have hinv := r.invariant (I := fun s h => Sound json s h ∧ Holding s k a) ⟨hsound, hi⟩ ?_
  · exact hinv.2
  · intro s h ev s' out ⟨hsd, hhold⟩ hok hs
    have hstep := System.step_inv hs
    exact ⟨hsd.step hjson hok hstep, hhold.step hsd.submitted hstep⟩

/-- All the worker does is count. -/
theorem Holding.onlyCounts (hi : Holding s k a) {r : CallResult} {err : String} {s' : System}
    {out : List (String × Dispatch.Output)} (hs : s.step json (.work k r err) = some (s', out)) :
    OnlyCounts a.taskID s.store s'.store := by
  obtain ⟨c, hk, rfl, href⟩ := hi.call
  cases System.step_inv hs with
  | work _ _ _ c' st stage hk' hstep =>
    obtain rfl := Option.some.inj (hk'.symm.trans hk)
    exact (href.step hi.completed hstep).2

/-- Two steps take the worker from the message to the end of `poll`. -/
theorem returns_of_received {workerID : String}
    (hk : s.workers[k]? = some ⟨workerID, a, .received⟩)
    (hc : (s.store.item a.taskID).status = some .completed) :
    ∃ s', Run (System.step json) (System.Healthy members) s h s' h ∧
      s'.workers[k]? = some ⟨workerID, a, .returned⟩ := by
  have hlt := (List.getElem?_eq_some_iff.1 hk).1
  let st := (s.store.perform (.incrementReceiveCount a.taskID) .ok).1
  let s' : System := { s with store := st, workers := s.workers.set k ⟨workerID, a, .counted⟩ }
  have hcount : s.step json (.work k .ok "") = some (s', []) := by
    simp [System.step, hk, WorkerCall.step, s', st]
  have hk' : s'.workers[k]? = some ⟨workerID, a, .counted⟩ := by simp [s', hlt]
  have hc' : (st.item a.taskID).status = some .completed := by
    have hcounts : OnlyCounts a.taskID s.store st := onlyCounts_increment a.taskID
    obtain ⟨n, hn⟩ := hcounts.item
    rw [hn]
    exact hc
  have hrefuse : s'.step json (.work k .ok "") =
      some ({ s' with workers := s'.workers.set k ⟨workerID, a, .returned⟩ }, []) := by
    simp only [System.step, hk', WorkerCall.step, s', perform_of_completed hc', Bool.false_eq_true,
      if_false]
  have healthy : ∀ s₀ h₀, System.Healthy members s₀ h₀ (.work k .ok "") :=
    fun _ _ => ⟨trivial, rfl⟩
  have r₀ : Run (System.step json) (System.Healthy members) s h s h := .refl
  have r₂ := (r₀.tail (healthy _ _) hcount).tail (healthy _ _) hrefuse
  rw [List.append_nil, List.append_nil] at r₂
  refine ⟨_, r₂, ?_⟩
  simp [s', hlt]

/-- **A message of a completed task is never deleted**, in any run: `poll` returns without doing it,
and changes nothing but the count. -/
theorem duplicate_stays (hjson : json.Lawful)
    (r : Run (System.step json) (System.Admits members) (System.boot members) [] s h)
    (workerID : String) {body : String} (hbody : body ∈ s.assignments)
    (ha : json.unmarshalAssignment body = some a)
    (hc : (s.store.item a.taskID).status = some .completed) :
    ∃ s₁, s.step json (.receive workerID body) = some (s₁, []) ∧
      ¬ Drains json members s₁ h s.workers.length a.taskID ∧
      ∀ s₂ h₂, Run (System.step json) (System.Admits members) s₁ h s₂ h₂ →
        (∃ c, s₂.workers[s.workers.length]? = some c ∧ c.assignment = a ∧ c.stage ≠ .deleted) ∧
        ∀ r err s₃ out, s₂.step json (.work s.workers.length r err) = some (s₃, out) →
          OnlyCounts a.taskID s₂.store s₃.store := by
  let s₁ : System := { s with workers := s.workers ++ [⟨workerID, a, .received⟩] }
  have hrecv : s.step json (.receive workerID body) = some (s₁, []) := by
    simp [System.step, ha, s₁]
  have hadmits : s.Admits members h (.receive workerID body) := hbody
  have hsound : Sound json s₁ h := by
    simpa using sound_run hjson (r.tail hadmits hrecv)
  have hk : s₁.workers[s.workers.length]? = some ⟨workerID, a, .received⟩ := by simp [s₁]
  have hold : Holding s₁ s.workers.length a := ⟨hc, _, hk, rfl, .inl rfl⟩
  refine ⟨s₁, hrecv, fun hd => ?_, fun s₂ h₂ r₂ => ?_⟩
  · obtain ⟨s₂, r₂, hend⟩ := returns_of_received hk hc
    cases hd.deletes s₂ h _ r₂ hend (.inr rfl)
  · have hi := holding_run hjson hsound hold r₂
    obtain ⟨c, hc₂, hca, href⟩ := hi.call
    refine ⟨⟨c, hc₂, hca, fun hdel => ?_⟩, fun r err s₃ out hs => hi.onlyCounts hs⟩
    simp [WorkerCall.Refused, hdel] at href

end Run

/-- `t1` is processed by `"w1"`; its message is on the queue for `"w2"`. -/
theorem duplicate_stays_of_redelivery : ∃ s h s₁, submittedJson.Lawful ∧
    Run (System.step submittedJson) (System.Admits ["a", "b", "c"]) (System.boot ["a", "b", "c"])
      [] s h ∧
    (assignmentBody ∈ s.assignments ∧ (s.store.item "t1").status = some .completed) ∧
    s.step submittedJson (.receive "w2" assignmentBody) = some (s₁, []) ∧
    ¬ Drains submittedJson ["a", "b", "c"] s₁ h s.workers.length "t1" := by
  obtain ⟨s, h, r, hbody, hc⟩ := exists_run_of_exec (System.step submittedJson)
    (System.Admits ["a", "b", "c"]) (System.boot ["a", "b", "c"]) []
    (taskPublished ++ taskProcessed)
    (fun s _ => assignmentBody ∈ s.assignments ∧ (s.store.item "t1").status = some .completed)
    (by decide +kernel)
  obtain ⟨s₁, hs, hno, -⟩ := duplicate_stays (a := ⟨"t1", 1, "tasks/t1/payload"⟩)
    submittedJson_lawful r "w2" hbody (by decide) hc
  exact ⟨s, h, s₁, submittedJson_lawful, r, ⟨hbody, hc⟩, hs, hno⟩

/-- **A duplicate is not drained**: `"w2"` receives the message of the completed task, is refused,
and returns without deleting it. -/
theorem duplicate_not_drained : ¬ ∀ (json : Json) (members : List String) (s s₁ : System)
    (h out : List (String × Dispatch.Output)) (workerID body : String) (a : AssignmentMessage),
    json.Lawful →
    Run (System.step json) (System.Healthy members) (System.boot members) [] s h →
    body ∈ s.assignments → json.unmarshalAssignment body = some a →
    (s.store.item a.taskID).status = some .completed →
    s.step json (.receive workerID body) = some (s₁, out) →
      Drains json members s₁ (h ++ out) s.workers.length a.taskID := by
  intro hall
  obtain ⟨s, h, r, hbody, hc⟩ := exists_run_of_exec (System.step submittedJson)
    (System.Healthy ["a", "b", "c"]) (System.boot ["a", "b", "c"]) []
    (taskPublished ++ taskProcessed)
    (fun s _ => assignmentBody ∈ s.assignments ∧ (s.store.item "t1").status = some .completed)
    (by decide +kernel)
  have ha : submittedJson.unmarshalAssignment assignmentBody =
      some ⟨"t1", 1, "tasks/t1/payload"⟩ := by decide
  let s₁ : System :=
    { s with workers := s.workers ++ [⟨"w2", ⟨"t1", 1, "tasks/t1/payload"⟩, .received⟩] }
  have hrecv : s.step submittedJson (.receive "w2" assignmentBody) = some (s₁, []) := by
    simp [System.step, ha, s₁]
  have hd := hall submittedJson ["a", "b", "c"] s s₁ h [] "w2" assignmentBody _
    submittedJson_lawful r hbody ha hc hrecv
  have hk : s₁.workers[s.workers.length]? =
      some ⟨"w2", ⟨"t1", 1, "tasks/t1/payload"⟩, .received⟩ := by simp [s₁]
  obtain ⟨s₂, r₂, hend⟩ := returns_of_received hk hc
  cases hd.deletes s₂ _ _ r₂ hend (.inr rfl)

end Driftless.Pipeline
