import Driftless.Pipeline.Drain
import Driftless.Pipeline.Results

/-!
# No task is lost

A worker that fails, or dies, leaves the message of its task on the queue, and a coordinator that
fails leaves the task pending, where `recoverOrphans` finds it. So a task is pending, completed, or
has an assignment message that no worker has deleted (`unfinished_published`). And a delivery of
such a message, whatever happened to the task before, takes it to completed if no call of the worker
fails: `delivery_completes`.
-/

namespace Driftless.Pipeline

open Raft Dispatch

/-! ## Published tasks -/

/-- There is an assignment message for the task. -/
def Published (json : Json) (s : System) (t : String) : Prop :=
  ∃ body ∈ s.assignments, ∃ a, json.unmarshalAssignment body = some a ∧ a.taskID = t

/-- What is marked or worked on was published, and a message is deleted only once its task is
completed. -/
structure Tracked (json : Json) (s : System) : Prop where
  status : ∀ t ∈ s.store.tasks, (s.store.item t).status ≠ none
  unfinished : ∀ t status, (s.store.item t).status = some status → status ≠ .pending →
    Published json s t
  marks : ∀ t ∈ s.marks, Published json s t
  workers : ∀ c ∈ s.workers, Published json s c.assignment.taskID
  deleted : ∀ c ∈ s.workers, c.stage = .completed ∨ c.stage = .deleted →
    (s.store.item c.assignment.taskID).status = some .completed

section Step

variable {json : Json} {members : List String} {s s' : System} {ev : Event}
  {h out : List (String × Dispatch.Output)}

theorem System.Step.assignments_subset (hs : System.Step json s ev s' out) :
    s.assignments ⊆ s'.assignments := by
  cases hs with
  | submitCall k r c _ hk hstep =>
    unfold System.stepSubmit at hstep
    split at hstep <;> cases hstep <;> exact List.Subset.refl _
  | coordinator => exact List.subset_append_left _ _
  | _ => exact List.Subset.refl _

theorem Published.step {t : String} (hp : Published json s t)
    (hs : System.Step json s ev s' out) : Published json s' t := by
  obtain ⟨body, hb, hrest⟩ := hp
  exact ⟨body, hs.assignments_subset hb, hrest⟩

/-- A write that takes a task on is that of `markAssigned`, or of a worker. -/
theorem Tracked.published_of_issues (ht : Tracked json s) {w : Write} {r : CallResult}
    {status : TaskStatus} {key : Option String} {t : String} (hw : s.Issues ev w r)
    (hset : s.store.Sets t w status key) (hne : status ≠ .pending) : Published json s t := by
  cases hset with
  | putItem => exact absurd rfl hne
  | updateStatus status key hst =>
    cases hw with
    | worker k err c hk _ hw =>
      rw [hw.task_eq rfl]
      exact ht.workers c (List.mem_of_getElem? hk)
  | markAssigned hst =>
    cases hw with
    | mark k taskID hk => exact ht.marks t (List.mem_of_getElem? hk)
    | worker k err c hk _ hw =>
      rw [hw.task_eq rfl]
      exact ht.workers c (List.mem_of_getElem? hk)

/-- Every item has a status: only `handleSubmitTask` makes one. -/
theorem Tracked.status_step (ht : Tracked json s) (hi : Resolves json s.store s h)
    (hsub : Submitted s) (hs : System.Step json s ev s' out) :
    ∀ t ∈ s'.store.tasks, (s'.store.item t).status ≠ none := by
  intro t hmem
  rcases hsub.step_status hs t with ⟨hst, -⟩ | ⟨-, -, status, -, -, -, -, hst, -⟩
  · rw [hst]
    by_cases hold : t ∈ s.store.tasks
    · exact ht.status t hold
    · -- a new item has the status it was written with
      rcases hs.store with he | ⟨w, r, hw, he⟩
      · exact absurd (he ▸ hmem) hold
      · rw [he] at hmem
        have hwt := (mem_perform hmem).resolve_left hold
        obtain ⟨k, -, c, hc, hstage, rfl, rfl⟩ := (hi.task_of_issues hw hwt).resolve_left hold
        rcases s.store.perform_cases (.putItem c.taskID c.priority (payloadKey c.taskID)) r with
          heq | ⟨-, -, heq⟩
        · rw [heq] at hmem
          exact absurd hmem hold
        · rw [he, heq] at hst
          rw [← hst]
          simp [Store.write]
  · rw [hst]
    exact Option.some_ne_none status

/-- A worker is past its last update only if it was carried out. -/
theorem WorkerCall.step_completed {c : WorkerCall} {st st' : Store} {r : CallResult}
    {err : String} {stage : WorkerStage} (hs : c.step st r err = some (st', stage))
    (hold : c.stage = .completed ∨ c.stage = .deleted →
      (st.item c.assignment.taskID).status = some .completed)
    (hnew : stage = .completed ∨ stage = .deleted) :
    (st'.item c.assignment.taskID).status = some .completed := by
  cases hst : c.stage with
  | uploaded =>
    simp only [WorkerCall.step, hst, Option.some.injEq, Prod.mk.injEq] at hs
    obtain ⟨rfl, rfl⟩ := hs
    have hok : (st.perform (.updateStatus c.assignment.taskID .completed
        (resultKey c.assignment.taskID)) r).2 = true := by
      by_contra hno
      simp [hno] at hnew
    rw [(Store.perform_of_ok hok).2]
    simp [Store.write]
  | completed =>
    simp only [WorkerCall.step, hst, Option.some.injEq, Prod.mk.injEq] at hs
    obtain ⟨rfl, rfl⟩ := hs
    exact hold (.inl hst)
  | assigned =>
    simp only [WorkerCall.step, hst] at hs
    split at hs <;> cases hs <;> simp at hnew
  | deleted | returned => simp [WorkerCall.step, hst] at hs
  | received | failing _ =>
    simp only [WorkerCall.step, hst, Option.some.injEq, Prod.mk.injEq] at hs
    obtain ⟨rfl, rfl⟩ := hs
    simp at hnew
  | counted | downloaded _ | executed _ =>
    simp only [WorkerCall.step, hst, Option.some.injEq, Prod.mk.injEq] at hs
    obtain ⟨rfl, rfl⟩ := hs
    split_ifs at hnew <;> simp at hnew

/-- What a coordinator published is on the queue. -/
theorem published_of_sent (hjson : json.Lawful) {i : String} {ev : Dispatch.Event}
    {lost : Bool} {c : Coordinator} {o : List Dispatch.Output} {a : AssignmentMessage}
    (ha : a ∈ o.filterMap Output.assignment) :
    Published json { s with
      coordinators := Function.update s.coordinators i c
      assignments := s.assignments ++
        (o.filterMap Output.assignment ++
          (lostAssignment (s.coordinators i) ev lost).toList).map json.marshalAssignment
      marks := s.marks ++ (o.filterMap Output.assignment).map AssignmentMessage.taskID }
      a.taskID := by
  refine ⟨json.marshalAssignment a, ?_, a, hjson.assignment a, rfl⟩
  exact List.mem_append_right _ (List.mem_map_of_mem (List.mem_append_left _ ha))

theorem Tracked.step (ht : Tracked json s) (hjson : json.Lawful)
    (hi : Resolves json s.store s h) (hsub : Submitted s) (hok : s.Admits members h ev)
    (hs : System.Step json s ev s' out) : Tracked json s' := by
  have hmarks : ∀ t ∈ s.marks, Published json s' t := fun t hm => (ht.marks t hm).step hs
  have hworkers : ∀ c ∈ s.workers, Published json s' c.assignment.taskID :=
    fun c hc => (ht.workers c hc).step hs
  have hdeleted : ∀ c ∈ s.workers, c.stage = .completed ∨ c.stage = .deleted →
      (s'.store.item c.assignment.taskID).status = some .completed :=
    fun c hc hst => (hsub.completed_step hs (ht.deleted c hc hst)).1
  have hunfinished : ∀ t status, (s'.store.item t).status = some status → status ≠ .pending →
      Published json s' t := by
    intro t status hst hne
    rcases hsub.step_status hs t with ⟨hsame, -⟩ | ⟨w, r, status', key, hw, -, hset, hst', -⟩
    · exact (ht.unfinished t status (hsame ▸ hst) hne).step hs
    · obtain rfl := Option.some.inj (hst'.symm.trans hst)
      exact (ht.published_of_issues hw hset hne).step hs
  have hstatus := ht.status_step hi hsub hs
  cases hs with
  | submitCall k r c _ hk hstep =>
    unfold System.stepSubmit at hstep
    split at hstep <;> cases hstep <;>
      exact ⟨hstatus, hunfinished, hmarks, hworkers, hdeleted⟩
  | coordinator i ev stale lost c o hstep =>
    refine ⟨hstatus, hunfinished, fun t hm => ?_, hworkers, hdeleted⟩
    rcases List.mem_append.1 hm with hold | hnew
    · exact hmarks t hold
    · obtain ⟨a, ha, rfl⟩ := List.mem_map.1 hnew
      exact published_of_sent hjson ha
  | receive workerID body a ha =>
    refine ⟨hstatus, hunfinished, hmarks, fun c hc => ?_, fun c hc hst => ?_⟩
    · rcases List.mem_append.1 hc with hold | hnew
      · exact hworkers c hold
      · rw [List.mem_singleton.1 hnew]
        exact ⟨body, hok, a, ha, rfl⟩
    · rcases List.mem_append.1 hc with hold | hnew
      · exact hdeleted c hold hst
      · rw [List.mem_singleton.1 hnew] at hst
        simp at hst
  | work k r err c st stage hk hstep =>
    have hc := List.mem_of_getElem? hk
    refine ⟨hstatus, hunfinished, hmarks, forall_mem_set hworkers (hworkers c hc),
      forall_mem_set hdeleted fun hst => ?_⟩
    exact WorkerCall.step_completed (c := c) hstep (ht.deleted c hc) hst
  | _ => exact ⟨hstatus, hunfinished, hmarks, hworkers, hdeleted⟩

end Step

section Run

variable {json : Json} {members : List String} {s : System}
  {h : List (String × Dispatch.Output)}

theorem tracked_run (hjson : json.Lawful)
    (r : Run (System.step json) (System.Admits members) (System.boot members) [] s h) :
    Sound json s h ∧ Tracked json s := by
  refine r.invariant (I := fun s h => Sound json s h ∧ Tracked json s)
    ⟨sound_boot json members, nofun, fun t status hst => ?_, nofun, nofun, nofun⟩ ?_
  · cases hst
  · intro s h ev s' out ⟨hi, ht⟩ hok hs
    have hstep := System.step_inv hs
    exact ⟨hi.step hjson hok hstep, ht.step hjson hi.resolves hi.submitted hok hstep⟩

/-- A task that is not pending was published with the key of its payload. -/
theorem Tracked.assignment (htr : Tracked json s) (hi : Sound json s h) {t : String}
    {status : TaskStatus} (ht : t ∈ s.store.tasks)
    (hst : (s.store.item t).status = some status) (hp : status ≠ .pending) :
    ∃ body ∈ s.assignments, ∃ a, json.unmarshalAssignment body = some a ∧ a.taskID = t ∧
      a.s3Key = payloadKey t := by
  obtain ⟨body, hb, a, ha, rfl⟩ := htr.unfinished t status hst hp
  obtain ⟨a', ha', hn⟩ := hi.resolves.assignments body hb
  obtain rfl := Option.some.inj (ha.symm.trans ha')
  refine ⟨body, hb, a, ha, rfl, ?_⟩
  exact Option.some.inj (hn.2.symm.trans (hi.submitted.keys _ ht).1)

/-- **No task is lost**: every task of the table is pending, completed, or has an assignment
message, with its key, while no worker has deleted a message of it. -/
theorem unfinished_published (hjson : json.Lawful)
    (r : Run (System.step json) (System.Admits members) (System.boot members) [] s h)
    {t : String} (ht : t ∈ s.store.tasks) :
    (s.store.item t).status = some .pending ∨ (s.store.item t).status = some .completed ∨
      ((∃ body ∈ s.assignments, ∃ a, json.unmarshalAssignment body = some a ∧ a.taskID = t ∧
        a.s3Key = payloadKey t) ∧
        ∀ c ∈ s.workers, c.assignment.taskID = t → c.stage ≠ .deleted) := by
  obtain ⟨hi, htr⟩ := tracked_run hjson r
  obtain ⟨status, hst⟩ := Option.ne_none_iff_exists'.1 (htr.status t ht)
  by_cases hp : status = .pending
  · exact .inl (hp ▸ hst)
  by_cases hc : status = .completed
  · exact .inr (.inl (hc ▸ hst))
  · refine .inr (.inr ⟨htr.assignment hi ht hst hp, fun c hcw heq hdel => ?_⟩)
    have hdone := htr.deleted c hcw (.inr hdel)
    rw [heq, hst] at hdone
    exact hc (Option.some.inj hdone)

end Run

/-! ## A delivery without failures -/

/-- The calls of a worker, none of which fails, lead to this stage and store. -/
def WorkerCall.Works (c : WorkerCall) (st : Store) (stage : WorkerStage) (st' : Store) : Prop :=
  Relation.ReflTransGen
    (fun x y => { c with stage := x.1 }.step x.2 .ok "" = some (y.2, y.1))
    (c.stage, st) (stage, st')

section Works

variable {json : Json} {members : List String} {s : System}
  {h : List (String × Dispatch.Output)} {c : WorkerCall} {st st' : Store} {stage : WorkerStage}

/-- The system lets the worker do its calls one after the other. -/
theorem WorkerCall.Works.run (hw : c.Works s.store stage st') {k : ℕ}
    (hk : s.workers[k]? = some c) :
    Run (System.step json) (System.Healthy members) s h
      { s with store := st', workers := s.workers.set k { c with stage := stage } } h := by
  obtain ⟨hlt, hget⟩ := List.getElem?_eq_some_iff.1 hk
  suffices hrun : ∀ x, Relation.ReflTransGen
      (fun x y => { c with stage := x.1 }.step x.2 .ok "" = some (y.2, y.1))
      (c.stage, s.store) x → Run (System.step json) (System.Healthy members) s h
        { s with store := x.2, workers := s.workers.set k { c with stage := x.1 } } h from
    hrun (stage, st') hw
  intro x hx
  induction hx with
  | refl =>
    have hsame : s.workers.set k { c with stage := c.stage } = s.workers := by
      rw [← hget]
      exact List.set_getElem_self hlt
    rw [hsame]
    exact .refl
  | @tail x y _ hstep ih =>
    have hk' : (s.workers.set k { c with stage := x.1 })[k]? = some { c with stage := x.1 } := by
      simp [hlt]
    have hnext : System.step json { s with
          store := x.2
          workers := s.workers.set k { c with stage := x.1 } } (.work k .ok "") =
        some ({ s with
          store := y.2
          workers := s.workers.set k { c with stage := y.1 } }, []) := by
      simp only [System.step, hk', hstep, List.set_set]
    have hok : System.Healthy members { s with
          store := x.2
          workers := s.workers.set k { c with stage := x.1 } } h (.work k .ok "") :=
      ⟨trivial, rfl⟩
    have hrun := ih.tail hok hnext
    rwa [List.append_nil] at hrun

/-- **The five steps of `processTask`**, for a task that is not completed and whose payload is in
the bucket. -/
theorem WorkerCall.works_of_received (hst : c.stage = .received)
    (hne : (st.item c.assignment.taskID).status ≠ some .completed) {payload : Bytes}
    (hp : st.objects.lookup c.assignment.s3Key = some payload) :
    ∃ st', c.Works st .deleted st' ∧
      (st'.item c.assignment.taskID).status = some .completed ∧
      (st'.item c.assignment.taskID).resultKey = some (resultKey c.assignment.taskID) ∧
      st'.objects.lookup (resultKey c.assignment.taskID) =
        some (execute c.workerID c.assignment.taskID payload) := by
  let st₁ := st.write (.incrementReceiveCount c.assignment.taskID)
  let st₂ := st₁.write (.updateStatus c.assignment.taskID .assigned "")
  let st₃ := st₂.write (.putObject (resultKey c.assignment.taskID)
    (execute c.workerID c.assignment.taskID payload))
  let st₄ := st₃.write (.updateStatus c.assignment.taskID .completed
    (resultKey c.assignment.taskID))
  have hacc : st₁.accepts (.updateStatus c.assignment.taskID .assigned "") := by
    simpa [st₁, Store.accepts, Store.write] using hne
  have hacc' : st₃.accepts (.updateStatus c.assignment.taskID .completed
      (resultKey c.assignment.taskID)) := by
    simp [st₃, st₂, Store.accepts, Store.write, Store.item]
  have hp' : st₂.objects.lookup c.assignment.s3Key = some payload := hp
  refine ⟨st₄, ?_, ?_, ?_, ?_⟩
  · unfold WorkerCall.Works
    rw [hst]
    refine ((((((Relation.ReflTransGen.single (b := (.counted, st₁)) ?_).tail
      (c := (.assigned, st₂)) ?_).tail (c := (.downloaded payload, st₂)) ?_).tail
      (c := (.executed (execute c.workerID c.assignment.taskID payload), st₂)) ?_).tail
      (c := (.uploaded, st₃)) ?_).tail (c := (.completed, st₄)) ?_).tail ?_
    · simp [WorkerCall.step, Store.perform, Store.accepts, st₁]
    · simp [WorkerCall.step, Store.perform, hacc, st₂]
    · simp [WorkerCall.step, hp']
    · simp [WorkerCall.step]
    · simp [WorkerCall.step, Store.perform, Store.accepts, st₃]
    · simp [WorkerCall.step, Store.perform, hacc', st₄]
    · rfl
  · simp [st₄, Store.write]
  · simp [st₄, Store.write, resultKey_ne]
  · simp [st₄, st₃, Store.write]

/-- **A delivery completes its task**: in every state of a run, if a worker receives a message of a
task that is not completed and none of its calls fails, the task is completed, its result in the
bucket is that of the payload it was submitted with, and the message is deleted. -/
theorem delivery_completes (hjson : json.Lawful)
    (r : Run (System.step json) (System.Admits members) (System.boot members) [] s h)
    {body : String} (hb : body ∈ s.assignments) {a : AssignmentMessage}
    (ha : json.unmarshalAssignment body = some a)
    (hne : (s.store.item a.taskID).status ≠ some .completed) (workerID : String) :
    ∃ payload s', Sent s a.taskID payload ∧
      s.store.objects.lookup (payloadKey a.taskID) = some payload ∧
      Run (System.step json) (System.Healthy members) s h s' h ∧
      s'.workers = s.workers ++ [⟨workerID, a, .deleted⟩] ∧
      (s'.store.item a.taskID).status = some .completed ∧
      (s'.store.item a.taskID).resultKey = some (resultKey a.taskID) ∧
      s'.store.objects.lookup (resultKey a.taskID) =
        some (execute workerID a.taskID payload) := by
  obtain ⟨hi, htraced⟩ := traced_run hjson r
  obtain ⟨a', ha', hn⟩ := hi.resolves.assignments body hb
  obtain rfl := Option.some.inj (ha.symm.trans ha')
  obtain ⟨hkey, hobj⟩ := hi.submitted.keys _ hn.1
  obtain ⟨payload, hp⟩ := Option.isSome_iff_exists.1 (AList.lookup_isSome.2 hobj)
  have hs3 : a.s3Key = payloadKey a.taskID := Option.some.inj (hn.2.symm.trans hkey)
  obtain ⟨st', hworks, hst, hres, hbody⟩ := WorkerCall.works_of_received
    (c := ⟨workerID, a, .received⟩) rfl hne (hs3 ▸ hp)
  have hreceive : s.step json (.receive workerID body) =
      some ({ s with workers := s.workers ++ [⟨workerID, a, .received⟩] }, []) := by
    simp only [System.step, ha]
  have hok : System.Healthy members s h (.receive workerID body) := ⟨hb, trivial⟩
  have hrun : Run (System.step json) (System.Healthy members) s h
      { s with workers := s.workers ++ [⟨workerID, a, .received⟩] } (h ++ []) :=
    Run.refl.tail hok hreceive
  rw [List.append_nil] at hrun
  have hk : (s.workers ++ [(⟨workerID, a, .received⟩ : WorkerCall)])[s.workers.length]? =
      some ⟨workerID, a, .received⟩ := by simp
  have hfinish : Run (System.step json) (System.Healthy members)
      { s with workers := s.workers ++ [⟨workerID, a, .received⟩] } h _ h :=
    WorkerCall.Works.run (s := { s with workers := s.workers ++ [⟨workerID, a, .received⟩] })
      hworks hk
  refine ⟨payload, _, htraced.payloads _ payload hp, hp, hrun.trans hfinish, ?_, hst, hres, hbody⟩
  simp

end Works

/-! ## A failed task -/

/-- The state after a worker failed on the task. -/
theorem exists_failed : ∃ s h,
    Run (System.step submittedJson) (System.Admits ["a", "b", "c"]) (System.boot ["a", "b", "c"])
      [] s h ∧
    "t1" ∈ s.store.tasks ∧ (s.store.item "t1").status = some .failed ∧
      s.assignments = [assignmentBody] :=
  exists_run_of_exec (System.step submittedJson) (System.Admits ["a", "b", "c"])
    (System.boot ["a", "b", "c"]) [] (taskPublished ++ taskFailed)
    (fun s _ => "t1" ∈ s.store.tasks ∧ (s.store.item "t1").status = some .failed ∧
      s.assignments = [assignmentBody]) (by decide +kernel)

theorem unfinished_published_of_failure : ∃ s : System, submittedJson.Lawful ∧
    (s.store.item "t1").status = some .failed ∧
    (∃ body ∈ s.assignments, ∃ a, submittedJson.unmarshalAssignment body = some a ∧
      a.taskID = "t1" ∧ a.s3Key = payloadKey "t1") ∧
    ∀ c ∈ s.workers, c.assignment.taskID = "t1" → c.stage ≠ .deleted := by
  obtain ⟨s, h, r, ht, hst, -⟩ := exists_failed
  refine ⟨s, submittedJson_lawful, hst, ?_⟩
  rcases unfinished_published submittedJson_lawful r ht with hp | hc | hrest
  · rw [hst] at hp
    cases hp
  · rw [hst] at hc
    cases hc
  · exact hrest

theorem delivery_completes_of_failure : ∃ s s' : System, submittedJson.Lawful ∧
    (s.store.item "t1").status = some .failed ∧ (s'.store.item "t1").status = some .completed := by
  obtain ⟨s, h, r, -, hst, has⟩ := exists_failed
  obtain ⟨payload, s', -, -, -, -, hdone, -⟩ := delivery_completes submittedJson_lawful r
    (a := ⟨"t1", 1, "tasks/t1/payload"⟩)
    (has ▸ List.mem_singleton_self assignmentBody) (by decide +kernel)
    (by rw [hst]; exact nofun) "w2"
  exact ⟨s, s', submittedJson_lawful, hst, hdone⟩

end Driftless.Pipeline
