import Driftless.Pipeline.References

/-!
# The status of a task

Three programs write the status of an item, each under a condition of its own: `handleSubmitTask`
writes a new item, `markAssigned` takes a pending item or one without a status, and `updateStatus`
takes every item that is not completed. `Store.Sets` is what they can do to an item, and
`Submitted.step_status` says that a step does nothing else.

So a completed task stays as it is, and names a result that was stored before: `completed_final`.
But a failed task is not completed, and the next worker that receives its message takes it back to
assigned. `status_forward` says that this is the only way back.
-/

namespace Driftless.Pipeline

open Raft Dispatch

/-! ## What a write does to the status -/

namespace Store

variable {st st' : Store} {w : Write} {r : CallResult} {t : String}

/-- The writes that set the status of an item, with the status and the result key they leave. -/
inductive Sets (st : Store) (t : String) : Write → TaskStatus → Option String → Prop
  | putItem (priority : ℤ) (s3Key : String) (hnew : t ∉ st.tasks) :
      Sets st t (.putItem t priority s3Key) .pending none
  | updateStatus (status : TaskStatus) (key : String)
      (hst : (st.item t).status ≠ some .completed) :
      Sets st t (.updateStatus t status key) status
        (if key ≠ "" then some key else (st.item t).resultKey)
  | markAssigned (hst : (st.item t).status = none ∨ (st.item t).status = some .pending) :
      Sets st t (.markAssigned t) .assigned (st.item t).resultKey

theorem item_of_notMem (h : t ∉ st.tasks) : st.item t = .blank := by
  simp [item, AList.lookup_eq_none.2 h]

theorem write_status (hf : st.Fresh w) (hacc : st.accepts w) (t : String) :
    ((st.write w).item t).status = (st.item t).status ∧
        ((st.write w).item t).resultKey = (st.item t).resultKey ∨
      ∃ status key, st.Sets t w status key ∧ ((st.write w).item t).status = some status ∧
        ((st.write w).item t).resultKey = key := by
  by_cases ht : w.task = some t
  · cases w with
    | putObject key body => cases ht
    | putItem taskID priority s3Key =>
      cases ht
      exact .inr ⟨_, _, .putItem priority s3Key (hf _ _ _ rfl), by simp [write], by simp [write]⟩
    | updateStatus taskID status key =>
      cases ht
      exact .inr ⟨_, _, .updateStatus status key hacc, by simp [write], by simp [write]⟩
    | markAssigned taskID =>
      cases ht
      exact .inr ⟨_, _, .markAssigned hacc, by simp [write], by simp [write]⟩
    | incrementReceiveCount taskID =>
      cases ht
      exact .inl ⟨by simp [write], by simp [write]⟩
  · rw [item_write_ne ht]
    exact .inl ⟨rfl, rfl⟩

/-- Nothing sets the status of a completed task. -/
theorem Sets.status_ne_completed {status : TaskStatus} {key : Option String}
    (h : st.Sets t w status key) : (st.item t).status ≠ some .completed := by
  cases h with
  | putItem priority s3Key hnew => simp [item_of_notMem hnew, TaskItem.blank]
  | updateStatus _ _ hst => exact hst
  | markAssigned hst => rcases hst with hst | hst <;> simp [hst]

theorem code_eq {status : TaskStatus} (h : (st.item t).status = some status) :
    st.code t = status.code := by
  simp [code, h]

theorem code_le_three (st : Store) (t : String) : st.code t ≤ 3 := by
  cases hst : (st.item t).status with
  | none => simp [code, hst]
  | some status => cases status <;> simp [code_eq hst, TaskStatus.code]

/-- Only an update to a lower status than the one it finds takes a task back. -/
theorem Sets.code_le {status : TaskStatus} {key : Option String} (h : st.Sets t w status key)
    (hback : ∀ key, w = .updateStatus t .assigned key → (st.item t).status ≠ some .failed)
    (hpending : ∀ key, w ≠ .updateStatus t .pending key) : st.code t ≤ status.code := by
  cases h with
  | putItem priority s3Key hnew => simp [code, item_of_notMem hnew, TaskItem.blank]
  | markAssigned hst => rcases hst with hst | hst <;> simp [code, hst, TaskStatus.code]
  | updateStatus status key hst =>
    cases status with
    | pending => exact absurd rfl (hpending key)
    | completed | failed => exact st.code_le_three t
    | assigned =>
      have hfail := hback key rfl
      cases hcur : (st.item t).status with
      | none => simp [code, hcur]
      | some cur => cases cur <;> simp_all [code_eq hcur, TaskStatus.code]

end Store

section Step

variable {json : Json} {members : List String} {s s' : System} {ev : Event}
  {h out : List (String × Dispatch.Output)}

/-- **What a step does to the status of a task**: nothing, or one of the writes that set it. -/
theorem Submitted.step_status (hsub : Submitted s) (hs : System.Step json s ev s' out)
    (t : String) :
    (s'.store.item t).status = (s.store.item t).status ∧
        (s'.store.item t).resultKey = (s.store.item t).resultKey ∨
      ∃ w r status key, s.Issues ev w r ∧ r ≠ .failed ∧ s.store.Sets t w status key ∧
        (s'.store.item t).status = some status ∧ (s'.store.item t).resultKey = key := by
  rcases hs.store with he | ⟨w, r, hw, he⟩
  · exact .inl (by simp [he])
  · rcases s.store.perform_cases w r with heq | ⟨hr, hacc, heq⟩
    · exact .inl (by simp [he, heq])
    · rw [he, heq]
      rcases Store.write_status (hsub.fresh_of_issues hw) hacc t with hsame | ⟨status, key, hset⟩
      · exact .inl hsame
      · exact .inr ⟨w, r, status, key, hw, hr, hset⟩

/-! ## Completed tasks -/

/-- A worker is past the upload only with its result in the bucket. -/
def Uploaded (s : System) : Prop :=
  ∀ c ∈ s.workers, c.stage = .uploaded → resultKey c.assignment.taskID ∈ s.store.objects

/-- A completed task has its result. -/
def Backed (st : Store) : Prop :=
  ∀ t, (st.item t).status = some .completed →
    (st.item t).resultKey = some (resultKey t) ∧ resultKey t ∈ st.objects

theorem resultKey_ne (t : String) : resultKey t ≠ "" := by
  intro h
  have hlen := congrArg String.length h
  simp [resultKey] at hlen

theorem WorkerCall.step_uploaded {c : WorkerCall} {st st' : Store} {r : CallResult} {err : String}
    (h : c.step st r err = some (st', .uploaded)) :
    resultKey c.assignment.taskID ∈ st'.objects := by
  cases hst : c.stage with
  | executed result =>
    simp only [WorkerCall.step, hst, Option.some.injEq, Prod.mk.injEq] at h
    obtain ⟨rfl, hstage⟩ := h
    have hok : (st.perform (.putObject (resultKey c.assignment.taskID) result) r).2 = true := by
      by_contra hno
      simp [hno] at hstage
    rw [(Store.perform_of_ok hok).2]
    simp [Store.write]
  | assigned =>
    simp only [WorkerCall.step, hst] at h
    split at h <;> simp at h
  | counted | downloaded _ | uploaded =>
    simp only [WorkerCall.step, hst, Option.some.injEq, Prod.mk.injEq] at h
    obtain ⟨-, hstage⟩ := h
    split_ifs at hstage
  | _ => simp [WorkerCall.step, hst] at h

theorem Uploaded.step (hup : Uploaded s) (hsub : Submitted s)
    (hs : System.Step json s ev s' out) : Uploaded s' := by
  have hext := hsub.extends_step hs
  have keep : ∀ c ∈ s.workers, c.stage = .uploaded →
      resultKey c.assignment.taskID ∈ s'.store.objects :=
    fun c hc hst => hext.objects _ (hup c hc hst)
  cases hs with
  | submitCall k r c _ hk hstep =>
    unfold System.stepSubmit at hstep
    split at hstep <;> cases hstep <;> exact keep
  | receive workerID body a ha =>
    intro c hc hst
    rcases List.mem_append.1 hc with hold | hnew
    · exact keep c hold hst
    · rw [List.mem_singleton.1 hnew] at hst
      cases hst
  | work k r err c st stage hk hstep =>
    refine forall_mem_set keep fun hst => ?_
    subst hst
    exact WorkerCall.step_uploaded (c := c) hstep
  | _ => exact keep

/-- Only a worker past the upload completes a task. -/
theorem completes_of_issues {w : Write} {r : CallResult} {t : String} {key : Option String}
    (hw : s.Issues ev w r) (hset : s.store.Sets t w .completed key) :
    key = some (resultKey t) ∧ ∃ c ∈ s.workers, c.stage = .uploaded ∧ c.assignment.taskID = t := by
  cases hset with
  | updateStatus _ key hst =>
    cases hw with
    | worker k err c hk _ hw =>
      cases hw with
      | complete hup => exact ⟨if_pos (resultKey_ne _), c, List.mem_of_getElem? hk, hup, rfl⟩

theorem Backed.step (hb : Backed s.store) (hup : Uploaded s) (hsub : Submitted s)
    (hs : System.Step json s ev s' out) : Backed s'.store := by
  intro t hc
  have hext := hsub.extends_step hs
  rcases hsub.step_status hs t with ⟨hst, hkey⟩ | ⟨w, r, status, key, hw, -, hset, hst, hkey⟩
  · obtain ⟨hres, hobj⟩ := hb t (hst ▸ hc)
    exact ⟨hkey.trans hres, hext.objects _ hobj⟩
  · obtain rfl := Option.some.inj (hst.symm.trans hc)
    obtain ⟨rfl, c, hcw, hstage, rfl⟩ := completes_of_issues hw hset
    exact ⟨hkey, hext.objects _ (hup c hcw hstage)⟩

/-- A step leaves a completed task alone. -/
theorem Submitted.completed_step (hsub : Submitted s) (hs : System.Step json s ev s' out)
    {t : String} (hc : (s.store.item t).status = some .completed) :
    (s'.store.item t).status = some .completed ∧
      (s'.store.item t).resultKey = (s.store.item t).resultKey := by
  rcases hsub.step_status hs t with ⟨hst, hkey⟩ | ⟨w, r, status, key, -, -, hset, -, -⟩
  · exact ⟨hst.trans hc, hkey⟩
  · exact absurd hc hset.status_ne_completed

end Step

/-! ## Runs -/

/-- What the pipeline keeps. -/
structure Sound (json : Json) (s : System) (h : List (String × Dispatch.Output)) : Prop where
  resolves : Resolves json s.store s h
  submitted : Submitted s
  uploaded : Uploaded s
  backed : Backed s.store

section Run

variable {json : Json} {members : List String} {s s' : System}
  {h h' : List (String × Dispatch.Output)}

theorem sound_boot (json : Json) (members : List String) : Sound json (System.boot members) [] :=
  ⟨resolves_boot json members, submitted_boot members, nofun, fun _ hc => by cases hc⟩

theorem Sound.step (hjson : json.Lawful) {ev : Event} {out : List (String × Dispatch.Output)}
    (hi : Sound json s h) (hok : s.Admits members h ev) (hs : System.Step json s ev s' out) :
    Sound json s' (h ++ out) where
  resolves := hi.resolves.step hjson hi.submitted hok hs
  submitted := hi.submitted.step hi.resolves hok hs
  uploaded := hi.uploaded.step hi.submitted hs
  backed := hi.backed.step hi.uploaded hi.submitted hs

theorem sound_run (hjson : json.Lawful)
    (r : Run (System.step json) (System.Admits members) (System.boot members) [] s h) :
    Sound json s h :=
  r.invariant (sound_boot json members) fun _ _ _ _ _ hi hok hs =>
    hi.step hjson hok (System.step_inv hs)

/-- **Completed is final and backed by a result**: a completed task names its result, which is in
the bucket, and no later step changes its status or its result key. -/
theorem completed_final (hjson : json.Lawful)
    (r : Run (System.step json) (System.Admits members) (System.boot members) [] s h)
    (r' : Run (System.step json) (System.Admits members) s h s' h') (t : String)
    (hc : (s.store.item t).status = some .completed) :
    (s.store.item t).resultKey = some (resultKey t) ∧ resultKey t ∈ s.store.objects ∧
      (s'.store.item t).status = some .completed ∧
      (s'.store.item t).resultKey = (s.store.item t).resultKey := by
  have hi := sound_run hjson r
  obtain ⟨hkey, hobj⟩ := hi.backed t hc
  refine ⟨hkey, hobj, ?_⟩
  have hrun := r'.invariant
    (I := fun s₁ h₁ => Sound json s₁ h₁ ∧ (s₁.store.item t).status = some .completed ∧
      (s₁.store.item t).resultKey = (s.store.item t).resultKey)
    ⟨hi, hc, rfl⟩ fun s₁ h₁ ev s₂ out ⟨hi₁, hc₁, hkey₁⟩ hok hs => by
      have hstep := System.step_inv hs
      obtain ⟨hc₂, hkey₂⟩ := hi₁.submitted.completed_step hstep hc₁
      exact ⟨hi₁.step hjson hok hstep, hc₂, hkey₂.trans hkey₁⟩
  exact hrun.2

end Run

/-- Another worker receives the message of the completed task, and the coordinator's `markAssigned`
comes last. -/
def taskRedelivered : List Event :=
  [.receive "w2" assignmentBody, .work 1 .ok "", .work 1 .ok "", .markAssigned 0 .ok]

/-- A completed task is delivered again. -/
theorem completed_final_of_redelivery : ∃ s h s' h', submittedJson.Lawful ∧
    Run (System.step submittedJson) (System.Admits ["a", "b", "c"]) (System.boot ["a", "b", "c"])
      [] s h ∧
    Run (System.step submittedJson) (System.Admits ["a", "b", "c"]) s h s' h' ∧
    (s.store.item "t1").status = some .completed ∧ (s.store.item "t1").receiveCount = some 1 ∧
    (s'.store.item "t1").receiveCount = some 2 ∧
    (s.store.item "t1").resultKey = some (resultKey "t1") ∧ resultKey "t1" ∈ s.store.objects ∧
      (s'.store.item "t1").status = some .completed ∧
      (s'.store.item "t1").resultKey = (s.store.item "t1").resultKey := by
  obtain ⟨s, h, s', h', r, r', hc, hn, hn'⟩ := exists_runs_of_exec (System.step submittedJson)
    (System.Admits ["a", "b", "c"]) (System.boot ["a", "b", "c"]) []
    (taskPublished ++ taskProcessed) taskRedelivered
    (fun s s' => (s.store.item "t1").status = some .completed ∧
      (s.store.item "t1").receiveCount = some 1 ∧ (s'.store.item "t1").receiveCount = some 2)
    (by decide +kernel)
  exact ⟨s, h, s', h', submittedJson_lawful, r, r', hc, hn, hn',
    completed_final submittedJson_lawful r r' "t1" hc⟩

/-! ## Back from failed -/

/-- No worker takes a failed task back: its update to `ASSIGNED`, the first step of `processTask`,
is not carried out while the task has failed. -/
def System.Forward (members : List String) (s : System) (h : List (String × Dispatch.Output))
    (ev : Event) : Prop :=
  s.Admits members h ev ∧
    match ev with
    | .work k r _ => r ≠ .failed → ∀ c ∈ s.workers[k]?, c.stage = .counted →
        (s.store.item c.assignment.taskID).status ≠ some .failed
    | _ => True

instance (members : List String) (s : System) (h : List (String × Dispatch.Output)) (ev : Event) :
    Decidable (s.Forward members h ev) := by
  rcases ev <;> dsimp only [System.Forward] <;> infer_instance

section Forward

variable {json : Json} {members : List String} {s s' : System} {ev : Event}
  {h h' out : List (String × Dispatch.Output)}

/-- Only workers update to `ASSIGNED`, and nobody to `PENDING`. -/
theorem updates_of_issues {w : Write} {r : CallResult} (hw : s.Issues ev w r) {t key : String} :
    w ≠ .updateStatus t .pending key ∧ (w = .updateStatus t .assigned key →
      ∃ k err c, ev = .work k r err ∧ s.workers[k]? = some c ∧ c.stage = .counted ∧
        c.assignment.taskID = t) := by
  cases hw with
  | worker k err c hk _ hw =>
    cases hw with
    | assign hst =>
      refine ⟨by simp, fun heq => ⟨k, err, c, rfl, hk, hst, ?_⟩⟩
      cases heq
      rfl
    | _ => exact ⟨by simp, by simp⟩
  | _ => exact ⟨by simp, by simp⟩

theorem Submitted.code_le_step (hsub : Submitted s) (hok : s.Forward members h ev)
    (hs : System.Step json s ev s' out) (t : String) : s.store.code t ≤ s'.store.code t := by
  rcases hsub.step_status hs t with ⟨hst, -⟩ | ⟨w, r, status, key, hw, hr, hset, hst, -⟩
  · rw [Store.code, Store.code, hst]
  · rw [Store.code_eq hst]
    refine hset.code_le (fun key heq => ?_) fun key => (updates_of_issues hw).1
    obtain ⟨k, err, c, rfl, hk, hstage, rfl⟩ := (updates_of_issues hw).2 heq
    exact hok.2 hr c hk hstage

/-- Every step that is left out takes a task back. -/
theorem code_lt_of_not_forward (hok : s.Admits members h ev) (hno : ¬ s.Forward members h ev)
    (hs : System.Step json s ev s' out) : ∃ t, s'.store.code t < s.store.code t := by
  cases hs with
  | work k r err c st stage hk hstep =>
    simp only [System.Forward, hok, true_and, not_forall, not_not, hk, Option.mem_def,
      Option.some.injEq] at hno
    obtain ⟨hr, _, rfl, hstage, hfail⟩ := hno
    refine ⟨c.assignment.taskID, ?_⟩
    simp only [WorkerCall.step, hstage, Option.some.injEq, Prod.mk.injEq] at hstep
    obtain ⟨rfl, -⟩ := hstep
    have hacc : s.store.accepts (.updateStatus c.assignment.taskID .assigned "") := by
      simp [Store.accepts, hfail]
    simp [Store.perform, hr, hacc, Store.code, Store.write, hfail, TaskStatus.code]
  | _ => exact absurd ⟨hok, trivial⟩ hno

/-- **The status only moves forward** in every run in which no worker takes a failed task back. -/
theorem status_forward (hjson : json.Lawful)
    (r : Run (System.step json) (System.Forward members) (System.boot members) [] s h)
    (r' : Run (System.step json) (System.Forward members) s h s' h') (t : String) :
    s.store.code t ≤ s'.store.code t := by
  have hi := sound_run hjson (r.mono fun _ _ _ hok => hok.1)
  have hrun := r'.relate (I := Sound json)
    (R := fun s₁ s₂ => s₁.store.code t ≤ s₂.store.code t) hi (fun _ => le_rfl)
    (fun _ _ _ => le_trans) fun s₁ h₁ ev s₂ out hi₁ hok hs =>
      ⟨hi₁.step hjson hok.1 (System.step_inv hs),
        hi₁.submitted.code_le_step hok (System.step_inv hs) t⟩
  exact hrun.2

end Forward

/-- A worker fails to download the payload, and says so. -/
def taskFailed : List Event :=
  [.receive "w1" assignmentBody, .work 0 .ok "", .work 0 .ok "", .work 0 .failed "timeout",
    .work 0 .ok ""]

/-- The task is published, and a worker fails on it. -/
theorem status_forward_of_failure : ∃ s h s' h', submittedJson.Lawful ∧
    Run (System.step submittedJson) (System.Forward ["a", "b", "c"])
      (System.boot ["a", "b", "c"]) [] s h ∧
    Run (System.step submittedJson) (System.Forward ["a", "b", "c"]) s h s' h' ∧
    (s.store.item "t1").status = some .pending ∧ (s'.store.item "t1").status = some .failed ∧
      s.store.code "t1" ≤ s'.store.code "t1" := by
  obtain ⟨s, h, s', h', r, r', hp, hf⟩ := exists_runs_of_exec (System.step submittedJson)
    (System.Forward ["a", "b", "c"]) (System.boot ["a", "b", "c"]) [] taskPublished taskFailed
    (fun s s' => (s.store.item "t1").status = some .pending ∧
      (s'.store.item "t1").status = some .failed) (by decide +kernel)
  exact ⟨s, h, s', h', submittedJson_lawful, r, r', hp, hf,
    status_forward submittedJson_lawful r r' "t1"⟩

/-- The message of the failed task is delivered again, and the task goes back from failed to
assigned. -/
theorem status_back : ∃ s h s' h', submittedJson.Lawful ∧
    Run (System.step submittedJson) (System.Admits ["a", "b", "c"]) (System.boot ["a", "b", "c"])
      [] s h ∧
    Run (System.step submittedJson) (System.Admits ["a", "b", "c"]) s h s' h' ∧
    (s.store.item "t1").status = some .failed ∧ (s'.store.item "t1").status = some .assigned ∧
      ¬ s.store.code "t1" ≤ s'.store.code "t1" := by
  obtain ⟨s, h, s', h', r, r', hc⟩ := exists_runs_of_exec (System.step submittedJson)
    (System.Admits ["a", "b", "c"]) (System.boot ["a", "b", "c"]) [] (taskPublished ++ taskFailed)
    [.receive "w2" assignmentBody, .work 1 .ok "", .work 1 .ok ""]
    (fun s s' => (s.store.item "t1").status = some .failed ∧
      (s'.store.item "t1").status = some .assigned ∧
      ¬ s.store.code "t1" ≤ s'.store.code "t1") (by decide +kernel)
  exact ⟨s, h, s', h', submittedJson_lawful, r, r', hc⟩

end Driftless.Pipeline
