import Driftless.Pipeline.Status

/-!
# Results

The payload of a task goes from the client to the bucket, from there to the workers that receive
the task, and what they make of it goes back to the bucket. `Traced` follows it. So the result of a
completed task is what `execute` makes of the payload that was submitted under its id, whichever of
the workers that received the task stored it, and however many did (`result_of_payload`).
-/

namespace Driftless.Pipeline

open Raft Dispatch

/-! ## Keys -/

theorem payloadKey_injective {t t' : String} (h : payloadKey t = payloadKey t') : t = t' := by
  have hl := congrArg String.toList h
  simp only [payloadKey, String.toList_append, List.append_assoc, List.append_cancel_left_eq,
    List.append_cancel_right_eq] at hl
  exact String.toList_inj.1 hl

theorem resultKey_injective {t t' : String} (h : resultKey t = resultKey t') : t = t' := by
  have hl := congrArg String.toList h
  simp only [resultKey, String.toList_append, List.append_assoc, List.append_cancel_left_eq,
    List.append_cancel_right_eq] at hl
  exact String.toList_inj.1 hl

theorem payloadKey_ne_resultKey (t t' : String) : payloadKey t ≠ resultKey t' := by
  intro h
  have hlast := congrArg (fun s => s.toList.reverse.head?) h
  simp [payloadKey, resultKey] at hlast

/-! ## From payloads to results -/

/-- The client submitted this payload for the task. -/
def Sent (s : System) (t : String) (payload : Bytes) : Prop :=
  ∃ c ∈ s.submits, c.taskID = t ∧ c.payload = payload

/-- A result of the task: what a worker makes of the payload. -/
def ResultOf (s : System) (t : String) (body : Bytes) : Prop :=
  ∃ workerID payload, Sent s t payload ∧ body = execute workerID t payload

/-- Payloads and results are passed on as they are. -/
structure Traced (s : System) : Prop where
  payloads : ∀ t body, s.store.objects.lookup (payloadKey t) = some body → Sent s t body
  keys : ∀ c ∈ s.workers, c.assignment.s3Key = payloadKey c.assignment.taskID
  downloaded : ∀ c ∈ s.workers, ∀ payload, c.stage = .downloaded payload →
    Sent s c.assignment.taskID payload
  executed : ∀ c ∈ s.workers, ∀ result, c.stage = .executed result →
    ResultOf s c.assignment.taskID result
  results : ∀ t body, s.store.objects.lookup (resultKey t) = some body → ResultOf s t body

section Worker

variable {c : WorkerCall} {st st' : Store} {r : CallResult} {err : String} {stage : WorkerStage}

/-- A write to the table leaves the bucket. -/
theorem objects_perform {w : Write} {t : String} (hw : w.task = some t) :
    (st.perform w r).1.objects = st.objects := by
  rcases st.perform_cases w r with he | ⟨-, -, he⟩
  · rw [he]
  · rw [he]
    cases w with
    | putObject key body => cases hw
    | _ => rfl

/-- A worker stores nothing but its result. -/
theorem WorkerCall.step_objects (hs : c.step st r err = some (st', stage)) :
    st'.objects = st.objects ∨ ∃ result, c.stage = .executed result ∧
      st'.objects = st.objects.insert (resultKey c.assignment.taskID) result := by
  cases hst : c.stage with
  | executed result =>
    simp only [WorkerCall.step, hst, Option.some.injEq, Prod.mk.injEq] at hs
    obtain ⟨rfl, -⟩ := hs
    rcases st.perform_cases (.putObject (resultKey c.assignment.taskID) result) r with
      he | ⟨-, -, he⟩
    · rw [he]
      exact .inl rfl
    · rw [he]
      exact .inr ⟨result, rfl, rfl⟩
  | assigned =>
    simp only [WorkerCall.step, hst] at hs
    split at hs <;> cases hs <;> exact .inl rfl
  | deleted | returned => simp [WorkerCall.step, hst] at hs
  | downloaded _ | completed =>
    simp only [WorkerCall.step, hst, Option.some.injEq, Prod.mk.injEq] at hs
    obtain ⟨rfl, -⟩ := hs
    exact .inl rfl
  | received | counted | uploaded | failing _ =>
    simp only [WorkerCall.step, hst, Option.some.injEq, Prod.mk.injEq] at hs
    obtain ⟨rfl, -⟩ := hs
    exact .inl (objects_perform rfl)

/-- A payload in the hands of a worker was read from the bucket, or it had it before. -/
theorem WorkerCall.step_downloaded {payload : Bytes}
    (hs : c.step st r err = some (st', .downloaded payload)) :
    st.objects.lookup c.assignment.s3Key = some payload := by
  cases hst : c.stage with
  | assigned =>
    simp only [WorkerCall.step, hst] at hs
    split at hs
    next p hp =>
      cases hs
      exact hp
    next => simp at hs
  | deleted | returned => simp [WorkerCall.step, hst] at hs
  | received | completed | failing _ => simp [WorkerCall.step, hst] at hs
  | counted | downloaded _ | executed _ | uploaded =>
    simp only [WorkerCall.step, hst, Option.some.injEq, Prod.mk.injEq] at hs
    obtain ⟨-, hstage⟩ := hs
    split_ifs at hstage

/-- A result in the hands of a worker is that of the payload it had. -/
theorem WorkerCall.step_executed {result : Bytes}
    (hs : c.step st r err = some (st', .executed result)) :
    ∃ payload, c.stage = .downloaded payload ∧
      result = execute c.workerID c.assignment.taskID payload := by
  cases hst : c.stage with
  | downloaded payload =>
    simp only [WorkerCall.step, hst, Option.some.injEq, Prod.mk.injEq] at hs
    obtain ⟨-, hstage⟩ := hs
    split_ifs at hstage
    cases hstage
    exact ⟨payload, rfl, rfl⟩
  | assigned =>
    simp only [WorkerCall.step, hst] at hs
    split at hs <;> simp at hs
  | deleted | returned => simp [WorkerCall.step, hst] at hs
  | received | completed | failing _ => simp [WorkerCall.step, hst] at hs
  | counted | executed _ | uploaded =>
    simp only [WorkerCall.step, hst, Option.some.injEq, Prod.mk.injEq] at hs
    obtain ⟨-, hstage⟩ := hs
    split_ifs at hstage

end Worker

section Step

variable {json : Json} {members : List String} {s s' : System} {ev : Event}
  {h out : List (String × Dispatch.Output)}

/-- The client's payloads stay what they are. -/
theorem Sent.step {t : String} {payload : Bytes} (hp : Sent s t payload)
    (hs : System.Step json s ev s' out) : Sent s' t payload := by
  obtain ⟨c, hc, ht, hpay⟩ := hp
  cases hs with
  | submit => exact ⟨c, List.mem_append_left _ hc, ht, hpay⟩
  | submitCall k r c' _ hk hstep =>
    obtain ⟨stage, hset, -⟩ := stepSubmit_spec hstep
    obtain ⟨j, hj⟩ := List.mem_iff_getElem?.1 hc
    by_cases hkj : k = j
    · subst hkj
      obtain rfl := Option.some.inj (hk.symm.trans hj)
      refine ⟨{ c' with stage := stage }, ?_, ht, hpay⟩
      rw [hset]
      exact List.mem_set (List.getElem?_eq_some_iff.1 hk).1 _
    · refine ⟨c, List.mem_iff_getElem?.2 ⟨j, ?_⟩, ht, hpay⟩
      rw [hset, List.getElem?_set_ne hkj, hj]
  | _ => exact ⟨c, hc, ht, hpay⟩

theorem ResultOf.step {t : String} {body : Bytes} (hr : ResultOf s t body)
    (hs : System.Step json s ev s' out) : ResultOf s' t body := by
  obtain ⟨workerID, payload, hp, rfl⟩ := hr
  exact ⟨workerID, payload, hp.step hs, rfl⟩

/-- What a step puts into the bucket: the payload of a call of `handleSubmitTask`, or the result of
a worker. -/
theorem Traced.objects_step (ht : Traced s) (hs : System.Step json s ev s' out) {key : String}
    {body : Bytes} (hb : s'.store.objects.lookup key = some body) :
    s.store.objects.lookup key = some body ∨
      (∃ t, key = payloadKey t ∧ Sent s t body) ∨ ∃ t, key = resultKey t ∧ ResultOf s t body := by
  have hins : ∀ {k : String} {b : Bytes}, (s.store.objects.insert k b).lookup key = some body →
      s.store.objects.lookup key = some body ∨ (key = k ∧ b = body) := by
    intro k b hl
    by_cases hkey : key = k
    · subst hkey
      rw [AList.lookup_insert] at hl
      exact .inr ⟨rfl, Option.some.inj hl⟩
    · rw [AList.lookup_insert_ne hkey] at hl
      exact .inl hl
  cases hs with
  | submitCall k r c _ hk hstep =>
    unfold System.stepSubmit at hstep
    split at hstep <;> cases hstep
    next hst =>
      rcases s.store.perform_cases (.putObject (payloadKey c.taskID) c.payload) r with
        he | ⟨-, -, he⟩
      · rw [he] at hb
        exact .inl hb
      · rw [he] at hb
        refine (hins hb).imp_right fun ⟨hkey, hbody⟩ => .inl ⟨c.taskID, hkey, c, ?_, rfl, hbody⟩
        exact List.mem_of_getElem? hk
    next =>
      rw [objects_perform rfl] at hb
      exact .inl hb
    next => exact .inl hb
  | markAssigned k r taskID hk =>
    rw [objects_perform rfl] at hb
    exact .inl hb
  | work k r err c st stage hk hstep =>
    rcases WorkerCall.step_objects hstep with he | ⟨result, hst, he⟩
    · rw [he] at hb
      exact .inl hb
    · rw [he] at hb
      refine (hins hb).imp_right fun ⟨hkey, hbody⟩ => .inr ⟨c.assignment.taskID, hkey, ?_⟩
      rw [← hbody]
      exact ht.executed c (List.mem_of_getElem? hk) result hst
  | _ => exact .inl hb

theorem Traced.step (ht : Traced s) (hi : Resolves json s.store s h) (hsub : Submitted s)
    (hok : s.Admits members h ev) (hs : System.Step json s ev s' out) : Traced s' := by
  have hpayloads : ∀ t body, s'.store.objects.lookup (payloadKey t) = some body →
      Sent s' t body := by
    intro t body hb
    rcases ht.objects_step hs hb with hold | ⟨t', hkey, hp⟩ | ⟨t', hkey, -⟩
    · exact (ht.payloads t body hold).step hs
    · rw [payloadKey_injective hkey]
      exact hp.step hs
    · exact absurd hkey (payloadKey_ne_resultKey t t')
  have hresults : ∀ t body, s'.store.objects.lookup (resultKey t) = some body →
      ResultOf s' t body := by
    intro t body hb
    rcases ht.objects_step hs hb with hold | ⟨t', hkey, -⟩ | ⟨t', hkey, hr⟩
    · exact (ht.results t body hold).step hs
    · exact absurd hkey.symm (payloadKey_ne_resultKey t' t)
    · rw [resultKey_injective hkey]
      exact hr.step hs
  have hdown : ∀ c ∈ s.workers, ∀ payload, c.stage = .downloaded payload →
      Sent s' c.assignment.taskID payload :=
    fun c hc payload hst => (ht.downloaded c hc payload hst).step hs
  have hexec : ∀ c ∈ s.workers, ∀ result, c.stage = .executed result →
      ResultOf s' c.assignment.taskID result :=
    fun c hc result hst => (ht.executed c hc result hst).step hs
  cases id hs with
  | submitCall k r c _ hk hstep =>
    unfold System.stepSubmit at hstep
    split at hstep <;> cases hstep <;> exact ⟨hpayloads, ht.keys, hdown, hexec, hresults⟩
  | receive workerID body a ha =>
    refine ⟨hpayloads, fun c hc => ?_, fun c hc => ?_, fun c hc => ?_, hresults⟩
    · rcases List.mem_append.1 hc with hold | hnew
      · exact ht.keys c hold
      · obtain ⟨a', ha', hn⟩ := hi.assignments body hok
        obtain rfl := Option.some.inj (ha.symm.trans ha')
        rw [List.mem_singleton.1 hnew]
        exact Option.some.inj (hn.2.symm.trans (hsub.keys _ hn.1).1)
    · rcases List.mem_append.1 hc with hold | hnew
      · exact hdown c hold
      · rw [List.mem_singleton.1 hnew]
        exact nofun
    · rcases List.mem_append.1 hc with hold | hnew
      · exact hexec c hold
      · rw [List.mem_singleton.1 hnew]
        exact nofun
  | work k r err c st stage hk hstep =>
    have hc := List.mem_of_getElem? hk
    refine ⟨hpayloads, forall_mem_set ht.keys (ht.keys c hc),
      forall_mem_set hdown fun payload hst => ?_, forall_mem_set hexec fun result hst => ?_,
      hresults⟩
    · subst hst
      have hread := WorkerCall.step_downloaded hstep
      rw [ht.keys c hc] at hread
      exact (ht.payloads _ payload hread).step hs
    · subst hst
      obtain ⟨payload, hst, rfl⟩ := WorkerCall.step_executed hstep
      exact ⟨c.workerID, payload, (ht.downloaded c hc payload hst).step hs, rfl⟩
  | _ => exact ⟨hpayloads, ht.keys, hdown, hexec, hresults⟩

end Step

/-! ## Runs -/

section Run

variable {json : Json} {members : List String} {s : System} {h : List (String × Dispatch.Output)}

theorem traced_boot (members : List String) : Traced (System.boot members) :=
  ⟨nofun, nofun, nofun, nofun, nofun⟩

theorem traced_run (hjson : json.Lawful)
    (r : Run (System.step json) (System.Admits members) (System.boot members) [] s h) :
    Sound json s h ∧ Traced s :=
  r.invariant (I := fun s h => Sound json s h ∧ Traced s)
    ⟨sound_boot json members, traced_boot members⟩ fun _ _ _ _ _ ⟨hi, ht⟩ hok hs =>
      ⟨hi.step hjson hok (System.step_inv hs),
        ht.step hi.resolves hi.submitted hok (System.step_inv hs)⟩

/-- **The result of a completed task is that of its payload**: in every run, a completed task was
submitted by one call, and the object its item names is what `execute` makes of the payload of this
call. -/
theorem result_of_payload (hjson : json.Lawful)
    (r : Run (System.step json) (System.Admits members) (System.boot members) [] s h) (t : String)
    (hc : (s.store.item t).status = some .completed) :
    ∃! c, c ∈ s.submits ∧ c.taskID = t ∧ ∃ key workerID, (s.store.item t).resultKey = some key ∧
      s.store.objects.lookup key = some (execute workerID t c.payload) := by
  obtain ⟨hi, ht⟩ := traced_run hjson r
  obtain ⟨hkey, hobj⟩ := hi.backed t hc
  obtain ⟨body, hbody⟩ := Option.isSome_iff_exists.1 (AList.lookup_isSome.2 hobj)
  obtain ⟨workerID, _, ⟨c, hmem, hid, rfl⟩, rfl⟩ := ht.results t body hbody
  refine ⟨c, ⟨hmem, hid, _, workerID, hkey, hbody⟩, ?_⟩
  rintro c' ⟨hmem', hid', -⟩
  exact List.inj_on_of_nodup_map hi.submitted.distinct hmem' hmem (hid'.trans hid.symm)

end Run

/-- Two workers receive the task, and the second one finds it completed. -/
theorem result_of_payload_of_redelivery : ∃ s h, submittedJson.Lawful ∧
    Run (System.step submittedJson) (System.Admits ["a", "b", "c"]) (System.boot ["a", "b", "c"])
      [] s h ∧
    (s.store.item "t1").status = some .completed ∧ s.workers.length = 2 ∧
    ∃! c, c ∈ s.submits ∧ c.taskID = "t1" ∧ ∃ key workerID,
      (s.store.item "t1").resultKey = some key ∧
      s.store.objects.lookup key = some (execute workerID "t1" c.payload) := by
  obtain ⟨s, h, r, hc, hw⟩ := exists_run_of_exec (System.step submittedJson)
    (System.Admits ["a", "b", "c"]) (System.boot ["a", "b", "c"]) []
    (taskPublished ++ taskProcessed ++ taskRedelivered)
    (fun s _ => (s.store.item "t1").status = some .completed ∧ s.workers.length = 2)
    (by decide +kernel)
  exact ⟨s, h, submittedJson_lawful, r, hc, hw, result_of_payload submittedJson_lawful r "t1" hc⟩

end Driftless.Pipeline
