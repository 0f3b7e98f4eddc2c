import Driftless.Dispatch.Replicas

/-!
# One publish per task

`Apply` marks a task before it publishes the assignment, and takes the marker back when the publish
fails, with the lock released in between. A task that was published stays marked, and the call that
is about to publish one holds a marker that it has set itself, so that no task is published twice
by one dispatcher between two restores: `published_once`. The node below the dispatcher may do
anything: it may hand over any entries, any number of times, and change its role at any time.
-/

namespace Driftless.Dispatch

open Raft

/-- The tasks of the successful calls of `SendMessage`, in order. -/
def publishedTasks (h : List Output) : List String :=
  h.filterMap fun
    | .published msg => some msg.taskID
    | _ => none

@[simp] theorem publishedTasks_append (h out : List Output) :
    publishedTasks (h ++ out) = publishedTasks h ++ publishedTasks out :=
  List.filterMap_append ..

theorem publishedTasks_nodes (o : List Raft.Output) :
    publishedTasks (o.map .node) = [] := by
  simp [publishedTasks]

theorem publishedTasks_of_ack {m : QueueMessage} {out : List Output} (hout : ∀ o ∈ out, o ∈ ack m) :
    publishedTasks out = [] := by
  refine List.filterMap_eq_nil_iff.2 fun o ho => ?_
  have hack := hout o ho
  unfold ack at hack
  split at hack
  · cases hack
  · rw [List.mem_singleton.1 hack]

/-- A step of the dispatcher, or of the node, which becomes anything. -/
inductive Driven
  | own (ev : Event)
  | node (s : Server)

namespace Coordinator

/-- A dispatcher under a node that does what it likes. -/
def drivenStep (json : Codec) (s3Key : String → String) (c : Coordinator) :
    Driven → Option (Coordinator × List Output)
  | .own ev => c.step json s3Key ev
  | .node s => some ({ c with server := s }, [])

/-- No snapshot is restored. -/
def BetweenRestores (_ : Coordinator) (_ : List Output) : Driven → Prop
  | .own (.restore _) => False
  | _ => True

instance (c : Coordinator) (h : List Output) (ev : Driven) : Decidable (BetweenRestores c h ev) := by
  unfold BetweenRestores
  split <;> infer_instance

end Coordinator

/-- The next step of `handleIngest` deletes the message, by its receipt handle, and is the last one:
nothing else leaves the dispatcher, and nothing is proposed to its node. -/
structure Acknowledges (json : Codec) (s3Key : String → String) (c : Coordinator)
    (m : QueueMessage) (c' : Coordinator) (out : List Output) : Prop where
  step : c.step json s3Key .checkDispatched = some (c', out)
  deleted : m.receiptHandle ≠ none → .deleted m ∈ out
  nothing_else : ∀ o ∈ out, o = .deleted m
  returned : c'.ingest = .idle
  not_proposed : c'.server = c.server

/-- No task was published twice, one that was published is marked, and a message for it that is
received is acknowledged without a proposal. -/
structure PublishedOnce (json : Codec) (s3Key : String → String) (c : Coordinator)
    (h : List Output) : Prop where
  once : ∀ t, (publishedTasks h).count t ≤ 1
  marked : ∀ t ∈ publishedTasks h, t ∈ c.dispatched
  acknowledged : ∀ m msg, c.ingest = .received m → m.decode json = some msg →
    msg.taskID ∈ publishedTasks h → ∃ c' out, Acknowledges json s3Key c m c' out

/-! ## The invariant -/

/-- Published tasks are marked, and the call of `Apply` in progress holds the marker of a task that
was not published. -/
structure Holds (c : Coordinator) (tasks : List String) : Prop where
  nodup : tasks.Nodup
  marked : ∀ t ∈ tasks, t ∈ c.dispatched
  fresh : ∀ t, c.applying.task = some t → t ∉ tasks ∧ t ∈ c.dispatched

section Step

variable {json : Codec} {s3Key : String → String} {c c' : Coordinator} {tasks : List String}
  {ev : Event} {h out : List Output}

/-- A step that publishes nothing and leaves the markers, and the task of the call of `Apply`
unless the call returns. -/
theorem Holds.keep (hi : Holds c tasks) (hout : publishedTasks out = [])
    (hd : c'.dispatched = c.dispatched)
    (ha : ∀ t, c'.applying.task = some t → c.applying.task = some t) :
    Holds c' (tasks ++ publishedTasks out) := by
  rw [hout, List.append_nil]
  exact ⟨hi.nodup, hd ▸ hi.marked, fun t ht => hd ▸ hi.fresh t (ha t ht)⟩

/-- The first lock section of `Apply`. -/
theorem Holds.mark (hi : Holds c tasks) (command : Bytes) : Holds (c.mark json command) tasks := by
  have hret : Holds { c with applying := .returned } tasks := ⟨hi.nodup, hi.marked, by rintro t ⟨⟩⟩
  unfold Coordinator.mark
  split_ifs
  · exact hret
  · split
    · exact hret
    · next cmd hdec =>
      split_ifs with hbad hdup
      · exact hret
      · exact hret
      · refine ⟨hi.nodup, fun t ht => Finset.mem_insert_of_mem (hi.marked t ht), ?_⟩
        rintro t ⟨⟩
        exact ⟨fun ht => hdup (hi.marked _ ht), Finset.mem_insert_self _ _⟩

theorem Holds.step (hi : Holds c tasks) (hno : ∀ k, ev ≠ .restore k)
    (hs : c.step json s3Key ev = some (c', out)) : Holds c' (tasks ++ publishedTasks out) := by
  by_cases hmark : ev = .mark
  · subst hmark
    simp only [Coordinator.step, Coordinator.stepApply] at hs
    split at hs
    next =>
      cases hs
      rw [publishedTasks, List.filterMap_nil, List.append_nil]
      exact hi.mark _
    next => cases hs
  cases Coordinator.step_inv hs with
  | node ev s o hown hsrv => exact hi.keep (publishedTasks_nodes o) rfl fun _ ht => ht
  | markNothing | mark => exact absurd rfl hmark
  | leader cmd ha hl | sendFailed cmd ha =>
    refine hi.keep rfl rfl fun t ht => ?_
    rw [ha]
    exact ht
  | notLeader cmd ha hl => exact hi.keep rfl rfl (by rintro t ⟨⟩)
  | published cmd ha =>
    -- the task joins the published ones, and the call lets go of its marker
    obtain ⟨hnew, hmem⟩ := hi.fresh cmd.taskID (by rw [ha]; rfl)
    refine ⟨List.Nodup.append hi.nodup (List.nodup_singleton _) ?_, fun t ht => ?_,
      by rintro t ⟨⟩⟩
    · simpa [publishedTasks] using hnew
    · rcases List.mem_append.1 ht with hold | ht
      · exact hi.marked t hold
      · rw [List.mem_singleton.1 ht]
        exact hmem
  | retract cmd ha =>
    -- the marker that goes is not that of a published task
    obtain ⟨hnew, -⟩ := hi.fresh cmd.taskID (by rw [ha]; rfl)
    rw [publishedTasks, List.filterMap_nil, List.append_nil]
    refine ⟨hi.nodup, fun t ht => Finset.mem_erase.2 ⟨?_, hi.marked t ht⟩, by rintro t ⟨⟩⟩
    rintro rfl
    exact hnew ht
  | applied idx e w s o ha hret hsrv =>
    exact hi.keep (publishedTasks_nodes o) rfl (by rintro t ⟨⟩)
  | snapshot ids s o hids hsrv => exact hi.keep (publishedTasks_nodes o) rfl fun _ ht => ht
  | restore k => exact absurd rfl (hno k)
  | dropped m out hing hdec hout => exact hi.keep (publishedTasks_of_ack hout) rfl fun _ ht => ht
  | fastPath m msg hing hdec hd | noKey m msg hing hk =>
    exact hi.keep (publishedTasks_of_ack fun _ ho => ho) rfl fun _ ht => ht
  | propose m taskID b s o hing hsrv => exact hi.keep (publishedTasks_nodes o) rfl fun _ ht => ht
  | result m taskID ch res hing =>
    refine hi.keep (publishedTasks_of_ack (m := m) fun o ho => ?_) rfl fun _ ht => ht
    split_ifs at ho
    · exact ho
    · cases ho
  | receive | lookup | lookupError | encoded | proposeRefused | timeout =>
    exact hi.keep rfl rfl fun _ ht => ht

/-- The fast path of `handleIngest`. -/
theorem checkDispatched_of_mem {m : QueueMessage} {msg : IngestMessage}
    (hdec : m.decode json = some msg) (hd : msg.taskID ∈ c.dispatched) :
    c.checkDispatched json m = ({ c with ingest := .idle }, ack m) := by
  obtain ⟨hmsg, hid⟩ := Option.filter_eq_some_iff.1 hdec
  obtain ⟨body, hbody, hmsg⟩ := Option.bind_eq_some_iff.1 hmsg
  unfold Coordinator.checkDispatched
  simp only [hbody, hmsg]
  rw [if_neg (by simpa using hid), if_pos hd]

/-- A message for a marked task is deleted. -/
theorem acknowledges_of_mem {m : QueueMessage} {msg : IngestMessage} (hm : c.ingest = .received m)
    (hdec : m.decode json = some msg) (hd : msg.taskID ∈ c.dispatched) :
    Acknowledges json s3Key c m { c with ingest := .idle } (ack m) where
  step := by
    rw [← checkDispatched_of_mem hdec hd]
    simp [Coordinator.step, Coordinator.stepIngest, hm]
  deleted hr := by
    cases hh : m.receiptHandle with
    | none => exact absurd hh hr
    | some handle => simp [ack, hh]
  nothing_else o ho := by
    unfold ack at ho
    split at ho
    · cases ho
    · exact List.mem_singleton.1 ho
  returned := rfl
  not_proposed := rfl

end Step

/-- **A node publishes each task at most once**, from any markers on, between two restores. -/
theorem published_once {json : Codec} {s3Key : String → String} {c₀ c : Coordinator}
    {h : List Output} (hidle : c₀.applying = .idle)
    (r : Run (Coordinator.drivenStep json s3Key) Coordinator.BetweenRestores c₀ [] c h) :
    PublishedOnce json s3Key c h := by
  have hinv : Holds c (publishedTasks h) := by
    refine r.invariant (I := fun c h => Holds c (publishedTasks h)) ?_ ?_
    · exact ⟨List.nodup_nil, nofun, by simp [hidle, ApplyCall.task]⟩
    · intro c h ev c' out hi hok hs
      rw [publishedTasks_append]
      cases ev with
      | own ev =>
        refine hi.step (fun k hk => ?_) hs
        rw [hk] at hok
        exact hok
      | node s =>
        cases hs
        exact hi.keep rfl rfl fun _ ht => ht
  exact ⟨List.nodup_iff_count_le_one.1 hinv.nodup, hinv.marked,
    fun m msg hm hdec ht => ⟨_, _, acknowledges_of_mem hm hdec (hinv.marked _ ht)⟩⟩

/-- The leader publishes the task of its entry; the entry is handed over once more. The wait
for the commit times out, and the message is received again. -/
theorem published_once_of_replay : ∃ c h,
    Run (Coordinator.drivenStep taskCodec fun _ => "in/t1") Coordinator.BetweenRestores
      (Coordinator.boot "a" ["b", "c"]) [] c h ∧
    publishedTasks h = ["t1"] ∧ c.ingest = .received taskMessage ∧
    PublishedOnce taskCodec (fun _ => "in/t1") c h := by
  obtain ⟨c, h, r, hp, hm⟩ := exists_run_of_exec
    (Coordinator.drivenStep taskCodec fun _ => "in/t1")
    Coordinator.BetweenRestores (Coordinator.boot "a" ["b", "c"]) []
    (leaderApplies.map Driven.own ++ [.own (.sendMessage true), .own .applied] ++
      [.node { Server.boot "a" ["b", "c"] .snapshotable none with
          node := { newNode "a" ["b", "c"] with state := .leader }
          apply := .read 2 { taskEntry with index := 2 } none },
        .own .mark, .own .applied, .own .timeout, .own (.receive taskMessage)])
    (fun c h => publishedTasks h = ["t1"] ∧ c.ingest = .received taskMessage) (by decide +kernel)
  exact ⟨c, h, r, hp, hm, published_once rfl r⟩

end Driftless.Dispatch
