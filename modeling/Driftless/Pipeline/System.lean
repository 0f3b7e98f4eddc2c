import Driftless.Dispatch.Acknowledge
import Driftless.Pipeline.Store

/-!
# The pipeline

The ingest API, the coordinators and the workers around the tasks table, the bucket and the two
queues. `handleSubmitTask` stores the payload, writes the item and publishes an ingest message;
`recoverOrphans` publishes ingest messages for pending items again; a coordinator takes ingest
messages through the log to assignment messages; and a worker takes an assignment message through
the five steps of `processTask`.

Each call to a service is one event. A program that crashes is one that takes no further step. The
queues deliver every message any number of times, so that `ingest` and `assignments` hold all
messages ever sent. What a scan returns is read in one event, for any choice of items, and published
later, item by item. A read of the coordinators can miss an item, as DynamoDB's default reads can,
and their `markAssigned` may be carried out at any time after the publish.
-/

namespace Driftless.Pipeline

open Raft Dispatch

/-! ## Messages -/

/-- `encoding/json` on the types of the pipeline: the ingest message as `handleSubmitTask` encodes
it, from a struct, and as `recoverOrphans` does, from a map, and the assignment message. -/
structure Json extends Codec where
  marshalTask : IngestMessage → String
  marshalOrphan : IngestMessage → String
  marshalAssignment : AssignmentMessage → String
  unmarshalAssignment : String → Option AssignmentMessage

/-- Decoding inverts encoding. -/
structure Json.Lawful (json : Json) : Prop where
  codec : json.toCodec.Lawful
  task : ∀ m, json.unmarshalIngest (json.marshalTask m) = some m
  orphan : ∀ m, json.unmarshalIngest (json.marshalOrphan m) = some m
  assignment : ∀ a, json.unmarshalAssignment (json.marshalAssignment a) = some a

/-! ## Programs -/

structure SubmitTaskRequest where
  payload : Bytes
  priority : ℤ
  deriving DecidableEq, Repr

/-- The checks of `handleSubmitTask`. -/
def SubmitTaskRequest.Valid (req : SubmitTaskRequest) : Prop :=
  req.payload ≠ [] ∧ ¬ (req.priority < 1 ∨ req.priority > 10)

instance (req : SubmitTaskRequest) : Decidable req.Valid := inferInstanceAs (Decidable (_ ∧ _))

/-- Where a call of `handleSubmitTask` is: before the call that stores the payload, writes the
item, or publishes the message, or past them. -/
inductive SubmitStage
  | upload
  | putItem
  | publish
  | over
  deriving DecidableEq, Repr

structure SubmitCall where
  taskID : String
  payload : Bytes
  priority : ℤ
  stage : SubmitStage
  deriving DecidableEq, Repr

/-- Where a worker is with a message. -/
inductive WorkerStage
  /-- Before `incrementReceiveCount`. -/
  | received
  /-- Before the steps of `processTask`. -/
  | counted
  | assigned
  | downloaded (payload : Bytes)
  | executed (result : Bytes)
  | uploaded
  /-- Before the update to `FAILED`, with the text of the error. -/
  | failing (err : String)
  /-- Before `deleteMessage`. -/
  | completed
  | deleted
  /-- `processTask` returned an error, and the message stays on the queue. -/
  | returned
  deriving DecidableEq, Repr

structure WorkerCall where
  workerID : String
  assignment : AssignmentMessage
  stage : WorkerStage
  deriving DecidableEq, Repr

/-- The result of `execute`, where it is not interrupted. -/
def execute (workerID taskID : String) (payload : Bytes) : Bytes :=
  ("\x7b\"task_id\":\"" ++ taskID ++ "\",\"processed_bytes\":" ++ toString payload.length ++
    ",\"worker_id\":\"" ++ workerID ++ "\"\x7d").toUTF8.data.toList

/-- The next call of a worker, with how it ends and the text of its error, if any. -/
def WorkerCall.step (c : WorkerCall) (st : Store) (r : CallResult) (err : String) :
    Option (Store × WorkerStage) :=
  let taskID := c.assignment.taskID
  match c.stage with
  | .received => some ((st.perform (.incrementReceiveCount taskID) r).1, .counted)
  | .counted =>
    let res := st.perform (.updateStatus taskID .assigned "") r
    some (res.1, if res.2 then .assigned else .returned)
  | .assigned =>
    match r, st.objects.lookup c.assignment.s3Key with
    | .ok, some payload => some (st, .downloaded payload)
    | _, _ => some (st, .failing err)
  | .downloaded payload =>
    some (st, if r = .ok then .executed (execute c.workerID taskID payload) else .failing err)
  | .executed result =>
    let res := st.perform (.putObject (resultKey taskID) result) r
    some (res.1, if res.2 then .uploaded else .failing err)
  | .uploaded =>
    let res := st.perform (.updateStatus taskID .completed (resultKey taskID)) r
    some (res.1, if res.2 then .completed else .returned)
  | .failing err =>
    -- the text of the error goes where the result key belongs
    some ((st.perform (.updateStatus taskID .failed err) r).1, .returned)
  | .completed => some (st, .deleted)
  | .deleted => none
  | .returned => none

/-- The writes of a worker, each at its stage. -/
inductive WorkerCall.Writes (c : WorkerCall) : Write → Prop
  | count : Writes c (.incrementReceiveCount c.assignment.taskID)
  | assign (hst : c.stage = .counted) :
      Writes c (.updateStatus c.assignment.taskID .assigned "")
  | result (result : Bytes) : Writes c (.putObject (resultKey c.assignment.taskID) result)
  | complete (hst : c.stage = .uploaded) :
      Writes c (.updateStatus c.assignment.taskID .completed (resultKey c.assignment.taskID))
  | fail (err : String) : Writes c (.updateStatus c.assignment.taskID .failed err)

theorem WorkerCall.step_store {c : WorkerCall} {st st' : Store} {r : CallResult} {err : String}
    {stage : WorkerStage} (h : c.step st r err = some (st', stage)) :
    st' = st ∨ ∃ w, c.Writes w ∧ st' = (st.perform w r).1 := by
  unfold WorkerCall.step at h
  dsimp only at h
  split at h
  next =>
    cases h
    exact .inr ⟨_, .count, rfl⟩
  next hst =>
    cases h
    exact .inr ⟨_, .assign hst, rfl⟩
  next => split at h <;> cases h <;> exact .inl rfl
  next =>
    cases h
    exact .inl rfl
  next result hst =>
    cases h
    exact .inr ⟨_, .result result, rfl⟩
  next hst =>
    cases h
    exact .inr ⟨_, .complete hst, rfl⟩
  next err hst =>
    cases h
    exact .inr ⟨_, .fail err, rfl⟩
  next =>
    cases h
    exact .inl rfl
  next => cases h
  next => cases h

/-- A worker writes to the item of its task, and never as if it were new. -/
theorem WorkerCall.Writes.task_eq {c : WorkerCall} {w : Write} (hw : c.Writes w) {t : String}
    (ht : w.task = some t) : t = c.assignment.taskID := by
  cases hw with
  | result result => cases ht
  | _ => exact (Option.some.inj ht).symm

/-- What `lookupS3Key` returns. -/
def Store.s3KeyOf (st : Store) (stale : Bool) (taskID : String) : String :=
  if stale then "" else (st.item taskID).s3Key.getD ""

/-- The pipeline. -/
structure System where
  store : Store
  /-- The bodies of the messages of the ingest queue, and of the assignment queue. -/
  ingest : List String
  assignments : List String
  submits : List SubmitCall
  /-- What the calls of `recoverOrphans` have read and not yet published. -/
  scans : List (List (String × Option ℤ))
  coordinators : Coordinators
  /-- The tasks the coordinators call `markAssigned` on. -/
  marks : List String
  workers : List WorkerCall

inductive Event
  | submit (taskID : String) (req : SubmitTaskRequest)
  | submitCall (k : ℕ) (r : CallResult)
  | scan (ids : List String)
  | republish (k : ℕ) (r : CallResult)
  /-- A step of a coordinator, whose reads may miss items, and whose failed `SendMessage` may have
  sent the message. -/
  | coordinator (id : String) (ev : Dispatch.Event) (stale lost : Bool)
  | markAssigned (k : ℕ) (r : CallResult)
  | receive (workerID body : String)
  | work (k : ℕ) (r : CallResult) (err : String)
  deriving DecidableEq, Repr

/-! ## Steps -/

def Output.assignment : Dispatch.Output → Option AssignmentMessage
  | .published msg => some msg
  | _ => none

/-- The message a coordinator sends although it is told otherwise. -/
def lostAssignment (c : Coordinator) (ev : Dispatch.Event) (lost : Bool) :
    Option AssignmentMessage :=
  match lost, ev, c.applying with
  | true, .sendMessage false, .sending cmd => some ⟨cmd.taskID, cmd.priority, cmd.s3Key⟩
  | _, _, _ => none

namespace System

def boot (members : List String) : System :=
  ⟨⟨∅, ∅⟩, [], [], [], [], Coordinators.boot members, [], []⟩

/-- A message reaches its queue unless the call did nothing. -/
def enqueue (queue : List String) (body : String) (r : CallResult) : List String :=
  if r = .failed then queue else queue ++ [body]

/-- The next call of `handleSubmitTask`. -/
def stepSubmit (json : Json) (s : System) (k : ℕ) (c : SubmitCall) (r : CallResult) :
    Option System :=
  match c.stage with
  | .upload =>
    let res := s.store.perform (.putObject (payloadKey c.taskID) c.payload) r
    some { s with
      store := res.1
      submits := s.submits.set k { c with stage := if res.2 then .putItem else .over } }
  | .putItem =>
    let res := s.store.perform (.putItem c.taskID c.priority (payloadKey c.taskID)) r
    some { s with
      store := res.1
      submits := s.submits.set k { c with stage := if res.2 then .publish else .over } }
  | .publish =>
    some { s with
      ingest := enqueue s.ingest (json.marshalTask ⟨c.taskID, c.priority⟩) r
      submits := s.submits.set k { c with stage := .over } }
  | .over => none

/-- What a scan reads of an item: its id and priority, if it is pending. -/
def scanned (st : Store) (taskID : String) : Option (String × Option ℤ) :=
  if taskID ∈ st.tasks ∧ (st.item taskID).status = some .pending then
    some (taskID, (st.item taskID).priority)
  else none

/-- A step of the pipeline. -/
def step (json : Json) (s : System) : Event → Option (System × List (String × Dispatch.Output))
  | .submit taskID req =>
    if req.Valid then
      some ({ s with submits := s.submits ++ [⟨taskID, req.payload, req.priority, .upload⟩] }, [])
    else some (s, [])
  | .submitCall k r =>
    match s.submits[k]? with
    | some c => (s.stepSubmit json k c r).map fun s' => (s', [])
    | none => none
  | .scan ids => some ({ s with scans := s.scans ++ [ids.filterMap (scanned s.store)] }, [])
  | .republish k r =>
    match s.scans[k]? with
    | some ((taskID, some priority) :: rest) =>
      some ({ s with
        ingest := enqueue s.ingest (json.marshalOrphan ⟨taskID, priority⟩) r
        scans := s.scans.set k rest }, [])
    -- the type assertion on a missing priority panics
    | some ((_, none) :: _) => some ({ s with scans := s.scans.set k [] }, [])
    | _ => none
  | .coordinator i ev stale lost =>
    match (s.coordinators i).step json.toCodec (s.store.s3KeyOf stale) ev with
    | some (c, out) =>
      let sent := out.filterMap Output.assignment
      some ({ s with
        coordinators := Function.update s.coordinators i c
        assignments := s.assignments ++
          (sent ++ (lostAssignment (s.coordinators i) ev lost).toList).map json.marshalAssignment
        marks := s.marks ++ sent.map AssignmentMessage.taskID }, out.map (Prod.mk i))
    | none => none
  | .markAssigned k r =>
    match s.marks[k]? with
    | some taskID => some ({ s with store := (s.store.perform (.markAssigned taskID) r).1 }, [])
    | none => none
  | .receive workerID body =>
    match json.unmarshalAssignment body with
    | some a => some ({ s with workers := s.workers ++ [⟨workerID, a, .received⟩] }, [])
    | none => some (s, [])
  | .work k r err =>
    match s.workers[k]? with
    | some c =>
      match c.step s.store r err with
      | some (st, stage) =>
        some ({ s with store := st, workers := s.workers.set k { c with stage := stage } }, [])
      | none => none
    | none => none

/-- What can happen: ids are fresh, the network of the coordinators delivers what was sent, and
nobody else writes to the queues. -/
def Admits (members : List String) (s : System) (h : List (String × Dispatch.Output)) :
    Event → Prop
  | .submit taskID _ => ∀ c ∈ s.submits, c.taskID ≠ taskID
  | .coordinator i ev _ _ => Network members s.coordinators h (i, ev) ∧
      match ev with
      | .receive m => ∀ body ∈ m.body, body ∈ s.ingest
      | _ => True
  | .receive _ body => body ∈ s.assignments
  | _ => True

instance (members : List String) (s : System) (h : List (String × Dispatch.Output)) (ev : Event) :
    Decidable (s.Admits members h ev) := by
  rcases ev with _ | _ | _ | _ | ⟨i, ev, stale, lost⟩ | _ | _ | _ <;> dsimp only [Admits]
  case coordinator => rcases ev <;> infer_instance
  all_goals infer_instance

/-! ## What a step can do -/

/-- The steps of the pipeline, branch by branch. -/
inductive Step (json : Json) (s : System) :
    Event → System → List (String × Dispatch.Output) → Prop
  | submit (taskID : String) (req : SubmitTaskRequest) :
      Step json s (.submit taskID req)
        { s with submits := s.submits ++ [⟨taskID, req.payload, req.priority, .upload⟩] } []
  | refuse (taskID : String) (req : SubmitTaskRequest) : Step json s (.submit taskID req) s []
  | submitCall (k : ℕ) (r : CallResult) (c : SubmitCall) (s' : System)
      (hk : s.submits[k]? = some c) (hs : s.stepSubmit json k c r = some s') :
      Step json s (.submitCall k r) s' []
  | scan (ids : List String) :
      Step json s (.scan ids)
        { s with scans := s.scans ++ [ids.filterMap (scanned s.store)] } []
  | republish (k : ℕ) (r : CallResult) (taskID : String) (priority : ℤ)
      (rest : List (String × Option ℤ))
      (hk : s.scans[k]? = some ((taskID, some priority) :: rest)) :
      Step json s (.republish k r)
        { s with
          ingest := enqueue s.ingest (json.marshalOrphan ⟨taskID, priority⟩) r
          scans := s.scans.set k rest } []
  | panic (k : ℕ) (r : CallResult) :
      Step json s (.republish k r) { s with scans := s.scans.set k [] } []
  | coordinator (i : String) (ev : Dispatch.Event) (stale lost : Bool) (c : Coordinator)
      (out : List Dispatch.Output)
      (hs : (s.coordinators i).step json.toCodec (s.store.s3KeyOf stale) ev = some (c, out)) :
      Step json s (.coordinator i ev stale lost)
        { s with
          coordinators := Function.update s.coordinators i c
          assignments := s.assignments ++
            (out.filterMap Output.assignment ++
              (lostAssignment (s.coordinators i) ev lost).toList).map json.marshalAssignment
          marks := s.marks ++ (out.filterMap Output.assignment).map AssignmentMessage.taskID }
        (out.map (Prod.mk i))
  | markAssigned (k : ℕ) (r : CallResult) (taskID : String) (hk : s.marks[k]? = some taskID) :
      Step json s (.markAssigned k r)
        { s with store := (s.store.perform (.markAssigned taskID) r).1 } []
  | receive (workerID body : String) (a : AssignmentMessage)
      (ha : json.unmarshalAssignment body = some a) :
      Step json s (.receive workerID body)
        { s with workers := s.workers ++ [⟨workerID, a, .received⟩] } []
  | discard (workerID body : String) : Step json s (.receive workerID body) s []
  | work (k : ℕ) (r : CallResult) (err : String) (c : WorkerCall) (st : Store)
      (stage : WorkerStage) (hk : s.workers[k]? = some c)
      (hs : c.step s.store r err = some (st, stage)) :
      Step json s (.work k r err)
        { s with store := st, workers := s.workers.set k { c with stage := stage } } []

variable {json : Json} {s s' : System} {ev : Event} {out : List (String × Dispatch.Output)}

/-- Every step is one of the branches. -/
theorem step_inv (h : s.step json ev = some (s', out)) : Step json s ev s' out := by
  cases ev with
  | submit taskID req =>
    simp only [step] at h
    split_ifs at h
    · cases h
      exact .submit taskID req
    · cases h
      exact .refuse taskID req
  | submitCall k r =>
    simp only [step] at h
    split at h
    next c hk =>
      obtain ⟨s₁, hs, he⟩ := Option.map_eq_some_iff.1 h
      cases he
      exact .submitCall k r c _ hk hs
    next => cases h
  | scan ids =>
    cases h
    exact .scan ids
  | republish k r =>
    simp only [step] at h
    split at h <;> cases h
    next taskID priority rest hk => exact .republish k r taskID priority rest hk
    next => exact .panic k r
  | coordinator i ev stale lost =>
    simp only [step] at h
    split at h <;> cases h
    next c out hs => exact .coordinator i ev stale lost c out hs
  | markAssigned k r =>
    simp only [step] at h
    split at h <;> cases h
    next taskID hk => exact .markAssigned k r taskID hk
  | receive workerID body =>
    simp only [step] at h
    split at h <;> cases h
    next a ha => exact .receive workerID body a ha
    next => exact .discard workerID body
  | work k r err =>
    simp only [step] at h
    split at h
    next c hk =>
      split at h <;> cases h
      next st stage hs => exact .work k r err c st stage hk hs
    next => cases h

/-- The write that an event makes, and how its call ends. -/
inductive Issues (s : System) : Event → Write → CallResult → Prop
  | payload {r : CallResult} (k : ℕ) (c : SubmitCall) (hk : s.submits[k]? = some c) :
      Issues s (.submitCall k r) (.putObject (payloadKey c.taskID) c.payload) r
  | item {r : CallResult} (k : ℕ) (c : SubmitCall) (hk : s.submits[k]? = some c)
      (hst : c.stage = .putItem) :
      Issues s (.submitCall k r) (.putItem c.taskID c.priority (payloadKey c.taskID)) r
  | mark {r : CallResult} (k : ℕ) (taskID : String) (hk : s.marks[k]? = some taskID) :
      Issues s (.markAssigned k r) (.markAssigned taskID) r
  | worker {r : CallResult} (k : ℕ) (err : String) (c : WorkerCall) (hk : s.workers[k]? = some c)
      (w : Write) (hw : c.Writes w) : Issues s (.work k r err) w r

/-- **Every step makes at most one write**, and one that a program was about to make. -/
theorem Step.store (hs : Step json s ev s' out) :
    s'.store = s.store ∨ ∃ w r, s.Issues ev w r ∧ s'.store = (s.store.perform w r).1 := by
  cases hs with
  | submitCall k r c _ hk hs =>
    unfold stepSubmit at hs
    split at hs <;> cases hs
    next => exact .inr ⟨_, r, .payload k c hk, rfl⟩
    next hst => exact .inr ⟨_, r, .item k c hk hst, rfl⟩
    next => exact .inl rfl
  | markAssigned k r taskID hk => exact .inr ⟨_, r, .mark k taskID hk, rfl⟩
  | work k r err c st stage hk hs =>
    rcases WorkerCall.step_store hs with he | ⟨w, hw, he⟩
    · exact .inl he
    · exact .inr ⟨w, r, .worker k err c hk w hw, he⟩
  | _ => exact .inl rfl

end System

end Driftless.Pipeline
