import Mathlib.Data.Finset.Basic
import Driftless.Raft.Server

/-!
# A coordinator

A coordinator is a running node whose state machine is the `Dispatcher` of `raft/dispatcher.go`.
The apply loop calls its `Apply`, which marks a task as dispatched in one lock section and then, on
the leader, publishes the assignment; `handleIngest` takes messages off the ingest queue, proposes
a command for each and deletes the message once the command is committed. `Coordinator.step` has
one event for each lock section and each call to the outside.

`encoding/json` is a parameter (`Codec`), as is the `s3_key` of each task's item (`""` where there
is none). Whether a call to SQS or DynamoDB succeeds is part of the event. The update of the
item's status after a publish is left out, since nothing here reads it.
-/

namespace Driftless.Dispatch

open Raft

/-! ## Data -/

/-- The replicated command. -/
structure DispatchCommand where
  type : String
  taskID : String
  priority : ℤ
  s3Key : String
  deriving DecidableEq, Repr

structure IngestMessage where
  taskID : String
  priority : ℤ
  deriving DecidableEq, Repr

structure AssignmentMessage where
  taskID : String
  priority : ℤ
  s3Key : String
  deriving DecidableEq, Repr

/-- A message of the ingest queue. -/
structure QueueMessage where
  body : Option String
  receiptHandle : Option String
  deriving DecidableEq, Repr

/-- `json.Marshal` and `json.Unmarshal` on the types of the dispatcher. -/
structure Codec where
  unmarshalIngest : String → Option IngestMessage
  marshalCommand : DispatchCommand → Option Bytes
  unmarshalCommand : Bytes → Option DispatchCommand
  /-- On `dispatcherSnap`, whose only field is the list of ids. -/
  marshalSnap : List String → Option Bytes
  unmarshalSnap : Bytes → Option (List String)

/-- Decoding inverts encoding, and the empty input is not a JSON value. -/
structure Codec.Lawful (json : Codec) : Prop where
  command : ∀ cmd b, json.marshalCommand cmd = some b → json.unmarshalCommand b = some cmd
  command_nil : json.unmarshalCommand [] = none
  snap : ∀ ids b, json.marshalSnap ids = some b → json.unmarshalSnap b = some ids

/-- What `handleIngest` reads off a message: nothing where it is dropped. -/
def QueueMessage.decode (json : Codec) (m : QueueMessage) : Option IngestMessage :=
  (m.body.bind json.unmarshalIngest).filter fun msg => msg.taskID ≠ ""

/-- Where a call of `Apply` is. -/
inductive ApplyCall
  /-- Not called yet for the entry in the hands of the apply loop. -/
  | idle
  /-- The task was marked as dispatched by this call. -/
  | marked (cmd : DispatchCommand)
  /-- In `SendMessage`. -/
  | sending (cmd : DispatchCommand)
  /-- `SendMessage` failed, and the marker is still there. -/
  | failed (cmd : DispatchCommand)
  | returned
  deriving DecidableEq, Repr

/-- The task a call of `Apply` has marked and not yet published or given up. -/
def ApplyCall.task : ApplyCall → Option String
  | .marked cmd => some cmd.taskID
  | .sending cmd => some cmd.taskID
  | .failed cmd => some cmd.taskID
  | _ => none

/-- Where `handleIngest` is. -/
inductive IngestCall
  | idle
  | received (m : QueueMessage)
  /-- Before `lookupS3Key`. -/
  | lookup (m : QueueMessage) (msg : IngestMessage)
  /-- Before `Propose`, with the encoded command. -/
  | propose (m : QueueMessage) (taskID : String) (encoded : Bytes)
  /-- In the select, on the channel `Propose` returned. -/
  | waiting (m : QueueMessage) (taskID : String) (ch : ℕ)
  deriving DecidableEq, Repr

structure Coordinator where
  server : Server
  dispatched : Finset String
  applying : ApplyCall
  ingest : IngestCall

inductive Output
  | node (o : Raft.Output)
  /-- A successful `SendMessage` to the assignment queue. -/
  | published (msg : AssignmentMessage)
  /-- `DeleteMessage` on the ingest queue. -/
  | deleted (m : QueueMessage)
  deriving DecidableEq, Repr

inductive Event
  /-- A step of the node in which the dispatcher takes no part. -/
  | node (ev : Raft.Event)
  -- `Apply`
  | mark
  | checkLeader
  | sendMessage (ok : Bool)
  | retract
  | applied
  -- `Snapshot`, with the order in which the map is traversed, and `Restore`
  | snapshot (ids : List String)
  | restore (k : ℕ)
  -- `handleIngest`
  | receive (m : QueueMessage)
  | checkDispatched
  | lookupS3Key (ok : Bool)
  | propose
  | result (res : ProposeResult)
  | timeout
  deriving DecidableEq, Repr

/-! ## Steps -/

/-- The steps of a node that do not call its state machine or come from it. Crashes are left
out. -/
def ownStep : Raft.Event → Bool
  | .applyCall => false
  | .serialize _ => false
  | .finishInstall _ _ => false
  | .propose _ => false
  | .restart => false
  | _ => true

def ack (m : QueueMessage) : List Output :=
  match m.receiptHandle with
  | none => []
  | some _ => [.deleted m]

namespace Coordinator

/-- `NewDispatcher` on a fresh node. -/
def boot (id : String) (peers : List String) : Coordinator :=
  ⟨Server.boot id peers .snapshotable none, ∅, .idle, .idle⟩

/-- `Apply` up to the end of its first lock section. -/
def mark (json : Codec) (c : Coordinator) (command : Bytes) : Coordinator :=
  if command = [] then { c with applying := .returned }
  else match json.unmarshalCommand command with
    | none => { c with applying := .returned }
    | some cmd =>
      if cmd.type ≠ "dispatch" ∨ cmd.taskID = "" then { c with applying := .returned }
      else if cmd.taskID ∈ c.dispatched then { c with applying := .returned }
      else { c with dispatched := insert cmd.taskID c.dispatched, applying := .marked cmd }

/-- `handleIngest` up to the fast path for tasks that were dispatched. -/
def checkDispatched (json : Codec) (c : Coordinator) (m : QueueMessage) :
    Coordinator × List Output :=
  match m.body with
  | none => ({ c with ingest := .idle }, [])
  | some body =>
    match json.unmarshalIngest body with
    | none => ({ c with ingest := .idle }, ack m)
    | some msg =>
      if msg.taskID = "" then ({ c with ingest := .idle }, ack m)
      else if msg.taskID ∈ c.dispatched then ({ c with ingest := .idle }, ack m)
      else ({ c with ingest := .lookup m msg }, [])

/-- `handleIngest` from the lookup of the item, which returned this key, to the encoding. -/
def lookedUp (json : Codec) (c : Coordinator) (m : QueueMessage) (msg : IngestMessage)
    (s3Key : String) : Coordinator × List Output :=
  if s3Key = "" then ({ c with ingest := .idle }, ack m)
  else match json.marshalCommand ⟨"dispatch", msg.taskID, msg.priority, s3Key⟩ with
    | none => ({ c with ingest := .idle }, [])
    | some encoded => ({ c with ingest := .propose m msg.taskID encoded }, [])

/-- A step of the node, with what it hands to the outside. -/
def stepServer (c : Coordinator) (ev : Raft.Event) : Option (Coordinator × List Output) :=
  match c.server.step ev with
  | some (s, out) => some ({ c with server := s }, out.map .node)
  | none => none

/-- A step of `Apply`. -/
def stepApply (json : Codec) (c : Coordinator) : Event → Option (Coordinator × List Output)
  | .mark =>
    match c.server.apply, c.applying with
    | .read _ ⟨_, _, some command⟩ _, .idle => some (c.mark json command, [])
    | _, _ => none
  | .checkLeader =>
    match c.applying with
    | .marked cmd =>
      if c.server.node.state = .leader then some ({ c with applying := .sending cmd }, [])
      else some ({ c with applying := .returned }, [])
    | _ => none
  | .sendMessage ok =>
    match c.applying with
    | .sending cmd =>
      if ok then
        some ({ c with applying := .returned },
          [.published ⟨cmd.taskID, cmd.priority, cmd.s3Key⟩])
      else some ({ c with applying := .failed cmd }, [])
    | _ => none
  | .retract =>
    match c.applying with
    | .failed cmd =>
      some ({ c with dispatched := c.dispatched.erase cmd.taskID, applying := .returned }, [])
    | _ => none
  | .applied =>
    match c.server.apply, c.applying with
    | .read _ _ _, .returned => { c with applying := .idle }.stepServer .applyCall
    -- entries without a command are not handed to `Apply`
    | .read _ ⟨_, _, none⟩ _, .idle => c.stepServer .applyCall
    | _, _ => none
  | _ => none

/-- A step of `Snapshot` or `Restore`. -/
def stepSnapshot (json : Codec) (c : Coordinator) : Event → Option (Coordinator × List Output)
  | .snapshot ids =>
    if ids.Nodup ∧ ids.toFinset = c.dispatched then c.stepServer (.serialize (json.marshalSnap ids))
    else none
  | .restore k =>
    match c.server.installs[k]? with
    | some (args, _) =>
      if args.data = [] then c.stepServer (.finishInstall k true)
      else match json.unmarshalSnap args.data with
        | none => c.stepServer (.finishInstall k false)
        | some ids => { c with dispatched := ids.toFinset }.stepServer (.finishInstall k true)
    | none => none
  | _ => none

/-- A step of `handleIngest`, which `pollOnce` calls on the leader, one message at a time. -/
def stepIngest (json : Codec) (s3Key : String → String) (c : Coordinator) :
    Event → Option (Coordinator × List Output)
  | .receive m =>
    if c.ingest = .idle ∧ c.server.node.state = .leader then
      some ({ c with ingest := .received m }, [])
    else none
  | .checkDispatched =>
    match c.ingest with
    | .received m => some (c.checkDispatched json m)
    | _ => none
  | .lookupS3Key ok =>
    match c.ingest with
    | .lookup m msg =>
      if ok then some (c.lookedUp json m msg (s3Key msg.taskID))
      else some ({ c with ingest := .idle }, [])
    | _ => none
  | .propose =>
    match c.ingest with
    | .propose m taskID encoded =>
      match c.server.step (.propose (some encoded)) with
      | some (s, out) =>
        some ({ c with server := s, ingest := .waiting m taskID c.server.chans }, out.map .node)
      | none => some ({ c with ingest := .idle }, [])
    | _ => none
  | .result res =>
    match c.ingest with
    | .waiting m _ _ => some ({ c with ingest := .idle }, if res.committed then ack m else [])
    | _ => none
  | .timeout =>
    match c.ingest with
    | .waiting _ _ _ => some ({ c with ingest := .idle }, [])
    | _ => none
  | _ => none

/-- A step of a coordinator. -/
def step (json : Codec) (s3Key : String → String) (c : Coordinator) (ev : Event) :
    Option (Coordinator × List Output) :=
  match ev with
  | .node ev => if ownStep ev then c.stepServer ev else none
  | .mark | .checkLeader | .sendMessage _ | .retract | .applied => c.stepApply json ev
  | .snapshot _ | .restore _ => c.stepSnapshot json ev
  | _ => c.stepIngest json s3Key ev

/-! ## What a step can do -/

/-- The steps of a coordinator, branch by branch. -/
inductive Step (json : Codec) (s3Key : String → String) (c : Coordinator) :
    Event → Coordinator → List Output → Prop
  | node (ev : Raft.Event) (s : Server) (o : List Raft.Output) (hown : ownStep ev = true)
      (hs : Server.Step c.server ev s o) :
      Step json s3Key c (.node ev) { c with server := s } (o.map .node)
  -- `Apply`
  | markNothing (idx : ℕ) (e : LogEntry) (w : Option ℕ) (command : Bytes)
      (ha : c.server.apply = .read idx e w) (hcmd : e.command = some command)
      (hi : c.applying = .idle)
      (hno : ∀ cmd, command ≠ [] → json.unmarshalCommand command = some cmd →
        cmd.type = "dispatch" → cmd.taskID ≠ "" → cmd.taskID ∈ c.dispatched) :
      Step json s3Key c .mark { c with applying := .returned } []
  | mark (idx : ℕ) (e : LogEntry) (w : Option ℕ) (command : Bytes) (cmd : DispatchCommand)
      (ha : c.server.apply = .read idx e w) (hcmd : e.command = some command)
      (hi : c.applying = .idle) (hdec : json.unmarshalCommand command = some cmd) :
      Step json s3Key c .mark
        { c with dispatched := insert cmd.taskID c.dispatched, applying := .marked cmd } []
  | leader (cmd : DispatchCommand) (ha : c.applying = .marked cmd)
      (hl : c.server.node.state = .leader) :
      Step json s3Key c .checkLeader { c with applying := .sending cmd } []
  | notLeader (cmd : DispatchCommand) (ha : c.applying = .marked cmd)
      (hl : c.server.node.state ≠ .leader) :
      Step json s3Key c .checkLeader { c with applying := .returned } []
  | published (cmd : DispatchCommand) (ha : c.applying = .sending cmd) :
      Step json s3Key c (.sendMessage true) { c with applying := .returned }
        [.published ⟨cmd.taskID, cmd.priority, cmd.s3Key⟩]
  | sendFailed (cmd : DispatchCommand) (ha : c.applying = .sending cmd) :
      Step json s3Key c (.sendMessage false) { c with applying := .failed cmd } []
  | retract (cmd : DispatchCommand) (ha : c.applying = .failed cmd) :
      Step json s3Key c .retract
        { c with dispatched := c.dispatched.erase cmd.taskID, applying := .returned } []
  | applied (idx : ℕ) (e : LogEntry) (w : Option ℕ) (s : Server) (o : List Raft.Output)
      (ha : c.server.apply = .read idx e w)
      (hret : c.applying = .returned ∨ (c.applying = .idle ∧ e.command = none))
      (hs : Server.Step c.server .applyCall s o) :
      Step json s3Key c .applied { c with server := s, applying := .idle } (o.map .node)
  -- `Snapshot` and `Restore`
  | snapshot (ids : List String) (s : Server) (o : List Raft.Output)
      (hids : ids.toFinset = c.dispatched)
      (hs : Server.Step c.server (.serialize (json.marshalSnap ids)) s o) :
      Step json s3Key c (.snapshot ids) { c with server := s } (o.map .node)
  | restore (k : ℕ) (args : InstallSnapshotArgs) (reply : InstallSnapshotReply) (ok : Bool)
      (d : Finset String) (s : Server) (o : List Raft.Output)
      (hk : c.server.installs[k]? = some (args, reply))
      (hd : d = c.dispatched ∨ ∃ ids, json.unmarshalSnap args.data = some ids ∧ d = ids.toFinset)
      (hs : Server.Step c.server (.finishInstall k ok) s o) :
      Step json s3Key c (.restore k) { c with server := s, dispatched := d } (o.map .node)
  -- `handleIngest`
  | receive (m : QueueMessage) (hi : c.ingest = .idle) :
      Step json s3Key c (.receive m) { c with ingest := .received m } []
  | dropped (m : QueueMessage) (out : List Output) (hi : c.ingest = .received m)
      (hdec : m.decode json = none) (hout : ∀ o ∈ out, o ∈ ack m) :
      Step json s3Key c .checkDispatched { c with ingest := .idle } out
  | fastPath (m : QueueMessage) (msg : IngestMessage) (hi : c.ingest = .received m)
      (hdec : m.decode json = some msg) (hd : msg.taskID ∈ c.dispatched) :
      Step json s3Key c .checkDispatched { c with ingest := .idle } (ack m)
  | lookup (m : QueueMessage) (msg : IngestMessage) (hi : c.ingest = .received m)
      (hdec : m.decode json = some msg) :
      Step json s3Key c .checkDispatched { c with ingest := .lookup m msg } []
  | lookupError (ok : Bool) : Step json s3Key c (.lookupS3Key ok) { c with ingest := .idle } []
  | noKey (m : QueueMessage) (msg : IngestMessage) (hi : c.ingest = .lookup m msg)
      (hk : s3Key msg.taskID = "") :
      Step json s3Key c (.lookupS3Key true) { c with ingest := .idle } (ack m)
  | encoded (m : QueueMessage) (msg : IngestMessage) (b : Bytes) (hi : c.ingest = .lookup m msg)
      (henc : json.marshalCommand ⟨"dispatch", msg.taskID, msg.priority, s3Key msg.taskID⟩ =
        some b) :
      Step json s3Key c (.lookupS3Key true) { c with ingest := .propose m msg.taskID b } []
  | propose (m : QueueMessage) (taskID : String) (b : Bytes) (s : Server) (o : List Raft.Output)
      (hi : c.ingest = .propose m taskID b) (hs : Server.Step c.server (.propose (some b)) s o) :
      Step json s3Key c .propose
        { c with server := s, ingest := .waiting m taskID c.server.chans } (o.map .node)
  | proposeRefused : Step json s3Key c .propose { c with ingest := .idle } []
  | result (m : QueueMessage) (taskID : String) (ch : ℕ) (res : ProposeResult)
      (hi : c.ingest = .waiting m taskID ch) :
      Step json s3Key c (.result res) { c with ingest := .idle }
        (if res.committed then ack m else [])
  | timeout : Step json s3Key c .timeout { c with ingest := .idle } []

section Inversion

variable {json : Codec} {s3Key : String → String} {c c' : Coordinator} {ev : Event}
  {out : List Output}

theorem stepServer_inv {ev : Raft.Event} (h : c.stepServer ev = some (c', out)) :
    ∃ s o, Server.Step c.server ev s o ∧ c' = { c with server := s } ∧ out = o.map .node := by
  unfold stepServer at h
  split at h
  next s o hs =>
    cases h
    exact ⟨s, o, Server.step_inv hs, rfl, rfl⟩
  next => cases h

theorem Step.of_stepApply (h : c.stepApply json ev = some (c', out)) :
    Step json s3Key c ev c' out := by
  cases ev with
  | mark =>
    simp only [stepApply] at h
    split at h <;> cases h
    next idx t i command w ha hi =>
      unfold Coordinator.mark
      split
      next hnil => exact .markNothing idx _ w command ha rfl hi fun cmd hne => absurd hnil hne
      next hne =>
        split
        next hnone =>
          refine .markNothing idx _ w command ha rfl hi fun cmd _ hdec => ?_
          rw [hnone] at hdec
          cases hdec
        next cmd hdec =>
          split_ifs with hbad hdup
          · refine .markNothing idx _ w command ha rfl hi fun cmd' _ hdec' ht hid => ?_
            rw [hdec] at hdec'
            cases hdec'
            exact absurd hbad (not_or.2 ⟨not_not.2 ht, hid⟩)
          · refine .markNothing idx _ w command ha rfl hi fun cmd' _ hdec' _ _ => ?_
            rw [hdec] at hdec'
            cases hdec'
            exact hdup
          · exact .mark idx _ w command cmd ha rfl hi hdec
  | checkLeader =>
    simp only [stepApply] at h
    split at h
    next cmd ha =>
      split_ifs at h with hl
      · cases h
        exact .leader cmd ha hl
      · cases h
        exact .notLeader cmd ha hl
    next => cases h
  | sendMessage ok =>
    simp only [stepApply] at h
    split at h
    next cmd ha =>
      cases ok <;> cases h
      · exact .sendFailed cmd ha
      · exact .published cmd ha
    next => cases h
  | retract =>
    simp only [stepApply] at h
    split at h <;> cases h
    next cmd ha => exact .retract cmd ha
  | applied =>
    simp only [stepApply] at h
    split at h
    next idx e w ha hret =>
      obtain ⟨s, o, hs, rfl, rfl⟩ := stepServer_inv h
      exact .applied idx e w s o ha (.inl hret) hs
    next idx t i w ha hidle =>
      obtain ⟨s, o, hs, rfl, rfl⟩ := stepServer_inv h
      have hstep : Step json s3Key c .applied { c with server := s, applying := .idle }
          (o.map .node) := .applied idx _ w s o ha (.inr ⟨hidle, rfl⟩) hs
      rwa [← hidle] at hstep
    next => cases h
  | _ => cases h

theorem Step.of_stepSnapshot (h : c.stepSnapshot json ev = some (c', out)) :
    Step json s3Key c ev c' out := by
  cases ev with
  | snapshot ids =>
    simp only [stepSnapshot] at h
    split_ifs at h with hids
    obtain ⟨s, o, hs, rfl, rfl⟩ := stepServer_inv h
    exact .snapshot ids s o hids.2 hs
  | restore k =>
    simp only [stepSnapshot] at h
    split at h
    next args reply hk =>
      split_ifs at h with hnil
      · obtain ⟨s, o, hs, rfl, rfl⟩ := stepServer_inv h
        exact .restore k args reply true _ s o hk (.inl rfl) hs
      · split at h
        next hnone =>
          obtain ⟨s, o, hs, rfl, rfl⟩ := stepServer_inv h
          exact .restore k args reply false _ s o hk (.inl rfl) hs
        next ids hsome =>
          obtain ⟨s, o, hs, rfl, rfl⟩ := stepServer_inv h
          exact .restore k args reply true _ s o hk (.inr ⟨ids, hsome, rfl⟩) hs
    next => cases h
  | _ => cases h

theorem Step.of_checkDispatched {m : QueueMessage} (hi : c.ingest = .received m) :
    Step json s3Key c .checkDispatched (c.checkDispatched json m).1
      (c.checkDispatched json m).2 := by
  unfold Coordinator.checkDispatched
  split
  next hbody => exact .dropped m [] hi (by simp [QueueMessage.decode, hbody]) nofun
  next body hbody =>
    split
    next hnone =>
      exact .dropped m _ hi (by simp [QueueMessage.decode, hbody, hnone]) fun _ ho => ho
    next msg hmsg =>
      split_ifs with hid hd
      · refine .dropped m _ hi ?_ fun _ ho => ho
        simp [QueueMessage.decode, hbody, hmsg, hid]
      · exact .fastPath m msg hi (by simp [QueueMessage.decode, hbody, hmsg, hid]) hd
      · exact .lookup m msg hi (by simp [QueueMessage.decode, hbody, hmsg, hid])

theorem Step.of_stepIngest (h : c.stepIngest json s3Key ev = some (c', out)) :
    Step json s3Key c ev c' out := by
  cases ev with
  | receive m =>
    simp only [stepIngest] at h
    split_ifs at h with hi
    cases h
    exact .receive m hi.1
  | checkDispatched =>
    simp only [stepIngest] at h
    split at h
    next m hi =>
      have hstep : Step json s3Key c .checkDispatched _ _ := .of_checkDispatched hi
      rw [Option.some.inj h] at hstep
      exact hstep
    next => cases h
  | lookupS3Key ok =>
    simp only [stepIngest] at h
    split at h
    next m msg hi =>
      cases ok with
      | false =>
        cases h
        exact .lookupError false
      | true =>
        rw [if_pos rfl, Option.some.injEq] at h
        unfold Coordinator.lookedUp at h
        split_ifs at h with hk
        · cases h
          exact .noKey m msg hi hk
        · split at h
          next =>
            cases h
            exact .lookupError true
          next b henc =>
            cases h
            exact .encoded m msg b hi henc
    next => cases h
  | propose =>
    simp only [stepIngest] at h
    split at h
    next m taskID b hi =>
      split at h
      next s o hs =>
        cases h
        exact .propose m taskID b s o hi (Server.step_inv hs)
      next =>
        cases h
        exact .proposeRefused
    next => cases h
  | result res =>
    simp only [stepIngest] at h
    split at h <;> cases h
    next m taskID ch hi => exact .result m taskID ch res hi
  | timeout =>
    simp only [stepIngest] at h
    split at h <;> cases h
    exact .timeout
  | _ => cases h

/-- Every step is one of the branches. -/
theorem step_inv (h : c.step json s3Key ev = some (c', out)) : Step json s3Key c ev c' out := by
  cases ev with
  | node ev =>
    simp only [step] at h
    split_ifs at h with hown
    obtain ⟨s, o, hs, rfl, rfl⟩ := stepServer_inv h
    exact .node ev s o hown hs
  | mark | checkLeader | sendMessage _ | retract | applied => exact .of_stepApply h
  | snapshot _ | restore _ => exact .of_stepSnapshot h
  | _ => exact .of_stepIngest h

end Inversion

end Coordinator

end Driftless.Dispatch
