import Driftless.Dispatch.Acknowledge
import Driftless.Dispatch.Commands

/-!
# Requests on the wire

A `GRPCPeer` translates the requests of a node to messages of `raft.proto`, and the `GRPCServer` at
the other end translates them back; snapshots go over HTTP, as JSON, up to a limit. Proto3 does not
send an empty field, and `bytes` that were not sent come out as `nil`. So a command that is empty
but not `nil` comes out as no command (`carry_eq_self_iff`), and the leader would apply an entry
that its followers skip.

But `handleIngest` proposes no empty commands. Hence coordinators that talk over the wire do what
they do when requests are passed as they are: `wire_transparent`.
-/

namespace Driftless.Raft

/-! ## Messages -/

namespace Proto

structure RequestVoteRequest where
  term : ℤ
  candidateId : String
  lastLogIndex : ℤ
  lastLogTerm : ℤ
  deriving DecidableEq, Repr

structure RequestVoteResponse where
  term : ℤ
  voteGranted : Bool
  deriving DecidableEq, Repr

structure LogEntry where
  term : ℤ
  index : ℤ
  /-- Go's slice, which can be `nil`. -/
  command : Option Bytes
  deriving DecidableEq, Repr

structure AppendEntriesRequest where
  term : ℤ
  leaderId : String
  prevLogIndex : ℤ
  prevLogTerm : ℤ
  entries : List LogEntry
  leaderCommit : ℤ
  deriving DecidableEq, Repr

structure AppendEntriesResponse where
  term : ℤ
  success : Bool
  deriving DecidableEq, Repr

/-- The entry as it is unmarshalled. -/
def LogEntry.unmarshalled (e : LogEntry) : LogEntry :=
  { e with command := e.command.filter fun b => b ≠ [] }

def AppendEntriesRequest.unmarshalled (req : AppendEntriesRequest) : AppendEntriesRequest :=
  { req with entries := req.entries.map LogEntry.unmarshalled }

end Proto

/-! ## Translations -/

def RequestVoteArgs.toProto (args : RequestVoteArgs) : Proto.RequestVoteRequest :=
  ⟨args.term, args.candidateID, args.lastLogIndex, args.lastLogTerm⟩

def RequestVoteArgs.ofProto (req : Proto.RequestVoteRequest) : RequestVoteArgs :=
  ⟨req.term.toNat, req.candidateId, req.lastLogIndex.toNat, req.lastLogTerm.toNat⟩

def RequestVoteReply.toProto (reply : RequestVoteReply) : Proto.RequestVoteResponse :=
  ⟨reply.term, reply.voteGranted⟩

def RequestVoteReply.ofProto (resp : Proto.RequestVoteResponse) : RequestVoteReply :=
  ⟨resp.term.toNat, resp.voteGranted⟩

def LogEntry.toProto (e : LogEntry) : Proto.LogEntry := ⟨e.term, e.index, e.command⟩

def LogEntry.ofProto (e : Proto.LogEntry) : LogEntry := ⟨e.term.toNat, e.index.toNat, e.command⟩

def AppendEntriesArgs.toProto (args : AppendEntriesArgs) : Proto.AppendEntriesRequest :=
  ⟨args.term, args.leaderID, args.prevLogIndex, args.prevLogTerm,
    args.entries.map LogEntry.toProto, args.leaderCommit⟩

def AppendEntriesArgs.ofProto (req : Proto.AppendEntriesRequest) : AppendEntriesArgs :=
  ⟨req.term.toNat, req.leaderId, req.prevLogIndex.toNat, req.prevLogTerm.toNat,
    req.entries.map LogEntry.ofProto, req.leaderCommit.toNat⟩

def AppendEntriesReply.toProto (reply : AppendEntriesReply) : Proto.AppendEntriesResponse :=
  ⟨reply.term, reply.success⟩

def AppendEntriesReply.ofProto (resp : Proto.AppendEntriesResponse) : AppendEntriesReply :=
  ⟨resp.term.toNat, resp.success⟩

/-- The request as it arrives. -/
def AppendEntriesArgs.carry (args : AppendEntriesArgs) : AppendEntriesArgs :=
  .ofProto args.toProto.unmarshalled

@[simp] theorem RequestVoteArgs.ofProto_toProto (args : RequestVoteArgs) :
    ofProto args.toProto = args := by
  simp [ofProto, toProto]

@[simp] theorem RequestVoteReply.ofProto_toProto (reply : RequestVoteReply) :
    ofProto reply.toProto = reply := by
  simp [ofProto, toProto]

@[simp] theorem AppendEntriesReply.ofProto_toProto (reply : AppendEntriesReply) :
    ofProto reply.toProto = reply := by
  simp [ofProto, toProto]

theorem LogEntry.ofProto_unmarshalled (e : LogEntry) :
    ofProto e.toProto.unmarshalled = { e with command := e.command.filter fun b => b ≠ [] } := by
  simp [ofProto, toProto, Proto.LogEntry.unmarshalled]

/-- **What arrives is what was sent** exactly if no command is empty. -/
theorem AppendEntriesArgs.carry_eq_self_iff (args : AppendEntriesArgs) :
    args.carry = args ↔ ∀ e ∈ args.entries, e.command ≠ some [] := by
  have hentry : ∀ e : LogEntry, LogEntry.ofProto e.toProto.unmarshalled = e ↔
      e.command ≠ some [] := by
    intro e
    rw [LogEntry.ofProto_unmarshalled]
    rcases e with ⟨term, index, _ | b⟩
    · simp
    · by_cases hb : b = [] <;> simp [Option.filter, hb]
  have hentries : args.carry = { args with
      entries := args.entries.map fun e => LogEntry.ofProto e.toProto.unmarshalled } := by
    simp [carry, ofProto, toProto, Proto.AppendEntriesRequest.unmarshalled]
  have hself : args.entries.map (fun e => LogEntry.ofProto e.toProto.unmarshalled) =
      args.entries ↔ ∀ e ∈ args.entries, LogEntry.ofProto e.toProto.unmarshalled = e := by
    conv_lhs => rhs; rw [← List.map_id args.entries]
    exact List.map_inj_left
  rw [hentries]
  constructor
  · intro heq e he
    exact (hentry e).1 (hself.1 (congrArg AppendEntriesArgs.entries heq) e he)
  · intro hall
    rw [hself.2 fun e he => (hentry e).2 (hall e he)]

/-- The limit of `handleInstallSnapshot` on the body of a request. -/
def maxBody : ℕ := 67108864

/-- What was sent, as it arrives. -/
def Output.carried : Output → Output
  | .requestVote args => .requestVote (.ofProto args.toProto)
  | .requestVoteReply args reply => .requestVoteReply args (.ofProto reply.toProto)
  | .appendEntries dst args => .appendEntries dst args.carry
  | .appendEntriesReply args reply => .appendEntriesReply args (.ofProto reply.toProto)
  | o => o

def carriedHistory (h : List (String × Output)) : List (String × Output) :=
  h.map fun o => (o.1, o.2.carried)

/-- What can happen at a member whose requests and replies are carried by the wire. A reply is for
the request as it arrived, and a snapshot arrives if its body, of length `body`, is within the
limit. -/
def Carried (body : InstallSnapshotArgs → ℕ) (s : Server) (h : List (String × Output))
    (i : String) : Event → Prop
  | .handleInstallSnapshot args => body args ≤ maxBody ∧
      Delivered s (carriedHistory h) i (.handleInstallSnapshot args)
  | .voteReply p reply => ∀ e ∈ s.run.current,
      (p, .requestVoteReply (.ofProto e.args.toProto) reply) ∈ carriedHistory h
  | .appendReply p args reply => (p, .appendEntriesReply args.carry reply) ∈ carriedHistory h
  | ev => Delivered s (carriedHistory h) i ev

instance : LawfulBEq (String × Output) := inferInstance

instance (body : InstallSnapshotArgs → ℕ) (s : Server) (h : List (String × Output)) (i : String)
    (ev : Event) : Decidable (Carried body s h i ev) := by
  cases ev <;> (dsimp only [Carried]; infer_instance)

/-- No request in the history holds an empty command. -/
def NoneEmpty (h : List (String × Output)) : Prop :=
  ∀ i dst args, (i, .appendEntries dst args) ∈ h → ∀ e ∈ args.entries, e.command ≠ some []

theorem carriedHistory_eq {h : List (String × Output)} (hne : NoneEmpty h) :
    carriedHistory h = h := by
  conv_rhs => rw [← List.map_id h]
  refine List.map_congr_left fun o ho => ?_
  rcases o with ⟨i, o⟩
  cases o with
  | appendEntries dst args =>
    have hcarry := args.carry_eq_self_iff.2 (hne i dst args ho)
    simp [Output.carried, hcarry]
  | _ => simp [Output.carried]

/-- A call that a replicator waits for was there before, or is sent by this step. -/
theorem Server.Step.waiting_cases {s s' : Server} {ev : Event} {out : List Output}
    (hs : Server.Step s ev s' out) {p : String} {args : AppendEntriesArgs}
    (hw : s'.replicators p = .waiting (.append args)) :
    s.replicators p = .waiting (.append args) ∨ .appendEntries p args ∈ out := by
  have hupd : ∀ {q : String} {r : Replicator}, (∀ a, r ≠ .waiting (.append a)) →
      Function.update s.replicators q r p = .waiting (.append args) →
        s.replicators p = .waiting (.append args) := by
    intro q r hr hq
    by_cases hpq : p = q
    · subst hpq
      rw [Function.update_self] at hq
      exact absurd hq (hr args)
    · rwa [Function.update_of_ne hpq] at hq
  cases hs with
  | sendShip | appendReply | shipNothing | sendInstallSnapshot | installReply | rpcError =>
    exact .inl (hupd (by simp) hw)
  | sendAppend q n args' hr hidle hq hl hsend =>
    by_cases hpq : p = q
    · subst hpq
      simp only [Function.update_self, Replicator.waiting.injEq, Call.append.injEq] at hw
      subst hw
      exact .inr (by simp)
    · simp only [Function.update_of_ne hpq] at hw
      exact .inl hw
  | restart => cases hw
  | _ => exact .inl hw

/-- Without empty commands the wire delivers what was sent. -/
theorem Carried.delivered {body : InstallSnapshotArgs → ℕ} {s s' : Server}
    {h : List (String × Output)} {i : String} {ev : Event} {out : List Output}
    (hc : Carried body s h i ev) (hne : NoneEmpty h)
    (hcalls : ∀ p args, s.replicators p = .waiting (.append args) →
      ∀ e ∈ args.entries, e.command ≠ some [])
    (hs : Server.Step s ev s' out) : Delivered s h i ev := by
  have hsame := carriedHistory_eq hne
  cases ev with
  | handleInstallSnapshot args =>
    rw [← hsame]
    exact hc.2
  | voteReply p reply =>
    intro e he
    have hreply := hc e he
    rwa [hsame, RequestVoteArgs.ofProto_toProto] at hreply
  | appendReply p args reply =>
    have hcarry : args.carry = args := by
      cases hs with
      | appendReply _ _ _ hw => exact args.carry_eq_self_iff.2 (hcalls p args hw)
    have hreply : (p, .appendEntriesReply args.carry reply) ∈ carriedHistory h := hc
    rwa [hsame, hcarry] at hreply
  | _ =>
    rw [← hsame]
    exact hc

end Driftless.Raft

namespace Driftless.Dispatch

open Raft

/-- The steps of a cluster whose members talk over the wire. -/
def Wired (body : InstallSnapshotArgs → ℕ) (members : List String) (c : Coordinators)
    (h : List (String × Output)) (x : String × Event) : Prop :=
  x.1 ∈ members ∧
    match x.2 with
    | .node ev => Carried body (c x.1).server (nodeHistory h) x.1 ev
    | ev => (c x.1).Delivered h x.1 ev

instance (body : InstallSnapshotArgs → ℕ) (members : List String) (c : Coordinators)
    (h : List (String × Output)) (x : String × Event) : Decidable (Wired body members c h x) := by
  unfold Wired
  have : Decidable (match x.2 with
    | .node ev => Carried body (c x.1).server (nodeHistory h) x.1 ev
    | ev => (c x.1).Delivered h x.1 ev) := by
    split <;> infer_instance
  infer_instance

/-- A coordinator has no empty command. -/
structure Filled (c : Coordinator) : Prop where
  commands : CommandsGood (fun b => b ≠ []) c.server
  calls : ∀ p args, c.server.replicators p = .waiting (.append args) →
    ∀ e ∈ args.entries, EntryGood (fun b => b ≠ []) e
  encoded : ∀ m t b, c.ingest = .propose m t b → b ≠ []

section Step

variable {json : Codec} {s3Key : String → String} {c c' : Coordinator} {ev : Event}
  {out : List Output}

/-- A step of the node that is given no empty commands. -/
theorem Filled.server (hi : Filled c) {ev : Raft.Event} {s : Server} {o : List Raft.Output}
    (hs : Server.Step c.server ev s o)
    (hreq : ∀ args, ev = .handleAppendEntries args →
      ∀ e ∈ args.entries, EntryGood (fun b => b ≠ []) e)
    (hprop : ∀ b, ev = .propose (some b) → b ≠ []) {d : Finset String} {a : ApplyCall}
    {j : IngestCall} (hj : ∀ m t b, j = .propose m t b → b ≠ []) :
    Filled ⟨s, d, a, j⟩ ∧
      RequestsGood (fun b => b ≠ []) ((o.map Output.node).filterMap Output.raft) := by
  obtain ⟨hgood, hsent⟩ := hi.commands.step hs hreq hprop
  refine ⟨⟨hgood, fun p args hw => ?_, hj⟩, by rwa [filterMap_raft_nodes]⟩
  rcases hs.waiting_cases hw with hold | hnew
  · exact hi.calls p args hold
  · exact hsent p args hnew

theorem Filled.step (hjson : json.Lawful) (hi : Filled c)
    (hs : Coordinator.Step json s3Key c ev c' out)
    (hreq : ∀ args, ev = .node (.handleAppendEntries args) →
      ∀ e ∈ args.entries, EntryGood (fun b => b ≠ []) e) :
    Filled c' ∧ RequestsGood (fun b => b ≠ []) (out.filterMap Output.raft) := by
  have hnone : RequestsGood (fun b => b ≠ []) [] := nofun
  cases hs with
  | node ev s o hown hsrv =>
    refine hi.server hsrv (fun args he => hreq args (by rw [he])) (fun b hb => ?_) hi.encoded
    rw [hb] at hown
    cases hown
  | applied _ _ _ s o _ _ hsrv | snapshot _ s o _ hsrv | restore _ _ _ _ _ s o _ _ hsrv =>
    exact hi.server hsrv (by simp) (by simp) hi.encoded
  | propose m taskID b s o hing hsrv =>
    refine hi.server hsrv (by simp) (fun b' hb => ?_) (by simp)
    cases hb
    exact hi.encoded m taskID b hing
  | encoded m msg b hing henc =>
    refine ⟨⟨hi.commands, hi.calls, fun m' t' b' hb => ?_⟩, hnone⟩
    cases hb
    rintro rfl
    have hdec := hjson.command _ _ henc
    rw [hjson.command_nil] at hdec
    cases hdec
  | markNothing | mark | leader | notLeader | published | sendFailed | retract =>
    exact ⟨⟨hi.commands, hi.calls, hi.encoded⟩, hnone⟩
  | receive | lookup | lookupError | proposeRefused | timeout =>
    exact ⟨⟨hi.commands, hi.calls, by simp⟩, hnone⟩
  | dropped m out hing hdec hout =>
    exact ⟨⟨hi.commands, hi.calls, by simp⟩, by rwa [filterMap_raft_ack hout]⟩
  | fastPath m | noKey m =>
    exact ⟨⟨hi.commands, hi.calls, by simp⟩, by rwa [filterMap_raft_ack fun _ ho => ho]⟩
  | result m taskID ch res hing =>
    refine ⟨⟨hi.commands, hi.calls, by simp⟩, ?_⟩
    split_ifs
    · rwa [filterMap_raft_ack fun _ ho => ho]
    · exact hnone

end Step

/-! ## Runs -/

section Run

variable {json : Codec} {s3Key : String → String} {members : List String}
  {body : InstallSnapshotArgs → ℕ} {c₁ : Coordinator} {c c' : Coordinators}
  {h out : List (String × Output)}
  {x : String × Event}

/-- No command is empty, neither in a coordinator nor on its way to one. -/
structure AllFilled (c : Coordinators) (h : List (String × Output)) : Prop where
  members : ∀ i, Filled (c i)
  sent : NoneEmpty (nodeHistory h)

theorem filled_boot (id : String) (peers : List String) : Filled (Coordinator.boot id peers) :=
  ⟨commandsGood_boot id peers .snapshotable none, nofun, nofun⟩

theorem Filled.calls_ne (hi : Filled c₁) (p : String) (args : AppendEntriesArgs)
    (hw : c₁.server.replicators p = .waiting (.append args)) (e : LogEntry)
    (he : e ∈ args.entries) : e.command ≠ some [] :=
  fun hb => hi.calls p args hw e he [] hb rfl

theorem Wired.network (hi : AllFilled c h) (hs : c.step json s3Key x = some (c', out))
    (hw : Wired body members c h x) : Network members c h x := by
  obtain ⟨i, ev⟩ := x
  refine ⟨hw.1, ?_⟩
  have hcar := hw.2
  obtain ⟨s, o, hstep, -, -⟩ := Coordinators.step_eq hs
  cases ev with
  | node ev =>
    cases hstep with
    | node _ s o _ hsrv => exact Carried.delivered hcar hi.sent (hi.members i).calls_ne hsrv
  | _ => exact hcar

theorem AllFilled.step (hjson : json.Lawful) (hi : AllFilled c h) (hok : Network members c h x)
    (hs : c.step json s3Key x = some (c', out)) : AllFilled c' (h ++ out) := by
  obtain ⟨i, ev⟩ := x
  obtain ⟨s, o, hstep, rfl, rfl⟩ := Coordinators.step_eq hs
  obtain ⟨hfill, hsent⟩ := (hi.members i).step hjson hstep fun args he e hmem b hb hnil => by
    subst he hnil
    obtain ⟨⟨j, _⟩, hj, rfl⟩ := hok.2
    exact hi.sent j i args hj e hmem hb
  refine ⟨fun j => ?_, ?_⟩
  · by_cases hj : j = i
    · subst hj
      rw [Function.update_self]
      exact hfill
    · rw [Function.update_of_ne hj]
      exact hi.members j
  · intro j dst args hmem e he hnil
    rw [nodeHistory_append, nodeHistory_map] at hmem
    rcases List.mem_append.1 hmem with hold | hnew
    · exact hi.sent j dst args hold e he hnil
    · obtain ⟨o', ho', heq⟩ := List.mem_map.1 hnew
      cases heq
      exact hsent dst args ho' e he [] hnil rfl

/-- **The wire is transparent**: whatever coordinators do that talk over it, coordinators whose
requests are passed as they are can do too. -/
theorem wire_transparent (hjson : json.Lawful)
    (r : Run (Coordinators.step json s3Key) (Wired body members) (Coordinators.boot members) [] c
      h) :
    Run (Coordinators.step json s3Key) (Network members) (Coordinators.boot members) [] c h := by
  have hrun := r.invariant
    (I := fun c h => Run (Coordinators.step json s3Key) (Network members)
      (Coordinators.boot members) [] c h ∧ AllFilled c h)
    ⟨.refl, fun i => filled_boot i (members.erase i), nofun⟩ ?_
  · exact hrun.1
  · intro c h x c' out hi hok hs
    have hnet := hok.network hi.2 hs
    exact ⟨hi.1.tail hnet hs, hi.2.step hjson hnet hs⟩

end Run

/-- A task is proposed, replicated over the wire and published. -/
theorem wire_transparent_of_send : ∃ c h, taskCodec.Lawful ∧
    Run (Coordinators.step taskCodec fun _ => "in/t1")
      (Wired (fun args => args.data.length) ["a", "b", "c"]) (Coordinators.boot ["a", "b", "c"])
      [] c h ∧
    publishedIDs h = ["t1"] ∧
    Run (Coordinators.step taskCodec fun _ => "in/t1") (Network ["a", "b", "c"])
      (Coordinators.boot ["a", "b", "c"]) [] c h := by
  obtain ⟨c, h, r, hpub⟩ := exists_run_of_exec (Coordinators.step taskCodec fun _ => "in/t1")
    (Wired (fun args => args.data.length) ["a", "b", "c"]) (Coordinators.boot ["a", "b", "c"]) []
    (taskCommitted ++ ("a", .sendMessage true) :: taskReported)
    (fun _ h => publishedIDs h = ["t1"]) (by decide +kernel)
  exact ⟨c, h, taskCodec_lawful, r, hpub, wire_transparent taskCodec_lawful r⟩

end Driftless.Dispatch
