import Driftless.Dispatch.Markers

/-!
# Where the commands of a log come from

Every command in a coordinator's log, in the entry its apply loop holds and in the requests it sends
was encoded by some coordinator's `handleIngest`, and so was every assignment it publishes: what
holds of the encoded commands holds of all of them. `good` is a property of encoded commands, and
`CommandsGood` says that a server only has good ones; a step keeps it, where the requests and
proposals it is given are good (`CommandsGood.step`). A coordinator encodes commands itself, and
with `Supplies` its steps only need good requests (`Supplies.step`).
-/

namespace Driftless.Dispatch

open Raft

/-! ## Entries of a log -/

section Log

variable {log : List LogEntry} {e x : LogEntry} {idx : ℕ}

/-- The command of an entry, if it has one, is good. -/
def EntryGood (good : Bytes → Prop) (e : LogEntry) : Prop := ∀ b, e.command = some b → good b

theorem mem_of_entryAt (h : entryAt log idx = some e) : e ∈ log ∨ e = default := by
  unfold entryAt at h
  split_ifs at h
  rw [← Option.some.inj h, List.getD_eq_getElem?_getD]
  cases hx : log[idx - firstIndex log]? with
  | none => exact .inr rfl
  | some y => exact .inl (List.mem_of_getElem? hx)

theorem mem_of_mem_entriesFrom (h : e ∈ entriesFrom log idx) : e ∈ log := by
  unfold entriesFrom at h
  dsimp only at h
  split_ifs at h
  all_goals first | exact List.mem_of_mem_drop h | simp at h

theorem mem_of_mem_truncateAt (h : e ∈ truncateAt log idx) : e ∈ log := by
  unfold truncateAt at h
  split_ifs at h
  · exact h
  · exact h
  · exact List.mem_of_mem_take h

theorem mem_of_mem_compactLogLocked {k t : ℕ} (h : e ∈ compactLogLocked log k t) :
    e ∈ log ∨ e.command = none := by
  unfold compactLogLocked at h
  split_ifs at h
  · exact .inl h
  · exact .inr (by rw [List.mem_singleton.1 h])
  · rcases List.mem_cons.1 h with rfl | hold
    · exact .inr rfl
    · exact .inl (List.mem_of_mem_drop hold)

theorem mem_of_mem_appendEntry (h : x ∈ appendEntry log idx e) : x ∈ log ∨ x = e := by
  unfold appendEntry at h
  split_ifs at h
  · exact .inl h
  · split at h
    · simpa using h
    · split_ifs at h
      · rcases List.mem_append.1 h with hold | hnew
        · exact .inl (mem_of_mem_truncateAt hold)
        · exact .inr (List.mem_singleton.1 hnew)
      · exact .inl h

theorem mem_of_mem_appendEntries {es : List LogEntry} (h : x ∈ appendEntries log idx es) :
    x ∈ log ∨ x ∈ es := by
  induction es generalizing log idx with
  | nil => exact .inl h
  | cons e es ih =>
    rcases ih h with hlog | hes
    · exact (mem_of_mem_appendEntry hlog).imp_right fun heq => by simp [heq]
    · exact .inr (List.mem_cons_of_mem _ hes)

end Log

/-! ## A server's commands -/

/-- The entry in the hands of the apply loop. -/
def entryHeld : ApplyLoop → Option LogEntry
  | .read _ entry _ => some entry
  | .applied _ entry _ => some entry
  | .written entry _ => some entry
  | _ => none

/-- All commands a server has are good. -/
structure CommandsGood (good : Bytes → Prop) (s : Server) : Prop where
  log : ∀ e ∈ s.node.logEntries, EntryGood good e
  held : ∀ e, entryHeld s.apply = some e → EntryGood good e

/-- All commands in the requests of a list of outputs are good. -/
def RequestsGood (good : Bytes → Prop) (out : List Raft.Output) : Prop :=
  ∀ dst args, .appendEntries dst args ∈ out → ∀ e ∈ args.entries, EntryGood good e

section Server

variable {good good' : Bytes → Prop} {s s' : Server} {ev : Raft.Event} {out : List Raft.Output}

theorem EntryGood.mono (himp : ∀ b, good b → good' b) {e : LogEntry} (h : EntryGood good e) :
    EntryGood good' e := fun b hb => himp b (h b hb)

theorem CommandsGood.mono (himp : ∀ b, good b → good' b) (h : CommandsGood good s) :
    CommandsGood good' s :=
  ⟨fun e he => (h.log e he).mono himp, fun e he => (h.held e he).mono himp⟩

theorem commandsGood_boot (id : String) (peers : List String) (sm : StateMachineKind)
    (store : Option RaftSnapshot) : CommandsGood good (Server.boot id peers sm store) := by
  refine ⟨fun e he b hb => ?_, nofun⟩
  cases store <;> cases List.mem_singleton.1 he <;> cases hb

/-- A step that leaves the log and the apply loop alone. -/
theorem CommandsGood.keep (h : CommandsGood good s)
    (hlog : s'.node.logEntries = s.node.logEntries) (ha : s'.apply = s.apply) :
    CommandsGood good s' :=
  ⟨hlog ▸ h.log, ha ▸ h.held⟩

/-- **Commands flow.** A server that is given good commands has good commands, and sends no
others. -/
theorem CommandsGood.step (h : CommandsGood good s) (hs : Server.Step s ev s' out)
    (hreq : ∀ args, ev = .handleAppendEntries args → ∀ e ∈ args.entries, EntryGood good e)
    (hprop : ∀ b, ev = .propose (some b) → good b) :
    CommandsGood good s' ∧ RequestsGood good out := by
  cases hs with
  | sendAppend p n args hr hidle hp hl hsend =>
    refine ⟨h.keep (Node.logEntries_of_held (Node.sendAppend_held hsend)) rfl, ?_⟩
    intro dst args' hm e he
    obtain ⟨-, rfl⟩ : dst = p ∧ args' = args := by simpa using hm
    obtain ⟨-, next, -, -, rfl⟩ := s.node.sendAppend_spec hsend
    exact h.log e (mem_of_mem_entriesFrom he)
  | appendReply p args reply hw =>
    exact ⟨h.keep (Node.logEntries_of_held (s.node.handleAppendReply_held p args reply)) rfl,
      by simp [RequestsGood]⟩
  | installReply p args reply hw =>
    exact ⟨h.keep (Node.logEntries_of_held (s.node.handleInstallReply_held p args reply)) rfl,
      by simp [RequestsGood]⟩
  | handleRequestVote args =>
    exact ⟨h.keep (Node.logEntries_of_held (s.node.handleRequestVote_held args)) rfl,
      by simp [RequestsGood]⟩
  | handleAppendEntries args =>
    refine ⟨⟨fun e he => ?_, h.held⟩, by simp [RequestsGood]⟩
    have hlog := s.node.recognizeLeader_logEntries args.term
    rcases s.node.handleAppendEntries_cases args with ⟨-, heq⟩ | ⟨-, -, heq⟩ | ⟨-, -, heq⟩
    · rw [heq] at he
      exact h.log e he
    · rw [heq] at he
      exact h.log e (hlog ▸ he)
    · rw [heq] at he
      rcases mem_of_mem_appendEntries he with hold | hnew
      · exact h.log e hold
      · exact hreq args rfl e hnew
  | installOld args ht ho =>
    exact ⟨h.keep (s.node.recognizeLeader_logEntries args.term) rfl, by simp [RequestsGood]⟩
  | install args ht ho =>
    refine ⟨⟨fun e he b hb => ?_, h.held⟩, by simp [RequestsGood]⟩
    cases List.mem_singleton.1 he
    cases hb
  | propose cmd n entry hp =>
    refine ⟨⟨fun e he b hb => ?_, h.held⟩, by simp [RequestsGood]⟩
    have he : e ∈ n.logEntries := he
    rw [(Node.propose_spec hp).2.1] at he
    rcases List.mem_append.1 he with hold | hnew
    · exact h.log e hold b hb
    · rw [List.mem_singleton.1 hnew, (Node.propose_command hp).1] at hb
      exact hprop b (congrArg _ hb)
  | applyWake | applyIdle | applySkip | applyNotify =>
    exact ⟨⟨h.log, nofun⟩, by simp [RequestsGood]⟩
  | applyRead entry ha hc he =>
    refine ⟨⟨h.log, fun e hh => ?_⟩, by simp [RequestsGood]⟩
    obtain rfl := Option.some.inj hh
    rcases mem_of_entryAt he with hm | rfl
    · exact h.log _ hm
    · exact nofun
  | applyCall next entry waiter ha =>
    refine ⟨⟨h.log, fun e hh => h.held e ?_⟩, by split_ifs <;> simp [RequestsGood]⟩
    rw [ha]
    exact hh
  | applyWrite next entry waiter ha =>
    refine ⟨⟨h.log, fun e hh => h.held e ?_⟩, by simp [RequestsGood]⟩
    rw [ha]
    exact hh
  | finishSnapshot rs hsn =>
    refine ⟨⟨fun e he b hb => ?_, h.held⟩, by simp [RequestsGood]⟩
    rcases mem_of_mem_compactLogLocked he with hold | hnone
    · exact h.log e hold b hb
    · rw [hnone] at hb
      cases hb
  | restart => exact ⟨commandsGood_boot _ _ _ _, by simp [RequestsGood]⟩
  | _ => exact ⟨h.keep rfl rfl, by simp [RequestsGood]⟩

end Server

/-! ## A coordinator's commands -/

/-- What the bytes decode to, if anything, has the property. -/
def DecodesTo (json : Codec) (P : DispatchCommand → Prop) (b : Bytes) : Prop :=
  ∀ cmd, json.unmarshalCommand b = some cmd → P cmd

/-- All commands a coordinator has, encoded or not, have the property. -/
structure Supplies (json : Codec) (P : DispatchCommand → Prop) (c : Coordinator) : Prop where
  commands : CommandsGood (DecodesTo json P) c.server
  applying : ∀ cmd, c.applying.command = some cmd → P cmd
  encoded : ∀ m t b, c.ingest = .propose m t b → DecodesTo json P b

/-- What a step sends to the other nodes and to the assignment queue has the property. -/
structure SendsGood (json : Codec) (P : DispatchCommand → Prop) (out : List Output) : Prop where
  requests : RequestsGood (DecodesTo json P) (out.filterMap Output.raft)
  published : ∀ msg, .published msg ∈ out →
    ∃ cmd, P cmd ∧ msg = ⟨cmd.taskID, cmd.priority, cmd.s3Key⟩

section Coordinator

variable {json : Codec} {P P' : DispatchCommand → Prop} {s3Key : String → String}
  {c c' : Coordinator} {ev : Event} {out : List Output}

theorem Supplies.mono (himp : ∀ cmd, P cmd → P' cmd) (h : Supplies json P c) :
    Supplies json P' c where
  commands := h.commands.mono fun _ hb cmd hc => himp cmd (hb cmd hc)
  applying cmd hc := himp cmd (h.applying cmd hc)
  encoded m t b hb cmd hc := himp cmd (h.encoded m t b hb cmd hc)

theorem supplies_boot (id : String) (peers : List String) :
    Supplies json P (Coordinator.boot id peers) :=
  ⟨commandsGood_boot id peers .snapshotable none, nofun, nofun⟩

theorem sendsGood_nil : SendsGood json P [] := ⟨by simp [RequestsGood], by simp⟩

theorem sendsGood_ack {m : QueueMessage} {out : List Output} (hout : ∀ o ∈ out, o ∈ ack m) :
    SendsGood json P out := by
  refine ⟨by simp [filterMap_raft_ack hout, RequestsGood], fun msg hm => ?_⟩
  have hack := hout _ hm
  unfold ack at hack
  split at hack <;> simp at hack

theorem sendsGood_node {o : List Raft.Output} (h : RequestsGood (DecodesTo json P) o) :
    SendsGood json P (o.map .node) :=
  ⟨by rwa [filterMap_raft_nodes], by simp⟩

/-- A step of the node that proposes nothing and is given good requests. -/
theorem Supplies.server (hi : Supplies json P c) {ev : Raft.Event} {s : Server}
    {o : List Raft.Output} (hs : Server.Step c.server ev s o)
    (hreq : ∀ args, ev = .handleAppendEntries args →
      ∀ e ∈ args.entries, EntryGood (DecodesTo json P) e)
    (hprop : ∀ b, ev = .propose (some b) → DecodesTo json P b) {d : Finset String}
    {a : ApplyCall} {j : IngestCall} (ha : ∀ cmd, a.command = some cmd → P cmd)
    (hj : ∀ m t b, j = .propose m t b → DecodesTo json P b) :
    Supplies json P ⟨s, d, a, j⟩ ∧ SendsGood json P (o.map .node) := by
  obtain ⟨hgood, hsent⟩ := hi.commands.step hs hreq hprop
  exact ⟨⟨hgood, ha, hj⟩, sendsGood_node hsent⟩

/-- The command that `handleIngest` encodes has the key its lookup returned. -/
theorem Supplies.lookedUp (hjson : json.Lawful) (hi : Supplies json P c) (m : QueueMessage)
    (msg : IngestMessage)
    (hkey : ∀ t priority, s3Key t ≠ "" → P ⟨"dispatch", t, priority, s3Key t⟩) :
    Supplies json P (c.lookedUp json m msg (s3Key msg.taskID)).1 ∧
      SendsGood json P (c.lookedUp json m msg (s3Key msg.taskID)).2 := by
  unfold Coordinator.lookedUp
  split_ifs with hk
  · exact ⟨⟨hi.commands, hi.applying, by simp⟩, sendsGood_ack fun _ ho => ho⟩
  · split
    next => exact ⟨⟨hi.commands, hi.applying, by simp⟩, sendsGood_nil⟩
    next b henc =>
      refine ⟨⟨hi.commands, hi.applying, fun m' t' b' hb cmd hdec => ?_⟩, sendsGood_nil⟩
      cases hb
      rw [hjson.command _ _ henc] at hdec
      cases hdec
      exact hkey _ _ hk

/-- **Commands flow through a coordinator**: from the lookup of `handleIngest`, through the logs,
to the assignments. -/
theorem Supplies.step (hjson : json.Lawful) (hi : Supplies json P c)
    (hs : c.step json s3Key ev = some (c', out))
    (hreq : ∀ args, ev = .node (.handleAppendEntries args) →
      ∀ e ∈ args.entries, EntryGood (DecodesTo json P) e)
    (hkey : ∀ t priority, s3Key t ≠ "" → P ⟨"dispatch", t, priority, s3Key t⟩) :
    Supplies json P c' ∧ SendsGood json P out := by
  by_cases hlook : ev = .lookupS3Key true
  · subst hlook
    simp only [Coordinator.step, Coordinator.stepIngest] at hs
    split at hs
    next m msg _ =>
      have hl := hi.lookedUp hjson m msg hkey
      rw [if_pos trivial, Option.some.injEq] at hs
      rw [hs] at hl
      exact hl
    next => cases hs
  have hstep := Coordinator.step_inv hs
  cases hstep with
  | node ev s o hown hsrv =>
    refine hi.server hsrv (fun args he => hreq args (by rw [he])) (fun b hb => ?_) hi.applying
      hi.encoded
    rw [hb] at hown
    cases hown
  | markNothing => exact ⟨⟨hi.commands, by simp [ApplyCall.command], hi.encoded⟩, sendsGood_nil⟩
  | mark idx e w command cmd ha hcmd hidle hdec =>
    refine ⟨⟨hi.commands, fun cmd' hc => ?_, hi.encoded⟩, sendsGood_nil⟩
    cases hc
    exact hi.commands.held e (by rw [ha]; rfl) command hcmd cmd hdec
  | leader cmd ha hl | sendFailed cmd ha =>
    refine ⟨⟨hi.commands, fun cmd' hc => hi.applying cmd' ?_, hi.encoded⟩, sendsGood_nil⟩
    rw [ha]
    exact hc
  | notLeader cmd ha hl | retract cmd ha =>
    exact ⟨⟨hi.commands, by simp [ApplyCall.command], hi.encoded⟩, sendsGood_nil⟩
  | published cmd ha =>
    refine ⟨⟨hi.commands, by simp [ApplyCall.command], hi.encoded⟩,
      by simp [Output.raft, RequestsGood], ?_⟩
    intro msg hm
    exact ⟨cmd, hi.applying cmd (by rw [ha]; rfl), by simpa using hm⟩
  | applied idx e w s o ha hret hsrv =>
    exact hi.server hsrv (by simp) (by simp) (by simp [ApplyCall.command]) hi.encoded
  | snapshot ids s o hids hsrv =>
    exact hi.server hsrv (by simp) (by simp) hi.applying hi.encoded
  | restore k args reply ok d s o hk hd hsrv =>
    exact hi.server hsrv (by simp) (by simp) hi.applying hi.encoded
  | dropped m out hing hdec hout =>
    exact ⟨⟨hi.commands, hi.applying, by simp⟩, sendsGood_ack hout⟩
  | fastPath m msg hing hdec hd =>
    exact ⟨⟨hi.commands, hi.applying, by simp⟩, sendsGood_ack fun _ ho => ho⟩
  | noKey | encoded => exact absurd rfl hlook
  | propose m taskID b s o hing hsrv =>
    refine hi.server hsrv (by simp) (fun b' hb => ?_) hi.applying (by simp)
    cases hb
    exact hi.encoded m taskID b hing
  | result m taskID ch res hing =>
    refine ⟨⟨hi.commands, hi.applying, by simp⟩, ?_⟩
    split_ifs
    · exact sendsGood_ack fun _ ho => ho
    · exact sendsGood_nil
  | receive | lookup | lookupError | proposeRefused | timeout =>
    exact ⟨⟨hi.commands, hi.applying, by simp⟩, sendsGood_nil⟩

end Coordinator

end Driftless.Dispatch
