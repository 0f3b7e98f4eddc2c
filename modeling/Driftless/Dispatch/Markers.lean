import Driftless.Dispatch.Dispatcher
import Driftless.Raft.Waiters

/-!
# What a marker says

`handleIngest` deletes a message when its task is marked as dispatched, or when the command it
proposed is committed; either is meant to say that the assignment was published. It does under
`Coordinator.PublishesFirst`. A node that is not leader marks a task without publishing it, which
is harmless until the marker is used: when a message comes in, the task it is for is published if
it is marked, and `Snapshot` runs only with published markers. While `handleIngest` is at work on a
task, `Apply` gives up publishing it only where it is published already or, after a failed
`SendMessage`, nobody waits for the commit; its marker is not read before the call has settled; and
the apply loop finds a waiter only with the entry that was proposed for it.

`Sound` is the invariant of a coordinator that this gives, with what it says about the messages
that a step deletes (`Sound.published_of_deleted`) and the snapshots that it takes and sends
(`DataGood.coordinatorStep`).
-/

namespace Driftless.Dispatch

open Raft

def Output.raft : Output → Option Raft.Output
  | .node o => some o
  | _ => none

/-! ## When a marker, or a commit, means that the task is published -/

/-- The message that `handleIngest` was called with. -/
def IngestCall.message : IngestCall → Option QueueMessage
  | .idle => none
  | .received m => some m
  | .lookup m _ => some m
  | .propose m _ _ => some m
  | .waiting m _ _ => some m

def QueueMessage.task (json : Codec) (m : QueueMessage) : Option String :=
  (m.decode json).map IngestMessage.taskID

/-- The task that `handleIngest` is at work on. -/
def IngestCall.task (json : Codec) (j : IngestCall) : Option String :=
  j.message.bind (QueueMessage.task json)

/-- `handleIngest` waits for the entry in the hands of the apply loop. -/
def Coordinator.awaited (c : Coordinator) : Bool :=
  match c.server.apply.holding, c.ingest with
  | some (_, ch), .waiting _ _ ch' => ch == ch'
  | _, _ => false

/-- The step of a coordinator does not let an unpublished task pass for a published one, given the
tasks published so far and what the node sent. -/
def Coordinator.PublishesFirst (json : Codec) (published : List String) (sent : List Raft.Output)
    (c : Coordinator) : Event → Prop
  -- a message comes in for a task that is marked, maybe by a call of `Apply` as a follower
  | .receive m => ∀ t ∈ c.dispatched, m.task json = some t →
      t ∈ published ∨ c.applying.task = some t
  -- `Apply` finds that the node is not leader any more
  | .checkLeader => c.server.node.state ≠ .leader → ∀ t ∈ c.applying.task,
      c.ingest.task json = some t → t ∈ published
  -- `SendMessage` fails
  | .sendMessage false => c.awaited = true → ∀ t ∈ c.applying.task, t ∈ published
  -- the fast path reads a marker whose call of `Apply` has not settled
  | .checkDispatched => ∀ t ∈ c.applying.task, c.ingest.task json = some t → t ∈ published
  -- `Snapshot` passes the markers on
  | .snapshot _ => ∀ t ∈ c.dispatched, t ∈ published
  -- the apply loop takes a waiter for the entry at an index
  | .node .applyRead =>
      ∀ ch ∈ c.server.node.commitWaits.lookup (c.server.node.lastApplied + 1),
      ∀ e ∈ entryAt c.server.node.logEntries (c.server.node.lastApplied + 1),
        c.server.node.lastApplied + 1 ≤ c.server.node.commitIndex → .proposed ch e ∈ sent
  | _ => True

instance (json : Codec) (published : List String) (sent : List Raft.Output) (c : Coordinator)
    (ev : Event) : Decidable (c.PublishesFirst json published sent ev) := by
  unfold Coordinator.PublishesFirst
  split <;> infer_instance

/-! ## The data of snapshots -/

/-- The data of every snapshot the server holds is good. -/
structure DataGood (good : Bytes → Prop) (s : Server) : Prop where
  cached : ∀ rs, s.node.lastSnapshot = some rs → good rs.data
  serialized : ∀ rs, s.snapshot = .serialized rs → good rs.data
  saved : ∀ rs, s.snapshot = .saved rs → good rs.data
  installs : ∀ x ∈ s.installs, good x.1.data

theorem DataGood.mono {good good' : Bytes → Prop} {s : Server} (h : DataGood good s)
    (himp : ∀ d, good d → good' d) : DataGood good' s :=
  ⟨fun rs hx => himp _ (h.cached rs hx), fun rs hx => himp _ (h.serialized rs hx),
    fun rs hx => himp _ (h.saved rs hx), fun x hx => himp _ (h.installs x hx)⟩

/-- Good data stays good, and only good data is sent. -/
theorem DataGood.step {good : Bytes → Prop} {s s' : Server} {ev : Raft.Event}
    {out : List Raft.Output} (h : DataGood good s) (hs : Server.Step s ev s' out)
    (hne : ev ≠ .restart) (hinst : ∀ args, ev = .handleInstallSnapshot args → good args.data)
    (hser : ∀ d, ev = .serialize (some d) → good d) :
    DataGood good s' ∧ ∀ dst args, .installSnapshot dst args ∈ out → good args.data := by
  have keep : s'.node.lastSnapshot = s.node.lastSnapshot → s'.snapshot = s.snapshot →
      s'.installs = s.installs → DataGood good s' := by
    intro h₁ h₂ h₃
    refine ⟨?_, ?_, ?_, ?_⟩
    · rw [h₁]
      exact h.cached
    · rw [h₂]
      exact h.serialized
    · rw [h₂]
      exact h.saved
    · rw [h₃]
      exact h.installs
  cases hs with
  | sendAppend p n args hr hidle hp hl hsend =>
    exact ⟨keep (Node.lastSnapshot_of_held (Node.sendAppend_held hsend)) rfl rfl, by simp⟩
  | appendReply p args reply hw =>
    exact ⟨keep (Node.lastSnapshot_of_held (s.node.handleAppendReply_held p args reply)) rfl rfl,
      nofun⟩
  | installReply p args reply hw =>
    exact ⟨keep (Node.lastSnapshot_of_held (s.node.handleInstallReply_held p args reply)) rfl rfl,
      nofun⟩
  | sendInstallSnapshot p args hidle hsend =>
    refine ⟨keep rfl rfl rfl, fun dst a ha => ?_⟩
    obtain ⟨-, snap, hsnap, rfl⟩ := s.node.sendInstallSnapshot_spec hsend
    obtain ⟨-, rfl⟩ : dst = p ∧ a = _ := by simpa using ha
    exact h.cached snap hsnap
  | handleRequestVote args =>
    exact ⟨keep (Node.lastSnapshot_of_held (s.node.handleRequestVote_held args)) rfl rfl, by simp⟩
  | handleAppendEntries args =>
    refine ⟨keep ?_ rfl rfl, by simp⟩
    have hls := Node.lastSnapshot_of_held (s.node.recognizeLeader_held args.term)
    rcases s.node.handleAppendEntries_cases args with ⟨-, he⟩ | ⟨-, -, he⟩ | ⟨-, -, he⟩
    · rw [he]
    · rw [he]
      exact hls
    · rw [he]
      exact hls
  | installOld args ht ho =>
    exact ⟨keep (Node.lastSnapshot_of_held (s.node.recognizeLeader_held args.term)) rfl rfl,
      by simp⟩
  | install args ht ho =>
    refine ⟨⟨fun rs hx => ?_, h.serialized, h.saved, fun x hx => ?_⟩, nofun⟩
    · cases hx
      exact hinst args rfl
    · rcases List.mem_append.1 hx with hold | hnew
      · exact h.installs x hold
      · rw [List.mem_singleton.1 hnew]
        exact hinst args rfl
  | finishInstall k ok args reply hk hd | finishEmptyInstall k ok args reply hk hd =>
    exact ⟨⟨h.cached, h.serialized, h.saved,
      fun x hx => h.installs x ((List.eraseIdx_sublist _ _).subset hx)⟩, by simp⟩
  | propose cmd n entry hp =>
    exact ⟨keep (Node.propose_command hp).2 rfl rfl, by simp⟩
  | beginSnapshot rs hsn hb => exact ⟨⟨h.cached, nofun, nofun, h.installs⟩, nofun⟩
  | serialize rs d hsn =>
    refine ⟨⟨h.cached, fun rs' hx => ?_, nofun, h.installs⟩, nofun⟩
    cases hx
    exact hser d rfl
  | saveSnapshot rs hsn =>
    refine ⟨⟨h.cached, nofun, fun rs' hx => ?_, h.installs⟩, nofun⟩
    cases hx
    exact h.serialized rs hsn
  | serializeError | saveError => exact ⟨⟨h.cached, nofun, nofun, h.installs⟩, nofun⟩
  | finishSnapshot rs hsn =>
    refine ⟨⟨fun rs' hx => ?_, nofun, nofun, h.installs⟩, nofun⟩
    cases hx
    exact h.saved rs hsn
  | applyCall =>
    refine ⟨keep rfl rfl rfl, ?_⟩
    split_ifs <;> simp
  | applyNotify entry waiter ha =>
    refine ⟨keep rfl rfl rfl, ?_⟩
    cases waiter <;> simp
  | restart => exact absurd rfl hne
  | _ => exact ⟨keep rfl rfl rfl, by simp⟩

/-! ## The invariant of a coordinator -/

theorem entry_of_holding {a : ApplyLoop} {idx ch : ℕ} {e e' : LogEntry} {w : Option ℕ}
    (ha : a = .read idx e w) (hh : a.holding = some (e', ch)) : e = e' := by
  subst ha
  cases w with
  | none => cases hh
  | some ch' =>
    cases hh
    rfl

/-- `handleIngest` waits for the result of the channel `ch`, for the task `t`. -/
def Coordinator.Awaits (c : Coordinator) (ch : ℕ) (t : String) : Prop :=
  ∃ m, c.ingest = .waiting m t ch

/-- The command that `Apply` is publishing. -/
def ApplyCall.command : ApplyCall → Option DispatchCommand
  | .marked cmd => some cmd
  | .sending cmd => some cmd
  | .failed cmd => some cmd
  | _ => none

theorem ApplyCall.task_eq (a : ApplyCall) : a.task = a.command.map DispatchCommand.taskID := by
  cases a <;> rfl

/-- `Apply` will not publish for the entry in the hands of the apply loop any more. -/
def Coordinator.Settled (c : Coordinator) : Prop :=
  (∀ idx e w, c.server.apply ≠ .read idx e w) ∨ c.applying = .returned ∨
    ∃ cmd, c.applying = .failed cmd

/-- The bytes decode to a command that dispatches `t`. -/
def Dispatches (json : Codec) (b : Bytes) (t : String) : Prop :=
  t ≠ "" ∧ ∃ cmd, json.unmarshalCommand b = some cmd ∧ cmd.type = "dispatch" ∧ cmd.taskID = t

/-- What `handleIngest` holds belongs to its message. -/
def IngestCall.Fits (json : Codec) : IngestCall → Prop
  | .lookup m msg => m.decode json = some msg
  | .propose m t b => (m.decode json).map IngestMessage.taskID = some t ∧ Dispatches json b t
  | .waiting m t _ => (m.decode json).map IngestMessage.taskID = some t
  | _ => True

/-- What holds of a coordinator whose node sent `h`, with `P` for the published tasks. -/
structure Sound (json : Codec) (P : String → Prop) (c : Coordinator) (h : List Raft.Output) :
    Prop where
  fresh : ChannelsFresh c.server h
  /-- The marker of the task that `handleIngest` is at work on says that it is published, or
  `Apply` is about to. -/
  marked : ∀ t ∈ c.dispatched, c.ingest.task json = some t → P t ∨ c.applying.task = some t
  /-- `Apply` runs while the apply loop is at an entry, with the command of that entry. -/
  reading : c.applying ≠ .idle → ∃ idx e w, c.server.apply = .read idx e w
  command : ∀ cmd, c.applying.command = some cmd → ∀ idx e w, c.server.apply = .read idx e w →
    ∃ b, e.command = some b ∧ json.unmarshalCommand b = some cmd
  own : ∀ e ch, c.server.apply.holding = some (e, ch) → .proposed ch e ∈ h
  awaits : ∀ ch t, c.Awaits ch t → ∃ e b, .proposed ch e ∈ h ∧ e.command = some b ∧
    Dispatches json b t
  settled : c.Settled → ∀ e ch t, c.server.apply.holding = some (e, ch) → c.Awaits ch t → P t
  results : ∀ ch k T, .result ch ⟨true, k, T⟩ ∈ h →
    ch < c.server.chans ∧ ∀ t, c.Awaits ch t → P t
  fits : c.ingest.Fits json

/-- The data of a snapshot holds published tasks only. -/
def PublishedData (json : Codec) (P : String → Prop) (d : Bytes) : Prop :=
  ∀ ids, json.unmarshalSnap d = some ids → ∀ t ∈ ids, P t

theorem sound_boot (json : Codec) (P : String → Prop) (id : String) (peers : List String) :
    Sound json P (Coordinator.boot id peers) [] where
  fresh := ⟨nofun, nofun⟩
  marked := by simp [Coordinator.boot]
  reading h := absurd rfl h
  command := nofun
  own := nofun
  awaits := by rintro ch t ⟨m, ⟨⟩⟩
  settled := nofun
  results := nofun
  fits := trivial

section Coordinator

variable {json : Codec} {P P' : String → Prop} {c c' : Coordinator} {h : List Raft.Output}

theorem Sound.mono (hi : Sound json P c h) (hP : ∀ t, P t → P' t) : Sound json P' c h :=
  { hi with
    marked := fun t ht hj => (hi.marked t ht hj).imp_left (hP t)
    settled := fun hs e ch t hh hw => hP t (hi.settled hs e ch t hh hw)
    results := fun ch k T hr =>
      ⟨(hi.results ch k T hr).1, fun t hw => hP t ((hi.results ch k T hr).2 t hw)⟩ }

/-- The entry that is awaited dispatches the task it is awaited for. -/
theorem Sound.dispatches (hi : Sound json P c h) {e : LogEntry} {ch : ℕ} {t : String}
    (hh : c.server.apply.holding = some (e, ch)) (hw : c.Awaits ch t) :
    ∃ b, e.command = some b ∧ Dispatches json b t := by
  obtain ⟨e', b, hp, hrest⟩ := hi.awaits ch t hw
  obtain rfl := hi.fresh.unique ch e e' (hi.own e ch hh) hp
  exact ⟨b, hrest⟩

/-- The task that is awaited is the one `Apply` is publishing. -/
theorem Sound.task_of_awaits (hi : Sound json P c h) {cmd : DispatchCommand}
    (hcmd : c.applying.command = some cmd) {e : LogEntry} {ch : ℕ} {t : String}
    (hh : c.server.apply.holding = some (e, ch)) (hw : c.Awaits ch t) : cmd.taskID = t := by
  obtain ⟨b, hb, -, cmd', hdec, -, rfl⟩ := hi.dispatches hh hw
  have hne : c.applying ≠ .idle := by
    intro hidle
    rw [hidle] at hcmd
    cases hcmd
  obtain ⟨idx, e', w, hr⟩ := hi.reading hne
  obtain ⟨b', hb', hdec'⟩ := hi.command cmd hcmd idx e' w hr
  obtain rfl := entry_of_holding hr hh
  rw [hb] at hb'
  rw [← Option.some.inj hb', hdec] at hdec'
  rw [Option.some.inj hdec']

/-- A step of the node that leaves the apply loop and reports no commit. -/
theorem Sound.keep (hi : Sound json P c h) {s : Server} {o : List Raft.Output}
    (hfresh : ChannelsFresh s (h ++ o)) (ha : s.apply = c.server.apply)
    (hch : c.server.chans ≤ s.chans) (hno : ∀ ch k T, .result ch ⟨true, k, T⟩ ∉ o) :
    Sound json P { c with server := s } (h ++ o) where
  fresh := hfresh
  marked := hi.marked
  reading hne := ha ▸ hi.reading hne
  command cmd hcmd idx e w hr := hi.command cmd hcmd idx e w (ha ▸ hr)
  own e ch hh := List.mem_append_left _ (hi.own e ch (ha ▸ hh))
  awaits ch t hw := by
    obtain ⟨e, b, hp, hrest⟩ := hi.awaits ch t hw
    exact ⟨e, b, List.mem_append_left _ hp, hrest⟩
  settled hs e ch t hh hw := by
    refine hi.settled ?_ e ch t (ha ▸ hh) hw
    exact hs.imp_left fun hs idx e w hr => hs idx e w (ha.trans hr)
  results ch k T hr := by
    obtain ⟨hlt, hall⟩ := hi.results ch k T ((List.mem_append.1 hr).resolve_right (hno ch k T))
    exact ⟨hlt.trans_le hch, hall⟩
  fits := hi.fits

/-- A step of the apply loop while `Apply` does not run. -/
theorem Sound.move (hi : Sound json P c h) {s : Server} {o : List Raft.Output}
    (hfresh : ChannelsFresh s (h ++ o)) (hidle : c.applying = .idle)
    (hch : c.server.chans ≤ s.chans)
    (hown : ∀ e ch, s.apply.holding = some (e, ch) → .proposed ch e ∈ h)
    (hset : (∀ idx e w, s.apply ≠ .read idx e w) → ∀ e ch t,
      s.apply.holding = some (e, ch) → c.Awaits ch t → P t)
    (hres : ∀ ch k T, .result ch ⟨true, k, T⟩ ∈ o →
      ch < c.server.chans ∧ ∀ t, c.Awaits ch t → P t) :
    Sound json P { c with server := s } (h ++ o) where
  fresh := hfresh
  marked := hi.marked
  reading hne := absurd hidle hne
  command cmd hcmd := by
    have hcmd : c.applying.command = some cmd := hcmd
    rw [hidle] at hcmd
    cases hcmd
  own e ch hh := List.mem_append_left _ (hown e ch hh)
  awaits ch t hw := by
    obtain ⟨e, b, hp, hrest⟩ := hi.awaits ch t hw
    exact ⟨e, b, List.mem_append_left _ hp, hrest⟩
  settled hs e ch t hh hw := by
    rcases hs with hs | hret | ⟨cmd, hf⟩
    · exact hset hs e ch t hh hw
    · cases hidle.symm.trans hret
    · cases hidle.symm.trans hf
  results ch k T hr := by
    rcases List.mem_append.1 hr with hold | hnew
    · exact ⟨(hi.results ch k T hold).1.trans_le hch, (hi.results ch k T hold).2⟩
    · exact ⟨(hres ch k T hnew).1.trans_le hch, (hres ch k T hnew).2⟩
  fits := hi.fits

/-- A step of the apply loop after which nobody waits for what it holds. -/
theorem Sound.pause (hi : Sound json P c h) {s : Server} (hfresh : ChannelsFresh s (h ++ []))
    (hidle : c.applying = .idle) (hch : c.server.chans ≤ s.chans)
    (hhold : s.apply.holding = none) : Sound json P { c with server := s } (h ++ []) := by
  refine hi.move hfresh hidle hch (fun e ch hh => ?_) (fun _ e ch t hh => ?_) (by simp)
  · cases hhold.symm.trans hh
  · cases hhold.symm.trans hh

theorem Sound.idle_of_ne (hi : Sound json P c h) (hne : ∀ idx e w, c.server.apply ≠ .read idx e w) :
    c.applying = .idle := by
  by_contra hidle
  obtain ⟨idx, e, w, hr⟩ := hi.reading hidle
  exact hne idx e w hr

/-- The node's own steps. -/
theorem Sound.node (hi : Sound json P c h) {ev : Raft.Event} {s : Server} {o : List Raft.Output}
    (hown : ownStep ev = true) (hs : Server.Step c.server ev s o)
    (hread : ev = .applyRead → ∀ ch, c.server.node.commitWaits.lookup
      (c.server.node.lastApplied + 1) = some ch → ∀ e, entryAt c.server.node.logEntries
        (c.server.node.lastApplied + 1) = some e →
          c.server.node.lastApplied + 1 ≤ c.server.node.commitIndex → .proposed ch e ∈ h) :
    Sound json P { c with server := s } (h ++ o) := by
  have hne : ev ≠ .restart := by
    rintro rfl
    cases hown
  have hfresh := hi.fresh.step hne hs
  cases hs with
  | applyCall | serialize | serializeError | finishInstall | finishEmptyInstall | propose
  | restart => cases hown
  | applyWake ha | applyIdle ha | applySkip ha =>
    exact hi.pause hfresh (hi.idle_of_ne (by simp [ha])) le_rfl rfl
  | applyRead entry ha hc he =>
    have hidle := hi.idle_of_ne (by simp [ha])
    refine hi.move hfresh hidle le_rfl (fun e ch hh => ?_) (fun hno => ?_) (by simp)
    · cases hl : c.server.node.commitWaits.lookup (c.server.node.lastApplied + 1) with
      | none => simp [ApplyLoop.holding, hl] at hh
      | some w =>
        obtain ⟨rfl, rfl⟩ : entry = e ∧ w = ch := by simpa [ApplyLoop.holding, hl] using hh
        exact hread rfl w hl entry he hc
    · exact absurd rfl (hno _ _ _)
  | applyWrite idx entry waiter ha =>
    have hidle := hi.idle_of_ne (by simp [ha])
    have hhold : (ApplyLoop.written entry waiter).holding = c.server.apply.holding := by
      rw [ha]
      cases waiter <;> rfl
    refine hi.move hfresh hidle le_rfl (fun e ch hh => ?_) (fun _ e ch t hh hw => ?_) (by simp)
    · exact hi.own e ch (hhold.symm.trans hh)
    · exact hi.settled (.inl (by simp [ha])) e ch t (hhold.symm.trans hh) hw
  | applyNotify entry waiter ha =>
    have hidle := hi.idle_of_ne (by simp [ha])
    refine hi.move hfresh hidle le_rfl (by simp [ApplyLoop.holding])
      (by simp [ApplyLoop.holding]) fun ch k T hr => ?_
    cases waiter with
    | none => simp at hr
    | some w =>
      obtain ⟨rfl, -, -⟩ : ch = w ∧ k = entry.index ∧ T = entry.term := by simpa using hr
      have hhold : c.server.apply.holding = some (entry, ch) := by rw [ha]; rfl
      exact ⟨hi.fresh.lt ch entry (hi.own entry ch hhold),
        fun t hw => hi.settled (.inl (by simp [ha])) entry ch t hhold hw⟩
  | abortPendingProposals =>
    exact hi.keep hfresh rfl le_rfl (by simp [Node.abortPendingProposals])
  | _ => exact hi.keep hfresh rfl le_rfl (by simp)

/-- A step of `Apply`. -/
theorem Sound.applyStep (hi : Sound json P c h) (hP : ∀ t, P t → P' t) {d : Finset String}
    {a : ApplyCall} (hread : ∃ idx e w, c.server.apply = .read idx e w)
    (hmarked : ∀ t ∈ d, c.ingest.task json = some t → P' t ∨ a.task = some t)
    (hcmd : ∀ cmd, a.command = some cmd → ∀ idx e w, c.server.apply = .read idx e w →
      ∃ b, e.command = some b ∧ json.unmarshalCommand b = some cmd)
    (hset : a = .returned ∨ (∃ cmd, a = .failed cmd) → ∀ e ch t,
      c.server.apply.holding = some (e, ch) → c.Awaits ch t → P' t) :
    Sound json P' { c with dispatched := d, applying := a } h where
  fresh := hi.fresh
  marked := hmarked
  reading _ := hread
  command := hcmd
  own := hi.own
  awaits := hi.awaits
  settled hs := by
    rcases hs with hs | hs
    · obtain ⟨idx, e, w, hr⟩ := hread
      exact absurd hr (hs idx e w)
    · exact hset hs
  results := (hi.mono hP).results
  fits := hi.fits

/-- Whoever waits for a channel is at work on the task of its message. -/
theorem Sound.task_of_waiting (hi : Sound json P c h) {ch : ℕ} {t : String} (hw : c.Awaits ch t) :
    c.ingest.task json = some t := by
  obtain ⟨m, hm⟩ := hw
  have hfits := hi.fits
  rw [hm] at hfits ⊢
  exact hfits

/-- While `Apply` has nothing in hand, the task that `handleIngest` is at work on is published if
it is marked. -/
theorem Sound.published_of_idle (hi : Sound json P c h) (htask : c.applying.task = none)
    {t : String} (ht : t ∈ c.dispatched) (hj : c.ingest.task json = some t) : P t := by
  rcases hi.marked t ht hj with hp | hx
  · exact hp
  · rw [htask] at hx
    cases hx

theorem Sound.reading_of_command (hi : Sound json P c h) {cmd : DispatchCommand}
    (hcmd : c.applying.command = some cmd) : ∃ idx e w, c.server.apply = .read idx e w := by
  refine hi.reading fun hidle => ?_
  rw [hidle] at hcmd
  cases hcmd

/-- A call of `Apply` that had something in hand returns with it published, if `handleIngest` is at
work on it. -/
theorem Sound.returns (hi : Sound json P c h) (hP : ∀ t, P t → P' t) {cmd : DispatchCommand}
    (hcmd : c.applying.command = some cmd)
    (hpub : c.ingest.task json = some cmd.taskID → P' cmd.taskID) :
    Sound json P' { c with applying := .returned } h := by
  refine hi.applyStep hP (hi.reading_of_command hcmd) (fun t ht hj => .inl ?_) nofun
    fun _ e ch t hh hw => ?_
  · rcases hi.marked t ht hj with hp | hx
    · exact hP t hp
    · rw [ApplyCall.task_eq, hcmd] at hx
      obtain rfl := Option.some.inj hx
      exact hpub hj
  · obtain rfl := hi.task_of_awaits hcmd hh hw
    exact hpub (hi.task_of_waiting hw)

/-- A step of `handleIngest` that does not wait for a channel. -/
theorem Sound.ingestStep (hi : Sound json P c h) {j : IngestCall}
    (hj : ∀ m t ch, j ≠ .waiting m t ch) (hfits : j.Fits json)
    (hmarked : ∀ t ∈ c.dispatched, j.task json = some t → P t ∨ c.applying.task = some t) :
    Sound json P { c with ingest := j } h where
  fresh := hi.fresh
  marked := hmarked
  reading := hi.reading
  command := hi.command
  own := hi.own
  awaits := by
    rintro ch t ⟨m, hm⟩
    exact absurd hm (hj m t ch)
  settled := by
    rintro - e ch t - ⟨m, hm⟩
    exact absurd hm (hj m t ch)
  results ch k T hr := by
    refine ⟨(hi.results ch k T hr).1, ?_⟩
    rintro t ⟨m, hm⟩
    exact absurd hm (hj m t ch)
  fits := hfits

/-- `handleIngest` returns. -/
theorem Sound.ingestDone (hi : Sound json P c h) : Sound json P { c with ingest := .idle } h :=
  hi.ingestStep nofun trivial nofun

/-- `handleIngest` proposes: the channel is new. -/
theorem Sound.propose (hi : Sound json P c h) {m : QueueMessage} {t : String} {b : Bytes}
    {s : Server} {o : List Raft.Output} (hing : c.ingest = .propose m t b)
    (hs : Server.Step c.server (.propose (some b)) s o) :
    Sound json P { c with server := s, ingest := .waiting m t c.server.chans } (h ++ o) := by
  have hne : Raft.Event.propose (some b) ≠ .restart := nofun
  have hfresh := hi.fresh.step hne hs
  have hfits := hi.fits
  rw [hing] at hfits
  obtain ⟨hdec, hdisp⟩ := hfits
  have hmarked := hi.marked
  rw [hing] at hmarked
  cases hs with
  | propose cmd n entry hp =>
    have hnew : ∀ ch t', Coordinator.Awaits { c with
        server := { c.server with node := n, chans := c.server.chans + 1 },
        ingest := .waiting m t c.server.chans } ch t' → ch = c.server.chans ∧ t' = t := by
      rintro ch t' ⟨m', hm'⟩
      cases hm'
      exact ⟨rfl, rfl⟩
    refine ⟨hfresh, hmarked, hi.reading, hi.command, fun e ch hh => ?_, fun ch t' hw => ?_,
      fun _ e ch t' hh hw => ?_, fun ch k T hr => ?_, hdec⟩
    · exact List.mem_append_left _ (hi.own e ch hh)
    · obtain ⟨rfl, rfl⟩ := hnew ch t' hw
      exact ⟨entry, b, List.mem_append_right _ (List.mem_singleton_self _),
        (Node.propose_command hp).1, hdisp⟩
    · obtain ⟨rfl, -⟩ := hnew ch t' hw
      exact absurd (hi.fresh.lt _ e (hi.own e _ hh)) (lt_irrefl _)
    · obtain ⟨hlt, -⟩ := hi.results ch k T (by simpa using hr)
      refine ⟨Nat.lt_succ_of_lt hlt, fun t' hw => ?_⟩
      obtain ⟨rfl, -⟩ := hnew ch t' hw
      exact absurd hlt (lt_irrefl _)

/-- `Apply` returned, or was not called for want of a command. -/
theorem Sound.applied (hi : Sound json P c h) {idx : ℕ} {e : LogEntry} {w : Option ℕ} {s : Server}
    {o : List Raft.Output} (ha : c.server.apply = .read idx e w)
    (hret : c.applying = .returned ∨ (c.applying = .idle ∧ e.command = none))
    (hs : Server.Step c.server .applyCall s o) :
    Sound json P { c with server := s, applying := .idle } (h ++ o) := by
  have hne : Raft.Event.applyCall ≠ .restart := nofun
  have hfresh := hi.fresh.step hne hs
  have htask : c.applying.task = none := by
    rcases hret with hr | ⟨hr, -⟩ <;> rw [hr] <;> rfl
  -- whoever awaits the entry has its task published
  have hset : ∀ e' ch t, c.server.apply.holding = some (e', ch) → c.Awaits ch t → P t := by
    intro e' ch t hh hw
    rcases hret with hr | ⟨-, hnone⟩
    · exact hi.settled (.inr (.inl hr)) e' ch t hh hw
    · obtain ⟨b, hb, -⟩ := hi.dispatches hh hw
      obtain rfl := entry_of_holding ha hh
      rw [hnone] at hb
      cases hb
  cases hs with
  | applyCall idx' e' w' ha' =>
    have hhold : (ApplyLoop.applied idx' e' w').holding = c.server.apply.holding := by
      rw [ha']
      cases w' <;> rfl
    refine ⟨hfresh, fun t ht hj => .inl (hi.published_of_idle htask ht hj),
      fun hne => absurd rfl hne, nofun, fun x ch hh => ?_, fun ch t hw => ?_,
      fun _ x ch t hh hw => ?_, fun ch k T hr => ?_, hi.fits⟩
    · exact List.mem_append_left _ (hi.own x ch (hhold.symm.trans hh))
    · obtain ⟨x, b, hp, hrest⟩ := hi.awaits ch t hw
      exact ⟨x, b, List.mem_append_left _ hp, hrest⟩
    · exact hset x ch t (hhold.symm.trans hh) hw
    · refine hi.results ch k T ((List.mem_append.1 hr).resolve_right ?_)
      split_ifs <;> simp

/-- `Apply` goes on with the command it has in hand. -/
theorem Sound.advance (hi : Sound json P c h) {cmd : DispatchCommand} {a : ApplyCall}
    (hcmd : c.applying.command = some cmd) (ha : a.command = some cmd)
    (hset : (∃ cmd, a = .failed cmd) → ∀ e ch t,
      c.server.apply.holding = some (e, ch) → c.Awaits ch t → P t) :
    Sound json P { c with applying := a } h := by
  refine hi.applyStep (fun _ => id) (hi.reading_of_command hcmd) (fun t ht hj => ?_)
    (fun x hx => ?_) fun hs => ?_
  · rw [ApplyCall.task_eq, ha, ← hcmd, ← ApplyCall.task_eq]
    exact hi.marked t ht hj
  · exact hi.command x (hcmd.trans (ha.symm.trans hx))
  · rcases hs with rfl | hf
    · cases ha
    · exact hset hf

/-- The markers are replaced by published ones. -/
theorem Sound.replaceMarkers (hi : Sound json P c h) {d : Finset String}
    (hd : ∀ t ∈ d, c.ingest.task json = some t → P t ∨ c.applying.task = some t) :
    Sound json P { c with dispatched := d } h :=
  { hi with marked := hd }

/-- `Apply` has nothing to mark. -/
theorem Sound.mark_nothing (hj : json.Lawful) (hi : Sound json P c h) {idx : ℕ} {e : LogEntry}
    {w : Option ℕ} {command : Bytes} (ha : c.server.apply = .read idx e w)
    (hcmd : e.command = some command) (hidle : c.applying = .idle)
    (hno : ∀ cmd, command ≠ [] → json.unmarshalCommand command = some cmd →
      cmd.type = "dispatch" → cmd.taskID ≠ "" → cmd.taskID ∈ c.dispatched) :
    Sound json P { c with applying := .returned } h := by
  have htask : c.applying.task = none := by
    rw [hidle]
    rfl
  refine hi.applyStep (fun _ => id) ⟨idx, e, w, ha⟩
    (fun t ht hj => .inl (hi.published_of_idle htask ht hj)) nofun fun _ e' ch t hh hw => ?_
  obtain ⟨b, hb, hid, cmd, hdec, htype, rfl⟩ := hi.dispatches hh hw
  obtain rfl := entry_of_holding ha hh
  obtain rfl : command = b := Option.some.inj (hcmd.symm.trans hb)
  have hne : command ≠ [] := by
    rintro rfl
    rw [hj.command_nil] at hdec
    cases hdec
  exact hi.published_of_idle htask (hno cmd hne hdec htype hid) (hi.task_of_waiting hw)

theorem Sound.mark (hi : Sound json P c h) {idx : ℕ} {e : LogEntry} {w : Option ℕ}
    {command : Bytes} {cmd : DispatchCommand} (ha : c.server.apply = .read idx e w)
    (hcmd : e.command = some command) (hidle : c.applying = .idle)
    (hdec : json.unmarshalCommand command = some cmd) :
    Sound json P { c with
      dispatched := insert cmd.taskID c.dispatched, applying := .marked cmd } h := by
  have htask : c.applying.task = none := by
    rw [hidle]
    rfl
  refine hi.applyStep (fun _ => id) ⟨idx, e, w, ha⟩ (fun t ht hj => ?_)
    (fun x hx idx' e' w' ha' => ?_) fun hs => ?_
  · rcases Finset.mem_insert.1 ht with rfl | hold
    · exact .inr rfl
    · exact .inl (hi.published_of_idle htask hold hj)
  · cases hx
    cases ha.symm.trans ha'
    exact ⟨command, hcmd, hdec⟩
  · rcases hs with hs | ⟨_, hs⟩ <;> cases hs

theorem Sound.retract (hi : Sound json P c h) {cmd : DispatchCommand}
    (ha : c.applying = .failed cmd) :
    Sound json P { c with
      dispatched := c.dispatched.erase cmd.taskID, applying := .returned } h := by
  have hcmd : c.applying.command = some cmd := by
    rw [ha]
    rfl
  refine hi.applyStep (fun _ => id) (hi.reading_of_command hcmd) (fun t ht hj => ?_) nofun
    fun _ => hi.settled (.inr (.inr ⟨cmd, ha⟩))
  obtain ⟨hne, hold⟩ := Finset.mem_erase.1 ht
  refine (hi.marked t hold hj).imp_right fun hx => ?_
  rw [ApplyCall.task_eq, hcmd] at hx
  exact absurd (Option.some.inj hx).symm hne

/-- `Snapshot` and `Restore` leave the apply loop. -/
theorem Sound.aside (hi : Sound json P c h) {ev : Raft.Event} {s : Server} {o : List Raft.Output}
    (hev : (∃ d, ev = .serialize d) ∨ ∃ k ok, ev = .finishInstall k ok)
    (hs : Server.Step c.server ev s o) : Sound json P { c with server := s } (h ++ o) := by
  have hne : ev ≠ .restart := by
    rcases hev with ⟨d, rfl⟩ | ⟨k, ok, rfl⟩ <;> exact nofun
  have hfresh := hi.fresh.step hne hs
  cases hs with
  | serialize | serializeError => exact hi.keep hfresh rfl le_rfl nofun
  | finishInstall | finishEmptyInstall => exact hi.keep hfresh rfl le_rfl (by simp)
  | _ =>
    rcases hev with ⟨d, hev⟩ | ⟨k, ok, hev⟩ <;> cases hev

end Coordinator

/-! ## What a step keeps -/

theorem taskID_ne_of_decode {json : Codec} {m : QueueMessage} {msg : IngestMessage}
    (hdec : m.decode json = some msg) : msg.taskID ≠ "" := by
  simpa using (Option.filter_eq_some_iff.1 hdec).2

theorem eq_of_deleted_mem_ack {m m' : QueueMessage} (hm : .deleted m' ∈ ack m) : m' = m := by
  unfold ack at hm
  split at hm
  next => cases hm
  next =>
    cases List.mem_singleton.1 hm
    rfl

theorem raft_of_mem_ack {m : QueueMessage} {o : Output} (ho : o ∈ ack m) : o.raft = none := by
  unfold ack at ho
  split at ho
  next => cases ho
  next =>
    rw [List.mem_singleton.1 ho]
    rfl

theorem filterMap_raft_nodes (o : List Raft.Output) :
    (o.map Output.node).filterMap Output.raft = o := by
  rw [List.filterMap_map]
  exact List.filterMap_some

theorem filterMap_raft_ack {m : QueueMessage} {out : List Output} (hout : ∀ o ∈ out, o ∈ ack m) :
    out.filterMap Output.raft = [] :=
  List.filterMap_eq_nil_iff.2 fun o ho => raft_of_mem_ack (hout o ho)

section Step

variable {json : Codec} {s3Key : String → String} {c c' : Coordinator} {ev : Event}
  {out : List Output} {published published' : List String} {sent : List Raft.Output}

/-- The invariant of a coordinator is kept by a step that publishes first. -/
theorem Sound.step (hj : json.Lawful) (hi : Sound json (· ∈ published) c sent)
    (hgood : DataGood (PublishedData json (· ∈ published)) c.server)
    (hok : c.PublishesFirst json published sent ev)
    (hs : Coordinator.Step json s3Key c ev c' out) (hsub : published ⊆ published')
    (hpub : ∀ msg, .published msg ∈ out → msg.taskID ∈ published') :
    Sound json (· ∈ published') c' (sent ++ out.filterMap Output.raft) := by
  have hP : ∀ t, t ∈ published → t ∈ published' := fun t ht => hsub ht
  have hi' := hi.mono hP
  have quiet : ∀ {x : Coordinator}, Sound json (· ∈ published') x sent →
      Sound json (· ∈ published') x (sent ++ []) := fun hx => (List.append_nil sent).symm ▸ hx
  cases hs with
  | node ev s o hown hs =>
    rw [filterMap_raft_nodes]
    refine hi'.node hown hs ?_
    rintro rfl
    exact hok
  | markNothing idx e w command ha hcmd hidle hno =>
    exact quiet (hi'.mark_nothing hj ha hcmd hidle hno)
  | mark idx e w command cmd ha hcmd hidle hdec =>
    exact quiet (hi'.mark ha hcmd hidle hdec)
  | leader cmd ha hl =>
    have hcmd : c.applying.command = some cmd := by rw [ha]; rfl
    exact quiet (hi'.advance hcmd rfl nofun)
  | notLeader cmd ha hl =>
    have hcmd : c.applying.command = some cmd := by rw [ha]; rfl
    have htask : cmd.taskID ∈ c.applying.task := by rw [ha]; rfl
    exact quiet (hi.returns hP hcmd fun hj => hP _ (hok hl _ htask hj))
  | published cmd ha =>
    have hcmd : c.applying.command = some cmd := by rw [ha]; rfl
    exact quiet (hi.returns hP hcmd fun _ =>
      hpub ⟨cmd.taskID, cmd.priority, cmd.s3Key⟩ (List.mem_singleton_self _))
  | sendFailed cmd ha =>
    have hcmd : c.applying.command = some cmd := by rw [ha]; rfl
    have htask : cmd.taskID ∈ c.applying.task := by rw [ha]; rfl
    refine quiet (hi'.advance hcmd rfl ?_)
    rintro - e ch t hh ⟨m, hm⟩
    rw [← hi.task_of_awaits hcmd hh ⟨m, hm⟩]
    refine hP _ (hok ?_ _ htask)
    simp [Coordinator.awaited, hh, hm]
  | retract cmd ha => exact quiet (hi'.retract ha)
  | applied idx e w s o ha hret hs =>
    rw [filterMap_raft_nodes]
    exact hi'.applied ha hret hs
  | snapshot ids s o hids hs =>
    rw [filterMap_raft_nodes]
    exact hi'.aside (.inl ⟨_, rfl⟩) hs
  | restore k args reply ok d s o hk hd hs =>
    rw [filterMap_raft_nodes]
    refine (hi'.aside (.inr ⟨k, ok, rfl⟩) hs).replaceMarkers fun t ht hj => ?_
    rcases hd with rfl | ⟨ids, hdec, rfl⟩
    · exact hi'.marked t ht hj
    · have hargs := hgood.installs _ (List.mem_of_getElem? hk)
      exact .inl (hP t (hargs ids hdec t (List.mem_toFinset.1 ht)))
  | receive m hidle =>
    exact quiet (hi'.ingestStep nofun trivial fun t ht hm => (hok t ht hm).imp_left (hP t))
  | dropped m out hing hdec hout =>
    rw [filterMap_raft_ack hout, List.append_nil]
    exact hi'.ingestDone
  | fastPath m | noKey m =>
    rw [filterMap_raft_ack fun _ ho => ho, List.append_nil]
    exact hi'.ingestDone
  | lookup m msg hing hdec =>
    have hmarked := hi'.marked
    rw [hing] at hmarked
    exact quiet (hi'.ingestStep nofun hdec hmarked)
  | lookupError | proposeRefused | timeout => exact quiet hi'.ingestDone
  | encoded m msg b hing henc =>
    have hfits := hi.fits
    have hmarked := hi'.marked
    rw [hing] at hfits hmarked
    exact quiet (hi'.ingestStep nofun
      ⟨congrArg (Option.map IngestMessage.taskID) hfits, taskID_ne_of_decode hfits, _,
        hj.command _ b henc, rfl, rfl⟩ hmarked)
  | propose m taskID b s o hing hs =>
    rw [filterMap_raft_nodes]
    exact hi'.propose hing hs
  | result m taskID ch res hing =>
    rw [filterMap_raft_ack (m := m) fun o ho => ?_, List.append_nil]
    · exact hi'.ingestDone
    · split_ifs at ho
      · exact ho
      · cases ho

/-- A snapshot taken, sent or received holds published tasks only. -/
theorem DataGood.coordinatorStep (hj : json.Lawful)
    (hgood : DataGood (PublishedData json (· ∈ published)) c.server)
    (hok : c.PublishesFirst json published sent ev)
    (hinst : ∀ args, ev = .node (.handleInstallSnapshot args) →
      PublishedData json (· ∈ published) args.data)
    (hs : Coordinator.Step json s3Key c ev c' out) :
    DataGood (PublishedData json (· ∈ published)) c'.server ∧
      ∀ dst args, .node (.installSnapshot dst args) ∈ out →
        PublishedData json (· ∈ published) args.data := by
  have lift : ∀ {s : Server} {o : List Raft.Output},
      (DataGood (PublishedData json (· ∈ published)) s ∧ ∀ dst args,
        .installSnapshot dst args ∈ o → PublishedData json (· ∈ published) args.data) →
      DataGood (PublishedData json (· ∈ published)) s ∧ ∀ dst args,
        .node (.installSnapshot dst args) ∈ o.map Output.node →
          PublishedData json (· ∈ published) args.data :=
    fun hx => ⟨hx.1, fun dst args hm => hx.2 dst args (by simpa using hm)⟩
  cases hs with
  | node ev s o hown hs =>
    have hne : ev ≠ .restart := by
      rintro rfl
      cases hown
    refine lift (hgood.step hs hne (fun args he => hinst args (by rw [he])) ?_)
    rintro d rfl
    cases hown
  | applied idx e w s o ha hret hs =>
    exact lift (hgood.step hs nofun nofun nofun)
  | snapshot ids s o hids hs =>
    refine lift (hgood.step hs nofun nofun fun d hd ids' hdec t ht => ?_)
    rw [hj.snap ids d (by simpa using hd)] at hdec
    cases hdec
    exact hok t (hids ▸ List.mem_toFinset.2 ht)
  | restore k args reply ok d s o hk hd hs =>
    exact lift (hgood.step hs nofun nofun nofun)
  | propose m taskID b s o hing hs =>
    exact lift (hgood.step hs nofun nofun nofun)
  | dropped m out hing hdec hout =>
    exact ⟨hgood, fun dst args hm => nomatch raft_of_mem_ack (hout _ hm)⟩
  | fastPath m | noKey m => exact ⟨hgood, fun dst args hm => nomatch raft_of_mem_ack hm⟩
  | result m taskID ch res hing =>
    refine ⟨hgood, fun dst args hm => ?_⟩
    split_ifs at hm
    · exact nomatch raft_of_mem_ack hm
    · cases hm
  | _ => exact ⟨hgood, by simp⟩

/-- A message that a step deletes has its task published before. -/
theorem Sound.published_of_deleted (hi : Sound json (· ∈ published) c sent)
    (hok : c.PublishesFirst json published sent ev)
    (hres : ∀ m t ch res, c.ingest = .waiting m t ch → ev = .result res → .result ch res ∈ sent)
    (hs : Coordinator.Step json s3Key c ev c' out) {m : QueueMessage} {msg : IngestMessage}
    (hm : .deleted m ∈ out) (hdec : m.decode json = some msg) (hkey : s3Key msg.taskID ≠ "") :
    msg.taskID ∈ published := by
  have hfits := hi.fits
  cases hs with
  | dropped m' out hing hnone hout =>
    obtain rfl := eq_of_deleted_mem_ack (hout _ hm)
    rw [hdec] at hnone
    cases hnone
  | fastPath m' msg' hing hdec' hd =>
    obtain rfl := eq_of_deleted_mem_ack hm
    cases hdec.symm.trans hdec'
    have htask : c.ingest.task json = some msg.taskID := by
      rw [hing]
      exact congrArg (Option.map IngestMessage.taskID) hdec
    rcases hi.marked _ hd htask with hp | hx
    · exact hp
    · exact hok _ hx htask
  | noKey m' msg' hing hk =>
    obtain rfl := eq_of_deleted_mem_ack hm
    rw [hing] at hfits
    cases hdec.symm.trans hfits
    exact absurd hk hkey
  | result m' taskID ch res hing =>
    split_ifs at hm with hcom
    · obtain rfl := eq_of_deleted_mem_ack hm
      obtain ⟨committed, k, T⟩ := res
      obtain rfl : committed = true := hcom
      rw [hing] at hfits
      obtain rfl : msg.taskID = taskID := by
        have hid : (m.decode json).map IngestMessage.taskID = some taskID := hfits
        rw [hdec] at hid
        exact Option.some.inj hid
      exact (hi.results ch k T (hres m _ ch _ hing rfl)).2 _ ⟨m, hing⟩
    · cases hm
  | _ => simp at hm

end Step

end Driftless.Dispatch
