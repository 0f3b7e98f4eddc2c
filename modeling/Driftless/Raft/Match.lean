import Driftless.Raft.Exchange
import Driftless.Raft.Pair

/-!
# The match index

The leader's `matchIndex` for a peer is sound in every run (`match_sound`): up to it the peer's
log agrees with the leader's history, or its snapshot covers the index. What carries this is the
state of the messages in flight: every AppendEntries is a slice of the history, and an
InstallSnapshot that the peer would still install is one the leader still waits to hear of, with
no AppendEntries sent since.

The condition is that `TakeSnapshot` begins with `lastApplied` in the log and committed. The apply
loop writes `lastApplied` after `HandleInstallSnapshot` has moved it back and discarded the entry,
and then the snapshot's term is read off an index that the log does not have: `match_unsound`.
-/

namespace Driftless.Raft

open Consensus Pair

/-- The history `H` has an entry of that term at that index. -/
structure EndsIn (H : List LogEntry) (idx term : ℕ) : Prop where
  le_length : idx ≤ H.length
  term_eq : term = lastTerm LogEntry.term (H.take idx)

/-! ## The history grows -/

section Grow

variable {log H G : List LogEntry} {i idx term : ℕ}

theorem take_of_isPrefix (hG : H <+: G) (hi : i ≤ H.length) : G.take i = H.take i :=
  take_eq_of_isPrefix hi ((List.take_prefix i H).trans hG)

theorem EndsIn.mono (h : EndsIn H idx term) (hG : H <+: G) : EndsIn G idx term :=
  ⟨h.le_length.trans hG.length_le, by rw [take_of_isPrefix hG h.le_length, h.term_eq]⟩

theorem Agrees.mono (h : Agrees log H i) (hG : H <+: G) : Agrees log G i := by
  obtain ⟨e, he, ht, hH⟩ := h.entry
  refine ⟨h.le_length.trans hG.length_le, e, he, ?_, fun hlt => ?_⟩
  · rw [take_of_isPrefix hG h.le_length, ht]
  · obtain ⟨hlen, rfl⟩ := List.getElem?_eq_some_iff.1 (hH hlt)
    exact List.prefix_iff_getElem?.1 hG _ hlen

theorem AgreesUpTo.mono (h : AgreesUpTo log H i) (hG : H <+: G) : AgreesUpTo log G i :=
  fun j h₁ h₂ => (h j h₁ h₂).mono hG

/-- A new entry of the history is one the log does not have yet. -/
theorem Follows.concat (h : Follows log H) {e : LogEntry}
    (hnew : ∀ x, entryAt log (H.length + 1) = some x → x.term ≠ e.term) :
    Follows log (H ++ [e]) := by
  have hG := List.prefix_append H [e]
  refine ⟨h.wellFormed, h.floor.mono hG, fun i h₁ h₂ h₃ hterm => ?_⟩
  rcases Nat.lt_or_ge H.length i with hgt | hle
  · rw [List.length_append, List.length_singleton] at h₃
    obtain rfl : i = H.length + 1 := by omega
    obtain ⟨x, hx⟩ := exists_entryAt h₁ h₂
    rw [termAt_of_entryAt hx, List.take_of_length_le (by simp), lastTerm_concat] at hterm
    exact absurd hterm (hnew x hx)
  · rw [take_of_isPrefix hG hle] at hterm
    exact (h.matching i h₁ h₂ hle hterm).mono hG

end Grow

/-! ## Snapshots of the history -/

section Snapshot

variable {log H : List LogEntry} {c t i : ℕ}

theorem EndsIn.agrees_singleton (h : EndsIn H c t) : Agrees [⟨t, c, none⟩] H c :=
  ⟨h.le_length, _, (wellFormed_singleton _).entryAt_firstIndex, h.term_eq,
    fun hlt => absurd hlt (lt_irrefl c)⟩

/-- A log that is only the placeholder of a snapshot agrees with the history up to there. -/
theorem EndsIn.agreesUpTo_singleton (h : EndsIn H c t) (hi : i ≤ c) :
    AgreesUpTo [⟨t, c, none⟩] H i := by
  intro j h₁ h₂
  have h₁ : c ≤ j := h₁
  obtain rfl : j = c := by omega
  exact h.agrees_singleton

theorem EndsIn.follows_singleton (h : EndsIn H c t) : Follows [⟨t, c, none⟩] H :=
  ⟨wellFormed_singleton _, h.agrees_singleton, fun _ _ h₂ _ _ => h.agreesUpTo_singleton h₂⟩

variable (hw : WellFormed log) (h : EndsIn H c t) (hc : firstIndex log < c)
include hw h hc

theorem EndsIn.agrees_compact : Agrees (compactLogLocked log c t) H c := by
  have hf : firstIndex (compactLogLocked log c t) = c := by
    rw [firstIndex_compactLogLocked, max_eq_right hc.le]
  have hhead := (hw.compactLogLocked c t).entryAt_firstIndex
  rw [hf, headD_compactLogLocked t hc] at hhead
  exact ⟨h.le_length, _, hhead, h.term_eq, fun hlt => absurd hlt (by omega)⟩

theorem AgreesUpTo.compact (ha : AgreesUpTo log H i) :
    AgreesUpTo (compactLogLocked log c t) H i := by
  intro j h₁ h₂
  rw [firstIndex_compactLogLocked, max_eq_right hc.le] at h₁
  rcases Nat.lt_or_eq_of_le h₁ with hlt | rfl
  · refine (ha j (by omega) h₂).congr ?_ (entryAt_compactLogLocked hw c t hlt)
    rw [firstIndex_compactLogLocked]
    exact le_max_left _ _
  · exact h.agrees_compact hw hc

theorem Follows.compact (hlog : LogMatching log H) : Follows (compactLogLocked log c t) H := by
  have hf : firstIndex (compactLogLocked log c t) = c := by
    rw [firstIndex_compactLogLocked, max_eq_right hc.le]
  refine ⟨hw.compactLogLocked c t, hf.symm ▸ h.agrees_compact hw hc, fun i h₁ h₂ h₃ hterm => ?_⟩
  rw [hf] at h₁
  rcases Nat.lt_or_eq_of_le h₁ with hlt | rfl
  · have he := entryAt_compactLogLocked hw c t hlt
    obtain ⟨x, hx⟩ := exists_entryAt (hf.trans_le h₁) h₂
    have hx' := he.symm.trans hx
    rw [termAt_of_entryAt hx, ← termAt_of_entryAt hx'] at hterm
    exact AgreesUpTo.compact hw h hc
      (hlog i (by omega) (entryAt_bounds hx').2 h₃ hterm)
  · intro j h₁ h₂
    rw [hf] at h₁
    obtain rfl : j = c := by omega
    exact h.agrees_compact hw hc

end Snapshot

/-- The start: the leader has filled its maps with `initLeaderState` and its cached snapshot is
that of its placeholder; the peer's log follows the history, has nothing of term `T` beyond it,
and agrees with it up to the commit index. -/
structure Starts (T : ℕ) (p : String) (x : Pair) : Prop where
  ne_id : p ≠ x.leader.node.id
  leads : x.leader.node.state = .leader
  term_eq : x.leader.node.currentTerm = T
  leading : x.leader.run = .leading
  window : Window x.leader.node.logEntries x.history
  cached : 0 < firstIndex x.leader.node.logEntries → x.leader.node.lastSnapshot.isSome
  covers : ∀ snap ∈ x.leader.node.lastSnapshot,
    snap.lastIncludedIndex = firstIndex x.leader.node.logEntries ∧
      EndsIn x.history snap.lastIncludedIndex snap.lastIncludedTerm
  leaderTaking : x.leader.snapshot = .idle
  next_eq : x.leader.node.nextIndex.get p = lastIndex x.leader.node.logEntries + 1
  match_eq : x.leader.node.matchIndex.get p = 0
  idle : x.leader.replicators p = .idle
  requests : x.requests = []
  replies : x.replies = []
  follows : Follows x.peer.node.logEntries x.history
  beyond : ∀ i e, entryAt x.peer.node.logEntries i = some e → x.history.length < i → e.term ≠ T
  committed : AgreesUpTo x.peer.node.logEntries x.history x.peer.node.commitIndex
  peerTaking : x.peer.snapshot = .idle
  installs : x.peer.installs = []

/-! ## The invariant -/

/-- The leader's log ends its history, and every snapshot it has or is about to have is one of
its history. -/
structure LeaderInv (T : ℕ) (p : String) (H : List LogEntry) (s : Server) : Prop where
  ne_id : p ≠ s.node.id
  leads : s.node.state = .leader
  term_eq : s.node.currentTerm = T
  leading : s.run = .leading
  window : Window s.node.logEntries H
  cached : 0 < firstIndex s.node.logEntries → s.node.lastSnapshot.isSome
  covers : ∀ snap ∈ s.node.lastSnapshot,
    snap.lastIncludedIndex = firstIndex s.node.logEntries ∧
      EndsIn H snap.lastIncludedIndex snap.lastIncludedTerm
  captured : ∀ c ∈ s.captured, firstIndex s.node.logEntries < c.1 ∧ EndsIn H c.1 c.2

/-- The messages between the leader and the peer, and what the leader keeps about the peer; `first`
is the leader's first index. -/
structure MessagesInv (T : ℕ) (H : List LogEntry) (first : ℕ) (g : Progress) (rpc : ℕ)
    (requests : List (ℕ × Call)) (replies : List (ℕ × Output)) : Prop where
  matched_lt : g.matched < g.next
  next_le : g.next ≤ H.length + 1
  shipping : g.replicator = .shipping → g.next ≤ first
  appending : ∀ args, g.replicator = .waiting (.append args) →
    g.next = args.prevLogIndex + 1 ∧ args.prevLogIndex + args.entries.length ≤ H.length
  installing : ∀ args, g.replicator = .waiting (.install args) →
    args.lastIncludedIndex ≤ H.length ∧
      ∀ id a, (id, Call.install a) ∈ requests → a.lastIncludedIndex ≤ args.lastIncludedIndex
  append : ∀ id args, (id, Call.append args) ∈ requests →
    args.term = T ∧ ∃ H₀, H₀ <+: H ∧ SliceOf args H₀
  install : ∀ id args, (id, Call.install args) ∈ requests →
    args.term = T ∧ 0 < args.lastIncludedIndex ∧ args.lastIncludedIndex ≤ first ∧
      EndsIn H args.lastIncludedIndex args.lastIncludedTerm
  requests_le : ∀ r ∈ requests, r.1 ≤ rpc
  replies_le : ∀ id args reply, (id, Output.appendEntriesReply args reply) ∈ replies → id ≤ rpc
  /-- A request is only rejected above what the peer is known to match. -/
  rejected : ∀ args reply, (rpc, Output.appendEntriesReply args reply) ∈ replies →
    g.replicator = .waiting (.append args) → reply.success = false → reply.term ≤ T →
      g.matched < args.prevLogIndex

/-- The peer, as long as it has not left the leader's term. -/
structure PeerInv (T : ℕ) (H : List LogEntry) (g : Progress) (rpc : ℕ)
    (requests : List (ℕ × Call)) (replies : List (ℕ × Output)) (s : Server) : Prop where
  follows : Follows s.node.logEntries H
  beyond : ∀ i e, entryAt s.node.logEntries i = some e → H.length < i → e.term ≠ T
  committed : AgreesUpTo s.node.logEntries H s.node.commitIndex
  matched : AgreesUpTo s.node.logEntries H g.matched
  captured : ∀ c ∈ s.captured, EndsIn H c.1 c.2
  installs : ∀ a ∈ s.installs, a.1.lastIncludedIndex ≤ firstIndex s.node.logEntries
  acked : ∀ args reply, (rpc, Output.appendEntriesReply args reply) ∈ replies →
    g.replicator = .waiting (.append args) → reply.success = true →
      AgreesUpTo s.node.logEntries H (args.prevLogIndex + args.entries.length)
  ackedInstall : ∀ id args reply, (id, Output.installSnapshotReply args reply) ∈ replies →
    reply.success = true → args.lastIncludedIndex ≤ firstIndex s.node.logEntries
  /-- An InstallSnapshot in flight is old, or the leader has sent no AppendEntries since. -/
  inFlight : ∀ id args, (id, Call.install args) ∈ requests →
    args.lastIncludedIndex ≤ firstIndex s.node.logEntries ∨
      (g.next ≤ args.lastIncludedIndex ∧ ∀ a, g.replicator ≠ .waiting (.append a))

structure MatchInv (T : ℕ) (p : String) (x : Pair) : Prop where
  leader : LeaderInv T p x.history x.leader
  messages : MessagesInv T x.history (firstIndex x.leader.node.logEntries) (x.leader.progress p)
    x.rpc x.requests x.replies
  peer : x.peer.node.currentTerm ≤ T →
    PeerInv T x.history (x.leader.progress p) x.rpc x.requests x.replies x.peer

theorem matchInv_of_starts {T : ℕ} {p : String} {x : Pair} (h : Starts T p x) :
    MatchInv T p x := by
  have hnext := h.next_eq
  have hmatch := h.match_eq
  have hidle := h.idle
  have hlast := h.window.lastIndex_eq
  refine ⟨⟨h.ne_id, h.leads, h.term_eq, h.leading, h.window, h.cached, h.covers, ?_⟩, ?_,
    fun _ => ?_⟩
  · simp [Server.captured, SnapshotLoop.taking, h.leaderTaking]
  · constructor <;> simp [Server.progress, hnext, hmatch, hidle, hlast, h.requests, h.replies]
  · refine ⟨h.follows, h.beyond, h.committed, ?_, ?_, ?_, ?_, ?_, ?_⟩
    · intro j h₁ h₂
      rw [show (x.leader.progress p).matched = 0 from hmatch] at h₂
      obtain rfl : firstIndex x.peer.node.logEntries = j := by omega
      exact h.follows.floor
    · simp [Server.captured, SnapshotLoop.taking, h.peerTaking]
    all_goals simp [h.requests, h.replies, h.installs]

/-! ## Steps of the leader -/

section Leader

variable {T : ℕ} {p : String} {H : List LogEntry} {s s' : Server} {ev : Event} {out : List Output}
  {first rpc : ℕ} {g : Progress} {requests : List (ℕ × Call)} {replies : List (ℕ × Output)}

theorem LeaderInv.keep (h : LeaderInv T p H s) (hid : s'.node.id = s.node.id)
    (hl : s'.node.state = .leader ∧ s'.node.currentTerm = T) (hrun : s'.run = .leading)
    (hlog : s'.node.logEntries = s.node.logEntries)
    (hsnap : s'.node.lastSnapshot = s.node.lastSnapshot)
    (hc : s'.captured = s.captured ∨ s'.captured = none) : LeaderInv T p H s' := by
  refine ⟨hid ▸ h.ne_id, hl.1, hl.2, hrun, hlog ▸ h.window, ?_, ?_, ?_⟩
  · rw [hlog, hsnap]
    exact h.cached
  · rw [hlog, hsnap]
    exact h.covers
  · rw [hlog]
    rcases hc with hc | hc
    · rw [hc]
      exact h.captured
    · simp [hc]

/-- What `TakeSnapshot` captures on the leader is an index and term of its history. -/
theorem LeaderInv.capture (h : LeaderInv T p H s) {rs : RaftSnapshot}
    (hb : s.node.beginSnapshot = some rs)
    (hok : s.node.lastApplied ≤ lastIndex s.node.logEntries) :
    firstIndex s.node.logEntries < rs.lastIncludedIndex ∧
      EndsIn H rs.lastIncludedIndex rs.lastIncludedTerm := by
  unfold Node.beginSnapshot at hb
  split_ifs at hb with hno
  cases hb
  rw [not_or, Nat.not_le] at hno
  rw [h.window.lastIndex_eq] at hok
  exact ⟨hno.2, hok, h.window.termAt_eq hno.2.le hok⟩

theorem LeaderInv.move (h : LeaderInv T p H s) (hm : LeaderMove p s ev s' out)
    (hb : BeginsCommitted s ev) (hid : s'.node.id = s.node.id)
    (hl : s'.node.state = .leader ∧ s'.node.currentTerm = T) (hrun : s'.run = .leading) :
    LeaderInv T p (H ++ out.filterMap Output.proposal) s' := by
  cases hm with
  | keep hg hlog hsnap hc hout =>
    rw [hout.1, List.append_nil]
    exact h.keep hid hl hrun hlog hsnap hc
  | propose e he ht hg hlog hsnap hc hout =>
    have hG := List.prefix_append H [e]
    have hlast := h.window.lastIndex_eq
    have hfirst : firstIndex s'.node.logEntries = firstIndex s.node.logEntries := by
      rw [hlog]
      exact firstIndex_append h.window.wellFormed.ne_nil _
    rw [hout.1]
    refine ⟨hid ▸ h.ne_id, hl.1, hl.2, hrun, hlog ▸ h.window.concat (by omega), ?_, ?_, ?_⟩
    · rw [hfirst, hsnap]
      exact h.cached
    · rw [hfirst, hsnap]
      exact fun snap hs => ⟨(h.covers snap hs).1, (h.covers snap hs).2.mono hG⟩
    · rw [hfirst, hc]
      exact fun c hc => ⟨(h.captured c hc).1, (h.captured c hc).2.mono hG⟩
  | capture hev rs hrs hs hout =>
    subst hev hs hout
    rw [List.filterMap_nil, List.append_nil]
    refine ⟨h.ne_id, h.leads, h.term_eq, hrun, h.window, h.cached, h.covers, ?_⟩
    rintro c ⟨⟩
    exact h.capture hrs hb.2
  | finish rs hrs hs hout =>
    subst hs hout
    have hcap : (rs.lastIncludedIndex, rs.lastIncludedTerm) ∈ s.captured := by
      simp [Server.captured, SnapshotLoop.taking, hrs]
    obtain ⟨hlt, hends⟩ := h.captured _ hcap
    have hfirst : firstIndex (s.node.finishSnapshot rs).logEntries = rs.lastIncludedIndex := by
      exact (firstIndex_compactLogLocked _ _).trans (max_eq_right hlt.le)
    have hwindow : Window (s.node.finishSnapshot rs).logEntries H := by
      have := h.window.compact hends.le_length
      rwa [← hends.term_eq] at this
    rw [List.filterMap_nil, List.append_nil]
    refine ⟨h.ne_id, h.leads, h.term_eq, hrun, hwindow, fun _ => rfl, ?_, ?_⟩
    · rintro snap ⟨⟩
      exact ⟨hfirst.symm, hends⟩
    · simp [Server.captured, SnapshotLoop.taking]
  | ship hn hs hout | giveUp hs hout =>
    subst hs hout
    rw [List.filterMap_nil, List.append_nil]
    exact h.keep rfl hl hrun rfl rfl (.inl rfl)
  | append n args hi hn hs hout =>
    subst hs hout
    have hheld := Node.sendAppend_held hn
    rw [show [Output.appendEntries p args].filterMap Output.proposal = [] from rfl,
      List.append_nil]
    exact h.keep hid hl hrun (Node.logEntries_of_held hheld) (Node.lastSnapshot_of_held hheld)
      (.inl rfl)
  | install args hi hn hs hout =>
    subst hs hout
    rw [show [Output.installSnapshot p args].filterMap Output.proposal = [] from rfl,
      List.append_nil]
    exact h.keep hid hl hrun rfl rfl (.inl rfl)

/-- A history and a first index that grow. -/
theorem MessagesInv.mono (h : MessagesInv T H first g rpc requests replies) {G : List LogEntry}
    {first' : ℕ} (hG : H <+: G) (hf : first ≤ first') :
    MessagesInv T G first' g rpc requests replies where
  matched_lt := h.matched_lt
  next_le := h.next_le.trans (Nat.succ_le_succ hG.length_le)
  shipping hs := (h.shipping hs).trans hf
  appending args ha := ⟨(h.appending args ha).1, (h.appending args ha).2.trans hG.length_le⟩
  installing args ha := ⟨(h.installing args ha).1.trans hG.length_le, (h.installing args ha).2⟩
  append id args ha := by
    obtain ⟨ht, H₀, hH₀, hs⟩ := h.append id args ha
    exact ⟨ht, H₀, hH₀.trans hG, hs⟩
  install id args ha := by
    obtain ⟨ht, hpos, hle, hends⟩ := h.install id args ha
    exact ⟨ht, hpos, hle.trans hf, hends.mono hG⟩
  requests_le := h.requests_le
  replies_le := h.replies_le
  rejected := h.rejected

/-- The replicator moves to where it waits for nothing. -/
theorem MessagesInv.park (h : MessagesInv T H first g rpc requests replies) {r : Replicator}
    (hr : r = .idle ∨ (r = .shipping ∧ g.next ≤ first)) :
    MessagesInv T H first { g with replicator := r } rpc requests replies where
  matched_lt := h.matched_lt
  next_le := h.next_le
  shipping hs := by
    rcases hr with rfl | ⟨-, hle⟩
    · cases hs
    · exact hle
  appending args ha := by rcases hr with rfl | ⟨rfl, -⟩ <;> cases ha
  installing args ha := by rcases hr with rfl | ⟨rfl, -⟩ <;> cases ha
  append := h.append
  install := h.install
  requests_le := h.requests_le
  replies_le := h.replies_le
  rejected args reply _ ha := by rcases hr with rfl | ⟨rfl, -⟩ <;> cases ha

/-- An AppendEntries goes out. -/
theorem MessagesInv.sendAppend (h : MessagesInv T H first g rpc requests replies)
    {args : AppendEntriesArgs} (ht : args.term = T) (hs : SliceOf args H)
    (hn : g.next = args.prevLogIndex + 1) :
    MessagesInv T H first { g with replicator := .waiting (.append args) } (rpc + 1)
      (requests ++ [(rpc + 1, .append args)]) replies where
  matched_lt := h.matched_lt
  next_le := h.next_le
  shipping hs := by cases hs
  appending a ha := by
    cases ha
    exact ⟨hn, hs.lastNew_eq.le⟩
  installing a ha := by cases ha
  append id a ha := by
    rcases List.mem_append.1 ha with ha | ha
    · exact h.append id a ha
    · cases List.mem_singleton.1 ha
      exact ⟨ht, H, List.prefix_rfl, hs⟩
  install id a ha := by
    rcases List.mem_append.1 ha with ha | ha
    · exact h.install id a ha
    · cases List.mem_singleton.1 ha
  requests_le r hr := by
    rcases List.mem_append.1 hr with hr | hr
    · exact Nat.le_succ_of_le (h.requests_le r hr)
    · cases List.mem_singleton.1 hr
      exact le_rfl
  replies_le id a reply hr := Nat.le_succ_of_le (h.replies_le id a reply hr)
  rejected a _ hr := absurd (h.replies_le _ a _ hr) (Nat.not_succ_le_self rpc)

/-- An InstallSnapshot goes out, with the snapshot of the leader's first index. -/
theorem MessagesInv.sendInstall (h : MessagesInv T H first g rpc requests replies)
    {args : InstallSnapshotArgs} (ht : args.term = T) (hf : args.lastIncludedIndex = first)
    (hends : EndsIn H args.lastIncludedIndex args.lastIncludedTerm) (hn : g.next ≤ first) :
    MessagesInv T H first { g with replicator := .waiting (.install args) } (rpc + 1)
      (requests ++ [(rpc + 1, .install args)]) replies where
  matched_lt := h.matched_lt
  next_le := h.next_le
  shipping hs := by cases hs
  appending a ha := by cases ha
  installing a ha := by
    cases ha
    refine ⟨hends.le_length, fun id a ha => ?_⟩
    rcases List.mem_append.1 ha with ha | ha
    · exact (h.install id a ha).2.2.1.trans_eq hf.symm
    · cases List.mem_singleton.1 ha
      exact le_rfl
  append id a ha := by
    rcases List.mem_append.1 ha with ha | ha
    · exact h.append id a ha
    · cases List.mem_singleton.1 ha
  install id a ha := by
    rcases List.mem_append.1 ha with ha | ha
    · exact h.install id a ha
    · cases List.mem_singleton.1 ha
      have hlt := h.matched_lt
      exact ⟨ht, by omega, hf.le, hends⟩
  requests_le r hr := by
    rcases List.mem_append.1 hr with hr | hr
    · exact Nat.le_succ_of_le (h.requests_le r hr)
    · cases List.mem_singleton.1 hr
      exact le_rfl
  replies_le id a reply hr := Nat.le_succ_of_le (h.replies_le id a reply hr)
  rejected a reply hr := absurd (h.replies_le (rpc + 1) a reply hr) (Nat.not_succ_le_self rpc)

/-- The history grows by an entry of the leader's term. -/
theorem PeerInv.grow (h : PeerInv T H g rpc requests replies s) {e : LogEntry} (ht : e.term = T) :
    PeerInv T (H ++ [e]) g rpc requests replies s where
  follows := h.follows.concat fun x hx => ht ▸ h.beyond _ x hx (Nat.lt_succ_self _)
  beyond i x hx hi := h.beyond i x hx (by
    rw [List.length_append] at hi
    omega)
  committed := h.committed.mono (List.prefix_append H [e])
  matched := h.matched.mono (List.prefix_append H [e])
  captured c hc := (h.captured c hc).mono (List.prefix_append H [e])
  installs := h.installs
  acked args reply hr hw hok := (h.acked args reply hr hw hok).mono (List.prefix_append H [e])
  ackedInstall := h.ackedInstall
  inFlight := h.inFlight

/-- The replicator moves on: where it waits for an AppendEntries, that has no reply yet, and the
InstallSnapshots in flight are old or the last ones. -/
theorem PeerInv.relay (h : PeerInv T H g rpc requests replies s) {r : Replicator} {rpc' : ℕ}
    {requests' : List (ℕ × Call)}
    (hacked : ∀ args reply, (rpc', Output.appendEntriesReply args reply) ∈ replies →
      r ≠ .waiting (.append args))
    (hflight : ∀ id args, (id, Call.install args) ∈ requests' →
      args.lastIncludedIndex ≤ firstIndex s.node.logEntries ∨
        (g.next ≤ args.lastIncludedIndex ∧ ∀ a, r ≠ .waiting (.append a))) :
    PeerInv T H { g with replicator := r } rpc' requests' replies s where
  follows := h.follows
  beyond := h.beyond
  committed := h.committed
  matched := h.matched
  captured := h.captured
  installs := h.installs
  acked args reply hr hw := absurd hw (hacked args reply hr)
  ackedInstall := h.ackedInstall
  inFlight := hflight

/-- The replicator waits for no AppendEntries any more. -/
theorem PeerInv.park (h : PeerInv T H g rpc requests replies s) {r : Replicator}
    (hr : ∀ a, r ≠ .waiting (.append a)) :
    PeerInv T H { g with replicator := r } rpc requests replies s :=
  h.relay (fun args _ _ => hr args) fun id args ha =>
    (h.inFlight id args ha).imp_right fun hn => ⟨hn.1, hr⟩

/-- An AppendEntries goes out when every InstallSnapshot in flight is old. -/
theorem PeerInv.sendAppend (h : PeerInv T H g rpc requests replies s) {args : AppendEntriesArgs}
    (hfresh : ∀ args reply, (rpc + 1, Output.appendEntriesReply args reply) ∉ replies)
    (hold : ∀ id a, (id, Call.install a) ∈ requests → a.lastIncludedIndex < g.next) :
    PeerInv T H { g with replicator := .waiting (.append args) } (rpc + 1)
      (requests ++ [(rpc + 1, .append args)]) replies s := by
  refine h.relay (fun a reply hr => absurd hr (hfresh a reply)) fun id a ha => ?_
  rcases List.mem_append.1 ha with ha | ha
  · refine .inl ((h.inFlight id a ha).resolve_right fun hn => ?_)
    exact absurd hn.1 (Nat.not_le.2 (hold id a ha))
  · cases List.mem_singleton.1 ha

/-- An InstallSnapshot goes out. -/
theorem PeerInv.sendInstall (h : PeerInv T H g rpc requests replies s) {args : InstallSnapshotArgs}
    (hfresh : ∀ args reply, (rpc + 1, Output.appendEntriesReply args reply) ∉ replies)
    (hn : g.next ≤ args.lastIncludedIndex) :
    PeerInv T H { g with replicator := .waiting (.install args) } (rpc + 1)
      (requests ++ [(rpc + 1, .install args)]) replies s := by
  refine h.relay (fun a reply hr => absurd hr (hfresh a reply)) fun id a ha => ?_
  rcases List.mem_append.1 ha with ha | ha
  · exact (h.inFlight id a ha).imp_right fun hn => ⟨hn.1, by simp⟩
  · cases List.mem_singleton.1 ha
    exact .inr ⟨hn, by simp⟩

end Leader

section LeaderStep

variable {T : ℕ} {p : String} {x : Pair} {s' : Server} {ev : Event} {out : List Output}

/-- The leader never has to clamp `nextIndex`: below its placeholder it has a snapshot. -/
theorem MatchInv.sendAppend_eq (h : MatchInv T p x) {n : Node} {args : AppendEntriesArgs}
    (hn : x.leader.node.sendAppend p = (n, .append args)) :
    n = x.leader.node ∧ args.term = T ∧ SliceOf args x.history ∧
      x.leader.node.nextIndex.get p = args.prevLogIndex + 1 ∧
      firstIndex x.leader.node.logEntries < x.leader.node.nextIndex.get p := by
  have hlt : firstIndex x.leader.node.logEntries < x.leader.node.nextIndex.get p := by
    by_contra hle
    rw [Nat.not_lt] at hle
    have hpos : 0 < x.leader.node.nextIndex.get p := Nat.zero_lt_of_lt h.messages.matched_lt
    have hsnap := h.leader.cached (hpos.trans_le hle)
    unfold Node.sendAppend at hn
    rw [if_neg (not_not.2 h.leader.leads), if_pos ⟨hle, hsnap⟩] at hn
    cases hn
  have hle : x.leader.node.nextIndex.get p ≤ lastIndex x.leader.node.logEntries + 1 := by
    rw [h.leader.window.lastIndex_eq]
    exact h.messages.next_le
  obtain ⟨hs, -⟩ := sliceOf_sendAppend h.leader.window hn hle
  rw [Node.sendAppend_of_lt _ h.leader.leads hlt] at hn
  cases hn
  exact ⟨rfl, h.leader.term_eq, hs, (Nat.sub_add_cancel (by omega)).symm, hlt⟩

theorem MessagesInv.fresh {H : List LogEntry} {first rpc : ℕ} {g : Progress}
    {requests : List (ℕ × Call)} {replies : List (ℕ × Output)}
    (h : MessagesInv T H first g rpc requests replies) (args : AppendEntriesArgs)
    (reply : AppendEntriesReply) :
    (rpc + 1, Output.appendEntriesReply args reply) ∉ replies :=
  fun hr => absurd (h.replies_le _ args reply hr) (Nat.not_succ_le_self rpc)

/-- A step of the leader that sends nothing to `p` and leaves what it keeps about it. -/
theorem MatchInv.leader_quiet (h : MatchInv T p x)
    (hleader : LeaderInv T p (x.history ++ out.filterMap Output.proposal) s')
    (hg : s'.progress p = x.leader.progress p)
    (hfirst : firstIndex x.leader.node.logEntries ≤ firstIndex s'.node.logEntries)
    (hterm : ∀ e ∈ out.filterMap Output.proposal, e.term = T)
    (hout : (out.filterMap Output.proposal).length ≤ 1 ∧
      out.filterMap (Output.requestTo p) = []) : MatchInv T p (x.afterLeader p s' out) := by
  refine ⟨hleader, ?_, fun hT => ?_⟩
  · have hmono := h.messages.mono (List.prefix_append x.history (out.filterMap Output.proposal))
      hfirst
    simpa only [Pair.afterLeader, hg, hout.2, List.length_nil, Nat.add_zero, List.map_nil,
      List.append_nil] using hmono
  · have hpeer := h.peer hT
    simp only [Pair.afterLeader, hg, hout.2, List.length_nil, Nat.add_zero, List.map_nil,
      List.append_nil]
    rcases hp : out.filterMap Output.proposal with _ | ⟨e, _ | ⟨e', l⟩⟩
    · rwa [List.append_nil]
    · exact hpeer.grow (hterm e (by simp [hp]))
    · rw [hp] at hout
      simp at hout

/-- **A step of the leader keeps the invariant.** -/
theorem MatchInv.leader_step (h : MatchInv T p x) (hm : LeaderMove p x.leader ev s' out)
    (hb : BeginsCommitted x.leader ev) (hid : s'.node.id = x.leader.node.id)
    (hl : s'.node.state = .leader ∧ s'.node.currentTerm = T) (hrun : s'.run = .leading) :
    MatchInv T p (x.afterLeader p s' out) := by
  have hleader := h.leader.move hm hb hid hl hrun
  cases hm with
  | keep hg hlog hsnap hc hout =>
    exact h.leader_quiet hleader hg (hlog ▸ le_rfl) (by simp [hout.1]) ⟨by simp [hout.1], hout.2⟩
  | propose e he ht hg hlog hsnap hc hout =>
    refine h.leader_quiet hleader hg ?_ ?_ ⟨by simp [hout.1], hout.2⟩
    · rw [hlog, firstIndex_append h.leader.window.wellFormed.ne_nil]
    · simp [hout.1, ht, h.leader.term_eq]
  | capture hev rs hrs hs hout =>
    subst hs hout
    exact h.leader_quiet hleader rfl le_rfl (by simp) ⟨by simp, rfl⟩
  | finish rs hrs hs hout =>
    subst hs hout
    refine h.leader_quiet hleader rfl ?_ (by simp) ⟨by simp, rfl⟩
    exact (le_max_left _ _).trans_eq (firstIndex_compactLogLocked _ _).symm
  | ship hn hs hout =>
    subst hs hout
    rw [Pair.afterLeader_nil]
    refine ⟨by simpa using hleader, ?_, fun hT => ?_⟩
    · rw [Server.progress_update]
      exact h.messages.park (.inr ⟨rfl, hn⟩)
    · rw [Server.progress_update]
      exact (h.peer hT).park (by simp)
  | giveUp hs hout =>
    subst hs hout
    rw [Pair.afterLeader_nil]
    refine ⟨by simpa using hleader, ?_, fun hT => ?_⟩
    · rw [Server.progress_update]
      exact h.messages.park (.inl rfl)
    · rw [Server.progress_update]
      exact (h.peer hT).park (by simp)
  | append n args hi hn hs hout =>
    obtain ⟨rfl, hterm, hslice, hnext, hlt⟩ := h.sendAppend_eq hn
    subst hs hout
    rw [Pair.afterLeader_appendEntries]
    refine ⟨by simpa [List.filterMap, Output.proposal] using hleader, ?_, fun hT => ?_⟩
    · rw [Server.progress_update]
      exact h.messages.sendAppend hterm hslice hnext
    · rw [Server.progress_update]
      exact (h.peer hT).sendAppend h.messages.fresh fun id a ha =>
        (h.messages.install id a ha).2.2.1.trans_lt hlt
  | install args hi hn hs hout =>
    subst hs hout
    obtain ⟨-, snap, hsnap, rfl⟩ := x.leader.node.sendInstallSnapshot_spec hn
    obtain ⟨hfirst, hends⟩ := h.leader.covers snap hsnap
    have hle := h.messages.shipping hi
    rw [Pair.afterLeader_installSnapshot]
    refine ⟨by simpa [List.filterMap, Output.proposal] using hleader, ?_, fun hT => ?_⟩
    · rw [Server.progress_update]
      exact h.messages.sendInstall h.leader.term_eq hfirst hends hle
    · rw [Server.progress_update]
      exact (h.peer hT).sendInstall h.messages.fresh (hle.trans_eq hfirst.symm)

end LeaderStep

/-! ## Replies -/

section Receive

variable {T : ℕ} {p : String} {H : List LogEntry} {s : Server} {first rpc : ℕ} {g : Progress}
  {requests : List (ℕ × Call)} {replies replies' : List (ℕ × Output)} {next matched : ℕ}

/-- The replicator has its reply, and the leader takes it into account. -/
theorem MessagesInv.settle (h : MessagesInv T H first g rpc requests replies)
    (hlt : matched < next) (hle : next ≤ H.length + 1) (hsub : ∀ r ∈ replies', r ∈ replies) :
    MessagesInv T H first ⟨next, matched, .idle⟩ rpc requests replies' where
  matched_lt := hlt
  next_le := hle
  shipping hs := by cases hs
  appending args ha := by cases ha
  installing args ha := by cases ha
  append := h.append
  install := h.install
  requests_le := h.requests_le
  replies_le id args reply hr := h.replies_le id args reply (hsub _ hr)
  rejected args reply _ ha := by cases ha

theorem PeerInv.settle (h : PeerInv T H g rpc requests replies s)
    (hm : AgreesUpTo s.node.logEntries H matched)
    (hf : ∀ id args, (id, Call.install args) ∈ requests →
      args.lastIncludedIndex ≤ firstIndex s.node.logEntries ∨ next ≤ args.lastIncludedIndex)
    (hsub : ∀ r ∈ replies', r ∈ replies) :
    PeerInv T H ⟨next, matched, .idle⟩ rpc requests replies' s where
  follows := h.follows
  beyond := h.beyond
  committed := h.committed
  matched := hm
  captured := h.captured
  installs := h.installs
  acked args reply _ ha := by cases ha
  ackedInstall id args reply hr := h.ackedInstall id args reply (hsub _ hr)
  inFlight id args ha := (hf id args ha).imp_right fun hn => ⟨hn, by simp⟩

theorem AgreesUpTo.max {log H : List LogEntry} {i j : ℕ} (hi : AgreesUpTo log H i)
    (hj : AgreesUpTo log H j) : AgreesUpTo log H (max i j) := by
  intro k h₁ h₂
  rcases le_max_iff.1 h₂ with h₂ | h₂
  · exact hi k h₁ h₂
  · exact hj k h₁ h₂

/-- A placeholder that agrees is agreement up to any index it covers. -/
theorem Follows.agreesUpTo {log H : List LogEntry} {i : ℕ} (h : Follows log H)
    (hi : i ≤ firstIndex log) : AgreesUpTo log H i := by
  intro j h₁ h₂
  obtain rfl : firstIndex log = j := by omega
  exact h.floor

theorem Node.backOff_next (n : Node) :
    (n.backOff p).nextIndex.get p = n.nextIndex.get p ∨
      (n.backOff p).nextIndex.get p + 1 = n.nextIndex.get p := by
  simp only [backOff]
  split_ifs
  · rw [PeerMap.get_insert_self]
    omega
  · exact .inl rfl

/-- What a leader that stays leader does with a reply. -/
theorem Node.handleAppendReply_cases {n : Node} {args : AppendEntriesArgs}
    {reply : AppendEntriesReply} (hl : (n.handleAppendReply p args reply).state = .leader) :
    n.handleAppendReply p args reply = n ∨
    (reply.success = true ∧ n.handleAppendReply p args reply =
      n.recordMatch p (args.prevLogIndex + args.entries.length)) ∨
    (reply.success = false ∧ reply.term ≤ n.currentTerm ∧
      n.handleAppendReply p args reply = n.backOff p) := by
  unfold handleAppendReply at hl ⊢
  split_ifs at hl ⊢ with h₁ h₂ h₃
  · cases hl
  · exact .inl rfl
  · exact .inr (.inl ⟨h₃, rfl⟩)
  · exact .inr (.inr ⟨by simpa using h₃, Nat.le_of_not_lt h₁, rfl⟩)

theorem Node.handleInstallReply_cases {n : Node} {args : InstallSnapshotArgs}
    {reply : InstallSnapshotReply} (hl : (n.handleInstallReply p args reply).state = .leader) :
    n.handleInstallReply p args reply = n ∨
    (reply.success = true ∧ n.handleInstallReply p args reply =
      n.recordMatch p args.lastIncludedIndex) := by
  unfold handleInstallReply at hl ⊢
  split_ifs at hl ⊢ with h₁ h₂
  · cases hl
  · exact .inl rfl
  · exact .inr ⟨by simpa using not_or.1 h₂ |>.1, rfl⟩

/-- The leader after the reply to its RPC. -/
theorem MatchInv.received {x : Pair} (h : MatchInv T p x) {n : Node} (hl : n.state = .leader)
    (hheld : n.held = x.leader.node.held) (hstatic : n.static = x.leader.node.static)
    (hterm : n.currentTerm = T)
    (hlt : n.matchIndex.get p < n.nextIndex.get p)
    (hle : n.nextIndex.get p ≤ x.history.length + 1)
    (hm : x.peer.node.currentTerm ≤ T →
      AgreesUpTo x.peer.node.logEntries x.history (n.matchIndex.get p))
    (hf : x.peer.node.currentTerm ≤ T → ∀ id args, (id, Call.install args) ∈ x.requests →
      args.lastIncludedIndex ≤ firstIndex x.peer.node.logEntries ∨
        n.nextIndex.get p ≤ args.lastIncludedIndex)
    (hsub : ∀ r ∈ replies', r ∈ x.replies) :
    MatchInv T p { x with
      leader := { x.leader with
        node := n, replicators := Function.update x.leader.replicators p .idle }
      replies := replies' } := by
  have hlog := Node.logEntries_of_held hheld
  have hg : Server.progress { x.leader with
      node := n, replicators := Function.update x.leader.replicators p .idle } p =
        ⟨n.nextIndex.get p, n.matchIndex.get p, .idle⟩ := by
    simp [Server.progress]
  refine ⟨h.leader.keep (congrArg Prod.fst hstatic) ⟨hl, hterm⟩ h.leader.leading hlog
    (Node.lastSnapshot_of_held hheld) (.inl rfl), ?_, fun hT => ?_⟩
  · rw [hg]
    show MessagesInv T x.history (firstIndex n.logEntries) _ _ _ _
    rw [hlog]
    exact h.messages.settle hlt hle hsub
  · rw [hg]
    exact (h.peer hT).settle (hm hT) (hf hT) hsub

/-- **The reply to an AppendEntries keeps the invariant.** -/
theorem MatchInv.receiveAppend {x : Pair} (h : MatchInv T p x) {args : AppendEntriesArgs}
    {reply : AppendEntriesReply} (hr : (x.rpc, Output.appendEntriesReply args reply) ∈ x.replies)
    (hw : x.leader.replicators p = .waiting (.append args))
    (hl : (x.leader.node.handleAppendReply p args reply).state = .leader)
    (hsub : ∀ r ∈ replies', r ∈ x.replies) :
    MatchInv T p { x with
      leader := { x.leader with
        node := x.leader.node.handleAppendReply p args reply
        replicators := Function.update x.leader.replicators p .idle }
      replies := replies' } := by
  have hlt : x.leader.node.matchIndex.get p < x.leader.node.nextIndex.get p :=
    h.messages.matched_lt
  have hle : x.leader.node.nextIndex.get p ≤ x.history.length + 1 := h.messages.next_le
  obtain ⟨hnext, hlen⟩ : x.leader.node.nextIndex.get p = args.prevLogIndex + 1 ∧ _ :=
    h.messages.appending args hw
  have hold : x.peer.node.currentTerm ≤ T → ∀ id a, (id, Call.install a) ∈ x.requests →
      a.lastIncludedIndex ≤ firstIndex x.peer.node.logEntries := fun hT id a ha =>
    ((h.peer hT).inFlight id a ha).resolve_right fun hn => hn.2 args hw
  have hterm := (Node.handleAppendReply_leader hl).2.trans h.leader.term_eq
  refine h.received hl (Node.handleAppendReply_held _ _ _ _)
    (Node.handleAppendReply_static _ _ _ _) hterm ?_ ?_ (fun hT => ?_)
    (fun hT id a ha => .inl (hold hT id a ha)) hsub
  all_goals
    rcases Node.handleAppendReply_cases hl with he | ⟨hok, he⟩ | ⟨hno, hle', he⟩ <;> rw [he]
  · exact hlt
  · rw [(Node.recordMatch_next _ _).1, (Node.recordMatch_next _ _).2]
    omega
  · have hbelow : x.leader.node.matchIndex.get p < args.prevLogIndex :=
      h.messages.rejected args reply hr hw hno (hle'.trans_eq h.leader.term_eq)
    show x.leader.node.matchIndex.get p < _
    rcases x.leader.node.backOff_next (p := p) with hb | hb <;> omega
  · exact hle
  · rw [(Node.recordMatch_next _ _).1]
    omega
  · rcases x.leader.node.backOff_next (p := p) with hb | hb <;> omega
  · exact (h.peer hT).matched
  · rw [(Node.recordMatch_next _ _).2]
    exact (h.peer hT).matched.max ((h.peer hT).acked args reply hr hw hok)
  · exact (h.peer hT).matched

/-- **The reply to an InstallSnapshot keeps the invariant.** -/
theorem MatchInv.receiveInstall {x : Pair} (h : MatchInv T p x) {id : ℕ}
    {args : InstallSnapshotArgs} {reply : InstallSnapshotReply}
    (hr : (id, Output.installSnapshotReply args reply) ∈ x.replies)
    (hw : x.leader.replicators p = .waiting (.install args))
    (hl : (x.leader.node.handleInstallReply p args reply).state = .leader)
    (hsub : ∀ r ∈ replies', r ∈ x.replies) :
    MatchInv T p { x with
      leader := { x.leader with
        node := x.leader.node.handleInstallReply p args reply
        replicators := Function.update x.leader.replicators p .idle }
      replies := replies' } := by
  have hlt : x.leader.node.matchIndex.get p < x.leader.node.nextIndex.get p :=
    h.messages.matched_lt
  have hle : x.leader.node.nextIndex.get p ≤ x.history.length + 1 := h.messages.next_le
  obtain ⟨hlen, hlatest⟩ := h.messages.installing args hw
  have hterm := (Node.handleInstallReply_leader hl).2.trans h.leader.term_eq
  refine h.received hl (Node.handleInstallReply_held _ _ _ _)
    (Node.handleInstallReply_static _ _ _ _) hterm ?_ ?_ (fun hT => ?_) (fun hT id' a ha => ?_) hsub
  all_goals rcases Node.handleInstallReply_cases hl with he | ⟨hok, he⟩ <;> rw [he]
  · exact hlt
  · rw [(Node.recordMatch_next _ _).1, (Node.recordMatch_next _ _).2]
    omega
  · exact hle
  · rw [(Node.recordMatch_next _ _).1]
    omega
  · exact (h.peer hT).matched
  · rw [(Node.recordMatch_next _ _).2]
    have hfirst := (h.peer hT).ackedInstall id args reply hr hok
    exact (h.peer hT).matched.max ((h.peer hT).follows.agreesUpTo hfirst)
  · exact ((h.peer hT).inFlight id' a ha).imp_right fun hn => hn.1
  · exact .inl ((hlatest id' a ha).trans ((h.peer hT).ackedInstall id args reply hr hok))

end Receive

/-! ## Steps of the peer -/

section Peer

variable {T : ℕ} {p : String} {H : List LogEntry} {s s' : Server} {ev : Event} {rpc : ℕ}
  {g : Progress} {requests requests' : List (ℕ × Call)} {replies : List (ℕ × Output)}

theorem PeerInv.keep (h : PeerInv T H g rpc requests replies s)
    (hlog : s'.node.logEntries = s.node.logEntries)
    (hcommit : s'.node.commitIndex = s.node.commitIndex)
    (hc : s'.captured = s.captured ∨ s'.captured = none)
    (hi : ∀ a ∈ s'.installs, a ∈ s.installs) (hsub : ∀ r ∈ requests', r ∈ requests) :
    PeerInv T H g rpc requests' replies s' where
  follows := hlog ▸ h.follows
  beyond := hlog ▸ h.beyond
  committed := by
    rw [hlog, hcommit]
    exact h.committed
  matched := hlog ▸ h.matched
  captured := by
    rcases hc with hc | hc
    · rw [hc]
      exact h.captured
    · simp [hc]
  installs a ha := hlog ▸ h.installs a (hi a ha)
  acked := hlog ▸ h.acked
  ackedInstall := hlog ▸ h.ackedInstall
  inFlight id args ha := hlog ▸ h.inFlight id args (hsub _ ha)

/-- What `TakeSnapshot` captures on the peer is an index and term of the leader's history. -/
theorem PeerInv.capture (h : PeerInv T H g rpc requests replies s) {rs : RaftSnapshot}
    (hb : s.node.beginSnapshot = some rs) (hok : s.node.lastApplied ≤ s.node.commitIndex) :
    EndsIn H rs.lastIncludedIndex rs.lastIncludedTerm := by
  unfold Node.beginSnapshot at hb
  split_ifs at hb with hno
  cases hb
  rw [not_or, Nat.not_le] at hno
  have hag := h.committed _ hno.2.le hok
  exact ⟨hag.le_length, hag.termAt_eq⟩

/-- The peer compacts its log. -/
theorem PeerInv.finish (h : PeerInv T H g rpc requests replies s) {rs : RaftSnapshot}
    (hrs : s.snapshot = .saved rs) :
    PeerInv T H g rpc requests replies
      { s with node := s.node.finishSnapshot rs, snapshot := .idle } := by
  have hends : EndsIn H rs.lastIncludedIndex rs.lastIncludedTerm :=
    h.captured (rs.lastIncludedIndex, rs.lastIncludedTerm)
      (by simp [Server.captured, SnapshotLoop.taking, hrs])
  rcases Nat.lt_or_ge (firstIndex s.node.logEntries) rs.lastIncludedIndex with hlt | hge
  · have hw := h.follows.wellFormed
    have hfirst : firstIndex s.node.logEntries ≤
        firstIndex (s.node.finishSnapshot rs).logEntries :=
      (le_max_left _ _).trans_eq (firstIndex_compactLogLocked _ _).symm
    exact {
      follows := Follows.compact hw hends hlt h.follows.matching
      beyond := fun i e he hi => h.beyond i e
        ((entryAt_compactLogLocked hw _ _ (hends.le_length.trans_lt hi)).symm.trans he) hi
      committed := AgreesUpTo.compact hw hends hlt h.committed
      matched := AgreesUpTo.compact hw hends hlt h.matched
      captured := by simp [Server.captured, SnapshotLoop.taking]
      installs := fun a ha => (h.installs a ha).trans hfirst
      acked := fun args reply hr hwait hok =>
        AgreesUpTo.compact hw hends hlt (h.acked args reply hr hwait hok)
      ackedInstall := fun id args reply hr hok => (h.ackedInstall id args reply hr hok).trans hfirst
      inFlight := fun id args ha => (h.inFlight id args ha).imp_left fun hle => hle.trans hfirst }
  · exact h.keep (compactLogLocked_of_le hge) rfl (.inr rfl) (fun a ha => ha) fun r hr => hr

theorem MatchInv.peer_step {x : Pair} (h : MatchInv T p x) {installing : List ℕ}
    (hm : s'.node.currentTerm ≤ T → PeerMove x.peer ev s') (hb : BeginsCommitted x.peer ev)
    (hle : x.peer.node.currentTerm ≤ s'.node.currentTerm) :
    MatchInv T p { x with peer := s', installing := installing } := by
  refine ⟨h.leader, h.messages, fun hT => ?_⟩
  have hpeer := h.peer (hle.trans hT)
  cases hm hT with
  | keep hlog hcommit hc hi =>
    exact hpeer.keep hlog hcommit hc (fun a ha => hi ▸ ha) fun r hr => hr
  | capture hev rs hrs hs =>
    subst hev hs
    refine { hpeer with captured := ?_ }
    rintro c ⟨⟩
    exact hpeer.capture hrs hb.1
  | finish rs hrs hs =>
    subst hs
    exact hpeer.finish hrs

end Peer

/-! ## Requests -/

section Deliver

variable {T : ℕ} {p : String} {H G : List LogEntry} {s : Server} {first rpc : ℕ} {g : Progress}
  {requests requests' : List (ℕ × Call)} {replies : List (ℕ × Output)}

/-- The peer has handled a request and may have answered it. -/
theorem MessagesInv.answer (h : MessagesInv T H first g rpc requests replies)
    (hsub : ∀ r ∈ requests', r ∈ requests) {news : List (ℕ × Output)}
    (hle : ∀ id args reply, (id, Output.appendEntriesReply args reply) ∈ news → id ≤ rpc)
    (hrej : ∀ args reply, (rpc, Output.appendEntriesReply args reply) ∈ news →
      g.replicator = .waiting (.append args) → reply.success = false → reply.term ≤ T →
        g.matched < args.prevLogIndex) :
    MessagesInv T H first g rpc requests' (replies ++ news) where
  matched_lt := h.matched_lt
  next_le := h.next_le
  shipping := h.shipping
  appending := h.appending
  installing args ha :=
    ⟨(h.installing args ha).1, fun id a hr => (h.installing args ha).2 id a (hsub _ hr)⟩
  append id args ha := h.append id args (hsub _ ha)
  install id args ha := h.install id args (hsub _ ha)
  requests_le r hr := h.requests_le r (hsub r hr)
  replies_le id args reply hr := by
    rcases List.mem_append.1 hr with hr | hr
    · exact h.replies_le id args reply hr
    · exact hle id args reply hr
  rejected args reply hr := by
    rcases List.mem_append.1 hr with hr | hr
    · exact h.rejected args reply hr
    · exact hrej args reply hr

/-- A slice of the history is only rejected above what the peer is known to match. -/
theorem PeerInv.lt_of_rejected (h : PeerInv T H g rpc requests replies s)
    {args : AppendEntriesArgs} {H₀ : List LogEntry} (hs : SliceOf args H₀) (hH₀ : H₀ <+: H)
    (hno : ¬ Node.Consistent s.node.logEntries args) : g.matched < args.prevLogIndex := by
  by_contra hle
  rw [Nat.not_lt] at hle
  have hwf := h.follows.wellFormed.firstIndex_le_lastIndex
  refine hno ⟨?_, fun hf => ?_⟩
  · rcases Nat.lt_or_ge args.prevLogIndex (firstIndex s.node.logEntries) with hlt | hf
    · omega
    · exact (h.matched _ hf hle).bounds.2
  · rw [(h.matched _ hf hle).termAt_eq, hs.term_eq, take_of_isPrefix hH₀ hs.le_length]

theorem AgreesUpTo.installs {args : AppendEntriesArgs} {m m' : Node} {i : ℕ}
    (h : AgreesUpTo m.logEntries G i) (hi : Installs args G m m') :
    AgreesUpTo m'.logEntries G i := by
  intro j h₁ h₂
  have hj := h j (hi.firstIndex_eq ▸ h₁) h₂
  exact hj.congr hi.firstIndex_eq.ge (hi.kept j hj)

/-- The peer takes over a slice of the history. -/
theorem PeerInv.installs_append (h : PeerInv T H g rpc requests replies s)
    {args : AppendEntriesArgs} {n : Node} (hi : Installs args H s.node n)
    (hsub : ∀ r ∈ requests', r ∈ requests) (id : ℕ) (reply : AppendEntriesReply) :
    PeerInv T H g rpc requests' (replies ++ [(id, .appendEntriesReply args reply)])
      { s with node := n } where
  follows := hi.follows
  beyond i e he hlen := by
    rcases hi.source i e he with hold | hnew
    · exact h.beyond i e hold hlen
    · obtain ⟨hlt, -⟩ := List.getElem?_eq_some_iff.1 hnew
      omega
  committed := by
    show AgreesUpTo n.logEntries H n.commitIndex
    rw [hi.commitIndex_eq]
    refine (h.committed.installs hi).max fun j h₁ h₂ => hi.agrees j h₁ ?_
    exact h₂.trans (min_le_right _ _)
  matched := h.matched.installs hi
  captured := h.captured
  installs a ha := (h.installs a ha).trans_eq hi.firstIndex_eq.symm
  acked a r hr hw hok := by
    rcases List.mem_append.1 hr with hr | hr
    · exact (h.acked a r hr hw hok).installs hi
    · cases List.mem_singleton.1 hr
      exact hi.agrees
  ackedInstall id' a r hr hok := by
    rcases List.mem_append.1 hr with hr | hr
    · exact (h.ackedInstall id' a r hr hok).trans_eq hi.firstIndex_eq.symm
    · cases List.mem_singleton.1 hr
  inFlight id' a ha := (h.inFlight id' a (hsub _ ha)).imp_left fun hle =>
    hle.trans_eq hi.firstIndex_eq.symm

/-- The peer answers without taking anything over. -/
theorem PeerInv.answer (h : PeerInv T H g rpc requests replies s) {news : List (ℕ × Output)}
    (happ : ∀ id args reply, (id, Output.appendEntriesReply args reply) ∈ news →
      reply.success = false)
    (hins : ∀ id args reply, (id, Output.installSnapshotReply args reply) ∈ news →
      reply.success = true → args.lastIncludedIndex ≤ firstIndex s.node.logEntries) :
    PeerInv T H g rpc requests (replies ++ news) s where
  follows := h.follows
  beyond := h.beyond
  committed := h.committed
  matched := h.matched
  captured := h.captured
  installs := h.installs
  acked a r hr hw hok := by
    rcases List.mem_append.1 hr with hr | hr
    · exact h.acked a r hr hw hok
    · rw [happ _ a r hr] at hok
      cases hok
  ackedInstall id a r hr hok := by
    rcases List.mem_append.1 hr with hr | hr
    · exact h.ackedInstall id a r hr hok
    · exact hins id a r hr hok
  inFlight := h.inFlight

/-- The peer replaces its log by a snapshot of the history that the leader still waits to hear
of. -/
theorem PeerInv.install (h : PeerInv T H g rpc requests replies s) {args : InstallSnapshotArgs}
    (hlt : g.matched < g.next) (hends : EndsIn H args.lastIncludedIndex args.lastIncludedTerm)
    (hnew : firstIndex s.node.logEntries < args.lastIncludedIndex)
    (hn : g.next ≤ args.lastIncludedIndex ∧ ∀ a, g.replicator ≠ .waiting (.append a))
    (hidle : s.snapshot = .idle) (hsub : ∀ r ∈ requests', r ∈ requests)
    (reply : InstallSnapshotReply) :
    PeerInv T H g rpc requests' replies
      { s with node := s.node.installed args, installs := s.installs ++ [(args, reply)] } where
  follows := hends.follows_singleton
  beyond i e he hlen := by
    have hb := (entryAt_bounds he).2
    exact absurd (hlen.trans_le hb) (Nat.not_lt.2 hends.le_length)
  committed := hends.agreesUpTo_singleton le_rfl
  matched := hends.agreesUpTo_singleton (hlt.le.trans hn.1)
  captured := by simp [Server.captured, SnapshotLoop.taking, hidle]
  installs a ha := by
    rcases List.mem_append.1 ha with ha | ha
    · exact (h.installs a ha).trans hnew.le
    · cases List.mem_singleton.1 ha
      exact le_rfl
  acked a r _ hw := absurd hw (hn.2 a)
  ackedInstall id a r hr hok := (h.ackedInstall id a r hr hok).trans hnew.le
  inFlight id a ha := (h.inFlight id a (hsub _ ha)).imp_left fun hle => hle.trans hnew.le

variable {x : Pair} {k id : ℕ}

/-- **The peer's handling of an AppendEntries keeps the invariant.** -/
theorem MatchInv.deliverAppend (h : MatchInv T p x) {args : AppendEntriesArgs}
    (hk : x.requests[k]? = some (id, .append args)) :
    MatchInv T p (x.afterDeliver k id
      { x.peer with node := (x.peer.node.handleAppendEntries args).1 }
      [.appendEntriesReply args (x.peer.node.handleAppendEntries args).2]) := by
  have hmem := List.mem_of_getElem? hk
  have hsub : ∀ r ∈ x.requests.eraseIdx k, r ∈ x.requests := fun r => List.mem_of_mem_eraseIdx
  obtain ⟨hterm, H₀, hH₀, hslice⟩ := h.messages.append id args hmem
  refine ⟨h.leader, ?_, fun hT => ?_⟩
  · refine h.messages.answer hsub (fun id' a r hr => ?_) fun a r hr hw hno hle => ?_
    · cases List.mem_singleton.1 hr
      exact h.messages.requests_le _ hmem
    · cases List.mem_singleton.1 hr
      rcases x.peer.node.handleAppendEntries_cases args with ⟨hlt, he⟩ | ⟨hge, hcons, -⟩ |
        ⟨-, -, he⟩
      · rw [he] at hle
        exact absurd hle (Nat.not_le.2 (hterm ▸ hlt))
      · exact (h.peer (hterm ▸ hge)).lt_of_rejected hslice hH₀ hcons
      · rw [he] at hno
        cases hno
  · have hle : x.peer.node.currentTerm ≤ T :=
      (VoteStep.handleAppendEntries x.peer.node args).le_currentTerm.trans hT
    have hpeer := h.peer hle
    obtain ⟨hyes, hno⟩ := handleAppendEntries_installs hslice
      (h.leader.window.indexed.of_isPrefix hH₀) hH₀ hpeer.follows
    by_cases hok : (x.peer.node.handleAppendEntries args).2.success = true
    · exact hpeer.installs_append (hyes hok) hsub id _
    · rw [Bool.not_eq_true] at hok
      obtain ⟨hlog, hcommit⟩ := hno hok
      have hkeep : PeerInv T x.history (x.leader.progress p) x.rpc (x.requests.eraseIdx k)
          x.replies { x.peer with node := (x.peer.node.handleAppendEntries args).1 } :=
        hpeer.keep hlog hcommit (.inl rfl) (fun a ha => ha) hsub
      refine hkeep.answer (fun id' a r hr => ?_) fun id' a r hr => ?_
      · cases List.mem_singleton.1 hr
        exact hok
      · cases List.mem_singleton.1 hr

/-- **The peer's handling of an InstallSnapshot keeps the invariant.** -/
theorem MatchInv.deliverInstall (h : MatchInv T p x) {args : InstallSnapshotArgs} {s' : Server}
    {out : List Output} (hk : x.requests[k]? = some (id, .install args))
    (hidle : x.peer.snapshot = .idle)
    (hs : Server.Step x.peer (.handleInstallSnapshot args) s' out) :
    MatchInv T p (x.afterDeliver k id s' out) := by
  have hmem := List.mem_of_getElem? hk
  have hsub : ∀ r ∈ x.requests.eraseIdx k, r ∈ x.requests := fun r => List.mem_of_mem_eraseIdx
  obtain ⟨hterm, hpos, hfirst, hends⟩ := h.messages.install id args hmem
  have hquiet : ∀ {news : List (ℕ × Output)},
      (∀ id' a r, (id', Output.appendEntriesReply a r) ∉ news) →
      MessagesInv T x.history (firstIndex x.leader.node.logEntries) (x.leader.progress p) x.rpc
        (x.requests.eraseIdx k) (x.replies ++ news) := fun hnone =>
    h.messages.answer hsub (fun id' a r hr => absurd hr (hnone id' a r))
      fun a r hr => absurd hr (hnone _ a r)
  cases hs with
  | installStale _ ht =>
    refine ⟨h.leader, hquiet (by simp), fun hT => ?_⟩
    have hT : x.peer.node.currentTerm ≤ T := hT
    omega
  | installOld _ ht ho =>
    refine ⟨h.leader, hquiet (by simp), fun hT => ?_⟩
    have hpeer := h.peer (hterm ▸ ht)
    have hkeep : PeerInv T x.history (x.leader.progress p) x.rpc (x.requests.eraseIdx k)
        x.replies { x.peer with node := x.peer.node.recognizeLeader args.term } :=
      hpeer.keep (x.peer.node.recognizeLeader_logEntries _)
        (x.peer.node.recognizeLeader_commitIndex _) (.inl rfl) (fun a ha => ha) hsub
    refine hkeep.answer (by simp) fun id' a r hr _ => ?_
    cases List.mem_singleton.1 hr
    rw [Node.recognizeLeader_logEntries]
    exact (not_not.1 ho).1
  | install _ ht ho =>
    have hpeer := h.peer (hterm ▸ ht)
    have hnew : firstIndex x.peer.node.logEntries < args.lastIncludedIndex := by
      by_contra hle
      exact ho ⟨by omega, by omega⟩
    have hn := (hpeer.inFlight id args hmem).resolve_left (Nat.not_le.2 hnew)
    have hinst := hpeer.install h.messages.matched_lt hends hnew hn hidle hsub ⟨args.term, false⟩
    rw [← List.append_nil x.replies] at hinst
    exact ⟨h.leader, hquiet (by simp), fun _ => hinst⟩

/-- **The end of an installation keeps the invariant.** -/
theorem MatchInv.restored (h : MatchInv T p x) {ok : Bool} {s' : Server} {out : List Output}
    (hs : Server.Step x.peer (.finishInstall k ok) s' out) (installing : List ℕ) :
    MatchInv T p { x with
      peer := s'
      installing := installing
      replies := x.replies ++ (out.filter Output.isReply).map fun o => (id, o) } := by
  have hquiet : ∀ {args : InstallSnapshotArgs} {reply : InstallSnapshotReply},
      x.peer.installs[k]? = some (args, reply) → ∀ r : InstallSnapshotReply,
      MatchInv T p { x with
        peer := { x.peer with installs := x.peer.installs.eraseIdx k }
        installing := installing
        replies := x.replies ++ [(id, .installSnapshotReply args r)] } := by
    intro args reply hk r
    refine ⟨h.leader, h.messages.answer (fun r hr => hr) (by simp) (by simp), fun hT => ?_⟩
    have hpeer := h.peer hT
    have hkeep : PeerInv T x.history (x.leader.progress p) x.rpc x.requests x.replies
        { x.peer with installs := x.peer.installs.eraseIdx k } :=
      hpeer.keep rfl rfl (.inl rfl) (fun a => List.mem_of_mem_eraseIdx) fun r hr => hr
    refine hkeep.answer (by simp) fun id' a r hr _ => ?_
    cases List.mem_singleton.1 hr
    exact hpeer.installs (args, reply) (List.mem_of_getElem? hk)
  cases hs with
  | finishInstall _ _ args reply hk hd => exact hquiet hk _
  | finishEmptyInstall _ _ args reply hk hd => exact hquiet hk _

end Deliver

/-! ## Runs -/

/-- **Every step keeps the invariant.** -/
theorem MatchInv.step {T : ℕ} {p : String} {x x' : Pair} {hist out : List Output} {ev : PairEvent}
    (h : MatchInv T p x) (hok : SnapshotsCommitted T p x hist ev)
    (hs : x.step p ev = some (x', out)) : MatchInv T p x' := by
  obtain ⟨⟨hstay, hsteady⟩, hbegin⟩ := hok
  have hl := hstay (x', out) hs
  cases ev with
  | leader ev =>
    obtain ⟨⟨s', o⟩, hstep, heq⟩ := Option.map_eq_some_iff.1 hs
    cases heq
    have hinv := Server.step_inv hstep
    obtain ⟨hrun, hmove⟩ := hinv.leaderMove hsteady h.leader.ne_id h.leader.leading hl.1
    exact h.leader_step hmove hbegin hinv.id_eq hl hrun
  | receive k =>
    simp only [Pair.step] at hs
    split at hs
    next id args reply hk =>
      split_ifs at hs with hid
      subst hid
      obtain ⟨⟨s', o⟩, hstep, heq⟩ := Option.map_eq_some_iff.1 hs
      cases heq
      cases Server.step_inv hstep with
      | appendReply _ _ _ hw =>
        exact h.receiveAppend (List.mem_of_getElem? hk) hw hl.1 fun r => List.mem_of_mem_eraseIdx
    next id args reply hk =>
      split_ifs at hs with hid
      obtain ⟨⟨s', o⟩, hstep, heq⟩ := Option.map_eq_some_iff.1 hs
      cases heq
      cases Server.step_inv hstep with
      | installReply _ _ _ hw =>
        exact h.receiveInstall (List.mem_of_getElem? hk) hw hl.1 fun r => List.mem_of_mem_eraseIdx
    next => cases hs
  | peer ev =>
    obtain ⟨⟨s', o⟩, hstep, heq⟩ := Option.map_eq_some_iff.1 hs
    cases heq
    have hinv := Server.step_inv hstep
    have hne : ev ≠ .restart := by
      rintro rfl
      exact hsteady
    exact h.peer_step (fun hT => hinv.peerMove hsteady hT) hbegin (hinv.le_currentTerm hne)
  | deliver k =>
    simp only [Pair.step] at hs
    split at hs
    next id args hk =>
      obtain ⟨⟨s', o⟩, hstep, heq⟩ := Option.map_eq_some_iff.1 hs
      cases heq
      cases Server.step_inv hstep with
      | handleAppendEntries => exact h.deliverAppend hk
    next id args hk =>
      obtain ⟨⟨s', o⟩, hstep, heq⟩ := Option.map_eq_some_iff.1 hs
      cases heq
      have hidle : Undisturbed x.peer x.requests[k]? := hsteady
      rw [hk] at hidle
      exact h.deliverInstall hk hidle (Server.step_inv hstep)
    next => cases hs
  | restored k ok =>
    obtain ⟨⟨s', o⟩, hstep, heq⟩ := Option.map_eq_some_iff.1 hs
    cases heq
    exact h.restored (Server.step_inv hstep) _

/-- What `matchIndex` promises: the peer's placeholder and its log up to the match index agree with
the leader's history, and the next index is above. -/
def MatchSound (p : String) (x : Pair) : Prop :=
  Agrees x.peer.node.logEntries x.history (firstIndex x.peer.node.logEntries) ∧
    AgreesUpTo x.peer.node.logEntries x.history (x.leader.node.matchIndex.get p) ∧
    x.leader.node.matchIndex.get p < x.leader.node.nextIndex.get p

instance (p : String) (x : Pair) : Decidable (MatchSound p x) :=
  inferInstanceAs (Decidable (_ ∧ _))

/-- **The match index is sound**, in every state of every run in which the peer is in the leader's
term. -/
theorem match_sound {T : ℕ} {p : String} {x x' : Pair} {h : List Output} (hx : Starts T p x)
    (r : Run (Pair.step p) (SnapshotsCommitted T p) x [] x' h)
    (hT : x'.peer.node.currentTerm = T) : MatchSound p x' := by
  have hinv : MatchInv T p x' :=
    r.invariant (I := fun x _ => MatchInv T p x) (matchInv_of_starts hx)
      fun _ _ _ _ _ hi hok hs => hi.step hok hs
  have hpeer := hinv.peer hT.le
  exact ⟨hpeer.follows.floor, hpeer.matched, hinv.messages.matched_lt⟩

/-! ## The start of a term -/

/-- A leader of term 2 with two committed entries of term 1, the first of them applied. -/
def recoveringLeader : Server :=
  { Server.boot "a" ["b"] .snapshotable none with
    node := { (newNode "a" ["b"]).setStateMachine .snapshotable with
      currentTerm := 2
      votedFor := "a"
      state := .leader
      logEntries := [⟨0, 0, none⟩, ⟨1, 1, some [1]⟩, ⟨1, 2, some [2]⟩]
      commitIndex := 2
      lastApplied := 1 }.initLeaderState
    run := .leading }

/-- It starts its term with a peer that has nothing yet. -/
def recoveringPair : Pair where
  leader := recoveringLeader
  history := [⟨1, 1, some [1]⟩, ⟨1, 2, some [2]⟩]
  peer := Server.boot "b" ["a"] .snapshotable none
  rpc := 0
  requests := []
  installing := []
  replies := []

/-- The leader backs off twice, and the third request is accepted but its reply lost. -/
def appendLost : List PairEvent :=
  [.leader (.sendAppend "b"), .deliver 0, .receive 0, .leader (.sendAppend "b"), .deliver 0,
    .receive 0, .leader (.sendAppend "b"), .deliver 0, .leader (.rpcError "b")]

/-- The leader takes a snapshot of its first entry and ships it. -/
def snapshotShipped : List PairEvent :=
  [.leader .beginSnapshot, .leader (.serialize (some [1])), .leader (.saveSnapshot true),
    .leader .finishSnapshot, .leader (.sendAppend "b"), .leader (.sendInstallSnapshot "b")]

/-- The peer applies its first entry and reads the second. -/
def secondRead : List PairEvent :=
  [.peer .applyWake, .peer .applyRead, .peer .applyCall, .peer .applyWrite, .peer .applyNotify,
    .peer .applyRead]

/-- The snapshot is installed before the write of `lastApplied`, and a snapshot taken after it. -/
def overtaken : List PairEvent :=
  [.deliver 0, .peer .applyCall, .peer .applyWrite, .restored 0 true, .receive 1,
    .peer .applyNotify, .peer .beginSnapshot, .peer (.serialize (some [2])),
    .peer (.saveSnapshot true), .peer .finishSnapshot, .leader (.sendAppend "b"), .deliver 0,
    .receive 1]

theorem starts_recoveringPair : Starts 2 "b" recoveringPair where
  ne_id := by decide
  leads := rfl
  term_eq := rfl
  leading := rfl
  window := (window_dummy.concat (e := ⟨1, 1, some [1]⟩) rfl).concat (e := ⟨1, 2, some [2]⟩) rfl
  cached := by decide
  covers := by simp [recoveringPair, recoveringLeader, Node.initLeaderState, newNode,
    Node.setStateMachine]
  leaderTaking := rfl
  next_eq := by decide +kernel
  match_eq := by decide +kernel
  idle := rfl
  requests := rfl
  replies := rfl
  follows := ⟨wellFormed_singleton _, by decide, by decide⟩
  beyond i e he hi := by
    have hb := (entryAt_bounds he).2
    exact absurd (hi.trans_le hb) (by decide)
  committed := by decide
  peerTaking := rfl
  installs := rfl

/-- The run up to the installation, and the reply that tells the leader of it. -/
theorem match_sound_of_install : ∃ x' h,
    Run (Pair.step "b") (SnapshotsCommitted 2 "b") recoveringPair [] x' h ∧
      x'.leader.node.matchIndex.get "b" = 1 ∧ MatchSound "b" x' := by
  obtain ⟨x', h, r, hT, hm⟩ := exists_run_of_exec (Pair.step "b") (SnapshotsCommitted 2 "b")
    recoveringPair []
    (appendLost ++ snapshotShipped ++ [.deliver 0, .restored 0 true, .receive 1])
    (fun x _ => x.peer.node.currentTerm = 2 ∧ x.leader.node.matchIndex.get "b" = 1)
    (by decide +kernel)
  exact ⟨x', h, r, hm, match_sound starts_recoveringPair r hT⟩

/-- **A snapshot taken after an installation overtook the apply loop** has no term: the peer's
placeholder at index 2 is of term 0, and the leader counts the index as matched. -/
theorem match_unsound :
    ¬ ∀ (T : ℕ) (p : String) (x x' : Pair) (h : List Output), Starts T p x →
      Run (Pair.step p) (Steady T p) x [] x' h → x'.peer.node.currentTerm = T →
        MatchSound p x' := by
  intro hall
  obtain ⟨x', h, r, hT, hno⟩ := exists_run_of_exec (Pair.step "b") (Steady 2 "b")
    recoveringPair [] (appendLost ++ secondRead ++ snapshotShipped ++ overtaken)
    (fun x _ => x.peer.node.currentTerm = 2 ∧ ¬ MatchSound "b" x) (by decide +kernel)
  exact hno (hall 2 "b" _ _ _ starts_recoveringPair r hT)

end Driftless.Raft
