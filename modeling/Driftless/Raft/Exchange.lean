import Driftless.Raft.FullLog
import Driftless.Raft.Backoff

/-!
# One exchange of AppendEntries

What the leader's whole log, its history, has to do with the log of a follower before and after
`HandleAppendEntries`. The follower's log is compared with the history index by index (`Agrees`),
from its placeholder on, of which only the term is known. A request carries the end of the history
as it was when `sendAppend` built it (`SliceOf`); the history may have grown when the request
arrives.

`installs_of_sendAppend` says what a request that is accepted does to the log, and
`matchPoint_found` that rounds of requests find the index from which one is accepted.
-/

namespace Driftless.Raft

open Consensus

/-- At `idx` the log has what the history `H` has there: an entry of the same term, and above the
placeholder the entry itself. -/
structure Agrees (log H : List LogEntry) (idx : ℕ) : Prop where
  le_length : idx ≤ H.length
  entry : ∃ e, entryAt log idx = some e ∧ e.term = lastTerm LogEntry.term (H.take idx) ∧
    (firstIndex log < idx → H[idx - 1]? = some e)

/-- The log agrees with the history from its placeholder up to `i`. -/
def AgreesUpTo (log H : List LogEntry) (i : ℕ) : Prop :=
  ∀ j, firstIndex log ≤ j → j ≤ i → Agrees log H j

/-- Log matching: where the log has the term of the history, it agrees with it up to there. -/
def LogMatching (log H : List LogEntry) : Prop :=
  ∀ i, firstIndex log ≤ i → i ≤ lastIndex log → i ≤ H.length →
    termAt log i = lastTerm LogEntry.term (H.take i) → AgreesUpTo log H i

/-- A well-formed log whose placeholder agrees with the history and that matches it. -/
structure Follows (log H : List LogEntry) : Prop where
  wellFormed : WellFormed log
  floor : Agrees log H (firstIndex log)
  matching : LogMatching log H

/-- The request carries the history `H` from `PrevLogIndex` on. -/
structure SliceOf (args : AppendEntriesArgs) (H : List LogEntry) : Prop where
  le_length : args.prevLogIndex ≤ H.length
  term_eq : args.prevLogTerm = lastTerm LogEntry.term (H.take args.prevLogIndex)
  entries_eq : args.entries = H.drop args.prevLogIndex

instance (log H : List LogEntry) (idx : ℕ) : Decidable (Agrees log H idx) :=
  decidable_of_iff (idx ≤ H.length ∧ ∃ e, e ∈ entryAt log idx ∧
      e.term = lastTerm LogEntry.term (H.take idx) ∧ (firstIndex log < idx → H[idx - 1]? = some e))
    ⟨fun h => ⟨h.1, h.2⟩, fun h => ⟨h.le_length, h.entry⟩⟩

instance (log H : List LogEntry) (i : ℕ) : Decidable (AgreesUpTo log H i) :=
  decidable_of_iff (∀ j : Fin (i + 1), firstIndex log ≤ j → Agrees log H j)
    ⟨fun h j h₁ h₂ => h ⟨j, Nat.lt_succ_of_le h₂⟩ h₁,
    fun h j h₁ => h j h₁ (Nat.le_of_lt_succ j.isLt)⟩

instance (log H : List LogEntry) : Decidable (LogMatching log H) :=
  decidable_of_iff (∀ i : Fin (lastIndex log + 1), firstIndex log ≤ i → (i : ℕ) ≤ H.length →
      termAt log i = lastTerm LogEntry.term (H.take i) → AgreesUpTo log H i)
    ⟨fun h i h₁ h₂ => h ⟨i, Nat.lt_succ_of_le h₂⟩ h₁,
    fun h i h₁ => h i h₁ (Nat.le_of_lt_succ i.isLt)⟩

/-! ## Agreement index by index -/

section Agrees

variable {log log' H : List LogEntry} {i : ℕ}

theorem Agrees.bounds (h : Agrees log H i) : firstIndex log ≤ i ∧ i ≤ lastIndex log := by
  obtain ⟨e, he, -, -⟩ := h.entry
  exact entryAt_bounds he

theorem Agrees.termAt_eq (h : Agrees log H i) :
    termAt log i = lastTerm LogEntry.term (H.take i) := by
  obtain ⟨e, he, ht, -⟩ := h.entry
  rw [termAt_of_entryAt he, ht]

theorem Agrees.entryAt_eq (h : Agrees log H i) (hf : firstIndex log < i) :
    entryAt log i = H[i - 1]? := by
  obtain ⟨e, he, -, hH⟩ := h.entry
  rw [he, hH hf]

/-- Above the placeholder it is enough to have the history's entry. -/
theorem agrees_of_entryAt {e : LogEntry} (he : entryAt log i = some e) (hi : 0 < i)
    (hH : H[i - 1]? = some e) : Agrees log H i := by
  obtain ⟨hlt, -⟩ := List.getElem?_eq_some_iff.1 hH
  refine ⟨by omega, e, he, ?_, fun _ => hH⟩
  have := lastTerm_take LogEntry.term hH
  rwa [Nat.sub_add_cancel hi, eq_comm] at this

/-- Agreement is about the entry at that index only. -/
theorem Agrees.congr (h : Agrees log H i) (hf : firstIndex log ≤ firstIndex log')
    (he : entryAt log' i = entryAt log i) : Agrees log' H i := by
  obtain ⟨e, hx, ht, hH⟩ := h.entry
  exact ⟨h.le_length, e, he.trans hx, ht, fun hlt => hH (by omega)⟩

end Agrees

theorem LogMatching.agrees {log H : List LogEntry} (hm : LogMatching log H) {i j : ℕ}
    (h : Agrees log H i) (h₁ : firstIndex log ≤ j) (h₂ : j ≤ i) : Agrees log H j :=
  hm i h.bounds.1 h.bounds.2 h.le_length h.termAt_eq j h₁ h₂

/-! ## The request -/

/-- `sendAppend` carries the leader's whole log from `nextIndex` on. -/
theorem sliceOf_sendAppend {n n' : Node} {p : String} {args : AppendEntriesArgs}
    {H : List LogEntry} (hw : Window n.logEntries H) (h : n.sendAppend p = (n', .append args))
    (hnext : n.nextIndex.get p ≤ lastIndex n.logEntries + 1) :
    SliceOf args H ∧ args.prevLogIndex + args.entries.length = lastIndex n.logEntries := by
  obtain ⟨-, next, hlo, hor, rfl⟩ := n.sendAppend_spec h
  have hlast := hw.lastIndex_eq
  have hfirst := hw.firstIndex_le
  have hle : next ≤ H.length + 1 := by omega
  refine ⟨⟨by show next - 1 ≤ _; omega, hw.termAt_eq (by omega) (by omega),
    hw.entriesFrom_eq hlo hle⟩, ?_⟩
  show next - 1 + (entriesFrom n.logEntries next).length = _
  rw [hw.entriesFrom_eq hlo hle, List.length_drop]
  omega

section SliceOf

variable {args : AppendEntriesArgs} {H G : List LogEntry} (hc : SliceOf args H)
include hc

theorem SliceOf.wellFormed (hH : Indexed 1 H) : args.WellFormed := by
  have := hH.drop args.prevLogIndex
  rwa [← hc.entries_eq, Nat.add_comm] at this

theorem SliceOf.lastNew_eq : args.prevLogIndex + args.entries.length = H.length := by
  have := hc.le_length
  rw [hc.entries_eq, List.length_drop]
  omega

/-- The request's entries are the history's. -/
theorem SliceOf.getElem?_of_mem (hH : Indexed 1 H) (hG : H <+: G) {e : LogEntry}
    (he : e ∈ args.entries) : e.index ≤ H.length ∧ G[e.index - 1]? = some e := by
  obtain ⟨k, hk⟩ := List.getElem?_of_mem he
  have hidx := hc.wellFormed hH k e hk
  rw [hc.entries_eq, List.getElem?_drop] at hk
  obtain ⟨hlt, hx⟩ := List.getElem?_eq_some_iff.1 hk
  refine ⟨by omega, ?_⟩
  rw [show e.index - 1 = args.prevLogIndex + k by omega, ← hx]
  exact List.prefix_iff_getElem?.1 hG _ hlt

/-- Every entry of the history above `PrevLogIndex` is in the request. -/
theorem SliceOf.exists_mem (hH : Indexed 1 H) {i : ℕ} (h₁ : args.prevLogIndex < i)
    (h₂ : i ≤ H.length) : ∃ e ∈ args.entries, e.index = i := by
  have hx : args.entries[i - 1 - args.prevLogIndex]? = some H[i - 1] := by
    rw [hc.entries_eq, List.getElem?_drop,
      show args.prevLogIndex + (i - 1 - args.prevLogIndex) = i - 1 by omega]
    exact List.getElem?_eq_getElem _
  have hidx := hc.wellFormed hH _ _ hx
  exact ⟨_, List.mem_of_getElem? hx, by omega⟩

end SliceOf

/-! ## The loop of rule 4 -/

section Splice

variable {args : AppendEntriesArgs} {H G log : List LogEntry}
  (hc : SliceOf args H) (hH : Indexed 1 H) (hG : H <+: G) (hlog : Follows log G)
  (hok : Node.Consistent log args)
include hc hH hlog hok

theorem appended_of_sliceOf :
    Appended log (args.prevLogIndex + 1) args.entries
      (appendEntries log (args.prevLogIndex + 1) args.entries) :=
  appended_appendEntries hlog.wellFormed (hc.wellFormed hH) (Nat.succ_le_succ hok.1)

include hG

/-- The loop leaves the log as it is up to an index where the log agrees with the history. -/
theorem entryAt_of_agrees {i : ℕ} (hi : Agrees log G i) {j : ℕ} (hj : j ≤ i) :
    entryAt (appendEntries log (args.prevLogIndex + 1) args.entries) j = entryAt log j := by
  refine entryAt_appendEntries_of_agree hlog.wellFormed (hc.wellFormed hH)
    (Nat.succ_le_succ hok.1) hi.bounds.2 (fun e he hlt hle => ?_) j hj
  obtain ⟨-, hx⟩ := hc.getElem?_of_mem hH hG he
  have hagree := hlog.matching.agrees hi hlt.le hle
  exact termAt_of_entryAt ((hagree.entryAt_eq hlt).trans hx)

/-- Agreement survives the loop. -/
theorem Agrees.appendEntries {i : ℕ} (hi : Agrees log G i) :
    Agrees (appendEntries log (args.prevLogIndex + 1) args.entries) G i :=
  hi.congr (appended_of_sliceOf hc hH hlog hok).firstIndex_eq.ge
    (entryAt_of_agrees hc hH hG hlog hok hi le_rfl)

omit hH in
/-- Rule 3: the log agrees with the history where the request starts. -/
theorem agrees_prevLogIndex (hf : firstIndex log ≤ args.prevLogIndex) :
    Agrees log G args.prevLogIndex := by
  have hterm := hok.2 hf
  rw [hc.term_eq, ← take_eq_of_isPrefix hc.le_length ((List.take_prefix _ H).trans hG)] at hterm
  exact hlog.matching _ hf hok.1 (hc.le_length.trans hG.length_le) hterm _ hf le_rfl

/-- After the loop the log agrees with the history up to the last new entry. -/
theorem agrees_appendEntries {i : ℕ} (h₁ : firstIndex log ≤ i) (h₂ : i ≤ H.length) :
    Agrees (appendEntries log (args.prevLogIndex + 1) args.entries) G i := by
  rcases Nat.lt_or_eq_of_le h₁ with hlt | rfl
  · rcases Nat.lt_or_ge args.prevLogIndex i with hnew | hold
    · obtain ⟨e, he, rfl⟩ := hc.exists_mem hH hnew h₂
      obtain ⟨-, hG'⟩ := hc.getElem?_of_mem hH hG he
      obtain ⟨x, hx, hterm⟩ := exists_entryAt_appendEntries hlog.wellFormed (hc.wellFormed hH)
        (Nat.succ_le_succ hok.1) he hlt
      rcases entryAt_appendEntries_source hlog.wellFormed (hc.wellFormed hH)
        (Nat.succ_le_succ hok.1) hx with hin | hin
      · -- the log had an entry of that term, so by log matching it had this one
        have hle := h₂.trans hG.length_le
        have hlast := lastTerm_take LogEntry.term hG'
        rw [Nat.sub_add_cancel (by omega)] at hlast
        exact Agrees.appendEntries hc hH hG hlog hok (hlog.matching _ hlt.le
          (entryAt_bounds hin).2 hle (by rw [termAt_of_entryAt hin, hterm, hlast]) _ hlt.le le_rfl)
      · have hidx := (appended_of_sliceOf hc hH hlog hok).wellFormed.index_of_entryAt hx
        obtain ⟨-, hx'⟩ := hc.getElem?_of_mem hH hG hin
        exact agrees_of_entryAt hx (by omega) (hidx ▸ hx')
    · have hprev := agrees_prevLogIndex hc hG hlog hok (h₁.trans hold)
      exact Agrees.appendEntries hc hH hG hlog hok (hlog.matching.agrees hprev h₁ hold)
  · exact Agrees.appendEntries hc hH hG hlog hok hlog.floor

/-- **Rule 4 keeps log matching with the history.** -/
theorem Follows.appendEntries :
    Follows (appendEntries log (args.prevLogIndex + 1) args.entries) G := by
  have ha := appended_of_sliceOf hc hH hlog hok
  refine ⟨ha.wellFormed, ?_, fun i h₁ h₂ h₃ hterm j hj₁ hj₂ => ?_⟩
  · rw [ha.firstIndex_eq]
    exact Agrees.appendEntries hc hH hG hlog hok hlog.floor
  · rw [ha.firstIndex_eq] at h₁ hj₁
    rcases Nat.lt_or_ge H.length j with hgt | hle
    · -- above the request nothing is new, so the history's term was there before
      obtain ⟨x, hx⟩ := exists_entryAt (by rwa [ha.firstIndex_eq]) h₂
      have hidx := ha.wellFormed.index_of_entryAt hx
      have hold : entryAt log i = some x := by
        rcases entryAt_appendEntries_source hlog.wellFormed (hc.wellFormed hH)
          (Nat.succ_le_succ hok.1) hx with hin | hin
        · exact hin
        · obtain ⟨hle, -⟩ := hc.getElem?_of_mem hH hG hin
          omega
      rw [termAt_of_entryAt hx, ← termAt_of_entryAt hold] at hterm
      exact Agrees.appendEntries hc hH hG hlog hok
        (hlog.matching i h₁ (entryAt_bounds hold).2 h₃ hterm j hj₁ hj₂)
    · exact agrees_appendEntries hc hH hG hlog hok hj₁ hle

end Splice

/-! ## The exchange -/

/-- What an accepted request that carries the history up to an index does to a follower: its log
agrees with the history `G` up to there and matches it, has lost nothing of it and gained nothing
else, and what the leader has committed of it is committed. -/
structure Installs (args : AppendEntriesArgs) (G : List LogEntry) (m m' : Node) : Prop where
  agrees : AgreesUpTo m'.logEntries G (args.prevLogIndex + args.entries.length)
  follows : Follows m'.logEntries G
  kept : ∀ i, Agrees m.logEntries G i → entryAt m'.logEntries i = entryAt m.logEntries i
  source : ∀ i e, entryAt m'.logEntries i = some e →
    entryAt m.logEntries i = some e ∨ G[i - 1]? = some e
  firstIndex_eq : firstIndex m'.logEntries = firstIndex m.logEntries
  commitIndex_eq : m'.commitIndex =
    max m.commitIndex (min args.leaderCommit (args.prevLogIndex + args.entries.length))

/-- `HandleAppendEntries` leaves log and commit index as they are, or installs the history. -/
theorem handleAppendEntries_installs {args : AppendEntriesArgs} {H G : List LogEntry} {m : Node}
    (hc : SliceOf args H) (hH : Indexed 1 H) (hG : H <+: G) (hm : Follows m.logEntries G) :
    ((m.handleAppendEntries args).2.success = true →
      Installs args G m (m.handleAppendEntries args).1) ∧
    ((m.handleAppendEntries args).2.success = false →
      (m.handleAppendEntries args).1.logEntries = m.logEntries ∧
        (m.handleAppendEntries args).1.commitIndex = m.commitIndex) := by
  rcases m.handleAppendEntries_cases args with ⟨-, he⟩ | ⟨-, -, he⟩ | ⟨-, hok, he⟩ <;> rw [he]
  · exact ⟨nofun, fun _ => ⟨rfl, rfl⟩⟩
  · exact ⟨nofun, fun _ =>
      ⟨m.recognizeLeader_logEntries _, m.recognizeLeader_commitIndex _⟩⟩
  · refine ⟨fun _ => ?_, nofun⟩
    have hf := (appended_of_sliceOf hc hH hm hok).firstIndex_eq
    refine ⟨fun i h₁ h₂ => ?_, Follows.appendEntries hc hH hG hm hok,
      fun i hi => entryAt_of_agrees hc hH hG hm hok hi le_rfl, fun i e hi => ?_, hf, ?_⟩
    · exact agrees_appendEntries hc hH hG hm hok (hf ▸ h₁) (hc.lastNew_eq ▸ h₂)
    · refine (entryAt_appendEntries_source hm.wellFormed (hc.wellFormed hH)
        (Nat.succ_le_succ hok.1) hi).imp_right fun hin => ?_
      have hidx := (appended_of_sliceOf hc hH hm hok).wellFormed.index_of_entryAt hi
      exact hidx ▸ (hc.getElem?_of_mem hH hG hin).2
    · rw [Node.advanceCommit_commitIndex]
      simp

/-- **An exchange installs the leader's log and nothing else.** The leader `n` has the history `H`
when it builds the request, and the follower `m` follows the history `G` that `H` may have grown
to when it handles it. -/
theorem installs_of_sendAppend {n n' m : Node} {p : String} {args : AppendEntriesArgs}
    {H G : List LogEntry} (hn : Window n.logEntries H)
    (hlo : firstIndex n.logEntries < n.nextIndex.get p)
    (hhi : n.nextIndex.get p ≤ lastIndex n.logEntries + 1)
    (hs : n.sendAppend p = (n', .append args)) (hG : H <+: G) (hm : Follows m.logEntries G) :
    args.prevLogIndex + 1 = n.nextIndex.get p ∧
    ((m.handleAppendEntries args).2.success = true →
      Installs args G m (m.handleAppendEntries args).1) ∧
    ((m.handleAppendEntries args).2.success = false →
      (m.handleAppendEntries args).1.logEntries = m.logEntries ∧
        (m.handleAppendEntries args).1.commitIndex = m.commitIndex) := by
  refine ⟨?_, handleAppendEntries_installs (sliceOf_sendAppend hn hs hhi).1 hn.indexed hG hm⟩
  rw [n.sendAppend_of_lt (n.sendAppend_spec hs).1 hlo] at hs
  simp only [Prod.mk.injEq, Node.SendAction.append.injEq] at hs
  rw [← hs.2]
  exact Nat.sub_add_cancel (by omega)

/-- A leader of term 2 whose log starts at a snapshot of index 1. -/
def exchangeLeader : Node :=
  { newNode "a" ["b"] with
    currentTerm := 2
    votedFor := "a"
    state := .leader
    logEntries := [⟨1, 1, none⟩, ⟨1, 2, some [1]⟩, ⟨2, 3, some [2]⟩]
    commitIndex := 2
    lastApplied := 1
    nextIndex := (∅ : PeerMap).insert "b" 3 }

/-- What its log was before the snapshot. -/
def exchangeHistory : List LogEntry := [⟨1, 1, some [0]⟩, ⟨1, 2, some [1]⟩, ⟨2, 3, some [2]⟩]

/-- A follower that has another entry at index 3. -/
def conflictingFollower : Node :=
  { newNode "b" ["a"] with
    currentTerm := 2
    logEntries := [⟨0, 0, none⟩, ⟨1, 1, some [0]⟩, ⟨1, 2, some [1]⟩, ⟨1, 3, some [9]⟩] }

theorem window_exchangeHistory : Window exchangeLeader.logEntries exchangeHistory :=
  (((window_dummy.concat (e := ⟨1, 1, some [0]⟩) rfl).concat (e := ⟨1, 2, some [1]⟩) rfl).concat
    (e := ⟨2, 3, some [2]⟩) rfl).compact (c := 1) (by decide)

theorem follows_conflictingFollower : Follows conflictingFollower.logEntries exchangeHistory :=
  ⟨⟨by decide, (by decide : Indexed 0 conflictingFollower.logEntries)⟩, by decide, by decide⟩

/-- The follower's entry at index 3 is replaced, the others stay. -/
theorem installs_conflictingFollower :
    ∃ args n', exchangeLeader.sendAppend "b" = (n', .append args) ∧
      (conflictingFollower.handleAppendEntries args).2.success = true ∧
      Installs args exchangeHistory conflictingFollower
        (conflictingFollower.handleAppendEntries args).1 := by
  refine ⟨_, _, rfl, by decide +kernel, ?_⟩
  exact (installs_of_sendAppend (p := "b") window_exchangeHistory (by decide +kernel)
    (by decide +kernel) rfl List.prefix_rfl follows_conflictingFollower).2.1 (by decide +kernel)

/-! ## Rounds of requests -/

/-- Whether the follower accepts the AppendEntries of the next round, if the leader sends one. -/
def roundReply (p : String) (x : Node × Node) : Option Bool :=
  match x.1.sendAppend p with
  | (_, .append args) => some (x.2.handleAppendEntries args).2.success
  | _ => none

/-- A leader with the history `H`, whose `nextIndex` for `p` is above its floor, and a follower of
its term with a log that matches the history and holds the leader's floor or has a higher one. -/
structure Replicates (p : String) (H : List LogEntry) (x : Node × Node) : Prop where
  leader : x.1.state = .leader
  window : Window x.1.logEntries H
  next_gt : firstIndex x.1.logEntries < x.1.nextIndex.get p
  next_le : x.1.nextIndex.get p ≤ lastIndex x.1.logEntries + 1
  match_le : x.1.matchIndex.get p ≤ lastIndex x.1.logEntries
  sameTerm : x.2.currentTerm = x.1.currentTerm
  wellFormed : WellFormed x.2.logEntries
  matching : LogMatching x.2.logEntries H
  floor : (firstIndex x.2.logEntries ≤ firstIndex x.1.logEntries ∧
      firstIndex x.1.logEntries ≤ lastIndex x.2.logEntries ∧
      termAt x.2.logEntries (firstIndex x.1.logEntries) =
        termAt x.1.logEntries (firstIndex x.1.logEntries)) ∨
    (firstIndex x.1.logEntries < firstIndex x.2.logEntries ∧
      Agrees x.2.logEntries H (firstIndex x.2.logEntries))

/-- The follower has the leader's log, and the leader knows. -/
structure CaughtUp (p : String) (H : List LogEntry) (x : Node × Node) : Prop where
  agrees : AgreesUpTo x.2.logEntries H (lastIndex x.1.logEntries)
  match_eq : x.1.matchIndex.get p = lastIndex x.1.logEntries
  next_eq : x.1.nextIndex.get p = lastIndex x.1.logEntries + 1

namespace Replicates

variable {p : String} {H : List LogEntry} {x : Node × Node} (h : Replicates p H x)
include h

theorem agrees_floor (hle : firstIndex x.2.logEntries ≤ firstIndex x.1.logEntries) :
    AgreesUpTo x.2.logEntries H (firstIndex x.1.logEntries) := by
  rcases h.floor with ⟨-, hlast, hterm⟩ | ⟨hlt, -⟩
  · refine h.matching _ hle hlast h.window.firstIndex_le ?_
    rw [hterm, h.window.termAt_eq le_rfl h.window.firstIndex_le]
  · omega

theorem follows : Follows x.2.logEntries H := by
  refine ⟨h.wellFormed, ?_, h.matching⟩
  rcases Nat.lt_or_ge (firstIndex x.1.logEntries) (firstIndex x.2.logEntries) with hlt | hle
  · rcases h.floor with ⟨hle, -, -⟩ | ⟨-, hf⟩
    · omega
    · exact hf
  · exact h.agrees_floor hle _ le_rfl hle

/-- A request that starts at the leader's floor is accepted. -/
theorem consistent_of_floor {args : AppendEntriesArgs} (hs : SliceOf args H)
    (hprev : args.prevLogIndex = firstIndex x.1.logEntries) :
    Node.Consistent x.2.logEntries args := by
  have hwf := h.wellFormed.firstIndex_le_lastIndex
  refine ⟨?_, fun hf => ?_⟩
  · rcases h.floor with ⟨-, hlast, -⟩ | ⟨hlt, -⟩ <;> omega
  · rw [hs.term_eq]
    exact (h.agrees_floor (hprev ▸ hf) _ hf hprev.le).termAt_eq

/-- The request of the next round: the history from `nextIndex` on. -/
theorem exists_sendAppend : ∃ args, x.1.sendAppend p = (x.1, .append args) ∧ SliceOf args H ∧
    args.term = x.1.currentTerm ∧ args.prevLogIndex + 1 = x.1.nextIndex.get p ∧
    args.prevLogIndex + args.entries.length = lastIndex x.1.logEntries := by
  have hs := x.1.sendAppend_of_lt h.leader h.next_gt
  have hnext := h.next_gt
  obtain ⟨hslice, hlast⟩ := sliceOf_sendAppend h.window hs h.next_le
  exact ⟨_, hs, hslice, rfl, Nat.sub_add_cancel (by omega), hlast⟩

/-- What the leader does with a reply of its own term. -/
theorem handleAppendReply_eq {args : AppendEntriesArgs} (ht : args.term = x.1.currentTerm)
    (b : Bool) : x.1.handleAppendReply p args ⟨args.term, b⟩ =
      if b then x.1.recordMatch p (args.prevLogIndex + args.entries.length)
      else x.1.backOff p := by
  unfold Node.handleAppendReply
  rw [if_neg (by rw [ht]; exact lt_irrefl _),
    if_neg (not_or.2 ⟨not_not.2 h.leader, not_not.2 ht.symm⟩)]

/-- A rejected round lowers `nextIndex` by one and changes neither log. -/
theorem backOff (hgt : firstIndex x.1.logEntries + 1 < x.1.nextIndex.get p) :
    Replicates p H (x.1.backOff p, x.2.recognizeLeader x.1.currentTerm) ∧
      (x.1.backOff p).nextIndex.get p + 1 = x.1.nextIndex.get p := by
  have hnext : (x.1.backOff p).nextIndex.get p = x.1.nextIndex.get p - 1 := by
    simp only [Node.backOff, if_pos hgt, PeerMap.get_insert_self]
  have hle := h.next_le
  refine ⟨⟨h.leader, h.window, ?_, ?_, h.match_le,
    x.2.recognizeLeader_currentTerm h.sameTerm.le, ?_, ?_, ?_⟩, by omega⟩
  · show firstIndex x.1.logEntries < (x.1.backOff p).nextIndex.get p
    omega
  · show (x.1.backOff p).nextIndex.get p ≤ lastIndex x.1.logEntries + 1
    omega
  all_goals simp only [Node.recognizeLeader_logEntries]
  · exact h.wellFormed
  · exact h.matching
  · exact h.floor

/-- A successful round leaves the follower caught up. -/
theorem caughtUp {args : AppendEntriesArgs} {m : Node}
    (hlast : args.prevLogIndex + args.entries.length = lastIndex x.1.logEntries)
    (hterm : m.currentTerm = x.1.currentTerm) (hi : Installs args H x.2 m) :
    Replicates p H
        (x.1.recordMatch p (args.prevLogIndex + args.entries.length), m) ∧
      CaughtUp p H (x.1.recordMatch p (args.prevLogIndex + args.entries.length), m) := by
  have hmatch : (x.1.recordMatch p (args.prevLogIndex + args.entries.length)).matchIndex.get p =
      lastIndex x.1.logEntries := by
    have := h.match_le
    simp only [Node.recordMatch, Node.maybeAdvanceCommitLocked, hlast]
    split_ifs
    · rw [PeerMap.get_insert_self]
    · omega
  have hnext : (x.1.recordMatch p (args.prevLogIndex + args.entries.length)).nextIndex.get p =
      lastIndex x.1.logEntries + 1 := by
    have := h.next_le
    simp only [Node.recordMatch, Node.maybeAdvanceCommitLocked, hlast]
    split_ifs
    · rw [PeerMap.get_insert_self]
    · omega
  have hfirst := h.window.wellFormed.firstIndex_le_lastIndex
  refine ⟨⟨h.leader, h.window, ?_, hnext.le, hmatch.le, hterm, hi.follows.wellFormed,
    hi.follows.matching, ?_⟩, hlast ▸ hi.agrees, hmatch, hnext⟩
  · show firstIndex x.1.logEntries < (x.1.recordMatch p _).nextIndex.get p
    omega
  · show (_ ≤ firstIndex x.1.logEntries ∧ firstIndex x.1.logEntries ≤ _ ∧
      termAt _ (firstIndex x.1.logEntries) = _) ∨ (firstIndex x.1.logEntries < _ ∧ _)
    rcases Nat.lt_or_ge (firstIndex x.1.logEntries) (firstIndex m.logEntries) with hlt | hle
    · exact .inr ⟨hlt, hi.follows.floor⟩
    · have hag := hi.agrees _ hle (by omega)
      refine .inl ⟨hle, hag.bounds.2, ?_⟩
      rw [hag.termAt_eq]
      exact (h.window.termAt_eq le_rfl h.window.firstIndex_le).symm

/-- **One round**: the request is rejected and `nextIndex` is one lower, or it is accepted and the
follower has caught up. -/
theorem round :
    Replicates p H (replicationRound p x) ∧
    (replicationRound p x).1.logEntries = x.1.logEntries ∧
    ((roundReply p x = some false ∧
        (replicationRound p x).1.nextIndex.get p + 1 = x.1.nextIndex.get p) ∨
      (roundReply p x = some true ∧ CaughtUp p H (replicationRound p x))) := by
  obtain ⟨args, hs, hslice, hterm, hprev, hlast⟩ := h.exists_sendAppend
  have hnext := h.next_gt
  have hsame := h.sameTerm
  rcases x.2.handleAppendEntries_cases args with ⟨hlt, -⟩ | ⟨-, hno, he⟩ | ⟨hle, hok, he⟩
  · omega
  · have hgt : firstIndex x.1.logEntries + 1 < x.1.nextIndex.get p := by
      by_contra hcon
      exact hno (h.consistent_of_floor hslice (by omega))
    have hround : replicationRound p x = (x.1.backOff p, x.2.recognizeLeader x.1.currentTerm) := by
      simp only [replicationRound, hs, he, h.handleAppendReply_eq hterm, ← hterm]
      rfl
    have hreply : roundReply p x = some false := by simp [roundReply, hs, he]
    obtain ⟨hr, hdec⟩ := h.backOff hgt
    rw [hround]
    exact ⟨hr, rfl, .inl ⟨hreply, hdec⟩⟩
  · have hi := (handleAppendEntries_installs hslice h.window.indexed List.prefix_rfl h.follows).1
      (by rw [he])
    have hround : replicationRound p x = (x.1.recordMatch p
        (args.prevLogIndex + args.entries.length), (x.2.handleAppendEntries args).1) := by
      simp only [replicationRound, hs, he, h.handleAppendReply_eq hterm, if_true]
    have hreply : roundReply p x = some true := by simp [roundReply, hs, he]
    have hterm' := (x.2.handleAppendEntries_currentTerm hle).trans hterm
    obtain ⟨hr, hup⟩ := h.caughtUp hlast hterm' hi
    rw [hround]
    exact ⟨hr, rfl, .inr ⟨hreply, hup⟩⟩

theorem iterate (k : ℕ) : Replicates p H ((replicationRound p)^[k] x) := by
  induction k with
  | zero => exact h
  | succ k ih =>
    rw [Function.iterate_succ_apply']
    exact ih.round.1

/-- Within `nextIndex - firstIndex` rounds one is accepted, all those before it are not, and the
follower has caught up after it. -/
theorem exists_round {d : ℕ} (hd : x.1.nextIndex.get p - firstIndex x.1.logEntries ≤ d) :
    ∃ k < d, (∀ i < k, roundReply p ((replicationRound p)^[i] x) = some false) ∧
      roundReply p ((replicationRound p)^[k] x) = some true ∧
      CaughtUp p H ((replicationRound p)^[k + 1] x) := by
  have hnext := h.next_gt
  induction d generalizing x with
  | zero => omega
  | succ d ih =>
    obtain ⟨hr, hlog, ⟨hrej, hdec⟩ | ⟨hacc, hup⟩⟩ := h.round
    · have hnext' := hr.next_gt
      obtain ⟨k, hk, hbefore, hok, hup⟩ := ih hr (by rw [hlog]; omega) hnext'
      refine ⟨k + 1, by omega, fun i hi => ?_, hok, hup⟩
      cases i with
      | zero => exact hrej
      | succ i => exact hbefore i (by omega)
    · exact ⟨0, by omega, by omega, hacc, hup⟩

end Replicates

/-- **Back-off finds the match point.** Every rejected round lowers `nextIndex` by exactly one; one
of the first `nextIndex - firstIndex` rounds is accepted, and after it the follower's log agrees
with the leader's up to its end. -/
theorem matchPoint_found {p : String} {H : List LogEntry} {n m : Node}
    (h : Replicates p H (n, m)) :
    (∀ k, roundReply p ((replicationRound p)^[k] (n, m)) = some false →
      ((replicationRound p)^[k + 1] (n, m)).1.nextIndex.get p + 1 =
        ((replicationRound p)^[k] (n, m)).1.nextIndex.get p) ∧
    ∃ k < n.nextIndex.get p - firstIndex n.logEntries,
      (∀ i < k, roundReply p ((replicationRound p)^[i] (n, m)) = some false) ∧
      roundReply p ((replicationRound p)^[k] (n, m)) = some true ∧
      AgreesUpTo ((replicationRound p)^[k + 1] (n, m)).2.logEntries H (lastIndex n.logEntries) ∧
      ((replicationRound p)^[k + 1] (n, m)).1.matchIndex.get p = lastIndex n.logEntries ∧
      ((replicationRound p)^[k + 1] (n, m)).1.nextIndex.get p = lastIndex n.logEntries + 1 := by
  refine ⟨fun k hrej => ?_, ?_⟩
  · rw [Function.iterate_succ_apply']
    obtain ⟨-, -, ⟨-, hdec⟩ | ⟨hacc, -⟩⟩ := (h.iterate k).round
    · exact hdec
    · rw [hacc] at hrej
      simp at hrej
  · obtain ⟨k, hk, hbefore, hacc, hup⟩ := h.exists_round le_rfl
    have hlast : lastIndex ((replicationRound p)^[k + 1] (n, m)).1.logEntries =
        lastIndex n.logEntries :=
      (h.iterate (k + 1)).window.lastIndex_eq.trans h.window.lastIndex_eq.symm
    exact ⟨k, hk, hbefore, hacc, hlast ▸ hup.agrees, hlast ▸ hup.match_eq, hlast ▸ hup.next_eq⟩

/-- The leader as it starts its term, one past its log. -/
def freshLeader : Node := { exchangeLeader with nextIndex := (∅ : PeerMap).insert "b" 4 }

theorem replicates_conflictingFollower :
    Replicates "b" exchangeHistory (freshLeader, conflictingFollower) :=
  ⟨rfl, window_exchangeHistory, by decide +kernel, by decide +kernel, by decide +kernel, rfl,
    follows_conflictingFollower.wellFormed, follows_conflictingFollower.matching, by decide⟩

/-- The first request is rejected for the entry at index 3, the second one is accepted. -/
theorem matchPoint_conflictingFollower :
    Replicates "b" exchangeHistory (freshLeader, conflictingFollower) ∧
    roundReply "b" (freshLeader, conflictingFollower) = some false ∧
    ∃ k < 3, AgreesUpTo
      ((replicationRound "b")^[k + 1] (freshLeader, conflictingFollower)).2.logEntries
      exchangeHistory 3 := by
  refine ⟨replicates_conflictingFollower, by decide +kernel, ?_⟩
  obtain ⟨-, k, hk, -, -, hagree, -, -⟩ := matchPoint_found replicates_conflictingFollower
  have hdist : freshLeader.nextIndex.get "b" - firstIndex freshLeader.logEntries = 3 := by
    decide +kernel
  exact ⟨k, hdist ▸ hk, hagree⟩

end Driftless.Raft
