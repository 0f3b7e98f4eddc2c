import Mathlib.Logic.Function.Iterate
import Mathlib.Order.Lattice
import Driftless.Raft.Node

/-!
# Backing off from a follower below the snapshot floor

A follower that rejects an AppendEntries makes the leader lower the follower's `nextIndex`, and
once it is at the leader's first index or below the leader ships its snapshot instead. But the
decrement stops one above: it is skipped unless `nextIndex > firstIndex + 1`. So a follower whose
log ends below the floor rejects every request, and no number of rounds makes the leader ship the
snapshot: `not_catchesUp`.
-/

namespace Driftless.Raft

/-- A round: the leader's `sendAppend` to `p`, the handler of `p`, and the leader's handling of
the reply. `Restore` does not fail. -/
def replicationRound (p : String) (x : Node × Node) : Node × Node :=
  match x.1.sendAppend p with
  | (n, .none) => (n, x.2)
  | (n, .append args) =>
    let r := x.2.handleAppendEntries args
    (n.handleAppendReply p args r.2, r.1)
  | (n, .snapshot) =>
    match n.sendInstallSnapshot with
    | none => (n, x.2)
    | some args =>
      let r := x.2.handleInstallSnapshot args
      (n.handleInstallReply p args { r.2.1 with success := r.2.1.success || r.2.2 }, r.1)

/-- The snapshot the leader ships to `p` in its next round, if it does. -/
def shipped (p : String) (n : Node) : Option InstallSnapshotArgs :=
  match n.sendAppend p with
  | (n, .snapshot) => n.sendInstallSnapshot
  | _ => none

/-- The leader `n` has a snapshot at its floor, and the log of the follower `m` of its term ends
below it. -/
structure BelowFloor (p : String) (n m : Node) : Prop where
  leader : n.state = .leader
  floor_pos : 0 < firstIndex n.logEntries
  covered : ∃ snap, n.lastSnapshot = some snap ∧
    snap.lastIncludedIndex = firstIndex n.logEntries
  next_gt : firstIndex n.logEntries < n.nextIndex.get p
  next_le : n.nextIndex.get p ≤ lastIndex n.logEntries + 1
  sameTerm : m.currentTerm = n.currentTerm
  follower : m.state = .follower
  below : lastIndex m.logEntries < firstIndex n.logEntries

/-- Within `nextIndex - firstIndex + 1` rounds the leader ships the snapshot of its floor, and
with the round that ships it and one more the follower has the leader's log from there on. -/
def CatchesUp (p : String) (n m : Node) : Prop :=
  ∃ k ≤ n.nextIndex.get p - firstIndex n.logEntries + 1,
    (∃ args, shipped p ((replicationRound p)^[k] (n, m)).1 = some args ∧
      args.lastIncludedIndex = firstIndex n.logEntries) ∧
    ∀ i, firstIndex n.logEntries ≤ i →
      termAt ((replicationRound p)^[k + 2] (n, m)).2.logEntries i = termAt n.logEntries i ∧
      (firstIndex n.logEntries < i →
        entryAt ((replicationRound p)^[k + 2] (n, m)).2.logEntries i = entryAt n.logEntries i)

/-- The leader and the follower after `k` rounds: only `nextIndex` has moved, one step a round
and never to the floor. -/
structure StuckAfter (p : String) (n m : Node) (k : ℕ) (x : Node × Node) : Prop where
  leader : x.1.state = .leader
  term_eq : x.1.currentTerm = n.currentTerm
  log_eq : x.1.logEntries = n.logEntries
  next_eq : x.1.nextIndex.get p = max (firstIndex n.logEntries + 1) (n.nextIndex.get p - k)
  followerTerm : x.2.currentTerm = n.currentTerm
  followerLog : x.2.logEntries = m.logEntries

section Round

variable {p : String} {n m : Node} {k : ℕ} {x : Node × Node}

/-- The leader sends an AppendEntries that starts at the floor or above. -/
theorem StuckAfter.sendAppend (h : StuckAfter p n m k x) :
    ∃ args, x.1.sendAppend p = (x.1, .append args) ∧ args.term = n.currentTerm ∧
      firstIndex n.logEntries ≤ args.prevLogIndex := by
  have hlow : firstIndex x.1.logEntries < x.1.nextIndex.get p := by
    rw [h.next_eq, h.log_eq]
    omega
  refine ⟨_, x.1.sendAppend_of_lt h.leader hlow, h.term_eq, ?_⟩
  show _ ≤ x.1.nextIndex.get p - 1
  rw [h.next_eq]
  omega

theorem StuckAfter.not_shipped (h : StuckAfter p n m k x) : shipped p x.1 = none := by
  obtain ⟨args, hs, -, -⟩ := h.sendAppend
  simp only [shipped, hs]

/-- The follower rejects a request that starts above its log. -/
theorem StuckAfter.rejected (h : StuckAfter p n m k x)
    (hb : lastIndex m.logEntries < firstIndex n.logEntries) {args : AppendEntriesArgs}
    (ht : args.term = n.currentTerm) (hp : firstIndex n.logEntries ≤ args.prevLogIndex) :
    x.2.handleAppendEntries args = (x.2.recognizeLeader args.term, ⟨n.currentTerm, false⟩) := by
  have hterm := h.followerTerm
  have hlog := h.followerLog
  rcases x.2.handleAppendEntries_cases args with ⟨hlt, -⟩ | ⟨-, -, he⟩ | ⟨-, hc, -⟩
  · omega
  · rw [he, ht]
  · have := hc.1
    rw [hlog] at this
    omega

/-- One round leaves everything as it is, with `nextIndex` one lower or at its lowest. -/
theorem StuckAfter.round (h : StuckAfter p n m k x)
    (hb : lastIndex m.logEntries < firstIndex n.logEntries) :
    StuckAfter p n m (k + 1) (replicationRound p x) := by
  obtain ⟨args, hs, ht, hp⟩ := h.sendAppend
  have hrej := h.rejected hb ht hp
  have hterm := h.followerTerm
  have hnode : x.1.handleAppendReply p args ⟨n.currentTerm, false⟩ = x.1.backOff p := by
    unfold Node.handleAppendReply
    rw [if_neg (by rw [h.term_eq]; exact lt_irrefl _),
      if_neg (not_or.2 ⟨not_not.2 h.leader, not_not.2 (h.term_eq.trans ht.symm)⟩)]
    rfl
  have hround : replicationRound p x = (x.1.backOff p, x.2.recognizeLeader args.term) := by
    simp only [replicationRound, hs, hrej, hnode]
  rw [hround]
  refine ⟨h.leader, h.term_eq, h.log_eq, ?_, ?_, ?_⟩
  · show PeerMap.get (if x.1.nextIndex.get p > firstIndex x.1.logEntries + 1 then _ else _) p = _
    rw [h.log_eq]
    have hnext := h.next_eq
    split_ifs with hgt
    · rw [PeerMap.get_insert_self]
      omega
    · omega
  · rw [x.2.recognizeLeader_currentTerm (by omega), ht]
  · rw [x.2.recognizeLeader_logEntries]
    exact h.followerLog

theorem stuckAfter (h : BelowFloor p n m) (k : ℕ) :
    StuckAfter p n m k ((replicationRound p)^[k] (n, m)) := by
  induction k with
  | zero =>
    have hnext := h.next_gt
    refine ⟨h.leader, rfl, rfl, ?_, h.sameTerm, rfl⟩
    rw [Function.iterate_zero_apply, Nat.sub_zero, max_eq_right hnext]
  | succ k ih =>
    rw [Function.iterate_succ_apply']
    exact ih.round h.below

end Round

/-- **Back-off never reaches the snapshot**: for no leader and no follower below its floor does
the leader ship the snapshot, in any number of rounds. -/
theorem not_catchesUp {p : String} {n m : Node} (h : BelowFloor p n m) :
    (∀ k, shipped p ((replicationRound p)^[k] (n, m)).1 = none) ∧ ¬ CatchesUp p n m := by
  have hnone : ∀ k, shipped p ((replicationRound p)^[k] (n, m)).1 = none :=
    fun k => (stuckAfter h k).not_shipped
  refine ⟨hnone, ?_⟩
  rintro ⟨k, -, ⟨args, hs, -⟩, -⟩
  rw [hnone k] at hs
  cases hs

/-- A leader of term 1 whose log starts at a snapshot of index 1 and holds one entry above. -/
def compactedLeader : Node :=
  { newNode "a" ["b"] with
    currentTerm := 1
    votedFor := "a"
    state := .leader
    logEntries := [⟨1, 1, none⟩, ⟨1, 2, some [1]⟩]
    commitIndex := 1
    lastApplied := 1
    lastSnapshot := some ⟨1, 1, 1, "a", [0]⟩ }.initLeaderState

/-- A fresh follower of term 1. -/
def freshFollower : Node := { newNode "b" ["a"] with currentTerm := 1, votedFor := "a" }

theorem belowFloor_freshFollower : BelowFloor "b" compactedLeader freshFollower :=
  ⟨rfl, by decide, ⟨_, rfl, rfl⟩, by decide +kernel, by decide +kernel, rfl, rfl, by decide⟩

/-- The fresh follower is never shipped the snapshot. -/
theorem not_catchesUp_freshFollower :
    BelowFloor "b" compactedLeader freshFollower ∧
      ¬ CatchesUp "b" compactedLeader freshFollower :=
  ⟨belowFloor_freshFollower, (not_catchesUp belowFloor_freshFollower).2⟩

/-- A leader and a follower below its floor that does not catch up. -/
theorem catchesUp_fails :
    ¬ ∀ (p : String) (n m : Node), BelowFloor p n m → CatchesUp p n m := by
  intro hall
  obtain ⟨k, -, ⟨args, hs, -⟩, -⟩ := hall "b" _ _ belowFloor_freshFollower
  rw [(stuckAfter belowFloor_freshFollower k).not_shipped] at hs
  cases hs

end Driftless.Raft
