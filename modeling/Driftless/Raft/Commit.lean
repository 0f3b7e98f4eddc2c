import Mathlib.Order.Bounds.Basic
import Driftless.Consensus.Basic
import Driftless.Raft.Node

/-!
# The commit index of the leader

`maybeAdvanceCommitLocked` walks down from the last index, skips entries of other terms and commits
the first index that enough peers match. `Committable` are the indices it looks for; the one it
finds is the largest of them, and if there is none the commit index stays: `advancesExactly`.
-/

namespace Driftless.Raft

open Consensus

/-- An index the leader can commit: above the commit index, in its log, of its own term, and
matched by enough peers to make a majority together with the leader. -/
structure Node.Committable (n : Node) (N : ℕ) : Prop where
  commit_lt : n.commitIndex < N
  le_last : N ≤ lastIndex n.logEntries
  first_le : firstIndex n.logEntries ≤ N
  term_eq : termAt n.logEntries N = n.currentTerm
  quorum : n.majority - 1 ≤ (n.peer.filter fun p => n.matchIndex.get p ≥ N).length

/-- What `maybeAdvanceCommitLocked` makes of `n`. -/
structure AdvancesExactly (n n' : Node) : Prop where
  /-- The commit index is the largest index that can be committed, or stays. -/
  largest : IsGreatest {N | n.Committable N} n'.commitIndex ∨
    ((∀ N, ¬ n.Committable N) ∧ n'.commitIndex = n.commitIndex)
  /-- Nothing else changes but the signal to the apply loop. -/
  frame : n' = { n with commitIndex := n'.commitIndex, applyCh := n'.applyCh }
  commit_le : n.commitIndex ≤ n'.commitIndex
  le_last : n.commitIndex ≤ lastIndex n.logEntries → n'.commitIndex ≤ lastIndex n.logEntries
  /-- An entry of another term is committed only below one of the current term. -/
  older : ∀ i, n.commitIndex < i → i ≤ n'.commitIndex → termAt n.logEntries i ≠ n.currentTerm →
    ∃ j, i < j ∧ j ≤ n'.commitIndex ∧ termAt n.logEntries j = n.currentTerm
  /-- Two sets of enough members of the cluster have a member in common. -/
  quorums : ∀ (ν : Type) (M A B : Finset ν), M.card = n.peer.length + 1 → A ⊆ M → B ⊆ M →
    n.majority ≤ A.card → n.majority ≤ B.card → ∃ v, v ∈ A ∧ v ∈ B

namespace Node

variable (n : Node)

theorem majority_pos : 0 < n.majority := Nat.succ_pos _

theorem isMajority_of_le {ν : Type*} {M A : Finset ν} (hM : M.card = n.peer.length + 1)
    (hA : A ⊆ M) (hle : n.majority ≤ A.card) : IsMajority M A := by
  refine ⟨hA, ?_⟩
  unfold majority at hle
  omega

theorem replicas_ge_iff (N : ℕ) : n.replicas N ≥ n.majority ↔
    n.majority - 1 ≤ (n.peer.filter fun p => n.matchIndex.get p ≥ N).length := by
  have := n.majority_pos
  unfold replicas
  omega

/-- The loop from `N` down finds the largest index that can be committed. -/
theorem quorumIndex_isGreatest {N k : ℕ} (hN : N ≤ lastIndex n.logEntries)
    (h : n.quorumIndex N = some k) : IsGreatest {j | j ≤ N ∧ n.Committable j} k := by
  induction N with
  | zero => cases h
  | succ N ih =>
    -- an index that the loop passes by is not the one
    have skip : ¬ n.Committable (N + 1) → n.quorumIndex N = some k →
        IsGreatest {j | j ≤ N + 1 ∧ n.Committable j} k := by
      intro hno hk
      obtain ⟨⟨hle, hc⟩, hub⟩ := ih (Nat.le_of_succ_le hN) hk
      refine ⟨⟨Nat.le_succ_of_le hle, hc⟩, fun j ⟨hj, hcj⟩ => ?_⟩
      rcases Nat.le_succ_iff.1 hj with hj | rfl
      · exact hub ⟨hj, hcj⟩
      · exact absurd hcj hno
    unfold quorumIndex at h
    split_ifs at h with h₁ h₂ h₃ h₄
    · exact skip (fun hc => h₃ hc.term_eq) h
    · cases h
      have hc : n.Committable (N + 1) :=
        ⟨h₁, hN, Nat.le_of_not_lt h₂, not_not.1 h₃, (n.replicas_ge_iff _).1 h₄⟩
      exact ⟨⟨le_rfl, hc⟩, fun j hj => hj.1⟩
    · exact skip (fun hc => h₄ ((n.replicas_ge_iff _).2 hc.quorum)) h

theorem not_committable_of_quorumIndex {N : ℕ} (h : n.quorumIndex N = none) {j : ℕ} (hj : j ≤ N) :
    ¬ n.Committable j := by
  induction N with
  | zero =>
    intro hc
    have := hc.commit_lt
    omega
  | succ N ih =>
    intro hc
    have hlt := hc.commit_lt
    have hfirst := hc.first_le
    unfold quorumIndex at h
    split_ifs at h with h₁ h₂ h₃ h₄
    · omega
    · rcases Nat.le_succ_iff.1 hj with hj | rfl
      · exact ih h hj hc
      · exact h₃ hc.term_eq
    · rcases Nat.le_succ_iff.1 hj with hj | rfl
      · exact ih h hj hc
      · exact h₄ ((n.replicas_ge_iff _).2 hc.quorum)
    · omega

theorem maybeAdvanceCommitLocked_largest :
    IsGreatest {N | n.Committable N} n.maybeAdvanceCommitLocked.commitIndex ∨
      ((∀ N, ¬ n.Committable N) ∧ n.maybeAdvanceCommitLocked.commitIndex = n.commitIndex) := by
  cases h : n.quorumIndex (lastIndex n.logEntries) with
  | none =>
    refine .inr ⟨fun N hc => ?_, by simp [maybeAdvanceCommitLocked, h]⟩
    exact n.not_committable_of_quorumIndex h hc.le_last hc
  | some k =>
    have hk : n.maybeAdvanceCommitLocked.commitIndex = k := by simp [maybeAdvanceCommitLocked, h]
    obtain ⟨⟨-, hc⟩, hub⟩ := n.quorumIndex_isGreatest le_rfl h
    rw [hk]
    exact .inl ⟨hc, fun j hj => hub ⟨hj.le_last, hj⟩⟩

end Node

/-- **Commit advancement is exact.** -/
theorem advancesExactly (n : Node) : AdvancesExactly n n.maybeAdvanceCommitLocked := by
  have hlargest := n.maybeAdvanceCommitLocked_largest
  refine ⟨hlargest, rfl, ?_, fun hle => ?_, fun i hi hle hterm => ?_,
    fun ν M A B hM hA hB hcA hcB => ?_⟩
  · rcases hlargest with hg | ⟨-, he⟩
    · exact hg.1.commit_lt.le
    · exact he.ge
  · rcases hlargest with hg | ⟨-, he⟩
    · exact hg.1.le_last
    · rwa [he]
  · rcases hlargest with hg | ⟨-, he⟩
    · refine ⟨_, lt_of_le_of_ne hle ?_, le_rfl, hg.1.term_eq⟩
      rintro rfl
      exact hterm hg.1.term_eq
    · omega
  · exact (n.isMajority_of_le hM hA hcA).exists_mem_mem (n.isMajority_of_le hM hB hcB)

end Driftless.Raft
