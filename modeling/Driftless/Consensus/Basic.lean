import Mathlib.Data.Finset.Card
import Mathlib.Data.List.Infix
import Mathlib.Order.Lattice

/-!
# Majorities and logs with terms

Two notions that a replicated log rests on: majorities of a finite set of nodes, any two of which
meet, and lists of entries stamped with a term. A log is compared with another by its last term
and its length (`UpToDate`), and takes over a prefix of a leader's log with `accept`, which keeps
the log where it already holds the prefix.
-/

namespace Driftless.Consensus

/-! ## Majorities -/

section Majority

variable {ν : Type*} {M A B : Finset ν}

/-- `A` holds more than half of `M`. -/
def IsMajority (M A : Finset ν) : Prop := A ⊆ M ∧ M.card < 2 * A.card

/-- Two majorities have a member in common. -/
theorem IsMajority.exists_mem_mem (hA : IsMajority M A) (hB : IsMajority M B) :
    ∃ v, v ∈ A ∧ v ∈ B := by
  classical
  have hcard : M.card < A.card + B.card := by
    have := hA.2
    have := hB.2
    omega
  obtain ⟨v, hv⟩ := Finset.inter_nonempty_of_card_lt_card_add_card hA.1 hB.1 hcard
  exact ⟨v, Finset.mem_inter.1 hv⟩

end Majority

/-! ## Logs with terms -/

section TermLog

variable {ε : Type*} (τ : ε → ℕ)

/-- The term of the last entry, zero for the empty log. -/
def lastTerm (l : List ε) : ℕ := (l.getLast?.map τ).getD 0

/-- `l` is at least as up to date as `l'`. -/
def UpToDate (l l' : List ε) : Prop :=
  lastTerm τ l' < lastTerm τ l ∨ (lastTerm τ l = lastTerm τ l' ∧ l'.length ≤ l.length)

/-- The terms of the log never go down. -/
def Sorted (l : List ε) : Prop := l.Pairwise fun a b => τ a ≤ τ b

@[simp] theorem lastTerm_nil : lastTerm τ ([] : List ε) = 0 := rfl

@[simp] theorem lastTerm_concat (l : List ε) (e : ε) : lastTerm τ (l ++ [e]) = τ e := by
  simp [lastTerm]

theorem lastTerm_take {l : List ε} {k : ℕ} {e : ε} (h : l[k]? = some e) :
    lastTerm τ (l.take (k + 1)) = τ e := by
  rw [List.take_add_one, h]
  exact lastTerm_concat τ _ e

theorem upToDate_refl (l : List ε) : UpToDate τ l l := .inr ⟨rfl, le_rfl⟩

variable {τ}

theorem lastTerm_le {l : List ε} {T : ℕ} (h : ∀ e ∈ l, τ e ≤ T) : lastTerm τ l ≤ T := by
  unfold lastTerm
  cases hl : l.getLast? with
  | none => exact Nat.zero_le T
  | some e => exact h e (List.mem_of_getLast? hl)

theorem Sorted.of_isPrefix {l p : List ε} (h : Sorted τ l) (hp : p <+: l) : Sorted τ p :=
  List.Pairwise.sublist hp.sublist h

theorem Sorted.concat {l : List ε} (h : Sorted τ l) {e : ε} (he : ∀ a ∈ l, τ a ≤ τ e) :
    Sorted τ (l ++ [e]) := by
  refine List.pairwise_append.2 ⟨h, List.pairwise_singleton _ _, fun a ha b hb => ?_⟩
  obtain rfl := List.mem_singleton.1 hb
  exact he a ha

/-- In a sorted log the last term bounds every term. -/
theorem Sorted.le_lastTerm {l : List ε} (h : Sorted τ l) : ∀ e ∈ l, τ e ≤ lastTerm τ l := by
  intro e he
  induction l using List.reverseRecOn with
  | nil => cases he
  | append_singleton l a _ =>
    rw [lastTerm_concat]
    rcases List.mem_append.1 he with hl | ha
    · exact (List.pairwise_append.1 h).2.2 e hl a (List.mem_singleton_self a)
    · rw [List.mem_singleton.1 ha]

theorem Sorted.lastTerm_mono {l p : List ε} (h : Sorted τ l) (hp : p <+: l) :
    lastTerm τ p ≤ lastTerm τ l :=
  lastTerm_le fun e he => h.le_lastTerm e (hp.subset he)

/-- Of two prefixes of a sorted log the one with the lower last term is the shorter. -/
theorem Sorted.prefix_of_lastTerm_lt {l p q : List ε} (h : Sorted τ l) (hp : p <+: l)
    (hq : q <+: l) (hlt : lastTerm τ p < lastTerm τ q) : p <+: q := by
  rcases List.prefix_or_prefix_of_prefix hp hq with hpq | hqp
  · exact hpq
  · exact absurd ((h.of_isPrefix hp).lastTerm_mono hqp) (Nat.not_le.2 hlt)

open Classical in
/-- Take over the prefix `L` of a leader's log: a log that extends it stays, any other one is
replaced. -/
noncomputable def accept (L l : List ε) : List ε := if L <+: l then l else L

theorem accept_of_isPrefix {L l : List ε} (h : L <+: l) : accept L l = l := if_pos h

theorem accept_of_not_isPrefix {L l : List ε} (h : ¬ L <+: l) : accept L l = L := if_neg h

theorem accept_cases (L l : List ε) : accept L l = l ∨ accept L l = L := by
  by_cases h : L <+: l
  · exact .inl (accept_of_isPrefix h)
  · exact .inr (accept_of_not_isPrefix h)

theorem prefix_accept (L l : List ε) : L <+: accept L l := by
  by_cases h : L <+: l
  · rwa [accept_of_isPrefix h]
  · rw [accept_of_not_isPrefix h]

/-- A log that is itself a prefix of `L` becomes `L`. -/
theorem accept_of_isPrefix_left {L l : List ε} (h : l <+: L) : accept L l = L := by
  by_cases hL : L <+: l
  · rw [accept_of_isPrefix hL]
    exact h.eq_of_length_le hL.length_le
  · exact accept_of_not_isPrefix hL

/-- What the log shares with the leader's log survives. -/
theorem prefix_accept_of_shared {X L l t : List ε} (hX : X <+: l) (hXt : X <+: t)
    (hLt : L <+: t) : X <+: accept L l := by
  by_cases h : L <+: l
  · rwa [accept_of_isPrefix h]
  · rw [accept_of_not_isPrefix h]
    rcases List.prefix_or_prefix_of_prefix hXt hLt with hXL | hLX
    · exact hXL
    · exact absurd (hLX.trans hX) h

end TermLog

end Driftless.Consensus
