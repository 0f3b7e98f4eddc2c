import Mathlib.Algebra.Order.Group.Defs
import Mathlib.Algebra.Order.Group.Unbundled.Basic
import Mathlib.Data.List.Basic

/-!
# Requests under a cooldown

Requests come with a key and a time, and a request is let through unless one with its key was let
through less than a window before. What decides is a table of the last time for each key, which has
some value for the keys that never came. `Follows` says that the answers to a list of requests are
those of the table; `Follows.passed_iff` describes them without the table, for requests whose times
do not decrease.
-/

namespace Driftless.Cooldown

/-- A request, and whether it was let through. -/
structure Request (κ T : Type*) where
  key : κ
  time : T
  passed : Bool

variable {κ T : Type*} [DecidableEq κ]

/-- The table after a request. -/
def note (last : κ → T) (r : Request κ T) : κ → T :=
  if r.passed then Function.update last r.key r.time else last

/-- The table after a list of requests. -/
def table (last : κ → T) (rs : List (Request κ T)) : κ → T := rs.foldl note last

@[simp] theorem table_nil (last : κ → T) : table last [] = last := rfl

@[simp] theorem table_cons (last : κ → T) (r : Request κ T) (rs : List (Request κ T)) :
    table last (r :: rs) = table (note last r) rs := rfl

theorem table_append (last : κ → T) (rs rs' : List (Request κ T)) :
    table last (rs ++ rs') = table (table last rs) rs' := by
  simp [table, List.foldl_append]

theorem note_self {last : κ → T} {r : Request κ T} (h : r.passed = true) :
    note last r r.key = r.time := by
  simp [note, h]

theorem note_of_ne {last : κ → T} {r : Request κ T} {k : κ} (h : r.passed = true → r.key ≠ k) :
    note last r k = last k := by
  unfold note
  split_ifs with hp
  · exact Function.update_of_ne (h hp).symm _ _
  · rfl

/-- A value of the table was there before, or is the time of a request that was let through. -/
theorem table_eq (last : κ → T) (rs : List (Request κ T)) (k : κ) :
    table last rs k = last k ∨
      ∃ r ∈ rs, r.passed = true ∧ r.key = k ∧ r.time = table last rs k := by
  induction rs generalizing last with
  | nil => exact .inl rfl
  | cons r rs ih =>
    rcases ih (note last r) with h | ⟨r', hr', hp, hk, ht⟩
    · by_cases hr : r.passed = true ∧ r.key = k
      · refine .inr ⟨r, by simp, hr.1, hr.2, ?_⟩
        rw [table_cons, h, ← hr.2, note_self hr.1]
      · rw [table_cons, h]
        exact .inl (note_of_ne fun hp hk => hr ⟨hp, hk⟩)
    · exact .inr ⟨r', List.mem_cons_of_mem r hr', hp, hk, ht⟩

variable [AddCommGroup T] [LinearOrder T] {window : T} {last : κ → T}

/-- The answers are those that the table gives, from one request to the next. -/
def Follows (window : T) (last : κ → T) : List (Request κ T) → Prop
  | [] => True
  | r :: rs => (r.passed = true ↔ window ≤ r.time - last r.key) ∧ Follows window (note last r) rs

theorem follows_append {rs rs' : List (Request κ T)} : Follows window last (rs ++ rs') ↔
    Follows window last rs ∧ Follows window (table last rs) rs' := by
  induction rs generalizing last with
  | nil => simp [Follows]
  | cons r rs ih => simp [Follows, ih, and_assoc]

/-- Times do not decrease. -/
def Ordered (rs : List (Request κ T)) : Prop := rs.Pairwise fun r r' => r.time ≤ r'.time

omit [AddCommGroup T] in
/-- The table holds the latest time. -/
theorem le_table {rs : List (Request κ T)} (hord : Ordered rs) {r : Request κ T} (hr : r ∈ rs)
    (hp : r.passed = true) : r.time ≤ table last rs r.key := by
  induction rs generalizing last with
  | nil => cases hr
  | cons a rs ih =>
    obtain ⟨hle, hord⟩ := List.pairwise_cons.1 hord
    rcases List.mem_cons.1 hr with rfl | hr
    · rw [table_cons]
      rcases table_eq (note last r) rs r.key with h | ⟨r', hr', -, -, ht⟩
      · rw [h, note_self hp]
      · rw [← ht]
        exact hle r' hr'
    · exact ih hord hr

variable [IsOrderedAddMonoid T]

/-- **When a request is let through**: the window has passed since what the table said at the start,
and since every request with its key that was let through. -/
theorem Follows.passed_iff {l l' : List (Request κ T)} {r : Request κ T}
    (h : Follows window last (l ++ r :: l')) (hord : Ordered (l ++ r :: l')) :
    r.passed = true ↔ window ≤ r.time - last r.key ∧
      ∀ a ∈ l, a.key = r.key → a.passed = true → window ≤ r.time - a.time := by
  induction l generalizing last with
  | nil => simpa using h.1
  | cons a l ih =>
    obtain ⟨hle, hord⟩ := List.pairwise_cons.1 hord
    rw [ih h.2 hord]
    by_cases ha : a.passed = true ∧ a.key = r.key
    · -- the table had an older time for the key of `a`
      obtain ⟨hp, hk⟩ := ha
      have hold : window ≤ a.time - last r.key := hk ▸ h.1.1 hp
      have hlater : window ≤ r.time - last r.key :=
        hold.trans (sub_le_sub_right (hle r (by simp)) _)
      rw [← hk, note_self hp, hk]
      simp [hp, hk, hlater]
    · rw [note_of_ne fun hp hk => ha ⟨hp, hk⟩]
      refine and_congr_right fun _ => ?_
      simp only [List.mem_cons, forall_eq_or_imp]
      exact ⟨fun hall => ⟨fun hk hp => absurd ⟨hp, hk⟩ ha, hall⟩, fun hall => hall.2⟩

/-- Times that are `c` apart are no more in a period of `n` times `c` than `n`. -/
theorem length_le_of_apart {c : ℕ} {l : List ℕ} (hl : l.Pairwise fun t t' => t + c ≤ t') {t n : ℕ}
    (hin : ∀ x ∈ l, t ≤ x ∧ x < t + n * c) : l.length ≤ n := by
  induction l generalizing t n with
  | nil => exact Nat.zero_le n
  | cons x l ih =>
    obtain ⟨hx, hl⟩ := List.pairwise_cons.1 hl
    have hxin := hin x (by simp)
    cases n with
    | zero => omega
    | succ n =>
      refine Nat.succ_le_succ (ih hl (t := t + c) fun y hy => ?_)
      have hxy := hx y hy
      have hyin := hin y (by simp [hy])
      rw [Nat.succ_mul] at hyin
      omega

end Driftless.Cooldown
