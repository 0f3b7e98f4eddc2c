import Mathlib.Data.List.Basic
import Mathlib.Data.List.Range
import Mathlib.Algebra.Order.Group.Nat

/-!
# Chunks of a list

The slices `l[i : i + n]` for `i` in `range(0, len(l), n)`: they are `l` again when put together
(`flatten_chunks`), and none is empty or longer than `n`.
-/

namespace Driftless

variable {α : Type*} {n : ℕ} {l c : List α}

/-- The slices of length `n` of a list, the last of which may be shorter. -/
def chunks (n : ℕ) (l : List α) : List (List α) :=
  (List.range' 0 ((l.length + n - 1) / n) n).map fun i => (l.drop i).take n

theorem length_le_of_mem_chunks (hc : c ∈ chunks n l) : c.length ≤ n := by
  obtain ⟨i, -, rfl⟩ := List.mem_map.1 hc
  exact List.length_take_le n _

theorem ne_nil_of_mem_chunks (hn : 0 < n) (hc : c ∈ chunks n l) : c ≠ [] := by
  obtain ⟨i, hi, rfl⟩ := List.mem_map.1 hc
  obtain ⟨k, hk, rfl⟩ := List.mem_range'.1 hi
  have hlt : n * (k + 1) ≤ l.length + n - 1 :=
    (Nat.mul_le_mul_left n hk).trans (Nat.mul_div_le _ _)
  rw [Nat.mul_succ] at hlt
  apply List.ne_nil_of_length_pos
  rw [List.length_take, List.length_drop]
  omega

/-- The first `k` slices. -/
theorem flatten_map_range' (l : List α) (n k : ℕ) :
    ((List.range' 0 k n).map fun i => (l.drop i).take n).flatten = l.take (n * k) := by
  induction k with
  | zero => simp
  | succ k ih =>
    rw [List.range'_concat, List.map_append, List.flatten_append, ih, Nat.mul_succ, List.take_add]
    simp

theorem flatten_chunks (hn : 0 < n) (l : List α) : (chunks n l).flatten = l := by
  rw [chunks, flatten_map_range']
  apply List.take_of_length_le
  have hdiv := Nat.div_add_mod (l.length + n - 1) n
  have hmod := Nat.mod_lt (l.length + n - 1) hn
  omega

example : chunks 2 [1, 2, 3, 4, 5] = [[1, 2], [3, 4], [5]] := by decide

end Driftless
