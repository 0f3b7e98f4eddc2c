import Mathlib.Data.List.Basic
import Mathlib.Data.List.TakeWhile

/-!
# Patterns

Regular expressions that are sequences of single characters and of runs from a class of characters,
and the search for them by backtracking: from the first place where the pattern matches, with every
run as long as what follows allows, or as short if it is lazy. A search returns the runs that are
captured, in the order of the pattern.
-/

namespace Driftless.Pattern

variable {α : Type*}

inductive Item (α : Type*)
  | char (c : α)
  /-- At least `least` characters of a class. -/
  | many (p : α → Bool) (least : ℕ) (lazily : Bool) (capture : Bool)

section Match

variable [DecidableEq α]

/-- The captures of a match at the start of the text. -/
def matchAt : List (Item α) → List α → Option (List (List α))
  | [], _ => some []
  | .char _ :: _, [] => none
  | .char c :: ps, a :: as => if a = c then matchAt ps as else none
  | .many p least lazily capture :: ps, as =>
    let lengths := List.range' least ((as.takeWhile p).length + 1 - least)
    (if lazily then lengths else lengths.reverse).findSome? fun k =>
      (matchAt ps (as.drop k)).map fun caps => if capture then as.take k :: caps else caps

/-- The captures of the first match. -/
def search (ps : List (Item α)) : List α → Option (List (List α))
  | [] => matchAt ps []
  | a :: as => (matchAt ps (a :: as)).or (search ps as)

variable {ps : List (Item α)} {c : α} {as : List α}

/-- A match has all characters of the pattern. -/
theorem mem_of_matchAt {caps : List (List α)} (hm : matchAt ps as = some caps)
    (hc : .char c ∈ ps) : c ∈ as := by
  induction ps generalizing as caps with
  | nil => cases hc
  | cons item ps ih =>
    cases item with
    | char d =>
      cases as with
      | nil => cases hm
      | cons a as =>
        simp only [matchAt] at hm
        split_ifs at hm with had
        rcases List.mem_cons.1 hc with hcd | hc
        · cases hcd
          exact had ▸ List.mem_cons_self
        · exact List.mem_cons_of_mem a (ih hm hc)
    | many p least lazily capture =>
      simp only [matchAt] at hm
      obtain ⟨k, -, hk⟩ := List.exists_of_findSome?_eq_some hm
      obtain ⟨caps', hk, -⟩ := Option.map_eq_some_iff.1 hk
      have hc : .char c ∈ ps := by simpa using hc
      exact List.mem_of_mem_drop (ih hk hc)

/-- **Nothing is found without a character of the pattern.** -/
theorem search_eq_none (hc : .char c ∈ ps) (has : c ∉ as) : search ps as = none := by
  induction as with
  | nil =>
    rw [search, Option.eq_none_iff_forall_ne_some]
    exact fun caps hm => has (mem_of_matchAt hm hc)
  | cons a as ih =>
    have hhead : matchAt ps (a :: as) = none := by
      rw [Option.eq_none_iff_forall_ne_some]
      exact fun caps hm => has (mem_of_matchAt hm hc)
    rw [search, hhead, Option.none_or, ih fun hmem => has (List.mem_cons_of_mem a hmem)]

/-! ## Where a match is -/

theorem search_of_matchAt {caps : List (List α)} (hm : matchAt ps as = some caps) :
    search ps as = some caps := by
  cases as with
  | nil => exact hm
  | cons a as => rw [search, hm, Option.some_or]

/-- A literal matches itself. -/
theorem matchAt_literal (l : List α) : matchAt (l.map .char ++ ps) (l ++ as) = matchAt ps as := by
  induction l with
  | nil => rfl
  | cons a l ih => simpa [matchAt] using ih

/-- A literal matches nothing else. -/
theorem matchAt_eq_none {l : List α} (hl : ¬ l <+: as) : matchAt (l.map .char ++ ps) as = none := by
  induction l generalizing as with
  | nil => exact absurd List.nil_prefix hl
  | cons c l ih =>
    cases as with
    | nil => rfl
    | cons a as =>
      simp only [List.map_cons, List.cons_append, matchAt]
      split_ifs with had
      · subst had
        exact ih fun h => hl (List.cons_prefix_cons.2 ⟨rfl, h⟩)
      · rfl

/-- A run of a class that the text does not start with is empty. -/
theorem matchAt_many_nil {p : α → Bool} {lazily : Bool} (hp : ∀ a ∈ as.head?, p a = false) :
    matchAt (.many p 0 lazily false :: ps) as = matchAt ps as := by
  have hrun : as.takeWhile p = [] := by
    cases as with
    | nil => rfl
    | cons a as => exact List.takeWhile_cons_of_neg (by simp [hp a rfl])
  cases lazily <;> cases hm : matchAt ps as <;> simp [matchAt, hrun, hm]

/-- A greedy run at the end of the pattern takes all it can. -/
theorem matchAt_many_last {p : α → Bool} {least : ℕ} (hp : least ≤ (as.takeWhile p).length) :
    matchAt [.many p least false true] as = some [as.takeWhile p] := by
  obtain ⟨k, hk⟩ := Nat.exists_eq_add_of_le hp
  have hlen : (as.takeWhile p).length + 1 - least = k + 1 := by omega
  have htake : as.take (as.takeWhile p).length = as.takeWhile p :=
    List.prefix_iff_eq_take.1 (List.takeWhile_prefix p) |>.symm
  simp [matchAt, hlen, List.range'_concat, ← hk, htake]

/-- Text in which the literal does not start is passed over. -/
theorem search_append {l pre : List α}
    (hpre : ∀ i < pre.length, ¬ l <+: (pre ++ as).drop i) :
    search (l.map .char ++ ps) (pre ++ as) = search (l.map .char ++ ps) as := by
  induction pre with
  | nil => rfl
  | cons a pre ih =>
    have hhead : matchAt (l.map .char ++ ps) (a :: (pre ++ as)) = none :=
      matchAt_eq_none (by simpa using hpre 0 (by simp))
    rw [List.cons_append, search, hhead, Option.none_or]
    exact ih fun i hi => by simpa using hpre (i + 1) (by simpa using hi)

/-- **The first place of a literal** is where its first rare character is. -/
theorem search_append_of_not_mem {l₁ l₂ pre : List α} (hpre : c ∉ pre) (hl : c ∉ l₁) :
    search ((l₁ ++ c :: l₂).map .char ++ ps) (pre ++ (l₁ ++ c :: as)) =
      search ((l₁ ++ c :: l₂).map .char ++ ps) (l₁ ++ c :: as) := by
  refine search_append fun i hi hpref => ?_
  -- the character would be at `i + l₁.length`, which is before `c`
  obtain ⟨t, ht⟩ := hpref
  have hget : (pre ++ (l₁ ++ c :: as))[i + l₁.length]? = some c := by
    rw [← List.getElem?_drop, ← ht]
    simp
  rw [← List.append_assoc, List.getElem?_append_left (by simp; omega)] at hget
  have hmem := List.mem_of_getElem? hget
  exact (List.mem_append.1 hmem).elim hpre hl

end Match

end Driftless.Pattern
