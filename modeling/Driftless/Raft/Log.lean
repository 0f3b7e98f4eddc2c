import Mathlib.Data.List.GetD
import Mathlib.Order.Basic
import Driftless.Raft.Types

/-!
# The in-memory log

The log index helpers of `raft/node.go`. After a snapshot `logEntries[0]` is a placeholder with
the index and term of the last entry the snapshot includes, and every lookup turns a global index
into an offset by subtracting the placeholder's index. That is right on logs whose indices are
consecutive (`WellFormed`); there each helper is described by what it does to `entryAt`, and no
proof outside this module looks at offsets.
-/

namespace Driftless.Raft

/-- The lowest index in memory: the placeholder's. -/
def firstIndex (log : List LogEntry) : ℕ := (log.headD default).index

/-- The highest index in memory. -/
def lastIndex (log : List LogEntry) : ℕ := (log.getLastD default).index

def lastLogIndexAndTerm (log : List LogEntry) : ℕ × ℕ :=
  ((log.getLastD default).index, (log.getLastD default).term)

/-- The term of the entry at a global index, zero outside the in-memory log. -/
def termAt (log : List LogEntry) (idx : ℕ) : ℕ :=
  if idx < firstIndex log ∨ idx > lastIndex log then 0
  else (log.getD (idx - firstIndex log) default).term

/-- The entry at a global index of the in-memory log. -/
def entryAt (log : List LogEntry) (idx : ℕ) : Option LogEntry :=
  if idx < firstIndex log ∨ idx > lastIndex log then none
  else some (log.getD (idx - firstIndex log) default)

/-- A copy of the entries from a global index on, never the placeholder. -/
def entriesFrom (log : List LogEntry) (idx : ℕ) : List LogEntry :=
  let idx := if idx ≤ firstIndex log then firstIndex log + 1 else idx
  if idx > lastIndex log then [] else log.drop (idx - firstIndex log)

/-- Drop every entry from a global index on, never the placeholder. -/
def truncateAt (log : List LogEntry) (idx : ℕ) : List LogEntry :=
  if idx ≤ firstIndex log then log
  else if idx > lastIndex log then log
  else log.take (idx - firstIndex log)

/-- Drop every entry up to an index and put a placeholder in its place. -/
def compactLogLocked (log : List LogEntry) (upToIdx upToTerm : ℕ) : List LogEntry :=
  if upToIdx ≤ firstIndex log then log
  else if upToIdx ≥ lastIndex log then [⟨upToTerm, upToIdx, none⟩]
  else ⟨upToTerm, upToIdx, none⟩ :: log.drop (upToIdx - firstIndex log + 1)

/-- The body of rule 4's loop in `HandleAppendEntries`, at index `idx`. -/
def appendEntry (log : List LogEntry) (idx : ℕ) (e : LogEntry) : List LogEntry :=
  if idx ≤ firstIndex log then log
  else match entryAt log idx with
    | none => log ++ [e]
    | some existing => if existing.term ≠ e.term then truncateAt log idx ++ [e] else log

/-- Rule 4's loop in `HandleAppendEntries`, from index `idx` on. -/
def appendEntries (log : List LogEntry) (idx : ℕ) : List LogEntry → List LogEntry
  | [] => log
  | e :: es => appendEntries (appendEntry log idx e) (idx + 1) es

/-! ## Logs with consecutive indices -/

/-- The log has its placeholder and the indices that follow it, one by one. -/
structure WellFormed (log : List LogEntry) : Prop where
  ne_nil : log ≠ []
  index_eq : ∀ i e, log[i]? = some e → e.index = firstIndex log + i

/-- The indices of `es` are `base`, `base + 1` and so on. -/
def Indexed (base : ℕ) (es : List LogEntry) : Prop :=
  ∀ i e, es[i]? = some e → e.index = base + i

instance (base : ℕ) (es : List LogEntry) : Decidable (Indexed base es) :=
  decidable_of_iff (∀ i : Fin es.length, es[i].index = base + i)
    ⟨fun h i e he => by
      obtain ⟨hi, rfl⟩ := List.getElem?_eq_some_iff.1 he
      exact h ⟨i, hi⟩,
    fun h i => h i es[i] (List.getElem?_eq_getElem i.isLt)⟩

theorem Indexed.tail {base : ℕ} {e : LogEntry} {es : List LogEntry} (h : Indexed base (e :: es)) :
    Indexed (base + 1) es := fun i e' h' => by
  have := h (i + 1) e' (by simpa using h')
  omega

theorem Indexed.head {base : ℕ} {e : LogEntry} {es : List LogEntry} (h : Indexed base (e :: es)) :
    e.index = base := by
  simpa using h 0 e rfl

@[simp] theorem firstIndex_cons (e : LogEntry) (l : List LogEntry) :
    firstIndex (e :: l) = e.index := rfl

@[simp] theorem lastIndex_singleton (e : LogEntry) : lastIndex [e] = e.index := rfl

theorem firstIndex_append {l : List LogEntry} (h : l ≠ []) (l' : List LogEntry) :
    firstIndex (l ++ l') = firstIndex l := by
  cases l with
  | nil => exact absurd rfl h
  | cons e l => rfl

@[simp] theorem lastIndex_concat (l : List LogEntry) (e : LogEntry) :
    lastIndex (l ++ [e]) = e.index := by
  simp [lastIndex]

theorem wellFormed_singleton (e : LogEntry) : WellFormed [e] where
  ne_nil := by simp
  index_eq i e' h := by
    rcases i with _ | i
    · simp at h
      simp [h]
    · simp at h

namespace WellFormed

variable {log : List LogEntry} (h : WellFormed log)
include h

theorem length_pos : 0 < log.length := List.length_pos_iff.2 h.ne_nil

theorem getLastD_eq : log[log.length - 1]? = some (log.getLastD default) := by
  rw [List.getLastD_eq_getLast?, List.getLast?_eq_getElem?]
  have := h.length_pos
  rw [List.getElem?_eq_getElem (by omega)]
  rfl

theorem lastIndex_succ : lastIndex log + 1 = firstIndex log + log.length := by
  have := h.index_eq _ _ h.getLastD_eq
  have hpos := h.length_pos
  unfold lastIndex
  omega

theorem firstIndex_le_lastIndex : firstIndex log ≤ lastIndex log := by
  have := h.lastIndex_succ
  have := h.length_pos
  omega

theorem entryAt_eq (idx : ℕ) :
    entryAt log idx = if firstIndex log ≤ idx then log[idx - firstIndex log]? else none := by
  have hl := h.lastIndex_succ
  unfold entryAt
  by_cases hlo : firstIndex log ≤ idx
  · rw [if_pos hlo]
    by_cases hhi : idx ≤ lastIndex log
    · have hlt : idx - firstIndex log < log.length := by omega
      rw [if_neg (by omega), List.getD_eq_getElem _ _ hlt, List.getElem?_eq_getElem hlt]
    · rw [if_pos (by omega), List.getElem?_eq_none (by omega)]
  · rw [if_neg hlo, if_pos (by omega)]

theorem index_of_entryAt {idx : ℕ} {e : LogEntry} (he : entryAt log idx = some e) :
    e.index = idx := by
  rw [h.entryAt_eq] at he
  split at he
  · have := h.index_eq _ _ he
    omega
  · simp at he

theorem lastLogIndexAndTerm_eq :
    lastLogIndexAndTerm log = (lastIndex log, termAt log (lastIndex log)) := by
  have hl := h.lastIndex_succ
  have hlast := h.getLastD_eq
  rw [show log.length - 1 = lastIndex log - firstIndex log by omega] at hlast
  unfold termAt
  rw [if_neg (not_or.2 ⟨Nat.not_lt.2 h.firstIndex_le_lastIndex, lt_irrefl _⟩),
    List.getD_eq_getElem?_getD, hlast]
  rfl

theorem entryAt_firstIndex : entryAt log (firstIndex log) = some (log.headD default) := by
  rw [h.entryAt_eq, if_pos le_rfl, Nat.sub_self]
  have := h.ne_nil
  cases log with
  | nil => contradiction
  | cons e l => rfl

end WellFormed

theorem entryAt_isSome {log : List LogEntry} {idx : ℕ} :
    (entryAt log idx).isSome ↔ firstIndex log ≤ idx ∧ idx ≤ lastIndex log := by
  unfold entryAt
  split <;> simp <;> omega

theorem entryAt_eq_none {log : List LogEntry} {idx : ℕ} :
    entryAt log idx = none ↔ idx < firstIndex log ∨ lastIndex log < idx := by
  unfold entryAt
  split <;> simp <;> omega

theorem entryAt_bounds {log : List LogEntry} {idx : ℕ} {e : LogEntry}
    (he : entryAt log idx = some e) : firstIndex log ≤ idx ∧ idx ≤ lastIndex log :=
  entryAt_isSome.1 (by rw [he]; rfl)

theorem exists_entryAt {log : List LogEntry} {idx : ℕ} (h₁ : firstIndex log ≤ idx)
    (h₂ : idx ≤ lastIndex log) : ∃ e, entryAt log idx = some e :=
  Option.isSome_iff_exists.1 (entryAt_isSome.2 ⟨h₁, h₂⟩)

/-- `termAt` reads the term off `entryAt`. -/
theorem termAt_eq (log : List LogEntry) (idx : ℕ) :
    termAt log idx = ((entryAt log idx).map LogEntry.term).getD 0 := by
  unfold termAt entryAt
  split <;> simp

theorem termAt_of_entryAt {log : List LogEntry} {idx : ℕ} {e : LogEntry}
    (he : entryAt log idx = some e) : termAt log idx = e.term := by
  simp [termAt_eq, he]

/-- A well-formed log is determined by its first index and its entries. -/
theorem WellFormed.ext {l l' : List LogEntry} (h : WellFormed l) (h' : WellFormed l')
    (hf : firstIndex l = firstIndex l') (he : ∀ idx, entryAt l idx = entryAt l' idx) : l = l' := by
  apply List.ext_getElem?
  intro i
  have := he (firstIndex l + i)
  rw [h.entryAt_eq, h'.entryAt_eq, if_pos (by omega), if_pos (by omega), ← hf] at this
  simpa using this

/-! ## The helpers on well-formed logs -/

section Helpers

variable {log : List LogEntry} (h : WellFormed log)
include h

theorem WellFormed.concat {e : LogEntry} (he : e.index = lastIndex log + 1) :
    WellFormed (log ++ [e]) where
  ne_nil := by simp
  index_eq i e' hi := by
    have hl := h.lastIndex_succ
    rw [firstIndex_append h.ne_nil]
    rcases Nat.lt_or_ge i log.length with hlt | hge
    · rw [List.getElem?_append_left hlt] at hi
      exact h.index_eq i e' hi
    · rw [List.getElem?_append_right hge] at hi
      rcases hz : i - log.length with _ | k
      · rw [hz] at hi
        simp only [List.getElem?_cons_zero, Option.some.injEq] at hi
        subst hi
        omega
      · rw [hz] at hi
        simp at hi

theorem entryAt_concat {e : LogEntry} (he : e.index = lastIndex log + 1) (idx : ℕ) :
    entryAt (log ++ [e]) idx = if idx = lastIndex log + 1 then some e else entryAt log idx := by
  have hl := h.lastIndex_succ
  have hpos := h.length_pos
  rw [(h.concat he).entryAt_eq, h.entryAt_eq, firstIndex_append h.ne_nil]
  by_cases hlo : firstIndex log ≤ idx
  · rw [if_pos hlo, if_pos hlo]
    rcases Nat.lt_trichotomy idx (lastIndex log + 1) with hlt | heq | hgt
    · rw [if_neg (by omega), List.getElem?_append_left (by omega)]
    · rw [if_pos heq, List.getElem?_append_right (by omega),
        show idx - firstIndex log - log.length = 0 by omega]
      rfl
    · rw [if_neg (by omega), List.getElem?_eq_none (by simp; omega),
        List.getElem?_eq_none (by omega)]
  · rw [if_neg hlo, if_neg hlo, if_neg (by omega)]

omit h in
theorem truncateAt_eq_take {idx : ℕ} (h₁ : firstIndex log < idx) (h₂ : idx ≤ lastIndex log) :
    truncateAt log idx = log.take (idx - firstIndex log) := by
  rw [truncateAt, if_neg (by omega), if_neg (by omega)]

theorem firstIndex_truncateAt (idx : ℕ) : firstIndex (truncateAt log idx) = firstIndex log := by
  unfold truncateAt
  split_ifs with h₁ h₂
  · rfl
  · rfl
  · obtain ⟨k, hk⟩ : ∃ k, idx - firstIndex log = k + 1 := ⟨idx - firstIndex log - 1, by omega⟩
    have := h.ne_nil
    cases log with
    | nil => contradiction
    | cons e l => rw [hk]; rfl

theorem WellFormed.truncateAt (idx : ℕ) : WellFormed (truncateAt log idx) where
  ne_nil := by
    have hpos := h.length_pos
    intro hnil
    have hlen := congrArg List.length hnil
    unfold Raft.truncateAt at hlen
    split_ifs at hlen with h₁ h₂ <;> simp only [List.length_take, List.length_nil] at hlen <;> omega
  index_eq i e hi := by
    rw [firstIndex_truncateAt h]
    unfold Raft.truncateAt at hi
    split_ifs at hi with h₁ h₂
    · exact h.index_eq i e hi
    · exact h.index_eq i e hi
    · rw [List.getElem?_take] at hi
      split_ifs at hi
      exact h.index_eq i e hi

theorem lastIndex_truncateAt {idx : ℕ} (h₁ : firstIndex log < idx) (h₂ : idx ≤ lastIndex log) :
    lastIndex (truncateAt log idx) + 1 = idx := by
  have hl := h.lastIndex_succ
  rw [(h.truncateAt idx).lastIndex_succ, firstIndex_truncateAt h, truncateAt_eq_take h₁ h₂,
    List.length_take]
  omega

theorem entryAt_truncateAt {idx : ℕ} (h₁ : firstIndex log < idx) (h₂ : idx ≤ lastIndex log)
    (j : ℕ) : entryAt (truncateAt log idx) j = if j < idx then entryAt log j else none := by
  rw [(h.truncateAt idx).entryAt_eq, h.entryAt_eq, firstIndex_truncateAt h,
    truncateAt_eq_take h₁ h₂, List.getElem?_take]
  split_ifs <;> first | rfl | omega

theorem WellFormed.compactLogLocked (c t : ℕ) : WellFormed (compactLogLocked log c t) := by
  unfold Raft.compactLogLocked
  split_ifs with h₁ h₂
  · exact h
  · exact wellFormed_singleton _
  · refine ⟨by simp, fun i e hi => ?_⟩
    rcases i with _ | i
    · simp only [List.getElem?_cons_zero, Option.some.injEq] at hi
      simp [← hi]
    · rw [List.getElem?_cons_succ, List.getElem?_drop] at hi
      have := h.index_eq _ _ hi
      simp only [firstIndex_cons]
      omega

omit h in
theorem compactLogLocked_of_le {c t : ℕ} (hc : c ≤ firstIndex log) :
    compactLogLocked log c t = log := if_pos hc

omit h in
theorem firstIndex_compactLogLocked (c t : ℕ) :
    firstIndex (compactLogLocked log c t) = max (firstIndex log) c := by
  unfold compactLogLocked
  split_ifs with h₁ h₂
  · omega
  · show c = _
    omega
  · show c = _
    omega

theorem lastIndex_compactLogLocked (c t : ℕ) :
    lastIndex (compactLogLocked log c t) = max (lastIndex log) c := by
  have hl := h.lastIndex_succ
  have hc := (h.compactLogLocked c t).lastIndex_succ
  have hf := @firstIndex_compactLogLocked log c t
  have hle := h.firstIndex_le_lastIndex
  unfold compactLogLocked at hc hf ⊢
  split_ifs at hc hf ⊢ with h₁ h₂
  · omega
  · simp only [lastIndex_singleton]
    omega
  · simp only [List.length_cons, List.length_drop] at hc
    omega

omit h in
/-- Compaction above the placeholder puts a new one in its place. -/
theorem headD_compactLogLocked {c : ℕ} (t : ℕ) (hc : firstIndex log < c) :
    (compactLogLocked log c t).headD default = ⟨t, c, none⟩ := by
  unfold compactLogLocked
  rw [if_neg (Nat.not_le.2 hc)]
  split_ifs <;> rfl

/-- Compaction keeps every entry above the new placeholder. -/
theorem entryAt_compactLogLocked (c t : ℕ) {idx : ℕ} (hc : c < idx) :
    entryAt (compactLogLocked log c t) idx = entryAt log idx := by
  have hl := h.lastIndex_succ
  rw [(h.compactLogLocked c t).entryAt_eq, h.entryAt_eq, firstIndex_compactLogLocked]
  unfold compactLogLocked
  split_ifs with h₁ h₂ h₃ <;> first
    | rfl
    | omega
    | skip
  · rw [max_eq_left h₂]
  · obtain ⟨k, hk⟩ : ∃ k, idx - max (firstIndex log) c = k + 1 :=
      ⟨idx - max (firstIndex log) c - 1, by omega⟩
    rw [hk, List.getElem?_cons_succ, List.getElem?_nil, List.getElem?_eq_none (by omega)]
  · obtain ⟨k, hk⟩ : ∃ k, idx - max (firstIndex log) c = k + 1 :=
      ⟨idx - max (firstIndex log) c - 1, by omega⟩
    rw [hk, List.getElem?_cons_succ, List.getElem?_drop]
    congr 1
    omega

end Helpers

/-- The messages `sendAppend` builds: the entries carry the indices after `PrevLogIndex`. -/
def AppendEntriesArgs.WellFormed (args : AppendEntriesArgs) : Prop :=
  Indexed (args.prevLogIndex + 1) args.entries

instance (args : AppendEntriesArgs) : Decidable args.WellFormed :=
  inferInstanceAs (Decidable (Indexed _ _))

/-! ## Rule 4 of `HandleAppendEntries` -/

/-- The log after writing `e` at `idx`: what was below `idx`, then `e`, and nothing above. -/
structure WrittenAt (log : List LogEntry) (idx : ℕ) (e : LogEntry) (log' : List LogEntry) :
    Prop where
  wellFormed : WellFormed log'
  firstIndex_eq : firstIndex log' = firstIndex log
  lastIndex_eq : lastIndex log' = idx
  entryAt_eq : ∀ j, entryAt log' j =
    if j < idx then entryAt log j else if j = idx then some e else none

section Append

variable {log : List LogEntry} (h : WellFormed log)
include h

theorem writtenAt_concat {e : LogEntry} (he : e.index = lastIndex log + 1) :
    WrittenAt log e.index e (log ++ [e]) where
  wellFormed := h.concat he
  firstIndex_eq := firstIndex_append h.ne_nil _
  lastIndex_eq := lastIndex_concat _ _
  entryAt_eq j := by
    rw [entryAt_concat h he, he]
    rcases Nat.lt_trichotomy j (lastIndex log + 1) with hlt | heq | hgt
    · rw [if_neg (by omega), if_pos hlt]
    · rw [if_pos heq, if_neg (by omega), if_pos heq]
    · rw [if_neg (by omega), if_neg (by omega), if_neg (by omega), entryAt_eq_none]
      omega

theorem writtenAt_truncate {e : LogEntry} (h₁ : firstIndex log < e.index)
    (h₂ : e.index ≤ lastIndex log) :
    WrittenAt log e.index e (truncateAt log e.index ++ [e]) := by
  have hw := h.truncateAt e.index
  have hlast := lastIndex_truncateAt h h₁ h₂
  have hc := writtenAt_concat hw hlast.symm
  refine ⟨hc.wellFormed, hc.firstIndex_eq.trans (firstIndex_truncateAt h _), hc.lastIndex_eq,
    fun j => ?_⟩
  rw [hc.entryAt_eq, entryAt_truncateAt h h₁ h₂]
  split_ifs <;> rfl

/-- One round of the loop: the log already has an entry of that term (or its snapshot covers the
index) and stays, or the entry is written there. -/
theorem appendEntry_cases {e : LogEntry} (he : e.index ≤ lastIndex log + 1) :
    (appendEntry log e.index e = log ∧ e.index ≤ lastIndex log ∧
      (firstIndex log < e.index → termAt log e.index = e.term)) ∨
    (firstIndex log < e.index ∧ (e.index ≤ lastIndex log → termAt log e.index ≠ e.term) ∧
      WrittenAt log e.index e (appendEntry log e.index e)) := by
  have hle := h.firstIndex_le_lastIndex
  unfold appendEntry
  split_ifs with h₁
  · exact .inl ⟨rfl, by omega, by omega⟩
  · cases hx : entryAt log e.index with
    | none =>
      rw [entryAt_eq_none] at hx
      exact .inr ⟨by omega, by omega, writtenAt_concat h (by omega)⟩
    | some existing =>
      have hb := entryAt_bounds hx
      simp only [termAt_of_entryAt hx]
      by_cases ht : existing.term = e.term
      · exact .inl ⟨by simp [ht], hb.2, fun _ => ht⟩
      · rw [if_pos ht]
        exact .inr ⟨by omega, fun _ => ht, writtenAt_truncate h (by omega) hb.2⟩

theorem WellFormed.appendEntry {e : LogEntry} (he : e.index ≤ lastIndex log + 1) :
    WellFormed (appendEntry log e.index e) := by
  rcases appendEntry_cases h he with ⟨hk, -, -⟩ | ⟨-, -, hw⟩
  · rwa [hk]
  · exact hw.wellFormed

theorem firstIndex_appendEntry {e : LogEntry} (he : e.index ≤ lastIndex log + 1) :
    firstIndex (appendEntry log e.index e) = firstIndex log := by
  rcases appendEntry_cases h he with ⟨hk, -, -⟩ | ⟨-, -, hw⟩
  · rw [hk]
  · exact hw.firstIndex_eq

theorem le_lastIndex_appendEntry {e : LogEntry} (he : e.index ≤ lastIndex log + 1) :
    e.index ≤ lastIndex (appendEntry log e.index e) := by
  rcases appendEntry_cases h he with ⟨hk, hle, -⟩ | ⟨-, -, hw⟩
  · rwa [hk]
  · exact le_of_eq hw.lastIndex_eq.symm

theorem entryAt_appendEntry_lt {e : LogEntry} (he : e.index ≤ lastIndex log + 1) {j : ℕ}
    (hj : j < e.index) : entryAt (appendEntry log e.index e) j = entryAt log j := by
  rcases appendEntry_cases h he with ⟨hk, -, -⟩ | ⟨-, -, hw⟩
  · rw [hk]
  · rw [hw.entryAt_eq, if_pos hj]

end Append

/-- What the loop keeps: the log stays well formed on the same placeholder, reaches the last new
entry and is untouched below the first. -/
structure Appended (log : List LogEntry) (idx : ℕ) (es log' : List LogEntry) : Prop where
  wellFormed : WellFormed log'
  firstIndex_eq : firstIndex log' = firstIndex log
  reaches : idx + es.length ≤ lastIndex log' + 1
  below : ∀ j, j < idx → entryAt log' j = entryAt log j

theorem appended_appendEntries {log : List LogEntry} (h : WellFormed log) {idx : ℕ}
    {es : List LogEntry} (hes : Indexed idx es) (hidx : idx ≤ lastIndex log + 1) :
    Appended log idx es (appendEntries log idx es) := by
  induction es generalizing log idx with
  | nil => exact ⟨h, rfl, hidx, fun _ _ => rfl⟩
  | cons e es ih =>
    obtain rfl := hes.head
    have hle := le_lastIndex_appendEntry h hidx
    have := ih (h.appendEntry hidx) hes.tail (by omega)
    refine ⟨this.wellFormed, this.firstIndex_eq.trans (firstIndex_appendEntry h hidx), ?_,
      fun j hj => ?_⟩
    · have hr := this.reaches
      simp only [List.length_cons]
      show _ ≤ lastIndex (appendEntries (appendEntry log e.index e) (e.index + 1) es) + 1
      omega
    · exact (this.below j (by omega)).trans (entryAt_appendEntry_lt h hidx hj)

/-- After the loop the log has an entry of the right term at the index of every new entry above
the placeholder. -/
theorem exists_entryAt_appendEntries {log : List LogEntry} (h : WellFormed log) {idx : ℕ}
    {es : List LogEntry} (hes : Indexed idx es) (hidx : idx ≤ lastIndex log + 1) {e : LogEntry}
    (he : e ∈ es) (hf : firstIndex log < e.index) :
    ∃ x, entryAt (appendEntries log idx es) e.index = some x ∧ x.term = e.term := by
  induction es generalizing log idx with
  | nil => cases he
  | cons a es ih =>
    obtain rfl := hes.head
    have hle := le_lastIndex_appendEntry h hidx
    rcases List.mem_cons.1 he with rfl | he
    · have happ := appended_appendEntries (h.appendEntry hidx) hes.tail (by omega)
      show ∃ x, entryAt (appendEntries (appendEntry log e.index e) (e.index + 1) es) e.index =
        some x ∧ _
      rw [happ.below e.index (by omega)]
      rcases appendEntry_cases h hidx with ⟨hk, hl, ht⟩ | ⟨-, -, hw⟩
      · obtain ⟨x, hx⟩ := exists_entryAt hf.le hl
        rw [hk]
        exact ⟨x, hx, (termAt_of_entryAt hx).symm.trans (ht hf)⟩
      · exact ⟨e, by rw [hw.entryAt_eq, if_neg (lt_irrefl _), if_pos rfl], rfl⟩
    · exact ih (h.appendEntry hidx) hes.tail (by omega) he
        (by rwa [firstIndex_appendEntry h hidx])

/-- Every entry of the log after the loop was in the log or is a new one. -/
theorem entryAt_appendEntries_source {log : List LogEntry} (h : WellFormed log) {idx : ℕ}
    {es : List LogEntry} (hes : Indexed idx es) (hidx : idx ≤ lastIndex log + 1) {j : ℕ}
    {x : LogEntry} (hx : entryAt (appendEntries log idx es) j = some x) :
    entryAt log j = some x ∨ x ∈ es := by
  induction es generalizing log idx with
  | nil => exact .inl hx
  | cons e es ih =>
    obtain rfl := hes.head
    have hle := le_lastIndex_appendEntry h hidx
    rcases ih (h.appendEntry hidx) hes.tail (by omega) hx with hold | hnew
    · rcases appendEntry_cases h hidx with ⟨hk, -, -⟩ | ⟨-, -, hw⟩
      · exact .inl (hk ▸ hold)
      · rw [hw.entryAt_eq] at hold
        split_ifs at hold
        · exact .inl hold
        · exact .inr (Option.some.inj hold ▸ List.mem_cons_self)
    · exact .inr (List.mem_cons_of_mem _ hnew)

/-- The loop keeps every entry up to an index as long as no new entry up to that index conflicts
with the log. -/
theorem entryAt_appendEntries_of_agree {log : List LogEntry} (h : WellFormed log) {idx : ℕ}
    {es : List LogEntry} (hes : Indexed idx es) (hidx : idx ≤ lastIndex log + 1) {i : ℕ}
    (hi : i ≤ lastIndex log)
    (hagree : ∀ e ∈ es, firstIndex log < e.index → e.index ≤ i → termAt log e.index = e.term) :
    ∀ j, j ≤ i → entryAt (appendEntries log idx es) j = entryAt log j := by
  induction es generalizing log idx with
  | nil => exact fun _ _ => rfl
  | cons e es ih =>
    obtain rfl := hes.head
    intro j hj
    have hle := le_lastIndex_appendEntry h hidx
    rcases appendEntry_cases h hidx with ⟨hk, hlast, -⟩ | ⟨hf, hne, hw⟩
    · show entryAt (appendEntries (appendEntry log e.index e) (e.index + 1) es) j = _
      rw [hk]
      exact ih h hes.tail (by omega) hi (fun e' he' => hagree e' (List.mem_cons_of_mem _ he')) j hj
    · -- the entry written here lies above `i`, and everything after it too
      have hlt : i < e.index := by
        by_contra hcon
        exact hne (by omega) (hagree e List.mem_cons_self hf (by omega))
      have := appended_appendEntries hw.wellFormed hes.tail (by omega)
      exact (this.below j (by omega)).trans (entryAt_appendEntry_lt h hidx (by omega))

theorem lastIndex_appendEntries_of_agree {log : List LogEntry} (h : WellFormed log) {idx : ℕ}
    {es : List LogEntry} (hes : Indexed idx es) (hidx : idx ≤ lastIndex log + 1) {i : ℕ}
    (hi : i ≤ lastIndex log)
    (hagree : ∀ e ∈ es, firstIndex log < e.index → e.index ≤ i → termAt log e.index = e.term) :
    i ≤ lastIndex (appendEntries log idx es) := by
  have ha := appended_appendEntries h hes hidx
  rcases Nat.lt_or_ge i (firstIndex log) with hlt | hge
  · have := ha.wellFormed.firstIndex_le_lastIndex
    rw [ha.firstIndex_eq] at this
    omega
  · obtain ⟨e, he⟩ := exists_entryAt hge hi
    rw [← entryAt_appendEntries_of_agree h hes hidx hi hagree i le_rfl] at he
    exact (entryAt_bounds he).2

end Driftless.Raft
