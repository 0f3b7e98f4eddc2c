import Driftless.Consensus.Basic
import Driftless.Raft.Log

/-!
# The whole log behind a compacted one

A node keeps the end of its log in memory, after a placeholder for what a snapshot covers.
`Window log full` says that `log` is what is in memory of the whole log `full`, whose entries are
numbered from one. Every helper on logs is described here by what it does to the whole log; for
rule 4 of `HandleAppendEntries` this is `accept` (`Window.appendEntries`).
-/

namespace Driftless.Raft

open Consensus

/-- `log` is the end of `full`, after a placeholder that stands for everything before. -/
structure Window (log full : List LogEntry) : Prop where
  wellFormed : WellFormed log
  indexed : Indexed 1 full
  lastIndex_eq : lastIndex log = full.length
  placeholder : ∃ e, entryAt log (firstIndex log) = some e ∧ e.command = none ∧
    e.term = lastTerm LogEntry.term (full.take (firstIndex log))
  entryAt_eq : ∀ idx, firstIndex log < idx → entryAt log idx = full[idx - 1]?

theorem Indexed.of_isPrefix {base : ℕ} {l l' : List LogEntry} (h : Indexed base l)
    (hp : l' <+: l) : Indexed base l' := by
  intro i e he
  obtain ⟨hi, rfl⟩ := List.getElem?_eq_some_iff.1 he
  refine h i _ ?_
  rw [hp.getElem hi]
  exact List.getElem?_eq_getElem _

theorem Indexed.drop {base : ℕ} {l : List LogEntry} (h : Indexed base l) (k : ℕ) :
    Indexed (base + k) (l.drop k) := by
  intro i e he
  rw [List.getElem?_drop] at he
  rw [h _ e he, Nat.add_assoc]

theorem Indexed.concat {l : List LogEntry} (h : Indexed 1 l) {e : LogEntry}
    (he : e.index = l.length + 1) : Indexed 1 (l ++ [e]) := by
  intro i e' hi
  rcases Nat.lt_or_ge i l.length with hlt | hge
  · rw [List.getElem?_append_left hlt] at hi
    exact h i e' hi
  · rw [List.getElem?_append_right hge, List.getElem?_singleton] at hi
    split_ifs at hi with hz
    obtain rfl := Option.some.inj hi
    omega

/-- A placeholder for all of `S`, as `HandleInstallSnapshot` leaves it. -/
theorem window_singleton {S : List LogEntry} (hS : Indexed 1 S) :
    Window [⟨lastTerm LogEntry.term S, S.length, none⟩] S where
  wellFormed := wellFormed_singleton _
  indexed := hS
  lastIndex_eq := rfl
  placeholder := ⟨_, (wellFormed_singleton _).entryAt_firstIndex, rfl, by
    show _ = lastTerm _ (S.take S.length)
    rw [List.take_length]
    rfl⟩
  entryAt_eq idx hlt := by
    have hlt : S.length < idx := hlt
    rw [entryAt_eq_none.2 (.inr hlt), List.getElem?_eq_none (by omega)]

theorem indexed_nil (base : ℕ) : Indexed base [] := by
  intro i e he
  simp at he

theorem window_dummy : Window [⟨0, 0, none⟩] [] := window_singleton (indexed_nil 1)

namespace Window

variable {log full : List LogEntry} (h : Window log full)
include h

theorem firstIndex_le : firstIndex log ≤ full.length :=
  h.wellFormed.firstIndex_le_lastIndex.trans h.lastIndex_eq.le

theorem termAt_eq {k : ℕ} (h₁ : firstIndex log ≤ k) (h₂ : k ≤ full.length) :
    termAt log k = lastTerm LogEntry.term (full.take k) := by
  rcases Nat.lt_or_eq_of_le h₁ with hlt | rfl
  · have hk : full[k - 1]? = some full[k - 1] := List.getElem?_eq_getElem (by omega)
    rw [termAt_of_entryAt ((h.entryAt_eq k hlt).trans hk), ← lastTerm_take LogEntry.term hk,
      Nat.sub_add_cancel (by omega)]
  · obtain ⟨e, he, -, ht⟩ := h.placeholder
    rw [termAt_of_entryAt he, ht]

theorem lastLogIndexAndTerm_eq :
    lastLogIndexAndTerm log = (full.length, lastTerm LogEntry.term full) := by
  have hterm := h.termAt_eq h.firstIndex_le le_rfl
  rw [List.take_length] at hterm
  rw [h.wellFormed.lastLogIndexAndTerm_eq, h.lastIndex_eq, hterm]

theorem entriesFrom_eq {next : ℕ} (h₁ : firstIndex log < next) (h₂ : next ≤ full.length + 1) :
    entriesFrom log next = full.drop (next - 1) := by
  have hl := h.lastIndex_eq
  simp only [entriesFrom, if_neg (Nat.not_le.2 h₁)]
  split_ifs with hgt
  · exact (List.drop_eq_nil_of_le (by omega)).symm
  · ext1 i
    have he := h.entryAt_eq (next + i) (by omega)
    rw [h.wellFormed.entryAt_eq, if_pos (by omega)] at he
    rw [List.getElem?_drop, List.getElem?_drop,
      show next - firstIndex log + i = next + i - firstIndex log by omega, he]
    congr 1
    omega

theorem concat {e : LogEntry} (he : e.index = full.length + 1) :
    Window (log ++ [e]) (full ++ [e]) := by
  have he' : e.index = lastIndex log + 1 := by rw [h.lastIndex_eq, he]
  have hf := firstIndex_append h.wellFormed.ne_nil [e]
  have hle := h.firstIndex_le
  have hlast := h.lastIndex_eq
  refine ⟨h.wellFormed.concat he', h.indexed.concat he, ?_, ?_, fun idx hlt => ?_⟩
  · rw [lastIndex_concat, he, List.length_append, List.length_singleton]
  · obtain ⟨x, hx, hc, ht⟩ := h.placeholder
    refine ⟨x, ?_, hc, ?_⟩
    · rw [hf, entryAt_concat h.wellFormed he', if_neg (by omega), hx]
    · rw [hf, ht, List.take_append_of_le_length hle]
  · rw [hf] at hlt
    rw [entryAt_concat h.wellFormed he', hlast]
    split_ifs with heq
    · rw [heq, Nat.add_sub_cancel, List.getElem?_concat_length]
    · rw [h.entryAt_eq idx hlt]
      rcases Nat.lt_or_ge idx (full.length + 1) with hin | hout
      · rw [List.getElem?_append_left (by omega)]
      · rw [List.getElem?_eq_none (by omega),
          List.getElem?_eq_none (by rw [List.length_append, List.length_singleton]; omega)]

/-- Compaction only moves the placeholder. -/
theorem compact {c : ℕ} (hc : c ≤ full.length) :
    Window (compactLogLocked log c (lastTerm LogEntry.term (full.take c))) full := by
  rcases Nat.lt_or_ge (firstIndex log) c with hlt | hge
  · have hw := h.wellFormed.compactLogLocked c (lastTerm LogEntry.term (full.take c))
    have hf : firstIndex (compactLogLocked log c (lastTerm LogEntry.term (full.take c))) = c := by
      rw [firstIndex_compactLogLocked, max_eq_right hlt.le]
    have hhead := headD_compactLogLocked (lastTerm LogEntry.term (full.take c)) hlt
    refine ⟨hw, h.indexed, ?_, ?_, fun idx hidx => ?_⟩
    · rw [lastIndex_compactLogLocked h.wellFormed, h.lastIndex_eq, max_eq_left hc]
    · refine ⟨_, hw.entryAt_firstIndex, ?_, ?_⟩
      · rw [hhead]
      · rw [hhead, hf]
    · rw [hf] at hidx
      rw [entryAt_compactLogLocked h.wellFormed c _ hidx, h.entryAt_eq idx (hlt.trans hidx)]
  · unfold compactLogLocked
    rwa [if_pos hge]

end Window

/-! ## Rule 4 of `HandleAppendEntries` on whole logs -/

/-- Prefixes of the same length that end in the same term are equal. -/
def Matches (full L : List LogEntry) : Prop :=
  ∀ k, k ≤ full.length → k ≤ L.length →
    lastTerm LogEntry.term (full.take k) = lastTerm LogEntry.term (L.take k) →
      full.take k = L.take k

theorem matches_take (L : List LogEntry) (q : ℕ) : Matches (L.take q) L := by
  intro k hk hkL _
  rw [List.take_take, min_eq_left]
  rw [List.length_take] at hk
  omega

/-- A prefix of `L` of length `q` in `full` is the prefix of `full` of that length. -/
theorem take_eq_of_isPrefix {full L : List LogEntry} {q : ℕ} (hq : q ≤ L.length)
    (hp : L.take q <+: full) : full.take q = L.take q := by
  rw [List.prefix_iff_eq_take.1 hp, List.length_take, min_eq_left hq]

section Accept

variable {log full L : List LogEntry} {q : ℕ}

theorem Window.of_writtenAt (h : Window log full) (hL : Indexed 1 L) {e : LogEntry}
    (he : L[q]? = some e) (hq : L.take q <+: full) {log' : List LogEntry}
    (hf : firstIndex log ≤ q) (hw : WrittenAt log (q + 1) e log') :
    Window log' (L.take (q + 1)) := by
  obtain ⟨hqL, -⟩ := List.getElem?_eq_some_iff.1 he
  have htake := take_eq_of_isPrefix hqL.le hq
  refine ⟨hw.wellFormed, hL.of_isPrefix (List.take_prefix _ _), ?_, ?_, fun j hj => ?_⟩
  · rw [hw.lastIndex_eq, List.length_take, min_eq_left hqL]
  · obtain ⟨x, hx, hc, ht⟩ := h.placeholder
    refine ⟨x, ?_, hc, ?_⟩
    · rw [hw.firstIndex_eq, hw.entryAt_eq, if_pos (by omega), hx]
    · have hfull : full.take (firstIndex log) = L.take (firstIndex log) := by
        rw [← min_eq_left hf, ← List.take_take, ← List.take_take, htake]
      rw [hw.firstIndex_eq, ht, hfull, List.take_take, min_eq_left (by omega)]
  · rw [hw.firstIndex_eq] at hj
    rw [hw.entryAt_eq, List.getElem?_take]
    rcases Nat.lt_trichotomy j (q + 1) with hlt | rfl | hgt
    · have hcongr := congrArg (fun l => l[j - 1]?) htake
      simp only [List.getElem?_take, if_pos (show j - 1 < q by omega)] at hcongr
      rw [if_pos hlt, if_pos (by omega), h.entryAt_eq j hj, hcongr]
    · rw [if_neg (lt_irrefl _), if_pos rfl, Nat.add_sub_cancel, if_pos (Nat.lt_succ_self q), he]
    · rw [if_neg (by omega), if_neg (by omega), if_neg (by omega)]

/-- One round of the loop: the log has the entry, or takes over the leader's log up to it. -/
theorem Window.appendEntry_cases (h : Window log full) (hL : Indexed 1 L) {e : LogEntry}
    (he : L[q]? = some e) (hq : L.take q <+: full) (hm : Matches full L)
    (hf : full.take (firstIndex log) <+: L ∨ L <+: full.take (firstIndex log)) :
    (appendEntry log (q + 1) e = log ∧ L.take (q + 1) <+: full) ∨
    (¬ L.take (q + 1) <+: full ∧ firstIndex log ≤ q ∧
      firstIndex (appendEntry log (q + 1) e) = firstIndex log ∧
      Window (appendEntry log (q + 1) e) (L.take (q + 1))) := by
  obtain ⟨hqL, -⟩ := List.getElem?_eq_some_iff.1 he
  have hidx : e.index = q + 1 := by rw [hL q e he, Nat.add_comm]
  have hlen : q ≤ full.length := by
    have := hq.length_le
    rwa [List.length_take, min_eq_left hqL.le] at this
  have hlast := h.lastIndex_eq
  have hterm := lastTerm_take LogEntry.term he
  have hcases := Raft.appendEntry_cases h.wellFormed (e := e) (by omega)
  rw [hidx] at hcases
  rcases hcases with ⟨hk, hle, ht⟩ | ⟨hlt, hne, hw⟩
  · refine .inl ⟨hk, ?_⟩
    rcases Nat.lt_or_ge (firstIndex log) (q + 1) with hlt | hge
    · have heq := hm (q + 1) (by omega) hqL
        (by rw [← h.termAt_eq hlt.le (by omega), ht hlt, hterm])
      rw [← heq]
      exact List.take_prefix _ _
    · rcases hf with hf | hf
      · -- the placeholder covers the entry
        refine (List.prefix_of_prefix_length_le (List.take_prefix _ _) hf ?_).trans
          (List.take_prefix _ _)
        rw [List.length_take, List.length_take, min_eq_left hqL, min_eq_left h.firstIndex_le]
        exact hge
      · exact (List.take_prefix _ _).trans (hf.trans (List.take_prefix _ _))
  · refine .inr ⟨fun hp => ?_, by omega, hw.firstIndex_eq, h.of_writtenAt hL he hq (by omega) hw⟩
    have hle : q + 1 ≤ full.length := by
      have := hp.length_le
      rwa [List.length_take, min_eq_left hqL] at this
    refine hne (by omega) ?_
    rw [h.termAt_eq hlt.le hle, take_eq_of_isPrefix hqL hp, hterm]

/-- **The loop of rule 4 takes over the leader's log**: if the whole log agrees with `L` up to the
first new entry, it accepts `L`. -/
theorem Window.appendEntries {es : List LogEntry} (h : Window log full) (hL : Indexed 1 L)
    (hes : L.drop q = es) (hq : L.take q <+: full) (hm : Matches full L)
    (hf : full.take (firstIndex log) <+: L ∨ L <+: full.take (firstIndex log)) :
    Window (appendEntries log (q + 1) es) (accept L full) := by
  induction es generalizing log full q with
  | nil =>
    rw [List.take_of_length_le (List.drop_eq_nil_iff.1 hes)] at hq
    rwa [accept_of_isPrefix hq]
  | cons e es ih =>
    have he : L[q]? = some e := by
      rw [← List.head?_drop, hes]
      rfl
    have hes' : L.drop (q + 1) = es := by
      rw [← List.tail_drop, hes]
      rfl
    show Window (Raft.appendEntries (appendEntry log (q + 1) e) (q + 1 + 1) es) (accept L full)
    rcases h.appendEntry_cases hL he hq hm hf with ⟨hk, hp⟩ | ⟨hp, hfq, hfirst, hw⟩
    · rw [hk]
      exact ih h hes' hp hm hf
    · have hLp : ¬ L <+: full := fun hL => hp ((List.take_prefix _ _).trans hL)
      have hih := ih hw hes' List.prefix_rfl (matches_take L (q + 1)) (.inl ?_)
      · rw [accept_of_isPrefix_left (List.take_prefix _ _)] at hih
        rwa [accept_of_not_isPrefix hLp]
      · exact (List.take_prefix _ _).trans (List.take_prefix _ _)

end Accept

end Driftless.Raft
