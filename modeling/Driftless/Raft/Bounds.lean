import Driftless.Raft.Cluster

/-!
# Accesses to the log

The log helpers of `raft/node.go` turn an index into an offset and read `logEntries` there, which
is in range only on logs with consecutive indices. The functions of `Checked` are the helpers with
slice expressions that fail out of range, as they panic in Go. On a well-formed log they do not fail
and compute what the functions of `Raft.Log` do (`inBounds_of_wellFormed`), and in every run of a
cluster that delivers its own requests, restarts included, the logs are well formed:
`logs_inBounds`.
-/

namespace Driftless.Raft

/-! ## Slices -/

namespace Slice

variable {α : Type*}

/-- `s[i]`. -/
def get (s : List α) (i : ℤ) : Option α := if 0 ≤ i then s[i.toNat]? else none

/-- `s[lo:]`. -/
def drop (s : List α) (lo : ℤ) : Option (List α) :=
  if 0 ≤ lo ∧ lo ≤ s.length then some (s.drop lo.toNat) else none

/-- `s[:hi]`, where `hi` is not beyond the length. -/
def take (s : List α) (hi : ℤ) : Option (List α) :=
  if 0 ≤ hi ∧ hi ≤ s.length then some (s.take hi.toNat) else none

theorem get_natCast (s : List α) (i : ℕ) : get s i = s[i]? := by
  simp [get]

theorem drop_natCast {s : List α} {lo : ℕ} (h : lo ≤ s.length) : drop s lo = some (s.drop lo) := by
  simp [drop, h]

theorem take_natCast {s : List α} {hi : ℕ} (h : hi ≤ s.length) : take s hi = some (s.take hi) := by
  simp [take, h]

end Slice

/-! ## The helpers, with their accesses -/

namespace Checked

variable (log : List LogEntry)

def firstIndex : Option ℤ := (Slice.get log 0).map fun e => (e.index : ℤ)

def lastIndex : Option ℤ := (Slice.get log (log.length - 1)).map fun e => (e.index : ℤ)

def lastLogIndexAndTerm : Option (ℕ × ℕ) :=
  (Slice.get log (log.length - 1)).map fun last => (last.index, last.term)

def termAt (idx : ℤ) : Option ℕ := do
  let first ← firstIndex log
  let last ← lastIndex log
  if idx < first ∨ idx > last then some 0
  else (Slice.get log (idx - first)).map LogEntry.term

def entryAt (idx : ℤ) : Option (Option LogEntry) := do
  let first ← firstIndex log
  let last ← lastIndex log
  if idx < first ∨ idx > last then some none
  else (Slice.get log (idx - first)).map some

def entriesFrom (idx : ℤ) : Option (List LogEntry) := do
  let first ← firstIndex log
  let last ← lastIndex log
  let idx := if idx ≤ first then first + 1 else idx
  if idx > last then some []
  -- `make` fails on a negative length
  else if log.length - (idx - first) < 0 then none
  else Slice.drop log (idx - first)

def truncateAt (idx : ℤ) : Option (List LogEntry) := do
  let first ← firstIndex log
  let last ← lastIndex log
  if idx ≤ first then some log
  else if idx > last then some log
  else Slice.take log (idx - first)

def compactLogLocked (upToIdx upToTerm : ℕ) : Option (List LogEntry) := do
  let first ← firstIndex log
  let last ← lastIndex log
  if upToIdx ≤ first then some log
  else if upToIdx ≥ last then some [⟨upToTerm, upToIdx, none⟩]
  else (Slice.drop log (upToIdx - first + 1)).map fun tail => ⟨upToTerm, upToIdx, none⟩ :: tail

def appendEntry (idx : ℕ) (e : LogEntry) : Option (List LogEntry) := do
  let first ← firstIndex log
  if idx ≤ first then some log
  else
    match ← entryAt log idx with
    | none => some (log ++ [e])
    | some existing =>
      if existing.term ≠ e.term then (truncateAt log idx).map fun l => l ++ [e] else some log

/-- Rule 4's loop in `HandleAppendEntries`. -/
def appendEntries (log : List LogEntry) (idx : ℕ) : List LogEntry → Option (List LogEntry)
  | [] => some log
  | e :: es => (appendEntry log idx e).bind fun l => appendEntries l (idx + 1) es

end Checked

/-- Every access of the log helpers is in range, whatever the index they are called with, and they
return what the functions of the model do. -/
structure InBounds (log : List LogEntry) : Prop where
  firstIndex : Checked.firstIndex log = some ↑(firstIndex log)
  lastIndex : Checked.lastIndex log = some ↑(lastIndex log)
  lastLogIndexAndTerm : Checked.lastLogIndexAndTerm log = some (lastLogIndexAndTerm log)
  termAt : ∀ idx : ℕ, Checked.termAt log idx = some (termAt log idx)
  entryAt : ∀ idx : ℕ, Checked.entryAt log idx = some (entryAt log idx)
  entriesFrom : ∀ idx : ℕ, Checked.entriesFrom log idx = some (entriesFrom log idx)
  truncateAt : ∀ idx : ℕ, Checked.truncateAt log idx = some (truncateAt log idx)
  compactLogLocked : ∀ upToIdx upToTerm,
    Checked.compactLogLocked log upToIdx upToTerm = some (compactLogLocked log upToIdx upToTerm)

/-- The checks of the helpers, on natural numbers. -/
theorem outside_iff (log : List LogEntry) (idx : ℕ) :
    ((idx : ℤ) < firstIndex log ∨ (idx : ℤ) > lastIndex log) ↔
      (idx < firstIndex log ∨ idx > lastIndex log) := by
  omega

section WellFormed

variable {log : List LogEntry} (h : WellFormed log)
include h

theorem checked_firstIndex : Checked.firstIndex log = some ↑(firstIndex log) := by
  obtain ⟨e, l, rfl⟩ := List.exists_cons_of_ne_nil h.ne_nil
  simp [Checked.firstIndex, Slice.get]

theorem slice_get_last : Slice.get log (log.length - 1) = some (log.getLastD default) := by
  have hpos := h.length_pos
  rw [show (log.length : ℤ) - 1 = ((log.length - 1 : ℕ) : ℤ) by omega, Slice.get_natCast]
  exact h.getLastD_eq

theorem checked_lastIndex : Checked.lastIndex log = some ↑(lastIndex log) := by
  simp [Checked.lastIndex, slice_get_last h, lastIndex]

/-- An index of the log is a valid offset. -/
theorem slice_get_index {idx : ℕ} (h₁ : firstIndex log ≤ idx) (h₂ : idx ≤ lastIndex log) :
    Slice.get log (idx - firstIndex log) = some (log.getD (idx - firstIndex log) default) := by
  have hlast := h.lastIndex_succ
  have hlt : idx - firstIndex log < log.length := by omega
  rw [show (idx : ℤ) - firstIndex log = ((idx - firstIndex log : ℕ) : ℤ) by omega,
    Slice.get_natCast, List.getD_eq_getElem _ _ hlt, List.getElem?_eq_getElem hlt]

theorem checked_termAt (idx : ℕ) : Checked.termAt log idx = some (termAt log idx) := by
  simp only [Checked.termAt, checked_firstIndex h, checked_lastIndex h, Option.bind_eq_bind,
    Option.bind_some, outside_iff, termAt]
  split_ifs with ho
  · rfl
  · rw [slice_get_index h (by omega) (by omega)]
    rfl

theorem checked_entryAt (idx : ℕ) : Checked.entryAt log idx = some (entryAt log idx) := by
  simp only [Checked.entryAt, checked_firstIndex h, checked_lastIndex h, Option.bind_eq_bind,
    Option.bind_some, outside_iff, entryAt]
  split_ifs with ho
  · rfl
  · rw [slice_get_index h (by omega) (by omega)]
    rfl

theorem checked_truncateAt (idx : ℕ) : Checked.truncateAt log idx = some (truncateAt log idx) := by
  have hlen := h.lastIndex_succ
  simp only [Checked.truncateAt, checked_firstIndex h, checked_lastIndex h, Option.bind_eq_bind,
    Option.bind_some, Int.ofNat_le, gt_iff_lt, Int.ofNat_lt, truncateAt]
  split_ifs with h₁ h₂
  · rfl
  · rfl
  · rw [show (idx : ℤ) - firstIndex log = ((idx - firstIndex log : ℕ) : ℤ) by omega]
    exact Slice.take_natCast (by omega)

theorem checked_entriesFrom (idx : ℕ) :
    Checked.entriesFrom log idx = some (entriesFrom log idx) := by
  have hlen := h.lastIndex_succ
  have hclamp : (if (idx : ℤ) ≤ firstIndex log then (firstIndex log : ℤ) + 1 else idx) =
      ((if idx ≤ firstIndex log then firstIndex log + 1 else idx : ℕ) : ℤ) := by
    split_ifs <;> omega
  have hlt : firstIndex log < if idx ≤ firstIndex log then firstIndex log + 1 else idx := by
    split_ifs <;> omega
  simp only [Checked.entriesFrom, checked_firstIndex h, checked_lastIndex h, Option.bind_eq_bind,
    Option.bind_some, hclamp, gt_iff_lt, Int.ofNat_lt, entriesFrom]
  generalize (if idx ≤ firstIndex log then firstIndex log + 1 else idx) = start at hlt ⊢
  split_ifs with h₁ h₂
  · rfl
  · omega
  · rw [show (start : ℤ) - firstIndex log = ((start - firstIndex log : ℕ) : ℤ) by omega]
    exact Slice.drop_natCast (by omega)

theorem checked_compactLogLocked (c t : ℕ) :
    Checked.compactLogLocked log c t = some (compactLogLocked log c t) := by
  have hlen := h.lastIndex_succ
  simp only [Checked.compactLogLocked, checked_firstIndex h, checked_lastIndex h,
    Option.bind_eq_bind, Option.bind_some, Int.ofNat_le, ge_iff_le, compactLogLocked]
  split_ifs with h₁ h₂
  · rfl
  · rfl
  · rw [show (c : ℤ) - firstIndex log + 1 = ((c - firstIndex log + 1 : ℕ) : ℤ) by omega,
      Slice.drop_natCast (by omega)]
    rfl

/-- On a log with consecutive indices no access is out of range. -/
theorem inBounds_of_wellFormed : InBounds log where
  firstIndex := checked_firstIndex h
  lastIndex := checked_lastIndex h
  lastLogIndexAndTerm := by
    simp [Checked.lastLogIndexAndTerm, slice_get_last h, lastLogIndexAndTerm]
  termAt := checked_termAt h
  entryAt := checked_entryAt h
  entriesFrom := checked_entriesFrom h
  truncateAt := checked_truncateAt h
  compactLogLocked := checked_compactLogLocked h

theorem checked_appendEntry (idx : ℕ) (e : LogEntry) :
    Checked.appendEntry log idx e = some (appendEntry log idx e) := by
  simp only [Checked.appendEntry, checked_firstIndex h, Option.bind_eq_bind, Option.bind_some,
    Int.ofNat_le, appendEntry]
  split_ifs with h₁
  · rfl
  · rw [checked_entryAt h, Option.bind_some]
    cases entryAt log idx with
    | none => rfl
    | some existing =>
      simp only [checked_truncateAt h, Option.map_some]
      split_ifs <;> rfl

end WellFormed

/-- The loop keeps the log well formed, so that the next round is in range as well. -/
theorem checked_appendEntries {log : List LogEntry} (h : WellFormed log) {idx : ℕ}
    {es : List LogEntry} (hes : Indexed idx es) (hidx : idx ≤ lastIndex log + 1) :
    Checked.appendEntries log idx es = some (appendEntries log idx es) := by
  induction es generalizing log idx with
  | nil => rfl
  | cons e es ih =>
    obtain rfl := hes.head
    rw [Checked.appendEntries, checked_appendEntry h, Option.bind_some]
    exact ih (h.appendEntry hidx) hes.tail (Nat.succ_le_succ (le_lastIndex_appendEntry h hidx))

/-! ## The runs of a cluster -/

/-- The entries after an index above the placeholder carry the indices from it on. -/
theorem indexed_entriesFrom {log : List LogEntry} (h : WellFormed log) {idx : ℕ}
    (hidx : firstIndex log < idx) : Indexed idx (entriesFrom log idx) := by
  intro i e he
  simp only [entriesFrom, if_neg (Nat.not_le.2 hidx)] at he
  split_ifs at he with hlast
  · simp at he
  · rw [List.getElem?_drop] at he
    have := h.index_eq _ _ he
    omega

theorem Node.sendAppend_wellFormed {n n' : Node} {p : String} {args : AppendEntriesArgs}
    (h : WellFormed n.logEntries) (hs : n.sendAppend p = (n', .append args)) :
    args.WellFormed := by
  obtain ⟨-, next, hlt, -, rfl⟩ := n.sendAppend_spec hs
  have hnext : next - 1 + 1 = next := by omega
  show Indexed (next - 1 + 1) _
  rw [hnext]
  exact indexed_entriesFrom h hlt

/-- An AppendEntries for the member `i` that some member sent. -/
def RequestSent (h : List (String × Output)) (i : String) (args : AppendEntriesArgs) : Prop :=
  ∃ o ∈ h, o.2 = .appendEntries i args

/-- Log entries and snapshots reach a member in requests that were sent to it, any time and any
number of times. Nothing is asked of votes and replies, and a member may crash at any time. -/
def Transported (h : List (String × Output)) (i : String) : Event → Prop
  | .handleAppendEntries args => RequestSent h i args
  | .handleInstallSnapshot args => ∃ o ∈ h, o.2 = .installSnapshot i args
  | _ => True

instance (h : List (String × Output)) (i : String) (args : AppendEntriesArgs) :
    Decidable (RequestSent h i args) :=
  inferInstanceAs (Decidable (∃ o ∈ h, o.2 = .appendEntries i args))

instance (h : List (String × Output)) (i : String) (ev : Event) :
    Decidable (Transported h i ev) := by
  rcases ev <;> dsimp only [Transported] <;> infer_instance

/-- The logs and the requests of a cluster keep their indices consecutive, and no access to a log
is out of range: neither in the helpers nor in rule 4's loop for a request that gets there. -/
structure LogsInBounds (c : Cluster) (h : List (String × Output)) : Prop where
  wellFormed : ∀ i, WellFormed (c i).node.logEntries
  requests : ∀ i args, RequestSent h i args → args.WellFormed
  accesses : ∀ i, InBounds (c i).node.logEntries
  loop : ∀ i args, RequestSent h i args → Node.Consistent (c i).node.logEntries args →
    Checked.appendEntries (c i).node.logEntries (args.prevLogIndex + 1) args.entries =
      some (appendEntries (c i).node.logEntries (args.prevLogIndex + 1) args.entries)

theorem LogsInBounds.of_wellFormed {c : Cluster} {h : List (String × Output)}
    (hwf : ∀ i, WellFormed (c i).node.logEntries)
    (hreq : ∀ i args, RequestSent h i args → args.WellFormed) : LogsInBounds c h where
  wellFormed := hwf
  requests := hreq
  accesses i := inBounds_of_wellFormed (hwf i)
  loop i args hs hc := checked_appendEntries (hwf i) (hreq i args hs) (Nat.succ_le_succ hc.1)

/-- What a step sends has consecutive indices. -/
theorem Server.Step.sends_wellFormed {s s' : Server} {ev : Event} {out : List Output}
    (hs : Server.Step s ev s' out) (hwf : WellFormed s.node.logEntries) {dst : String}
    {args : AppendEntriesArgs} (hm : .appendEntries dst args ∈ out) : args.WellFormed := by
  cases hs with
  | sendAppend p n args' hr hi hp hl hsend =>
    simp only [List.mem_singleton, Output.appendEntries.injEq] at hm
    obtain ⟨-, rfl⟩ := hm
    exact Node.sendAppend_wellFormed hwf hsend
  | applyCall idx entry waiter ha =>
    split_ifs at hm <;> simp at hm
  | _ => simp at hm

theorem Transported.carriesIndexed {h : List (String × Output)} {i : String} {ev : Event}
    (ht : Transported h i ev) (hreq : ∀ i args, RequestSent h i args → args.WellFormed) :
    Server.CarriesIndexed ev := by
  cases ev with
  | handleAppendEntries args => exact hreq i args ht
  | _ => trivial

theorem LogsInBounds.step {c c' : Cluster} {h out : List (String × Output)} {x : String × Event}
    (hi : LogsInBounds c h) (hok : Transported h x.1 x.2) (hs : c.step x = some (c', out)) :
    LogsInBounds c' (h ++ out) := by
  obtain ⟨s', o, hstep, rfl, rfl⟩ := Cluster.step_eq hs
  refine .of_wellFormed (fun j => ?_) ?_
  · by_cases hj : j = x.1
    · subst hj
      rw [Function.update_self]
      exact hstep.wellFormed (hi.wellFormed x.1) (hok.carriesIndexed hi.requests)
    · rw [Function.update_of_ne hj]
      exact hi.wellFormed j
  · rintro j args ⟨⟨q, o'⟩, hm, rfl⟩
    rcases List.mem_append.1 hm with hold | hnew
    · exact hi.requests j args ⟨_, hold, rfl⟩
    · obtain ⟨o'', ho, heq⟩ := List.mem_map.1 hnew
      obtain ⟨-, rfl⟩ : x.1 = q ∧ o'' = .appendEntries j args := by
        rw [Prod.mk.injEq] at heq
        exact heq
      exact hstep.sends_wellFormed (hi.wellFormed x.1) ho

/-- **The representation of the log**: in every run of a cluster, whatever snapshots its members
start from, whose members receive only requests that were sent to them. -/
theorem logs_inBounds {peers : String → List String} {sm : String → StateMachineKind}
    {store : String → Option RaftSnapshot} {c : Cluster} {h : List (String × Output)}
    (r : Run Cluster.step (fun _ h x => Transported h x.1 x.2)
      (fun i => Server.boot i (peers i) (sm i) (store i)) [] c h) : LogsInBounds c h := by
  refine r.invariant (I := LogsInBounds) ?_ fun c h x c' out hi hok hs => hi.step hok hs
  refine .of_wellFormed (fun i => Server.wellFormed_boot _ _ _ _) ?_
  rintro i args ⟨o, ho, -⟩
  cases ho

/-- `"a"` is elected and replicates an entry, `"b"` receives the request twice; `"a"` takes a
snapshot, proposes again and crashes. -/
theorem logs_inBounds_of_restart : ∃ c h,
    Run Cluster.step (fun _ h x => Transported h x.1 x.2)
      (fun i => Server.boot i (["a", "b", "c"].erase i) .snapshotable none) [] c h ∧
    ((c "b").node.logEntries.map LogEntry.index = [0, 1] ∧
      (c "a").node.logEntries.map LogEntry.index = [1]) ∧ LogsInBounds c h := by
  obtain ⟨c, h, r, hc⟩ := exists_run_of_exec Cluster.step (fun _ h x => Transported h x.1 x.2)
    (fun i => Server.boot i (["a", "b", "c"].erase i) .snapshotable none) []
    ((electedIn 1 "b" "c").map (Prod.mk "a") ++ [("a", .propose (some [7])), ("a", .sendAppend "b"),
      ("b", .handleAppendEntries ⟨1, "a", 0, 0, [⟨1, 1, some [7]⟩], 0⟩),
      ("b", .handleAppendEntries ⟨1, "a", 0, 0, [⟨1, 1, some [7]⟩], 0⟩),
      ("a", .appendReply "b" ⟨1, "a", 0, 0, [⟨1, 1, some [7]⟩], 0⟩ ⟨1, true⟩)] ++
      [.applyWake, .applyRead, .applyCall, .applyWrite, .applyNotify, .beginSnapshot,
        .serialize (some [1]), .saveSnapshot true, .propose (some [8]), .finishSnapshot,
        .restart].map (Prod.mk "a"))
    (fun c _ => (c "b").node.logEntries.map LogEntry.index = [0, 1] ∧
      (c "a").node.logEntries.map LogEntry.index = [1]) (by decide +kernel)
  exact ⟨c, h, r, hc, logs_inBounds r⟩

end Driftless.Raft
