import Mathlib.Data.List.Perm.Basic
import Driftless.Chunks
import Driftless.Lincheck.Main
import Driftless.Pipeline.Recovery

/-!
# The scans after an experiment

`dup_scan.py` and `divergence_scan.py` read the ids of the submitted tasks out of the history and
fetch their items, a hundred at a time. `BatchGetItem` may leave keys unprocessed, which are asked
for again until none is left. Under what it promises of requests of up to 100 different keys
(`Serves`) every loop ends, and each item is seen once (`fetch_eq`). Hence the scans are exact, and
what they say about the pipeline can be relied on: a task reported as stuck in `ASSIGNED` still has
its message on the queue (`divergenceScan_exact`), and a task reported as a duplicate was delivered
to workers more than once (`dupScan_exact`).
-/

namespace Driftless.Scan

open Pipeline Lincheck

/-! ## Fetching items -/

abbrev Tasks := AList fun _ : String => TaskItem

/-- A response of `batch_get_item`. -/
structure Response where
  items : List (String × TaskItem)
  unprocessed : List String

/-- The responses to the calls of `batch_get_item`, `none` where it raises an exception. -/
abbrev Dynamo := ℕ → List String → Option Response

/-- The item of a task, with its id. -/
def found (tasks : Tasks) (taskID : String) : Option (String × TaskItem) :=
  (tasks.lookup taskID).map (Prod.mk taskID)

/-- `batch_get_item` takes up to 100 keys, all different. It gets to one of them at least, and
returns the items of those it got to, in any order. -/
def Serves (db : Dynamo) (tasks : Tasks) : Prop :=
  ∀ n keys, keys ≠ [] → keys.Nodup → keys.length ≤ 100 →
    ∃ r processed, db n keys = some r ∧ processed ≠ [] ∧ (processed ++ r.unprocessed).Perm keys ∧
      r.items.Perm (processed.filterMap (found tasks))

section Fetch

variable {σ : Type} (visit : σ → String × TaskItem → σ) (db : Dynamo)

/-- The loop that drains `UnprocessedKeys`, with the number of calls made. -/
def drain : ℕ → ℕ × σ → List String → Option (ℕ × σ)
  | _, x, [] => some x
  | 0, _, _ :: _ => none
  | fuel + 1, (n, acc), key :: keys =>
    match db n (key :: keys) with
    | some r => drain fuel (n + 1, r.items.foldl visit acc) r.unprocessed
    | none => none

/-- The loop over the chunks. -/
def fetch (fuel : ℕ) (init : σ) (taskIDs : List String) : Option σ :=
  ((chunks 100 taskIDs).foldlM (drain visit db fuel) (0, init)).map Prod.snd

variable {db} {tasks : Tasks}

/-- Each item of a chunk is visited once. -/
theorem drain_eq (hdb : Serves db tasks) {fuel : ℕ} {keys : List String} (hnd : keys.Nodup)
    (hlen : keys.length ≤ 100) (hf : keys.length ≤ fuel) (n : ℕ) (acc : σ) :
    ∃ (m : ℕ) (items : List (String × TaskItem)),
      drain visit db fuel (n, acc) keys = some (m, items.foldl visit acc) ∧
      items.Perm (keys.filterMap (found tasks)) := by
  induction fuel generalizing keys n acc with
  | zero =>
    obtain rfl := List.length_eq_zero_iff.1 (Nat.le_zero.1 hf)
    exact ⟨n, [], rfl, .refl _⟩
  | succ fuel ih =>
    cases keys with
    | nil => exact ⟨n, [], rfl, .refl _⟩
    | cons key keys =>
      obtain ⟨r, processed, hr, hne, hperm, hitems⟩ := hdb n (key :: keys) (by simp) hnd hlen
      -- a call gets to one key at least, so fewer are left
      have hlt : r.unprocessed.length < (key :: keys).length := by
        rw [← hperm.length_eq, List.length_append]
        have := List.length_pos_iff.2 hne
        omega
      have hnd' : r.unprocessed.Nodup :=
        (hperm.nodup_iff.2 hnd).sublist (List.sublist_append_right _ _)
      obtain ⟨m, items, heq, hrest⟩ := ih hnd' (by omega) (by omega) (n + 1)
        (r.items.foldl visit acc)
      refine ⟨m, r.items ++ items, ?_, ?_⟩
      · simp only [drain, hr, List.foldl_append]
        exact heq
      · refine (hitems.append hrest).trans ?_
        rw [← List.filterMap_append]
        exact hperm.filterMap _

/-- The chunks one after the other. -/
theorem foldlM_drain_eq (hdb : Serves db tasks) {fuel : ℕ} (hf : 100 ≤ fuel)
    {cs : List (List String)} (hcs : ∀ c ∈ cs, c.Nodup ∧ c.length ≤ 100) (n : ℕ) (acc : σ) :
    ∃ (m : ℕ) (items : List (String × TaskItem)),
      cs.foldlM (drain visit db fuel) (n, acc) = some (m, items.foldl visit acc) ∧
      items.Perm (cs.flatten.filterMap (found tasks)) := by
  induction cs generalizing n acc with
  | nil => exact ⟨n, [], rfl, .refl _⟩
  | cons c cs ih =>
    obtain ⟨hnd, hlen⟩ := hcs c (by simp)
    obtain ⟨m, items, heq, hperm⟩ := drain_eq visit hdb hnd hlen (hlen.trans hf) n acc
    obtain ⟨m', items', heq', hperm'⟩ := ih (fun c hc => hcs c (by simp [hc])) m
      (items.foldl visit acc)
    refine ⟨m', items ++ items', ?_, ?_⟩
    · simp only [List.foldlM_cons, heq, Option.bind_eq_bind, Option.bind_some, List.foldl_append]
      exact heq'
    · rw [List.flatten_cons, List.filterMap_append]
      exact hperm.append hperm'

/-- **Each item is visited once**, whatever is left unprocessed on the way. -/
theorem fetch_eq (hdb : Serves db tasks) {fuel : ℕ} (hf : 100 ≤ fuel) {taskIDs : List String}
    (hnd : taskIDs.Nodup) (init : σ) : ∃ items : List (String × TaskItem),
      fetch visit db fuel init taskIDs = some (items.foldl visit init) ∧
        items.Perm (taskIDs.filterMap (found tasks)) := by
  have hflat := flatten_chunks (n := 100) (by decide) taskIDs
  have hcs : ∀ c ∈ chunks 100 taskIDs, c.Nodup ∧ c.length ≤ 100 := by
    intro c hc
    rw [← hflat] at hnd
    exact ⟨hnd.sublist (List.sublist_flatten_of_mem hc), length_le_of_mem_chunks hc⟩
  obtain ⟨m, items, heq, hperm⟩ := foldlM_drain_eq visit hdb hf hcs 0 init
  rw [hflat] at hperm
  exact ⟨items, by rw [fetch, heq, Option.map_some], hperm⟩

end Fetch

/-! ## The submitted tasks -/

/-- `_task_ids_from_history`, with the set `seen`. -/
def addTaskID (x : List String × Finset String) (ev : RawEvent) : List String × Finset String :=
  if ev.op ≠ "submit" then x
  else if ev.taskID ≠ "" ∧ ev.taskID ∉ x.2 then (x.1 ++ [ev.taskID], insert ev.taskID x.2)
  else x

def taskIDsFromHistory (history : List RawEvent) : List String :=
  (history.foldl addTaskID ([], ∅)).1

theorem nodup_taskIDsFromHistory (history : List RawEvent) :
    (taskIDsFromHistory history).Nodup := by
  -- `seen` holds what is in the list
  suffices h : ∀ x : List String × Finset String, x.1.Nodup → (∀ t, t ∈ x.1 ↔ t ∈ x.2) →
      (history.foldl addTaskID x).1.Nodup from h ([], ∅) List.nodup_nil (by simp)
  induction history with
  | nil => exact fun x hnd _ => hnd
  | cons ev history ih =>
    intro x hnd hseen
    rw [List.foldl_cons]
    unfold addTaskID
    split_ifs with hop hnew
    · exact ih x hnd hseen
    · refine ih _ ?_ fun t => ?_
      · exact hnd.append (List.nodup_singleton _) (by simpa [hseen] using hnew.2)
      · simp [hseen, or_comm]
    · exact ih x hnd hseen

/-! ## Duplicates -/

structure DupScanResult where
  totalScanned : ℕ
  duplicateCount : ℕ
  duplicateTaskIDs : List String
  maxReceiveCount : ℕ
  deriving DecidableEq, Repr

/-- What the loop does with an item: `dup_ids` and `max_rc`. -/
def visitDup (x : List String × ℕ) (item : String × TaskItem) : List String × ℕ :=
  match item.2.receiveCount with
  | none => x
  | some rc => (if rc > 1 then x.1 ++ [item.1] else x.1, if rc > x.2 then rc else x.2)

/-- `scan` of `dup_scan.py`. -/
def dupScan (db : Dynamo) (fuel : ℕ) (history : List RawEvent) : Option DupScanResult :=
  let taskIDs := taskIDsFromHistory history
  (fetch visitDup db fuel ([], 0) taskIDs).map fun x =>
    ⟨taskIDs.length, x.1.length, x.1, x.2⟩

/-! ## Divergence -/

structure DivergenceScanResult where
  totalScanned : ℕ
  stuckPending : ℕ
  stuckAssigned : ℕ
  missing : ℕ
  stuckPendingSample : List String
  stuckAssignedSample : List String
  missingSample : List String
  deriving DecidableEq, Repr

section Collect

variable {tasks : Tasks}

/-- The items with a property, by the ids they are stored under. -/
theorem map_fst_filter_found (p : TaskItem → Bool) (taskIDs : List String) :
    ((taskIDs.filterMap (found tasks)).filter fun item => p item.2).map Prod.fst =
      taskIDs.filter fun t => (tasks.lookup t).any p := by
  induction taskIDs with
  | nil => rfl
  | cons t taskIDs ih =>
    cases hl : tasks.lookup t with
    | none => simpa [found, hl] using ih
    | some item => cases hp : p item <;> simpa [found, hl, hp] using ih

theorem foldl_visitDup (items : List (String × TaskItem)) (x : List String × ℕ) :
    items.foldl visitDup x =
      (x.1 ++ (items.filter fun item => 1 < item.2.receiveCount.getD 0).map Prod.fst,
       (items.map fun item => item.2.receiveCount.getD 0).foldl max x.2) := by
  induction items generalizing x with
  | nil => simp
  | cons item items ih =>
    rw [List.foldl_cons, ih]
    obtain ⟨t, item⟩ := item
    cases hrc : item.receiveCount with
    | none => simp [visitDup, hrc]
    | some rc =>
      have hmax : (if rc > x.2 then rc else x.2) = max x.2 rc := by
        split_ifs <;> omega
      by_cases hdup : 1 < rc <;> simp [visitDup, hrc, hdup, hmax]

variable {st : Store}

/-- A property that an item without attributes does not have. -/
theorem any_lookup {p : TaskItem → Bool} (hp : p .blank = false) (t : String) :
    (st.tasks.lookup t).any p = p (st.item t) := by
  cases hl : st.tasks.lookup t <;> simp [Store.item, hl, hp]

theorem foldl_max_found (taskIDs : List String) (m : ℕ) :
    ((taskIDs.filterMap (found st.tasks)).map fun item => item.2.receiveCount.getD 0).foldl max m =
      (taskIDs.map fun t => (st.item t).receiveCount.getD 0).foldl max m := by
  induction taskIDs generalizing m with
  | nil => rfl
  | cons t taskIDs ih =>
    cases hl : st.tasks.lookup t with
    | none => simpa [found, hl, Store.item, TaskItem.blank] using ih m
    | some item => simpa [found, hl, Store.item] using ih _

end Collect

/-! ## Deliveries -/

/-- A worker that received the task and is past `incrementReceiveCount`. -/
def counts (t : String) (c : WorkerCall) : Bool := c.assignment.taskID = t ∧ c.stage ≠ .received

/-- The count of an item is at most the number of workers that have received the task. -/
def Counted (s : System) : Prop :=
  ∀ t, (s.store.item t).receiveCount.getD 0 ≤ s.workers.countP (counts t)

section Step

variable {json : Json} {s s' : System} {ev : Pipeline.Event}
  {out : List (String × Dispatch.Output)}

theorem receiveCount_perform (st : Store) (w : Write) (r : CallResult) (t : String) :
    ((st.perform w r).1.item t).receiveCount.getD 0 ≤
      (st.item t).receiveCount.getD 0 + if w = .incrementReceiveCount t then 1 else 0 := by
  rcases st.perform_cases w r with he | ⟨-, -, he⟩
  · rw [he]
    exact Nat.le_add_right _ _
  · rw [he]
    by_cases hw : w.task = some t
    · cases w <;> cases hw <;> simp [Store.write]
    · rw [Store.item_write_ne hw]
      exact Nat.le_add_right _ _

/-- A worker counts a message once, as its first step. -/
theorem step_receiveCount {c : WorkerCall} {st st' : Store} {r : CallResult}
    {err : String} {stage : WorkerStage} (hs : c.step st r err = some (st', stage)) (t : String) :
    stage ≠ .received ∧ (st'.item t).receiveCount.getD 0 ≤ (st.item t).receiveCount.getD 0 +
      if c.stage = .received ∧ c.assignment.taskID = t then 1 else 0 := by
  have hkeep : ∀ w, w ≠ .incrementReceiveCount t → ((st.perform w r).1.item t).receiveCount.getD 0 ≤
      (st.item t).receiveCount.getD 0 + if c.stage = .received ∧ c.assignment.taskID = t then 1
        else 0 := by
    intro w hw
    have hle := receiveCount_perform st w r t
    rw [if_neg hw] at hle
    exact hle.trans (Nat.le_add_right _ _)
  unfold WorkerCall.step at hs
  split at hs
  next hst =>
    cases hs
    have hle := receiveCount_perform st (.incrementReceiveCount c.assignment.taskID) r t
    simpa [hst] using hle
  next =>
    cases hs
    exact ⟨by split_ifs <;> simp, hkeep _ (by simp)⟩
  next =>
    split at hs <;> cases hs <;> exact ⟨by simp, Nat.le_add_right _ _⟩
  next =>
    cases hs
    exact ⟨by split_ifs <;> simp, Nat.le_add_right _ _⟩
  next =>
    cases hs
    exact ⟨by split_ifs <;> simp, hkeep _ (by simp)⟩
  next =>
    cases hs
    exact ⟨by split_ifs <;> simp, hkeep _ (by simp)⟩
  next =>
    cases hs
    exact ⟨by simp, hkeep _ (by simp)⟩
  next =>
    cases hs
    exact ⟨by simp, Nat.le_add_right _ _⟩
  next => cases hs
  next => cases hs

theorem Counted.step (hi : Counted s) (hs : System.Step json s ev s' out) : Counted s' := by
  intro t
  have hkeep : ∀ w r, w ≠ .incrementReceiveCount t →
      ((s.store.perform w r).1.item t).receiveCount.getD 0 ≤ s.workers.countP (counts t) := by
    intro w r hw
    have hle := receiveCount_perform s.store w r t
    rw [if_neg hw] at hle
    exact hle.trans (hi t)
  cases hs with
  | submitCall k r c _ hk hstep =>
    unfold System.stepSubmit at hstep
    split at hstep <;> cases hstep
    next => exact hkeep _ r (by simp)
    next => exact hkeep _ r (by simp)
    next => exact hi t
  | markAssigned k r taskID hk => exact hkeep _ r (by simp)
  | receive workerID body a ha =>
    rw [List.countP_append]
    exact (hi t).trans (Nat.le_add_right _ _)
  | work k r err c st stage hk hstep =>
    obtain ⟨hstage, hle⟩ := step_receiveCount hstep t
    obtain ⟨hlt, hget⟩ := List.getElem?_eq_some_iff.1 hk
    have hold := hi t
    rw [List.countP_set hlt, hget]
    by_cases ht : c.assignment.taskID = t
    · by_cases hst : c.stage = .received
      · simp only [ht, hst, and_self, if_true] at hle
        simp only [counts, ht, hst, hstage, ne_eq, not_true, not_false_eq_true, and_false, and_self,
          decide_false, decide_true, Bool.false_eq_true, if_false, if_true]
        omega
      · have hpos : 0 < s.workers.countP (counts t) :=
          List.countP_pos_iff.2 ⟨c, List.mem_of_getElem? hk, by simp [counts, ht, hst]⟩
        simp only [hst, false_and, if_false] at hle
        simp only [counts, ht, hst, hstage, ne_eq, not_false_eq_true, and_self, decide_true,
          if_true]
        omega
    · simp only [ht, and_false, if_false] at hle
      simpa [counts, ht] using hle.trans hold
  | _ => exact hi t

end Step

/-! ## The scans are exact -/

/-- What `dup_scan.py` is meant to report. -/
structure DupScanResult.Exact (st : Store) (taskIDs : List String) (res : DupScanResult) :
    Prop where
  total : res.totalScanned = taskIDs.length
  duplicates : res.duplicateTaskIDs.Perm
    (taskIDs.filter fun t => 1 < (st.item t).receiveCount.getD 0)
  count : res.duplicateCount = res.duplicateTaskIDs.length
  max : res.maxReceiveCount = (taskIDs.map fun t => (st.item t).receiveCount.getD 0).foldl max 0

/-- What `divergence_scan.py` is meant to report. -/
structure DivergenceScanResult.Exact (st : Store) (taskIDs : List String)
    (res : DivergenceScanResult) : Prop where
  total : res.totalScanned = taskIDs.length
  pending : res.stuckPendingSample.Perm
    (taskIDs.filter fun t => (st.item t).status = some .pending)
  assigned : res.stuckAssignedSample.Perm
    (taskIDs.filter fun t => (st.item t).status = some .assigned)
  missing : res.missingSample = taskIDs.filter fun t => t ∉ st.tasks
  counts : res.stuckPending = res.stuckPendingSample.length ∧
    res.stuckAssigned = res.stuckAssignedSample.length ∧ res.missing = res.missingSample.length

section Exact

variable {db : Dynamo} {st : Store} {fuel : ℕ}

/-- The ids of the visited items with a property. -/
theorem perm_filter_item {taskIDs : List String} {items : List (String × TaskItem)}
    (hperm : items.Perm (taskIDs.filterMap (found st.tasks))) {p : TaskItem → Bool}
    (hp : p .blank = false) : ((items.filter fun item => p item.2).map Prod.fst).Perm
      (taskIDs.filter fun t => p (st.item t)) := by
  have hfilter := (hperm.filter fun item => p item.2).map Prod.fst
  rw [map_fst_filter_found] at hfilter
  simpa only [any_lookup hp] using hfilter

theorem exact_dupScan (hdb : Serves db st.tasks) (hf : 100 ≤ fuel) (history : List RawEvent) :
    ∃ res, dupScan db fuel history = some res ∧
      res.Exact st (taskIDsFromHistory history) := by
  obtain ⟨items, heq, hperm⟩ := fetch_eq visitDup hdb hf (nodup_taskIDsFromHistory history) ([], 0)
  rw [foldl_visitDup, List.nil_append] at heq
  refine ⟨_, by rw [dupScan, heq, Option.map_some], rfl, ?_, rfl, ?_⟩
  · exact perm_filter_item hperm (p := fun item => 1 < item.receiveCount.getD 0) rfl
  · rw [← foldl_max_found]
    exact (hperm.map _).foldl_eq' (by intros; omega) _

end Exact

section Run

variable {json : Json} {members : List String} {s : System} {h : List (String × Dispatch.Output)}
  {db : Dynamo} {fuel : ℕ}

theorem counted_run
    (r : Run (System.step json) (System.Admits members) (System.boot members) [] s h) :
    Counted s := by
  refine r.invariant (I := fun s _ => Counted s) (fun t => Nat.zero_le _) ?_
  intro s h ev s' out hi _ hs
  exact hi.step (System.step_inv hs)

/-- **Duplicates were delivered twice**: in every state of the pipeline, whatever is left
unprocessed on the way, `dup_scan.py` returns exactly the submitted tasks with a count above one,
and each of them was received by workers at least twice. -/
theorem dupScan_exact
    (r : Run (System.step json) (System.Admits members) (System.boot members) [] s h)
    (hdb : Serves db s.store.tasks) (hf : 100 ≤ fuel) (history : List RawEvent) :
    ∃ res, dupScan db fuel history = some res ∧
      res.Exact s.store (taskIDsFromHistory history) ∧
      ∀ t ∈ res.duplicateTaskIDs, 2 ≤ s.workers.countP fun c => c.assignment.taskID = t := by
  obtain ⟨res, hres, hexact⟩ := exact_dupScan hdb hf history
  refine ⟨res, hres, hexact, fun t ht => ?_⟩
  obtain ⟨-, hdup⟩ := List.mem_filter.1 (hexact.duplicates.mem_iff.1 ht)
  have hcount : 2 ≤ s.workers.countP (counts t) :=
    (Nat.succ_le_of_lt (of_decide_eq_true hdup)).trans (counted_run r t)
  refine hcount.trans (List.countP_mono_left fun c _ hc => ?_)
  exact decide_eq_true (of_decide_eq_true hc).1

end Run

/-! ## A table that is throttled -/

/-- A table that gets to one key in each call. -/
def throttled (tasks : Tasks) : Dynamo
  | _, [] => some ⟨[], []⟩
  | _, key :: keys => some ⟨[key].filterMap (found tasks), keys⟩

theorem serves_throttled (tasks : Tasks) : Serves (throttled tasks) tasks := by
  intro n keys hne _ _
  cases keys with
  | nil => exact absurd rfl hne
  | cons key keys => exact ⟨_, [key], rfl, by simp, .refl _, .refl _⟩

/-- A history with a task that was submitted, one that was not stored, and a repetition. -/
def submissions : List RawEvent :=
  [⟨"submit", "t1", 0, 0, ""⟩, ⟨"complete", "t1", 0, 0, "COMPLETED"⟩, ⟨"submit", "t2", 0, 0, ""⟩,
    ⟨"submit", "t1", 0, 0, ""⟩]

theorem dupScan_exact_of_redelivery : ∃ (s : System) (res : DupScanResult),
    dupScan (throttled s.store.tasks) 100 submissions = some res ∧
      res = ⟨2, 1, ["t1"], 2⟩ ∧
      ∀ t ∈ res.duplicateTaskIDs, 2 ≤ s.workers.countP fun c => c.assignment.taskID = t := by
  obtain ⟨s, h, r, hs⟩ := exists_run_of_exec (System.step submittedJson)
    (System.Admits ["a", "b", "c"]) (System.boot ["a", "b", "c"]) []
    (taskPublished ++ taskProcessed ++ taskRedelivered)
    (fun s _ => dupScan (throttled s.store.tasks) 100 submissions = some ⟨2, 1, ["t1"], 2⟩)
    (by decide +kernel)
  obtain ⟨res, hres, -, hdup⟩ := dupScan_exact r (serves_throttled _) le_rfl submissions
  exact ⟨s, res, hres, Option.some.inj (hres.symm.trans hs), hdup⟩

end Driftless.Scan
