import Mathlib.Data.List.Permutation
import Driftless.Lincheck.Main

/-!
# The verdict

`loadHistory` groups exactly the observations: polls with a task and a status it knows
(`map_observation_ops`). On each group the model of the check accepts an order exactly if the codes
do not decrease in it (`monotoneModel_grows`), so that the verdict is "linearizable" exactly if no
poll that was called after another had returned saw a smaller code: `verdict_iff`. One check of all
tasks together, with a maximum for each task, gives the same verdict.
-/

namespace Driftless.Lincheck

open Linearizability

/-- Outputs with a known code. -/
def PollOutput.Known (o : PollOutput) : Prop := o.code ≠ codeUnknown

theorem monotoneModel_grows : monotoneModel.Grows PollOutput.Known id PollOutput.code where
  init o _ := Nat.zero_le o.code
  step s i o ho := by
    unfold PollOutput.Known at ho
    by_cases hlt : o.code < s
    · simp [monotoneModel, ho, hlt]
    · simp [monotoneModel, ho, hlt, not_lt.1 hlt]
  cur s i o ho hle := by
    unfold PollOutput.Known at ho
    have hlt : ¬ o.code < s := not_lt.2 hle
    simp [monotoneModel, ho, hlt]

/-! ## Observations -/

/-- The events that are grouped. -/
def RawEvent.Observes (ev : RawEvent) : Prop :=
  ev.op = "poll_observe" ∧ ev.taskID ≠ "" ∧ statusCode ev.status ≠ codeUnknown
  deriving Decidable

/-- What a poll saw: the task, the code, and the times. -/
def RawEvent.observation (ev : RawEvent) : String × ℕ × ℤ × ℤ :=
  (ev.taskID, statusCode ev.status, ev.callNs, ev.returnNs)

def observation (o : Poll) : String × ℕ × ℤ × ℤ := (o.input.taskID, o.output.code, o.call, o.ret)

theorem fields_of_observation {o : Poll} {ev : RawEvent} (h : observation o = ev.observation) :
    o.input.taskID = ev.taskID ∧ o.output.code = statusCode ev.status ∧ o.call = ev.callNs ∧
      o.ret = ev.returnNs := by
  simpa [observation, RawEvent.observation] using h

/-- The events of a history. -/
def Env.events (env : Env) (lines : List String) : List RawEvent :=
  (lines.filter fun line => line ≠ "").filterMap env.unmarshal

theorem foldl_addLine (env : Env) (lines : List String) (l : Loading) :
    lines.foldl env.addLine l = (env.events lines).foldl Loading.addEvent l := by
  induction lines generalizing l with
  | nil => rfl
  | cons line lines ih =>
    by_cases hline : line = ""
    · simp [Env.addLine, Env.events, hline, ih]
    · cases hev : env.unmarshal line with
      | none => simp [Env.addLine, Env.events, hline, hev, ih]
      | some ev => simp [Env.addLine, Env.events, hline, hev, ih]

namespace Loading

def ops (l : Loading) (taskID : String) : List Poll := (l.groups.lookup taskID).getD []

theorem addClient_groups (l : Loading) (taskID : String) :
    (l.addClient taskID).groups = l.groups := by
  unfold addClient
  split_ifs <;> rfl

theorem map_observation_ops_addEvent (l : Loading) (ev : RawEvent) (k : String) :
    ((l.addEvent ev).ops k).map observation = (l.ops k).map observation ++
      if ev.Observes ∧ ev.taskID = k then [ev.observation] else [] := by
  by_cases hev : ev.Observes
  · obtain ⟨hop, htask, hcode⟩ := hev
    by_cases hk : ev.taskID = k
    · subst hk
      simp [addEvent, RawEvent.Observes, hop, htask, hcode, ops, addClient_groups, observation,
        RawEvent.observation]
    · simp [addEvent, hop, htask, hcode, ops, addClient_groups, hk,
        AList.lookup_insert_ne (Ne.symm hk)]
  · have hsame : l.addEvent ev = l := by
      unfold addEvent
      dsimp only
      split_ifs with hop hcode
      · rfl
      · rfl
      · push Not at hop
        exact absurd ⟨hop.1, hop.2, hcode⟩ hev
    simp [hsame, hev]

/-- **The groups are the observations of each task**, in the order of the history. -/
theorem map_observation_ops (evs : List RawEvent) (l : Loading) (k : String) :
    ((evs.foldl addEvent l).ops k).map observation = (l.ops k).map observation ++
      (evs.filter fun ev => ev.Observes ∧ ev.taskID = k).map RawEvent.observation := by
  induction evs generalizing l with
  | nil => simp
  | cons ev evs ih =>
    rw [List.foldl_cons, ih, map_observation_ops_addEvent, List.append_assoc]
    by_cases hev : ev.Observes ∧ ev.taskID = k
    · simp [hev]
    · simp [hev]

end Loading

/-! ## All tasks -/

/-- The operations of all tasks. -/
def allOps (groups : Groups) : List Poll := groups.entries.flatMap Sigma.snd

/-- The groups of a history. -/
def Env.groups (env : Env) (lines : List String) : Groups :=
  ((env.events lines).foldl Loading.addEvent .empty).groups

section Groups

variable {env : Env} {lines : List String}

theorem map_observation_of_mem {k : String} {ops : List Poll}
    (h : (⟨k, ops⟩ : Sigma fun _ : String => List Poll) ∈ (env.groups lines).entries) :
    ops.map observation = ((env.events lines).filter
      fun ev => ev.Observes ∧ ev.taskID = k).map RawEvent.observation := by
  have hlookup : (env.groups lines).lookup k = some ops := AList.mem_lookup_iff.2 h
  have hops := Loading.map_observation_ops (env.events lines) .empty k
  have hempty : Loading.empty.ops k = [] := by simp [Loading.ops, Loading.empty]
  have hsome : ((env.events lines).foldl Loading.addEvent .empty).ops k = ops := by
    show ((env.groups lines).lookup k).getD [] = ops
    rw [hlookup]
    rfl
  rwa [hsome, hempty, List.map_nil, List.nil_append] at hops

/-- An operation of a group is an observation of its task. -/
theorem exists_event {task : Sigma fun _ : String => List Poll} {o : Poll}
    (h : task ∈ (env.groups lines).entries) (ho : o ∈ task.2) :
    ∃ ev ∈ env.events lines, ev.Observes ∧ ev.taskID = task.1 ∧
      observation o = ev.observation := by
  have hmem := List.mem_map_of_mem (f := observation) ho
  rw [map_observation_of_mem h] at hmem
  obtain ⟨ev, hev, heq⟩ := List.mem_map.1 hmem
  obtain ⟨hev, hobs⟩ := List.mem_filter.1 hev
  simp only [decide_eq_true_eq] at hobs
  exact ⟨ev, hev, hobs.1, hobs.2, heq.symm⟩

/-- An observation is an operation of the group of its task. -/
theorem exists_operation {ev : RawEvent} (hev : ev ∈ env.events lines) (hobs : ev.Observes) :
    ∃ o ∈ allOps (env.groups lines), observation o = ev.observation := by
  have hops := Loading.map_observation_ops (env.events lines) .empty ev.taskID
  have hmem : ev.observation ∈
      (((env.events lines).foldl Loading.addEvent .empty).ops ev.taskID).map observation := by
    rw [hops]
    exact List.mem_append_right _ (List.mem_map_of_mem (List.mem_filter.2 ⟨hev, by simp [hobs]⟩))
  obtain ⟨o, ho, heq⟩ := List.mem_map.1 hmem
  refine ⟨o, ?_, heq⟩
  change o ∈ ((env.groups lines).lookup ev.taskID).getD [] at ho
  cases hlookup : (env.groups lines).lookup ev.taskID with
  | none => simp [hlookup] at ho
  | some ops =>
    rw [hlookup] at ho
    exact List.mem_flatMap.2 ⟨⟨ev.taskID, ops⟩, AList.mem_lookup_iff.1 hlookup, ho⟩

theorem exists_event_of_mem_allOps {o : Poll} (ho : o ∈ allOps (env.groups lines)) :
    ∃ ev ∈ env.events lines, ev.Observes ∧ observation o = ev.observation := by
  obtain ⟨task, htask, ho⟩ := List.mem_flatMap.1 ho
  obtain ⟨ev, hev, hobs, -, heq⟩ := exists_event htask ho
  exact ⟨ev, hev, hobs, heq⟩

theorem known_of_mem_allOps {o : Poll} (ho : o ∈ allOps (env.groups lines)) : o.output.Known := by
  obtain ⟨ev, -, hobs, heq⟩ := exists_event_of_mem_allOps ho
  show o.output.code ≠ codeUnknown
  rw [(fields_of_observation heq).2.1]
  exact hobs.2.2

/-- The second poll was called after the first had returned, and saw a smaller code. -/
def Backward (a b : RawEvent) : Prop :=
  a.Observes ∧ b.Observes ∧ a.taskID = b.taskID ∧ a.returnNs < b.callNs ∧
    statusCode b.status < statusCode a.status
  deriving Decidable

theorem ordered_iff : Ordered PollInput.taskID PollOutput.code (allOps (env.groups lines)) ↔
    ¬ ∃ a ∈ env.events lines, ∃ b ∈ env.events lines, Backward a b := by
  constructor
  · rintro hord ⟨ev, hev, ev', hev', hobs, hobs', htask, hlt, hcode⟩
    obtain ⟨a, ha, hea⟩ := exists_operation hev hobs
    obtain ⟨b, hb, heb⟩ := exists_operation hev' hobs'
    obtain ⟨htaska, hcodea, -, hreta⟩ := fields_of_observation hea
    obtain ⟨htaskb, hcodeb, hcallb, -⟩ := fields_of_observation heb
    have hle := hord a ha b hb
    rw [htaska, htaskb, hcodea, hcodeb, hreta, hcallb] at hle
    exact absurd hcode (not_lt.2 (hle htask hlt))
  · intro hno a ha b hb htask hlt
    obtain ⟨ev, hev, hobs, hea⟩ := exists_event_of_mem_allOps ha
    obtain ⟨ev', hev', hobs', heb⟩ := exists_event_of_mem_allOps hb
    obtain ⟨htaska, hcodea, -, hreta⟩ := fields_of_observation hea
    obtain ⟨htaskb, hcodeb, hcallb, -⟩ := fields_of_observation heb
    rw [htaska, htaskb] at htask
    rw [hreta, hcallb] at hlt
    rw [hcodea, hcodeb]
    by_contra hcode
    exact hno ⟨ev, hev, ev', hev', hobs, hobs', htask, hlt, not_le.1 hcode⟩

/-- Operations of one task are in one group. -/
theorem ordered_iff_forall_task :
    Ordered PollInput.taskID PollOutput.code (allOps (env.groups lines)) ↔
      ∀ task ∈ (env.groups lines).entries, ∀ a ∈ task.2, ∀ b ∈ task.2, a.ret < b.call →
        a.output.code ≤ b.output.code := by
  have hkey : ∀ task ∈ (env.groups lines).entries, ∀ o ∈ task.2, o.input.taskID = task.1 := by
    intro task htask o ho
    obtain ⟨ev, -, -, hk, heq⟩ := exists_event htask ho
    exact (fields_of_observation heq).1.trans hk
  constructor
  · intro hord task htask a ha b hb
    refine hord a (List.mem_flatMap.2 ⟨task, htask, ha⟩) b (List.mem_flatMap.2 ⟨task, htask, hb⟩) ?_
    rw [hkey task htask a ha, hkey task htask b hb]
  · intro hall a ha b hb hk
    obtain ⟨⟨k, ops⟩, htask, ha⟩ := List.mem_flatMap.1 ha
    obtain ⟨⟨k', ops'⟩, htask', hb⟩ := List.mem_flatMap.1 hb
    obtain rfl : k = k' := (hkey _ htask a ha).symm.trans (hk.trans (hkey _ htask' b hb))
    obtain rfl : ops = ops' :=
      Option.some.inj ((AList.mem_lookup_iff.2 htask).symm.trans (AList.mem_lookup_iff.2 htask'))
    exact hall _ htask a ha b hb

end Groups

/-! ## The result -/

theorem violating_foldl (env : Env) (tasks : List (Sigma fun _ : String => List Poll)) (t : Tally) :
    (tasks.foldl env.checkTask t).violating = t.violating ++ (tasks.filter fun task =>
      !env.checkOperations ℕ monotoneModel (env.sortByCall task.2)).map Sigma.fst := by
  induction tasks generalizing t with
  | nil => simp
  | cons task tasks ih =>
    rw [List.foldl_cons, ih]
    by_cases hc : env.checkOperations ℕ monotoneModel (env.sortByCall task.2) = true
    · simp [Env.checkTask, hc]
    · simp [Env.checkTask, hc]

theorem loadHistory_eq (env : Env) (lines : List String) :
    env.loadHistory (.ok ⟨lines, none⟩) = .ok (env.groups lines) := by
  simp [Env.loadHistory, foldl_addLine, Env.groups]

theorem exists_main (env : Env) (lines : List String) :
    ∃ res, env.main (.ok ⟨lines, none⟩) = .ok res ∧ (res.linearizable = true ↔
      ∀ task ∈ env.range (env.groups lines),
        env.checkOperations ℕ monotoneModel (env.sortByCall task.2) = true) := by
  unfold Env.main
  rw [loadHistory_eq]
  refine ⟨_, rfl, ?_⟩
  simp [violating_foldl]

/-- **The verdict is that no observation goes backward**, and it is that of one check of all tasks
with a maximum for each. -/
theorem verdict_iff {env : Env} (henv : env.Lawful) (lines : List String)
    (hle : ∀ ev ∈ env.events lines, ev.Observes → ev.callNs ≤ ev.returnNs) :
    ∃ groups res, env.loadHistory (.ok ⟨lines, none⟩) = .ok groups ∧
      env.main (.ok ⟨lines, none⟩) = .ok res ∧
      (res.linearizable = true ↔
        ¬ ∃ a ∈ env.events lines, ∃ b ∈ env.events lines, Backward a b) ∧
      (res.linearizable = true ↔
        env.checkOperations (String → ℕ) (monotoneModel.product PollInput.taskID)
          (allOps groups) = true) := by
  obtain ⟨res, hmain, hlin⟩ := exists_main env lines
  have hcall : ∀ o ∈ allOps (env.groups lines), o.call ≤ o.ret := by
    intro o ho
    obtain ⟨ev, hev, hobs, heq⟩ := exists_event_of_mem_allOps ho
    obtain ⟨-, -, hc, hr⟩ := fields_of_observation heq
    rw [hc, hr]
    exact hle ev hev hobs
  have htask : ∀ task ∈ (env.groups lines).entries,
      env.checkOperations ℕ monotoneModel (env.sortByCall task.2) = true ↔
        ∀ a ∈ task.2, ∀ b ∈ task.2, a.ret < b.call → a.output.code ≤ b.output.code := by
    intro task htask
    have hmem : ∀ o ∈ env.sortByCall task.2, o ∈ allOps (env.groups lines) := fun o ho =>
      List.mem_flatMap.2 ⟨task, htask, (henv.sort_perm task.2).mem_iff.1 ho⟩
    have hcall' : ∀ o ∈ env.sortByCall task.2, o.call ≤ o.ret := fun o ho => hcall o (hmem o ho)
    rw [henv.exact _ _ _ hcall', monotoneModel_grows.linearizable_iff hcall' fun o ho =>
      known_of_mem_allOps (hmem o ho)]
    simp only [(henv.sort_perm task.2).mem_iff]
  have hverdict : res.linearizable = true ↔
      Ordered PollInput.taskID PollOutput.code (allOps (env.groups lines)) := by
    rw [hlin, ordered_iff_forall_task]
    simp only [(henv.range_perm _).mem_iff]
    exact forall₂_congr htask
  refine ⟨_, res, loadHistory_eq env lines, hmain, hverdict.trans ordered_iff, ?_⟩
  rw [hverdict, henv.exact _ _ _ hcall,
    monotoneModel_grows.linearizable_product_iff hcall fun o ho => known_of_mem_allOps ho]

/-- A file that decodes as a table says, and a checker that tries all orders. -/
def tabulated (table : List (String × RawEvent)) : Env where
  unmarshal line := table.lookup line
  range groups := groups.entries
  sortByCall ops := ops.insertionSort fun a b => a.call ≤ b.call
  checkOperations _ m ops := ops.permutations.any fun order =>
    decide (order.Pairwise fun a b => ¬ b.ret < a.call) && m.accepts m.init order

theorem tabulated_lawful (table : List (String × RawEvent)) : (tabulated table).Lawful where
  range_perm _ := List.Perm.refl _
  sort_perm ops := List.perm_insertionSort _ ops
  sorted ops := by
    have : Std.Total fun a b : Poll => a.call ≤ b.call := ⟨fun a b => le_total a.call b.call⟩
    have : IsTrans Poll fun a b => a.call ≤ b.call := ⟨fun _ _ _ h h' => h.trans h'⟩
    exact List.pairwise_insertionSort _ ops
  exact σ m ops _ := by simp [tabulated, Linearizable, RealTime, List.mem_permutations]

/-- Two polls of one task overlap, and the one that was called later saw the smaller code. -/
def overlapping : List (String × RawEvent) :=
  [("\x7b\"op\":\"poll_observe\",\"task_id\":\"t1\",\"call_ns\":10,\"return_ns\":50," ++
      "\"status\":\"ASSIGNED\"\x7d",
    ⟨"poll_observe", "t1", 10, 50, "ASSIGNED"⟩),
   ("\x7b\"op\":\"poll_observe\",\"task_id\":\"t1\",\"call_ns\":40,\"return_ns\":60," ++
      "\"status\":\"PENDING\"\x7d",
    ⟨"poll_observe", "t1", 40, 60, "PENDING"⟩)]

theorem verdict_iff_of_overlap :
    (tabulated overlapping).events (overlapping.map Prod.fst) = overlapping.map Prod.snd ∧
    ∃ groups res, (tabulated overlapping).loadHistory (.ok ⟨overlapping.map Prod.fst, none⟩) =
        .ok groups ∧
      (tabulated overlapping).main (.ok ⟨overlapping.map Prod.fst, none⟩) = .ok res ∧
      res.linearizable = true ∧
      (tabulated overlapping).checkOperations (String → ℕ)
        (monotoneModel.product PollInput.taskID) (allOps groups) = true := by
  have hevents : (tabulated overlapping).events (overlapping.map Prod.fst) =
      overlapping.map Prod.snd := by decide +kernel
  refine ⟨hevents, ?_⟩
  obtain ⟨groups, res, hload, hmain, hlin, hglobal⟩ :=
    verdict_iff (tabulated_lawful overlapping) (overlapping.map Prod.fst)
      (by rw [hevents]; decide)
  have hno : res.linearizable = true := hlin.2 (by rw [hevents]; decide)
  exact ⟨groups, res, hload, hmain, hno, hglobal.1 hno⟩

end Driftless.Lincheck
