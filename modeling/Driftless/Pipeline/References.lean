import Mathlib.Logic.Equiv.List
import Driftless.Dispatch.Commands
import Driftless.Pipeline.System

/-!
# No dangling references

A task id or key that one program hands to another names something that exists: the payload is
stored before the item that names it, the item is written before the first message about it, and
everything later, up to the updates of the workers, is about tasks that were read from such a
message. `Resolves` says that all references of the pipeline resolve in a store; they do in every
store that extends it (`Resolves.extend`), and every step adds only references that resolve:
`no_dangling_references`.
-/

namespace Driftless.Pipeline

open Raft Dispatch

/-! ## References -/

namespace Store

/-- There is an item for the task, with this key. -/
def Names (st : Store) (taskID s3Key : String) : Prop :=
  taskID ∈ st.tasks ∧ (st.item taskID).s3Key = some s3Key

/-- There is an item for the task, with this priority. -/
def Ranks (st : Store) (taskID : String) (priority : ℤ) : Prop :=
  taskID ∈ st.tasks ∧ (st.item taskID).priority = some priority

variable {st st' : Store} {t : String}

theorem Names.extend (hext : st.Extends st') {key : String} (h : st.Names t key) :
    st'.Names t key :=
  ⟨(hext.tasks t h.1).1, (hext.tasks t h.1).2.1.trans h.2⟩

theorem Ranks.extend (hext : st.Extends st') {p : ℤ} (h : st.Ranks t p) : st'.Ranks t p :=
  ⟨(hext.tasks t h.1).1, (hext.tasks t h.1).2.2.trans h.2⟩

/-- What a lookup of the coordinators finds exists. -/
theorem names_of_s3KeyOf {stale : Bool} (h : st.s3KeyOf stale t ≠ "") :
    st.Names t (st.s3KeyOf stale t) := by
  unfold s3KeyOf at h ⊢
  cases stale with
  | true => simp at h
  | false =>
    cases hl : st.tasks.lookup t with
    | none => simp [item, hl, TaskItem.blank] at h
    | some i =>
      refine ⟨AList.lookup_isSome.1 (by rw [hl]; rfl), ?_⟩
      cases hk : i.s3Key with
      | none => simp [item, hl, hk] at h
      | some key => simp [item, hl, hk]

end Store

/-- The task and key of a command. -/
def Refers (st : Store) (cmd : DispatchCommand) : Prop := st.Names cmd.taskID cmd.s3Key

/-- The references of a call of `handleSubmitTask`. -/
structure SubmitCall.Resolves (st : Store) (c : SubmitCall) : Prop where
  stored : c.stage = .putItem → payloadKey c.taskID ∈ st.objects
  written : c.stage = .publish → st.Ranks c.taskID c.priority

/-- All references of the pipeline resolve in the store. -/
structure Resolves (json : Json) (st : Store) (s : System) (h : List (String × Dispatch.Output)) :
    Prop where
  submits : ∀ c ∈ s.submits, c.Resolves st
  scans : ∀ l ∈ s.scans, ∀ x ∈ l, x.1 ∈ st.tasks ∧ (st.item x.1).priority = x.2
  ingest : ∀ body ∈ s.ingest, ∃ msg, json.unmarshalIngest body = some msg ∧
    st.Ranks msg.taskID msg.priority
  coordinators : ∀ i, Supplies json.toCodec (Refers st) (s.coordinators i)
  requests : RequestsGood (DecodesTo json.toCodec (Refers st)) (h.filterMap fun o => o.2.raft)
  assignments : ∀ body ∈ s.assignments, ∃ a, json.unmarshalAssignment body = some a ∧
    st.Names a.taskID a.s3Key
  marks : ∀ t ∈ s.marks, t ∈ st.tasks
  workers : ∀ c ∈ s.workers, c.assignment.taskID ∈ st.tasks

/-- Every item was written by a call of `handleSubmitTask` of its own, after the payload was
stored. -/
structure Submitted (s : System) : Prop where
  keys : ∀ t ∈ s.store.tasks, (s.store.item t).s3Key = some (payloadKey t) ∧
    payloadKey t ∈ s.store.objects
  known : ∀ t ∈ s.store.tasks, t ∈ s.submits.map SubmitCall.taskID
  fresh : ∀ c ∈ s.submits, c.stage = .upload ∨ c.stage = .putItem → c.taskID ∉ s.store.tasks
  distinct : (s.submits.map SubmitCall.taskID).Nodup

section Step

variable {json : Json} {members : List String} {st st' : Store} {s s' : System} {ev : Event}
  {h out : List (String × Dispatch.Output)}

theorem SubmitCall.Resolves.extend (hext : st.Extends st') {c : SubmitCall} (hc : c.Resolves st) :
    c.Resolves st' :=
  ⟨fun hst => hext.objects _ (hc.stored hst), fun hst => (hc.written hst).extend hext⟩

theorem Resolves.extend (hext : st.Extends st') (hi : Resolves json st s h) :
    Resolves json st' s h where
  submits c hc := (hi.submits c hc).extend hext
  scans l hl x hx :=
    ⟨(hext.tasks _ (hi.scans l hl x hx).1).1,
      (hext.tasks _ (hi.scans l hl x hx).1).2.2.trans (hi.scans l hl x hx).2⟩
  ingest body hb := by
    obtain ⟨msg, hdec, hr⟩ := hi.ingest body hb
    exact ⟨msg, hdec, hr.extend hext⟩
  coordinators i := (hi.coordinators i).mono fun _ hr => hr.extend hext
  requests dst args ha e he b hb cmd hc := (hi.requests dst args ha e he b hb cmd hc).extend hext
  assignments body hb := by
    obtain ⟨a, hdec, hn⟩ := hi.assignments body hb
    exact ⟨a, hdec, hn.extend hext⟩
  marks t ht := (hext.tasks t (hi.marks t ht)).1
  workers c hc := (hext.tasks _ (hi.workers c hc)).1

/-- A write that makes a new item is that of a call of `handleSubmitTask`. -/
theorem Resolves.task_of_issues (hi : Resolves json s.store s h) {w : Write} {r : CallResult}
    (hw : s.Issues ev w r) {t : String} (ht : w.task = some t) :
    t ∈ s.store.tasks ∨ ∃ k, ev = .submitCall k r ∧ ∃ c ∈ s.submits, c.stage = .putItem ∧
      c.taskID = t ∧ w = .putItem c.taskID c.priority (payloadKey c.taskID) := by
  cases hw with
  | payload k c hk => cases ht
  | item k c hk hst =>
    exact .inr ⟨k, rfl, c, List.mem_of_getElem? hk, hst, Option.some.inj ht, rfl⟩
  | mark k taskID hk =>
    rw [← Option.some.inj ht]
    exact .inl (hi.marks taskID (List.mem_of_getElem? hk))
  | worker k err c hk _ hw =>
    rw [hw.task_eq ht]
    exact .inl (hi.workers c (List.mem_of_getElem? hk))

theorem Submitted.fresh_of_issues (hsub : Submitted s) {w : Write} {r : CallResult}
    (hw : s.Issues ev w r) : s.store.Fresh w := by
  rintro taskID priority s3Key rfl
  cases hw with
  | item k c hk hst => exact hsub.fresh c (List.mem_of_getElem? hk) (.inr hst)
  | worker k err c hk _ hw => cases hw

/-- **The store only grows.** -/
theorem Submitted.extends_step (hsub : Submitted s) (hs : System.Step json s ev s' out) :
    s.store.Extends s'.store := by
  rcases hs.store with he | ⟨w, r, hw, he⟩
  · rw [he]
    exact .refl _
  · rw [he]
    exact Store.extends_perform r (hsub.fresh_of_issues hw)

/-- The ids of a performed write. -/
theorem mem_perform {w : Write} {r : CallResult} {t : String}
    (ht : t ∈ (st.perform w r).1.tasks) : t ∈ st.tasks ∨ w.task = some t := by
  rcases st.perform_cases w r with he | ⟨-, -, he⟩
  · rw [he] at ht
    exact .inl ht
  · rw [he] at ht
    exact Store.mem_write.1 ht

/-- **No worker update makes an item**, nor does `markAssigned`. -/
theorem Resolves.mem_tasks_iff (hi : Resolves json s.store s h) (hsub : Submitted s)
    (hs : System.Step json s ev s' out) (hne : ∀ k r, ev ≠ .submitCall k r) (t : String) :
    t ∈ s'.store.tasks ↔ t ∈ s.store.tasks := by
  refine ⟨fun ht => ?_, fun ht => ((hsub.extends_step hs).tasks t ht).1⟩
  rcases hs.store with he | ⟨w, r, hw, he⟩
  · rwa [he] at ht
  · rw [he] at ht
    rcases mem_perform ht with hold | hwt
    · exact hold
    · rcases hi.task_of_issues hw hwt with hold | ⟨k, hev, -⟩
      · exact hold
      · exact absurd hev (hne k r)

/-- The payload of every item is in the bucket, also after a step. -/
theorem Submitted.keys_step (hsub : Submitted s) (hi : Resolves json s.store s h)
    (hs : System.Step json s ev s' out) (t : String) (ht : t ∈ s'.store.tasks) :
    (s'.store.item t).s3Key = some (payloadKey t) ∧ payloadKey t ∈ s'.store.objects := by
  have hext := hsub.extends_step hs
  by_cases hold : t ∈ s.store.tasks
  · obtain ⟨hk, hobj⟩ := hsub.keys t hold
    exact ⟨(hext.tasks t hold).2.1.trans hk, hext.objects _ hobj⟩
  · -- a new item, which names the payload its call has stored
    rcases hs.store with he | ⟨w, r, hw, he⟩
    · exact absurd (he ▸ ht) hold
    · rw [he] at ht ⊢
      have hwt := (mem_perform ht).resolve_left hold
      obtain ⟨k, -, c, hc, hst, rfl, rfl⟩ := (hi.task_of_issues hw hwt).resolve_left hold
      have hobj := hext.objects _ ((hi.submits c hc).stored hst)
      rw [he] at hobj
      refine ⟨?_, hobj⟩
      rcases s.store.perform_cases (.putItem c.taskID c.priority (payloadKey c.taskID)) r with
        heq | ⟨-, -, heq⟩
      · rw [heq] at ht
        exact absurd ht hold
      · rw [heq]
        simp [Store.write]

/-- What the next call of `handleSubmitTask` does to the calls and the ids of the table. -/
theorem stepSubmit_spec {k : ℕ} {c : SubmitCall} {r : CallResult}
    (hs : s.stepSubmit json k c r = some s') :
    ∃ stage, s'.submits = s.submits.set k { c with stage := stage } ∧ stage ≠ .upload ∧
      (stage = .putItem → c.stage = .upload) ∧
      ∀ t ∈ s'.store.tasks, t ∈ s.store.tasks ∨ (c.stage = .putItem ∧ c.taskID = t) := by
  unfold System.stepSubmit at hs
  split at hs <;> cases hs
  next hst =>
    refine ⟨_, rfl, by split_ifs <;> simp, fun _ => hst, fun t ht => ?_⟩
    exact .inl ((mem_perform ht).resolve_right (by simp [Write.task]))
  next hst =>
    refine ⟨_, rfl, by split_ifs <;> simp, by split_ifs <;> simp, fun t ht => ?_⟩
    exact (mem_perform ht).imp_right fun hw => ⟨hst, Option.some.inj hw⟩
  next => exact ⟨_, rfl, by simp, by simp, fun t ht => .inl ht⟩

theorem map_taskID_set {l : List SubmitCall} {k : ℕ} {c : SubmitCall} (hk : l[k]? = some c)
    (stage : SubmitStage) :
    (l.set k { c with stage := stage }).map SubmitCall.taskID = l.map SubmitCall.taskID := by
  apply List.ext_getElem?
  intro j
  by_cases hj : k = j
  · subst hj
    obtain ⟨hlt, hget⟩ := List.getElem?_eq_some_iff.1 hk
    simp [hlt, hget]
  · simp [List.getElem?_set_ne hj]

/-- Two calls of `handleSubmitTask` are for different tasks. -/
theorem Submitted.taskID_ne (hsub : Submitted s) {j k : ℕ} {c c' : SubmitCall}
    (hk : s.submits[k]? = some c) (hj : s.submits[j]? = some c') (hne : k ≠ j) :
    c.taskID ≠ c'.taskID := by
  intro heq
  have hlt : k < (s.submits.map SubmitCall.taskID).length := by
    simpa using (List.getElem?_eq_some_iff.1 hk).1
  exact hne ((List.getElem?_inj hlt hsub.distinct).1 (by simp [hk, hj, heq]))

/-- A step of `handleSubmitTask`. -/
theorem Submitted.submitCall (hsub : Submitted s) {k : ℕ} {c : SubmitCall} {r : CallResult}
    (hk : s.submits[k]? = some c) (hs : s.stepSubmit json k c r = some s')
    (hkeys : ∀ t ∈ s'.store.tasks, (s'.store.item t).s3Key = some (payloadKey t) ∧
      payloadKey t ∈ s'.store.objects) : Submitted s' := by
  obtain ⟨stage, hset, hup, hput, hmem⟩ := stepSubmit_spec hs
  have hids : s'.submits.map SubmitCall.taskID = s.submits.map SubmitCall.taskID := by
    rw [hset, map_taskID_set hk]
  refine ⟨hkeys, fun t ht => ?_, fun c' hc' hst ht => ?_, hids ▸ hsub.distinct⟩
  · rw [hids]
    rcases hmem t ht with hold | ⟨-, rfl⟩
    · exact hsub.known t hold
    · exact List.mem_map_of_mem (List.mem_of_getElem? hk)
  · rw [hset] at hc'
    obtain ⟨j, hj⟩ := List.mem_iff_getElem?.1 hc'
    by_cases hkj : k = j
    · -- the call that moved, which has not written its item
      subst hkj
      obtain ⟨hlt, -⟩ := List.getElem?_eq_some_iff.1 hk
      rw [List.getElem?_set_self hlt, Option.some.injEq] at hj
      subst hj
      have hst' := hput (hst.resolve_left hup)
      rcases hmem _ ht with hold | ⟨hp, -⟩
      · exact hsub.fresh c (List.mem_of_getElem? hk) (.inl hst') hold
      · exact absurd (hst'.symm.trans hp) (by simp)
    · rw [List.getElem?_set_ne hkj] at hj
      rcases hmem _ ht with hold | ⟨-, heq⟩
      · exact hsub.fresh c' (List.mem_of_getElem? hj) hst hold
      · exact hsub.taskID_ne hk hj hkj heq

theorem Submitted.step (hsub : Submitted s) (hi : Resolves json s.store s h)
    (hok : s.Admits members h ev) (hs : System.Step json s ev s' out) : Submitted s' := by
  have hkeys := hsub.keys_step hi hs
  -- a step that touches neither the calls of `handleSubmitTask` nor the ids of the table
  have keep : s'.submits = s.submits → (∀ k r, ev ≠ .submitCall k r) → Submitted s' := by
    intro hsame hne
    have hmem := hi.mem_tasks_iff hsub hs hne
    refine ⟨hkeys, fun t ht => ?_, fun c hc hst ht => ?_, hsame ▸ hsub.distinct⟩
    · exact hsame ▸ hsub.known t ((hmem t).1 ht)
    · exact hsub.fresh c (hsame ▸ hc) hst ((hmem c.taskID).1 ht)
  cases hs with
  | submit taskID req =>
    have hnew : taskID ∉ s.submits.map SubmitCall.taskID := by
      intro hm
      obtain ⟨c, hc, heq⟩ := List.mem_map.1 hm
      exact hok c hc heq
    refine ⟨hkeys, fun t ht => ?_, fun c hc hst ht => ?_, ?_⟩
    · rw [List.map_append]
      exact List.mem_append_left _ (hsub.known t ht)
    · rcases List.mem_append.1 hc with hold | hc
      · exact hsub.fresh c hold hst ht
      · rw [List.mem_singleton.1 hc] at ht
        exact hnew (hsub.known _ ht)
    · simpa [List.nodup_append, hsub.distinct] using fun c hc => hok c hc
  | submitCall k r c _ hk hstep => exact hsub.submitCall hk hstep hkeys
  | _ => exact keep rfl (by simp)

/-! ## New references -/

theorem resolves_boot (json : Json) (members : List String) :
    Resolves json (System.boot members).store (System.boot members) [] :=
  ⟨nofun, nofun, nofun, fun i => supplies_boot i _, by simp [RequestsGood], nofun, nofun, nofun⟩

theorem submitted_boot (members : List String) : Submitted (System.boot members) :=
  ⟨nofun, nofun, nofun, List.nodup_nil⟩

/-- A message that a call sends is in the queue with the old ones, if it reaches it. -/
theorem mem_enqueue {queue : List String} {body b : String} {r : CallResult}
    (hb : b ∈ System.enqueue queue body r) : b ∈ queue ∨ b = body := by
  unfold System.enqueue at hb
  split_ifs at hb
  · exact .inl hb
  · simpa using hb

/-- Replacing one call keeps what holds of all calls. -/
theorem forall_mem_set {α : Type} {P : α → Prop} {l : List α} {k : ℕ} {a : α}
    (hl : ∀ x ∈ l, P x) (ha : P a) : ∀ x ∈ l.set k a, P x := by
  intro x hx
  rcases List.mem_or_eq_of_mem_set hx with hold | rfl
  · exact hl x hold
  · exact ha

theorem scans_scanned {ids : List String} :
    ∀ x ∈ ids.filterMap (System.scanned st), x.1 ∈ st.tasks ∧ (st.item x.1).priority = x.2 := by
  intro x hx
  obtain ⟨t, -, ht⟩ := List.mem_filterMap.1 hx
  unfold System.scanned at ht
  split_ifs at ht with hcond
  cases ht
  exact ⟨hcond.1, rfl⟩

/-- A step of `handleSubmitTask`. -/
theorem Resolves.submitCall (hjson : json.Lawful) (hi : Resolves json s.store s h)
    (hi' : Resolves json s'.store s h) {k : ℕ} {c : SubmitCall} {r : CallResult}
    (hk : s.submits[k]? = some c) (hs : s.stepSubmit json k c r = some s') :
    Resolves json s'.store s' h := by
  have hc := List.mem_of_getElem? hk
  unfold System.stepSubmit at hs
  split at hs <;> cases hs
  next hst =>
    refine { hi' with submits := forall_mem_set hi'.submits ⟨fun hp => ?_, fun hp => ?_⟩ }
    · -- the payload is stored
      by_cases hok : (s.store.perform (.putObject (payloadKey c.taskID) c.payload) r).2 = true
      · show payloadKey c.taskID ∈ (s.store.perform _ r).1.objects
        rw [(Store.perform_of_ok hok).2]
        simp [Store.write]
      · simp [hok] at hp
    · split_ifs at hp
  next hst =>
    refine { hi' with submits := forall_mem_set hi'.submits ⟨fun hp => ?_, fun hp => ?_⟩ }
    · split_ifs at hp
    · -- the item is written
      by_cases hok :
          (s.store.perform (.putItem c.taskID c.priority (payloadKey c.taskID)) r).2 = true
      · show (s.store.perform _ r).1.Ranks c.taskID c.priority
        rw [(Store.perform_of_ok hok).2]
        simp [Store.Ranks, Store.write]
      · simp [hok] at hp
  next hst =>
    refine { hi' with submits := forall_mem_set hi'.submits ⟨by simp, by simp⟩, ingest := ?_ }
    intro body hb
    rcases mem_enqueue hb with hold | rfl
    · exact hi.ingest body hold
    · exact ⟨_, hjson.task _, (hi.submits c hc).written hst⟩

/-- The requests that a coordinator is delivered resolve. -/
theorem Resolves.delivered (hi : Resolves json s.store s h) {i : String} {ev : Dispatch.Event}
    (hnet : Network members s.coordinators h (i, ev)) (args : AppendEntriesArgs)
    (hev : ev = .node (.handleAppendEntries args)) :
    ∀ e ∈ args.entries, EntryGood (DecodesTo json.toCodec (Refers s.store)) e := by
  subst hev
  obtain ⟨⟨j, o⟩, ho, rfl⟩ : ∃ o ∈ nodeHistory h, o.2 = .appendEntries i args := hnet.2
  refine hi.requests i args (List.mem_filterMap.2 ⟨_, mem_nodeHistory.1 ho, rfl⟩)

/-- The assignments that a coordinator sends resolve. -/
theorem assignment_names {P : DispatchCommand → Prop} {c : Coordinator} {ev : Dispatch.Event}
    {lost : Bool} {out : List Dispatch.Output} (hsup : Supplies json.toCodec P c)
    (hsent : SendsGood json.toCodec P out) {a : AssignmentMessage}
    (ha : a ∈ out.filterMap Output.assignment ++ (lostAssignment c ev lost).toList) :
    ∃ cmd, P cmd ∧ a = ⟨cmd.taskID, cmd.priority, cmd.s3Key⟩ := by
  rcases List.mem_append.1 ha with hpub | hlost
  · obtain ⟨o, ho, hoa⟩ := List.mem_filterMap.1 hpub
    cases o with
    | published msg =>
      cases hoa
      exact hsent.published a ho
    | _ => cases hoa
  · unfold lostAssignment at hlost
    split at hlost
    next cmd hap =>
      refine ⟨cmd, hsup.applying cmd (by rw [hap]; rfl), by simpa using hlost⟩
    next => cases hlost

/-- A step of a coordinator. -/
theorem Resolves.coordinator (hjson : json.Lawful) (hi : Resolves json s.store s h) {i : String}
    {ev : Dispatch.Event} {stale lost : Bool} {c : Coordinator} {out : List Dispatch.Output}
    (hnet : Network members s.coordinators h (i, ev))
    (hs : (s.coordinators i).step json.toCodec (s.store.s3KeyOf stale) ev = some (c, out)) :
    Resolves json s.store
      { s with
        coordinators := Function.update s.coordinators i c
        assignments := s.assignments ++
          (out.filterMap Output.assignment ++
            (lostAssignment (s.coordinators i) ev lost).toList).map json.marshalAssignment
        marks := s.marks ++ (out.filterMap Output.assignment).map AssignmentMessage.taskID }
      (h ++ out.map (Prod.mk i)) := by
  obtain ⟨hsup, hsent⟩ := (hi.coordinators i).step hjson.codec hs (hi.delivered hnet)
    fun _ _ hkey => Store.names_of_s3KeyOf hkey
  have hnames : ∀ a ∈ out.filterMap Output.assignment ++
      (lostAssignment (s.coordinators i) ev lost).toList, s.store.Names a.taskID a.s3Key := by
    intro a ha
    obtain ⟨cmd, hr, rfl⟩ := assignment_names (hi.coordinators i) hsent ha
    exact hr
  refine { hi with coordinators := fun j => ?_, requests := ?_, assignments := ?_, marks := ?_ }
  · by_cases hj : j = i
    · rw [hj]
      simpa using hsup
    · simpa [Function.update_of_ne hj] using hi.coordinators j
  · intro dst args hm
    rw [List.filterMap_append] at hm
    rcases List.mem_append.1 hm with hold | hnew
    · exact hi.requests dst args hold
    · rw [List.filterMap_map] at hnew
      exact hsent.requests dst args hnew
  · intro body hb
    rcases List.mem_append.1 hb with hold | hnew
    · exact hi.assignments body hold
    · obtain ⟨a, ha, rfl⟩ := List.mem_map.1 hnew
      exact ⟨a, hjson.assignment a, hnames a ha⟩
  · intro t ht
    rcases List.mem_append.1 ht with hold | hnew
    · exact hi.marks t hold
    · obtain ⟨a, ha, rfl⟩ := List.mem_map.1 hnew
      exact (hnames a (List.mem_append_left _ ha)).1

theorem Resolves.step (hjson : json.Lawful) (hi : Resolves json s.store s h) (hsub : Submitted s)
    (hok : s.Admits members h ev) (hs : System.Step json s ev s' out) :
    Resolves json s'.store s' (h ++ out) := by
  have hi' : Resolves json s'.store s h := hi.extend (hsub.extends_step hs)
  cases hs with
  | coordinator i ev stale lost c out hs => exact hi.coordinator hjson hok.1 hs
  | submit taskID req =>
    rw [List.append_nil]
    refine { hi with submits := fun c hc => ?_ }
    rcases List.mem_append.1 hc with hold | hnew
    · exact hi.submits c hold
    · rw [List.mem_singleton.1 hnew]
      exact ⟨nofun, nofun⟩
  | submitCall k r c _ hk hstep =>
    rw [List.append_nil]
    exact hi.submitCall hjson hi' hk hstep
  | scan ids =>
    rw [List.append_nil]
    refine { hi with scans := fun l hl => ?_ }
    rcases List.mem_append.1 hl with hold | hnew
    · exact hi.scans l hold
    · rw [List.mem_singleton.1 hnew]
      exact scans_scanned
  | republish k r taskID priority rest hk =>
    rw [List.append_nil]
    have hread := hi.scans _ (List.mem_of_getElem? hk)
    refine { hi with
      scans := forall_mem_set hi.scans fun x hx => hread x (List.mem_cons_of_mem _ hx)
      ingest := fun body hb => ?_ }
    rcases mem_enqueue hb with hold | rfl
    · exact hi.ingest body hold
    · exact ⟨_, hjson.orphan _, hread _ List.mem_cons_self⟩
  | panic k r =>
    rw [List.append_nil]
    exact { hi with scans := forall_mem_set hi.scans nofun }
  | markAssigned k r taskID hk =>
    rw [List.append_nil]
    exact { hi' with }
  | receive workerID body a ha =>
    rw [List.append_nil]
    refine { hi with workers := fun c hc => ?_ }
    rcases List.mem_append.1 hc with hold | hnew
    · exact hi.workers c hold
    · obtain ⟨a', ha', hn⟩ := hi.assignments body hok
      rw [List.mem_singleton.1 hnew, Option.some.inj (ha.symm.trans ha')]
      exact hn.1
  | work k r err c st stage hk hstep =>
    rw [List.append_nil]
    exact { hi' with
      workers := forall_mem_set hi'.workers (hi'.workers c (List.mem_of_getElem? hk)) }
  | refuse | discard =>
    rw [List.append_nil]
    exact hi

end Step

/-- Both invariants, in every run. -/
theorem resolves_run {json : Json} (hjson : json.Lawful) {members : List String} {s : System}
    {h : List (String × Dispatch.Output)}
    (r : Run (System.step json) (System.Admits members) (System.boot members) [] s h) :
    Resolves json s.store s h ∧ Submitted s := by
  refine r.invariant (I := fun s h => Resolves json s.store s h ∧ Submitted s)
    ⟨resolves_boot json members, submitted_boot members⟩ ?_
  intro s h ev s' out ⟨hi, hsub⟩ hok hs
  have hstep := System.step_inv hs
  exact ⟨hi.step hjson hsub hok hstep, hsub.step hi hok hstep⟩

/-- Nothing in the pipeline names a task, or a key of a task, that is not there. -/
structure NoDanglingReferences (json : Json) (s : System) : Prop where
  items : ∀ t ∈ s.store.tasks, ∃ key, (s.store.item t).s3Key = some key ∧ key ∈ s.store.objects
  ingest : ∀ body ∈ s.ingest, ∃ msg, json.unmarshalIngest body = some msg ∧
    s.store.Ranks msg.taskID msg.priority
  commands : ∀ i, ∀ e ∈ (s.coordinators i).server.node.logEntries, ∀ b cmd, e.command = some b →
    json.unmarshalCommand b = some cmd → s.store.Names cmd.taskID cmd.s3Key
  assignments : ∀ body ∈ s.assignments, ∃ a, json.unmarshalAssignment body = some a ∧
    s.store.Names a.taskID a.s3Key
  /-- No update of a worker makes an item. -/
  updates : ∀ k r err s' out, s.step json (.work k r err) = some (s', out) →
    ∀ t, t ∈ s'.store.tasks ↔ t ∈ s.store.tasks

/-- **No dangling references**, in every run of the pipeline. -/
theorem no_dangling_references {json : Json} (hjson : json.Lawful) {members : List String}
    {s : System} {h : List (String × Dispatch.Output)}
    (r : Run (System.step json) (System.Admits members) (System.boot members) [] s h) :
    NoDanglingReferences json s := by
  obtain ⟨hi, hsub⟩ := resolves_run hjson r
  refine ⟨fun t ht => ⟨_, hsub.keys t ht⟩, hi.ingest, fun i e he b cmd hb hdec => ?_,
    hi.assignments, fun k r err s' out hs => ?_⟩
  · exact (hi.coordinators i).commands.log e he b hb cmd hdec
  · exact hi.mem_tasks_iff hsub (System.step_inv hs) (by simp)

/-! ## A task and its messages -/

instance encodableChar : Encodable Char := .ofLeftInverse Char.toNat Char.ofNat Char.ofNat_toNat

/-- Some code for a value, of which only the length matters. -/
def unary {α : Type} [Encodable α] (a : α) : String :=
  String.ofList (List.replicate (Encodable.encode a) 'x')

theorem decode_unary {α : Type} [Encodable α] (a : α) :
    Encodable.decode (unary a).length = some a := by
  simp [unary]

/-- No code has a brace, as JSON objects do. -/
theorem unary_ne {α : Type} [Encodable α] (a : α) {body : String} (h : '\x7b' ∈ body.toList) :
    unary a ≠ body := by
  rintro rfl
  simp [unary] at h

def submitBody : String := "\x7b\"task_id\":\"t1\",\"priority\":1\x7d"

/-- The keys of a map are sorted. -/
def orphanBody : String := "\x7b\"priority\":1,\"task_id\":\"t1\"\x7d"

def assignmentBody : String :=
  "\x7b\"task_id\":\"t1\",\"priority\":1,\"s3_key\":\"tasks/t1/payload\"\x7d"

def submittedCommand : DispatchCommand := ⟨"dispatch", "t1", 1, "tasks/t1/payload"⟩

/-- The bytes of `{"type":"dispatch","task_id":"t1","priority":1,"s3_key":"tasks/t1/payload"}`. -/
def submittedEncoded : Bytes :=
  [123, 34, 116, 121, 112, 101, 34, 58, 34, 100, 105, 115, 112, 97, 116, 99, 104, 34, 44, 34, 116,
    97, 115, 107, 95, 105, 100, 34, 58, 34, 116, 49, 34, 44, 34, 112, 114, 105, 111, 114, 105,
    116, 121, 34, 58, 49, 44, 34, 115, 51, 95, 107, 101, 121, 34, 58, 34, 116, 97, 115, 107, 115,
    47, 116, 49, 47, 112, 97, 121, 108, 111, 97, 100, 34, 125]

/-- `encoding/json` on this task, and some code for every other message. -/
def submittedJson : Json where
  unmarshalIngest body :=
    if body = submitBody ∨ body = orphanBody then some ⟨"t1", 1⟩
    else (Encodable.decode body.length).map fun x : List Char × ℤ => ⟨String.ofList x.1, x.2⟩
  marshalCommand cmd := if cmd = submittedCommand then some submittedEncoded else none
  unmarshalCommand b := if b = submittedEncoded then some submittedCommand else none
  marshalSnap _ := none
  unmarshalSnap _ := none
  marshalTask m := if m = ⟨"t1", 1⟩ then submitBody else unary (m.taskID.toList, m.priority)
  marshalOrphan m := if m = ⟨"t1", 1⟩ then orphanBody else unary (m.taskID.toList, m.priority)
  marshalAssignment a :=
    if a = ⟨"t1", 1, "tasks/t1/payload"⟩ then assignmentBody
    else unary (a.taskID.toList, a.priority, a.s3Key.toList)
  unmarshalAssignment body :=
    if body = assignmentBody then some ⟨"t1", 1, "tasks/t1/payload"⟩
    else (Encodable.decode body.length).map fun x : List Char × ℤ × List Char =>
      ⟨String.ofList x.1, x.2.1, String.ofList x.2.2⟩

theorem unmarshalIngest_unary (m : IngestMessage) :
    submittedJson.unmarshalIngest (unary (m.taskID.toList, m.priority)) = some m := by
  have h₁ : unary (m.taskID.toList, m.priority) ≠ submitBody := unary_ne _ (by decide)
  have h₂ : unary (m.taskID.toList, m.priority) ≠ orphanBody := unary_ne _ (by decide)
  simp only [submittedJson, h₁, h₂, or_self, if_false, decode_unary, Option.map_some,
    String.ofList_toList]

theorem submittedJson_lawful : submittedJson.Lawful where
  codec := by
    refine ⟨fun cmd b hb => ?_, rfl, nofun⟩
    obtain ⟨rfl, rfl⟩ : cmd = submittedCommand ∧ submittedEncoded = b := by
      simpa [submittedJson] using hb
    rfl
  task m := by
    by_cases hm : m = ⟨"t1", 1⟩
    · rw [hm]
      rfl
    · rw [← unmarshalIngest_unary m]
      simp [submittedJson, hm]
  orphan m := by
    by_cases hm : m = ⟨"t1", 1⟩
    · rw [hm]
      rfl
    · rw [← unmarshalIngest_unary m]
      simp [submittedJson, hm]
  assignment a := by
    by_cases ha : a = ⟨"t1", 1, "tasks/t1/payload"⟩
    · rw [ha]
      rfl
    · have hne : unary (a.taskID.toList, a.priority, a.s3Key.toList) ≠ assignmentBody :=
        unary_ne _ (by decide)
      simp only [submittedJson, ha, hne, if_false, decode_unary, Option.map_some,
        String.ofList_toList]

/-- The ingest API stores a task, `"a"` wins an election, takes the message through the log and
publishes the assignment. -/
def taskPublished : List Event :=
  [.submit "t1" ⟨[1, 2, 3], 1⟩, .submitCall 0 .ok, .submitCall 0 .ok, .submitCall 0 .ok] ++
  ([("a", .node .dispatch), ("a", .node .followerTimeout), ("a", .node .dispatch),
    ("a", .node .startElection), ("b", .node (.handleRequestVote ⟨1, "a", 0, 0⟩)),
    ("a", .node (.voteReply "b" ⟨1, true⟩)), ("a", .node .wonElection),
    ("a", .node (.voteError "c")), ("a", .node .electionDone), ("a", .node .dispatch),
    ("a", .node .drainStepDown),
    ("a", .receive ⟨some submitBody, some "r1"⟩), ("a", .checkDispatched),
    ("a", .lookupS3Key true), ("a", .propose), ("a", .node (.sendAppend "b")),
    ("b", .node (.handleAppendEntries ⟨1, "a", 0, 0, [⟨1, 1, some submittedEncoded⟩], 0⟩)),
    ("a", .node (.appendReply "b" ⟨1, "a", 0, 0, [⟨1, 1, some submittedEncoded⟩], 0⟩ ⟨1, true⟩)),
    ("a", .node .applyWake), ("a", .node .applyRead), ("a", .mark), ("a", .checkLeader),
    ("a", .sendMessage true)] : List (String × Dispatch.Event)).map fun x =>
      .coordinator x.1 x.2 false false

/-- A worker processes the task without an error. -/
def taskProcessed : List Event :=
  .receive "w1" assignmentBody :: List.replicate 7 (.work 0 .ok "")

/-- The task is submitted, published and completed. -/
theorem no_dangling_references_of_task : ∃ s h, submittedJson.Lawful ∧
    Run (System.step submittedJson) (System.Admits ["a", "b", "c"]) (System.boot ["a", "b", "c"])
      [] s h ∧
    "t1" ∈ s.store.tasks ∧ s.ingest = [submitBody] ∧ s.assignments = [assignmentBody] ∧
      NoDanglingReferences submittedJson s := by
  obtain ⟨s, h, r, ht, hi, ha⟩ := exists_run_of_exec (System.step submittedJson)
    (System.Admits ["a", "b", "c"]) (System.boot ["a", "b", "c"]) []
    (taskPublished ++ taskProcessed)
    (fun s _ => "t1" ∈ s.store.tasks ∧ s.ingest = [submitBody] ∧ s.assignments = [assignmentBody])
    (by decide +kernel)
  exact ⟨s, h, submittedJson_lawful, r, ht, hi, ha, no_dangling_references submittedJson_lawful r⟩

end Driftless.Pipeline
