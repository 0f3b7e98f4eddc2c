import Driftless.Raft.Types

/-!
# The tasks table and the payload bucket

What the programs of the pipeline keep in DynamoDB and S3: the items of the tasks table, and the
objects of the bucket. A `Write` is one call that changes either, under the condition expression the
caller gives it (`Store.accepts`); a DynamoDB update of a missing item creates it. A call takes
effect as a whole, and can report an error whether it took effect or not (`CallResult`). The time
stamps of an item are left out.
-/

namespace Driftless.Pipeline

open Raft

/-! ## Items and objects -/

inductive TaskStatus
  | pending
  | assigned
  | completed
  | failed
  deriving DecidableEq, Repr

/-- `statusCode` of `experiments/lincheck`. -/
def TaskStatus.code : TaskStatus → ℕ
  | .pending => 1
  | .assigned => 2
  | .completed => 3
  | .failed => 3

/-- An item of the tasks table, each attribute of which may be missing. -/
structure TaskItem where
  status : Option TaskStatus
  priority : Option ℤ
  s3Key : Option String
  resultKey : Option String
  receiveCount : Option ℕ
  deriving DecidableEq, Repr

/-- An item without attributes, which an update of a missing item starts from. -/
def TaskItem.blank : TaskItem := ⟨none, none, none, none, none⟩

/-- The key under which `handleSubmitTask` stores a payload. -/
def payloadKey (taskID : String) : String := "tasks/" ++ taskID ++ "/payload"

/-- The key under which `processTask` stores a result. -/
def resultKey (taskID : String) : String := "tasks/" ++ taskID ++ "/result"

structure Store where
  objects : AList fun _ : String => Bytes
  tasks : AList fun _ : String => TaskItem

/-! ## Writes -/

inductive Write
  | putObject (key : String) (body : Bytes)
  | putItem (taskID : String) (priority : ℤ) (s3Key : String)
  | updateStatus (taskID : String) (status : TaskStatus) (resultKey : String)
  | markAssigned (taskID : String)
  | incrementReceiveCount (taskID : String)
  deriving DecidableEq, Repr

/-- How a call ends: it took effect and returned, took effect and reported an error all the same, or
did nothing and reported an error. -/
inductive CallResult
  | ok
  | lost
  | failed
  deriving DecidableEq, Repr

namespace Store

/-- The item as an update sees it. -/
def item (st : Store) (taskID : String) : TaskItem := (st.tasks.lookup taskID).getD .blank

/-- The condition expression of a write. A comparison with `<>` holds of a missing attribute. -/
def accepts (st : Store) : Write → Prop
  | .updateStatus taskID _ _ => (st.item taskID).status ≠ some .completed
  | .markAssigned taskID =>
    (st.item taskID).status = none ∨ (st.item taskID).status = some .pending
  | _ => True

instance (st : Store) (w : Write) : Decidable (st.accepts w) := by
  unfold accepts
  split <;> infer_instance

def setItem (st : Store) (taskID : String) (item : TaskItem) : Store :=
  { st with tasks := st.tasks.insert taskID item }

def write (st : Store) : Write → Store
  | .putObject key body => { st with objects := st.objects.insert key body }
  | .putItem taskID priority s3Key =>
    st.setItem taskID ⟨some .pending, some priority, some s3Key, none, none⟩
  | .updateStatus taskID status resultKey =>
    st.setItem taskID
      { st.item taskID with
        status := some status
        resultKey := if resultKey ≠ "" then some resultKey else (st.item taskID).resultKey }
  | .markAssigned taskID => st.setItem taskID { st.item taskID with status := some .assigned }
  | .incrementReceiveCount taskID =>
    st.setItem taskID
      { st.item taskID with receiveCount := some (((st.item taskID).receiveCount.getD 0) + 1) }

/-- One call, with whether it returns without an error. -/
def perform (st : Store) (w : Write) (r : CallResult) : Store × Bool :=
  if r = .failed ∨ ¬ st.accepts w then (st, false) else (st.write w, decide (r = .ok))

/-- The status code of a task, 0 where there is no status. -/
def code (st : Store) (taskID : String) : ℕ := ((st.item taskID).status.map TaskStatus.code).getD 0

end Store

/-- The item a write is for. -/
def Write.task : Write → Option String
  | .putObject _ _ => none
  | .putItem taskID _ _ => some taskID
  | .updateStatus taskID _ _ => some taskID
  | .markAssigned taskID => some taskID
  | .incrementReceiveCount taskID => some taskID

namespace Store

variable {st : Store} {w : Write} {r : CallResult} {t : String}

theorem perform_cases (st : Store) (w : Write) (r : CallResult) :
    st.perform w r = (st, false) ∨
      (r ≠ .failed ∧ st.accepts w ∧ st.perform w r = (st.write w, decide (r = .ok))) := by
  unfold perform
  split_ifs with h
  · exact .inl rfl
  · exact .inr ⟨(not_or.1 h).1, by simpa using (not_or.1 h).2, rfl⟩

/-- A call that returned without an error took effect. -/
theorem perform_of_ok (h : (st.perform w r).2 = true) :
    st.accepts w ∧ (st.perform w r).1 = st.write w := by
  rcases st.perform_cases w r with he | ⟨-, hacc, he⟩
  · rw [he] at h
    cases h
  · exact ⟨hacc, by rw [he]⟩

@[simp] theorem setItem_objects (i : TaskItem) : (st.setItem t i).objects = st.objects := rfl

@[simp] theorem setItem_tasks (i : TaskItem) : (st.setItem t i).tasks = st.tasks.insert t i := rfl

/-- A write touches no item but its own. -/
theorem lookup_write_ne (h : w.task ≠ some t) :
    (st.write w).tasks.lookup t = st.tasks.lookup t := by
  cases w with
  | putObject key body => rfl
  | _ =>
    have hne : t ≠ _ := fun heq => h (congrArg some heq).symm
    exact AList.lookup_insert_ne hne

theorem item_write_ne (h : w.task ≠ some t) : (st.write w).item t = st.item t := by
  rw [item, item, lookup_write_ne h]

@[simp] theorem item_setItem (i : TaskItem) : (st.setItem t i).item t = i := by
  simp [item]

/-- Only a write for an item makes it. -/
theorem mem_write : t ∈ (st.write w).tasks ↔ t ∈ st.tasks ∨ w.task = some t := by
  cases w <;> simp [write, Write.task, or_comm, eq_comm]

/-! ## What a write keeps -/

/-- Whatever a store holds, a later one holds too: objects stay, and so do items with the keys and
priorities they were made with. -/
structure Extends (st st' : Store) : Prop where
  objects : ∀ key, key ∈ st.objects → key ∈ st'.objects
  tasks : ∀ t, t ∈ st.tasks → t ∈ st'.tasks ∧ (st'.item t).s3Key = (st.item t).s3Key ∧
    (st'.item t).priority = (st.item t).priority

theorem Extends.refl (st : Store) : st.Extends st := ⟨fun _ h => h, fun _ h => ⟨h, rfl, rfl⟩⟩

/-- A write is no new item under the id of an old one. -/
def Fresh (st : Store) (w : Write) : Prop :=
  ∀ taskID priority s3Key, w = .putItem taskID priority s3Key → taskID ∉ st.tasks

theorem extends_write (h : st.Fresh w) : st.Extends (st.write w) where
  objects key hk := by
    cases w <;> simp [write, hk]
  tasks t ht := by
    refine ⟨mem_write.2 (.inl ht), ?_⟩
    by_cases hw : w.task = some t
    · cases w with
      | putObject key body => cases hw
      | putItem taskID priority s3Key =>
        cases hw
        exact absurd ht (h _ _ _ rfl)
      | _ =>
        cases hw
        simp [write]
    · rw [item_write_ne hw]
      exact ⟨rfl, rfl⟩

theorem extends_perform (r : CallResult) (h : st.Fresh w) : st.Extends (st.perform w r).1 := by
  rcases st.perform_cases w r with he | ⟨-, -, he⟩
  · rw [he]
    exact .refl st
  · rw [he]
    exact extends_write h

end Store

end Driftless.Pipeline
