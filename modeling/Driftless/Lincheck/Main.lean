import Mathlib.Data.List.AList
import Mathlib.Data.List.Sort
import Driftless.Linearizability

/-!
# The linearizability checker

The program of `experiments/lincheck/main.go`. It reads the observations of task statuses that an
experiment wrote to `history.jsonl`, groups them by task, and has Porcupine check each group against
a model in which the status of a task only moves forward.

Porcupine, `encoding/json`, the order in which a map is ranged over and the order that `sort.Slice`
leaves equal elements in are parameters (`Env`), with their documented behaviour as laws
(`Env.Lawful`). Flags, the printed result and its copy in a file are left out.
-/

namespace Driftless.Lincheck

open Linearizability

/-! ## Status codes and the model -/

def codeUnknown : ℕ := 0

def codePending : ℕ := 1

/-- The code of `COMPLETED` and `FAILED`. -/
def codeTerminal : ℕ := 3

def statusCode (s : String) : ℕ :=
  if s = "PENDING" then codePending
  else if s = "ASSIGNED" then codePending + 1
  else if s = "COMPLETED" ∨ s = "FAILED" then codeTerminal
  else codeUnknown

structure PollInput where
  taskID : String
  deriving DecidableEq, Repr

structure PollOutput where
  code : ℕ
  deriving DecidableEq, Repr

/-- A poll of a task's status, with its times in nanoseconds. -/
abbrev Poll := Operation PollInput PollOutput ℤ

/-- The state is the largest code observed so far. -/
def monotoneModel : Model ℕ PollInput PollOutput where
  init := 0
  step cur _ output :=
    let code := output.code
    if code = codeUnknown then (true, cur)
    else if code < cur then (false, cur)
    else
      let newMax := if cur > code then cur else code
      (true, newMax)

/-! ## Reading the history -/

structure RawEvent where
  op : String
  taskID : String
  callNs : ℤ
  returnNs : ℤ
  status : String
  deriving DecidableEq, Repr

abbrev Groups := AList fun _ : String => List Poll

/-- The variables of the loop of `loadHistory`. -/
structure Loading where
  groups : Groups
  clientID : AList fun _ : String => ℕ
  nextID : ℕ

namespace Loading

def empty : Loading := ⟨∅, ∅, 0⟩

/-- A client id for each task, in the order in which the tasks are met. -/
def addClient (l : Loading) (taskID : String) : Loading :=
  if (l.clientID.lookup taskID).isSome then l
  else { l with clientID := l.clientID.insert taskID l.nextID, nextID := l.nextID + 1 }

/-- What the loop does with a decoded line. -/
def addEvent (l : Loading) (ev : RawEvent) : Loading :=
  if ev.op ≠ "poll_observe" ∨ ev.taskID = "" then l
  else
    let code := statusCode ev.status
    if code = codeUnknown then l
    else
      let l := l.addClient ev.taskID
      let op : Poll :=
        { clientID := (l.clientID.lookup ev.taskID).getD 0
          input := ⟨ev.taskID⟩
          output := ⟨code⟩
          call := ev.callNs
          ret := ev.returnNs }
      { l with
        groups := l.groups.insert ev.taskID ((l.groups.lookup ev.taskID).getD [] ++ [op]) }

end Loading

/-- The lines that the scanner yields, and its error. -/
structure History where
  lines : List String
  err : Option String

/-- What the program finds outside. -/
structure Env where
  /-- `json.Unmarshal`, where it returns no error. -/
  unmarshal : String → Option RawEvent
  /-- The entries of a map in the order of `range`. -/
  range : Groups → List (Sigma fun _ : String => List Poll)
  /-- `sort.Slice` by `Call`. -/
  sortByCall : List Poll → List Poll
  /-- `porcupine.CheckOperations`. -/
  checkOperations : (σ : Type) → Model σ PollInput PollOutput → List Poll → Bool

/-- Porcupine is exact on operations that return after their call. -/
structure Env.Lawful (env : Env) : Prop where
  range_perm : ∀ groups, (env.range groups).Perm groups.entries
  sort_perm : ∀ ops, (env.sortByCall ops).Perm ops
  sorted : ∀ ops, (env.sortByCall ops).Pairwise fun a b => a.call ≤ b.call
  exact : ∀ (σ : Type) (m : Model σ PollInput PollOutput) (ops : List Poll),
    (∀ o ∈ ops, o.call ≤ o.ret) → (env.checkOperations σ m ops = true ↔ Linearizable m ops)

namespace Env

variable (env : Env)

/-- One round of the loop: empty lines and lines that do not decode are skipped. -/
def addLine (l : Loading) (line : String) : Loading :=
  if line = "" then l
  else
    match env.unmarshal line with
    | none => l
    | some ev => l.addEvent ev

/-- The file is an error where it could not be opened. -/
def loadHistory (file : Except String History) : Except String Groups :=
  match file with
  | .error err => .error err
  | .ok history =>
    let l := history.lines.foldl env.addLine .empty
    match history.err with
    | some err => .error err
    | none => .ok l.groups

end Env

/-! ## The check -/

structure CheckResult where
  totalTasks : ℕ
  totalOperations : ℕ
  violations : ℕ
  violatingTaskSample : List String
  linearizable : Bool
  deriving DecidableEq, Repr

/-- The variables of the loop over the tasks. -/
structure Tally where
  violating : List String
  totalOps : ℕ

namespace Env

variable (env : Env)

/-- One task of the loop. -/
def checkTask (t : Tally) (task : Sigma fun _ : String => List Poll) : Tally :=
  let totalOps := t.totalOps + task.2.length
  let ops := env.sortByCall task.2
  if env.checkOperations ℕ monotoneModel ops then { t with totalOps := totalOps }
  else { violating := t.violating ++ [task.1], totalOps := totalOps }

def main (file : Except String History) : Except String CheckResult :=
  match env.loadHistory file with
  | .error err => .error ("failed to read history: " ++ err)
  | .ok groups =>
    let t := (env.range groups).foldl env.checkTask ⟨[], 0⟩
    let violating := t.violating.insertionSort (· ≤ ·)
    let sample := if violating.length > 20 then violating.take 20 else violating
    .ok
      { totalTasks := groups.entries.length
        totalOperations := t.totalOps
        violations := violating.length
        violatingTaskSample := sample
        linearizable := decide (violating.length = 0) }

end Env

end Driftless.Lincheck
