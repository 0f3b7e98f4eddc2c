import Mathlib.Algebra.Order.Ring.Rat
import Mathlib.Data.List.AList
import Mathlib.Data.List.Sort
import Driftless.Cooldown

/-!
# Alerts

The alert manager of `state-observer/alerts.py`, and what it reads of a `ClusterSnapshot` of
`raft_client.py`. Three detectors look at each snapshot and raise alarms, each under a key; an alarm
is published unless one with its key was sent recently.

Every call of `time.monotonic` returns the next reading of a clock, an exact rational. Whether a
publish succeeds is part of the environment. The bodies of the messages, and the texts for the
dashboard, are left out: nothing here depends on them.
-/

namespace Driftless.Observer

/-! ## Snapshots -/

structure NodeState where
  nodeID : String
  state : String
  currentTerm : ℤ
  reachable : Bool
  deriving DecidableEq, Repr

def NodeState.isLeader (n : NodeState) : Bool := n.state = "leader"

structure ClusterSnapshot where
  nodes : List NodeState
  deriving DecidableEq, Repr

/-- `d.setdefault(term, []).append(id)`. -/
def addLeader (d : List (ℤ × List String)) (term : ℤ) (id : String) : List (ℤ × List String) :=
  match d with
  | [] => [(term, [id])]
  | (t, ids) :: d => if t = term then (t, ids ++ [id]) :: d else (t, ids) :: addLeader d term id

namespace ClusterSnapshot

variable (snap : ClusterSnapshot)

def leaders : List NodeState := snap.nodes.filter NodeState.isLeader

def reachableCount : ℕ := (snap.nodes.filter NodeState.reachable).length

/-- The leader, where there is exactly one. -/
def leader : Option NodeState :=
  match snap.leaders with
  | [n] => some n
  | _ => none

/-- The highest term of the reachable nodes, 0 where there is none. -/
def currentTerm : ℤ :=
  match (snap.nodes.filter NodeState.reachable).map NodeState.currentTerm with
  | [] => 0
  | t :: ts => ts.foldl max t

/-- The leaders of each term, in the order in which the terms are met. -/
def leadersByTerm : List (ℤ × List String) :=
  snap.leaders.foldl (fun d n => addLeader d n.currentTerm n.nodeID) []

def splitBrainMessage : Option String :=
  (snap.leadersByTerm.find? fun x => x.2.length > 1).map fun x =>
    "SPLIT-BRAIN DETECTED: term=" ++ toString x.1 ++ " multiple leaders: " ++
      ", ".intercalate (x.2.insertionSort (· ≤ ·))

end ClusterSnapshot

/-! ## The alert manager -/

inductive Detector
  | splitBrain
  | noLeader
  | quorumLoss
  deriving DecidableEq, Repr

/-- What a detector passes to `_maybe_send`. -/
structure Alarm where
  detector : Detector
  key : String
  subject : String
  deriving DecidableEq, Repr

/-- A call of `_maybe_send`: the time it read, and what it returned. -/
structure Raised where
  alarm : Alarm
  time : ℚ
  sent : Bool
  deriving DecidableEq, Repr

/-- What the alert manager finds outside: the readings of `time.monotonic`, and whether a publish
after a reading returns without an error. -/
structure Env where
  monotonic : ℕ → ℚ
  publish : ℕ → Bool

structure AlertManager where
  disableSNS : Bool
  lastSent : AList fun _ : String => ℚ
  leaderlessSince : Option ℚ
  /-- The number of readings of the clock so far. -/
  readings : ℕ

def cooldown : ℚ := 120

def noLeaderTimeout : ℚ := 10

namespace AlertManager

def new (snsTopicArn : String) (disableSNS : Bool) : AlertManager :=
  ⟨disableSNS || decide (snsTopicArn = ""), ∅, none, 0⟩

/-- `_maybe_send`. -/
def maybeSend (env : Env) (m : AlertManager) (a : Alarm) : AlertManager × Raised :=
  let now := env.monotonic m.readings
  let last := (m.lastSent.lookup a.key).getD 0
  if now - last < cooldown then ({ m with readings := m.readings + 1 }, ⟨a, now, false⟩)
  else
    ({ m with lastSent := m.lastSent.insert a.key now, readings := m.readings + 1 },
      ⟨a, now, !m.disableSNS && env.publish m.readings⟩)

/-- Calls of `_maybe_send` one after the other. -/
def sendAll (env : Env) (m : AlertManager) : List Alarm → AlertManager × List Raised
  | [] => (m, [])
  | a :: as =>
    let r := m.maybeSend env a
    let rs := sendAll env r.1 as
    (rs.1, r.2 :: rs.2)

end AlertManager

/-! ## Detectors -/

def splitBrainAlarm (term : ℤ) (leaders : List String) : Alarm where
  detector := .splitBrain
  key := "split-brain:term=" ++ toString term ++ ":leaders=" ++
    ",".intercalate (leaders.insertionSort (· ≤ ·))
  subject := "[Driftless] SPLIT-BRAIN DETECTED in term " ++ toString term

/-- The alarms of `_check_split_brain`. -/
def splitBrainAlarms (snap : ClusterSnapshot) : List Alarm :=
  match snap.splitBrainMessage with
  | none => []
  | some _ =>
    (snap.leadersByTerm.filter fun x => x.2.length > 1).map fun x => splitBrainAlarm x.1 x.2

def noLeaderAlarm (term : ℤ) : Alarm where
  detector := .noLeader
  key := "no-leader:" ++ toString term
  subject := "[Driftless] No Raft leader elected"

def quorumLossAlarm (reachable total : ℕ) : Alarm where
  detector := .quorumLoss
  key := "quorum-loss:" ++ toString reachable ++ "/" ++ toString total
  subject := "[Driftless] Quorum loss — cluster cannot make progress"

/-- The alarms of `_check_quorum_loss`. -/
def quorumLossAlarms (snap : ClusterSnapshot) : List Alarm :=
  let total := snap.nodes.length
  if total = 0 then []
  else
    let quorum := total / 2 + 1
    if snap.reachableCount ≥ quorum then []
    else [quorumLossAlarm snap.reachableCount total]

/-- What a call of `check` did: the time `_check_no_leader` read, where the snapshot has no leader,
and the alarms. -/
structure Check where
  snapshot : ClusterSnapshot
  leaderlessAt : Option ℚ
  raised : List Raised

namespace AlertManager

/-- The reading of `_check_no_leader`, and the timer after it. -/
def leaderless (env : Env) (m : AlertManager) : AlertManager × ℚ :=
  let now := env.monotonic m.readings
  ({ m with leaderlessSince := some (m.leaderlessSince.getD now), readings := m.readings + 1 }, now)

/-- `_check_no_leader`. -/
def checkNoLeader (env : Env) (m : AlertManager) (snap : ClusterSnapshot) :
    AlertManager × Option ℚ × List Raised :=
  if snap.leader.isSome then ({ m with leaderlessSince := none }, none, [])
  else
    let r := m.leaderless env
    match m.leaderlessSince with
    | none => (r.1, some r.2, [])
    | some since =>
      if r.2 - since < noLeaderTimeout then (r.1, some r.2, [])
      else
        let rs := r.1.sendAll env [noLeaderAlarm snap.currentTerm]
        (rs.1, some r.2, rs.2)

def check (env : Env) (m : AlertManager) (snap : ClusterSnapshot) : AlertManager × Check :=
  let r₁ := m.sendAll env (splitBrainAlarms snap)
  let r₂ := r₁.1.checkNoLeader env snap
  let r₃ := r₂.1.sendAll env (quorumLossAlarms snap)
  (r₃.1, ⟨snap, r₂.2.1, r₁.2 ++ r₂.2.2 ++ r₃.2⟩)

/-- The calls of `check` on a list of snapshots. -/
def checkAll (env : Env) (m : AlertManager) : List ClusterSnapshot → AlertManager × List Check
  | [] => (m, [])
  | snap :: snaps =>
    let r := m.check env snap
    let rs := checkAll env r.1 snaps
    (rs.1, r.2 :: rs.2)

end AlertManager

end Driftless.Observer
