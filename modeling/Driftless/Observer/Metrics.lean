import Mathlib.Tactic.Linarith
import Driftless.Chunks
import Driftless.Observer.Alerts

/-!
# Metrics

The CloudWatch half of `metrics.py`. Every poll adds data points to a buffer, and once the publish
interval has passed the buffer is emptied, in requests of at most 1000 points. A request that fails
is logged, and the loop goes on with the next one.

Over any number of polls, every point is handed to `put_metric_data` once or is still in the buffer,
in the order in which the points were made; the requests have the size that CloudWatch takes; and
the publish interval lies between any two flushes: `metrics_published`.
-/

namespace Driftless.Observer

/-! ## Data points -/

/-- The fields of a `NodeState` that the metrics read. -/
structure NodeMetrics extends NodeState where
  commitIndex : ℤ
  logLength : ℤ
  /-- The items of the dictionary, where the node sent one. -/
  matchIndex : Option (List (String × ℤ))
  deriving DecidableEq, Repr

/-- `replication_lags`. -/
def NodeMetrics.replicationLags (n : NodeMetrics) : List (String × ℤ) :=
  if n.isLeader then
    (n.matchIndex.getD []).map fun x => (x.1, max 0 (n.commitIndex - x.2))
  else []

/-- A data point. Only whole numbers are published. -/
structure Datum where
  metricName : String
  value : ℤ
  unit : String
  dimensions : List (String × String)
  timestamp : String
  deriving DecidableEq, Repr

/-- `_cw_datum`. -/
def cwDatum (metricName : String) (value : ℤ) (dimensions : List (String × String))
    (timestamp : String) : Datum :=
  ⟨metricName, value, "Count", dimensions, timestamp⟩

/-- The points of a node. -/
def NodeMetrics.data (n : NodeMetrics) (ts : String) : List Datum :=
  let dim := [("NodeId", n.nodeID)]
  [cwDatum "CurrentTerm" n.currentTerm dim ts,
    cwDatum "CommitIndex" n.commitIndex dim ts,
    cwDatum "LogLength" n.logLength dim ts,
    cwDatum "IsLeader" (if n.isLeader then 1 else 0) dim ts,
    cwDatum "NodeUp" (if n.reachable then 1 else 0) dim ts] ++
  n.replicationLags.map fun x =>
    cwDatum "ReplicationLag" x.2 [("LeaderId", n.nodeID), ("PeerId", x.1)] ts

/-- The points of the cluster. -/
def ClusterSnapshot.data (snap : ClusterSnapshot) (ts : String) : List Datum :=
  [cwDatum "HasLeader" (if snap.leader.isSome then 1 else 0) [] ts,
    cwDatum "SplitBrain" (if snap.splitBrainMessage.isSome then 1 else 0) [] ts,
    cwDatum "LeaderTerm" ((snap.leader.map NodeState.currentTerm).getD 0) [] ts,
    cwDatum "NodesUp" snap.reachableCount [] ts]

/-- A call of `update`: the nodes of the snapshot, and the time stamp of its points. -/
structure Update where
  nodes : List NodeMetrics
  ts : String
  deriving DecidableEq, Repr

/-- What `_buffer_cloudwatch` adds. -/
def Update.data (u : Update) : List Datum :=
  u.nodes.flatMap (fun n => n.data u.ts) ++
    (ClusterSnapshot.mk (u.nodes.map NodeMetrics.toNodeState)).data u.ts

/-! ## The publisher -/

structure MetricsPublisher where
  cwInterval : ℚ
  lastCWPublish : ℚ
  pendingMetrics : List Datum
  /-- The number of readings of the clock so far. -/
  readings : ℕ

/-- A flush: the time it noted, and the `MetricData` of its requests. -/
structure Flush where
  time : ℚ
  batches : List (List Datum)

namespace MetricsPublisher

/-- The publisher at the start, with CloudWatch enabled. -/
def new (cwInterval : ℚ) : MetricsPublisher := ⟨cwInterval, 0, [], 0⟩

/-- `_flush_cloudwatch`. -/
def flushCloudwatch (monotonic : ℕ → ℚ) (m : MetricsPublisher) : MetricsPublisher × List Flush :=
  if m.pendingMetrics = [] then (m, [])
  else
    let now := monotonic m.readings
    ({ m with pendingMetrics := [], lastCWPublish := now, readings := m.readings + 1 },
      [⟨now, chunks 1000 m.pendingMetrics⟩])

/-- `update`, without the gauges of Prometheus. -/
def update (monotonic : ℕ → ℚ) (m : MetricsPublisher) (u : Update) :
    MetricsPublisher × List Flush :=
  let now := monotonic m.readings
  let m' := { m with
    pendingMetrics := m.pendingMetrics ++ u.data
    readings := m.readings + 1 }
  if now - m'.lastCWPublish ≥ m'.cwInterval then m'.flushCloudwatch monotonic else (m', [])

/-- The calls of `update` one after the other. -/
def updateAll (monotonic : ℕ → ℚ) (m : MetricsPublisher) :
    List Update → MetricsPublisher × List Flush
  | [] => (m, [])
  | u :: us =>
    let r := m.update monotonic u
    let rs := updateAll monotonic r.1 us
    (rs.1, r.2 ++ rs.2)

end MetricsPublisher

/-! ## What is published -/

/-- All points of some flushes. -/
def published (fs : List Flush) : List Datum := (fs.flatMap Flush.batches).flatten

/-- What calls of `update` do to a publisher: they publish or keep the points, in requests of the
right size, at readings of the clock that are at least the interval apart. -/
structure Publishes (monotonic : ℕ → ℚ) (m : MetricsPublisher) (us : List Update)
    (m' : MetricsPublisher) (fs : List Flush) : Prop where
  points : published fs ++ m'.pendingMetrics = m.pendingMetrics ++ us.flatMap Update.data
  sizes : ∀ f ∈ fs, ∀ b ∈ f.batches, b ≠ [] ∧ b.length ≤ 1000
  readings : ∀ f ∈ fs, ∃ k, m.readings ≤ k ∧ f.time = monotonic k
  after : ∀ f ∈ fs, m.lastCWPublish + m.cwInterval ≤ f.time
  apart : fs.Pairwise fun f f' => f.time + m.cwInterval ≤ f'.time

section Update

variable {monotonic : ℕ → ℚ} {m : MetricsPublisher} {u : Update}

theorem Update.data_ne_nil (u : Update) : u.data ≠ [] := by
  simp [Update.data, ClusterSnapshot.data]

/-- An update keeps its points, or empties the buffer: it always has points of the cluster. -/
theorem MetricsPublisher.update_cases (monotonic : ℕ → ℚ) (m : MetricsPublisher) (u : Update) :
    m.update monotonic u =
        ({ m with
          pendingMetrics := m.pendingMetrics ++ u.data
          readings := m.readings + 1 }, []) ∨
      m.lastCWPublish + m.cwInterval ≤ monotonic m.readings ∧
        m.update monotonic u =
          ({ m with
            pendingMetrics := []
            lastCWPublish := monotonic (m.readings + 1)
            readings := m.readings + 2 },
            [⟨monotonic (m.readings + 1), chunks 1000 (m.pendingMetrics ++ u.data)⟩]) := by
  have hne : m.pendingMetrics ++ u.data ≠ [] := List.append_ne_nil_of_right_ne_nil _ u.data_ne_nil
  by_cases hdue : monotonic m.readings - m.lastCWPublish ≥ m.cwInterval
  · refine .inr ⟨le_sub_iff_add_le'.1 hdue, ?_⟩
    simp only [update, hdue, if_true, flushCloudwatch, hne, if_false]
  · exact .inl (by simp only [update, hdue, if_false])

theorem publishes_updateAll (hmono : Monotone monotonic) (us : List Update)
    (m : MetricsPublisher) :
    Publishes monotonic m us (m.updateAll monotonic us).1 (m.updateAll monotonic us).2 := by
  induction us generalizing m with
  | nil => exact ⟨by simp [MetricsPublisher.updateAll, published], nofun, nofun, nofun, .nil⟩
  | cons u us ih =>
    rw [MetricsPublisher.updateAll]
    rcases m.update_cases monotonic u with hkeep | ⟨hdue, hflush⟩
    · rw [hkeep]
      have hi := ih { m with
        pendingMetrics := m.pendingMetrics ++ u.data
        readings := m.readings + 1 }
      refine ⟨?_, hi.sizes, fun f hf => ?_, hi.after, hi.apart⟩
      · simpa using hi.points
      · obtain ⟨k, hk, ht⟩ := hi.readings f hf
        exact ⟨k, (Nat.le_succ _).trans hk, ht⟩
    · rw [hflush]
      have hi := ih { m with
        pendingMetrics := []
        lastCWPublish := monotonic (m.readings + 1)
        readings := m.readings + 2 }
      have hflat := flatten_chunks (n := 1000) (by decide) (m.pendingMetrics ++ u.data)
      have hpoints := hi.points
      constructor
      · simp only [published, List.nil_append] at hpoints
        simp [published, hflat, hpoints]
      · rintro f (hf | ⟨_, hf⟩) b hb
        · exact ⟨ne_nil_of_mem_chunks (by decide) hb, length_le_of_mem_chunks hb⟩
        · exact hi.sizes f hf b hb
      · rintro f (hf | ⟨_, hf⟩)
        · exact ⟨m.readings + 1, Nat.le_succ _, rfl⟩
        · obtain ⟨k, hk, ht⟩ := hi.readings f hf
          exact ⟨k, (Nat.le_add_right _ 2).trans hk, ht⟩
      · rintro f (hf | ⟨_, hf⟩)
        · exact hdue.trans (hmono (Nat.le_succ _))
        · -- later flushes are at later readings
          obtain ⟨k, hk, ht⟩ := hi.readings f hf
          rw [ht]
          exact hdue.trans (hmono ((Nat.le_add_right _ 2).trans hk))
      · exact List.pairwise_cons.2 ⟨hi.after, hi.apart⟩

end Update

/-- **Every point is published once**: whatever requests fail, the points of all polls are those of
the requests, one after the other, and those still in the buffer; a request has between 1 and 1000
points, and two flushes are at least the publish interval apart. -/
theorem metrics_published {monotonic : ℕ → ℚ} (hmono : Monotone monotonic) (cwInterval : ℚ)
    (us : List Update) {m : MetricsPublisher} {fs : List Flush}
    (hr : (MetricsPublisher.new cwInterval).updateAll monotonic us = (m, fs)) :
    published fs ++ m.pendingMetrics = us.flatMap Update.data ∧
      (∀ f ∈ fs, ∀ b ∈ f.batches, b ≠ [] ∧ b.length ≤ 1000) ∧
      fs.Pairwise fun f f' => f.time + cwInterval ≤ f'.time := by
  have hp := publishes_updateAll hmono us (MetricsPublisher.new cwInterval)
  rw [hr] at hp
  exact ⟨hp.points, hp.sizes, hp.apart⟩

/-- A leader with a follower that lags. -/
def lagging (ts : String) : Update where
  nodes := [⟨⟨"a", "leader", 2, true⟩, 7, 8, some [("b", 5)]⟩,
    ⟨⟨"b", "follower", 2, true⟩, 5, 6, none⟩]
  ts := ts

/-- Three polls, 30 seconds apart, the last of which is due. -/
theorem metrics_published_of_lag : Monotone (fun n : ℕ => 30 * (n : ℚ)) ∧ ∃ m fs,
    (MetricsPublisher.new 60).updateAll (fun n => 30 * n) (["1", "2", "3"].map lagging) = (m, fs) ∧
      fs.map Flush.time = [90] ∧
      published fs = (["1", "2", "3"].map lagging).flatMap Update.data := by
  have hmono : Monotone (fun n : ℕ => 30 * (n : ℚ)) := fun a b hab =>
    mul_le_mul_of_nonneg_left (Nat.cast_le.2 hab) (by decide)
  have hcheck : (fun r : MetricsPublisher × List Flush =>
      r.2.map Flush.time = [90] ∧ r.1.pendingMetrics = []) ((MetricsPublisher.new 60).updateAll
        (fun n => 30 * n) (["1", "2", "3"].map lagging)) := by decide +kernel
  rcases hr : (MetricsPublisher.new 60).updateAll (fun n => 30 * n)
    (["1", "2", "3"].map lagging) with ⟨m, fs⟩
  rw [hr] at hcheck
  have hp := (metrics_published hmono 60 _ hr).1
  rw [hcheck.2, List.append_nil] at hp
  exact ⟨hmono, m, fs, rfl, hcheck.1, hp⟩

end Driftless.Observer
