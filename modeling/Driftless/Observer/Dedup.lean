import Mathlib.Tactic.Linarith
import Driftless.Observer.Alerts

/-!
# Deduplication

`_maybe_send` is a cooldown over the keys of the alarms: the calls that the checks make follow the
table of last times, from one check to the next (`sends_checkAll`). A key that is not in the table
counts as sent at time 0, whatever the clock's origin is, so that the alerts are deduplicated, and
nothing more, exactly if no alarm is raised before the clock reads 120 seconds: `deduplicated_iff`.
An alarm of the first two minutes is lost: `first_alert_suppressed`.
-/

namespace Driftless.Observer

open Cooldown

/-! ## Calls of `_maybe_send` -/

def Raised.request (r : Raised) : Request String ℚ := ⟨r.alarm.key, r.time, r.sent⟩

/-- The time of the last message with a key, as `_maybe_send` looks it up. -/
def AlertManager.lastTime (m : AlertManager) (key : String) : ℚ := (m.lastSent.lookup key).getD 0

/-- From `m` to `m'` the manager makes the calls `rs`, at readings of the clock in between. -/
structure Sends (env : Env) (m m' : AlertManager) (rs : List Raised) : Prop where
  follows : Follows cooldown m.lastTime (rs.map Raised.request)
  table : m'.lastTime = Cooldown.table m.lastTime (rs.map Raised.request)
  readings : m.readings ≤ m'.readings
  times : ∀ r ∈ rs, ∃ n, m.readings ≤ n ∧ n < m'.readings ∧ r.time = env.monotonic n
  ordered : Ordered (rs.map Raised.request)
  sns : m'.disableSNS = m.disableSNS

/-- A step without a call. -/
theorem Sends.nil {env : Env} {m m' : AlertManager} (hlast : m'.lastSent = m.lastSent)
    (hread : m.readings ≤ m'.readings) (hsns : m'.disableSNS = m.disableSNS) :
    Sends env m m' [] where
  follows := trivial
  table := by
    funext key
    simp [AlertManager.lastTime, hlast]
  readings := hread
  times := by simp
  ordered := List.Pairwise.nil
  sns := hsns

section Sends

variable {env : Env} {m m₁ m₂ : AlertManager} {rs rs' : List Raised}

theorem Sends.trans (hmono : Monotone env.monotonic) (h : Sends env m m₁ rs)
    (h' : Sends env m₁ m₂ rs') : Sends env m m₂ (rs ++ rs') where
  follows := by
    rw [List.map_append, follows_append, ← h.table]
    exact ⟨h.follows, h'.follows⟩
  table := by rw [h'.table, h.table, List.map_append, table_append]
  readings := h.readings.trans h'.readings
  times r hr := by
    rcases List.mem_append.1 hr with hr | hr
    · obtain ⟨n, h₁, h₂, ht⟩ := h.times r hr
      exact ⟨n, h₁, h₂.trans_le h'.readings, ht⟩
    · obtain ⟨n, h₁, h₂, ht⟩ := h'.times r hr
      exact ⟨n, h.readings.trans h₁, h₂, ht⟩
  ordered := by
    rw [List.map_append]
    refine List.pairwise_append.2 ⟨h.ordered, h'.ordered, ?_⟩
    intro q hq q' hq'
    obtain ⟨r, hr, rfl⟩ := List.mem_map.1 hq
    obtain ⟨r', hr', rfl⟩ := List.mem_map.1 hq'
    obtain ⟨n, -, hn, ht⟩ := h.times r hr
    obtain ⟨n', hn', -, ht'⟩ := h'.times r' hr'
    show r.time ≤ r'.time
    rw [ht, ht']
    exact hmono (hn.le.trans hn')
  sns := h'.sns.trans h.sns

/-- A call is suppressed, or notes the time and publishes. -/
theorem AlertManager.maybeSend_cases (env : Env) (m : AlertManager) (a : Alarm) :
    (env.monotonic m.readings - m.lastTime a.key < cooldown ∧
      m.maybeSend env a = ({ m with readings := m.readings + 1 },
        ⟨a, env.monotonic m.readings, false⟩)) ∨
    (cooldown ≤ env.monotonic m.readings - m.lastTime a.key ∧
      m.maybeSend env a = ({ m with
          lastSent := m.lastSent.insert a.key (env.monotonic m.readings)
          readings := m.readings + 1 },
        ⟨a, env.monotonic m.readings, !m.disableSNS && env.publish m.readings⟩)) := by
  unfold maybeSend lastTime
  dsimp only
  split_ifs with hc
  · exact .inl ⟨hc, rfl⟩
  · exact .inr ⟨not_lt.1 hc, rfl⟩

/-- One call, of a manager whose messages are delivered. -/
theorem sends_maybeSend (hpub : ∀ n, env.publish n = true) (hsns : m.disableSNS = false)
    (a : Alarm) : Sends env m (m.maybeSend env a).1 [(m.maybeSend env a).2] := by
  have once : ∀ m' : AlertManager, m'.readings = m.readings + 1 → ∀ sent : Bool,
      ∀ r ∈ [(⟨a, env.monotonic m.readings, sent⟩ : Raised)],
        ∃ n, m.readings ≤ n ∧ n < m'.readings ∧ r.time = env.monotonic n := by
    intro m' hm' sent r hr
    rw [List.mem_singleton.1 hr]
    exact ⟨m.readings, le_rfl, by omega, rfl⟩
  rcases m.maybeSend_cases env a with ⟨hc, he⟩ | ⟨hc, he⟩ <;> rw [he]
  · refine ⟨⟨?_, trivial⟩, ?_, Nat.le_succ _, once _ rfl _, List.pairwise_singleton _ _, rfl⟩
    · simpa [Raised.request] using hc
    · simp [Raised.request, note, AlertManager.lastTime, funext_iff]
  · refine ⟨⟨?_, trivial⟩, ?_, Nat.le_succ _, once _ rfl _, List.pairwise_singleton _ _, rfl⟩
    · simpa [Raised.request, hpub, hsns] using hc
    · funext key
      by_cases hk : key = a.key
      · subst hk
        simp [Raised.request, note, AlertManager.lastTime, hpub, hsns]
      · simp [Raised.request, note, AlertManager.lastTime, hpub, hsns, hk,
          AList.lookup_insert_ne hk]

variable (hmono : Monotone env.monotonic) (hpub : ∀ n, env.publish n = true)
include hmono hpub

theorem sends_sendAll (hsns : m.disableSNS = false) (as : List Alarm) :
    Sends env m (m.sendAll env as).1 (m.sendAll env as).2 := by
  induction as generalizing m with
  | nil => exact .nil rfl le_rfl rfl
  | cons a as ih =>
    have h := sends_maybeSend hpub hsns a
    exact h.trans hmono (ih (h.sns.trans hsns))

theorem sends_checkNoLeader (hsns : m.disableSNS = false) (snap : ClusterSnapshot) :
    Sends env m (m.checkNoLeader env snap).1 (m.checkNoLeader env snap).2.2 := by
  have hread : Sends env m (m.leaderless env).1 [] := .nil rfl (Nat.le_succ _) rfl
  unfold AlertManager.checkNoLeader
  dsimp only
  split_ifs
  · exact .nil rfl le_rfl rfl
  · split
    · exact hread
    · split_ifs
      · exact hread
      · exact hread.trans hmono (sends_sendAll hmono hpub (hread.sns.trans hsns) _)

theorem sends_check (hsns : m.disableSNS = false) (snap : ClusterSnapshot) :
    Sends env m (m.check env snap).1 (m.check env snap).2.raised := by
  have h₁ := sends_sendAll hmono hpub hsns (splitBrainAlarms snap)
  have h₂ := h₁.trans hmono (sends_checkNoLeader hmono hpub (h₁.sns.trans hsns) snap)
  exact h₂.trans hmono (sends_sendAll hmono hpub (h₂.sns.trans hsns) (quorumLossAlarms snap))

/-- **The calls of all checks** follow one table. -/
theorem sends_checkAll (hsns : m.disableSNS = false) (snaps : List ClusterSnapshot) :
    Sends env m (m.checkAll env snaps).1 ((m.checkAll env snaps).2.flatMap Check.raised) := by
  induction snaps generalizing m with
  | nil => exact .nil rfl le_rfl rfl
  | cons snap snaps ih =>
    have h := sends_check hmono hpub hsns snap
    exact h.trans hmono (ih (h.sns.trans hsns))

end Sends

/-! ## The law -/

/-- An alarm is published exactly if none with its key was published in the preceding 120
seconds. -/
def Deduplicated (rs : List Raised) : Prop :=
  ∀ l r l', rs = l ++ r :: l' → (r.sent = true ↔
    ∀ a ∈ l, a.alarm.key = r.alarm.key → a.sent = true → cooldown ≤ r.time - a.time)

/-- What the checks of a new manager raise. -/
def raisedBy (env : Env) (snsTopicArn : String) (snaps : List ClusterSnapshot) : List Raised :=
  ((AlertManager.new snsTopicArn false).checkAll env snaps).2.flatMap Check.raised

/-- **Alerts are deduplicated** exactly if every alarm is raised at a clock reading of at least 120
seconds. -/
theorem deduplicated_iff {env : Env} (hmono : Monotone env.monotonic)
    (hpub : ∀ n, env.publish n = true) {snsTopicArn : String} (harn : snsTopicArn ≠ "")
    (snaps : List ClusterSnapshot) :
    Deduplicated (raisedBy env snsTopicArn snaps) ↔
      ∀ r ∈ raisedBy env snsTopicArn snaps, cooldown ≤ r.time := by
  have hsns : (AlertManager.new snsTopicArn false).disableSNS = false := by
    simp [AlertManager.new, harn]
  have hsends := sends_checkAll hmono hpub hsns snaps
  change Sends _ _ _ (raisedBy env snsTopicArn snaps) at hsends
  generalize raisedBy env snsTopicArn snaps = rs at hsends
  have hpassed : ∀ l r l', rs = l ++ r :: l' → (r.sent = true ↔ cooldown ≤ r.time ∧
      ∀ a ∈ l, a.alarm.key = r.alarm.key → a.sent = true → cooldown ≤ r.time - a.time) := by
    rintro l r l' rfl
    have hf := hsends.follows
    have ho := hsends.ordered
    rw [List.map_append, List.map_cons] at hf ho
    have hiff := hf.passed_iff ho
    simpa [Raised.request, AlertManager.lastTime, AlertManager.new] using hiff
  constructor
  · intro hded r hr
    obtain ⟨l, l', rfl⟩ := List.append_of_mem hr
    by_contra hlow
    have hno : ¬ r.sent = true := fun hs => hlow ((hpassed l r l' rfl).1 hs).1
    -- whatever suppressed the alarm was published in the first 120 seconds as well
    refine hno ((hded l r l' rfl).2 fun a ha hk hsent => ?_)
    obtain ⟨l₁, l₂, rfl⟩ := List.append_of_mem ha
    have hhigh := ((hpassed l₁ a (l₂ ++ r :: l') (by simp)).1 hsent).1
    have hle : a.time ≤ r.time := by
      have ho := hsends.ordered
      rw [List.map_append, List.map_append] at ho
      exact (List.pairwise_append.1 ho).2.2 a.request (by simp) r.request (by simp)
    exact absurd (hhigh.trans hle) hlow
  · intro hall l r l' hrs
    rw [hpassed l r l' hrs]
    exact and_iff_right (hall r (by simp [hrs]))

/-- Two leaders of term 3. -/
def twoLeaders : ClusterSnapshot :=
  ⟨[⟨"a", "leader", 3, true⟩, ⟨"b", "leader", 3, true⟩, ⟨"c", "follower", 3, true⟩]⟩

/-- A split brain is raised at 200 and at 300 seconds, and published once. With two leaders there is
no single one, which is raised after the grace period. -/
theorem deduplicated_of_splitBrain :
    (raisedBy ⟨fun n => 200 + 50 * n, fun _ => true⟩ "arn" [twoLeaders, twoLeaders]).map
      (fun r => (r.alarm.key, r.time, r.sent)) =
        [("split-brain:term=3:leaders=a,b", 200, true),
          ("split-brain:term=3:leaders=a,b", 300, false), ("no-leader:3", 400, true)] ∧
    Deduplicated
      (raisedBy ⟨fun n => 200 + 50 * n, fun _ => true⟩ "arn" [twoLeaders, twoLeaders]) := by
  refine ⟨by decide +kernel,
    (deduplicated_iff ?_ (fun _ => rfl) (by decide) _).2 (by decide +kernel)⟩
  intro a b hab
  have hcast : (a : ℚ) ≤ b := Nat.cast_le.2 hab
  show (200 : ℚ) + 50 * (a : ℚ) ≤ 200 + 50 * (b : ℚ)
  linarith

/-- **The first alert can be lost**: 50 seconds after the clock's origin a split brain is raised for
the first time, and is not published. -/
theorem first_alert_suppressed : ¬ ∀ (env : Env) (snsTopicArn : String)
    (snaps : List ClusterSnapshot), Monotone env.monotonic → (∀ n, 0 ≤ env.monotonic n) →
    (∀ n, env.publish n = true) → snsTopicArn ≠ "" →
      Deduplicated (raisedBy env snsTopicArn snaps) := by
  intro hall
  have hded := hall ⟨fun _ => 50, fun _ => true⟩ "arn" [twoLeaders] (fun _ _ _ => le_rfl)
    (fun _ => show (0 : ℚ) ≤ 50 by decide +kernel) (fun _ => rfl) (by decide)
  have hraised : raisedBy ⟨fun _ => 50, fun _ => true⟩ "arn" [twoLeaders] =
      [⟨splitBrainAlarm 3 ["a", "b"], 50, false⟩] := by decide +kernel
  rw [hraised] at hded
  have hsent := (hded [] _ [] rfl).2 (by simp)
  cases hsent

end Driftless.Observer
