import Mathlib.Data.List.Chain
import Mathlib.Data.List.DropRight
import Driftless.Observer.Dedup

/-!
# Leaderless stretches

While no single leader is seen, `_check_no_leader` runs a timer of its own and raises an alarm at
every check after the first ten seconds. Its key has the term of the snapshot, so that the cooldown
separates the messages of a stretch only as long as the term stays: a check that shows another term
publishes again. `noFlood_iff` says exactly when the messages of all stretches are 120 seconds
apart, given that they are delivered, and `noFlood_of_terms` that they are where each stretch shows
one term; none is published in the first ten seconds in any case (`Calm.grace`). `leaderless_flood`
is an incident of 40 seconds with two messages.
-/

namespace Driftless.Observer

open Cooldown

/-! ## Stretches -/

def Check.leaderless (c : Check) : Bool := c.snapshot.leader.isNone

/-- The leaderless stretch that the last check belongs to, up to it. -/
def stretch (cs : List Check) : List Check := cs.rtakeWhile Check.leaderless

/-- The messages that say there is no leader. -/
def noLeaderMessages (cs : List Check) : List Raised :=
  (cs.flatMap Check.raised).filter fun r => r.alarm.detector = .noLeader ∧ r.sent = true

/-- A stretch publishes nothing in its first 10 seconds, and then messages 120 seconds apart. -/
structure Calm (st : List Check) : Prop where
  grace : ∀ r ∈ noLeaderMessages st, ∀ c ∈ st.head?, ∀ t ∈ c.leaderlessAt,
    noLeaderTimeout ≤ r.time - t
  apart : (noLeaderMessages st).Pairwise fun r r' => cooldown ≤ r'.time - r.time

/-- No leaderless stretch floods: looking back from any check. -/
def NoFlood (cs : List Check) : Prop := ∀ cs', cs' <+: cs → Calm (stretch cs')

@[simp] theorem noLeaderMessages_append (cs cs' : List Check) :
    noLeaderMessages (cs ++ cs') = noLeaderMessages cs ++ noLeaderMessages cs' := by
  simp [noLeaderMessages]

theorem stretch_concat (cs : List Check) (c : Check) :
    stretch (cs ++ [c]) = if c.leaderless then stretch cs ++ [c] else [] :=
  List.rtakeWhile_concat _ _ _

theorem calm_nil : Calm [] := ⟨by simp, by simp [noLeaderMessages]⟩

theorem noFlood_nil : NoFlood [] := fun _ hcs => List.prefix_nil.1 hcs ▸ calm_nil

/-- A check without a message keeps a stretch calm. -/
theorem Calm.concat {st : List Check} (h : Calm st) {c : Check} (hc : noLeaderMessages [c] = []) :
    Calm (st ++ [c]) := by
  have hmsg : noLeaderMessages (st ++ [c]) = noLeaderMessages st := by simp [hc]
  refine ⟨fun r hr c₀ hc₀ => ?_, hmsg ▸ h.apart⟩
  rw [hmsg] at hr
  cases st with
  | nil => simp [noLeaderMessages] at hr
  | cons c' st => exact h.grace r hr c₀ hc₀

/-- A message at the end of a stretch comes 120 seconds after all others. -/
theorem Calm.concat_iff {st : List Check} (h : Calm st) {c c₀ : Check} {r : Raised}
    (hc : noLeaderMessages [c] = [r]) (hhead : st.head? = some c₀)
    (hgrace : ∀ t ∈ c₀.leaderlessAt, noLeaderTimeout ≤ r.time - t) :
    Calm (st ++ [c]) ↔ ∀ r' ∈ noLeaderMessages st, cooldown ≤ r.time - r'.time := by
  have hmsg : noLeaderMessages (st ++ [c]) = noLeaderMessages st ++ [r] := by simp [hc]
  have hhead' : (st ++ [c]).head? = some c₀ := by simp [List.head?_append, hhead]
  constructor
  · intro hcalm r' hr'
    have hap := hcalm.apart
    rw [hmsg] at hap
    exact (List.pairwise_append.1 hap).2.2 r' hr' r (by simp)
  · intro hall
    refine ⟨fun r' hr' c' hc' => ?_, ?_⟩
    · rw [hhead'] at hc'
      obtain rfl := Option.some.inj hc'
      rw [hmsg] at hr'
      rcases List.mem_append.1 hr' with hr' | hr'
      · exact h.grace r' hr' c₀ hhead
      · rw [List.mem_singleton.1 hr']
        exact hgrace
    · rw [hmsg]
      refine List.pairwise_append.2 ⟨h.apart, List.pairwise_singleton _ _, ?_⟩
      intro r' hr' r'' hr''
      rw [List.mem_singleton.1 hr'']
      exact hall r' hr'

theorem noFlood_concat {cs : List Check} {c : Check} :
    NoFlood (cs ++ [c]) ↔ NoFlood cs ∧ Calm (stretch (cs ++ [c])) := by
  constructor
  · intro h
    exact ⟨fun cs' hcs' => h cs' (hcs'.trans (List.prefix_append _ _)), h _ List.prefix_rfl⟩
  · rintro ⟨h, hc⟩ cs' hcs'
    rcases List.prefix_concat_iff.1 hcs' with rfl | hcs'
    · exact hc
    · exact h cs' hcs'

/-! ## The alarm of a check -/

namespace AlertManager

variable (env : Env) (m : AlertManager) (snap : ClusterSnapshot)

/-- The manager when `_check_no_leader` is called. -/
def beforeNoLeader : AlertManager := (m.sendAll env (splitBrainAlarms snap)).1

/-- The alarm about a missing leader, at the reading of its `_maybe_send`. -/
def noLeaderRaised : List Raised :=
  match m.leaderlessSince with
  | none => []
  | some since =>
    if noLeaderTimeout ≤ env.monotonic m.readings - since ∧
        cooldown ≤ env.monotonic (m.readings + 1) - m.lastTime (noLeaderAlarm snap.currentTerm).key
    then [⟨noLeaderAlarm snap.currentTerm, env.monotonic (m.readings + 1), true⟩]
    else []

end AlertManager

section Check

variable {env : Env} {m : AlertManager} {snap : ClusterSnapshot}

/-- Other detectors have other keys. -/
def Alarm.Proper (a : Alarm) : Prop :=
  (∃ term, a = noLeaderAlarm term) ∨
    (a.detector ≠ .noLeader ∧ ∀ term, a.key ≠ (noLeaderAlarm term).key)

theorem splitBrainAlarm_other (term : ℤ) (leaders : List String) :
    (splitBrainAlarm term leaders).detector ≠ .noLeader ∧
      ∀ t, (splitBrainAlarm term leaders).key ≠ (noLeaderAlarm t).key := by
  refine ⟨by simp [splitBrainAlarm], fun t h => ?_⟩
  have hhead := congrArg (fun s => s.toList.head?) h
  simp [splitBrainAlarm, noLeaderAlarm] at hhead

theorem quorumLossAlarm_other (reachable total : ℕ) :
    (quorumLossAlarm reachable total).detector ≠ .noLeader ∧
      ∀ t, (quorumLossAlarm reachable total).key ≠ (noLeaderAlarm t).key := by
  refine ⟨by simp [quorumLossAlarm], fun t h => ?_⟩
  have hhead := congrArg (fun s => s.toList.head?) h
  simp [quorumLossAlarm, noLeaderAlarm] at hhead

theorem mem_splitBrainAlarms {a : Alarm} (h : a ∈ splitBrainAlarms snap) :
    a.detector ≠ .noLeader ∧ ∀ term, a.key ≠ (noLeaderAlarm term).key := by
  unfold splitBrainAlarms at h
  split at h
  · cases h
  · obtain ⟨x, -, rfl⟩ := List.mem_map.1 h
    exact splitBrainAlarm_other x.1 x.2

theorem mem_quorumLossAlarms {a : Alarm} (h : a ∈ quorumLossAlarms snap) :
    a.detector ≠ .noLeader ∧ ∀ term, a.key ≠ (noLeaderAlarm term).key := by
  unfold quorumLossAlarms at h
  dsimp only at h
  split_ifs at h
  · cases h
  · cases h
  · rw [List.mem_singleton.1 h]
    exact quorumLossAlarm_other _ _

theorem map_alarm_sendAll (env : Env) (m : AlertManager) (as : List Alarm) :
    (m.sendAll env as).2.map Raised.alarm = as := by
  induction as generalizing m with
  | nil => rfl
  | cons a as ih =>
    rcases m.maybeSend_cases env a with ⟨-, he⟩ | ⟨-, he⟩ <;>
      simp [AlertManager.sendAll, he, ih]

theorem alarm_mem_of_mem_sendAll {as : List Alarm} {r : Raised} (h : r ∈ (m.sendAll env as).2) :
    r.alarm ∈ as := by
  rw [← map_alarm_sendAll env m as]
  exact List.mem_map_of_mem h

@[simp] theorem sendAll_leaderlessSince (env : Env) (m : AlertManager) (as : List Alarm) :
    (m.sendAll env as).1.leaderlessSince = m.leaderlessSince := by
  induction as generalizing m with
  | nil => rfl
  | cons a as ih =>
    rcases m.maybeSend_cases env a with ⟨-, he⟩ | ⟨-, he⟩ <;>
      simp [AlertManager.sendAll, he, ih]

/-- The calls of the other detectors are not about the leader. -/
theorem filter_noLeader_eq_nil {as : List Alarm} (h : ∀ a ∈ as, a.detector ≠ .noLeader) :
    ((m.sendAll env as).2.filter fun r => r.alarm.detector = .noLeader ∧ r.sent = true) = [] := by
  refine List.filter_eq_nil_iff.2 fun r hr => ?_
  simp [h r.alarm (alarm_mem_of_mem_sendAll hr)]

/-- The call of `_check_no_leader` is there exactly if it passes the timer and the cooldown. -/
theorem filter_checkNoLeader (hpub : ∀ n, env.publish n = true) (hsns : m.disableSNS = false)
    (hl : snap.leader.isSome = false) :
    ((m.checkNoLeader env snap).2.2.filter
      fun r => r.alarm.detector = .noLeader ∧ r.sent = true) = m.noLeaderRaised env snap := by
  unfold AlertManager.checkNoLeader AlertManager.noLeaderRaised
  simp only [hl, Bool.false_eq_true, if_false]
  cases m.leaderlessSince with
  | none => rfl
  | some since =>
    have hnow : (m.leaderless env).2 = env.monotonic m.readings := rfl
    have hlast : (m.leaderless env).1.lastTime = m.lastTime := rfl
    have hread : (m.leaderless env).1.readings = m.readings + 1 := rfl
    have hon : (m.leaderless env).1.disableSNS = false := hsns
    have hdet : (noLeaderAlarm snap.currentTerm).detector = .noLeader := rfl
    simp only [hnow]
    by_cases hg : env.monotonic m.readings - since < noLeaderTimeout
    · simp [hg, not_le.2 hg]
    · rcases (m.leaderless env).1.maybeSend_cases env (noLeaderAlarm snap.currentTerm) with
        ⟨hc, he⟩ | ⟨hc, he⟩
      · rw [hread, hlast] at hc
        simp [hg, AlertManager.sendAll, he, not_le.2 hc]
      · rw [hread, hlast] at hc
        simp [hg, AlertManager.sendAll, he, hc, hread, hon, hpub, not_lt.1 hg, hdet]

theorem check_raised (env : Env) (m : AlertManager) (snap : ClusterSnapshot) :
    (m.check env snap).2.raised = (m.sendAll env (splitBrainAlarms snap)).2 ++
      ((m.beforeNoLeader env snap).checkNoLeader env snap).2.2 ++
      (((m.beforeNoLeader env snap).checkNoLeader env snap).1.sendAll env
        (quorumLossAlarms snap)).2 :=
  rfl

theorem check_of_leader (hl : snap.leader.isSome = true) :
    (m.check env snap).2.leaderless = false ∧ (m.check env snap).1.leaderlessSince = none := by
  constructor
  · simpa [AlertManager.check, Check.leaderless] using hl
  · simp [AlertManager.check, AlertManager.checkNoLeader, hl]

/-- **A check without a leader**: the reading of the clock, the timer, and the message. -/
theorem check_of_leaderless (hpub : ∀ n, env.publish n = true) (hsns : m.disableSNS = false)
    (hmono : Monotone env.monotonic) (hl : snap.leader.isSome = false) :
    (m.check env snap).2.leaderless = true ∧
      (m.check env snap).2.leaderlessAt =
        some (env.monotonic (m.beforeNoLeader env snap).readings) ∧
      (m.check env snap).1.leaderlessSince =
        some (m.leaderlessSince.getD (env.monotonic (m.beforeNoLeader env snap).readings)) ∧
      noLeaderMessages [(m.check env snap).2] =
        (m.beforeNoLeader env snap).noLeaderRaised env snap := by
  have hsns₁ : (m.beforeNoLeader env snap).disableSNS = false :=
    (sends_sendAll hmono hpub hsns _).sns.trans hsns
  have hsince : (m.beforeNoLeader env snap).leaderlessSince = m.leaderlessSince :=
    sendAll_leaderlessSince env m _
  refine ⟨by simpa [AlertManager.check, Check.leaderless] using hl, ?_, ?_, ?_⟩
  · show ((m.beforeNoLeader env snap).checkNoLeader env snap).2.1 = _
    unfold AlertManager.checkNoLeader
    simp only [hl, Bool.false_eq_true, if_false]
    split
    · rfl
    · split_ifs <;> rfl
  · show (((m.beforeNoLeader env snap).checkNoLeader env snap).1.sendAll env
      (quorumLossAlarms snap)).1.leaderlessSince = _
    rw [sendAll_leaderlessSince]
    unfold AlertManager.checkNoLeader
    simp only [hl, Bool.false_eq_true, if_false]
    split
    · simp [AlertManager.leaderless, hsince]
    · split_ifs <;> simp [AlertManager.leaderless, hsince]
  · simp only [noLeaderMessages, List.flatMap_singleton, check_raised, List.filter_append,
      filter_noLeader_eq_nil fun a ha => (mem_splitBrainAlarms ha).1,
      filter_noLeader_eq_nil fun a ha => (mem_quorumLossAlarms ha).1, List.nil_append,
      List.append_nil]
    exact filter_checkNoLeader hpub hsns₁ hl

theorem noLeaderRaised_alarm {r : Raised} (h : r ∈ m.noLeaderRaised env snap) :
    r.alarm = noLeaderAlarm snap.currentTerm := by
  unfold AlertManager.noLeaderRaised at h
  split at h
  · cases h
  · split_ifs at h
    · rw [List.mem_singleton.1 h]
    · cases h

/-- All alarms of a check. -/
theorem proper_check {r : Raised} (h : r ∈ (m.check env snap).2.raised) : r.alarm.Proper := by
  rw [check_raised, List.mem_append, List.mem_append] at h
  rcases h with (h | h) | h
  · exact .inr (mem_splitBrainAlarms (alarm_mem_of_mem_sendAll h))
  · unfold AlertManager.checkNoLeader at h
    dsimp only at h
    split_ifs at h
    · cases h
    · split at h
      · cases h
      · split_ifs at h
        · cases h
        · exact .inl ⟨_, List.mem_singleton.1 (alarm_mem_of_mem_sendAll h)⟩
  · exact .inr (mem_quorumLossAlarms (alarm_mem_of_mem_sendAll h))

end Check

/-! ## The manager and the checks so far -/

/-- What the manager knows of the checks it has made. -/
structure Tracks (env : Env) (m₀ m : AlertManager) (cs : List Check) : Prop where
  sends : Sends env m₀ m (cs.flatMap Check.raised)
  stamped : ∀ c ∈ cs, c.leaderless = true → ∃ n, c.leaderlessAt = some (env.monotonic n)
  timer : m.leaderlessSince = (stretch cs).head?.bind Check.leaderlessAt
  early : ∀ since ∈ m.leaderlessSince,
    ∀ r ∈ (cs.rdropWhile Check.leaderless).flatMap Check.raised, r.time ≤ since
  proper : ∀ r ∈ cs.flatMap Check.raised, r.alarm.Proper

theorem tracks_nil (env : Env) {m₀ : AlertManager} (hsince : m₀.leaderlessSince = none) :
    Tracks env m₀ m₀ [] where
  sends := .nil rfl le_rfl rfl
  stamped := by simp
  timer := by simp [stretch, hsince]
  early := by simp
  proper := by simp

section Tracks

variable {env : Env} {m₀ m : AlertManager} {cs : List Check} {snap : ClusterSnapshot}

/-- The timer of a stretch that goes on is that of its first check. -/
theorem Tracks.head_leaderlessAt (ht : Tracks env m₀ m cs) {c : Check}
    (hc : (stretch cs).head? = some c) : m.leaderlessSince = c.leaderlessAt ∧
      ∃ n, c.leaderlessAt = some (env.monotonic n) := by
  have hmem : c ∈ stretch cs := List.mem_of_mem_head? hc
  refine ⟨by simp [ht.timer, hc], ht.stamped c ?_ (List.mem_rtakeWhile_imp hmem)⟩
  exact (List.rtakeWhile_suffix _ _).mem hmem

variable (hmono : Monotone env.monotonic) (hpub : ∀ n, env.publish n = true)
include hmono hpub

theorem Tracks.check (ht : Tracks env m₀ m cs) (hsns : m₀.disableSNS = false)
    (snap : ClusterSnapshot) :
    Tracks env m₀ (m.check env snap).1 (cs ++ [(m.check env snap).2]) := by
  have hsns' : m.disableSNS = false := ht.sends.sns.trans hsns
  have hsends := sends_check hmono hpub hsns' snap
  refine ⟨?_, ?_, ?_, ?_, ?_⟩
  · simpa using ht.sends.trans hmono hsends
  · intro c hc hl
    rcases List.mem_append.1 hc with hc | hc
    · exact ht.stamped c hc hl
    · rw [List.mem_singleton.1 hc] at hl ⊢
      cases hsome : snap.leader.isSome with
      | true => rw [(check_of_leader hsome).1] at hl; cases hl
      | false => exact ⟨_, (check_of_leaderless hpub hsns' hmono hsome).2.1⟩
  · cases hsome : snap.leader.isSome with
    | true => simp [stretch_concat, check_of_leader hsome]
    | false =>
      obtain ⟨hl, hat, hsince, -⟩ := check_of_leaderless hpub hsns' hmono hsome
      rw [stretch_concat, if_pos hl, hsince]
      cases hhead : (stretch cs).head? with
      | none =>
        rw [ht.timer, hhead]
        simp [List.head?_append, hhead, hat]
      | some c =>
        obtain ⟨heq, n, hn⟩ := ht.head_leaderlessAt hhead
        simp [List.head?_append, hhead, heq, hn]
  · intro since hs r hr
    cases hsome : snap.leader.isSome with
    | true => rw [(check_of_leader hsome).2] at hs; cases hs
    | false =>
      obtain ⟨hl, -, hsince, -⟩ := check_of_leaderless hpub hsns' hmono hsome
      rw [List.rdropWhile_concat_pos _ _ _ hl] at hr
      rw [hsince] at hs
      obtain rfl := Option.some.inj hs
      cases hold : m.leaderlessSince with
      | some t => exact ht.early t hold r hr
      | none =>
        -- a new stretch begins now, after all calls so far
        have hr' : r ∈ cs.flatMap Check.raised := by
          obtain ⟨c, hc, hrc⟩ := List.mem_flatMap.1 hr
          exact List.mem_flatMap.2 ⟨c, (List.rdropWhile_prefix _ _).mem hc, hrc⟩
        obtain ⟨n, -, hn, htime⟩ := ht.sends.times r hr'
        rw [htime]
        exact hmono (hn.le.trans (sends_sendAll hmono hpub hsns' _).readings)
  · intro r hr
    rw [List.flatMap_append, List.mem_append] at hr
    rcases hr with hr | hr
    · exact ht.proper r hr
    · exact proper_check (by simpa using hr)

end Tracks

/-! ## When the messages of a stretch are apart -/

/-- Where a message of the current stretch is less than 120 seconds old, the alarm that
`_check_no_leader` raises has a key that was itself sent less than 120 seconds ago. -/
def KeepsKey (env : Env) (m : AlertManager) (snap : ClusterSnapshot) : Prop :=
  snap.leader.isSome = false → ∀ since ∈ m.leaderlessSince,
    noLeaderTimeout ≤ env.monotonic m.readings - since → ∀ term,
      since < m.lastTime (noLeaderAlarm term).key →
      env.monotonic (m.readings + 1) - m.lastTime (noLeaderAlarm term).key < cooldown →
      env.monotonic (m.readings + 1) - m.lastTime (noLeaderAlarm snap.currentTerm).key < cooldown

/-- Every check keeps the key, in the state it is made in. -/
def KeepsKeys (env : Env) (m : AlertManager) : List ClusterSnapshot → Prop
  | [] => True
  | snap :: snaps =>
    KeepsKey env (m.beforeNoLeader env snap) snap ∧ KeepsKeys env (m.check env snap).1 snaps

/-- Two checks in a row without a leader show the same term. -/
def SameTerm (snap snap' : ClusterSnapshot) : Prop :=
  snap.leader.isSome = false → snap'.leader.isSome = false → snap'.currentTerm = snap.currentTerm

section Flood

variable {env : Env} {m₀ m : AlertManager} {cs : List Check}
  (hmono : Monotone env.monotonic) (hpub : ∀ n, env.publish n = true)
  (hlow : ∀ n, cooldown ≤ env.monotonic n) (hsns : m₀.disableSNS = false)
  (hempty : ∀ key, m₀.lastTime key = 0)
include hmono hpub

/-- A message of the stretch is in the table, as is any later one with its key. -/
theorem Tracks.le_lastTime (ht : Tracks env m₀ m cs) (hsns : m₀.disableSNS = false)
    (snap : ClusterSnapshot) {r : Raised} (hr : r ∈ noLeaderMessages (stretch cs)) :
    ∃ term, r.alarm = noLeaderAlarm term ∧
      r.time ≤ (m.beforeNoLeader env snap).lastTime (noLeaderAlarm term).key := by
  obtain ⟨hmem, hdet⟩ := List.mem_filter.1 hr
  simp only [decide_eq_true_eq] at hdet
  have hcs : r ∈ cs.flatMap Check.raised := by
    obtain ⟨c, hc, hrc⟩ := List.mem_flatMap.1 hmem
    exact List.mem_flatMap.2 ⟨c, (List.rtakeWhile_suffix _ _).mem hc, hrc⟩
  rcases ht.proper r hcs with ⟨term, hterm⟩ | ⟨hno, -⟩
  · refine ⟨term, hterm, ?_⟩
    have hsends := ht.sends.trans hmono
      (sends_sendAll hmono hpub (ht.sends.sns.trans hsns) (splitBrainAlarms snap))
    rw [← hterm]
    show r.time ≤ (m.sendAll env (splitBrainAlarms snap)).1.lastTime r.alarm.key
    rw [hsends.table]
    exact le_table (r := r.request) hsends.ordered
      (List.mem_map_of_mem (List.mem_append_left _ hcs)) hdet.2
  · exact absurd hdet.1 hno

include hlow hsns hempty

/-- What the table says about a time after the stretch began is a message of the stretch. -/
theorem Tracks.message_of_lastTime (ht : Tracks env m₀ m cs) {snap : ClusterSnapshot}
    {since : ℚ} {term : ℤ}
    (hs : m.leaderlessSince = some since)
    (hlt : since < (m.beforeNoLeader env snap).lastTime (noLeaderAlarm term).key) :
    ∃ r ∈ noLeaderMessages (stretch cs),
      r.time = (m.beforeNoLeader env snap).lastTime (noLeaderAlarm term).key := by
  have hsends := ht.sends.trans hmono
    (sends_sendAll hmono hpub (ht.sends.sns.trans hsns) (splitBrainAlarms snap))
  have htable : (m.beforeNoLeader env snap).lastTime = _ := hsends.table
  rw [htable] at hlt ⊢
  rcases table_eq m₀.lastTime _ (noLeaderAlarm term).key with h₀ | ⟨q, hq, hp, hk, htime⟩
  · -- no message with the key so far: the table says 0
    rw [h₀, hempty] at hlt
    have hpos : cooldown ≤ since := by
      rw [ht.timer] at hs
      obtain ⟨c, hc, hat⟩ := Option.bind_eq_some_iff.1 hs
      obtain ⟨-, n, hn⟩ := ht.head_leaderlessAt hc
      rw [hn] at hat
      rw [← Option.some.inj hat]
      exact hlow n
    exact absurd (hlt.trans_le (by decide +kernel : (0 : ℚ) ≤ cooldown)) (not_lt.2 hpos)
  · obtain ⟨r, hr, rfl⟩ := List.mem_map.1 hq
    refine ⟨r, ?_, htime⟩
    rcases List.mem_append.1 hr with hr | hr
    · rcases ht.proper r hr with ⟨t, halarm⟩ | ⟨-, hno⟩
      · rw [← List.rdropWhile_append_rtakeWhile (p := Check.leaderless) (l := cs),
          List.flatMap_append, List.mem_append] at hr
        rcases hr with hr | hr
        · have hle := ht.early since hs r hr
          have htime : r.time = _ := htime
          rw [← htime] at hlt
          exact absurd hlt (not_lt.2 hle)
        · have hsent : r.sent = true := hp
          exact List.mem_filter.2 ⟨hr, by simp [halarm, noLeaderAlarm, hsent]⟩
      · exact absurd hk (hno term)
    · exact absurd hk ((mem_splitBrainAlarms (alarm_mem_of_mem_sendAll hr)).2 term)

/-- A check that shows the term of all messages of its stretch keeps the key. -/
theorem Tracks.keepsKey_of_term (ht : Tracks env m₀ m cs) (snap : ClusterSnapshot)
    (hterm : ∀ r ∈ noLeaderMessages (stretch cs), r.alarm = noLeaderAlarm snap.currentTerm) :
    KeepsKey env (m.beforeNoLeader env snap) snap := by
  intro _ since hs _ term hlt hnear
  have hs' : m.leaderlessSince = some since := (sendAll_leaderlessSince env m _).symm.trans hs
  obtain ⟨r, hr, htime⟩ := ht.message_of_lastTime hmono hpub hlow hsns hempty hs' hlt
  obtain ⟨term', halarm, hle⟩ := ht.le_lastTime hmono hpub hsns snap hr
  rw [← halarm, hterm r hr] at hle
  rw [← htime] at hnear
  exact (sub_le_sub_left hle _).trans_lt hnear

/-- **One more check of a stretch** keeps it calm exactly if it keeps the key. -/
theorem Tracks.calm_check_iff (ht : Tracks env m₀ m cs) (hcalm : Calm (stretch cs))
    (snap : ClusterSnapshot) :
    Calm (stretch (cs ++ [(m.check env snap).2])) ↔
      KeepsKey env (m.beforeNoLeader env snap) snap := by
  have hsns' : m.disableSNS = false := ht.sends.sns.trans hsns
  have hsame : (m.beforeNoLeader env snap).leaderlessSince = m.leaderlessSince :=
    sendAll_leaderlessSince env m _
  cases hsome : snap.leader.isSome with
  | true =>
    rw [stretch_concat, (check_of_leader hsome).1]
    exact iff_of_true calm_nil fun hl => absurd hsome (by simp [hl])
  | false =>
    obtain ⟨hl, -, -, hmsg⟩ := check_of_leaderless hpub hsns' hmono hsome
    rw [stretch_concat, if_pos hl]
    unfold AlertManager.noLeaderRaised at hmsg
    rw [hsame] at hmsg
    cases hsince : m.leaderlessSince with
    | none =>
      -- the first check of a stretch raises nothing
      rw [hsince] at hmsg
      refine iff_of_true (hcalm.concat hmsg) fun _ since hs => ?_
      rw [hsame, hsince] at hs
      cases hs
    | some since =>
      rw [hsince] at hmsg
      dsimp only at hmsg
      split_ifs at hmsg with hpass
      · obtain ⟨c₀, hhead, hat⟩ := Option.bind_eq_some_iff.1 (ht.timer.symm.trans hsince)
        have hlater := hmono (Nat.le_succ (m.beforeNoLeader env snap).readings)
        have hgrace := hpass.1.trans (sub_le_sub_right hlater since)
        rw [hcalm.concat_iff hmsg hhead fun t h => by
          obtain rfl := Option.some.inj (hat.symm.trans h)
          exact hgrace]
        constructor
        · intro hall _ since' hs' _ term hlt hnear
          rw [hsame, hsince] at hs'
          obtain rfl := Option.some.inj hs'
          obtain ⟨r, hr, htime⟩ := ht.message_of_lastTime hmono hpub hlow hsns hempty hsince hlt
          rw [← htime] at hnear
          exact absurd hnear (not_lt.2 (hall r hr))
        · intro hkeeps r hr
          by_contra hnear
          obtain ⟨term, -, hle⟩ := ht.le_lastTime hmono hpub hsns snap hr
          have hafter : noLeaderTimeout ≤ r.time - since := hcalm.grace r hr c₀ hhead since hat
          have hpos : (0 : ℚ) < noLeaderTimeout := by decide +kernel
          have hlt := hkeeps hsome since (hsame.trans hsince) hpass.1 term (by linarith)
            (by linarith [not_le.1 hnear])
          exact absurd hpass.2 (not_le.2 hlt)
      · refine iff_of_true (hcalm.concat hmsg) fun _ since' hs' hg term _ _ => ?_
        rw [hsame, hsince] at hs'
        obtain rfl := Option.some.inj hs'
        exact not_le.1 fun hge => hpass ⟨hg, hge⟩

/-- From a state on, the checks to come keep all stretches calm exactly if they keep the keys. -/
theorem Tracks.noFlood_append_iff (ht : Tracks env m₀ m cs) (hcalm : NoFlood cs)
    (snaps : List ClusterSnapshot) :
    NoFlood (cs ++ (m.checkAll env snaps).2) ↔ KeepsKeys env m snaps := by
  induction snaps generalizing m cs with
  | nil => simpa [AlertManager.checkAll, KeepsKeys] using hcalm
  | cons snap snaps ih =>
    have hstep := ht.calm_check_iff hmono hpub hlow hsns hempty (hcalm cs List.prefix_rfl) snap
    have hsplit : cs ++ (m.checkAll env (snap :: snaps)).2 =
        cs ++ [(m.check env snap).2] ++ ((m.check env snap).1.checkAll env snaps).2 := by
      simp [AlertManager.checkAll]
    rw [hsplit, KeepsKeys, ← hstep]
    constructor
    · intro h
      have hc : NoFlood (cs ++ [(m.check env snap).2]) :=
        fun cs' hcs' => h cs' (hcs'.trans (List.prefix_append _ _))
      exact ⟨(noFlood_concat.1 hc).2, (ih (ht.check hmono hpub hsns snap) hc).1 h⟩
    · rintro ⟨hc, hkeeps⟩
      exact (ih (ht.check hmono hpub hsns snap) (noFlood_concat.2 ⟨hcalm, hc⟩)).2 hkeeps

/-- As long as the checks of a stretch show one term, they keep the key. -/
theorem Tracks.keepsKeys_of_terms (ht : Tracks env m₀ m cs) {snaps : List ClusterSnapshot}
    (hterms : snaps.IsChain SameTerm)
    (hfirst : ∀ snap ∈ snaps.head?, snap.leader.isSome = false →
      ∀ r ∈ noLeaderMessages (stretch cs), r.alarm = noLeaderAlarm snap.currentTerm) :
    KeepsKeys env m snaps := by
  induction snaps generalizing m cs with
  | nil => trivial
  | cons snap snaps ih =>
    obtain ⟨hnext, htail⟩ := List.isChain_cons.1 hterms
    refine ⟨fun hl => ht.keepsKey_of_term hmono hpub hlow hsns hempty snap (hfirst snap rfl hl) hl,
      ih (ht.check hmono hpub hsns snap) htail fun snap' hhead hl' r hr => ?_⟩
    rw [stretch_concat] at hr
    split_ifs at hr with hl
    · -- the stretch goes on
      have hsome : snap.leader.isSome = false := by
        simpa [AlertManager.check, Check.leaderless] using hl
      rw [hnext snap' hhead hsome hl']
      rw [noLeaderMessages_append, List.mem_append] at hr
      rcases hr with hold | hnew
      · exact hfirst snap rfl hsome r hold
      · rw [(check_of_leaderless hpub (ht.sends.sns.trans hsns) hmono hsome).2.2.2] at hnew
        exact noLeaderRaised_alarm hnew
    · simp [noLeaderMessages] at hr

end Flood

theorem AlertManager.disableSNS_new {snsTopicArn : String} (harn : snsTopicArn ≠ "") :
    (AlertManager.new snsTopicArn false).disableSNS = false := by
  simp [AlertManager.new, harn]

theorem AlertManager.lastTime_new {snsTopicArn : String} (key : String) :
    (AlertManager.new snsTopicArn false).lastTime key = 0 := by
  simp [AlertManager.lastTime, AlertManager.new]

/-- The checks of a new manager. -/
def checks (env : Env) (snsTopicArn : String) (snaps : List ClusterSnapshot) : List Check :=
  ((AlertManager.new snsTopicArn false).checkAll env snaps).2

/-- **No leaderless stretch floods** exactly if every check keeps the key. -/
theorem noFlood_iff {env : Env} (hmono : Monotone env.monotonic)
    (hlow : ∀ n, cooldown ≤ env.monotonic n) (hpub : ∀ n, env.publish n = true)
    {snsTopicArn : String} (harn : snsTopicArn ≠ "") (snaps : List ClusterSnapshot) :
    NoFlood (checks env snsTopicArn snaps) ↔
      KeepsKeys env (AlertManager.new snsTopicArn false) snaps := by
  exact (tracks_nil env rfl).noFlood_append_iff hmono hpub hlow (AlertManager.disableSNS_new harn)
    AlertManager.lastTime_new noFlood_nil snaps

/-- **One term, no flood**: where the checks of each stretch show one term, no stretch floods. -/
theorem noFlood_of_terms {env : Env} (hmono : Monotone env.monotonic)
    (hlow : ∀ n, cooldown ≤ env.monotonic n) (hpub : ∀ n, env.publish n = true)
    {snsTopicArn : String} (harn : snsTopicArn ≠ "") {snaps : List ClusterSnapshot}
    (hterms : snaps.IsChain SameTerm) : NoFlood (checks env snsTopicArn snaps) := by
  have ht := @tracks_nil env (AlertManager.new snsTopicArn false) rfl
  have hsns := AlertManager.disableSNS_new harn
  have hkeeps := ht.keepsKeys_of_terms hmono hpub hlow hsns AlertManager.lastTime_new hterms
    (by simp [stretch, noLeaderMessages])
  exact (ht.noFlood_append_iff hmono hpub hlow hsns AlertManager.lastTime_new noFlood_nil
    snaps).2 hkeeps

/-- A clock that starts at 200 seconds and gains 10 with each reading, and delivered messages. -/
def ticks : Env := ⟨fun n => 200 + 10 * n, fun _ => true⟩

theorem ticks_monotone : Monotone ticks.monotonic := by
  intro a b hab
  have hcast : (a : ℚ) ≤ b := Nat.cast_le.2 hab
  show (200 : ℚ) + 10 * (a : ℚ) ≤ 200 + 10 * (b : ℚ)
  linarith

theorem cooldown_le_ticks (n : ℕ) : cooldown ≤ ticks.monotonic n := by
  have hcast : (0 : ℚ) ≤ n := Nat.cast_nonneg n
  show (120 : ℚ) ≤ 200 + 10 * (n : ℚ)
  linarith

/-- An election that goes on, in a term. -/
def candidates (term : ℤ) : ClusterSnapshot :=
  ⟨[⟨"a", "candidate", term, true⟩, ⟨"b", "candidate", term, true⟩]⟩

/-- Three checks without a leader, all in term 4: the second one publishes, and the third does
not. -/
theorem noFlood_of_election :
    noLeaderMessages (checks ticks "arn" [candidates 4, candidates 4, candidates 4]) =
        [⟨noLeaderAlarm 4, 220, true⟩] ∧
      NoFlood (checks ticks "arn" [candidates 4, candidates 4, candidates 4]) := by
  refine ⟨by decide +kernel,
    (noFlood_iff ticks_monotone cooldown_le_ticks (fun _ => rfl) (by decide) _).2
      ⟨?_, ?_, ?_, trivial⟩⟩
  · intro _ since hs
    cases hs
  · -- nothing was sent so far
    intro _ since hs _ term hlt
    obtain rfl := Option.some.inj hs
    have hle : ¬ (ticks.monotonic 0 < 0) := by decide +kernel
    exact absurd hlt hle
  · intro _ _ _ _ _ _ _
    decide +kernel

/-- **A term that changes floods**: an election goes on for 40 seconds, in two terms, and each of
them is published. -/
theorem leaderless_flood : ¬ ∀ (env : Env) (snsTopicArn : String)
    (snaps : List ClusterSnapshot), Monotone env.monotonic →
    (∀ n, cooldown ≤ env.monotonic n) → (∀ n, env.publish n = true) → snsTopicArn ≠ "" →
      NoFlood (checks env snsTopicArn snaps) := by
  intro hall
  have hcalm := hall ticks "arn" [candidates 1, candidates 1, candidates 2] ticks_monotone
    cooldown_le_ticks (fun _ => rfl) (by decide) _ List.prefix_rfl
  have hmsg : noLeaderMessages
      (stretch (checks ticks "arn" [candidates 1, candidates 1, candidates 2])) =
        [⟨noLeaderAlarm 1, 220, true⟩, ⟨noLeaderAlarm 2, 240, true⟩] := by decide +kernel
  have hapart := hcalm.apart
  rw [hmsg] at hapart
  have hnear : ¬ cooldown ≤ (240 : ℚ) - 220 := by decide +kernel
  have hlast := (List.pairwise_cons.1 hapart).1 ⟨noLeaderAlarm 2, 240, true⟩ (by simp)
  exact hnear hlast

end Driftless.Observer
