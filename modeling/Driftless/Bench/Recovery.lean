import Driftless.Pattern
import Driftless.Observer.Polling

/-!
# The recovery of a follower, as the logs tell it

Every two seconds a coordinator logs its role and its commit index, as a line of JSON. Experiment 4
reads these lines in two places. `exp4.py` looks for `"commit_index": N`, finds it in every line and
returns the highest value (`latestLeaderCommit_eq`). `follower_recovery.py` looks for
`commit_index=N`, as another handler of `slog` would have written it, and no line of a coordinator
has an equals sign. So the observer of a restarted follower sees no commit index, whatever the
follower does: every observation goes on until its deadline and reports no catch-up
(`observe_no_catchup`).
-/

namespace Driftless.Recovery

open Raft Pattern

/-! ## The lines of a coordinator -/

/-- A time as `slog` writes it. -/
structure Stamp where
  text : List Char
  valid : text.all fun c => c.isDigit || ['-', ':', 'T', '.', 'Z', '+'].contains c

/-- What a line of the JSON handler at level `INFO` starts with. -/
def head (time : Stamp) (msg : String) : List Char :=
  "\x7b\"time\":\"".toList ++ time.text ++ "\",\"level\":\"INFO\",\"msg\":\"".toList ++
    msg.toList ++ ['"']

/-- An attribute, with its value as it is written. -/
def attr (a : String × List Char) : List Char :=
  ",\"".toList ++ a.1.toList ++ "\":".toList ++ a.2

def line (time : Stamp) (msg : String) (attrs : List (String × List Char)) : List Char :=
  head time msg ++ attrs.flatMap attr ++ ['\x7d']

def digits (n : ℕ) : List Char := Nat.toDigits 10 n

/-- A line "raft tick": when it was written, and the node it is about. -/
structure Tick where
  time : Stamp
  node : Node

def Tick.line (t : Tick) : List Char :=
  let s := t.node.snapshot
  Recovery.line t.time "raft tick"
    [("role", '"' :: s.state.toList ++ ['"']), ("term", digits s.currentTerm),
      ("commit_index", digits s.commitIndex), ("last_applied", digits s.lastApplied),
      ("log_len", digits s.logLength)]

/-- The line "snapshot restored". -/
def restoredLine (time : Stamp) (s : RaftSnapshot) : List Char :=
  line time "snapshot restored"
    [("last_included_index", digits s.lastIncludedIndex),
      ("last_included_term", digits s.lastIncludedTerm), ("current_term", digits s.currentTerm)]

/-! ## Patterns -/

/-- The classes `\d`, `\w` and `\s`. -/
structure Classes where
  digit : Char → Bool
  word : Char → Bool
  space : Char → Bool

/-- What the documentation says about ASCII. -/
structure Classes.Lawful (re : Classes) : Prop where
  digit : ∀ c : Char, c.toNat < 128 → re.digit c = c.isDigit
  space : ∀ c : Char, 32 < c.toNat → c.toNat < 127 → re.space c = false

def literal (s : String) : List (Item Char) := s.toList.map .char

/-- The class `.`. -/
def notNewline (c : Char) : Bool := c ≠ '\n'

/-- `RAFT_TICK_RE` of `follower_recovery.py`. -/
def raftTickRE (re : Classes) : List (Item Char) :=
  literal "role=" ++ [.many re.word 1 false true, .many notNewline 0 true false] ++
    literal "commit_index=" ++ [.many re.digit 1 false true, .many notNewline 0 true false] ++
    literal "last_applied=" ++ [.many re.digit 1 false true]

/-- `SNAPSHOT_RESTORED_RE`. -/
def snapshotRestoredRE (re : Classes) : List (Item Char) :=
  literal "last_included_index=" ++ [.many re.digit 1 false true]

/-- `RAFT_TICK_RE` of `exp4.py`. -/
def commitIndexRE (re : Classes) : List (Item Char) :=
  literal "\"commit_index\"" ++ [.many re.space 0 false false, .char ':',
    .many re.space 0 false false, .many re.digit 1 false true]

/-- `int` of a captured number. -/
def int (ds : List Char) : ℕ := Nat.ofDigitChars 10 ds 0

/-! ## The observer -/

/-- An event of the log, with its time in milliseconds. -/
structure LogEvent where
  timestamp : ℤ
  message : List Char

def LogEvent.ns (ev : LogEvent) : ℤ := ev.timestamp * 1000000

structure RecoveryTimeline where
  restartNs : Option ℤ
  snapshotRestoredNs : Option ℤ
  snapshotLastIndex : Option ℕ
  catchupNs : Option ℤ
  finalCommitIndex : Option ℕ
  deriving DecidableEq, Repr

/-- What the queries of one iteration of `observe` return, all pages together. -/
structure Round where
  started : List LogEvent
  restored : List LogEvent
  ticks : List LogEvent

structure FollowerRecoveryObserver where
  killedNs : ℤ
  leaderCommit : ℤ
  tol : ℤ

namespace FollowerRecoveryObserver

variable (re : Classes) (o : FollowerRecoveryObserver)

def target : ℤ := max 0 (o.leaderCommit - o.tol)

def seeStarted (tl : RecoveryTimeline) (evs : List LogEvent) : RecoveryTimeline :=
  if tl.restartNs = none then
    match evs.find? fun ev => ev.ns > o.killedNs with
    | some ev => { tl with restartNs := some ev.ns }
    | none => tl
  else tl

def seeRestored (tl : RecoveryTimeline) (evs : List LogEvent) : RecoveryTimeline :=
  if tl.snapshotRestoredNs = none then
    match evs.find? fun ev => ev.ns > o.killedNs with
    | some ev =>
      match search (snapshotRestoredRE re) ev.message with
      | some (idx :: _) =>
        { tl with snapshotRestoredNs := some ev.ns, snapshotLastIndex := some (int idx) }
      | _ => { tl with snapshotRestoredNs := some ev.ns }
    | none => tl
  else tl

/-- The loop over the ticks. -/
def walkTicks (tl : RecoveryTimeline) : List LogEvent → RecoveryTimeline
  | [] => tl
  | ev :: evs =>
    if ev.ns ≤ o.killedNs then walkTicks tl evs
    else
      match search (raftTickRE re) ev.message with
      | some (_ :: commit :: _) =>
        let ci := int commit
        if (ci : ℤ) ≥ o.target then
          { tl with finalCommitIndex := some ci, catchupNs := some ev.ns }
        else walkTicks { tl with finalCommitIndex := some ci } evs
      | _ => walkTicks tl evs

def seeTicks (tl : RecoveryTimeline) (evs : List LogEvent) : RecoveryTimeline :=
  if tl.catchupNs = none then o.walkTicks re tl evs else tl

/-- The loop of `observe`, over the iterations that start before the deadline, with the number of
those that it makes. -/
def poll (tl : RecoveryTimeline) : List Round → RecoveryTimeline × ℕ
  | [] => (tl, 0)
  | r :: rs =>
    let tl := o.seeTicks re (o.seeRestored re (o.seeStarted tl r.started) r.restored) r.ticks
    if tl.restartNs ≠ none ∧ tl.catchupNs ≠ none then (tl, 1)
    else
      let x := poll tl rs
      (x.1, x.2 + 1)

def observe (rounds : List Round) : RecoveryTimeline × ℕ :=
  o.poll re ⟨none, none, none, none, none⟩ rounds

end FollowerRecoveryObserver

/-! ## The commit index of the leader -/

/-- The loop of `_latest_leader_commit`, over the events of all pages. -/
def latestCommit (re : Classes) (latest : Option ℕ) : List LogEvent → Option ℕ
  | [] => latest
  | ev :: evs =>
    match search (commitIndexRE re) ev.message with
    | some (ci :: _) =>
      match latest with
      | none => latestCommit re (some (int ci)) evs
      | some m => latestCommit re (some (if int ci > m then int ci else m)) evs
    | _ => latestCommit re latest evs

/-- `_latest_leader_commit`. -/
def latestLeaderCommit (re : Classes) (pages : List (List LogEvent)) : Option ℕ :=
  latestCommit re none pages.flatten

/-! ## Which characters a line has -/

section Line

variable {c : Char} {time : Stamp} {msg : String} {a : String × List Char}
  {attrs : List (String × List Char)}

/-- The characters of the JSON around the values. -/
def jsonChars : List Char := "\x7b\"time:,levINFOmsg\x7d".toList

theorem not_mem_head (hj : c ∉ jsonChars) (htime : c ∉ time.text) (hmsg : c ∉ msg.toList) :
    c ∉ head time msg := by
  have hopen : "\x7b\"time\":\"".toList ⊆ jsonChars := by decide +kernel
  have hlevel : "\",\"level\":\"INFO\",\"msg\":\"".toList ⊆ jsonChars := by decide +kernel
  have hquote : ['"'] ⊆ jsonChars := by decide +kernel
  intro hc
  unfold head at hc
  rw [List.mem_append, List.mem_append, List.mem_append, List.mem_append] at hc
  rcases hc with (((hc | hc) | hc) | hc) | hc
  · exact hj (hopen hc)
  · exact htime hc
  · exact hj (hlevel hc)
  · exact hmsg hc
  · exact hj (hquote hc)

theorem not_mem_attr (hj : c ∉ jsonChars) (hkey : c ∉ a.1.toList) (hvalue : c ∉ a.2) :
    c ∉ attr a := by
  have hopen : ",\"".toList ⊆ jsonChars := by decide +kernel
  have hcolon : "\":".toList ⊆ jsonChars := by decide +kernel
  intro hc
  unfold attr at hc
  rw [List.mem_append, List.mem_append, List.mem_append] at hc
  rcases hc with ((hc | hc) | hc) | hc
  · exact hj (hopen hc)
  · exact hkey hc
  · exact hj (hcolon hc)
  · exact hvalue hc

theorem not_mem_line (hj : c ∉ jsonChars) (htime : c ∉ time.text) (hmsg : c ∉ msg.toList)
    (hattrs : ∀ a ∈ attrs, c ∉ a.1.toList ∧ c ∉ a.2) : c ∉ line time msg attrs := by
  have hclose : ['\x7d'] ⊆ jsonChars := by decide +kernel
  intro hc
  unfold line at hc
  rw [List.mem_append, List.mem_append, List.mem_flatMap] at hc
  rcases hc with (hc | ⟨a, ha, hc⟩) | hc
  · exact not_mem_head hj htime hmsg hc
  · exact not_mem_attr hj (hattrs a ha).1 (hattrs a ha).2 hc
  · exact hj (hclose hc)

theorem not_mem_digits (hc : c.isDigit = false) (n : ℕ) : c ∉ digits n := by
  intro hmem
  rw [digits] at hmem
  exact absurd (Nat.isDigit_of_mem_toDigits (by decide) (by decide) hmem) (by simp [hc])

theorem Stamp.not_mem (hc : c.isDigit = false)
    (hp : ['-', ':', 'T', '.', 'Z', '+'].contains c = false) : c ∉ time.text := by
  intro hmem
  have hvalid := List.all_eq_true.1 time.valid c hmem
  rw [hc, hp] at hvalid
  cases hvalid

/-- A line of a coordinator has no equals sign. -/
theorem Tick.equals_not_mem (t : Tick) : '=' ∉ t.line := by
  have hrole : '=' ∉ '"' :: t.node.state.string.toList ++ ['"'] := by
    cases t.node.state <;> decide +kernel
  refine not_mem_line (by decide +kernel) (Stamp.not_mem rfl rfl) (by decide +kernel) ?_
  simp only [List.forall_mem_cons, List.not_mem_nil, false_imp_iff, implies_true, and_true]
  refine ⟨⟨by decide +kernel, hrole⟩, ⟨by decide +kernel, not_mem_digits rfl _⟩,
    ⟨by decide +kernel, not_mem_digits rfl _⟩, ⟨by decide +kernel, not_mem_digits rfl _⟩,
    ⟨by decide +kernel, not_mem_digits rfl _⟩⟩

theorem equals_not_mem_restoredLine (time : Stamp) (s : RaftSnapshot) :
    '=' ∉ restoredLine time s := by
  refine not_mem_line (by decide +kernel) (Stamp.not_mem rfl rfl) (by decide +kernel) ?_
  simp only [List.forall_mem_cons, List.not_mem_nil, false_imp_iff, implies_true, and_true]
  exact ⟨⟨by decide +kernel, not_mem_digits rfl _⟩, ⟨by decide +kernel, not_mem_digits rfl _⟩,
    ⟨by decide +kernel, not_mem_digits rfl _⟩⟩

end Line

/-! ## What the observer sees -/

/-- The queries of an iteration return what the coordinator has logged. -/
structure Round.Logged (r : Round) : Prop where
  restored : ∀ ev ∈ r.restored, ∃ time s, ev.message = restoredLine time s
  ticks : ∀ ev ∈ r.ticks, ∃ t : Tick, ev.message = t.line

/-- Nothing was read out of a line. -/
structure RecoveryTimeline.Blind (tl : RecoveryTimeline) : Prop where
  snapshotLastIndex : tl.snapshotLastIndex = none
  catchupNs : tl.catchupNs = none
  finalCommitIndex : tl.finalCommitIndex = none

namespace FollowerRecoveryObserver

variable {re : Classes} {o : FollowerRecoveryObserver} {tl : RecoveryTimeline}

theorem search_raftTickRE (t : Tick) : search (raftTickRE re) t.line = none := by
  refine search_eq_none (c := '=') ?_ t.equals_not_mem
  simp [raftTickRE, literal]

theorem search_snapshotRestoredRE (time : Stamp) (s : RaftSnapshot) :
    search (snapshotRestoredRE re) (restoredLine time s) = none := by
  refine search_eq_none (c := '=') ?_ (equals_not_mem_restoredLine time s)
  simp [snapshotRestoredRE, literal]

theorem blind_seeStarted (hb : tl.Blind) (evs : List LogEvent) : (o.seeStarted tl evs).Blind := by
  unfold seeStarted
  split_ifs
  · split
    · exact ⟨hb.snapshotLastIndex, hb.catchupNs, hb.finalCommitIndex⟩
    · exact hb
  · exact hb

theorem blind_seeRestored (hb : tl.Blind) {evs : List LogEvent}
    (hevs : ∀ ev ∈ evs, ∃ time s, ev.message = restoredLine time s) :
    (o.seeRestored re tl evs).Blind := by
  unfold seeRestored
  split_ifs
  · split
    next ev hfind =>
      obtain ⟨time, s, hmsg⟩ := hevs ev (List.mem_of_find?_eq_some hfind)
      rw [hmsg, search_snapshotRestoredRE]
      exact ⟨hb.snapshotLastIndex, hb.catchupNs, hb.finalCommitIndex⟩
    next => exact hb
  · exact hb

theorem walkTicks_eq {evs : List LogEvent} (hevs : ∀ ev ∈ evs, ∃ t : Tick, ev.message = t.line) :
    o.walkTicks re tl evs = tl := by
  induction evs with
  | nil => rfl
  | cons ev evs ih =>
    obtain ⟨t, hmsg⟩ := hevs ev (by simp)
    have ih := ih fun ev hev => hevs ev (by simp [hev])
    simp only [walkTicks, hmsg, search_raftTickRE, ih, ite_self]

theorem blind_seeTicks (hb : tl.Blind) {evs : List LogEvent}
    (hevs : ∀ ev ∈ evs, ∃ t : Tick, ev.message = t.line) : (o.seeTicks re tl evs).Blind := by
  rw [seeTicks, walkTicks_eq hevs, ite_self]
  exact hb

theorem poll_blind (hb : tl.Blind) {rounds : List Round} (hr : ∀ r ∈ rounds, r.Logged) :
    (o.poll re tl rounds).1.Blind ∧ (o.poll re tl rounds).2 = rounds.length := by
  induction rounds generalizing tl with
  | nil => exact ⟨hb, rfl⟩
  | cons r rounds ih =>
    obtain ⟨hrestored, hticks⟩ := hr r (by simp)
    have hb' : (o.seeTicks re (o.seeRestored re (o.seeStarted tl r.started) r.restored)
        r.ticks).Blind :=
      blind_seeTicks (blind_seeRestored (blind_seeStarted hb _) hrestored) hticks
    obtain ⟨hrest, hcount⟩ := ih hb' fun r hr' => hr r (by simp [hr'])
    -- without a catch-up the loop goes on
    simp only [poll, hb'.catchupNs, ne_eq, not_true, and_false, if_false]
    exact ⟨hrest, by rw [hcount, List.length_cons]⟩

/-- **The observer never sees a follower catch up**: whatever the follower logs, and for as long as
it is observed, the timeline has no catch-up, no commit index and no index of a snapshot, and the
observation goes on until its deadline. -/
theorem observe_no_catchup (re : Classes) (o : FollowerRecoveryObserver) {rounds : List Round}
    (hr : ∀ r ∈ rounds, r.Logged) :
    (o.observe re rounds).1.Blind ∧ (o.observe re rounds).2 = rounds.length :=
  poll_blind ⟨rfl, rfl, rfl⟩ hr

end FollowerRecoveryObserver

/-! ## What experiment 4 reads -/

section Latest

variable {re : Classes}

/-- What comes before the commit index in a line. -/
def Tick.before (t : Tick) : List Char :=
  head t.time "raft tick" ++ attr ("role", '"' :: t.node.state.string.toList ++ ['"']) ++
    attr ("term", digits t.node.currentTerm) ++ [',']

/-- What comes after it. -/
def Tick.after (t : Tick) : List Char :=
  attr ("last_applied", digits t.node.lastApplied) ++
    attr ("log_len", digits t.node.logEntries.length) ++ ['\x7d']

theorem Tick.line_eq (t : Tick) : t.line = t.before ++ ("\"commit".toList ++
    '_' :: ("index\"".toList ++ ':' :: (digits t.node.commitIndex ++ t.after))) := by
  have hkey : ",\"".toList ++ "commit_index".toList ++ "\":".toList =
      [','] ++ "\"commit".toList ++ '_' :: ("index\"".toList ++ [':']) := by decide +kernel
  have hattr : attr ("commit_index", digits t.node.commitIndex) =
      [','] ++ "\"commit".toList ++ '_' :: ("index\"".toList ++ [':']) ++
        digits t.node.commitIndex := by
    unfold attr
    rw [hkey]
  have hline : t.line = head t.time "raft tick" ++
      (attr ("role", '"' :: t.node.state.string.toList ++ ['"']) ++
        (attr ("term", digits t.node.currentTerm) ++
          (attr ("commit_index", digits t.node.commitIndex) ++
            (attr ("last_applied", digits t.node.lastApplied) ++
              (attr ("log_len", digits t.node.logEntries.length) ++ []))))) ++ ['\x7d'] := rfl
  rw [hline, hattr]
  simp only [Tick.before, Tick.after, List.append_assoc, List.cons_append, List.nil_append,
    List.append_nil]

/-- The underscore of `commit_index` is the first of the line. -/
theorem Tick.underscore_not_mem_before (t : Tick) : '_' ∉ t.before := by
  have hj : '_' ∉ jsonChars := by decide +kernel
  have hrole : '_' ∉ '"' :: t.node.state.string.toList ++ ['"'] := by
    cases t.node.state <;> decide +kernel
  intro hc
  unfold Tick.before at hc
  rw [List.mem_append, List.mem_append, List.mem_append] at hc
  rcases hc with ((hc | hc) | hc) | hc
  · exact not_mem_head hj (Stamp.not_mem rfl rfl) (by decide +kernel) hc
  · exact not_mem_attr hj (show '_' ∉ "role".toList by decide +kernel) hrole hc
  · exact not_mem_attr hj (show '_' ∉ "term".toList by decide +kernel) (not_mem_digits rfl _) hc
  · exact absurd hc (by decide)

theorem Classes.Lawful.digits (hre : re.Lawful) {n : ℕ} {c : Char} (hc : c ∈ digits n) :
    re.digit c = true ∧ re.space c = false := by
  have hd : c.isDigit = true := Nat.isDigit_of_mem_toDigits (by decide) (by decide) hc
  have hrange : 48 ≤ c.toNat ∧ c.toNat ≤ 57 := by
    simpa [Char.isDigit, UInt32.le_iff_toNat_le] using hd
  exact ⟨by rw [hre.digit c (by omega), hd], hre.space c (by omega) (by omega)⟩

theorem search_commitIndexRE (hre : re.Lawful) (t : Tick) :
    search (commitIndexRE re) t.line = some [digits t.node.commitIndex] := by
  have hlit : commitIndexRE re = ("\"commit".toList ++ '_' :: "index\"".toList).map .char ++
      [.many re.space 0 false false, .char ':', .many re.space 0 false false,
        .many re.digit 1 false true] := rfl
  have hcolon : re.space ':' = false := hre.space ':' (by decide) (by decide)
  have hne : digits t.node.commitIndex ≠ [] := Nat.toDigits_ne_nil
  -- the number ends at the comma of the next attribute
  have hrun : (digits t.node.commitIndex ++ t.after).takeWhile re.digit =
      digits t.node.commitIndex := by
    have hcomma : ¬ re.digit ',' = true := by simp [hre.digit ',' (by decide)]
    obtain ⟨l, hl⟩ : ∃ l, t.after = ',' :: l := ⟨_, rfl⟩
    rw [List.takeWhile_append_of_pos fun c hc => (hre.digits hc).1, hl,
      List.takeWhile_cons_of_neg hcomma, List.append_nil]
  have hhead : ∀ c ∈ (digits t.node.commitIndex ++ t.after).head?, re.space c = false := by
    intro c hc
    rw [List.head?_append_of_ne_nil _ hne] at hc
    exact (hre.digits (List.mem_of_mem_head? hc)).2
  rw [t.line_eq, hlit, search_append_of_not_mem t.underscore_not_mem_before (by decide +kernel)]
  apply search_of_matchAt
  rw [← List.cons_append, ← List.append_assoc, matchAt_literal, matchAt_many_nil (by simpa)]
  rw [matchAt, if_pos rfl, matchAt_many_nil hhead, matchAt_many_last, hrun]
  rw [hrun]
  exact List.length_pos_iff.2 hne

/-- The loop keeps the highest commit index. -/
theorem latestCommit_eq (hre : re.Lawful) (ts : List Tick) {evs : List LogEvent}
    (hevs : evs.map LogEvent.message = ts.map Tick.line) (latest : Option ℕ) :
    latestCommit re latest evs = (latest.toList ++ ts.map fun t => t.node.commitIndex).max? := by
  induction ts generalizing evs latest with
  | nil =>
    obtain rfl := List.map_eq_nil_iff.1 hevs
    cases latest <;> simp [latestCommit]
  | cons t ts ih =>
    obtain ⟨ev, evs, rfl, hmsg, hevs⟩ := List.map_eq_cons_iff.1 hevs
    have hint : int (digits t.node.commitIndex) = t.node.commitIndex :=
      Nat.ofDigitChars_ten_toDigits
    simp only [latestCommit, hmsg, search_commitIndexRE hre, hint]
    cases latest with
    | none => simpa using ih hevs (some t.node.commitIndex)
    | some m =>
      have hmax : (if t.node.commitIndex > m then t.node.commitIndex else m) =
          max m t.node.commitIndex := by
        split_ifs <;> omega
      simp only [hmax]
      rw [ih hevs]
      simp only [Option.toList_some, List.singleton_append, List.map_cons, List.max?_cons',
        List.foldl_cons]

/-- **Experiment 4 reads the highest commit index** of the lines that the leader has logged, on
however many pages they are returned. -/
theorem latestLeaderCommit_eq (hre : re.Lawful) {pages : List (List LogEvent)} (ts : List Tick)
    (hts : pages.flatten.map LogEvent.message = ts.map Tick.line) :
    latestLeaderCommit re pages = (ts.map fun t => t.node.commitIndex).max? :=
  latestCommit_eq hre ts hts none

end Latest

/-! ## A follower that has caught up -/

/-- The line of a follower with this commit index. -/
def followerTick (commitIndex : ℕ) : Tick where
  time := ⟨['2', '0', '2', '6', '-', '0', '4', '-', '1', '9', 'T', '0', '6', ':', '0', '7', ':', '3',
    '6', '.', '5', 'Z'], rfl⟩
  node := { newNode "b" ["a", "c"] with
    currentTerm := 3, commitIndex := commitIndex, lastApplied := commitIndex }

/-- The classes on ASCII. -/
def ascii : Classes := ⟨Char.isDigit, fun c => c.isAlphanum || c = '_', Char.isWhitespace⟩

theorem ascii_lawful : ascii.Lawful where
  digit _ _ := rfl
  space c hlt _ := by
    have hne : ∀ d : Char, d.toNat ≤ 32 → c ≠ d := by
      rintro d hd rfl
      omega
    simp [ascii, Char.isWhitespace, hne]

theorem observe_no_catchup_of_tick : ∃ (o : FollowerRecoveryObserver) (rounds : List Round),
    (∀ r ∈ rounds, r.Logged) ∧
    (∃ r ∈ rounds, ∃ ev ∈ r.ticks, o.killedNs < ev.ns ∧
      ev.message = (followerTick 796).line ∧ o.target ≤ 796) ∧
    (o.observe ascii rounds).1.Blind ∧ (o.observe ascii rounds).2 = rounds.length := by
  have hr : ∀ r ∈ [Round.mk [] [] [⟨2, (followerTick 796).line⟩]], r.Logged := by
    intro r hr
    rw [List.mem_singleton.1 hr]
    exact ⟨by simp, by simp⟩
  refine ⟨⟨1000000, 796, 10⟩, _, hr, ⟨_, List.mem_singleton_self _, _, List.mem_singleton_self _,
    by decide, rfl, by decide⟩, ?_⟩
  exact FollowerRecoveryObserver.observe_no_catchup ascii ⟨1000000, 796, 10⟩ hr

theorem latestLeaderCommit_eq_of_pages : ascii.Lawful ∧
    latestLeaderCommit ascii [[⟨1, (followerTick 796).line⟩], [⟨2, (followerTick 795).line⟩]] =
      some 796 :=
  ⟨ascii_lawful,
    latestLeaderCommit_eq ascii_lawful [followerTick 796, followerTick 795] rfl⟩

end Driftless.Recovery
