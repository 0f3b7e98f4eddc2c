import Driftless.Observer.Leaderless
import Driftless.Raft.Cluster

/-!
# Polling a cluster

The observer asks every coordinator for `GET /state`, all at once, and puts the answers together to
a snapshot (`RaftClusterClient.poll`). The answers are of different times: a coordinator that has
lost its leadership may have answered before it did, and the one that took over after it.

`split_brain_message` finds exactly the snapshots in which a term has two leaders
(`splitBrainMessage_eq_none_iff`). A cluster that elects soundly never looks like that, whenever its
members answer: `splitBrain_never_raised`.
-/

namespace Driftless

namespace Raft

/-- `NodeState.String`. -/
def NodeState.string : NodeState → String
  | .follower => "follower"
  | .candidate => "candidate"
  | .leader => "leader"

/-- What `GET /state` returns. -/
structure NodeSnapshot where
  nodeID : String
  state : String
  currentTerm : ℕ
  votedFor : String
  commitIndex : ℕ
  lastApplied : ℕ
  logLength : ℕ
  /-- Of a leader only. -/
  matchIndex : Option PeerMap
  nextIndex : Option PeerMap

/-- `Snapshot`. -/
def Node.snapshot (n : Node) : NodeSnapshot where
  nodeID := n.id
  state := n.state.string
  currentTerm := n.currentTerm
  votedFor := n.votedFor
  commitIndex := n.commitIndex
  lastApplied := n.lastApplied
  logLength := n.logEntries.length
  matchIndex := if n.state = .leader then some n.matchIndex else none
  nextIndex := if n.state = .leader then some n.nextIndex else none

theorem NodeState.string_eq_leader {st : NodeState} : st.string = "leader" ↔ st = .leader := by
  cases st <;> decide

end Raft

namespace Observer

open Raft

/-! ## The split-brain message -/

section SplitBrain

/-- The dictionary holds the ids of the nodes, by their terms. -/
structure Groups (d : List (ℤ × List String)) (ns : List NodeState) : Prop where
  nodup : (d.map Prod.fst).Nodup
  ids : ∀ t ids, (t, ids) ∈ d →
    ids = (ns.filter fun n => n.currentTerm = t).map NodeState.nodeID
  mem : ∀ n ∈ ns, n.currentTerm ∈ d.map Prod.fst

variable {d : List (ℤ × List String)} {ns : List NodeState}

theorem map_fst_addLeader (d : List (ℤ × List String)) (term : ℤ) (id : String) :
    (addLeader d term id).map Prod.fst =
      if term ∈ d.map Prod.fst then d.map Prod.fst else d.map Prod.fst ++ [term] := by
  induction d with
  | nil => rfl
  | cons x d ih =>
    obtain ⟨t, ids⟩ := x
    by_cases ht : t = term
    · simp [addLeader, ht]
    · simp only [addLeader, if_neg ht, List.map_cons, ih, List.mem_cons, Ne.symm ht, false_or]
      split_ifs <;> rfl

/-- An entry after an id was added: one of another term, or one of its term with the id at the
end. -/
theorem mem_addLeader {term t : ℤ} {id : String} {ids : List String}
    (hnd : (d.map Prod.fst).Nodup) (h : (t, ids) ∈ addLeader d term id) :
    (t ≠ term ∧ (t, ids) ∈ d) ∨ (t = term ∧ ∃ ids₀, ids = ids₀ ++ [id] ∧
      ((term, ids₀) ∈ d ∨ (term ∉ d.map Prod.fst ∧ ids₀ = []))) := by
  induction d with
  | nil =>
    obtain ⟨rfl, rfl⟩ := Prod.mk.inj (List.mem_singleton.1 h)
    exact .inr ⟨rfl, [], rfl, .inr ⟨by simp, rfl⟩⟩
  | cons x d ih =>
    obtain ⟨t', ids'⟩ := x
    obtain ⟨hnot, hnd⟩ := List.nodup_cons.1 hnd
    by_cases ht : t' = term
    · subst ht
      rw [addLeader, if_pos rfl] at h
      rcases List.mem_cons.1 h with heq | hm
      · obtain ⟨rfl, rfl⟩ := Prod.mk.inj heq
        exact .inr ⟨rfl, ids', rfl, .inl List.mem_cons_self⟩
      · refine .inl ⟨?_, List.mem_cons_of_mem _ hm⟩
        rintro rfl
        exact hnot (List.mem_map.2 ⟨_, hm, rfl⟩)
    · rw [addLeader, if_neg ht] at h
      rcases List.mem_cons.1 h with heq | hm
      · obtain ⟨rfl, rfl⟩ := Prod.mk.inj heq
        exact .inl ⟨ht, List.mem_cons_self⟩
      · rcases ih hnd hm with ⟨hne, hm⟩ | ⟨heq, ids₀, hids, hold⟩
        · exact .inl ⟨hne, List.mem_cons_of_mem _ hm⟩
        · refine .inr ⟨heq, ids₀, hids, hold.imp (List.mem_cons_of_mem _) fun hnew => ?_⟩
          simpa [Ne.symm ht] using hnew

theorem Groups.add (hg : Groups d ns) (n : NodeState) :
    Groups (addLeader d n.currentTerm n.nodeID) (ns ++ [n]) := by
  refine ⟨?_, fun t ids h => ?_, fun x hx => ?_⟩
  · rw [map_fst_addLeader]
    split_ifs with hm
    · exact hg.nodup
    · exact List.nodup_append.2 ⟨hg.nodup, List.nodup_singleton _, by
        rintro a ha b hb rfl
        exact hm (List.mem_singleton.1 hb ▸ ha)⟩
  · rw [List.filter_append, List.map_append]
    rcases mem_addLeader hg.nodup h with ⟨hne, hm⟩ | ⟨rfl, ids₀, rfl, hold⟩
    · simp [← hg.ids t ids hm, Ne.symm hne]
    · have hids : ids₀ = (ns.filter fun x => x.currentTerm = n.currentTerm).map
          NodeState.nodeID := by
        rcases hold with hm | ⟨hnot, rfl⟩
        · exact hg.ids _ ids₀ hm
        · rw [List.filter_eq_nil_iff.2 fun x hx => ?_]
          · rfl
          · simpa using fun heq : x.currentTerm = n.currentTerm => hnot (heq ▸ hg.mem x hx)
      simp [hids]
  · rw [map_fst_addLeader]
    rcases List.mem_append.1 hx with hx | hx
    · have := hg.mem x hx
      split_ifs
      · exact this
      · exact List.mem_append_left _ this
    · rw [List.mem_singleton.1 hx]
      split_ifs with hm
      · exact hm
      · simp

theorem groups_foldl (hg : Groups d ns) (ms : List NodeState) :
    Groups (ms.foldl (fun d n => addLeader d n.currentTerm n.nodeID) d) (ns ++ ms) := by
  induction ms generalizing d ns with
  | nil => simpa using hg
  | cons m ms ih => simpa using ih (hg.add m)

/-- **The split-brain message is exact**: there is none exactly if the leaders of a snapshot are
leaders of different terms. -/
theorem splitBrainMessage_eq_none_iff (snap : ClusterSnapshot) :
    snap.splitBrainMessage = none ↔ (snap.leaders.map NodeState.currentTerm).Nodup := by
  have hnil : Groups [] [] := ⟨List.nodup_nil, nofun, nofun⟩
  have hg : Groups snap.leadersByTerm snap.leaders := groups_foldl hnil snap.leaders
  have hcount : ∀ t, (snap.leaders.map NodeState.currentTerm).count t =
      (snap.leaders.filter fun n => n.currentTerm = t).length := by
    intro t
    rw [List.count, List.countP_map, List.countP_eq_length_filter]
    rfl
  rw [ClusterSnapshot.splitBrainMessage, Option.map_eq_none_iff, List.find?_eq_none,
    List.nodup_iff_count_le_one]
  constructor
  · intro h t
    by_cases hm : t ∈ snap.leaders.map NodeState.currentTerm
    · obtain ⟨n, hn, rfl⟩ := List.mem_map.1 hm
      obtain ⟨⟨t, ids⟩, hx, ht⟩ := List.mem_map.1 (hg.mem n hn)
      have hle := h _ hx
      rw [hg.ids t ids hx] at hle
      rw [hcount, ← ht]
      simpa using hle
    · rw [List.count_eq_zero_of_not_mem hm]
      exact Nat.zero_le 1
  · rintro h ⟨t, ids⟩ hx
    have hle := h t
    rw [hcount] at hle
    rw [hg.ids t ids hx]
    simpa using hle

end SplitBrain

/-! ## Rounds of polls -/

/-- What `_poll_one` makes of the answer of an address, or of an error. -/
def pollOne (addr : String) : Option NodeSnapshot → NodeState
  | some snap => ⟨snap.nodeID, snap.state, snap.currentTerm, true⟩
  | none => ⟨addr, "unreachable", 0, false⟩

/-- A poll of an address, with the member behind it and the answer it gave, if it did. -/
structure Poll where
  addr : String
  member : String
  answer : Option NodeSnapshot

/-- What `poll` makes of a round. -/
def poll (ps : List Poll) : ClusterSnapshot := ⟨ps.map fun p => pollOne p.addr p.answer⟩

section Rounds

variable {members : List String} {sm : String → StateMachineKind} {c : Cluster}
  {h : List (String × Output)}

/-- The member answered with its state at some time of the run. -/
def Poll.Answered (members : List String) (sm : String → StateMachineKind) (c : Cluster)
    (h : List (String × Output)) (p : Poll) : Prop :=
  ∀ snap, p.answer = some snap → ∃ c' h',
    Run Cluster.step (ElectsSoundly members) (Cluster.boot members sm) [] c' h' ∧
    Run Cluster.step (ElectsSoundly members) c' h' c h ∧ snap = (c' p.member).node.snapshot

/-- A round asks every member at most once, and its answers are of the run. -/
structure Round (members : List String) (sm : String → StateMachineKind) (c : Cluster)
    (h : List (String × Output)) (ps : List Poll) : Prop where
  nodup : (ps.map Poll.member).Nodup
  answered : ∀ p ∈ ps, p.Answered members sm c h

/-- Who answers as leader was elected in the term it answers with. -/
theorem Poll.Answered.elected {p : Poll} (hp : p.Answered members sm c h) (hnd : members.Nodup)
    (hl : (pollOne p.addr p.answer).isLeader = true) :
    ∃ T : ℕ, (pollOne p.addr p.answer).currentTerm = T ∧ Elected members h p.member T := by
  cases ha : p.answer with
  | none =>
    rw [ha] at hl
    cases hl
  | some snap =>
    rw [ha] at hl
    obtain ⟨c', h', r, r', rfl⟩ := hp snap ha
    obtain ⟨out, rfl⟩ := r'.history_prefix
    have hstate : (c' p.member).node.state = .leader :=
      NodeState.string_eq_leader.1 (of_decide_eq_true hl)
    exact ⟨_, rfl, (((clusterElects_run hnd r).member p.member).elected hstate).mono out⟩

theorem Round.splitBrainMessage_eq_none {ps : List Poll} (hps : Round members sm c h ps)
    (hnd : members.Nodup) (hel : ClusterElects members c h) :
    (poll ps).splitBrainMessage = none := by
  have hleaders : (poll ps).leaders =
      (ps.filter fun p => (pollOne p.addr p.answer).isLeader).map
        fun p => pollOne p.addr p.answer := by
    rw [ClusterSnapshot.leaders, poll, List.filter_map]
    rfl
  rw [splitBrainMessage_eq_none_iff, hleaders, List.map_map]
  refine List.Nodup.map_on (fun p hp q hq heq => ?_) ((List.Nodup.of_map _ hps.nodup).filter _)
  obtain ⟨hp, hpl⟩ := List.mem_filter.1 hp
  obtain ⟨hq, hql⟩ := List.mem_filter.1 hq
  obtain ⟨T, hT, hpe⟩ := (hps.answered p hp).elected hnd hpl
  obtain ⟨T', hT', hqe⟩ := (hps.answered q hq).elected hnd hql
  obtain rfl : T = T' := Nat.cast_injective (hT.symm.trans (heq.trans hT'))
  have hmem : p.member = q.member :=
    hpe.unique (fun v c c' => (hel.member v).once.unique _ c c') hqe
  exact List.inj_on_of_nodup_map hps.nodup hp hq hmem

/-- The other detectors do not raise it either. -/
theorem check_splitBrain {env : Env} {m : AlertManager} {snap : ClusterSnapshot}
    (hs : snap.splitBrainMessage = none) :
    ∀ r ∈ (m.check env snap).2.raised, r.alarm.detector ≠ .splitBrain := by
  have hnone : splitBrainAlarms snap = [] := by
    unfold splitBrainAlarms
    rw [hs]
  intro r hr
  rw [check_raised, hnone, List.mem_append, List.mem_append] at hr
  rcases hr with (hr | hr) | hr
  · cases hr
  · unfold AlertManager.checkNoLeader at hr
    split_ifs at hr
    · cases hr
    · dsimp only at hr
      split at hr
      · cases hr
      · split_ifs at hr
        · cases hr
        · rw [List.mem_singleton.1 (alarm_mem_of_mem_sendAll hr)]
          exact nofun
  · have hmem := alarm_mem_of_mem_sendAll hr
    unfold quorumLossAlarms at hmem
    dsimp only at hmem
    split_ifs at hmem
    · cases hmem
    · cases hmem
    · rw [List.mem_singleton.1 hmem]
      exact nofun

/-- **No false alarm about a split brain**: while a cluster elects soundly, an observer that asks
its members again and again, each member in each round at a time of its own, never raises a
split-brain alarm. -/
theorem splitBrain_never_raised (hnd : members.Nodup)
    (r : Run Cluster.step (ElectsSoundly members) (Cluster.boot members sm) [] c h)
    {rounds : List (List Poll)} (hr : ∀ ps ∈ rounds, Round members sm c h ps) (env : Env)
    (m : AlertManager) : ∀ ck ∈ (m.checkAll env (rounds.map poll)).2, ∀ x ∈ ck.raised,
      x.alarm.detector ≠ .splitBrain := by
  have hel := clusterElects_run hnd r
  induction rounds generalizing m with
  | nil => exact nofun
  | cons ps rounds ih =>
    intro ck hck
    rcases List.mem_cons.1 hck with rfl | hck
    · exact check_splitBrain ((hr ps List.mem_cons_self).splitBrainMessage_eq_none hnd hel)
    · exact ih (fun qs hqs => hr qs (List.mem_cons_of_mem _ hqs)) _ ck hck

end Rounds

/-- Where `"a"` answers as leader of term 1, `"b"` later as leader of term 2, and `"c"` not at
all. -/
theorem splitBrain_never_raised_of_two_terms : ∃ c₁ c₂ : Cluster,
    ((c₁ "a").node.state = .leader ∧ (c₂ "b").node.state = .leader) ∧
    ∀ env (m : AlertManager),
      ∀ ck ∈ (m.checkAll env ([[⟨"a:8080", "a", some (c₁ "a").node.snapshot⟩,
        ⟨"b:8080", "b", some (c₂ "b").node.snapshot⟩, ⟨"c:8080", "c", none⟩]].map poll)).2,
      ∀ x ∈ ck.raised, x.alarm.detector ≠ .splitBrain := by
  obtain ⟨c₁, h₁, c₂, h₂, r₁, r₂, hc⟩ := exists_runs_of_exec Cluster.step
    (ElectsSoundly ["a", "b", "c"]) (Cluster.boot ["a", "b", "c"] fun _ => .absent) []
    [("a", .dispatch), ("a", .followerTimeout), ("a", .dispatch), ("a", .startElection),
      ("b", .handleRequestVote ⟨1, "a", 0, 0⟩), ("a", .voteReply "b" ⟨1, true⟩),
      ("a", .wonElection)]
    [("b", .dispatch), ("b", .followerTimeout), ("b", .dispatch), ("b", .startElection),
      ("c", .handleRequestVote ⟨2, "b", 0, 0⟩), ("b", .voteReply "c" ⟨2, true⟩),
      ("b", .wonElection)]
    (fun c₁ c₂ => (c₁ "a").node.state = .leader ∧ (c₂ "b").node.state = .leader)
    (by decide +kernel)
  refine ⟨c₁, c₂, hc, fun env m => splitBrain_never_raised (by decide) (r₁.trans r₂) ?_ env m⟩
  intro ps hps
  rw [List.mem_singleton.1 hps]
  refine ⟨by simp, fun p hp => ?_⟩
  simp only [List.mem_cons, List.not_mem_nil, or_false] at hp
  rcases hp with rfl | rfl | rfl
  · rintro _ ⟨⟩
    exact ⟨c₁, h₁, r₁, r₂, rfl⟩
  · rintro _ ⟨⟩
    exact ⟨c₂, h₂, r₁.trans r₂, .refl, rfl⟩
  · exact nofun

end Observer

end Driftless
