import Driftless.Raft.Refinement

/-!
# Safety across time

What the protocol guarantees about the logs in memory, of any two members and at any two times of
a run. The logs of two members agree up to an index (`AgreeUpTo`) where they have the same term at
it (`log_matching`), where both have committed it (`committed_logs_agree`), and where one has
committed it and the other leads a later term (`leader_completeness`). What a member has committed
is held by a majority from then on (`committed_durable`), and so is what a client was told
(`told_durable`). A leader only appends to its log (`leader_append_only`).
-/

namespace Driftless.Raft

open Consensus

/-- Two logs agree up to `k`: on the term at every index both reach down to, and on the entry at
every index above both placeholders. -/
structure AgreeUpTo (log log' : List LogEntry) (k : ℕ) : Prop where
  term : ∀ idx ≤ k, firstIndex log ≤ idx → firstIndex log' ≤ idx →
    termAt log idx = termAt log' idx
  entry : ∀ idx ≤ k, firstIndex log < idx → firstIndex log' < idx →
    entryAt log idx = entryAt log' idx

/-- Logs that show the same prefix agree on it. -/
theorem Window.agreeUpTo {log log' full full' : List LogEntry} (h : Window log full)
    (h' : Window log' full') {k : ℕ} (hk : k ≤ full.length) (hk' : k ≤ full'.length)
    (heq : full.take k = full'.take k) : AgreeUpTo log log' k := by
  have htake : ∀ idx ≤ k, full.take idx = full'.take idx := by
    intro idx hidx
    rw [← min_eq_left hidx, ← List.take_take, ← List.take_take, heq]
  refine ⟨fun idx hidx hf hf' => ?_, fun idx hidx hf hf' => ?_⟩
  · rw [h.termAt_eq hf (hidx.trans hk), h'.termAt_eq hf' (hidx.trans hk'), htake idx hidx]
  · have hlt : idx - 1 < k := by omega
    rw [h.entryAt_eq idx hf, h'.entryAt_eq idx hf', ← List.getElem?_take_of_lt hlt, heq,
      List.getElem?_take_of_lt hlt]

theorem Window.agreeUpTo_of_isPrefix {log log' full full' : List LogEntry} (h : Window log full)
    (h' : Window log' full') {k : ℕ} (hk : k ≤ full.length) (hp : full.take k <+: full') :
    k ≤ lastIndex log' ∧ AgreeUpTo log log' k := by
  have hlen : (full.take k).length = k := by rw [List.length_take, min_eq_left hk]
  have hk' : k ≤ full'.length := hlen ▸ hp.length_le
  refine ⟨h'.lastIndex_eq ▸ hk', h.agreeUpTo h' hk hk' ?_⟩
  rw [List.prefix_iff_eq_take.1 hp, hlen]

/-! ## Two times of a run -/

section Runs

variable {members : List String} {sm : String → StateMachineKind} {c₁ c₂ : Cluster}
  {h₁ h₂ : List (String × Output)}

/-- The protocol behind the rest of a run extends the protocol behind its beginning. -/
theorem Sim.run {g₁ : Ghost} (hsim : Sim members c₁ h₁ g₁) (hel : ClusterElects members c₁ h₁)
    (hnd : members.Nodup) (r : Run Cluster.step (ReplicatesSoundly members) c₁ h₁ c₂ h₂) :
    ∃ g₂, Sim members c₂ h₂ g₂ ∧ g₁.Ext g₂ := by
  have hinv : ClusterElects members c₂ h₂ ∧ ∃ g₂, Sim members c₂ h₂ g₂ ∧ g₁.Ext g₂ := by
    refine r.invariant
      (I := fun c h => ClusterElects members c h ∧ ∃ g, Sim members c h g ∧ g₁.Ext g)
      ⟨hel, g₁, hsim, .refl g₁⟩ ?_
    rintro c h x c' out ⟨hel, g, hsim, hext⟩ hok hs
    obtain ⟨g', hsim', hext'⟩ := hsim.step hel hnd hok hs
    exact ⟨hel.step hnd hok.1 hs, g', hsim', hext.trans hext'⟩
  exact hinv.2

/-- The protocol behind a run, at two times. -/
theorem sim_runs (hnd : members.Nodup)
    (r₁ : Run Cluster.step (ReplicatesSoundly members) (Cluster.boot members sm) [] c₁ h₁)
    (r₂ : Run Cluster.step (ReplicatesSoundly members) c₁ h₁ c₂ h₂) :
    ∃ g₁ g₂, Sim members c₁ h₁ g₁ ∧ Sim members c₂ h₂ g₂ ∧ g₁.Ext g₂ := by
  obtain ⟨g₁, hsim₁⟩ := sim_run hnd r₁
  have hel₁ := clusterElects_run hnd (r₁.mono fun _ _ _ hok => hok.1)
  obtain ⟨g₂, hsim₂, hext⟩ := hsim₁.run hel₁ hnd r₂
  exact ⟨g₁, g₂, hsim₁, hsim₂, hext⟩

/-- A majority holds what is agreed on. -/
theorem Sim.held {c : Cluster} {h : List (String × Output)} {g : Ghost}
    (hsim : Sim members c h g) {T : ℕ} {S : List LogEntry} (hS : Agreed members g T S)
    (hpos : 0 < S.length) : ∃ A, IsMajority members.toFinset A ∧ ∀ v ∈ A, S <+: g.log v := by
  rcases hS with rfl | ⟨X, hX, hp, -⟩
  · cases hpos
  · obtain ⟨hst, A, hA, hack⟩ := id hX
    refine ⟨A, hA, fun v hv => hp.trans ?_⟩
    exact (hsim.inv.node v X hst (hack v hv)).resolve_right (State.Inv.not_blocked hX)

/-- A leader holds what is agreed on in its term or before. -/
theorem Sim.led {c : Cluster} {h : List (String × Output)} {g : Ghost} (hsim : Sim members c h g)
    {j : String} (hl : (c j).node.state = .leader) {T : ℕ} {S : List LogEntry}
    (hS : Agreed members g T S) (hT : T ≤ (c j).node.currentTerm) : S <+: g.log j := by
  have hlead := (hsim.node j).leads hl
  rw [hlead.log_eq (hsim.node j).mirrors hsim.inv]
  refine hsim.inv.prefix_tlog_of_decided (hS.mono (.refl g) hT) ?_
  rw [hlead.led]
  exact nofun

/-- **Log matching**: if the logs of two members, at any two times, have the same term at an
index, they agree up to it. -/
theorem log_matching (hnd : members.Nodup)
    (r₁ : Run Cluster.step (ReplicatesSoundly members) (Cluster.boot members sm) [] c₁ h₁)
    (r₂ : Run Cluster.step (ReplicatesSoundly members) c₁ h₁ c₂ h₂) {i j : String} {k : ℕ}
    (hi : firstIndex (c₁ i).node.logEntries ≤ k ∧ k ≤ lastIndex (c₁ i).node.logEntries)
    (hj : firstIndex (c₂ j).node.logEntries ≤ k ∧ k ≤ lastIndex (c₂ j).node.logEntries)
    (ht : termAt (c₁ i).node.logEntries k = termAt (c₂ j).node.logEntries k) :
    AgreeUpTo (c₁ i).node.logEntries (c₂ j).node.logEntries k := by
  obtain ⟨g₁, g₂, hsim₁, hsim₂, hext⟩ := sim_runs hnd r₁ r₂
  have hw := (hsim₁.node i).mirrors.log
  have hw' := (hsim₂.node j).mirrors.log
  have hk : k ≤ (g₁.log i).length := hw.lastIndex_eq ▸ hi.2
  have hk' : k ≤ (g₂.log j).length := hw'.lastIndex_eq ▸ hj.2
  rw [hw.termAt_eq hi.1 hk, hw'.termAt_eq hj.1 hk'] at ht
  refine hw.agreeUpTo hw' hk hk' ?_
  -- both logs consist of entries of the leaders of their terms, also at the later time
  refine ((hsim₁.inv.log_anchored i).mono hext.tlog).eq_of_lastTerm (hsim₂.inv.log_anchored j)
    (List.take_prefix k _) (List.take_prefix k _) ?_ ht
  rw [List.length_take, List.length_take, min_eq_left hk, min_eq_left hk']

/-- **Committed logs agree**: two members, at any two times, agree up to every index that both
have committed. -/
theorem committed_logs_agree (hnd : members.Nodup)
    (r₁ : Run Cluster.step (ReplicatesSoundly members) (Cluster.boot members sm) [] c₁ h₁)
    (r₂ : Run Cluster.step (ReplicatesSoundly members) c₁ h₁ c₂ h₂) (i j : String) :
    AgreeUpTo (c₁ i).node.logEntries (c₂ j).node.logEntries
      (min (c₁ i).node.commitIndex (c₂ j).node.commitIndex) := by
  obtain ⟨g₁, g₂, hsim₁, hsim₂, hext⟩ := sim_runs hnd r₁ r₂
  have hm := (hsim₁.node i).mirrors
  have hm' := (hsim₂.node j).mirrors
  generalize hk : min (c₁ i).node.commitIndex (c₂ j).node.commitIndex = k
  have hle : k ≤ (c₁ i).node.commitIndex := hk ▸ min_le_left _ _
  have hle' : k ≤ (c₂ j).node.commitIndex := hk ▸ min_le_right _ _
  have hlen := hle.trans hm.commit_le
  have hlen' := hle'.trans hm'.commit_le
  have hS := (hm.commit.mono hext le_rfl).of_isPrefix (List.take_prefix_take_left hle)
  have hS' := hm'.commit.of_isPrefix (List.take_prefix_take_left hle')
  refine hm.log.agreeUpTo hm'.log hlen hlen' ?_
  have heq : ((g₁.log i).take k).length = ((g₂.log j).take k).length := by
    rw [List.length_take, List.length_take, min_eq_left hlen, min_eq_left hlen']
  rcases hsim₂.inv.decided_comparable hS hS' with hp | hp
  · exact hp.eq_of_length heq
  · exact (hp.eq_of_length heq.symm).symm

/-- **Leader completeness**: what a member has committed is in the log of every later leader of
its term or a higher one. -/
theorem leader_completeness (hnd : members.Nodup)
    (r₁ : Run Cluster.step (ReplicatesSoundly members) (Cluster.boot members sm) [] c₁ h₁)
    (r₂ : Run Cluster.step (ReplicatesSoundly members) c₁ h₁ c₂ h₂) {i j : String}
    (hl : (c₂ j).node.state = .leader)
    (ht : (c₁ i).node.currentTerm ≤ (c₂ j).node.currentTerm) :
    (c₁ i).node.commitIndex ≤ lastIndex (c₂ j).node.logEntries ∧
      AgreeUpTo (c₁ i).node.logEntries (c₂ j).node.logEntries (c₁ i).node.commitIndex := by
  obtain ⟨g₁, g₂, hsim₁, hsim₂, hext⟩ := sim_runs hnd r₁ r₂
  have hm := (hsim₁.node i).mirrors
  exact hm.log.agreeUpTo_of_isPrefix (hsim₂.node j).mirrors.log hm.commit_le
    (hsim₂.led hl (hm.commit.mono hext le_rfl) ht)

/-- **Durability**: at every later time a majority of the members holds what a member has
committed. -/
theorem committed_durable (hnd : members.Nodup)
    (r₁ : Run Cluster.step (ReplicatesSoundly members) (Cluster.boot members sm) [] c₁ h₁)
    (r₂ : Run Cluster.step (ReplicatesSoundly members) c₁ h₁ c₂ h₂) {i : String}
    (hpos : 0 < (c₁ i).node.commitIndex) :
    ∃ A, IsMajority members.toFinset A ∧ ∀ v ∈ A,
      (c₁ i).node.commitIndex ≤ lastIndex (c₂ v).node.logEntries ∧
        AgreeUpTo (c₁ i).node.logEntries (c₂ v).node.logEntries (c₁ i).node.commitIndex := by
  obtain ⟨g₁, g₂, hsim₁, hsim₂, hext⟩ := sim_runs hnd r₁ r₂
  have hm := (hsim₁.node i).mirrors
  obtain ⟨A, hA, hheld⟩ := hsim₂.held (hm.commit.mono hext le_rfl) (by
    rwa [List.length_take, min_eq_left hm.commit_le])
  refine ⟨A, hA, fun v hv => ?_⟩
  exact hm.log.agreeUpTo_of_isPrefix (hsim₂.node v).mirrors.log hm.commit_le (hheld v hv)

/-- **A leader only appends**: as long as a member leads a term, its log keeps every entry. -/
theorem leader_append_only (hnd : members.Nodup)
    (r₁ : Run Cluster.step (ReplicatesSoundly members) (Cluster.boot members sm) [] c₁ h₁)
    (r₂ : Run Cluster.step (ReplicatesSoundly members) c₁ h₁ c₂ h₂) {i : String}
    (hl : (c₁ i).node.state = .leader) (hl' : (c₂ i).node.state = .leader)
    (ht : (c₁ i).node.currentTerm = (c₂ i).node.currentTerm) :
    lastIndex (c₁ i).node.logEntries ≤ lastIndex (c₂ i).node.logEntries ∧
      AgreeUpTo (c₁ i).node.logEntries (c₂ i).node.logEntries
        (lastIndex (c₁ i).node.logEntries) := by
  obtain ⟨g₁, g₂, hsim₁, hsim₂, hext⟩ := sim_runs hnd r₁ r₂
  have hm := (hsim₁.node i).mirrors
  have hm' := (hsim₂.node i).mirrors
  refine hm.log.agreeUpTo_of_isPrefix hm'.log hm.log.lastIndex_eq.le ?_
  rw [hm.log.lastIndex_eq, List.take_length, ((hsim₁.node i).leads hl).log_eq hm hsim₁.inv,
    ((hsim₂.node i).leads hl').log_eq hm' hsim₂.inv, ht]
  exact hext.tlog _

end Runs

/-! ## What the clients are told -/

/-- The entry a round of the apply loop is about. -/
def ApplyLoop.entry : ApplyLoop → Option LogEntry
  | .read _ e _ => some e
  | .applied _ e _ => some e
  | .written e _ => some e
  | _ => none

section Told

variable {s s' : Server} {ev : Event} {out : List Output}

/-- The entry of a round is read from the log, below the commit index. -/
theorem Server.Step.entry_cases (hs : Server.Step s ev s' out) {e : LogEntry}
    (he : s'.apply.entry = some e) :
    s.apply.entry = some e ∨
      ∃ idx, 0 < idx ∧ idx ≤ s.node.commitIndex ∧ entryAt s.node.logEntries idx = some e := by
  cases hs with
  | applyWake | applyIdle | applySkip | applyNotify | restart => cases he
  | applyRead entry ha hc hentry =>
    cases he
    exact .inr ⟨_, Nat.succ_pos _, hc, hentry⟩
  | applyCall idx entry waiter ha | applyWrite idx entry waiter ha =>
    rw [ha]
    exact .inl he
  | _ => exact .inl he

/-- A waiter is told of the entry of the round. -/
theorem Server.Step.entry_of_result (hs : Server.Step s ev s' out) {ch idx t : ℕ}
    (ho : .result ch ⟨true, idx, t⟩ ∈ out) :
    ∃ e, s.apply.entry = some e ∧ e.index = idx ∧ e.term = t := by
  cases hs with
  | abortPendingProposals hr hp =>
    obtain ⟨r, hr, heq⟩ := List.mem_map.1 ho
    obtain ⟨w, -, rfl⟩ := List.mem_map.1 hr
    cases heq
  | applyCall next entry waiter ha => split_ifs at ho <;> simp at ho
  | applyNotify entry waiter ha =>
    rw [Option.mem_toList, Option.map_eq_some_iff] at ho
    obtain ⟨w, -, heq⟩ := ho
    cases heq
    exact ⟨entry, by rw [ha]; rfl, rfl, rfl⟩
  | _ => simp at ho

/-- What the apply loops work on, and what their clients were told, is committed. -/
structure Tells (members : List String) (c : Cluster) (h : List (String × Output)) (g : Ghost) :
    Prop where
  entry : ∀ i e, (c i).apply.entry = some e →
    0 < e.index ∧ Covers members g (c i).node.currentTerm e.index e.term
  told : ∀ i ch idx t, (i, .result ch ⟨true, idx, t⟩) ∈ h →
    0 < idx ∧ Covers members g (c i).node.currentTerm idx t

variable {members : List String} {c c' : Cluster} {h o : List (String × Output)} {g g' : Ghost}

theorem Tells.step (ht : Tells members c h g) (hsim : Sim members c h g)
    (hsim' : Sim members c' (h ++ o) g') (hext : g.Ext g') {x : String × Event}
    (hs : c.step x = some (c', o)) : Tells members c' (h ++ o) g' := by
  have hterm : ∀ i, (c i).node.currentTerm ≤ (c' i).node.currentTerm := by
    intro i
    rw [← (hsim.node i).mirrors.term, ← (hsim'.node i).mirrors.term]
    exact hext.term i
  obtain ⟨s', out, hstep, rfl, rfl⟩ := Cluster.step_eq hs
  refine ⟨fun i e he => ?_, fun i ch idx t ho => ?_⟩
  · by_cases hi : i = x.1
    · subst hi
      rw [Function.update_self] at he
      rcases hstep.entry_cases he with hold | ⟨idx, hpos, hc, hentry⟩
      · exact (ht.entry x.1 e hold).imp_right fun hcov => hcov.mono hext (hterm x.1)
      · have hm := (hsim.node x.1).mirrors
        have hidx := hm.log.wellFormed.index_of_entryAt hentry
        have hcov := hm.covers (entryAt_bounds hentry).1 hc
        rw [termAt_of_entryAt hentry, ← hidx] at hcov
        exact ⟨hidx ▸ hpos, hcov.mono hext (hterm x.1)⟩
    · rw [Function.update_of_ne hi] at he
      exact (ht.entry i e he).imp_right fun hcov => hcov.mono hext (hterm i)
  · rcases List.mem_append.1 ho with hold | hnew
    · exact (ht.told i ch idx t hold).imp_right fun hcov => hcov.mono hext (hterm i)
    · obtain ⟨z, hz, heq⟩ := List.mem_map.1 hnew
      obtain ⟨rfl, rfl⟩ := Prod.mk.inj heq
      obtain ⟨e, he, rfl, rfl⟩ := hstep.entry_of_result hz
      exact (ht.entry x.1 e he).imp_right fun hcov => hcov.mono hext (hterm x.1)

/-- The protocol behind a run knows what the clients were told. -/
theorem tells_run (hnd : members.Nodup) {sm : String → StateMachineKind}
    (r : Run Cluster.step (ReplicatesSoundly members) (Cluster.boot members sm) [] c h) :
    ClusterElects members c h ∧ ∃ g, Sim members c h g ∧ Tells members c h g := by
  refine r.invariant
    (I := fun c h => ClusterElects members c h ∧ ∃ g, Sim members c h g ∧ Tells members c h g)
    ⟨⟨nofun, elects_boot members sm⟩, _, sim_boot members sm, nofun, nofun⟩ ?_
  rintro c h x c' out ⟨hel, g, hsim, ht⟩ hok hs
  obtain ⟨g', hsim', hext⟩ := hsim.step hel hnd hok hs
  exact ⟨hel.step hnd hok.1 hs, g', hsim', ht.step hsim hsim' hext hs⟩

/-- The log holds the entry of term `t` at `idx`, or its snapshot covers it. -/
def HoldsAt (log : List LogEntry) (idx t : ℕ) : Prop :=
  idx ≤ lastIndex log ∧ (firstIndex log ≤ idx → termAt log idx = t)

theorem Window.holdsAt {log full S : List LogEntry} (h : Window log full) (hp : S <+: full) :
    HoldsAt log S.length (lastTerm LogEntry.term S) := by
  have hlen := hp.length_le
  refine ⟨h.lastIndex_eq ▸ hlen, fun hf => ?_⟩
  rw [h.termAt_eq hf hlen, ← List.prefix_iff_eq_take.1 hp]

/-- **What a client is told is durable**: when a member has told a waiter that an index and a term
are committed, then at every later time a majority of the members holds the entry of that index and
that term, and so does every leader of a term no lower than the one the member is in by then. -/
theorem told_durable (hnd : members.Nodup) {sm : String → StateMachineKind} {c₁ c₂ : Cluster}
    {h₁ h₂ : List (String × Output)}
    (r₁ : Run Cluster.step (ReplicatesSoundly members) (Cluster.boot members sm) [] c₁ h₁)
    (r₂ : Run Cluster.step (ReplicatesSoundly members) c₁ h₁ c₂ h₂) {i : String} {ch idx t : ℕ}
    (ho : (i, .result ch ⟨true, idx, t⟩) ∈ h₁) :
    (∃ A, IsMajority members.toFinset A ∧ ∀ v ∈ A, HoldsAt (c₂ v).node.logEntries idx t) ∧
      ∀ j, (c₂ j).node.state = .leader → (c₁ i).node.currentTerm ≤ (c₂ j).node.currentTerm →
        HoldsAt (c₂ j).node.logEntries idx t := by
  obtain ⟨hel, g₁, hsim₁, htells⟩ := tells_run hnd r₁
  obtain ⟨g₂, hsim₂, hext⟩ := hsim₁.run hel hnd r₂
  obtain ⟨hpos, hcov⟩ := htells.told i ch idx t ho
  obtain ⟨S, hS, -, rfl, rfl⟩ := hcov.mono hext le_rfl
  constructor
  · obtain ⟨A, hA, hheld⟩ := hsim₂.held hS hpos
    exact ⟨A, hA, fun v hv => (hsim₂.node v).mirrors.log.holdsAt (hheld v hv)⟩
  · exact fun j hl hT => (hsim₂.node j).mirrors.log.holdsAt (hsim₂.led hl hS hT)

end Told

/-- Where the leader `"a"` of three has told its client of the entry that `"b"` holds as well. -/
theorem told_durable_of_replication : ∃ (c : Cluster) (h : List (String × Output)),
    ("a", .result 0 ⟨true, 1, 1⟩) ∈ h ∧ (c "a").node.state = .leader ∧
      (∃ A, IsMajority ["a", "b", "c"].toFinset A ∧ ∀ v ∈ A, HoldsAt (c v).node.logEntries 1 1) ∧
      HoldsAt (c "a").node.logEntries 1 1 := by
  obtain ⟨c, h, r, ho, hl⟩ := exists_run_of_exec Cluster.step (ReplicatesSoundly ["a", "b", "c"])
    (Cluster.boot ["a", "b", "c"] fun _ => .plain) []
    [("a", .dispatch), ("a", .followerTimeout), ("a", .dispatch), ("a", .startElection),
      ("b", .handleRequestVote ⟨1, "a", 0, 0⟩), ("a", .voteReply "b" ⟨1, true⟩),
      ("a", .wonElection), ("a", .voteError "c"), ("a", .electionDone), ("a", .dispatch),
      ("a", .drainStepDown), ("a", .propose (some [7])), ("a", .sendAppend "b"),
      ("b", .handleAppendEntries ⟨1, "a", 0, 0, [⟨1, 1, some [7]⟩], 0⟩),
      ("a", .appendReply "b" ⟨1, "a", 0, 0, [⟨1, 1, some [7]⟩], 0⟩ ⟨1, true⟩),
      ("a", .applyWake), ("a", .applyRead), ("a", .applyCall), ("a", .applyWrite),
      ("a", .applyNotify)]
    (fun c h => ("a", .result 0 ⟨true, 1, 1⟩) ∈ h ∧ (c "a").node.state = .leader)
    (by decide +kernel)
  obtain ⟨hmaj, hlead⟩ := told_durable (by decide) r .refl ho
  exact ⟨c, h, ho, hl, hmaj, hlead "a" hl le_rfl⟩

/-! ## Two leaders -/

/-- The leader `"a"` of term 1 has committed an entry that `"b"` holds as well. Later `"b"` leads
term 2, and `"a"`, which has not heard of it, has appended to its own log. -/
def Overtaken (c₁ c₂ : Cluster) : Prop :=
  ((c₁ "a").node.state = .leader ∧ (c₁ "a").node.currentTerm = 1 ∧
    (c₁ "a").node.commitIndex = 1 ∧
    (c₁ "a").node.logEntries = [⟨0, 0, none⟩, ⟨1, 1, some [7]⟩]) ∧
  ((c₂ "a").node.state = .leader ∧ (c₂ "a").node.currentTerm = 1 ∧
    (c₂ "a").node.logEntries = [⟨0, 0, none⟩, ⟨1, 1, some [7]⟩, ⟨1, 2, some [9]⟩]) ∧
  (c₂ "b").node.state = .leader ∧ (c₂ "b").node.currentTerm = 2 ∧ (c₂ "b").node.commitIndex = 1 ∧
    (c₂ "b").node.logEntries = [⟨0, 0, none⟩, ⟨1, 1, some [7]⟩]

instance (c₁ c₂ : Cluster) : Decidable (Overtaken c₁ c₂) :=
  inferInstanceAs (Decidable ((_ ∧ _) ∧ (_ ∧ _) ∧ _ ∧ _))

theorem exists_overtaken : ∃ c₁ h₁ c₂ h₂,
    Run Cluster.step (ReplicatesSoundly ["a", "b", "c"])
      (Cluster.boot ["a", "b", "c"] fun _ => .absent) [] c₁ h₁ ∧
    Run Cluster.step (ReplicatesSoundly ["a", "b", "c"]) c₁ h₁ c₂ h₂ ∧ Overtaken c₁ c₂ :=
  exists_runs_of_exec Cluster.step
    (ReplicatesSoundly ["a", "b", "c"]) (Cluster.boot ["a", "b", "c"] fun _ => .absent) []
    [("a", .dispatch), ("a", .followerTimeout), ("a", .dispatch), ("a", .startElection),
      ("b", .handleRequestVote ⟨1, "a", 0, 0⟩), ("a", .voteReply "b" ⟨1, true⟩),
      ("a", .wonElection), ("a", .voteError "c"), ("a", .electionDone), ("a", .dispatch),
      ("a", .drainStepDown), ("a", .propose (some [7])), ("a", .sendAppend "b"),
      ("b", .handleAppendEntries ⟨1, "a", 0, 0, [⟨1, 1, some [7]⟩], 0⟩),
      ("a", .appendReply "b" ⟨1, "a", 0, 0, [⟨1, 1, some [7]⟩], 0⟩ ⟨1, true⟩)]
    [("a", .sendAppend "b"), ("b", .handleAppendEntries ⟨1, "a", 1, 1, [], 1⟩),
      ("a", .propose (some [9])), ("b", .dispatch), ("b", .followerTimeout), ("b", .dispatch),
      ("b", .startElection), ("c", .handleRequestVote ⟨2, "b", 1, 1⟩),
      ("b", .voteReply "c" ⟨2, true⟩), ("b", .wonElection)]
    Overtaken (by decide +kernel)

theorem log_matching_of_overtaken : ∃ c₁ c₂, Overtaken c₁ c₂ ∧
    AgreeUpTo (c₁ "a").node.logEntries (c₂ "b").node.logEntries 1 := by
  obtain ⟨c₁, h₁, c₂, h₂, r₁, r₂, hc⟩ := exists_overtaken
  obtain ⟨⟨-, -, -, ha⟩, -, -, -, -, hb⟩ := id hc
  refine ⟨c₁, c₂, hc, log_matching (by decide) r₁ r₂ ?_ ?_ ?_⟩
  · rw [ha]
    decide
  · rw [hb]
    decide
  · rw [ha, hb]

theorem committed_logs_agree_of_overtaken : ∃ c₁ c₂, Overtaken c₁ c₂ ∧
    AgreeUpTo (c₁ "a").node.logEntries (c₂ "b").node.logEntries 1 := by
  obtain ⟨c₁, h₁, c₂, h₂, r₁, r₂, hc⟩ := exists_overtaken
  have hagree := committed_logs_agree (by decide) r₁ r₂ "a" "b"
  obtain ⟨⟨-, -, hac, -⟩, -, -, -, hbc, -⟩ := id hc
  rw [hac, hbc] at hagree
  exact ⟨c₁, c₂, hc, hagree⟩

theorem leader_completeness_of_overtaken : ∃ c₁ c₂, Overtaken c₁ c₂ ∧
    AgreeUpTo (c₁ "a").node.logEntries (c₂ "b").node.logEntries 1 := by
  obtain ⟨c₁, h₁, c₂, h₂, r₁, r₂, hc⟩ := exists_overtaken
  obtain ⟨⟨-, hat, hac, -⟩, -, hbl, hbt, -, -⟩ := id hc
  have hcomplete := leader_completeness (by decide) r₁ r₂ (i := "a") hbl (by rw [hat, hbt]; decide)
  rw [hac] at hcomplete
  exact ⟨c₁, c₂, hc, hcomplete.2⟩

theorem committed_durable_of_overtaken : ∃ c₁ c₂, Overtaken c₁ c₂ ∧
    ∃ A, IsMajority ["a", "b", "c"].toFinset A ∧ ∀ v ∈ A,
      1 ≤ lastIndex (c₂ v).node.logEntries ∧
        AgreeUpTo (c₁ "a").node.logEntries (c₂ v).node.logEntries 1 := by
  obtain ⟨c₁, h₁, c₂, h₂, r₁, r₂, hc⟩ := exists_overtaken
  have hac := hc.1.2.2.1
  have hdurable := committed_durable (by decide) r₁ r₂ (i := "a") (by rw [hac]; decide)
  rw [hac] at hdurable
  exact ⟨c₁, c₂, hc, hdurable⟩

theorem leader_append_only_of_overtaken : ∃ c₁ c₂, Overtaken c₁ c₂ ∧
    AgreeUpTo (c₁ "a").node.logEntries (c₂ "a").node.logEntries 1 := by
  obtain ⟨c₁, h₁, c₂, h₂, r₁, r₂, hc⟩ := exists_overtaken
  obtain ⟨⟨hl, ht, -, ha⟩, ⟨hl', ht', -⟩, -⟩ := id hc
  have happend := leader_append_only (by decide) r₁ r₂ hl hl' (ht.trans ht'.symm)
  have hlast : lastIndex (c₁ "a").node.logEntries = 1 := by
    rw [ha]
    decide
  rw [hlast] at happend
  exact ⟨c₁, c₂, hc, happend.2⟩

end Driftless.Raft
