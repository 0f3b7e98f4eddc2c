import Mathlib.Order.Basic
import Driftless.Raft.Server

/-!
# The votes of a node

A node casts a vote by starting an election or by granting a request. `VoteStep` says once what
a step can do to the term and the vote: everything takes a vote back only with a higher term,
except the rule by which `HandleAppendEntries` and `HandleInstallSnapshot` recognize a leader,
which clears `votedFor` in the same term when the node is not a follower (`Erases`).

`VotesOnce` holds as long as no request is granted to another candidate in a term whose vote was
cleared (`NoRevote`), and then a node votes for one candidate per term: `votes_unique`. This is the
case in every run in which no step erases a vote (`keepsVote_of_keepsRecord`). `votes_differ` is a
run with an erasure.
-/

namespace Driftless.Raft

/-- The vote an output casts: the term it is cast in, and the candidate. -/
def Output.vote : Output → Option (ℕ × String)
  | .requestVote args => some (args.term, args.candidateID)
  | .requestVoteReply args reply =>
    if reply.voteGranted then some (reply.term, args.candidateID) else none
  | _ => none

/-- The votes cast in a history. -/
def votes (h : List Output) : List (ℕ × String) := h.filterMap Output.vote

@[simp] theorem votes_append (h out : List Output) : votes (h ++ out) = votes h ++ votes out :=
  List.filterMap_append

/-- Results of proposals are no votes. -/
theorem votes_map_result (rs : List (ℕ × ProposeResult)) :
    votes (rs.map fun r => Output.result r.1 r.2) = [] := by
  simp [votes, List.filterMap_map, Function.comp_def, Output.vote]

/-! ## What a step does to the vote -/

/-- The event makes the node recognize a leader of its own term while it is not a follower,
which clears `votedFor`. -/
def Erases (n : Node) : Event → Prop
  | .handleAppendEntries args => args.term = n.currentTerm ∧ n.state ≠ .follower
  | .handleInstallSnapshot args => args.term = n.currentTerm ∧ n.state ≠ .follower
  | _ => False

instance (n : Node) (ev : Event) : Decidable (Erases n ev) := by
  rcases ev <;> dsimp only [Erases] <;> infer_instance

/-- What a step does to the term and the vote, and the votes it casts. -/
inductive VoteStep (n : Node) : Event → Node → List (ℕ × String) → Prop
  | keep {ev : Event} {n' : Node} (ht : n'.currentTerm = n.currentTerm)
      (hv : n'.votedFor = n.votedFor) : VoteStep n ev n' []
  | adopt {ev : Event} {n' : Node} (ht : n.currentTerm < n'.currentTerm)
      (hv : n'.votedFor = "") : VoteStep n ev n' []
  | self {n' : Node} (ht : n'.currentTerm = n.currentTerm + 1) (hv : n'.votedFor = n.id) :
      VoteStep n .startElection n' [(n.currentTerm + 1, n.id)]
  | grant {n' : Node} (args : RequestVoteArgs) (ht : n.currentTerm ≤ args.term)
      (hfree : args.term = n.currentTerm → n.votedFor = "" ∨ n.votedFor = args.candidateID)
      (hok : Node.LogOK args n.logEntries) (ht' : n'.currentTerm = args.term)
      (hv : n'.votedFor = args.candidateID) :
      VoteStep n (.handleRequestVote args) n' [(args.term, args.candidateID)]
  | erase {ev : Event} {n' : Node} (he : Erases n ev) (ht : n'.currentTerm = n.currentTerm)
      (hv : n'.votedFor = "") : VoteStep n ev n' []

theorem VoteStep.le_currentTerm {n n' : Node} {ev : Event} {v : List (ℕ × String)}
    (h : VoteStep n ev n' v) : n.currentTerm ≤ n'.currentTerm := by
  cases h <;> omega

/-- The three things recognizing a leader can do to the vote. -/
theorem Node.recognizeLeader_vote (n : Node) {t : ℕ} (h : n.currentTerm ≤ t) :
    (n.currentTerm < (n.recognizeLeader t).currentTerm ∧ (n.recognizeLeader t).votedFor = "") ∨
    ((t = n.currentTerm ∧ n.state ≠ .follower) ∧
      (n.recognizeLeader t).currentTerm = n.currentTerm ∧ (n.recognizeLeader t).votedFor = "") ∨
    ((n.recognizeLeader t).currentTerm = n.currentTerm ∧
      (n.recognizeLeader t).votedFor = n.votedFor) := by
  rw [n.recognizeLeader_currentTerm h]
  unfold recognizeLeader
  split_ifs with hc
  · rcases Nat.lt_or_ge n.currentTerm t with hlt | hge
    · exact .inl ⟨hlt, rfl⟩
    · have heq : t = n.currentTerm := by omega
      exact .inr (.inl ⟨⟨heq, hc.resolve_left (by omega)⟩, heq, rfl⟩)
  · exact .inr (.inr ⟨by omega, rfl⟩)

/-- A step whose node is, up to its term and vote, one that recognized a leader. -/
theorem VoteStep.of_recognizeLeader {n n' : Node} {ev : Event} {t : ℕ} (h : n.currentTerm ≤ t)
    (he : t = n.currentTerm ∧ n.state ≠ .follower → Erases n ev)
    (ht : n'.currentTerm = (n.recognizeLeader t).currentTerm)
    (hv : n'.votedFor = (n.recognizeLeader t).votedFor) : VoteStep n ev n' [] := by
  rcases n.recognizeLeader_vote h with ⟨ht', hv'⟩ | ⟨hc, ht', hv'⟩ | ⟨ht', hv'⟩
  · exact .adopt (ht ▸ ht') (hv.trans hv')
  · exact .erase (he hc) (ht.trans ht') (hv.trans hv')
  · exact .keep (ht.trans ht') (hv.trans hv')

theorem VoteStep.handleRequestVote (n : Node) (args : RequestVoteArgs) :
    VoteStep n (.handleRequestVote args) (n.handleRequestVote args).1
      (votes [.requestVoteReply args (n.handleRequestVote args).2]) := by
  rcases n.handleRequestVote_cases args with h | ⟨ht, hfree, hok, h⟩
  · rw [h]
    show VoteStep n _ (n.seeTerm args.term) []
    unfold Node.seeTerm
    split_ifs with hlt
    · exact .adopt hlt rfl
    · exact .keep rfl rfl
  · rw [h]
    refine .grant args ht (fun heq => ?_) hok ?_ rfl
    · simpa only [Node.seeTerm, heq, gt_iff_lt, lt_irrefl, if_false] using hfree
    · exact (n.seeTerm_currentTerm args.term).trans (by omega)

theorem VoteStep.handleAppendEntries (n : Node) (args : AppendEntriesArgs) :
    VoteStep n (.handleAppendEntries args) (n.handleAppendEntries args).1 [] := by
  rcases n.handleAppendEntries_cases args with ⟨-, h⟩ | ⟨ht, -, h⟩ | ⟨ht, -, h⟩
  · rw [h]
    exact .keep rfl rfl
  · rw [h]
    exact .of_recognizeLeader ht id rfl rfl
  · rw [h]
    exact .of_recognizeLeader ht id rfl rfl

theorem VoteStep.handleAppendReply (n : Node) (ev : Event) (p : String) (args : AppendEntriesArgs)
    (reply : AppendEntriesReply) : VoteStep n ev (n.handleAppendReply p args reply) [] := by
  unfold Node.handleAppendReply
  split_ifs with ht
  · exact .adopt ht rfl
  · exact .keep rfl rfl
  · exact .keep rfl rfl
  · exact .keep rfl rfl

theorem VoteStep.handleInstallReply (n : Node) (ev : Event) (p : String)
    (args : InstallSnapshotArgs) (reply : InstallSnapshotReply) :
    VoteStep n ev (n.handleInstallReply p args reply) [] := by
  unfold Node.handleInstallReply
  split_ifs with ht
  · exact .adopt ht rfl
  · exact .keep rfl rfl
  · exact .keep rfl rfl

theorem Node.propose_vote {n n' : Node} {cmd : Option Bytes} {ch : ℕ} {e : LogEntry}
    (h : n.propose cmd ch = some (n', e)) :
    n'.currentTerm = n.currentTerm ∧ n'.votedFor = n.votedFor := by
  unfold propose at h
  split_ifs at h
  cases h
  exact ⟨rfl, rfl⟩

theorem Node.sendAppend_vote {n n' : Node} {p : String} {a : SendAction}
    (h : n.sendAppend p = (n', a)) :
    n'.currentTerm = n.currentTerm ∧ n'.votedFor = n.votedFor := by
  unfold sendAppend at h
  split_ifs at h <;> cases h <;> exact ⟨rfl, rfl⟩

/-- Without a crash, every step of a server is one of these. -/
theorem Server.Step.voteStep {s s' : Server} {ev : Event} {out : List Output}
    (h : Server.Step s ev s' out) (hne : ev ≠ .restart) :
    VoteStep s.node ev s'.node (votes out) := by
  cases h with
  | startElection => exact .self rfl rfl
  | voteHigherTerm p reply e hr hp ht => exact .adopt ht rfl
  | abortPendingProposals =>
    rw [votes_map_result]
    exact .keep rfl rfl
  | sendAppend p n args hr hi hp hl hs =>
    exact .keep (Node.sendAppend_vote hs).1 (Node.sendAppend_vote hs).2
  | appendReply p args reply => exact .handleAppendReply _ _ _ _ _
  | installReply p args reply => exact .handleInstallReply _ _ _ _ _
  | handleRequestVote args => exact .handleRequestVote _ args
  | handleAppendEntries args => exact .handleAppendEntries _ args
  | installOld args ht ho => exact .of_recognizeLeader ht id rfl rfl
  | install args ht ho => exact .of_recognizeLeader ht id rfl rfl
  | propose cmd n entry hp => exact .keep (Node.propose_vote hp).1 (Node.propose_vote hp).2
  | applyCall =>
    split_ifs
    · exact .keep rfl rfl
    · exact .keep rfl rfl
  | applyNotify entry waiter ha =>
    cases waiter
    · exact .keep rfl rfl
    · exact .keep rfl rfl
  | restart => exact absurd rfl hne
  | _ => exact .keep rfl rfl

/-! ## One vote per term -/

/-- The votes of a history are cast in past terms or the current one, where the vote is still
recorded or was cleared, and there is one candidate per term. -/
structure VotesOnce (n : Node) (h : List Output) : Prop where
  term_le : ∀ T c, (T, c) ∈ votes h → T ≤ n.currentTerm
  recorded : ∀ c, (n.currentTerm, c) ∈ votes h → n.votedFor = c ∨ n.votedFor = ""
  unique : ∀ T c c', (T, c) ∈ votes h → (T, c') ∈ votes h → c = c'

/-- A request of the current term, in which the node's vote was cleared, comes from the
candidate the node had voted for, or its log is too old. -/
def NoRevote (n : Node) (h : List Output) : Event → Prop
  | .handleRequestVote args => args.term = n.currentTerm → n.votedFor = "" →
      Node.LogOK args n.logEntries → ∀ v ∈ votes h, v.1 = args.term → v.2 = args.candidateID
  | _ => True

instance (n : Node) (h : List Output) (ev : Event) : Decidable (NoRevote n h ev) := by
  rcases ev <;> dsimp only [NoRevote] <;> infer_instance

theorem VotesOnce.nil (n : Node) : VotesOnce n [] :=
  ⟨nofun, nofun, nofun⟩

section Step

variable {n n' : Node} {h out : List Output} (hi : VotesOnce n h)
include hi

/-- No vote is cast, and the recorded one stays or is cleared, or belongs to an older term. -/
theorem VotesOnce.quiet (hout : votes out = []) (ht : n.currentTerm ≤ n'.currentTerm)
    (hv : n'.currentTerm = n.currentTerm → n'.votedFor = n.votedFor ∨ n'.votedFor = "") :
    VotesOnce n' (h ++ out) := by
  have hvotes : votes (h ++ out) = votes h := by rw [votes_append, hout, List.append_nil]
  refine ⟨fun T c hc => ?_, fun c hc => ?_, ?_⟩
  · rw [hvotes] at hc
    exact (hi.term_le T c hc).trans ht
  · rw [hvotes] at hc
    have heq : n'.currentTerm = n.currentTerm := by
      have := hi.term_le _ c hc
      omega
    rw [heq] at hc
    rcases hv heq with hsame | hempty
    · rw [hsame]
      exact hi.recorded c hc
    · exact .inr hempty
  · rw [hvotes]
    exact hi.unique

/-- A vote is cast and recorded, in a term without a vote for anybody else. -/
theorem VotesOnce.cast {T : ℕ} {c : String} (hout : votes out = [(T, c)]) (ht : n.currentTerm ≤ T)
    (hfree : ∀ c', (T, c') ∈ votes h → c' = c) (ht' : n'.currentTerm = T)
    (hv : n'.votedFor = c) : VotesOnce n' (h ++ out) := by
  have hmem : ∀ T' c', (T', c') ∈ votes (h ++ out) → (T', c') ∈ votes h ∨ (T' = T ∧ c' = c) := by
    intro T' c' hc
    rw [votes_append, hout, List.mem_append, List.mem_singleton, Prod.mk.injEq] at hc
    exact hc
  refine ⟨fun T' c' hc => ?_, fun c' hc => ?_, fun T' c₁ c₂ h₁ h₂ => ?_⟩
  · rcases hmem T' c' hc with hold | ⟨rfl, -⟩
    · have := hi.term_le T' c' hold
      omega
    · exact le_of_eq ht'.symm
  · rw [ht'] at hc
    rcases hmem T c' hc with hold | ⟨-, rfl⟩
    · exact .inl (hv.trans (hfree c' hold).symm)
    · exact .inl hv
  · rcases hmem T' c₁ h₁ with o₁ | ⟨rfl, rfl⟩ <;> rcases hmem T' c₂ h₂ with o₂ | ⟨e₂, rfl⟩
    · exact hi.unique T' c₁ c₂ o₁ o₂
    · exact hfree c₁ (e₂ ▸ o₁)
    · exact (hfree c₂ o₂).symm
    · rfl

/-- A request that is granted comes from the candidate of every vote already cast in its term. -/
theorem VotesOnce.eq_candidate {args : RequestVoteArgs} (ht : n.currentTerm ≤ args.term)
    (hfree : args.term = n.currentTerm → n.votedFor = "" ∨ n.votedFor = args.candidateID)
    (hlog : Node.LogOK args n.logEntries) (hok : NoRevote n h (.handleRequestVote args))
    {c : String} (hc : (args.term, c) ∈ votes h) : c = args.candidateID := by
  have heq : args.term = n.currentTerm := le_antisymm (hi.term_le _ _ hc) ht
  rcases hfree heq with hempty | hsame
  · exact hok heq hempty hlog _ hc rfl
  · rcases hi.recorded c (heq ▸ hc) with hr | hr
    · exact hr.symm.trans hsame
    · exact hok heq hr hlog _ hc rfl

/-- One step keeps the votes unique, unless it grants one in a term whose vote was cleared. -/
theorem VotesOnce.step {ev : Event} (hs : VoteStep n ev n' (votes out)) (hok : NoRevote n h ev) :
    VotesOnce n' (h ++ out) := by
  generalize hout : votes out = v at hs
  cases hs with
  | keep ht hv => exact hi.quiet hout ht.ge fun _ => .inl hv
  | adopt ht hv => exact hi.quiet hout ht.le fun _ => .inr hv
  | self ht hv =>
    refine hi.cast hout (by omega) (fun c' hc => ?_) ht hv
    have := hi.term_le _ _ hc
    omega
  | grant args ht hfree hlog ht' hv =>
    exact hi.cast hout ht (fun c' hc => hi.eq_candidate ht hfree hlog hok hc) ht' hv
  | erase he ht hv => exact hi.quiet hout ht.ge fun _ => .inr hv

end Step

/-! ## Runs that keep the vote -/

/-- A vote request carries a candidate. -/
def NamesCandidate : Event → Prop
  | .handleRequestVote args => args.candidateID ≠ ""
  | _ => True

instance (ev : Event) : Decidable (NamesCandidate ev) := by
  rcases ev <;> dsimp only [NamesCandidate] <;> infer_instance

/-- The steps of a node that does not crash. -/
def NoCrash (_ : Server) (_ : List Output) (ev : Event) : Prop :=
  ev ≠ .restart ∧ NamesCandidate ev

instance (s : Server) (h : List Output) (ev : Event) : Decidable (NoCrash s h ev) :=
  inferInstanceAs (Decidable (_ ∧ _))

/-- Moreover a vote that was cleared does not go to another candidate. -/
def KeepsVote (s : Server) (h : List Output) (ev : Event) : Prop :=
  NoCrash s h ev ∧ NoRevote s.node h ev

instance (s : Server) (h : List Output) (ev : Event) : Decidable (KeepsVote s h ev) :=
  inferInstanceAs (Decidable (_ ∧ _))

/-- **One vote per term**: from any state, in every run without a crash in which no vote that was
cleared goes to another candidate, all votes of a term are for one candidate. -/
theorem votes_unique {s₀ s : Server} {h : List Output} (r : Run Server.step KeepsVote s₀ [] s h)
    {T : ℕ} {c c' : String} (hc : (T, c) ∈ votes h) (hc' : (T, c') ∈ votes h) : c = c' := by
  have hinv : VotesOnce s.node h := by
    refine r.invariant (I := fun s h => VotesOnce s.node h) (.nil _) ?_
    intro s h ev s' out hi hok hs
    exact hi.step ((Server.step_inv hs).voteStep hok.1.1) hok.2
  exact hinv.unique T c c' hc hc'

/-- A node that campaigns in term 1, where it loses to `"b"`, and grants a request of term 2. -/
theorem votes_unique_of_two_terms : ∃ s h,
    Run Server.step KeepsVote (Server.boot "a" ["b", "c"] .absent none) [] s h ∧
      votes h = [(1, "a"), (2, "b")] ∧ ∀ c, (2, c) ∈ votes h → c = "b" := by
  obtain ⟨s, h, r, hv⟩ := exists_run_of_exec Server.step KeepsVote
    (Server.boot "a" ["b", "c"] .absent none) []
    [.dispatch, .followerTimeout, .dispatch, .startElection,
      .handleAppendEntries ⟨1, "b", 0, 0, [], 0⟩, .handleRequestVote ⟨2, "b", 0, 0⟩,
      .handleAppendEntries ⟨2, "b", 0, 0, [], 0⟩]
    (fun _ h => votes h = [(1, "a"), (2, "b")]) (by decide +kernel)
  refine ⟨s, h, r, hv, fun c hc => votes_unique r hc ?_⟩
  simp [hv]

/-- **A node can vote twice in a term**: a candidate that hears of a leader of its own term
forgets that it voted for itself, and grants the next request of that term. -/
theorem votes_differ : ¬ ∀ (s₀ s : Server) (h : List Output), s₀.node.id ≠ "" →
    s₀.node.votedFor = "" → Run Server.step NoCrash s₀ [] s h →
      ∀ T c c', (T, c) ∈ votes h → (T, c') ∈ votes h → c = c' := by
  intro hall
  obtain ⟨s, h, r, hv⟩ := exists_run_of_exec Server.step NoCrash
    (Server.boot "a" ["b", "c"] .absent none) []
    [.dispatch, .followerTimeout, .dispatch, .startElection,
      .handleAppendEntries ⟨1, "b", 0, 0, [], 0⟩, .handleRequestVote ⟨1, "c", 0, 0⟩]
    (fun _ h => votes h = [(1, "a"), (1, "c")]) (by decide +kernel)
  have hac := hall _ s h (by decide) (by decide) r 1 "a" "c" (by simp [hv]) (by simp [hv])
  exact absurd hac (by decide)

/-! ## Runs without an erasure -/

/-- No vote is erased: a node that has a vote recorded and is not a follower does not hear of a
leader of its own term. -/
def KeepsRecord (s : Server) (h : List Output) (ev : Event) : Prop :=
  NoCrash s h ev ∧ (Erases s.node ev → s.node.votedFor = "")

/-- The vote of the current term is recorded. -/
structure VoteRecorded (n : Node) (h : List Output) : Prop where
  id_ne : n.id ≠ ""
  recorded : ∀ c, (n.currentTerm, c) ∈ votes h → c ≠ "" ∧ n.votedFor = c

theorem VoteRecorded.noRevote {n : Node} {h : List Output} (hr : VoteRecorded n h) (ev : Event) :
    NoRevote n h ev := by
  cases ev with
  | handleRequestVote args =>
    rintro heq hempty - ⟨T, c⟩ hc rfl
    obtain ⟨hne, hv⟩ := hr.recorded c (heq ▸ hc)
    exact absurd (hv.symm.trans hempty) hne
  | _ => trivial

theorem VoteRecorded.step {n n' : Node} {h out : List Output} {ev : Event}
    (hr : VoteRecorded n h) (hi : VotesOnce n h) (hs : VoteStep n ev n' (votes out))
    (hid : n'.id = n.id) (hname : NamesCandidate ev) (hkeep : Erases n ev → n.votedFor = "") :
    VoteRecorded n' (h ++ out) := by
  refine ⟨hid ▸ hr.id_ne, fun c hc => ?_⟩
  rw [votes_append, List.mem_append] at hc
  generalize votes out = v at hs hc
  cases hs with
  | keep ht hv =>
    rw [ht] at hc
    rw [hv]
    exact hr.recorded c (by simpa using hc)
  | adopt ht hv =>
    have := hi.term_le _ c (by simpa using hc)
    omega
  | self ht hv =>
    rcases hc with hold | hnew
    · have := hi.term_le _ c hold
      omega
    · have hcid : c = n.id := (Prod.mk.injEq .. ▸ List.mem_singleton.1 hnew).2
      exact ⟨hcid ▸ hr.id_ne, hv.trans hcid.symm⟩
  | grant args ht hfree hlog ht' hv =>
    have hcand : args.candidateID ≠ "" := hname
    rcases hc with hold | hnew
    · have heq : args.term = n.currentTerm := by
        have := hi.term_le _ c hold
        omega
      rw [ht', heq] at hold
      obtain ⟨hne, hvc⟩ := hr.recorded c hold
      have hsame := (hfree heq).resolve_left fun he => hne (hvc.symm.trans he)
      exact ⟨hne, hv.trans (hsame.symm.trans hvc)⟩
    · have hcid : c = args.candidateID := (Prod.mk.injEq .. ▸ List.mem_singleton.1 hnew).2
      exact ⟨hcid ▸ hcand, hv.trans hcid.symm⟩
  | erase he ht hv =>
    rw [ht] at hc
    obtain ⟨hne, hvc⟩ := hr.recorded c (by simpa using hc)
    exact absurd (hvc.symm.trans (hkeep he)) hne

/-- **A run that erases no vote keeps the vote**: where the vote of a term was cast, it is recorded
as long as the term lasts. -/
theorem keepsVote_of_keepsRecord {s₀ s : Server} {h : List Output} (hid : s₀.node.id ≠ "")
    (r : Run Server.step KeepsRecord s₀ [] s h) : Run Server.step KeepsVote s₀ [] s h := by
  refine (r.strengthen (I := fun s h => VotesOnce s.node h ∧ VoteRecorded s.node h)
    ⟨.nil _, hid, nofun⟩ ?_).2
  intro s h ev s' out hi hok hs
  have hstep := Server.step_inv hs
  have hvote := hstep.voteStep hok.1.1
  have hno := hi.2.noRevote ev
  exact ⟨⟨hi.1.step hvote hno, hi.2.step hi.1 hvote hstep.id_eq hok.1.2 hok.2⟩, hok.1, hno⟩

end Driftless.Raft
