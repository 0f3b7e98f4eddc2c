import Mathlib.Logic.Function.Basic
import Mathlib.Logic.Relation
import Driftless.Consensus.Basic

/-!
# A replicated log led by terms

Nodes move through terms. In a term a node may be nominated with the log it has, nodes vote for
nominees whose log is at least as up to date as their own, and a nominee with a majority of votes
leads the term: its log becomes the log of the term, which only it extends. Other nodes accept
prefixes of the log of the term they are in, and that they accepted them is recorded.

A prefix that ends with an entry of its own term is committed once a majority accepted it in that
term. `Inv` is the invariant of the protocol. The heart of it is `Inv.complete`: every later term's
log extends such a prefix, unless a majority has left the term without accepting it and never
will (`Blocked`). Hence committed prefixes are prefixes of one another (`Inv.agreement`).
-/

namespace Driftless.Consensus

/-- Set the value of a function of two arguments at one point. -/
def update₂ {α β γ : Type*} [DecidableEq α] [DecidableEq β] (f : α → β → γ) (a : α) (b : β)
    (x : γ) : α → β → γ :=
  Function.update f a (Function.update (f a) b x)

section Update

variable {α β γ : Type*} [DecidableEq α] [DecidableEq β] (f : α → β → γ) {a a' : α} {b b' : β}
  {x : γ}

@[simp] theorem update₂_self : update₂ f a b x a b = x := by
  simp [update₂]

theorem update₂_of_ne (h : a' ≠ a ∨ b' ≠ b) : update₂ f a b x a' b' = f a' b' := by
  by_cases ha : a' = a
  · subst ha
    simp [update₂, h.resolve_left (not_not.2 rfl)]
  · simp [update₂, ha]

theorem update₂_cases (a : α) (b : β) (x : γ) (a' : α) (b' : β) :
    (a' = a ∧ b' = b ∧ update₂ f a b x a' b' = x) ∨ update₂ f a b x a' b' = f a' b' := by
  by_cases hne : a' ≠ a ∨ b' ≠ b
  · exact .inr (update₂_of_ne f hne)
  · obtain ⟨ha, hb⟩ := not_or.1 hne
    obtain rfl := not_not.1 ha
    obtain rfl := not_not.1 hb
    exact .inl ⟨rfl, rfl, update₂_self f⟩

end Update

/-- The state of the protocol. -/
structure State (ν ε : Type*) where
  /-- The term a node is in. -/
  term : ν → ℕ
  log : ν → List ε
  /-- The log a node was nominated with in a term. -/
  clog : ν → ℕ → Option (List ε)
  /-- Whom a node voted for in a term. -/
  vote : ν → ℕ → Option ν
  /-- Who leads a term. -/
  led : ℕ → Option ν
  /-- The log of a term, empty while nobody leads it. -/
  tlog : ℕ → List ε
  /-- The length of the prefix of the log of a term that a node accepted in it. -/
  acked : ν → ℕ → ℕ

variable {ν ε : Type*} (τ : ε → ℕ) (M : Finset ν)

namespace State

variable (g : State ν ε)

def init : State ν ε where
  term _ := 0
  log _ := []
  clog _ _ := none
  vote _ _ := none
  led _ := none
  tlog _ := []
  acked _ _ := 0

/-- `X` is a prefix of the log of the term of its last entry. -/
def Stamped (X : List ε) : Prop := X ≠ [] ∧ X <+: g.tlog (lastTerm τ X)

/-- Every prefix of `l` is stamped. -/
def Anchored (l : List ε) : Prop := ∀ p, p <+: l → p ≠ [] → g.Stamped τ p

/-- The node accepted `X` in the term of its last entry. -/
def Acked (v : ν) (X : List ε) : Prop := X.length ≤ g.acked v (lastTerm τ X)

/-- A majority left the term of `X` without having accepted `X`. -/
def Blocked (X : List ε) : Prop :=
  ∃ V, IsMajority M V ∧
    ∀ v ∈ V, lastTerm τ X < g.term v ∧ g.acked v (lastTerm τ X) < X.length

/-- A majority accepted `X` in the term of its last entry. -/
def Committed (X : List ε) : Prop :=
  g.Stamped τ X ∧ ∃ V, IsMajority M V ∧ ∀ v ∈ V, g.Acked τ v X

/-- `S` is part of what was committed up to the term `T`. -/
def Decided (T : ℕ) (S : List ε) : Prop :=
  S = [] ∨ ∃ X, g.Committed τ M X ∧ S <+: X ∧ lastTerm τ X ≤ T

/-! ## Steps -/

section Steps

variable [DecidableEq ν]

def bump (v : ν) (t : ℕ) : State ν ε := { g with term := Function.update g.term v t }

def nominate (c : ν) : State ν ε :=
  { g with clog := update₂ g.clog c (g.term c) (some (g.log c)) }

def grant (v c : ν) : State ν ε := { g with vote := update₂ g.vote v (g.term v) (some c) }

def win (c : ν) : State ν ε :=
  { g with
    led := Function.update g.led (g.term c) (some c)
    tlog := Function.update g.tlog (g.term c) (g.log c)
    acked := update₂ g.acked c (g.term c) (g.log c).length }

def propose (c : ν) (e : ε) : State ν ε :=
  { g with
    log := Function.update g.log c (g.log c ++ [e])
    tlog := Function.update g.tlog (g.term c) (g.tlog (g.term c) ++ [e])
    acked := update₂ g.acked c (g.term c) ((g.tlog (g.term c)).length + 1) }

noncomputable def acceptPrefix (v : ν) (L : List ε) : State ν ε :=
  { g with
    log := Function.update g.log v (accept L (g.log v))
    acked := update₂ g.acked v (g.term v) (max (g.acked v (g.term v)) L.length) }

def install (v : ν) (S : List ε) : State ν ε := { g with log := Function.update g.log v S }

/-- A node enters the next term, is nominated in it and votes for itself. -/
def campaign (c : ν) : State ν ε := ((g.bump c (g.term c + 1)).nominate c).grant c c

/-- The steps of the protocol, each by one node. -/
inductive Step : ν → State ν ε → Prop
  | bump (v : ν) (t : ℕ) (ht : g.term v ≤ t) : Step v (g.bump v t)
  | nominate (c : ν) (hc : g.clog c (g.term c) = none) : Step c (g.nominate c)
  | grant (v c : ν) (l : List ε) (hl : g.clog c (g.term v) = some l)
      (hv : g.vote v (g.term v) = none ∨ g.vote v (g.term v) = some c)
      (hup : UpToDate τ l (g.log v)) : Step v (g.grant v c)
  | win (c : ν) (l : List ε) (hl : g.clog c (g.term c) = some l)
      (hled : g.led (g.term c) = none) (V : Finset ν) (hV : IsMajority M V)
      (hvote : ∀ v ∈ V, g.vote v (g.term c) = some c) : Step c (g.win c)
  | propose (c : ν) (e : ε) (hled : g.led (g.term c) = some c) (he : τ e = g.term c) :
      Step c (g.propose c e)
  | accept (v : ν) (L : List ε) (hled : g.led (g.term v) ≠ none)
      (hL : L <+: g.tlog (g.term v)) : Step v (g.acceptPrefix v L)
  | install (v : ν) (S : List ε) (hled : g.led (g.term v) ≠ none)
      (hS : g.Decided τ M (g.term v) S) (hlen : S <+: g.log v → (g.log v).length ≤ S.length) :
      Step v (g.install v S)

end Steps

/-! ## What the steps write -/

section Writes

variable {g} [DecidableEq ν]

@[simp] theorem bump_term (v : ν) (t : ℕ) : (g.bump v t).term v = t :=
  Function.update_self _ _ _

theorem le_bump_term {v : ν} {t : ℕ} (ht : g.term v ≤ t) (w : ν) :
    g.term w ≤ (g.bump v t).term w := by
  by_cases hw : w = v
  · subst hw
    rwa [bump_term]
  · exact (Function.update_of_ne hw t g.term).ge

theorem win_led (c : ν) : (g.win c).led (g.term c) = some c :=
  Function.update_self _ _ _

theorem win_led_of_ne {c : ν} {T : ℕ} (hT : T ≠ g.term c) : (g.win c).led T = g.led T :=
  Function.update_of_ne hT _ _

theorem win_tlog (c : ν) : (g.win c).tlog (g.term c) = g.log c :=
  Function.update_self _ _ _

theorem win_tlog_of_ne {c : ν} {T : ℕ} (hT : T ≠ g.term c) : (g.win c).tlog T = g.tlog T :=
  Function.update_of_ne hT _ _

theorem win_acked_of_ne {c v : ν} {T : ℕ} (hne : v ≠ c ∨ T ≠ g.term c) :
    (g.win c).acked v T = g.acked v T :=
  update₂_of_ne _ hne

theorem prefix_win_tlog {c : ν} (hempty : g.tlog (g.term c) = []) (T : ℕ) :
    g.tlog T <+: (g.win c).tlog T := by
  by_cases hT : T = g.term c
  · rw [hT, hempty]
    exact List.nil_prefix
  · rw [win_tlog_of_ne hT]

@[simp] theorem propose_log (c : ν) (e : ε) : (g.propose c e).log c = g.log c ++ [e] :=
  Function.update_self _ _ _

theorem propose_log_of_ne {c v : ν} (e : ε) (hv : v ≠ c) : (g.propose c e).log v = g.log v :=
  Function.update_of_ne hv _ _

theorem propose_tlog (c : ν) (e : ε) :
    (g.propose c e).tlog (g.term c) = g.tlog (g.term c) ++ [e] :=
  Function.update_self _ _ _

theorem propose_tlog_of_ne {c : ν} {T : ℕ} (e : ε) (hT : T ≠ g.term c) :
    (g.propose c e).tlog T = g.tlog T :=
  Function.update_of_ne hT _ _

theorem propose_acked_of_ne {c v : ν} {T : ℕ} (e : ε) (hne : v ≠ c ∨ T ≠ g.term c) :
    (g.propose c e).acked v T = g.acked v T :=
  update₂_of_ne _ hne

theorem prefix_propose_tlog (c : ν) (e : ε) (T : ℕ) : g.tlog T <+: (g.propose c e).tlog T := by
  by_cases hT : T = g.term c
  · rw [hT, propose_tlog]
    exact List.prefix_append _ _
  · rw [propose_tlog_of_ne e hT]

@[simp] theorem acceptPrefix_log (v : ν) (L : List ε) :
    (g.acceptPrefix v L).log v = accept L (g.log v) :=
  Function.update_self _ _ _

theorem acceptPrefix_log_of_ne {v w : ν} (L : List ε) (hw : w ≠ v) :
    (g.acceptPrefix v L).log w = g.log w :=
  Function.update_of_ne hw _ _

theorem acceptPrefix_acked (v : ν) (L : List ε) :
    (g.acceptPrefix v L).acked v (g.term v) = max (g.acked v (g.term v)) L.length :=
  update₂_self _

theorem acceptPrefix_acked_of_ne {v w : ν} {T : ℕ} (L : List ε) (hne : w ≠ v ∨ T ≠ g.term v) :
    (g.acceptPrefix v L).acked w T = g.acked w T :=
  update₂_of_ne _ hne

@[simp] theorem install_log (v : ν) (S : List ε) : (g.install v S).log v = S :=
  Function.update_self _ _ _

theorem install_log_of_ne {v w : ν} (S : List ε) (hw : w ≠ v) :
    (g.install v S).log w = g.log w :=
  Function.update_of_ne hw _ _

end Writes

/-! ## The invariant -/

/-- The invariant of the protocol. -/
structure Inv : Prop where
  log_anchored : ∀ v, g.Anchored τ (g.log v)
  clog_anchored : ∀ c T l, g.clog c T = some l → g.Anchored τ l
  tlog_anchored : ∀ T, g.Anchored τ (g.tlog T)
  log_le : ∀ v, ∀ e ∈ g.log v, τ e ≤ g.term v
  tlog_le : ∀ T, ∀ e ∈ g.tlog T, τ e ≤ T
  tlog_sorted : ∀ T, Sorted τ (g.tlog T)
  unled : ∀ T, g.led T = none → g.tlog T = []
  leader : ∀ T c, g.led T = some c → T ≤ g.term c ∧ (g.term c = T → g.log c = g.tlog T)
  candidate : ∀ c T l, g.clog c T = some l →
    T ≤ g.term c ∧ (g.term c = T → g.led T = none → g.log c = l)
  voted : ∀ v T c, g.vote v T = some c → T ≤ g.term v ∧ ∃ l, g.clog c T = some l
  elected : ∀ T c, g.led T = some c → ∃ V, IsMajority M V ∧ ∀ v ∈ V, g.vote v T = some c
  acked_le : ∀ v T, g.acked v T ≤ (g.tlog T).length
  acked_term : ∀ v T, 0 < g.acked v T → T ≤ g.term v
  leader_acked : ∀ T c, g.led T = some c → (g.tlog T).length ≤ g.acked c T
  /-- What a node accepted stays in its log. -/
  node : ∀ v X, g.Stamped τ X → g.Acked τ v X → X <+: g.log v ∨ g.Blocked τ M X
  /-- What a node accepted before it voted is in the log of the nominee it voted for. -/
  voter : ∀ v T c l X, g.vote v T = some c → g.clog c T = some l → g.Stamped τ X →
    lastTerm τ X < T → g.Acked τ v X → X <+: l ∨ g.Blocked τ M X
  /-- What can still be committed is in the log of every later term. -/
  complete : ∀ T X, g.led T ≠ none → g.Stamped τ X → lastTerm τ X < T →
    X <+: g.tlog T ∨ g.Blocked τ M X

theorem inv_init : (init : State ν ε).Inv τ M where
  log_anchored _ _ hp hne := absurd (List.prefix_nil.1 hp) hne
  clog_anchored := nofun
  tlog_anchored _ _ hp hne := absurd (List.prefix_nil.1 hp) hne
  log_le := nofun
  tlog_le := nofun
  tlog_sorted _ := List.Pairwise.nil
  unled _ _ := rfl
  leader := nofun
  candidate := nofun
  voted := nofun
  elected := nofun
  acked_le _ _ := le_rfl
  acked_term := nofun
  leader_acked := nofun
  node _ _ hX _ := absurd (List.prefix_nil.1 hX.2) hX.1
  voter := nofun
  complete _ _ hled := absurd rfl hled

variable {τ M g} {g' : State ν ε}

/-! ## What the invariant says about logs -/

theorem Anchored.of_isPrefix {l p : List ε} (h : g.Anchored τ l) (hp : p <+: l) :
    g.Anchored τ p :=
  fun q hq hne => h q (hq.trans hp) hne

/-- Two anchored logs with entries of the same term at a position agree up to it. -/
theorem Anchored.eq_of_lastTerm {l l' : List ε} (h : g.Anchored τ l) (h' : g.Anchored τ l')
    {p p' : List ε} (hp : p <+: l) (hp' : p' <+: l') (hlen : p.length = p'.length)
    (ht : lastTerm τ p = lastTerm τ p') : p = p' := by
  by_cases hne : p = []
  · subst hne
    exact (List.length_eq_zero_iff.1 hlen.symm).symm
  · have hne' : p' ≠ [] := fun he => hne (List.length_eq_zero_iff.1 (by rw [hlen, he]; rfl))
    have hs := (h p hp hne).2
    have hs' := (h' p' hp' hne').2
    rw [← ht] at hs'
    exact (List.prefix_of_prefix_length_le hs hs' hlen.le).eq_of_length hlen

theorem Stamped.mono {X : List ε} (hX : g.Stamped τ X) (htlog : ∀ T, g.tlog T <+: g'.tlog T) :
    g'.Stamped τ X :=
  ⟨hX.1, hX.2.trans (htlog _)⟩

theorem Anchored.mono {l : List ε} (hl : g.Anchored τ l) (htlog : ∀ T, g.tlog T <+: g'.tlog T) :
    g'.Anchored τ l :=
  fun p hp hne => (hl p hp hne).mono htlog

/-- A node that left a term does not accept in it any more. -/
theorem Blocked.mono {X : List ε} (hb : g.Blocked τ M X) (hterm : ∀ v, g.term v ≤ g'.term v)
    (hpast : ∀ v T, T < g.term v → g'.acked v T = g.acked v T) : g'.Blocked τ M X := by
  obtain ⟨V, hV, hv⟩ := hb
  refine ⟨V, hV, fun v hvV => ?_⟩
  obtain ⟨hlt, hack⟩ := hv v hvV
  exact ⟨hlt.trans_le (hterm v), (hpast v _ hlt).trans_lt hack⟩

/-- So that a node accepting more in the term it is in leaves what is blocked. -/
theorem Blocked.of_acked {X : List ε} {c : ν} (hb : g.Blocked τ M X) (hterm : g'.term = g.term)
    (hack : ∀ v T, v ≠ c ∨ T ≠ g.term c → g'.acked v T = g.acked v T) : g'.Blocked τ M X := by
  refine hb.mono (fun v => (congrFun hterm v).ge) fun v T hlt => hack v T ?_
  by_cases hv : v = c
  · exact .inr (hv ▸ hlt).ne
  · exact .inl hv

namespace Inv

section Logs

variable (h : g.Inv τ M)
include h

theorem led_of_stamped {X : List ε} (hX : g.Stamped τ X) : g.led (lastTerm τ X) ≠ none := by
  intro hn
  have := hX.2
  rw [h.unled _ hn] at this
  exact hX.1 (List.prefix_nil.1 this)

theorem sorted_of_anchored {l : List ε} (hl : g.Anchored τ l) : Sorted τ l := by
  by_cases hne : l = []
  · subst hne
    exact List.Pairwise.nil
  · exact (h.tlog_sorted _).of_isPrefix (hl l List.prefix_rfl hne).2

/-- **A nominee a node may vote for holds what the node's log shares with a stamped prefix**, or
that prefix is blocked. -/
theorem prefix_of_upToDate {X l lv : List ε} (hX : g.Stamped τ X) (hl : g.Anchored τ l)
    (hlv : g.Anchored τ lv) (hXv : X <+: lv) (hup : UpToDate τ l lv) :
    X <+: l ∨ g.Blocked τ M X := by
  have hne : lv ≠ [] := by
    rintro rfl
    exact hX.1 (List.prefix_nil.1 hXv)
  have hv := (hlv lv List.prefix_rfl hne).2
  rcases hup with hlt | ⟨heq, hlen⟩
  · -- the nominee's log ends in a later term, whose log holds `X`
    have hl0 : l ≠ [] := by
      rintro rfl
      exact Nat.not_lt_zero _ hlt
    have hls := hl l List.prefix_rfl hl0
    have hXlt : lastTerm τ X < lastTerm τ l :=
      lt_of_le_of_lt ((h.sorted_of_anchored hlv).lastTerm_mono hXv) hlt
    rcases h.complete _ X (h.led_of_stamped hls) hX hXlt with hpre | hb
    · exact .inl ((h.tlog_sorted _).prefix_of_lastTerm_lt hpre hls.2 hXlt)
    · exact .inr hb
  · have hl0 : l ≠ [] := by
      rintro rfl
      exact hne (List.length_eq_zero_iff.1 (Nat.le_zero.1 hlen))
    have hls := (hl l List.prefix_rfl hl0).2
    rw [heq] at hls
    exact .inl (hXv.trans (List.prefix_of_prefix_length_le hv hls hlen))

omit h in
/-- A committed prefix is not blocked. -/
theorem not_blocked {X : List ε} (hX : g.Committed τ M X) : ¬ g.Blocked τ M X := by
  rintro ⟨V, hV, hb⟩
  obtain ⟨-, A, hA, ha⟩ := hX
  obtain ⟨v, hvV, hvA⟩ := hV.exists_mem_mem hA
  exact absurd (ha v hvA) (Nat.not_le.2 (hb v hvV).2)

/-- A committed prefix is in the log of every later term. -/
theorem prefix_tlog {X : List ε} (hX : g.Committed τ M X) {T : ℕ} (hT : g.led T ≠ none)
    (hle : lastTerm τ X ≤ T) : X <+: g.tlog T := by
  rcases Nat.lt_or_eq_of_le hle with hlt | rfl
  · exact (h.complete T X hT hX.1 hlt).resolve_right (not_blocked hX)
  · exact hX.1.2

/-- **Agreement**: of two committed prefixes one is a prefix of the other. -/
theorem agreement {X Y : List ε} (hX : g.Committed τ M X) (hY : g.Committed τ M Y) :
    X <+: Y ∨ Y <+: X := by
  rcases Nat.le_total (lastTerm τ X) (lastTerm τ Y) with hle | hle
  · exact List.prefix_or_prefix_of_prefix (h.prefix_tlog hX (h.led_of_stamped hY.1) hle)
      hY.1.2
  · exact List.prefix_or_prefix_of_prefix hX.1.2
      (h.prefix_tlog hY (h.led_of_stamped hX.1) hle)

theorem prefix_tlog_of_decided {T : ℕ} {S : List ε} (hS : g.Decided τ M T S)
    (hT : g.led T ≠ none) : S <+: g.tlog T := by
  rcases hS with rfl | ⟨X, hX, hSX, hle⟩
  · exact List.nil_prefix
  · exact hSX.trans (h.prefix_tlog hX hT hle)

theorem decided_comparable {T T' : ℕ} {S S' : List ε} (hS : g.Decided τ M T S)
    (hS' : g.Decided τ M T' S') : S <+: S' ∨ S' <+: S := by
  rcases hS with rfl | ⟨X, hX, hSX, -⟩
  · exact .inl List.nil_prefix
  · rcases hS' with rfl | ⟨Y, hY, hSY, -⟩
    · exact .inr List.nil_prefix
    · rcases h.agreement hX hY with hXY | hYX
      · exact List.prefix_or_prefix_of_prefix (hSX.trans hXY) hSY
      · exact List.prefix_or_prefix_of_prefix hSX (hSY.trans hYX)

/-- A decided prefix and a stamped one are on one branch, unless the latter is blocked. -/
theorem comparable_of_decided {T : ℕ} {X S : List ε} (hX : g.Stamped τ X)
    (hS : g.Decided τ M T S) : (X <+: S ∨ S <+: X) ∨ g.Blocked τ M X := by
  rcases hS with rfl | ⟨Y, hY, hSY, -⟩
  · exact .inl (.inr List.nil_prefix)
  · rcases Nat.lt_or_ge (lastTerm τ X) (lastTerm τ Y) with hlt | hge
    · exact (h.complete _ X (h.led_of_stamped hY.1) hX hlt).imp_left fun hp =>
        List.prefix_or_prefix_of_prefix hp (hSY.trans hY.1.2)
    · have hYt := h.prefix_tlog hY (h.led_of_stamped hX) hge
      exact .inl (List.prefix_or_prefix_of_prefix hX.2 (hSY.trans hYt))

/-- The new leader's log: a voter accepted `X`, or the voters block it. -/
theorem prefix_of_votes {c : ν} {l : List ε} (hl : g.clog c (g.term c) = some l) {V : Finset ν}
    (hV : IsMajority M V) (hvote : ∀ v ∈ V, g.vote v (g.term c) = some c) {X : List ε}
    (hX : g.Stamped τ X) (hlt : lastTerm τ X < g.term c) : X <+: l ∨ g.Blocked τ M X := by
  by_cases hex : ∃ v ∈ V, g.Acked τ v X
  · obtain ⟨v, hvV, ha⟩ := hex
    exact h.voter v _ c l X (hvote v hvV) hl hX hlt ha
  · refine .inr ⟨V, hV, fun v hvV => ⟨?_, ?_⟩⟩
    · exact hlt.trans_le (h.voted v _ c (hvote v hvV)).1
    · exact Nat.lt_of_not_le fun ha => hex ⟨v, hvV, ha⟩

/-- Nobody has accepted an entry before it is there. -/
theorem acked_lt_concat {c : ν} (e : ε) (v : ν) :
    g.acked v (g.term c) < (g.tlog (g.term c) ++ [e]).length := by
  rw [List.length_append]
  exact Nat.lt_succ_of_le (h.acked_le v _)

end Logs

/-! ## Every step keeps the invariant -/

section Preservation

variable [DecidableEq ν] (h : g.Inv τ M)
include h

theorem bump {v : ν} {t : ℕ} (ht : g.term v ≤ t) : (g.bump v t).Inv τ M := by
  have hterm := le_bump_term ht
  have hb : ∀ X, g.Blocked τ M X → (g.bump v t).Blocked τ M X :=
    fun _ hX => hX.mono hterm fun _ _ _ => rfl
  -- a node that is still in a term it was in
  have hback : ∀ w T, T ≤ g.term w → (g.bump v t).term w = T → g.term w = T :=
    fun w T hle heq => le_antisymm (heq ▸ hterm w) hle
  refine ⟨h.log_anchored, h.clog_anchored, h.tlog_anchored,
    fun w e he => (h.log_le w e he).trans (hterm w), h.tlog_le, h.tlog_sorted, h.unled,
    fun T c hc => ?_, fun c T l hl => ?_, fun w T c hc => ?_, h.elected, h.acked_le,
    fun w T hpos => (h.acked_term w T hpos).trans (hterm w), h.leader_acked,
    fun w X hX ha => ?_,
    fun w T c l X hc hl hX hlt ha => ?_, fun T X hT hX hlt => ?_⟩
  · obtain ⟨hle, hlog⟩ := h.leader T c hc
    exact ⟨hle.trans (hterm c), fun heq => hlog (hback c T hle heq)⟩
  · obtain ⟨hle, hlog⟩ := h.candidate c T l hl
    exact ⟨hle.trans (hterm c), fun heq => hlog (hback c T hle heq)⟩
  · exact ⟨(h.voted w T c hc).1.trans (hterm w), (h.voted w T c hc).2⟩
  · exact (h.node w X hX ha).imp_right (hb X)
  · exact (h.voter w T c l X hc hl hX hlt ha).imp_right (hb X)
  · exact (h.complete T X hT hX hlt).imp_right (hb X)

theorem nominate {c : ν} (hc : g.clog c (g.term c) = none) : (g.nominate c).Inv τ M := by
  have hclog : ∀ c' T l, (g.nominate c).clog c' T = some l →
      (c' = c ∧ T = g.term c ∧ l = g.log c) ∨ g.clog c' T = some l := by
    intro c' T l hl
    rcases update₂_cases g.clog c (g.term c) (some (g.log c)) c' T with ⟨h₁, h₂, h₃⟩ | h₃
    · exact .inl ⟨h₁, h₂, (Option.some.inj (h₃.symm.trans hl)).symm⟩
    · exact .inr (h₃.symm.trans hl)
  refine ⟨h.log_anchored, fun c' T l hl => ?_, h.tlog_anchored, h.log_le, h.tlog_le, h.tlog_sorted,
    h.unled, h.leader, fun c' T l hl => ?_, fun v T c' hv => ?_, h.elected, h.acked_le,
    h.acked_term, h.leader_acked, h.node, fun v T c' l X hv hl hX hlt ha => ?_, h.complete⟩
  · rcases hclog c' T l hl with ⟨rfl, rfl, rfl⟩ | hold
    · exact h.log_anchored _
    · exact h.clog_anchored c' T l hold
  · rcases hclog c' T l hl with ⟨rfl, rfl, rfl⟩ | hold
    · exact ⟨le_rfl, fun _ _ => rfl⟩
    · exact h.candidate c' T l hold
  · obtain ⟨hle, l, hl⟩ := h.voted v T c' hv
    rcases update₂_cases g.clog c (g.term c) (some (g.log c)) c' T with ⟨-, -, h₃⟩ | h₃
    · exact ⟨hle, _, h₃⟩
    · exact ⟨hle, l, h₃.trans hl⟩
  · rcases hclog c' T l hl with ⟨rfl, rfl, rfl⟩ | hold
    · -- nobody voted for the nominee before it was nominated
      obtain ⟨-, l', hl'⟩ := h.voted v _ _ hv
      rw [hc] at hl'
      cases hl'
    · exact h.voter v T c' l X hv hold hX hlt ha

theorem grant {v c : ν} {l : List ε} (hl : g.clog c (g.term v) = some l)
    (hfree : g.vote v (g.term v) = none ∨ g.vote v (g.term v) = some c)
    (hup : UpToDate τ l (g.log v)) : (g.grant v c).Inv τ M := by
  have hvote : ∀ w T c', (g.grant v c).vote w T = some c' →
      (w = v ∧ T = g.term v ∧ c' = c) ∨ g.vote w T = some c' := by
    intro w T c' hv
    rcases update₂_cases g.vote v (g.term v) (some c) w T with ⟨h₁, h₂, h₃⟩ | h₃
    · exact .inl ⟨h₁, h₂, (Option.some.inj (h₃.symm.trans hv)).symm⟩
    · exact .inr (h₃.symm.trans hv)
  have hmono : ∀ w T c', g.vote w T = some c' → (g.grant v c).vote w T = some c' := by
    intro w T c' hv
    rcases update₂_cases g.vote v (g.term v) (some c) w T with ⟨rfl, rfl, h₃⟩ | h₃
    · rw [hv] at hfree
      exact h₃.trans (hfree.resolve_left nofun).symm
    · exact h₃.trans hv
  refine ⟨h.log_anchored, h.clog_anchored, h.tlog_anchored, h.log_le, h.tlog_le, h.tlog_sorted,
    h.unled, h.leader, h.candidate, fun w T c' hv => ?_, fun T c' hc => ?_, h.acked_le,
    h.acked_term, h.leader_acked, h.node, fun w T c' l' X hv hl' hX hlt ha => ?_, h.complete⟩
  · rcases hvote w T c' hv with ⟨rfl, rfl, rfl⟩ | hold
    · exact ⟨le_rfl, l, hl⟩
    · exact h.voted w T c' hold
  · obtain ⟨V, hV, hall⟩ := h.elected T c' hc
    exact ⟨V, hV, fun w hw => hmono w T c' (hall w hw)⟩
  · rcases hvote w T c' hv with ⟨rfl, rfl, rfl⟩ | hold
    · obtain rfl : l = l' := Option.some.inj (hl.symm.trans hl')
      rcases h.node w X hX ha with hpre | hb
      · exact h.prefix_of_upToDate hX (h.clog_anchored _ _ _ hl) (h.log_anchored w) hpre hup
      · exact .inr hb
    · exact h.voter w T c' l' X hold hl' hX hlt ha

/-- No entry of the new term exists yet when it gets a leader. -/
theorem stamped_of_win {c : ν} (hled : g.led (g.term c) = none) {X : List ε}
    (hX : (g.win c).Stamped τ X) : lastTerm τ X ≠ g.term c ∧ g.Stamped τ X := by
  have hne : lastTerm τ X ≠ g.term c := by
    intro ht
    have hpre : X <+: g.log c := by
      have := hX.2
      rwa [ht, win_tlog] at this
    have := (h.log_anchored c X hpre hX.1).2
    rw [ht, h.unled _ hled] at this
    exact hX.1 (List.prefix_nil.1 this)
  exact ⟨hne, hX.1, win_tlog_of_ne hne ▸ hX.2⟩

theorem win {c : ν} {l : List ε} (hl : g.clog c (g.term c) = some l)
    (hled : g.led (g.term c) = none) {V : Finset ν} (hV : IsMajority M V)
    (hvote : ∀ v ∈ V, g.vote v (g.term c) = some c) : (g.win c).Inv τ M := by
  have hempty : g.tlog (g.term c) = [] := h.unled _ hled
  have hmono := prefix_win_tlog hempty
  have hold : ∀ T c', (g.win c).led T = some c' → (T = g.term c ∧ c' = c) ∨
      (T ≠ g.term c ∧ g.led T = some c') := by
    intro T c' hc'
    by_cases hT : T = g.term c
    · subst hT
      exact .inl ⟨rfl, (Option.some.inj ((win_led c).symm.trans hc')).symm⟩
    · exact .inr ⟨hT, (win_led_of_ne hT).symm.trans hc'⟩
  have hb : ∀ X, g.Blocked τ M X → (g.win c).Blocked τ M X :=
    fun X hX => hX.of_acked rfl fun v T hne => win_acked_of_ne hne
  refine ⟨fun v => (h.log_anchored v).mono hmono,
    fun c' T l' hl' => (h.clog_anchored c' T l' hl').mono hmono, ?_, h.log_le, ?_, ?_,
    fun T hT => ?_, fun T c' hc' => ?_, fun c' T l' hl' => ?_, h.voted,
    fun T c' hc' => ?_, fun v T => ?_, fun v T hpos => ?_, fun T c' hc' => ?_,
    fun v X hX ha => ?_, fun v T c' l' X hv hl' hX hlt ha => ?_, fun T X hT hX hlt => ?_⟩
  · exact (Function.forall_update_iff g.tlog fun _ l => (g.win c).Anchored τ l).2
      ⟨(h.log_anchored c).mono hmono, fun T _ => (h.tlog_anchored T).mono hmono⟩
  · exact (Function.forall_update_iff g.tlog fun T l => ∀ e ∈ l, τ e ≤ T).2
      ⟨h.log_le c, fun T _ => h.tlog_le T⟩
  · exact (Function.forall_update_iff g.tlog fun _ l => Sorted τ l).2
      ⟨h.sorted_of_anchored (h.log_anchored c), fun T _ => h.tlog_sorted T⟩
  · by_cases hTc : T = g.term c
    · subst hTc
      cases (win_led c).symm.trans hT
    · rw [win_tlog_of_ne hTc]
      exact h.unled T ((win_led_of_ne hTc).symm.trans hT)
  · rcases hold T c' hc' with ⟨rfl, rfl⟩ | ⟨hT, hc'⟩
    · exact ⟨le_rfl, fun _ => (win_tlog (g := g) _).symm⟩
    · rw [win_tlog_of_ne hT]
      exact h.leader T c' hc'
  · obtain ⟨hle, hcl⟩ := h.candidate c' T l' hl'
    refine ⟨hle, fun heq hn => hcl heq ?_⟩
    by_cases hT : T = g.term c
    · rw [hT]
      exact hled
    · exact (win_led_of_ne hT).symm.trans hn
  · rcases hold T c' hc' with ⟨rfl, rfl⟩ | ⟨hT, hc'⟩
    · exact ⟨V, hV, hvote⟩
    · exact h.elected T c' hc'
  · rcases update₂_cases g.acked c (g.term c) (g.log c).length v T with ⟨rfl, rfl, he⟩ | he
    · rw [win_tlog]
      exact he.le
    · exact he.le.trans ((h.acked_le v T).trans (hmono T).length_le)
  · rcases update₂_cases g.acked c (g.term c) (g.log c).length v T with ⟨rfl, rfl, -⟩ | he
    · exact le_rfl
    · exact h.acked_term v T (he ▸ hpos)
  · rcases hold T c' hc' with ⟨rfl, rfl⟩ | ⟨hT, hc'⟩
    · rw [win_tlog]
      exact (update₂_self g.acked).ge
    · rw [win_tlog_of_ne hT, win_acked_of_ne (.inr hT)]
      exact h.leader_acked T c' hc'
  · obtain ⟨hne, hXo⟩ := h.stamped_of_win hled hX
    have ha : g.Acked τ v X := ha.trans_eq (win_acked_of_ne (.inr hne))
    exact (h.node v X hXo ha).imp_right (hb X)
  · obtain ⟨hne, hXo⟩ := h.stamped_of_win hled hX
    have ha : g.Acked τ v X := ha.trans_eq (win_acked_of_ne (.inr hne))
    exact (h.voter v T c' l' X hv hl' hXo hlt ha).imp_right (hb X)
  · obtain ⟨-, hXo⟩ := h.stamped_of_win hled hX
    by_cases hTc : T = g.term c
    · subst hTc
      rw [win_tlog, (h.candidate c _ l hl).2 rfl hled]
      exact (h.prefix_of_votes hl hV hvote hXo hlt).imp_right (hb X)
    · rw [win_tlog_of_ne hTc]
      rw [win_led_of_ne hTc] at hT
      exact (h.complete T X hT hXo hlt).imp_right (hb X)

omit h in
/-- The only new stamped prefix is the whole new log. -/
theorem stamped_of_propose {c : ν} {e : ε} {X : List ε} (hX : (g.propose c e).Stamped τ X) :
    g.Stamped τ X ∨ X = g.tlog (g.term c) ++ [e] := by
  by_cases ht : lastTerm τ X = g.term c
  · have hpre := hX.2
    rw [ht, propose_tlog] at hpre
    rcases List.prefix_concat_iff.1 hpre with heq | hold
    · exact .inr heq
    · exact .inl ⟨hX.1, ht ▸ hold⟩
  · exact .inl ⟨hX.1, propose_tlog_of_ne e ht ▸ hX.2⟩

theorem anchored_propose {c : ν} {e : ε} (he : τ e = g.term c) :
    (g.propose c e).Anchored τ (g.tlog (g.term c) ++ [e]) := by
  intro p hp hne
  rcases List.prefix_concat_iff.1 hp with rfl | hold
  · refine ⟨hne, ?_⟩
    rw [lastTerm_concat, he, propose_tlog]
  · exact (h.tlog_anchored _ p hold hne).mono (prefix_propose_tlog c e)

theorem propose_node {c : ν} {e : ε} (hled : g.led (g.term c) = some c) (he : τ e = g.term c)
    {v : ν} {X : List ε} (hX : (g.propose c e).Stamped τ X) (ha : (g.propose c e).Acked τ v X) :
    X <+: (g.propose c e).log v ∨ g.Blocked τ M X := by
  have hlog : g.log c = g.tlog (g.term c) := (h.leader _ c hled).2 rfl
  by_cases hcase : v ≠ c ∨ lastTerm τ X ≠ g.term c
  · have ha : g.Acked τ v X := ha.trans_eq (propose_acked_of_ne e hcase)
    rcases stamped_of_propose hX with hXo | rfl
    · refine (h.node v X hXo ha).imp_left fun hp => ?_
      by_cases hv : v = c
      · rw [hv, propose_log]
        exact (hv ▸ hp).trans (List.prefix_append _ _)
      · rwa [propose_log_of_ne e hv]
    · rw [State.Acked, lastTerm_concat, he] at ha
      exact absurd ha (Nat.not_le.2 (h.acked_lt_concat e v))
  · -- the leader holds the log of its term
    obtain ⟨hv, ht⟩ := not_or.1 hcase
    have hpre := hX.2
    rw [not_not.1 ht, propose_tlog] at hpre
    rw [not_not.1 hv, propose_log, hlog]
    exact .inl hpre

theorem propose_voter {c : ν} {e : ε} (he : τ e = g.term c) {v : ν} {T : ℕ} {c' : ν} {l X : List ε}
    (hv : g.vote v T = some c') (hl : g.clog c' T = some l) (hX : (g.propose c e).Stamped τ X)
    (hlt : lastTerm τ X < T) (ha : (g.propose c e).Acked τ v X) : X <+: l ∨ g.Blocked τ M X := by
  have hcase : v ≠ c ∨ lastTerm τ X ≠ g.term c := by
    by_cases hvc : v = c
    · subst hvc
      exact .inr (hlt.trans_le (h.voted v T c' hv).1).ne
    · exact .inl hvc
  have ha : g.Acked τ v X := ha.trans_eq (propose_acked_of_ne e hcase)
  rcases stamped_of_propose hX with hXo | rfl
  · exact h.voter v T c' l X hv hl hXo hlt ha
  · rw [State.Acked, lastTerm_concat, he] at ha
    exact absurd ha (Nat.not_le.2 (h.acked_lt_concat e v))

/-- The voters of a later term left this one before the new entry was there. -/
theorem propose_blocked {c : ν} {e : ε} (he : τ e = g.term c) {T : ℕ} (hT : g.led T ≠ none)
    (hlt : g.term c < T) : (g.propose c e).Blocked τ M (g.tlog (g.term c) ++ [e]) := by
  obtain ⟨c', hc'⟩ := Option.ne_none_iff_exists'.1 hT
  obtain ⟨V, hV, hall⟩ := h.elected T c' hc'
  refine ⟨V, hV, fun v hv => ?_⟩
  have hTv := (h.voted v T c' (hall v hv)).1
  have hvc : v ≠ c := by
    rintro rfl
    exact absurd hTv (Nat.not_le.2 hlt)
  rw [lastTerm_concat, he, propose_acked_of_ne e (.inl hvc)]
  exact ⟨hlt.trans_le hTv, h.acked_lt_concat e v⟩

theorem propose {c : ν} {e : ε} (hled : g.led (g.term c) = some c) (he : τ e = g.term c) :
    (g.propose c e).Inv τ M := by
  have hlog : g.log c = g.tlog (g.term c) := (h.leader _ c hled).2 rfl
  have hmono := prefix_propose_tlog (g := g) c e
  have hle : ∀ a ∈ g.tlog (g.term c) ++ [e], τ a ≤ g.term c := by
    intro a ha
    rcases List.mem_append.1 ha with hold | hlst
    · exact h.tlog_le _ a hold
    · rw [List.mem_singleton.1 hlst]
      exact he.le
  have hb : ∀ X, g.Blocked τ M X → (g.propose c e).Blocked τ M X :=
    fun X hX => hX.of_acked rfl fun v T hne => propose_acked_of_ne e hne
  refine ⟨?_, fun c' T l hl => (h.clog_anchored c' T l hl).mono hmono, ?_, ?_, ?_, ?_,
    fun T hT => ?_, fun T c' hc' => ?_, fun c' T l hl => ?_, h.voted, h.elected, fun v T => ?_,
    fun v T hpos => ?_, fun T c' hc' => ?_,
    fun v X hX ha => (h.propose_node hled he hX ha).imp_right (hb X),
    fun v T c' l X hv hl hX hlt ha => (h.propose_voter he hv hl hX hlt ha).imp_right (hb X),
    fun T X hT hX hlt => ?_⟩
  · exact (Function.forall_update_iff g.log fun _ l => (g.propose c e).Anchored τ l).2
      ⟨hlog ▸ h.anchored_propose he, fun v _ => (h.log_anchored v).mono hmono⟩
  · exact (Function.forall_update_iff g.tlog fun _ l => (g.propose c e).Anchored τ l).2
      ⟨h.anchored_propose he, fun T _ => (h.tlog_anchored T).mono hmono⟩
  · exact (Function.forall_update_iff g.log fun v l => ∀ a ∈ l, τ a ≤ g.term v).2
      ⟨hlog ▸ hle, fun v _ => h.log_le v⟩
  · exact (Function.forall_update_iff g.tlog fun T l => ∀ a ∈ l, τ a ≤ T).2
      ⟨hle, fun T _ => h.tlog_le T⟩
  · exact (Function.forall_update_iff g.tlog fun _ l => Sorted τ l).2
      ⟨(h.tlog_sorted _).concat fun a ha => (h.tlog_le _ a ha).trans he.ge,
        fun T _ => h.tlog_sorted T⟩
  · by_cases hTc : T = g.term c
    · subst hTc
      cases hled.symm.trans hT
    · rw [propose_tlog_of_ne e hTc]
      exact h.unled T hT
  · by_cases hT : T = g.term c
    · subst hT
      obtain rfl : c = c' := Option.some.inj (hled.symm.trans hc')
      refine ⟨le_rfl, fun _ => ?_⟩
      rw [propose_log, propose_tlog, hlog]
    · obtain ⟨hle, hl⟩ := h.leader T c' hc'
      refine ⟨hle, fun heq => ?_⟩
      have hne : c' ≠ c := by
        rintro rfl
        exact hT heq.symm
      rw [propose_log_of_ne e hne, propose_tlog_of_ne e hT]
      exact hl heq
  · obtain ⟨hle, hcl⟩ := h.candidate c' T l hl
    refine ⟨hle, fun heq hn => ?_⟩
    have hne : c' ≠ c := by
      rintro rfl
      have heq : g.term c' = T := heq
      subst heq
      cases hled.symm.trans hn
    rw [propose_log_of_ne e hne]
    exact hcl heq hn
  · rcases update₂_cases g.acked c (g.term c) ((g.tlog (g.term c)).length + 1) v T with
      ⟨rfl, rfl, hx⟩ | hx
    · rw [propose_tlog, List.length_append]
      exact hx.le
    · exact hx.le.trans ((h.acked_le v T).trans (hmono T).length_le)
  · rcases update₂_cases g.acked c (g.term c) ((g.tlog (g.term c)).length + 1) v T with
      ⟨rfl, rfl, -⟩ | hx
    · exact le_rfl
    · exact h.acked_term v T (hx ▸ hpos)
  · by_cases hT : T = g.term c
    · subst hT
      obtain rfl : c = c' := Option.some.inj (hled.symm.trans hc')
      rw [propose_tlog, List.length_append]
      exact (update₂_self g.acked).ge
    · rw [propose_tlog_of_ne e hT, propose_acked_of_ne e (.inr hT)]
      exact h.leader_acked T c' hc'
  · rcases stamped_of_propose hX with hXo | rfl
    · exact (h.complete T X hT hXo hlt).imp (fun hp => hp.trans (hmono T)) (hb X)
    · rw [lastTerm_concat, he] at hlt
      exact .inr (h.propose_blocked he hT hlt)

/-- A node that accepts a prefix of the log of its term loses nothing it accepted before, unless
that is blocked. -/
theorem acceptPrefix_node {v : ν} {L : List ε} (hled : g.led (g.term v) ≠ none)
    (hL : L <+: g.tlog (g.term v)) {X : List ε} (hX : g.Stamped τ X)
    (ha : (g.acceptPrefix v L).Acked τ v X) :
    X <+: accept L (g.log v) ∨ g.Blocked τ M X := by
  by_cases hT : lastTerm τ X = g.term v
  · have hXt : X <+: g.tlog (g.term v) := hT ▸ hX.2
    rw [State.Acked, hT, acceptPrefix_acked] at ha
    rcases le_max_iff.1 ha with hold | hnew
    · have ha : g.Acked τ v X := hold.trans_eq (by rw [hT])
      exact (h.node v X hX ha).imp_left fun hp => prefix_accept_of_shared hp hXt hL
    · exact .inl ((List.prefix_of_prefix_length_le hXt hL hnew).trans (prefix_accept _ _))
  · have ha : g.Acked τ v X := ha.trans_eq (acceptPrefix_acked_of_ne L (.inr hT))
    have hpos : 0 < g.acked v (lastTerm τ X) := (List.length_pos_iff.2 hX.1).trans_le ha
    have hlt : lastTerm τ X < g.term v := lt_of_le_of_ne (h.acked_term v _ hpos) hT
    rcases h.node v X hX ha with hp | hbl
    · exact (h.complete _ X hled hX hlt).imp_left fun hXt => prefix_accept_of_shared hp hXt hL
    · exact .inr hbl

/-- Where the term of a node is led, a nominee of that term no longer depends on its log. -/
theorem candidate_update {v : ν} (hled : g.led (g.term v) ≠ none) (log : List ε) {c : ν} {T : ℕ}
    {l : List ε} (hl : g.clog c T = some l) : T ≤ g.term c ∧
      (g.term c = T → g.led T = none → Function.update g.log v log c = l) := by
  obtain ⟨hle, hlog⟩ := h.candidate c T l hl
  refine ⟨hle, fun heq hn => ?_⟩
  by_cases hcv : c = v
  · subst hcv
    subst heq
    exact absurd hn hled
  · rw [Function.update_of_ne hcv]
    exact hlog heq hn

theorem acceptPrefix {v : ν} {L : List ε} (hled : g.led (g.term v) ≠ none)
    (hL : L <+: g.tlog (g.term v)) : (g.acceptPrefix v L).Inv τ M := by
  have hb : ∀ X, g.Blocked τ M X → (g.acceptPrefix v L).Blocked τ M X :=
    fun X hX => hX.of_acked rfl fun w T hne => acceptPrefix_acked_of_ne L hne
  refine ⟨?_, h.clog_anchored, h.tlog_anchored, ?_, h.tlog_le, h.tlog_sorted,
    h.unled, fun T c hc => ?_, fun c T l hl => ?_, h.voted, h.elected, fun w T => ?_,
    fun w T hpos => ?_, fun T c hc => ?_, fun w X hX ha => ?_,
    fun w T c l X hc hl hX hlt ha => ?_,
    fun T X hT hX hlt => (h.complete T X hT hX hlt).imp_right (hb X)⟩
  · refine (Function.forall_update_iff g.log fun _ l => g.Anchored τ l).2
      ⟨?_, fun w _ => h.log_anchored w⟩
    rcases accept_cases L (g.log v) with he | he
    · rw [he]
      exact h.log_anchored v
    · rw [he]
      exact (h.tlog_anchored _).of_isPrefix hL
  · refine (Function.forall_update_iff g.log fun w l => ∀ e ∈ l, τ e ≤ g.term w).2
      ⟨?_, fun w _ => h.log_le w⟩
    rcases accept_cases L (g.log v) with he | he
    · rw [he]
      exact h.log_le v
    · rw [he]
      exact fun e hmem => h.tlog_le _ e (hL.subset hmem)
  · obtain ⟨hle, hlog⟩ := h.leader T c hc
    refine ⟨hle, fun heq => ?_⟩
    by_cases hcv : c = v
    · -- a leader already holds every prefix of the log of its term
      subst hcv
      have heq : g.term c = T := heq
      subst heq
      rw [acceptPrefix_log, accept_of_isPrefix (hlog rfl ▸ hL)]
      exact hlog rfl
    · rw [acceptPrefix_log_of_ne L hcv]
      exact hlog heq
  · exact h.candidate_update hled _ hl
  · rcases update₂_cases g.acked v (g.term v) (max (g.acked v (g.term v)) L.length) w T with
      ⟨rfl, rfl, he⟩ | he
    · exact he.le.trans (max_le (h.acked_le w _) hL.length_le)
    · exact he.le.trans (h.acked_le w T)
  · rcases update₂_cases g.acked v (g.term v) (max (g.acked v (g.term v)) L.length) w T with
      ⟨rfl, rfl, -⟩ | he
    · exact le_rfl
    · exact h.acked_term w T (he ▸ hpos)
  · refine (h.leader_acked T c hc).trans ?_
    rcases update₂_cases g.acked v (g.term v) (max (g.acked v (g.term v)) L.length) c T with
      ⟨rfl, rfl, he⟩ | he
    · exact (le_max_left _ _).trans he.ge
    · exact he.ge
  · by_cases hw : w = v
    · subst hw
      rw [acceptPrefix_log]
      exact (h.acceptPrefix_node hled hL hX ha).imp_right (hb X)
    · rw [acceptPrefix_log_of_ne L hw]
      have ha : g.Acked τ w X := ha.trans_eq (acceptPrefix_acked_of_ne L (.inl hw))
      exact (h.node w X hX ha).imp_right (hb X)
  · have hcase : w ≠ v ∨ lastTerm τ X ≠ g.term v := by
      by_cases hw : w = v
      · subst hw
        exact .inr (hlt.trans_le (h.voted w T c hc).1).ne
      · exact .inl hw
    have ha : g.Acked τ w X := ha.trans_eq (acceptPrefix_acked_of_ne L hcase)
    exact (h.voter w T c l X hc hl hX hlt ha).imp_right (hb X)

theorem install {v : ν} {S : List ε} (hled : g.led (g.term v) ≠ none)
    (hS : g.Decided τ M (g.term v) S) (hlen : S <+: g.log v → (g.log v).length ≤ S.length) :
    (g.install v S).Inv τ M := by
  have hSt : S <+: g.tlog (g.term v) := h.prefix_tlog_of_decided hS hled
  refine ⟨?_, h.clog_anchored, h.tlog_anchored, ?_, h.tlog_le, h.tlog_sorted,
    h.unled, fun T c hc => ?_, fun c T l hl => ?_, h.voted, h.elected, h.acked_le, h.acked_term,
    h.leader_acked, fun w Y hY ha => ?_, h.voter, h.complete⟩
  · exact (Function.forall_update_iff g.log fun _ l => g.Anchored τ l).2
      ⟨(h.tlog_anchored _).of_isPrefix hSt, fun w _ => h.log_anchored w⟩
  · exact (Function.forall_update_iff g.log fun w l => ∀ e ∈ l, τ e ≤ g.term w).2
      ⟨fun e he => h.tlog_le _ e (hSt.subset he), fun w _ => h.log_le w⟩
  · obtain ⟨hle, hlog⟩ := h.leader T c hc
    refine ⟨hle, fun heq => ?_⟩
    by_cases hcv : c = v
    · -- the snapshot is the leader's own log
      subst hcv
      have heq : g.term c = T := heq
      subst heq
      rw [install_log]
      exact hSt.eq_of_length (le_antisymm hSt.length_le (hlog rfl ▸ hlen (hlog rfl ▸ hSt)))
    · rw [install_log_of_ne S hcv]
      exact hlog heq
  · exact h.candidate_update hled _ hl
  · by_cases hw : w = v
    · subst hw
      rw [install_log]
      rcases h.node w Y hY ha with hp | hb
      · rcases h.comparable_of_decided hY hS with (hYS | hSY) | hb
        · exact .inl hYS
        · -- the log ends with the snapshot, and so does what was accepted
          have hle := hp.length_le.trans (hlen (hSY.trans hp))
          exact .inl (hSY.eq_of_length_le hle ▸ List.prefix_rfl)
        · exact .inr hb
      · exact .inr hb
    · rw [install_log_of_ne S hw]
      exact h.node w Y hY ha

/-- **Every step keeps the invariant.** -/
theorem step {v : ν} (hs : g.Step τ M v g') : g'.Inv τ M := by
  cases hs with
  | bump t ht => exact h.bump ht
  | nominate hc => exact h.nominate hc
  | grant c l hl hv hup => exact h.grant hl hv hup
  | win l hl hled V hV hvote => exact h.win hl hled hV hvote
  | propose e hled he => exact h.propose hled he
  | accept L hled hL => exact h.acceptPrefix hled hL
  | install S hled hS hlen => exact h.install hled hS hlen

end Preservation

end Inv

/-! ## What grows -/

/-- Everything but the logs of the nodes only grows. -/
structure Ext (g g' : State ν ε) : Prop where
  term : ∀ v, g.term v ≤ g'.term v
  clog : ∀ c T l, g.clog c T = some l → g'.clog c T = some l
  vote : ∀ v T c, g.vote v T = some c → g'.vote v T = some c
  led : ∀ T c, g.led T = some c → g'.led T = some c
  tlog : ∀ T, g.tlog T <+: g'.tlog T
  acked : ∀ v T, g.acked v T ≤ g'.acked v T

theorem Ext.refl (g : State ν ε) : g.Ext g :=
  ⟨fun _ => le_rfl, fun _ _ _ => id, fun _ _ _ => id, fun _ _ => id, fun _ => List.prefix_rfl,
    fun _ _ => le_rfl⟩

theorem Ext.trans {g₁ g₂ g₃ : State ν ε} (h : g₁.Ext g₂) (h' : g₂.Ext g₃) : g₁.Ext g₃ :=
  ⟨fun v => (h.term v).trans (h'.term v), fun c T l hl => h'.clog c T l (h.clog c T l hl),
    fun v T c hc => h'.vote v T c (h.vote v T c hc), fun T c hc => h'.led T c (h.led T c hc),
    fun T => (h.tlog T).trans (h'.tlog T), fun v T => (h.acked v T).trans (h'.acked v T)⟩

/-- A committed prefix stays committed. -/
theorem Committed.mono {X : List ε} (hX : g.Committed τ M X) (h : g.Ext g') :
    g'.Committed τ M X := by
  obtain ⟨hs, V, hV, ha⟩ := hX
  exact ⟨hs.mono h.tlog, V, hV, fun v hv => (ha v hv).trans (h.acked v _)⟩

theorem Decided.mono {T T' : ℕ} {S : List ε} (hS : g.Decided τ M T S) (h : g.Ext g')
    (hT : T ≤ T') : g'.Decided τ M T' S :=
  hS.imp_right fun ⟨X, hX, hp, hle⟩ => ⟨X, hX.mono h, hp, hle.trans hT⟩

theorem Decided.of_isPrefix {T : ℕ} {S S' : List ε} (hS : g.Decided τ M T S) (hp : S' <+: S) :
    g.Decided τ M T S' := by
  rcases hS with rfl | ⟨X, hX, hSX, hle⟩
  · exact .inl (List.prefix_nil.1 hp)
  · exact .inr ⟨X, hX, hp.trans hSX, hle⟩

variable [DecidableEq ν]

theorem Step.ext {v : ν} (hs : g.Step τ M v g') (h : g.Inv τ M) : g.Ext g' := by
  have hr := Ext.refl g
  cases hs with
  | bump t ht =>
    exact ⟨le_bump_term ht, hr.clog, hr.vote, hr.led, hr.tlog, hr.acked⟩
  | nominate hc =>
    refine ⟨hr.term, fun c T l hl => ?_, hr.vote, hr.led, hr.tlog, hr.acked⟩
    rcases update₂_cases g.clog v (g.term v) (some (g.log v)) c T with ⟨rfl, rfl, -⟩ | he
    · rw [hc] at hl
      cases hl
    · exact he.trans hl
  | grant c l hl hv hup =>
    refine ⟨hr.term, hr.clog, fun w T c' hc' => ?_, hr.led, hr.tlog, hr.acked⟩
    rcases update₂_cases g.vote v (g.term v) (some c) w T with ⟨rfl, rfl, he⟩ | he
    · rw [hc'] at hv
      exact he.trans (hv.resolve_left nofun).symm
    · exact he.trans hc'
  | win l hl hled V hV hvote =>
    refine ⟨hr.term, hr.clog, hr.vote, fun T c hc => ?_, prefix_win_tlog (h.unled _ hled),
      fun w T => ?_⟩
    · by_cases hT : T = g.term v
      · subst hT
        cases hled.symm.trans hc
      · exact (win_led_of_ne hT).trans hc
    · rcases update₂_cases g.acked v (g.term v) (g.log v).length w T with ⟨rfl, rfl, -⟩ | he
      · have := h.acked_le w (g.term w)
        rw [h.unled _ hled] at this
        exact this.trans (Nat.zero_le _)
      · exact he.ge
  | propose e hled he =>
    refine ⟨hr.term, hr.clog, hr.vote, hr.led, prefix_propose_tlog v e, fun w T => ?_⟩
    rcases update₂_cases g.acked v (g.term v) ((g.tlog (g.term v)).length + 1) w T with
      ⟨rfl, rfl, he⟩ | he
    · exact ((h.acked_le w _).trans (Nat.le_succ _)).trans he.ge
    · exact he.ge
  | accept L hled hL =>
    refine ⟨hr.term, hr.clog, hr.vote, hr.led, hr.tlog, fun w T => ?_⟩
    rcases update₂_cases g.acked v (g.term v) (max (g.acked v (g.term v)) L.length) w T with
      ⟨rfl, rfl, he⟩ | he
    · exact (le_max_left _ _).trans he.ge
    · exact he.ge
  | install S hled hS hlen =>
    exact ⟨hr.term, hr.clog, hr.vote, hr.led, hr.tlog, hr.acked⟩

/-- A step leaves the term, the log and the votes of every other node alone. -/
theorem Step.frame {v w : ν} (hs : g.Step τ M v g') (hw : w ≠ v) :
    g'.term w = g.term w ∧ g'.log w = g.log w ∧ g'.vote w = g.vote w := by
  cases hs with
  | bump t ht => exact ⟨Function.update_of_ne hw _ _, rfl, rfl⟩
  | nominate hc => exact ⟨rfl, rfl, rfl⟩
  | grant c l hl hv hup => exact ⟨rfl, rfl, Function.update_of_ne hw _ _⟩
  | win l hl hled V hV hvote => exact ⟨rfl, rfl, rfl⟩
  | propose e hled he => exact ⟨rfl, Function.update_of_ne hw _ _, rfl⟩
  | accept L hled hL => exact ⟨rfl, Function.update_of_ne hw _ _, rfl⟩
  | install S hled hS hlen => exact ⟨rfl, Function.update_of_ne hw _ _, rfl⟩

variable (τ M) in
/-- Steps of one node, one after the other. -/
def Steps (g : State ν ε) (v : ν) : State ν ε → Prop :=
  Relation.ReflTransGen (fun g g' => g.Step τ M v g') g

/-- What any number of steps of a node keeps. -/
theorem Steps.spec {v : ν} (hs : g.Steps τ M v g') (h : g.Inv τ M) :
    g'.Inv τ M ∧ g.Ext g' ∧
      ∀ w, w ≠ v → g'.term w = g.term w ∧ g'.log w = g.log w ∧ g'.vote w = g.vote w := by
  induction hs with
  | refl => exact ⟨h, .refl g, fun _ _ => ⟨rfl, rfl, rfl⟩⟩
  | tail _ hstep ih =>
    obtain ⟨hinv, hext, hframe⟩ := ih
    refine ⟨hinv.step hstep, hext.trans (hstep.ext hinv), fun w hw => ?_⟩
    obtain ⟨ht, hl, hv⟩ := hstep.frame hw
    obtain ⟨ht₀, hl₀, hv₀⟩ := hframe w hw
    exact ⟨ht.trans ht₀, hl.trans hl₀, hv.trans hv₀⟩

theorem Step.steps {v : ν} (hs : g.Step τ M v g') : g.Steps τ M v g' :=
  Relation.ReflTransGen.single hs

/-- The votes of a node after it granted one. -/
theorem grant_vote {v c : ν} (hfree : g.vote v (g.term v) = none ∨ g.vote v (g.term v) = some c)
    (T : ℕ) (c' : ν) :
    (g.grant v c).vote v T = some c' ↔ g.vote v T = some c' ∨ (T = g.term v ∧ c' = c) := by
  by_cases hT : T = g.term v
  · subst hT
    have hnew : (g.grant v c).vote v (g.term v) = some c := update₂_self _
    rw [hnew, Option.some.injEq]
    constructor
    · exact fun he => .inr ⟨rfl, he.symm⟩
    · rintro (hold | ⟨-, rfl⟩)
      · rw [hold] at hfree
        exact (Option.some.inj (hfree.resolve_left nofun)).symm
      · rfl
  · have hold : (g.grant v c).vote v T = g.vote v T := update₂_of_ne _ (.inr hT)
    rw [hold]
    simp [hT]

theorem campaign_clog (c : ν) : (g.campaign c).clog c (g.term c + 1) = some (g.log c) := by
  show update₂ g.clog c ((g.bump c (g.term c + 1)).term c) (some (g.log c)) c (g.term c + 1) = _
  rw [bump_term, update₂_self]

section Campaign

variable (h : g.Inv τ M) (c : ν)
include h

theorem Inv.campaign_vote (T : ℕ) (c' : ν) :
    (g.campaign c).vote c T = some c' ↔ g.vote c T = some c' ∨ (T = g.term c + 1 ∧ c' = c) := by
  have hfree : g.vote c (g.term c + 1) = none := by
    rw [Option.eq_none_iff_forall_ne_some]
    intro c' hc'
    have := (h.voted c _ c' hc').1
    omega
  have hterm : ((g.bump c (g.term c + 1)).nominate c).term c = g.term c + 1 := bump_term c _
  have hvote := grant_vote (g := (g.bump c (g.term c + 1)).nominate c) (v := c) (c := c)
    (.inl (by rw [hterm]; exact hfree)) T c'
  rwa [hterm] at hvote

theorem Inv.campaign_steps : g.Steps τ M c (g.campaign c) := by
  have hnone : (g.bump c (g.term c + 1)).clog c ((g.bump c (g.term c + 1)).term c) = none := by
    rw [bump_term, Option.eq_none_iff_forall_ne_some]
    intro l hl
    have := (h.candidate c _ l hl).1
    omega
  have hterm : ((g.bump c (g.term c + 1)).nominate c).term c = g.term c + 1 := bump_term c _
  refine ((Step.bump c (g.term c + 1) (Nat.le_succ _)).steps.tail (.nominate c hnone)).tail
    (.grant c c (g.log c) ?_ (.inl ?_) (upToDate_refl τ _))
  · rw [hterm]
    exact campaign_clog c
  · rw [hterm, Option.eq_none_iff_forall_ne_some]
    intro c' hc'
    have := (h.voted c _ c' hc').1
    omega

end Campaign

end State

end Driftless.Consensus
