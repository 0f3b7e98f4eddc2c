import Mathlib.Data.List.MinMax
import Mathlib.Data.Prod.Lex
import Mathlib.Logic.Function.Basic

/-!
# Linearizable histories

An operation has a call and a return time. A history is linearizable if a sequential model accepts
its operations one after the other, in some order that respects real time: an operation that
returned before another was called comes first.

`Model.product` runs one copy of a model for each key. For a model that holds the largest value
read so far and rejects smaller ones (`Model.Grows`), a history is linearizable exactly if no value
is read that is smaller than one read before (`Ordered`), and so it is for the product, with the
values of each key on their own.
-/

namespace Driftless.Linearizability

structure Operation (ι ο T : Type*) where
  clientID : ℕ
  input : ι
  output : ο
  call : T
  ret : T
  deriving DecidableEq, Repr

/-- A sequential model: a step says whether the output fits the state. -/
structure Model (σ ι ο : Type*) where
  init : σ
  step : σ → ι → ο → Bool × σ

variable {σ ι ο T κ V : Type*}

/-! ## Models -/

namespace Model

/-- Operations in the order of the list, from a state. -/
def accepts (m : Model σ ι ο) (s : σ) : List (Operation ι ο T) → Bool
  | [] => true
  | o :: os => (m.step s o.input o.output).1 && m.accepts (m.step s o.input o.output).2 os

/-- One state for each key. -/
def product [DecidableEq κ] (m : Model σ ι ο) (key : ι → κ) : Model (κ → σ) ι ο where
  init _ := m.init
  step s i o :=
    let r := m.step (s (key i)) i o
    (r.1, Function.update s (key i) r.2)

/-- The product accepts what the model accepts for each key. -/
theorem accepts_product [DecidableEq κ] (m : Model σ ι ο) (key : ι → κ) (s : κ → σ)
    (order : List (Operation ι ο T)) :
    (m.product key).accepts s order = true ↔
      ∀ k, m.accepts (s k) (order.filter fun o => key o.input = k) = true := by
  induction order generalizing s with
  | nil => simp [accepts]
  | cons o os ih =>
    simp only [accepts, Bool.and_eq_true, ih]
    constructor
    · rintro ⟨ho, hos⟩ k
      by_cases hk : key o.input = k
      · subst hk
        have hself := hos (key o.input)
        simp only [product, Function.update_self] at hself
        simpa [accepts] using ⟨ho, hself⟩
      · have hother := hos k
        simp only [product, Function.update_of_ne (Ne.symm hk)] at hother
        simpa [hk] using hother
    · intro h
      have hself := h (key o.input)
      simp only [decide_true, List.filter_cons_of_pos, accepts, Bool.and_eq_true] at hself
      refine ⟨hself.1, fun k => ?_⟩
      by_cases hk : key o.input = k
      · subst hk
        simpa [product] using hself.2
      · simpa [product, Function.update_of_ne (Ne.symm hk), hk] using h k

/-- The model holds the largest of the values read so far, and rejects a smaller one. Outputs that
are not known may be treated in any way. -/
structure Grows [LinearOrder V] (m : Model σ ι ο) (known : ο → Prop) (cur : σ → V)
    (val : ο → V) : Prop where
  init : ∀ o, known o → cur m.init ≤ val o
  step : ∀ s i o, known o → ((m.step s i o).1 = true ↔ cur s ≤ val o)
  cur : ∀ s i o, known o → cur s ≤ val o → cur (m.step s i o).2 = val o

theorem Grows.accepts_iff [LinearOrder V] {m : Model σ ι ο} {known : ο → Prop} {cur : σ → V}
    {val : ο → V} (hm : m.Grows known cur val) {order : List (Operation ι ο T)}
    (hk : ∀ o ∈ order, known o.output) (s : σ) : m.accepts s order = true ↔
      (∀ o ∈ order, cur s ≤ val o.output) ∧
        order.Pairwise fun a b => val a.output ≤ val b.output := by
  induction order generalizing s with
  | nil => simp [accepts]
  | cons o os ih =>
    obtain ⟨ho, hos⟩ := List.forall_mem_cons.1 hk
    simp only [accepts, Bool.and_eq_true, hm.step s o.input o.output ho, ih hos, List.mem_cons,
      forall_eq_or_imp, List.pairwise_cons]
    constructor
    · rintro ⟨hle, hall, hpair⟩
      rw [hm.cur _ _ _ ho hle] at hall
      exact ⟨⟨hle, fun o' ho' => hle.trans (hall o' ho')⟩, hall, hpair⟩
    · rintro ⟨⟨hle, -⟩, hall, hpair⟩
      rw [hm.cur _ _ _ ho hle]
      exact ⟨hle, hall, hpair⟩

end Model

/-! ## Linearizability -/

section Order

variable [LinearOrder T]

/-- No operation comes after one that was called when it had returned. -/
def RealTime (order : List (Operation ι ο T)) : Prop := order.Pairwise fun a b => ¬ b.ret < a.call

def Linearizable (m : Model σ ι ο) (ops : List (Operation ι ο T)) : Prop :=
  ∃ order, order.Perm ops ∧ RealTime order ∧ m.accepts m.init order = true

variable [LinearOrder V] (key : ι → κ) (val : ο → V)

/-- Of two operations with one key, where the first returned before the second was called, the
second reads no smaller value. -/
def Ordered (ops : List (Operation ι ο T)) : Prop :=
  ∀ a ∈ ops, ∀ b ∈ ops, key a.input = key b.input → a.ret < b.call → val a.output ≤ val b.output

/-- The values of each key do not decrease. -/
def Increasing (order : List (Operation ι ο T)) : Prop :=
  order.Pairwise fun a b => key a.input = key b.input → val a.output ≤ val b.output

variable [DecidableEq κ]

/-- The latest call among an operation and those of its key that read a smaller value. The operation
takes effect at this time. -/
def point (ops : List (Operation ι ο T)) (a : Operation ι ο T) : WithBot T :=
  ((a :: ops.filter fun c => key c.input = key a.input ∧ val c.output < val a.output).map
    Operation.call).maximum

variable {key val} {ops : List (Operation ι ο T)} {a b : Operation ι ο T}

theorem call_le_point (ops : List (Operation ι ο T)) (a : Operation ι ο T) :
    (a.call : WithBot T) ≤ point key val ops a :=
  List.le_maximum_of_mem' (by simp)

theorem point_le_ret (h : Ordered key val ops) (ha : a ∈ ops) (hle : a.call ≤ a.ret) :
    point key val ops a ≤ a.ret := by
  refine List.maximum_le_of_forall_le fun t ht => ?_
  obtain ⟨c, hc, rfl⟩ := List.mem_map.1 ht
  rcases List.mem_cons.1 hc with rfl | hc
  · exact WithBot.coe_le_coe.2 hle
  · obtain ⟨hc, hlow⟩ := List.mem_filter.1 hc
    simp only [decide_eq_true_eq] at hlow
    -- `a` did not return before `c` was called, as it read the larger value
    exact WithBot.coe_le_coe.2 (not_lt.1 fun hlt =>
      absurd (h a ha c hc hlow.1.symm hlt) (not_le.2 hlow.2))

theorem point_mono (ha : a ∈ ops) (hk : key a.input = key b.input)
    (hlt : val a.output < val b.output) : point key val ops a ≤ point key val ops b := by
  refine List.maximum_mono fun t ht => ?_
  obtain ⟨c, hc, rfl⟩ := List.mem_map.1 ht
  refine List.mem_map_of_mem (List.mem_cons_of_mem b (List.mem_filter.2 ?_))
  rcases List.mem_cons.1 hc with rfl | hc
  · exact ⟨ha, by simp [hk, hlt]⟩
  · obtain ⟨hc, hlow⟩ := List.mem_filter.1 hc
    simp only [decide_eq_true_eq] at hlow
    exact ⟨hc, by simp [hlow.1, hk, hlow.2.trans hlt]⟩

omit [DecidableEq κ] in
theorem ordered_of_increasing (hle : ∀ o ∈ ops, o.call ≤ o.ret) (hreal : RealTime ops)
    (hinc : Increasing key val ops) : Ordered key val ops := by
  have hforward : ops.Pairwise fun a b =>
      key a.input = key b.input → a.ret < b.call → val a.output ≤ val b.output :=
    hinc.imp fun h hk _ => h hk
  -- backward, the first of the two would have returned after the call of the second
  have hbackward : ops.Pairwise (flip fun a b =>
      key a.input = key b.input → a.ret < b.call → val a.output ≤ val b.output) :=
    hreal.imp fun h _ hlt => absurd hlt h
  intro a ha b hb
  exact hforward.forall_of_forall_of_flip (fun o ho _ hlt => absurd hlt (not_lt.2 (hle o ho)))
    hbackward ha hb

/-- **Without an inverted pair there is an order**: by the times at which the operations take
effect, and by the values at one time. -/
theorem exists_order (hle : ∀ o ∈ ops, o.call ≤ o.ret) (h : Ordered key val ops) :
    ∃ order, order.Perm ops ∧ RealTime order ∧ Increasing key val order := by
  classical
  let rank : Operation ι ο T → WithBot T ×ₗ V := fun a => toLex (point key val ops a, val a.output)
  let le : Operation ι ο T → Operation ι ο T → Bool := fun a b => rank a ≤ rank b
  have hsorted : (ops.mergeSort le).Pairwise fun a b => rank a ≤ rank b := by
    have hpair := @List.pairwise_mergeSort _ le (fun a b c hab hbc => ?_) (fun a b => ?_) ops
    · exact hpair.imp fun hab => by simpa [le] using hab
    · simp only [le, decide_eq_true_eq] at hab hbc ⊢
      exact hab.trans hbc
    · simpa [le] using le_total (rank a) (rank b)
  have hperm : (ops.mergeSort le).Perm ops := List.mergeSort_perm ops le
  refine ⟨_, hperm, ?_, ?_⟩
  · refine hsorted.imp_of_mem fun {a b} ha hb hab hlt => ?_
    have hb' := hperm.mem_iff.1 hb
    have hpoint : point key val ops b < point key val ops a :=
      calc point key val ops b ≤ b.ret := point_le_ret h hb' (hle b hb')
        _ < a.call := WithBot.coe_lt_coe.2 hlt
        _ ≤ point key val ops a := call_le_point ops a
    exact absurd (Prod.Lex.monotone_fst _ _ hab) (not_le.2 hpoint)
  · refine hsorted.imp_of_mem fun {a b} ha hb hab hk => ?_
    by_contra hval
    have hmono := point_mono (hperm.mem_iff.1 hb) hk.symm (not_le.1 hval)
    rcases Prod.Lex.toLex_le_toLex.1 hab with hlt | ⟨-, hle'⟩
    · exact absurd hmono (not_le.2 hlt)
    · exact hval hle'

/-! ## Models that grow -/

section Grows

variable {m : Model σ ι ο} {known : ο → Prop} {cur : σ → V} (hm : m.Grows known cur val)
  (hle : ∀ o ∈ ops, o.call ≤ o.ret) (hk : ∀ o ∈ ops, known o.output)
include hm hle hk

omit [LinearOrder T] hle in
theorem Model.Grows.accepts_product_iff {order : List (Operation ι ο T)} (hperm : order.Perm ops) :
    (m.product key).accepts (m.product key).init order = true ↔ Increasing key val order := by
  have hk' : ∀ o ∈ order, known o.output := fun o ho => hk o (hperm.mem_iff.1 ho)
  have hiff : ∀ k, m.accepts m.init (order.filter fun o => key o.input = k) = true ↔
      (order.filter fun o => key o.input = k).Pairwise fun a b => val a.output ≤ val b.output := by
    intro k
    have hk'' : ∀ o ∈ order.filter fun o => key o.input = k, known o.output :=
      fun o ho => hk' o (List.mem_of_mem_filter ho)
    rw [hm.accepts_iff hk'']
    exact and_iff_right fun o ho => hm.init o.output (hk'' o ho)
  rw [Model.accepts_product]
  refine (forall_congr' hiff).trans ⟨fun h => ?_, fun h k => ?_⟩
  · refine List.pairwise_iff_forall_sublist.2 fun {a b} hab hkey => ?_
    have hpair := List.pairwise_filter.1 (h (key b.input))
    exact hpair.forall_sublist hab (by simpa using hkey) (by simp)
  · refine List.pairwise_filter.2 (h.imp fun hval ha hb => hval ?_)
    exact (of_decide_eq_true ha).trans (of_decide_eq_true hb).symm

/-- **The product of a growing model**: a history is linearizable exactly if no pair with one key is
inverted. -/
theorem Model.Grows.linearizable_product_iff :
    Linearizable (m.product key) ops ↔ Ordered key val ops := by
  constructor
  · rintro ⟨order, hperm, hreal, hacc⟩
    have hinc := (hm.accepts_product_iff hk hperm).1 hacc
    have hord := ordered_of_increasing (fun o ho => hle o (hperm.mem_iff.1 ho)) hreal hinc
    exact fun a ha b hb => hord a (hperm.mem_iff.2 ha) b (hperm.mem_iff.2 hb)
  · intro h
    obtain ⟨order, hperm, hreal, hinc⟩ := exists_order hle h
    exact ⟨order, hperm, hreal, (hm.accepts_product_iff hk hperm).2 hinc⟩

omit [DecidableEq κ] in
/-- **A growing model** on its own. -/
theorem Model.Grows.linearizable_iff : Linearizable m ops ↔
    ∀ a ∈ ops, ∀ b ∈ ops, a.ret < b.call → val a.output ≤ val b.output := by
  have hone : Linearizable m ops ↔ Linearizable (m.product fun _ => ()) ops := by
    refine exists_congr fun order => and_congr_right fun _ => and_congr_right fun _ => ?_
    rw [Model.accepts_product]
    simp [Model.product]
  rw [hone, hm.linearizable_product_iff hle hk]
  simp [Ordered]

end Grows

end Order

end Driftless.Linearizability
