-- Infinite executions of a machine: which steps are enabled, which executions are fair
-- to them, and the rank that no execution lowers for ever.
import PingPong.Lib.Machine
import Mathlib.Order.Filter.AtTopBot.Basic
import Mathlib.Order.Filter.Finite

namespace machine

open Filter

variable {σ α : Type*}

/-- Some step that meets `C` can be taken. -/
def Machine.Enabled (m : Machine σ α) (C : σ → α → Prop) (s : σ) : Prop :=
  ∃ l s', C s l ∧ m.step s l = some s'

/-- An execution that does not end. Where it has no label, the state stays as it is. -/
structure Execution (m : Machine σ α) where
  state : Nat → σ
  label : Nat → Option α
  stays : ∀ i, label i = none → state (i + 1) = state i
  steps : ∀ i l, label i = some l → m.step (state i) l = some (state (i + 1))

namespace Execution

variable {m : Machine σ α} (e : Execution m)

/-- The step at `i` meets `C`. -/
def Takes (C : σ → α → Prop) (i : Nat) : Prop := ∃ l, e.label i = some l ∧ C (e.state i) l

/-- When the steps that meet `C` are enabled again and again, they are taken again and again. -/
def Fair (C : σ → α → Prop) : Prop :=
  (∃ᶠ i in atTop, m.Enabled C (e.state i)) → ∃ᶠ i in atTop, e.Takes C i

variable {e} {P : σ → Prop} {C : σ → α → Prop}

/-! ## Invariants -/

/-- What holds at `k` holds from there on, when all steps from there on keep it. -/
theorem invariant_from {k i : Nat} (hP : P (e.state k))
    (hstep : ∀ i l, k ≤ i → e.label i = some l → P (e.state i) → P (e.state (i + 1)))
    (hi : k ≤ i) : P (e.state i) := by
  induction i, hi using Nat.le_induction with
  | base => exact hP
  | succ i hi ih =>
    cases hl : e.label i with
    | none =>
      rw [e.stays i hl]
      exact ih
    | some l => exact hstep i l hi hl ih

theorem invariant (hP : P (e.state 0))
    (hstep : ∀ i l, e.label i = some l → P (e.state i) → P (e.state (i + 1))) (i : Nat) :
    P (e.state i) :=
  invariant_from hP (fun i l _ => hstep i l) (Nat.zero_le i)

/-! ## Ranks -/

/-- A rank that in the end does not go up does in the end not change. -/
theorem rank_settles (rank : σ → Nat)
    (h : ∀ᶠ i in atTop, rank (e.state (i + 1)) ≤ rank (e.state i)) :
    ∀ᶠ i in atTop, rank (e.state (i + 1)) = rank (e.state i) := by
  classical
  obtain ⟨k, hk⟩ := eventually_atTop.mp h
  have hex : ∃ r i, k ≤ i ∧ rank (e.state i) = r := ⟨_, k, le_rfl, rfl⟩
  -- the lowest rank behind `k` stays
  obtain ⟨j, hj, hr⟩ := Nat.find_spec hex
  have hlow : ∀ i, k ≤ i → rank (e.state j) ≤ rank (e.state i) := by
    intro i hi
    rw [hr]
    exact Nat.find_min' hex ⟨i, hi, rfl⟩
  have hsame : ∀ i, j ≤ i → rank (e.state i) = rank (e.state j) := by
    intro i hi
    induction i, hi using Nat.le_induction with
    | base => rfl
    | succ i hi ih =>
      have hdown := hk i (hj.trans hi)
      have hle := hlow (i + 1) (by omega)
      omega
  refine eventually_atTop.mpr ⟨j, fun i hi => ?_⟩
  rw [hsame i hi, hsame (i + 1) (by omega)]

/-- The steps that lower a rank come to an end, when no other step raises it in the end. -/
theorem never_taken_of_rank (rank : σ → Nat)
    (h : ∀ᶠ i in atTop, ∀ l, e.label i = some l →
      rank (e.state (i + 1)) ≤ rank (e.state i) ∧
        (C (e.state i) l → rank (e.state (i + 1)) < rank (e.state i))) :
    ∀ᶠ i in atTop, ¬ e.Takes C i := by
  have hsettles := rank_settles (e := e) rank (h.mono fun i hi => ?_)
  · filter_upwards [h, hsettles] with i hi hsame
    rintro ⟨l, hl, hC⟩
    exact absurd hsame (Nat.ne_of_lt ((hi l hl).2 hC))
  · cases hl : e.label i with
    | none => rw [e.stays i hl]
    | some l => exact (hi l hl).1

/-! ## Fairness -/

/-- Steps that are not taken in the end are not enabled in the end. -/
theorem Fair.never_enabled (hfair : e.Fair C) (h : ∀ᶠ i in atTop, ¬ e.Takes C i) :
    ∀ᶠ i in atTop, ¬ m.Enabled C (e.state i) := by
  by_contra hoften
  exact hfair hoften h

/-- While each step of some threads lowers a rank, and one of the threads can always take one, the
execution leaves `S` again and again. -/
theorem leaves_of_rank {τ : Type*} [Finite τ] {S : σ → Prop} {D : τ → σ → α → Prop}
    (rank : σ → Nat) (hfair : ∀ t, e.Fair (D t))
    (hrank : ∀ᶠ i in atTop, ∀ l, e.label i = some l → S (e.state i) → S (e.state (i + 1)) →
      rank (e.state (i + 1)) ≤ rank (e.state i) ∧
        ((∃ t, D t (e.state i) l) → rank (e.state (i + 1)) < rank (e.state i)))
    (hready : ∀ i, S (e.state i) → ∃ t, m.Enabled (D t) (e.state i)) :
    ∃ᶠ i in atTop, ¬ S (e.state i) := by
  by_contra hstays
  simp only [not_frequently, not_not] at hstays
  obtain ⟨k, hk⟩ := eventually_atTop.mp hstays
  have hnever : ∀ᶠ i in atTop, ¬ e.Takes (fun s l => ∃ t, D t s l) i := by
    refine never_taken_of_rank rank ?_
    filter_upwards [hrank, eventually_ge_atTop k] with i hi hki l hl
    exact hi l hl (hk i hki) (hk (i + 1) (by omega))
  have hnone : ∀ᶠ i in atTop, ∀ t, ¬ m.Enabled (D t) (e.state i) := by
    refine eventually_all.mpr fun t => (hfair t).never_enabled ?_
    filter_upwards [hnever] with i hi
    rintro ⟨l, hl, hD⟩
    exact hi ⟨l, hl, t, hD⟩
  obtain ⟨i, hi, hnot⟩ := (hstays.and hnone).exists
  obtain ⟨t, ht⟩ := hready i hi
  exact hnot t ht

/-- A step that can be taken in all of `S`, and leads out of it, is taken. -/
theorem leaves_of_step {S : σ → Prop} (hfair : e.Fair C)
    (hout : ∀ i l, e.label i = some l → S (e.state i) → C (e.state i) l → ¬ S (e.state (i + 1)))
    (hready : ∀ i, S (e.state i) → m.Enabled C (e.state i)) : ∃ᶠ i in atTop, ¬ S (e.state i) := by
  refine leaves_of_rank (D := fun _ : Unit => C) (fun _ => 0) (fun _ => hfair) ?_ ?_
  · refine Eventually.of_forall fun i l hl hS hS' => ⟨le_rfl, ?_⟩
    rintro ⟨-, hC⟩
    exact absurd hS' (hout i l hl hS hC)
  · exact fun i hS => ⟨(), hready i hS⟩

/-- What is left for good when no step leads back to it. -/
theorem left_for_good {S : σ → Prop} (h : ∃ᶠ i in atTop, ¬ S (e.state i))
    (hstep : ∀ i l, e.label i = some l → ¬ S (e.state i) → ¬ S (e.state (i + 1))) :
    ∀ᶠ i in atTop, ¬ S (e.state i) := by
  obtain ⟨k, hk⟩ := h.exists
  exact eventually_atTop.mpr ⟨k, fun i hi =>
    invariant_from (P := fun s => ¬ S s) hk (fun i l _ => hstep i l) hi⟩

/-! ## Parts of an execution -/

theorem frequently_add {P : Nat → Prop} (k : Nat) :
    (∃ᶠ i in atTop, P (i + k)) ↔ ∃ᶠ i in atTop, P i := by
  conv_rhs => rw [← map_add_atTop_eq_nat k]
  exact frequently_map.symm

theorem eventually_add {P : Nat → Prop} (k : Nat) :
    (∀ᶠ i in atTop, P (i + k)) ↔ ∀ᶠ i in atTop, P i := by
  conv_rhs => rw [← map_add_atTop_eq_nat k]
  exact eventually_map.symm

/-- The execution from `k` on. -/
def tail (e : Execution m) (k : Nat) : Execution m where
  state i := e.state (i + k)
  label i := e.label (i + k)
  stays i h := by
    rw [Nat.add_right_comm]
    exact e.stays (i + k) h
  steps i l h := by
    rw [Nat.add_right_comm]
    exact e.steps (i + k) l h

theorem Fair.tail (h : e.Fair C) (k : Nat) : (e.tail k).Fair C := by
  intro hoften
  have hall : ∃ᶠ i in atTop, m.Enabled C (e.state i) := (frequently_add k).mp hoften
  exact (frequently_add (P := e.Takes C) k).mpr (h hall)

/-- The part of an execution that the steps of another machine make up. -/
def project {τ β : Type*} {m' : Machine τ β} (e : Execution m) (f : σ → τ) (g : α → Option β)
    (hstays : ∀ i l, e.label i = some l → g l = none → f (e.state (i + 1)) = f (e.state i))
    (hsteps : ∀ i l k, e.label i = some l → g l = some k →
      m'.step (f (e.state i)) k = some (f (e.state (i + 1)))) : Execution m' where
  state i := f (e.state i)
  label i := (e.label i).bind g
  stays i h := by
    cases hl : e.label i with
    | none => rw [e.stays i hl]
    | some l =>
      rw [hl] at h
      exact hstays i l hl h
  steps i k h := by
    obtain ⟨l, hl, hk⟩ := Option.bind_eq_some_iff.mp h
    exact hsteps i l k hl hk

/-! ## Runs that end -/

theorem run_take {s t : σ} {ls : List α} (h : m.run s ls = some t) (i : Nat) :
    ∃ u, m.run s (ls.take i) = some u ∧ m.run u (ls.drop i) = some t := by
  rw [← List.take_append_drop i ls, m.run_append] at h
  exact Option.bind_eq_some_iff.mp h

/-- A run, and behind its end nothing. -/
def ofRun {s t : σ} {ls : List α} (h : m.run s ls = some t) : Execution m where
  state i := (m.run s (ls.take i)).getD s
  label i := ls[i]?
  stays i hi := by
    have hlen := List.getElem?_eq_none_iff.mp hi
    rw [List.take_of_length_le hlen, List.take_of_length_le (by omega)]
  steps i l hl := by
    obtain ⟨u, hu, hrest⟩ := run_take h i
    obtain ⟨hi, rfl⟩ := List.getElem?_eq_some_iff.mp hl
    rw [List.drop_eq_getElem_cons hi] at hrest
    obtain ⟨v, hv, -⟩ := m.run_cons.mp hrest
    have hnext : m.run s (ls.take (i + 1)) = some v := by
      rw [List.take_add_one, hl, m.run_append, hu]
      simp [Machine.run, hv]
    rw [hu, hnext]
    exact hv

/-- The steps of the execution are those of the run. -/
theorem meets_ofRun {s t : σ} {ls : List α} (h : m.run s ls = some t) (hC : m.Meets C s ls) {i : ℕ}
    {l : α} (hl : (ofRun h).label i = some l) : C ((ofRun h).state i) l := by
  obtain ⟨u, hu, -⟩ := run_take h i
  obtain ⟨hi, rfl⟩ := List.getElem?_eq_some_iff.mp hl
  rw [← List.take_append_drop i ls, List.drop_eq_getElem_cons hi, Machine.meets_append] at hC
  show C ((m.run s (ls.take i)).getD s) _
  rw [hu]
  exact (hC.2 u hu).1

theorem ofRun_end {s t : σ} {ls : List α} (h : m.run s ls = some t) :
    ∀ᶠ i in atTop, (ofRun h).state i = t := by
  filter_upwards [eventually_ge_atTop ls.length] with i hi
  show (m.run s (ls.take i)).getD s = t
  rw [List.take_of_length_le hi, h]
  rfl

/-- A run that ends where no step that meets `C` is enabled is fair to them. -/
theorem fair_ofRun {s t : σ} {ls : List α} (h : m.run s ls = some t) (hend : ¬ m.Enabled C t) :
    (ofRun h).Fair C := by
  intro hoften
  refine absurd hoften (not_frequently.mpr ((ofRun_end h).mono fun i hi => ?_))
  rw [hi]
  exact hend

end Execution

end machine
