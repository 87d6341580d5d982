-- Machines that step by labels: the runs of a machine, what holds along a
-- run, and the rule that carries an invariant from one step to every run.
import Mathlib.Data.List.Basic

namespace machine

/-- A step takes a label, and is `none` when the label is not enabled. -/
structure Machine (σ : Type*) (α : Type*) where
  step : σ → α → Option σ

namespace Machine

variable {σ α : Type*} (m : Machine σ α)

/-- The state after the labels of a list, one by one. -/
def run (s : σ) : List α → Option σ
  | [] => some s
  | l :: ls => (m.step s l).bind fun s' => run s' ls

/-- `P` holds in every state that the run goes through, the first included. -/
def Always (P : σ → Prop) (s : σ) : List α → Prop
  | [] => P s
  | l :: ls => P s ∧ ∀ s', m.step s l = some s' → Always P s' ls

/-- Every step of the run is taken with a state and a label that meet `C`. -/
def Meets (C : σ → α → Prop) (s : σ) : List α → Prop
  | [] => True
  | l :: ls => C s l ∧ ∀ s', m.step s l = some s' → Meets C s' ls

/-- The states that a run from `init` reaches when all its steps meet `C`. -/
def Reach (init : σ → Prop) (C : σ → α → Prop) (s : σ) : Prop :=
  ∃ s₀ ls, init s₀ ∧ m.Meets C s₀ ls ∧ m.run s₀ ls = some s

/-! ## Runs -/

@[simp] theorem run_nil (s : σ) : m.run s [] = some s := rfl

theorem run_cons {s s' : σ} {l : α} {ls : List α} :
    m.run s (l :: ls) = some s' ↔ ∃ t, m.step s l = some t ∧ m.run t ls = some s' := by
  simp [run, Option.bind_eq_some_iff]

theorem run_append (s : σ) (ls ks : List α) :
    m.run s (ls ++ ks) = (m.run s ls).bind fun t => m.run t ks := by
  induction ls generalizing s with
  | nil => rfl
  | cons l ls ih =>
    simp only [List.cons_append, run]
    cases m.step s l with
    | none => rfl
    | some t => exact ih t

/-! ## Steps that meet a condition -/

variable {m} {P : σ → Prop} {C D : σ → α → Prop}

@[simp] theorem meets_nil (s : σ) : m.Meets C s [] := trivial

/-- A run can be checked step by step. -/
instance decidableMeets [∀ s l, Decidable (C s l)] : ∀ s ls, Decidable (m.Meets C s ls)
  | _, [] => isTrue trivial
  | s, l :: ls =>
    have : Decidable (∀ s', m.step s l = some s' → m.Meets C s' ls) :=
      match _h : m.step s l with
      | none => isTrue nofun
      | some t =>
        have := decidableMeets t ls
        decidable_of_iff (m.Meets C t ls) ⟨fun ht _ hs => Option.some.inj hs ▸ ht, fun ha => ha t rfl⟩
    inferInstanceAs (Decidable (_ ∧ _))

theorem meets_of_all (h : ∀ s l, C s l) (s : σ) (ls : List α) : m.Meets C s ls := by
  induction ls generalizing s with
  | nil => trivial
  | cons l ls ih => exact ⟨h s l, fun s' _ => ih s'⟩

/-- A condition on the labels alone. -/
theorem meets_of_mem {D : α → Prop} {s : σ} {ls : List α} (h : ∀ l ∈ ls, D l) :
    m.Meets (fun _ l => D l) s ls := by
  induction ls generalizing s with
  | nil => trivial
  | cons l ls ih =>
    exact ⟨h l List.mem_cons_self, fun s' _ => ih fun k hk => h k (List.mem_cons_of_mem l hk)⟩

theorem meets_mono (h : ∀ s l, C s l → D s l) {s : σ} {ls : List α} (hC : m.Meets C s ls) :
    m.Meets D s ls := by
  induction ls generalizing s with
  | nil => trivial
  | cons l ls ih => exact ⟨h s l hC.1, fun s' hs => ih (hC.2 s' hs)⟩

theorem meets_append {s : σ} {ls ks : List α} :
    m.Meets C s (ls ++ ks) ↔
      m.Meets C s ls ∧ ∀ t, m.run s ls = some t → m.Meets C t ks := by
  induction ls generalizing s with
  | nil => simp
  | cons l ls ih =>
    simp only [List.cons_append, Meets, ih, run_cons]
    constructor
    · rintro ⟨hc, h⟩
      refine ⟨⟨hc, fun s' hs => (h s' hs).1⟩, ?_⟩
      rintro t ⟨s', hs, hr⟩
      exact (h s' hs).2 t hr
    · rintro ⟨⟨hc, h1⟩, h2⟩
      exact ⟨hc, fun s' hs => ⟨h1 s' hs, fun t hr => h2 t ⟨s', hs, hr⟩⟩⟩

theorem meets_cons_of_step {s t : σ} {l : α} {ls : List α} (h : m.step s l = some t) :
    m.Meets C s (l :: ls) ↔ C s l ∧ m.Meets C t ls := by
  simp [Meets, h]

/-! ## Invariants -/

/-- What every step that meets `C` keeps, every run whose steps meet `C` keeps. -/
theorem run_invariant (hstep : ∀ s l s', P s → C s l → m.step s l = some s' → P s')
    {s s' : σ} {ls : List α} (hP : P s) (hC : m.Meets C s ls) (hr : m.run s ls = some s') :
    P s' := by
  induction ls generalizing s with
  | nil =>
    cases hr
    exact hP
  | cons l ls ih =>
    obtain ⟨t, ht, hr⟩ := m.run_cons.mp hr
    exact ih (hstep s l t hP hC.1 ht) (hC.2 t ht) hr

/-- When the first step that does not meet `C` leads from `P` to `Q`, and no step leads out of
`Q`, the end of a run says if all its steps meet `C`. -/
theorem run_exact {Q : σ → Prop}
    (hstep : ∀ s l s', P s → m.step s l = some s' → (C s l ∧ P s') ∨ (¬ C s l ∧ Q s'))
    (hstay : ∀ s l s', Q s → m.step s l = some s' → Q s') {s s' : σ} {ls : List α} (hP : P s)
    (hr : m.run s ls = some s') : (m.Meets C s ls ∧ P s') ∨ (¬ m.Meets C s ls ∧ Q s') := by
  induction ls generalizing s with
  | nil =>
    cases hr
    exact Or.inl ⟨trivial, hP⟩
  | cons l ls ih =>
    obtain ⟨t, ht, hr⟩ := m.run_cons.mp hr
    rw [meets_cons_of_step ht]
    rcases hstep s l t hP ht with ⟨hC, hPt⟩ | ⟨hC, hQ⟩
    · simpa only [hC, true_and] using ih hPt hr
    · refine Or.inr ⟨fun h => hC h.1, ?_⟩
      exact run_invariant (C := fun _ _ => True) (fun s l s' hQ _ => hstay s l s' hQ) hQ
        (meets_of_all (fun _ _ => trivial) t ls) hr

/-- When every step that meets `C` is enabled and keeps `P`, so is every run. -/
theorem run_total (hstep : ∀ s l, P s → C s l → ∃ s', m.step s l = some s' ∧ P s') {s : σ}
    {ls : List α} (hP : P s) (hC : m.Meets C s ls) : ∃ s', m.run s ls = some s' ∧ P s' := by
  induction ls generalizing s with
  | nil => exact ⟨s, rfl, hP⟩
  | cons l ls ih =>
    obtain ⟨t, ht, hPt⟩ := hstep s l hP hC.1
    obtain ⟨s', hrun, hP'⟩ := ih hPt (hC.2 t ht)
    exact ⟨s', m.run_cons.mpr ⟨t, ht, hrun⟩, hP'⟩

/-- Under an invariant that the steps with `D` keep, two conditions that agree at each step
agree on each run. -/
theorem meets_iff {A : σ → α → Prop} (hiff : ∀ s l, P s → C s l → (A s l ↔ D s l))
    (hstep : ∀ s l s', P s → C s l → D s l → m.step s l = some s' → P s') {s : σ}
    {ls : List α} (hP : P s) (hC : m.Meets C s ls) : m.Meets A s ls ↔ m.Meets D s ls := by
  induction ls generalizing s with
  | nil => exact Iff.rfl
  | cons l ls ih =>
    unfold Meets
    rw [hiff s l hP hC.1]
    refine and_congr_right fun hD => forall_congr' fun t => imp_congr_right fun ht => ?_
    exact ih (hstep s l t hP hC.1 hD ht) (hC.2 t ht)

/-- What an invariant adds to a condition. -/
theorem meets_of_invariant (hstep : ∀ s l s', P s → C s l → m.step s l = some s' → P s')
    (hadd : ∀ s l, P s → C s l → D s l) {s : σ} {ls : List α} (hP : P s) (hC : m.Meets C s ls) :
    m.Meets D s ls := by
  induction ls generalizing s with
  | nil => trivial
  | cons l ls ih =>
    exact ⟨hadd s l hP hC.1, fun t ht => ih (hstep s l t hP hC.1 ht) (hC.2 t ht)⟩

theorem Always.head {s : σ} {ls : List α} (h : m.Always P s ls) : P s := by
  cases ls with
  | nil => exact h
  | cons l ls => exact h.1

variable {init : σ → Prop}

theorem Reach.start {s : σ} (h : init s) : m.Reach init C s := ⟨s, [], h, trivial, rfl⟩

theorem Reach.step {s s' : σ} {l : α} (h : m.Reach init C s) (hC : C s l)
    (hs : m.step s l = some s') : m.Reach init C s' := by
  obtain ⟨s₀, ls, h0, hm, hr⟩ := h
  refine ⟨s₀, ls ++ [l], h0, ?_, ?_⟩
  · refine meets_append.mpr ⟨hm, fun t ht => ?_⟩
    rw [hr] at ht
    cases ht
    exact ⟨hC, fun _ _ => trivial⟩
  · rw [run_append, hr]
    simp [run, hs]

/-- The rule for an invariant: it holds at the start, and every step keeps it. -/
theorem Reach.invariant (h0 : ∀ s, init s → P s)
    (hstep : ∀ s l s', P s → C s l → m.step s l = some s' → P s') {s : σ}
    (h : m.Reach init C s) : P s := by
  obtain ⟨s₀, ls, hi, hm, hr⟩ := h
  exact run_invariant hstep (h0 s₀ hi) hm hr

theorem Reach.mono (h : ∀ s l, C s l → D s l) {s : σ} (hr : m.Reach init C s) :
    m.Reach init D s := by
  obtain ⟨s₀, ls, hi, hm, hrun⟩ := hr
  exact ⟨s₀, ls, hi, meets_mono h hm, hrun⟩

/-- A run that is evaluated to its end. -/
theorem exists_run (m : Machine σ α) (P : σ → Prop) [DecidablePred P] (s : σ) (ls : List α)
    (hP : (m.run s ls).any P = true) : ∃ t, m.run s ls = some t ∧ P t := by
  obtain ⟨t, hr, ht⟩ := (Option.any_eq_true ..).mp hP
  exact ⟨t, hr, of_decide_eq_true ht⟩

/-- The run, when its steps meet `C`. -/
theorem exists_reach (m : Machine σ α) (init : σ → Prop) (C : σ → α → Prop) (P : σ → Prop)
    [DecidablePred P] (s : σ) (ls : List α) (h0 : init s) (hC : m.Meets C s ls)
    (hP : (m.run s ls).any P = true) : ∃ t, m.Reach init C t ∧ P t := by
  obtain ⟨t, hr, ht⟩ := m.exists_run P s ls hP
  exact ⟨t, ⟨s, ls, h0, hC, hr⟩, ht⟩

/-! ## Simulation -/

/-- When each step of `m` that meets `C` is, seen through `f`, a step of `k` that meets `D`
or no step at all, the reachable states of `m` are reachable in `k`. -/
theorem Reach.simulates {τ β : Type*} {k : Machine τ β} {D : τ → β → Prop} {init' : τ → Prop}
    (f : σ → τ) (h0 : ∀ s, init s → init' (f s))
    (hstep : ∀ s l s', C s l → m.step s l = some s' →
      f s' = f s ∨ ∃ l', D (f s) l' ∧ k.step (f s) l' = some (f s')) {s : σ}
    (h : m.Reach init C s) : k.Reach init' D (f s) := by
  refine Reach.invariant (P := fun s => k.Reach init' D (f s))
    (fun s hs => Reach.start (h0 s hs)) ?_ h
  intro s l s' hr hC hs
  rcases hstep s l s' hC hs with he | ⟨l', hD, hk⟩
  · rw [he]; exact hr
  · exact hr.step hD hk

/-! ## A machine next to a model -/

/-- The calls of a machine, next to a model that is told each call and its reply. -/
def beside {τ ρ : Type*} (call : σ → α → Option (ρ × σ)) (model : α → ρ → τ → τ) :
    Machine (σ × τ) α :=
  ⟨fun s l => (call s.1 l).map fun (r, s') => (s', model l r s.2)⟩

theorem beside_step {τ ρ : Type*} {call : σ → α → Option (ρ × σ)} {model : α → ρ → τ → τ}
    {s s' : σ × τ} {l : α} :
    (beside call model).step s l = some s' ↔
      ∃ r, call s.1 l = some (r, s'.1) ∧ s'.2 = model l r s.2 := by
  obtain ⟨a', x'⟩ := s'
  simp only [beside, Option.map_eq_some_iff, Prod.exists, Prod.mk.injEq]
  constructor
  · rintro ⟨r, a, hc, rfl, rfl⟩
    exact ⟨r, hc, rfl⟩
  · rintro ⟨r, hc, rfl⟩
    exact ⟨r, a', hc, rfl, rfl⟩

end Machine

end machine
