-- Mutexes of threads that interleave: what a lock, an unlock and a destroy do,
-- and the rule that a region is left to the thread that holds the mutex.
import Mathlib.Data.Set.Defs
import Mathlib.Tactic.Common

namespace mutex

inductive Mutex (τ : Type*)
  | free
  | held (t : τ)
  | destroyed
  deriving DecidableEq, Repr

namespace Mutex

variable {τ : Type*} [DecidableEq τ]

/-- A lock that succeeds takes a free mutex. It waits for any other, so then it
is no step. A lock that fails does nothing. -/
def lock (m : Mutex τ) (t : τ) (res : Int) : Option (Mutex τ) :=
  if res = 0 then if m = free then some (held t) else none else some m

/-- An unlock that succeeds gives back the mutex of the thread. -/
def unlock (m : Mutex τ) (t : τ) (res : Int) : Mutex τ :=
  if res = 0 ∧ m = held t then free else m

/-- Only a free mutex can be destroyed. -/
def destroy (m : Mutex τ) (res : Int) : Option (Mutex τ) :=
  if res = 0 then if m = free then some destroyed else none else some m

theorem lock_eq_some {m m' : Mutex τ} {t : τ} {res : Int} :
    m.lock t res = some m' ↔ (res = 0 ∧ m = free ∧ m' = held t) ∨ (res ≠ 0 ∧ m' = m) := by
  unfold lock
  by_cases hr : res = 0
  · by_cases hm : m = free
    · simp [hr, hm, eq_comm]
    · simp [hr, hm]
  · simp [hr, eq_comm]

theorem lock_of_busy {m : Mutex τ} (t : τ) (h : m ≠ free) : m.lock t 0 = none := by
  unfold lock
  rw [if_pos rfl, if_neg h]

theorem destroy_eq_some {m m' : Mutex τ} {res : Int} :
    m.destroy res = some m' ↔ (res = 0 ∧ m = free ∧ m' = destroyed) ∨ (res ≠ 0 ∧ m' = m) := by
  unfold destroy
  by_cases hr : res = 0
  · by_cases hm : m = free
    · simp [hr, hm, eq_comm]
    · simp [hr, hm]
  · simp [hr, eq_comm]

theorem unlock_other {m : Mutex τ} {t u : τ} (res : Int) (h : m = held u) (hne : u ≠ t) :
    m.unlock t res = held u := by
  have hm : m ≠ held t := by
    rw [h]
    exact fun he => hne (held.inj he)
  unfold unlock
  rw [if_neg fun hc => hm hc.2]
  exact h

@[simp] theorem unlock_held (t : τ) : (held t).unlock t 0 = free := by simp [unlock]

@[simp] theorem unlock_destroyed (t : τ) (res : Int) :
    (destroyed : Mutex τ).unlock t res = destroyed := by simp [unlock]

theorem destroyed_of_unlock {m : Mutex τ} {t : τ} {res : Int} (h : m.unlock t res = destroyed) :
    m = destroyed := by
  unfold unlock at h
  split at h
  · cases h
  · exact h

theorem destroyed_of_lock {m m' : Mutex τ} {t : τ} {res : Int} (h : m.lock t res = some m')
    (hm : m' = destroyed) : m = destroyed := by
  rcases lock_eq_some.mp h with ⟨-, -, rfl⟩ | ⟨-, rfl⟩
  · cases hm
  · exact hm

/-! ## Regions -/

/-- A thread in the region holds the mutex. -/
def Guards (region : τ → Prop) (m : Mutex τ) : Prop := ∀ t, region t → m = held t

/-- Who holds the mutex is in the region. -/
def Kept (region : τ → Prop) (m : Mutex τ) : Prop := ∀ t, m = held t → region t

/-- What a thread may do with a mutex in one step, when `was` and `now` say if
it is in the region before and after. The call of the step succeeds when `res` is 0. -/
inductive Move (res : Int) (t : τ) (was now : Prop) (m : Mutex τ) : Mutex τ → Prop
  | stay (h : now → was) (hok : res = 0 → was → now := by exact fun _ => id) :
      Move res t was now m m
  | take (h : m = free) (hn : now := by exact rfl) : Move res t was now m (held t)
  | leave (r : Int) (h : ¬ now)
      (hok : res = 0 → r = 0 := by first | exact id | exact fun _ => rfl) :
      Move res t was now m (m.unlock t r)
  | destroy (h : m = free) (hn : ¬ now) : Move res t was now m destroyed

/-- A step of thread `t`, after which the others are in the region as before. -/
structure Turn (res : Int) (t : τ) (region region' : τ → Prop) (m m' : Mutex τ) : Prop where
  others : ∀ u, u ≠ t → (region' u ↔ region u)
  move : Move res t (region t) (region' t) m m'

/-- A step that leaves the mutex alone and takes no thread into the region or out of it. -/
theorem Turn.same {region region' : τ → Prop} {m : Mutex τ} {t : τ} {res : Int}
    (h : ∀ u, region' u ↔ region u) : Turn res t region region' m m where
  others u _ := h u
  move := .stay (h t).mp fun _ => (h t).mpr

/-- A turn keeps the region to the holder. -/
theorem Guards.turn {region region' : τ → Prop} {m m' : Mutex τ} {t : τ} {res : Int}
    (h : Guards region m) (ht : Turn res t region region' m m') : Guards region' m' := by
  intro u hu
  have hm := ht.move
  by_cases hut : u = t
  · subst hut
    cases hm with
    | stay hin => exact h u (hin hu)
    | take => rfl
    | leave r hn => exact absurd hu hn
    | destroy _ hn => exact absurd hu hn
  · have hheld := h u ((ht.others u hut).mp hu)
    cases hm with
    | stay => exact hheld
    | take hf => rw [hheld] at hf; cases hf
    | leave r => exact unlock_other r hheld hut
    | destroy hf => rw [hheld] at hf; cases hf

/-- A turn whose call succeeds keeps the holder in the region. -/
theorem Kept.turn {region region' : τ → Prop} {m m' : Mutex τ} {t : τ}
    (h : Kept region m) (ht : Turn 0 t region region' m m') : Kept region' m' := by
  intro u hu
  have hm := ht.move
  cases hm with
  | stay _ hok =>
    by_cases hut : u = t
    · subst hut
      exact hok rfl (h u hu)
    · exact (ht.others u hut).mpr (h u hu)
  | take _ hn =>
    cases hu
    exact hn
  | leave r hn hok =>
    have hr := hok rfl
    subst hr
    by_cases hm : m = held t
    · subst hm
      rw [unlock_held] at hu
      cases hu
    · have hsame : m.unlock t 0 = m := if_neg fun hc => hm hc.2
      rw [hsame] at hu
      exact (ht.others u fun hut => hm (hut ▸ hu)).mpr (h u hu)
  | destroy => cases hu

/-- A destroyed mutex stays so. -/
theorem Move.of_destroyed {m' : Mutex τ} {t : τ} {was now : Prop} {res : Int}
    (h : Move res t was now destroyed m') : m' = destroyed := by
  cases h with
  | stay => rfl
  | take hf => cases hf
  | leave r => exact unlock_destroyed t r
  | destroy => rfl

/-- A mutex that is held stays with its holder, or it is given back. -/
theorem Move.held_or_free {m' : Mutex τ} {t u : τ} {was now : Prop} {res : Int}
    (h : Move res u was now (held t) m') : m' = held t ∨ m' = free := by
  cases h with
  | stay => exact Or.inl rfl
  | take hf => cases hf
  | leave r =>
    unfold unlock
    split
    · exact Or.inr rfl
    · exact Or.inl rfl
  | destroy hf => cases hf

omit [DecidableEq τ] in
/-- Two threads are not in the region together. -/
theorem Guards.unique {region : τ → Prop} {m : Mutex τ} (h : Guards region m) {t u : τ}
    (ht : region t) (hu : region u) : t = u :=
  held.inj ((h t ht).symm.trans (h u hu))

end Mutex

/-! ## The order of the mutexes -/

/-- When every thread takes its mutexes in the order of their ranks, no threads wait for each
other: there is no set of threads in which each wants a mutex that one of the set holds. -/
theorem no_deadlock {τ μ : Type*} {wants holds : τ → μ → Prop} (rank : μ → Nat) (top : Nat)
    (htop : ∀ m, rank m ≤ top) (horder : ∀ t m m', holds t m → wants t m' → rank m < rank m')
    {S : Set τ} (hS : ∀ t ∈ S, ∃ m, wants t m ∧ ∃ u ∈ S, holds u m) (t : τ) : t ∉ S := by
  -- along the set the ranks of the mutexes that are wanted go up
  have hclimb : ∀ k, ∀ u ∈ S, ∀ m, wants u m → (∃ v ∈ S, holds v m) → top - rank m ≠ k := by
    intro k
    induction k using Nat.strongRecOn with
    | ind k ih =>
      rintro u - m - ⟨v, hv, hheld⟩ hk
      obtain ⟨m', hwants, hnext⟩ := hS v hv
      have hlt := horder v m m' hheld hwants
      have hle := htop m'
      exact ih (top - rank m') (by omega) v hv m' hwants hnext rfl
  intro ht
  obtain ⟨m, hwants, hnext⟩ := hS t ht
  exact hclimb _ t ht m hwants hnext rfl

end mutex
