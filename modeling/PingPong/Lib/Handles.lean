-- Logs of handles: a log says which handles a program obtains and closes. A log
-- that only closes handles that are open closes each of them once.
import Mathlib.Data.List.Perm.Subperm

namespace handles

inductive Event (α : Type*)
  | obtained (h : α)
  | closed (h : α)
  deriving DecidableEq, Repr

variable {α : Type*}

/-- Between two closings of a handle it is obtained again. -/
def ClosedOnce (es : List (Event α)) : Prop :=
  ∀ (i j : Nat) (h : α), i < j → es[i]? = some (.closed h) → es[j]? = some (.closed h) →
    ∃ k, i < k ∧ k < j ∧ es[k]? = some (.obtained h)

variable [DecidableEq α]

/-- The handles that are open after a log, from those that were open before it. -/
def openAfter (hs : List α) : List (Event α) → List α
  | [] => hs
  | .obtained h :: es => openAfter (h :: hs) es
  | .closed h :: es => openAfter (hs.erase h) es

/-- A handle is not open when it is obtained, and open when it is closed. -/
def Proper (hs : List α) : List (Event α) → Prop
  | [] => True
  | .obtained h :: es => h ∉ hs ∧ Proper (h :: hs) es
  | .closed h :: es => h ∈ hs ∧ Proper (hs.erase h) es

@[simp] theorem openAfter_nil (hs : List α) : openAfter hs [] = hs := rfl

@[simp] theorem proper_nil (hs : List α) : Proper hs [] := trivial

@[simp] theorem proper_obtained {hs : List α} {h : α} {es : List (Event α)} :
    Proper hs (.obtained h :: es) ↔ h ∉ hs ∧ Proper (h :: hs) es := Iff.rfl

@[simp] theorem proper_closed {hs : List α} {h : α} {es : List (Event α)} :
    Proper hs (.closed h :: es) ↔ h ∈ hs ∧ Proper (hs.erase h) es := Iff.rfl

theorem openAfter_append (hs : List α) (es fs : List (Event α)) :
    openAfter hs (es ++ fs) = openAfter (openAfter hs es) fs := by
  induction es generalizing hs with
  | nil => rfl
  | cons e es ih => cases e <;> exact ih _

theorem proper_append {hs : List α} {es fs : List (Event α)} :
    Proper hs (es ++ fs) ↔ Proper hs es ∧ Proper (openAfter hs es) fs := by
  induction es generalizing hs with
  | nil => simp
  | cons e es ih =>
    cases e with
    | obtained h => simp [openAfter, ih, and_assoc]
    | closed h => simp [openAfter, ih, and_assoc]

theorem openAfter_obtained (hs os : List α) :
    openAfter hs (os.map .obtained) = os.reverse ++ hs := by
  induction os generalizing hs with
  | nil => rfl
  | cons o os ih =>
    rw [List.map_cons, openAfter, ih, List.reverse_cons, List.append_assoc]
    rfl

/-! ## Closed once -/

/-- A handle that is not open is obtained before it is closed. -/
theorem Proper.obtained_before {hs : List α} {es : List (Event α)} (hp : Proper hs es) {h : α}
    (hnot : h ∉ hs) {j : Nat} (hj : es[j]? = some (.closed h)) :
    ∃ k, k < j ∧ es[k]? = some (.obtained h) := by
  induction es generalizing hs j with
  | nil => simp at hj
  | cons e es ih =>
    cases j with
    | zero =>
      simp only [List.getElem?_cons_zero, Option.some.injEq] at hj
      subst hj
      exact absurd hp.1 hnot
    | succ j =>
      rw [List.getElem?_cons_succ] at hj
      by_cases he : e = .obtained h
      · exact ⟨0, Nat.succ_pos j, by simp [he]⟩
      · have hnext : ∃ hs', h ∉ hs' ∧ Proper hs' es := by
          cases e with
          | obtained a =>
            have ha : h ≠ a := by
              rintro rfl
              exact he rfl
            exact ⟨a :: hs, by simp [ha, hnot], hp.2⟩
          | closed a => exact ⟨hs.erase a, fun hm => hnot (List.mem_of_mem_erase hm), hp.2⟩
        obtain ⟨hs', hnot', hp'⟩ := hnext
        obtain ⟨k, hk, hek⟩ := ih hp' hnot' hj
        exact ⟨k + 1, Nat.succ_lt_succ hk, by simpa using hek⟩

theorem Proper.closedOnce {hs : List α} {es : List (Event α)} (hnodup : hs.Nodup)
    (hp : Proper hs es) : ClosedOnce es := by
  induction es generalizing hs with
  | nil =>
    intro i j h _ hi
    simp at hi
  | cons e es ih =>
    intro i j h hij hi hj
    obtain ⟨j, rfl⟩ := Nat.exists_eq_succ_of_ne_zero (Nat.ne_zero_of_lt hij)
    rw [List.getElem?_cons_succ] at hj
    cases i with
    | zero =>
      simp only [List.getElem?_cons_zero, Option.some.injEq] at hi
      subst hi
      obtain ⟨k, hk, hek⟩ := hp.2.obtained_before hnodup.not_mem_erase hj
      exact ⟨k + 1, Nat.succ_pos k, Nat.succ_lt_succ hk, by simpa using hek⟩
    | succ i =>
      rw [List.getElem?_cons_succ] at hi
      have hrest : ClosedOnce es := by
        cases e with
        | obtained a => exact ih (List.nodup_cons.mpr ⟨hp.1, hnodup⟩) hp.2
        | closed a => exact ih (hnodup.erase a) hp.2
      obtain ⟨k, hik, hkj, hek⟩ := hrest i j h (Nat.lt_of_succ_lt_succ hij) hi hj
      exact ⟨k + 1, Nat.succ_lt_succ hik, Nat.succ_lt_succ hkj, by simpa using hek⟩

/-! ## Handles that are held -/

/-- To close handles that are all open, each once, is proper. -/
theorem proper_closings {hs cs rest : List α} (h : (cs ++ rest).Subperm hs) :
    Proper hs (cs.map .closed) ∧ rest.Subperm (openAfter hs (cs.map .closed)) := by
  induction cs generalizing hs with
  | nil => exact ⟨trivial, h⟩
  | cons c cs ih =>
    have hc : c ∈ hs := h.subset List.mem_cons_self
    have hrest : (cs ++ rest).Subperm (hs.erase c) := by
      have he := h.erase c
      simpa using he
    obtain ⟨hp, hr⟩ := ih hrest
    exact ⟨⟨hc, hp⟩, hr⟩

end handles
