-- Codes in which no codeword is the start of another one: a list of symbols
-- splits into codewords in one way only.
import Mathlib.Data.List.Basic

namespace codewords

variable {α : Type*} {P : List α → Prop}

/-- No codeword is empty, and none is the start of another. -/
structure Code (P : List α → Prop) : Prop where
  ne_nil : ∀ f, P f → f ≠ []
  eq_of_start : ∀ f g, P f → P g → f <+: g → f = g

/-- Two codewords at the start of one list are the same codeword. -/
theorem Code.head_eq (hP : Code P) {f g r s : List α} (hf : P f) (hg : P g)
    (h : f ++ r = g ++ s) : f = g := by
  rcases List.append_eq_append_iff.mp h with ⟨t, ht, _⟩ | ⟨t, ht, _⟩
  · exact hP.eq_of_start f g hf hg ⟨t, ht.symm⟩
  · exact (hP.eq_of_start g f hg hf ⟨t, ht.symm⟩).symm

/-- Codewords at the start of a list of codewords are the first ones of it. -/
theorem Code.take_of_flatten (hP : Code P) {fs gs : List (List α)} {r : List α}
    (hf : ∀ f ∈ fs, P f) (hg : ∀ g ∈ gs, P g) (h : fs.flatten ++ r = gs.flatten) :
    fs = gs.take fs.length ∧ r = (gs.drop fs.length).flatten := by
  induction fs generalizing gs with
  | nil => exact ⟨rfl, by simpa using h⟩
  | cons f fs ih =>
    have hPf := hf f (by simp)
    cases gs with
    | nil =>
      have := hP.ne_nil f hPf
      simp_all
    | cons g gs =>
      simp only [List.flatten_cons, List.append_assoc] at h
      have he : f = g := hP.head_eq hPf (hg g (by simp)) h
      subst he
      obtain ⟨h1, h2⟩ := ih (fun x hx => hf x (by simp [hx])) (fun x hx => hg x (by simp [hx]))
        (List.append_cancel_left h)
      exact ⟨by rw [List.length_cons, List.take_succ_cons, ← h1], h2⟩

/-- Codewords at the start of a list are among those that it was split into, when no codeword
begins in the rest. -/
theorem Code.prefix_of_flatten (hP : Code P) {fs gs : List (List α)} {r s : List α}
    (hf : ∀ f ∈ fs, P f) (hg : ∀ g ∈ gs, P g) (h : fs.flatten ++ r = gs.flatten ++ s)
    (hrest : ∀ f, P f → ¬ f <+: s) : fs <+: gs := by
  induction fs generalizing gs with
  | nil => exact List.nil_prefix
  | cons f fs ih =>
    have hPf := hf f List.mem_cons_self
    rw [List.flatten_cons, List.append_assoc] at h
    cases gs with
    | nil =>
      rw [List.flatten_nil, List.nil_append] at h
      exact absurd ⟨_, h⟩ (hrest f hPf)
    | cons g gs =>
      rw [List.flatten_cons, List.append_assoc] at h
      have he : f = g := hP.head_eq hPf (hg g List.mem_cons_self) h
      subst he
      exact List.cons_prefix_cons.mpr ⟨rfl, ih (fun x hx => hf x (List.mem_cons_of_mem f hx))
        (fun x hx => hg x (List.mem_cons_of_mem f hx)) (List.append_cancel_left h)⟩

end codewords
