-- Progress of a machine: a rank that goes down leads to an end, when a step that lowers it
-- is always there, and bounds the runs, when every step lowers it.
import PingPong.Lib.Machine

namespace machine.Machine

variable {σ α : Type*} {m : Machine σ α} {P Q : σ → Prop} {C : σ → α → Prop} {rank : σ → Nat}

/-- When every state of `P` that is not at the end has a step that keeps `P` and lowers the rank,
some run leads to the end. -/
theorem exists_run_of_rank
    (hstep : ∀ s, P s → Q s ∨ ∃ l s', C s l ∧ m.step s l = some s' ∧ P s' ∧ rank s' < rank s)
    {s : σ} (hP : P s) : ∃ ls s', m.Meets C s ls ∧ m.run s ls = some s' ∧ P s' ∧ Q s' := by
  induction hr : rank s using Nat.strongRecOn generalizing s with
  | _ r ih =>
    rcases hstep s hP with hQ | ⟨l, t, hC, hs, hPt, hlt⟩
    · exact ⟨[], s, trivial, rfl, hP, hQ⟩
    · obtain ⟨ls, s', hM, hrun, hP', hQ'⟩ := ih (rank t) (hr ▸ hlt) hPt rfl
      exact ⟨l :: ls, s', (meets_cons_of_step hs).mpr ⟨hC, hM⟩, m.run_cons.mpr ⟨t, hs, hrun⟩, hP',
        hQ'⟩

/-- When every step that meets `C` keeps `P` and lowers the rank, no run is longer than the
rank. -/
theorem run_length_le
    (hstep : ∀ s l s', P s → C s l → m.step s l = some s' → P s' ∧ rank s' < rank s)
    {s s' : σ} {ls : List α} (hP : P s) (hC : m.Meets C s ls) (hr : m.run s ls = some s') :
    ls.length + rank s' ≤ rank s := by
  induction ls generalizing s with
  | nil =>
    cases hr
    exact Nat.le_of_eq (Nat.zero_add _)
  | cons l ls ih =>
    obtain ⟨t, ht, hr⟩ := m.run_cons.mp hr
    obtain ⟨hPt, hlt⟩ := hstep s l t hP hC.1 ht
    have hrest := ih hPt (hC.2 t ht) hr
    rw [List.length_cons]
    omega

end machine.Machine
