-- Sums over a fixed set of threads, when one thread takes a step.
import Mathlib.Algebra.BigOperators.Fin
import Mathlib.Algebra.Order.BigOperators.Group.Finset
import Mathlib.Algebra.Order.Group.Multiset
import Mathlib.Data.Fintype.BigOperators

namespace tally

variable {ι X M : Type*} [Fintype ι] [DecidableEq ι] [AddCommMonoid M]

/-- The sum of the shares of the threads. -/
def total (f : X → M) (g : ι → X) : M := Finset.univ.sum fun i => f (g i)

/-- The sum is the share of thread `i` and a rest, which a step of `i` does not change. -/
theorem total_split (f : X → M) (g : ι → X) (i : ι) :
    ∃ rest, total f g = rest + f (g i) ∧
      ∀ x, total f (Function.update g i x) = rest + f x := by
  refine ⟨(Finset.univ.erase i).sum fun j => f (g j), ?_, fun x => ?_⟩
  · exact (Finset.sum_erase_add _ _ (Finset.mem_univ i)).symm
  · unfold total
    rw [← Finset.sum_erase_add _ _ (Finset.mem_univ i), Function.update_self]
    congr 1
    exact Finset.sum_congr rfl fun j hj => by
      rw [Function.update_of_ne (Finset.ne_of_mem_erase hj)]

omit [DecidableEq ι] in
theorem total_zero {f : X → M} {g : ι → X} (h : ∀ i, f (g i) = 0) : total f g = 0 :=
  Finset.sum_eq_zero fun i _ => h i

omit [DecidableEq ι] in
/-- Only thread `i` has a share. -/
theorem total_single {f : X → M} {g : ι → X} {i : ι} (h : ∀ j, j ≠ i → f (g j) = 0) :
    total f g = f (g i) :=
  Finset.sum_eq_single_of_mem i (Finset.mem_univ i) fun j _ hj => h j hj

/-- Two threads have no more than the sum. -/
theorem pair_le_total (f : X → Nat) (g : ι → X) {i j : ι} (h : i ≠ j) :
    f (g i) + f (g j) ≤ total f g := by
  unfold total
  rw [← Finset.sum_erase_add _ _ (Finset.mem_univ i),
    ← Finset.sum_erase_add _ _ (Finset.mem_erase.mpr ⟨h.symm, Finset.mem_univ j⟩)]
  omega

theorem share_le_total (f : X → Nat) (g : ι → X) (i : ι) : f (g i) ≤ total f g := by
  obtain ⟨rest, h, -⟩ := total_split f g i
  omega

omit [DecidableEq ι] in
/-- Every share has the bound `k`. -/
theorem total_le {f : X → Nat} {g : ι → X} {k : Nat} (h : ∀ i, f (g i) ≤ k) :
    total f g ≤ Fintype.card ι * k :=
  Finset.sum_le_card_nsmul Finset.univ _ k fun i _ => h i

omit [DecidableEq ι] in
/-- How often a value is in a sum of multisets. -/
theorem count_total {α : Type*} [DecidableEq α] (a : α) (f : X → Multiset α) (g : ι → X) :
    (total f g).count a = total (fun x => (f x).count a) g :=
  Multiset.count_sum' ..

end tally
