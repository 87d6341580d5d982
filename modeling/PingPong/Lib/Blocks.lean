-- Blocks of slots: reads and writes that stay inside, a block that grows, the
-- filter that works in place with a read and a write index, and the slots of a
-- block that a ring buffer uses.
import Mathlib.Data.List.Forall2
import Mathlib.Data.List.Rotate
import Mathlib.Data.Nat.ModEq
import Mathlib.Tactic.Common

namespace blocks

variable {α β : Type*}

/-! ## Slots -/

/-- The write of one slot. It is `none` outside of the block. -/
def store (b : List α) (i : Nat) (x : α) : Option (List α) :=
  if i < b.length then some (b.set i x) else none

theorem store_eq_some {b c : List α} {i : Nat} {x : α} :
    store b i x = some c ↔ i < b.length ∧ b.set i x = c := by
  unfold store
  split <;> rename_i h
  · simp [h]
  · simp [h]

theorem store_of_lt {b : List α} {i : Nat} (h : i < b.length) (x : α) :
    store b i x = some (b.set i x) := if_pos h

/-- A write to the first slot after `n` others makes one more slot of them. -/
theorem take_set_succ {b : List α} {n : Nat} (h : n < b.length) (x : α) :
    (b.set n x).take (n + 1) = b.take n ++ [x] := by
  rw [List.take_add_one, List.take_set_of_le (Nat.le_refl n)]
  simp [h]

/-- A block that is moved to `n` slots keeps what it held. The new slots hold
`fill`, whatever that is. -/
def realloc (b : List α) (n : Nat) (fill : Nat → α) : List α :=
  b.take n ++ (List.range' b.length (n - b.length)).map fill

theorem length_realloc (b : List α) (n : Nat) (fill : Nat → α) :
    (realloc b n fill).length = n := by
  simp only [realloc, List.length_append, List.length_take, List.length_map, List.length_range']
  omega

theorem take_realloc {b : List α} {n k : Nat} (fill : Nat → α) (hk : k ≤ b.length)
    (hn : b.length ≤ n) : (realloc b n fill).take k = b.take k := by
  unfold realloc
  rw [List.take_of_length_le hn, List.take_append_of_le_length hk]

/-- The slots from `k` on, after a move and a write of slot `k`. -/
theorem mem_drop_set_realloc {b : List α} {n k : Nat} {fill : Nat → α} {x y : α}
    (h : y ∈ ((realloc b n fill).set k x).drop (k + 1)) :
    y ∈ b.drop k ∨ ∃ i, y = fill i := by
  rw [List.drop_set_of_lt (Nat.lt_succ_self k)] at h
  obtain ⟨i, hi⟩ := List.mem_iff_getElem?.mp h
  rw [List.getElem?_drop, realloc, List.getElem?_append] at hi
  split at hi
  · rename_i hlt
    rw [List.getElem?_take] at hi
    split at hi
    · refine Or.inl (List.mem_iff_getElem?.mpr ⟨i + 1, ?_⟩)
      rw [List.getElem?_drop, ← hi]
      congr 1
      omega
    · cases hi
  · obtain ⟨j, -, hj⟩ := List.mem_map.mp (List.mem_of_getElem? hi)
    exact Or.inr ⟨j, hj.symm⟩

theorem mem_drop_set {b : List α} {k : Nat} {x y : α} (h : y ∈ (b.set k x).drop (k + 1)) :
    y ∈ b.drop k := by
  rw [List.drop_set_of_lt (Nat.lt_succ_self k), Nat.succ_eq_add_one, ← List.drop_drop] at h
  exact List.mem_of_mem_drop h

/-! ## Lists that agree slot by slot -/

theorem forall₂_set {R : α → β → Prop} {xs : List α} {ys : List β} (h : List.Forall₂ R xs ys)
    (i : Nat) {x : α} {y : β} (hxy : R x y) : List.Forall₂ R (xs.set i x) (ys.set i y) := by
  induction h generalizing i with
  | nil => exact List.Forall₂.nil
  | cons hd tl ih =>
    cases i with
    | zero => exact List.Forall₂.cons hxy tl
    | succ i => exact List.Forall₂.cons hd (ih i)

/-- To blank a kept slot takes one item from the kept ones. -/
theorem filter_set_perm (keep : α → Bool) {b : List α} {i : Nat} {x blank : α}
    (hx : b[i]? = some x) (hkeep : keep x = true) (hblank : keep blank = false) :
    (b.filter keep).Perm (x :: (b.set i blank).filter keep) := by
  induction b generalizing i with
  | nil => simp at hx
  | cons y b ih =>
    cases i with
    | zero =>
      simp only [List.getElem?_cons_zero, Option.some.injEq] at hx
      simp [hx, hkeep, hblank]
    | succ i =>
      rw [List.getElem?_cons_succ] at hx
      have h := ih hx
      by_cases hy : keep y = true
      · rw [List.set_cons_succ, List.filter_cons_of_pos hy, List.filter_cons_of_pos hy]
        exact (h.cons y).trans (List.Perm.swap x y _)
      · rw [List.set_cons_succ, List.filter_cons_of_neg hy, List.filter_cons_of_neg hy]
        exact h

/-! ## The filter in place -/

/-- The loop of a filter in place: `r` reads each slot below `max`, and a slot
to keep moves down to `w`. `next` counts both indices up, as the machine does.
It is `none` outside of the block, or when the turns run out. -/
def squeeze (next : Nat → Nat) (keep : α → Bool) (blank : α) (max : Nat) :
    Nat → Nat → Nat → List α → Option (List α × Nat)
  | 0, _, _, _ => none
  | turns + 1, r, w, b =>
    if r < max then
      b[r]?.bind fun x =>
        if keep x then
          (if w ≠ r then (store b w x).bind fun b => store b r blank else some b).bind fun b =>
            squeeze next keep blank max turns (next r) (next w) b
        else squeeze next keep blank max turns (next r) w b
    else some (b, w)

variable {next : Nat → Nat} {keep : α → Bool} {blank : α} {max : Nat}

/-- One kept slot moves down over those that are dropped, and leaves a blank. -/
theorem move_down {Drop : α → Prop} (hblank : Drop blank) (kept gone rest : List α) (x : α)
    (hgone : ∀ y ∈ gone, Drop y) :
    ∃ gone', gone'.length = gone.length ∧ (∀ y ∈ gone', Drop y) ∧
      (if kept.length ≠ kept.length + gone.length then
        (store (kept ++ gone ++ x :: rest) kept.length x).bind fun b =>
          store b (kept.length + gone.length) blank
      else some (kept ++ gone ++ x :: rest)) = some (kept ++ [x] ++ gone' ++ rest) := by
  cases gone with
  | nil => exact ⟨[], rfl, hgone, by simp⟩
  | cons g gs =>
    refine ⟨gs ++ [blank], by simp, ?_, ?_⟩
    · intro y hy
      rcases List.mem_append.mp hy with h | h
      · exact hgone y (List.mem_cons_of_mem g h)
      · rw [List.mem_singleton.mp h]
        exact hblank
    · have h1 : kept.length < (kept ++ g :: gs ++ x :: rest).length := by simp
      have h2 : (kept ++ g :: gs ++ x :: rest).set kept.length x
          = (kept ++ x :: gs) ++ x :: rest := by
        simp
      have h3 : kept.length + (g :: gs).length = (kept ++ x :: gs).length := by simp
      have hne : kept.length ≠ kept.length + (g :: gs).length := by simp
      rw [if_pos hne, store_of_lt h1, Option.bind_some, h2, h3, store_of_lt (by simp)]
      simp

/-- The loop from a point where the slots up to `w` are kept ones, and those
from there to `r` are dropped. -/
theorem squeeze_from (Drop : α → Prop) (hblank : Drop blank)
    (hnext : ∀ i, i < max → next i = i + 1) (rest : List α) :
    ∀ (turns : Nat) (kept gone : List α),
      rest.length < turns → (kept ++ gone ++ rest).length = max → (∀ y ∈ gone, Drop y) →
      (∀ y ∈ rest, keep y = false → Drop y) →
      ∃ gone', (∀ y ∈ gone', Drop y) ∧
        (kept ++ rest.filter keep ++ gone').length = max ∧
        squeeze next keep blank max turns (kept.length + gone.length) kept.length
          (kept ++ gone ++ rest) =
        some (kept ++ rest.filter keep ++ gone', (kept ++ rest.filter keep).length) := by
  induction rest with
  | nil =>
    intro turns kept gone ht hmax hgone _
    obtain ⟨turns, rfl⟩ := Nat.exists_eq_succ_of_ne_zero (Nat.ne_zero_of_lt ht)
    have hr : ¬ kept.length + gone.length < max := by
      simp only [List.append_nil, List.length_append] at hmax
      omega
    exact ⟨gone, hgone, by simpa using hmax, by simp [squeeze, hr]⟩
  | cons x rest ih =>
    intro turns kept gone ht hmax hgone hdrop
    obtain ⟨turns, rfl⟩ := Nat.exists_eq_succ_of_ne_zero (Nat.ne_zero_of_lt ht)
    have hlen := hmax
    have hrest : ∀ y ∈ rest, keep y = false → Drop y := fun y hy =>
      hdrop y (List.mem_cons_of_mem x hy)
    simp only [List.length_append, List.length_cons] at hlen ht
    have hr : kept.length + gone.length < max := by omega
    have hget : (kept ++ gone ++ x :: rest)[kept.length + gone.length]? = some x := by
      rw [← List.length_append, List.getElem?_append_right (Nat.le_refl _), Nat.sub_self]
      rfl
    simp only [squeeze, if_pos hr, hget, Option.bind_some, hnext _ hr]
    by_cases hx : keep x = true
    · obtain ⟨gone', hlen', hgone', hmove⟩ := move_down hblank kept gone rest x hgone
      rw [if_pos hx, hmove, Option.bind_some, hnext kept.length (by omega)]
      have h := ih turns (kept ++ [x]) gone' (by omega) (by simp; omega) hgone' hrest
      simpa [hx, hlen', Nat.add_right_comm] using h
    · rw [if_neg hx]
      have hdropped : Drop x := hdrop x List.mem_cons_self (Bool.eq_false_iff.mpr hx)
      have h := ih turns kept (gone ++ [x]) (by omega) (by simp; omega) (by
        intro y hy
        rcases List.mem_append.mp hy with h | h
        · exact hgone y h
        · rw [List.mem_singleton.mp h]
          exact hdropped) hrest
      simpa [hx, Nat.add_assoc] using h

/-- The filter in place ends, and leaves the kept slots in their order, then only blanks and
slots that are dropped. -/
theorem squeeze_spec (keep : α → Bool) (blank : α) (hnext : ∀ i, i < max → next i = i + 1)
    {b : List α} (hmax : b.length = max) {turns : Nat} (ht : max < turns) :
    ∃ gone, (∀ y ∈ gone, y = blank ∨ (y ∈ b ∧ keep y = false)) ∧
      (b.filter keep ++ gone).length = max ∧
      squeeze next keep blank max turns 0 0 b =
        some (b.filter keep ++ gone, (b.filter keep).length) := by
  have h := squeeze_from (fun y => y = blank ∨ (y ∈ b ∧ keep y = false)) (Or.inl rfl) hnext b turns
    [] [] (by omega) (by simpa using hmax) (by simp) (fun y hy hk => Or.inr ⟨hy, hk⟩)
  simpa using h

/-! ## Blanked slots -/

/-- The slots of a list whose index is not in `gone`. -/
def without (gone : List Nat) (xs : List α) : List α :=
  xs.zipIdx.filterMap fun (x, i) => if i ∈ gone then none else some x

/-- The list, with the slots of `gone` set to `blank` one after the other. -/
def blanked (blank : α) (gone : List Nat) (xs : List α) : List α :=
  gone.foldl (fun xs i => xs.set i blank) xs

theorem blanked_eq (blank : α) (gone : List Nat) (xs : List α) :
    blanked blank gone xs = xs.zipIdx.map fun (x, i) => if i ∈ gone then blank else x := by
  induction gone generalizing xs with
  | nil =>
    unfold blanked
    simp
  | cons j gone ih =>
    have hcons : blanked blank (j :: gone) xs = blanked blank gone (xs.set j blank) := rfl
    rw [hcons, ih]
    apply List.ext_getElem?
    intro i
    simp only [List.getElem?_map, List.getElem?_zipIdx, List.getElem?_set, Nat.zero_add]
    by_cases hij : j = i
    · subst hij
      by_cases hlt : j < xs.length
      · simp [hlt]
      · simp [hlt]
    · rw [if_neg hij]
      cases xs[i]? with
      | none => rfl
      | some x => simp [Ne.symm hij]

theorem take_blanked (blank : α) (gone : List Nat) (xs : List α) (n : Nat) :
    (blanked blank gone xs).take n = blanked blank gone (xs.take n) := by
  induction gone generalizing xs with
  | nil => rfl
  | cons i gone ih => exact (ih (xs.set i blank)).trans (congrArg _ List.take_set)

/-- The slots behind those that are blanked. -/
theorem drop_blanked (blank : α) {gone : List Nat} {n : Nat} (h : ∀ i ∈ gone, i < n)
    (xs : List α) : (blanked blank gone xs).drop n = xs.drop n := by
  induction gone generalizing xs with
  | nil => rfl
  | cons i gone ih =>
    have hi := List.drop_set_of_lt (l := xs) (a := blank) (h i List.mem_cons_self)
    exact (ih (fun j hj => h j (List.mem_cons_of_mem i hj)) (xs.set i blank)).trans hi

/-- What a filter keeps of a list with blanked slots. -/
theorem filter_blanked {blank : α} (hblank : keep blank = false) (gone : List Nat)
    (xs : List α) : (blanked blank gone xs).filter keep = (without gone xs).filter keep := by
  rw [blanked_eq, without]
  generalize xs.zipIdx = ys
  induction ys with
  | nil => rfl
  | cons y ys ih =>
    by_cases hy : y.2 ∈ gone
    · simp [hy, hblank, ih]
    · by_cases hk : keep y.1 = true
      · simp [hy, hk, ih]
      · simp [hy, hk, ih]

/-- What a filter keeps of a block whose slots from `n` on are to drop, when some of the first
`n` are blanked. -/
theorem filter_blanked_front {blank : α} (hblank : keep blank = false) {gone : List Nat} {n : Nat}
    (hgone : ∀ i ∈ gone, i < n) {b : List α} (hrest : ∀ y ∈ b.drop n, keep y = false) :
    (blanked blank gone b).filter keep = (without gone (b.take n)).filter keep := by
  have hdrop : (b.drop n).filter keep = [] :=
    List.filter_eq_nil_iff.mpr fun y hy => by simp [hrest y hy]
  rw [← List.take_append_drop n (blanked blank gone b), List.filter_append, take_blanked,
    drop_blanked blank hgone, hdrop, List.append_nil, filter_blanked hblank]

theorem mem_of_mem_without {gone : List Nat} {xs : List α} {x : α} (h : x ∈ without gone xs) :
    x ∈ xs := by
  obtain ⟨⟨y, i⟩, hy, hx⟩ := List.mem_filterMap.mp h
  simp only at hx
  split at hx
  · cases hx
  · cases hx
    exact (List.mem_zipIdx' hy).2 ▸ List.getElem_mem _

theorem mem_blanked {blank : α} {gone : List Nat} {xs : List α} {x : α}
    (h : x ∈ blanked blank gone xs) : x = blank ∨ x ∈ without gone xs := by
  rw [blanked_eq] at h
  obtain ⟨⟨y, i⟩, hy, hx⟩ := List.mem_map.mp h
  simp only at hx
  split at hx
  · exact Or.inl hx.symm
  · rename_i hi
    refine Or.inr (List.mem_filterMap.mpr ⟨(y, i), hy, ?_⟩)
    simp only [if_neg hi, hx]

theorem forall₂_without {R : α → β → Prop} (gone : List Nat) {xs : List α} {ys : List β}
    (h : List.Forall₂ R xs ys) : List.Forall₂ R (without gone xs) (without gone ys) := by
  unfold without
  generalize 0 = k
  induction h generalizing k with
  | nil => exact .nil
  | cons hd tl ih =>
    rw [List.zipIdx_cons, List.zipIdx_cons]
    by_cases hk : k ∈ gone
    · simpa [hk] using ih (k + 1)
    · simpa [hk] using ⟨hd, ih (k + 1)⟩

/-! ## The slots of a ring -/

/-- The `n` slots of a ring from `head` on: after the last slot comes the first. -/
def ring (b : List α) (head n : Nat) : List α := (b.rotate head).take n

theorem length_ring {b : List α} {head n : Nat} (h : n ≤ b.length) :
    (ring b head n).length = n := by
  simp [ring, h]

theorem getElem?_ring {b : List α} {head n i : Nat} (hi : i < n) (hn : n ≤ b.length) :
    (ring b head n)[i]? = b[(head + i) % b.length]? := by
  unfold ring
  rw [List.getElem?_take_of_lt hi, List.getElem?_rotate (by omega), Nat.add_comm]

theorem ring_zero (b : List α) (head : Nat) : ring b head 0 = [] := by simp [ring]

/-- The write of the slot after the last one. -/
theorem ring_push {b : List α} {head n : Nat} (h : n < b.length) (x : α) :
    ring (b.set ((head + n) % b.length) x) head (n + 1) = ring b head n ++ [x] := by
  apply List.ext_getElem?
  intro i
  have hlen : (b.set ((head + n) % b.length) x).length = b.length := List.length_set ..
  by_cases hi : i < n
  · have hne : (head + n) % b.length ≠ (head + i) % b.length := by
      intro he
      have hni : n % b.length = i % b.length := Nat.ModEq.add_left_cancel' head he
      rw [Nat.mod_eq_of_lt h, Nat.mod_eq_of_lt (by omega)] at hni
      omega
    rw [getElem?_ring (by omega) (by omega), hlen, List.getElem?_set_ne hne,
      List.getElem?_append_left (by rw [length_ring (by omega)]; exact hi),
      getElem?_ring hi (by omega)]
  · by_cases hin : i = n
    · subst hin
      rw [getElem?_ring (by omega) (by omega), hlen, List.getElem?_append_right
        (by rw [length_ring (by omega)]), length_ring (by omega), Nat.sub_self]
      simp [Nat.mod_lt _ (Nat.zero_lt_of_lt h)]
    · rw [List.getElem?_eq_none (by rw [length_ring (by omega)]; omega),
        List.getElem?_eq_none (by rw [List.length_append, length_ring (by omega)]; simp; omega)]

/-- The first slot, and the ring of the others. -/
theorem ring_pop {b : List α} {head n : Nat} (h : n < b.length) (hh : head < b.length) :
    ring b head (n + 1) = b[head] :: ring b ((head + 1) % b.length) n := by
  apply List.ext_getElem?
  intro i
  cases i with
  | zero =>
    rw [getElem?_ring (by omega) (by omega)]
    simp [Nat.mod_eq_of_lt hh, hh]
  | succ i =>
    rw [List.getElem?_cons_succ]
    by_cases hi : i < n
    · rw [getElem?_ring (by omega) (by omega), getElem?_ring hi (by omega)]
      congr 1
      rw [Nat.mod_add_mod]
      congr 1
      omega
    · rw [List.getElem?_eq_none (by rw [length_ring (by omega)]; omega),
        List.getElem?_eq_none (by rw [length_ring (by omega)]; omega)]

end blocks
