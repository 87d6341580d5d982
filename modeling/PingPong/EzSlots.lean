-- What a compaction leaves in the slots of an array, and what a read of a slot
-- gives: the getter checks another bound than the setter.
import Mathlib.Logic.Function.Basic
import PingPong.EzLaws

namespace pingpong.ezarray

variable {α : Type} [DecidableEq α]

/-! ## One compaction -/

/-- A compaction is a stable filter in place: it ends, the slots in use are the items of all
slots that are not the sentinel, in their order, every other slot holds the sentinel, and a
second one changes nothing. The number of items before it plays no part. -/
theorem a_compaction_is_a_stable_filter_in_place {a : ezarray_t α}
    (hlen : a.pp_buf.length = a.max_items) (hpos : 0 < a.max_items)
    (hle : a.max_items ≤ UINT16_MAX) (p_sentinel : α) :
    ∃ a', ezarr_compact p_sentinel a = some (0, a') ∧
      a'.pp_buf.length = a.pp_buf.length ∧ a'.max_items = a.max_items ∧
      used a' = a.pp_buf.filter (fun x => x != p_sentinel) ∧
      (∀ x ∈ spare a', x = p_sentinel) ∧
      a'.num_items = (a.pp_buf.filter fun x => x != p_sentinel).length ∧
      a'.num_items ≤ a'.max_items ∧
      ezarr_compact p_sentinel a' = some (0, a') := by
  have hlen' : (compacted p_sentinel a).pp_buf.length = a.max_items :=
    length_compacted hlen p_sentinel
  refine ⟨compacted p_sentinel a, compact_eq hlen hpos hle p_sentinel, hlen'.trans hlen.symm, rfl,
    used_compacted p_sentinel a, ?_, rfl, length_filter_slots hlen p_sentinel, ?_⟩
  · intro x hx
    rw [spare_compacted] at hx
    exact List.eq_of_mem_replicate hx
  · have hagain := compact_eq hlen' hpos hle p_sentinel
    rw [compacted_compacted] at hagain
    exact hagain

/-- Five slots with 3 as the sentinel, of which only one is said to be in use. -/
theorem five_slots_are_filtered :
    ∃ a', ezarr_compact 3 (⟨[3, 7, 3, 5, 7], 1, 5⟩ : ezarray_t Nat) = some (0, a') ∧
      used a' = [7, 5, 7] ∧ ezarr_compact 3 a' = some (0, a') := by
  obtain ⟨a', he, -, -, hused, -, -, -, hagain⟩ := a_compaction_is_a_stable_filter_in_place
    (a := (⟨[3, 7, 3, 5, 7], 1, 5⟩ : ezarray_t Nat)) (by decide) (by decide) (by decide) 3
  exact ⟨a', he, by simpa using hused, hagain⟩

/-! ## The value last put in a slot -/

/-- The value last put at each position, if any. A push puts its item after the items in use,
and a compaction decides what every slot holds. -/
def last_put (l : α × ArrayCall α) (r : Int × ezarray_t α) (last : Nat → Option α) :
    Nat → Option α :=
  if r.1 ≠ 0 then last
  else match l.2 with
    | .push p_item _ => Function.update last r.2.num_items (some p_item)
    | .set_at idx p_item => Function.update last idx (some p_item)
    | .compact => fun i => (compacted l.1 r.2).pp_buf[i]?

/-- The array, next to the values last put in its slots. A label is a call with the sentinel of a
compaction, and the reply is the result of the call with the array as it was. -/
def slot_machine : machine.Machine (ezarray_t α × (Nat → Option α)) (α × ArrayCall α) :=
  .beside (fun a l => (array_call l.1 a l.2).map fun (res, a') => ((res, a), a')) last_put

/-- A read succeeds exactly where a store would, and gives the value that was last put there. -/
def ReadsWhatWasPut (s : ezarray_t α × (Nat → Option α)) (idx : Nat) : Prop :=
  ∃ res out, ezarr_get_at idx s.1 = some (res, out) ∧
    (∀ p_item, res = 0 ↔ ∃ a', ezarr_set_at idx p_item s.1 = some (0, a')) ∧
    (res = 0 → ∃ v, out = some v ∧ s.2 idx = some v)

/-- What holds between calls: the slots in use hold what was last put there. -/
structure Kept (s : ezarray_t α × (Nat → Option α)) : Prop where
  sized : Sized s.1
  last : ∀ i, i < s.1.num_items → s.2 i = (used s.1)[i]?

omit [DecidableEq α] in
theorem set_at_succeeds_iff {a : ezarray_t α} (ha : Sized a) (idx : Nat) (p_item : α) :
    (∃ a', ezarr_set_at idx p_item a = some (0, a')) ↔ idx < a.num_items := by
  constructor
  · intro h
    by_contra hge
    simp [ezarr_set_at, Nat.le_of_not_lt hge] at h
  · intro hlt
    exact ⟨_, set_at_spec ha hlt p_item⟩

omit [DecidableEq α] in
theorem get_at_spec {a : ezarray_t α} (ha : Sized a) {idx : Nat} (h : idx < a.max_items) :
    ∃ v, a.pp_buf[idx]? = some v ∧ ezarr_get_at idx a = some (0, some v) := by
  have hlt : idx < a.pp_buf.length := by
    rw [ha.len]
    exact h
  refine ⟨a.pp_buf[idx], List.getElem?_eq_getElem hlt, ?_⟩
  simp [ezarr_get_at, Nat.not_le_of_lt h, hlt]

omit [DecidableEq α] in
theorem get_at_past_the_slots {a : ezarray_t α} {idx : Nat} (h : a.max_items ≤ idx) :
    ezarr_get_at idx a = some (-1, none) := if_pos h

omit [DecidableEq α] in
/-- Between the two bounds the getter reads a slot that the setter refuses. -/
theorem reads_iff {s : ezarray_t α × (Nat → Option α)} (hs : Kept s) (idx : Nat) :
    ReadsWhatWasPut s idx ↔ ¬ (s.1.num_items ≤ idx ∧ idx < s.1.max_items) := by
  have ha := hs.sized
  unfold ReadsWhatWasPut
  simp only [set_at_succeeds_iff ha]
  by_cases hmax : idx < s.1.max_items
  · obtain ⟨v, hv, hget⟩ := get_at_spec ha hmax
    rw [hget]
    by_cases hnum : idx < s.1.num_items
    · have hlast : s.2 idx = some v := by
        rw [hs.last idx hnum, used, List.getElem?_take_of_lt hnum, hv]
      apply iff_of_true
      · exact ⟨0, some v, rfl, fun _ => by simp [hnum], fun _ => ⟨v, rfl, hlast⟩⟩
      · simp [hnum]
    · apply iff_of_false
      · rintro ⟨res, out, he, hset, -⟩
        simp only [Option.some.injEq, Prod.mk.injEq] at he
        exact hnum ((hset v).mp he.1.symm)
      · simp [hmax, Nat.le_of_not_lt hnum]
  · have hnum : ¬ idx < s.1.num_items := by
      have hle := ha.num
      omega
    rw [get_at_past_the_slots (Nat.le_of_not_lt hmax)]
    apply iff_of_true
    · exact ⟨-1, none, rfl, fun _ => by simp [hnum], by simp⟩
    · simp [hmax]

/-- Each call ends, and the slots in use after it hold what was last put there. -/
theorem slot_call_spec {s : ezarray_t α × (Nat → Option α)} (hs : Kept s) (l : α × ArrayCall α) :
    ∃ res a', array_call l.1 s.1 l.2 = some (res, a') ∧ Kept (a', last_put l (res, s.1) s.2) := by
  have ha := hs.sized
  have hfail : ∀ l, Kept (s.1, last_put l (-1, s.1) s.2) := fun l => by
    simpa [last_put] using hs
  obtain ⟨p_sentinel, l⟩ := l
  cases l with
  | push p_item grow =>
    rcases push_spec ha grow p_item with ⟨he, -⟩ | ⟨a', he, ha', hused, hnum, -⟩
    · exact ⟨-1, s.1, he, hfail _⟩
    · refine ⟨0, a', he, ha', fun i hi => ?_⟩
      rw [hnum] at hi
      simp only [last_put, ne_eq, not_true_eq_false, if_false, hused]
      by_cases hlast : i = s.1.num_items
      · rw [hlast, Function.update_self, ← ha.length_used, List.getElem?_concat_length]
      · have hlt : i < s.1.num_items := by omega
        rw [Function.update_of_ne hlast, hs.last i hlt, List.getElem?_append_left]
        rwa [ha.length_used]
  | set_at idx p_item =>
    by_cases hi : idx < s.1.num_items
    · refine ⟨0, _, set_at_spec ha hi p_item, ha.set idx p_item, fun i hlt => ?_⟩
      simp only [last_put, ne_eq, not_true_eq_false, if_false, used, List.take_set]
      by_cases hidx : i = idx
      · have hin : idx < (s.1.pp_buf.take s.1.num_items).length := by
          rwa [← used, ha.length_used]
        rw [hidx, Function.update_self, List.getElem?_set_self hin]
      · rw [Function.update_of_ne hidx, hs.last i hlt, List.getElem?_set_ne (Ne.symm hidx), used]
    · exact ⟨-1, s.1, if_pos (Nat.le_of_not_lt hi), hfail _⟩
  | compact =>
    refine ⟨0, _, compact_eq ha.len ha.pos ha.le p_sentinel, ⟨length_compacted ha.len p_sentinel,
      length_filter_slots ha.len p_sentinel, ha.pos, ha.le⟩, fun i hlt => ?_⟩
    simp only [last_put, ne_eq, not_true_eq_false, if_false, used]
    rw [List.getElem?_take_of_lt hlt]

/-- A run goes through, and keeps the values. -/
theorem slot_run_spec {s : ezarray_t α × (Nat → Option α)} (hs : Kept s)
    (ls : List (α × ArrayCall α)) : ∃ s', slot_machine.run s ls = some s' ∧ Kept s' := by
  refine machine.Machine.run_total (C := fun _ _ => True) ?_ hs
    (machine.Machine.meets_of_all (fun _ _ => trivial) _ _)
  intro s l hs _
  obtain ⟨res, a', he, hkept⟩ := slot_call_spec hs l
  exact ⟨_, machine.Machine.beside_step.mpr ⟨(res, s.1), by simp [he], rfl⟩, hkept⟩

/-- In every run from `ezarr_init`, and at every index, a read succeeds exactly where a store
would and gives what was last put there, unless the index is past the items in use and still in
the block. -/
theorem a_read_gives_what_was_put_iff_it_is_not_past_the_items {zero : α} {max_items : Nat}
    {calloc : Bool} {a : ezarray_t α} (hmax : max_items ≤ UINT16_MAX)
    (hinit : ezarr_init zero max_items calloc = (0, some a)) (ls : List (α × ArrayCall α)) :
    ∃ s, slot_machine.run (a, fun _ => none) ls = some s ∧
      ∀ idx, ReadsWhatWasPut s idx ↔ ¬ (s.1.num_items ≤ idx ∧ idx < s.1.max_items) := by
  obtain ⟨hsized, rfl⟩ := init_spec hmax hinit
  obtain ⟨s, hrun, hs⟩ := slot_run_spec (s := (_, fun _ => none)) ⟨hsized, by simp⟩ ls
  exact ⟨s, hrun, reads_iff hs⟩

/-- Three items in an array of one slot, which grows to four. -/
def three_pushes : List (Nat × ArrayCall Nat) :=
  [(0, .push 5 none), (0, .push 6 (some fun _ => 99)), (0, .push 7 (some fun _ => 99))]

theorem three_items_are_read_as_they_were_put :
    ∃ s, slot_machine.run (one_slot, fun _ => none) three_pushes = some s ∧
      ∀ idx, ReadsWhatWasPut s idx ↔ ¬ (s.1.num_items ≤ idx ∧ idx < s.1.max_items) :=
  a_read_gives_what_was_put_iff_it_is_not_past_the_items one_slot_init.1 one_slot_init.2 _

/-- The fourth slot is read with success, though nothing was ever put there. -/
theorem a_read_gives_the_garbage_of_a_realloc :
    ¬ ∀ (max_items : Nat) (calloc : Bool) (a : ezarray_t Nat) (ls : List (Nat × ArrayCall Nat)),
      max_items ≤ UINT16_MAX → ezarr_init 0 max_items calloc = (0, some a) →
        ∃ s, slot_machine.run (a, fun _ => none) ls = some s ∧ ∀ idx, ReadsWhatWasPut s idx := by
  intro h
  obtain ⟨s, hrun, hread⟩ := h 1 true one_slot three_pushes one_slot_init.1 one_slot_init.2
  have hend : (slot_machine.run (one_slot, fun _ => none) three_pushes).map Prod.fst =
      some ⟨[5, 6, 7, 99], 3, 4⟩ := by decide
  rw [hrun] at hend
  obtain ⟨res, out, hget, hset, -⟩ := hread 3
  rw [Option.some.inj hend] at hget hset
  have hres : res = 0 := (congrArg Prod.fst (Option.some.inj hget)).symm
  obtain ⟨a', ha'⟩ := (hset 1).mp hres
  simp [ezarr_set_at] at ha'

end pingpong.ezarray
