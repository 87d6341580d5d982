-- The laws of the array and of the queue: each is next to a plain list that
-- follows its calls.
import PingPong.EzArray
import PingPong.EzQueue
import PingPong.Lib.Machine

/-! ## The array -/

namespace pingpong.ezarray

variable {α : Type}

/-- A call on an array, and what the `realloc` of a push does. -/
inductive ArrayCall (α : Type)
  | push (p_item : α) (grow : Option (Nat → α))
  | set_at (idx : Nat) (p_item : α)
  | compact

variable [DecidableEq α]

/-- The compaction is that of the manager, with the sentinel NULL. -/
def array_call (NULL : α) (a : ezarray_t α) : ArrayCall α → Option (Int × ezarray_t α)
  | .push p_item grow => ezarr_push grow p_item a
  | .set_at idx p_item => ezarr_set_at idx p_item a
  | .compact => ezarr_compact NULL a

/-- What the call means for a list. -/
def call_on_list (NULL : α) (l : ArrayCall α) (res : Int) (xs : List α) : List α :=
  if res ≠ 0 then xs
  else match l with
    | .push p_item _ => xs ++ [p_item]
    | .set_at idx p_item => xs.set idx p_item
    | .compact => xs.filter fun x => x != NULL

/-- The array, next to the list. -/
def array_machine (NULL : α) : machine.Machine (ezarray_t α × List α) (ArrayCall α) :=
  .beside (array_call NULL) (call_on_list NULL)

omit [DecidableEq α] in
/-- Why a call may fail. -/
def MayFail (a : ezarray_t α) : ArrayCall α → Prop
  | .push _ grow => a.num_items = a.max_items ∧ (a.max_items = UINT16_MAX ∨ grow = none)
  | .set_at idx _ => a.num_items ≤ idx
  | .compact => False

/-- The slots in use are the list, before the call and after it. A call that fails has a reason,
and changes nothing. -/
def HoldsTheList (NULL : α) (s : ezarray_t α × List α) (l : ArrayCall α) : Prop :=
  used s.1 = s.2 ∧ ∃ res a, array_call NULL s.1 l = some (res, a) ∧
    used a = call_on_list NULL l res s.2 ∧ (res ≠ 0 → a = s.1 ∧ MayFail s.1 l)

/-- A compaction starts with empty slots after those in use. -/
def CompactsClean (NULL : α) (s : ezarray_t α × List α) : ArrayCall α → Prop
  | .compact => ∀ x ∈ spare s.1, x = NULL
  | _ => True

instance (NULL : α) (s : ezarray_t α × List α) : DecidablePred (CompactsClean NULL s)
  | .compact => inferInstanceAs (Decidable (∀ x ∈ spare s.1, x = NULL))
  | .push _ _ | .set_at _ _ => inferInstanceAs (Decidable True)

/-- The items that are kept are those in use exactly when all other slots are empty. -/
theorem filter_slots_iff (NULL : α) (a : ezarray_t α) :
    (a.pp_buf.filter fun x => x != NULL) = (used a).filter (fun x => x != NULL) ↔
      ∀ x ∈ spare a, x = NULL := by
  rw [← used_append_spare a, List.filter_append, List.append_right_eq_self,
    List.filter_eq_nil_iff]
  simp

/-- Each call ends, and does what it means for the list but for a compaction of stale slots. -/
theorem call_spec (NULL : α) {s : ezarray_t α × List α} (hs : Sized s.1) (hu : used s.1 = s.2)
    (l : ArrayCall α) :
    ∃ res a, array_call NULL s.1 l = some (res, a) ∧ Sized a ∧
      (res ≠ 0 → a = s.1 ∧ MayFail s.1 l) ∧
      (used a = call_on_list NULL l res s.2 ↔ CompactsClean NULL s l) := by
  rw [← hu]
  cases l with
  | push p_item grow =>
    rcases push_spec hs grow p_item with ⟨he, hwhy⟩ | ⟨a, he, ha, hua, -⟩
    · exact ⟨-1, s.1, he, hs, fun _ => ⟨rfl, hwhy⟩, iff_of_true rfl trivial⟩
    · exact ⟨0, a, he, ha, fun h => absurd rfl h, iff_of_true hua trivial⟩
  | set_at idx p_item =>
    by_cases hi : idx < s.1.num_items
    · exact ⟨0, _, set_at_spec hs hi p_item, hs.set idx p_item, fun h => absurd rfl h,
        iff_of_true List.take_set trivial⟩
    · have hi := Nat.le_of_not_lt hi
      exact ⟨-1, s.1, if_pos hi, hs, fun _ => ⟨rfl, hi⟩, iff_of_true rfl trivial⟩
  | compact =>
    obtain ⟨a, he, ha, hua, -, -⟩ := compact_spec hs NULL
    refine ⟨0, a, he, ha, fun h => absurd rfl h, ?_⟩
    rw [hua]
    exact filter_slots_iff NULL s.1

theorem holdsTheList_iff {NULL : α} {s : ezarray_t α × List α} {l : ArrayCall α}
    (hs : Sized s.1) (hu : used s.1 = s.2) : HoldsTheList NULL s l ↔ CompactsClean NULL s l := by
  obtain ⟨res, a, he, -, hfail, hlist⟩ := call_spec NULL hs hu l
  unfold HoldsTheList
  rw [← hlist]
  constructor
  · rintro ⟨-, res', a', he', hu', -⟩
    rw [he] at he'
    cases he'
    exact hu'
  · exact fun hu' => ⟨hu, res, a, he, hu', hfail⟩

/-- In every run from `ezarr_init`, the slots in use are the list that the same calls make,
exactly when every compaction starts with empty slots after those in use. -/
theorem the_array_holds_what_was_stored_iff_it_compacts_clean {NULL : α} {max_items : Nat}
    {calloc : Bool} {a : ezarray_t α} {ls : List (ArrayCall α)} (hmax : max_items ≤ UINT16_MAX)
    (hinit : ezarr_init NULL max_items calloc = (0, some a)) :
    (array_machine NULL).Meets (HoldsTheList NULL) (a, []) ls ↔
      (array_machine NULL).Meets (CompactsClean NULL) (a, []) ls := by
  obtain ⟨hs, rfl⟩ := init_spec hmax hinit
  refine machine.Machine.meets_iff (C := fun _ _ => True)
    (P := fun s => Sized s.1 ∧ used s.1 = s.2)
    (fun s l hP _ => holdsTheList_iff hP.1 hP.2) ?_ ⟨hs, rfl⟩
    (machine.Machine.meets_of_all (fun _ _ => trivial) _ _)
  intro s l s' hP _ hclean hstep
  obtain ⟨res, hcall, hlist⟩ := machine.Machine.beside_step.mp hstep
  obtain ⟨res', a, he, ha, -, hiff⟩ := call_spec NULL hP.1 hP.2 l
  rw [hcall] at he
  cases he
  exact ⟨ha, (hiff.mpr hclean).trans hlist.symm⟩

/-- An array of one slot. -/
def one_slot : ezarray_t Nat := ⟨[0], 0, 1⟩

theorem one_slot_init : 1 ≤ UINT16_MAX ∧ ezarr_init 0 1 true = (0, some one_slot) := by decide

/-- The array grows once, and is full when it compacts. -/
theorem a_full_array_compacts_to_its_items :
    (array_machine 0).Meets (HoldsTheList 0) (one_slot, [])
      [.push 5 none, .push 6 (some fun _ => 99), .set_at 0 0, .compact, .push 7 none] :=
  (the_array_holds_what_was_stored_iff_it_compacts_clean one_slot_init.1 one_slot_init.2).mpr
    (by decide)

/-- With a third item the array grows to four slots, and the last one holds an old value. -/
theorem a_compaction_makes_an_item_of_a_stale_slot :
    ¬ ∀ (max_items : Nat) (calloc : Bool) (a : ezarray_t Nat) (ls : List (ArrayCall Nat)),
      max_items ≤ UINT16_MAX → ezarr_init 0 max_items calloc = (0, some a) →
        (array_machine 0).Meets (HoldsTheList 0) (a, []) ls := by
  intro h
  have hclean : (array_machine 0).Meets (CompactsClean 0) (one_slot, [])
      [.push 5 none, .push 6 (some fun _ => 99), .push 7 (some fun _ => 99), .compact] :=
    (the_array_holds_what_was_stored_iff_it_compacts_clean one_slot_init.1 one_slot_init.2).mp
      (h 1 true one_slot _ one_slot_init.1 one_slot_init.2)
  revert hclean
  decide

end pingpong.ezarray

/-! ## The queue -/

namespace pingpong.ezqueue

variable {α : Type}

/-- A call on a queue, what the `malloc` of an enqueue does, and whether a clear has a function
that frees the items. -/
inductive QueueCall (α : Type)
  | enqueue (p_item : α) (grow : Option (Nat → α))
  | dequeue
  | clear (free_func : Bool)

/-- The result of a call, the item that it gives, and those passed to `free_func`. -/
structure Reply (α : Type) where
  res : Int
  item : Option α
  freed : List α
  deriving DecidableEq, Repr

variable [DecidableEq α]

/-- A `free_func` that records its items. -/
def record_item (p_item : α) (freed : List α) : Option (List α) := some (freed ++ [p_item])

def queue_call (NULL : α) (q : ezqueue_t α) : QueueCall α → Option (Reply α × ezqueue_t α)
  | .enqueue p_item grow => (ezq_enqueue grow p_item q).map fun (res, q) => (⟨res, none, []⟩, q)
  | .dequeue => (ezq_dequeue q).map fun (res, item, q) => (⟨res, item, []⟩, q)
  | .clear free_func =>
      (ezq_clear NULL (if free_func then some record_item else none) q []).map
        fun (res, q, freed) => (⟨res, none, freed⟩, q)

omit [DecidableEq α] in
/-- What the call means for a list. -/
def call_on_list (l : QueueCall α) (r : Reply α) (xs : List α) : List α :=
  if r.res ≠ 0 then xs
  else match l with
    | .enqueue p_item _ => xs ++ [p_item]
    | .dequeue => xs.tail
    | .clear _ => []

/-- The queue, next to the list. -/
def queue_machine (NULL : α) : machine.Machine (ezqueue_t α × List α) (QueueCall α) :=
  .beside (queue_call NULL) call_on_list

/-- The reply to a call, when the list is `xs`. An enqueue fails only when the queue is full and
cannot grow. -/
def ReplyFits (NULL : α) (q : ezqueue_t α) (xs : List α) (r : Reply α) : QueueCall α → Prop
  | .enqueue _ grow => r.freed = [] ∧
      (r.res ≠ 0 → q.num_items = q.max_items ∧ (q.max_items = UINT16_MAX ∨ grow = none))
  | .dequeue => r.freed = [] ∧ r.item = xs.head? ∧ (r.res = 0 ↔ xs ≠ [])
  | .clear free_func => r.res = 0 ∧
      r.freed = if free_func then xs.filter (fun x => x != NULL) else []

/-- The content is the list, and the indices are in the block. -/
structure IsList (q : ezqueue_t α) (xs : List α) : Prop where
  content : content q = xs
  num : q.num_items = xs.length
  block : q.pp_buf.length = q.max_items
  inside : xs ≠ [] → q.idx_head < q.max_items ∧ q.idx_tail < q.max_items

omit [DecidableEq α] in
theorem Ring.isList {q : ezqueue_t α} {xs : List α} (h : Ring q) (hx : content q = xs) :
    IsList q xs where
  content := hx
  num := hx ▸ h.length_content.symm
  block := h.len
  inside hne := by
    have hpos : 0 < q.num_items := by
      rw [← h.length_content, hx]
      exact List.length_pos_iff.mpr hne
    refine ⟨h.head hpos, ?_⟩
    rw [h.tail hpos]
    exact Nat.mod_lt _ h.pos

omit [DecidableEq α] in
theorem foldlM_record (xs freed : List α) :
    xs.foldlM (fun s x => record_item x s) freed = some (freed ++ xs) := by
  induction xs generalizing freed with
  | nil => rw [List.append_nil]; rfl
  | cons x xs ih =>
    rw [List.foldlM_cons, record_item, Option.bind_eq_bind, Option.bind_some, ih]
    rw [List.append_assoc, List.singleton_append]

theorem foldlM_pass_none (NULL : α) (xs : List α) (s : List α) :
    xs.foldlM (fun s x => pass_item NULL none x s) s = some s := by
  induction xs with
  | nil => rfl
  | cons x xs ih => exact ih

/-- Each call ends, and does what it means for the list. -/
theorem call_spec (NULL : α) {q : ezqueue_t α} (hq : Ring q) (l : QueueCall α) :
    ∃ r q', queue_call NULL q l = some (r, q') ∧ Ring q' ∧
      content q' = call_on_list l r (content q) ∧ (r.res ≠ 0 → q' = q) ∧
      ReplyFits NULL q (content q) r l := by
  cases l with
  | enqueue p_item grow =>
    rcases enqueue_spec hq grow p_item with ⟨he, hwhy⟩ | ⟨q', he, hq', hcont⟩
    · exact ⟨⟨-1, none, []⟩, q, by rw [queue_call, he]; rfl, hq, rfl, fun _ => rfl, rfl,
        fun _ => hwhy⟩
    · exact ⟨⟨0, none, []⟩, q', by rw [queue_call, he]; rfl, hq', hcont, fun h => absurd rfl h,
        rfl, fun h => absurd rfl h⟩
  | dequeue =>
    by_cases h0 : 0 < q.num_items
    · obtain ⟨x, q', he, hq', hcont, -⟩ := dequeue_spec hq h0
      refine ⟨⟨0, some x, []⟩, q', by rw [queue_call, he]; rfl, hq', ?_, fun h => absurd rfl h,
        rfl, ?_, ?_⟩
      · rw [hcont]
        rfl
      · rw [hcont]
        rfl
      · rw [hcont]
        simp
    · have h0 := Nat.eq_zero_of_not_pos h0
      have hempty : content q = [] := List.length_eq_zero_iff.mp (hq.length_content.trans h0)
      refine ⟨⟨-1, none, []⟩, q, ?_, hq, rfl, fun _ => rfl, rfl, ?_, ?_⟩
      · rw [queue_call, ezq_dequeue, if_pos h0]
        rfl
      · rw [hempty]
        rfl
      · rw [hempty]
        simp
  | clear free_func =>
    have hpass : (content q).foldlM
        (fun s x => pass_item NULL (if free_func then some record_item else none) x s) [] =
          some (if free_func then (content q).filter (fun x => x != NULL) else []) := by
      cases free_func with
      | false => exact foldlM_pass_none NULL _ _
      | true => exact (foldlM_pass_item NULL record_item _ _).trans (foldlM_record _ _)
    obtain ⟨q', he, hq', hcont⟩ := clear_spec _ _ hq hpass
    exact ⟨⟨0, none, _⟩, q', by rw [queue_call, he]; rfl, hq', hcont, fun h => absurd rfl h,
      rfl, rfl⟩

/-- In every run from `ezq_init` the queue is the list that the same calls make, first in, first
out, and stays in its block. A call that fails changes nothing. -/
theorem the_queue_is_first_in_first_out {NULL : α} {max_items : Nat} {mem : Option (Nat → α)}
    {q : ezqueue_t α} {ls : List (QueueCall α)} {s : ezqueue_t α × List α}
    (hmax : max_items ≤ UINT16_MAX) (hinit : ezq_init max_items mem = (0, some q))
    (hrun : (queue_machine NULL).run (q, []) ls = some s) :
    IsList s.1 s.2 ∧ ∀ l, ∃ r q', queue_call NULL s.1 l = some (r, q') ∧
      IsList q' (call_on_list l r s.2) ∧ (r.res ≠ 0 → q' = s.1) ∧ ReplyFits NULL s.1 s.2 r l := by
  have hinv : Ring s.1 ∧ content s.1 = s.2 := by
    refine machine.Machine.run_invariant (P := fun s => Ring s.1 ∧ content s.1 = s.2)
      (C := fun _ _ => True) ?_ (init_spec hmax hinit)
      (machine.Machine.meets_of_all (fun _ _ => trivial) _ _) hrun
    intro s l s' hP _ hstep
    obtain ⟨r, hcall, hlist⟩ := machine.Machine.beside_step.mp hstep
    obtain ⟨r', q', he, hq', hcont, -⟩ := call_spec NULL hP.1 l
    rw [hcall] at he
    cases he
    exact ⟨hq', by rw [hcont, hlist, hP.2]⟩
  refine ⟨hinv.1.isList hinv.2, fun l => ?_⟩
  obtain ⟨r, q', he, hq', hcont, hsame, hfits⟩ := call_spec NULL hinv.1 l
  rw [hinv.2] at hcont hfits
  exact ⟨r, q', he, hq'.isList hcont, hsame, hfits⟩

/-- A queue of two slots that wraps, grows from there, and is cleared. -/
def wrap_calls : List (QueueCall Nat) :=
  [.enqueue 5 none, .enqueue 6 none, .dequeue, .enqueue 7 none, .enqueue 8 none,
    .enqueue 8 (some fun _ => 99)]

theorem a_queue_that_wraps_and_grows :
    ∃ s, (queue_machine 0).run (⟨[0, 0], 0, 2, UINT16_MAX, UINT16_MAX⟩, []) wrap_calls = some s ∧
      s.2 = [6, 7, 8] ∧ s.1.max_items = 4 ∧ IsList s.1 s.2 := by
  have hinit : ezq_init 2 (some fun _ => 0) =
      (0, some (⟨[0, 0], 0, 2, UINT16_MAX, UINT16_MAX⟩ : ezqueue_t Nat)) := rfl
  have hrun : (queue_machine 0).run (⟨[0, 0], 0, 2, UINT16_MAX, UINT16_MAX⟩, []) wrap_calls =
      some (⟨[6, 7, 8, 99], 3, 4, 0, 2⟩, [6, 7, 8]) := by decide
  exact ⟨_, hrun, rfl, rfl, (the_queue_is_first_in_first_out (by decide) hinit hrun).1⟩

end pingpong.ezqueue
