-- The growing array of `ezarray.c`, and what each of its calls does to the
-- slots in use.
import PingPong.Common
import PingPong.Lib.Blocks

namespace pingpong.ezarray

open blocks

/-- `pp_buf` is the allocated block. It is empty when the pointer is NULL. -/
structure ezarray_t (α : Type) where
  pp_buf : List α
  num_items : Nat
  max_items : Nat
  deriving DecidableEq, Repr

variable {α : Type}

/-! ## The functions -/

/-- `calloc` gives zeroed slots, or fails. -/
def ezarr_init (zero : α) (max_items : Nat) (calloc : Bool) : Int × Option (ezarray_t α) :=
  if max_items = 0 then (-1, none)
  else if calloc then (0, some ⟨List.replicate max_items zero, 0, max_items⟩)
  else (-1, none)

/-- `grow` is what `realloc` does: it fails, or leaves some values in the new slots. -/
def ezarr_resize (grow : Option (Nat → α)) (a : ezarray_t α) : Int × ezarray_t α :=
  match new_max a.num_items, grow with
  | some n, some fill => (0, { a with pp_buf := realloc a.pp_buf n fill, max_items := n })
  | _, _ => (-1, a)

/-- A write outside of the block is `none`. -/
def ezarr_push (grow : Option (Nat → α)) (p_item : α) (a : ezarray_t α) :
    Option (Int × ezarray_t α) :=
  let (res, a) := if a.num_items = a.max_items then ezarr_resize grow a else (0, a)
  if res ≠ 0 then some (res, a)
  else (store a.pp_buf a.num_items p_item).map fun buf =>
    (0, { a with pp_buf := buf, num_items := u16 (a.num_items + 1) })

def ezarr_set_at (idx : Nat) (p_item : α) (a : ezarray_t α) : Option (Int × ezarray_t α) :=
  if a.num_items ≤ idx then some (-1, a)
  else (store a.pp_buf idx p_item).map fun buf => (0, { a with pp_buf := buf })

/-- The item is only given on success. A read outside of the block is `none`. -/
def ezarr_get_at (idx : Nat) (a : ezarray_t α) : Option (Int × Option α) :=
  if a.max_items ≤ idx then some (-1, none)
  else a.pp_buf[idx]?.map fun x => (0, some x)

/-- The loop reads all `max_items` slots, also those that are not in use. -/
def ezarr_compact [DecidableEq α] (p_sentinel : α) (a : ezarray_t α) :
    Option (Int × ezarray_t α) :=
  if a.max_items = 0 then some (-1, a)
  else
    (squeeze (fun i => u16 (i + 1)) (fun x => x != p_sentinel) p_sentinel a.max_items
      (a.max_items + 1) 0 0 a.pp_buf).map fun (buf, write_idx) =>
      (0, { a with pp_buf := buf, num_items := write_idx })

/-! ## What holds of an array between calls -/

/-- The items are in a block of `max_items` slots. -/
structure Sized (a : ezarray_t α) : Prop where
  len : a.pp_buf.length = a.max_items
  num : a.num_items ≤ a.max_items
  pos : 0 < a.max_items
  le : a.max_items ≤ UINT16_MAX

/-- The slots in use. -/
def used (a : ezarray_t α) : List α := a.pp_buf.take a.num_items

/-- The slots that are not in use. -/
def spare (a : ezarray_t α) : List α := a.pp_buf.drop a.num_items

theorem used_append_spare (a : ezarray_t α) : used a ++ spare a = a.pp_buf :=
  List.take_append_drop ..

theorem Sized.length_used {a : ezarray_t α} (h : Sized a) : (used a).length = a.num_items := by
  rw [used, List.length_take, h.len]
  exact Nat.min_eq_left h.num

theorem init_spec {zero : α} {n : Nat} {ok : Bool} {a : ezarray_t α} (hn : n ≤ UINT16_MAX)
    (h : ezarr_init zero n ok = (0, some a)) :
    Sized a ∧ a = ⟨List.replicate n zero, 0, n⟩ := by
  unfold ezarr_init at h
  split at h
  · cases h
  · split at h
    · cases h
      exact ⟨⟨List.length_replicate .., Nat.zero_le _, Nat.pos_of_ne_zero ‹_›, hn⟩, rfl⟩
    · cases h

/-- The capacity after a push to an array of `n` items and `m` slots. -/
def capacity (n m : Nat) : Nat := if n = m then (new_max n).getD m else m

/-- A push ends, inside of the block. It fails and changes nothing, when the array is full
and cannot grow, or it adds the item after those in use. The slots after it are as before, or
those of the `realloc`. -/
theorem push_spec {a : ezarray_t α} (ha : Sized a) (grow : Option (Nat → α)) (x : α) :
    (ezarr_push grow x a = some (-1, a) ∧ a.num_items = a.max_items ∧
      (a.max_items = UINT16_MAX ∨ grow = none)) ∨
    ∃ a', ezarr_push grow x a = some (0, a') ∧ Sized a' ∧ used a' = used a ++ [x] ∧
      a'.num_items = a.num_items + 1 ∧ a'.max_items = capacity a.num_items a.max_items ∧
      ∀ y ∈ spare a', y ∈ spare a ∨ ∃ fill i, grow = some fill ∧ y = fill i := by
  have hstore : ∀ (c : ezarray_t α), Sized c → c.num_items < c.max_items →
      ∃ a', (store c.pp_buf c.num_items x).map (fun buf =>
        ((0 : Int), { c with pp_buf := buf, num_items := u16 (c.num_items + 1) })) = some (0, a') ∧
        Sized a' ∧ used a' = used c ++ [x] ∧ a'.num_items = c.num_items + 1 ∧
        a'.max_items = c.max_items ∧
        spare a' = (c.pp_buf.set c.num_items x).drop (c.num_items + 1) := by
    intro c hc hlt
    have hu : u16 (c.num_items + 1) = c.num_items + 1 := u16_of_le (Nat.le_trans hlt hc.le)
    have hin : c.num_items < c.pp_buf.length := hc.len.symm ▸ hlt
    rw [store_of_lt hin, hu]
    exact ⟨_, rfl, ⟨(List.length_set ..).trans hc.len, hlt, hc.pos, hc.le⟩,
      take_set_succ hin x, rfl, rfl, rfl⟩
  unfold ezarr_push capacity
  by_cases hfull : a.num_items = a.max_items
  · simp only [if_pos hfull, ezarr_resize]
    cases hnew : new_max a.num_items with
    | none => exact Or.inl ⟨rfl, hfull, Or.inl (hfull ▸ new_max_eq_none.mp hnew)⟩
    | some n =>
      cases grow with
      | none => exact Or.inl ⟨rfl, hfull, Or.inr rfl⟩
      | some fill =>
        obtain ⟨hle, hmax, hlt⟩ := new_max_spec (Nat.le_trans ha.num ha.le) hnew
        have hlt : a.num_items < n := hlt (hfull ▸ ha.pos)
        have hin : a.num_items ≤ a.pp_buf.length := Nat.le_of_eq (hfull.trans ha.len.symm)
        obtain ⟨a', he, hs, hu, hnum, hmax', hspare⟩ := hstore
          { a with pp_buf := realloc a.pp_buf n fill, max_items := n }
          ⟨length_realloc .., Nat.le_of_lt hlt, Nat.zero_lt_of_lt hlt, hmax⟩ hlt
        refine Or.inr ⟨a', he, hs, hu.trans ?_, hnum, hmax', fun y hy => ?_⟩
        · exact congrArg (· ++ [x]) (take_realloc fill hin (by rw [ha.len]; omega))
        · rw [hspare] at hy
          exact (mem_drop_set_realloc hy).imp_right fun ⟨i, hi⟩ => ⟨fill, i, rfl, hi⟩
  · simp only [if_neg hfull]
    obtain ⟨a', he, hs, hu, hnum, hmax', hspare⟩ :=
      hstore a ha (Nat.lt_of_le_of_ne ha.num hfull)
    refine Or.inr ⟨a', he, hs, hu, hnum, hmax', fun y hy => Or.inl ?_⟩
    rw [hspare] at hy
    exact mem_drop_set hy

theorem set_at_spec {a : ezarray_t α} (ha : Sized a) {i : Nat} (hi : i < a.num_items) (x : α) :
    ezarr_set_at i x a = some (0, { a with pp_buf := a.pp_buf.set i x }) := by
  have hin : i < a.pp_buf.length := by
    rw [ha.len]
    exact Nat.lt_of_lt_of_le hi ha.num
  rw [ezarr_set_at, if_neg (by omega), store_of_lt hin]
  rfl

theorem Sized.set {a : ezarray_t α} (ha : Sized a) (i : Nat) (x : α) :
    Sized { a with pp_buf := a.pp_buf.set i x } :=
  ⟨(List.length_set ..).trans ha.len, ha.num, ha.pos, ha.le⟩

/-- The items that are not the sentinel, of all the slots, and the sentinel in the slots after
them. -/
def compacted [DecidableEq α] (p_sentinel : α) (a : ezarray_t α) : ezarray_t α :=
  let kept := a.pp_buf.filter fun x => x != p_sentinel
  ⟨kept ++ List.replicate (a.max_items - kept.length) p_sentinel, kept.length, a.max_items⟩

/-- A compaction ends, whatever `num_items` says of the slots: no index wraps. -/
theorem compact_eq [DecidableEq α] {a : ezarray_t α} (hlen : a.pp_buf.length = a.max_items)
    (hpos : 0 < a.max_items) (hle : a.max_items ≤ UINT16_MAX) (p_sentinel : α) :
    ezarr_compact p_sentinel a = some (0, compacted p_sentinel a) := by
  have hnext : ∀ i, i < a.max_items → u16 (i + 1) = i + 1 := fun i hi =>
    u16_of_le (Nat.le_trans hi hle)
  obtain ⟨gone, hgone, hmax, he⟩ := squeeze_spec (fun x => x != p_sentinel)
    p_sentinel hnext hlen (Nat.lt_succ_self _)
  have hblank : gone = List.replicate gone.length p_sentinel := by
    apply List.eq_replicate_of_mem
    intro x hx
    rcases hgone x hx with h | ⟨-, h⟩
    · exact h
    · simpa using h
  have hcount : a.max_items - (a.pp_buf.filter fun x => x != p_sentinel).length = gone.length := by
    rw [List.length_append] at hmax
    omega
  rw [ezarr_compact, if_neg (Nat.ne_of_gt hpos), he, compacted, hcount, ← hblank]
  rfl

theorem length_filter_slots [DecidableEq α] {a : ezarray_t α}
    (hlen : a.pp_buf.length = a.max_items) (p_sentinel : α) :
    (a.pp_buf.filter fun x => x != p_sentinel).length ≤ a.max_items := by
  rw [← hlen]
  exact List.length_filter_le ..

theorem length_compacted [DecidableEq α] {a : ezarray_t α}
    (hlen : a.pp_buf.length = a.max_items) (p_sentinel : α) :
    (compacted p_sentinel a).pp_buf.length = a.max_items := by
  have h := length_filter_slots hlen p_sentinel
  simp only [compacted, List.length_append, List.length_replicate]
  omega

@[simp] theorem used_compacted [DecidableEq α] (p_sentinel : α) (a : ezarray_t α) :
    used (compacted p_sentinel a) = a.pp_buf.filter fun x => x != p_sentinel :=
  List.take_left

@[simp] theorem spare_compacted [DecidableEq α] (p_sentinel : α) (a : ezarray_t α) :
    spare (compacted p_sentinel a) = List.replicate
      (a.max_items - (a.pp_buf.filter fun x => x != p_sentinel).length) p_sentinel :=
  List.drop_left

/-- A compacted array has nothing left to compact. -/
@[simp] theorem compacted_compacted [DecidableEq α] (p_sentinel : α) (a : ezarray_t α) :
    compacted p_sentinel (compacted p_sentinel a) = compacted p_sentinel a := by
  simp [compacted, List.filter_append, List.filter_filter]

/-- A compaction keeps the items that are not the sentinel, of all the slots, and the slots
after them hold the sentinel. -/
theorem compact_spec [DecidableEq α] {a : ezarray_t α} (ha : Sized a) (p_sentinel : α) :
    ∃ a', ezarr_compact p_sentinel a = some (0, a') ∧ Sized a' ∧
      used a' = a.pp_buf.filter (fun x => x != p_sentinel) ∧
      (∀ x ∈ spare a', x = p_sentinel) ∧ a'.max_items = a.max_items := by
  refine ⟨_, compact_eq ha.len ha.pos ha.le p_sentinel, ⟨length_compacted ha.len p_sentinel,
    length_filter_slots ha.len p_sentinel, ha.pos, ha.le⟩, used_compacted p_sentinel a, ?_, rfl⟩
  intro x hx
  rw [spare_compacted] at hx
  exact List.eq_of_mem_replicate hx

end pingpong.ezarray
