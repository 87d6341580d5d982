-- The ring queue of `ezqueue.c`, and its content as a list.
import PingPong.Common
import PingPong.Lib.Blocks

namespace pingpong.ezqueue

open blocks

/-- `pp_buf` is the allocated block. It is empty when the pointer is NULL. -/
structure ezqueue_t (α : Type) where
  pp_buf : List α
  num_items : Nat
  max_items : Nat
  idx_head : Nat
  idx_tail : Nat
  deriving DecidableEq, Repr

variable {α : Type}

/-! ## The functions -/

/-- `malloc` fails, or leaves some values in the slots. -/
def malloc_slots (n : Nat) (mem : Option (Nat → α)) : Option (List α) :=
  mem.map fun fill => (List.range n).map fill

/-- The indices of an empty queue are -1, as a `uint16_t` keeps it. -/
def ezq_init (max_items : Nat) (mem : Option (Nat → α)) : Int × Option (ezqueue_t α) :=
  if max_items = 0 then (-1, none)
  else match malloc_slots max_items mem with
    | none => (-1, none)
    | some buf => (0, some ⟨buf, 0, max_items, UINT16_MAX, UINT16_MAX⟩)

/-- The loop of `ezq_resize`, from slot `idx` of the new block on. -/
def copy_slots (q : ezqueue_t α) : Nat → Nat → List α → Option (List α)
  | 0, _, newbuf => some newbuf
  | n + 1, idx, newbuf =>
    q.pp_buf[(q.idx_head + idx) % q.max_items]?.bind fun x =>
      (store newbuf idx x).bind fun newbuf => copy_slots q n (idx + 1) newbuf

/-- `grow` is what `malloc` of the new block does. -/
def ezq_resize (grow : Option (Nat → α)) (q : ezqueue_t α) : Option (Int × ezqueue_t α) :=
  match new_max q.max_items with
  | none => some (-1, q)
  | some n =>
    match malloc_slots n grow with
    | none => some (-1, q)
    | some newbuf => (copy_slots q q.num_items 0 newbuf).map fun buf =>
        (0, { q with
          pp_buf := buf
          max_items := n
          idx_head := 0
          idx_tail := u16 (q.num_items + UINT16_MAX) })

/-- A read or a write outside of a block is `none`. -/
def ezq_enqueue (grow : Option (Nat → α)) (p_item : α) (q : ezqueue_t α) :
    Option (Int × ezqueue_t α) :=
  (if q.num_items = q.max_items then ezq_resize grow q else some (0, q)).bind fun (res, q) =>
    if res ≠ 0 then some (res, q)
    else
      let q := if q.num_items = 0 then { q with idx_head := 0, idx_tail := 0 }
        else { q with idx_tail := (q.idx_tail + 1) % q.max_items }
      (store q.pp_buf q.idx_tail p_item).map fun buf =>
        (0, { q with pp_buf := buf, num_items := u16 (q.num_items + 1) })

/-- The item is only given on success. -/
def ezq_dequeue (q : ezqueue_t α) : Option (Int × Option α × ezqueue_t α) :=
  if q.num_items = 0 then some (-1, none, q)
  else q.pp_buf[q.idx_head]?.map fun x =>
    let q := if q.num_items = 1 then { q with idx_head := UINT16_MAX, idx_tail := UINT16_MAX }
      else { q with idx_head := (q.idx_head + 1) % q.max_items }
    (0, some x, { q with num_items := q.num_items - 1 })

/-- The call of `free_func` in `ezq_clear`. It works on a state of its own, and is `none` when
it has no meaning. -/
def pass_item {σ : Type} [DecidableEq α] (NULL : α) (free_func : Option (α → σ → Option σ))
    (p_item : α) (s : σ) : Option σ :=
  match free_func with
  | some f => if p_item ≠ NULL then f p_item s else some s
  | none => some s

/-- The loop of `ezq_clear`. A dequeue that fails leaves the item NULL. -/
def clear_each {σ : Type} [DecidableEq α] (NULL : α) (free_func : Option (α → σ → Option σ)) :
    Nat → ezqueue_t α → σ → Option (ezqueue_t α × σ)
  | 0, _, _ => none
  | turns + 1, q, s =>
    if 0 < q.num_items then
      (ezq_dequeue q).bind fun (_, item, q) =>
        (pass_item NULL free_func (item.getD NULL) s).bind (clear_each NULL free_func turns q)
    else some (q, s)

def ezq_clear {σ : Type} [DecidableEq α] (NULL : α) (free_func : Option (α → σ → Option σ))
    (q : ezqueue_t α) (s : σ) : Option (Int × ezqueue_t α × σ) :=
  (clear_each NULL free_func (q.num_items + 1) q s).map fun (q, s) => (0, q, s)

/-! ## What holds of a queue between calls -/

/-- The items in order: the ring of slots from the head on. -/
def content (q : ezqueue_t α) : List α := ring q.pp_buf q.idx_head q.num_items

/-- The block has `max_items` slots, and a queue that is not empty has its
first and last item at the two indices. -/
structure Ring (q : ezqueue_t α) : Prop where
  len : q.pp_buf.length = q.max_items
  num : q.num_items ≤ q.max_items
  pos : 0 < q.max_items
  le : q.max_items ≤ UINT16_MAX
  head : 0 < q.num_items → q.idx_head < q.max_items
  tail : 0 < q.num_items → q.idx_tail = (q.idx_head + (q.num_items - 1)) % q.max_items

theorem Ring.length_content {q : ezqueue_t α} (h : Ring q) :
    (content q).length = q.num_items := length_ring (h.len ▸ h.num)

theorem init_spec {n : Nat} {mem : Option (Nat → α)} {q : ezqueue_t α} (hn : n ≤ UINT16_MAX)
    (h : ezq_init n mem = (0, some q)) : Ring q ∧ content q = [] := by
  unfold ezq_init at h
  split at h
  · cases h
  · cases mem with
    | none => cases h
    | some fill =>
      cases h
      refine ⟨⟨by simp, Nat.zero_le _, Nat.pos_of_ne_zero ‹_›, hn, ?_, ?_⟩, ring_zero ..⟩
      · exact fun h0 => absurd h0 (Nat.lt_irrefl 0)
      · exact fun h0 => absurd h0 (Nat.lt_irrefl 0)

/-- The copy puts the items in order in the new block. -/
theorem copy_spec {q : ezqueue_t α} (hq : Ring q) (n : Nat) : ∀ (idx : Nat) (buf : List α),
    idx + n = q.num_items → q.num_items ≤ buf.length →
    buf.take idx = (content q).take idx →
    ∃ buf', copy_slots q n idx buf = some buf' ∧ buf'.length = buf.length ∧
      buf'.take q.num_items = content q := by
  induction n with
  | zero =>
    intro idx buf hidx hlen htake
    refine ⟨buf, rfl, rfl, ?_⟩
    rw [← hidx, Nat.add_zero, htake]
    exact List.take_of_length_le (by rw [hq.length_content]; omega)
  | succ n ih =>
    intro idx buf hidx hlen htake
    have hin : (q.idx_head + idx) % q.max_items < q.pp_buf.length := by
      rw [hq.len]
      exact Nat.mod_lt _ hq.pos
    have hslot : (content q)[idx]? = some q.pp_buf[(q.idx_head + idx) % q.max_items] := by
      rw [content, getElem?_ring (by omega) (hq.len ▸ hq.num), hq.len]
      exact List.getElem?_eq_getElem hin
    have hbuf : idx < buf.length := by omega
    simp only [copy_slots, List.getElem?_eq_getElem hin, Option.bind_some, store_of_lt hbuf]
    obtain ⟨buf', he, hlen', htake'⟩ := ih (idx + 1)
      (buf.set idx q.pp_buf[(q.idx_head + idx) % q.max_items]) (by omega)
      (by rw [List.length_set]; exact hlen)
      (by rw [take_set_succ hbuf, htake, List.take_add_one, hslot]; rfl)
    exact ⟨buf', he, hlen'.trans (List.length_set ..), htake'⟩

/-- A resize ends, inside of the blocks. It fails and changes nothing, or the
queue has the same content and a free slot. -/
theorem resize_spec {q : ezqueue_t α} (hq : Ring q) (hpos : 0 < q.num_items)
    (grow : Option (Nat → α)) :
    (ezq_resize grow q = some (-1, q) ∧ (q.max_items = UINT16_MAX ∨ grow = none)) ∨
    ∃ q', ezq_resize grow q = some (0, q') ∧ Ring q' ∧ content q' = content q ∧
      q'.num_items = q.num_items ∧ q'.num_items < q'.max_items := by
  unfold ezq_resize
  cases hnew : new_max q.max_items with
  | none => exact Or.inl ⟨rfl, Or.inl (new_max_eq_none.mp hnew)⟩
  | some n =>
    cases grow with
    | none => exact Or.inl ⟨rfl, Or.inr rfl⟩
    | some fill =>
      obtain ⟨hle, hmax, hlt⟩ := new_max_spec hq.le hnew
      have hlt := hlt hq.pos
      have hnum := hq.num
      have hlen0 : ((List.range n).map fill).length = n := by simp
      obtain ⟨buf, he, hlen, htake⟩ := copy_spec hq q.num_items 0 ((List.range n).map fill)
        (Nat.zero_add _) (by omega) rfl
      have hu : u16 (q.num_items + UINT16_MAX) = q.num_items - 1 := by
        have hmax := hq.le
        unfold u16 UINT16_MAX at *
        omega
      refine Or.inr ⟨{ q with
        pp_buf := buf
        max_items := n
        idx_head := 0
        idx_tail := q.num_items - 1 }, ?_, ⟨hlen.trans hlen0, ?_, ?_, hmax, ?_, ?_⟩, ?_, rfl, ?_⟩
      · simp only [malloc_slots, Option.map_some, he, hu]
      · exact Nat.le_trans hnum hle
      · exact Nat.lt_of_lt_of_le hq.pos hle
      · exact fun _ => Nat.lt_of_lt_of_le hq.pos hle
      · intro _
        show q.num_items - 1 = (0 + (q.num_items - 1)) % n
        rw [Nat.zero_add, Nat.mod_eq_of_lt (by omega)]
      · simpa [content, ring] using htake
      · exact Nat.lt_of_le_of_lt hnum hlt

/-- An enqueue ends, inside of the block. It fails and changes nothing, when the queue is
full and cannot grow, or it puts the item after the others. -/
theorem enqueue_spec {q : ezqueue_t α} (hq : Ring q) (grow : Option (Nat → α)) (x : α) :
    (ezq_enqueue grow x q = some (-1, q) ∧ q.num_items = q.max_items ∧
      (q.max_items = UINT16_MAX ∨ grow = none)) ∨
    ∃ q', ezq_enqueue grow x q = some (0, q') ∧ Ring q' ∧ content q' = content q ++ [x] := by
  have hstore : ∀ c : ezqueue_t α, Ring c → c.num_items < c.max_items →
      ∃ q', (let c := if c.num_items = 0 then { c with idx_head := 0, idx_tail := 0 }
          else { c with idx_tail := (c.idx_tail + 1) % c.max_items }
        (store c.pp_buf c.idx_tail x).map fun buf =>
          ((0 : Int), { c with pp_buf := buf, num_items := u16 (c.num_items + 1) })) =
        some (0, q') ∧ Ring q' ∧ content q' = content c ++ [x] := by
    intro c hc hlt
    have hu : u16 (c.num_items + 1) = c.num_items + 1 := u16_of_le (Nat.le_trans hlt hc.le)
    by_cases h0 : c.num_items = 0
    · have hin : 0 < c.pp_buf.length := hc.len.symm ▸ hc.pos
      simp only [if_pos h0, store_of_lt hin, hu]
      refine ⟨_, rfl, ⟨(List.length_set ..).trans hc.len, hlt, hc.pos, hc.le, fun _ => hc.pos,
        fun _ => ?_⟩, ?_⟩
      · simp [h0]
      · have hp : ring (c.pp_buf.set ((0 + 0) % c.pp_buf.length) x) 0 (0 + 1)
            = ring c.pp_buf 0 0 ++ [x] := ring_push hin x
        simpa [content, h0, ring_zero] using hp
    · have hpos := Nat.pos_of_ne_zero h0
      have htail : (c.idx_tail + 1) % c.max_items
          = (c.idx_head + c.num_items) % c.max_items := by
        rw [hc.tail hpos, Nat.mod_add_mod]
        congr 1
        omega
      have hin : (c.idx_head + c.num_items) % c.max_items < c.pp_buf.length := by
        rw [hc.len]
        exact Nat.mod_lt _ hc.pos
      simp only [if_neg h0, htail, store_of_lt hin, hu]
      refine ⟨_, rfl, ⟨(List.length_set ..).trans hc.len, hlt, hc.pos, hc.le,
        fun _ => hc.head hpos, fun _ => rfl⟩, ?_⟩
      have hp : ring (c.pp_buf.set ((c.idx_head + c.num_items) % c.pp_buf.length) x)
          c.idx_head (c.num_items + 1) = content c ++ [x] := ring_push (hc.len.symm ▸ hlt) x
      rw [hc.len] at hp
      exact hp
  unfold ezq_enqueue
  by_cases hfull : q.num_items = q.max_items
  · rw [if_pos hfull]
    rcases resize_spec hq (hfull ▸ hq.pos) grow with ⟨he, hwhy⟩ | ⟨c, he, hc, hcont, hnum, hlt⟩
    · exact Or.inl ⟨by rw [he]; rfl, hfull, hwhy⟩
    · rw [he, ← hcont]
      exact Or.inr (hstore c hc hlt)
  · rw [if_neg hfull]
    exact Or.inr (hstore q hq (Nat.lt_of_le_of_ne hq.num hfull))

/-- A dequeue of a queue that is not empty gives its first item. -/
theorem dequeue_spec {q : ezqueue_t α} (hq : Ring q) (hpos : 0 < q.num_items) :
    ∃ x q', ezq_dequeue q = some (0, some x, q') ∧ Ring q' ∧ content q = x :: content q' ∧
      q'.num_items + 1 = q.num_items := by
  have hnum := hq.num
  have hin : q.idx_head < q.pp_buf.length := hq.len.symm ▸ hq.head hpos
  obtain ⟨n, hn⟩ := Nat.exists_eq_add_of_lt hpos
  have hpop := ring_pop (n := n) (by rw [hq.len]; omega) hin
  simp only [ezq_dequeue, if_neg (Nat.ne_of_gt hpos), List.getElem?_eq_getElem hin]
  by_cases h1 : q.num_items = 1
  · have hn0 : n = 0 := by omega
    subst hn0
    simp only [if_pos h1]
    refine ⟨_, _, rfl, ⟨hq.len, by simp only; omega, hq.pos, hq.le, ?_, ?_⟩, ?_, by simp only; omega⟩
    · intro h
      simp only at h
      omega
    · intro h
      simp only at h
      omega
    · simpa [content, h1, ring_zero] using hpop
  · simp only [if_neg h1]
    refine ⟨_, _, rfl, ⟨hq.len, by simp only; omega, hq.pos, hq.le, ?_, ?_⟩, ?_, by simp only; omega⟩
    · intro _
      exact Nat.mod_lt _ hq.pos
    · intro _
      simp only
      rw [Nat.mod_add_mod, hq.tail hpos]
      congr 1
      omega
    · have hn1 : q.num_items - 1 = n := by omega
      have hn2 : q.num_items = n + 1 := by omega
      rw [hq.len] at hpop
      simp only [content, hn1]
      rw [hn2]
      exact hpop

/-- A clear takes the items out in order, and leaves the queue empty. -/
theorem clear_spec {σ : Type} [DecidableEq α] (NULL : α)
    (free_func : Option (α → σ → Option σ)) {q : ezqueue_t α} (hq : Ring q) {s s' : σ}
    (hf : (content q).foldlM (fun s x => pass_item NULL free_func x s) s = some s') :
    ∃ q', ezq_clear NULL free_func q s = some (0, q', s') ∧ Ring q' ∧ content q' = [] := by
  have hloop : ∀ (turns : Nat) (q : ezqueue_t α) (s : σ), Ring q → q.num_items < turns →
      (content q).foldlM (fun s x => pass_item NULL free_func x s) s = some s' →
      ∃ q', clear_each NULL free_func turns q s = some (q', s') ∧ Ring q' ∧ content q' = [] := by
    intro turns
    induction turns with
    | zero => exact fun q s _ hlt _ => absurd hlt (Nat.not_lt_zero _)
    | succ turns ih =>
      intro q s hq hlt hf
      unfold clear_each
      by_cases h0 : 0 < q.num_items
      · obtain ⟨x, q', hdeq, hq', hcont, hnum⟩ := dequeue_spec hq h0
        rw [hcont, List.foldlM_cons] at hf
        obtain ⟨t, ht, hf⟩ := Option.bind_eq_some_iff.mp hf
        rw [if_pos h0, hdeq]
        simp only [Option.bind_some, Option.getD_some, ht]
        exact ih q' t hq' (by omega) hf
      · have hempty : content q = [] :=
          List.length_eq_zero_iff.mp (hq.length_content.trans (Nat.eq_zero_of_not_pos h0))
        rw [hempty] at hf
        cases hf
        rw [if_neg h0]
        exact ⟨q, rfl, hq, hempty⟩
  obtain ⟨q', he, hq', hempty⟩ := hloop (q.num_items + 1) q s hq (Nat.lt_succ_self _) hf
  exact ⟨q', by rw [ezq_clear, he]; rfl, hq', hempty⟩

/-- A `free_func` gets the items that are not NULL. -/
theorem foldlM_pass_item {σ : Type} [DecidableEq α] (NULL : α) (f : α → σ → Option σ)
    (xs : List α) (s : σ) :
    xs.foldlM (fun s x => pass_item NULL (some f) x s) s =
      (xs.filter fun x => x != NULL).foldlM (fun s x => f x s) s := by
  rw [List.foldlM_filter]
  congr 1
  funext s x
  unfold pass_item
  by_cases hx : x = NULL
  · simp [hx]
  · simp [hx]

end pingpong.ezqueue
