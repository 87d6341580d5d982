-- The update that fails: which call of its loop is refused, what it leaves in the slots of the
-- context array, and which contexts the manager owns after it.
import PingPong.Teardown

namespace pingpong.connmgr

open blocks ezarray ezqueue

/-! ## Where the loop fails -/

/-- An array with `n` of its `max` slots in use is full, and cannot grow. -/
def Refuses {α : Type} (n max : Nat) (grow : Option α) : Prop :=
  n = max ∧ (n = UINT16_MAX ∨ grow = none)

instance {α : Type} (n max : Nat) (grow : Option α) : Decidable (Refuses n max grow) :=
  match grow with
  | none => inferInstanceAs (Decidable (n = max ∧ (n = UINT16_MAX ∨ none = none)))
  | some _ => decidable_of_iff (n = max ∧ n = UINT16_MAX) (by simp [Refuses])

/-- The slots behind the items, after a push to an array of `n` items. -/
def spare_after (n : Nat) (slots : List ptr) (grow : Option (Nat → ptr)) : List ptr :=
  match slots, new_max n, grow with
  | _ :: rest, _, _ => rest
  | [], some m, some fill => (List.range' (n + 1) (m - (n + 1))).map fill
  | [], _, _ => []

/-- The turn of the loop that fails, whether it has pushed its context by then, and the slots behind
the items. -/
structure Failure where
  turn : Nat
  pushed : Bool
  slots : List ptr

/-- The sizes of the two arrays say which call is refused: of the context array its items and the
slots behind them, and of the poll array what the manager takes for its entries in use and for its
size. -/
def failure (o : Nat → grow_outs) : Nat → Nat → List ptr → Nat → Nat → Option Failure
  | 0, _, _, _, _ => none
  | queued + 1, items, slots, num_active_conns, max_conns =>
    if Refuses items (items + slots.length) (o (queued + 1)).conns then some ⟨0, false, slots⟩
    else
      let slots := spare_after items slots (o (queued + 1)).conns
      if Refuses num_active_conns max_conns (o (queued + 1)).pfds then some ⟨0, true, slots⟩
      else (failure o queued (items + 1) slots (num_active_conns + 1)
        (items + 1 + slots.length)).map fun f => { f with turn := f.turn + 1 }

theorem push_spare {a a' : ezarray_t ptr} (ha : Sized a) {grow : Option (Nat → ptr)} {x : ptr}
    (h : ezarr_push grow x a = some (0, a')) :
    ¬ Refuses a.num_items a.max_items grow ∧
      spare a' = spare_after a.num_items (spare a) grow := by
  have hlen := ha.len
  have hnum := ha.num
  unfold ezarr_push at h
  by_cases hfull : a.num_items = a.max_items
  · have hempty : spare a = [] := List.drop_eq_nil_of_le (by omega)
    simp only [if_pos hfull, ezarr_resize] at h
    cases hnew : new_max a.num_items with
    | none => simp [hnew] at h
    | some m =>
      cases grow with
      | none => simp [hnew] at h
      | some fill =>
        obtain ⟨-, -, hlt⟩ := new_max_spec (hfull ▸ ha.le) hnew
        have hlt : a.num_items < m := hlt (hfull ▸ ha.pos)
        have hin : a.num_items < (realloc a.pp_buf m fill).length := by rwa [length_realloc]
        have hu : u16 (a.num_items + 1) = a.num_items + 1 := by
          obtain ⟨-, hle, -⟩ := new_max_spec (hfull ▸ ha.le) hnew
          exact u16_of_le (by omega)
        simp only [hnew, ne_eq, not_true_eq_false, if_false, store_of_lt hin, Option.map_some,
          Option.some.injEq, Prod.mk.injEq, true_and] at h
        subst h
        refine ⟨?_, ?_⟩
        · rintro ⟨-, hmax | hnone⟩
          · rw [new_max_eq_none.mpr hmax] at hnew
            cases hnew
          · cases hnone
        · obtain ⟨k, rfl⟩ : ∃ k, m = a.num_items + 1 + k := ⟨m - (a.num_items + 1), by omega⟩
          have hnext : spare_after a.num_items (spare a) (some fill) =
              (List.range' (a.num_items + 1) k).map fill := by
            simp only [hempty, spare_after, hnew, Nat.add_sub_cancel_left]
          have hone : a.num_items + 1 - a.pp_buf.length = 1 := by omega
          rw [hnext]
          simp only [spare, hu]
          rw [List.drop_set_of_lt (Nat.lt_succ_self _), realloc,
            List.take_of_length_le (by omega), hlen, ← hfull,
            show a.num_items + 1 + k - a.num_items = k + 1 by omega, List.range'_succ,
            List.map_cons, List.drop_append, List.drop_eq_nil_of_le (by omega), hone]
          rfl
  · have hin : a.num_items < a.pp_buf.length := by omega
    have hu : u16 (a.num_items + 1) = a.num_items + 1 :=
      u16_of_le (by have := ha.le; omega)
    simp only [if_neg hfull, ne_eq, not_true_eq_false, if_false, store_of_lt hin,
      Option.map_some, Option.some.injEq, Prod.mk.injEq, true_and] at h
    subst h
    refine ⟨fun hr => hfull hr.1, ?_⟩
    simp only [spare, hu]
    rw [List.drop_set_of_lt (Nat.lt_succ_self _), List.drop_eq_getElem_cons hin]
    rfl

theorem append_refuses {pfds pfds' : List pollfd} {fd : Int} {grow : Option (Nat → pollfd)}
    {n max : Nat} {res : Int} (h : add_to_pollfd fd grow pfds n max = some (res, pfds')) :
    (Refuses n max grow ∧ res ≠ 0) ∨ (¬ Refuses n max grow ∧ res = 0) := by
  unfold add_to_pollfd at h
  by_cases hfull : n = max
  · simp only [if_pos hfull] at h
    cases hnew : new_max n with
    | none =>
      simp only [hnew, Option.some.injEq, Prod.mk.injEq] at h
      exact Or.inl ⟨⟨hfull, Or.inl (new_max_eq_none.mp hnew)⟩, by rw [← h.1]; decide⟩
    | some m =>
      cases grow with
      | none =>
        simp only [hnew, Option.some.injEq, Prod.mk.injEq] at h
        exact Or.inl ⟨⟨hfull, Or.inr rfl⟩, by rw [← h.1]; decide⟩
      | some fill =>
        simp only [hnew, Option.map_eq_some_iff, Prod.mk.injEq] at h
        obtain ⟨c, -, hres, -⟩ := h
        refine Or.inr ⟨?_, hres.symm⟩
        rintro ⟨-, hmax | hnone⟩
        · rw [new_max_eq_none.mpr hmax] at hnew
          cases hnew
        · cases hnone
  · simp only [if_neg hfull, Option.map_eq_some_iff, Prod.mk.injEq] at h
    obtain ⟨c, -, hres, -⟩ := h
    exact Or.inr ⟨fun hr => hfull hr.1, hres.symm⟩

/-- What a loop that fails leaves. The context that it has dequeued last is in no count. -/
structure LoopFailed (f : Failure) (m m' : conn_mgr_t) : Prop where
  conns : Sized m'.p_conns
  queue : Ring m'.p_new_conns
  turn : f.turn < m.p_new_conns.num_items
  left : content m'.p_new_conns = (content m.p_new_conns).drop (f.turn + 1)
  items : used m'.p_conns =
    used m.p_conns ++ (content m.p_new_conns).take (f.turn + f.pushed.toNat)
  slots : spare m'.p_conns = f.slots
  full : f.pushed = false → f.slots = []
  active : m'.num_active_conns = m.num_active_conns + f.turn

theorem length_spare {a : ezarray_t ptr} (h : Sized a) :
    a.num_items + (spare a).length = a.max_items := by
  have hnum := h.num
  rw [spare, List.length_drop, h.len]
  omega

/-- However the two arrays stand, the sizes tell where the loop fails. -/
theorem add_failure {ctxs : heap} {o : Nat → grow_outs} {queued : Nat} :
    ∀ {m m' : conn_mgr_t} {r : Int}, add_each ctxs o (queued + 1) m = some (r, m') → r ≠ 0 →
      Sized m.p_conns → Ring m.p_new_conns → m.p_new_conns.num_items = queued →
      m.num_active_conns ≤ UINT16_MAX → m.p_pfds.length ≤ UINT16_MAX →
      ∃ f, failure o queued m.p_conns.num_items (spare m.p_conns) m.num_active_conns
          m.max_conns = some f ∧ LoopFailed f m m' := by
  induction queued with
  | zero =>
    intro m m' r h hr _ _ h0 _ _
    rw [add_none 0 h0] at h
    cases h
    exact absurd rfl hr
  | succ queued ih =>
    intro m m' r h hr hconns hqueue hnum hactive hlen
    have hpos : 0 < m.p_new_conns.num_items := by omega
    obtain ⟨p, q, hdeq, hq, hcont, hqnum⟩ := dequeue_spec hqueue hpos
    have hspare := length_spare hconns
    rw [add_each, if_neg (Nat.ne_of_gt hpos), hdeq] at h
    simp only [Option.bind_some] at h
    unfold failure
    rcases push_spec hconns (o (queued + 1)).conns p with
      ⟨hfail, hfull, hwhy⟩ | ⟨a, hpush, ha, hau, han, -, -⟩
    · -- the push is refused
      simp only [hfail, Option.bind_some] at h
      cases h
      refine ⟨⟨0, false, spare m.p_conns⟩, if_pos ⟨by omega, hfull ▸ hwhy⟩, ?_⟩
      refine ⟨hconns, hq, hpos, ?_, ?_, rfl, fun _ => ?_, rfl⟩
      · rw [hcont]
        rfl
      · exact (List.append_nil _).symm
      · exact List.drop_eq_nil_of_le (by rw [hconns.len]; omega)
    · obtain ⟨hgood, hnext⟩ := push_spare hconns hpush
      have hnext' := length_spare ha
      rw [hspare, if_neg hgood, ← hnext]
      simp only [hpush, Option.bind_some, ne_eq, not_true_eq_false, if_false] at h
      obtain ⟨c, -, h⟩ := Option.bind_eq_some_iff.mp h
      obtain ⟨⟨res, pfds⟩, hadd, h⟩ := Option.bind_eq_some_iff.mp h
      rcases append_refuses hadd with ⟨hfull, hres⟩ | ⟨hgood, rfl⟩
      · -- the append is refused
        simp only [hres, not_false_eq_true, if_true] at h
        cases h
        refine ⟨⟨0, true, spare a⟩, if_pos hfull, ha, hq, hpos, ?_, ?_, rfl,
          fun hpushed => by simp at hpushed, rfl⟩
        · rw [hcont]
          rfl
        · rw [hau, hcont]
          rfl
      · obtain ⟨hin, hlen'⟩ := add_to_pollfd_inside hactive hlen hadd
        have hu : u16 (m.num_active_conns + 1) = m.num_active_conns + 1 :=
          u16_of_le (Nat.le_trans hin hlen')
        simp only [not_true_eq_false, if_false, hu] at h
        obtain ⟨f, hf, hleft⟩ := ih h hr ha hq (by show q.num_items = _; omega)
          (Nat.le_trans hin hlen') hlen'
        simp only [han] at hf hnext'
        rw [if_neg hgood, hnext', hf]
        refine ⟨_, rfl, hleft.conns, hleft.queue, ?_, ?_, ?_, hleft.slots, hleft.full, ?_⟩
        · have hlt : f.turn < q.num_items := hleft.turn
          show f.turn + 1 < _
          omega
        · rw [hleft.left, hcont]
          rfl
        · rw [hleft.items, hau, hcont, List.append_assoc]
          simp only [Nat.add_right_comm f.turn 1, List.take_succ_cons]
          rfl
        · rw [hleft.active]
          show m.num_active_conns + 1 + f.turn = m.num_active_conns + (f.turn + 1)
          omega

/-! ## What stands in the counted slots -/

section Counted

variable {actives stale queue slots : List ptr} {n turn : Nat} {pushed : Bool}

def NonNull (l : List ptr) : Prop := ∀ p ∈ l, p ≠ NULL

theorem NonNull.take {l : List ptr} (h : NonNull l) (k : Nat) : NonNull (l.take k) :=
  fun p hp => h p (List.mem_of_mem_take hp)

theorem NonNull.append {l k : List ptr} (h : NonNull l) (h' : NonNull k) : NonNull (l ++ k) :=
  fun p hp => (List.mem_append.mp hp).elim (h p) (h' p)

end Counted

/-! ## What the manager owns -/

/-- The manager owns each context once, and the slots in use agree, with any descriptors. -/
structure Aligned (s : Manager) : Prop extends Balanced s.mgr where
  live : ∀ p ∈ s.ctxs.keys, p ≠ NULL
  slots : List.Forall₂ (fun p f => (p = NULL ∧ f.fd = 0) ∨
    (p ≠ NULL ∧ ∃ c, s.ctxs.lookup p = some c ∧ f.fd = c.fd))
    (used s.mgr.p_conns) (polled s.mgr)
  owns : s.ctxs.keys.Perm (owned s.mgr)

/-- The contexts in the slots in use. -/
def actives (m : conn_mgr_t) : List ptr := (used m.p_conns).filter fun p => p != NULL

/-- The old pointers in the other slots. -/
def stale (m : conn_mgr_t) : List ptr := (spare m.p_conns).filter fun p => p != NULL

/-- The entries of the poll array that the next update counts, in use or not. -/
def counted (m : conn_mgr_t) : Nat := (m.p_pfds.filter fun f => f.fd != 0).length

/-- Where the loop of the next update fails. -/
def update_failure (o : Nat → grow_outs) (m : conn_mgr_t) : Option Failure :=
  let items := (actives m).length + (stale m).length
  failure o m.p_new_conns.num_items items
    (List.replicate (m.p_conns.max_items - items) NULL) (counted m) m.max_conns

theorem Aligned.queued {s : Manager} (h : Aligned s) : NonNull (content s.mgr.p_new_conns) :=
  fun p hp => h.live p (h.owns.mem_iff.mpr (List.mem_append_right _ hp))

/-- The slots and the queue after an update that fails, from what there was before it. -/
theorem Aligned.update_failed {s : Manager} (h : Aligned s) {o : Nat → grow_outs} {r : Int}
    {m : conn_mgr_t} (hu : connmgr_update_connections s.ctxs o s.mgr = some (r, m)) (hr : r ≠ 0) :
    ∃ f, update_failure o s.mgr = some f ∧ Sized m.p_conns ∧ Ring m.p_new_conns ∧
      f.turn < (content s.mgr.p_new_conns).length ∧ (f.pushed = false → f.slots = []) ∧
      held m = ((actives s.mgr ++ (stale s.mgr ++
        ((content s.mgr.p_new_conns).take (f.turn + f.pushed.toNat) ++ f.slots))).take
          (counted s.mgr + f.turn)).filter (fun p => p != NULL) ++
        (content s.mgr.p_new_conns).drop (f.turn + 1) := by
  obtain ⟨conns, pfds, hrem, hsized, hmax, hplen, hused, hspare, -, -⟩ := remove_spec h.toBalanced
  simp only [connmgr_update_connections, hrem, Option.bind_some, ne_eq, not_true_eq_false,
    if_false] at hu
  have hitems : used conns = actives s.mgr ++ stale s.mgr := by
    rw [hused, ← used_append_spare, List.filter_append]
    rfl
  have hnum : conns.num_items = (actives s.mgr).length + (stale s.mgr).length := by
    rw [← hsized.length_used, hitems, List.length_append]
  have hslots : spare conns = List.replicate
      (s.mgr.p_conns.max_items - ((actives s.mgr).length + (stale s.mgr).length)) NULL := by
    refine List.eq_replicate_iff.mpr ⟨?_, hspare⟩
    have := length_spare hsized
    omega
  have hlen : pfds.length ≤ UINT16_MAX := by
    rw [hplen, h.pfds]
    exact h.toBalanced.conns.le
  have hcount : counted s.mgr ≤ UINT16_MAX := by
    have hle := List.length_filter_le (fun f : pollfd => f.fd != 0) s.mgr.p_pfds
    rw [h.pfds] at hle
    exact hle.trans h.toBalanced.conns.le
  obtain ⟨f, hf, hleft⟩ := add_failure hu hr hsized h.queue rfl hcount hlen
  simp only [hnum, hslots] at hf
  refine ⟨f, hf, hleft.conns, hleft.queue, ?_, hleft.full, ?_⟩
  · rw [h.queue.length_content]
    exact hleft.turn
  · have hactive : m.num_active_conns = counted s.mgr + f.turn := hleft.active
    have hnew : used m.p_conns = used conns ++
        (content s.mgr.p_new_conns).take (f.turn + f.pushed.toNat) := hleft.items
    have hqueue : content m.p_new_conns =
        (content s.mgr.p_new_conns).drop (f.turn + 1) := hleft.left
    rw [held, hactive, hqueue, ← used_append_spare m.p_conns, hnew, hitems, hleft.slots,
      List.append_assoc, List.append_assoc]

/-- An update that fails drops one context of the queue, and holds the others. -/
theorem InStep.update_failed {s : Manager} (h : InStep s) (hclean : SpareClean s.mgr)
    {o : Nat → grow_outs} {r : Int} {m : conn_mgr_t}
    (hu : connmgr_update_connections s.ctxs o s.mgr = some (r, m)) (hr : r ≠ 0) :
    ∃ p, s.ctxs.keys.Perm (p :: held m) ∧ Held { s with mgr := m } := by
  obtain ⟨m1, hrem, hbal, hused, -, hq⟩ := remove_keeps_step h.toBalanced h.slots hclean
  simp only [connmgr_update_connections, hrem, Option.bind_some, ne_eq, not_true_eq_false,
    if_false] at hu
  obtain ⟨moved, p, hmoved, htake, hconns, hqueue, -⟩ :=
    add_failed _ hbal (fun x hx => (h.queued (hq ▸ hx)).2.imp fun _ hc => hc.1) hu hr
  have howned : owned s.mgr = used m1.p_conns ++ (moved ++ p :: content m.p_new_conns) := by
    rw [owned, hused, ← hq, hmoved]
  have hlive : ∀ q ∈ owned s.mgr, q ≠ NULL := by
    intro q hq
    obtain ⟨c, hc⟩ := lookup_of_mem (h.owns.mem_iff.mpr hq)
    exact (h.live q c hc).1
  have hslots : (used m1.p_conns ++ moved).filter (fun p => p != NULL)
      = used m1.p_conns ++ moved := by
    refine List.filter_eq_self.mpr fun q hq => ?_
    have hin : q ∈ owned s.mgr := by
      rw [howned, ← List.append_assoc]
      exact List.mem_append_left _ hq
    simpa using hlive q hin
  have hheld : held m = used m1.p_conns ++ moved ++ content m.p_new_conns := by
    rw [held, htake, hslots]
  have hperm : s.ctxs.keys.Perm (p :: held m) := by
    refine h.owns.trans ?_
    rw [howned, hheld, ← List.append_assoc]
    exact List.perm_middle
  obtain ⟨-, honce⟩ := List.nodup_cons.mp (hperm.nodup_iff.mp s.ctxs.keys_nodup)
  refine ⟨p, hperm, hconns, hqueue, honce, fun q hq => ?_⟩
  have hkeys : q ∈ s.ctxs.keys := hperm.mem_iff.mpr (List.mem_cons_of_mem p hq)
  exact ⟨hlive q (h.owns.mem_iff.mp hkeys), hkeys⟩

/-- With empty spare slots and no descriptor 0 just one context is owned by nobody, and the end
destroys the others but not this one. -/
theorem InStep.one_is_lost {s : Manager} (h : InStep s) (hclean : SpareClean s.mgr)
    {o : Nat → grow_outs} {r : Int} {m : conn_mgr_t}
    (hu : connmgr_update_connections s.ctxs o s.mgr = some (r, m)) (hr : r ≠ 0) :
    ∃ p s', s.ctxs.keys.Perm (p :: held m) ∧
      connmgr_destroy_all_conns { s with mgr := m } = some (0, s') ∧ s'.ctxs.keys = [p] := by
  obtain ⟨p, hperm, hheld⟩ := h.update_failed hclean hu hr
  obtain ⟨s', hdestroy, hdes, -, -⟩ := hheld.destroy_all
  refine ⟨p, s', hperm, hdestroy, ?_⟩
  have hleft : (held m ++ s'.ctxs.keys).Perm (held m ++ [p]) :=
    hdes.keys.symm.trans (hperm.trans (List.perm_append_singleton p _).symm)
  exact List.perm_singleton.mp ((List.perm_append_left_iff _).mp hleft)

end pingpong.connmgr
