-- The update in the model of main: its step on the two lists of contexts is what
-- `connmgr_update_connections` does to the slots and to the queue of the manager.
import PingPong.MgrLaws
import PingPong.Server

namespace pingpong.server

open blocks connmgr ezarray ezqueue

variable {n : Nat}

/-- The slots of the context array that main walks. -/
def active_slots (m : conn_mgr_t) : List ptr := m.p_conns.pp_buf.take m.num_active_conns

/-- A slot as main's model has it, where `id` names the context at an address. -/
def slotOf (id : ptr → ctx_id) (p : ptr) : Option ctx_id := if p = NULL then none else some (id p)

/-- The two lists of the server are the slots that main walks and the queue. -/
structure Lists (id : ptr → ctx_id) (m : conn_mgr_t) (s : Server n) : Prop where
  p_conns : s.p_conns = (active_slots m).map (slotOf id)
  p_new_conns : s.p_new_conns = (content m.p_new_conns).map id

theorem active_slots_eq {m : conn_mgr_t} (h : Balanced m) : active_slots m = used m.p_conns := by
  rw [active_slots, h.num]
  rfl

theorem filter_map_slotOf (id : ptr → ctx_id) (l : List ptr) :
    (l.map (slotOf id)).filter Option.isSome = (l.filter fun p => p != NULL).map (slotOf id) := by
  rw [List.filter_map]
  congr 1
  refine List.filter_congr fun p _ => ?_
  by_cases hp : p = NULL
  · simp [slotOf, hp]
  · simp [slotOf, hp]

theorem map_slotOf {id : ptr → ctx_id} {l : List ptr} (h : ∀ p ∈ l, p ≠ NULL) :
    l.map (slotOf id) = (l.map id).map some := by
  rw [List.map_map]
  exact List.map_congr_left fun p hp => if_neg (h p hp)

/-- Between a manager in step, with empty spare slots, and main before its update: whatever
`realloc` gives, the call returns, and main has a step that leaves what the manager has then. A
failed call has moved `added` contexts, and the next one is in no list. -/
theorem the_update_of_main_is_that_of_the_manager {id : ptr → ctx_id} {mgr : Manager}
    (h : InStep mgr) (hclean : SpareClean mgr.mgr) {s : Server n} (hlists : Lists id mgr.mgr s)
    (hmain : s.main = .update) (o : Nat → grow_outs) :
    ∃ r m, connmgr_update_connections mgr.ctxs o mgr.mgr = some (r, m) ∧
      ∃ added s', main_step { ok := decide (r = 0), added := added } s = some s' ∧
        Lists id m s' ∧ s'.main = if r = 0 then .poll else .destroy_all 0 := by
  obtain ⟨m1, hrem, hbal, hused, hslots, hq⟩ := remove_keeps_step h.toBalanced h.slots hclean
  have hqueued : ∀ p ∈ content m1.p_new_conns,
      p ≠ NULL ∧ ∃ c, mgr.ctxs.lookup p = some c ∧ c.fd ≠ 0 := fun p hp => h.queued (hq ▸ hp)
  have hkept : s.p_conns.filter Option.isSome = (used m1.p_conns).map (slotOf id) := by
    rw [hlists.p_conns, filter_map_slotOf, active_slots_eq h.toBalanced, hused]
  have hnew : s.p_new_conns = (content m1.p_new_conns).map id := by
    rw [hlists.p_new_conns, hq]
  obtain ⟨r, m, hadd, hgood⟩ := add_keeps_step (o := o) (m1.p_new_conns.num_items + 1) hbal
    (Nat.lt_succ_self _) hslots hqueued
  have hupdate : connmgr_update_connections mgr.ctxs o mgr.mgr = some (r, m) := by
    simp only [connmgr_update_connections, hrem, Option.bind_some, ne_eq, not_true_eq_false,
      if_false]
    exact hadd
  refine ⟨r, m, hupdate, ?_⟩
  by_cases hr : r = 0
  · obtain ⟨hbal', hused', -, hempty⟩ := hgood hr
    refine ⟨0, _, by simp only [main_step, hmain, hr, decide_true, if_true]; rfl, ⟨?_, ?_⟩, ?_⟩
    · show s.p_conns.filter Option.isSome ++ s.p_new_conns.map some = _
      rw [active_slots_eq hbal', hused', List.map_append, map_slotOf fun p hp => (hqueued p hp).1,
        hkept, hnew]
    · rw [hempty]
      rfl
    · exact (if_pos hr).symm
  · obtain ⟨moved, p, hmoved, htake, -⟩ :=
      add_failed _ hbal (fun x hx => (hqueued x hx).2.imp fun _ hc => hc.1) hadd hr
    have hin : ∀ x ∈ moved, x ≠ NULL := fun x hx =>
      (hqueued x (hmoved ▸ List.mem_append_left _ hx)).1
    refine ⟨moved.length, _, by
      simp only [main_step, hmain, hr, decide_false, Bool.false_eq_true, if_false]; rfl,
      ⟨?_, ?_⟩, ?_⟩
    · show s.p_conns.filter Option.isSome ++ (s.p_new_conns.take moved.length).map some = _
      rw [active_slots, htake, List.map_append, map_slotOf hin, hkept, hnew, hmoved, ← List.map_take,
        List.take_left]
    · show s.p_new_conns.drop (moved.length + 1) = _
      rw [hnew, hmoved, ← List.map_drop, List.drop_append]
      simp
    · exact (if_neg hr).symm

end pingpong.server
