-- The law of the connection manager: after an update the context array and the
-- poll array hold the same connections, as long as no update starts with stale
-- values in the slots not in use.
import PingPong.MgrCalls

namespace pingpong.connmgr

open blocks ezarray ezqueue

/-! ## Between the calls -/

/-- The contexts in the slots in use, and those in the queue. -/
def owned (m : conn_mgr_t) : List ptr :=
  (used m.p_conns).filter (fun p => p != NULL) ++ content m.p_new_conns

/-- The manager owns each allocated context once, in a slot or in the queue, and
the slots in use agree. Nothing is said of the slots not in use. -/
structure InStep (s : Manager) : Prop extends Balanced s.mgr where
  live : ∀ p c, s.ctxs.lookup p = some c → p ≠ NULL ∧ c.fd ≠ 0
  slots : List.Forall₂ (Slot s.ctxs) (used s.mgr.p_conns) (polled s.mgr)
  owns : s.ctxs.keys.Perm (owned s.mgr)

/-- After an update: the counts and the sizes agree, the slots in use hold the
live contexts, each once, and each with its own descriptor in the poll array. -/
structure Updated (s : Manager) : Prop where
  counts : s.mgr.num_active_conns = s.mgr.p_conns.num_items ∧
    s.mgr.p_conns.num_items = s.ctxs.keys.length
  sizes : s.mgr.max_conns = s.mgr.p_conns.max_items ∧
    s.mgr.p_conns.max_items = s.mgr.p_pfds.length
  once : (used s.mgr.p_conns).Nodup ∧ (used s.mgr.p_conns).Perm s.ctxs.keys
  same : ∀ i, i < s.mgr.num_active_conns → ∃ p c f, s.mgr.p_conns.pp_buf[i]? = some p ∧
    s.ctxs.lookup p = some c ∧ s.mgr.p_pfds[i]? = some f ∧ f.fd = c.fd

theorem lookup_of_mem {ctxs : heap} {p : ptr} (h : p ∈ ctxs.keys) :
    ∃ c, ctxs.lookup p = some c :=
  Option.isSome_iff_exists.mp (AList.lookup_isSome.mpr (AList.mem_keys.mpr h))

theorem InStep.queued {s : Manager} (h : InStep s) {p : ptr}
    (hp : p ∈ content s.mgr.p_new_conns) :
    p ≠ NULL ∧ ∃ c, s.ctxs.lookup p = some c ∧ c.fd ≠ 0 := by
  obtain ⟨c, hc⟩ := lookup_of_mem (h.owns.mem_iff.mpr (List.mem_append_right _ hp))
  exact ⟨(h.live p c hc).1, c, hc, (h.live p c hc).2⟩

/-- A manager that is set up has empty arrays and an empty queue. -/
theorem connmgr_init_some {n : Nat} {o : init_outs} {m : conn_mgr_t} (hn : n ≤ UINT16_MAX)
    (h : connmgr_init n o = (0, some m)) :
    Sized m.p_conns ∧ Ring m.p_new_conns ∧ content m.p_new_conns = [] ∧
      m.p_conns = ⟨List.replicate n NULL, 0, n⟩ ∧ m.p_pfds = List.replicate n zero_pollfd ∧
      m.max_conns = n ∧ m.num_active_conns = 0 := by
  unfold connmgr_init at h
  split at h
  · cases h
  · split at h
    · rename_i conns hconns
      split at h
      · cases h
      · split at h
        · rename_i q hq
          cases h
          obtain ⟨hsized, rfl⟩ := ezarray.init_spec hn hconns
          obtain ⟨hring, hempty⟩ := ezqueue.init_spec hn hq
          exact ⟨hsized, hring, hempty, rfl, rfl, rfl, rfl⟩
        · cases h
    · cases h

theorem inStep_of_started {s : Manager} (h : Started s) : InStep s := by
  obtain ⟨n, o, m, hn, hinit, rfl⟩ := h
  obtain ⟨hsized, hring, hempty, hconns, hpfds, hmax, hnum⟩ := connmgr_init_some hn hinit
  refine ⟨⟨hsized, hring, ?_, ?_, ?_⟩, ?_, ?_, ?_⟩
  · rw [hconns, hnum]
  · rw [hconns, hmax]
  · rw [hconns, hpfds]
    exact List.length_replicate ..
  · intro p c hc
    cases hc
  · simp [used, polled, hconns, hnum]
  · simp [owned, used, hconns, hempty]

theorem clean_of_init {n : Nat} {o : init_outs} {m : conn_mgr_t} (hn : n ≤ UINT16_MAX)
    (h : connmgr_init n o = (0, some m)) : SpareClean m := by
  obtain ⟨-, -, -, hconns, hpfds, -, -⟩ := connmgr_init_some hn h
  refine ⟨fun p hp => ?_, fun f hf => ?_⟩
  · rw [hconns] at hp
    exact List.eq_of_mem_replicate (List.mem_of_mem_drop hp)
  · unfold unpolled at hf
    rw [hpfds] at hf
    rw [List.eq_of_mem_replicate (List.mem_of_mem_drop hf)]
    rfl

/-! ## New contexts -/

theorem InStep.create {s : Manager} (h : InStep s) {fd : Int} {type : conn_type_t}
    {o : create_outs} {r : create_result} (hfd : fd ≠ 0)
    (hr : connmgr_create_new_conn fd type o s = some r) : InStep r.state := by
  rcases create_cases hr with ⟨he, -⟩ | ⟨p, ctx, q, -, hp, hnew, hcfd, -, hq, he⟩
  · rw [he]
    exact h
  rw [he]
  rcases enqueue_spec h.queue o.grow p with ⟨hfail, -⟩ | ⟨q', hok, hring, hcont⟩
  · rw [hfail] at hq
    obtain ⟨hres, rfl⟩ := Prod.mk.inj (Option.some.inj hq)
    rw [if_pos (by simp [← hres])]
    exact h
  · rw [hok] at hq
    obtain ⟨hres, rfl⟩ := Prod.mk.inj (Option.some.inj hq)
    rw [if_neg (by simp [← hres])]
    refine ⟨⟨h.conns, hring, h.num, h.max, h.pfds⟩, ?_, ?_, ?_⟩
    · intro p' c hc
      by_cases he : p' = p
      · subst he
        rw [AList.lookup_insert] at hc
        cases hc
        exact ⟨hp, hcfd ▸ hfd⟩
      · rw [AList.lookup_insert_ne he] at hc
        exact h.live p' c hc
    · refine h.slots.imp fun p' f hs => ?_
      rcases hs with hs | ⟨hp', hf, c, hc, hcf⟩
      · exact Or.inl hs
      · have hne : p' ≠ p := by
          rintro rfl
          exact hnew (AList.lookup_isSome.mp (by rw [hc]; rfl))
        exact Or.inr ⟨hp', hf, c, (AList.lookup_insert_ne hne).trans hc, hcf⟩
    · have hkeys : s.ctxs.keys.erase p = s.ctxs.keys :=
        List.erase_of_not_mem fun hm => hnew (AList.mem_keys.mpr hm)
      show (s.ctxs.insert p ctx).keys.Perm (_ ++ content q')
      rw [AList.keys_insert, hkeys, hcont, ← List.append_assoc]
      exact (h.owns.cons p).trans (List.perm_append_singleton p _).symm

/-! ## Closed contexts -/

theorem InStep.close {s s' : Manager} (h : InStep s) {conn : Nat}
    (hc : close_conn conn s = some s') : InStep s' := by
  obtain ⟨p, ctx, -, hslot, hctx, -, hdes, hmgr⟩ := close_conn_some h.toBalanced hc
  obtain ⟨m, ctxs, closed⟩ := s'
  have hp := (h.live p ctx hctx).1
  simp only [connmgr_destroy_conn, if_neg hp, hctx, Option.map_some, Option.some.injEq,
    Manager.mk.injEq] at hdes hmgr
  obtain ⟨-, rfl, rfl⟩ := hdes
  subst hmgr
  -- the slots in use, with the one of the context blanked
  have hkeep : (p != NULL) = true := by simpa using hp
  have hperm := filter_set_perm (fun p => p != NULL) hslot hkeep (bne_self_eq_false NULL)
  have hused : used { s.mgr.p_conns with pp_buf := s.mgr.p_conns.pp_buf.set conn NULL }
      = (used s.mgr.p_conns).set conn NULL := List.take_set
  have hpolled : (s.mgr.p_pfds.set conn zero_pollfd).take s.mgr.num_active_conns
      = (polled s.mgr).set conn zero_pollfd := List.take_set
  have hnodup : (owned s.mgr).Nodup := h.owns.nodup_iff.mp s.ctxs.keys_nodup
  have howned : (owned s.mgr).Perm (p :: (((used s.mgr.p_conns).set conn NULL).filter
      (fun p => p != NULL) ++ content s.mgr.p_new_conns)) := hperm.append_right _
  have hgone := (List.nodup_cons.mp (howned.nodup_iff.mp hnodup)).1
  refine ⟨⟨h.conns.set conn NULL, h.queue, h.num, h.max, ?_⟩, ?_, ?_, ?_⟩
  · exact (List.length_set ..).trans h.pfds
  · intro q c hq
    have hqp : q ≠ p := by
      rintro rfl
      rw [AList.lookup_erase] at hq
      cases hq
    rw [AList.lookup_erase_ne hqp] at hq
    exact h.live q c hq
  · show List.Forall₂ _ (used _) (List.take _ _)
    rw [hused, hpolled]
    have hset : List.Forall₂ (fun q f => q ≠ p → Slot (s.ctxs.erase p) q f)
        ((used s.mgr.p_conns).set conn NULL) ((polled s.mgr).set conn zero_pollfd) := by
      refine forall₂_set (h.slots.imp fun q f hs hqp => ?_) conn fun _ => Or.inl ⟨rfl, rfl⟩
      rcases hs with hs | ⟨hq, hf, c, hc, hcf⟩
      · exact Or.inl hs
      · exact Or.inr ⟨hq, hf, c, (AList.lookup_erase_ne hqp).trans hc, hcf⟩
    have hother : ∀ q ∈ (used s.mgr.p_conns).set conn NULL, q ≠ p := by
      rintro q hq rfl
      exact hgone (List.mem_append_left _ (List.mem_filter.mpr ⟨hq, by simpa using hp⟩))
    exact ((List.forall₂_and_left _ _).mpr ⟨hother, hset⟩).imp fun q f hs => hs.2 hs.1
  · show (s.ctxs.erase p).keys.Perm (List.filter _ (used _) ++ _)
    rw [AList.keys_erase, hused]
    exact ((h.owns.trans howned).erase p).trans (by rw [List.erase_cons_head])

theorem InStep.closing {conns : List Nat} : ∀ {s s' : Manager}, InStep s →
    closing_pass conns s = some s' → InStep s' := by
  induction conns with
  | nil =>
    intro s s' h hc
    cases hc
    exact h
  | cons conn rest ih =>
    intro s s' h hc
    obtain ⟨s1, h1, hc⟩ := Option.bind_eq_some_iff.mp hc
    exact ih (h.close h1) hc

/-! ## Updates -/

/-- From clean spare slots an update stays inside of the blocks, and leaves the
two arrays in step. -/
theorem InStep.update {s : Manager} (h : InStep s) (hclean : SpareClean s.mgr)
    (o : Nat → grow_outs) :
    ∃ r m, connmgr_update_connections s.ctxs o s.mgr = some (r, m) ∧
      (r = 0 → InStep { s with mgr := m } ∧ Updated { s with mgr := m }) := by
  obtain ⟨m1, hrem, hbal, hused, hslots, hq⟩ := remove_keeps_step h.toBalanced h.slots hclean
  obtain ⟨r, m2, hadd, hgood⟩ := add_keeps_step (o := o)
    (m1.p_new_conns.num_items + 1) hbal (Nat.lt_succ_self _) hslots
    (fun p hp => h.queued (hq ▸ hp))
  refine ⟨r, m2, ?_, fun hr => ?_⟩
  · simp only [connmgr_update_connections, hrem, Option.bind_some]
    exact hadd
  · obtain ⟨hbal2, hused2, hslots2, hempty⟩ := hgood hr
    have hall : used m2.p_conns = owned s.mgr := by
      rw [hused2, hused, hq]
      rfl
    have hkeep : (used m2.p_conns).filter (fun p => p != NULL) = used m2.p_conns := by
      rw [List.filter_eq_self]
      intro p hp
      obtain ⟨c, hc⟩ := lookup_of_mem (h.owns.mem_iff.mpr (hall ▸ hp))
      simpa using (h.live p c hc).1
    have hperm : (used m2.p_conns).Perm s.ctxs.keys := hall ▸ h.owns.symm
    refine ⟨⟨hbal2, h.live, hslots2, ?_⟩, ⟨hbal2.num, ?_⟩, ⟨hbal2.max, hbal2.pfds.symm⟩,
      ⟨hperm.nodup_iff.mpr s.ctxs.keys_nodup, hperm⟩, ?_⟩
    · show s.ctxs.keys.Perm (List.filter _ _ ++ content m2.p_new_conns)
      rw [hkeep, hempty, List.append_nil]
      exact hperm.symm
    · exact hbal2.conns.length_used.symm.trans hperm.length_eq
    · intro i hi
      have hi : i < m2.num_active_conns := hi
      have hlen : i < (used m2.p_conns).length := by
        rw [hbal2.conns.length_used, ← hbal2.num]
        exact hi
      have hs := (List.forall₂_iff_get.mp hslots2).2 i hlen (hslots2.length_eq ▸ hlen)
      have hp : m2.p_conns.pp_buf[i]? = some ((used m2.p_conns).get ⟨i, hlen⟩) := by
        rw [List.get_eq_getElem, ← List.getElem?_eq_getElem hlen, used,
          List.getElem?_take_of_lt (hbal2.num ▸ hi)]
      have hf : m2.p_pfds[i]? = some ((polled m2).get ⟨i, hslots2.length_eq ▸ hlen⟩) := by
        rw [List.get_eq_getElem, ← List.getElem?_eq_getElem]
        exact (List.getElem?_take_of_lt hi).symm
      obtain ⟨c, hc⟩ := lookup_of_mem (hperm.mem_iff.mp (List.get_mem _ ⟨i, hlen⟩))
      rcases hs with ⟨hnull, -⟩ | ⟨-, -, c', hc', hfd⟩
      · exact absurd hnull (h.live _ c hc).1
      · exact ⟨_, c', _, hp, hc', hf, hfd⟩

/-- From stale spare slots an update counts them, and the counts are no longer those of
the live contexts. -/
theorem InStep.dirty {s : Manager} (h : InStep s) {o : Nat → grow_outs} {m : conn_mgr_t}
    (hu : connmgr_update_connections s.ctxs o s.mgr = some (0, m))
    (hup : Updated { s with mgr := m }) : SpareClean s.mgr := by
  obtain ⟨conns, pfds, hrem, hsized, -, hlen, hused, -⟩ := remove_spec h.toBalanced
  simp only [connmgr_update_connections, hrem, Option.bind_some, ne_eq, not_true_eq_false,
    if_false] at hu
  have hple : s.mgr.p_pfds.length ≤ UINT16_MAX := h.pfds.symm ▸ h.conns.le
  have hcount := Nat.le_trans
    (List.length_filter_le (fun f : pollfd => f.fd != 0) s.mgr.p_pfds) hple
  unfold connmgr_add_new_connections at hu
  obtain ⟨hitems, hactive⟩ := add_counts (m := { s.mgr with
    p_conns := conns
    p_pfds := pfds
    num_active_conns := (s.mgr.p_pfds.filter fun f => f.fd != 0).length })
    _ hsized h.queue hcount (hlen ▸ hple) hu
  have hnum : conns.num_items = ((used s.mgr.p_conns).filter fun p => p != NULL).length
      + ((spare s.mgr.p_conns).filter fun p => p != NULL).length := by
    rw [← hsized.length_used, hused, ← List.length_append, ← List.filter_append,
      used_append_spare]
  have hpnum : (s.mgr.p_pfds.filter fun f => f.fd != 0).length
      = ((polled s.mgr).filter fun f => f.fd != 0).length
        + ((unpolled s.mgr).filter fun f => f.fd != 0).length := by
    rw [← List.length_append, ← List.filter_append, polled, unpolled, List.take_append_drop]
  have hsame : ((used s.mgr.p_conns).filter fun p => p != NULL).length
      = ((polled s.mgr).filter fun f => f.fd != 0).length :=
    (List.rel_filter (fun _ _ hs => hs.keep) h.slots).length_eq
  have hlive : s.ctxs.keys.length = ((used s.mgr.p_conns).filter fun p => p != NULL).length
      + s.mgr.p_new_conns.num_items := by
    rw [h.owns.length_eq, owned, List.length_append, h.queue.length_content]
  obtain ⟨hc1, hc2⟩ := hup.counts
  simp only at hitems hactive hc1 hc2
  have hspare : ((spare s.mgr.p_conns).filter fun p => p != NULL) = [] :=
    List.length_eq_zero_iff.mp (by omega)
  have hunpolled : ((unpolled s.mgr).filter fun f => f.fd != 0) = [] :=
    List.length_eq_zero_iff.mp (by omega)
  refine ⟨fun p hp => ?_, fun f hf => ?_⟩
  · simpa using List.filter_eq_nil_iff.mp hspare p hp
  · simpa using List.filter_eq_nil_iff.mp hunpolled f hf

/-! ## The law of runs -/

/-- A new connection has a descriptor from 1 on. -/
def FdFromOne : MgrLabel → Prop
  | .create fd _ _ => 1 ≤ fd
  | _ => True

/-- The call succeeds, if it comes to an end. -/
def Succeeds (s : Manager) (l : MgrLabel) : Prop :=
  (∀ r s', mgr_call s l = some (r, s') → r = 0) ∧ FdFromOne l

/-- An update starts with empty slots after those in use. -/
def CleanBefore (s : Manager) : MgrLabel → Prop
  | .update _ => SpareClean s.mgr
  | _ => True

/-- An update stays inside of the blocks, and leaves the two arrays in step. -/
def UpdatedAfter (s : Manager) (l : MgrLabel) : Prop :=
  match l with
  | .update _ => ∃ r s', mgr_call s l = some (r, s') ∧ Updated s'
  | _ => True

theorem inStep_of_step {s s' : Manager} {l : MgrLabel} (h : InStep s) (hok : Succeeds s l)
    (hclean : CleanBefore s l) (hs : mgr_machine.step s l = some s') : InStep s' := by
  obtain ⟨⟨r, t⟩, hcall, rfl⟩ := Option.map_eq_some_iff.mp hs
  have hr : r = 0 := hok.1 r t hcall
  cases l with
  | create fd type o =>
    obtain ⟨res, hres, he⟩ := Option.map_eq_some_iff.mp hcall
    cases he
    have hfd : 1 ≤ fd := hok.2
    exact h.create (by omega) hres
  | close conns =>
    obtain ⟨t', ht', he⟩ := Option.map_eq_some_iff.mp hcall
    cases he
    exact h.closing ht'
  | update o =>
    obtain ⟨⟨r', m⟩, hm, he⟩ := Option.map_eq_some_iff.mp hcall
    cases he
    obtain ⟨r', m', hm', hgood⟩ := h.update hclean o
    rw [hm] at hm'
    cases hm'
    exact (hgood hr).1

theorem updatedAfter_iff {s : Manager} {l : MgrLabel} (h : InStep s) (hok : Succeeds s l) :
    UpdatedAfter s l ↔ CleanBefore s l := by
  cases l with
  | create fd type o => exact Iff.rfl
  | close conns => exact Iff.rfl
  | update o =>
    constructor
    · rintro ⟨r, s', hcall, hup⟩
      have hr : r = 0 := hok.1 r s' hcall
      obtain ⟨⟨r', m⟩, hm, he⟩ := Option.map_eq_some_iff.mp hcall
      cases he
      exact h.dirty (hr ▸ hm) hup
    · intro hclean
      obtain ⟨r, m, hm, hgood⟩ := h.update hclean o
      have hcall : mgr_call s (.update o) = some (r, { s with mgr := m }) := by
        simp only [mgr_call, hm, Option.map_some]
      exact ⟨r, _, hcall, (hgood (hok.1 r _ hcall)).2⟩

/-- In a run of calls that succeed, every update leaves the context array and the poll array
in step exactly when every update starts with empty slots after those in use. -/
theorem the_two_arrays_are_in_step_iff_the_spare_slots_are_empty {s : Manager}
    {ls : List MgrLabel} (hs : Started s) (hok : mgr_machine.Meets Succeeds s ls) :
    mgr_machine.Meets UpdatedAfter s ls ↔ mgr_machine.Meets CleanBefore s ls :=
  machine.Machine.meets_iff (P := InStep) (C := Succeeds) (D := CleanBefore) (A := UpdatedAfter)
    (fun _ _ h hok => updatedAfter_iff h hok)
    (fun _ _ _ h hok hclean hs => inStep_of_step h hok hclean hs) (inStep_of_started hs) hok

theorem succeeds_of_eq {s t : Manager} {l : MgrLabel} (h : mgr_call s l = some (0, t))
    (hfd : FdFromOne l) : Succeeds s l :=
  ⟨fun r s' hr => by rw [h] at hr; cases hr; rfl, hfd⟩

theorem one_slot_started : Started one_slot :=
  ⟨1, ⟨true, true, true, true, some fun _ => NULL⟩, _, by decide, rfl, rfl⟩

def new_internal (fd : Int) (p : ptr) : MgrLabel :=
  .create fd .INTERNAL_CONN
    ⟨some p, inbound_ctx 0 io_buf.zero io_buf.zero, 0, none, none, some fun _ => NULL⟩

theorem succeeds_new {s t : Manager} {fd : Int} {p : ptr} (hfd : 1 ≤ fd)
    (h : mgr_call s (new_internal fd p) = some (0, t)) : Succeeds s (new_internal fd p) :=
  succeeds_of_eq h hfd

/-- An update. When the context array grows, its new slots hold an old pointer. -/
def stale_update : MgrLabel := .update fun _ => ⟨some fun _ => 99, some fun _ => zero_pollfd⟩

/-- Without a growth all is in step. -/
theorem two_updates_with_empty_spare_slots :
    mgr_machine.Meets UpdatedAfter one_slot [new_internal 5 1, stale_update, stale_update] := by
  have hok : mgr_machine.Meets Succeeds one_slot
      [new_internal 5 1, stale_update, stale_update] := by
    refine (machine.Machine.meets_cons_of_step rfl).mpr ⟨succeeds_new (by decide) rfl, ?_⟩
    refine (machine.Machine.meets_cons_of_step rfl).mpr ⟨succeeds_of_eq rfl trivial, ?_⟩
    refine (machine.Machine.meets_cons_of_step rfl).mpr ⟨succeeds_of_eq rfl trivial, ?_⟩
    exact machine.Machine.meets_nil _
  refine (the_two_arrays_are_in_step_iff_the_spare_slots_are_empty one_slot_started hok).mpr ?_
  refine (machine.Machine.meets_cons_of_step rfl).mpr ⟨trivial, ?_⟩
  refine (machine.Machine.meets_cons_of_step rfl).mpr ⟨⟨by decide, by decide⟩, ?_⟩
  refine (machine.Machine.meets_cons_of_step rfl).mpr ⟨⟨by decide, by decide⟩, ?_⟩
  exact machine.Machine.meets_nil _

/-- Three connections make both arrays grow to four slots. The next update takes the old
pointer in the last slot for a fourth context. -/
theorem a_stale_slot_is_counted_as_a_connection :
    ∃ s ls, Started s ∧ mgr_machine.Meets Succeeds s ls ∧
      ¬ mgr_machine.Meets UpdatedAfter s ls := by
  refine ⟨one_slot, [new_internal 5 1, new_internal 6 2, new_internal 7 3, stale_update,
    stale_update], one_slot_started, ?_, fun h => ?_⟩
  · refine (machine.Machine.meets_cons_of_step rfl).mpr ⟨succeeds_new (by decide) rfl, ?_⟩
    refine (machine.Machine.meets_cons_of_step rfl).mpr ⟨succeeds_new (by decide) rfl, ?_⟩
    refine (machine.Machine.meets_cons_of_step rfl).mpr ⟨succeeds_new (by decide) rfl, ?_⟩
    refine (machine.Machine.meets_cons_of_step rfl).mpr ⟨succeeds_of_eq rfl trivial, ?_⟩
    refine (machine.Machine.meets_cons_of_step rfl).mpr ⟨succeeds_of_eq rfl trivial, ?_⟩
    exact machine.Machine.meets_nil _
  · have h1 := ((machine.Machine.meets_cons_of_step rfl).mp h).2
    have h2 := ((machine.Machine.meets_cons_of_step rfl).mp h1).2
    have h3 := ((machine.Machine.meets_cons_of_step rfl).mp h2).2
    have h4 := ((machine.Machine.meets_cons_of_step rfl).mp h3).2
    obtain ⟨r, s', hcall, hup⟩ := h4.1
    cases hcall
    exact absurd hup.counts.1 (by decide)

end pingpong.connmgr
