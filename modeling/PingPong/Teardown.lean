-- The end of the connection manager: what `connmgr_destroy_all_conns` destroys.
import PingPong.MgrLaws

namespace pingpong.connmgr

open blocks ezarray ezqueue

/-! ## Contexts that are destroyed -/

/-- From `s` to `s'` the contexts `ps` are destroyed, one after the other, and no other one. -/
structure Destroys (ps : List ptr) (s s' : Manager) : Prop where
  keys : s.ctxs.keys.Perm (ps ++ s'.ctxs.keys)
  others : ∀ p c, s'.ctxs.lookup p = some c → s.ctxs.lookup p = some c
  closed : ∃ cs : List conn_ctx_t, List.Forall₂ (fun p c => s.ctxs.lookup p = some c) ps cs ∧
    s'.closed = s.closed ++ cs.map (·.fd)

theorem Destroys.nil {s s' : Manager} (hctxs : s'.ctxs = s.ctxs) (hclosed : s'.closed = s.closed) :
    Destroys [] s s' where
  keys := by
    rw [hctxs]
    exact List.Perm.refl _
  others p c h := by rwa [hctxs] at h
  closed := ⟨[], .nil, by rw [hclosed]; simp⟩

theorem Destroys.append {ps qs : List ptr} {s t u : Manager} (h : Destroys ps s t)
    (h' : Destroys qs t u) : Destroys (ps ++ qs) s u where
  keys := by
    rw [List.append_assoc]
    exact h.keys.trans (h'.keys.append_left ps)
  others q c hq := h.others q c (h'.others q c hq)
  closed := by
    obtain ⟨cs, hcs, hclosed⟩ := h.closed
    obtain ⟨ds, hds, hclosed'⟩ := h'.closed
    refine ⟨cs ++ ds, ?_, ?_⟩
    · exact List.rel_append hcs (hds.imp fun q c hq => h.others q c hq)
    · rw [hclosed', hclosed, List.map_append, List.append_assoc]

theorem Destroys.cons {p : ptr} {ps : List ptr} {s t u : Manager} (h : Destroys [p] s t)
    (h' : Destroys ps t u) : Destroys (p :: ps) s u := h.append h'

/-- The next context can be destroyed, when it was allocated and is not one of those destroyed. -/
theorem Destroys.mem {ps : List ptr} {s s' : Manager} (h : Destroys ps s s') {q : ptr}
    (hq : q ∈ s.ctxs.keys) (hne : q ∉ ps) : q ∈ s'.ctxs.keys :=
  (List.mem_append.mp (h.keys.mem_iff.mp hq)).resolve_left hne

theorem destroy_conn_spec {p : ptr} {s : Manager} (hnull : p ≠ NULL) (hp : p ∈ s.ctxs.keys) :
    ∃ s', connmgr_destroy_conn p s = some s' ∧ s'.mgr = s.mgr ∧ Destroys [p] s s' := by
  obtain ⟨c, hc⟩ := lookup_of_mem hp
  refine ⟨{ s with ctxs := s.ctxs.erase p, closed := s.closed ++ [c.fd] },
    by rw [connmgr_destroy_conn, if_neg hnull, hc]; rfl, rfl, ?_, ?_, [c], .cons hc .nil, rfl⟩
  · rw [AList.keys_erase]
    exact List.perm_cons_erase hp
  · intro q d hq
    have hne : q ≠ p := by
      rintro rfl
      rw [AList.lookup_erase] at hq
      cases hq
    rwa [AList.lookup_erase_ne hne] at hq

/-- Contexts that are allocated, each once, can all be destroyed. -/
theorem destroy_list_spec {ps : List ptr} : ∀ {s : Manager}, ps.Nodup →
    (∀ p ∈ ps, p ≠ NULL ∧ p ∈ s.ctxs.keys) →
    ∃ s', ps.foldlM (fun s p => connmgr_destroy_conn p s) s = some s' ∧ s'.mgr = s.mgr ∧
      Destroys ps s s' := by
  induction ps with
  | nil => exact fun _ _ => ⟨_, rfl, rfl, .nil rfl rfl⟩
  | cons p ps ih =>
    intro s hnodup hps
    obtain ⟨hnot, hnodup⟩ := List.nodup_cons.mp hnodup
    obtain ⟨hnull, hp⟩ := hps p List.mem_cons_self
    obtain ⟨t, ht, hmgr, hdes⟩ := destroy_conn_spec hnull hp
    obtain ⟨u, hu, hmgr', hdes'⟩ := ih (s := t) hnodup fun q hq => by
      obtain ⟨hqn, hqs⟩ := hps q (List.mem_cons_of_mem p hq)
      refine ⟨hqn, hdes.mem hqs fun hqp => hnot ?_⟩
      rwa [List.mem_singleton.mp hqp] at hq
    refine ⟨u, ?_, hmgr'.trans hmgr, hdes.cons hdes'⟩
    rw [List.foldlM_cons, ht]
    exact hu

/-- The pointers in some slots of the context array. -/
def pointers (idxs : List Nat) (buf : List ptr) : List ptr :=
  (idxs.filterMap fun i => buf[i]?).filter fun p => p != NULL

theorem pointers_cons_null {i : Nat} {idxs : List Nat} {buf : List ptr}
    (h : buf[i]? = some NULL) : pointers (i :: idxs) buf = pointers idxs buf := by
  unfold pointers
  rw [List.filterMap_cons_some h, List.filter_cons_of_neg (by simp)]

theorem pointers_cons {i : Nat} {idxs : List Nat} {buf : List ptr} {p : ptr}
    (h : buf[i]? = some p) (hp : p ≠ NULL) :
    pointers (i :: idxs) buf = p :: pointers idxs buf := by
  unfold pointers
  rw [List.filterMap_cons_some h, List.filter_cons_of_pos (by simp [hp])]

/-- The slot is set to NULL, or it is not in use. The pointers in other slots stay. -/
theorem set_null_spec {a : ezarray_t ptr} (ha : Sized a) {i : Nat} {idxs : List Nat}
    (hi : i ∉ idxs) : ∃ res a', ezarr_set_at i NULL a = some (res, a') ∧ Sized a' ∧
      a'.max_items = a.max_items ∧ pointers idxs a'.pp_buf = pointers idxs a.pp_buf := by
  by_cases hnum : i < a.num_items
  · refine ⟨0, _, set_at_spec ha hnum NULL, ha.set i NULL, rfl, ?_⟩
    unfold pointers
    congr 1
    refine List.filterMap_congr fun j hj => ?_
    exact List.getElem?_set_ne fun hij : i = j => hi (hij ▸ hj)
  · exact ⟨-1, _, if_pos (Nat.le_of_not_lt hnum), ha, rfl, rfl⟩

/-- An index behind the array has no slot. -/
theorem pointers_cons_none {i : Nat} {idxs : List Nat} {buf : List ptr} (h : buf[i]? = none) :
    pointers (i :: idxs) buf = pointers idxs buf := by
  unfold pointers
  rw [List.filterMap_cons_none h]

theorem destroy_each_spec {idxs : List Nat} : ∀ {s : Manager}, Sized s.mgr.p_conns →
    idxs.Nodup → (pointers idxs s.mgr.p_conns.pp_buf).Nodup →
    (∀ p ∈ pointers idxs s.mgr.p_conns.pp_buf, p ∈ s.ctxs.keys) →
    ∃ s' conns, destroy_each idxs s = some s' ∧ s'.mgr = { s.mgr with p_conns := conns } ∧
      Destroys (pointers idxs s.mgr.p_conns.pp_buf) s s' := by
  induction idxs with
  | nil => exact fun _ _ _ _ => ⟨_, _, rfl, rfl, .nil rfl rfl⟩
  | cons i idxs ih =>
    intro s hsized hidxs hnodup hmem
    obtain ⟨hi, hidxs⟩ := List.nodup_cons.mp hidxs
    unfold destroy_each
    by_cases hlt : i < s.mgr.p_conns.max_items
    swap
    · -- the read of the slot fails, and the index is passed over
      have hlen : s.mgr.p_conns.pp_buf[i]? = none := by
        rw [List.getElem?_eq_none_iff, hsized.len]
        exact Nat.le_of_not_lt hlt
      rw [ezarr_get_at, if_pos (Nat.le_of_not_lt hlt)]
      simp only [Option.bind_some, Option.getD_none, if_true]
      rw [pointers_cons_none hlen] at hnodup hmem ⊢
      exact ih hsized hidxs hnodup hmem
    have hlen : i < s.mgr.p_conns.pp_buf.length := hsized.len.symm ▸ hlt
    have hget : ezarr_get_at i s.mgr.p_conns = some (0, some s.mgr.p_conns.pp_buf[i]) := by
      rw [ezarr_get_at, if_neg (Nat.not_le_of_lt hlt), List.getElem?_eq_getElem hlen]
      rfl
    have hslot : s.mgr.p_conns.pp_buf[i]? = some s.mgr.p_conns.pp_buf[i] :=
      List.getElem?_eq_getElem hlen
    rw [hget]
    simp only [Option.bind_some, Option.getD_some]
    generalize s.mgr.p_conns.pp_buf[i] = p at hslot
    by_cases hp : p = NULL
    · rw [hp] at hslot
      rw [if_pos hp]
      rw [pointers_cons_null hslot] at hnodup hmem ⊢
      exact ih hsized hidxs hnodup hmem
    · rw [if_neg hp]
      rw [pointers_cons hslot hp] at hnodup hmem ⊢
      obtain ⟨hnot, hnodup⟩ := List.nodup_cons.mp hnodup
      obtain ⟨t, ht, hmgr, hdes⟩ := destroy_conn_spec hp (hmem p List.mem_cons_self)
      obtain ⟨res, a, ha, hasized, -, hapointers⟩ := set_null_spec hsized hi
      have hleft : ∀ q ∈ pointers idxs s.mgr.p_conns.pp_buf, q ∈ t.ctxs.keys := by
        intro q hq
        refine hdes.mem (hmem q (List.mem_cons_of_mem p hq)) fun hqp => hnot ?_
        rwa [List.mem_singleton.mp hqp] at hq
      obtain ⟨u, conns, hu, hq, hdes'⟩ := ih (s := { t with mgr := { s.mgr with p_conns := a } })
        hasized hidxs (hapointers.symm ▸ hnodup) (hapointers.symm ▸ hleft)
      rw [ht]
      simp only [Option.bind_some, hmgr, ha]
      have hdes' : Destroys (pointers idxs s.mgr.p_conns.pp_buf) t u :=
        hapointers ▸ ⟨hdes'.keys, hdes'.others, hdes'.closed⟩
      exact ⟨u, conns, hu, hq, hdes.cons hdes'⟩

/-! ## The contexts that the manager can still destroy -/

/-- The contexts below `num_active_conns`, and those in the queue. -/
def held (m : conn_mgr_t) : List ptr :=
  (m.p_conns.pp_buf.take m.num_active_conns).filter (fun p => p != NULL) ++ content m.p_new_conns

/-- The manager can destroy what it holds: each of the contexts is allocated, and it holds it
once. -/
structure Held (s : Manager) : Prop where
  conns : Sized s.mgr.p_conns
  queue : Ring s.mgr.p_new_conns
  once : (held s.mgr).Nodup
  live : ∀ p ∈ held s.mgr, p ≠ NULL ∧ p ∈ s.ctxs.keys

theorem pointers_range (n : Nat) (buf : List ptr) :
    pointers (List.range n) buf = (buf.take n).filter fun p => p != NULL := by
  unfold pointers
  congr 1
  induction n with
  | zero => rfl
  | succ n ih =>
    rw [List.range_succ, List.filterMap_append, ih, List.take_add_one]
    cases hb : buf[n]? with
    | none => simp [hb]
    | some p => simp [hb]

/-- All that the manager holds is destroyed, the slots first and then the queue. -/
theorem Held.destroy_all {s : Manager} (h : Held s) :
    ∃ s', connmgr_destroy_all_conns s = some (0, s') ∧ Destroys (held s.mgr) s s' ∧
      s'.mgr.num_active_conns = s.mgr.num_active_conns ∧ s'.mgr.p_new_conns.num_items = 0 := by
  have honce := List.nodup_append.mp h.once
  have hpointers := pointers_range s.mgr.num_active_conns s.mgr.p_conns.pp_buf
  obtain ⟨t, conns, ht, hmgr, hdes⟩ := destroy_each_spec h.conns List.nodup_range
    (by rw [hpointers]; exact honce.1)
    (by rw [hpointers]; exact fun p hp => (h.live p (List.mem_append_left _ hp)).2)
  rw [hpointers] at hdes
  have hnull : (content s.mgr.p_new_conns).filter (fun p => p != NULL)
      = content s.mgr.p_new_conns :=
    List.filter_eq_self.mpr fun p hp => by simpa using (h.live p (List.mem_append_right _ hp)).1
  obtain ⟨u, hu, hmgr', hdes'⟩ := destroy_list_spec (s := t) honce.2.1 fun p hp => by
    obtain ⟨hpn, hps⟩ := h.live p (List.mem_append_right _ hp)
    exact ⟨hpn, hdes.mem hps fun hslot => honce.2.2 p hslot p hp rfl⟩
  have hpass : (content s.mgr.p_new_conns).foldlM
      (fun s p => pass_item NULL (some connmgr_destroy_conn) p s) t = some u := by
    rw [foldlM_pass_item, hnull]
    exact hu
  obtain ⟨q', hclear, hring, hempty⟩ := clear_spec NULL (some connmgr_destroy_conn) h.queue hpass
  refine ⟨{ u with mgr := { u.mgr with p_new_conns := q' } }, ?_, ?_, ?_, ?_⟩
  · rw [connmgr_destroy_all_conns, ht, Option.bind_some, hmgr, hclear]
    rfl
  · exact hdes.append ⟨hdes'.keys, hdes'.others, hdes'.closed⟩
  · show u.mgr.num_active_conns = _
    rw [hmgr', hmgr]
  · show q'.num_items = 0
    rw [← hring.length_content, hempty]
    rfl

end pingpong.connmgr
