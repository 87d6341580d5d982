-- The two compactions of an update: after a closing pass they keep the same
-- connections, when no connection that stays has descriptor 0.
import PingPong.MgrCalls

namespace pingpong.connmgr

open blocks ezarray ezqueue

/-! ## Before and after -/

/-- Each slot in use has a context and its descriptor, and all other slots are empty. -/
structure Paired (s : Manager) : Prop extends Balanced s.mgr where
  pairs : List.Forall₂ (fun p f => p ≠ NULL ∧ ∃ c, s.ctxs.lookup p = some c ∧ f.fd = c.fd)
    (used s.mgr.p_conns) (polled s.mgr)
  spare_conns : ∀ p ∈ spare s.mgr.p_conns, p = NULL
  spare_pfds : ∀ f ∈ unpolled s.mgr, f = zero_pollfd

/-- Both arrays keep the connections whose index is not in `gone`, in their order, and all other
slots are empty again. -/
structure KeepsSame (gone : List Nat) (before after : conn_mgr_t) : Prop where
  conns : used after.p_conns = without gone (used before.p_conns)
  pfds : polled after = without gone (polled before)
  spare_conns : ∀ p ∈ spare after.p_conns, p = NULL
  spare_pfds : ∀ f ∈ unpolled after, f = zero_pollfd
  counts : after.num_active_conns = after.p_conns.num_items ∧
    after.p_conns.num_items = (without gone (used before.p_conns)).length

/-- No connection that stays has descriptor 0. -/
def NoFdZero (gone : List Nat) (s : Manager) : Prop :=
  ∀ p ∈ without gone (used s.mgr.p_conns), ∀ c, s.ctxs.lookup p = some c → c.fd ≠ 0

/-! ## The compactions -/

theorem Paired.ne_null {s : Manager} (h : Paired s) : ∀ p ∈ used s.mgr.p_conns, p ≠ NULL :=
  ((List.forall₂_and_left (p := fun p => p ≠ NULL) _ _).mp h.pairs).1

/-- The descriptors of the connections that stay are those of their entries. -/
theorem noFdZero_iff {gone : List Nat} {s : Manager} (h : Paired s) :
    NoFdZero gone s ↔ ∀ f ∈ without gone (polled s.mgr), f.fd ≠ 0 := by
  have hpairs := forall₂_without gone h.pairs
  unfold NoFdZero
  generalize without gone (used s.mgr.p_conns) = ps at *
  generalize without gone (polled s.mgr) = fs at *
  induction hpairs with
  | nil => simp
  | @cons p f ps fs hpf _ ih =>
    obtain ⟨-, c, hc, hfd⟩ := hpf
    rw [List.forall_mem_cons, List.forall_mem_cons, hfd]
    refine and_congr ⟨fun hall => hall c hc, fun hne d hd => ?_⟩ ih
    rw [hc] at hd
    cases hd
    exact hne

/-- What the two filters keep after a closing pass. -/
theorem kept_slots {gone : List Nat} {s s' : Manager} (h : Paired s)
    (hclose : closing_pass gone s = some s') :
    s'.mgr.p_conns.pp_buf.filter (fun p => p != NULL) = without gone (used s.mgr.p_conns) ∧
    s'.mgr.p_pfds.filter (fun f => f.fd != 0) =
      (without gone (polled s.mgr)).filter (fun f => f.fd != 0) := by
  obtain ⟨hin, -, hmgr⟩ := closing_pass_some h.toBalanced hclose
  rw [hmgr]
  constructor
  · refine (filter_blanked_front (by simp) hin fun p hp => ?_).trans (List.filter_eq_self.mpr ?_)
    · simp [h.spare_conns p hp]
    · intro p hp
      simpa using h.ne_null p (mem_of_mem_without hp)
  · refine filter_blanked_front rfl (n := s.mgr.num_active_conns) (h.num.symm ▸ hin) fun f hf => ?_
    rw [h.spare_pfds f hf]
    rfl

/-- The entries that the filter of the poll array drops are empty, when the connections that stay
have no descriptor 0. -/
theorem dropped_entries {gone : List Nat} {s s' : Manager} (h : Paired s)
    (hclose : closing_pass gone s = some s')
    (hfd : ∀ f ∈ without gone (polled s.mgr), f.fd ≠ 0) :
    ∀ f ∈ s'.mgr.p_pfds, f.fd = 0 → f = zero_pollfd := by
  obtain ⟨hin, -, hmgr⟩ := closing_pass_some h.toBalanced hclose
  have hpfds : s'.mgr.p_pfds = blanked zero_pollfd gone s.mgr.p_pfds := by rw [hmgr]
  intro f hf hzero
  rw [hpfds, ← List.take_append_drop s.mgr.num_active_conns (blanked _ _ _), take_blanked,
    drop_blanked zero_pollfd (h.num.symm ▸ hin)] at hf
  rcases List.mem_append.mp hf with hf | hf
  · rcases mem_blanked hf with rfl | hf
    · rfl
    · exact absurd hzero (hfd f hf)
  · exact h.spare_pfds f hf

/-- After a closing pass, the two compactions of an update keep the same connections exactly
when no connection that stays has descriptor 0. -/
theorem the_compactions_agree_iff_no_descriptor_is_zero {gone : List Nat} {s s' : Manager}
    (h : Paired s) (hclose : closing_pass gone s = some s') :
    ∃ m, connmgr_remove_closed_connections s'.mgr = some (0, m) ∧
      (KeepsSame gone s.mgr m ↔ NoFdZero gone s) := by
  obtain ⟨-, hb', -⟩ := closing_pass_some h.toBalanced hclose
  obtain ⟨conns, pfds, hrem, hsized, hmax, hlen, hused, hspare, htake, hdrop⟩ := remove_spec hb'
  obtain ⟨hconns, hpfds⟩ := kept_slots h hclose
  have hnum : conns.num_items = (without gone (used s.mgr.p_conns)).length := by
    rw [← hsized.length_used, hused, hconns]
  have hlength : (without gone (used s.mgr.p_conns)).length
      = (without gone (polled s.mgr)).length := (forall₂_without gone h.pairs).length_eq
  rw [hpfds] at htake hdrop hrem
  refine ⟨_, hrem, ?_⟩
  rw [noFdZero_iff h]
  constructor
  · -- the counts agree, so the filter of the entries drops none
    rintro ⟨-, -, -, -, hcount, -⟩
    have hall : ((without gone (polled s.mgr)).filter fun f => f.fd != 0).length
        = (without gone (polled s.mgr)).length := by
      rw [← hlength, ← hnum]
      exact hcount
    intro f hf
    simpa using List.length_filter_eq_length_iff.mp hall f hf
  · intro hfd
    have hall : ((without gone (polled s.mgr)).filter fun f => f.fd != 0)
        = without gone (polled s.mgr) := List.filter_eq_self.mpr fun f hf => by simpa using hfd f hf
    refine ⟨hused.trans hconns, htake.trans hall, hspare, fun f hf => ?_, ?_, hnum⟩
    · rcases hdrop f hf with rfl | ⟨hmem, hzero⟩
      · rfl
      · exact dropped_entries h hclose hfd f hmem hzero
    · show List.length _ = conns.num_items
      rw [hall, hnum, hlength]

/-- Two connections in four slots, the first one with descriptor `fd`. -/
def two_conns (fd : Int) : Manager where
  mgr := ⟨⟨[1, 2, NULL, NULL], 2, 4⟩,
    [⟨fd, all_events, no_events⟩, ⟨6, all_events, no_events⟩, zero_pollfd, zero_pollfd],
    ⟨[NULL], 0, 1, UINT16_MAX, UINT16_MAX⟩, 4, 2⟩
  ctxs := (AList.singleton 2 (inbound_ctx 6 io_buf.zero io_buf.zero)).insert 1
    (inbound_ctx fd io_buf.zero io_buf.zero)
  closed := []

theorem two_conns_paired (fd : Int) : Paired (two_conns fd) where
  conns :=
    have h : Sized (⟨[1, 2, NULL, NULL], 2, 4⟩ : ezarray_t ptr) :=
      ⟨rfl, by decide, by decide, by decide⟩
    h
  queue :=
    have h : Ring (⟨[NULL], 0, 1, UINT16_MAX, UINT16_MAX⟩ : ezqueue_t ptr) :=
      ⟨rfl, by decide, by decide, by decide, by decide, by decide⟩
    h
  num := rfl
  max := rfl
  pfds := rfl
  pairs := .cons ⟨nofun, _, rfl, rfl⟩ (.cons ⟨nofun, _, rfl, rfl⟩ .nil)
  spare_conns p hp := List.eq_of_mem_replicate (n := 2) hp
  spare_pfds f hf := List.eq_of_mem_replicate (n := 2) hf

theorem the_compactions_agree_on_descriptor_six :
    ∃ s' m, closing_pass [0] (two_conns 5) = some s' ∧
      connmgr_remove_closed_connections s'.mgr = some (0, m) ∧
      KeepsSame [0] (two_conns 5).mgr m := by
  have hclose : (closing_pass [0] (two_conns 5)).isSome = true := rfl
  obtain ⟨s', hs'⟩ := Option.isSome_iff_exists.mp hclose
  obtain ⟨m, hm, hiff⟩ :=
    the_compactions_agree_iff_no_descriptor_is_zero (two_conns_paired 5) hs'
  refine ⟨s', m, hs', hm, hiff.mpr fun p hp c hc => ?_⟩
  rw [List.mem_singleton.mp hp] at hc
  cases hc
  decide

/-- The filter of the poll array takes descriptor 0 for an empty entry. -/
theorem descriptor_zero_is_dropped_from_the_poll_array :
    ¬ ∀ (gone : List Nat) (s s' : Manager), Paired s → closing_pass gone s = some s' →
      ∃ m, connmgr_remove_closed_connections s'.mgr = some (0, m) ∧ KeepsSame gone s.mgr m := by
  intro h
  obtain ⟨m, hm, hkeeps⟩ := h [] _ _ (two_conns_paired 0) rfl
  cases hm
  exact absurd hkeeps.counts.1 (by decide)

end pingpong.connmgr
