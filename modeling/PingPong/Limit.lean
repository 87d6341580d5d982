-- The limit of connections: `nl_accept` tests a sum of two counters for one value, and no call of
-- the server moves the sum past it.
import PingPong.Descriptors
import PingPong.Teardown

namespace pingpong.descriptors

open blocks connmgr ezarray ezqueue

/-- The sum that `nl_accept` looks at. -/
def total_conns (m : conn_mgr_t) : Nat := m.num_active_conns + m.p_new_conns.num_items

/-- The inbound connections that are active or queued. -/
def inbound (s : Manager) : Nat :=
  (held s.mgr).countP fun p => (s.ctxs.lookup p).any fun c => c.type = .INBOUND_CONN

def HasInternal (s : Manager) : Prop :=
  ∃ p c, s.ctxs.lookup p = some c ∧ c.type = .INTERNAL_CONN

/-- The arrays are in step, the slots not in use are empty, and the sum is at most `n`. -/
structure Within (n : Nat) (s : Manager) : Prop where
  inStep : InStep s
  clean : SpareClean s.mgr
  total : total_conns s.mgr ≤ n

theorem Within.mono {n k : Nat} {s : Manager} (h : Within n s) (hk : n ≤ k) : Within k s :=
  ⟨h.inStep, h.clean, Nat.le_trans h.total hk⟩

theorem Within.length_held {n : Nat} {s : Manager} (h : Within n s) :
    s.ctxs.keys.Perm (held s.mgr) ∧ (held s.mgr).length ≤ n := by
  have hheld : held s.mgr = owned s.mgr := by
    unfold held owned used
    rw [h.inStep.num]
  refine ⟨hheld ▸ h.inStep.owns, ?_⟩
  have htotal := h.total
  have hslots : ((s.mgr.p_conns.pp_buf.take s.mgr.num_active_conns).filter
      fun p => p != NULL).length ≤ s.mgr.num_active_conns :=
    Nat.le_trans (List.length_filter_le ..) (by simp)
  unfold total_conns at htotal
  unfold held
  rw [List.length_append, h.inStep.queue.length_content]
  omega

/-- One of the connections is internal, so one less is inbound. -/
theorem Within.inbound_lt {n : Nat} {s : Manager} (h : Within n s) (hi : HasInternal s) :
    inbound s < n := by
  obtain ⟨p, c, hc, htype⟩ := hi
  obtain ⟨hperm, hlen⟩ := h.length_held
  have hp : p ∈ held s.mgr := by
    apply hperm.mem_iff.mp
    apply AList.mem_keys.mp
    exact AList.lookup_isSome.mp (by rw [hc]; rfl)
  refine Nat.lt_of_lt_of_le ?_ hlen
  refine Nat.lt_of_le_of_ne List.countP_le_length fun hall => ?_
  have hin := List.countP_eq_length.mp hall p hp
  simp [hc, htype] at hin

theorem inbound_eq_zero {s : Manager} (h : s.ctxs.keys = []) : inbound s = 0 := by
  unfold inbound
  rw [List.countP_eq_zero]
  intro p _
  have hnone : s.ctxs.lookup p = none := by
    rw [AList.lookup_eq_none, AList.mem_keys, h]
    simp
  simp [hnone]

/-! ## A new connection -/

theorem Within.create {n : Nat} {s : Manager} (h : Within n s) {fd : Int} {type : conn_type_t}
    {o : create_outs} {r : create_result} (hfd : fd ≠ 0)
    (hr : connmgr_create_new_conn fd type o s = some r) : Within (n + 1) r.state := by
  refine ⟨h.inStep.create hfd hr, ?_, ?_⟩
  · rcases create_cases hr with ⟨he, -⟩ | ⟨p, c, q, -, -, -, -, -, -, he⟩
    · rw [he]
      exact h.clean
    · rw [he]
      exact h.clean
  · have htotal := h.total
    rcases create_cases hr with ⟨he, -⟩ | ⟨p, c, q, -, -, -, -, -, hq, he⟩
    · rw [he]
      omega
    · have hnum : q.num_items ≤ s.mgr.p_new_conns.num_items + 1 := by
        rcases enqueue_spec h.inStep.queue o.grow p with ⟨hfail, -⟩ | ⟨q', hok, hring, hcont⟩
        · rw [hfail] at hq
          obtain ⟨-, rfl⟩ := Prod.mk.inj (Option.some.inj hq)
          omega
        · rw [hok] at hq
          obtain ⟨-, rfl⟩ := Prod.mk.inj (Option.some.inj hq)
          have hlen := congrArg List.length hcont
          rw [hring.length_content, List.length_append, h.inStep.queue.length_content] at hlen
          exact Nat.le_of_eq hlen
      rw [he]
      unfold total_conns at *
      simp only
      omega

/-- A context that is made is at an address that no other one has. -/
theorem HasInternal.create {s : Manager} (h : HasInternal s) {fd : Int} {type : conn_type_t}
    {o : create_outs} {r : create_result} (hr : connmgr_create_new_conn fd type o s = some r) :
    HasInternal r.state := by
  rcases create_cases hr with ⟨he, -⟩ | ⟨p, c, q, -, -, hnew, -, -, -, he⟩
  · rw [he]
    exact h
  · rw [he]
    obtain ⟨p', c', hc', htype'⟩ := h
    refine ⟨p', c', ?_, htype'⟩
    simp only
    split
    · exact hc'
    · have hne : p' ≠ p := by
        rintro rfl
        exact hnew (AList.lookup_isSome.mp (by rw [hc']; rfl))
      rwa [AList.lookup_insert_ne hne]

/-- An internal connection that is reported as made is in the manager. -/
theorem hasInternal_of_create {s : Manager} {fd : Int} {o : create_outs} {r : create_result}
    (hr : connmgr_create_new_conn fd .INTERNAL_CONN o s = some r) (hres : r.res = 0) :
    HasInternal r.state := by
  rcases create_cases hr with ⟨-, hne⟩ | ⟨p, c, q, -, -, -, -, htype, -, he⟩
  · exact absurd hres (hne rfl)
  · rw [he, if_neg (by simp [hres])]
    exact ⟨p, c, AList.lookup_insert s.ctxs, htype⟩

theorem keys_of_create {s : Manager} {fd : Int} {type : conn_type_t} {o : create_outs}
    {r : create_result} (hr : connmgr_create_new_conn fd type o s = some r) (hres : r.res ≠ 0) :
    r.state.ctxs = s.ctxs := by
  rcases create_cases hr with ⟨he, -⟩ | ⟨p, c, q, -, -, -, -, -, -, he⟩
  · rw [he]
  · rw [he, if_pos hres]

/-- The test is for one value, and the sum is at most that value. -/
theorem at_limit_iff {m : conn_mgr_t} (h : total_conns m ≤ MAX_CONNECTIONS + 1) :
    at_limit m = true ↔ MAX_CONNECTIONS + 1 ≤ total_conns m := by
  unfold at_limit total_conns at *
  simp only [decide_eq_true_eq]
  omega

theorem Within.accept_turn {s s' : Manager} {e : turn_end} {o : accept_outs}
    (h : Within (MAX_CONNECTIONS + 1) s) (hfd : o.clifd ≠ 0)
    (ha : accept_turn o s = some (e, s')) : Within (MAX_CONNECTIONS + 1) s' := by
  unfold descriptors.accept_turn at ha
  split at ha
  · cases ha
    exact h
  · rename_i hlimit
    have hroom : Within MAX_CONNECTIONS s := by
      rw [at_limit_iff h.total] at hlimit
      exact ⟨h.inStep, h.clean, by omega⟩
    split at ha
    · cases ha
      exact h
    · split at ha
      · cases ha
        exact h
      · obtain ⟨r, hr, he⟩ := Option.map_eq_some_iff.mp ha
        have hnext := hroom.create hfd hr
        split at he
        · cases he
          exact ⟨⟨hnext.inStep.toBalanced, hnext.inStep.live, hnext.inStep.slots,
            hnext.inStep.owns⟩, hnext.clean, hnext.total⟩
        · cases he
          exact hnext

theorem HasInternal.accept_turn {s s' : Manager} {e : turn_end} {o : accept_outs}
    (h : HasInternal s) (ha : descriptors.accept_turn o s = some (e, s')) : HasInternal s' := by
  unfold descriptors.accept_turn at ha
  split at ha
  · cases ha
    exact h
  · split at ha
    · cases ha
      exact h
    · split at ha
      · cases ha
        exact h
      · obtain ⟨r, hr, he⟩ := Option.map_eq_some_iff.mp ha
        split at he
        · cases he
          exact h.create hr
        · cases he
          exact h.create hr

/-! ## The closing pass and the update -/

theorem Within.close_conn {n : Nat} {s s' : Manager} (h : Within n s) {conn : Nat}
    (hc : close_conn conn s = some s') : Within n s' := by
  obtain ⟨p, c, hlt, -, -, -, -, hmgr⟩ := close_conn_some h.inStep.toBalanced hc
  refine ⟨h.inStep.close hc, ?_, ?_⟩
  · rw [hmgr]
    refine ⟨fun q hq => h.clean.1 q ?_, fun f hf => h.clean.2 f ?_⟩
    · simpa [spare, List.drop_set_of_lt hlt] using hq
    · have hlt : conn < s.mgr.num_active_conns := h.inStep.num ▸ hlt
      simpa [unpolled, List.drop_set_of_lt hlt] using hf
  · rw [hmgr]
    exact h.total

theorem HasInternal.close_conn {n : Nat} {s s' : Manager} (h : HasInternal s)
    (hw : Within n s) {conn : Nat} (hc : connmgr.close_conn conn s = some s') :
    HasInternal s' := by
  obtain ⟨p, c, -, -, hcp, htype, hdes, -⟩ := close_conn_some hw.inStep.toBalanced hc
  obtain ⟨q, d, hd, hinternal⟩ := h
  have hne : q ≠ p := by
    rintro rfl
    rw [hcp] at hd
    cases hd
    exact htype hinternal
  unfold connmgr_destroy_conn at hdes
  split at hdes
  · have hctxs := congrArg Manager.ctxs (Option.some.inj hdes)
    exact ⟨q, d, hctxs ▸ hd, hinternal⟩
  · rw [hcp] at hdes
    have hctxs := congrArg Manager.ctxs (Option.some.inj hdes)
    exact ⟨q, d, hctxs ▸ (AList.lookup_erase_ne hne).trans hd, hinternal⟩

/-- The loop that adds has room for all that is in the queue. -/
theorem add_zeroed {ctxs : heap} {n : Nat} (hn : n < UINT16_MAX) (turns : Nat) :
    ∀ {m : conn_mgr_t}, Balanced m → m.p_new_conns.num_items < turns →
      (∀ p ∈ content m.p_new_conns, ∃ c, ctxs.lookup p = some c) → SpareClean m →
      total_conns m ≤ n →
      ∃ m', add_each ctxs (fun _ => zeroed) turns m = some (0, m') ∧ SpareClean m' ∧
        total_conns m' ≤ n := by
  induction turns with
  | zero =>
    intro m _ hlt _ _ _
    exact absurd hlt (Nat.not_lt_zero _)
  | succ turns ih =>
    intro m hbal hlt hlive hclean htotal
    by_cases h0 : m.p_new_conns.num_items = 0
    · exact ⟨m, add_none turns h0, hclean, htotal⟩
    · obtain ⟨p, m1, ⟨hadd, he⟩ | ⟨hdrop, -⟩⟩ := add_turn (o := fun _ => zeroed) turns hbal
        (Nat.pos_of_ne_zero h0) hlive
      · have hleft := hadd.left
        have hnum : m1.num_active_conns = m.num_active_conns + 1 := by
          have hlen := congrArg List.length hadd.conns
          rw [hadd.balanced.conns.length_used, List.length_append,
            hbal.conns.length_used] at hlen
          rw [hadd.balanced.num, hbal.num]
          exact hlen
        have hclean1 : SpareClean m1 := by
          constructor
          · intro q hq
            rcases hadd.spare_conns q hq with hq | ⟨fill, i, hfill, rfl⟩
            · exact hclean.1 q hq
            · cases hfill
              rfl
          · intro f hf
            rcases hadd.spare_pfds f hf with hf | ⟨fill, i, hfill, rfl⟩
            · exact hclean.2 f hf
            · cases hfill
              rfl
        obtain ⟨m', he', hgood⟩ := ih hadd.balanced (by omega)
          (fun x hx => hlive x (hadd.queue ▸ List.mem_cons_of_mem p hx)) hclean1
          (by unfold total_conns at *; omega)
        exact ⟨m', he.trans he', hgood⟩
      · -- a full array has more slots than the sum allows
        have hwhy : m.p_conns.max_items = UINT16_MAX := by
          rcases hdrop.why with hmax | hnone | hnone
          · exact hmax
          · cases hnone
          · cases hnone
        have hfull := hdrop.full
        unfold total_conns at htotal
        omega

theorem Within.update {n : Nat} {s : Manager} (h : Within n s) (hn : n < UINT16_MAX) :
    ∃ m, connmgr_update_connections s.ctxs (fun _ => zeroed) s.mgr = some (0, m) ∧
      Within n { s with mgr := m } := by
  obtain ⟨m1, hrem, hbal, hused, -, hq⟩ :=
    remove_keeps_step h.inStep.toBalanced h.inStep.slots h.clean
  have htotal : total_conns m1 ≤ n := by
    have hle : m1.num_active_conns ≤ s.mgr.num_active_conns := by
      rw [hbal.num, ← hbal.conns.length_used, hused, h.inStep.num,
        ← h.inStep.conns.length_used]
      exact List.length_filter_le ..
    have hs := h.total
    unfold total_conns at *
    rw [hq]
    omega
  obtain ⟨m, hadd, hclean, htotal'⟩ := add_zeroed hn (m1.p_new_conns.num_items + 1) hbal
    (Nat.lt_succ_self _) (fun p hp => (h.inStep.queued (hq ▸ hp)).2.imp fun _ hc => hc.1)
    (remove_clean h.inStep.toBalanced hrem) htotal
  have hu : connmgr_update_connections s.ctxs (fun _ => zeroed) s.mgr = some (0, m) := by
    simp only [connmgr_update_connections, hrem, Option.bind_some]
    exact hadd
  obtain ⟨r, m', hu', hgood⟩ := h.inStep.update h.clean fun _ => zeroed
  rw [hu] at hu'
  obtain ⟨hr, rfl⟩ := Prod.mk.inj (Option.some.inj hu')
  exact ⟨m, hu, (hgood hr.symm).1, hclean, htotal'⟩

/-! ## The stages of main -/

/-- What a run of `main` keeps, by the point it is at. -/
def Stage (s : Manager) : main_pc → Prop
  | .start_listener | .reg_listener => Within 0 s ∧ s.ctxs.keys = []
  | .reg_sigpipe => Within 1 s ∧ HasInternal s
  | .closing | .dispatch | .accepting => Within (MAX_CONNECTIONS + 1) s ∧ HasInternal s
  | .cleanup_connections =>
    Within (MAX_CONNECTIONS + 1) s ∧ (s.ctxs.keys = [] ∨ HasInternal s)
  | .close_pipefds | .returned => total_conns s.mgr ≤ MAX_CONNECTIONS + 1 ∧ s.ctxs.keys = []

structure Limited (t : Main) : Prop where
  stage : Stage t.conns t.pc
  sfd : t.pc = .reg_listener → t.sfd ≠ 0
  pipe : t.sigpipe_fds.1 ≠ 0

theorem Stage.bounds {s : Manager} {pc : main_pc} (h : Stage s pc) :
    total_conns s.mgr ≤ MAX_CONNECTIONS + 1 ∧ inbound s ≤ MAX_CONNECTIONS := by
  have hloop : Within (MAX_CONNECTIONS + 1) s → HasInternal s → inbound s ≤ MAX_CONNECTIONS := by
    intro hw hi
    exact Nat.le_of_lt_succ (hw.inbound_lt hi)
  have hempty : s.ctxs.keys = [] → inbound s ≤ MAX_CONNECTIONS := by
    intro hk
    rw [inbound_eq_zero hk]
    exact Nat.zero_le _
  cases pc with
  | start_listener | reg_listener => exact ⟨(h.1.mono (Nat.zero_le _)).total, hempty h.2⟩
  | reg_sigpipe =>
    have hw := h.1.mono (k := MAX_CONNECTIONS + 1) (by decide)
    exact ⟨hw.total, hloop hw h.2⟩
  | closing | dispatch | accepting => exact ⟨h.1.total, hloop h.1 h.2⟩
  | cleanup_connections => exact ⟨h.1.total, h.2.elim hempty (hloop h.1)⟩
  | close_pipefds | returned => exact ⟨h.1, hempty h.2⟩

/-- The descriptor of the listener is -1, or one that `socket` gave. -/
theorem bind_addrs_socket (addrs : List addr_outs) :
    (bind_addrs addrs).1 = -1 ∨ ∃ a ∈ addrs, (bind_addrs addrs).1 = a.socket := by
  induction addrs with
  | nil => exact Or.inl rfl
  | cons a rest ih =>
    have hrest : (bind_addrs rest).1 = -1 ∨
        ∃ b ∈ a :: rest, (bind_addrs rest).1 = b.socket := by
      rcases ih with h | ⟨b, hb, h⟩
      · exact Or.inl h
      · exact Or.inr ⟨b, List.mem_cons_of_mem a hb, h⟩
    unfold bind_addrs
    split
    · exact hrest
    · split
      · exact Or.inr ⟨a, List.mem_cons_self, rfl⟩
      · exact hrest

theorem nl_start_listener_socket (o : listener_outs) :
    (nl_start_listener o).1 = -1 ∨ ∃ a ∈ o.addrs, (nl_start_listener o).1 = a.socket := by
  unfold nl_start_listener
  split
  · exact Or.inl rfl
  · simp only
    split
    · exact Or.inl rfl
    · split
      · exact Or.inl rfl
      · split
        · exact Or.inl rfl
        · exact bind_addrs_socket o.addrs

/-- All allocations of a call succeed. -/
def Allocates (o : create_outs) : Prop :=
  o.p_conn ≠ none ∧ o.p_recv_buf ≠ none ∧ o.p_send_buf ≠ none ∧ o.grow ≠ none

/-- All allocations succeed, what `realloc` adds reads as zero, and no descriptor is 0. -/
def MainLabel.Plenty : MainLabel → Prop
  | .start_listener o => ∀ a ∈ o.addrs, a.socket ≠ 0
  | .reg_listener o | .reg_sigpipe o => Allocates o
  | .update o => o = fun _ => zeroed
  | .accept o _ => Allocates o.create ∧ o.clifd ≠ 0
  | _ => True

theorem limited_of_start {t : Main} (h : Start t) (hpipe : t.sigpipe_fds.1 ≠ 0) : Limited t := by
  obtain ⟨o, m, fds, hinit, -, rfl⟩ := h
  have hmax : INITIAL_MAX_CONNS ≤ UINT16_MAX := by decide
  refine ⟨⟨⟨?_, clean_of_init hmax hinit, ?_⟩, rfl⟩, nofun, hpipe⟩
  · exact inStep_of_started ⟨INITIAL_MAX_CONNS, o, m, hmax, hinit, rfl⟩
  · obtain ⟨-, hring, hempty, -, -, -, hnum⟩ := connmgr_init_some hmax hinit
    have hqueue := hring.length_content
    rw [hempty] at hqueue
    simp [total_conns, hnum, ← hqueue]

theorem Stage.destroy_all {s : Manager} (h : Stage s .cleanup_connections) :
    ∃ r s', connmgr_destroy_all_conns s = some (r, s') ∧ Stage s' .close_pipefds := by
  obtain ⟨hw, -⟩ := h
  obtain ⟨hperm, -⟩ := hw.length_held
  have hnodup := hperm.nodup_iff.mp s.ctxs.keys_nodup
  have hheld : Held s := by
    refine ⟨hw.inStep.conns, hw.inStep.queue, hnodup, fun p hp => ?_⟩
    have hkeys := hperm.mem_iff.mpr hp
    obtain ⟨c, hc⟩ := lookup_of_mem hkeys
    exact ⟨(hw.inStep.live p c hc).1, hkeys⟩
  obtain ⟨s', hs, hdes, hnum, hqueue⟩ := hheld.destroy_all
  refine ⟨0, s', hs, ?_, ?_⟩
  · have htotal := hw.total
    unfold total_conns at *
    omega
  · have hlen := (hperm.symm.trans hdes.keys).length_eq
    rw [List.length_append] at hlen
    exact List.length_eq_zero_iff.mp (by omega)

theorem Limited.step {t t' : Main} {l : MainLabel} (h : Limited t) (hl : l.Plenty)
    (hs : main_machine.step t l = some t') : Limited t' := by
  have hstage := h.stage
  cases l with
  | start_listener o =>
    obtain ⟨hpc, hs⟩ := Option.ite_none_right_eq_some.mp hs
    rw [hpc] at hstage
    obtain rfl := Option.some.inj hs
    refine ⟨?_, ?_, h.pipe⟩
    · simp only [Main.goto]
      split
      · exact ⟨(hstage.1.mono (Nat.zero_le _)).total, hstage.2⟩
      · exact hstage
    · rcases nl_start_listener_socket o with hfd | ⟨a, ha, hfd⟩
      · simp [Main.goto, hfd]
      · intro _
        simp only [Main.goto, hfd]
        exact hl a ha
  | reg_listener o =>
    obtain ⟨hpc, hs⟩ := Option.ite_none_right_eq_some.mp hs
    rw [hpc] at hstage
    obtain ⟨r, hr, rfl⟩ := Option.map_eq_some_iff.mp hs
    have hw := hstage.1.create (h.sfd hpc) hr
    refine ⟨?_, ?_, h.pipe⟩
    · simp only [Main.goto, Main.after]
      split
      · rename_i hres
        refine ⟨hw.mono (Nat.succ_le_succ (Nat.zero_le _)), Or.inl ?_⟩
        rw [keys_of_create hr hres]
        exact hstage.2
      · rename_i hres
        exact ⟨hw, hasInternal_of_create hr (not_not.mp hres)⟩
    · simp only [Main.goto]
      split <;> nofun
  | reg_sigpipe o =>
    obtain ⟨hpc, hs⟩ := Option.ite_none_right_eq_some.mp hs
    rw [hpc] at hstage
    obtain ⟨r, hr, rfl⟩ := Option.map_eq_some_iff.mp hs
    have hw := (hstage.1.create h.pipe hr).mono (k := MAX_CONNECTIONS + 1) (by decide)
    have hi := hstage.2.create hr
    split
    · exact ⟨⟨hw, Or.inr hi⟩, nofun, h.pipe⟩
    · exact ⟨⟨hw, hi⟩, nofun, h.pipe⟩
  | close_conn conn =>
    obtain ⟨hpc, hs⟩ := Option.ite_none_right_eq_some.mp hs
    rw [hpc] at hstage
    obtain ⟨s, hc, rfl⟩ := Option.map_eq_some_iff.mp hs
    refine ⟨?_, h.sfd, h.pipe⟩
    simp only [Main.after, hpc]
    exact ⟨hstage.1.close_conn hc, hstage.2.close_conn hstage.1 hc⟩
  | update o =>
    obtain ⟨hpc, hs⟩ := Option.ite_none_right_eq_some.mp hs
    rw [hpc] at hstage
    have hzero : o = fun _ => zeroed := hl
    subst hzero
    obtain ⟨m, hu, hw⟩ := hstage.1.update (by decide)
    rw [hu] at hs
    cases hs
    exact ⟨⟨hw, hstage.2⟩, nofun, h.pipe⟩
  | nl_accept | next_round =>
    obtain ⟨hpc, hs⟩ := Option.ite_none_right_eq_some.mp hs
    rw [hpc] at hstage
    cases hs
    exact ⟨hstage, nofun, h.pipe⟩
  | accept o errno =>
    obtain ⟨hpc, hs⟩ := Option.ite_none_right_eq_some.mp hs
    rw [hpc] at hstage
    obtain ⟨⟨e, s⟩, ha, rfl⟩ := Option.map_eq_some_iff.mp hs
    have hw := hstage.1.accept_turn hl.2 ha
    have hi := hstage.2.accept_turn ha
    cases e with
    | next => exact ⟨⟨hw, hi⟩, nofun, h.pipe⟩
    | left =>
      refine ⟨?_, ?_, h.pipe⟩
      · simp only [Main.goto, Main.after]
        split
        · exact ⟨hw, hi⟩
        · exact ⟨hw, Or.inr hi⟩
      · simp only [Main.goto]
        split <;> nofun
    | failed => exact ⟨⟨hw, Or.inr hi⟩, nofun, h.pipe⟩
  | leave =>
    obtain ⟨hpc, hs⟩ := Option.ite_none_right_eq_some.mp hs
    cases hs
    refine ⟨?_, nofun, h.pipe⟩
    rcases hpc with hpc | hpc
    · rw [hpc] at hstage
      exact ⟨hstage.1, Or.inr hstage.2⟩
    · rw [hpc] at hstage
      exact ⟨hstage.1, Or.inr hstage.2⟩
  | destroy_all =>
    obtain ⟨hpc, hs⟩ := Option.ite_none_right_eq_some.mp hs
    rw [hpc] at hstage
    obtain ⟨r, s', hd, hend⟩ := hstage.destroy_all
    rw [hd] at hs
    cases hs
    exact ⟨hend, nofun, h.pipe⟩
  | close_pipefds =>
    obtain ⟨hpc, hs⟩ := Option.ite_none_right_eq_some.mp hs
    rw [hpc] at hstage
    cases hs
    exact ⟨hstage, nofun, h.pipe⟩

/-- In every run with enough memory that reads as zero, and with no descriptor 0, the sum is never
past the value that `nl_accept` tests it for, and there are at most `MAX_CONNECTIONS` inbound
connections. -/
theorem the_server_stays_within_its_limit {t : Main}
    (h : main_machine.Reach (fun t => Start t ∧ t.sigpipe_fds.1 ≠ 0) (fun _ l => l.Plenty) t) :
    t.conns.mgr.num_active_conns + t.conns.mgr.p_new_conns.num_items ≤ MAX_CONNECTIONS + 1 ∧
    (at_limit t.conns.mgr = true ↔ MAX_CONNECTIONS + 1 ≤
      t.conns.mgr.num_active_conns + t.conns.mgr.p_new_conns.num_items) ∧
    inbound t.conns ≤ MAX_CONNECTIONS := by
  have hlimited : Limited t := machine.Machine.Reach.invariant (P := Limited)
    (fun t ht => limited_of_start ht.1 ht.2) (fun t l t' ht hl hs => ht.step hl hs) h
  obtain ⟨htotal, hinbound⟩ := hlimited.stage.bounds
  exact ⟨htotal, at_limit_iff htotal, hinbound⟩

/-- The listener and the pipe are registered, and a client is accepted. -/
def accept_one : List MainLabel :=
  [listening, .reg_listener (made_at 1), .reg_sigpipe (made_at 2), .update fun _ => zeroed,
    .nl_accept, .accept ⟨7, ⟨0, 0⟩, made_at 3⟩ .other]

theorem plenty_accept_one : ∀ l ∈ accept_one, l.Plenty := by
  simp [accept_one, listening, MainLabel.Plenty, Allocates, made_at]

/-- Two connections are active, one is queued, and one of them is inbound. -/
theorem the_server_stays_within_its_limit_for_one_client :
    ∃ t : Main, t.pc = .accepting ∧
      t.conns.mgr.num_active_conns = 2 ∧ t.conns.mgr.p_new_conns.num_items = 1 ∧
      inbound t.conns = 1 ∧
      (t.conns.mgr.num_active_conns + t.conns.mgr.p_new_conns.num_items ≤ MAX_CONNECTIONS + 1 ∧
      (at_limit t.conns.mgr = true ↔ MAX_CONNECTIONS + 1 ≤
        t.conns.mgr.num_active_conns + t.conns.mgr.p_new_conns.num_items) ∧
      inbound t.conns ≤ MAX_CONNECTIONS) := by
  obtain ⟨t, hreach, hpc, hactive, hqueued, hinbound⟩ :=
    machine.Machine.exists_reach main_machine (fun t => Start t ∧ t.sigpipe_fds.1 ≠ 0)
      (fun _ l => l.Plenty)
      (fun t => t.pc = .accepting ∧ t.conns.mgr.num_active_conns = 2 ∧
        t.conns.mgr.p_new_conns.num_items = 1 ∧ inbound t.conns = 1)
      set_up accept_one ⟨start_set_up, by decide⟩
      (machine.Machine.meets_of_mem plenty_accept_one) (by decide +kernel)
  exact ⟨t, hpc, hactive, hqueued, hinbound, the_server_stays_within_its_limit hreach⟩

end pingpong.descriptors
