-- The law of the descriptors: each one is closed at most once, as long as the manager has not
-- taken the read end of the pipe when `main` comes to `close_pipefds`.
import PingPong.Descriptors
import PingPong.MgrLaws

namespace pingpong.descriptors

open connmgr ezqueue handles

/-! ## The descriptors of the contexts -/

def ctx_fds (ctxs : heap) : List Int := ctxs.entries.map fun e => e.2.fd

/-- From `s` to `s'` some contexts are destroyed, and their descriptors are closed. -/
def Closes (s s' : Manager) : Prop :=
  ∃ fds, s'.closed = s.closed ++ fds ∧ (ctx_fds s.ctxs).Perm (fds ++ ctx_fds s'.ctxs)

theorem Closes.same {s s' : Manager} (hctxs : s'.ctxs = s.ctxs) (hclosed : s'.closed = s.closed) :
    Closes s s' := by
  refine ⟨[], ?_, ?_⟩
  · simp [hclosed]
  · simp [hctxs]

theorem Closes.trans {s t u : Manager} (h : Closes s t) (h' : Closes t u) : Closes s u := by
  obtain ⟨fds, hclosed, hperm⟩ := h
  obtain ⟨fds', hclosed', hperm'⟩ := h'
  refine ⟨fds ++ fds', ?_, ?_⟩
  · rw [hclosed', hclosed, List.append_assoc]
  · rw [List.append_assoc]
    exact hperm.trans (hperm'.append_left fds)

theorem ctx_fds_insert {ctxs : heap} {p : ptr} (c : conn_ctx_t) (hp : p ∉ ctxs) :
    ctx_fds (ctxs.insert p c) = c.fd :: ctx_fds ctxs := by
  unfold ctx_fds
  rw [AList.entries_insert_of_notMem hp]
  rfl

theorem ctx_fds_erase {ctxs : heap} {p : ptr} {c : conn_ctx_t} (hc : ctxs.lookup p = some c) :
    (ctx_fds ctxs).Perm (c.fd :: ctx_fds (ctxs.erase p)) := by
  have hmem : p ∈ ctxs.entries.keys := AList.mem_keys.mp (AList.lookup_isSome.mp (by rw [hc]; rfl))
  obtain ⟨b, l₁, l₂, -, hl, hk⟩ := List.exists_of_kerase hmem
  have hb : ctxs.lookup p = some b := by
    apply (List.mem_dlookup_iff ctxs.nodupKeys).mpr
    rw [hl]
    simp
  rw [hc] at hb
  cases hb
  unfold ctx_fds
  rw [show (ctxs.erase p).entries = l₁ ++ l₂ from hk, hl, List.map_append, List.map_append,
    List.map_cons]
  exact List.perm_middle

theorem closes_of_destroy {p : ptr} {s s' : Manager} (h : connmgr_destroy_conn p s = some s') :
    Closes s s' := by
  unfold connmgr_destroy_conn at h
  split at h
  · cases h
    exact .same rfl rfl
  · obtain ⟨c, hc, rfl⟩ := Option.map_eq_some_iff.mp h
    exact ⟨[c.fd], rfl, ctx_fds_erase hc⟩

theorem closes_of_close_conn {conn : Nat} {s s' : Manager} (h : close_conn conn s = some s') :
    Closes s s' := by
  unfold close_conn at h
  split at h
  · cases h
  · obtain ⟨⟨err, item⟩, -, h⟩ := Option.bind_eq_some_iff.mp h
    obtain ⟨p, -, h⟩ := Option.bind_eq_some_iff.mp h
    obtain ⟨c, -, h⟩ := Option.bind_eq_some_iff.mp h
    split at h
    · cases h
    · obtain ⟨t, ht, h⟩ := Option.bind_eq_some_iff.mp h
      obtain ⟨⟨err, conns⟩, -, h⟩ := Option.bind_eq_some_iff.mp h
      refine (closes_of_destroy ht).trans ?_
      simp only at h
      split at h
      · obtain ⟨pfds, -, rfl⟩ := Option.map_eq_some_iff.mp h
        exact .same rfl rfl
      · cases h
        exact .same rfl rfl

theorem closes_of_destroy_each {idxs : List Nat} : ∀ {s s' : Manager},
    destroy_each idxs s = some s' → Closes s s' := by
  induction idxs with
  | nil =>
    intro s s' h
    cases h
    exact .same rfl rfl
  | cons idx idxs ih =>
    intro s s' h
    obtain ⟨⟨err, item⟩, -, h⟩ := Option.bind_eq_some_iff.mp h
    simp only at h
    split at h
    · exact ih h
    · obtain ⟨t, ht, h⟩ := Option.bind_eq_some_iff.mp h
      obtain ⟨⟨res, conns⟩, -, h⟩ := Option.bind_eq_some_iff.mp h
      have hrest := ih h
      exact (closes_of_destroy ht).trans hrest

theorem closes_of_clear {turns : Nat} : ∀ {q q' : ezqueue_t ptr} {s s' : Manager},
    clear_each NULL (some connmgr_destroy_conn) turns q s = some (q', s') → Closes s s' := by
  induction turns with
  | zero =>
    intro q q' s s' h
    cases h
  | succ turns ih =>
    intro q q' s s' h
    unfold clear_each at h
    split at h
    · obtain ⟨⟨err, item, q1⟩, -, h⟩ := Option.bind_eq_some_iff.mp h
      obtain ⟨t, ht, h⟩ := Option.bind_eq_some_iff.mp h
      refine Closes.trans ?_ (ih h)
      simp only [pass_item] at ht
      split at ht
      · exact closes_of_destroy ht
      · cases ht
        exact .same rfl rfl
    · cases h
      exact .same rfl rfl

theorem closes_of_destroy_all {s s' : Manager} {res : Int}
    (h : connmgr_destroy_all_conns s = some (res, s')) : Closes s s' := by
  obtain ⟨t, ht, h⟩ := Option.bind_eq_some_iff.mp h
  obtain ⟨⟨r, q, u⟩, hu, he⟩ := Option.map_eq_some_iff.mp h
  cases he
  obtain ⟨⟨q1, u1⟩, hc, hu⟩ := Option.map_eq_some_iff.mp hu
  cases hu
  exact (closes_of_destroy_each ht).trans ((closes_of_clear hc).trans (.same rfl rfl))

/-- A context is made with the descriptor of the call, and only when the call succeeds. An internal
one is then made. -/
theorem create_fds {fd : Int} {type : conn_type_t} {o : create_outs} {s : Manager}
    {r : create_result} (hr : connmgr_create_new_conn fd type o s = some r) :
    r.state.closed = s.closed ∧
    (ctx_fds r.state.ctxs = ctx_fds s.ctxs ∧ (type = .INTERNAL_CONN → r.res ≠ 0) ∨
      ctx_fds r.state.ctxs = fd :: ctx_fds s.ctxs ∧ r.res = 0) := by
  rcases create_cases hr with ⟨he, hres⟩ | ⟨p, c, q, -, -, hnew, hfd, -, -, he⟩
  · rw [he]
    exact ⟨rfl, Or.inl ⟨rfl, hres⟩⟩
  · rw [he]
    refine ⟨rfl, ?_⟩
    simp only
    split
    · rename_i hres
      exact Or.inl ⟨rfl, fun _ => hres⟩
    · rename_i hres
      exact Or.inr ⟨by rw [ctx_fds_insert c hnew, hfd], not_not.mp hres⟩

theorem accept_fds {o : accept_outs} {e : turn_end} {s s' : Manager}
    (h : accept_turn o s = some (e, s')) :
    ∃ cs, s'.closed = s.closed ++ cs ∧
      (cs ++ ctx_fds s'.ctxs).Subperm (accepted o s.mgr ++ ctx_fds s.ctxs) := by
  unfold accept_turn at h
  unfold accepted
  split at h
  · cases h
    exact ⟨[], by simp, by simp [*, List.Subperm.refl]⟩
  · rename_i hlimit
    split at h
    · cases h
      exact ⟨[], by simp, by simp [*, List.Subperm.refl]⟩
    · rename_i hfd
      rw [if_neg (by simp [hlimit, hfd])]
      split at h
      · -- the descriptor is not closed, and no context has it
        cases h
        exact ⟨[], by simp, List.Subperm.cons_self⟩
      · obtain ⟨r, hr, he⟩ := Option.map_eq_some_iff.mp h
        obtain ⟨hclosed, hctxs⟩ := create_fds hr
        split at he
        · rename_i hres
          cases he
          rcases hctxs with ⟨hctxs, -⟩ | ⟨-, h0⟩
          · exact ⟨[o.clifd], by simp [hclosed], by simp [hctxs, List.Subperm.refl]⟩
          · exact absurd h0 hres
        · cases he
          refine ⟨[], by simp [hclosed], ?_⟩
          rcases hctxs with ⟨hctxs, -⟩ | ⟨hctxs, -⟩
          · simp [hctxs, List.Subperm.cons_self]
          · simp [hctxs, List.Subperm.refl]

/-! ## What main has to close -/

/-- The ends of the pipe that no context of the manager has. -/
def Main.pipe_fds (t : Main) : List Int :=
  (if t.sigpipe_taken then [] else [t.sigpipe_fds.1]) ++ [t.sigpipe_fds.2]

/-- The descriptors that `main` has, and no context of the manager. -/
def Main.own_fds (t : Main) : List Int :=
  (if t.pc = .reg_listener then [t.sfd] else []) ++ t.pipe_fds

theorem Main.own_fds_of_ne {t : Main} (h : t.pc ≠ .reg_listener) : t.own_fds = t.pipe_fds := by
  simp [own_fds, h]

/-- All that was done to descriptors is proper, and the descriptors that are still to be closed
are open. -/
structure Tidy (t : Main) : Prop where
  proper : Proper [] t.events
  mine : t.pc ≠ .returned → (ctx_fds t.conns.ctxs ++ t.own_fds).Subperm t.still_open
  untaken : t.pc = .start_listener ∨ t.pc = .reg_listener ∨ t.pc = .reg_sigpipe →
    t.sigpipe_taken = false

theorem tidy_of_start {t : Main} (h : Start t) : Tidy t := by
  obtain ⟨o, m, fds, -, hne, rfl⟩ := h
  refine ⟨?_, ?_, fun _ => rfl⟩
  · simp [hne.symm]
  · intro _
    exact List.Perm.subperm (List.Perm.swap ..)

/-- A call of the manager that obtains `os`, closes `cs` and leaves `rest` to be closed. -/
theorem Tidy.after {t : Main} (h : Tidy t) (hpc : t.pc ≠ .returned) {s : Manager}
    {os cs rest : List Int} (hos : Proper t.still_open (os.map .obtained))
    (hc : s.closed = t.conns.closed ++ cs)
    (hsub : (cs ++ rest).Subperm (os ++ (ctx_fds t.conns.ctxs ++ t.own_fds))) :
    Proper [] (t.after os s).events ∧ rest.Subperm (t.after os s).still_open := by
  have hopen : (cs ++ rest).Subperm (openAfter t.still_open (os.map .obtained)) := by
    rw [openAfter_obtained]
    exact hsub.trans ((List.reverse_perm os).symm.subperm.append (h.mine hpc))
  obtain ⟨hproper, hrest⟩ := proper_closings hopen
  have hdrop : s.closed.drop t.conns.closed.length = cs := by
    rw [hc, List.drop_left]
  unfold Main.still_open Main.after at *
  simp only [hdrop]
  constructor
  · rw [proper_append, proper_append]
    refine ⟨⟨h.proper, hos⟩, ?_⟩
    rw [openAfter_append]
    exact hproper
  · rw [openAfter_append, openAfter_append]
    exact hrest

/-- A call of the manager that neither obtains nor closes a descriptor. -/
theorem Tidy.hands {t : Main} (h : Tidy t) (hpc : t.pc ≠ .returned) {s : Manager}
    {rest : List Int} (hc : s.closed = t.conns.closed)
    (hsub : rest.Subperm (ctx_fds t.conns.ctxs ++ t.own_fds)) :
    Proper [] (t.after [] s).events ∧ rest.Subperm (t.after [] s).still_open := by
  have hnone : s.closed = t.conns.closed ++ [] := by simp [hc]
  exact h.after hpc (proper_nil _) hnone hsub

/-! ## The steps of main -/

/-- The descriptors that the kernel gives are not open. -/
def KernelGivesFresh (t : Main) : MainLabel → Prop
  | .start_listener o => ∀ a ∈ o.addrs, a.socket = -1 ∨ a.socket ∉ t.still_open
  | .accept o _ => o.clifd = -1 ∨ o.clifd ∉ t.still_open
  | _ => True

instance decidableKernelGivesFresh (t : Main) : ∀ l, Decidable (KernelGivesFresh t l)
  | .start_listener o =>
    inferInstanceAs (Decidable (∀ a ∈ o.addrs, a.socket = -1 ∨ a.socket ∉ t.still_open))
  | .accept o _ => inferInstanceAs (Decidable (o.clifd = -1 ∨ o.clifd ∉ t.still_open))
  | .reg_listener _ | .reg_sigpipe _ | .close_conn _ | .update _ | .nl_accept | .next_round
  | .leave | .destroy_all | .close_pipefds => isTrue trivial

/-- When `main` comes to `close_pipefds`, the manager has not taken the read end of the pipe. -/
def PipeNotTaken (t : Main) : MainLabel → Prop
  | .close_pipefds => t.sigpipe_taken = false
  | _ => True

instance decidablePipeNotTaken (t : Main) : ∀ l, Decidable (PipeNotTaken t l)
  | .close_pipefds => inferInstanceAs (Decidable (t.sigpipe_taken = false))
  | .start_listener _ | .reg_listener _ | .reg_sigpipe _ | .close_conn _ | .update _ | .nl_accept
  | .accept _ _ | .next_round | .leave | .destroy_all => isTrue trivial

theorem bind_addrs_events {addrs : List addr_outs} {hs : List Int}
    (h : ∀ a ∈ addrs, a.socket = -1 ∨ a.socket ∉ hs) :
    Proper hs (bind_addrs addrs).2 ∧ openAfter hs (bind_addrs addrs).2 =
      if (bind_addrs addrs).1 = -1 then hs else (bind_addrs addrs).1 :: hs := by
  induction addrs with
  | nil => exact ⟨trivial, rfl⟩
  | cons a rest ih =>
    obtain ⟨hproper, hopen⟩ := ih fun b hb => h b (List.mem_cons_of_mem a hb)
    unfold bind_addrs
    split
    · exact ⟨hproper, hopen⟩
    · rename_i hfd
      have hnew := (h a List.mem_cons_self).resolve_left hfd
      split
      · simp [hnew, openAfter]
      · simp [hnew, hproper, hopen, openAfter]

theorem nl_start_listener_events {o : listener_outs} {hs : List Int}
    (h : ∀ a ∈ o.addrs, a.socket = -1 ∨ a.socket ∉ hs) :
    Proper hs (nl_start_listener o).2 ∧ openAfter hs (nl_start_listener o).2 =
      if (nl_start_listener o).1 = -1 then hs else (nl_start_listener o).1 :: hs := by
  obtain ⟨hproper, hopen⟩ := bind_addrs_events h
  unfold nl_start_listener
  split
  · exact ⟨trivial, rfl⟩
  · simp only
    split
    · rename_i hfd
      rw [if_pos hfd] at hopen
      simp [hproper, hopen]
    · rename_i hfd
      rw [if_neg hfd] at hopen
      have hclose : Proper hs ((bind_addrs o.addrs).2 ++ [.closed (bind_addrs o.addrs).1]) ∧
          openAfter hs ((bind_addrs o.addrs).2 ++ [.closed (bind_addrs o.addrs).1]) = hs := by
        simp [proper_append, openAfter_append, hproper, hopen, openAfter]
      split
      · simpa using hclose
      · split
        · simpa using hclose
        · simp [hproper, hopen]

/-- A step that only goes to another point. -/
theorem Tidy.goto {t : Main} (h : Tidy t) {pc : main_pc} (h1 : t.pc ≠ .reg_listener)
    (h2 : t.pc ≠ .returned) (hpc : pc = .closing ∨ pc = .dispatch ∨ pc = .accepting ∨
      pc = .cleanup_connections ∨ pc = .close_pipefds) : Tidy (t.goto pc) := by
  have hmine := h.mine h2
  rw [Main.own_fds_of_ne h1] at hmine
  refine ⟨h.proper, fun _ => ?_, ?_⟩
  · rw [Main.own_fds_of_ne (by rcases hpc with rfl | rfl | rfl | rfl | rfl <;> nofun)]
    exact hmine
  · rcases hpc with rfl | rfl | rfl | rfl | rfl <;> simp [Main.goto]

/-- A call of the manager that does not change what `main` has. -/
theorem Tidy.call {t : Main} (h : Tidy t) (hpc : t.pc ≠ .returned)
    {s : Manager} {os cs : List Int} (hos : Proper t.still_open (os.map .obtained))
    (hc : s.closed = t.conns.closed ++ cs)
    (hsub : (cs ++ ctx_fds s.ctxs).Subperm (os ++ ctx_fds t.conns.ctxs)) :
    Tidy (t.after os s) := by
  have hrest : (cs ++ (ctx_fds s.ctxs ++ t.own_fds)).Subperm
      (os ++ (ctx_fds t.conns.ctxs ++ t.own_fds)) := by
    rw [← List.append_assoc, ← List.append_assoc]
    exact hsub.append (List.Subperm.refl _)
  obtain ⟨hproper, hmine⟩ := h.after hpc hos hc hrest
  exact ⟨hproper, fun _ => hmine, h.untaken⟩

theorem Tidy.closes {t : Main} (h : Tidy t) (hpc : t.pc ≠ .returned) {s : Manager}
    (hs : Closes t.conns s) : Tidy (t.after [] s) := by
  obtain ⟨fds, hclosed, hperm⟩ := hs
  exact h.call hpc (proper_nil _) hclosed hperm.symm.subperm

/-- The listener is a new descriptor that `main` has to close. -/
theorem Tidy.start_listener {t : Main} {o : listener_outs} (h : Tidy t)
    (hpc : t.pc = .start_listener) (hk : KernelGivesFresh t (.start_listener o)) :
    Tidy ({ t with
      sfd := (nl_start_listener o).1, events := t.events ++ (nl_start_listener o).2 }.goto
        (if (nl_start_listener o).1 = -1 then .close_pipefds else .reg_listener)) := by
  obtain ⟨hproper, hopen⟩ := nl_start_listener_events hk
  have huntaken := h.untaken (Or.inl hpc)
  have hmine := h.mine (by simp [hpc])
  refine ⟨proper_append.mpr ⟨h.proper, hproper⟩, fun _ => ?_, fun _ => huntaken⟩
  rw [Main.own_fds_of_ne (by simp [hpc])] at hmine
  unfold Main.still_open Main.goto at *
  simp only [openAfter_append, hopen]
  split
  · rw [Main.own_fds_of_ne (by simp)]
    exact hmine
  · simp only [Main.own_fds, if_true, List.singleton_append]
    exact List.perm_middle.subperm.trans ((List.subperm_cons _).mpr hmine)

/-- The manager takes the listener over, or it is lost. -/
theorem Tidy.reg_listener {t : Main} {o : create_outs} {r : create_result} (h : Tidy t)
    (hpc : t.pc = .reg_listener)
    (hr : connmgr_create_new_conn t.sfd .INTERNAL_CONN o t.conns = some r) :
    Tidy ((t.after [] r.state).goto
      (if r.res ≠ 0 then .cleanup_connections else .reg_sigpipe)) := by
  have huntaken := h.untaken (Or.inr (Or.inl hpc))
  obtain ⟨hclosed, hctxs⟩ := create_fds hr
  have hsub : (ctx_fds r.state.ctxs ++ t.pipe_fds).Subperm
      (ctx_fds t.conns.ctxs ++ t.own_fds) := by
    have hown : t.own_fds = t.sfd :: t.pipe_fds := by simp [Main.own_fds, hpc]
    rw [hown]
    rcases hctxs with ⟨hctxs, -⟩ | ⟨hctxs, -⟩
    · rw [hctxs]
      exact (List.Subperm.refl _).append List.Subperm.cons_self
    · rw [hctxs]
      exact List.perm_middle.symm.subperm
  obtain ⟨hproper, hmine⟩ := h.hands (by simp [hpc]) hclosed hsub
  refine ⟨hproper, fun _ => ?_, fun _ => huntaken⟩
  rw [Main.own_fds_of_ne (by simp only [Main.goto]; split <;> nofun)]
  exact hmine

/-- The manager takes the read end of the pipe over, or it stays with `main`. -/
theorem Tidy.reg_sigpipe {t : Main} {o : create_outs} {r : create_result} (h : Tidy t)
    (hpc : t.pc = .reg_sigpipe)
    (hr : connmgr_create_new_conn t.sigpipe_fds.1 .INTERNAL_CONN o t.conns = some r) :
    Tidy (if r.res ≠ 0 then (t.after [] r.state).goto .cleanup_connections
      else { (t.after [] r.state).goto .closing with sigpipe_taken := true }) := by
  have huntaken := h.untaken (Or.inr (Or.inr hpc))
  obtain ⟨hclosed, hctxs⟩ := create_fds hr
  have hown : t.own_fds = [t.sigpipe_fds.1, t.sigpipe_fds.2] := by
    rw [Main.own_fds_of_ne (by simp [hpc])]
    simp [Main.pipe_fds, huntaken]
  rcases hctxs with ⟨hctxs, hres⟩ | ⟨hctxs, hres⟩
  · have hcall := h.closes (by simp [hpc])
      ⟨[], by simp [hclosed], List.Perm.of_eq hctxs.symm⟩
    rw [if_pos (hres rfl)]
    exact hcall.goto (by simp [Main.after, hpc]) (by simp [Main.after, hpc]) (by simp)
  · have hsub : (ctx_fds r.state.ctxs ++ [t.sigpipe_fds.2]).Subperm
        (ctx_fds t.conns.ctxs ++ t.own_fds) := by
      rw [hctxs, hown]
      exact List.perm_middle.symm.subperm
    obtain ⟨hproper, hmine⟩ := h.hands (by simp [hpc]) hclosed hsub
    rw [if_neg (by simp [hres])]
    refine ⟨hproper, fun _ => ?_, by simp [Main.goto]⟩
    rw [Main.own_fds_of_ne (by simp [Main.goto])]
    exact hmine

theorem Tidy.step {t t' : Main} {l : MainLabel} (h : Tidy t) (hk : KernelGivesFresh t l)
    (hpipe : PipeNotTaken t l) (hs : main_machine.step t l = some t') : Tidy t' := by
  cases l with
  | start_listener o =>
    obtain ⟨hpc, hs⟩ := Option.ite_none_right_eq_some.mp hs
    obtain rfl := Option.some.inj hs
    exact h.start_listener hpc hk
  | reg_listener o =>
    obtain ⟨hpc, hs⟩ := Option.ite_none_right_eq_some.mp hs
    obtain ⟨r, hr, rfl⟩ := Option.map_eq_some_iff.mp hs
    exact h.reg_listener hpc hr
  | reg_sigpipe o =>
    obtain ⟨hpc, hs⟩ := Option.ite_none_right_eq_some.mp hs
    obtain ⟨r, hr, rfl⟩ := Option.map_eq_some_iff.mp hs
    exact h.reg_sigpipe hpc hr
  | close_conn conn =>
    obtain ⟨hpc, hs⟩ := Option.ite_none_right_eq_some.mp hs
    obtain ⟨s, hc, rfl⟩ := Option.map_eq_some_iff.mp hs
    exact h.closes (by simp [hpc]) (closes_of_close_conn hc)
  | update o =>
    obtain ⟨hpc, hs⟩ := Option.ite_none_right_eq_some.mp hs
    obtain ⟨⟨res, m⟩, -, rfl⟩ := Option.map_eq_some_iff.mp hs
    have hcall := h.closes (by simp [hpc])
      (s := { t.conns with mgr := m }) (.same rfl rfl)
    refine hcall.goto (by simp [Main.after, hpc]) (by simp [Main.after, hpc]) ?_
    split <;> simp
  | nl_accept | next_round =>
    obtain ⟨hpc, hs⟩ := Option.ite_none_right_eq_some.mp hs
    cases hs
    exact h.goto (by simp [hpc]) (by simp [hpc]) (by simp)
  | accept o errno =>
    obtain ⟨hpc, hs⟩ := Option.ite_none_right_eq_some.mp hs
    obtain ⟨⟨e, s⟩, ha, rfl⟩ := Option.map_eq_some_iff.mp hs
    obtain ⟨cs, hclosed, hsub⟩ := accept_fds ha
    have hos : Proper t.still_open ((accepted o t.conns.mgr).map .obtained) := by
      unfold accepted
      split
      · trivial
      · rename_i hnot
        simp [hk.resolve_left fun hfd => hnot (Or.inr hfd)]
    have hcall := h.call (by simp [hpc]) hos hclosed hsub
    refine hcall.goto (by simp [Main.after, hpc]) (by simp [Main.after, hpc]) ?_
    cases e with
    | next => simp
    | left => simp only; split <;> simp
    | failed => simp
  | leave =>
    obtain ⟨hpc, hs⟩ := Option.ite_none_right_eq_some.mp hs
    cases hs
    refine h.goto ?_ ?_ (by simp)
    · rcases hpc with hpc | hpc <;> simp [hpc]
    · rcases hpc with hpc | hpc <;> simp [hpc]
  | destroy_all =>
    obtain ⟨hpc, hs⟩ := Option.ite_none_right_eq_some.mp hs
    obtain ⟨⟨res, s⟩, hd, rfl⟩ := Option.map_eq_some_iff.mp hs
    have hcall := h.closes (by simp [hpc]) (closes_of_destroy_all hd)
    exact hcall.goto (by simp [Main.after, hpc]) (by simp [Main.after, hpc]) (by simp)
  | close_pipefds =>
    obtain ⟨hpc, hs⟩ := Option.ite_none_right_eq_some.mp hs
    cases hs
    have huntaken : t.sigpipe_taken = false := hpipe
    have hmine := h.mine (by simp [hpc])
    rw [Main.own_fds_of_ne (by simp [hpc])] at hmine
    simp only [Main.pipe_fds, huntaken] at hmine
    have hclose := proper_closings (List.perm_append_comm.subperm.trans hmine)
    refine ⟨proper_append.mpr ⟨h.proper, hclose.1⟩, fun hne => absurd rfl hne, by simp⟩

/-- In every run in which the manager has not taken the read end of the pipe when `main` closes
both ends, each descriptor is closed at most once after it was obtained. -/
theorem each_descriptor_is_closed_once {t : Main}
    (h : main_machine.Reach Start (fun t l => KernelGivesFresh t l ∧ PipeNotTaken t l) t) :
    ClosedOnce t.events := by
  have htidy : Tidy t := machine.Machine.Reach.invariant (P := Tidy)
    (fun t ht => tidy_of_start ht) (fun t l t' ht hl hs => ht.step hl.1 hl.2 hs) h
  exact htidy.proper.closedOnce List.nodup_nil

/-- There is no memory for the context of the pipe, and `main` returns. -/
def failed_start : List MainLabel :=
  [listening, .reg_listener (made_at 1), .reg_sigpipe { made_at 2 with p_conn := none },
    .destroy_all, .close_pipefds]

theorem each_descriptor_is_closed_once_after_a_failed_start :
    ∃ t : Main, t.pc = .returned ∧ t.events =
      [.obtained 3, .obtained 4, .obtained 5, .closed 5, .closed 3, .closed 4] ∧
      ClosedOnce t.events := by
  obtain ⟨t, hreach, hpc, hevents⟩ := machine.Machine.exists_reach main_machine Start
    (fun t l => KernelGivesFresh t l ∧ PipeNotTaken t l)
    (fun t => t.pc = .returned ∧ t.events =
      [.obtained 3, .obtained 4, .obtained 5, .closed 5, .closed 3, .closed 4])
    set_up failed_start start_set_up (by decide +kernel) (by decide +kernel)
  exact ⟨t, hpc, hevents, each_descriptor_is_closed_once hreach⟩

/-- The server starts, and is shut down after its first round. -/
def clean_shutdown : List MainLabel :=
  [listening, .reg_listener (made_at 1), .reg_sigpipe (made_at 2), .update fun _ => zeroed,
    .next_round, .leave, .destroy_all, .close_pipefds]

/-- The read end of the pipe is closed with its context, and closed again by `main`. -/
theorem the_read_end_of_the_pipe_is_closed_twice :
    ¬ ∀ t, main_machine.Reach Start KernelGivesFresh t → ClosedOnce t.events := by
  intro hall
  obtain ⟨t, hreach, hevents⟩ := machine.Machine.exists_reach main_machine Start KernelGivesFresh
    (fun t => t.events = [.obtained 3, .obtained 4, .obtained 5, .closed 5, .closed 3,
      .closed 3, .closed 4])
    set_up clean_shutdown start_set_up (by decide +kernel) (by decide +kernel)
  have honce := hall t hreach
  rw [hevents] at honce
  obtain ⟨k, hk4, hk5, -⟩ := honce 4 5 3 (by decide) rfl rfl
  omega

end pingpong.descriptors
