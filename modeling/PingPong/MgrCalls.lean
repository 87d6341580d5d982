-- What each call of the connection manager does to the two arrays, to the queue
-- and to the contexts.
import PingPong.ConnMgr
import Mathlib.Data.List.Forall2

namespace pingpong.connmgr

open blocks ezarray ezqueue

/-- The entries of the poll array in use. -/
def polled (m : conn_mgr_t) : List pollfd := m.p_pfds.take m.num_active_conns

/-- The entries of the poll array not in use. -/
def unpolled (m : conn_mgr_t) : List pollfd := m.p_pfds.drop m.num_active_conns

/-- The counters of the manager are those of the context array, and the poll
array has its size. -/
structure Balanced (m : conn_mgr_t) : Prop where
  conns : Sized m.p_conns
  queue : Ring m.p_new_conns
  num : m.num_active_conns = m.p_conns.num_items
  max : m.max_conns = m.p_conns.max_items
  pfds : m.p_pfds.length = m.p_conns.max_items

/-- A slot of the two arrays is empty in both, or has a context in the one and
its descriptor in the other. -/
def Slot (ctxs : heap) (p : ptr) (f : pollfd) : Prop :=
  (p = NULL ∧ f.fd = 0) ∨
  (p ≠ NULL ∧ f.fd ≠ 0 ∧ ∃ c, ctxs.lookup p = some c ∧ f.fd = c.fd)

/-- The slots not in use are empty. -/
def SpareClean (m : conn_mgr_t) : Prop :=
  (∀ p ∈ spare m.p_conns, p = NULL) ∧ ∀ f ∈ unpolled m, f.fd = 0

theorem Slot.keep {ctxs : heap} {p : ptr} {f : pollfd} (h : Slot ctxs p f) :
    (p != NULL) = true ↔ (f.fd != 0) = true := by
  rcases h with ⟨hp, hf⟩ | ⟨hp, hf, -⟩
  · simp [hp, hf]
  · simp [hp, hf]

/-! ## A new context -/

/-- A call that does not come to the queue changes nothing, and says so for an internal connection.
One that does makes a context with the descriptor and the type, and keeps it when the queue takes
it. -/
theorem create_cases {fd : Int} {type : conn_type_t} {o : create_outs} {s : Manager}
    {r : create_result} (hr : connmgr_create_new_conn fd type o s = some r) :
    (r.state = s ∧ (type = .INTERNAL_CONN → r.res ≠ 0)) ∨
    ∃ p c q, 0 ≤ fd ∧ p ≠ NULL ∧ p ∉ s.ctxs ∧ c.fd = fd ∧ c.type = type ∧
      ezq_enqueue o.grow p s.mgr.p_new_conns = some (r.res, q) ∧
      r.state = ⟨{ s.mgr with p_new_conns := q },
        if r.res ≠ 0 then s.ctxs else s.ctxs.insert p c, s.closed⟩ := by
  have henq : ∀ {p : ptr} {c : conn_ctx_t} {acquired : List resource_t}, 0 ≤ fd →
      ¬ (p = NULL ∨ p ∈ s.ctxs) → c.fd = fd → c.type = type →
      enqueue_conn p c acquired o s = some r →
      ∃ p c q, 0 ≤ fd ∧ p ≠ NULL ∧ p ∉ s.ctxs ∧ c.fd = fd ∧ c.type = type ∧
        ezq_enqueue o.grow p s.mgr.p_new_conns = some (r.res, q) ∧
        r.state = ⟨{ s.mgr with p_new_conns := q },
          if r.res ≠ 0 then s.ctxs else s.ctxs.insert p c, s.closed⟩ := by
    intro p c acquired hfd hp hcfd htype he
    rw [not_or] at hp
    simp only [enqueue_conn, Option.map_eq_some_iff] at he
    obtain ⟨⟨res, q⟩, hq, he⟩ := he
    refine ⟨p, c, q, hfd, hp.1, hp.2, hcfd, htype, ?_⟩
    subst he
    split
    · exact ⟨hq, by simp [*]⟩
    · exact ⟨hq, by simp [*]⟩
  unfold connmgr_create_new_conn at hr
  split at hr
  · cases hr
    exact Or.inl ⟨rfl, by simp⟩
  · rename_i hfd
    have hfd : 0 ≤ fd := by omega
    split at hr
    · cases hr
      exact Or.inl ⟨rfl, by simp⟩
    · split at hr
      · cases hr
      · rename_i hp
        split at hr
        · split at hr
          · cases hr
            exact Or.inl ⟨rfl, by simp⟩
          · split at hr
            · cases hr
              exact Or.inl ⟨rfl, by simp⟩
            · split at hr
              · cases hr
                exact Or.inl ⟨rfl, by simp⟩
              · exact Or.inr (henq hfd hp rfl rfl hr)
        · exact Or.inr (henq hfd hp rfl rfl hr)

/-! ## The poll array -/

/-- The call fails when the array is full and cannot grow, or an entry is added after those in
use. The entries after it are as before, or those of the `realloc`. -/
theorem add_to_pollfd_spec {pfds : List pollfd} {n : Nat} (fd : Int)
    (grow : Option (Nat → pollfd)) (hn : n ≤ pfds.length) (hmax : pfds.length ≤ UINT16_MAX)
    (hpos : 0 < pfds.length) :
    (add_to_pollfd fd grow pfds n pfds.length = some (-1, pfds) ∧ n = pfds.length ∧
      (pfds.length = UINT16_MAX ∨ grow = none)) ∨
    ∃ pfds', add_to_pollfd fd grow pfds n pfds.length = some (0, pfds') ∧
      pfds'.take (n + 1) = pfds.take n ++ [⟨fd, all_events, no_events⟩] ∧
      pfds'.length = capacity n pfds.length ∧
      ∀ f ∈ pfds'.drop (n + 1), f ∈ pfds.drop n ∨ ∃ fill i, grow = some fill ∧ f = fill i := by
  unfold add_to_pollfd capacity
  by_cases hfull : n = pfds.length
  · simp only [if_pos hfull]
    cases hnew : new_max n with
    | none => exact Or.inl ⟨rfl, hfull, Or.inl (hfull ▸ new_max_eq_none.mp hnew)⟩
    | some m =>
      cases grow with
      | none => exact Or.inl ⟨rfl, hfull, Or.inr rfl⟩
      | some fill =>
        obtain ⟨hle, -, hlt⟩ := new_max_spec (hfull ▸ hmax) hnew
        have hlt : n < m := hlt (hfull ▸ hpos)
        have hin : n < (realloc pfds m fill).length := by rwa [length_realloc]
        simp only [store_of_lt hin]
        refine Or.inr ⟨_, rfl, ?_, ?_, fun f hf => ?_⟩
        · rw [take_set_succ hin, take_realloc fill hn (hfull ▸ hle)]
        · rw [List.length_set, length_realloc]
          rfl
        · exact (mem_drop_set_realloc hf).imp_right fun ⟨i, hi⟩ => ⟨fill, i, rfl, hi⟩
  · simp only [if_neg hfull]
    have hin : n < pfds.length := Nat.lt_of_le_of_ne hn hfull
    simp only [store_of_lt hin]
    exact Or.inr ⟨_, rfl, take_set_succ hin _, List.length_set .., fun f hf =>
      Or.inl (mem_drop_set hf)⟩

/-- However the two sizes stand, an entry that is added is one more inside of
the block. -/
theorem add_to_pollfd_inside {pfds pfds' : List pollfd} {fd : Int}
    {grow : Option (Nat → pollfd)} {n max : Nat} (hn : n ≤ UINT16_MAX)
    (hlen : pfds.length ≤ UINT16_MAX) (h : add_to_pollfd fd grow pfds n max = some (0, pfds')) :
    n + 1 ≤ pfds'.length ∧ pfds'.length ≤ UINT16_MAX := by
  unfold add_to_pollfd at h
  split at h
  · simp at h
  · rename_i b hb
    have hb' : b.length ≤ UINT16_MAX := by
      split at hb
      · split at hb
        · rename_i hnew
          cases hb
          rw [length_realloc]
          exact (new_max_spec hn hnew).2.1
        · cases hb
      · cases hb
        exact hlen
    simp only [Option.map_eq_some_iff, store_eq_some] at h
    obtain ⟨c, ⟨hin, rfl⟩, hc⟩ := h
    cases hc
    rw [List.length_set]
    exact ⟨hin, hb'⟩

/-! ## The closing pass -/

/-- A turn of the pass destroys the context, and blanks its slot in both arrays. -/
theorem close_conn_some {s s' : Manager} (hb : Balanced s.mgr) {conn : Nat}
    (h : close_conn conn s = some s') :
    ∃ p c, conn < s.mgr.p_conns.num_items ∧ (used s.mgr.p_conns)[conn]? = some p ∧
      s.ctxs.lookup p = some c ∧ c.type ≠ .INTERNAL_CONN ∧
      connmgr_destroy_conn p s = some ⟨s.mgr, s'.ctxs, s'.closed⟩ ∧
      s'.mgr = { s.mgr with
        p_conns := { s.mgr.p_conns with pp_buf := s.mgr.p_conns.pp_buf.set conn NULL }
        p_pfds := s.mgr.p_pfds.set conn zero_pollfd } := by
  unfold close_conn at h
  split at h
  · cases h
  · rename_i hlt
    have hlt : conn < s.mgr.p_conns.num_items := by
      rw [← hb.num]
      omega
    obtain ⟨⟨err, item⟩, hget, h⟩ := Option.bind_eq_some_iff.mp h
    obtain ⟨p, hitem, h⟩ := Option.bind_eq_some_iff.mp h
    obtain ⟨c, hc, h⟩ := Option.bind_eq_some_iff.mp h
    split at h
    · cases h
    · rename_i htype
      obtain ⟨s1, hdes, h⟩ := Option.bind_eq_some_iff.mp h
      have hmgr : s1.mgr = s.mgr := by
        unfold connmgr_destroy_conn at hdes
        split at hdes
        · cases hdes
          rfl
        · rw [hc] at hdes
          cases hdes
          rfl
      have hpfd : conn < s.mgr.p_pfds.length := by
        have := hb.conns.num
        rw [hb.pfds]
        omega
      simp only [hmgr, set_at_spec hb.conns hlt, Option.bind_some, if_true, store_of_lt hpfd,
        Option.map_some, Option.some.injEq] at h
      subst h
      refine ⟨p, c, hlt, ?_, hc, htype, hmgr ▸ hdes, rfl⟩
      unfold ezarr_get_at at hget
      split at hget
      · cases hget
        cases hitem
      · simp only [Option.map_eq_some_iff, Prod.mk.injEq] at hget
        obtain ⟨x, hx, -, hxi⟩ := hget
        rw [used, List.getElem?_take_of_lt hlt, hx, hxi]
        exact hitem

/-- The pass blanks the slots of the two arrays that it closes, all of them in use. -/
theorem closing_pass_some {conns : List Nat} : ∀ {s s' : Manager}, Balanced s.mgr →
    closing_pass conns s = some s' →
    (∀ i ∈ conns, i < s.mgr.p_conns.num_items) ∧ Balanced s'.mgr ∧
      s'.mgr = { s.mgr with
        p_conns := { s.mgr.p_conns with pp_buf := blanked NULL conns s.mgr.p_conns.pp_buf }
        p_pfds := blanked zero_pollfd conns s.mgr.p_pfds } := by
  induction conns with
  | nil =>
    intro s s' hb h
    cases h
    exact ⟨nofun, hb, rfl⟩
  | cons i conns ih =>
    intro s s' hb h
    obtain ⟨s1, h1, h⟩ := Option.bind_eq_some_iff.mp h
    obtain ⟨p, c, hi, -, -, -, -, hmgr⟩ := close_conn_some hb h1
    have hb1 : Balanced s1.mgr := by
      rw [hmgr]
      exact ⟨hb.conns.set i NULL, hb.queue, hb.num, hb.max, (List.length_set ..).trans hb.pfds⟩
    obtain ⟨hin, hb', hmgr'⟩ := ih hb1 h
    rw [hmgr] at hin hmgr'
    refine ⟨fun j hj => ?_, hb', hmgr'⟩
    rcases List.mem_cons.mp hj with rfl | hj
    · exact hi
    · exact hin j hj

/-! ## The pass that removes -/

/-- Both filters end, and keep what is not empty of all the slots. -/
theorem remove_spec {m : conn_mgr_t} (h : Balanced m) :
    ∃ conns pfds, connmgr_remove_closed_connections m =
        some (0, { m with p_conns := conns, p_pfds := pfds,
                          num_active_conns := (m.p_pfds.filter fun f => f.fd != 0).length }) ∧
      Sized conns ∧ conns.max_items = m.p_conns.max_items ∧ pfds.length = m.p_pfds.length ∧
      used conns = m.p_conns.pp_buf.filter (fun p => p != NULL) ∧ (∀ p ∈ spare conns, p = NULL) ∧
      pfds.take (m.p_pfds.filter fun f => f.fd != 0).length
        = m.p_pfds.filter (fun f => f.fd != 0) ∧
      ∀ f ∈ pfds.drop (m.p_pfds.filter fun f => f.fd != 0).length,
        f = zero_pollfd ∨ (f ∈ m.p_pfds ∧ f.fd = 0) := by
  obtain ⟨conns, hc, hsized, hused, hspare, hmax⟩ := compact_spec h.conns NULL
  obtain ⟨gone, hgone, hlen, hs⟩ := squeeze_spec (fun f : pollfd => f.fd != 0) zero_pollfd
    (fun i _ => rfl) (h.pfds.trans h.max.symm) (Nat.lt_succ_self m.max_conns)
  have hcount : (m.p_pfds.filter fun f => f.fd != 0).length ≤ UINT16_MAX := by
    have hle := List.length_filter_le (fun f : pollfd => f.fd != 0) m.p_pfds
    rw [h.pfds] at hle
    exact Nat.le_trans hle h.conns.le
  refine ⟨conns, m.p_pfds.filter (fun f => f.fd != 0) ++ gone, ?_, hsized, hmax, ?_, hused, hspare,
    List.take_left, ?_⟩
  · simp only [connmgr_remove_closed_connections, hc, Option.bind_some]
    rw [if_neg (by simp), hs, Option.map_some, u16_of_le hcount]
  · rw [hlen, h.max, h.pfds]
  · rw [List.drop_left]
    exact fun f hf => (hgone f hf).imp_right (And.imp_right (by simp))

/-- The filter of the poll array finds nothing behind the entries in use. -/
theorem filter_polled {m : conn_mgr_t} (hclean : ∀ f ∈ unpolled m, f.fd = 0) :
    m.p_pfds.filter (fun f => f.fd != 0) = (polled m).filter (fun f => f.fd != 0) := by
  have hunpolled : (unpolled m).filter (fun f => f.fd != 0) = [] := by
    rw [List.filter_eq_nil_iff]
    intro f hf
    simp [hclean f hf]
  conv_lhs => rw [← List.take_append_drop m.num_active_conns m.p_pfds]
  rw [List.filter_append]
  exact (congrArg _ hunpolled).trans (List.append_nil _)

/-- When the slots not in use are empty, both filters keep the same slots. -/
theorem remove_keeps_step {ctxs : heap} {m : conn_mgr_t} (h : Balanced m)
    (hslots : List.Forall₂ (Slot ctxs) (used m.p_conns) (polled m)) (hclean : SpareClean m) :
    ∃ m', connmgr_remove_closed_connections m = some (0, m') ∧ Balanced m' ∧
      used m'.p_conns = (used m.p_conns).filter (fun p => p != NULL) ∧
      List.Forall₂ (Slot ctxs) (used m'.p_conns) (polled m') ∧
      m'.p_new_conns = m.p_new_conns := by
  obtain ⟨conns, pfds, he, hsized, hmax, hlen, hused, -, htake, -⟩ := remove_spec h
  have hspare : (spare m.p_conns).filter (fun p => p != NULL) = [] := by
    rw [List.filter_eq_nil_iff]
    intro p hp
    simp [hclean.1 p hp]
  have hconns : m.p_conns.pp_buf.filter (fun p => p != NULL)
      = (used m.p_conns).filter (fun p => p != NULL) := by
    rw [← used_append_spare, List.filter_append, hspare, List.append_nil]
  have hpfds := filter_polled hclean.2
  have hall : List.Forall₂ (Slot ctxs) (used conns) (m.p_pfds.filter fun f => f.fd != 0) := by
    rw [hused, hconns, hpfds]
    exact List.rel_filter (fun _ _ hs => hs.keep) hslots
  refine ⟨_, he, ⟨hsized, h.queue, ?_, ?_, ?_⟩, hused.trans hconns, ?_, rfl⟩
  · rw [← hall.length_eq, hsized.length_used]
  · exact h.max.trans hmax.symm
  · exact hlen.trans (h.pfds.trans hmax.symm)
  · show List.Forall₂ (Slot ctxs) (used conns) (pfds.take _)
    rw [htake]
    exact hall

/-- After the pass the slots not in use are empty. -/
theorem remove_clean {m m' : conn_mgr_t} (h : Balanced m)
    (hr : connmgr_remove_closed_connections m = some (0, m')) : SpareClean m' := by
  obtain ⟨conns, pfds, he, -, -, -, -, hspare, -, hgone⟩ := remove_spec h
  rw [hr] at he
  cases he
  refine ⟨hspare, fun f hf => ?_⟩
  rcases hgone f hf with rfl | ⟨-, hfd⟩
  · rfl
  · exact hfd

/-! ## The loop that adds -/

/-- The loop counts up both arrays by the same number, however they stand. -/
theorem add_counts {ctxs : heap} {o : Nat → grow_outs} (turns : Nat) :
    ∀ {m m' : conn_mgr_t}, Sized m.p_conns → Ring m.p_new_conns →
      m.num_active_conns ≤ UINT16_MAX → m.p_pfds.length ≤ UINT16_MAX →
      add_each ctxs o turns m = some (0, m') →
      m'.p_conns.num_items = m.p_conns.num_items + m.p_new_conns.num_items ∧
      m'.num_active_conns = m.num_active_conns + m.p_new_conns.num_items := by
  induction turns with
  | zero =>
    intro m m' _ _ _ _ h
    cases h
  | succ turns ih =>
    intro m m' hconns hqueue hnum hlen h
    unfold add_each at h
    by_cases h0 : m.p_new_conns.num_items = 0
    · rw [if_pos h0] at h
      cases h
      simp [h0]
    · obtain ⟨p, q, hdeq, hq, -, hqnum⟩ := dequeue_spec hqueue (Nat.pos_of_ne_zero h0)
      rw [if_neg h0, hdeq] at h
      simp only [Option.bind_some] at h
      rcases push_spec hconns (o turns).conns p with ⟨hfail, -⟩ | ⟨a, hpush, ha, -, hanum, -, -⟩
      · simp [hfail] at h
      · simp only [hpush, Option.bind_some, ne_eq, not_true_eq_false, if_false] at h
        obtain ⟨c, -, h⟩ := Option.bind_eq_some_iff.mp h
        obtain ⟨⟨res, pfds⟩, hadd, h⟩ := Option.bind_eq_some_iff.mp h
        by_cases hres : res = 0
        · subst hres
          obtain ⟨hin, hlen'⟩ := add_to_pollfd_inside hnum hlen hadd
          simp only [not_true_eq_false, if_false] at h
          have hu : u16 (m.num_active_conns + 1) = m.num_active_conns + 1 :=
            u16_of_le (Nat.le_trans hin hlen')
          rw [hu] at h
          obtain ⟨h1, h2⟩ := ih ha hq (Nat.le_trans hin hlen') hlen' h
          simp only at h1 h2
          omega
        · simp [hres] at h

/-- What a turn of the loop does with the next context, when its three calls succeed. -/
structure Added (ctxs : heap) (o : grow_outs) (p : ptr) (m m' : conn_mgr_t) : Prop where
  balanced : Balanced m'
  queue : content m.p_new_conns = p :: content m'.p_new_conns
  left : m'.p_new_conns.num_items + 1 = m.p_new_conns.num_items
  conns : used m'.p_conns = used m.p_conns ++ [p]
  pfds : ∃ c, ctxs.lookup p = some c ∧
    polled m' = polled m ++ [⟨c.fd, all_events, no_events⟩]
  spare_conns : ∀ q ∈ spare m'.p_conns,
    q ∈ spare m.p_conns ∨ ∃ fill i, o.conns = some fill ∧ q = fill i
  spare_pfds : ∀ f ∈ unpolled m', f ∈ unpolled m ∨ ∃ fill i, o.pfds = some fill ∧ f = fill i

/-- What it does when an array is full and cannot grow: the context has left the queue, and the
slots below `num_active_conns` are as before. -/
structure Dropped (o : grow_outs) (p : ptr) (m m' : conn_mgr_t) : Prop where
  sized : Sized m'.p_conns
  ring : Ring m'.p_new_conns
  queue : content m.p_new_conns = p :: content m'.p_new_conns
  active : m'.num_active_conns = m.num_active_conns
  conns : m'.p_conns.pp_buf.take m.num_active_conns = used m.p_conns
  inside : m.num_active_conns ≤ m'.p_conns.max_items
  full : m.num_active_conns = m.p_conns.max_items
  why : m.p_conns.max_items = UINT16_MAX ∨ o.conns = none ∨ o.pfds = none

/-- A turn of the loop that dequeues a context. The poll array has as many slots as `max_conns`
says. -/
theorem add_each_some {ctxs : heap} {o : Nat → grow_outs} (turns : Nat) {m : conn_mgr_t}
    {p : ptr} {q : ezqueue_t ptr} {c : conn_ctx_t} (hpos : 0 < m.p_new_conns.num_items)
    (hdeq : ezq_dequeue m.p_new_conns = some (0, some p, q)) (hc : ctxs.lookup p = some c)
    (hmax : m.max_conns = m.p_pfds.length) :
    add_each ctxs o (turns + 1) m =
      (ezarr_push (o turns).conns p m.p_conns).bind fun (res, conns) =>
        if res ≠ 0 then some (res, { m with p_new_conns := q, p_conns := conns })
        else (add_to_pollfd c.fd (o turns).pfds m.p_pfds m.num_active_conns m.p_pfds.length).bind
          fun (res, pfds) =>
            if res ≠ 0 then
              some (res, { m with p_new_conns := q, p_conns := conns, p_pfds := pfds })
            else add_each ctxs o turns { m with
              p_new_conns := q
              p_conns := conns
              p_pfds := pfds
              max_conns := conns.max_items
              num_active_conns := u16 (m.num_active_conns + 1) } := by
  rw [add_each, if_neg (Nat.ne_of_gt hpos), hdeq, ← hmax]
  simp only [Option.bind_some, hc]

/-- A turn of the loop from balanced arrays. -/
theorem add_turn {ctxs : heap} {o : Nat → grow_outs} (turns : Nat) {m : conn_mgr_t}
    (hbal : Balanced m) (hpos : 0 < m.p_new_conns.num_items)
    (hlive : ∀ p ∈ content m.p_new_conns, ∃ c, ctxs.lookup p = some c) :
    ∃ p m', (Added ctxs (o turns) p m m' ∧
        add_each ctxs o (turns + 1) m = add_each ctxs o turns m') ∨
      (Dropped (o turns) p m m' ∧ add_each ctxs o (turns + 1) m = some (-1, m')) := by
  obtain ⟨p, q, hdeq, hq, hcont, hqnum⟩ := dequeue_spec hbal.queue hpos
  obtain ⟨c, hc⟩ := hlive p (hcont ▸ List.mem_cons_self)
  have hused : m.p_conns.pp_buf.take m.num_active_conns = used m.p_conns := by
    rw [hbal.num]
    rfl
  have hle : m.num_active_conns ≤ m.p_conns.max_items := hbal.num ▸ hbal.conns.num
  have hmax : m.max_conns = m.p_pfds.length := hbal.max.trans hbal.pfds.symm
  have hturn := add_each_some (o := o) turns hpos hdeq hc hmax
  rw [hturn]
  rcases push_spec hbal.conns (o turns).conns p with
    ⟨hfail, hfull, hwhy⟩ | ⟨a, hpush, ha, hau, han, ham, haspare⟩
  · refine ⟨p, { m with p_new_conns := q }, Or.inr ⟨?_, ?_⟩⟩
    · exact ⟨hbal.conns, hq, hcont, rfl, hused, hle, hbal.num.trans hfull,
        hwhy.imp_right Or.inl⟩
    · rw [hfail]
      rfl
  · rw [hpush]
    simp only [Option.bind_some, ne_eq, not_true_eq_false, if_false]
    rcases add_to_pollfd_spec c.fd (o turns).pfds (hbal.pfds.symm ▸ hle)
        (hbal.pfds.symm ▸ hbal.conns.le) (hbal.pfds.symm ▸ hbal.conns.pos) with
      ⟨hfail, hfull, hwhy⟩ | ⟨pfds, hadd, htake, hplen, hpspare⟩
    · -- the context is pushed at `num_active_conns`, where nobody looks
      refine ⟨p, { m with p_new_conns := q, p_conns := a }, Or.inr ⟨?_, ?_⟩⟩
      · have htake : a.pp_buf.take m.num_active_conns = used m.p_conns := by
          have h1 := congrArg (List.take m.num_active_conns) hau
          rwa [used, List.take_take, han, hbal.num, Nat.min_eq_left (Nat.le_succ _),
            List.take_append_of_le_length (Nat.le_of_eq hbal.conns.length_used.symm),
            List.take_of_length_le (Nat.le_of_eq hbal.conns.length_used), ← hbal.num] at h1
        have hcap : m.num_active_conns ≤ a.max_items := by
          have := ha.num
          rw [hbal.num]
          omega
        rw [hbal.pfds] at hfull hwhy
        exact ⟨ha, hq, hcont, rfl, htake, hcap, hfull, hwhy.imp_right Or.inr⟩
      · rw [hfail]
        rfl
    · have hcap : pfds.length = a.max_items := by rw [hplen, ham, hbal.num, hbal.pfds]
      have hu : u16 (m.num_active_conns + 1) = m.num_active_conns + 1 := by
        have := ha.num
        have := ha.le
        exact u16_of_le (by rw [hbal.num]; omega)
      rw [hadd, hu]
      refine ⟨p, _, Or.inl ⟨?_, rfl⟩⟩
      exact ⟨⟨ha, hq, by rw [hbal.num]; exact han.symm, rfl, hcap⟩, hcont, hqnum, hau,
        ⟨c, hc, htake⟩, haspare, hpspare⟩

theorem add_none {ctxs : heap} {o : Nat → grow_outs} (turns : Nat) {m : conn_mgr_t}
    (h0 : m.p_new_conns.num_items = 0) : add_each ctxs o (turns + 1) m = some (0, m) := by
  rw [add_each, if_pos h0]

/-- From balanced arrays the loop stays inside of the blocks, and puts each
context of the queue at the next index of both arrays. -/
theorem add_keeps_step {ctxs : heap} {o : Nat → grow_outs} (turns : Nat) :
    ∀ {m : conn_mgr_t}, Balanced m → m.p_new_conns.num_items < turns →
      List.Forall₂ (Slot ctxs) (used m.p_conns) (polled m) →
      (∀ p ∈ content m.p_new_conns, p ≠ NULL ∧ ∃ c, ctxs.lookup p = some c ∧ c.fd ≠ 0) →
      ∃ r m', add_each ctxs o turns m = some (r, m') ∧
        (r = 0 → Balanced m' ∧ used m'.p_conns = used m.p_conns ++ content m.p_new_conns ∧
          List.Forall₂ (Slot ctxs) (used m'.p_conns) (polled m') ∧
          content m'.p_new_conns = []) := by
  induction turns with
  | zero =>
    intro m _ hturns _ _
    exact absurd hturns (Nat.not_lt_zero _)
  | succ turns ih =>
    intro m hbal hturns hslots hnew
    by_cases h0 : m.p_new_conns.num_items = 0
    · have hempty : content m.p_new_conns = [] :=
        List.length_eq_zero_iff.mp (hbal.queue.length_content.trans h0)
      refine ⟨0, m, add_none turns h0, fun _ => ⟨hbal, ?_, hslots, hempty⟩⟩
      rw [hempty, List.append_nil]
    · obtain ⟨p, m1, ⟨hadd, he⟩ | ⟨-, he⟩⟩ := add_turn (o := o) turns hbal
        (Nat.pos_of_ne_zero h0) fun p hp => (hnew p hp).2.imp fun _ h => h.1
      · obtain ⟨c, hc, hpolled⟩ := hadd.pfds
        obtain ⟨hp, c', hc', hfd⟩ := hnew p (hadd.queue ▸ List.mem_cons_self)
        rw [hc] at hc'
        cases hc'
        have hnext : List.Forall₂ (Slot ctxs) (used m1.p_conns) (polled m1) := by
          rw [hadd.conns, hpolled]
          exact List.rel_append hslots (.cons (Or.inr ⟨hp, hfd, c, hc, rfl⟩) .nil)
        obtain ⟨r, m', he', hgood⟩ := ih hadd.balanced (by have := hadd.left; omega) hnext
          fun x hx => hnew x (hadd.queue ▸ List.mem_cons_of_mem p hx)
        refine ⟨r, m', he.trans he', fun hr => ?_⟩
        obtain ⟨hb, hused, hf, hempty⟩ := hgood hr
        refine ⟨hb, ?_, hf, hempty⟩
        rw [hused, hadd.conns, hadd.queue, List.append_assoc]
        rfl
      · exact ⟨-1, m1, he, by simp⟩

/-- When the loop fails, it has moved some contexts, and the next one is in the queue no more and
below `num_active_conns` not yet. -/
theorem add_failed {ctxs : heap} {o : Nat → grow_outs} (turns : Nat) :
    ∀ {m m' : conn_mgr_t} {r : Int}, Balanced m →
      (∀ p ∈ content m.p_new_conns, ∃ c, ctxs.lookup p = some c) →
      add_each ctxs o turns m = some (r, m') → r ≠ 0 →
      ∃ moved p, content m.p_new_conns = moved ++ p :: content m'.p_new_conns ∧
        m'.p_conns.pp_buf.take m'.num_active_conns = used m.p_conns ++ moved ∧
        Sized m'.p_conns ∧ Ring m'.p_new_conns ∧
        m'.num_active_conns ≤ m'.p_conns.max_items := by
  induction turns with
  | zero =>
    intro m m' r _ _ h
    cases h
  | succ turns ih =>
    intro m m' r hbal hlive h hr
    by_cases h0 : m.p_new_conns.num_items = 0
    · rw [add_none turns h0] at h
      cases h
      exact absurd rfl hr
    · obtain ⟨p, m1, ⟨hadd, he⟩ | ⟨hdrop, he⟩⟩ := add_turn (o := o) turns hbal
        (Nat.pos_of_ne_zero h0) hlive
      · rw [he] at h
        obtain ⟨moved, x, hmoved, htake, hrest⟩ := ih hadd.balanced
          (fun x hx => hlive x (hadd.queue ▸ List.mem_cons_of_mem p hx)) h hr
        refine ⟨p :: moved, x, ?_, ?_, hrest⟩
        · rw [hadd.queue, hmoved]
          rfl
        · rw [htake, hadd.conns, List.append_assoc]
          rfl
      · rw [he] at h
        cases h
        refine ⟨[], p, hdrop.queue, ?_, hdrop.sized, hdrop.ring, hdrop.active ▸ hdrop.inside⟩
        rw [hdrop.active, hdrop.conns, List.append_nil]

end pingpong.connmgr
