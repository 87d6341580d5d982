-- What holds of the server while its loop runs and the calls on the mutexes of
-- the contexts succeed.
import PingPong.ServerLocks
import Mathlib.Data.List.ReduceOption

namespace pingpong.server

open concurinc connmgr mutex netio tally tasks

variable {n : Nat}

/-- The contexts in the two lists of the connection manager. -/
def Server.live (s : Server n) : List ctx_id := s.p_conns.reduceOption ++ s.p_new_conns

/-- The tasks on a context that have not released their reference are counted, and a context
that is closed, or about to be, has no task. -/
structure InLoop (s : Server n) : Prop where
  guards : ∀ p, Mutex.Guards (s.inside p) (s.ctxs p).mutex
  counted : ∀ p, ((load task_pc.owes p s + promised p s : Nat) : Int) ≤
    (s.ctxs p).link.ctx.ref_count
  fresh : ∀ p, s.made ≤ p → s.ctxs p = no_context
  cur : ∀ conn p, s.main.cur = some (conn, p) → s.p_conns[conn]? = some (some p)
  nodup : s.live.Nodup
  alive : ∀ p ∈ s.live, p < s.made ∧ (s.ctxs p).destroyed = false
  closes : ∀ p, s.main.closes = some p → NoTask p s
  closed : ∀ p, (s.ctxs p).destroyed = true → NoTask p s

theorem inLoop_new (sfd sigpipe_fd : Int) : InLoop (new_server sfd sigpipe_fd : Server n) where
  guards p t ht := by
    cases t with
    | worker w => cases ht.1
    | client c => cases ht
  counted p := by
    have hzero : load task_pc.owes p (new_server sfd sigpipe_fd : Server n) = 0 := by
      unfold load
      rw [total_zero fun w => share_of_none rfl]
      rfl
    rw [hzero]
    exact Int.le_refl 0
  fresh _ _ := rfl
  cur _ _ h := nomatch h
  nodup := List.nodup_nil
  alive _ h := nomatch h
  closes _ h := nomatch h
  closed _ h := nomatch h

theorem mem_live {s : Server n} {conn : Nat} {p : ctx_id}
    (h : s.p_conns[conn]? = some (some p)) : p ∈ s.live :=
  List.mem_append_left _ (List.reduceOption_mem_iff.mpr (List.mem_of_getElem? h))

theorem InLoop.cur_alive {s : Server n} (h : InLoop s) {conn : Nat} {p : ctx_id}
    (hcur : s.main.cur = some (conn, p)) : p < s.made ∧ (s.ctxs p).destroyed = false :=
  h.alive p (mem_live (h.cur conn p hcur))

/-! ## The steps of the workers, and of main in a pool call -/

/-- A step that leaves main and its lists alone. -/
theorem InLoop.frame {s s' : Server n} (h : InLoop s) (hmain : s'.main = s.main)
    (hconns : s'.p_conns = s.p_conns) (hnew : s'.p_new_conns = s.p_new_conns)
    (hmade : s'.made = s.made)
    (hdestroyed : ∀ p, (s'.ctxs p).destroyed = (s.ctxs p).destroyed)
    (hguards : ∀ p, Mutex.Guards (s'.inside p) (s'.ctxs p).mutex)
    (hcounted : ∀ p, ((load task_pc.owes p s' + promised p s' : Nat) : Int) ≤
      (s'.ctxs p).link.ctx.ref_count)
    (hfresh : ∀ p, s.made ≤ p → s'.ctxs p = no_context)
    (hno : ∀ p, NoTask p s → s.main.closes = some p ∨ (s.ctxs p).destroyed = true →
      NoTask p s') : InLoop s' where
  guards := hguards
  counted := hcounted
  fresh p hp := hfresh p (hmade ▸ hp)
  cur := by
    rw [hmain, hconns]
    exact h.cur
  nodup := by
    unfold Server.live
    rw [hconns, hnew]
    exact h.nodup
  alive p hp := by
    unfold Server.live at hp
    rw [hconns, hnew] at hp
    rw [hmade, hdestroyed]
    exact h.alive p hp
  closes p hp := by
    rw [hmain] at hp
    exact hno p (h.closes p hp) (Or.inl hp)
  closed p hp := by
    rw [hdestroyed] at hp
    exact hno p (h.closed p hp) (Or.inr hp)

theorem InLoop.worker_step {s : Server n} {pool : Pool n Unit io_task} {w : Fin n} {res : Int}
    {x : Worker io_task} (h : InLoop s) (hl : Linked s)
    (hret : (s.pool.workers w).pc = .run → s.task w = .returned)
    (hw : WorkerStep w res (s.pool.workers w) x s.pool pool)
    (hguards : ∀ p, Mutex.Guards (({ s with pool := pool }.set_task w .lock).inside p)
      (s.ctxs p).mutex) :
    InLoop ({ s with pool := pool }.set_task w .lock) := by
  have hload : ∀ {f} p, Spans f → load f p ({ s with pool := pool }.set_task w .lock) =
      load f p s := fun p hf => load_of_worker_step hf hl hret hw rfl
  refine h.frame rfl rfl rfl rfl (fun _ => rfl) hguards (fun p => ?_) h.fresh fun p hno _ => ?_
  · have hpromised : promised p ({ s with pool := pool }.set_task w .lock) = promised p s := by
      show pledge p (pool.clients ()).pc = _
      rw [hw.clients]
      rfl
    rw [hpromised, hload p spans_owes]
    exact h.counted p
  · rw [noTask_iff] at hno ⊢
    rw [hload p spans_visits, hno]

/-- Main promises no task on a context that is closed, or about to be. -/
theorem InLoop.promised_zero {s : Server n} (h : InLoop s) (hl : Linked s) {p : ctx_id}
    (hp : s.main.closes = some p ∨ (s.ctxs p).destroyed = true) : promised p s = 0 := by
  refine hl.promised_zero fun func conn hmain => ?_
  rcases hp with hp | hp
  · rw [hmain] at hp
    cases hp
  · have halive := h.cur_alive (p := p) (by rw [hmain]; rfl)
    rw [hp] at halive
    cases halive.2

theorem InLoop.call_step {s : Server n} {pool : Pool n Unit io_task} {res : Int}
    {y : Client io_task} (h : InLoop s) (hl : Linked s) (hpc : (s.pool.clients ()).pc ≠ .idle)
    (hc : ClientStep () res (s.pool.clients ()) y s.pool pool)
    (hguards : ∀ p, Mutex.Guards ({ s with pool := pool }.inside p) (s.ctxs p).mutex) :
    InLoop { s with pool := pool } := by
  have hload : ∀ f p, load f p { s with pool := pool } + promised p { s with pool := pool } ≤
      load f p s + promised p s := by
    intro f p
    apply load_of_client_step hpc
    · exact hc
    · rfl
  refine h.frame rfl rfl rfl rfl (fun _ => rfl) hguards (fun p => ?_) h.fresh fun p hno hp => ?_
  · have hle := hload task_pc.owes p
    have hcount := h.counted p
    show _ ≤ (s.ctxs p).link.ctx.ref_count
    omega
  · have hle := hload task_pc.visits p
    have hzero := h.promised_zero hl hp
    rw [noTask_iff] at hno ⊢
    omega

/-! ## The steps of a task -/

/-- The context of a task that a worker executes is made. -/
theorem InLoop.task_made {s : Server n} (h : InLoop s) {w : Fin n} {t : coin_task_t io_task}
    (hrun : (s.pool.workers w).pc = .run) (ht : (s.pool.workers w).p_task = some t)
    (hvisits : (s.task w).visits = true) : t.work.coin_task_arg < s.made := by
  by_contra hle
  have hfresh := h.fresh t.work.coin_task_arg (Nat.le_of_not_lt hle)
  by_cases howes : (s.task w).owes = true
  · have hcount := h.counted t.work.coin_task_arg
    have hshare := share_le_total (share task_pc.owes t.work.coin_task_arg) s.hands w
    have hone : share task_pc.owes t.work.coin_task_arg (s.hands w) = 1 := by
      unfold Server.hands
      rw [share_of_task ht hrun, if_pos rfl, howes]
      rfl
    have hzero : (s.ctxs t.work.coin_task_arg).link.ctx.ref_count = 0 := by rw [hfresh]; rfl
    unfold load at hcount
    omega
  · have hinside := inside_of_visits hvisits howes
    have hany : (s.pool.workers w).p_task.any (onCtx t.work.coin_task_arg) = true := by
      rw [ht]
      exact onCtx_iff.mpr rfl
    have hheld := h.guards t.work.coin_task_arg (.worker w) ⟨hany, hinside⟩
    rw [hfresh] at hheld
    cases hheld

theorem InLoop.task_step {s s' : Server n} {w : Fin n} {t : coin_task_t io_task} (h : InLoop s)
    (hrun : (s.pool.workers w).pc = .run) (ht : (s.pool.workers w).p_task = some t)
    (hmove : TaskMove w t.work.coin_task_arg 0 s s')
    (hguards : ∀ p, Mutex.Guards (s'.inside p) (s'.ctxs p).mutex) : InLoop s' := by
  obtain ⟨hpool, hmain, hconns, hnew, hmade⟩ := hmove.stays
  obtain ⟨y, htask, hvisits, -, hcount⟩ := hmove.effect
  have hctx := h.task_made hrun ht hvisits
  have hload : ∀ f p, load f p s' + (if t.work.coin_task_arg = p then (f (s.task w)).toNat else 0)
      = load f p s + if t.work.coin_task_arg = p then (f y).toNat else 0 := by
    intro f p
    have hl := load_of_task_step (f := f) (p := p) hpool htask
    rwa [share_of_task ht hrun, share_of_task ht hrun] at hl
  refine h.frame hmain hconns hnew hmade hmove.destroyed hguards (fun p => ?_) (fun p hp => ?_)
    fun p hno _ => ?_
  · have hle := h.counted p
    have hl := hload task_pc.owes p
    rw [promised_congr hpool]
    by_cases hp : t.work.coin_task_arg = p
    · rw [if_pos hp, if_pos hp] at hl
      rw [hp] at hcount
      omega
    · rw [if_neg hp, if_neg hp] at hl
      rw [hmove.ctxs_other (Ne.symm hp)]
      omega
  · have hne : p ≠ t.work.coin_task_arg := Nat.ne_of_gt (Nat.lt_of_lt_of_le hctx hp)
    rw [hmove.ctxs_other hne]
    exact h.fresh p hp
  · rw [noTask_iff] at hno ⊢
    have hl := hload task_pc.visits p
    have hy : y.visits.toNat ≤ 1 := Bool.toNat_le _
    rw [hvisits, hno] at hl
    split at hl
    · have hone : (true : Bool).toNat = 1 := rfl
      omega
    · omega

/-! ## The steps of main -/

theorem cur_of_locks {pc : main_pc} {p : ctx_id} (h : pc.locks = some p) :
    ∃ conn, pc.cur = some (conn, p) := by
  cases pc <;> cases h <;> exact ⟨_, rfl⟩

/-- When main reads a count of zero under the mutex, no task is left. -/
theorem InLoop.noTask_of_zero {s : Server n} (h : InLoop s) {p : ctx_id}
    (hlocks : s.main.locks = some p) (hzero : (s.ctxs p).link.ctx.ref_count = 0) :
    NoTask p s := by
  have hcount := h.counted p
  rw [hzero] at hcount
  have hload : load task_pc.owes p s = 0 := by omega
  obtain ⟨hqueue, htotal⟩ := Nat.add_eq_zero_iff.mp hload
  refine ⟨fun t ht hon => List.countP_eq_zero.mp hqueue t ht (onCtx_iff.mpr hon),
    fun w t ht hon => ?_⟩
  by_contra hneither
  rw [not_or] at hneither
  have hany : (s.pool.workers w).p_task.any (onCtx p) = true := by
    rw [ht]
    exact onCtx_iff.mpr hon
  by_cases howes : (s.task w).owes = true
  · have hle := share_le_total (share task_pc.owes p) s.hands w
    rw [share_pos (h := s.hands w) hany hneither.1 howes] at hle
    omega
  · -- the worker is at its unlock, but main has the mutex
    have hinside := inside_of_visits (visits_iff.mpr hneither.2) howes
    have hsame : Thread.worker w = Thread.client () :=
      (h.guards p).unique (t := .worker w) (u := .client ()) ⟨hany, hinside⟩ hlocks
    cases hsame

/-- A step of main that leaves the pool and the lists alone. -/
theorem InLoop.go {s s' : Server n} (h : InLoop s) (hwalk : Walk s s'.main)
    (hpool : s'.pool = s.pool) (htask : s'.task = s.task) (hconns : s'.p_conns = s.p_conns)
    (hnew : s'.p_new_conns = s.p_new_conns) (hmade : s'.made = s.made)
    (hdestroyed : ∀ p, (s'.ctxs p).destroyed = (s.ctxs p).destroyed)
    (hcount : ∀ p, (s'.ctxs p).link.ctx.ref_count = (s.ctxs p).link.ctx.ref_count)
    (hfresh : ∀ p, s.made ≤ p → s'.ctxs p = s.ctxs p)
    (hguards : ∀ p, Mutex.Guards (s'.inside p) (s'.ctxs p).mutex) : InLoop s' := by
  have hload : ∀ f p, load f p s' = load f p s := by
    intro f p
    unfold load Server.hands
    rw [hpool, htask]
  have hno : ∀ p, NoTask p s → NoTask p s' := by
    intro p hp
    rw [noTask_iff] at hp ⊢
    rw [hload, hp]
  refine ⟨hguards, fun p => ?_, fun p hp => ?_, fun conn p hp => ?_, ?_, fun p hp => ?_,
    fun p hp => hno p ?_, fun p hp => hno p ?_⟩
  · rw [hload, promised_congr hpool, hcount]
    exact h.counted p
  · rw [hmade] at hp
    rw [hfresh p hp]
    exact h.fresh p hp
  · rw [hconns]
    rcases hwalk.cur conn p hp with hcur | hmem
    · exact h.cur conn p hcur
    · exact hmem
  · unfold Server.live
    rw [hconns, hnew]
    exact h.nodup
  · unfold Server.live at hp
    rw [hconns, hnew] at hp
    rw [hmade, hdestroyed]
    exact h.alive p hp
  · rcases hwalk.closes p hp with hcl | ⟨hlocks, hzero⟩
    · exact h.closes p hcl
    · exact h.noTask_of_zero hlocks hzero
  · rw [hdestroyed] at hp
    exact h.closed p hp

/-! ## The contexts that main makes, closes and takes over -/

theorem InLoop.make {s : Server n} {k : Link} (h : InLoop s) (hzero : k.ctx.ref_count = 0) :
    InLoop (s.make k) := by
  have hself := s.make_self k
  have hother := fun p => s.make_other k (p := p)
  have hlive : (s.make k).live = s.live ++ [s.made] := (List.append_assoc ..).symm
  have hblank := h.fresh s.made (Nat.le_refl _)
  refine ⟨fun p => ?_, fun p => ?_, fun p hp => ?_, h.cur, ?_, fun p hp => ?_, h.closes,
    fun p hp => ?_⟩
  · by_cases hp : p = s.made
    · -- no thread is under a mutex that did not exist
      subst hp
      intro u hu
      have hheld := h.guards s.made u hu
      rw [hblank] at hheld
      cases hheld
    · rw [hother p hp]
      exact h.guards p
  · have hcount := h.counted p
    by_cases hp : p = s.made
    · subst hp
      rw [hblank] at hcount
      rw [hself]
      show _ ≤ k.ctx.ref_count
      rw [hzero]
      exact hcount
    · rw [hother p hp]
      exact hcount
  · have hle : s.made + 1 ≤ p := hp
    rw [hother p (Nat.ne_of_gt hle)]
    exact h.fresh p (Nat.le_of_succ_le hle)
  · rw [hlive]
    refine h.nodup.append (List.nodup_singleton _) fun p hp hmade => ?_
    have hlt := (h.alive p hp).1
    rw [List.mem_singleton.mp hmade] at hlt
    exact Nat.lt_irrefl _ hlt
  · rw [hlive] at hp
    show p < s.made + 1 ∧ _
    rcases List.mem_append.mp hp with hp | hp
    · obtain ⟨hlt, hdes⟩ := h.alive p hp
      rw [hother p (Nat.ne_of_lt hlt)]
      exact ⟨Nat.lt_succ_of_lt hlt, hdes⟩
    · rw [List.mem_singleton.mp hp, hself]
      exact ⟨Nat.lt_succ_self _, rfl⟩
  · by_cases hp' : p = s.made
    · rw [hp', hself] at hp
      cases hp
    · rw [hother p hp'] at hp
      exact h.closed p hp

theorem Walk.make {s : Server n} {pc : main_pc} (h : Walk s pc) (hwas : s.main.locks = none)
    (links : List Link) : Walk (links.foldl Server.make s) pc := by
  obtain ⟨hpool, -, hconns, hmain⟩ := foldl_make_kept links s
  refine ⟨?_, ?_, fun p hp => ?_, ?_, h.outside, ?_⟩
  · rw [hmain, hconns]
    exact h.cur
  · rw [hmain]
    exact h.cleanup
  · rcases h.closes p hp with hcl | ⟨hlocks, -⟩
    · rw [hmain]
      exact Or.inl hcl
    · rw [hwas] at hlocks
      cases hlocks
  · unfold Server.returned
    rw [hmain, hpool]
    exact h.returned
  · rw [hmain, hpool]
    exact h.refused

theorem InLoop.make_all {s : Server n} (h : InLoop s) {links : List Link}
    (hzero : ∀ k ∈ links, k.ctx.ref_count = 0) : InLoop (links.foldl Server.make s) := by
  induction links generalizing s with
  | nil => exact h
  | cons k links ih =>
    exact ih (h.make (hzero k List.mem_cons_self)) fun k' hk' =>
      hzero k' (List.mem_cons_of_mem k hk')

theorem reduceOption_set {l : List (Option ctx_id)} {conn : Nat} {p : ctx_id}
    (h : l[conn]? = some (some p)) :
    ∃ a b, l.reduceOption = a ++ p :: b ∧ (l.set conn none).reduceOption = a ++ b := by
  obtain ⟨hlt, he⟩ := List.getElem?_eq_some_iff.mp h
  refine ⟨(l.take conn).reduceOption, (l.drop (conn + 1)).reduceOption, ?_, ?_⟩
  · conv_lhs => rw [← List.take_append_drop conn l, List.drop_eq_getElem_cons hlt, he]
    rw [List.reduceOption_append, List.reduceOption_cons_of_some]
  · rw [List.set_eq_take_append_cons_drop, if_pos hlt, List.reduceOption_append,
      List.reduceOption_cons_of_none]

theorem InLoop.close {s s' : Server n} (h : InLoop s) {conn : Nat} {p : ctx_id}
    (hpc : s.main = .close_destroy conn p)
    (hs' : s' = ((s.destroy p).set_null conn).goto (.close_check (conn + 1)))
    (hguards : ∀ q, Mutex.Guards (s'.inside q) (s'.ctxs q).mutex) : InLoop s' := by
  subst hs'
  have hcur : s.p_conns[conn]? = some (some p) := h.cur conn p (by rw [hpc]; rfl)
  have hgone : NoTask p s := h.closes p (by rw [hpc]; rfl)
  have hmade : p < s.made := (h.alive p (mem_live hcur)).1
  -- the entry goes, and the other contexts of the lists are not this one
  obtain ⟨a, b, hold, hset⟩ := reduceOption_set hcur
  have hlive : s.live = a ++ p :: (b ++ s.p_new_conns) := by
    unfold Server.live
    rw [hold, List.append_assoc, List.cons_append]
  have hlive' : (((s.destroy p).set_null conn).goto (.close_check (conn + 1))).live =
      a ++ (b ++ s.p_new_conns) := by
    show (s.p_conns.set conn none).reduceOption ++ s.p_new_conns = _
    rw [hset, List.append_assoc]
  have hnodup := h.nodup
  rw [hlive, List.nodup_middle, List.nodup_cons] at hnodup
  refine ⟨hguards, fun q => ?_, fun q hq => ?_, nofun, ?_, fun q hq => ?_, nofun,
    fun q hq => ?_⟩
  · show _ ≤ ((s.destroy p).ctxs q).link.ctx.ref_count
    rw [(s.destroy_keeps p q).1]
    exact h.counted q
  · show (s.destroy p).ctxs q = _
    rw [s.destroy_other (Nat.ne_of_gt (Nat.lt_of_lt_of_le hmade hq))]
    exact h.fresh q hq
  · rw [hlive']
    exact hnodup.2
  · rw [hlive'] at hq
    have hne : q ≠ p := by
      intro he
      exact hnodup.1 (he ▸ hq)
    have hin : q ∈ s.live := by
      rw [hlive]
      rcases List.mem_append.mp hq with ha | hb
      · exact List.mem_append_left _ ha
      · exact List.mem_append_right _ (List.mem_cons_of_mem _ hb)
    show q < s.made ∧ ((s.destroy p).ctxs q).destroyed = false
    rw [s.destroy_other hne]
    exact h.alive q hin
  · by_cases he : q = p
    · rw [he]
      exact hgone
    · have hq : ((s.destroy p).ctxs q).destroyed = true := hq
      rw [s.destroy_other he] at hq
      exact h.closed q hq

theorem reduceOption_filter (l : List (Option ctx_id)) :
    (l.filter Option.isSome).reduceOption = l.reduceOption := by
  induction l with
  | nil => rfl
  | cons x l ih =>
    cases x with
    | none => simpa using ih
    | some p => simpa using ih

theorem InLoop.update {s s' : Server n} (h : InLoop s)
    (hs' : s' = { s with
      p_conns := s.p_conns.filter Option.isSome ++ s.p_new_conns.map some
      p_new_conns := [] }.goto .poll)
    (hguards : ∀ p, Mutex.Guards (s'.inside p) (s'.ctxs p).mutex) : InLoop s' := by
  subst hs'
  have hlive : ({ s with
      p_conns := s.p_conns.filter Option.isSome ++ s.p_new_conns.map some
      p_new_conns := [] }.goto .poll).live = s.live := by
    show (s.p_conns.filter Option.isSome ++ s.p_new_conns.map some).reduceOption ++ [] = _
    rw [List.append_nil, List.reduceOption_append, reduceOption_filter]
    unfold Server.live List.reduceOption
    simp
  refine ⟨hguards, h.counted, h.fresh, nofun, ?_, fun p hp => ?_, nofun, h.closed⟩
  · rw [hlive]
    exact h.nodup
  · rw [hlive] at hp
    exact h.alive p hp

theorem InLoop.submit {s s' : Server n} (h : InLoop s) {func : task_func} {conn : Nat}
    {p : ctx_id} (hpc : s.main = .task_ref func conn p) (hidle : (s.pool.clients ()).pc = .idle)
    (hs' : s' = { (s.set_link p (add_ref 1 (s.ctxs p).link)).goto (.task_submit func conn p)
      with pool := s.pool.goto () (.submit_alloc ⟨func, p⟩ false) })
    (hguards : ∀ q, Mutex.Guards (s'.inside q) (s'.ctxs q).mutex) : InLoop s' := by
  subst hs'
  have hcur : s.p_conns[conn]? = some (some p) := h.cur conn p (by rw [hpc]; rfl)
  have hmade : p < s.made := (h.alive p (mem_live hcur)).1
  have hkeeps := s.set_link_keeps p (add_ref 1 (s.ctxs p).link)
  refine ⟨hguards, fun q => ?_, fun q hq => ?_, fun conn' q hq => ?_, h.nodup, fun q hq => ?_,
    nofun, fun q hq => ?_⟩
  · have hcount := h.counted q
    show ((load task_pc.owes q s + pledge q (.submit_alloc ⟨func, p⟩ false) : Nat) : Int) ≤
      ((s.set_link p (add_ref 1 (s.ctxs p).link)).ctxs q).link.ctx.ref_count
    have hwas := promised_of_idle hidle q
    have hrefs := s.submit_refs func p q
    omega
  · show (s.set_link p _).ctxs q = _
    rw [s.set_link_other _ (Nat.ne_of_gt (Nat.lt_of_lt_of_le hmade hq))]
    exact h.fresh q hq
  · cases hq
    exact hcur
  · show q < s.made ∧ ((s.set_link p (add_ref 1 (s.ctxs p).link)).ctxs q).destroyed = false
    rw [(hkeeps q).2]
    exact h.alive q hq
  · have hq : ((s.set_link p (add_ref 1 (s.ctxs p).link)).ctxs q).destroyed = true := hq
    rw [(hkeeps q).2] at hq
    exact h.closed q hq

theorem InLoop.wait {s s' : Server n} (h : InLoop s)
    (hs' : s' = { s with pool := s.pool.goto () .wait_lock_active, main := .wait })
    (hguards : ∀ p, Mutex.Guards (s'.inside p) (s'.ctxs p).mutex) : InLoop s' := by
  subst hs'
  refine ⟨hguards, fun p => ?_, h.fresh, nofun, h.nodup, h.alive, nofun, h.closed⟩
  · have hcount := h.counted p
    show ((load task_pc.owes p s + 0 : Nat) : Int) ≤ (s.ctxs p).link.ctx.ref_count
    omega

/-! ## Any step, while the loop runs -/

theorem InLoop.main_step {res : Int} {s s' : Server n} (h : InLoop s)
    (hmove : MainMove res s s') (hin : s'.main.inCleanup = false)
    (hguards : ∀ p, Mutex.Guards (s'.inside p) (s'.ctxs p).mutex) : InLoop s' := by
  cases hmove with
  | go pc revents hwalk hlocks =>
    exact h.go hwalk rfl rfl rfl rfl rfl (fun _ => rfl) (fun _ => rfl) (fun _ _ => rfl) hguards
  | lock pc conn p hwalk hcur hfree hlocks =>
    refine h.go hwalk rfl rfl rfl rfl rfl (fun q => (s.set_mutex_keeps p _ q).2)
      (s.set_mutex_refs p _) (fun q hq => ?_) hguards
    exact s.set_mutex_other _ (Nat.ne_of_gt (Nat.lt_of_lt_of_le (h.cur_alive hcur).1 hq))
  | unlock pc p hwalk hwas hlocks =>
    obtain ⟨conn, hcur⟩ := cur_of_locks hwas
    refine h.go hwalk rfl rfl rfl rfl rfl (fun q => (s.set_mutex_keeps p _ q).2)
      (s.set_mutex_refs p _) (fun q hq => ?_) hguards
    exact s.set_mutex_other _ (Nat.ne_of_gt (Nat.lt_of_lt_of_le (h.cur_alive hcur).1 hq))
  | mark pc conn p hwalk hcur hlocks =>
    refine h.go hwalk rfl rfl rfl rfl rfl (fun q => (s.set_link_keeps p _ q).2) (s.mark_refs p)
      (fun q hq => ?_) hguards
    exact s.set_link_other _ (Nat.ne_of_gt (Nat.lt_of_lt_of_le (h.cur_alive hcur).1 hq))
  | submit func conn p hpc hidle => exact h.submit hpc hidle rfl hguards
  | make pc links hzero hwalk hwas hlocks =>
    exact (h.make_all hzero).go (hwalk.make hwas links) rfl rfl rfl rfl rfl (fun _ => rfl)
      (fun _ => rfl) (fun _ _ => rfl) hguards
  | close conn p hpc => exact h.close hpc rfl hguards
  | update hpc => exact h.update rfl hguards
  | lose => cases hin
  | wait => exact h.wait rfl hguards
  | free pc p conns new_conns hwas hlocks hout hpc =>
    have hin : pc.inCleanup = false := hin
    rw [hpc] at hin
    cases hin
  | stop => cases hin

theorem MainMove.cleanup {res : Int} {s s' : Server n} (h : MainMove res s s')
    (hin : s'.main.inCleanup = false) : s.main.inCleanup = false := by
  cases h with
  | go pc revents hwalk => exact hwalk.cleanup hin
  | lock pc conn p hwalk => exact hwalk.cleanup hin
  | unlock pc p hwalk => exact hwalk.cleanup hin
  | mark pc conn p hwalk => exact hwalk.cleanup hin
  | submit func conn p hpc =>
    rw [hpc]
    rfl
  | make pc links hzero hwalk => exact hwalk.cleanup hin
  | close conn p hpc =>
    rw [hpc]
    rfl
  | update hpc =>
    rw [hpc]
    rfl
  | lose => cases hin
  | wait hlocks hloop => exact hloop
  | free pc p conns new_conns hwas hlocks hout hpc =>
    have hin : pc.inCleanup = false := hin
    rw [hpc] at hin
    cases hin
  | stop => cases hin

theorem ServerStep.cleanup {l : ServerLabel n} {s s' : Server n} (h : ServerStep s l s')
    (hin : s'.main.inCleanup = false) : s.main.inCleanup = false := by
  cases h with
  | main o hmove => exact hmove.cleanup hin
  | call | worker | signal => exact hin
  | task w res outs t hrun ht hmove =>
    rw [hmove.stays.2.1] at hin
    exact hin

theorem InLoop.step {l : ServerLabel n} {s s' : Server n} (h : s.main.inCleanup = false → InLoop s)
    (hl : Linked s) (hs : ServerStep s l s') (hok : l.LocksSucceed)
    (hin : s'.main.inCleanup = false) : InLoop s' := by
  have hwas := h (hs.cleanup hin)
  have hguards : ∀ p, Mutex.Guards (s'.inside p) (s'.ctxs p).mutex := by
    intro p
    refine hs.guards hl hok (fun hp => ?_) (hwas.guards p)
    rw [hwas.fresh p hp]
    rfl
  cases hs with
  | main o hmove => exact hwas.main_step hmove hin hguards
  | call o pool hpool =>
    obtain ⟨y, hc⟩ := client_step_cases hpool
    exact hwas.call_step hl (client_open hpool) hc hguards
  | worker w o pool hpool hret =>
    obtain ⟨x, hw⟩ := worker_step_cases hpool
    exact hwas.worker_step hl hret hw hguards
  | task w res outs t hrun ht hmove =>
    rw [show res = 0 from hok] at hmove
    exact hwas.task_step hrun ht hmove hguards
  | signal =>
    exact ⟨hwas.guards, hwas.counted, hwas.fresh, hwas.cur, hwas.nodup, hwas.alive, hwas.closes,
      hwas.closed⟩

end pingpong.server
