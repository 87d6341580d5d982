-- The caller of `coin_tpool_init`: the signal mask of its thread, and what the
-- call obtains and releases on its way through three chains of clean-up labels.
import PingPong.PoolStart
import PingPong.Lib.Handles

namespace pingpong.concurinc

open mutex handles

variable {n : Nat} {γ φ σ : Type}

/-! ## What the call does to its caller -/

/-- What `coin_tpool_init` and the functions that it calls obtain. -/
inductive resource_t
  | container
  | ctx
  | queue
  | attr
  | threads
  deriving DecidableEq, Repr

/-- The caller of `coin_tpool_init`. `sigmask` has the signals that its thread blocks, of those that
can be blocked, `oldset` is the set that the mask is restored from, `held` is what the call has
obtained and not released, and `stored` says if `*pp_tpool` is written. -/
structure Caller (σ : Type) where
  sigmask : σ → Bool
  oldset : σ → Bool
  held : List resource_t
  stored : Bool

def new_caller (entry : σ → Bool) : Caller σ := ⟨entry, fun _ => false, [], false⟩

/-- What `coin_tpool_ctx_init` obtains, and releases behind its labels. -/
def ctx_init_log (o : ctx_outs) : List (Event resource_t) :=
  let cleanup_ctx := [.closed .ctx]
  let cleanup_queue := .closed .queue :: cleanup_ctx
  if o.p_ctx = false then []
  else .obtained .ctx ::
    if o.queue_mutex ≠ 0 then cleanup_ctx
    else if o.queue_cond ≠ 0 then cleanup_ctx
    else if o.p_queue = false then cleanup_ctx
    else .obtained .queue ::
      if o.tasks_mutex ≠ 0 then cleanup_queue
      else if o.tasks_cond ≠ 0 then cleanup_queue
      else []

namespace Caller

def log (c : Caller σ) (es : List (Event resource_t)) : Caller σ :=
  { c with held := openAfter c.held es }

theorem mem_close {c : Caller σ} {r t : resource_t} (h : r ∈ c.held) (hne : r ≠ t) :
    r ∈ (c.log [.closed t]).held := (List.mem_erase_of_ne hne).mpr h

/-- What a step of the owner does to the caller. -/
def track (c : Caller σ) (s : Owner n γ φ) : StartLabel n γ φ → Caller σ
  | .init o => match s.pc with
    | .alloc_container => if o.alloc then c.log [.obtained .container] else c
    | .ctx_init =>
        if coin_tpool_ctx_init o.ctx = .COIN_SUCCESS then c.log (ctx_init_log o.ctx)
        else (c.log (ctx_init_log o.ctx)).log [.closed .container]
    | .attr_init => if o.res = 0 then c.log [.obtained .attr] else c
    | .fill_set => if o.res = 0 then c else c.log [.closed .attr]
    -- the set has every signal
    | .block_signals =>
        if o.res = 0 then { c with sigmask := fun _ => true, oldset := c.sigmask }
        else c.log [.closed .attr]
    -- this failure goes to the end, not to the clean-up of the attribute object
    | .alloc_threads => if o.alloc then c.log [.obtained .threads] else c
    | .restore_mask => if o.res = 0 then { c with sigmask := c.oldset, stored := true } else c
    -- behind the joins the mask stays as it is
    | .cleanup_threads i _ =>
        if i < s.num_created then c else c.log [.closed .threads, .closed .attr]
    | .cleanup_ctx _ => c.log [.closed .container]
    | _ => c
  | .pool (.client d o) => match s.pc, (s.pool.clients d).pc with
    | .cleanup_ctx _, .destroy_queue => c.log [.closed .queue]
    | .cleanup_ctx _, .destroy_active_mutex => if o.res = 0 then c.log [.closed .ctx] else c
    | _, _ => c
  | .pool _ => c

end Caller

section Init

variable [DecidableEq γ]

/-- The owner and its pool, next to the caller. -/
def init_machine (me : γ) : machine.Machine (Owner n γ φ × Caller σ) (StartLabel n γ φ) :=
  .beside (fun s l => (start_step me s l).map fun s' => (s, s')) fun l s c => c.track s l

theorem init_machine_step {me : γ} {s s' : Owner n γ φ × Caller σ} {l : StartLabel n γ φ} :
    (init_machine me).step s l = some s' ↔
      start_step me s.1 l = some s'.1 ∧ s'.2 = s.2.track s.1 l := by
  unfold init_machine
  rw [machine.Machine.beside_step]
  constructor
  · rintro ⟨r, hs, hc⟩
    obtain ⟨t, ht, he⟩ := Option.map_eq_some_iff.mp hs
    cases he
    exact ⟨ht, hc⟩
  · rintro ⟨hs, hc⟩
    exact ⟨s.1, by rw [hs, Option.map_some], hc⟩

end Init

/-- With a failure the call leaves nothing behind, and with any status the mask is that at entry. -/
structure LeftAsItWas (entry : σ → Bool) (status : coin_status_t) (c : Caller σ) : Prop where
  sigmask : c.sigmask = entry
  unchanged : status ≠ .COIN_SUCCESS → c.stored = false
  released : status ≠ .COIN_SUCCESS → c.held = []

/-- The calls of `coin_initialize_workers` while every signal is blocked, the allocation apart. -/
def init_pc.whileBlocked (n : Nat) : init_pc → Bool
  | .create i => i < n
  | .restore_mask => true
  | _ => false

def init_pc.inCleanup : init_pc → Bool
  | .cleanup_ctx _ => true
  | _ => false

/-- The allocation of the threads does not fail. A failure of `pthread_create`, or of the second
`pthread_sigmask`, meets a caller that blocks every signal anyway. And no destruction in
`coin_tpool_ctx_destroy` fails. -/
def CleansUp (entry : σ → Bool) (s : Owner n γ φ × Caller σ) : StartLabel n γ φ → Prop
  | .init o => (s.1.pc = .alloc_threads → o.alloc = true) ∧
      (s.1.pc.whileBlocked n = true → o.res ≠ 0 → ∀ x, entry x = true)
  | .pool (.client c o) => s.1.pc.inCleanup = true →
      (s.1.pool.clients c).pc ≠ .destroy_queue → o.res = 0
  | .pool _ => True

instance (entry : σ → Bool) [Decidable (∀ x, entry x = true)] [DecidableEq φ]
    (s : Owner n γ φ × Caller σ) : DecidablePred (CleansUp entry s)
  | .init o => inferInstanceAs (Decidable ((s.1.pc = .alloc_threads → o.alloc = true) ∧
      (s.1.pc.whileBlocked n = true → o.res ≠ 0 → ∀ x, entry x = true)))
  | .pool (.client c o) => inferInstanceAs (Decidable (s.1.pc.inCleanup = true →
      (s.1.pool.clients c).pc ≠ .destroy_queue → o.res = 0))
  | .pool (.worker ..) => inferInstanceAs (Decidable True)
  | .pool (.call ..) => inferInstanceAs (Decidable True)

/-! ## The log of the context -/

/-- The clean-up of `coin_tpool_ctx_init` is complete. -/
theorem openAfter_ctx_init (o : ctx_outs) (hs : List resource_t) :
    openAfter hs (ctx_init_log o) =
      if coin_tpool_ctx_init o = .COIN_SUCCESS then .queue :: .ctx :: hs else hs := by
  unfold ctx_init_log coin_tpool_ctx_init
  split_ifs <;> simp_all [openAfter]

/-- The points of `coin_tpool_ctx_destroy`. -/
def client_pc.inCtxDestroy : client_pc φ → Bool
  | .destroy_queue_cond | .destroy_queue_mutex | .destroy_queue | .destroy_active_cond
  | .destroy_active_mutex => true
  | _ => false

/-- What there is to release at a point of `coin_tpool_ctx_destroy`, and after it. -/
def client_pc.toRelease : client_pc φ → List resource_t
  | .destroy_queue_cond | .destroy_queue_mutex | .destroy_queue => [.queue, .ctx, .container]
  | .destroy_active_cond | .destroy_active_mutex => [.ctx, .container]
  | _ => [.container]

/-! ## The caller at each point -/

/-- The caller at a point of the call, with its own thread at a point of the pool, as long as the
call can still clean up. -/
inductive Tidy (entry : σ → Bool) : init_pc → client_pc φ → Caller σ → Prop
  | check_input {old : σ → Bool} : Tidy entry .check_input .idle ⟨entry, old, [], false⟩
  | alloc_container {old : σ → Bool} : Tidy entry .alloc_container .idle ⟨entry, old, [], false⟩
  | ctx_init {old : σ → Bool} : Tidy entry .ctx_init .idle ⟨entry, old, [.container], false⟩
  | attr_init {old : σ → Bool} :
      Tidy entry .attr_init .idle ⟨entry, old, [.queue, .ctx, .container], false⟩
  | fill_set {old : σ → Bool} :
      Tidy entry .fill_set .idle ⟨entry, old, [.attr, .queue, .ctx, .container], false⟩
  | block_signals {old : σ → Bool} :
      Tidy entry .block_signals .idle ⟨entry, old, [.attr, .queue, .ctx, .container], false⟩
  | alloc_threads :
      Tidy entry .alloc_threads .idle
        ⟨fun _ => true, entry, [.attr, .queue, .ctx, .container], false⟩
  | create (i : Nat) :
      Tidy entry (.create i) .idle
        ⟨fun _ => true, entry, [.threads, .attr, .queue, .ctx, .container], false⟩
  | restore_mask :
      Tidy entry .restore_mask .idle
        ⟨fun _ => true, entry, [.threads, .attr, .queue, .ctx, .container], false⟩
  | cleanup_threads {old : σ → Bool} (i : Nat) {status : coin_status_t}
      (hfail : status ≠ .COIN_SUCCESS) :
      Tidy entry (.cleanup_threads i status) .idle
        ⟨entry, old, [.threads, .attr, .queue, .ctx, .container], false⟩
  | cleanup_ctx {old : σ → Bool} {status : coin_status_t} {y : client_pc φ}
      (hfail : status ≠ .COIN_SUCCESS) (hy : y.inCtxDestroy = true ∨ y = .idle) :
      Tidy entry (.cleanup_ctx status) y ⟨entry, old, y.toRelease, false⟩
  | failed {old : σ → Bool} {status : coin_status_t} {y : client_pc φ}
      (hfail : status ≠ .COIN_SUCCESS) : Tidy entry (.returned status) y ⟨entry, old, [], false⟩
  | succeeded {old : σ → Bool} {held : List resource_t} {y : client_pc φ} :
      Tidy entry (.returned .COIN_SUCCESS) y ⟨entry, old, held, true⟩

/-- The call can no longer clean up: it will return the mask with every signal blocked, or without
the release of the attribute object or of the context. -/
inductive Lost (entry : σ → Bool) : init_pc → client_pc φ → Caller σ → Prop
  | joining {i : Nat} {status : coin_status_t} {y : client_pc φ} {c : Caller σ}
      (hfail : status ≠ .COIN_SUCCESS) (hmask : c.sigmask ≠ entry) :
      Lost entry (.cleanup_threads i status) y c
  | mask {status : coin_status_t} {y : client_pc φ} {c : Caller σ}
      (hfail : status ≠ .COIN_SUCCESS) (hmask : c.sigmask ≠ entry) :
      Lost entry (.cleanup_ctx status) y c
  | attr {status : coin_status_t} {y : client_pc φ} {c : Caller σ}
      (hfail : status ≠ .COIN_SUCCESS) (hheld : .attr ∈ c.held) :
      Lost entry (.cleanup_ctx status) y c
  | ctx {status : coin_status_t} {c : Caller σ}
      (hfail : status ≠ .COIN_SUCCESS) (hheld : .ctx ∈ c.held) :
      Lost entry (.cleanup_ctx status) .idle c
  | returned {status : coin_status_t} {y : client_pc φ} {c : Caller σ}
      (hfail : status ≠ .COIN_SUCCESS) (h : c.sigmask ≠ entry ∨ c.held ≠ []) :
      Lost entry (.returned status) y c

theorem Tidy.leftAsItWas {entry : σ → Bool} {status : coin_status_t} {y : client_pc φ}
    {c : Caller σ} (h : Tidy entry (.returned status) y c) : LeftAsItWas entry status c := by
  cases h with
  | failed hfail => exact ⟨rfl, fun _ => rfl, fun _ => rfl⟩
  | succeeded => exact ⟨rfl, fun hfail => absurd rfl hfail, fun hfail => absurd rfl hfail⟩

theorem Lost.not_leftAsItWas {entry : σ → Bool} {status : coin_status_t} {y : client_pc φ}
    {c : Caller σ} (h : Lost entry (.returned status) y c) : ¬ LeftAsItWas entry status c := by
  intro hleft
  cases h with
  | returned hfail h =>
    rcases h with hmask | hheld
    · exact hmask hleft.sigmask
    · exact hheld (hleft.released hfail)

/-! ## The steps -/

section Steps

variable [DecidableEq γ] {me : γ} {entry : σ → Bool} {c : Caller σ} {s s' : Owner n γ φ}

/-- The step cleans up and the call still can, or it does not and the call no longer can. -/
def Tells (me : γ) (entry : σ → Bool) (c : Caller σ) (s s' : Owner n γ φ)
    (l : StartLabel n γ φ) : Prop :=
  (CleansUp entry (s, c) l ∧ Tidy entry s'.pc (s'.pool.clients me).pc (c.track s l)) ∨
    (¬ CleansUp entry (s, c) l ∧ Lost entry s'.pc (s'.pool.clients me).pc (c.track s l))

omit [DecidableEq γ] in
theorem Tells.goto {l : StartLabel n γ φ} {pc : init_pc} {y : client_pc φ}
    (hy : (s.pool.clients me).pc = y) (hC : CleansUp entry (s, c) l)
    (h : Tidy entry pc y (c.track s l)) : Tells me entry c s (s.goto pc) l := by
  subst hy
  exact Or.inl ⟨hC, h⟩

theorem Tells.destroy_ctx {l : StartLabel n γ φ} {status : coin_status_t}
    (hC : CleansUp entry (s, c) l)
    (h : Tidy entry (.cleanup_ctx status) (.destroy_queue_cond : client_pc φ) (c.track s l)) :
    Tells me entry c s (s.destroy_ctx me status) l := by
  refine Or.inl ⟨hC, ?_⟩
  unfold Owner.destroy_ctx
  rw [Pool.goto_self]
  exact h

/-- A call that succeeds, or leads to the destruction of the context. -/
theorem Tells.call {l : StartLabel n γ φ} {res : Int} {pc : init_pc} {y : client_pc φ}
    {status : coin_status_t}
    (hs : (if res = 0 then some (s.goto pc) else some (s.destroy_ctx me status)) = some s')
    (hy : (s.pool.clients me).pc = y) (hC : CleansUp entry (s, c) l)
    (hok : res = 0 → Tidy entry pc y (c.track s l))
    (hfail : res ≠ 0 →
      Tidy entry (.cleanup_ctx status) (.destroy_queue_cond : client_pc φ) (c.track s l)) :
    Tells me entry c s s' l := by
  by_cases hr : res = 0
  · rw [if_pos hr] at hs
    cases hs
    exact .goto hy hC (hok hr)
  · rw [if_neg hr] at hs
    cases hs
    exact .destroy_ctx hC (hfail hr)

omit [DecidableEq γ] in
/-- A failure while every signal is blocked. -/
theorem Tells.cleanup_threads {l : StartLabel n γ φ} {status : coin_status_t} {old : σ → Bool}
    (hy : (s.pool.clients me).pc = .idle) (hfail : status ≠ .COIN_SUCCESS)
    (hC : CleansUp entry (s, c) l ↔ ∀ x, entry x = true)
    (hc : c.track s l = ⟨fun _ => true, old, [.threads, .attr, .queue, .ctx, .container], false⟩) :
    Tells me entry c s (s.goto (.cleanup_threads 0 status)) l := by
  by_cases hall : ∀ x, entry x = true
  · have hentry : (fun _ => true) = entry := funext fun x => (hall x).symm
    refine .goto hy (hC.mpr hall) ?_
    rw [hc, hentry]
    exact .cleanup_threads 0 hfail
  · refine Or.inr ⟨fun h => hall (hC.mp h), .joining hfail fun hmask => hall fun x => ?_⟩
    rw [hc] at hmask
    exact (congrFun hmask x).symm

/-- The owner joins the next worker, or is behind the joins. -/
theorem cleanup_threads_step {o : init_outs} {i : Nat} {status : coin_status_t}
    (hpc : s.pc = .cleanup_threads i status) (hs : init_step me o s = some s') :
    (i < s.num_created ∧ s' = s.goto (.cleanup_threads (i + 1) status)) ∨
      (¬ i < s.num_created ∧ s' = s.destroy_ctx me status) := by
  unfold concurinc.init_step at hs
  simp only [hpc] at hs
  by_cases hi : i < s.num_created
  · simp only [hi, if_true] at hs
    split at hs
    · split at hs <;> cases hs
      exact Or.inl ⟨hi, rfl⟩
    · cases hs
  · simp only [hi, if_false] at hs
    cases hs
    exact Or.inr ⟨hi, rfl⟩

theorem cleanup_ctx_step {o : init_outs} {status : coin_status_t}
    (hpc : s.pc = .cleanup_ctx status) (hs : init_step me o s = some s') :
    (s.pool.clients me).pc = .idle ∧ s' = s.goto (.returned status) := by
  unfold concurinc.init_step at hs
  simp only [hpc] at hs
  split at hs <;> cases hs
  rename_i hidle
  exact ⟨hidle, rfl⟩

theorem Tidy.init_step {o : init_outs} (h : Tidy entry s.pc (s.pool.clients me).pc c)
    (hs : init_step me o s = some s') : Tells me entry c s s' (.init o) := by
  obtain ⟨pc, num_created, pool⟩ := s
  have hinit := hs
  unfold concurinc.init_step at hs
  generalize hy : (pool.clients me).pc = y at h
  simp only at h hs
  cases h with
  | check_input =>
    cases hs
    split
    · exact .goto hy ⟨nofun, nofun⟩ (.failed nofun)
    · exact .goto hy ⟨nofun, nofun⟩ .alloc_container
  | alloc_container =>
    cases hs
    refine .goto hy ⟨nofun, nofun⟩ ?_
    by_cases ha : o.alloc = true
    · simp only [Caller.track, ha, if_true]
      exact .ctx_init
    · simp only [Caller.track, ha]
      exact .failed nofun
  | ctx_init =>
    cases hs
    refine .goto hy ⟨nofun, nofun⟩ ?_
    by_cases hok : coin_tpool_ctx_init o.ctx = .COIN_SUCCESS
    · simp only [Caller.track, hok, if_true, Caller.log, openAfter_ctx_init]
      exact .attr_init
    · simp only [Caller.track, hok, if_false, Caller.log, openAfter_ctx_init]
      exact .failed hok
  | attr_init =>
    refine .call hs hy ⟨nofun, nofun⟩ (fun hr => ?_) fun hr => ?_
    · simp only [Caller.track, hr, if_true]
      exact .fill_set
    · simp only [Caller.track, hr, if_false]
      exact .cleanup_ctx nofun (.inl rfl)
  | fill_set =>
    refine .call hs hy ⟨nofun, nofun⟩ (fun hr => ?_) fun hr => ?_
    · simp only [Caller.track, hr, if_true]
      exact .block_signals
    · simp only [Caller.track, hr, if_false]
      exact .cleanup_ctx nofun (.inl rfl)
  | block_signals =>
    refine .call hs hy ⟨nofun, nofun⟩ (fun hr => ?_) fun hr => ?_
    · simp only [Caller.track, hr, if_true]
      exact .alloc_threads
    · simp only [Caller.track, hr, if_false]
      exact .cleanup_ctx nofun (.inl rfl)
  | alloc_threads =>
    by_cases ha : o.alloc = true
    · simp only [ha, if_true] at hs
      cases hs
      refine .goto hy ⟨fun _ => ha, nofun⟩ ?_
      simp only [Caller.track, ha, if_true]
      exact .create 0
    · simp only [ha] at hs
      cases hs
      -- the attribute object is left
      refine Or.inr ⟨fun h => ha (h.1 rfl), .attr nofun ?_⟩
      simp [Caller.track, ha]
  | create i =>
    by_cases hi : i < n
    · by_cases hr : o.res = 0
      · simp only [hi, hr, if_true] at hs
        cases hs
        refine Or.inl ⟨⟨nofun, fun _ hne => absurd hr hne⟩, ?_⟩
        rw [hy]
        exact .create (i + 1)
      · simp only [hi, hr, if_true, if_false] at hs
        cases hs
        exact .cleanup_threads hy nofun
          ⟨fun h => h.2 (decide_eq_true hi) hr, fun h => ⟨nofun, fun _ _ => h⟩⟩ rfl
    · simp only [hi, if_false] at hs
      cases hs
      exact .goto hy ⟨nofun, fun hlt => absurd (of_decide_eq_true hlt) hi⟩ .restore_mask
  | restore_mask =>
    cases hs
    by_cases hr : o.res = 0
    · rw [if_pos hr]
      refine .goto hy ⟨nofun, fun _ hne => absurd hr hne⟩ ?_
      simp only [Caller.track, hr, if_true]
      exact .succeeded
    · rw [if_neg hr]
      exact .cleanup_threads hy nofun
        ⟨fun h => h.2 rfl hr, fun h => ⟨nofun, fun _ _ => h⟩⟩ (if_neg hr)
  | cleanup_threads i hfail =>
    rcases cleanup_threads_step rfl hinit with ⟨hi, rfl⟩ | ⟨hi, rfl⟩
    · refine .goto hy ⟨nofun, nofun⟩ ?_
      simp only [Caller.track, hi, if_true]
      exact .cleanup_threads (i + 1) hfail
    · refine .destroy_ctx ⟨nofun, nofun⟩ ?_
      simp only [Caller.track, hi, if_false]
      exact .cleanup_ctx hfail (.inl rfl)
  | cleanup_ctx hfail =>
    obtain ⟨hidle, rfl⟩ := cleanup_ctx_step rfl hinit
    cases hy.symm.trans hidle
    exact .goto hidle ⟨nofun, nofun⟩ (.failed hfail)
  | failed | succeeded => cases hs

/-- The point after a call of `coin_tpool_ctx_destroy` that ends with `res`. -/
def client_pc.afterCtx (res : Int) : client_pc φ → client_pc φ
  | .destroy_queue_cond => if res = 0 then .destroy_queue_mutex else .idle
  | .destroy_queue_mutex => if res = 0 then .destroy_queue else .idle
  | .destroy_queue => .destroy_active_cond
  | .destroy_active_cond => if res = 0 then .destroy_active_mutex else .idle
  | _ => .idle

theorem ctx_destroy_step {o : Outcome n} {s s' : Pool n γ φ} (hs : client_step me o s = some s')
    (hin : (s.clients me).pc.inCtxDestroy = true) :
    (s'.clients me).pc = (s.clients me).pc.afterCtx o.res := by
  unfold client_step at hs
  generalize (s.clients me).pc = y at hs hin ⊢
  cases y with
  | destroy_queue_cond | destroy_active_cond =>
    simp only at hs
    unfold client_pc.afterCtx
    split at hs <;> cases hs
    · rename_i hr
      simp [hr]
    · rename_i hr
      simp [hr]
  | destroy_queue_mutex =>
    obtain ⟨m, -, rfl⟩ := Option.map_eq_some_iff.mp hs
    unfold client_pc.afterCtx
    split
    · simp
    · simp
  | destroy_queue =>
    cases hs
    simp [client_pc.afterCtx]
  | destroy_active_mutex =>
    obtain ⟨m, -, rfl⟩ := Option.map_eq_some_iff.mp hs
    simp [client_pc.afterCtx]
  | _ => cases hin

/-- The thread of the caller takes a step of `coin_tpool_ctx_destroy`. -/
theorem Tidy.client_step {status : coin_status_t} {o : Outcome n} {pool' : Pool n γ φ}
    (hpc : s.pc = .cleanup_ctx status) (h : Tidy entry s.pc (s.pool.clients me).pc c)
    (hs : client_step me o s.pool = some pool') :
    Tells me entry c s { s with pool := pool' } (.pool (.client me o)) := by
  obtain ⟨pc, num_created, pool⟩ := s
  cases hpc
  have hopen := client_open hs
  have hnext := ctx_destroy_step hs
  unfold Tells CleansUp Caller.track
  simp only at h hopen hnext ⊢
  generalize (pool.clients me).pc = y at h hopen hnext ⊢
  cases h with
  | cleanup_ctx hfail hin =>
    have hin := hin.resolve_right hopen
    rw [hnext hin]
    cases y with
    | destroy_queue_cond | destroy_queue_mutex | destroy_active_cond =>
      by_cases hr : o.res = 0
      · refine Or.inl ⟨fun _ _ => hr, ?_⟩
        simp only [client_pc.afterCtx, hr, if_true]
        exact .cleanup_ctx hfail (.inl rfl)
      · refine Or.inr ⟨fun h => hr (h rfl nofun), ?_⟩
        simp only [client_pc.afterCtx, hr, if_false]
        exact .ctx hfail (by simp [client_pc.toRelease])
    | destroy_queue => exact Or.inl ⟨fun _ h => absurd rfl h, .cleanup_ctx hfail (.inl rfl)⟩
    | destroy_active_mutex =>
      by_cases hr : o.res = 0
      · refine Or.inl ⟨fun _ _ => hr, ?_⟩
        simp only [hr, if_true]
        exact .cleanup_ctx hfail (.inr rfl)
      · refine Or.inr ⟨fun h => hr (h rfl nofun), ?_⟩
        simp only [hr, if_false]
        exact .ctx hfail (by simp [client_pc.toRelease])
    | _ => cases hin

theorem Tidy.step {l : StartLabel n γ φ} (h : Tidy entry s.pc (s.pool.clients me).pc c)
    (hs : start_step me s l = some s') : Tells me entry c s s' l := by
  cases l with
  | init o => exact h.init_step hs
  | pool l =>
    unfold start_step at hs
    simp only at hs
    split at hs
    · rename_i hruns
      obtain ⟨pool', hpool, rfl⟩ := Option.map_eq_some_iff.mp hs
      cases l with
      | worker w o =>
        obtain ⟨x, hw⟩ := worker_step_cases hpool
        refine Or.inl ⟨trivial, ?_⟩
        simp only [hw.clients]
        exact h
      | call d call =>
        have hpc : s.pc = .returned .COIN_SUCCESS := of_decide_eq_true hruns
        refine Or.inl ⟨trivial, ?_⟩
        rw [hpc] at h ⊢
        cases h with
        | failed hfail => exact absurd rfl hfail
        | succeeded => exact .succeeded
      | client d o =>
        have hd := of_decide_eq_true hruns
        by_cases hcleanup : ∃ status, s.pc = .cleanup_ctx status
        · obtain ⟨status, hpc⟩ := hcleanup
          rcases hd with hreturned | rfl
          · rw [hpc] at hreturned
            cases hreturned
          · exact h.client_step hpc hpool
        · obtain ⟨pc, num_created, pool⟩ := s
          generalize hy : (pool.clients me).pc = y at h
          cases h with
          | cleanup_ctx => exact absurd ⟨_, rfl⟩ hcleanup
          | failed hfail =>
            refine Or.inl ⟨fun hin => ?_, .failed hfail⟩
            cases hin
          | succeeded =>
            refine Or.inl ⟨fun hin => ?_, .succeeded⟩
            cases hin
          | _ =>
            -- the thread of the caller is in no call of the pool
            rcases hd with hreturned | rfl
            · cases hreturned
            · exact absurd hy (client_open hpool)
    · cases hs

omit [DecidableEq γ] in
/-- A step of the pool leaves the mask and the attribute object alone. -/
theorem Caller.track_pool (c : Caller σ) (s : Owner n γ φ) (l : PoolLabel n γ φ) :
    (c.track s (.pool l)).sigmask = c.sigmask ∧
      (.attr ∈ c.held → .attr ∈ (c.track s (.pool l)).held) := by
  cases l with
  | worker w o => exact ⟨rfl, id⟩
  | call d call => exact ⟨rfl, id⟩
  | client d o =>
    unfold track
    simp only
    split
    · exact ⟨rfl, fun h => mem_close h nofun⟩
    · split
      · exact ⟨rfl, fun h => mem_close h nofun⟩
      · exact ⟨rfl, id⟩
    · exact ⟨rfl, id⟩

theorem Lost.init_step {o : init_outs} (h : Lost entry s.pc (s.pool.clients me).pc c)
    (hs : init_step me o s = some s') :
    Lost entry s'.pc (s'.pool.clients me).pc (c.track s (.init o)) := by
  obtain ⟨pc, num_created, pool⟩ := s
  generalize hy : (pool.clients me).pc = y at h
  simp only at h
  cases h with
  | @joining i status _ _ hfail hmask =>
    rcases cleanup_threads_step rfl hs with ⟨hi, rfl⟩ | ⟨hi, rfl⟩
    · simp only [Caller.track, hi, if_true]
      exact .joining hfail hmask
    · simp only [Caller.track, hi, if_false]
      exact .mask hfail hmask
  | mask hfail hmask =>
    obtain ⟨-, rfl⟩ := cleanup_ctx_step rfl hs
    exact .returned hfail (.inl hmask)
  | attr hfail hheld | ctx hfail hheld =>
    obtain ⟨-, rfl⟩ := cleanup_ctx_step rfl hs
    have hleft := Caller.mem_close (t := .container) hheld nofun
    exact .returned hfail (.inr (List.ne_nil_of_mem hleft))
  | returned => cases hs

theorem Lost.step {l : StartLabel n γ φ} (h : Lost entry s.pc (s.pool.clients me).pc c)
    (hs : start_step me s l = some s') :
    Lost entry s'.pc (s'.pool.clients me).pc (c.track s l) := by
  cases l with
  | init o => exact h.init_step hs
  | pool l =>
    unfold start_step at hs
    simp only at hs
    split at hs
    · rename_i hruns
      obtain ⟨pool', hpool, rfl⟩ := Option.map_eq_some_iff.mp hs
      obtain ⟨hmask, hattr⟩ := c.track_pool s l
      cases l with
      | worker w o =>
        obtain ⟨x, hw⟩ := worker_step_cases hpool
        simp only [hw.clients]
        exact h
      | call d call =>
        have hpc : s.pc = .returned .COIN_SUCCESS := of_decide_eq_true hruns
        rw [hpc] at h
        cases h with
        | returned hfail => exact absurd rfl hfail
      | client d o =>
        have hd := of_decide_eq_true hruns
        obtain ⟨pc, num_created, pool⟩ := s
        generalize hy : (pool.clients me).pc = y at h
        cases h with
        | joining hfail hne => exact .joining hfail hne
        | mask hfail hne => exact .mask hfail (hmask ▸ hne)
        | attr hfail hheld => exact .attr hfail (hattr hheld)
        | ctx =>
          rcases hd with hreturned | rfl
          · cases hreturned
          · exact absurd hy (client_open hpool)
        | returned hfail h => exact .returned hfail h
    · cases hs

end Steps

/-! ## The law -/

variable [DecidableEq γ]

/-- `coin_tpool_init` leaves its caller as it was if and only if the array of the threads is
allocated, no failure comes while the signals are blocked that were not, and the context is
destroyed without a failure. -/
theorem a_failed_init_leaves_its_caller_as_it_was {me : γ} {entry : σ → Bool}
    {ls : List (StartLabel n γ φ)} {s : Owner n γ φ × Caller σ} {status : coin_status_t}
    (hrun : (init_machine me).run (new_owner, new_caller entry) ls = some s)
    (hret : s.1.pc = .returned status) :
    LeftAsItWas entry status s.2 ↔
      (init_machine me).Meets (CleansUp entry) (new_owner, new_caller entry) ls := by
  have hend := machine.Machine.run_exact (m := init_machine me) (C := CleansUp entry)
    (P := fun s => Tidy entry s.1.pc (s.1.pool.clients me).pc s.2)
    (Q := fun s => Lost entry s.1.pc (s.1.pool.clients me).pc s.2)
    (fun s l s' h hs => by
      obtain ⟨hs, hc⟩ := init_machine_step.mp hs
      rw [hc]
      exact h.step hs)
    (fun s l s' h hs => by
      obtain ⟨hs, hc⟩ := init_machine_step.mp hs
      rw [hc]
      exact h.step hs) .check_input hrun
  rw [hret] at hend
  rcases hend with ⟨hmeets, hat⟩ | ⟨hnot, hlost⟩
  · exact iff_of_true hat.leftAsItWas hmeets
  · exact iff_of_false hlost.not_leftAsItWas hnot

/-- The destruction of the context, and the return. -/
def cleanup_labels : List (StartLabel 2 Unit Unit) :=
  List.replicate 5 (.pool (.client () {})) ++ [.init {}]

/-- The first `pthread_sigmask` fails. -/
theorem a_mask_that_is_not_set_is_left :
    ∃ s : Owner 2 Unit Unit × Caller Unit, s.1.pc = .returned .COIN_PTHREAD_SIGMASK_ERROR ∧
      LeftAsItWas (fun _ => false) .COIN_PTHREAD_SIGMASK_ERROR s.2 := by
  let start : Owner 2 Unit Unit × Caller Unit := (new_owner, new_caller fun _ => false)
  let ls := init_labels 5 ++ [.init { res := 22 }] ++ cleanup_labels
  obtain ⟨s, hrun, hret⟩ := (init_machine ()).exists_run
    (fun s => s.1.pc = .returned .COIN_PTHREAD_SIGMASK_ERROR) start ls (by decide +kernel)
  have hok : (init_machine ()).Meets (CleansUp fun _ => false) start ls := by decide +kernel
  exact ⟨s, hret, (a_failed_init_leaves_its_caller_as_it_was hrun hret).mpr hok⟩

/-- The first `pthread_create` fails: the call returns with every signal blocked. -/
theorem a_failed_creation_leaves_the_signals_blocked :
    ¬ ∀ (ls : List (StartLabel 2 Unit Unit)) (s : Owner 2 Unit Unit × Caller Unit)
      (status : coin_status_t),
      (init_machine ()).run (new_owner, new_caller fun _ => false) ls = some s →
        s.1.pc = .returned status → LeftAsItWas (fun _ => false) status s.2 := by
  intro h
  obtain ⟨s, hrun, hret, hmask⟩ := (init_machine ()).exists_run
    (fun s : Owner 2 Unit Unit × Caller Unit =>
      s.1.pc = .returned .COIN_PTHREAD_CREATE_ERROR ∧ s.2.sigmask () = true)
    (new_owner, new_caller fun _ => false)
    (init_labels 7 ++ [.init { res := 11 }, .init {}] ++ cleanup_labels) (by decide +kernel)
  have hsame := (h _ s _ hrun hret).sigmask
  rw [hsame] at hmask
  cases hmask

end pingpong.concurinc
