-- The law of the exit values: a worker returns its `err` as a pointer, and
-- `coin_tpool_destroy` reads an integer from where this pointer points.
import PingPong.PoolDestroy

namespace pingpong.concurinc

variable {n : Nat} {γ φ : Type}

/-! ## The exit values -/

/-- `(void *)(intptr_t)err`, as the address that it stands for. -/
def as_pointer (err : Int) : Nat := (err % 2 ^ 64).toNat

theorem as_pointer_small {err : Int} (h : 0 ≤ err ∧ err < 4096) : as_pointer err < 4096 := by
  unfold as_pointer
  omega

/-- The loads of an `int`, `none` where the address is not one of an object. There is none in the
first page. -/
structure Memory where
  load_int : Nat → Option Int
  first_page : ∀ a < 4096, load_int a = none

/-- What `pthread_join` stores for a worker that has exited. -/
def p_retval (s : Pool n γ φ) (i : Fin n) : Nat := as_pointer (s.workers i).err

/-- The loop of `coin_tpool_destroy` over `retvals`, between the joins and the destruction of the
context. It is `none` when a load is not valid. -/
def read_retvals (mem : Memory) (s : Pool n γ φ) : Option (List Int) :=
  (List.finRange n).mapM fun i => mem.load_int (p_retval s i)

/-- The integers that the workers have returned. -/
def exit_values (s : Pool n γ φ) : List Int := (List.finRange n).map fun i => (s.workers i).err

/-- The results of the pthread calls are 0 or error numbers. -/
def PoolLabel.Errno : PoolLabel n γ φ → Prop
  | .worker _ o => 0 ≤ o.res ∧ o.res < 4096
  | .client _ o => 0 ≤ o.res ∧ o.res < 4096
  | .call _ _ => True

instance : DecidablePred (PoolLabel.Errno (n := n) (γ := γ) (φ := φ))
  | .worker _ o => inferInstanceAs (Decidable (0 ≤ o.res ∧ o.res < 4096))
  | .client _ o => inferInstanceAs (Decidable (0 ≤ o.res ∧ o.res < 4096))
  | .call _ _ => inferInstanceAs (Decidable True)

variable [DecidableEq γ]

/-! ## What the workers return -/

omit [DecidableEq γ] in
theorem put_self (s : Pool n γ φ) (w : Fin n) (x : Worker φ) : (s.put w x).workers w = x :=
  Function.update_self ..

/-- A step of a worker leaves its `err`, or sets it to the result of the call or to 1. -/
theorem err_step {w : Fin n} {o : Outcome n} {s s' : Pool n γ φ}
    (hs : worker_step w o s = some s') :
    (s'.workers w).err = (s.workers w).err ∨ (s'.workers w).err = o.res ∨
      (s'.workers w).err = 1 := by
  unfold worker_step at hs
  cases hpc : (s.workers w).pc
  all_goals simp only [hpc] at hs
  case lock_queue | lock_inc | lock_dec | exit_lock =>
    obtain ⟨m, -, rfl⟩ := Option.map_eq_some_iff.mp hs
    simp [put_self]
  case check_queue =>
    split at hs
    · split at hs <;> cases hs <;> simp [put_self]
    · cases hs
      simp [put_self]
  case cond_wait =>
    split at hs
    · cases hs
    · obtain ⟨m, -, rfl⟩ := Option.map_eq_some_iff.mp hs
      simp [put_self]
  case pop =>
    split at hs <;> cases hs <;> simp [put_self]
  case signal_more =>
    split at hs
    · cases hs
      simp [put_self]
    · obtain ⟨m, -, rfl⟩ := Option.map_eq_some_iff.mp hs
      simp [put_self]
  case exited => cases hs
  all_goals
    cases hs
    simp [put_self]

/-- What a worker returns is 0, 1 or an error number. -/
theorem err_of_run {s : Pool n γ φ} {ls : List (PoolLabel n γ φ)} (herr : ∀ l ∈ ls, l.Errno)
    (hr : pool_machine.run new_pool ls = some s) (w : Fin n) :
    0 ≤ (s.workers w).err ∧ (s.workers w).err < 4096 := by
  refine machine.Machine.run_invariant (m := pool_machine)
    (P := fun s : Pool n γ φ => ∀ w, 0 ≤ (s.workers w).err ∧ (s.workers w).err < 4096)
    (C := fun _ l => l.Errno) ?_ (fun _ => ⟨le_rfl, by show (0 : Int) < 4096; decide⟩)
    (machine.Machine.meets_of_mem herr) hr w
  intro s l s' hP hl hs w
  rcases pool_step_cases hs with ⟨v, o, x, rfl, hw⟩ | ⟨c, res, y, -, -, hc⟩
  · by_cases hwv : w = v
    · subst hwv
      have hres : 0 ≤ o.res ∧ o.res < 4096 := hl
      rcases err_step hs with he | he | he
      · rw [he]
        exact hP w
      · rw [he]
        exact hres
      · rw [he]
        decide
    · rw [hw.other hwv]
      exact hP w
  · rw [hc.workers]
    exact hP w

/-! ## What is read back -/

omit [DecidableEq γ] in
/-- The address of the first worker is not that of an object. -/
theorem read_retvals_none {mem : Memory} {s : Pool n γ φ}
    (herr : ∀ w, 0 ≤ (s.workers w).err ∧ (s.workers w).err < 4096) (hn : n ≠ 0) :
    read_retvals mem s = none := by
  obtain ⟨m, rfl⟩ := Nat.exists_eq_succ_of_ne_zero hn
  have hfirst : mem.load_int (p_retval s 0) = none :=
    mem.first_page _ (as_pointer_small (herr 0))
  rw [read_retvals, List.finRange_succ, List.mapM_cons, hfirst]
  rfl

/-- When all joins have succeeded, all workers have exited, and the loop over `retvals` reads only
valid memory and sets each entry to what its worker has returned if and only if there is no
worker. -/
theorem the_exit_values_are_read_iff_there_is_no_worker (mem : Memory) {c : γ} {s : Pool n γ φ}
    {ls : List (PoolLabel n γ φ)} (herr : ∀ l ∈ ls, l.Errno)
    (hr : pool_machine.run new_pool ls = some s)
    (hpc : (s.clients c).pc = .destroy_queue_cond) :
    AllExited s ∧ (read_retvals mem s = some (exit_values s) ↔ n = 0) := by
  have hclosing := (closing_of_run hr c).2
  rw [Closing, hpc] at hclosing
  refine ⟨hclosing, ?_⟩
  by_cases hn : n = 0
  · subst hn
    exact iff_of_true rfl rfl
  · rw [read_retvals_none (err_of_run herr hr) hn]
    exact iff_of_false (by simp) hn

/-- The pool of one is stopped, and its worker leaves with 0. -/
def joined_labels : List (PoolLabel 1 Unit Unit) :=
  .call () .destroy :: (List.replicate 4 (.client () {}) ++ work_labels 7 ++
    List.replicate 2 (.client () {}))

/-- A process with an integer at every address behind the first page. -/
def zeros : Memory := ⟨fun a => if a < 4096 then none else some 0, fun _ ha => if_pos ha⟩

/-- The stopped pool with one worker: the joins have succeeded, and the read fails. -/
theorem one_exit_value_is_not_read :
    ∃ s : Pool 1 Unit Unit, pool_machine.run new_pool joined_labels = some s ∧
      (s.clients ()).pc = .destroy_queue_cond ∧ exit_values s = [0] ∧
      AllExited s ∧ (read_retvals zeros s = some (exit_values s) ↔ 1 = 0) := by
  let s : Pool 1 Unit Unit := (pool_machine.run new_pool joined_labels).get rfl
  have hr : pool_machine.run new_pool joined_labels = some s := (Option.some_get _).symm
  have hpc : (s.clients ()).pc = .destroy_queue_cond := rfl
  exact ⟨s, hr, hpc, rfl,
    the_exit_values_are_read_iff_there_is_no_worker zeros (by decide) hr hpc⟩

/-- A worker that leaves at the shutdown returns 0, and this is read as a null pointer. -/
theorem the_exit_value_of_a_shutdown_is_not_read :
    ¬ ∀ (mem : Memory) (s : Pool 1 Unit Unit) (ls : List (PoolLabel 1 Unit Unit)),
      (∀ l ∈ ls, l.Errno) → pool_machine.run new_pool ls = some s →
      (s.clients ()).pc = .destroy_queue_cond → read_retvals mem s = some (exit_values s) := by
  intro h
  let s : Pool 1 Unit Unit := (pool_machine.run new_pool joined_labels).get rfl
  have hr : pool_machine.run new_pool joined_labels = some s := (Option.some_get _).symm
  have hread : read_retvals zeros s = none := rfl
  rw [h zeros s joined_labels (by decide) hr rfl] at hread
  cases hread

end pingpong.concurinc
