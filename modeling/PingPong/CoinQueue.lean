-- The task queue of `coin_queue.c`, a chain of nodes in memory. It is the list
-- of tasks that the pool takes for its queue.
import PingPong.Lib.Chains
import PingPong.Pool

namespace pingpong.coin_queue

open concurinc chains

/-- An address of the heap. -/
abbrev ptr := Nat

def NULL : ptr := 0

structure coin_queue_node_t where
  p_task : ptr
  p_next : ptr
  deriving DecidableEq, Repr

structure coin_queue_t where
  p_head : ptr
  p_tail : ptr
  size : Nat
  deriving DecidableEq, Repr

/-- The nodes that are allocated, by address. -/
abbrev heap := ptr → Option coin_queue_node_t

/-- A queue at its address, and the nodes. -/
structure Queue where
  p_queue : ptr
  queue : coin_queue_t
  nodes : heap

/-- `size++` on `size_t`. -/
def size_inc (n : Nat) : Nat := (n + 1) % 2 ^ 64

/-! ## The functions -/

/-- Each `calloc` gives an address, or fails. -/
def coin_queue_init (calloc : Option ptr) : coin_status_t × Option Queue :=
  match calloc with
  | none => (.COIN_ALLOCATION_FAILURE, none)
  | some p_queue => (.COIN_SUCCESS, some ⟨p_queue, ⟨NULL, NULL, 0⟩, fun _ => none⟩)

/-- The loop of `coin_queue_destroy`, with the addresses that are freed. A read of a node that is
not allocated is `none`, as is a loop that needs more turns. -/
def destroy_loop : Nat → ptr → heap → List ptr → Option (heap × List ptr)
  | 0, _, _, _ => none
  | turns + 1, p_cur, nodes, freed =>
    if p_cur = NULL then some (nodes, freed)
    else (nodes p_cur).bind fun cur =>
      destroy_loop turns cur.p_next (Function.update nodes p_cur none)
        (freed ++ [cur.p_task, p_cur])

def coin_queue_destroy (turns : Nat) (q : Queue) :
    Option (coin_status_t × heap × List ptr) :=
  (destroy_loop turns q.queue.p_head q.nodes []).map fun (nodes, freed) =>
    (.COIN_SUCCESS, nodes, freed ++ [q.p_queue])

/-- `p->p_next = p_next`. -/
def set_next (p p_next : ptr) (nodes : heap) : Option heap :=
  (nodes p).map fun node => Function.update nodes p (some { node with p_next })

def coin_queue_push (calloc : Option ptr) (p_task : ptr) (q : Queue) :
    Option (coin_status_t × Queue) :=
  if p_task = NULL then some (.COIN_INVALID_INPUT, q)
  else match calloc with
    | none => some (.COIN_ALLOCATION_FAILURE, q)
    | some p_node =>
      let nodes := Function.update q.nodes p_node (some ⟨p_task, NULL⟩)
      let size := size_inc q.queue.size
      if q.queue.p_head = NULL then
        some (.COIN_SUCCESS, { q with queue := ⟨p_node, p_node, size⟩, nodes })
      -- one item in the queue
      else if q.queue.p_head = q.queue.p_tail then
        (set_next q.queue.p_head p_node nodes).map fun nodes =>
          (.COIN_SUCCESS, { q with queue := ⟨q.queue.p_head, p_node, size⟩, nodes })
      else
        (set_next q.queue.p_tail p_node nodes).map fun nodes =>
          (.COIN_SUCCESS, { q with queue := ⟨q.queue.p_head, p_node, size⟩, nodes })

/-- The second component is what `*pp_task` is set to. -/
def coin_queue_pop (q : Queue) : Option (coin_status_t × ptr × Queue) :=
  if q.queue.p_head = NULL then some (.COIN_EMPTY_QUEUE_ERROR, NULL, q)
  else (q.nodes q.queue.p_head).map fun node =>
    let (p_head, p_tail) :=
      if q.queue.p_head = q.queue.p_tail then (NULL, NULL) else (node.p_next, q.queue.p_tail)
    (.COIN_SUCCESS, node.p_task, { q with
      queue := ⟨p_head, p_tail, size_sub q.queue.size 1⟩
      nodes := Function.update q.nodes q.queue.p_head none })

/-! ## The queue is a list -/

def next (nodes : heap) (p : ptr) : Option ptr := (nodes p).map coin_queue_node_t.p_next

def task (nodes : heap) (p : ptr) : Option ptr := (nodes p).map coin_queue_node_t.p_task

/-- The nodes reachable from `p_head` are the list `ns`, which ends at `p_tail`, and their tasks
are the list `ts`. No other node is allocated. -/
structure Chained (q : Queue) (ns ts : List ptr) : Prop where
  chain : Chain (next q.nodes) NULL q.queue.p_head ns
  tail : ns.getLast?.getD NULL = q.queue.p_tail
  tasks : ns.map (task q.nodes) = ts.map some
  size : q.queue.size = ns.length
  only : ∀ p, q.nodes p ≠ none → p ∈ ns
  null : q.nodes NULL = none
  address : ∀ p ∈ ns, p < 2 ^ 64

/-- What `calloc` promises of a new node. -/
structure Fresh (q : Queue) (p : ptr) : Prop where
  ne : p ≠ NULL
  address : p < 2 ^ 64
  free : q.nodes p = none

instance (q : Queue) (p : ptr) : Decidable (Fresh q p) :=
  decidable_of_iff (p ≠ NULL ∧ p < 2 ^ 64 ∧ q.nodes p = none)
    ⟨fun h => ⟨h.1, h.2.1, h.2.2⟩, fun h => ⟨h.ne, h.address, h.free⟩⟩

theorem next_update_ne (nodes : heap) {p n : ptr} (h : n ≠ p) (node : Option coin_queue_node_t) :
    next (Function.update nodes p node) n = next nodes n := by
  simp [next, h]

theorem task_update_ne (nodes : heap) {p n : ptr} (h : n ≠ p) (node : Option coin_queue_node_t) :
    task (Function.update nodes p node) n = task nodes n := by
  simp [task, h]

namespace Chained

variable {q : Queue} {ns ts : List ptr}

theorem next_null (hq : Chained q ns ts) : next q.nodes NULL = none := by
  simp [next, hq.null]

theorem nodup (hq : Chained q ns ts) : ns.Nodup := hq.chain.nodup hq.next_null

theorem null_notMem (hq : Chained q ns ts) : NULL ∉ ns := hq.chain.null_notMem hq.next_null

theorem head_eq_null_iff (hq : Chained q ns ts) : q.queue.p_head = NULL ↔ ns = [] :=
  hq.chain.start_eq_null_iff hq.next_null

theorem tail_eq_null_iff (hq : Chained q ns ts) : q.queue.p_tail = NULL ↔ ns = [] := by
  rw [← hq.tail]
  constructor
  · intro h
    by_contra hne
    rw [List.getLast?_eq_getLast_of_ne_nil hne, Option.getD_some] at h
    exact hq.null_notMem (h ▸ List.getLast_mem hne)
  · intro h
    simp [h]

theorem length_tasks (hq : Chained q ns ts) : ns.length = ts.length := by
  simpa using congrArg List.length hq.tasks

theorem allocated (hq : Chained q ns ts) {n : ptr} (hn : n ∈ ns) :
    ∃ node, q.nodes n = some node := by
  obtain ⟨p, hp⟩ := hq.chain.node n hn
  obtain ⟨node, hnode, -⟩ := Option.map_eq_some_iff.mp hp
  exact ⟨node, hnode⟩

theorem fresh_notMem (hq : Chained q ns ts) {p : ptr} (hp : Fresh q p) : p ∉ ns := by
  intro hn
  obtain ⟨node, hnode⟩ := hq.allocated hn
  simp [hp.free] at hnode

/-- There is always room to count one node more. -/
theorem size_inc_eq (hq : Chained q ns ts) {p : ptr} (hp : Fresh q p) :
    size_inc q.queue.size = (ns ++ [p]).length := by
  have hnodup : (ns ++ [p]).Nodup := by
    refine List.nodup_append.mpr ⟨hq.nodup, by simp, ?_⟩
    intro n hn m hm he
    rw [he, List.mem_singleton.mp hm] at hn
    exact hq.fresh_notMem hp hn
  have hnull : NULL ∉ ns ++ [p] := by
    simpa [hq.null_notMem] using Ne.symm hp.ne
  have hlt : (ns ++ [p]).length < 2 ^ 64 := by
    apply length_lt_of_addresses hnodup hnull (by decide)
    intro n hn
    rcases List.mem_append.mp hn with hn | hn
    · exact hq.address n hn
    · rw [List.mem_singleton.mp hn]
      exact hp.address
  rw [size_inc, hq.size]
  rw [List.length_append, List.length_singleton] at hlt ⊢
  exact Nat.mod_eq_of_lt hlt

end Chained

/-! ## Push -/

/-- In a queue that has a node, both branches of a push link the new node behind the last one. -/
theorem push_behind {q : Queue} {p p_task : ptr} (h0 : p_task ≠ NULL)
    (hhead : q.queue.p_head ≠ NULL) :
    coin_queue_push (some p) p_task q =
      (set_next q.queue.p_tail p (Function.update q.nodes p (some ⟨p_task, NULL⟩))).map
        fun nodes => (.COIN_SUCCESS,
          { q with queue := ⟨q.queue.p_head, p, size_inc q.queue.size⟩, nodes }) := by
  unfold coin_queue_push
  rw [if_neg h0]
  simp only [if_neg hhead]
  by_cases hone : q.queue.p_head = q.queue.p_tail
  · rw [if_pos hone, hone]
  · rw [if_neg hone]

theorem push_empty_spec {q : Queue} {p p_task : ptr} (hq : Chained q [] []) (hp : Fresh q p)
    (h0 : p_task ≠ NULL) :
    ∃ q', coin_queue_push (some p) p_task q = some (.COIN_SUCCESS, q') ∧
      Chained q' [p] [p_task] := by
  have hhead : q.queue.p_head = NULL := hq.head_eq_null_iff.mpr rfl
  unfold coin_queue_push
  simp only [if_neg h0, if_pos hhead]
  refine ⟨_, rfl, .cons (by simp [next]) .nil, by simp, by simp [task], hq.size_inc_eq hp,
    ?_, ?_, ?_⟩
  · intro n hn
    by_contra hne
    have hne : n ≠ p := by simpa using hne
    simp only [Function.update_of_ne hne] at hn
    simpa using hq.only n hn
  · simp [Function.update_of_ne (Ne.symm hp.ne), hq.null]
  · simpa using hp.address

/-- A push to a queue that has a node. -/
theorem push_behind_spec {q : Queue} {ms ts : List ptr} {t p p_task : ptr}
    (hq : Chained q (ms ++ [t]) ts) (hp : Fresh q p) (h0 : p_task ≠ NULL) :
    ∃ q', coin_queue_push (some p) p_task q = some (.COIN_SUCCESS, q') ∧
      Chained q' (ms ++ [t] ++ [p]) (ts ++ [p_task]) := by
  have htail : q.queue.p_tail = t := by simp [← hq.tail]
  have hhead : q.queue.p_head ≠ NULL := by simp [hq.head_eq_null_iff]
  have hmem : t ∈ ms ++ [t] := by simp
  obtain ⟨node, hnode⟩ := hq.allocated hmem
  have hne : ∀ n ∈ ms ++ [t], n ≠ p := fun n hn he => hq.fresh_notMem hp (he ▸ hn)
  have hnt : ∀ n ∈ ms, n ≠ t := by
    intro n hn he
    have hnodup := hq.nodup
    rw [List.nodup_append] at hnodup
    exact hnodup.2.2 n hn t (by simp) he
  have htp : t ≠ p := hne t hmem
  let nodes := Function.update q.nodes p (some ⟨p_task, NULL⟩)
  let linked := Function.update nodes t (some { node with p_next := p })
  have hset : set_next q.queue.p_tail p nodes = some linked := by
    simp [set_next, linked, nodes, htail, htp, hnode]
  have htasks : (ms ++ [t] ++ [p]).map (task linked) = (ts ++ [p_task]).map some := by
    have hold : ∀ n ∈ ms ++ [t], task linked n = task q.nodes n := by
      intro n hn
      by_cases he : n = t
      · simp [linked, he, task, hnode]
      · rw [task_update_ne _ he, task_update_ne _ (hne n hn)]
    have hnew : task linked p = some p_task := by
      rw [task_update_ne _ htp.symm]
      simp [task, nodes]
    rw [List.map_append, List.map_congr_left hold, hq.tasks]
    simp [hnew]
  rw [push_behind h0 hhead, hset]
  refine ⟨_, rfl, ?_, by simp, htasks, hq.size_inc_eq hp, ?_, ?_, ?_⟩
  · -- the links of the nodes before `t` are as they were
    apply hq.chain.link
    · intro n hn
      rw [next_update_ne _ (hnt n hn), next_update_ne _ (hne n (by simp [hn]))]
    · simp [next, linked]
    · rw [next_update_ne _ htp.symm]
      simp [next, nodes]
  · intro n hn
    by_cases he : n = p
    · simp [he]
    · by_cases ht : n = t
      · simp [ht]
      · have hn : q.nodes n ≠ none := by
          simpa [linked, nodes, he, ht] using hn
        exact List.mem_append_left _ (hq.only n hn)
  · have hnull : NULL ≠ t := fun h => hq.null_notMem (h ▸ hmem)
    simp [linked, nodes, hnull, hp.ne.symm, hq.null]
  · intro n hn
    rcases List.mem_append.mp hn with hn | hn
    · exact hq.address n hn
    · rw [List.mem_singleton.mp hn]
      exact hp.address

/-- A push adds one node, with the task, at the end. It fails without a task or without memory,
and changes nothing then. -/
theorem push_spec {q : Queue} {ns ts : List ptr} (hq : Chained q ns ts) (p_task : ptr)
    {calloc : Option ptr} (hfresh : ∀ p, calloc = some p → Fresh q p) :
    (p_task = NULL ∧ coin_queue_push calloc p_task q = some (.COIN_INVALID_INPUT, q)) ∨
    (calloc = none ∧ coin_queue_push calloc p_task q = some (.COIN_ALLOCATION_FAILURE, q)) ∨
    ∃ p q', calloc = some p ∧ coin_queue_push calloc p_task q = some (.COIN_SUCCESS, q') ∧
      Chained q' (ns ++ [p]) (ts ++ [p_task]) := by
  by_cases h0 : p_task = NULL
  · exact Or.inl ⟨h0, by simp [coin_queue_push, h0]⟩
  · cases calloc with
    | none => exact Or.inr (Or.inl ⟨rfl, by simp [coin_queue_push, h0]⟩)
    | some p =>
      have hp : Fresh q p := hfresh p rfl
      rcases List.eq_nil_or_concat ns with he | ⟨ms, t, he⟩
      · have hts : ts = [] := by
          apply List.length_eq_zero_iff.mp
          rw [← hq.length_tasks, he, List.length_nil]
        rw [he, hts] at hq ⊢
        obtain ⟨q', hpush, hq'⟩ := push_empty_spec hq hp h0
        exact Or.inr (Or.inr ⟨p, q', rfl, hpush, hq'⟩)
      · rw [he, List.concat_eq_append] at hq ⊢
        obtain ⟨q', hpush, hq'⟩ := push_behind_spec hq hp h0
        exact Or.inr (Or.inr ⟨p, q', rfl, hpush, hq'⟩)

/-! ## Pop -/

theorem pop_empty {q : Queue} (hq : Chained q [] []) :
    coin_queue_pop q = some (.COIN_EMPTY_QUEUE_ERROR, NULL, q) := by
  simp [coin_queue_pop, hq.head_eq_null_iff]

/-- A pop gives the first task and frees its node. The last pop also resets `p_tail`. -/
theorem pop_spec {q : Queue} {n t : ptr} {ns ts : List ptr} (hq : Chained q (n :: ns) (t :: ts)) :
    ∃ q', coin_queue_pop q = some (.COIN_SUCCESS, t, q') ∧ Chained q' ns ts := by
  have hhead : q.queue.p_head = n := hq.chain.start.symm
  have hnull : n ≠ NULL := by
    intro he
    exact hq.null_notMem (by simp [he])
  have htail : ns.getLast?.getD n = q.queue.p_tail := by
    rw [← hq.tail, List.getLast?_cons, Option.getD_some]
  have hnodup := List.nodup_cons.mp hq.nodup
  have hone : n = q.queue.p_tail ↔ ns = [] := by
    rw [← htail]
    constructor
    · intro he
      by_contra hne
      rw [List.getLast?_eq_getLast_of_ne_nil hne, Option.getD_some] at he
      exact hnodup.1 (he ▸ List.getLast_mem hne)
    · intro he
      simp [he]
  obtain ⟨node, hnode⟩ := hq.allocated List.mem_cons_self
  have htask := hq.tasks
  simp only [List.map_cons, List.cons.injEq] at htask
  have ht : node.p_task = t := by
    simpa [task, hnode] using htask.1
  have hchain : Chain (next q.nodes) NULL node.p_next ns := by
    have h := hq.chain
    rw [hhead] at h
    cases h with
    | cons hp hrest =>
      have he : next q.nodes n = some node.p_next := by simp [next, hnode]
      rw [he] at hp
      cases hp
      exact hrest
  have hother : ∀ m ∈ ns, m ≠ n := fun m hm he => hnodup.1 (he ▸ hm)
  -- the ends of the queue behind the first node
  obtain ⟨p_head, p_tail, hends, hfrom, hto⟩ : ∃ p_head p_tail,
      (if n = q.queue.p_tail then (NULL, NULL) else (node.p_next, q.queue.p_tail)) =
        (p_head, p_tail) ∧
      Chain (next (Function.update q.nodes n none)) NULL p_head ns ∧
      ns.getLast?.getD NULL = p_tail := by
    by_cases he : ns = []
    · refine ⟨NULL, NULL, if_pos (hone.mpr he), ?_, by simp [he]⟩
      rw [he]
      exact .nil
    · refine ⟨_, _, if_neg fun h => he (hone.mp h), ?_, ?_⟩
      · exact hchain.congr fun m hm => next_update_ne _ (hother m hm) _
      · rw [← htail, List.getLast?_eq_getLast_of_ne_nil he, Option.getD_some, Option.getD_some]
  unfold coin_queue_pop
  simp only [hhead, if_neg hnull, hnode, Option.map_some, ht, hends]
  refine ⟨_, rfl, hfrom, hto, ?_, ?_, ?_, ?_, ?_⟩
  · rw [← htask.2]
    exact List.map_congr_left fun m hm => task_update_ne _ (hother m hm) _
  · simp [hq.size, size_sub]
  · intro m hm
    have hne : m ≠ n := by
      intro he
      simp [he] at hm
    have hm : q.nodes m ≠ none := by simpa [hne] using hm
    exact (List.mem_cons.mp (hq.only m hm)).resolve_left hne
  · simp [hnull.symm, hq.null]
  · intro m hm
    exact hq.address m (List.mem_cons_of_mem n hm)

/-! ## Destroy -/

/-- What the loop of a destroy frees: each task, and the node that held it. -/
def entries (ns ts : List ptr) : List ptr := (ns.zip ts).flatMap fun (n, t) => [t, n]

theorem entries_perm {ns ts : List ptr} (h : ns.length = ts.length) :
    (entries ns ts).Perm (ns ++ ts) := by
  induction ns generalizing ts with
  | nil =>
    rw [List.length_eq_zero_iff.mp h.symm]
    exact .refl _
  | cons n ns ih =>
    cases ts with
    | nil => simp at h
    | cons t ts =>
      have hrest := ih (Nat.succ.inj h)
      have hmid : (n :: ns ++ t :: ts).Perm (t :: (n :: ns ++ ts)) := List.perm_middle
      have hcons : entries (n :: ns) (t :: ts) = t :: n :: entries ns ts := by simp [entries]
      rw [hcons]
      exact ((hrest.cons n).cons t).trans hmid.symm

/-- The loop follows the chain: the induction is on its nodes. Each turn frees a node that no
later turn reads. -/
theorem destroy_loop_spec {ns ts : List ptr} {nodes : heap} {p : ptr}
    (hchain : Chain (next nodes) NULL p ns) (hnull : nodes NULL = none)
    (htasks : ns.map (task nodes) = ts.map some) {turns : Nat} (hturns : ns.length < turns)
    (freed : List ptr) :
    ∃ after, destroy_loop turns p nodes freed = some (after, freed ++ entries ns ts) ∧
      ∀ m, after m = if m ∈ ns then none else nodes m := by
  have hnext : next nodes NULL = none := by simp [next, hnull]
  induction ns generalizing ts nodes p turns freed with
  | nil =>
    obtain ⟨turns, rfl⟩ := Nat.exists_eq_succ_of_ne_zero (Nat.ne_zero_of_lt hturns)
    have hp : p = NULL := (hchain.start_eq_null_iff hnext).mpr rfl
    exact ⟨nodes, by simp [destroy_loop, hp, entries], by simp⟩
  | cons n ns ih =>
    obtain ⟨turns, rfl⟩ := Nat.exists_eq_succ_of_ne_zero (Nat.ne_zero_of_lt hturns)
    have hnodup := List.nodup_cons.mp (hchain.nodup hnext)
    have hother : ∀ m ∈ ns, m ≠ n := fun m hm he => hnodup.1 (he ▸ hm)
    have hp : p ≠ NULL := by simp [hchain.start_eq_null_iff hnext]
    cases ts with
    | nil => simp at htasks
    | cons t ts =>
      simp only [List.map_cons, List.cons.injEq] at htasks
      obtain ⟨node, hnode, ht⟩ := Option.map_eq_some_iff.mp htasks.1
      cases hchain with
      | cons hlink hrest =>
        simp only [next, hnode, Option.map_some, Option.some.injEq] at hlink
        rw [← hlink] at hrest
        have hrest' : Chain (next (Function.update nodes n none)) NULL node.p_next ns :=
          hrest.congr fun m hm => next_update_ne nodes (hother m hm) none
        have htasks' : ns.map (task (Function.update nodes n none)) = ts.map some :=
          (List.map_congr_left fun m hm => task_update_ne nodes (hother m hm) none).trans htasks.2
        have hnull' : Function.update nodes n none NULL = none := by simp [hp.symm, hnull]
        obtain ⟨after, he, hafter⟩ := ih hrest' hnull' htasks' (Nat.lt_of_succ_lt_succ hturns)
          (freed ++ [t, n]) (by simp [next, hnull'])
        refine ⟨after, ?_, fun m => ?_⟩
        · simp [destroy_loop, hp, hnode, ht, he, entries]
        · rw [hafter]
          by_cases hm : m = n
          · simp [hm]
          · simp [hm]

theorem destroy_spec {q : Queue} {ns ts : List ptr} (hq : Chained q ns ts) {turns : Nat}
    (hturns : ns.length < turns) :
    ∃ after, coin_queue_destroy turns q =
        some (.COIN_SUCCESS, after, entries ns ts ++ [q.p_queue]) ∧ ∀ p, after p = none := by
  obtain ⟨after, he, hafter⟩ := destroy_loop_spec hq.chain hq.null hq.tasks hturns []
  refine ⟨after, by simp [coin_queue_destroy, he], fun p => ?_⟩
  rw [hafter]
  by_cases hp : p ∈ ns
  · exact if_pos hp
  · rw [if_neg hp]
    by_contra hne
    exact hp (hq.only p hne)

/-! ## Every run -/

/-- A call on a queue, and what the `calloc` of a push does. -/
inductive QueueCall
  | push (p_task : ptr) (calloc : Option ptr)
  | pop
  deriving DecidableEq, Repr

/-- The status of a call, and what a pop stores in `*pp_task`. -/
structure Reply where
  status : coin_status_t
  p_task : ptr
  deriving DecidableEq, Repr

def queue_call (q : Queue) : QueueCall → Option (Reply × Queue)
  | .push p_task calloc => (coin_queue_push calloc p_task q).map fun (status, q) =>
      (⟨status, NULL⟩, q)
  | .pop => (coin_queue_pop q).map fun (status, p_task, q) => (⟨status, p_task⟩, q)

/-- What the call means for the list of the tasks pushed and not yet popped. -/
def call_on_list (l : QueueCall) (r : Reply) (ts : List ptr) : List ptr :=
  if r.status ≠ .COIN_SUCCESS then ts
  else match l with
    | .push p_task _ => ts ++ [p_task]
    | .pop => ts.tail

/-- The queue, next to the list. -/
def queue_machine : machine.Machine (Queue × List ptr) QueueCall :=
  .beside queue_call call_on_list

/-- `calloc` gives an address that is not in use. -/
def AllocFresh (s : Queue × List ptr) : QueueCall → Prop
  | .push _ (some p) => Fresh s.1 p
  | .push _ none | .pop => True

instance (s : Queue × List ptr) : DecidablePred (AllocFresh s)
  | .push _ (some p) => inferInstanceAs (Decidable (Fresh s.1 p))
  | .push _ none | .pop => inferInstanceAs (Decidable True)

/-- The reply to a call, when the list is `ts`, and the state after it if it fails. -/
def ReplyFits (q : Queue) (ts : List ptr) (r : Reply) (q' : Queue) : QueueCall → Prop
  | .push p_task calloc =>
      (r.status = .COIN_SUCCESS ↔ p_task ≠ NULL ∧ calloc ≠ none) ∧
      (r.status ≠ .COIN_SUCCESS → q' = q)
  | .pop => r.p_task = ts.head?.getD NULL ∧ (r.status = .COIN_SUCCESS ↔ ts ≠ []) ∧
      (r.status ≠ .COIN_SUCCESS → q' = q)

theorem call_spec {s : Queue × List ptr} {ns : List ptr} (hq : Chained s.1 ns s.2) {l : QueueCall}
    (hfresh : AllocFresh s l) :
    ∃ r q', queue_call s.1 l = some (r, q') ∧ (∃ ns', Chained q' ns' (call_on_list l r s.2)) ∧
      ReplyFits s.1 s.2 r q' l := by
  cases l with
  | push p_task calloc =>
    have hfresh : ∀ p, calloc = some p → Fresh s.1 p := by
      intro p hp
      rw [hp] at hfresh
      exact hfresh
    rcases push_spec hq p_task hfresh with ⟨h0, he⟩ | ⟨h0, he⟩ | ⟨p, q', hp, he, hq'⟩
    · exact ⟨⟨.COIN_INVALID_INPUT, NULL⟩, s.1, by simp [queue_call, he], ⟨ns, hq⟩,
        by simp [h0], fun _ => rfl⟩
    · exact ⟨⟨.COIN_ALLOCATION_FAILURE, NULL⟩, s.1, by simp [queue_call, he], ⟨ns, hq⟩,
        by simp [h0], fun _ => rfl⟩
    · refine ⟨⟨.COIN_SUCCESS, NULL⟩, q', by simp [queue_call, he], ⟨_, hq'⟩, ?_, by simp⟩
      have h0 : p_task ≠ NULL := by
        intro h0
        simp [coin_queue_push, h0] at he
      simp [hp, h0]
  | pop =>
    obtain ⟨q, ts⟩ := s
    cases ts with
    | nil =>
      have hns : ns = [] := List.length_eq_zero_iff.mp hq.length_tasks
      rw [hns] at hq
      exact ⟨⟨.COIN_EMPTY_QUEUE_ERROR, NULL⟩, q, by simp [queue_call, pop_empty hq],
        ⟨_, hq⟩, rfl, by simp, fun _ => rfl⟩
    | cons t ts =>
      obtain ⟨n, ns, rfl⟩ := List.exists_cons_of_length_eq_add_one hq.length_tasks
      obtain ⟨q', he, hq'⟩ := pop_spec hq
      exact ⟨⟨.COIN_SUCCESS, t⟩, q', by simp [queue_call, he], ⟨ns, hq'⟩, rfl, by simp, by simp⟩

theorem init_spec {calloc : Option ptr} {q : Queue}
    (h : coin_queue_init calloc = (.COIN_SUCCESS, some q)) : Chained q [] [] := by
  cases calloc with
  | none => simp [coin_queue_init] at h
  | some p =>
    simp only [coin_queue_init, Prod.mk.injEq, Option.some.injEq, true_and] at h
    rw [← h]
    exact ⟨.nil, rfl, rfl, rfl, by simp, rfl, by simp⟩

/-- In every run from `coin_queue_init` the nodes from `p_head` on are an acyclic chain to
`p_tail`, and their tasks are those pushed and not yet popped, in order. A call that fails
changes nothing, and a destroy frees each node and each task that is left once. -/
theorem the_task_queue_is_first_in_first_out {calloc : Option ptr} {q : Queue}
    {ls : List QueueCall} (hinit : coin_queue_init calloc = (.COIN_SUCCESS, some q))
    (hfresh : queue_machine.Meets AllocFresh (q, []) ls) :
    ∃ s ns, queue_machine.run (q, []) ls = some s ∧ Chained s.1 ns s.2 ∧ ns.Nodup ∧
      (s.1.queue.p_head = NULL ↔ s.1.queue.p_tail = NULL) ∧
      (∀ l, AllocFresh s l → ∃ r q', queue_call s.1 l = some (r, q') ∧
        ReplyFits s.1 s.2 r q' l) ∧
      ∀ turns, ns.length < turns → ∃ after freed,
        coin_queue_destroy turns s.1 = some (.COIN_SUCCESS, after, freed ++ [s.1.p_queue]) ∧
        freed.Perm (ns ++ s.2) ∧ ((ns ++ s.2).Nodup → freed.Nodup) ∧ ∀ p, after p = none := by
  obtain ⟨s, hrun, ns, hs⟩ := machine.Machine.run_total
    (P := fun s : Queue × List ptr => ∃ ns, Chained s.1 ns s.2) (C := AllocFresh)
    (s := (q, [])) (fun s l hs hl => by
      obtain ⟨ns, hs⟩ := hs
      obtain ⟨r, q', he, hns', -⟩ := call_spec hs hl
      exact ⟨(q', call_on_list l r s.2), machine.Machine.beside_step.mpr ⟨r, he, rfl⟩, hns'⟩)
    ⟨[], init_spec hinit⟩ hfresh
  refine ⟨s, ns, hrun, hs, hs.nodup, hs.head_eq_null_iff.trans hs.tail_eq_null_iff.symm, ?_, ?_⟩
  · intro l hl
    obtain ⟨r, q', he, -, hfits⟩ := call_spec hs hl
    exact ⟨r, q', he, hfits⟩
  · intro turns hturns
    obtain ⟨after, he, hafter⟩ := destroy_spec hs hturns
    have hperm := entries_perm hs.length_tasks
    exact ⟨after, _, he, hperm, hperm.nodup_iff.mpr, hafter⟩

/-- Two tasks are pushed and one is popped, a push fails, and a third task is pushed to the
queue of one node. -/
def some_calls : List QueueCall :=
  [.push 100 (some 8), .push 101 (some 9), .pop, .push 102 none, .push 103 (some 8)]

theorem some_calls_are_fresh :
    queue_machine.Meets AllocFresh (⟨7, ⟨NULL, NULL, 0⟩, fun _ => none⟩, []) some_calls := by
  decide

theorem two_tasks_are_left :
    ∃ s ns, queue_machine.run (⟨7, ⟨NULL, NULL, 0⟩, fun _ => none⟩, []) some_calls = some s ∧
      Chained s.1 ns s.2 ∧ s.2 = [101, 103] := by
  have hinit : coin_queue_init (some 7) =
      (.COIN_SUCCESS, some ⟨7, ⟨NULL, NULL, 0⟩, fun _ => none⟩) := rfl
  obtain ⟨s, ns, hrun, hs, -⟩ := the_task_queue_is_first_in_first_out hinit some_calls_are_fresh
  refine ⟨s, ns, hrun, hs, ?_⟩
  have hend : (queue_machine.run (⟨7, ⟨NULL, NULL, 0⟩, fun _ => none⟩, []) some_calls).map
      Prod.snd = some [101, 103] := by decide
  rw [hrun] at hend
  exact Option.some.inj hend

end pingpong.coin_queue
