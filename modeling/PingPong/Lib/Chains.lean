-- Chains of linked nodes: each node says which one is next, and the last one
-- points to a null pointer, where there is no node.
import Mathlib.Data.List.Basic
import Mathlib.Data.List.Perm.Subperm

namespace chains

variable {P : Type*}

/-- The nodes that are linked from a pointer on. `next` is the link of a node, and `none` where
there is no node. -/
inductive Chain (next : P → Option P) (null : P) : P → List P → Prop
  | nil : Chain next null null []
  | cons {p q : P} {ns : List P} : next p = some q → Chain next null q ns →
      Chain next null p (p :: ns)

variable {next next' : P → Option P} {null p : P} {ns ms : List P}

/-! ## The nodes of a chain -/

theorem Chain.node (h : Chain next null p ns) : ∀ n ∈ ns, ∃ q, next n = some q := by
  induction h with
  | nil => simp
  | cons hp _ ih =>
    intro n hn
    rcases List.mem_cons.mp hn with he | hn
    · rw [he]
      exact ⟨_, hp⟩
    · exact ih n hn

theorem Chain.null_notMem (hnull : next null = none) (h : Chain next null p ns) : null ∉ ns := by
  intro hn
  obtain ⟨q, hq⟩ := h.node null hn
  simp [hnull] at hq

theorem Chain.start (h : Chain next null p ns) : ns.head?.getD null = p := by
  cases h with
  | nil => rfl
  | cons hp _ => rfl

theorem Chain.start_eq_null_iff (hnull : next null = none) (h : Chain next null p ns) :
    p = null ↔ ns = [] := by
  cases h with
  | nil => simp
  | cons hp _ =>
    apply iff_of_false
    · intro he
      simp [he, hnull] at hp
    · simp

/-- A pointer starts one chain at most. -/
theorem Chain.unique (hnull : next null = none) (h : Chain next null p ns)
    (h' : Chain next null p ms) : ns = ms := by
  induction h generalizing ms with
  | nil => exact ((h'.start_eq_null_iff hnull).mp rfl).symm
  | cons hp _ ih =>
    cases h' with
    | nil => simp [hnull] at hp
    | cons hp' hq' =>
      rw [hp] at hp'
      cases hp'
      rw [ih hq']

/-- Every node of a chain starts a chain that is no longer. -/
theorem Chain.from_mem (h : Chain next null p ns) :
    ∀ n ∈ ns, ∃ ms, Chain next null n ms ∧ ms.length ≤ ns.length := by
  induction h with
  | nil => simp
  | cons hp hq ih =>
    intro n hn
    rcases List.mem_cons.mp hn with he | hn
    · rw [he]
      exact ⟨_, .cons hp hq, Nat.le_refl _⟩
    · obtain ⟨ms, hms, hle⟩ := ih n hn
      exact ⟨ms, hms, Nat.le_succ_of_le hle⟩

/-- A chain that ends is acyclic. -/
theorem Chain.nodup (hnull : next null = none) (h : Chain next null p ns) : ns.Nodup := by
  induction h with
  | nil => simp
  | cons hp hq ih =>
    refine List.nodup_cons.mpr ⟨fun hmem => ?_, ih⟩
    -- the node would start the chain behind it, which is shorter
    obtain ⟨ms, hms, hle⟩ := hq.from_mem _ hmem
    rw [← Chain.unique hnull (.cons hp hq) hms] at hle
    exact Nat.not_succ_le_self _ hle

/-! ## Changes -/

/-- A change of other nodes. -/
theorem Chain.congr (h : Chain next null p ns) (hsame : ∀ n ∈ ns, next' n = next n) :
    Chain next' null p ns := by
  induction h with
  | nil => exact .nil
  | cons hp _ ih =>
    refine .cons ((hsame _ List.mem_cons_self).trans hp) (ih ?_)
    intro n hn
    exact hsame n (List.mem_cons_of_mem _ hn)

/-- The last node is linked to a new one, which becomes the last. -/
theorem Chain.link {t f : P} (h : Chain next null p (ns ++ [t]))
    (hsame : ∀ n ∈ ns, next' n = next n) (ht : next' t = some f) (hf : next' f = some null) :
    Chain next' null p (ns ++ [t] ++ [f]) := by
  induction ns generalizing p with
  | nil =>
    cases h with
    | cons => exact .cons ht (.cons hf .nil)
  | cons n ns ih =>
    cases h with
    | cons hp hq =>
      refine .cons ((hsame _ List.mem_cons_self).trans hp) (ih hq ?_)
      intro m hm
      exact hsame m (List.mem_cons_of_mem _ hm)

/-- Distinct addresses below a bound, none of them 0, are fewer than the bound. -/
theorem length_lt_of_addresses {ns : List Nat} {bound : Nat} (hnodup : ns.Nodup) (h0 : 0 ∉ ns)
    (hpos : 0 < bound) (hlt : ∀ n ∈ ns, n < bound) : ns.length < bound := by
  have hsub : (0 :: ns) ⊆ List.range bound := by
    intro n hn
    rcases List.mem_cons.mp hn with he | hn
    · rw [he]
      exact List.mem_range.mpr hpos
    · exact List.mem_range.mpr (hlt n hn)
  have hle := ((List.nodup_cons.mpr ⟨h0, hnodup⟩).subperm hsub).length_le
  rw [List.length_cons, List.length_range] at hle
  exact hle

end chains
