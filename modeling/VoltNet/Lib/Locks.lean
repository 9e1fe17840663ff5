import VoltNet.Lib.Runs
import Mathlib.Algebra.Order.BigOperators.Group.List
import Mathlib.Algebra.Order.Ring.Nat
import Mathlib.Logic.Function.Basic

/-!
# Threads that take locks and wait for each other

A thread has a list of operations left: it acquires and releases locks, and joins other threads.
`reentrant` tells which locks their owner can acquire again.

* `lockStep`           the next operation of a thread, `none` while it is blocked;
* `Ordered`            locks are released in the opposite order, acquired in the order of a rank,
                       and none is held at a `join`;
* `Ordered.scoped`     the rule for a lock that is held for the time of a block;
* `Disciplined`        every thread is ordered, and joins threads of a lower level only;
* `disciplined_moves`  then some thread can go on, unless all have come to their end;
* `disciplined_ends`   so the threads of a finite system can all be brought to their end;
* `Balanced`           what a thread holds, it has yet to release;
* `hung_step`          a thread that holds a lock until it has joined another one, which has yet to
                       acquire it, never gets past that join.
-/

namespace Locks
open Runs

inductive Op (Lock Thread : Type) where
  | acquire (m : Lock)
  | release (m : Lock)
  /-- waits for the end of a thread -/
  | join (u : Thread)
deriving DecidableEq

structure LockState (Lock Thread : Type) where
  /-- what a thread has left to do -/
  code : Thread → List (Op Lock Thread)
  /-- the locks of a thread, the last one first, and as often as it has acquired them -/
  held : Thread → List Lock
  owner : Lock → Option Thread

section
variable {Lock Thread : Type} [DecidableEq Lock] [DecidableEq Thread]

def LockState.init (code : Thread → List (Op Lock Thread)) : LockState Lock Thread where
  code := code
  held _ := []
  owner _ := none

def LockState.acquire (t : Thread) (m : Lock) (ops : List (Op Lock Thread))
    (s : LockState Lock Thread) : LockState Lock Thread where
  code := Function.update s.code t ops
  held := Function.update s.held t (m :: s.held t)
  owner := Function.update s.owner m (some t)

def LockState.release (t : Thread) (m : Lock) (ops : List (Op Lock Thread))
    (s : LockState Lock Thread) : LockState Lock Thread where
  code := Function.update s.code t ops
  held := Function.update s.held t ((s.held t).erase m)
  owner := if m ∈ (s.held t).erase m then s.owner else Function.update s.owner m none

def LockState.skip (t : Thread) (ops : List (Op Lock Thread)) (s : LockState Lock Thread) :
    LockState Lock Thread := { s with code := Function.update s.code t ops }

def lockStep (reentrant : Lock → Bool) (s : LockState Lock Thread) (t : Thread) :
    Option (LockState Lock Thread) :=
  match s.code t with
  | [] => none
  | .acquire m :: ops =>
    if s.owner m = none ∨ (s.owner m = some t ∧ reentrant m) then some (s.acquire t m ops) else none
  | .release m :: ops => if m ∈ s.held t then some (s.release t m ops) else none
  | .join u :: ops => if (s.code u).isEmpty then some (s.skip t ops) else none

end

/-! ## what a step does -/

/-- a lock is held by its owner -/
def Owned {Lock Thread : Type} (s : LockState Lock Thread) : Prop :=
  ∀ t m, m ∈ s.held t ↔ s.owner m = some t

section
variable {Lock Thread : Type} {reentrant : Lock → Bool} [DecidableEq Lock] [DecidableEq Thread]

theorem lockStep_cases (s s' : LockState Lock Thread) (t : Thread)
    (hs : lockStep reentrant s t = some s') :
    (∃ m ops, s.code t = .acquire m :: ops ∧ s' = s.acquire t m ops ∧
      (s.owner m = none ∨ (s.owner m = some t ∧ reentrant m = true))) ∨
    (∃ m ops, s.code t = .release m :: ops ∧ s' = s.release t m ops ∧ m ∈ s.held t) ∨
    (∃ u ops, s.code t = .join u :: ops ∧ s' = s.skip t ops ∧ s.code u = []) := by
  rw [lockStep] at hs
  split at hs
  · cases hs
  · next m ops hc =>
    obtain ⟨hfree, rfl⟩ := of_guard hs
    exact .inl ⟨m, ops, hc, rfl, hfree⟩
  · next m ops hc =>
    obtain ⟨hm, rfl⟩ := of_guard hs
    exact .inr (.inl ⟨m, ops, hc, rfl, hm⟩)
  · next u ops hc =>
    obtain ⟨hu, rfl⟩ := of_guard hs
    exact .inr (.inr ⟨u, ops, hc, rfl, List.isEmpty_iff.mp hu⟩)

/-- an operation is done -/
theorem lockStep_code (s s' : LockState Lock Thread) (t : Thread)
    (hs : lockStep reentrant s t = some s') :
    ∃ op ops, s.code t = op :: ops ∧ s'.code = Function.update s.code t ops := by
  rcases lockStep_cases s s' t hs with ⟨m, ops, hc, rfl, -⟩ | ⟨m, ops, hc, rfl, -⟩ |
    ⟨u, ops, hc, rfl, -⟩
  · exact ⟨_, ops, hc, rfl⟩
  · exact ⟨_, ops, hc, rfl⟩
  · exact ⟨_, ops, hc, rfl⟩

theorem owned_acquire {s : LockState Lock Thread} (h : Owned s) (t : Thread) (m : Lock)
    (ops : List (Op Lock Thread)) (hfree : s.owner m = none ∨ s.owner m = some t) :
    Owned (s.acquire t m ops) := by
  intro v n
  show n ∈ Function.update s.held t (m :: s.held t) v
    ↔ Function.update s.owner m (some t) n = some v
  by_cases hv : v = t
  · by_cases hn : n = m
    · rw [hv, hn, Function.update_self, Function.update_self]
      exact iff_of_true List.mem_cons_self rfl
    · rw [hv, Function.update_self, Function.update_of_ne hn, List.mem_cons, or_iff_right hn]
      exact h t n
  · rw [Function.update_of_ne hv]
    by_cases hn : n = m
    · -- the lock was free, or another thread's than `v`
      rw [hn, Function.update_self, h v m]
      refine iff_of_false (fun ho => ?_) fun he => hv (Option.some.inj he).symm
      rcases hfree with hnone | hsome
      · rw [hnone] at ho
        cases ho
      · rw [hsome] at ho
        exact hv (Option.some.inj ho).symm
    · rw [Function.update_of_ne hn]
      exact h v n

theorem owned_release {s : LockState Lock Thread} (h : Owned s) (t : Thread) (m : Lock)
    (ops : List (Op Lock Thread)) (hm : m ∈ s.held t) : Owned (s.release t m ops) := by
  have hmine := (h t m).mp hm
  intro v n
  show n ∈ Function.update s.held t ((s.held t).erase m) v ↔
    (if m ∈ (s.held t).erase m then s.owner else Function.update s.owner m none) n = some v
  by_cases hn : n = m
  · rw [hn]
    by_cases hv : v = t
    · rw [hv, Function.update_self]
      by_cases hagain : m ∈ (s.held t).erase m
      · rw [if_pos hagain]
        exact iff_of_true hagain hmine
      · rw [if_neg hagain, Function.update_self]
        exact iff_of_false hagain nofun
    · rw [Function.update_of_ne hv, h v m, hmine]
      refine iff_of_false (fun he => hv (Option.some.inj he).symm) ?_
      by_cases hagain : m ∈ (s.held t).erase m
      · rw [if_pos hagain, hmine]
        exact fun he => hv (Option.some.inj he).symm
      · rw [if_neg hagain, Function.update_self]
        nofun
  · have howner : (if m ∈ (s.held t).erase m then s.owner else Function.update s.owner m none) n
        = s.owner n := by
      split
      · rfl
      · exact Function.update_of_ne hn ..
    rw [howner]
    by_cases hv : v = t
    · rw [hv, Function.update_self, List.mem_erase_of_ne hn]
      exact h t n
    · rw [Function.update_of_ne hv]
      exact h v n

theorem owned_step (s s' : LockState Lock Thread) (t : Thread) (h : Owned s)
    (hs : lockStep reentrant s t = some s') : Owned s' := by
  rcases lockStep_cases s s' t hs with ⟨m, ops, -, rfl, hfree⟩ | ⟨m, ops, -, rfl, hm⟩ |
    ⟨u, ops, -, rfl, -⟩
  · exact owned_acquire h t m ops (hfree.imp_right And.left)
  · exact owned_release h t m ops hm
  · exact h

end

/-! ## the discipline of one thread -/

section
variable {Lock Thread : Type} (reentrant : Lock → Bool) (rank : Lock → Nat)

/-- the operations of a thread that holds `held` are in order -/
def Ordered : List Lock → List (Op Lock Thread) → Prop
  | held, [] => held = []
  | held, .acquire m :: ops =>
    ((m ∈ held ∧ reentrant m = true) ∨ ∀ h ∈ held, rank h < rank m) ∧ Ordered (m :: held) ops
  | [], .release _ :: _ => False
  | h :: held, .release m :: ops => h = m ∧ Ordered held ops
  | held, .join _ :: ops => held = [] ∧ Ordered held ops

variable {reentrant rank}

/-- a lock that is held while `body` runs -/
theorem Ordered.scoped {held : List Lock} {m : Lock} {body ops : List (Op Lock Thread)}
    (hm : (m ∈ held ∧ reentrant m = true) ∨ ∀ h ∈ held, rank h < rank m)
    (hbody : Ordered reentrant rank (m :: held) (.release m :: ops) →
      Ordered reentrant rank (m :: held) (body ++ .release m :: ops))
    (hops : Ordered reentrant rank held ops) :
    Ordered reentrant rank held (.acquire m :: (body ++ .release m :: ops)) :=
  ⟨hm, hbody ⟨rfl, hops⟩⟩

theorem Ordered.joins {us : List Thread} {ops : List (Op Lock Thread)}
    (h : Ordered reentrant rank [] ops) : Ordered reentrant rank [] (us.map .join ++ ops) := by
  induction us with
  | nil => exact h
  | cons u us ih => exact ⟨rfl, ih⟩

/-- what is held has to be released, so there is something left to do -/
theorem Ordered.busy {held : List Lock} {ops : List (Op Lock Thread)}
    (h : Ordered reentrant rank held ops) (hne : held ≠ []) : ops ≠ [] := by
  intro hnil
  rw [hnil] at h
  exact hne h

end

/-! ## the discipline of a system -/

section
variable {Lock Thread : Type} (reentrant : Lock → Bool) (rank : Lock → Nat) (level : Thread → Nat)

structure Disciplined (s : LockState Lock Thread) : Prop where
  ordered : ∀ t, Ordered reentrant rank (s.held t) (s.code t)
  owned : Owned s
  below : ∀ t u, Op.join u ∈ s.code t → level u < level t

variable {reentrant rank level}

theorem disciplined_init (code : Thread → List (Op Lock Thread))
    (hordered : ∀ t, Ordered reentrant rank [] (code t))
    (hbelow : ∀ t u, Op.join u ∈ code t → level u < level t) :
    Disciplined reentrant rank level (LockState.init code) where
  ordered := hordered
  owned _ _ := iff_of_false List.not_mem_nil nofun
  below := hbelow

variable [DecidableEq Thread]

/-- what `t` has left after an operation, and the others still have, is in order -/
theorem ordered_update {s : LockState Lock Thread} (h : Disciplined reentrant rank level s)
    (t : Thread) (held : List Lock) (ops : List (Op Lock Thread))
    (hops : Ordered reentrant rank held ops) (v : Thread) :
    Ordered reentrant rank (Function.update s.held t held v) (Function.update s.code t ops v) := by
  by_cases hv : v = t
  · rw [hv, Function.update_self, Function.update_self]
    exact hops
  · rw [Function.update_of_ne hv, Function.update_of_ne hv]
    exact h.ordered v

theorem below_update {s : LockState Lock Thread} (h : Disciplined reentrant rank level s)
    (t : Thread) (op : Op Lock Thread) (ops : List (Op Lock Thread)) (hc : s.code t = op :: ops)
    (v u : Thread) (hu : Op.join u ∈ Function.update s.code t ops v) : level u < level v := by
  by_cases hv : v = t
  · rw [hv, Function.update_self] at hu
    rw [hv]
    refine h.below t u ?_
    rw [hc]
    exact List.mem_cons_of_mem op hu
  · rw [Function.update_of_ne hv] at hu
    exact h.below v u hu

variable [DecidableEq Lock]

theorem disciplined_step (s s' : LockState Lock Thread) (t : Thread)
    (h : Disciplined reentrant rank level s) (hs : lockStep reentrant s t = some s') :
    Disciplined reentrant rank level s' := by
  have howned := owned_step s s' t h.owned hs
  have hops := h.ordered t
  rcases lockStep_cases s s' t hs with ⟨m, ops, hc, rfl, -⟩ | ⟨m, ops, hc, rfl, hm⟩ |
    ⟨u, ops, hc, rfl, -⟩
  · rw [hc] at hops
    exact ⟨ordered_update h t _ ops hops.2, howned, below_update h t _ ops hc⟩
  · rw [hc] at hops
    refine ⟨ordered_update h t _ ops ?_, howned, below_update h t _ ops hc⟩
    -- the lock to release is the last one taken
    cases hh : s.held t with
    | nil => rw [hh] at hm; cases hm
    | cons x held =>
      rw [hh] at hops
      obtain ⟨rfl, hrest⟩ := hops
      rw [List.erase_cons_head]
      exact hrest
  · rw [hc] at hops
    refine ⟨fun v => ?_, howned, below_update h t _ ops hc⟩
    have hv := ordered_update h t (s.held t) ops hops.2 v
    rwa [Function.update_eq_self] at hv

/-! ## nobody waits for ever -/

theorem acquire_moves {s : LockState Lock Thread} {t : Thread} {m : Lock}
    {ops : List (Op Lock Thread)} (hc : s.code t = .acquire m :: ops)
    (hfree : s.owner m = none ∨ (s.owner m = some t ∧ reentrant m = true)) :
    ∃ t s', lockStep reentrant s t = some s' := by
  refine ⟨t, s.acquire t m ops, ?_⟩
  rw [lockStep, hc]
  exact if_pos hfree

/-- a thread with a lock can go on, or waits for one of higher rank -/
theorem holder_moves {s : LockState Lock Thread} (h : Disciplined reentrant rank level s)
    {bound : Nat} (hrank : ∀ m, rank m < bound) (t : Thread) (m : Lock) (hm : m ∈ s.held t) :
    ∃ t s', lockStep reentrant s t = some s' := by
  -- on the ranks above that of the lock
  induction hn : bound - rank m using Nat.strongRecOn generalizing t m with
  | ind n ih =>
    have hops := h.ordered t
    have hne : s.held t ≠ [] := List.ne_nil_of_mem hm
    cases hc : s.code t with
    | nil => exact absurd hc (hops.busy hne)
    | cons op ops =>
      rw [hc] at hops
      cases op with
      | acquire m' =>
        cases ho : s.owner m' with
        | none => exact acquire_moves hc (.inl ho)
        | some u =>
          rcases hops.1 with ⟨hmine, hre⟩ | hhigher
          · exact acquire_moves hc (.inr ⟨(h.owned t m').mp hmine, hre⟩)
          · have hlt := hhigher m hm
            have hbound := hrank m'
            exact ih (bound - rank m') (by omega) u m' ((h.owned u m').mpr ho) rfl
      | release m' =>
        have hm' : m' ∈ s.held t := by
          cases hh : s.held t with
          | nil => exact absurd hh hne
          | cons x held =>
            rw [hh] at hops
            rw [hops.1]
            exact List.mem_cons_self
        refine ⟨t, s.release t m' ops, ?_⟩
        rw [lockStep, hc]
        exact if_pos hm'
      | join u => exact absurd hops.1 hne

/-- **Some thread can go on**, as long as one has not come to its end. -/
theorem disciplined_moves {s : LockState Lock Thread} (h : Disciplined reentrant rank level s)
    {bound : Nat} (hrank : ∀ m, rank m < bound) (t : Thread) (ht : s.code t ≠ []) :
    ∃ t s', lockStep reentrant s t = some s' := by
  induction hn : level t using Nat.strongRecOn generalizing t with
  | ind n ih =>
    by_cases hheld : s.held t = []
    · have hops := h.ordered t
      rw [hheld] at hops
      cases hc : s.code t with
      | nil => exact absurd hc ht
      | cons op ops =>
        rw [hc] at hops
        cases op with
        | acquire m =>
          cases ho : s.owner m with
          | none => exact acquire_moves hc (.inl ho)
          | some u => exact holder_moves h hrank u m ((h.owned u m).mpr ho)
        | release m => exact hops.elim
        | join u =>
          by_cases hu : s.code u = []
          · refine ⟨t, s.skip t ops, ?_⟩
            rw [lockStep, hc]
            exact if_pos (List.isEmpty_iff.mpr hu)
          · have hlt : level u < level t := h.below t u (by rw [hc]; exact List.mem_cons_self)
            exact ih (level u) (hn ▸ hlt) u hu rfl
    · obtain ⟨m, hm⟩ := List.exists_mem_of_ne_nil _ hheld
      exact holder_moves h hrank t m hm

/-- a step leaves less to do in a finite system, and nothing outside of it -/
theorem lockStep_spends (s s' : LockState Lock Thread) (u : Thread)
    (hs : lockStep reentrant s u = some s') (ts : List Thread) (hts : ∀ t, t ∉ ts → s.code t = []) :
    (∀ t, t ∉ ts → s'.code t = []) ∧
      (ts.map fun t => (s'.code t).length).sum < (ts.map fun t => (s.code t).length).sum := by
  obtain ⟨op, ops, hc, hcode⟩ := lockStep_code s s' u hs
  have hu : u ∈ ts := by
    by_contra hu
    rw [hts u hu] at hc
    cases hc
  have hself : s'.code u = ops := by rw [hcode, Function.update_self]
  have hother : ∀ t, t ≠ u → s'.code t = s.code t := fun t ht => by
    rw [hcode, Function.update_of_ne ht]
  refine ⟨fun t ht => ?_, List.sum_lt_sum _ _ (fun t _ => ?_) ⟨u, hu, ?_⟩⟩
  · rw [hother t fun e => ht (e ▸ hu)]
    exact hts t ht
  · by_cases ht : t = u
    · rw [ht, hself, hc]
      exact Nat.le_succ _
    · exact Nat.le_of_eq (congrArg List.length (hother t ht))
  · rw [hself, hc]
    exact Nat.lt_succ_self _

/-- **The threads of a finite system can all be brought to their end.** -/
theorem disciplined_ends {s : LockState Lock Thread} (h : Disciplined reentrant rank level s)
    {bound : Nat} (hrank : ∀ m, rank m < bound) (ts : List Thread)
    (hts : ∀ t, t ∉ ts → s.code t = []) :
    ∃ s', Reach (lockStep reentrant) (fun _ _ => True) s s' ∧ ∀ t, s'.code t = [] := by
  obtain ⟨s', hreach, -, hend⟩ := Reach.exhaust
    (fun s => Disciplined reentrant rank level s ∧ ∀ t, t ∉ ts → s.code t = [])
    (fun s => ∀ t, s.code t = []) (fun s => (ts.map fun t => (s.code t).length).sum)
    (fun s hI hd => by
      obtain ⟨t, ht⟩ := not_forall.mp hd
      obtain ⟨u, s', hs⟩ := disciplined_moves hI.1 hrank t ht
      obtain ⟨hout, hlt⟩ := lockStep_spends s s' u hs ts hI.2
      exact ⟨u, s', trivial, hs, ⟨disciplined_step s s' u hI.1 hs, hout⟩, hlt⟩)
    ⟨h, hts⟩
  exact ⟨s', hreach, hend⟩

end

/-! ## what is yet to be released -/

section
variable {Lock Thread : Type} [DecidableEq Lock] [DecidableEq Thread]

/-- a lock is held as often as it has more releases than acquisitions ahead -/
def Balanced (s : LockState Lock Thread) : Prop :=
  ∀ t m, (s.held t).count m + (s.code t).count (.acquire m) = (s.code t).count (.release m)

theorem balanced_init (code : Thread → List (Op Lock Thread))
    (h : ∀ t m, (code t).count (.acquire m) = (code t).count (.release m)) :
    Balanced (LockState.init code) := by
  intro t m
  show ([] : List Lock).count m + _ = _
  rw [List.count_nil, Nat.zero_add]
  exact h t m

theorem Balanced.held {s : LockState Lock Thread} (h : Balanced s) (t : Thread) (m : Lock)
    (hlt : (s.code t).count (.acquire m) < (s.code t).count (.release m)) : m ∈ s.held t := by
  have hcount := h t m
  exact List.count_pos_iff.mp (by omega)

variable {reentrant : Lock → Bool}

theorem balanced_step (s s' : LockState Lock Thread) (t : Thread) (h : Balanced s)
    (hs : lockStep reentrant s t = some s') : Balanced s' := by
  intro v n
  by_cases hv : v = t
  · subst hv
    have hcount := h v n
    rcases lockStep_cases s s' v hs with ⟨m, ops, hc, rfl, -⟩ | ⟨m, ops, hc, rfl, hm⟩ |
      ⟨u, ops, hc, rfl, -⟩
    · show (Function.update s.held v (m :: s.held v) v).count n
        + (Function.update s.code v ops v).count _ = (Function.update s.code v ops v).count _
      rw [hc] at hcount
      rw [Function.update_self, Function.update_self]
      simp only [List.count_cons, beq_iff_eq, Op.acquire.injEq, reduceCtorEq, if_false] at hcount ⊢
      omega
    · show (Function.update s.held v ((s.held v).erase m) v).count n
        + (Function.update s.code v ops v).count _ = (Function.update s.code v ops v).count _
      rw [hc] at hcount
      rw [Function.update_self, Function.update_self]
      simp only [List.count_cons, beq_iff_eq, Op.release.injEq, reduceCtorEq, if_false] at hcount ⊢
      by_cases hn : m = n
      · subst hn
        have hpos := List.count_pos_iff.mpr hm
        rw [if_pos rfl] at hcount
        rw [List.count_erase_self]
        omega
      · rw [if_neg hn] at hcount
        rw [List.count_erase_of_ne (Ne.symm hn)]
        exact hcount
    · show (s.held v).count n
        + (Function.update s.code v ops v).count _ = (Function.update s.code v ops v).count _
      rw [hc] at hcount
      rw [Function.update_self]
      simp only [List.count_cons, beq_iff_eq, reduceCtorEq, if_false] at hcount
      exact hcount
  · -- nothing of another thread is touched
    have hsame : s'.held v = s.held v ∧ s'.code v = s.code v := by
      rcases lockStep_cases s s' t hs with ⟨m, ops, -, rfl, -⟩ | ⟨m, ops, -, rfl, -⟩ |
        ⟨u, ops, -, rfl, -⟩
      · exact ⟨Function.update_of_ne hv .., Function.update_of_ne hv ..⟩
      · exact ⟨Function.update_of_ne hv .., Function.update_of_ne hv ..⟩
      · exact ⟨rfl, Function.update_of_ne hv ..⟩
    rw [hsame.1, hsame.2]
    exact h v n

end

/-! ## a thread that joins while it holds a lock -/

section
variable {Lock Thread : Type} [DecidableEq Lock] [DecidableEq Thread] {reentrant : Lock → Bool}

/-- a lock is its owner's whatever the others do -/
theorem owner_kept (s s' : LockState Lock Thread) (t v : Thread) (m : Lock) (h : Owned s)
    (hm : s.owner m = some t) (hv : v ≠ t) (hs : lockStep reentrant s v = some s') :
    s'.owner m = some t ∧ ∀ ops, s.code v ≠ .acquire m :: ops := by
  have hne : ¬ (s.owner m = some v) := fun ho => hv (Option.some.inj (ho.symm.trans hm))
  rcases lockStep_cases s s' v hs with ⟨n, ops, hc, rfl, hfree⟩ | ⟨n, ops, hc, rfl, hn⟩ |
    ⟨w, ops, hc, rfl, -⟩
  · have hnm : m ≠ n := by
      rintro rfl
      rcases hfree with hnone | ⟨hsome, -⟩
      · rw [hm] at hnone
        cases hnone
      · exact hne hsome
    refine ⟨?_, fun ops' he => ?_⟩
    · show Function.update s.owner n (some v) m = some t
      rw [Function.update_of_ne hnm]
      exact hm
    · rw [hc] at he
      cases he
      exact hnm rfl
  · have hnm : m ≠ n := fun e => hne ((h v m).mp (e ▸ hn))
    refine ⟨?_, fun ops' he => ?_⟩
    · show (if n ∈ (s.held v).erase n then s.owner else Function.update s.owner n none) m = some t
      split
      · exact hm
      · rw [Function.update_of_ne hnm]
        exact hm
    · rw [hc] at he
      cases he
  · refine ⟨hm, fun ops' he => ?_⟩
    rw [hc] at he
    cases he

/-- `t` holds `m` until it has joined `u`, which has yet to acquire `m` -/
structure Hung (t u : Thread) (m : Lock) (s : LockState Lock Thread) : Prop where
  owned : Owned s
  balanced : Balanced s
  /-- as long as the join is ahead, so are the releases that are missing -/
  keeps : ∀ ops, ops <:+ s.code t → Op.join u ∈ ops →
    ops.count (.acquire m) < ops.count (.release m)
  waits : Op.join u ∈ s.code t
  needs : Op.acquire m ∈ s.code u

/-- **They wait for each other for ever.** -/
theorem hung_step {t u : Thread} {m : Lock} (hut : u ≠ t) (s s' : LockState Lock Thread)
    (v : Thread) (h : Hung t u m s) (hs : lockStep reentrant s v = some s') : Hung t u m s' := by
  obtain ⟨op, ops, hc, hcode⟩ := lockStep_code s s' v hs
  have howned := owned_step s s' v h.owned hs
  have hbalanced := balanced_step s s' v h.balanced hs
  by_cases hv : v = t
  · subst hv
    have hself : s'.code v = ops := by rw [hcode, Function.update_self]
    have hother : s'.code u = s.code u := by rw [hcode, Function.update_of_ne hut]
    have hwaits := h.waits
    rw [hc] at hwaits
    refine ⟨howned, hbalanced, fun r hr => ?_, ?_, ?_⟩
    · rw [hself] at hr
      exact h.keeps r (hc ▸ hr.trans (List.suffix_cons op ops))
    · rw [hself]
      refine (List.mem_cons.mp hwaits).resolve_left fun e => ?_
      -- the thread that is waited for has not come to its end
      subst e
      rw [lockStep, hc] at hs
      obtain ⟨hend, -⟩ := of_guard hs
      have hneeds := h.needs
      rw [List.isEmpty_iff.mp hend] at hneeds
      cases hneeds
    · rw [hother]
      exact h.needs
  · have hheld := h.balanced.held t m (h.keeps _ List.suffix_rfl h.waits)
    obtain ⟨-, hnot⟩ := owner_kept s s' t v m h.owned ((h.owned t m).mp hheld) hv hs
    have hsame : s'.code t = s.code t := by rw [hcode, Function.update_of_ne (Ne.symm hv)]
    refine ⟨howned, hbalanced, hsame ▸ h.keeps, hsame ▸ h.waits, ?_⟩
    by_cases hu : u = v
    · have hneeds := h.needs
      rw [hu, hc] at hneeds
      rw [hu, hcode, Function.update_self]
      refine (List.mem_cons.mp hneeds).resolve_left fun e => hnot ops ?_
      rw [hc, e]
    · rw [hcode, Function.update_of_ne hu]
      exact h.needs

end

end Locks
