import VoltNet.Network.Draining

/-!
# Who destroys the network

The owner holds the network by `shared_ptr`.  The task of `server_connect` and the accept callback
of `start_listening` run on pool threads; each locks the weak pointer, and holds the network until
its block ends.  The last holder runs `~network`, which joins every thread of the pool.

* `ownershipStep`        copies and releases of the owner, `lock` and the ends of the blocks;
* `destroyed_owner_iff`  the owner destroys the network exactly when its last release finds no
                         handler that holds it;
* `destroyed_by_pool`    a release inside the block of a handler.
-/

namespace VoltNet
open Runs

/-- a thread that may run `~network` -/
inductive Releaser where
  /-- one outside the pool -/
  | owner
  | poolThread (k : ThreadId)
deriving DecidableEq

structure OwnershipState where
  /-- the owner's copies of the `shared_ptr` -/
  owners : Nat
  /-- pool threads inside the block of a successful `lock` -/
  holders : List ThreadId
  /-- the thread that has run `~network` -/
  destroyedBy : Option Releaser
deriving DecidableEq

inductive OwnershipLabel where
  | copy
  | release
  /-- `lock` on the weak pointer, in a handler on the pool thread `k` -/
  | lock (k : ThreadId)
  /-- the end of the block -/
  | unlock (k : ThreadId)

/-- `network::create` returns the first copy -/
def OwnershipState.init : OwnershipState := ⟨1, [], none⟩

def OwnershipState.useCount (s : OwnershipState) : Nat := s.owners + s.holders.length

/-- after the thread has dropped its reference -/
def OwnershipState.dropped (thread : Releaser) (s : OwnershipState) : OwnershipState :=
  if s.useCount = 0 then { s with destroyedBy := some thread } else s

def ownershipStep (s : OwnershipState) : OwnershipLabel → Option OwnershipState
  | .copy => if 0 < s.owners then some { s with owners := s.owners + 1 } else none
  | .release =>
    if 0 < s.owners then some ({ s with owners := s.owners - 1 }.dropped .owner) else none
  | .lock k =>
    -- a pool thread runs one handler at a time; an expired pointer locks to null
    if k ∈ s.holders then none
    else if 0 < s.useCount then some { s with holders := k :: s.holders } else some s
  | .unlock k =>
    if k ∈ s.holders then
      some ({ s with holders := s.holders.erase k }.dropped (.poolThread k))
    else none

/-- the owner's last release finds no handler that holds the network -/
def UnheldRelease (s : OwnershipState) : OwnershipLabel → Prop
  | .release => s.owners = 1 → s.holders = []
  | _ => True

/-- `~network` joins the threads of the pool, but not the one it runs on -/
def JoinsOthers (s : OwnershipState) : Prop := ∀ k, s.destroyedBy ≠ some (.poolThread k)

/-! ## the two ends -/

/-- the owner still holds the network, or was the last to hold it -/
inductive OwnerLast (s : OwnershipState) : Prop where
  | held (howners : 0 < s.owners) (hnone : s.destroyedBy = none)
  | destroyed (howners : s.owners = 0) (hholders : s.holders = [])
    (howner : s.destroyedBy = some .owner)

/-- the owner is gone, and a handler holds the network or was the last to hold it -/
inductive PoolLast (s : OwnershipState) : Prop where
  | held (howners : s.owners = 0) (hholders : s.holders ≠ []) (hnone : s.destroyedBy = none)
  | destroyed (k : ThreadId) (howners : s.owners = 0) (hholders : s.holders = [])
    (hpool : s.destroyedBy = some (.poolThread k))

/-! ## the steps -/

theorem useCount_eq_zero_iff (s : OwnershipState) :
    s.useCount = 0 ↔ s.owners = 0 ∧ s.holders = [] := by
  unfold OwnershipState.useCount
  rw [Nat.add_eq_zero_iff, List.length_eq_zero_iff]

theorem dropped_held (thread : Releaser) (s : OwnershipState)
    (h : ¬ (s.owners = 0 ∧ s.holders = [])) : s.dropped thread = s := by
  apply if_neg
  rwa [useCount_eq_zero_iff]

theorem dropped_last (thread : Releaser) (s : OwnershipState)
    (h : s.owners = 0 ∧ s.holders = []) :
    s.dropped thread = { s with destroyedBy := some thread } := by
  apply if_pos
  rwa [useCount_eq_zero_iff]

theorem ownershipStep_lock (s t : OwnershipState) (k : ThreadId)
    (hs : ownershipStep s (.lock k) = some t) :
    (s.owners = 0 ∧ s.holders = [] ∧ t = s) ∨
      (¬ (s.owners = 0 ∧ s.holders = []) ∧ t = { s with holders := k :: s.holders }) := by
  obtain ⟨-, hs⟩ := Option.ite_none_left_eq_some.mp hs
  by_cases hcount : s.useCount = 0
  · rw [if_neg (by omega)] at hs
    obtain ⟨howners, hholders⟩ := (useCount_eq_zero_iff s).mp hcount
    exact .inl ⟨howners, hholders, (Option.some.inj hs).symm⟩
  · rw [if_pos (by omega)] at hs
    rw [useCount_eq_zero_iff] at hcount
    exact .inr ⟨hcount, (Option.some.inj hs).symm⟩

theorem ownerLast_release (s : OwnershipState) (h : OwnerLast s) (howners : 0 < s.owners)
    (hl : s.owners = 1 → s.holders = []) :
    OwnerLast ({ s with owners := s.owners - 1 }.dropped .owner) := by
  cases h with
  | held _ hnone =>
    by_cases hone : s.owners = 1
    · have hzero : s.owners - 1 = 0 := by omega
      rw [dropped_last]
      · exact .destroyed hzero (hl hone) rfl
      · exact ⟨hzero, hl hone⟩
    · have hpos : 0 < s.owners - 1 := by omega
      rw [dropped_held]
      · exact .held hpos hnone
      · intro hgone
        exact absurd hgone.1 (Nat.ne_of_gt hpos)
  | destroyed hzero => omega

theorem ownerLast_step (s t : OwnershipState) (l : OwnershipLabel) (h : OwnerLast s)
    (hl : UnheldRelease s l) (hs : ownershipStep s l = some t) : OwnerLast t := by
  cases l with
  | copy =>
    obtain ⟨howners, rfl⟩ := of_guard hs
    cases h with
    | held _ hnone => exact .held (Nat.succ_pos _) hnone
    | destroyed hzero => omega
  | release =>
    obtain ⟨howners, rfl⟩ := of_guard hs
    exact ownerLast_release s h howners hl
  | lock k =>
    rcases ownershipStep_lock s t k hs with ⟨-, -, rfl⟩ | ⟨halive, rfl⟩
    · exact h
    · cases h with
      | held howners hnone => exact .held howners hnone
      | destroyed hzero hholders => exact absurd ⟨hzero, hholders⟩ halive
  | unlock k =>
    obtain ⟨hk, rfl⟩ := of_guard hs
    cases h with
    | held howners hnone =>
      rw [dropped_held]
      · exact .held howners hnone
      · intro hgone
        exact absurd hgone.1 (Nat.ne_of_gt howners)
    | destroyed _ hholders =>
      rw [hholders] at hk
      cases hk

/-- the owner's last release while a handler holds the network -/
theorem poolLast_release (s t : OwnershipState) (l : OwnershipLabel) (h : OwnerLast s)
    (hl : ¬ UnheldRelease s l) (hs : ownershipStep s l = some t) : PoolLast t := by
  cases l with
  | release =>
    obtain ⟨hone, hholders⟩ := Classical.not_imp.mp hl
    obtain ⟨-, rfl⟩ := of_guard hs
    cases h with
    | held _ hnone =>
      rw [dropped_held]
      · exact .held (Nat.sub_eq_zero_of_le (Nat.le_of_eq hone)) hholders hnone
      · intro hgone
        exact hholders hgone.2
    | destroyed hzero => omega
  | copy | lock k | unlock k => exact absurd trivial hl

theorem PoolLast.owners {s : OwnershipState} (h : PoolLast s) : s.owners = 0 := by
  cases h with
  | held howners => exact howners
  | destroyed _ howners => exact howners

theorem poolLast_step (s t : OwnershipState) (l : OwnershipLabel) (h : PoolLast s)
    (hs : ownershipStep s l = some t) : PoolLast t := by
  have hzero := h.owners
  cases l with
  | copy | release =>
    obtain ⟨howners, -⟩ := of_guard hs
    omega
  | lock k =>
    rcases ownershipStep_lock s t k hs with ⟨-, -, rfl⟩ | ⟨halive, rfl⟩
    · exact h
    · cases h with
      | held _ _ hnone => exact .held hzero (List.cons_ne_nil _ _) hnone
      | destroyed _ _ hholders => exact absurd ⟨hzero, hholders⟩ halive
  | unlock k =>
    obtain ⟨hk, rfl⟩ := of_guard hs
    cases h with
    | held _ _ hnone =>
      by_cases hlast : s.holders.erase k = []
      · rw [dropped_last]
        · exact .destroyed k hzero hlast rfl
        · exact ⟨hzero, hlast⟩
      · rw [dropped_held]
        · exact .held hzero hlast hnone
        · intro hgone
          exact hlast hgone.2
    | destroyed _ _ hholders =>
      rw [hholders] at hk
      cases hk

/-- **No pool thread runs `~network` if the owner's last release finds no handler that holds the
network.  When the network is destroyed, this was so exactly when it is not a pool thread that has
run `~network`.** -/
theorem destroyed_owner_iff (ls : List OwnershipLabel) (s : OwnershipState)
    (h : exec ownershipStep OwnershipState.init ls = some s) :
    (Every ownershipStep UnheldRelease OwnershipState.init ls → JoinsOthers s) ∧
    (s.destroyedBy ≠ none →
      (JoinsOthers s ↔ Every ownershipStep UnheldRelease OwnershipState.init ls)) := by
  have hinit : OwnerLast OwnershipState.init := .held Nat.one_pos rfl
  rcases exec_split (fun t l u ht hl hs => ownerLast_step t u l ht hl hs)
    (fun t l u ht hl hs => poolLast_release t u l ht hl hs)
    (fun t l u ht hs => poolLast_step t u l ht hs) hinit ls h with ⟨hevery, hlast⟩ | ⟨hnot, hlast⟩
  · have hjoins : JoinsOthers s := by
      intro k hk
      cases hlast with
      | held _ hnone =>
        rw [hnone] at hk
        cases hk
      | destroyed _ _ howner =>
        rw [howner] at hk
        cases hk
    exact ⟨fun _ => hjoins, fun _ => iff_of_true hjoins hevery⟩
  · refine ⟨fun hevery => absurd hevery hnot, fun hgone => iff_of_false (fun hjoins => ?_) hnot⟩
    cases hlast with
    | held _ _ hnone => exact hgone hnone
    | destroyed k _ _ hpool => exact hjoins k hpool

/-- a handler comes and goes before the owner's last release -/
theorem destroyed_owner_iff_after :
    ∃ s, exec ownershipStep OwnershipState.init
        [.copy, .lock 0, .release, .unlock 0, .release, .lock 1] = some s ∧
      s.destroyedBy = some .owner ∧
      (JoinsOthers s ↔ Every ownershipStep UnheldRelease OwnershipState.init
        [.copy, .lock 0, .release, .unlock 0, .release, .lock 1]) := by
  have hrun : exec ownershipStep OwnershipState.init
      [.copy, .lock 0, .release, .unlock 0, .release, .lock 1] = some ⟨0, [], some .owner⟩ := by
    decide
  exact ⟨_, hrun, rfl, (destroyed_owner_iff _ _ hrun).2 (by decide)⟩

/-- the owner's release falls between the `lock` of a handler and the end of its block -/
theorem destroyed_by_pool :
    ∃ s, Reach ownershipStep (fun _ _ => True) OwnershipState.init s ∧
      s.destroyedBy = some (.poolThread 0) ∧ ¬ JoinsOthers s :=
  ⟨⟨0, [], some (.poolThread 0)⟩, Reach.of_exec [.lock 0, .release, .unlock 0] (by decide), rfl,
    fun h => h 0 rfl⟩

end VoltNet
