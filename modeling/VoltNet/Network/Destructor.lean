import VoltNet.Network.CloseCon
import VoltNet.Network.Draining
import VoltNet.Network.Shutdown

/-!
# `~network`

The last `shared_ptr` has gone, so nothing is added any more, and no call of `close_con` is under
way when the destructor begins, on a thread outside the pool.  It clears `running`, closes every
connection in a loop under the guard, stops the `io_context`, joins the threads of the pool and
destroys its members, `connections` as one of the last, when what the closed callback uses is gone.
Until they are joined the threads of the pool take the guard and call `close_con` on connections as
they like, beside the loop and each other; an exception of `cancel` is caught nowhere.

* `ShutdownState`      the registry, the calls of `close_con` on each connection, who is in which of
                       them, the guard, and how far the destructor is;
* `shutdownStep`       one step of one thread;
* `closing_withClosing`   the state of one connection after a step of `close_con`;
* `ShutdownMove`       what a step can do on a network with valid entries.
-/

namespace VoltNet
open Runs

inductive Actor where
  | destructor
  /-- a thread of the pool -/
  | thread (j : ThreadId)
deriving DecidableEq

/-- who holds the recursive `connections_mut`, and how often beside the first time -/
abbrev Guard := Option (Actor × Nat)

def Guard.lock (who : Actor) : Guard → Option Guard
  | none => some (some (who, 0))
  | some (owner, n) => if owner = who then some (some (who, n + 1)) else none

def Guard.unlock : Guard → Guard
  | some (owner, n + 1) => some (owner, n)
  | some (_, 0) | none => none

/-- the next statement of `~network` -/
inductive ShutdownStage where
  /-- `get_guard` -/
  | lock
  /-- the loop over `connections`, at slot `i`, with `end()` behind slot `n` -/
  | loop (i n : Nat)
  /-- `close_listener` and `io->stop()` -/
  | stop
  /-- the joins that are left -/
  | join (rest : List ThreadId)
  /-- the destruction of `connections`, at slot `i` -/
  | release (i : Nat)
  | destroyed
  /-- the program has run into undefined behaviour -/
  | broken
  /-- an exception has left `~network` or a thread of the pool -/
  | terminated
deriving DecidableEq

def ShutdownStage.ended : ShutdownStage → Bool
  | .destroyed | .broken | .terminated => true
  | .lock | .loop _ _ | .stop | .join _ | .release _ => false

/-- `io->stop()` has been called -/
def ShutdownStage.stopped : ShutdownStage → Bool
  | .join _ | .release _ | .destroyed => true
  | .lock | .loop _ _ | .stop | .broken | .terminated => false

structure ShutdownState where
  registry : Registry
  sides : ConRef → CloseSide
  /-- the call of `close_con` that a thread is in -/
  current : Actor → Option (ConRef × CallId)
  guard : Guard
  /-- the threads that have left `run` -/
  ended : ThreadId → Bool
  stage : ShutdownStage
  next : CallId

def Registry.destroy (thrPool : List ThreadId) (s : Registry) : ShutdownState where
  registry := { s with running := false }
  sides r := .init (s.isOpen r)
  current _ := none
  guard := none
  ended j := !thrPool.contains j
  stage := .lock
  next := 0

inductive ShutdownLabel where
  /-- `~network` goes on -/
  | turn
  /-- a call of `close_con` goes on -/
  | advance (who : Actor)
  /-- a thread of the pool calls `close_con` on a registered connection -/
  | closeCon (j : ThreadId) (r : ConRef)
  /-- it takes the guard, and gives it back -/
  | getGuard (j : ThreadId)
  | release (j : ThreadId)
  /-- it returns from `run` -/
  | finish (j : ThreadId)
deriving DecidableEq

/-! ## `close_con` in the network -/

def ShutdownState.closing (s : ShutdownState) (r : ConRef) : CloseState :=
  (s.sides r).state (s.registry.isOpen r)

def ShutdownState.withClosing (r : ConRef) (c : CloseState) (s : ShutdownState) : ShutdownState :=
  { s with
    registry := if c.conOpen then s.registry else s.registry.setClosed r
    sides := Function.update s.sides r c.side }

def ShutdownState.close (r : ConRef) (l : CloseLabel) (s : ShutdownState) : Option ShutdownState :=
  (closeStep (s.closing r) l).map fun c => s.withClosing r c

def ShutdownState.call (who : Actor) (r : ConRef) (s : ShutdownState) : Option ShutdownState :=
  (s.close r (.call s.next)).map fun t =>
    { t with current := Function.update t.current who (some (r, s.next)), next := s.next + 1 }

/-- the callback of a connection, with what it causes -/
def Registry.notifyClosed (r : ConRef) (s : Registry) : Except NetFault Registry :=
  match s.objects[r]? with
  | none => .error .nullReference
  | some o => closedCallback (VoltNet.closeCon s.objects.length) o.id s

def ShutdownState.advance (who : Actor) (s : ShutdownState) : Option ShutdownState :=
  match s.current who with
  | none => none
  | some (r, k) =>
    match (s.sides r).calls k with
    -- the callback begins with `get_guard`
    | some .sockClosed => (s.guard.lock who).bind fun guard =>
      match s.registry.notifyClosed r with
      | .ok registry =>
        ({ s with registry := registry, guard := guard } : ShutdownState).close r (.advance k)
      | .error _ => some { s with stage := .broken }
    | some .inCallback =>
      ({ s with guard := s.guard.unlock } : ShutdownState).close r (.advance k)
    | some .returned | some .skipped =>
      some { s with current := Function.update s.current who none }
    | some .threw => some { s with stage := .terminated }
    | some .entered | some .passed | some .stored | some .cancelled | none =>
      s.close r (.advance k)

/-! ## the threads -/

/-- `*it` for slot `i`; a slot that is null or behind the end is not one to use -/
def ShutdownState.atSlot (i : Nat) (use : ConRef → Option ShutdownState) (s : ShutdownState) :
    Option ShutdownState :=
  match s.registry.connections[i]? with
  | some (some r) => use r
  | some none | none => some { s with stage := .broken }

def ShutdownState.turn (thrPool : List ThreadId) (s : ShutdownState) : Option ShutdownState :=
  match s.stage with
  | .lock => (s.guard.lock .destructor).map fun guard =>
    { s with guard := guard, stage := .loop 0 s.registry.connections.length }
  | .loop i n =>
    if s.current .destructor ≠ none then none
    else if i = n then some { s with guard := s.guard.unlock, stage := .stop }
    else s.atSlot i fun r =>
      (s.call .destructor r).map fun t => { t with stage := .loop (i + 1) n }
  | .stop => some { s with stage := .join thrPool }
  | .join [] => some { s with stage := .release 0 }
  | .join (j :: rest) => if s.ended j then some { s with stage := .join rest } else none
  | .release i =>
    if i = s.registry.connections.length then some { s with stage := .destroyed }
    else s.atSlot i fun r =>
      -- a connection that is open still calls back, into members that are gone
      some { s with stage := if s.registry.isOpen r then .broken else .release (i + 1) }
  | .destroyed | .broken | .terminated => none

/-- the thread is in `run`, and not in `close_con` -/
def ShutdownState.free (s : ShutdownState) (j : ThreadId) : Prop :=
  s.ended j = false ∧ s.current (.thread j) = none

instance decidableThreadFree (s : ShutdownState) (j : ThreadId) : Decidable (s.free j) :=
  inferInstanceAs (Decidable (_ ∧ _))

def ShutdownState.owner (s : ShutdownState) : Option Actor := s.guard.map Prod.fst

def shutdownStep (thrPool : List ThreadId) (s : ShutdownState) (l : ShutdownLabel) :
    Option ShutdownState :=
  if s.stage.ended then none
  else match l with
  | .turn => s.turn thrPool
  | .advance who => s.advance who
  | .closeCon j r => if s.free j ∧ s.registry.holds r then s.call (.thread j) r else none
  | .getGuard j =>
    if s.free j then (s.guard.lock (.thread j)).map fun guard => { s with guard := guard } else none
  | .release j =>
    if s.free j ∧ s.owner = some (.thread j) then some { s with guard := s.guard.unlock } else none
  | .finish j =>
    -- handlers have returned, and with them gone the guards in their scopes
    if s.free j ∧ s.stage.stopped ∧ s.owner ≠ some (.thread j) then
      some { s with ended := Function.update s.ended j true }
    else none

/-! ## what a step does -/

/-- a connection as it is after `withClosing`, the others as they were -/
theorem closing_withClosing (s : ShutdownState) (r q : ConRef) (c : CloseState)
    (hopen : c.conOpen = true → s.registry.isOpen r = true) :
    (s.withClosing r c).closing q = if q = r then c else s.closing q := by
  have hflag : (s.withClosing r c).registry.isOpen q
      = if q = r then c.conOpen else s.registry.isOpen q := by
    show (if c.conOpen then s.registry else s.registry.setClosed r).isOpen q = _
    cases hc : c.conOpen with
    | true =>
      rw [if_pos rfl]
      by_cases hq : q = r
      · rw [if_pos hq, hq]
        exact hopen hc
      · rw [if_neg hq]
    | false =>
      rw [if_neg Bool.false_ne_true, isOpen_setClosed]
      simp only [eq_comm]
  rw [ShutdownState.closing, hflag]
  by_cases hq : q = r
  · subst hq
    rw [if_pos rfl, if_pos rfl]
    show CloseSide.state (Function.update s.sides q c.side q) c.conOpen = c
    rw [Function.update_self]
    rfl
  · rw [if_neg hq, if_neg hq]
    show CloseSide.state (Function.update s.sides r c.side q) _ = _
    rw [Function.update_of_ne hq]
    rfl

/-- the network is as `~network` has made it, but for what is closed -/
structure Stopped (s : Registry) (refs : List ConRef) (t : Registry) : Prop where
  entries : t.connections = refs.map some
  known : ∀ r ∈ refs, r < t.objects.length
  running : t.running = false
  callback : t.closedConnectionCallback = s.closedConnectionCallback

theorem stopped_withClosing {s : Registry} {refs : List ConRef} {t : ShutdownState}
    (h : Stopped s refs t.registry) (r : ConRef) (c : CloseState) :
    Stopped s refs (t.withClosing r c).registry := by
  show Stopped s refs (if c.conOpen then t.registry else t.registry.setClosed r)
  cases c.conOpen with
  | true => exact h
  | false =>
    refine ⟨h.entries, fun q hq => ?_, h.running, h.callback⟩
    show q < (t.registry.objects.modify r _).length
    rw [List.length_modify]
    exact h.known q hq

theorem Stopped.notifyClosed {s t : Registry} {refs : List ConRef} (h : Stopped s refs t)
    {r : ConRef} (hr : r ∈ refs) :
    t.notifyClosed r =
      if s.closedConnectionCallback then .error .danglingReference else .ok t := by
  rw [Registry.notifyClosed, List.getElem?_eq_getElem (h.known r hr), ← h.callback]
  exact closedCallback_stopped _ _ t h.running

theorem Stopped.atSlot {s : Registry} {refs : List ConRef} {t : ShutdownState}
    (h : Stopped s refs t.registry) {i : Nat} (hi : i < refs.length)
    (use : ConRef → Option ShutdownState) : t.atSlot i use = use refs[i] := by
  have hslot : t.registry.connections[i]? = some (some refs[i]) := by
    rw [h.entries, List.getElem?_map, List.getElem?_eq_getElem hi]
    rfl
  rw [ShutdownState.atSlot, hslot]

/-- who can start a call on `r`, and where that leaves the destructor -/
inductive Calls (refs : List ConRef) (t : ShutdownState) :
    Actor → ConRef → ShutdownStage → Prop where
  | loop (i n : Nat) (hst : t.stage = .loop i n) (hi : i < refs.length) (hn : i ≠ n) :
    Calls refs t .destructor refs[i] (.loop (i + 1) n)
  | pool (j : ThreadId) (r : ConRef) (hj : t.ended j = false) (hr : r ∈ refs) :
    Calls refs t (.thread j) r t.stage

/-- what becomes of the guard when the call of `who` goes on from `call` -/
def GuardAt (who : Actor) (call : CloseCall) (g g' : Guard) : Prop :=
  match call with
  | .sockClosed => g.lock who = some g'
  | .inCallback => g' = g.unlock
  | _ => g' = g

/-- one step of one thread, on a network with valid entries -/
inductive ShutdownMove (s : Registry) (thrPool : List ThreadId) (refs : List ConRef)
    (t : ShutdownState) (l : ShutdownLabel) : ShutdownState → Prop where
  | lock (g : Guard) (hst : t.stage = .lock) (hg : t.guard.lock .destructor = some g) :
    ShutdownMove s thrPool refs t l { t with guard := g, stage := .loop 0 refs.length }
  | call (who : Actor) (r : ConRef) (stage : ShutdownStage) (c : CloseState)
    (hidle : t.current who = none) (hwho : Calls refs t who r stage)
    (hc : closeStep (t.closing r) (.call t.next) = some c) :
    ShutdownMove s thrPool refs t l { t.withClosing r c with
      current := Function.update t.current who (some (r, t.next))
      next := t.next + 1
      stage := stage }
  | advance (who : Actor) (r : ConRef) (k : CallId) (call : CloseCall) (c : CloseState) (g : Guard)
    (hl : l = .advance who) (hcur : t.current who = some (r, k))
    (hcall : (t.closing r).calls k = some call)
    (hc : closeStep (t.closing r) (.advance k) = some c) (hg : GuardAt who call t.guard g)
    (hquiet : call = .sockClosed → s.closedConnectionCallback = false) :
    ShutdownMove s thrPool refs t l { t.withClosing r c with guard := g }
  | dangling (who : Actor) (r : ConRef) (k : CallId) (hcur : t.current who = some (r, k))
    (hcall : (t.closing r).calls k = some .sockClosed) (hcb : s.closedConnectionCallback = true) :
    ShutdownMove s thrPool refs t l { t with stage := .broken }
  | throw (who : Actor) (r : ConRef) (k : CallId) (hcur : t.current who = some (r, k))
    (hcall : (t.closing r).calls k = some .threw) :
    ShutdownMove s thrPool refs t l { t with stage := .terminated }
  | leave (who : Actor) (r : ConRef) (k : CallId) (call : CloseCall)
    (hcur : t.current who = some (r, k)) (hcall : (t.closing r).calls k = some call)
    (hend : call = .returned ∨ call = .skipped) :
    ShutdownMove s thrPool refs t l { t with current := Function.update t.current who none }
  | closed (i : Nat) (hst : t.stage = .loop i i) (hidle : t.current .destructor = none) :
    ShutdownMove s thrPool refs t l { t with guard := t.guard.unlock, stage := .stop }
  | stop (hst : t.stage = .stop) : ShutdownMove s thrPool refs t l { t with stage := .join thrPool }
  | joined (hst : t.stage = .join []) :
    ShutdownMove s thrPool refs t l { t with stage := .release 0 }
  | join (j : ThreadId) (rest : List ThreadId) (hst : t.stage = .join (j :: rest))
    (hj : t.ended j = true) : ShutdownMove s thrPool refs t l { t with stage := .join rest }
  | release (i : Nat) (hst : t.stage = .release i) (hi : i < refs.length) :
    ShutdownMove s thrPool refs t l
      { t with stage := if t.registry.isOpen refs[i] then .broken else .release (i + 1) }
  | destroyed (i : Nat) (hst : t.stage = .release i) (hi : i = refs.length) :
    ShutdownMove s thrPool refs t l { t with stage := .destroyed }
  | getGuard (j : ThreadId) (g : Guard) (hj : t.free j) (hg : t.guard.lock (.thread j) = some g) :
    ShutdownMove s thrPool refs t l { t with guard := g }
  | giveBack (j : ThreadId) (hj : t.free j) (howner : t.owner = some (.thread j)) :
    ShutdownMove s thrPool refs t l { t with guard := t.guard.unlock }
  | finish (j : ThreadId) (hj : t.free j) (hstop : t.stage.stopped = true)
    (howner : t.owner ≠ some (.thread j)) :
    ShutdownMove s thrPool refs t l { t with ended := Function.update t.ended j true }

theorem call_some {t u : ShutdownState} {who : Actor} {r : ConRef} (h : t.call who r = some u) :
    ∃ c, closeStep (t.closing r) (.call t.next) = some c ∧
      u = { t.withClosing r c with
        current := Function.update t.current who (some (r, t.next)), next := t.next + 1 } := by
  obtain ⟨v, hv, rfl⟩ := Option.map_eq_some_iff.mp h
  obtain ⟨c, hc, rfl⟩ := Option.map_eq_some_iff.mp hv
  exact ⟨c, hc, rfl⟩

section
variable {s : Registry} {thrPool : List ThreadId} {refs : List ConRef} {t : ShutdownState}

/-- a call that is not at its end goes on -/
theorem close_moves {who : Actor} {r : ConRef} {k : CallId} (call : CloseCall) (g : Guard)
    {u : ShutdownState} (hcur : t.current who = some (r, k))
    (hcall : (t.sides r).calls k = some call) (hg : GuardAt who call t.guard g)
    (hquiet : call = .sockClosed → s.closedConnectionCallback = false)
    (hs : ({ t with guard := g } : ShutdownState).close r (.advance k) = some u) :
    ShutdownMove s thrPool refs t (.advance who) u := by
  obtain ⟨c, hc, rfl⟩ := Option.map_eq_some_iff.mp hs
  exact .advance who r k call c g rfl hcur hcall hc hg hquiet

theorem advance_moves (h : Stopped s refs t.registry) (who : Actor) (u : ShutdownState)
    (hmade : ∀ r k, t.current who = some (r, k) → r ∈ refs)
    (hs : t.advance who = some u) : ShutdownMove s thrPool refs t (.advance who) u := by
  rw [ShutdownState.advance] at hs
  cases hcur : t.current who with
  | none => rw [hcur] at hs; cases hs
  | some x =>
    obtain ⟨r, k⟩ := x
    rw [hcur] at hs
    simp only at hs
    split at hs
    · next hcall =>
      obtain ⟨g, hg, hs⟩ := Option.bind_eq_some_iff.mp hs
      rw [h.notifyClosed (hmade r k hcur)] at hs
      cases hcb : s.closedConnectionCallback with
      | true =>
        rw [hcb, if_pos rfl] at hs
        rw [← Option.some.inj hs]
        exact .dangling who r k hcur hcall hcb
      | false =>
        rw [hcb, if_neg Bool.false_ne_true] at hs
        exact close_moves .sockClosed g hcur hcall hg (fun _ => hcb) hs
    · next hcall => exact close_moves .inCallback _ hcur hcall rfl nofun hs
    · next hcall =>
      rw [← Option.some.inj hs]
      exact .leave who r k _ hcur hcall (.inl rfl)
    · next hcall =>
      rw [← Option.some.inj hs]
      exact .leave who r k _ hcur hcall (.inr rfl)
    · next hcall =>
      rw [← Option.some.inj hs]
      exact .throw who r k hcur hcall
    · next hcall => exact close_moves .entered t.guard hcur hcall rfl nofun hs
    · next hcall => exact close_moves .passed t.guard hcur hcall rfl nofun hs
    · next hcall => exact close_moves .stored t.guard hcur hcall rfl nofun hs
    · next hcall => exact close_moves .cancelled t.guard hcur hcall rfl nofun hs
    · next hcall =>
      -- a call that was never made does not go on
      obtain ⟨c, hc, -⟩ := Option.map_eq_some_iff.mp hs
      have hnone : (t.closing r).calls k = none := hcall
      rw [closeStep, hnone] at hc
      cases hc

theorem turn_moves (h : Stopped s refs t.registry) (u : ShutdownState)
    (hloop : ∀ i n, t.stage = .loop i n → n = refs.length ∧ i ≤ n)
    (hrelease : ∀ i, t.stage = .release i → i ≤ refs.length)
    (hs : t.turn thrPool = some u) : ShutdownMove s thrPool refs t .turn u := by
  have hlen : t.registry.connections.length = refs.length := by
    rw [h.entries, List.length_map]
  rw [ShutdownState.turn] at hs
  split at hs
  · next hst =>
    obtain ⟨g, hg, rfl⟩ := Option.map_eq_some_iff.mp hs
    rw [hlen]
    exact .lock g hst hg
  · next i n hst =>
    obtain ⟨hidle, hs⟩ := Option.ite_none_left_eq_some.mp hs
    have hidle : t.current .destructor = none := not_not.mp hidle
    split at hs
    · next hi =>
      rw [← Option.some.inj hs]
      exact .closed i (hst.trans (by rw [hi])) hidle
    · next hi =>
      obtain ⟨hn, hle⟩ := hloop i n hst
      have hlt : i < refs.length := by omega
      rw [h.atSlot hlt] at hs
      obtain ⟨v, hv, rfl⟩ := Option.map_eq_some_iff.mp hs
      obtain ⟨c, hc, rfl⟩ := call_some hv
      exact .call .destructor refs[i] _ c hidle (.loop i n hst hlt hi) hc
  · next hst => exact Option.some.inj hs ▸ .stop hst
  · next hst => exact Option.some.inj hs ▸ .joined hst
  · next j rest hst =>
    obtain ⟨hj, rfl⟩ := of_guard hs
    exact .join j rest hst hj
  · next i hst =>
    split at hs
    · next hi => exact Option.some.inj hs ▸ .destroyed i hst (hi.trans hlen)
    · next hi =>
      have hle := hrelease i hst
      have hlt : i < refs.length := by omega
      rw [h.atSlot hlt] at hs
      exact Option.some.inj hs ▸ .release i hst hlt
  all_goals cases hs

end

end VoltNet
