import VoltNet.Network.Closing
import Mathlib.Logic.Function.Basic

/-!
# The lifecycle callbacks

`add_connection` moves its parameter `con` into the vector and then calls `new_connection_callback`
with `*con`.  The closed callback that it installs captures `con` by reference, and calls
`closed_connection_callback` with `*con` when the call of `add_connection` is long over.

* `ConParam`               the parameter, with what `*con` is at each point;
* `LifecycleState.step`    the registry again, with a record of the calls and of what they are for;
* `lifecycle_refines`      a call with a broken reference is where `registryStep` has no step;
* `callbacks_named_iff`    the calls are the right ones exactly as long as there are none.
-/

namespace VoltNet
open Fallible Runs

/-- the parameter `con` of a call of `add_connection` -/
inductive ConParam where
  | holds (r : ConRef)
  | movedFrom
  /-- the call has returned -/
  | gone
deriving DecidableEq

/-- `*con` -/
def ConParam.deref : ConParam → Except NetFault ConRef
  | .holds r => .ok r
  | .movedFrom => .error .nullReference
  | .gone => .error .danglingReference

/-- `std::move(con)` for an argument: what the new owner gets, and what is left -/
def ConParam.move : ConParam → Option ConRef × ConParam
  | .holds r => (some r, .movedFrom)
  | .movedFrom => (none, .movedFrom)
  | .gone => (none, .gone)

inductive LifecycleCallback where
  | newConnection
  | closedConnection
deriving DecidableEq

structure LifecycleCall where
  callback : LifecycleCallback
  con : Except NetFault ConRef

/-- what the callbacks are for; `callback` tells whether the one in question was set -/
inductive LifecycleEvent where
  | added (r : ConRef) (callback : Bool)
  | closed (r : ConRef) (callback : Bool)

/-- the call that an event should lead to -/
def LifecycleEvent.call : LifecycleEvent → List LifecycleCall
  | .added r callback => if callback then [⟨.newConnection, .ok r⟩] else []
  | .closed r callback => if callback then [⟨.closedConnection, .ok r⟩] else []

structure LifecycleState where
  registry : Registry
  /-- for every `net_con` the parameter that its closed callback refers to -/
  params : ConRef → ConParam
  calls : List LifecycleCall
  events : List LifecycleEvent

def LifecycleState.init : LifecycleState := ⟨Registry.init, fun _ => .gone, [], []⟩

/-- a callback is called with `*con` -/
def LifecycleState.call (callback : LifecycleCallback) (r : ConRef) (s : LifecycleState) :
    LifecycleState :=
  { s with calls := s.calls ++ [⟨callback, (s.params r).deref⟩] }

/-- a callback was called with a reference to nothing -/
def LifecycleState.broken (s : LifecycleState) : Bool := s.calls.any fun c => !c.con.isOk

def LifecycleState.setParam (r : ConRef) (param : ConParam) (s : LifecycleState) :
    LifecycleState :=
  { s with params := Function.update s.params r param }

/-- the constructor, before the call -/
def LifecycleState.newConnection (id : ConId) (s : LifecycleState) : LifecycleState :=
  { s with registry := { s.registry with objects := s.registry.objects ++ [⟨id, true⟩] } }

/-- `connections.push_back(std::move(con))` -/
def LifecycleState.pushBack (r : ConRef) (s : LifecycleState) : LifecycleState :=
  { s.setParam r (s.params r).move.2 with
    registry := { s.registry with
      connections := s.registry.connections ++ [(s.params r).move.1] } }

def LifecycleState.addConnection (id : ConId) (s : LifecycleState) : LifecycleState :=
  let r := s.registry.objects.length
  let s := (s.newConnection id).setParam r (.holds r)
  let s := s.pushBack r
  let s := if s.registry.newConnectionCallback then s.call .newConnection r else s
  let s := s.setParam r .gone
  { s with events := s.events ++ [.added r s.registry.newConnectionCallback] }

def LifecycleState.step (s : LifecycleState) : RegistryLabel → Option LifecycleState
  | .add id => some (s.addConnection id)
  | .close cause r =>
    if s.registry.holds r ∧ s.registry.isOpen r then
      let t := if s.registry.closedConnectionCallback then s.call .closedConnection r else s
      let events := s.events ++ [.closed r s.registry.closedConnectionCallback]
      if t.broken then some { t with events := events }
      else
        (registryStep s.registry (.close cause r)).map fun registry =>
          { t with registry := registry, events := events }
    else none
  | .setNewConnectionCallback =>
    some { s with registry := { s.registry with newConnectionCallback := true } }
  | .setClosedConnectionCallback =>
    some { s with registry := { s.registry with closedConnectionCallback := true } }

/-- nothing is defined after a call with a broken reference -/
def lifecycleStep (s : LifecycleState) (l : RegistryLabel) : Option LifecycleState :=
  if s.broken then none else s.step l

/-- the calls made are the ones that the events should lead to, each with its connection -/
def NamesRight (s : LifecycleState) : Prop := s.calls = s.events.flatMap LifecycleEvent.call

/-- no callback would be called -/
def Uncalled (s : LifecycleState) : RegistryLabel → Prop
  | .add _ => s.registry.newConnectionCallback = false
  | .close _ _ => s.registry.closedConnectionCallback = false
  | _ => True

instance decidableUncalled (s : LifecycleState) : (l : RegistryLabel) → Decidable (Uncalled s l)
  | .add _ => inferInstanceAs (Decidable (s.registry.newConnectionCallback = false))
  | .close _ _ => inferInstanceAs (Decidable (s.registry.closedConnectionCallback = false))
  | .setNewConnectionCallback => isTrue trivial
  | .setClosedConnectionCallback => isTrue trivial

/-! ## the two functions -/

/-- **The parameter is empty where `new_connection_callback` is called.** -/
theorem addConnection_eq (id : ConId) (s : LifecycleState) :
    s.addConnection id =
      { registry := { s.registry with
          objects := s.registry.objects ++ [⟨id, true⟩]
          connections := s.registry.connections ++ [some s.registry.objects.length] }
        params := Function.update s.params s.registry.objects.length .gone
        calls := s.calls ++ if s.registry.newConnectionCallback then
          [⟨.newConnection, .error .nullReference⟩] else []
        events := s.events ++
          [.added s.registry.objects.length s.registry.newConnectionCallback] } := by
  cases hcb : s.registry.newConnectionCallback <;>
    simp [LifecycleState.addConnection, LifecycleState.newConnection, LifecycleState.pushBack,
      LifecycleState.setParam, LifecycleState.call, ConParam.move, ConParam.deref, hcb]

/-- as long as no callback was called -/
structure Quiet (s : LifecycleState) : Prop where
  live : s.registry.Live
  /-- the calls of `add_connection` have returned -/
  params : ∀ r, some r ∈ s.registry.connections → s.params r = .gone
  calls : s.calls = []
  events : s.events.flatMap LifecycleEvent.call = []

theorem quiet_init : Quiet LifecycleState.init where
  live := live_init
  params _ _ := rfl
  calls := rfl
  events := rfl

theorem Quiet.unbroken {s : LifecycleState} (h : Quiet s) : s.broken = false := by
  rw [LifecycleState.broken, h.calls]
  rfl

theorem Quiet.step {s : LifecycleState} (h : Quiet s) (l : RegistryLabel) :
    lifecycleStep s l = s.step l := by
  rw [lifecycleStep, h.unbroken]
  rfl

/-- **The reference dangles where `closed_connection_callback` is called.** -/
theorem lifecycleStep_close (s t : LifecycleState) (cause : CloseCause) (r : ConRef) (h : Quiet s)
    (hs : lifecycleStep s (.close cause r) = some t) :
    some r ∈ s.registry.connections ∧
      ((s.registry.closedConnectionCallback = false ∧
        ∃ registry, registryStep s.registry (.close cause r) = some registry ∧
          t = { s with registry := registry, events := s.events ++ [.closed r false] }) ∨
      (s.registry.closedConnectionCallback = true ∧
        t = { s with
          calls := [⟨.closedConnection, .error .danglingReference⟩]
          events := s.events ++ [.closed r true] })) := by
  rw [h.step] at hs
  obtain ⟨⟨hr, -⟩, hs⟩ := Option.ite_none_right_eq_some.mp hs
  have hr := (holds_iff s.registry r).mp hr
  refine ⟨hr, ?_⟩
  cases hcb : s.registry.closedConnectionCallback with
  | false =>
    simp only [hcb, Bool.false_eq_true, if_false, h.unbroken] at hs
    obtain ⟨registry, hreg, ht⟩ := Option.map_eq_some_iff.mp hs
    exact .inl ⟨rfl, registry, hreg, ht.symm⟩
  | true =>
    have hcall : s.call .closedConnection r
        = { s with calls := [⟨.closedConnection, .error .danglingReference⟩] } := by
      rw [LifecycleState.call, h.calls, h.params r hr]
      rfl
    have hbroken : (s.call .closedConnection r).broken = true := by
      rw [hcall]
      rfl
    simp only [hcb, if_true, hbroken] at hs
    rw [hcall] at hs
    exact .inr ⟨rfl, (Option.some.inj hs).symm⟩

theorem lifecycleStep_add (s t : LifecycleState) (id : ConId) (h : Quiet s)
    (hs : lifecycleStep s (.add id) = some t) : t = s.addConnection id := by
  rw [h.step] at hs
  exact (Option.some.inj hs).symm

theorem addConnection_registry (id : ConId) (s : LifecycleState)
    (hcb : s.registry.newConnectionCallback = false) :
    s.registry.addConnection id = .ok (s.addConnection id).registry := by
  rw [addConnection_eq]
  exact if_neg (by rw [hcb]; decide)

theorem addConnection_broken (id : ConId) (s : LifecycleState) (h : Quiet s) :
    (s.addConnection id).broken = s.registry.newConnectionCallback := by
  rw [addConnection_eq, LifecycleState.broken, h.calls]
  cases s.registry.newConnectionCallback <;> rfl

/-- **A call with a broken reference is where the registry has no step.** -/
theorem lifecycle_refines (s t : LifecycleState) (l : RegistryLabel) (h : Quiet s)
    (hs : lifecycleStep s l = some t) :
    registryStep s.registry l = if t.broken then none else some t.registry := by
  cases l with
  | add id =>
    rw [lifecycleStep_add s t id h hs, addConnection_broken id s h]
    show (s.registry.addConnection id).toOption = _
    cases hcb : s.registry.newConnectionCallback with
    | false =>
      rw [addConnection_registry id s hcb]
      rfl
    | true =>
      rw [Registry.addConnection, if_pos (by exact hcb)]
      rfl
  | close cause r =>
    obtain ⟨hr, ⟨-, registry, hreg, rfl⟩ | ⟨hcb, rfl⟩⟩ := lifecycleStep_close s t cause r h hs
    · rw [hreg]
      show _ = if s.broken then none else some registry
      rw [h.unbroken]
      rfl
    · show registryStep s.registry (.close cause r) = none
      rw [Option.eq_none_iff_forall_ne_some]
      intro registry hreg
      obtain ⟨-, hclose⟩ := registryStep_close s.registry registry cause r hreg
      rw [callback_unset s.registry registry r (h.live.isOpen hr) hclose] at hcb
      cases hcb
  | setNewConnectionCallback | setClosedConnectionCallback =>
    rw [h.step] at hs
    rw [← Option.some.inj hs]
    show _ = if s.broken then none else _
    rw [h.unbroken]
    rfl

theorem quiet_step (s t : LifecycleState) (l : RegistryLabel) (h : Quiet s) (hl : Uncalled s l)
    (hs : lifecycleStep s l = some t) : Quiet t := by
  cases l with
  | add id =>
    have hl : s.registry.newConnectionCallback = false := hl
    have hadd := addConnection_registry id s hl
    rw [lifecycleStep_add s t id h hs]
    refine ⟨live_add id _ _ h.live hadd, fun r hr => ?_, ?_, ?_⟩
    · have hmem := (mem_add id _ _ hadd r).mp hr
      rw [addConnection_eq]
      show Function.update s.params s.registry.objects.length .gone r = .gone
      rcases hmem with hmem | rfl
      · rw [Function.update_of_ne (Nat.ne_of_lt (isOpen_lt (h.live.isOpen hmem)))]
        exact h.params r hmem
      · rw [Function.update_self]
    · rw [addConnection_eq, hl, h.calls]
      rfl
    · rw [addConnection_eq, hl, List.flatMap_append, h.events]
      rfl
  | close cause r =>
    have hl : s.registry.closedConnectionCallback = false := hl
    obtain ⟨hr, ⟨-, registry, hreg, rfl⟩ | ⟨hcb, -⟩⟩ := lifecycleStep_close s t cause r h hs
    · obtain ⟨-, hclose⟩ := registryStep_close s.registry registry cause r hreg
      refine ⟨live_close _ _ r h.live hr hclose, fun q hq => ?_, h.calls, ?_⟩
      · exact h.params q (close_kept _ _ r h.live hr hclose q hq).1
      · rw [List.flatMap_append, h.events]
        rfl
    · rw [hl] at hcb
      cases hcb
  | setNewConnectionCallback | setClosedConnectionCallback =>
    rw [h.step] at hs
    rw [← Option.some.inj hs]
    exact ⟨⟨h.live.running, h.live.refs⟩, h.params, h.calls, h.events⟩

/-- the first call is a wrong one -/
theorem not_named_step (s t : LifecycleState) (l : RegistryLabel) (h : Quiet s)
    (hl : ¬ Uncalled s l) (hs : lifecycleStep s l = some t) : ¬ NamesRight t := by
  intro hnames
  cases l with
  | add id =>
    have hl : s.registry.newConnectionCallback = true := eq_true_of_ne_false hl
    rw [lifecycleStep_add s t id h hs, addConnection_eq, NamesRight, hl, h.calls,
      List.flatMap_append, h.events] at hnames
    injection hnames with hcall
    injection hcall with _ hcon
    cases hcon
  | close cause r =>
    have hl : s.registry.closedConnectionCallback = true := eq_true_of_ne_false hl
    obtain ⟨hr, ⟨hcb, -⟩ | ⟨-, rfl⟩⟩ := lifecycleStep_close s t cause r h hs
    · rw [hl] at hcb
      cases hcb
    · rw [NamesRight, List.flatMap_append, h.events] at hnames
      injection hnames with hcall
      injection hcall with _ hcon
      cases hcon
  | setNewConnectionCallback | setClosedConnectionCallback => exact hl trivial

/-- **The callbacks are called with the right connections exactly as long as none is called**: with
`new_connection_callback` set no connection may be added, and with `closed_connection_callback` set
none may close. -/
theorem callbacks_named_iff (ls : List RegistryLabel) (s : LifecycleState)
    (h : exec lifecycleStep LifecycleState.init ls = some s) :
    Always lifecycleStep NamesRight LifecycleState.init ls ↔
      Every lifecycleStep Uncalled LifecycleState.init ls := by
  refine always_iff_every (fun t ht => ?_) (fun t l u ht hl hs => quiet_step t u l ht hl hs)
    (fun t l u ht hl hs => not_named_step t u l ht hl hs) quiet_init ls h
  rw [NamesRight, ht.calls, ht.events]

/-- a connection comes and goes before the callbacks are set -/
theorem callbacks_named_iff_unset :
    ∃ s, exec lifecycleStep LifecycleState.init
        [.add 7, .close .endOfFile 0, .setNewConnectionCallback, .setClosedConnectionCallback]
        = some s ∧
      Every lifecycleStep Uncalled LifecycleState.init
        [.add 7, .close .endOfFile 0, .setNewConnectionCallback, .setClosedConnectionCallback] ∧
      Always lifecycleStep NamesRight LifecycleState.init
        [.add 7, .close .endOfFile 0, .setNewConnectionCallback,
          .setClosedConnectionCallback] := by
  have hrun : (exec lifecycleStep LifecycleState.init
      [.add 7, .close .endOfFile 0, .setNewConnectionCallback, .setClosedConnectionCallback]).map
        (fun s => s.registry.connections) = some [] := by decide
  obtain ⟨s, hs, -⟩ := Option.map_eq_some_iff.mp hrun
  have hevery : Every lifecycleStep Uncalled LifecycleState.init
      [.add 7, .close .endOfFile 0, .setNewConnectionCallback,
        .setClosedConnectionCallback] := by decide
  exact ⟨s, hs, hevery, (callbacks_named_iff _ s hs).mpr hevery⟩

/-- the first connection added with both callbacks set -/
theorem new_connection_null :
    ∃ s, Reach lifecycleStep (fun _ _ => True) LifecycleState.init s ∧
      s.registry.connections = [some 0] ∧
      s.calls = [⟨.newConnection, .error .nullReference⟩] ∧
      s.events.flatMap LifecycleEvent.call = [⟨.newConnection, .ok 0⟩] ∧ ¬ NamesRight s := by
  refine ⟨_, Reach.of_exec
    [.setNewConnectionCallback, .setClosedConnectionCallback, .add 7] rfl, rfl, rfl, rfl, ?_⟩
  intro hnames
  injection hnames with hcall
  injection hcall with _ hcon
  cases hcon

end VoltNet
