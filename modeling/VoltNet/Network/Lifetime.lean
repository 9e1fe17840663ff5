import VoltNet.Network.Closing
import Mathlib.Logic.Function.Basic

/-!
# How long a connection lives

`schedule_read_handler` binds the raw `this` to the completion of a read, and only the registry
owns a `net_con`: it has to stay registered until its handler makes no more use of it.

* `LifetimeState.step` additions, completions of reads, and `close_con` by user code, outside the
                       handlers or inside the message callback;
* `Owned`              a connection with a read outstanding or a handler at work is registered;
* `reads_owned_iff`    it is all along a run exactly when connections close by a failing read of
                       their own only, and only the first of the vector.
-/

namespace VoltNet
open Fallible Runs

inductive ReadState where
  | idle
  /-- an `async_read_some` with `handle_read` bound to it -/
  | outstanding
  /-- `handle_read` without an error: the loop over the bytes, and what follows it -/
  | handling
deriving DecidableEq

structure LifetimeState where
  registry : Registry
  reads : ConRef → ReadState
  /-- the loop of `erase` has run over the end of the vector; the first entry was destroyed before
  (`closeCon_later_eq`) -/
  overrun : Bool

inductive LifetimeLabel where
  /-- `add_connection`, which starts the first read -/
  | add (id : ConId)
  | readSucceeds (r : ConRef)
  /-- the end of `handle_read`, where it schedules the next read -/
  | handled (r : ConRef)
  /-- end of file, or another error such as a cancellation -/
  | readFails (eof : Bool) (r : ConRef)
  /-- `close_con` outside the handlers -/
  | userClose (r : ConRef)
  /-- `close_con` on `r` inside the message callback that the handler of `h` has called -/
  | callbackClose (h r : ConRef)
  | setNewConnectionCallback
  | setClosedConnectionCallback

def LifetimeState.init : LifetimeState := ⟨Registry.init, fun _ => .idle, false⟩

def LifetimeState.setRead (r : ConRef) (read : ReadState) (s : LifetimeState) : LifetimeState :=
  { s with reads := Function.update s.reads r read }

/-- the two error branches of `handle_read` -/
def readCause (eof : Bool) : CloseCause := if eof then .endOfFile else .readError

/-- `close_con` with all that it causes; there is no step where a lifecycle callback is called with
a broken reference -/
def LifetimeState.close (cause : CloseCause) (r : ConRef) (s : LifetimeState) :
    Option LifetimeState :=
  if s.registry.holds r ∧ s.registry.isOpen r then
    match s.registry.close cause r with
    | .ok registry => some { s with registry := registry }
    | .error (.pastEnd _) => some { s with overrun := true }
    | .error _ => none
  else none

def LifetimeState.step (s : LifetimeState) : LifetimeLabel → Option LifetimeState
  | .add id =>
    (registryStep s.registry (.add id)).map fun registry =>
      { s.setRead s.registry.objects.length .outstanding with registry := registry }
  | .readSucceeds r =>
    if s.reads r = .outstanding ∧ s.registry.holds r then some (s.setRead r .handling) else none
  | .handled r =>
    if s.reads r = .handling ∧ s.registry.holds r then
      some (s.setRead r (if s.registry.isOpen r then .outstanding else .idle))
    else none
  | .readFails eof r =>
    -- after `close_con` the handler uses no member
    if s.reads r = .outstanding then (s.setRead r .idle).close (readCause eof) r else none
  | .userClose r => s.close .call r
  | .callbackClose h r =>
    if s.reads h = .handling ∧ s.registry.holds h then s.close .call r else none
  | .setNewConnectionCallback =>
    (registryStep s.registry .setNewConnectionCallback).map fun registry =>
      { s with registry := registry }
  | .setClosedConnectionCallback =>
    (registryStep s.registry .setClosedConnectionCallback).map fun registry =>
      { s with registry := registry }

/-- no step from an overrun on, and none where a handler of an erased connection runs -/
def lifetimeStep (s : LifetimeState) (l : LifetimeLabel) : Option LifetimeState :=
  if s.overrun then none else s.step l

def Owned (s : LifetimeState) : Prop :=
  s.overrun = false ∧ ∀ r, s.reads r ≠ .idle → some r ∈ s.registry.connections

/-- connections close by a failing read of their own, the first of the vector before the others -/
def FailsInOrder (s : LifetimeState) : LifetimeLabel → Prop
  | .readFails _ r => s.registry.connections.head? = some (some r)
  | .userClose _ => False
  | .callbackClose _ _ => False
  | _ => True

instance decidableFailsInOrder (s : LifetimeState) :
    (l : LifetimeLabel) → Decidable (FailsInOrder s l)
  | .readFails _ r => inferInstanceAs (Decidable (s.registry.connections.head? = some (some r)))
  | .userClose _ => isFalse id
  | .callbackClose _ _ => isFalse id
  | .add _ => isTrue trivial
  | .readSucceeds _ => isTrue trivial
  | .handled _ => isTrue trivial
  | .setNewConnectionCallback => isTrue trivial
  | .setClosedConnectionCallback => isTrue trivial

/-! ## the steps -/

theorem lifetime_close (s t : LifetimeState) (cause : CloseCause) (r : ConRef)
    (h : s.close cause r = some t) :
    some r ∈ s.registry.connections ∧
      ((∃ registry, s.registry.closeCon r = .ok registry ∧ t = { s with registry := registry }) ∨
      (∃ slot, s.registry.closeCon r = .error (.pastEnd slot) ∧
        t = { s with overrun := true })) := by
  obtain ⟨⟨hr, -⟩, h⟩ := Option.ite_none_right_eq_some.mp h
  refine ⟨(holds_iff s.registry r).mp hr, ?_⟩
  rw [close_eq] at h
  split at h
  · next registry hclose => exact .inl ⟨registry, hclose, (Option.some.inj h).symm⟩
  · next slot hclose => exact .inr ⟨slot, hclose, (Option.some.inj h).symm⟩
  · cases h

/-- while all goes well the registered connections are those with a read or a handler -/
structure ReadsKept (s : LifetimeState) : Prop where
  live : s.registry.Live
  registered : ∀ r, s.reads r ≠ .idle ↔ some r ∈ s.registry.connections
  overrun : s.overrun = false

theorem readsKept_init : ReadsKept LifetimeState.init where
  live := live_init
  registered _ := iff_of_false (fun h => h rfl) List.not_mem_nil
  overrun := rfl

theorem ReadsKept.owned {s : LifetimeState} (h : ReadsKept s) : Owned s := by
  refine ⟨h.overrun, fun r hr => ?_⟩
  exact (h.registered r).mp hr

theorem ReadsKept.step {s : LifetimeState} (h : ReadsKept s) (l : LifetimeLabel) :
    lifetimeStep s l = s.step l := by
  rw [lifetimeStep, h.overrun]
  rfl

/-- a handler starts, or schedules the next read -/
theorem readsKept_setRead (s : LifetimeState) (r : ConRef) (read : ReadState) (h : ReadsKept s)
    (hr : some r ∈ s.registry.connections) (hread : read ≠ .idle) :
    ReadsKept (s.setRead r read) := by
  refine ⟨h.live, fun p => ?_, h.overrun⟩
  show Function.update s.reads r read p ≠ .idle ↔ some p ∈ s.registry.connections
  by_cases hp : p = r
  · rw [hp, Function.update_self]
    exact iff_of_true hread hr
  · rw [Function.update_of_ne hp]
    exact h.registered p

theorem readsKept_add (s : LifetimeState) (id : ConId) (registry : Registry) (h : ReadsKept s)
    (hreg : s.registry.addConnection id = .ok registry) :
    ReadsKept { s.setRead s.registry.objects.length .outstanding with registry := registry } := by
  refine ⟨live_add id s.registry registry h.live hreg, fun p => ?_, h.overrun⟩
  rw [mem_add id s.registry registry hreg p]
  show Function.update s.reads s.registry.objects.length .outstanding p ≠ .idle ↔ _
  by_cases hp : p = s.registry.objects.length
  · rw [hp, Function.update_self]
    exact iff_of_true nofun (.inr rfl)
  · rw [Function.update_of_ne hp, or_iff_left hp]
    exact h.registered p

/-- the first connection of the vector closes by its own read -/
theorem readsKept_fails (s : LifetimeState) (r : ConRef) (registry : Registry) (h : ReadsKept s)
    (hfirst : s.registry.connections.head? = some (some r))
    (hr : some r ∈ s.registry.connections) (hclose : s.registry.closeCon r = .ok registry) :
    ReadsKept { s.setRead r .idle with registry := registry } := by
  refine ⟨live_close s.registry registry r h.live hr hclose, fun p => ?_, h.overrun⟩
  show Function.update s.reads r .idle p ≠ .idle ↔ some p ∈ registry.connections
  rcases close_cases s.registry registry r h.live hr hclose with
    ⟨rest, hconns, hnot, rfl⟩ | ⟨q, rest, hconns, hqr, -, -⟩
  · show _ ↔ some p ∈ rest.map some
    rw [mem_map_some]
    by_cases hp : p = r
    · rw [hp, Function.update_self]
      exact iff_of_false (fun h => h rfl) hnot
    · rw [Function.update_of_ne hp, h.registered p, hconns, List.mem_cons, mem_map_some,
        Option.some.injEq, or_iff_right hp]
  · rw [hconns, List.head?_cons, Option.some.injEq, Option.some.injEq] at hfirst
    exact absurd hfirst hqr

/-- the vector does not overrun when its first connection closes -/
theorem first_in_bounds (s : Registry) (r : ConRef) (slot : Nat) (h : s.Live)
    (hfirst : s.connections.head? = some (some r)) :
    s.closeCon r ≠ .error (.pastEnd slot) := by
  intro hclose
  obtain ⟨rest, hconns⟩ := List.head?_eq_some_iff.mp hfirst
  have hr : some r ∈ s.connections := by
    rw [hconns]
    exact List.mem_cons_self
  have hf := closeCon_first_error s r rest _ hconns (h.isOpen hr) h.running hclose
  cases hf

/-- any other way to close a connection takes one away that is in use -/
theorem not_owned_close (s t : LifetimeState) (cause : CloseCause) (r : ConRef)
    (reads : ConRef → ReadState) (h : ReadsKept s)
    (hreads : ∀ p, p ≠ r → reads p = s.reads p)
    (hself : reads r ≠ .idle ∨ s.registry.connections.head? ≠ some (some r))
    (hclose : ({ s with reads := reads } : LifetimeState).close cause r = some t) : ¬ Owned t := by
  intro ho
  obtain ⟨hover, ho⟩ := ho
  obtain ⟨hr, ⟨registry, hreg, rfl⟩ | ⟨slot, -, rfl⟩⟩ := lifetime_close _ t cause r hclose
  · rcases close_cases s.registry registry r h.live hr hreg with
      ⟨rest, hconns, hnot, rfl⟩ | ⟨q, rest, hconns, hqr, hnil, -⟩
    · rcases hself with hself | hself
      · exact hnot (mem_map_some.mp (ho r hself))
      · rw [hconns] at hself
        exact hself rfl
    · have hq : some q ∈ s.registry.connections := by
        rw [hconns]
        exact List.mem_cons_self
      have hbusy := (h.registered q).mpr hq
      rw [← hreads q hqr] at hbusy
      have hmem := ho q hbusy
      rw [hnil] at hmem
      cases hmem
  · cases hover

theorem readsKept_step (s t : LifetimeState) (l : LifetimeLabel) (h : ReadsKept s)
    (hl : FailsInOrder s l) (hs : lifetimeStep s l = some t) : ReadsKept t := by
  rw [h.step] at hs
  cases l with
  | add id =>
    obtain ⟨registry, hreg, rfl⟩ := Option.map_eq_some_iff.mp hs
    exact readsKept_add s id registry h (toOption_some _ _ hreg)
  | readSucceeds r =>
    obtain ⟨⟨-, hr⟩, rfl⟩ := of_guard hs
    exact readsKept_setRead s r _ h ((holds_iff s.registry r).mp hr) nofun
  | handled r =>
    obtain ⟨⟨-, hr⟩, rfl⟩ := of_guard hs
    have hr := (holds_iff s.registry r).mp hr
    rw [if_pos (h.live.isOpen hr)]
    exact readsKept_setRead s r _ h hr nofun
  | readFails eof r =>
    obtain ⟨-, hs⟩ := Option.ite_none_right_eq_some.mp hs
    obtain ⟨hr, ⟨registry, hclose, rfl⟩ | ⟨slot, hclose, -⟩⟩ := lifetime_close _ t _ r hs
    · exact readsKept_fails s r registry h hl hr hclose
    · exact absurd hclose (first_in_bounds s.registry r slot h.live hl)
  | userClose r => exact absurd hl id
  | callbackClose h' r => exact absurd hl id
  | setNewConnectionCallback | setClosedConnectionCallback =>
    rw [← Option.some.inj hs]
    exact ⟨⟨h.live.running, h.live.refs⟩, h.registered, h.overrun⟩

theorem not_owned_step (s t : LifetimeState) (l : LifetimeLabel) (h : ReadsKept s)
    (hl : ¬ FailsInOrder s l) (hs : lifetimeStep s l = some t) : ¬ Owned t := by
  rw [h.step] at hs
  -- a connection that is closed otherwise is registered, and so in use
  have hother : ∀ r, s.close .call r = some t → ¬ Owned t := by
    intro r hclose
    have hbusy := (h.registered r).mpr (lifetime_close s t .call r hclose).1
    exact not_owned_close s t .call r s.reads h (fun _ _ => rfl) (.inl hbusy) hclose
  cases l with
  | readFails eof r =>
    obtain ⟨-, hs⟩ := Option.ite_none_right_eq_some.mp hs
    exact not_owned_close s t (readCause eof) r _ h (fun p hp => Function.update_of_ne hp _ _)
      (.inr hl) hs
  | userClose r => exact hother r hs
  | callbackClose h' r =>
    obtain ⟨-, hs⟩ := Option.ite_none_right_eq_some.mp hs
    exact hother r hs
  | add id | readSucceeds r | handled r | setNewConnectionCallback | setClosedConnectionCallback =>
    exact absurd trivial hl

/-- **Connections in use are registered all along a run exactly when every connection closes by a
failing read of its own, and is then the first of the vector.** -/
theorem reads_owned_iff (ls : List LifetimeLabel) (s : LifetimeState)
    (h : exec lifetimeStep LifetimeState.init ls = some s) :
    Always lifetimeStep Owned LifetimeState.init ls ↔
      Every lifetimeStep FailsInOrder LifetimeState.init ls :=
  always_iff_every (fun _ ht => ht.owned) (fun t l u ht hl hu => readsKept_step t u l ht hl hu)
    (fun t l u ht hl hu => not_owned_step t u l ht hl hu) readsKept_init ls h

/-- two connections, of which the first is read once more and then fails -/
theorem reads_owned_iff_first :
    ∃ s, exec lifetimeStep LifetimeState.init
        [.add 7, .add 9, .readSucceeds 0, .handled 0, .readFails true 0] = some s ∧
      s.registry.connections = [some 1] ∧
      Every lifetimeStep FailsInOrder LifetimeState.init
        [.add 7, .add 9, .readSucceeds 0, .handled 0, .readFails true 0] ∧
      Always lifetimeStep Owned LifetimeState.init
        [.add 7, .add 9, .readSucceeds 0, .handled 0, .readFails true 0] := by
  have hrun : (exec lifetimeStep LifetimeState.init
      [.add 7, .add 9, .readSucceeds 0, .handled 0, .readFails true 0]).map
        (fun s => s.registry.connections) = some [some 1] := by decide
  obtain ⟨s, hs, hconns⟩ := Option.map_eq_some_iff.mp hrun
  have hevery : Every lifetimeStep FailsInOrder LifetimeState.init
      [.add 7, .add 9, .readSucceeds 0, .handled 0, .readFails true 0] := by decide
  exact ⟨s, hs, hconns, hevery, (reads_owned_iff _ s hs).mpr hevery⟩

/-- user code closes the only connection: it is erased while its read is outstanding -/
theorem close_outstanding :
    ∃ s, Reach lifetimeStep (fun _ _ => True) LifetimeState.init s ∧ s.reads 0 = .outstanding ∧
      s.registry.connections = [] ∧ ¬ Owned s := by
  have hrun : (exec lifetimeStep LifetimeState.init [.add 7, .userClose 0]).map
      (fun s => (s.reads 0, s.registry.connections)) = some (.outstanding, []) := by decide
  obtain ⟨s, hs, hval⟩ := Option.map_eq_some_iff.mp hrun
  obtain ⟨hread, hconns⟩ := Prod.mk.inj hval
  refine ⟨s, Reach.of_exec _ hs, hread, hconns, fun ho => ?_⟩
  have hmem := ho.2 0 (by rw [hread]; decide)
  rw [hconns] at hmem
  cases hmem

end VoltNet
