import VoltNet.Lib.Runs
import Mathlib.Logic.Function.Basic

/-!
# `listener`: accepting connections on two acceptors

The constructor, the completion handlers of the IPv4 and the IPv6 acceptor and any number of calls
of `close_listener` take their steps in any order; io threads run before the listener is made.  Of
Boost.Asio the model takes that an accept succeeds only on an open acceptor and into a fresh
socket, that a moved-from socket is not one, and that `cancel` throws on a closed acceptor.

* `AcceptSide`            what one acceptor and its handler work on;
* `AcceptSide.handler`    the next step of `accept_v4` or `accept_v6`;
* `listenerStep`          the steps of a listener;
* `AcceptSide.carried`    the connection that a handler has yet to hand over;
* `handler_cases`         what a step of a handler does with it;
* `listenerStep_moves`    what a step of the listener does to its acceptors;
* `handler_returns`       a handler comes to its end.
-/

namespace VoltNet
open Runs

/-! ## one acceptor -/

inductive Family where
  | v4
  | v6
deriving DecidableEq

/-- a connection, by the order in which connections are accepted -/
abbrev AcceptNo := Nat

/-- what a `tcp::socket` is -/
inductive Sock where
  | fresh
  | connected (c : AcceptNo)
  | movedFrom
deriving DecidableEq

/-- where the completion handler of an acceptor is -/
inductive AcceptStage where
  /-- not running -/
  | idle
  /-- called, before `std::move` of the shared socket -/
  | entered (err : Bool)
  /-- in `accept_new_connection` with a socket of its own, before the test -/
  | test (err : Bool) (socket : Sock)
  /-- before `new_con_callback` -/
  | call (socket : Sock)
  /-- back from `accept_new_connection`, before the shared socket is replaced -/
  | replace
  /-- before `async_accept` -/
  | rearm
deriving DecidableEq

/-- `new_sock_ipv4` or `new_sock_ipv6`, whether an accept into it is outstanding, and the handler -/
structure AcceptSide where
  newSock : Sock
  outstanding : Bool
  stage : AcceptStage
deriving DecidableEq

def AcceptSide.asyncAccept (side : AcceptSide) : AcceptSide := { side with outstanding := true }

/-- the outstanding accept completes: with a connection, or with an error -/
def AcceptSide.complete (side : AcceptSide) : Option AcceptNo → AcceptSide
  | some c => ⟨.connected c, false, .entered false⟩
  | none => ⟨side.newSock, false, .entered true⟩

/-- the next step of the handler, with the sockets it passes to `new_con_callback` -/
def AcceptSide.handler (listenerOpen : Bool) (side : AcceptSide) : Option (AcceptSide × List Sock) :=
  match side.stage with
  | .idle => none
  | .entered err => some (⟨.movedFrom, side.outstanding, .test err side.newSock⟩, [])
  | .test err socket =>
    if !listenerOpen ∨ err then some ({ side with stage := .replace }, [])
    else some ({ side with stage := .call socket }, [])
  | .call socket => some ({ side with stage := .replace }, [socket])
  | .replace => some (⟨.fresh, side.outstanding, .rearm⟩, [])
  | .rearm => some ({ side.asyncAccept with stage := .idle }, [])

/-! ## a listener -/

/-- the next statement of the constructor -/
inductive ConstructStage where
  | startV4
  | startV6
  | setOpen
  | done
deriving DecidableEq

/-- the next statement of a call of `close_listener` -/
inductive ListenerClose where
  | idle
  | store
  | cancel (f : Family)
  | close (f : Family)
deriving DecidableEq

structure Listener where
  construct : ConstructStage
  listenerOpen : Bool
  acceptorOpen : Family → Bool
  sides : Family → AcceptSide
  closes : Nat → ListenerClose
  /-- connections accepted so far -/
  next : AcceptNo
  /-- `close_listener` has been called -/
  closeCalled : Bool
  /-- connections accepted before that, each with its acceptor -/
  accepted : List (Family × AcceptNo)
  /-- arguments of the calls of `new_con_callback` -/
  handed : List Sock

/-- the members before the body of the constructor; `prior` is what `listener_open`, which has no
initialiser, happens to be -/
def Listener.init (prior : Bool) : Listener where
  construct := .startV4
  listenerOpen := prior
  acceptorOpen := fun _ => true
  sides := fun _ => ⟨.fresh, false, .idle⟩
  closes := fun _ => .idle
  next := 0
  closeCalled := false
  accepted := []
  handed := []

inductive ListenerLabel where
  /-- the constructor goes on -/
  | construct
  /-- an accept completes with a connection -/
  | accept (f : Family)
  /-- an accept completes with an error -/
  | fail (f : Family)
  /-- a handler goes on -/
  | handle (f : Family)
  /-- a call of `close_listener` begins or goes on -/
  | close (k : Nat)

def Listener.setSide (f : Family) (side : AcceptSide) (s : Listener) : Listener :=
  { s with sides := Function.update s.sides f side }

def Listener.constructStep (s : Listener) : Option Listener :=
  match s.construct with
  | .startV4 => some { s.setSide .v4 (s.sides .v4).asyncAccept with construct := .startV6 }
  | .startV6 => some { s.setSide .v6 (s.sides .v6).asyncAccept with construct := .setOpen }
  | .setOpen =>
    some { s with listenerOpen := s.acceptorOpen .v4 && s.acceptorOpen .v6, construct := .done }
  | .done => none

def Listener.closeStep (k : Nat) (s : Listener) : Option Listener :=
  let goTo (next : ListenerClose) : Nat → ListenerClose := Function.update s.closes k next
  match s.closes k with
  | .idle =>
    if s.construct = .done then
      some { s with closes := goTo (if s.listenerOpen then .store else .idle), closeCalled := true }
    else none
  | .store => some { s with closes := goTo (.cancel .v4), listenerOpen := false }
  | .cancel f => some { s with closes := goTo (if s.acceptorOpen f then .close f else .idle) }
  | .close .v4 =>
    some { s with
      closes := goTo (.cancel .v6), acceptorOpen := Function.update s.acceptorOpen .v4 false }
  | .close .v6 =>
    some { s with closes := goTo .idle, acceptorOpen := Function.update s.acceptorOpen .v6 false }

def listenerStep (s : Listener) : ListenerLabel → Option Listener
  | .construct => s.constructStep
  | .accept f =>
    if (s.sides f).outstanding ∧ (s.sides f).newSock = .fresh ∧ s.acceptorOpen f then
      some { s.setSide f ((s.sides f).complete (some s.next)) with
        next := s.next + 1
        accepted := if s.closeCalled then s.accepted else s.accepted ++ [(f, s.next)] }
    else none
  | .fail f =>
    if (s.sides f).outstanding then some (s.setSide f ((s.sides f).complete none)) else none
  | .handle f =>
    match (s.sides f).handler s.listenerOpen with
    | none => none
    | some (side, calls) => some { s.setSide f side with handed := s.handed ++ calls }
  | .close k => s.closeStep k

/-! ## what a handler carries -/

def ConstructStage.started : ConstructStage → Family → Bool
  | .startV4, _ => false
  | .startV6, .v4 => true
  | .startV6, .v6 => false
  | .setOpen, _ => true
  | .done, _ => true

def Sock.con : Sock → Option AcceptNo
  | .connected c => some c
  | _ => none

/-- the connection that was accepted and not yet handed over or dropped -/
def AcceptSide.carried (side : AcceptSide) : Option AcceptNo :=
  match side.stage with
  | .entered false => side.newSock.con
  | .test false socket => socket.con
  | .call socket => socket.con
  | _ => none

/-- what holds of one acceptor; `started` tells whether the constructor has got to it -/
def AcceptSide.Ok (started : Bool) (side : AcceptSide) : Prop :=
  match side.stage with
  | .idle => side.outstanding = started ∧ side.newSock = .fresh
  | .entered err =>
    started = true ∧ side.outstanding = false ∧ (err = false → ∃ c, side.newSock = .connected c)
  | .test err socket =>
    started = true ∧ side.outstanding = false ∧ (err = false → ∃ c, socket = .connected c)
  | .call socket => started = true ∧ side.outstanding = false ∧ ∃ c, socket = .connected c
  | .replace => started = true ∧ side.outstanding = false
  | .rearm => started = true ∧ side.outstanding = false ∧ side.newSock = .fresh

/-- an accept is outstanding only while no handler runs -/
theorem AcceptSide.Ok.idle {started : Bool} {side : AcceptSide} (h : side.Ok started)
    (hout : side.outstanding = true) : side.stage = .idle ∧ started = true := by
  obtain ⟨sock, out, stage⟩ := side
  obtain rfl : out = true := hout
  cases stage with
  | idle => exact ⟨rfl, h.1.symm⟩
  | entered err => cases h.2.1
  | test err socket => cases h.2.1
  | call socket => cases h.2.1
  | replace => cases h.2
  | rearm => cases h.2.1

/-- **What a step of a handler does with the connection it carries**: it keeps it, passes it to
the callback, or drops it, which is when it finds `listener_open` cleared. -/
theorem handler_cases (started listenerOpen : Bool) (side side' : AcceptSide) (calls : List Sock)
    (hside : side.Ok started) (h : side.handler listenerOpen = some (side', calls)) :
    side'.Ok started ∧
      ((calls = [] ∧ side'.carried = side.carried) ∨
        (∃ c, calls = [.connected c] ∧ side.carried = some c ∧ side'.carried = none) ∨
        (∃ c, side.stage = .test false (.connected c) ∧ listenerOpen = false ∧ calls = [] ∧
          side.carried = some c ∧ side'.carried = none)) := by
  obtain ⟨sock, out, stage⟩ := side
  cases stage with
  | idle => cases h
  | entered err =>
    obtain ⟨rfl, rfl⟩ := Prod.mk.inj (Option.some.inj h)
    exact ⟨hside, .inl ⟨rfl, by cases err <;> rfl⟩⟩
  | test err socket =>
    obtain ⟨hstarted, hout, hsock⟩ := hside
    simp only [AcceptSide.handler] at h
    split at h
    · next hdrop =>
      obtain ⟨rfl, rfl⟩ := Prod.mk.inj (Option.some.inj h)
      refine ⟨⟨hstarted, hout⟩, ?_⟩
      cases err with
      | true => exact .inl ⟨rfl, rfl⟩
      | false =>
        obtain ⟨c, rfl⟩ := hsock rfl
        exact .inr (.inr ⟨c, rfl, by simpa using hdrop, rfl, rfl, rfl⟩)
    · next hkeep =>
      obtain ⟨rfl, rfl⟩ := Prod.mk.inj (Option.some.inj h)
      have herr : err = false := by
        cases err with
        | false => rfl
        | true => exact absurd (.inr rfl) hkeep
      subst herr
      exact ⟨⟨hstarted, hout, hsock rfl⟩, .inl ⟨rfl, rfl⟩⟩
  | call socket =>
    obtain ⟨hstarted, hout, c, rfl⟩ := hside
    obtain ⟨rfl, rfl⟩ := Prod.mk.inj (Option.some.inj h)
    exact ⟨⟨hstarted, hout⟩, .inr (.inl ⟨c, rfl, rfl, rfl⟩)⟩
  | replace =>
    obtain ⟨rfl, rfl⟩ := Prod.mk.inj (Option.some.inj h)
    exact ⟨⟨hside.1, hside.2, rfl⟩, .inl ⟨rfl, rfl⟩⟩
  | rearm =>
    obtain ⟨hstarted, -, hsock⟩ := hside
    obtain ⟨rfl, rfl⟩ := Prod.mk.inj (Option.some.inj h)
    exact ⟨⟨hstarted.symm, hsock⟩, .inl ⟨rfl, rfl⟩⟩

/-! ## one acceptor at a time -/

theorem setSide_ok (s : Listener) (f : Family) (side : AcceptSide) (started : Family → Bool)
    (hside : side.Ok (started f)) (hrest : ∀ g, g ≠ f → (s.sides g).Ok (started g)) (g : Family) :
    ((s.setSide f side).sides g).Ok (started g) := by
  show (Function.update s.sides f side g).Ok (started g)
  by_cases hg : g = f
  · rw [hg, Function.update_self]
    exact hside
  · rw [Function.update_of_ne hg]
    exact hrest g hg

theorem AcceptSide.Ok.start {side : AcceptSide} (h : side.Ok false) :
    side.asyncAccept.Ok true := by
  obtain ⟨sock, out, stage⟩ := side
  cases stage with
  | idle => exact ⟨rfl, h.2⟩
  | entered err => cases h.1
  | test err socket => cases h.1
  | call socket => cases h.1
  | replace => cases h.1
  | rearm => cases h.1

/-- a step of a handler -/
theorem listenerStep_handle (f : Family) (s t : Listener)
    (hs : listenerStep s (.handle f) = some t) :
    ∃ side calls, (s.sides f).handler s.listenerOpen = some (side, calls) ∧
      t = { s.setSide f side with handed := s.handed ++ calls } := by
  simp only [listenerStep] at hs
  split at hs
  · cases hs
  · next side calls hstep => exact ⟨side, calls, hstep, (Option.some.inj hs).symm⟩

/-- what the step with a label does to the two acceptors -/
inductive SidesMove (s t : Listener) : ListenerLabel → Prop where
  /-- the constructor starts the accept of `f` -/
  | start (f : Family) (hbefore : s.construct.started f = false)
      (hafter : t.construct.started f = true)
      (hrest : ∀ g, g ≠ f → t.construct.started g = s.construct.started g)
      (hsides : t.sides = (s.setSide f (s.sides f).asyncAccept).sides) : SidesMove s t .construct
  /-- the constructor sets the flag -/
  | setOpen (hstarted : ∀ g, t.construct.started g = s.construct.started g)
      (hsides : t.sides = s.sides) : SidesMove s t .construct
  | close (k : Nat) (hconstruct : t.construct = s.construct) (hsides : t.sides = s.sides) :
      SidesMove s t (.close k)
  /-- an accept completes -/
  | complete (f : Family) (c : Option AcceptNo) (l : ListenerLabel)
      (hl : l = .accept f ∨ l = .fail f) (hout : (s.sides f).outstanding = true)
      (hconstruct : t.construct = s.construct)
      (hsides : t.sides = (s.setSide f ((s.sides f).complete c)).sides) : SidesMove s t l
  | handle (f : Family) (side : AcceptSide) (calls : List Sock)
      (hstep : (s.sides f).handler s.listenerOpen = some (side, calls))
      (hconstruct : t.construct = s.construct) (hsides : t.sides = (s.setSide f side).sides) :
      SidesMove s t (.handle f)

theorem constructStep_moves (s t : Listener) (hs : s.constructStep = some t) :
    SidesMove s t .construct := by
  rw [Listener.constructStep] at hs
  split at hs
  · next hc =>
    obtain rfl := Option.some.inj hs
    refine .start .v4 (by rw [hc]; rfl) rfl (fun g hg => ?_) rfl
    cases g with
    | v4 => exact absurd rfl hg
    | v6 => rw [hc]; rfl
  · next hc =>
    obtain rfl := Option.some.inj hs
    refine .start .v6 (by rw [hc]; rfl) rfl (fun g hg => ?_) rfl
    cases g with
    | v4 => rw [hc]; rfl
    | v6 => exact absurd rfl hg
  · next hc =>
    obtain rfl := Option.some.inj hs
    exact .setOpen (fun g => by rw [hc]; rfl) rfl
  · cases hs

theorem closeStep_moves (k : Nat) (s t : Listener) (hs : s.closeStep k = some t) :
    SidesMove s t (.close k) := by
  simp only [Listener.closeStep] at hs
  split at hs
  · obtain ⟨-, rfl⟩ := of_guard hs
    exact .close k rfl rfl
  all_goals
    obtain rfl := Option.some.inj hs
    exact .close k rfl rfl

/-- **What a step does to the acceptors.** -/
theorem listenerStep_moves (s : Listener) (l : ListenerLabel) (t : Listener)
    (hs : listenerStep s l = some t) : SidesMove s t l := by
  cases l with
  | construct => exact constructStep_moves s t hs
  | close k => exact closeStep_moves k s t hs
  | accept f =>
    obtain ⟨⟨hout, -, -⟩, rfl⟩ := of_guard hs
    exact .complete f (some s.next) _ (.inl rfl) hout rfl rfl
  | fail f =>
    obtain ⟨hout, rfl⟩ := of_guard hs
    exact .complete f none _ (.inr rfl) hout rfl rfl
  | handle f =>
    obtain ⟨side, calls, hstep, rfl⟩ := listenerStep_handle f s t hs
    exact .handle f side calls hstep rfl rfl

/-- what holds of both acceptors -/
def Listener.SidesOk (s : Listener) : Prop := ∀ f, (s.sides f).Ok (s.construct.started f)

theorem sidesOk_init (prior : Bool) : (Listener.init prior).SidesOk := fun _ => ⟨rfl, rfl⟩

theorem sidesOk_step (s : Listener) (l : ListenerLabel) (t : Listener) (h : s.SidesOk)
    (hs : listenerStep s l = some t) : t.SidesOk := by
  intro g
  cases listenerStep_moves s l t hs with
  | start f hbefore hafter hrest hsides =>
    have hside := h f
    rw [hbefore] at hside
    rw [hsides]
    refine setSide_ok s f _ _ (by rw [hafter]; exact hside.start) (fun g hg => ?_) g
    rw [hrest g hg]
    exact h g
  | setOpen hstarted hsides =>
    rw [hstarted, hsides]
    exact h g
  | close k hconstruct hsides =>
    rw [hconstruct, hsides]
    exact h g
  | complete f c l hl hout hconstruct hsides =>
    have hstarted := ((h f).idle hout).2
    rw [hconstruct, hsides]
    refine setSide_ok s f _ _ ?_ (fun g _ => h g) g
    cases c with
    | some c => exact ⟨hstarted, rfl, fun _ => ⟨c, rfl⟩⟩
    | none => exact ⟨hstarted, rfl, fun herr => by cases herr⟩
  | handle f side calls hstep hconstruct hsides =>
    rw [hconstruct, hsides]
    exact setSide_ok s f side _ (handler_cases _ _ _ _ _ (h f) hstep).1 (fun g _ => h g) g

/-! ## a handler comes to its end -/

/-- steps that a handler has left -/
def AcceptStage.left : AcceptStage → Nat
  | .idle => 0
  | .rearm => 1
  | .replace => 2
  | .call _ => 3
  | .test _ _ => 4
  | .entered _ => 5

theorem handler_left (listenerOpen : Bool) (side : AcceptSide) (h : side.stage ≠ .idle) :
    ∃ side' calls, side.handler listenerOpen = some (side', calls) ∧
      side'.stage.left < side.stage.left := by
  obtain ⟨sock, out, stage⟩ := side
  cases stage with
  | idle => exact absurd rfl h
  | entered err => exact ⟨_, _, rfl, Nat.lt_succ_self 4⟩
  | test err socket =>
    by_cases hdrop : !listenerOpen ∨ err
    · exact ⟨_, _, if_pos hdrop, by simp [AcceptStage.left]⟩
    · exact ⟨_, _, if_neg hdrop, Nat.lt_succ_self 3⟩
  | call socket => exact ⟨_, _, rfl, Nat.lt_succ_self 2⟩
  | replace => exact ⟨_, _, rfl, Nat.lt_succ_self 1⟩
  | rearm => exact ⟨_, _, rfl, Nat.lt_succ_self 0⟩

/-- **A handler that goes on returns**, whatever it finds. -/
theorem handler_returns (f : Family) (s : Listener) :
    ∃ n t, exec listenerStep s (List.replicate n (.handle f)) = some t ∧
      (t.sides f).stage = .idle := by
  -- on the steps that the handler has left
  induction hn : (s.sides f).stage.left using Nat.strongRecOn generalizing s with
  | _ n ih =>
    by_cases hidle : (s.sides f).stage = .idle
    · exact ⟨0, s, rfl, hidle⟩
    · obtain ⟨side, calls, hstep, hlt⟩ := handler_left s.listenerOpen (s.sides f) hidle
      let u : Listener := { s.setSide f side with handed := s.handed ++ calls }
      have hu : listenerStep s (.handle f) = some u := by simp only [listenerStep, hstep, u]
      have hside : u.sides f = side := Function.update_self ..
      obtain ⟨m, t, ht, hdone⟩ := ih side.stage.left (hn ▸ hlt) u (by rw [hside])
      refine ⟨m + 1, t, ?_, hdone⟩
      rw [List.replicate_succ, exec, hu]
      exact ht

end VoltNet
