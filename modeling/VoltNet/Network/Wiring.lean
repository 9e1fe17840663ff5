import VoltNet.Network.Lifetime

/-!
# A connection that closes while it is being added

`add_connection` runs under the lock of its caller.  Its first step starts the first read, and
only its second one installs the closed callback; the handler of the read runs on another thread
and needs the lock for the bodies of the two callbacks only.

* `WiringState.step`       the steps of `add_connection`, of `handle_read` and of `close_con`;
* `WiringKept`             the invariant;
* `closed_reaches_iff`     `close_con` calls no empty callback exactly when it gets as far as its
                           call after `set_closed_callback`, and then the callback is reached;
* `closed_early`           a first read that fails at once.
-/

namespace VoltNet
open Runs

/-- how far `add_connection` is -/
inductive WiringStage where
  | entered
  /-- `set_new_msg_callback` has returned -/
  | reading
  /-- `set_closed_callback` has returned -/
  | wired
  /-- the connection is in the vector -/
  | stored
  /-- the caller has released the lock -/
  | released
deriving DecidableEq

/-- `set_closed_callback` has been called -/
def WiringStage.wiredUp : WiringStage → Bool
  | .entered | .reading => false
  | .wired | .stored | .released => true

/-- the call of `close_con` that closes the connection; how two calls share its guard is the
subject of `closeStep` -/
inductive Closer where
  | absent
  /-- behind the guard: `con_open` is cleared, the socket is being closed -/
  | closing
  /-- in the installed callback, which waits for the lock -/
  | waiting
  /-- the installed callback has the lock -/
  | reached
  /-- `std::bad_function_call`: the callback was empty -/
  | badCall
deriving DecidableEq

structure WiringState where
  stage : WiringStage
  conOpen : Bool
  read : ReadState
  conClosedCallback : Bool
  closer : Closer
deriving DecidableEq

def WiringState.init : WiringState := ⟨.entered, true, .idle, false, .absent⟩

inductive WiringLabel where
  | setNewMsgCallback
  | setClosedCallback
  | pushBack
  | release
  | readSucceeds
  /-- the message callback gets the lock; what it leads to may call `close_con` -/
  | message (closes : Bool)
  | handled
  | readFails (eof : Bool)
  /-- `close_con` by user code, which finds the connection under the lock -/
  | userClose
  /-- `close_con` gets to its callback -/
  | invoke
  | enter

/-- `close_con` up to the call of the callback -/
def WiringState.closeCon (s : WiringState) : WiringState :=
  if !s.conOpen then s else { s with conOpen := false, closer := .closing }

def WiringState.step (s : WiringState) : WiringLabel → Option WiringState
  | .setNewMsgCallback =>
    if s.stage = .entered then some { s with stage := .reading, read := .outstanding } else none
  | .setClosedCallback =>
    if s.stage = .reading then some { s with stage := .wired, conClosedCallback := true } else none
  | .pushBack => if s.stage = .wired then some { s with stage := .stored } else none
  | .release => if s.stage = .stored then some { s with stage := .released } else none
  | .readSucceeds => if s.read = .outstanding then some { s with read := .handling } else none
  | .message closes =>
    -- the lock is free once `add_connection` and its caller are done
    if s.read = .handling ∧ s.conOpen = true ∧ s.stage = .released then
      some (if closes then s.closeCon else s)
    else none
  | .handled =>
    if s.read = .handling then
      some { s with read := if s.conOpen then .outstanding else .idle }
    else none
  | .readFails _ =>
    if s.read = .outstanding then some { s.closeCon with read := .idle } else none
  | .userClose => if s.stage = .released then some s.closeCon else none
  | .invoke =>
    if s.closer = .closing then
      some { s with closer := if s.conClosedCallback then .waiting else .badCall }
    else none
  | .enter =>
    if s.closer = .waiting ∧ s.stage = .released then some { s with closer := .reached } else none

/-- an exception that leaves a handler ends the process -/
def wiringStep (s : WiringState) (l : WiringLabel) : Option WiringState :=
  if s.closer = .badCall then none else s.step l

/-- `close_con` gets to its callback after `set_closed_callback` -/
def Wired (s : WiringState) : WiringLabel → Prop
  | .invoke => s.stage.wiredUp = true
  | _ => True

structure WiringKept (s : WiringState) : Prop where
  installed : s.conClosedCallback = s.stage.wiredUp
  closed : s.conOpen = false → s.closer ≠ .absent
  unfailed : s.closer ≠ .badCall

theorem wiringKept_init : WiringKept WiringState.init := ⟨rfl, nofun, nofun⟩

theorem wiringKept_closeCon (s : WiringState) (h : WiringKept s) : WiringKept s.closeCon := by
  unfold WiringState.closeCon
  split
  · exact h
  · exact ⟨h.installed, nofun, nofun⟩

theorem wiringKept_step (s t : WiringState) (l : WiringLabel) (h : WiringKept s) (hl : Wired s l)
    (hs : wiringStep s l = some t) : WiringKept t := by
  obtain ⟨-, hs⟩ := Option.ite_none_left_eq_some.mp hs
  obtain ⟨hinstalled, hclosed, hunfailed⟩ := h
  cases l with
  | setNewMsgCallback | pushBack | release =>
    obtain ⟨hstage, rfl⟩ := of_guard hs
    rw [hstage] at hinstalled
    exact ⟨hinstalled, hclosed, hunfailed⟩
  | setClosedCallback =>
    obtain ⟨-, rfl⟩ := of_guard hs
    exact ⟨rfl, hclosed, hunfailed⟩
  | readSucceeds | handled =>
    obtain ⟨-, rfl⟩ := of_guard hs
    exact ⟨hinstalled, hclosed, hunfailed⟩
  | message closes =>
    obtain ⟨-, rfl⟩ := of_guard hs
    cases closes with
    | true => exact wiringKept_closeCon s ⟨hinstalled, hclosed, hunfailed⟩
    | false => exact ⟨hinstalled, hclosed, hunfailed⟩
  | readFails eof =>
    obtain ⟨-, rfl⟩ := of_guard hs
    have hkept := wiringKept_closeCon s ⟨hinstalled, hclosed, hunfailed⟩
    exact ⟨hkept.installed, hkept.closed, hkept.unfailed⟩
  | userClose =>
    obtain ⟨-, rfl⟩ := of_guard hs
    exact wiringKept_closeCon s ⟨hinstalled, hclosed, hunfailed⟩
  | invoke =>
    obtain ⟨-, rfl⟩ := of_guard hs
    rw [if_pos (hinstalled.trans hl)]
    exact ⟨hinstalled, fun _ => nofun, nofun⟩
  | enter =>
    obtain ⟨-, rfl⟩ := of_guard hs
    exact ⟨hinstalled, fun _ => nofun, nofun⟩

theorem badCall_step (s t : WiringState) (l : WiringLabel) (h : WiringKept s) (hl : ¬ Wired s l)
    (hs : wiringStep s l = some t) : t.closer = .badCall := by
  obtain ⟨-, hs⟩ := Option.ite_none_left_eq_some.mp hs
  cases l with
  | invoke =>
    obtain ⟨-, rfl⟩ := of_guard hs
    apply if_neg
    intro hc
    exact hl (h.installed.symm.trans hc)
  | setNewMsgCallback | setClosedCallback | pushBack | release | readSucceeds | message | handled
  | readFails | userClose | enter => exact absurd trivial hl

/-- `add_connection` is over, and no call of `close_con` is on its way -/
def Settled (s : WiringState) : Prop :=
  s.stage = .released ∧ s.closer ≠ .closing ∧ s.closer ≠ .waiting

/-- **`close_con` calls no empty callback all along a run exactly when it gets to its call after
`set_closed_callback`.  Then a connection that has closed, whether during `add_connection` or
later, has reached the installed callback when nothing is on its way any more.** -/
theorem closed_reaches_iff (ls : List WiringLabel) (s : WiringState)
    (h : exec wiringStep WiringState.init ls = some s) :
    (Always wiringStep (fun t => t.closer ≠ .badCall) WiringState.init ls ↔
      Every wiringStep Wired WiringState.init ls) ∧
    (Every wiringStep Wired WiringState.init ls → Settled s → s.conOpen = false →
      s.closer = .reached) := by
  refine ⟨always_iff_every (fun t ht => ht.unfailed)
    (fun t l u ht hl hs => wiringKept_step t u l ht hl hs)
    (fun t l u ht hl hs hne => hne (badCall_step t u l ht hl hs)) wiringKept_init ls h,
    fun hevery hsettled hclosed => ?_⟩
  have hk : WiringKept s := (Reach.of_every hevery h).invariant wiringKept_init
    fun t l u ht hl hs => wiringKept_step t u l ht hl hs
  obtain ⟨-, hclosing, hwaiting⟩ := hsettled
  have hpresent := hk.closed hclosed
  have hunfailed := hk.unfailed
  cases hc : s.closer with
  | reached => rfl
  | absent => exact absurd hc hpresent
  | closing => exact absurd hc hclosing
  | waiting => exact absurd hc hwaiting
  | badCall => exact absurd hc hunfailed

/-- the read fails early, but `close_con` gets to its call late -/
theorem closed_reaches_iff_late :
    ∃ s, exec wiringStep WiringState.init
        [.setNewMsgCallback, .readFails true, .setClosedCallback, .invoke, .pushBack, .release,
          .enter] = some s ∧ s.conOpen = false ∧ s.closer = .reached := by
  have hrun : exec wiringStep WiringState.init
      [.setNewMsgCallback, .readFails true, .setClosedCallback, .invoke, .pushBack, .release,
        .enter] = some ⟨.released, false, .idle, true, .reached⟩ := by decide
  have hwired : Every wiringStep Wired WiringState.init
      [.setNewMsgCallback, .readFails true, .setClosedCallback, .invoke, .pushBack, .release,
        .enter] := by
    simp [Every, wiringStep, WiringState.step, Wired, WiringState.init, WiringState.closeCon,
      WiringStage.wiredUp]
  exact ⟨_, hrun, rfl, (closed_reaches_iff _ _ hrun).2 hwired ⟨rfl, nofun, nofun⟩ rfl⟩

/-- the peer disconnects between the first two steps of `add_connection` -/
theorem closed_early :
    ∃ s, Reach wiringStep (fun _ _ => True) WiringState.init s ∧ s.closer = .badCall :=
  ⟨_, Reach.of_exec [.setNewMsgCallback, .readFails true, .invoke] rfl, rfl⟩

end VoltNet
