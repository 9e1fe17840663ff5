import VoltNet.Framing.Encode
import VoltNet.Lib.RefCount
import VoltNet.Lib.Runs

/-!
# `msg_pool`: message buffers and who holds them

`get_message` hands out a buffer of the pool, or a new one whose deleter is `return_message`;
`return_message` wraps the buffer in a new control block with the default deleter.  A
`message_ptr` is a reference to a control block, with the address of the buffer.  A step is a
locked section, or something that one handle does; between the end of the last handle and the
locked section of `return_message` other threads run.

* `MsgPool`         buffers, control blocks, the pool, and the handles outside;
* `getMessage`, `returnMessage`   the two functions of `msg_pool.cpp`;
* `msgPoolStep`     the steps of any number of threads;
* `returnMessage_cases`, `returning_step`, `msgVec_step`
                    what they do to the pool and to the buffers on their way to it.

Whatever holds a message is a handle here: `recv_msg`, which `handle_read` moves into the callback
before it gets the next message and resizes it; the copy that `send_msg` binds to its completion;
the member of a `msg_writer` or a `msg_reader`, copied from an argument or got by the constructor;
the items of `rec_msg_vec`.
-/

namespace VoltNet
open Runs

/-- a `std::vector<net_word>` on the heap, by the order of their allocation -/
abbrev Buf := Nat

/-- a call of `get_message` -/
abbrev GetNo := Nat

def maxMessages : Nat := 50

/-- what a control block does with its buffer when its last `message_ptr` is gone -/
inductive Deleter where
  /-- the lambda of `get_message` -/
  | returnMessage
  /-- `delete` -/
  | default
deriving DecidableEq

/-- what a control block owns -/
structure Managed where
  buf : Buf
  deleter : Deleter
deriving DecidableEq

structure MessagePtr where
  block : Nat
  buf : Buf
deriving DecidableEq

/-- a `message_ptr` outside the pool, with the call of `get_message` that it comes from -/
structure Handle where
  call : GetNo
  ptr : MessagePtr
deriving DecidableEq

structure MsgPool where
  heap : RefCount.Heap Managed
  /-- the contents of buffers, `none` for one that is not allocated, or not any more -/
  mem : Buf → Option Message
  nextBuf : Buf
  msgVec : List MessagePtr
  /-- buffers whose `return_message` has been called and waits for the lock -/
  returning : List Buf
  handles : List Handle
  gets : GetNo
  /-- the contents of the buffers that `get_message` has returned -/
  got : List (Option Message)
  /-- arguments of the calls of `return_message` that got the lock -/
  returned : List Buf
  deleted : List Buf
  /-- something used a buffer, or a control block, that was not there -/
  fault : Bool

def MsgPool.init : MsgPool where
  heap := RefCount.Heap.empty
  mem := fun _ => none
  nextBuf := 0
  msgVec := []
  returning := []
  handles := []
  gets := 0
  got := []
  returned := []
  deleted := []
  fault := false

/-- `get_message` returns `msg` -/
def MsgPool.handOut (msg : MessagePtr) (s : MsgPool) : MsgPool :=
  { s with
    handles := ⟨s.gets, msg⟩ :: s.handles
    gets := s.gets + 1
    got := s.got ++ [s.mem msg.buf] }

/-- `new`, and a control block with the deleter of `get_message` -/
def MsgPool.allocate (s : MsgPool) : MsgPool :=
  { s with
    heap := s.heap.make ⟨s.nextBuf, .returnMessage⟩
    mem := Function.update s.mem s.nextBuf (some [])
    nextBuf := s.nextBuf + 1 }

def MsgPool.getMessage (s : MsgPool) : MsgPool :=
  match s.msgVec.getLast? with
  | some msg => MsgPool.handOut msg { s with msgVec := s.msgVec.dropLast }
  | none => MsgPool.handOut ⟨s.heap.next, s.nextBuf⟩ s.allocate

/-- the contents of a buffer are replaced, by `resize` or through a handle -/
def MsgPool.store (buf : Buf) (contents : Message) (s : MsgPool) : MsgPool :=
  match s.mem buf with
  | none => { s with fault := true }
  | some _ => { s with mem := Function.update s.mem buf (some contents) }

def MsgPool.delete (buf : Buf) (s : MsgPool) : MsgPool :=
  match s.mem buf with
  | none => { s with fault := true }
  | some _ =>
    { s with mem := Function.update s.mem buf none, deleted := s.deleted ++ [buf] }

/-- the buffer in a control block of its own, with the default deleter, at the end of the pool -/
def MsgPool.push (buf : Buf) (s : MsgPool) : MsgPool :=
  { s with
    heap := s.heap.make ⟨buf, .default⟩
    msgVec := s.msgVec ++ [⟨s.heap.next, buf⟩] }

/-- the locked section of `return_message` -/
def MsgPool.returnMessage (buf : Buf) (s : MsgPool) : MsgPool :=
  let s := { s with returning := s.returning.erase buf, returned := s.returned ++ [buf] }
  if s.msgVec.length ≤ maxMessages then (s.store buf []).push buf else s.delete buf

/-- the deleter of a control block runs -/
def MsgPool.release (x : Managed) (s : MsgPool) : MsgPool :=
  match x.deleter with
  | .returnMessage => { s with returning := x.buf :: s.returning }
  | .default => s.delete x.buf

/-- a handle goes out of scope -/
def MsgPool.dropHandle (h : Handle) (s : MsgPool) : MsgPool :=
  match s.heap.drop h.ptr.block with
  | none => { s with fault := true }
  | some (heap, none) => { s with heap := heap, handles := s.handles.erase h }
  | some (heap, some x) =>
    MsgPool.release x { s with heap := heap, handles := s.handles.erase h }

/-- a handle is copied -/
def MsgPool.copyHandle (h : Handle) (s : MsgPool) : MsgPool :=
  match s.heap.copy h.ptr.block with
  | none => { s with fault := true }
  | some heap => { s with heap := heap, handles := h :: s.handles }

inductive MsgPoolLabel where
  | get
  /-- anything that changes the contents of the buffer of a handle -/
  | write (h : Handle) (contents : Message)
  | copy (h : Handle)
  | drop (h : Handle)
  /-- a call of `return_message` gets the lock -/
  | returnMessage (buf : Buf)

def msgPoolStep (s : MsgPool) : MsgPoolLabel → Option MsgPool
  | .get => some s.getMessage
  | .write h contents => if h ∈ s.handles then some (s.store h.ptr.buf contents) else none
  | .copy h => if h ∈ s.handles then some (s.copyHandle h) else none
  | .drop h => if h ∈ s.handles then some (s.dropHandle h) else none
  | .returnMessage buf => if buf ∈ s.returning then some (s.returnMessage buf) else none

/-! ## what a step does to the pool -/

section
variable (s : MsgPool) (buf : Buf) (contents : Message)

/-- `store` changes contents only -/
theorem store_frame :
    (s.store buf contents).msgVec = s.msgVec ∧ (s.store buf contents).returning = s.returning ∧
      (s.store buf contents).heap = s.heap ∧ (s.store buf contents).returned = s.returned ∧
      (s.store buf contents).deleted = s.deleted := by
  unfold MsgPool.store
  split
  · exact ⟨rfl, rfl, rfl, rfl, rfl⟩
  · exact ⟨rfl, rfl, rfl, rfl, rfl⟩

theorem delete_frame :
    (s.delete buf).msgVec = s.msgVec ∧ (s.delete buf).returning = s.returning ∧
      (s.delete buf).heap = s.heap ∧ (s.delete buf).returned = s.returned := by
  unfold MsgPool.delete
  split
  · exact ⟨rfl, rfl, rfl, rfl⟩
  · exact ⟨rfl, rfl, rfl, rfl⟩

theorem release_frame (x : Managed) :
    (MsgPool.release x s).msgVec = s.msgVec ∧ (MsgPool.release x s).heap = s.heap ∧
      (MsgPool.release x s).returned = s.returned ∧
      ∀ b, b ∈ s.returning → b ∈ (MsgPool.release x s).returning := by
  obtain ⟨c, deleter⟩ := x
  cases deleter with
  | returnMessage => exact ⟨rfl, rfl, rfl, fun b hb => List.mem_cons_of_mem c hb⟩
  | default =>
    obtain ⟨hvec, hreturning, hheap, hreturned⟩ := delete_frame s c
    exact ⟨hvec, hheap, hreturned, fun b hb => by rw [MsgPool.release, hreturning]; exact hb⟩

theorem getMessage_frame :
    s.getMessage.msgVec = s.msgVec.dropLast ∧ s.getMessage.returning = s.returning ∧
      s.getMessage.returned = s.returned := by
  unfold MsgPool.getMessage
  split
  · exact ⟨rfl, rfl, rfl⟩
  · next hnone =>
    have hnil := List.getLast?_eq_none_iff.mp hnone
    refine ⟨?_, rfl, rfl⟩
    show s.msgVec = s.msgVec.dropLast
    rw [hnil]
    rfl

theorem dropHandle_frame (h : Handle) :
    (s.dropHandle h).msgVec = s.msgVec ∧ (s.dropHandle h).returned = s.returned ∧
      ∀ b, b ∈ s.returning → b ∈ (s.dropHandle h).returning := by
  unfold MsgPool.dropHandle
  split
  · exact ⟨rfl, rfl, fun _ hb => hb⟩
  · exact ⟨rfl, rfl, fun _ hb => hb⟩
  · next heap x hdrop =>
    obtain ⟨hvec, -, hreturned, hreturning⟩ :=
      release_frame { s with heap := heap, handles := s.handles.erase h } x
    exact ⟨hvec, hreturned, hreturning⟩

theorem copyHandle_frame (h : Handle) :
    (s.copyHandle h).msgVec = s.msgVec ∧ (s.copyHandle h).returning = s.returning ∧
      (s.copyHandle h).returned = s.returned := by
  unfold MsgPool.copyHandle
  split
  · exact ⟨rfl, rfl, rfl⟩
  · exact ⟨rfl, rfl, rfl⟩

end

/-- a call of `return_message` has got the lock -/
def MsgPool.taken (buf : Buf) (s : MsgPool) : MsgPool :=
  { s with returning := s.returning.erase buf, returned := s.returned ++ [buf] }

theorem returnMessage_eq (s : MsgPool) (buf : Buf) :
    s.returnMessage buf
      = if s.msgVec.length ≤ maxMessages then ((s.taken buf).store buf []).push buf
        else (s.taken buf).delete buf := rfl

/-- **The locked section of `return_message`**: the buffer goes to the end of the pool, or it is
deleted. -/
theorem returnMessage_cases (s : MsgPool) (buf : Buf) :
    (s.msgVec.length ≤ maxMessages ∧
        (s.returnMessage buf).msgVec = s.msgVec ++ [⟨s.heap.next, buf⟩]) ∨
      (maxMessages < s.msgVec.length ∧ (s.returnMessage buf).msgVec = s.msgVec) := by
  rw [returnMessage_eq]
  split
  · next hroom =>
    obtain ⟨hvec, -, hheap, -⟩ := store_frame (s.taken buf) buf []
    refine .inl ⟨hroom, ?_⟩
    rw [MsgPool.push, hvec, hheap]
    rfl
  · next hfull => exact .inr ⟨Nat.lt_of_not_le hfull, (delete_frame (s.taken buf) buf).1⟩

theorem returnMessage_frame (s : MsgPool) (buf : Buf) :
    (s.returnMessage buf).returning = s.returning.erase buf ∧
      (s.returnMessage buf).returned = s.returned ++ [buf] := by
  rw [returnMessage_eq]
  split
  · obtain ⟨-, hreturning, -, hreturned, -⟩ := store_frame (s.taken buf) buf []
    exact ⟨hreturning, hreturned⟩
  · obtain ⟨-, hreturning, -, hreturned⟩ := delete_frame (s.taken buf) buf
    exact ⟨hreturning, hreturned⟩

/-- a buffer waits for the lock until its own call gets it -/
theorem returning_step (s : MsgPool) (l : MsgPoolLabel) (t : MsgPool) (b : Buf)
    (hb : b ∈ s.returning) (hl : l ≠ .returnMessage b) (hs : msgPoolStep s l = some t) :
    b ∈ t.returning := by
  cases l with
  | get =>
    obtain rfl := Option.some.inj hs
    rw [(getMessage_frame s).2.1]
    exact hb
  | write h contents =>
    obtain ⟨-, rfl⟩ := of_guard hs
    rw [(store_frame s h.ptr.buf contents).2.1]
    exact hb
  | copy h =>
    obtain ⟨-, rfl⟩ := of_guard hs
    rw [(copyHandle_frame s h).2.1]
    exact hb
  | drop h =>
    obtain ⟨-, rfl⟩ := of_guard hs
    exact (dropHandle_frame s h).2.2 b hb
  | returnMessage c =>
    obtain ⟨-, rfl⟩ := of_guard hs
    have hne : b ≠ c := by
      rintro rfl
      exact hl rfl
    rw [(returnMessage_frame s c).1]
    exact (List.mem_erase_of_ne hne).mpr hb

/-- the pool grows in the locked section of `return_message` only -/
theorem msgVec_step (s : MsgPool) (l : MsgPoolLabel) (t : MsgPool)
    (hs : msgPoolStep s l = some t) :
    (t.msgVec <+: s.msgVec ∧ t.returned = s.returned) ∨
      ∃ b, l = .returnMessage b ∧ t = s.returnMessage b := by
  cases l with
  | get =>
    obtain rfl := Option.some.inj hs
    obtain ⟨hvec, -, hreturned⟩ := getMessage_frame s
    rw [hvec, hreturned]
    exact .inl ⟨List.dropLast_prefix _, rfl⟩
  | write h contents =>
    obtain ⟨-, rfl⟩ := of_guard hs
    obtain ⟨hvec, -, -, hreturned, -⟩ := store_frame s h.ptr.buf contents
    rw [hvec, hreturned]
    exact .inl ⟨List.prefix_refl _, rfl⟩
  | copy h =>
    obtain ⟨-, rfl⟩ := of_guard hs
    obtain ⟨hvec, -, hreturned⟩ := copyHandle_frame s h
    rw [hvec, hreturned]
    exact .inl ⟨List.prefix_refl _, rfl⟩
  | drop h =>
    obtain ⟨-, rfl⟩ := of_guard hs
    obtain ⟨hvec, hreturned, -⟩ := dropHandle_frame s h
    rw [hvec, hreturned]
    exact .inl ⟨List.prefix_refl _, rfl⟩
  | returnMessage b =>
    obtain ⟨-, rfl⟩ := of_guard hs
    exact .inr ⟨b, rfl, rfl⟩

end VoltNet
