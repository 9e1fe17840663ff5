import VoltNet.Network.Buffers
import VoltNet.Framing.Streams

/-!
# Received messages in pooled buffers

Elsewhere a message is its contents.  Here `recv_msg` is a handle of `msg_pool`: `handle_read`
pushes bytes into its buffer, moves it into the callback and gets the next one, while other threads
get, write, copy and drop messages of their own, and buffers of dropped messages come back and are
handed out again.

* `Role`              who may change a message: a `msg_reader` does not, and `recv_msg` is private;
* `PooledCon`         `recv_msg` and `next_is_escape` of one connection;
* `takeByte`          the body of the decoding loop over buffers;
* `pooledStep`        the steps of any connections and of everything else that has messages;
* `contents_kept`     the steps of the pool leave alone what a handle shows, but for writing;
* `PooledInv`         the invariant;
* `pooled_refines`    what the callbacks get is what the connection with messages as contents
                      delivers, and the handles show it to their end.
-/

namespace VoltNet
open Runs RefCount Stuffing

/-- who may change what a call of `get_message` returned -/
inductive Role where
  /-- its caller, in a `msg_writer` -/
  | writer
  /-- a connection, as its `recv_msg` -/
  | receiving (i : Nat)
  /-- nobody: it was passed to `new_msg_callback` with these contents -/
  | received (contents : Option Message)
deriving DecidableEq

/-- the part of a `net_con` that holds a message -/
structure PooledCon where
  alive : Bool
  /-- `none` while the callback has it -/
  recvMsg : Option Handle
  nextIsEscape : Bool
  /-- bytes that `get_next_byte` gave the loop -/
  taken : List NetWord
  /-- arguments of `new_msg_callback`, with their contents at the call -/
  handed : List (Handle × Option Message)

structure PooledState where
  pool : MsgPool
  cons : Nat → PooledCon
  /-- connections constructed -/
  made : Nat
  roles : GetNo → Role

def PooledState.init : PooledState :=
  ⟨MsgPool.init, fun _ => ⟨false, none, false, [], []⟩, 0, fun _ => .writer⟩

/-- `push_back` -/
def MsgPool.pushBack (buf : Buf) (v : NetWord) (s : MsgPool) : MsgPool :=
  match s.mem buf with
  | none => { s with fault := true }
  | some contents => s.store buf (contents ++ [v])

/-- a handle that no connection has as its `recv_msg` -/
def PooledState.outside (s : PooledState) (h : Handle) : Bool :=
  match s.roles h.call with
  | .receiving _ => false
  | _ => true

/-- handles of different calls of `get_message` have different buffers -/
theorem BufferInv.apart {s : MsgPool} (h : BufferInv s) {k k' : Handle} (hk : k ∈ s.handles)
    (hk' : k' ∈ s.handles) (hne : k.call ≠ k'.call) : k.ptr.buf ≠ k'.ptr.buf := by
  intro he
  obtain ⟨d, hd⟩ := h.exclusive.refs.handle_owns k hk
  obtain ⟨d', hd'⟩ := h.exclusive.refs.handle_owns k' hk'
  exact hne (h.exclusive.refs.calls k hk k' hk' (h.exclusive.bufs.inj _ _ _ _ hd hd' he))

theorem BufferInv.store {s : MsgPool} (h : BufferInv s) {k : Handle} (hk : k ∈ s.handles)
    (m : Message) :
    BufferInv (s.store k.ptr.buf m) ∧
      s.store k.ptr.buf m = { s with mem := Function.update s.mem k.ptr.buf (some m) } := by
  obtain ⟨-, heq⟩ := h.exclusive.store k.ptr.buf m (.inr ⟨k, hk, rfl⟩)
  refine ⟨bufferInv_write k m s _ h ?_, heq⟩
  rw [msgPoolStep, if_pos hk]

/-- the receiver of the frame format after the bytes taken -/
def PooledCon.decoded (c : PooledCon) : St NetWord := run codes ⟨[], false⟩ c.taken

end VoltNet
