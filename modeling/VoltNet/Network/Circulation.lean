import VoltNet.Network.Buffers

/-!
# Which buffers come back to the pool

The control block that `get_message` makes for a new buffer has `return_message` as its deleter;
the one that `return_message` makes for the pool has the default deleter.  So a buffer that was
handed out from the pool is deleted with its last handle, whatever room there is.

* `PutBack`            a buffer whose last handle is dropped while there is room comes to the pool;
* `FirstLife`          it has not been in the pool before;
* `getMessage_reused`  which buffers have;
* `drop_last`          what the last handle of a message leaves behind;
* `circulates_iff`     the buffers of a run come back exactly when they are in their first life.
-/

namespace VoltNet
open Runs RefCount

/-- `h` is the last handle of its message -/
def MsgPool.LastHandle (h : Handle) (s : MsgPool) : Prop :=
  ∀ k, k ∈ s.handles.erase h → k.ptr.block ≠ h.ptr.block

/-- the buffers of the pool -/
def MsgPool.pooled (s : MsgPool) : List Buf := s.msgVec.map MessagePtr.buf

/-- the last handle of a message is dropped while the pool holds fewer than `max_messages`: then
`return_message` is called with its buffer, and when it gets the lock and there still is room, the
buffer is in the pool -/
def PutBack (s : MsgPool) : MsgPoolLabel → MsgPool → List MsgPoolLabel → Prop
  | .drop h, t, ls => s.LastHandle h → s.msgVec.length < maxMessages →
      Awaits msgPoolStep (fun u => h.ptr.buf ∈ u.returning) (.returnMessage h.ptr.buf)
        (fun u v => u.msgVec.length < maxMessages → h.ptr.buf ∈ v.pooled) t ls
  | _, _, _ => True

/-- the last handle of a message is dropped while the pool holds fewer than `max_messages`: then
its buffer was new when `get_message` returned it, and not one that `return_message` had taken
back before -/
def FirstLife (s : MsgPool) : MsgPoolLabel → Prop
  | .drop h => s.LastHandle h → s.msgVec.length < maxMessages → h.ptr.buf ∉ s.returned
  | _ => True

/-! ## control blocks of the pool -/

/-- a buffer of the pool, or of a control block with the default deleter, was taken back -/
structure Circulating (s : MsgPool) : Prop where
  buffers : BufferInv s
  reused : ∀ i b, s.heap.owned i = some ⟨b, .default⟩ → b ∈ s.returned
  pooled : ∀ b, b ∈ s.pooled → b ∈ s.returned

theorem circulating_init : Circulating MsgPool.init where
  buffers := bufferInv_init
  reused _ _ h := by cases h
  pooled _ h := by cases h

/-- **`get_message` returns a buffer that was taken back before exactly when the pool has one.** -/
theorem getMessage_reused (s : MsgPool) (h : Circulating s) :
    ∃ msg, s.getMessage.handles = ⟨s.gets, msg⟩ :: s.handles ∧
      (msg.buf ∈ s.returned ↔ s.msgVec ≠ []) := by
  unfold MsgPool.getMessage
  split
  · next msg hlast =>
    have hmem := List.mem_of_getLast? hlast
    refine ⟨msg, rfl, fun _ => List.ne_nil_of_mem hmem, fun _ => ?_⟩
    exact h.pooled _ (List.mem_map.mpr ⟨msg, hmem, rfl⟩)
  · next hnone =>
    refine ⟨⟨s.heap.next, s.nextBuf⟩, rfl, fun hin => ?_, fun hne => ?_⟩
    · exact absurd (h.buffers.once.lt _ hin) (Nat.lt_irrefl _)
    · exact absurd (List.getLast?_eq_none_iff.mp hnone) hne

theorem reused_get (s : MsgPool) (h : Circulating s) (i : Nat) (b : Buf)
    (hi : s.getMessage.heap.owned i = some ⟨b, .default⟩) : b ∈ s.getMessage.returned := by
  rw [(getMessage_frame s).2.2]
  unfold MsgPool.getMessage at hi
  split at hi
  · exact h.reused i b hi
  · rcases owned_gained (make_owned s.heap ⟨s.nextBuf, .returnMessage⟩) hi with ⟨-, hnew⟩ | ⟨-, hi⟩
    · cases hnew
    · exact h.reused i b hi

theorem reused_copy (k : Handle) (s : MsgPool) (h : Circulating s) (hk : k ∈ s.handles) (i : Nat)
    (b : Buf) (hi : (s.copyHandle k).heap.owned i = some ⟨b, .default⟩) :
    b ∈ (s.copyHandle k).returned := by
  obtain ⟨heap, hcopy, -, howned⟩ :=
    copy_some s.heap k.ptr.block (h.buffers.exclusive.refs.handle_mem hk)
  simp only [MsgPool.copyHandle, hcopy] at hi ⊢
  exact h.reused i b ((howned i).symm.trans hi)

theorem reused_drop (k : Handle) (s : MsgPool) (h : Circulating s) (hk : k ∈ s.handles) (i : Nat)
    (b : Buf) (hi : (s.dropHandle k).heap.owned i = some ⟨b, .default⟩) :
    b ∈ (s.dropHandle k).returned := by
  obtain ⟨heap, o, hdrop, -, hcases⟩ :=
    drop_cases s.heap k.ptr.block (h.buffers.exclusive.refs.handle_mem hk)
  rw [(dropHandle_frame s k).2.1]
  rcases hcases with ⟨x, rfl, -, -, howned⟩ | ⟨rfl, -, howned⟩
  · simp only [MsgPool.dropHandle, hdrop] at hi
    rw [(release_frame _ x).2.1] at hi
    exact h.reused i b (owned_lost howned hi).2
  · simp only [MsgPool.dropHandle, hdrop] at hi
    exact h.reused i b ((howned i).symm.trans hi)

theorem reused_return (c : Buf) (s : MsgPool) (h : Circulating s) (i : Nat) (b : Buf)
    (hi : (s.returnMessage c).heap.owned i = some ⟨b, .default⟩) :
    b ∈ (s.returnMessage c).returned := by
  have hold : ∀ j, s.heap.owned j = some ⟨b, .default⟩ → b ∈ s.returned ++ [c] := fun j hj =>
    List.mem_append_left _ (h.reused j b hj)
  rw [(returnMessage_frame s c).2]
  rw [returnMessage_eq] at hi
  split at hi
  · have hheap := (store_frame (s.taken c) c []).2.2.1
    rcases owned_gained (make_owned ((s.taken c).store c []).heap ⟨c, .default⟩) hi with
      ⟨-, hnew⟩ | ⟨-, hi⟩
    · rw [(Managed.mk.inj hnew).1]
      exact List.mem_append_right _ (List.mem_singleton.mpr rfl)
    · rw [hheap] at hi
      exact hold i hi
  · rw [(delete_frame (s.taken c) c).2.2.1] at hi
    exact hold i hi

theorem pooled_step (s : MsgPool) (l : MsgPoolLabel) (t : MsgPool) (h : Circulating s)
    (hs : msgPoolStep s l = some t) (b : Buf) (hb : b ∈ t.pooled) : b ∈ t.returned := by
  rcases msgVec_step s l t hs with ⟨hvec, hreturned⟩ | ⟨c, rfl, rfl⟩
  · rw [hreturned]
    exact h.pooled b ((hvec.map MessagePtr.buf).subset hb)
  · rw [(returnMessage_frame s c).2]
    rcases returnMessage_cases s c with ⟨-, hvec⟩ | ⟨-, hvec⟩
    · rw [MsgPool.pooled, hvec, List.map_append] at hb
      exact List.mem_append.mpr ((List.mem_append.mp hb).imp_left (h.pooled b))
    · rw [MsgPool.pooled, hvec] at hb
      exact List.mem_append_left _ (h.pooled b hb)

theorem circulating_step (s : MsgPool) (l : MsgPoolLabel) (t : MsgPool) (h : Circulating s)
    (hs : msgPoolStep s l = some t) : Circulating t := by
  refine ⟨bufferInv_step s l t h.buffers hs, fun i b hi => ?_, pooled_step s l t h hs⟩
  cases l with
  | get =>
    obtain rfl := Option.some.inj hs
    exact reused_get s h i b hi
  | write k contents =>
    obtain ⟨-, rfl⟩ := of_guard hs
    obtain ⟨-, -, hheap, hreturned, -⟩ := store_frame s k.ptr.buf contents
    rw [hreturned]
    rw [hheap] at hi
    exact h.reused i b hi
  | copy k =>
    obtain ⟨hk, rfl⟩ := of_guard hs
    exact reused_copy k s h hk i b hi
  | drop k =>
    obtain ⟨hk, rfl⟩ := of_guard hs
    exact reused_drop k s h hk i b hi
  | returnMessage c =>
    obtain ⟨-, rfl⟩ := of_guard hs
    exact reused_return c s h i b hi

/-! ## the last handle -/

/-- **The last handle of a message leaves its buffer to the deleter of its control block.** -/
theorem drop_last (s : MsgPool) (h : BufferInv s) (k : Handle) (hk : k ∈ s.handles)
    (hlast : s.LastHandle k) :
    ∃ heap d, s.heap.owned k.ptr.block = some ⟨k.ptr.buf, d⟩ ∧
      s.dropHandle k
        = MsgPool.release ⟨k.ptr.buf, d⟩ { s with heap := heap, handles := s.handles.erase k } := by
  have hrefs := h.exclusive.refs
  obtain ⟨d, hd⟩ := hrefs.handle_owns k hk
  obtain ⟨heap, o, hdrop, hheap, hcases⟩ := drop_cases s.heap k.ptr.block (hrefs.handle_mem hk)
  rcases hcases with ⟨x, rfl, hx, -⟩ | ⟨rfl, hmore, howned⟩
  · rw [hd] at hx
    obtain rfl := Option.some.inj hx
    exact ⟨heap, d, hd, by simp only [MsgPool.dropHandle, hdrop]⟩
  · -- another reference is in the pool, or another handle
    have hafter := hrefs.drop k hk fun j _ => howned j
    rw [hheap, hafter.perm.mem_iff, List.mem_append, List.mem_map, List.mem_map] at hmore
    rcases hmore with ⟨k', hk', he⟩ | ⟨p, hp, he⟩
    · exact absurd he (hlast k' hk')
    · exact absurd he.symm (hrefs.pool_alone p hp k hk)

theorem drop_last_first (s : MsgPool) (h : Circulating s) (k : Handle) (hk : k ∈ s.handles)
    (hlast : s.LastHandle k) (hfirst : k.ptr.buf ∉ s.returned) :
    (s.dropHandle k).returning = k.ptr.buf :: s.returning := by
  obtain ⟨heap, d, hd, hdrop⟩ := drop_last s h.buffers k hk hlast
  cases d with
  | returnMessage =>
    rw [hdrop]
    rfl
  | default => exact absurd (h.reused _ _ hd) hfirst

/-- a buffer that was in the pool before is deleted -/
theorem drop_last_reused (s : MsgPool) (h : Circulating s) (k : Handle) (hk : k ∈ s.handles)
    (hlast : s.LastHandle k) (hreused : k.ptr.buf ∈ s.returned) :
    (s.dropHandle k).deleted = s.deleted ++ [k.ptr.buf] ∧
      k.ptr.buf ∉ (s.dropHandle k).returning := by
  obtain ⟨heap, d, hd, hdrop⟩ := drop_last s h.buffers k hk hlast
  cases d with
  | returnMessage => exact absurd hreused (h.buffers.once.pending _ _ hd)
  | default =>
    obtain ⟨m, hm⟩ := h.buffers.exclusive.bufs.mem_owned _ _ hd
    have hm : s.mem k.ptr.buf = some m := hm
    have hdelete : s.dropHandle k
        = { s with
            heap := heap, handles := s.handles.erase k
            mem := Function.update s.mem k.ptr.buf none
            deleted := s.deleted ++ [k.ptr.buf] } := by
      rw [hdrop]
      simp only [MsgPool.release, MsgPool.delete, hm]
    rw [hdelete]
    exact ⟨rfl, h.buffers.exclusive.bufs.out_owned _ _ hd⟩

/-! ## runs -/

theorem putBack_of_firstLife (s : MsgPool) (l : MsgPoolLabel) (t : MsgPool) (ls : List MsgPoolLabel)
    (h : Circulating s) (hl : FirstLife s l) (hs : msgPoolStep s l = some t) : PutBack s l t ls := by
  cases l with
  | get => trivial
  | write k contents => trivial
  | copy k => trivial
  | returnMessage b => trivial
  | drop k =>
    obtain ⟨hk, rfl⟩ := of_guard hs
    intro hlast hroom
    have hreturning := drop_last_first s h k hk hlast (hl hlast hroom)
    have hwaits : k.ptr.buf ∈ (s.dropHandle k).returning := by
      rw [hreturning]
      exact List.mem_cons_self
    have hany : Every msgPoolStep (fun _ _ => True) (s.dropHandle k) ls :=
      every_of_forall _ ls fun _ _ => trivial
    refine awaits_of_every (fun _ hu => hu) (fun u l v hu _ hl hv => returning_step u l v _ hu hl hv)
      (fun u v _ _ hv hroom => ?_) hwaits ls hany
    obtain ⟨-, rfl⟩ := of_guard hv
    rcases returnMessage_cases u k.ptr.buf with ⟨-, hvec⟩ | ⟨hfull, -⟩
    · rw [MsgPool.pooled, hvec, List.map_append]
      exact List.mem_append_right _ (List.mem_singleton.mpr rfl)
    · omega

theorem not_putBack (s : MsgPool) (l : MsgPoolLabel) (t : MsgPool) (ls : List MsgPoolLabel)
    (h : Circulating s) (hl : ¬ FirstLife s l) (hs : msgPoolStep s l = some t) :
    ¬ PutBack s l t ls := by
  cases l with
  | get => exact absurd trivial hl
  | write k contents => exact absurd trivial hl
  | copy k => exact absurd trivial hl
  | returnMessage b => exact absurd trivial hl
  | drop k =>
    obtain ⟨hk, rfl⟩ := of_guard hs
    simp only [FirstLife, not_forall, not_not] at hl
    obtain ⟨hlast, hroom, hreused⟩ := hl
    intro hback
    exact (drop_last_reused s h k hk hlast hreused).2 (hback hlast hroom).head

/-- **The buffers of a run come back to the pool exactly when each of them is in its first life.**
In a run of any threads that get messages, write to them, and copy and drop handles: every buffer
whose last handle is dropped while there is room is put back, if and only if none of these was
handed out from the pool. -/
theorem circulates_iff (ls : List MsgPoolLabel) (s : MsgPool)
    (h : exec msgPoolStep MsgPool.init ls = some s) :
    EveryThen msgPoolStep PutBack MsgPool.init ls ↔ Every msgPoolStep FirstLife MsgPool.init ls :=
  everyThen_iff_every circulating_step
    (fun s l t ls hs hl ht _ => putBack_of_firstLife s l t ls hs hl ht) not_putBack
    circulating_init ls h

/-- two messages are dropped, one of them after a copy, and both buffers come back -/
theorem circulates_iff_two :
    EveryThen msgPoolStep PutBack MsgPool.init
      [.get, .get, .copy ⟨0, ⟨0, 0⟩⟩, .drop ⟨0, ⟨0, 0⟩⟩, .drop ⟨1, ⟨1, 1⟩⟩, .drop ⟨0, ⟨0, 0⟩⟩,
        .returnMessage 1, .returnMessage 0] := by
  refine (circulates_iff _ _ rfl).mpr ?_
  rw [every_cons rfl, every_cons rfl, every_cons rfl, every_cons rfl, every_cons rfl,
    every_cons rfl, every_cons rfl, every_cons rfl]
  exact ⟨trivial, trivial, trivial, fun _ _ h => (by cases h), fun _ _ h => (by cases h),
    fun _ _ h => (by cases h), trivial, trivial, trivial⟩

/-- a message is got and dropped twice: its buffer is taken back once, handed out, and deleted while
the pool is empty -/
theorem reused_deleted :
    ∃ s t, exec msgPoolStep MsgPool.init [.get, .drop ⟨0, ⟨0, 0⟩⟩, .returnMessage 0, .get] = some s ∧
      s.LastHandle ⟨1, ⟨1, 0⟩⟩ ∧ s.msgVec = [] ∧
      msgPoolStep s (.drop ⟨1, ⟨1, 0⟩⟩) = some t ∧
      t.deleted = [0] ∧ t.returning = [] ∧ t.msgVec = [] ∧
      ¬ EveryThen msgPoolStep PutBack MsgPool.init
        [.get, .drop ⟨0, ⟨0, 0⟩⟩, .returnMessage 0, .get, .drop ⟨1, ⟨1, 0⟩⟩] := by
  have hlast : ∀ k : Handle, k ∈ ([] : List Handle) → k.ptr.block ≠ 1 := fun k hk => by cases hk
  refine ⟨_, _, rfl, hlast, rfl, rfl, rfl, rfl, rfl, fun hall => ?_⟩
  obtain ⟨-, hall⟩ := hall _ rfl
  obtain ⟨-, hall⟩ := hall _ rfl
  obtain ⟨-, hall⟩ := hall _ rfl
  obtain ⟨-, hall⟩ := hall _ rfl
  obtain ⟨hback, -⟩ := hall _ rfl
  have hwaits := (hback hlast (by decide)).head
  cases hwaits

end VoltNet
