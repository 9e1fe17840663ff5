import VoltNet.Network.MsgPool
import Mathlib.Data.List.Nodup

/-!
# Pooled buffers are handed out clean and exclusively

Every buffer that is allocated is owned by one control block, or is on its way from one to the
next (`out`): with `return_message`, or to `delete`.

* `Refs`               handles and pool entries are the references to control blocks, and a pool
                       entry is the only one to its own;
* `Bufs`               control blocks own different buffers;
* `Clean`              buffers of the pool are empty, deleted ones are gone;
* `Once`               a buffer with the deleter of `get_message` has not been returned yet;
* `bufferInv_step`     every step keeps all of these;
* `buffers_exclusive`  what they say of every run.
-/

namespace VoltNet
open Runs RefCount

/-! ## control blocks that come and go -/

section
variable {owned owned' : Nat → Option Managed} {i j : Nat} {x y : Managed}

theorem owned_gained (howned : ∀ j, owned' j = if j = i then some x else owned j)
    (hj : owned' j = some y) : (j = i ∧ y = x) ∨ (j ≠ i ∧ owned j = some y) := by
  rw [howned] at hj
  by_cases hji : j = i
  · rw [if_pos hji] at hj
    exact .inl ⟨hji, (Option.some.inj hj).symm⟩
  · rw [if_neg hji] at hj
    exact .inr ⟨hji, hj⟩

theorem owned_lost (howned : ∀ j, owned' j = if j = i then none else owned j)
    (hj : owned' j = some y) : j ≠ i ∧ owned j = some y := by
  rw [howned] at hj
  by_cases hji : j = i
  · rw [if_pos hji] at hj
    cases hj
  · rw [if_neg hji] at hj
    exact ⟨hji, hj⟩

end

/-! ## references -/

structure Refs (refs : List Nat) (owned : Nat → Option Managed) (handles : List Handle)
    (msgVec : List MessagePtr) : Prop where
  perm : refs.Perm (handles.map (fun h => h.ptr.block) ++ msgVec.map MessagePtr.block)
  handle_owns : ∀ h, h ∈ handles → ∃ d, owned h.ptr.block = some ⟨h.ptr.buf, d⟩
  pool_owns : ∀ p, p ∈ msgVec → ∃ d, owned p.block = some ⟨p.buf, d⟩
  pool_nodup : (msgVec.map MessagePtr.block).Nodup
  pool_alone : ∀ p, p ∈ msgVec → ∀ h, h ∈ handles → h.ptr.block ≠ p.block
  /-- copies of a handle come from the same call of `get_message` -/
  calls : ∀ h, h ∈ handles → ∀ h', h' ∈ handles → h.ptr.block = h'.ptr.block → h.call = h'.call

namespace Refs
variable {refs : List Nat} {owned owned' : Nat → Option Managed} {handles : List Handle}
  {msgVec : List MessagePtr}

theorem handle_mem (h : Refs refs owned handles msgVec) {k : Handle} (hk : k ∈ handles) :
    k.ptr.block ∈ refs :=
  h.perm.mem_iff.mpr (List.mem_append_left _ (List.mem_map.mpr ⟨k, hk, rfl⟩))

theorem pool_mem (h : Refs refs owned handles msgVec) {p : MessagePtr} (hp : p ∈ msgVec) :
    p.block ∈ refs :=
  h.perm.mem_iff.mpr (List.mem_append_right _ (List.mem_map.mpr ⟨p, hp, rfl⟩))

/-- the last entry of the pool is moved out, for the call `c` -/
theorem pop {p : MessagePtr} (h : Refs refs owned handles (msgVec ++ [p])) (c : GetNo) :
    Refs refs owned (⟨c, p⟩ :: handles) msgVec := by
  have hp : p ∈ msgVec ++ [p] := List.mem_append_right _ (List.mem_singleton.mpr rfl)
  have hnodup := h.pool_nodup
  rw [List.map_append, List.map_singleton] at hnodup
  obtain ⟨hrest, hnew⟩ := List.nodup_cons.mp (List.nodup_append_comm.mp hnodup)
  refine ⟨?_, ?_, fun q hq => h.pool_owns q (List.mem_append_left _ hq), hnew, ?_, ?_⟩
  · refine h.perm.trans ?_
    rw [List.map_append, List.map_singleton, ← List.append_assoc]
    exact List.perm_append_comm
  · intro k hk
    rcases List.mem_cons.mp hk with rfl | hk
    · exact h.pool_owns p hp
    · exact h.handle_owns k hk
  · intro q hq k hk
    rcases List.mem_cons.mp hk with rfl | hk
    · intro he
      exact hrest (List.mem_map.mpr ⟨q, hq, he.symm⟩)
    · exact h.pool_alone q (List.mem_append_left _ hq) k hk
  · intro k hk k' hk' he
    rcases List.mem_cons.mp hk with rfl | hk
    · rcases List.mem_cons.mp hk' with rfl | hk'
      · rfl
      · exact absurd he.symm (h.pool_alone p hp k' hk')
    · rcases List.mem_cons.mp hk' with rfl | hk'
      · exact absurd he (h.pool_alone p hp k hk)
      · exact h.calls k hk k' hk' he

/-- a new control block and its first handle -/
theorem first (h : Refs refs owned handles msgVec) (c : GetNo) (i : Nat) (b : Buf) (d : Deleter)
    (hi : i ∉ refs) (howned : ∀ j, owned' j = if j = i then some ⟨b, d⟩ else owned j) :
    Refs (i :: refs) owned' (⟨c, ⟨i, b⟩⟩ :: handles) msgVec := by
  have hhandle : ∀ k, k ∈ handles → k.ptr.block ≠ i := fun k hk he => hi (he ▸ h.handle_mem hk)
  have hpool : ∀ p, p ∈ msgVec → p.block ≠ i := fun p hp he => hi (he ▸ h.pool_mem hp)
  refine ⟨h.perm.cons i, ?_, ?_, h.pool_nodup, ?_, ?_⟩
  · intro k hk
    rcases List.mem_cons.mp hk with rfl | hk
    · exact ⟨d, by rw [howned, if_pos rfl]⟩
    · rw [howned, if_neg (hhandle k hk)]
      exact h.handle_owns k hk
  · intro p hp
    rw [howned, if_neg (hpool p hp)]
    exact h.pool_owns p hp
  · intro p hp k hk
    rcases List.mem_cons.mp hk with rfl | hk
    · exact (hpool p hp).symm
    · exact h.pool_alone p hp k hk
  · intro k hk k' hk' he
    rcases List.mem_cons.mp hk with rfl | hk
    · rcases List.mem_cons.mp hk' with rfl | hk'
      · rfl
      · exact absurd he.symm (hhandle k' hk')
    · rcases List.mem_cons.mp hk' with rfl | hk'
      · exact absurd he (hhandle k hk)
      · exact h.calls k hk k' hk' he

theorem copy (h : Refs refs owned handles msgVec) (k : Handle) (hk : k ∈ handles) :
    Refs (k.ptr.block :: refs) owned (k :: handles) msgVec := by
  have hmem : ∀ j, j ∈ k :: handles → j ∈ handles := by
    intro j hj
    rcases List.mem_cons.mp hj with rfl | hj
    · exact hk
    · exact hj
  exact ⟨h.perm.cons _, fun j hj => h.handle_owns j (hmem j hj), h.pool_owns, h.pool_nodup,
    fun p hp j hj => h.pool_alone p hp j (hmem j hj),
    fun j hj j' hj' he => h.calls j (hmem j hj) j' (hmem j' hj') he⟩

/-- a handle is gone, and so is its control block if there is no other one -/
theorem drop (h : Refs refs owned handles msgVec) (k : Handle) (hk : k ∈ handles)
    (howned : ∀ j, j ∈ refs.erase k.ptr.block → owned' j = owned j) :
    Refs (refs.erase k.ptr.block) owned' (handles.erase k) msgVec := by
  have hmem : ∀ j, j ∈ handles.erase k → j ∈ handles := fun j hj => List.mem_of_mem_erase hj
  have hperm : (refs.erase k.ptr.block).Perm
      ((handles.erase k).map (fun h => h.ptr.block) ++ msgVec.map MessagePtr.block) := by
    have hrefs := (List.perm_cons_erase (h.handle_mem hk)).symm.trans h.perm
    have hhandles := (List.perm_cons_erase hk).map fun h => h.ptr.block
    exact (hrefs.trans (hhandles.append_right _)).cons_inv
  refine ⟨hperm, fun j hj => ?_, fun p hp => ?_, h.pool_nodup,
    fun p hp j hj => h.pool_alone p hp j (hmem j hj),
    fun j hj j' hj' he => h.calls j (hmem j hj) j' (hmem j' hj') he⟩
  · rw [howned]
    · exact h.handle_owns j (hmem j hj)
    · exact hperm.mem_iff.mpr (List.mem_append_left _ (List.mem_map.mpr ⟨j, hj, rfl⟩))
  · rw [howned]
    · exact h.pool_owns p hp
    · exact hperm.mem_iff.mpr (List.mem_append_right _ (List.mem_map.mpr ⟨p, hp, rfl⟩))

/-- a new control block at the end of the pool -/
theorem push (h : Refs refs owned handles msgVec) (i : Nat) (b : Buf) (d : Deleter)
    (hi : i ∉ refs) (howned : ∀ j, owned' j = if j = i then some ⟨b, d⟩ else owned j) :
    Refs (i :: refs) owned' handles (msgVec ++ [⟨i, b⟩]) := by
  have hhandle : ∀ k, k ∈ handles → k.ptr.block ≠ i := fun k hk he => hi (he ▸ h.handle_mem hk)
  have hpool : ∀ p, p ∈ msgVec → p.block ≠ i := fun p hp he => hi (he ▸ h.pool_mem hp)
  refine ⟨?_, fun k hk => ?_, fun p hp => ?_, ?_, fun p hp k hk => ?_, h.calls⟩
  · rw [List.map_append, List.map_singleton, ← List.append_assoc]
    exact (h.perm.cons i).trans (List.perm_append_singleton i _).symm
  · rw [howned, if_neg (hhandle k hk)]
    exact h.handle_owns k hk
  · rcases List.mem_append.mp hp with hp | hp
    · rw [howned, if_neg (hpool p hp)]
      exact h.pool_owns p hp
    · rw [List.mem_singleton.mp hp]
      exact ⟨d, by rw [howned, if_pos rfl]⟩
  · rw [List.map_append, List.map_singleton]
    refine List.nodup_append_comm.mp (List.nodup_cons.mpr ⟨fun hin => ?_, h.pool_nodup⟩)
    obtain ⟨p, hp, he⟩ := List.mem_map.mp hin
    exact hpool p hp he
  · rcases List.mem_append.mp hp with hp | hp
    · exact h.pool_alone p hp k hk
    · rw [List.mem_singleton.mp hp]
      exact hhandle k hk

end Refs

/-! ## buffers -/

/-- `out`: allocated buffers that no control block owns -/
structure Bufs (owned : Nat → Option Managed) (mem : Buf → Option Message) (nextBuf : Buf)
    (out : List Buf) : Prop where
  inj : ∀ i j x y, owned i = some x → owned j = some y → x.buf = y.buf → i = j
  out_owned : ∀ i x, owned i = some x → x.buf ∉ out
  out_nodup : out.Nodup
  mem_owned : ∀ i x, owned i = some x → ∃ m, mem x.buf = some m
  mem_out : ∀ b, b ∈ out → ∃ m, mem b = some m
  mem_lt : ∀ b m, mem b = some m → b < nextBuf

namespace Bufs
variable {owned owned' : Nat → Option Managed} {mem : Buf → Option Message} {nextBuf : Buf}
  {out out' : List Buf}

theorem congr (h : Bufs owned mem nextBuf out) (howned : ∀ i, owned' i = owned i) :
    Bufs owned' mem nextBuf out := by
  obtain rfl : owned' = owned := funext howned
  exact h

theorem perm (h : Bufs owned mem nextBuf out) (hout : out.Perm out') :
    Bufs owned mem nextBuf out' :=
  ⟨h.inj, fun i x hi hx => h.out_owned i x hi (hout.mem_iff.mpr hx), hout.nodup_iff.mp h.out_nodup,
    h.mem_owned, fun b hb => h.mem_out b (hout.mem_iff.mpr hb), h.mem_lt⟩

theorem store (h : Bufs owned mem nextBuf out) (b : Buf) (m m' : Message) (hb : mem b = some m) :
    Bufs owned (Function.update mem b (some m')) nextBuf out := by
  have hstill : ∀ c, (∃ n, mem c = some n) → ∃ n, Function.update mem b (some m') c = some n := by
    intro c hc
    by_cases hcb : c = b
    · exact ⟨m', by rw [hcb, Function.update_self]⟩
    · rw [Function.update_of_ne hcb]
      exact hc
  refine ⟨h.inj, h.out_owned, h.out_nodup, fun i x hi => hstill _ (h.mem_owned i x hi),
    fun c hc => hstill c (h.mem_out c hc), fun c n hc => ?_⟩
  by_cases hcb : c = b
  · rw [hcb]
    exact h.mem_lt b m hb
  · rw [Function.update_of_ne hcb] at hc
    exact h.mem_lt c n hc

/-- a buffer outside gets a control block -/
theorem adopt {b : Buf} (h : Bufs owned mem nextBuf (b :: out)) (i : Nat) (d : Deleter)
    (hi : owned i = none) (howned : ∀ j, owned' j = if j = i then some ⟨b, d⟩ else owned j) :
    Bufs owned' mem nextBuf out := by
  obtain ⟨hb, hout⟩ := List.nodup_cons.mp h.out_nodup
  refine ⟨?_, ?_, hout, ?_, fun c hc => h.mem_out c (List.mem_cons_of_mem b hc), h.mem_lt⟩
  · intro j k x y hj hk he
    rcases owned_gained howned hj with ⟨rfl, rfl⟩ | ⟨-, hj⟩
    · rcases owned_gained howned hk with ⟨rfl, -⟩ | ⟨-, hk⟩
      · rfl
      · exact absurd (List.mem_cons.mpr (.inl he.symm)) (h.out_owned k y hk)
    · rcases owned_gained howned hk with ⟨rfl, rfl⟩ | ⟨-, hk⟩
      · exact absurd (List.mem_cons.mpr (.inl he)) (h.out_owned j x hj)
      · exact h.inj j k x y hj hk he
  · intro j x hj
    rcases owned_gained howned hj with ⟨-, rfl⟩ | ⟨-, hj⟩
    · exact hb
    · exact fun hin => h.out_owned j x hj (List.mem_cons_of_mem b hin)
  · intro j x hj
    rcases owned_gained howned hj with ⟨-, rfl⟩ | ⟨-, hj⟩
    · exact h.mem_out b List.mem_cons_self
    · exact h.mem_owned j x hj

/-- a new buffer, outside at first -/
theorem allocate (h : Bufs owned mem nextBuf out) :
    Bufs owned (Function.update mem nextBuf (some [])) (nextBuf + 1) (nextBuf :: out) := by
  have hne : ∀ c, (∃ n, mem c = some n) → c ≠ nextBuf := by
    rintro c ⟨n, hn⟩ rfl
    exact Nat.lt_irrefl c (h.mem_lt c n hn)
  have hstill : ∀ c, (∃ n, mem c = some n) →
      ∃ n, Function.update mem nextBuf (some []) c = some n := by
    intro c hc
    rw [Function.update_of_ne (hne c hc)]
    exact hc
  refine ⟨h.inj, ?_, ?_, fun i x hi => hstill _ (h.mem_owned i x hi), ?_, ?_⟩
  · intro i x hi hin
    rcases List.mem_cons.mp hin with hin | hin
    · exact hne _ (h.mem_owned i x hi) hin
    · exact h.out_owned i x hi hin
  · exact List.nodup_cons.mpr ⟨fun hin => hne _ (h.mem_out _ hin) rfl, h.out_nodup⟩
  · intro c hc
    rcases List.mem_cons.mp hc with rfl | hc
    · exact ⟨[], Function.update_self ..⟩
    · exact hstill c (h.mem_out c hc)
  · intro c n hc
    by_cases hcn : c = nextBuf
    · rw [hcn]
      exact Nat.lt_succ_self nextBuf
    · rw [Function.update_of_ne hcn] at hc
      exact Nat.lt_succ_of_lt (h.mem_lt c n hc)

/-- the buffer of a control block that is gone -/
theorem orphan (h : Bufs owned mem nextBuf out) (i : Nat) (x : Managed) (hi : owned i = some x)
    (howned : ∀ j, owned' j = if j = i then none else owned j) :
    Bufs owned' mem nextBuf (x.buf :: out) := by
  refine ⟨?_, ?_, List.nodup_cons.mpr ⟨h.out_owned i x hi, h.out_nodup⟩, ?_, ?_, h.mem_lt⟩
  · intro j k y z hj hk he
    exact h.inj j k y z (owned_lost howned hj).2 (owned_lost howned hk).2 he
  · intro j y hj hin
    obtain ⟨hji, hj⟩ := owned_lost howned hj
    rcases List.mem_cons.mp hin with he | hin
    · exact hji (h.inj j i y x hj hi he)
    · exact h.out_owned j y hj hin
  · intro j y hj
    exact h.mem_owned j y (owned_lost howned hj).2
  · intro c hc
    rcases List.mem_cons.mp hc with rfl | hc
    · exact h.mem_owned i x hi
    · exact h.mem_out c hc

/-- a buffer outside is deleted -/
theorem delete {b : Buf} (h : Bufs owned mem nextBuf (b :: out)) :
    Bufs owned (Function.update mem b none) nextBuf out := by
  obtain ⟨hb, hout⟩ := List.nodup_cons.mp h.out_nodup
  have hne : ∀ i x, owned i = some x → x.buf ≠ b := fun i x hi he =>
    h.out_owned i x hi (List.mem_cons.mpr (.inl he))
  refine ⟨h.inj, fun i x hi hin => h.out_owned i x hi (List.mem_cons_of_mem b hin), hout, ?_, ?_,
    ?_⟩
  · intro i x hi
    rw [Function.update_of_ne (hne i x hi)]
    exact h.mem_owned i x hi
  · intro c hc
    have hcb : c ≠ b := fun he => hb (he ▸ hc)
    rw [Function.update_of_ne hcb]
    exact h.mem_out c (List.mem_cons_of_mem b hc)
  · intro c n hc
    by_cases hcb : c = b
    · rw [hcb, Function.update_self] at hc
      cases hc
    · rw [Function.update_of_ne hcb] at hc
      exact h.mem_lt c n hc

end Bufs

/-! ## contents and ends -/

structure Clean (msgVec : List MessagePtr) (mem : Buf → Option Message) (nextBuf : Buf)
    (got : List (Option Message)) (deleted : List Buf) (fault : Bool) : Prop where
  empty : ∀ p, p ∈ msgVec → mem p.buf = some []
  got : ∀ m, m ∈ got → m = some []
  gone : ∀ b, b ∈ deleted → mem b = none ∧ b < nextBuf
  nodup : deleted.Nodup
  fault : fault = false

namespace Clean
variable {msgVec : List MessagePtr} {mem : Buf → Option Message} {nextBuf : Buf}
  {got : List (Option Message)} {deleted : List Buf} {fault : Bool}

/-- new contents for a buffer outside the pool that was not deleted -/
theorem put (h : Clean msgVec mem nextBuf got deleted fault) (b : Buf) (m : Message)
    (hb : b ∉ deleted) (hpool : ∀ p, p ∈ msgVec → p.buf ≠ b) :
    Clean msgVec (Function.update mem b (some m)) nextBuf got deleted fault := by
  refine ⟨fun p hp => ?_, h.got, fun c hc => ?_, h.nodup, h.fault⟩
  · rw [Function.update_of_ne (hpool p hp)]
    exact h.empty p hp
  · have hcb : c ≠ b := fun he => hb (he ▸ hc)
    rw [Function.update_of_ne hcb]
    exact h.gone c hc

theorem store (h : Clean msgVec mem nextBuf got deleted fault) (b : Buf) (m m' : Message)
    (hb : mem b = some m) (hpool : ∀ p, p ∈ msgVec → p.buf ≠ b) :
    Clean msgVec (Function.update mem b (some m')) nextBuf got deleted fault := by
  refine h.put b m' (fun hin => ?_) hpool
  cases hb.symm.trans (h.gone b hin).1

theorem allocate (h : Clean msgVec mem nextBuf got deleted fault)
    (hpool : ∀ p, p ∈ msgVec → p.buf ≠ nextBuf) :
    Clean msgVec (Function.update mem nextBuf (some [])) (nextBuf + 1) got deleted fault := by
  have hput := h.put nextBuf [] (fun hin => Nat.lt_irrefl _ (h.gone _ hin).2) hpool
  exact ⟨hput.empty, hput.got, fun c hc => (hput.gone c hc).imp_right Nat.lt_succ_of_lt,
    hput.nodup, hput.fault⟩

theorem delete (h : Clean msgVec mem nextBuf got deleted fault) (b : Buf) (m : Message)
    (hb : mem b = some m) (hlt : b < nextBuf) (hpool : ∀ p, p ∈ msgVec → p.buf ≠ b) :
    Clean msgVec (Function.update mem b none) nextBuf got (deleted ++ [b]) fault := by
  have hnew : b ∉ deleted := fun hin => by cases hb.symm.trans (h.gone b hin).1
  refine ⟨fun p hp => ?_, h.got, fun c hc => ?_, ?_, h.fault⟩
  · rw [Function.update_of_ne (hpool p hp)]
    exact h.empty p hp
  · by_cases hcb : c = b
    · rw [hcb, Function.update_self]
      exact ⟨rfl, hlt⟩
    · rw [Function.update_of_ne hcb]
      exact h.gone c
        ((List.mem_append.mp hc).resolve_right fun hc => hcb (List.mem_singleton.mp hc))
  · exact List.nodup_append_comm.mp (List.nodup_cons.mpr ⟨hnew, h.nodup⟩)

theorem push (h : Clean msgVec mem nextBuf got deleted fault) (p : MessagePtr)
    (hp : mem p.buf = some []) : Clean (msgVec ++ [p]) mem nextBuf got deleted fault := by
  refine ⟨fun q hq => ?_, h.got, h.gone, h.nodup, h.fault⟩
  rcases List.mem_append.mp hq with hq | hq
  · exact h.empty q hq
  · rw [List.mem_singleton.mp hq]
    exact hp

theorem handOut (h : Clean msgVec mem nextBuf got deleted fault) (b : Buf)
    (hb : mem b = some []) : Clean msgVec mem nextBuf (got ++ [mem b]) deleted fault := by
  refine ⟨h.empty, fun m hm => ?_, h.gone, h.nodup, h.fault⟩
  rcases List.mem_append.mp hm with hm | hm
  · exact h.got m hm
  · rw [List.mem_singleton.mp hm]
    exact hb

end Clean

/-! ## returns -/

/-- a buffer is returned once: none that may still be returned, or waits for it, has been -/
structure Once (owned : Nat → Option Managed) (returning : List Buf) (nextBuf : Buf)
    (returned : List Buf) : Prop where
  pending : ∀ i b, owned i = some ⟨b, .returnMessage⟩ → b ∉ returned
  waiting : ∀ b, b ∈ returning → b ∉ returned
  lt : ∀ b, b ∈ returned → b < nextBuf
  nodup : returned.Nodup

namespace Once
variable {owned owned' : Nat → Option Managed} {returning : List Buf} {nextBuf : Buf}
  {returned : List Buf}

/-- control blocks are kept, or gone, or new with the default deleter -/
theorem mono (h : Once owned returning nextBuf returned)
    (howned : ∀ i b, owned' i = some ⟨b, .returnMessage⟩ → owned i = some ⟨b, .returnMessage⟩) :
    Once owned' returning nextBuf returned :=
  ⟨fun i b hi => h.pending i b (howned i b hi), h.waiting, h.lt, h.nodup⟩

theorem allocate (h : Once owned returning nextBuf returned) (i : Nat)
    (howned : ∀ j, owned' j = if j = i then some ⟨nextBuf, .returnMessage⟩ else owned j) :
    Once owned' returning (nextBuf + 1) returned := by
  refine ⟨fun j b hj => ?_, h.waiting, fun b hb => Nat.lt_succ_of_lt (h.lt b hb), h.nodup⟩
  rcases owned_gained howned hj with ⟨-, hnew⟩ | ⟨-, hj⟩
  · obtain ⟨rfl, -⟩ := Managed.mk.inj hnew
    exact fun hin => Nat.lt_irrefl _ (h.lt _ hin)
  · exact h.pending j b hj

/-- the deleter of `get_message` runs -/
theorem release (h : Once owned returning nextBuf returned) (b : Buf) (hb : b ∉ returned) :
    Once owned (b :: returning) nextBuf returned := by
  refine ⟨h.pending, fun c hc => ?_, h.lt, h.nodup⟩
  rcases List.mem_cons.mp hc with rfl | hc
  · exact hb
  · exact h.waiting c hc

/-- a call of `return_message` gets the lock -/
theorem take (h : Once owned returning nextBuf returned) (b : Buf) (hb : b ∈ returning)
    (hnodup : returning.Nodup) (hlt : b < nextBuf) (hapart : ∀ i x, owned i = some x → x.buf ≠ b) :
    Once owned (returning.erase b) nextBuf (returned ++ [b]) := by
  have hmem : ∀ c, c ∈ returned ++ [b] → c ∈ returned ∨ c = b := fun c hc =>
    (List.mem_append.mp hc).imp_right List.mem_singleton.mp
  refine ⟨fun i c hi hin => ?_, fun c hc hin => ?_, fun c hc => ?_, ?_⟩
  · rcases hmem c hin with hin | rfl
    · exact h.pending i c hi hin
    · exact hapart i _ hi rfl
  · rcases hmem c hin with hin | rfl
    · exact h.waiting c (List.mem_of_mem_erase hc) hin
    · exact hnodup.not_mem_erase hc
  · rcases hmem c hc with hc | rfl
    · exact h.lt c hc
    · exact hlt
  · exact List.nodup_append_comm.mp (List.nodup_cons.mpr ⟨h.waiting b hb, h.nodup⟩)

end Once

/-! ## the whole state -/

/-- the invariant, with the buffers that no control block owns -/
structure Exclusive (s : MsgPool) (out : List Buf) : Prop where
  refs : Refs s.heap.refs s.heap.owned s.handles s.msgVec
  bufs : Bufs s.heap.owned s.mem s.nextBuf out
  clean : Clean s.msgVec s.mem s.nextBuf s.got s.deleted s.fault

namespace Exclusive
variable {s : MsgPool} {out : List Buf}

/-- what the pool holds is not what a handle holds -/
theorem pool_ne_handle (h : Exclusive s out) {p : MessagePtr} (hp : p ∈ s.msgVec) {k : Handle}
    (hk : k ∈ s.handles) : p.buf ≠ k.ptr.buf := by
  intro he
  obtain ⟨d, hd⟩ := h.refs.pool_owns p hp
  obtain ⟨d', hd'⟩ := h.refs.handle_owns k hk
  exact h.refs.pool_alone p hp k hk (h.bufs.inj _ _ _ _ hd hd' he).symm

theorem pool_ne_out (h : Exclusive s out) {p : MessagePtr} (hp : p ∈ s.msgVec) {b : Buf}
    (hb : b ∈ out) : p.buf ≠ b := by
  rintro rfl
  obtain ⟨d, hd⟩ := h.refs.pool_owns p hp
  exact h.bufs.out_owned _ _ hd hb

theorem store (h : Exclusive s out) (b : Buf) (m : Message)
    (hb : b ∈ out ∨ ∃ k, k ∈ s.handles ∧ b = k.ptr.buf) :
    Exclusive (s.store b m) out ∧
      s.store b m = { s with mem := Function.update s.mem b (some m) } := by
  have hlive : ∃ n, s.mem b = some n := by
    rcases hb with hb | ⟨k, hk, rfl⟩
    · exact h.bufs.mem_out b hb
    · obtain ⟨d, hd⟩ := h.refs.handle_owns k hk
      exact h.bufs.mem_owned _ _ hd
  have hpool : ∀ p, p ∈ s.msgVec → p.buf ≠ b := by
    intro p hp
    rcases hb with hb | ⟨k, hk, rfl⟩
    · exact h.pool_ne_out hp hb
    · exact h.pool_ne_handle hp hk
  obtain ⟨n, hn⟩ := hlive
  have hstore : s.store b m = { s with mem := Function.update s.mem b (some m) } := by
    simp only [MsgPool.store, hn]
  refine ⟨?_, hstore⟩
  rw [hstore]
  exact ⟨h.refs, h.bufs.store b n m hn, h.clean.store b n m hn hpool⟩

theorem delete {b : Buf} (h : Exclusive s (b :: out)) :
    Exclusive (s.delete b) out ∧
      s.delete b
        = { s with mem := Function.update s.mem b none, deleted := s.deleted ++ [b] } := by
  obtain ⟨n, hn⟩ := h.bufs.mem_out b List.mem_cons_self
  have hdelete : s.delete b
      = { s with mem := Function.update s.mem b none, deleted := s.deleted ++ [b] } := by
    simp only [MsgPool.delete, hn]
  have hpool : ∀ p, p ∈ s.msgVec → p.buf ≠ b := fun p hp => h.pool_ne_out hp List.mem_cons_self
  refine ⟨?_, hdelete⟩
  rw [hdelete]
  exact ⟨h.refs, h.bufs.delete, h.clean.delete b n hn (h.bufs.mem_lt b n hn) hpool⟩

theorem push {b : Buf} (h : Exclusive s (b :: out)) (hb : s.mem b = some []) :
    Exclusive (s.push b) out where
  refs := h.refs.push s.heap.next b .default (next_not_mem s.heap) (make_owned s.heap _)
  bufs := h.bufs.adopt s.heap.next .default (owned_next s.heap) (make_owned s.heap _)
  clean := h.clean.push ⟨s.heap.next, b⟩ hb

end Exclusive

/-- buffers on their way to `return_message` are those that no control block owns -/
structure BufferInv (s : MsgPool) : Prop where
  exclusive : Exclusive s s.returning
  once : Once s.heap.owned s.returning s.nextBuf s.returned

theorem bufferInv_init : BufferInv MsgPool.init where
  exclusive := {
    refs := {
      perm := List.Perm.refl _
      handle_owns := fun _ h => by cases h
      pool_owns := fun _ h => by cases h
      pool_nodup := List.nodup_nil
      pool_alone := fun _ h => by cases h
      calls := fun _ h => by cases h }
    bufs := {
      inj := fun _ _ _ _ h => by cases h
      out_owned := fun _ _ h => by cases h
      out_nodup := List.nodup_nil
      mem_owned := fun _ _ h => by cases h
      mem_out := fun _ h => by cases h
      mem_lt := fun _ _ h => by cases h }
    clean := {
      empty := fun _ h => by cases h
      got := fun _ h => by cases h
      gone := fun _ h => by cases h
      nodup := List.nodup_nil
      fault := rfl } }
  once := {
    pending := fun _ _ h => by cases h
    waiting := fun _ h => by cases h
    lt := fun _ h => by cases h
    nodup := List.nodup_nil }

/-! ## steps -/

/-- the last buffer of the pool is handed out -/
theorem bufferInv_reuse (s : MsgPool) (h : BufferInv s) (msg : MessagePtr)
    (msgVec : List MessagePtr) (hvec : s.msgVec = msgVec ++ [msg]) :
    BufferInv (MsgPool.handOut msg { s with msgVec := s.msgVec.dropLast }) := by
  obtain ⟨⟨hrefs, hbufs, hclean⟩, honce⟩ := h
  have hrest : s.msgVec.dropLast = msgVec := by rw [hvec, List.dropLast_concat]
  have hempty : s.mem msg.buf = some [] := hclean.empty msg (by simp [hvec])
  refine ⟨⟨?_, hbufs, ?_⟩, honce⟩
  · show Refs s.heap.refs s.heap.owned (⟨s.gets, msg⟩ :: s.handles) s.msgVec.dropLast
    rw [hvec] at hrefs
    rw [hrest]
    exact hrefs.pop s.gets
  · show Clean s.msgVec.dropLast s.mem s.nextBuf (s.got ++ [s.mem msg.buf]) s.deleted s.fault
    have hfewer : Clean s.msgVec.dropLast s.mem s.nextBuf s.got s.deleted s.fault :=
      ⟨fun p hp => hclean.empty p (List.dropLast_subset _ hp), hclean.got, hclean.gone,
        hclean.nodup, hclean.fault⟩
    exact hfewer.handOut msg.buf hempty

/-- a new buffer is handed out -/
theorem bufferInv_allocate (s : MsgPool) (h : BufferInv s) :
    BufferInv (MsgPool.handOut ⟨s.heap.next, s.nextBuf⟩ s.allocate) := by
  obtain ⟨hexclusive, honce⟩ := h
  obtain ⟨hrefs, hbufs, hclean⟩ := hexclusive
  have howned := make_owned s.heap ⟨s.nextBuf, .returnMessage⟩
  have hpool : ∀ p, p ∈ s.msgVec → p.buf ≠ s.nextBuf := by
    intro p hp he
    have hempty := hclean.empty p hp
    exact Nat.ne_of_lt (hbufs.mem_lt p.buf [] hempty) he
  refine ⟨⟨?_, ?_, ?_⟩, honce.allocate s.heap.next howned⟩
  · exact hrefs.first s.gets s.heap.next s.nextBuf .returnMessage (next_not_mem s.heap) howned
  · exact hbufs.allocate.adopt s.heap.next .returnMessage (owned_next s.heap) howned
  · exact (hclean.allocate hpool).handOut s.nextBuf (Function.update_self ..)

theorem bufferInv_get (s : MsgPool) (h : BufferInv s) : BufferInv s.getMessage := by
  unfold MsgPool.getMessage
  split
  · next msg hlast =>
    obtain ⟨msgVec, hvec⟩ := List.getLast?_eq_some_iff.mp hlast
    exact bufferInv_reuse s h msg msgVec hvec
  · exact bufferInv_allocate s h

theorem bufferInv_write (k : Handle) (contents : Message) (s t : MsgPool) (h : BufferInv s)
    (hs : msgPoolStep s (.write k contents) = some t) : BufferInv t := by
  obtain ⟨hk, rfl⟩ := of_guard hs
  obtain ⟨hstored, heq⟩ := h.exclusive.store k.ptr.buf contents (.inr ⟨k, hk, rfl⟩)
  have honce := h.once
  rw [heq] at hstored ⊢
  exact ⟨hstored, honce⟩

theorem bufferInv_copy (k : Handle) (s t : MsgPool) (h : BufferInv s)
    (hs : msgPoolStep s (.copy k) = some t) : BufferInv t := by
  obtain ⟨hk, rfl⟩ := of_guard hs
  obtain ⟨⟨hrefs, hbufs, hclean⟩, honce⟩ := h
  obtain ⟨heap, hcopy, hheap, howned⟩ := copy_some s.heap k.ptr.block (hrefs.handle_mem hk)
  have hsame : heap.owned = s.heap.owned := funext howned
  simp only [MsgPool.copyHandle, hcopy]
  refine ⟨⟨?_, hbufs.congr howned, hclean⟩, honce.mono fun i b hi => (howned i).symm.trans hi⟩
  show Refs heap.refs heap.owned (k :: s.handles) s.msgVec
  rw [hheap, hsame]
  exact hrefs.copy k hk

/-- the last handle of a control block is gone -/
theorem Exclusive.orphan {s : MsgPool} {out : List Buf} (h : Exclusive s out) (k : Handle)
    (hk : k ∈ s.handles) (heap : Heap Managed) (x : Managed)
    (hrefs : heap.refs = s.heap.refs.erase k.ptr.block) (hx : s.heap.owned k.ptr.block = some x)
    (hlast : k.ptr.block ∉ heap.refs)
    (howned : ∀ j, heap.owned j = if j = k.ptr.block then none else s.heap.owned j) :
    Exclusive { s with heap := heap, handles := s.handles.erase k } (x.buf :: out) := by
  refine ⟨?_, h.bufs.orphan k.ptr.block x hx howned, h.clean⟩
  show Refs heap.refs heap.owned (s.handles.erase k) s.msgVec
  rw [hrefs]
  refine h.refs.drop k hk fun j hj => ?_
  have hne : j ≠ k.ptr.block := by
    rintro rfl
    rw [hrefs] at hlast
    exact hlast hj
  rw [howned, if_neg hne]

theorem bufferInv_drop (k : Handle) (s t : MsgPool) (h : BufferInv s)
    (hs : msgPoolStep s (.drop k) = some t) : BufferInv t := by
  obtain ⟨hk, rfl⟩ := of_guard hs
  have honce := h.once
  obtain ⟨heap, o, hdrop, hheap, hcases⟩ :=
    drop_cases s.heap k.ptr.block (h.exclusive.refs.handle_mem hk)
  rcases hcases with ⟨x, rfl, hx, hlast, howned⟩ | ⟨rfl, -, howned⟩
  · have hgone := h.exclusive.orphan k hk heap x hheap hx hlast howned
    have hfewer : ∀ i b, heap.owned i = some ⟨b, .returnMessage⟩ →
        s.heap.owned i = some ⟨b, .returnMessage⟩ := fun i b hi => (owned_lost howned hi).2
    obtain ⟨b, deleter⟩ := x
    cases deleter with
    | returnMessage =>
      simp only [MsgPool.dropHandle, hdrop, MsgPool.release]
      exact ⟨⟨hgone.refs, hgone.bufs, hgone.clean⟩,
        (honce.mono hfewer).release b (honce.pending _ b hx)⟩
    | default =>
      simp only [MsgPool.dropHandle, hdrop, MsgPool.release]
      obtain ⟨hdeleted, heq⟩ := hgone.delete
      rw [heq] at hdeleted ⊢
      exact ⟨hdeleted, honce.mono hfewer⟩
  · simp only [MsgPool.dropHandle, hdrop]
    refine ⟨⟨?_, h.exclusive.bufs.congr howned, h.exclusive.clean⟩,
      honce.mono fun i b hi => (howned i).symm.trans hi⟩
    show Refs heap.refs heap.owned (s.handles.erase k) s.msgVec
    rw [hheap]
    exact h.exclusive.refs.drop k hk fun j _ => howned j

theorem bufferInv_return (b : Buf) (s t : MsgPool) (h : BufferInv s)
    (hs : msgPoolStep s (.returnMessage b) = some t) : BufferInv t := by
  obtain ⟨hb, rfl⟩ := of_guard hs
  obtain ⟨hexclusive, honce⟩ := h
  obtain ⟨n, hn⟩ := hexclusive.bufs.mem_out b hb
  have htaken : Exclusive (s.taken b) (b :: (s.taken b).returning) :=
    ⟨hexclusive.refs, hexclusive.bufs.perm (List.perm_cons_erase hb), hexclusive.clean⟩
  have honce' : Once (s.taken b).heap.owned (s.taken b).returning (s.taken b).nextBuf
      (s.taken b).returned :=
    honce.take b hb hexclusive.bufs.out_nodup (hexclusive.bufs.mem_lt b n hn)
      fun i x hi he => hexclusive.bufs.out_owned i x hi (he ▸ hb)
  rw [returnMessage_eq]
  split
  · obtain ⟨hstored, heq⟩ := htaken.store b [] (.inl List.mem_cons_self)
    rw [heq] at hstored ⊢
    refine ⟨hstored.push (Function.update_self ..), honce'.mono fun i c hi => ?_⟩
    rcases owned_gained (make_owned (s.taken b).heap ⟨b, .default⟩) hi with ⟨-, hnew⟩ | ⟨-, hi⟩
    · cases hnew
    · exact hi
  · obtain ⟨hdeleted, heq⟩ := htaken.delete
    rw [heq] at hdeleted ⊢
    exact ⟨hdeleted, honce'⟩

theorem bufferInv_step (s : MsgPool) (l : MsgPoolLabel) (t : MsgPool) (h : BufferInv s)
    (hs : msgPoolStep s l = some t) : BufferInv t := by
  cases l with
  | get =>
    rw [← Option.some.inj hs]
    exact bufferInv_get s h
  | write k contents => exact bufferInv_write k contents s t h hs
  | copy k => exact bufferInv_copy k s t h hs
  | drop k => exact bufferInv_drop k s t h hs
  | returnMessage b => exact bufferInv_return b s t h hs

/-- **Pooled buffers are handed out clean and exclusively.**  In every run of any threads that get
messages, write to them, and copy and drop handles: every buffer that `get_message` returns is
empty; no buffer is in the pool and in a handle at the same time, in the pool twice, or in handles
from two calls of `get_message`; no buffer is returned twice or deleted twice, and nothing uses one
that was deleted. -/
theorem buffers_exclusive (s : MsgPool)
    (h : Reach msgPoolStep (fun _ _ => True) MsgPool.init s) :
    (∀ m, m ∈ s.got → m = some []) ∧
      (∀ p, p ∈ s.msgVec → ∀ k, k ∈ s.handles → p.buf ≠ k.ptr.buf) ∧
      (s.msgVec.map MessagePtr.buf).Nodup ∧
      (∀ k, k ∈ s.handles → ∀ k', k' ∈ s.handles → k.call ≠ k'.call → k.ptr.buf ≠ k'.ptr.buf) ∧
      s.returned.Nodup ∧ s.deleted.Nodup ∧ s.fault = false := by
  have hs : BufferInv s :=
    h.invariant bufferInv_init fun t l u ht _ hu => bufferInv_step t l u ht hu
  have hrefs := hs.exclusive.refs
  have hinj := hs.exclusive.bufs.inj
  refine ⟨hs.exclusive.clean.got, fun p hp k hk => hs.exclusive.pool_ne_handle hp hk, ?_, ?_,
    hs.once.nodup, hs.exclusive.clean.nodup, hs.exclusive.clean.fault⟩
  · have hptrs : ∀ p, p ∈ s.msgVec → ∀ q, q ∈ s.msgVec → p.buf = q.buf → p = q := by
      intro p hp q hq he
      obtain ⟨d, hd⟩ := hrefs.pool_owns p hp
      obtain ⟨d', hd'⟩ := hrefs.pool_owns q hq
      obtain ⟨block, buf⟩ := p
      obtain ⟨block', buf'⟩ := q
      rw [MessagePtr.mk.injEq]
      exact ⟨hinj _ _ _ _ hd hd' he, he⟩
    exact hrefs.pool_nodup.of_map.map_on hptrs
  · intro k hk k' hk' hne he
    obtain ⟨d, hd⟩ := hrefs.handle_owns k hk
    obtain ⟨d', hd'⟩ := hrefs.handle_owns k' hk'
    exact hne (hrefs.calls k hk k' hk' (hinj _ _ _ _ hd hd' he))

/-- a message is written and copied, both handles show the bytes; then they are dropped, the buffer
comes back and is handed out again, empty -/
theorem buffers_exclusive_reuse :
    ∃ s t, exec msgPoolStep MsgPool.init
        [.get, .write ⟨0, ⟨0, 0⟩⟩ [97, 255], .copy ⟨0, ⟨0, 0⟩⟩] = some s ∧
      s.handles = [⟨0, ⟨0, 0⟩⟩, ⟨0, ⟨0, 0⟩⟩] ∧ s.mem 0 = some [97, 255] ∧
      exec msgPoolStep s
        [.drop ⟨0, ⟨0, 0⟩⟩, .drop ⟨0, ⟨0, 0⟩⟩, .returnMessage 0, .get, .get] = some t ∧
      t.handles = [⟨2, ⟨2, 1⟩⟩, ⟨1, ⟨1, 0⟩⟩] ∧ t.mem 0 = some [] ∧ t.got.length = 3 ∧
      (∀ m, m ∈ t.got → m = some []) ∧ t.returned.Nodup ∧ t.deleted.Nodup ∧ t.fault = false := by
  have hrun : ((exec msgPoolStep MsgPool.init
      [.get, .write ⟨0, ⟨0, 0⟩⟩ [97, 255], .copy ⟨0, ⟨0, 0⟩⟩]).bind fun s => (exec msgPoolStep s
        [.drop ⟨0, ⟨0, 0⟩⟩, .drop ⟨0, ⟨0, 0⟩⟩, .returnMessage 0, .get, .get]).map fun t =>
          (s.handles, s.mem 0, t.handles, t.mem 0, t.got.length))
      = some ([⟨0, ⟨0, 0⟩⟩, ⟨0, ⟨0, 0⟩⟩], some [97, 255], [⟨2, ⟨2, 1⟩⟩, ⟨1, ⟨1, 0⟩⟩], some [], 3) :=
    rfl
  obtain ⟨s, hs, hrest⟩ := Option.bind_eq_some_iff.mp hrun
  obtain ⟨t, ht, hval⟩ := Option.map_eq_some_iff.mp hrest
  simp only [Prod.mk.injEq] at hval
  obtain ⟨hboth, hshown, hhandles, hmem, hlen⟩ := hval
  obtain ⟨hgot, -, -, -, hreturned, hdeleted, hfault⟩ :=
    buffers_exclusive t (Reach.of_exec _ (exec_append hs ht))
  exact ⟨s, t, hs, hboth, hshown, ht, hhandles, hmem, hlen, hgot, hreturned, hdeleted, hfault⟩

end VoltNet
