import VoltNet.Serialize.Read

/-!
# `read_into_raw` and the pointer of `net_to_host_endian`

`net_to_host_endian` returns the pointer it was given, on either host.  `read_into_int` looks at
the destination and not at that pointer; `read_into_raw` passes no destination, so the reversed
bytes stay in a buffer that nobody has, and what it reads are the bytes of the message.

* `readIntoRaw`           reads behind the pointer returned;
* `HostOrder`             the host finds the value of the message there;
* `SameAsInt`             `read_into_raw` stores what `read_into_int` does;
* `readIntoRaw_same_iff`  both hold on a big-endian host, and of bytes that are the same reversed.
-/

namespace VoltNet
open Positional Fallible

/-- the `n` bytes behind a pointer into the message -/
def behind (msg : Message) : Nat → Nat → Except ReadFault (List NetWord)
  | _, 0 => .ok []
  | ptr, n + 1 => do
    let b ← access msg ptr
    let bs ← behind msg (ptr + 1) n
    return b :: bs

/-- for a `T` of `n` bytes: the value that is stored in `v` -/
def readIntoRaw (host : Host) (msg : Message) (ptr n : Nat) : Except ReadFault (BitVec (8 * n)) := do
  let r ← netToHostEndian host msg ptr n none
  let bytes ← behind msg r.1 n
  return BitVec.ofNat (8 * n) (host.ofMemory bytes)

/-- without a destination, the bytes behind the pointer returned are those by which the host
represents the value of `w` -/
def HostOrder (host : Host) (msg : Message) (ptr : Nat) (w : List NetWord) : Prop :=
  ∃ r, netToHostEndian host msg ptr w.length none = .ok r ∧
    behind msg r.1 w.length = .ok (host.memory w.length (ofNetBytes w))

/-- `read_into_raw` stores the value that `read_into_int` stores on a little-endian host, whatever
its destination held -/
def SameAsInt (host : Host) (msg : Message) (ptr n : Nat) : Prop :=
  ∃ v, readIntoRaw host msg ptr n = .ok v ∧
    ∀ inst : Cells, inst.length = n → readScalar .littleEndian msg ptr n inst = .ok (v, ptr + n)

/-! ## what stands behind the pointer -/

theorem behind_at (msg : Message) (ptr : Nat) (w : List NetWord) (h : At msg ptr w) :
    behind msg ptr w.length = .ok w := by
  induction w generalizing ptr with
  | nil => rfl
  | cons b bs ih =>
    obtain ⟨hb, hbs⟩ := (at_append msg ptr [b] bs).mp h
    have hlt : ptr < msg.length := hb.length_le Nat.one_pos
    have hbyte : access msg ptr = .ok b := by
      obtain ⟨rest, hrest⟩ := hb
      rw [List.drop_eq_getElem_cons hlt] at hrest
      rw [access_ok msg ptr hlt, (List.cons.inj hrest).1]
    rw [List.length_cons, behind, ok_bind _ _ _ hbyte, ok_bind _ _ _ (ih (ptr + 1) hbs)]
    rfl

/-- **`net_to_host_endian` returns the pointer it was given.** -/
theorem netToHostEndian_ptr (host : Host) (msg : Message) (ptr : Nat) (w : List NetWord)
    (h : At msg ptr w) :
    ∃ cells, netToHostEndian host msg ptr w.length none = .ok (ptr, cells) := by
  cases host with
  | littleEndian =>
    refine ⟨w.reverse.map some, ?_⟩
    have hown := netToHostEndian_little msg ptr w h (unwritten w.length) (length_unwritten _)
    rw [netToHostEndian, isBigEndian_little, if_neg Bool.false_ne_true] at hown ⊢
    exact hown
  | bigEndian =>
    refine ⟨[], ?_⟩
    rw [netToHostEndian, isBigEndian_big, if_pos rfl]
    rfl

theorem readIntoRaw_eq (host : Host) (msg : Message) (ptr : Nat) (w : List NetWord)
    (h : At msg ptr w) :
    readIntoRaw host msg ptr w.length = .ok (BitVec.ofNat (8 * w.length) (host.ofMemory w)) := by
  obtain ⟨cells, hptr⟩ := netToHostEndian_ptr host msg ptr w h
  rw [readIntoRaw, ok_bind _ _ _ hptr, ok_bind _ _ _ (behind_at msg ptr w h)]
  rfl

/-! ## bytes of a value -/

theorem memory_ofNetBytes (host : Host) (w : List NetWord) :
    w = host.memory w.length (ofNetBytes w) ↔ host = .bigEndian ∨ w.reverse = w := by
  have hnet := netBytes_ofNetBytes w
  cases host with
  | littleEndian =>
    have hmem : Host.littleEndian.memory w.length (ofNetBytes w) = w.reverse := by
      rw [← congrArg List.reverse hnet, netBytes, List.reverse_reverse]
      rfl
    rw [hmem]
    exact ⟨fun h => .inr h.symm, fun h => (h.resolve_left (by decide)).symm⟩
  | bigEndian => exact ⟨fun _ => .inl rfl, fun _ => hnet.symm⟩

theorem ofNetBytes_inj (u w : List NetWord) (hlen : u.length = w.length)
    (h : ofNetBytes u = ofNetBytes w) : u = w := by
  rw [← netBytes_ofNetBytes u, ← netBytes_ofNetBytes w, hlen, h]

theorem ofNetBytes_lt (w : List NetWord) : ofNetBytes w < 2 ^ (8 * w.length) := by
  have h := value_lt byteDigit w.reverse
  rw [List.length_reverse, pow_256] at h
  exact h

/-- the host takes `w` in its memory for the value that `w` has in network order -/
theorem ofMemory_net_iff (host : Host) (w : List NetWord) :
    BitVec.ofNat (8 * w.length) (host.ofMemory w) = BitVec.ofNat (8 * w.length) (ofNetBytes w) ↔
      host = .bigEndian ∨ w.reverse = w := by
  cases host with
  | littleEndian =>
    have hmem : Host.littleEndian.ofMemory w = ofNetBytes w.reverse := by
      rw [ofNetBytes, List.reverse_reverse]
      rfl
    have hlt := ofNetBytes_lt w.reverse
    rw [List.length_reverse] at hlt
    rw [hmem]
    constructor
    · intro h
      have hval := congrArg BitVec.toNat h
      rw [BitVec.toNat_ofNat, BitVec.toNat_ofNat, Nat.mod_eq_of_lt hlt,
        Nat.mod_eq_of_lt (ofNetBytes_lt w)] at hval
      exact .inr (ofNetBytes_inj _ _ List.length_reverse hval)
    · intro h
      rw [h.resolve_left (by decide)]
  | bigEndian => exact ⟨fun _ => .inl rfl, fun _ => rfl⟩

/-! ## the two readers -/

/-- **The raw reader agrees with the integer reader exactly on a big-endian host, and on bytes that
read the same in both directions.**  So do the bytes behind the pointer that `net_to_host_endian`
returns without a destination. -/
theorem readIntoRaw_same_iff (host : Host) (msg : Message) (ptr n : Nat) (hn : 0 < n)
    (w : List NetWord) (hw : w.length = n) (h : At msg ptr w) :
    (HostOrder host msg ptr w ↔ host = .bigEndian ∨ w.reverse = w) ∧
      (SameAsInt host msg ptr n ↔ host = .bigEndian ∨ w.reverse = w) := by
  subst hw
  obtain ⟨cells, hptr⟩ := netToHostEndian_ptr host msg ptr w h
  have hbehind := behind_at msg ptr w h
  have hraw := readIntoRaw_eq host msg ptr w h
  have hint : ∀ inst : Cells, inst.length = w.length →
      readScalar .littleEndian msg ptr w.length inst
        = .ok (BitVec.ofNat (8 * w.length) (ofNetBytes w), ptr + w.length) := fun inst hinst =>
    readScalar_little msg ptr w h hn inst hinst
  constructor
  · rw [← memory_ofNetBytes host w]
    constructor
    · rintro ⟨r, hr, hbytes⟩
      obtain rfl := Except.ok.inj (hptr.symm.trans hr)
      exact Except.ok.inj (hbehind.symm.trans hbytes)
    · intro hmem
      exact ⟨_, hptr, hbehind.trans (congrArg Except.ok hmem)⟩
  · rw [← ofMemory_net_iff host w]
    constructor
    · rintro ⟨v, hv, hall⟩
      obtain rfl := Except.ok.inj (hraw.symm.trans hv)
      have hread := hall (unwritten w.length) (length_unwritten _)
      exact congrArg Prod.fst (Except.ok.inj (hread.symm.trans (hint _ (length_unwritten _))))
    · intro hval
      refine ⟨_, hraw, fun inst hinst => ?_⟩
      rw [hval]
      exact hint inst hinst

/-- three bytes that read the same in both directions, in the middle of a message -/
theorem readIntoRaw_same_iff_palindrome : SameAsInt .littleEndian [9, 1, 2, 1] 1 3 :=
  (readIntoRaw_same_iff .littleEndian [9, 1, 2, 1] 1 3 (by decide) [1, 2, 1] rfl
    ⟨[], by decide⟩).2.mpr (.inr rfl)

/-- the bytes of `7` in network order: `read_into_int` reads `7` and `read_into_raw` reads `0x700` -/
theorem readIntoRaw_swapped :
    (netToHostEndian .littleEndian [0, 7] 0 2 none).map Prod.fst = .ok 0 ∧
      behind [0, 7] 0 2 = .ok [0, 7] ∧ Host.memory .littleEndian 2 7 = [7, 0] ∧
      readIntoRaw .littleEndian [0, 7] 0 2 = .ok 0x700#16 ∧
      readScalar .littleEndian [0, 7] 0 2 (unwritten 2) = .ok (7#16, 2) ∧
      ¬ HostOrder .littleEndian [0, 7] 0 [0, 7] ∧ ¬ SameAsInt .littleEndian [0, 7] 0 2 := by
  have hraw : readIntoRaw .littleEndian [0, 7] 0 2 = .ok 0x700#16 := by decide
  have hint : readScalar .littleEndian [0, 7] 0 2 (unwritten 2) = .ok (7#16, 2) := by decide
  refine ⟨by decide, by decide, by decide, hraw, hint, ?_, ?_⟩
  · rintro ⟨r, hr, hbytes⟩
    have hptr : netToHostEndian .littleEndian [0, 7] 0 2 none = .ok (0, [some 7, some 0]) := by
      decide
    obtain rfl := Except.ok.inj (hptr.symm.trans hr)
    revert hbytes
    decide
  · rintro ⟨v, hv, hall⟩
    obtain rfl := Except.ok.inj (hraw.symm.trans hv)
    have hread := hall (unwritten 2) rfl
    rw [hint] at hread
    have hval := congrArg Prod.fst (Except.ok.inj hread)
    revert hval
    decide

end VoltNet
