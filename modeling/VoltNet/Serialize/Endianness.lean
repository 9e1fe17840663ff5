import VoltNet.Serialize.Read

/-!
# Writers and readers of different byte order

Both paths of `write_into_byte_array` put the most significant byte first.  Of the two paths of
`net_to_host_endian` only the little-endian one stores anything: a big-endian host gets the
pointer back and `read_into_int` does nothing with it.

* `unescape`                     the bytes behind the escaping of an emitted word;
* `unescape_writeIntoByteArray`  they do not depend on the writing host;
* `readIntoInt_written_iff`      the reading host gets the value exactly when it is
                                 little-endian or its destination held the value already.
-/

namespace VoltNet
open Stuffing Positional Fallible

/-- what a fresh decoder makes of a word without a terminator -/
def unescape (w : List NetWord) : List NetWord := (run codes ⟨[], false⟩ w).recv

theorem unescape_stuffAll (w : List NetWord) : unescape (stuffAll codes w) = w := by
  rw [unescape, run_stuffAll]
  rfl

theorem writeIntoByteArray_memory (host : Host) (n v : Nat) (data : Message) :
    writeIntoByteArray host (host.memory n v) data true false
      = data ++ stuffAll codes (netBytes n v) := writeWords_memory host n v data

/-- **Both hosts emit the bytes of a value with the most significant one first.** -/
theorem unescape_writeIntoByteArray (host : Host) (n v : Nat) :
    unescape (writeIntoByteArray host (host.memory n v) [] true false) = netBytes n v := by
  rw [writeIntoByteArray_memory, List.nil_append, unescape_stuffAll]

theorem stored_little (n v : Nat) :
    stored .littleEndian n v = (netBytes n v).reverse.map some := by
  rw [netBytes, List.reverse_reverse]
  rfl

theorem stored_ne_unwritten (host : Host) (n v : Nat) (hn : 0 < n) :
    unwritten n ≠ stored host n v := by
  intro h
  have hload := load_unwritten host n hn
  rw [h, stored, load_stored] at hload
  cases hload

/-- **Any two hosts agree on the bytes, and the reader gets the value exactly when it is
little-endian or its destination held the value before.** -/
theorem readIntoInt_written_iff (writer reader : Host) (n : Nat) (hn : 0 < n) (v : BitVec (8 * n))
    (msg : Message) (pos : Nat)
    (h : At msg pos
      (unescape (writeIntoByteArray writer (writer.memory n v.toNat) [] true false))) :
    (∀ data, writeIntoByteArray writer (writer.memory n v.toNat) data true false
      = data ++ writeIntoByteArray writer (writer.memory n v.toNat) [] true false) ∧
    unescape (writeIntoByteArray writer (writer.memory n v.toNat) [] true false)
      = netBytes n v.toNat ∧
    (∀ inst : Cells, inst.length = n →
      (readIntoInt reader msg pos n inst = .ok (stored reader n v.toNat, pos + n) ↔
        reader = .littleEndian ∨ inst = stored reader n v.toNat)) ∧
    ((∀ inst : Cells, inst.length = n →
      readIntoInt reader msg pos n inst = .ok (stored reader n v.toNat, pos + n)) ↔
        reader = .littleEndian) := by
  rw [unescape_writeIntoByteArray] at h
  have hlen := length_netBytes n v.toNat
  have hiff : ∀ inst : Cells, inst.length = n →
      (readIntoInt reader msg pos n inst = .ok (stored reader n v.toNat, pos + n) ↔
        reader = .littleEndian ∨ inst = stored reader n v.toNat) := by
    intro inst hinst
    cases reader with
    | littleEndian =>
      have hread := readIntoInt_little msg pos _ h (by rw [hlen]; exact hn) inst
        (by rw [hlen, hinst])
      rw [hlen, ← stored_little] at hread
      exact ⟨fun _ => .inl rfl, fun _ => hread⟩
    | bigEndian =>
      have hle := h.length_le (by rw [hlen]; exact hn)
      rw [hlen] at hle
      rw [readIntoInt_big msg pos n inst hle]
      constructor
      · intro heq
        exact .inr (congrArg Prod.fst (Except.ok.inj heq))
      · intro hor
        rw [hor.resolve_left (by decide)]
  refine ⟨fun data => ?_, unescape_writeIntoByteArray writer n v.toNat, hiff, fun hall => ?_,
    fun hlittle inst hinst => (hiff inst hinst).mpr (.inl hlittle)⟩
  · rw [writeIntoByteArray_memory, writeIntoByteArray_memory, List.nil_append]
  · have hread := hall (unwritten n) (length_unwritten n)
    exact ((hiff (unwritten n) (length_unwritten n)).mp hread).resolve_right
      (stored_ne_unwritten reader n v.toNat hn)

/-- `0x01FF` written on a big-endian host and read on a little-endian one -/
theorem readIntoInt_written_iff_mixed :
    readIntoInt .littleEndian [9, 1, 255] 1 2 (unwritten 2)
      = .ok (stored .littleEndian 2 0x01FF, 3) :=
  ((readIntoInt_written_iff .bigEndian .littleEndian 2 (by decide) 0x01FF#16 [9, 1, 255] 1
    ⟨[], by decide⟩).2.2.1 (unwritten 2) rfl).mpr (.inl rfl)

/-- the value `7` read on a big-endian host into an object that holds `5` -/
theorem readIntoInt_unstored :
    unescape (writeIntoByteArray .littleEndian (Host.memory .littleEndian 2 7) [] true false)
      = [0, 7] ∧
    readIntoInt .bigEndian [0, 7] 0 2 (stored .bigEndian 2 5) = .ok (stored .bigEndian 2 5, 2) ∧
    ¬ ∀ inst : Cells, inst.length = 2 →
      readIntoInt .bigEndian [0, 7] 0 2 inst = .ok (stored .bigEndian 2 7, 2) := by
  have hread : readIntoInt .bigEndian [0, 7] 0 2 (stored .bigEndian 2 5)
      = .ok (stored .bigEndian 2 5, 2) := readIntoInt_big [0, 7] 0 2 _ (by decide)
  refine ⟨by decide, hread, ?_⟩
  intro hall
  have h7 := hall (stored .bigEndian 2 5) (by decide)
  rw [hread] at h7
  have hcells := congrArg Prod.fst (Except.ok.inj h7)
  revert hcells
  decide

end VoltNet
