import VoltNet.Serialize.Write
import VoltNet.Lib.Fallible

/-!
# `deserialize::read_into`

The reading side of `serialization_ext.cpp` and `net_serialize.hpp`, under the same assumptions as
the writing side.  Nothing there looks at the end of the message; the model does, and stops with a
`ReadFault` at the first access that the C++ code has no right to.

* `netToHostEndian`   its loop, with the pointer it returns;
* `readInto`          the overloads, on a destination that already holds something;
* `At`                a word stands at a position of the message;
* `readScalar_little`, `readScalar_big`, `readScalar_unwritten`, `readScalar_short`
                      all that a fixed-width read can do.
-/

namespace VoltNet
open Positional Fallible

inductive ReadFault where
  /-- the message is accessed at or beyond its end -/
  | pastEnd (index : Nat)
  /-- the iterator passes `msg->end()` -/
  | iterPastEnd (pos : Nat)
  /-- a variable is used that nothing has been stored in -/
  | indeterminate
deriving DecidableEq

/-- the faults of a read that does not stay inside the message -/
def ReadFault.leaves : ReadFault → Bool
  | .pastEnd _ | .iterPastEnd _ => true
  | .indeterminate => false

/-- an object in memory, byte by byte: `none` where nothing has been stored -/
abbrev Cells := List (Option NetWord)

/-- an object that holds an `n`-byte value -/
def stored (host : Host) (n v : Nat) : Cells := (host.memory n v).map some

/-- an uninitialised object -/
def unwritten (n : Nat) : Cells := List.replicate n none

/-! ## `net_to_host_endian` -/

def access (msg : Message) (index : Nat) : Except ReadFault NetWord :=
  match msg[index]? with
  | some b => .ok b
  | none => .error (.pastEnd index)

/-- the first `i` turns of the loop -/
def copyReversed (msg : Message) (ptr size : Nat) : Nat → Cells → Except ReadFault Cells
  | 0, dest => .ok dest
  | i + 1, dest => do
    let dest ← copyReversed msg ptr size i dest
    let b ← access msg (ptr + (size - 1 - i))
    return dest.set i (some b)

/-- on the message from index `ptr`: the pointer returned, and what is behind the destination
afterwards; without one the loop fills a buffer of its own -/
def netToHostEndian (host : Host) (msg : Message) (ptr size : Nat) (destPtr : Option Cells) :
    Except ReadFault (Nat × Cells) :=
  if host.isBigEndian then .ok (ptr, destPtr.getD [])
  else do
    let dest ← copyReversed msg ptr size size (destPtr.getD (unwritten size))
    return (ptr, dest)

/-! ## the overloads -/

/-- `iterator += n` -/
def advance (msg : Message) (pos n : Nat) : Except ReadFault Nat :=
  if pos + n ≤ msg.length then .ok (pos + n) else .error (.iterPastEnd (pos + n))

/-- also the body of the overloads for `float` and `double` -/
def readIntoInt (host : Host) (msg : Message) (pos size : Nat) (inst : Cells) :
    Except ReadFault (Cells × Nat) := do
  let r ← netToHostEndian host msg pos size (some inst)
  let pos ← advance msg pos size
  return (r.2, pos)

/-- use of the value of an object -/
def Host.load (host : Host) (cells : Cells) : Except ReadFault Nat :=
  match cells.mapM id with
  | some bytes => .ok (host.ofMemory bytes)
  | none => .error .indeterminate

def readScalar (host : Host) (msg : Message) (pos n : Nat) (inst : Cells) :
    Except ReadFault (BitVec (8 * n) × Nat) := do
  let r ← readIntoInt host msg pos n inst
  let v ← host.load r.1
  return (BitVec.ofNat (8 * n) v, r.2)

/-- the loop of `read_into_array`; `val` is `T()` -/
def readElems {α : Type} (readElem : Nat → α → Except ReadFault (α × Nat)) (val : α) :
    Nat → Nat → List α → Except ReadFault (List α × Nat)
  | 0, pos, array => .ok (array, pos)
  | n + 1, pos, array => do
    let r ← readElem pos val
    readElems readElem val n r.2 (array ++ [r.1])

def readIntoArray {α : Type} (host : Host) (msg : Message)
    (readElem : Nat → α → Except ReadFault (α × Nat)) (val : α) (pos : Nat) (array : List α) :
    Except ReadFault (List α × Nat) := do
  let arraySize ← readScalar host msg pos 4 (unwritten 4)
  readElems readElem val arraySize.1.toNat arraySize.2 array

/-- the loop of the `std::array` overload -/
def readEach {α : Type} (readElem : Nat → α → Except ReadFault (α × Nat)) :
    (n : Nat) → Nat → List.Vector α n → Except ReadFault (List.Vector α n × Nat)
  | 0, pos, inst => .ok (inst, pos)
  | n + 1, pos, inst => do
    let r ← readElem pos inst.head
    let rs ← readEach readElem n r.2 inst.tail
    return (List.Vector.cons r.1 rs.1, rs.2)

def readInt (host : Host) (msg : Message) (n pos : Nat) (inst : BitVec (8 * n)) :
    Except ReadFault (BitVec (8 * n) × Nat) := readScalar host msg pos n (stored host n inst.toNat)

def readBool (host : Host) (msg : Message) (pos : Nat) : Except ReadFault (Bool × Nat) := do
  let val ← readScalar host msg pos 1 (unwritten 1)
  return (val.1 != 0, val.2)

/-- a local vector is read, then appended -/
def readString (host : Host) (msg : Message) (pos : Nat) (inst : List (BitVec (8 * 1))) :
    Except ReadFault (List (BitVec (8 * 1)) × Nat) := do
  let charVec ← readIntoArray host msg (readInt host msg 1) 0 pos []
  return (inst ++ charVec.1, charVec.2)

def readInto (host : Host) (D : Defaults) (msg : Message) :
    (t : Ty) → Nat → t.Val → Except ReadFault (t.Val × Nat)
  | .int k, pos, inst => readInt host msg k.size pos inst
  | .bool, pos, _ => readBool host msg pos
  | .float, pos, inst => readInt host msg 4 pos inst
  | .double, pos, inst => readInt host msg 8 pos inst
  | .string, pos, inst => readString host msg pos inst
  | .vector t, pos, inst => readIntoArray host msg (readInto host D msg t) (t.init D) pos inst
  | .array t n, pos, inst => readEach (readInto host D msg t) n pos inst
  | .struct _ fields, pos, inst => readInto host D msg fields pos inst
  | .done, pos, _ => .ok ((), pos)
  | .field t rest, pos, inst => do
    let r ← readInto host D msg t pos inst.1
    let rs ← readInto host D msg rest r.2 inst.2
    return ((r.1, rs.1), rs.2)

/-- `read_msg` into each of `insts` -/
def readMsgs (host : Host) (D : Defaults) (msg : Message) :
    Nat → List Instance → Except ReadFault (List Instance × Nat)
  | pos, [] => .ok ([], pos)
  | pos, inst :: insts => do
    let r ← readInto host D msg inst.1 pos inst.2
    let rs ← readMsgs host D msg r.2 insts
    return (⟨inst.1, r.1⟩ :: rs.1, rs.2)

/-! ## reads one after the other -/

theorem readInto_field (host : Host) (D : Defaults) (msg : Message) (t rest : Ty) (pos : Nat)
    (inst : (Ty.field t rest).Val) (r : t.Val × Nat) (rs : rest.Val × Nat)
    (h1 : readInto host D msg t pos inst.1 = .ok r)
    (h2 : readInto host D msg rest r.2 inst.2 = .ok rs) :
    readInto host D msg (.field t rest) pos inst = .ok ((r.1, rs.1), rs.2) := by
  rw [readInto, ok_bind _ _ _ h1, ok_bind _ _ _ h2]
  rfl

theorem readMsgs_cons (host : Host) (D : Defaults) (msg : Message) (pos : Nat) (inst : Instance)
    (insts : List Instance) (r : inst.1.Val × Nat) (rs : List Instance × Nat)
    (h1 : readInto host D msg inst.1 pos inst.2 = .ok r)
    (h2 : readMsgs host D msg r.2 insts = .ok rs) :
    readMsgs host D msg pos (inst :: insts) = .ok (⟨inst.1, r.1⟩ :: rs.1, rs.2) := by
  rw [readMsgs, ok_bind _ _ _ h1, ok_bind _ _ _ h2]
  rfl

/-! ## words in a message -/

/-- the word `w` stands in the message at `pos` -/
def At (msg : Message) (pos : Nat) (w : List NetWord) : Prop := w <+: msg.drop pos

theorem at_nil (msg : Message) (pos : Nat) : At msg pos [] := List.nil_prefix

theorem at_append (msg : Message) (pos : Nat) (u v : List NetWord) :
    At msg pos (u ++ v) ↔ At msg pos u ∧ At msg (pos + u.length) v := by
  constructor
  · intro h
    obtain ⟨rest, hrest⟩ := h
    rw [List.append_assoc] at hrest
    refine ⟨⟨v ++ rest, hrest⟩, rest, ?_⟩
    rw [← List.drop_drop, ← hrest, List.drop_left]
  · intro h
    obtain ⟨⟨r, hr⟩, ⟨rest, hv⟩⟩ := h
    rw [← List.drop_drop, ← hr, List.drop_left] at hv
    exact ⟨rest, by rw [List.append_assoc, hv, hr]⟩

theorem At.length_le {msg : Message} {pos : Nat} {w : List NetWord} (h : At msg pos w)
    (hw : 0 < w.length) : pos + w.length ≤ msg.length := by
  have h1 : w.length ≤ (msg.drop pos).length := List.IsPrefix.length_le h
  rw [List.length_drop] at h1
  omega

theorem At.take {msg : Message} {pos : Nat} {w : List NetWord} (h : At msg pos w) :
    (msg.drop pos).take w.length = w := by
  obtain ⟨rest, hr⟩ := h
  rw [← hr, List.take_left]

theorem at_take (msg : Message) (pos n : Nat) : At msg pos ((msg.drop pos).take n) :=
  List.take_prefix n _

theorem length_take_drop (msg : Message) (pos n : Nat) (h : pos + n ≤ msg.length) :
    ((msg.drop pos).take n).length = n := by
  rw [List.length_take, List.length_drop]
  omega

/-! ## fixed-width reads -/

theorem load_stored (host : Host) (bytes : List NetWord) :
    host.load (bytes.map some) = .ok (host.ofMemory bytes) := by
  have h : (bytes.map some).mapM id = some bytes := by
    induction bytes with
    | nil => rfl
    | cons b bs ih => rw [List.map_cons, List.mapM_cons, ih]; rfl
  rw [Host.load, h]

theorem load_unwritten (host : Host) (n : Nat) (h : 0 < n) :
    host.load (unwritten n) = .error .indeterminate := by
  obtain ⟨m, rfl⟩ := Nat.exists_eq_succ_of_ne_zero h.ne'
  have h : (unwritten (m + 1)).mapM id = none := by
    rw [unwritten, List.replicate_succ, List.mapM_cons]
    rfl
  rw [Host.load, h]

theorem access_ok (msg : Message) (index : Nat) (h : index < msg.length) :
    access msg index = .ok msg[index] := by
  rw [access, List.getElem?_eq_getElem h]

theorem access_error (msg : Message) (index : Nat) (h : msg.length ≤ index) :
    access msg index = .error (.pastEnd index) := by
  rw [access, List.getElem?_eq_none h]

/-- after `i` turns the first `i` bytes of the destination are the last ones read, reversed -/
theorem copyReversed_ok (msg : Message) (ptr : Nat) (w : List NetWord) (h : At msg ptr w)
    (dest : Cells) (hdest : dest.length = w.length) (i : Nat) (hi : i ≤ w.length) :
    copyReversed msg ptr w.length i dest
      = .ok ((w.reverse.take i).map some ++ dest.drop i) := by
  induction i with
  | zero => rfl
  | succ i ih =>
    have hlen := h.length_le (by omega)
    have hidx : ptr + (w.length - 1 - i) < msg.length := by omega
    have hri : i < w.reverse.length := by rw [List.length_reverse]; omega
    have hbyte : msg[ptr + (w.length - 1 - i)] = w.reverse[i] := by
      obtain ⟨rest, hr⟩ := h
      have h1 : msg[ptr + (w.length - 1 - i)]? = w[w.length - 1 - i]? := by
        rw [← List.getElem?_drop, ← hr, List.getElem?_append_left (by omega)]
      rw [List.getElem_reverse]
      rw [List.getElem?_eq_getElem hidx, List.getElem?_eq_getElem (by omega)] at h1
      exact Option.some.inj h1
    rw [copyReversed, ok_bind _ _ _ (ih (by omega)), ok_bind _ _ _ (access_ok msg _ hidx), hbyte]
    show Except.ok _ = _
    congr 1
    have hl : ((w.reverse.take i).map some).length = i := by
      rw [List.length_map, List.length_take]
      omega
    rw [List.take_succ_eq_append_getElem hri, List.map_append,
      List.set_append_right _ _ (by omega), hl, Nat.sub_self, List.drop_eq_getElem_cons (by omega),
      List.set_cons_zero, List.append_assoc]
    rfl

theorem copyReversed_error (msg : Message) (ptr size : Nat) (dest : Cells)
    (h : msg.length < ptr + size) (i : Nat) (hi : 0 < i) (hs : i ≤ size) :
    copyReversed msg ptr size i dest = .error (.pastEnd (ptr + (size - 1))) := by
  induction i with
  | zero => cases hi
  | succ i ih =>
    rw [copyReversed]
    cases i with
    | zero =>
      rw [copyReversed, ok_bind _ _ _ rfl, error_bind _ _ _ (access_error msg _ (by omega))]
      rfl
    | succ i => exact error_bind _ _ _ (ih (by omega) (by omega))

theorem netToHostEndian_little (msg : Message) (ptr : Nat) (w : List NetWord) (h : At msg ptr w)
    (dest : Cells) (hdest : dest.length = w.length) :
    netToHostEndian .littleEndian msg ptr w.length (some dest)
      = .ok (ptr, w.reverse.map some) := by
  have hcopy := copyReversed_ok msg ptr w h dest hdest w.length le_rfl
  rw [← hdest, List.drop_length, List.append_nil, hdest, ← List.length_reverse,
    List.take_length, List.length_reverse] at hcopy
  rw [netToHostEndian, isBigEndian_little, if_neg Bool.false_ne_true]
  exact ok_bind _ _ _ hcopy

theorem readIntoInt_little (msg : Message) (pos : Nat) (w : List NetWord) (h : At msg pos w)
    (hw : 0 < w.length) (inst : Cells) (hinst : inst.length = w.length) :
    readIntoInt .littleEndian msg pos w.length inst
      = .ok (w.reverse.map some, pos + w.length) := by
  rw [readIntoInt, ok_bind _ _ _ (netToHostEndian_little msg pos w h inst hinst), advance,
    if_pos (h.length_le hw)]
  rfl

theorem readScalar_little (msg : Message) (pos : Nat) (w : List NetWord) (h : At msg pos w)
    (hw : 0 < w.length) (inst : Cells) (hinst : inst.length = w.length) :
    readScalar .littleEndian msg pos w.length inst
      = .ok (BitVec.ofNat (8 * w.length) (ofNetBytes w), pos + w.length) := by
  have hint := readIntoInt_little msg pos w h hw inst hinst
  rw [readScalar, ok_bind _ _ _ hint, ok_bind _ _ _ (load_stored .littleEndian w.reverse)]
  rfl

theorem readIntoInt_big (msg : Message) (pos n : Nat) (inst : Cells) (h : pos + n ≤ msg.length) :
    readIntoInt .bigEndian msg pos n inst = .ok (inst, pos + n) := by
  rw [readIntoInt, netToHostEndian, isBigEndian_big, if_pos rfl, advance, if_pos h]
  rfl

/-- a big-endian host leaves what was there -/
theorem readScalar_big (msg : Message) (pos n : Nat) (h : pos + n ≤ msg.length)
    (v : BitVec (8 * n)) :
    readScalar .bigEndian msg pos n (stored .bigEndian n v.toNat) = .ok (v, pos + n) := by
  rw [readScalar, ok_bind _ _ _ (readIntoInt_big msg pos n _ h), stored,
    ok_bind _ _ _ (load_stored _ _), ofMemory_memory,
    Nat.mod_eq_of_lt (by rw [pow_256]; exact v.isLt), BitVec.ofNat_toNat, BitVec.setWidth_eq]
  rfl

theorem readScalar_unwritten (msg : Message) (pos n : Nat) (h : pos + n ≤ msg.length)
    (hn : 0 < n) : readScalar .bigEndian msg pos n (unwritten n) = .error .indeterminate := by
  rw [readScalar, ok_bind _ _ _ (readIntoInt_big msg pos n _ h),
    error_bind _ _ _ (load_unwritten _ n hn)]

/-- too few bytes left: either host leaves the message -/
theorem readScalar_short (host : Host) (msg : Message) (pos n : Nat) (h : msg.length < pos + n)
    (hn : 0 < n) (inst : Cells) :
    ∃ f, f.leaves = true ∧ readScalar host msg pos n inst = .error f := by
  cases host with
  | littleEndian =>
    refine ⟨.pastEnd (pos + (n - 1)), rfl, ?_⟩
    rw [readScalar, readIntoInt, netToHostEndian, isBigEndian_little, if_neg Bool.false_ne_true]
    have hcopy := copyReversed_error msg pos n inst h n hn le_rfl
    exact error_bind _ _ _ (error_bind _ _ _ (error_bind _ _ _ hcopy))
  | bigEndian =>
    refine ⟨.iterPastEnd (pos + n), rfl, ?_⟩
    rw [readScalar, readIntoInt, netToHostEndian, isBigEndian_big, if_pos rfl, advance,
      if_neg (by omega)]
    rfl

theorem length_stored (host : Host) (n v : Nat) : (stored host n v).length = n := by
  rw [stored, List.length_map, length_memory]

theorem length_unwritten (n : Nat) : (unwritten n).length = n := List.length_replicate

end VoltNet
