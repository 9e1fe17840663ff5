import VoltNet.Serialize.Types

/-!
# `serialize::write_into`

The writing side of `serialization_ext.cpp` and `net_serialize.hpp`, with floating point numbers
of the format `is_iec559` and memory for whatever is reserved.

* `writeInto`      the overloads, with `writeIntoByteArray` and `writeIntoArray` under them;
* `Ty.wire`        the network form of a value: most significant byte first, a 32-bit count
                   before the elements of a container;
* `writeInto_eq`   on either kind of host a value goes out as its network form, stuffed.
-/

namespace VoltNet
open Stuffing Positional

/-! ## `write_into_byte_array` and `write_into_array` -/

/-- the two loops of `write_into_byte_array` -/
def writeWords (host : Host) (bytes : List NetWord) (data : Message)
    (correctEndianness : Bool) : Message :=
  if host.isBigEndian || !correctEndianness then writeBytes bytes data
  else writeBytes bytes.reverse data

/-- `write_into<message_array_size>`; the argument is cast to 32 bits by the callers -/
def writeArraySize (host : Host) (n : Nat) (data : Message) : Message :=
  writeWords host (host.memory 4 (n % 2 ^ 32)) data true

def writeIntoByteArray (host : Host) (bytes : List NetWord) (data : Message)
    (correctEndianness writeSize : Bool) : Message :=
  writeWords host bytes (if writeSize then writeArraySize host bytes.length data else data)
    correctEndianness

def writeIntoArray {α : Type} (host : Host) (writeElem : α → Message → Message) (v : List α)
    (data : Message) (writeSize : Bool) : Message :=
  v.foldl (fun data inst => writeElem inst data)
    (if writeSize then writeArraySize host v.length data else data)

/-! ## the overloads -/

def writeInt (host : Host) (k : IntTy) (v : BitVec (8 * k.size)) (data : Message) : Message :=
  match k with
  | .uint8 => writeByte (UInt8.ofNat v.toNat) data
  | k => writeIntoByteArray host (host.memory k.size v.toNat) data true false

/-- `behind data` are the four bytes that happen to stand behind a `float` in memory when it is
written to a message that holds `data`: its overload takes `sizeof(double)` bytes -/
def writeInto (host : Host) (behind : Message → List.Vector NetWord 4) :
    (t : Ty) → t.Val → Message → Message
  | .int k, v, data => writeInt host k v data
  | .bool, v, data => writeInt host .uint8 (BitVec.ofNat (8 * 1) (Bool.toNat v)) data
  | .float, v, data =>
    writeIntoByteArray host (host.memory 4 (BitVec.toNat v) ++ (behind data).toList) data true false
  | .double, v, data => writeIntoByteArray host (host.memory 8 (BitVec.toNat v)) data true false
  | .string, v, data => writeIntoArray host (writeInt host .char) v data true
  | .vector t, v, data => writeIntoArray host (writeInto host behind t) v data true
  | .array t _, v, data =>
    (List.Vector.toList v).foldl (fun data elem => writeInto host behind t elem data) data
  | .struct _ fields, v, data => writeInto host behind fields v data
  | .done, _, data => data
  | .field t rest, v, data => writeInto host behind rest v.2 (writeInto host behind t v.1 data)

/-- a value with its type, as an argument of `write_msg` or `read_msg` -/
abbrev Instance := Σ t : Ty, t.Val

/-- `write_msg` on each of `vs` -/
def writeMsgs (host : Host) (behind : Message → List.Vector NetWord 4) (vs : List Instance)
    (data : Message) : Message :=
  vs.foldl (fun data v => writeInto host behind v.1 v.2 data) data

/-! ## the network form -/

def Ty.wire : (t : Ty) → t.Val → List NetWord
  | .int k, v => netBytes k.size (BitVec.toNat v)
  | .bool, v => netBytes 1 (Bool.toNat v)
  | .float, v => netBytes 4 (BitVec.toNat v)
  | .double, v => netBytes 8 (BitVec.toNat v)
  | .string, v => netBytes 4 (List.length v) ++ List.flatMap (fun c => netBytes 1 c.toNat) v
  | .vector t, v => netBytes 4 (List.length v) ++ List.flatMap t.wire v
  | .array t _, v => (List.Vector.toList v).flatMap t.wire
  | .struct _ fields, v => fields.wire v
  | .done, _ => []
  | .field t rest, v => t.wire v.1 ++ rest.wire v.2

def wireAll (vs : List Instance) : List NetWord := vs.flatMap fun v => v.1.wire v.2

theorem writeWords_memory (host : Host) (n v : Nat) (data : Message) :
    writeWords host (host.memory n v) data true = data ++ stuffAll codes (netBytes n v) := by
  cases host with
  | littleEndian => exact writeBytes_eq (netBytes n v) data
  | bigEndian => exact writeBytes_eq (netBytes n v) data

theorem netBytes_mod (n v : Nat) : netBytes n (v % 256 ^ n) = netBytes n v := by
  have h : digits byteDigit n (v % 256 ^ n) = digits byteDigit n v := by
    have h1 := digits_value byteDigit (digits byteDigit n v)
    rw [length_digits, value_digits] at h1
    exact h1
  rw [netBytes, h, netBytes]

theorem writeArraySize_eq (host : Host) (n : Nat) (data : Message) :
    writeArraySize host n data = data ++ stuffAll codes (netBytes 4 n) := by
  rw [writeArraySize, writeWords_memory]
  exact congrArg (data ++ stuffAll codes ·) (netBytes_mod 4 n)

theorem netBytes_one (v : Nat) : netBytes 1 v = [UInt8.ofNat v] := rfl

theorem writeInt_eq (host : Host) (k : IntTy) (v : BitVec (8 * k.size)) (data : Message) :
    writeInt host k v data = data ++ stuffAll codes (netBytes k.size v.toNat) := by
  cases k with
  | uint8 =>
    show writeByte (UInt8.ofNat v.toNat) data = data ++ stuffAll codes (netBytes 1 v.toNat)
    rw [netBytes_one, writeByte_eq, stuffAll_cons, stuffAll_nil, List.append_nil]
  | char | int8 | uint16 | int16 | uint32 | int32 | uint64 | int64 =>
    exact writeWords_memory host _ v.toNat data

/-- elements written one after the other -/
theorem foldl_write {α : Type} (write : α → Message → Message) (wire : α → List NetWord)
    (l : List α) (data : Message)
    (h : ∀ x data, write x data = data ++ stuffAll codes (wire x)) :
    l.foldl (fun data x => write x data) data = data ++ stuffAll codes (l.flatMap wire) := by
  induction l generalizing data with
  | nil => rw [List.foldl_nil, List.flatMap_nil, stuffAll_nil, List.append_nil]
  | cons x l ih =>
    rw [List.foldl_cons, ih, h, List.flatMap_cons, stuffAll_append, List.append_assoc]

theorem writeIntoArray_eq {α : Type} (host : Host) (write : α → Message → Message)
    (wire : α → List NetWord) (l : List α) (data : Message)
    (h : ∀ x data, write x data = data ++ stuffAll codes (wire x)) :
    writeIntoArray host write l data true
      = data ++ stuffAll codes (netBytes 4 l.length ++ l.flatMap wire) := by
  rw [writeIntoArray, if_pos rfl, foldl_write write wire l _ h, writeArraySize_eq,
    List.append_assoc, stuffAll_append]

/-- **A value goes out as its network form, stuffed, from either kind of host.** -/
theorem writeInto_eq (host : Host) (behind : Message → List.Vector NetWord 4) (t : Ty)
    (ht : t.FloatFree) (v : t.Val) (data : Message) :
    writeInto host behind t v data = data ++ stuffAll codes (t.wire v) := by
  induction t generalizing data with
  | int k => exact writeInt_eq host k v data
  | bool => exact (writeInt_eq host .uint8 _ data).trans (by cases v <;> rfl)
  | float => exact ht.elim
  | double => exact writeWords_memory host 8 (BitVec.toNat v) data
  | string => exact writeIntoArray_eq host _ _ v data fun x data => writeInt_eq host .char x data
  | vector t ih => exact writeIntoArray_eq host _ _ v data fun x data => ih ht x data
  | array t n ih => exact foldl_write _ _ (List.Vector.toList v) data fun x data => ih ht x data
  | struct name fields ih => exact ih ht v data
  | done => exact (List.append_nil data).symm
  | field t rest iht ihr =>
    show writeInto host behind rest v.2 (writeInto host behind t v.1 data) = _
    rw [iht ht.1, ihr ht.2, List.append_assoc, ← stuffAll_append]
    rfl

theorem writeMsgs_eq (host : Host) (behind : Message → List.Vector NetWord 4)
    (vs : List Instance) (hvs : ∀ v ∈ vs, v.1.FloatFree) (data : Message) :
    writeMsgs host behind vs data = data ++ stuffAll codes (wireAll vs) := by
  induction vs generalizing data with
  | nil => exact (List.append_nil data).symm
  | cons v vs ih =>
    show writeMsgs host behind vs (writeInto host behind v.1 v.2 data) = _
    rw [ih (fun u hu => hvs u (List.mem_cons_of_mem v hu)),
      writeInto_eq host behind v.1 (hvs v List.mem_cons_self), List.append_assoc,
      ← stuffAll_append]
    rfl

/-- a message of values, closed with `end_msg`, is one frame -/
theorem endMsg_writeMsgs (host : Host) (behind : Message → List.Vector NetWord 4)
    (vs : List Instance) (hvs : ∀ v ∈ vs, v.1.FloatFree) :
    endMsg (writeMsgs host behind vs []) = encode (wireAll vs) := by
  rw [writeMsgs_eq host behind vs hvs, List.nil_append, endMsg_eq, encode_eq, frame]

end VoltNet
