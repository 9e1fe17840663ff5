import VoltNet.Framing.Encode
import VoltNet.Lib.Positional
import Mathlib.Data.Vector.Basic

/-!
# Serialisable types and host memory

* `Host`, `Host.memory`   the two byte orders, and an unsigned value in the memory of a host;
* `Ty`, `Ty.Val`          the types that `write_into` and `read_into` have overloads for;
* `Defaults`              what the program's own structs hold when they are created;
* `Short`, `Blank`        counts that fit their 32-bit prefix; containers that are empty.
-/

namespace VoltNet
open Positional

/-! ## host memory -/

/-- a byte as a digit in base 256 -/
def byteDigit : NetWord ≃ Fin 256 where
  toFun := UInt8.toFin
  invFun := UInt8.ofFin
  left_inv _ := rfl
  right_inv _ := rfl

inductive Host where
  | littleEndian
  | bigEndian
deriving DecidableEq

/-- the bytes of an `n`-byte value, by ascending address -/
def Host.memory (host : Host) (n v : Nat) : List NetWord :=
  match host with
  | .littleEndian => digits byteDigit n v
  | .bigEndian => (digits byteDigit n v).reverse

/-- the value that bytes in memory stand for -/
def Host.ofMemory (host : Host) (bytes : List NetWord) : Nat :=
  match host with
  | .littleEndian => value byteDigit bytes
  | .bigEndian => value byteDigit bytes.reverse

/-- `is_big_endian`: the first byte of `0x01020304` is `1` -/
def Host.isBigEndian (host : Host) : Bool := (host.memory 4 0x01020304).head? == some 1

@[simp] theorem isBigEndian_little : Host.littleEndian.isBigEndian = false := by decide

@[simp] theorem isBigEndian_big : Host.bigEndian.isBigEndian = true := by decide

@[simp] theorem length_memory (host : Host) (n v : Nat) : (host.memory n v).length = n := by
  cases host with
  | littleEndian => exact length_digits _ n v
  | bigEndian => rw [Host.memory, List.length_reverse, length_digits]

theorem ofMemory_memory (host : Host) (n v : Nat) :
    host.ofMemory (host.memory n v) = v % 256 ^ n := by
  cases host with
  | littleEndian => exact value_digits _ n v
  | bigEndian => rw [Host.memory, Host.ofMemory, List.reverse_reverse, value_digits]

/-- network order: the most significant byte first -/
def netBytes (n v : Nat) : List NetWord := (digits byteDigit n v).reverse

/-- the value of bytes in network order -/
def ofNetBytes (bytes : List NetWord) : Nat := value byteDigit bytes.reverse

@[simp] theorem length_netBytes (n v : Nat) : (netBytes n v).length = n := by
  rw [netBytes, List.length_reverse, length_digits]

theorem ofNetBytes_netBytes (n v : Nat) : ofNetBytes (netBytes n v) = v % 256 ^ n := by
  rw [ofNetBytes, netBytes, List.reverse_reverse, value_digits]

theorem netBytes_ofNetBytes (w : List NetWord) : netBytes w.length (ofNetBytes w) = w := by
  have h := digits_value byteDigit w.reverse
  rw [List.length_reverse] at h
  rw [netBytes, ofNetBytes, h, List.reverse_reverse]

theorem pow_256 (n : Nat) : 256 ^ n = 2 ^ (8 * n) := by rw [Nat.pow_mul]

theorem ofNat_ofNetBytes (n : Nat) (v : BitVec (8 * n)) :
    BitVec.ofNat (8 * n) (ofNetBytes (netBytes n v.toNat)) = v := by
  rw [ofNetBytes_netBytes, Nat.mod_eq_of_lt (by rw [pow_256]; exact v.isLt), BitVec.ofNat_toNat,
    BitVec.setWidth_eq]

/-! ## types -/

/-- the integer types with a `write_into` and a `read_into` of their own -/
inductive IntTy where
  | char
  | uint8
  | int8
  | uint16
  | int16
  | uint32
  | int32
  | uint64
  | int64
deriving DecidableEq

/-- `sizeof` -/
def IntTy.size : IntTy → Nat
  | .char | .uint8 | .int8 => 1
  | .uint16 | .int16 => 2
  | .uint32 | .int32 => 4
  | .uint64 | .int64 => 8

theorem IntTy.size_pos (k : IntTy) : 0 < k.size := by cases k <;> decide

/-- serialisable types; a user struct has the fields that its two functions take in turn, given
as `field t₁ (field t₂ .. done)` -/
inductive Ty where
  | int (k : IntTy)
  | bool
  | float
  | double
  | string
  | vector (elem : Ty)
  | array (elem : Ty) (len : Nat)
  | struct (name : String) (fields : Ty)
  | done
  | field (t rest : Ty)
deriving DecidableEq

/-- values: integers as their bits, floating point numbers as their bit patterns, the characters
of a string as bytes -/
def Ty.Val : Ty → Type
  | .int k => BitVec (8 * k.size)
  | .bool => Bool
  | .float => BitVec (8 * 4)
  | .double => BitVec (8 * 8)
  | .string => List (BitVec (8 * 1))
  | .vector t => List t.Val
  | .array t n => List.Vector t.Val n
  | .struct _ fields => fields.Val
  | .done => Unit
  | .field t rest => t.Val × rest.Val

/-- what the default member initialisers of a struct make of it, `none` when it has none -/
abbrev Defaults := (name : String) → (fields : Ty) → Option fields.Val

/-- the value of `T()` -/
def Ty.init (D : Defaults) : (t : Ty) → t.Val
  | .int k => BitVec.ofNat (8 * k.size) 0
  | .bool => false
  | .float => BitVec.ofNat (8 * 4) 0
  | .double => BitVec.ofNat (8 * 8) 0
  | .string => []
  | .vector _ => []
  | .array t n => List.Vector.replicate n (t.init D)
  | .struct name fields => (D name fields).getD (fields.init D)
  | .done => ()
  | .field t rest => (t.init D, rest.init D)

/-! ## conditions on types and values -/

/-- no `float` and no user struct anywhere -/
def Ty.Builtin : Ty → Prop
  | .float | .struct _ _ => False
  | .vector t => t.Builtin
  | .array t _ => t.Builtin
  | .field t rest => t.Builtin ∧ rest.Builtin
  | .int _ | .bool | .double | .string | .done => True

/-- no `float` anywhere -/
def Ty.FloatFree : Ty → Prop
  | .float => False
  | .vector t => t.FloatFree
  | .array t _ => t.FloatFree
  | .struct _ fields => fields.FloatFree
  | .field t rest => t.FloatFree ∧ rest.FloatFree
  | .int _ | .bool | .double | .string | .done => True

/-- types with specialisations of `write_into` and `read_into` -/
def Ty.Leaf : Ty → Prop
  | .int _ | .bool | .float | .double | .string => True
  | .vector _ | .array _ _ | .struct _ _ | .done | .field _ _ => False

/-- fewer than `2 ^ 32` elements, each with `P` -/
def ShortList {α : Type} (P : α → Prop) (l : List α) : Prop := l.length < 2 ^ 32 ∧ ∀ x ∈ l, P x

/-- every string and every vector has fewer than `2 ^ 32` elements -/
def Short : (t : Ty) → t.Val → Prop
  | .string, v => List.length v < 2 ^ 32
  | .vector t, v => ShortList (Short t) v
  | .array t _, v => ∀ x ∈ List.Vector.toList v, Short t x
  | .struct _ fields, v => Short fields v
  | .field t rest, v => Short t v.1 ∧ Short rest v.2
  | .int _, _ | .bool, _ | .float, _ | .double, _ | .done, _ => True

/-- every string and every vector is empty, also in what `T()` gives the elements of a vector -/
def Blank (D : Defaults) : (t : Ty) → t.Val → Prop
  | .string, v => List.length v = 0
  | .vector t, v => List.length v = 0 ∧ Blank D t (t.init D)
  | .array t _, v => ∀ x ∈ List.Vector.toList v, Blank D t x
  | .struct _ fields, v => Blank D fields v
  | .field t rest, v => Blank D t v.1 ∧ Blank D rest v.2
  | .int _, _ | .bool, _ | .float, _ | .double, _ | .done, _ => True

theorem Ty.Builtin.floatFree {t : Ty} (h : t.Builtin) : t.FloatFree := by
  induction t with
  | int | bool | double | string | done => trivial
  | float | struct => exact h.elim
  | vector t ih => exact ih h
  | array t n ih => exact ih h
  | field t rest iht ihr => exact ⟨iht h.1, ihr h.2⟩

/-- a default-constructed instance of a type without structs is empty -/
theorem blank_init (D : Defaults) (t : Ty) (h : t.Builtin) : Blank D t (t.init D) := by
  induction t with
  | int | bool | double | done => trivial
  | string => rfl
  | float | struct => exact h.elim
  | vector t ih => exact ⟨rfl, ih h⟩
  | array t n ih =>
    intro x hx
    have hx : x ∈ List.replicate n (t.init D) := hx
    rw [List.eq_of_mem_replicate hx]
    exact ih h
  | field t rest iht ihr => exact ⟨iht h.1, ihr h.2⟩

end VoltNet
