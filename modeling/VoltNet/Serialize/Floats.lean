import VoltNet.Serialize.RoundTrip
import VoltNet.Serialize.Bounds
import VoltNet.Serialize.Endianness

/-!
# `float`

The writing overload for `float` takes `sizeof(double)` bytes from the address of its argument, the
reading one `sizeof(float)`.  On a little-endian host the four bytes behind the `float` go out
first.

* `writeFloat_little`, `writeFloat_big`   what is written;
* `writeInto_appends`                     any value goes behind what a message holds;
* `readFloat_written`                     what is read of it: the bytes behind the `float`;
* `floatRoundTrip_never`                  no value gets through.
-/

namespace VoltNet
open Stuffing Positional Fallible

theorem writeFloat_little (behind : Message → List.Vector NetWord 4) (f : BitVec (8 * 4))
    (data : Message) :
    writeInto .littleEndian behind .float f data
      = data ++ stuffAll codes ((behind data).toList.reverse ++ netBytes 4 f.toNat) := by
  show writeWords .littleEndian
    (Host.memory .littleEndian 4 f.toNat ++ (behind data).toList) data true = _
  rw [writeWords, isBigEndian_little, if_neg (by decide), writeBytes_eq, List.reverse_append]
  rfl

theorem writeFloat_big (behind : Message → List.Vector NetWord 4) (f : BitVec (8 * 4))
    (data : Message) :
    writeInto .bigEndian behind .float f data
      = data ++ stuffAll codes (netBytes 4 f.toNat ++ (behind data).toList) := by
  show writeWords .bigEndian
    (Host.memory .bigEndian 4 f.toNat ++ (behind data).toList) data true = _
  rw [writeWords, isBigEndian_big, if_pos (by decide), writeBytes_eq]
  rfl

/-- the words that `write_into(float)` puts behind the escaping -/
def floatWords (host : Host) (mem : List.Vector NetWord 4) (f : BitVec (8 * 4)) : List NetWord :=
  match host with
  | .littleEndian => mem.toList.reverse ++ netBytes 4 f.toNat
  | .bigEndian => netBytes 4 f.toNat ++ mem.toList

theorem writeFloat_eq (host : Host) (behind : Message → List.Vector NetWord 4)
    (f : BitVec (8 * 4)) (data : Message) :
    writeInto host behind .float f data
      = data ++ stuffAll codes (floatWords host (behind data) f) := by
  cases host with
  | littleEndian => exact writeFloat_little behind f data
  | bigEndian => exact writeFloat_big behind f data

@[simp] theorem length_floatWords (host : Host) (mem : List.Vector NetWord 4)
    (f : BitVec (8 * 4)) : (floatWords host mem f).length = 8 := by
  have hmem := mem.toList_length
  cases host with
  | littleEndian =>
    rw [floatWords, List.length_append, List.length_reverse, hmem, length_netBytes]
  | bigEndian => rw [floatWords, List.length_append, hmem, length_netBytes]

/-! ## every type -/

/-- elements written one after the other, each with one of the words `Q` -/
theorem foldl_appends {α : Type} (write : α → Message → Message) (Q : List NetWord → Prop)
    (hwrite : ∀ x data, ∃ w, Q w ∧ write x data = data ++ stuffAll codes w) (l : List α)
    (data : Message) :
    ∃ ws : List (List NetWord), ws.length = l.length ∧ (∀ w ∈ ws, Q w) ∧
      l.foldl (fun data x => write x data) data = data ++ stuffAll codes ws.flatten := by
  induction l generalizing data with
  | nil =>
    refine ⟨[], rfl, fun _ h => (by cases h), ?_⟩
    rw [List.foldl_nil, List.flatten_nil, stuffAll_nil, List.append_nil]
  | cons x l ih =>
    obtain ⟨w, hw, hx⟩ := hwrite x data
    obtain ⟨ws, hlen, hws, hl⟩ := ih (write x data)
    refine ⟨w :: ws, congrArg Nat.succ hlen, List.forall_mem_cons.mpr ⟨hw, hws⟩, ?_⟩
    rw [List.foldl_cons, hl, hx, List.flatten_cons, stuffAll_append, List.append_assoc]

theorem writeIntoArray_appends {α : Type} (host : Host) (write : α → Message → Message)
    (Q : List NetWord → Prop)
    (hwrite : ∀ x data, ∃ w, Q w ∧ write x data = data ++ stuffAll codes w) (l : List α)
    (data : Message) :
    ∃ ws : List (List NetWord), ws.length = l.length ∧ (∀ w ∈ ws, Q w) ∧
      writeIntoArray host write l data true
        = data ++ stuffAll codes (netBytes 4 l.length ++ ws.flatten) := by
  obtain ⟨ws, hlen, hws, hl⟩ := foldl_appends write Q hwrite l (writeArraySize host l.length data)
  refine ⟨ws, hlen, hws, ?_⟩
  rw [writeIntoArray, if_pos rfl, hl, writeArraySize_eq, List.append_assoc, stuffAll_append]

/-- a value goes behind what the message holds -/
theorem writeInto_appends (host : Host) (behind : Message → List.Vector NetWord 4) (t : Ty)
    (v : t.Val) (data : Message) :
    ∃ w, writeInto host behind t v data = data ++ stuffAll codes w := by
  induction t generalizing data with
  | int k => exact ⟨_, writeInt_eq host k v data⟩
  | bool => exact ⟨_, writeInt_eq host .uint8 _ data⟩
  | float => exact ⟨_, writeFloat_eq host behind v data⟩
  | double => exact ⟨_, writeWords_memory host 8 (BitVec.toNat v) data⟩
  | string => exact ⟨_, writeIntoArray_eq host _ _ v data fun x data => writeInt_eq host .char x data⟩
  | vector t ih =>
    obtain ⟨ws, -, -, hws⟩ := writeIntoArray_appends host (writeInto host behind t) (fun _ => True)
      (fun x data => (ih x data).imp fun _ h => ⟨trivial, h⟩) v data
    exact ⟨_, hws⟩
  | array t n ih =>
    obtain ⟨ws, -, -, hws⟩ := foldl_appends (writeInto host behind t) (fun _ => True)
      (fun x data => (ih x data).imp fun _ h => ⟨trivial, h⟩) (List.Vector.toList v) data
    exact ⟨_, hws⟩
  | struct name fields ih => exact ih v data
  | done => exact ⟨[], (List.append_nil data).symm⟩
  | field t rest iht ihr =>
    obtain ⟨w, hw⟩ := iht v.1 data
    obtain ⟨w', hw'⟩ := ihr v.2 (writeInto host behind t v.1 data)
    refine ⟨w ++ w', hw'.trans ?_⟩
    rw [hw, List.append_assoc, stuffAll_append]

/-! ## what is read -/

/-- a read of a `float` takes four bytes -/
theorem readFloat_width (host : Host) (D : Defaults) (msg : Message) (pos : Nat)
    (inst : BitVec (8 * 4)) (r : Ty.float.Val × Nat)
    (h : readInto host D msg .float pos inst = .ok r) : r.2 = pos + 4 := by
  have hspans : Spans msg (fun w => w.length = 4) pos (readInto host D msg .float pos inst) :=
    readInt_spans host 4 (by decide) inst pos
  rw [h] at hspans
  obtain ⟨w, hw, -, hpos⟩ := hspans
  rw [hpos, hw]

/-- where a written `float` stands, a read gives the four bytes behind it in memory -/
theorem readFloat_written (D : Defaults) (msg : Message) (pos : Nat) (mem : List.Vector NetWord 4)
    (f inst : BitVec (8 * 4)) (hat : At msg pos (floatWords .littleEndian mem f)) :
    readInto .littleEndian D msg .float pos inst
      = .ok (BitVec.ofNat (8 * 4) (ofNetBytes mem.toList.reverse), pos + 4) := by
  obtain ⟨hmem, -⟩ := (at_append msg pos _ _).mp hat
  have hlen : mem.toList.reverse.length = 4 := by rw [List.length_reverse, mem.toList_length]
  have h := readScalar_little msg pos _ hmem (by omega) (stored .littleEndian 4 inst.toNat)
    (by rw [length_stored, hlen])
  rw [hlen] at h
  exact h

/-- the values `us`, a `float` and the values `vs` through one message -/
structure FloatRoundTrip (behind : Message → List.Vector NetWord 4) (D : Defaults)
    (us : List Instance) (f : BitVec (8 * 4)) (vs : List Instance) : Prop where
  /-- as many bytes are written as a read consumes -/
  width : ∀ data w, writeInto .littleEndian behind .float f data = data ++ w →
    ∀ msg pos inst r, readInto .littleEndian D msg .float pos inst = .ok r →
      r.2 = pos + (unescape w).length
  /-- and the values come back -/
  values : readMsgs .littleEndian D
      (unescape (writeMsgs .littleEndian behind (us ++ ⟨.float, f⟩ :: vs) [])) 0
      ((us ++ ⟨.float, f⟩ :: vs).map (Instance.blank D))
    = .ok (us ++ ⟨.float, f⟩ :: vs,
        (unescape (writeMsgs .littleEndian behind (us ++ ⟨.float, f⟩ :: vs) [])).length)

/-- **A `float` never gets through a message.**  On a little-endian host eight bytes are written,
the four behind the value in memory first; four are read, and give what those four hold. -/
theorem floatRoundTrip_never (behind : Message → List.Vector NetWord 4) (D : Defaults)
    (us : List Instance) (f : BitVec (8 * 4)) (vs : List Instance) :
    ¬ FloatRoundTrip behind D us f vs ∧
    (∀ data, writeInto .littleEndian behind .float f data
      = data ++ stuffAll codes (floatWords .littleEndian (behind data) f)) ∧
    (∀ mem, (floatWords .littleEndian mem f).length = 8) ∧
    ∀ msg pos mem inst, At msg pos (floatWords .littleEndian mem f) →
      readInto .littleEndian D msg .float pos inst
        = .ok (BitVec.ofNat (8 * 4) (ofNetBytes (List.Vector.toList mem).reverse), pos + 4) := by
  refine ⟨fun h => ?_, writeFloat_eq .littleEndian behind f,
    fun mem => length_floatWords .littleEndian mem f,
    fun msg pos mem inst hat => readFloat_written D msg pos mem f inst hat⟩
  have hread := readFloat_written D _ 0 (behind []) f f (List.prefix_refl _)
  have hwidth := h.width [] _ (writeFloat_eq .littleEndian behind f []) _ 0 f _ hread
  rw [unescape_stuffAll, length_floatWords] at hwidth
  cases hwidth

/-- `1.0f`, with zeros behind it, and then `7` -/
theorem float_misread :
    readMsgs .littleEndian (fun _ _ => none)
        (unescape (writeMsgs .littleEndian (fun _ => List.Vector.replicate 4 0)
          [⟨.float, 0x3F800000#32⟩, ⟨.int .int32, 7#32⟩] [])) 0
        [⟨.float, 0#32⟩, ⟨.int .int32, 0#32⟩]
      = .ok ([⟨.float, 0#32⟩, ⟨.int .int32, 0x3F800000#32⟩], 8) ∧
    ¬ FloatRoundTrip (fun _ => List.Vector.replicate 4 0) (fun _ _ => none) [] 0x3F800000#32
      [⟨.int .int32, 7#32⟩] := by
  have hread : readMsgs .littleEndian (fun _ _ => none)
        (unescape (writeMsgs .littleEndian (fun _ => List.Vector.replicate 4 0)
          [⟨.float, 0x3F800000#32⟩, ⟨.int .int32, 7#32⟩] [])) 0
        [⟨.float, 0#32⟩, ⟨.int .int32, 0#32⟩]
      = .ok ([⟨.float, 0#32⟩, ⟨.int .int32, 0x3F800000#32⟩], 8) := by rfl
  refine ⟨hread, fun h => ?_⟩
  have hval := hread.symm.trans h.values
  have hlen : 8 = 12 := congrArg Prod.snd (Except.ok.inj hval)
  cases hlen

end VoltNet
