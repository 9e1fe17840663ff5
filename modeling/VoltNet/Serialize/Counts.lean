import VoltNet.Serialize.Floats
import VoltNet.Serialize.Destination
import VoltNet.Serialize.Reserialize

/-!
# The count before the elements of an array

`write_into_array` casts the size of the container to 32 bits and then writes every element.

* `elements`               how many elements a string or a vector has;
* `writeSized_eq`          what is written: the count modulo `2 ^ 32`, then all of them;
* `prefixTrue_iff`         the array and what follows it come back exactly when everything in it
                           has fewer than `2 ^ 32` elements;
* `prefix_wraps`           a string of `2 ^ 32` characters.
-/

namespace VoltNet
open Stuffing Positional Fallible

/-- strings and vectors -/
def Ty.Sized : Ty → Prop
  | .string | .vector _ => True
  | .int _ | .bool | .float | .double | .array _ _ | .struct _ _ | .done | .field _ _ => False

def elements : (t : Ty) → t.Val → Nat
  | .string, v => List.length v
  | .vector _, v => List.length v
  | .int _, _ | .bool, _ | .float, _ | .double, _ | .array _ _, _ | .struct _ _, _ | .done, _
  | .field _ _, _ => 0

/-! ## what is written -/

/-- a count, and the words of the elements -/
theorem writeSized_eq (host : Host) (behind : Message → List.Vector NetWord 4) (t : Ty)
    (ht : t.Sized) (v : t.Val) (data : Message) :
    ∃ ws : List (List NetWord), ws.length = elements t v ∧
      (t = .vector .float → ∀ w ∈ ws, w.length = 8) ∧
      writeInto host behind t v data
        = data ++ stuffAll codes (netBytes 4 (elements t v) ++ ws.flatten) := by
  cases t with
  | string =>
    obtain ⟨ws, hlen, -, hws⟩ := writeIntoArray_appends host (writeInt host .char) (fun _ => True)
      (fun x data => ⟨_, trivial, writeInt_eq host .char x data⟩) v data
    exact ⟨ws, hlen, fun h => (by cases h), hws⟩
  | vector t =>
    by_cases hfloat : t = .float
    · subst hfloat
      obtain ⟨ws, hlen, hw, hws⟩ := writeIntoArray_appends host (writeInto host behind .float)
        (fun w => w.length = 8)
        (fun x data => ⟨_, length_floatWords _ _ _, writeFloat_eq host behind x data⟩) v data
      exact ⟨ws, hlen, fun _ => hw, hws⟩
    · obtain ⟨ws, hlen, -, hws⟩ := writeIntoArray_appends host (writeInto host behind t)
        (fun _ => True)
        (fun x data => (writeInto_appends host behind t x data).imp fun _ h => ⟨trivial, h⟩) v data
      exact ⟨ws, hlen, fun h => absurd (Ty.vector.inj h) hfloat, hws⟩
  | int | bool | float | double | array | struct | done | field => exact ht.elim

/-- the count in a message -/
def countOf (w : List NetWord) : Nat := ofNetBytes (w.take 4)

theorem countOf_netBytes (n : Nat) (rest : List NetWord) :
    countOf (netBytes 4 n ++ rest) = n % 2 ^ 32 := by
  have htake := @List.take_left _ (netBytes 4 n) rest
  rw [length_netBytes] at htake
  rw [countOf, htake, ofNetBytes_netBytes]
  rfl

theorem countOf_written (host : Host) (behind : Message → List.Vector NetWord 4) (t : Ty)
    (ht : t.Sized) (v : t.Val) (data : Message) (w : List NetWord)
    (hw : writeInto host behind t v data = data ++ w) :
    countOf (unescape w) = elements t v % 2 ^ 32 := by
  obtain ⟨ws, -, -, hws⟩ := writeSized_eq host behind t ht v data
  rw [hw] at hws
  rw [List.append_cancel_left hws, unescape_stuffAll, countOf_netBytes]

/-! ## what is read -/

/-- the containers whose elements are read as they were written: `float`s apart, those with
elements that `T()` makes empty -/
def Regular (D : Defaults) (t : Ty) : Prop :=
  t = .vector .float ∨ t.FloatFree ∧ Blank D t (t.init D)

theorem Regular.blank {D : Defaults} {t : Ty} (h : Regular D t) : Blank D t (t.init D) := by
  rcases h with rfl | ⟨-, h⟩
  · exact ⟨rfl, trivial⟩
  · exact h

theorem Ty.Sized.not_direct {t : Ty} (h : t.Sized) : ¬ t.Direct := by
  cases t with
  | string | vector => exact id
  | int | bool | float | double | array | struct | done | field => exact h.elim

theorem elements_lt {t : Ty} (ht : t.Sized) {v : t.Val} (h : Short t v) :
    elements t v < 2 ^ 32 := by
  cases t with
  | string => exact h
  | vector t => exact h.1
  | int | bool | float | double | array | struct | done | field => exact ht.elim

theorem length_words (ws : List (List NetWord)) (k : Nat) (h : ∀ w ∈ ws, w.length = k) :
    ws.flatten.length = ws.length * k := by
  induction ws with
  | nil => exact (Nat.zero_mul k).symm
  | cons w ws ih =>
    obtain ⟨hw, hws⟩ := List.forall_mem_cons.mp h
    rw [List.flatten_cons, List.length_append, hw, ih hws, List.length_cons, Nat.succ_mul,
      Nat.add_comm]

theorem length_floats (v : List (BitVec (8 * 4))) :
    (v.flatMap fun f => netBytes 4 f.toNat).length = v.length * 4 := by
  induction v with
  | nil => rfl
  | cons f v ih =>
    rw [List.flatMap_cons, List.length_append, ih, length_netBytes, List.length_cons]
    omega

/-- a vector of `float`s is read with four bytes for each -/
theorem readFloats_width (D : Defaults) (msg : Message) (pos : Nat) (v : List (BitVec (8 * 4)))
    (pos' : Nat) (h : readInto .littleEndian D msg (.vector .float) pos [] = .ok (v, pos')) :
    pos' = pos + (4 + v.length * 4) := by
  have hread : ∀ pos, Rewires msg (fun f : BitVec (8 * 4) => netBytes 4 f.toNat) pos
      (readInto .littleEndian D msg .float pos (Ty.float.init D)) :=
    fun pos => readInt_rewire 4 pos (by decide) _
  obtain ⟨-, hpos⟩ := readIntoArray_rewire (fun f : BitVec (8 * 4) => netBytes 4 f.toNat) _ hread
    pos v pos' h
  have hlen : (netBytes 4 v.length ++ v.flatMap fun f => netBytes 4 f.toNat).length
      = 4 + v.length * 4 := by
    rw [List.length_append, length_netBytes, length_floats]
  exact hpos.trans (congrArg (pos + ·) hlen)

/-- the container and the values `us` behind it come through a message -/
structure PrefixTrue (writer reader : Host) (behind : Message → List.Vector NetWord 4)
    (D : Defaults) (t : Ty) (v : t.Val) : Prop where
  /-- the count in the message is the number of elements written -/
  count : ∀ data w, writeInto writer behind t v data = data ++ w →
    countOf (unescape w) = elements t v
  /-- all of them are read back, and so is what stands behind them -/
  values : ∀ us : List Instance, (∀ u ∈ us, u.1.Builtin ∧ Short u.1 u.2) →
    readMsgs reader D (unescape (writeMsgs writer behind (⟨t, v⟩ :: us) [])) 0
        ((⟨t, v⟩ :: us).map (Instance.blank D))
      = .ok (⟨t, v⟩ :: us, (unescape (writeMsgs writer behind (⟨t, v⟩ :: us) [])).length)

/-- every string and vector has fewer than `2 ^ 32` elements, the reader stores what it reads, and
there are no `float`s -/
def Countable (reader : Host) (t : Ty) (v : t.Val) : Prop :=
  reader = .littleEndian ∧ Short t v ∧ (t = .vector .float → elements t v = 0)

theorem writeSized_wire (host : Host) (behind : Message → List.Vector NetWord 4) (D : Defaults)
    (t : Ty) (hd : Regular D t) (v : t.Val) (hfloat : t = .vector .float → elements t v = 0)
    (data : Message) : writeInto host behind t v data = data ++ stuffAll codes (t.wire v) := by
  rcases hd with rfl | ⟨hfree, -⟩
  · have hnil : v = ([] : List _) := List.eq_nil_of_length_eq_zero (hfloat rfl)
    rw [hnil]
    refine (writeArraySize_eq host 0 data).trans ?_
    show _ = data ++ stuffAll codes (netBytes 4 0 ++ List.flatMap Ty.float.wire [])
    rw [List.flatMap_nil, List.append_nil]
  · exact writeInto_eq host behind t hfree v data

theorem prefixTrue_of_countable (writer reader : Host)
    (behind : Message → List.Vector NetWord 4) (D : Defaults) (t : Ty) (ht : t.Sized)
    (hd : Regular D t) (v : t.Val) (h : Countable reader t v) :
    PrefixTrue writer reader behind D t v := by
  obtain ⟨rfl, hshort, hfloat⟩ := h
  refine ⟨fun data w hw => ?_, fun us hus => ?_⟩
  · rw [countOf_written writer behind t ht v data w hw]
    exact Nat.mod_eq_of_lt (elements_lt ht hshort)
  · have hwrite : unescape (writeMsgs writer behind (⟨t, v⟩ :: us) []) = wireAll (⟨t, v⟩ :: us) := by
      show unescape (writeMsgs writer behind us (writeInto writer behind t v [])) = _
      rw [writeSized_wire writer behind D t hd v hfloat, List.nil_append,
        writeMsgs_eq writer behind us fun u hu => (hus u hu).1.floatFree, ← stuffAll_append,
        unescape_stuffAll]
      rfl
    have hat : At (wireAll (⟨t, v⟩ :: us)) 0 (wireAll (⟨t, v⟩ :: us)) := List.prefix_refl _
    obtain ⟨hat1, hat2⟩ := (at_append _ 0 (t.wire v) (wireAll us)).mp hat
    have hfirst := readInto_wire D _ t v (t.init D) hshort hd.blank 0 hat1
    have hrest := readMsgs_wire D _ us hus _ hat2
    rw [hwrite, List.map_cons]
    refine (readMsgs_cons _ _ _ _ ⟨t, t.init D⟩ _ _ _ hfirst hrest).trans ?_
    have hlen : 0 + (t.wire v).length + (wireAll us).length = (wireAll (⟨t, v⟩ :: us)).length := by
      rw [Nat.zero_add, ← List.length_append]
      rfl
    rw [hlen]

theorem countable_of_prefixTrue (writer reader : Host)
    (behind : Message → List.Vector NetWord 4) (D : Defaults) (t : Ty) (ht : t.Sized)
    (hd : Regular D t) (v : t.Val) (h : PrefixTrue writer reader behind D t v) :
    Countable reader t v := by
  obtain ⟨ws, hlen, hfloat, hws⟩ := writeSized_eq writer behind t ht v []
  have hback : unescape (writeMsgs writer behind [⟨t, v⟩] [])
      = netBytes 4 (elements t v) ++ ws.flatten := by
    show unescape (writeInto writer behind t v []) = _
    rw [hws, List.nil_append, unescape_stuffAll]
  have hvalues := h.values [] fun u hu => (by cases hu)
  rw [hback] at hvalues
  obtain ⟨r, hr, h1⟩ := (bind_ok _ _ _).mp hvalues
  obtain ⟨hval, hpos⟩ := Prod.mk.inj (Except.ok.inj h1)
  have hr1 : r.1 = v := eq_of_heq (Sigma.mk.inj (List.cons_eq_cons.mp hval).1).2
  have hlittle := (readInto_defined reader D _ t 0 _ r hr).little ht.not_direct
  have hshort := readInto_short reader D _ t _ hd.blank 0 r hr
  rw [hr1] at hshort
  refine ⟨hlittle, hshort, fun hvec => ?_⟩
  -- eight bytes are written for each, four are read
  subst hvec hlittle
  have hread := (readFloats_width D _ 0 r.1 r.2 hr).trans (Nat.zero_add _)
  have hwritten := length_words ws 8 (hfloat rfl)
  have hpos : r.2 = (netBytes 4 (elements (.vector .float) v) ++ ws.flatten).length := hpos
  have hcount : List.length r.1 = elements (.vector .float) v := congrArg List.length hr1
  have hread : r.2 = 4 + elements (.vector .float) v * 4 := by rw [← hcount]; exact hread
  rw [List.length_append, length_netBytes, hwritten, hlen] at hpos
  omega

/-- **The count of a string or a vector tells the truth exactly when there are fewer than `2 ^ 32`
elements**; the array and whatever stands behind it come back exactly when this holds of every
string and vector in it, and the reading host stores what it reads, and there are no `float`s in
it. -/
theorem prefixTrue_iff (writer reader : Host) (behind : Message → List.Vector NetWord 4)
    (D : Defaults) (t : Ty) (ht : t.Sized) (v : t.Val) :
    (∀ data w, writeInto writer behind t v data = data ++ w →
      (countOf (unescape w) = elements t v ↔ elements t v < 2 ^ 32)) ∧
    (Regular D t → (PrefixTrue writer reader behind D t v ↔ Countable reader t v)) := by
  refine ⟨fun data w hw => ?_, fun hd => ⟨countable_of_prefixTrue writer reader behind D t ht hd v,
    prefixTrue_of_countable writer reader behind D t ht hd v⟩⟩
  rw [countOf_written writer behind t ht v data w hw]
  refine ⟨fun h => ?_, Nat.mod_eq_of_lt⟩
  rw [← h]
  exact Nat.mod_lt _ (by decide)

theorem prefixTrue_iff_vector :
    PrefixTrue .bigEndian .littleEndian (fun _ => List.Vector.replicate 4 0) (fun _ _ => none)
      (.vector .string) [[97#8], []] := by
  have hshort : ∀ s ∈ [[97#8], []], s.length < 2 ^ 32 := by decide
  have hiff := (prefixTrue_iff .bigEndian .littleEndian (fun _ => List.Vector.replicate 4 0)
    (fun _ _ => none) (.vector .string) trivial [[97#8], []]).2 (.inr ⟨trivial, rfl, rfl⟩)
  exact hiff.mpr ⟨rfl, ⟨by decide, hshort⟩, fun h => by cases h⟩

/-- a string of `2 ^ 32` characters has the count `0` -/
theorem prefix_wraps :
    elements .string (List.replicate (2 ^ 32) 97#8) = 2 ^ 32 ∧
    (∀ data w, writeInto .littleEndian (fun _ => List.Vector.replicate 4 0) .string
        (List.replicate (2 ^ 32) 97#8) data = data ++ w → countOf (unescape w) = 0) ∧
    ¬ PrefixTrue .littleEndian .littleEndian (fun _ => List.Vector.replicate 4 0)
      (fun _ _ => none) .string (List.replicate (2 ^ 32) 97#8) := by
  have hlen : elements .string (List.replicate (2 ^ 32) 97#8) = 2 ^ 32 := List.length_replicate
  have hcount : ∀ data w, writeInto .littleEndian (fun _ => List.Vector.replicate 4 0) .string
      (List.replicate (2 ^ 32) 97#8) data = data ++ w → countOf (unescape w) = 0 := by
    intro data w hw
    rw [countOf_written .littleEndian _ .string trivial _ data w hw, hlen, Nat.mod_self]
  refine ⟨hlen, hcount, fun h => ?_⟩
  obtain ⟨w, hw⟩ := writeInto_appends .littleEndian (fun _ => List.Vector.replicate 4 0) .string
    (List.replicate (2 ^ 32) 97#8) []
  have htrue := h.count [] _ hw
  rw [hcount [] _ hw, hlen] at htrue
  cases htrue

end VoltNet
