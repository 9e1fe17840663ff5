import VoltNet.Serialize.Floats
import VoltNet.Serialize.Destination
import VoltNet.Serialize.Reserialize

/-!
# `std::pair`

`write_into` deduces the type of each component from the component; `read_into` names the type of
the first component for both of them.

* `writePair`, `readPair`   the two overloads; `readNamed` is what a call with a named type selects;
* `pairRoundTrip_iff`       a pair gets through exactly when its components have one type, that
                            type is not `float`, and the reading host stores what it reads;
* `pair_unreadable`         a pair of two widths.
-/

namespace VoltNet
open Stuffing Positional Fallible

def writePair (host : Host) (behind : Message → List.Vector NetWord 4) (A B : Ty)
    (v : A.Val × B.Val) (data : Message) : Message :=
  writeInto host behind B v.2 (writeInto host behind A v.1 data)

/-- the decoder that `read_into<T>(iterator, x)` selects for an `x` of the leaf type `t`: the
specialisation for `T`, whose parameter binds to nothing but a `T` -/
def readNamed (host : Host) (D : Defaults) (msg : Message) (T t : Ty) :
    Option (Nat → t.Val → Except ReadFault (t.Val × Nat)) :=
  if T = t then some (readInto host D msg t) else none

/-- `none` where one of the two calls selects no decoder -/
def readPair (host : Host) (D : Defaults) (msg : Message) (A B : Ty) (pos : Nat)
    (inst : A.Val × B.Val) : Option (Except ReadFault ((A.Val × B.Val) × Nat)) :=
  match readNamed host D msg A A, readNamed host D msg A B with
  | some readFirst, some readSecond => some do
    let r ← readFirst pos inst.1
    let rs ← readSecond r.2 inst.2
    return ((r.1, rs.1), rs.2)
  | _, _ => none

/-- whatever is written for `v`, a read into a new pair gives `v` and consumes just that -/
def PairRoundTrip (host : Host) (behind : Message → List.Vector NetWord 4) (D : Defaults)
    (A B : Ty) (v : A.Val × B.Val) : Prop :=
  ∀ data w, writePair host behind A B v data = data ++ w →
    ∀ msg pos, At msg pos (unescape w) →
      readPair host D msg A B pos (A.init D, B.init D)
        = some (.ok (v, pos + (unescape w).length))

/-- one type, not `float`; on a big-endian host, which stores nothing, what a new pair holds;
strings that a count can stand before -/
def PairFits (host : Host) (D : Defaults) (A B : Ty) (v : A.Val × B.Val) : Prop :=
  A = B ∧ A ≠ .float ∧ (host = .bigEndian → A.Direct ∧ v = (A.init D, B.init D)) ∧
    Short A v.1 ∧ Short B v.2

theorem readPair_same (host : Host) (D : Defaults) (msg : Message) (A : Ty) (pos : Nat)
    (inst : A.Val × A.Val) :
    readPair host D msg A A pos inst = some (do
      let r ← readInto host D msg A pos inst.1
      let rs ← readInto host D msg A r.2 inst.2
      return ((r.1, rs.1), rs.2)) := by
  unfold readPair readNamed
  rw [if_pos rfl]

theorem readPair_differ (host : Host) (D : Defaults) (msg : Message) (A B : Ty) (hne : A ≠ B)
    (pos : Nat) (inst : A.Val × B.Val) : readPair host D msg A B pos inst = none := by
  unfold readPair readNamed
  rw [if_pos rfl, if_neg hne]

/-! ## what is written -/

theorem Ty.Leaf.floatFree {t : Ty} (h : t.Leaf) (hne : t ≠ .float) : t.FloatFree := by
  cases t with
  | int | bool | double | string => trivial
  | float => exact absurd rfl hne
  | vector | array | struct | done | field => exact h.elim

theorem Ty.Leaf.blank {t : Ty} (D : Defaults) (h : t.Leaf) : Blank D t (t.init D) := by
  cases t with
  | int | bool | float | double => trivial
  | string => rfl
  | vector | array | struct | done | field => exact h.elim

theorem writePair_eq (host : Host) (behind : Message → List.Vector NetWord 4) (A : Ty)
    (hA : A.FloatFree) (v : A.Val × A.Val) (data : Message) :
    writePair host behind A A v data = data ++ stuffAll codes (A.wire v.1 ++ A.wire v.2) := by
  rw [writePair, writeInto_eq host behind A hA, writeInto_eq host behind A hA, List.append_assoc,
    stuffAll_append]

/-- two `float`s are written with sixteen bytes -/
theorem writePair_float (host : Host) (behind : Message → List.Vector NetWord 4)
    (f g : BitVec (8 * 4)) (data : Message) :
    ∃ w, writePair host behind .float .float (f, g) data = data ++ stuffAll codes w ∧
      w.length = 16 := by
  have hfirst := writeFloat_eq host behind f data
  have hsecond := writeFloat_eq host behind g (writeInto host behind .float f data)
  refine ⟨floatWords host (behind data) f
    ++ floatWords host (behind (writeInto host behind .float f data)) g, ?_, ?_⟩
  · refine hsecond.trans ?_
    rw [hfirst, List.append_assoc, stuffAll_append]
  · rw [List.length_append, length_floatWords, length_floatWords]

theorem writePair_appends (host : Host) (behind : Message → List.Vector NetWord 4) (A B : Ty)
    (v : A.Val × B.Val) (data : Message) :
    ∃ w, writePair host behind A B v data = data ++ stuffAll codes w := by
  obtain ⟨w, hw⟩ := writeInto_appends host behind A v.1 data
  obtain ⟨w', hw'⟩ := writeInto_appends host behind B v.2 (writeInto host behind A v.1 data)
  refine ⟨w ++ w', hw'.trans ?_⟩
  rw [hw, List.append_assoc, stuffAll_append]

/-! ## the reader -/

/-- a big-endian host keeps what is there -/
theorem readDirect_big (D : Defaults) (msg : Message) (t : Ty) (hleaf : t.Leaf) (ht : t.Direct)
    (pos : Nat) (inst : t.Val) (r : t.Val × Nat)
    (h : readInto .bigEndian D msg t pos inst = .ok r) : r.1 = inst := by
  have hkept : ∀ n, 0 < n → ∀ (v : BitVec (8 * n)) (q : BitVec (8 * n) × Nat),
      readInt .bigEndian msg n pos v = .ok q → q.1 = v := by
    intro n hn v q hq
    by_cases hlen : pos + n ≤ msg.length
    · have hbig := readScalar_big msg pos n hlen v
      rw [readInt, hbig] at hq
      cases hq
      rfl
    · obtain ⟨f, -, hf⟩ := readScalar_short .bigEndian msg pos n (Nat.lt_of_not_le hlen) hn
        (stored .bigEndian n v.toNat)
      rw [readInt, hf] at hq
      cases hq
  cases t with
  | int k => exact hkept k.size k.size_pos inst r h
  | float => exact hkept 4 (by decide) inst r h
  | double => exact hkept 8 (by decide) inst r h
  | bool | string => exact ht.elim
  | vector | array | struct | done | field => exact hleaf.elim

/-- a value that the host can read where its network form stands -/
theorem readLeaf_wire (host : Host) (D : Defaults) (msg : Message) (t : Ty) (hleaf : t.Leaf)
    (v : t.Val) (hbig : host = .bigEndian → t.Direct ∧ v = t.init D) (hv : Short t v) (pos : Nat)
    (hat : At msg pos (t.wire v)) :
    readInto host D msg t pos (t.init D) = .ok (v, pos + (t.wire v).length) := by
  cases host with
  | littleEndian => exact readInto_wire D msg t v (t.init D) hv (hleaf.blank D) pos hat
  | bigEndian =>
    obtain ⟨hdirect, rfl⟩ := hbig rfl
    have hint : ∀ n, 0 < n → ∀ x : BitVec (8 * n), At msg pos (netBytes n x.toNat) →
        readInt .bigEndian msg n pos x = .ok (x, pos + (netBytes n x.toNat).length) := by
      intro n hn x hx
      have hlen := hx.length_le (by rw [length_netBytes]; exact hn)
      rw [length_netBytes] at hlen ⊢
      exact readScalar_big msg pos n hlen x
    cases t with
    | int k => exact hint k.size k.size_pos _ hat
    | float => exact hint 4 (by decide) _ hat
    | double => exact hint 8 (by decide) _ hat
    | bool | string => exact hdirect.elim
    | vector | array | struct | done | field => exact hleaf.elim

theorem pairRoundTrip_of_fits (host : Host) (behind : Message → List.Vector NetWord 4)
    (D : Defaults) (A B : Ty) (hA : A.Leaf) (v : A.Val × B.Val) (h : PairFits host D A B v) :
    PairRoundTrip host behind D A B v := by
  obtain ⟨rfl, hne, hbig, hshort1, hshort2⟩ := h
  intro data w hw msg pos hat
  rw [writePair_eq host behind A (hA.floatFree hne)] at hw
  rw [← List.append_cancel_left hw, unescape_stuffAll] at hat ⊢
  obtain ⟨hat1, hat2⟩ := (at_append msg pos _ _).mp hat
  have hfirst := readLeaf_wire host D msg A hA v.1
    (fun hb => ⟨(hbig hb).1, congrArg Prod.fst (hbig hb).2⟩) hshort1 pos hat1
  have hsecond := readLeaf_wire host D msg A hA v.2
    (fun hb => ⟨(hbig hb).1, congrArg Prod.snd (hbig hb).2⟩) hshort2 _ hat2
  rw [readPair_same, List.length_append, ← Nat.add_assoc]
  exact congrArg some ((ok_bind _ _ _ hfirst).trans (ok_bind _ _ _ hsecond))

/-- the two reads of a pair that gets through -/
theorem PairRoundTrip.reads {host : Host} {behind : Message → List.Vector NetWord 4}
    {D : Defaults} {A : Ty} {v : A.Val × A.Val} (h : PairRoundTrip host behind D A A v)
    (w : List NetWord) (hw : writePair host behind A A v [] = stuffAll codes w) :
    ∃ p, readInto host D w A 0 (A.init D) = .ok (v.1, p) ∧
      readInto host D w A p (A.init D) = .ok (v.2, w.length) := by
  have hback := unescape_stuffAll w
  have hread := h [] (stuffAll codes w) hw w 0 (by rw [hback]; exact List.prefix_refl _)
  rw [readPair_same, hback, Nat.zero_add] at hread
  obtain ⟨r, hr, h1⟩ := (bind_ok _ _ _).mp (Option.some.inj hread)
  obtain ⟨rs, hrs, h2⟩ := (bind_ok _ _ _).mp h1
  obtain ⟨hval, hpos⟩ := Prod.mk.inj (Except.ok.inj h2)
  rw [← hval, ← hpos]
  exact ⟨r.2, hr, hrs⟩

theorem fits_of_pairRoundTrip (host : Host) (behind : Message → List.Vector NetWord 4)
    (D : Defaults) (A B : Ty) (hA : A.Leaf) (v : A.Val × B.Val)
    (h : PairRoundTrip host behind D A B v) : PairFits host D A B v := by
  obtain ⟨w, hw⟩ := writePair_appends host behind A B v []
  by_cases hsame : A = B
  · subst hsame
    obtain ⟨p, hfirst, hsecond⟩ := h.reads w hw
    refine ⟨rfl, fun hfloat => ?_, fun hbig => ?_, ?_, ?_⟩
    · -- sixteen bytes are written, eight read
      subst hfloat
      obtain ⟨w', hw', hlen⟩ := writePair_float host behind v.1 v.2 []
      obtain ⟨p', hfirst', hsecond'⟩ := h.reads w' hw'
      have h1 := readFloat_width host D w' 0 _ _ hfirst'
      have h2 := readFloat_width host D w' p' _ _ hsecond'
      have h1 : p' = 0 + 4 := h1
      have h2 : w'.length = p' + 4 := h2
      omega
    · have hdirect := readInto_defined host D w A 0 _ _ hfirst hbig
      subst hbig
      exact ⟨hdirect, Prod.ext (readDirect_big D w A hA hdirect 0 _ _ hfirst)
        (readDirect_big D w A hA hdirect p _ _ hsecond)⟩
    · exact readInto_short host D w A _ (hA.blank D) 0 _ hfirst
    · exact readInto_short host D w A _ (hA.blank D) p _ hsecond
  · -- the second call selects no decoder
    have hread := h [] _ hw w 0 (by rw [unescape_stuffAll]; exact List.prefix_refl _)
    rw [readPair_differ host D w A B hsame] at hread
    cases hread

/-- **A pair of leaf types gets through exactly when its components have one type, and that type
is not `float`**, on a host that stores what it reads (a big-endian one leaves a new pair as it
was), with strings of fewer than `2 ^ 32` characters.  Components of two types have no decoder for
the second one at all. -/
theorem pairRoundTrip_iff (host : Host) (behind : Message → List.Vector NetWord 4) (D : Defaults)
    (A B : Ty) (hA : A.Leaf) (_hB : B.Leaf) (v : A.Val × B.Val) :
    (PairRoundTrip host behind D A B v ↔ PairFits host D A B v) ∧
    (A ≠ B → ∀ msg pos inst, readPair host D msg A B pos inst = none) :=
  ⟨⟨fits_of_pairRoundTrip host behind D A B hA v, pairRoundTrip_of_fits host behind D A B hA v⟩,
    fun hne msg pos inst => readPair_differ host D msg A B hne pos inst⟩

theorem pairRoundTrip_iff_words :
    PairRoundTrip .littleEndian (fun _ => List.Vector.replicate 4 0) (fun _ _ => none)
      (.int .uint16) (.int .uint16) (1#16, 65535#16) :=
  (pairRoundTrip_iff .littleEndian _ _ (.int .uint16) (.int .uint16) trivial trivial
    (1#16, 65535#16)).1.mpr ⟨rfl, by decide, fun h => (by cases h), trivial, trivial⟩

/-- a byte and a 16-bit word -/
theorem pair_unreadable :
    writePair .littleEndian (fun _ => List.Vector.replicate 4 0) (.int .uint8) (.int .uint16)
      (7#8, 1#16) [] = [7, 0, 1] ∧
    readPair .littleEndian (fun _ _ => none) [7, 0, 1] (.int .uint8) (.int .uint16) 0 (0#8, 0#16)
      = none ∧
    ¬ PairRoundTrip .littleEndian (fun _ => List.Vector.replicate 4 0) (fun _ _ => none)
      (.int .uint8) (.int .uint16) (7#8, 1#16) := by
  have hwrite : writePair .littleEndian (fun _ => List.Vector.replicate 4 0) (.int .uint8)
      (.int .uint16) (7#8, 1#16) [] = [7, 0, 1] := by rfl
  have hnone := readPair_differ .littleEndian (fun _ _ => none) [7, 0, 1] (.int .uint8)
    (.int .uint16) (by decide) 0 (0#8, 0#16)
  refine ⟨hwrite, hnone, fun h => ?_⟩
  have hread := h [] [7, 0, 1] hwrite [7, 0, 1] 0 ⟨[], by decide⟩
  cases hnone.symm.trans hread

end VoltNet
