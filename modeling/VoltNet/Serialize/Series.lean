import VoltNet.Serialize.Destination
import VoltNet.Serialize.RoundTrip

/-!
# Reading a series of values

The variadic `read_into` takes its first variable by reference and the rest, `Ts... Is`, by value.
It calls itself with its copies, so of the caller's variables only the first is written to.

* `readSeries`            the recursion over the pack;
* `Ty.Holds`              a word of the message and the value it stands for;
* `readLeaf_held`         one read, and when it leaves its destination as it was (`Unmoved`);
* `readSeries_same_iff`   a series is as good as single reads exactly when every destination but
                          the first holds its value already.
-/

namespace VoltNet
open Positional Fallible

/-- `read_into(iterator, x, xs...)`: what the variables of the caller hold afterwards.  Any call
with lvalues selects the overload with `T &instance, Ts... Is` -/
def readSeries (host : Host) (D : Defaults) (msg : Message) :
    Nat → Instance → List Instance → Except ReadFault (List Instance × Nat)
  | pos, x, [] => do
    let r ← readInto host D msg x.1 pos x.2
    return ([⟨x.1, r.1⟩], r.2)
  | pos, x, y :: ys => do
    let r ← readInto host D msg x.1 pos x.2
    -- the call gets copies of `y :: ys`, and these are gone when it returns
    let copies ← readSeries host D msg r.2 y ys
    return (⟨x.1, r.1⟩ :: y :: ys, copies.2)

/-! ## values in a message -/

/-- the word `w` stands for the value `v` of a leaf type; any byte but zero is `true` -/
def Ty.Holds : (t : Ty) → List NetWord → t.Val → Prop
  | .int k, w, v => w = netBytes k.size (BitVec.toNat v)
  | .bool, w, v => ∃ b : NetWord, w = [b] ∧ v = (b != 0)
  | .float, w, v => w = netBytes 4 (BitVec.toNat v)
  | .double, w, v => w = netBytes 8 (BitVec.toNat v)
  | .string, w, v => List.length v < 2 ^ 32 ∧ w = Ty.string.wire v
  | .vector _, _, _ | .array _ _, _, _ | .struct _ _, _, _ | .done, _, _ | .field _ _, _, _ => False

/-- a variable to read into, with the value that the message has for it -/
structure Slot where
  t : Ty
  held : t.Val
  prior : t.Val

def Slot.dest (s : Slot) : Instance := ⟨s.t, s.prior⟩

/-- the values of the slots, in order -/
def HoldsAll : List Slot → List NetWord → Prop
  | [], w => w = []
  | s :: ss, w => ∃ u v, w = u ++ v ∧ s.t.Holds u s.held ∧ HoldsAll ss v

/-- reading the value into the destination leaves it as it was.  A big-endian host stores nothing,
and has no value for what goes through a local variable -/
def Unmoved (host : Host) : (t : Ty) → t.Val → t.Val → Prop
  | .int _, v, x | .float, v, x | .double, v, x => host = .littleEndian → v = x
  | .bool, v, x => host = .littleEndian ∧ v = x
  | .string, v, _ => host = .littleEndian ∧ List.length v = 0
  | .vector _, _, _ | .array _ _, _, _ | .struct _ _, _, _ | .done, _, _ | .field _ _, _, _ => False

/-! ## one read -/

/-- the read ends at `pos` with a value that is `x` exactly when `C` -/
def Moves {α : Type} (pos : Nat) (x : α) (C : Prop) (read : Except ReadFault (α × Nat)) : Prop :=
  ∃ a, read = .ok (a, pos) ∧ (a = x ↔ C)

theorem readInt_held (host : Host) (msg : Message) (n : Nat) (hn : 0 < n) (v x : BitVec (8 * n))
    (pos : Nat) (w : List NetWord) (hw : w = netBytes n v.toNat) (hat : At msg pos w) :
    Moves (pos + w.length) x (host = .littleEndian → v = x) (readInt host msg n pos x) := by
  rw [hw, length_netBytes]
  rw [hw] at hat
  cases host with
  | littleEndian =>
    exact ⟨v, readInt_wire msg n pos hn v x hat, fun h _ => h, fun h => h rfl⟩
  | bigEndian =>
    have hlen := hat.length_le (by rw [length_netBytes]; exact hn)
    rw [length_netBytes] at hlen
    refine ⟨x, readScalar_big msg pos n hlen x, iff_of_true rfl fun h => ?_⟩
    cases h

theorem ofNat_byte (b : NetWord) : (BitVec.ofNat (8 * 1) (ofNetBytes [b]) != 0) = (b != 0) := by
  have hval : ofNetBytes [b] = b.toNat := by
    show value byteDigit [b] = b.toNat
    rw [value_cons]
    rfl
  have hbits : BitVec.ofNat (8 * 1) (ofNetBytes [b]) = b.toBitVec := by
    rw [hval]
    show BitVec.ofNat 8 b.toBitVec.toNat = b.toBitVec
    rw [BitVec.ofNat_toNat, BitVec.setWidth_eq]
  rw [hbits, Bool.eq_iff_iff, bne_iff_ne, bne_iff_ne, Ne, Ne, ← UInt8.toBitVec_inj]
  rfl

theorem readBool_held (msg : Message) (v x : Bool) (pos : Nat) (w : List NetWord)
    (hw : Ty.bool.Holds w v) (hat : At msg pos w) :
    Moves (pos + w.length) x (Host.littleEndian = .littleEndian ∧ v = x)
      (readBool .littleEndian msg pos) := by
  obtain ⟨b, rfl, rfl⟩ := hw
  have h := readScalar_little msg pos [b] hat Nat.one_pos (unwritten 1) rfl
  refine ⟨_, ok_bind _ _ _ h, ?_⟩
  show ((BitVec.ofNat (8 * 1) (ofNetBytes [b]) != 0) = x ↔ _ ∧ (b != 0) = x)
  rw [ofNat_byte]
  exact ⟨fun h => ⟨rfl, h⟩, And.right⟩

theorem readString_held (msg : Message) (v x : List (BitVec (8 * 1))) (pos : Nat)
    (w : List NetWord) (hw : Ty.string.Holds w v) (hat : At msg pos w) :
    Moves (pos + w.length) x (Host.littleEndian = .littleEndian ∧ v.length = 0)
      (readString .littleEndian msg pos x) := by
  obtain ⟨hshort, rfl⟩ := hw
  have hread := readString_wire msg v hshort pos hat
  obtain ⟨charVec, hvec, hv⟩ := (bind_ok _ _ _).mp hread
  obtain ⟨hval, hpos⟩ := Prod.mk.inj (Except.ok.inj hv)
  rw [List.nil_append] at hval
  refine ⟨x ++ v, ?_, ?_⟩
  · rw [readString, ok_bind _ _ _ hvec, hval, hpos]
    rfl
  · rw [List.append_right_eq_self, List.length_eq_zero_iff]
    exact ⟨fun h => ⟨rfl, h⟩, And.right⟩

theorem readLeaf_held (host : Host) (D : Defaults) (msg : Message) (t : Ty)
    (ht : Defined host t) (v x : t.Val) (pos : Nat) (w : List NetWord) (hw : t.Holds w v)
    (hat : At msg pos w) :
    Moves (pos + w.length) x (Unmoved host t v x) (readInto host D msg t pos x) := by
  cases t with
  | int k => exact readInt_held host msg k.size k.size_pos v x pos w hw hat
  | float => exact readInt_held host msg 4 (by decide) v x pos w hw hat
  | double => exact readInt_held host msg 8 (by decide) v x pos w hw hat
  | bool =>
    obtain rfl := ht.little id
    exact readBool_held msg v x pos w hw hat
  | string =>
    obtain rfl := ht.little id
    exact readString_held msg v x pos w hw hat
  | vector | array | struct | done | field => exact hw.elim

theorem Unmoved.defined {host : Host} {t : Ty} {v x : t.Val} (h : Unmoved host t v x) :
    Defined host t := by
  intro hbig
  rw [hbig] at h
  cases t with
  | int | float | double => trivial
  | bool | string => cases h.1
  | vector | array | struct | done | field => exact h.elim

/-! ## many reads -/

/-- single reads give some values, a series the first of them and the prior contents of the other
destinations, and both end at one place -/
theorem readSeries_ok (host : Host) (D : Defaults) (msg : Message) (s : Slot) (ss : List Slot)
    (hs : ∀ r ∈ s :: ss, Defined host r.t) (pos : Nat) (w : List NetWord)
    (hw : HoldsAll (s :: ss) w) (hat : At msg pos w) :
    ∃ a as pos', readMsgs host D msg pos ((s :: ss).map Slot.dest) = .ok (⟨s.t, a⟩ :: as, pos') ∧
      readSeries host D msg pos s.dest (ss.map Slot.dest)
        = .ok (⟨s.t, a⟩ :: ss.map Slot.dest, pos') ∧
      (a = s.prior ↔ Unmoved host s.t s.held s.prior) ∧
      (as = ss.map Slot.dest ↔ ∀ r ∈ ss, Unmoved host r.t r.held r.prior) := by
  induction ss generalizing s pos w with
  | nil =>
    obtain ⟨u, v, rfl, hu, rfl⟩ := hw
    rw [List.append_nil] at hat
    obtain ⟨a, ha, hmoved⟩ :=
      readLeaf_held host D msg s.t (hs s List.mem_cons_self) s.held s.prior pos u hu hat
    refine ⟨a, [], pos + u.length, ?_, ok_bind _ _ _ ha, hmoved, ?_⟩
    · exact readMsgs_cons _ _ _ _ s.dest [] _ ([], _) ha rfl
    · exact iff_of_true rfl fun r hr => by cases hr
  | cons r ss ih =>
    obtain ⟨u, v, rfl, hu, hv⟩ := hw
    obtain ⟨hat1, hat2⟩ := (at_append msg pos u v).mp hat
    obtain ⟨hdef, hdefs⟩ := List.forall_mem_cons.mp hs
    obtain ⟨a, ha, hmoved⟩ := readLeaf_held host D msg s.t hdef s.held s.prior pos u hu hat1
    obtain ⟨b, bs, pos', hmsgs, hseries, hhead, hrest⟩ := ih r hdefs _ v hv hat2
    refine ⟨a, ⟨r.t, b⟩ :: bs, pos', ?_, ?_, hmoved, ?_⟩
    · exact readMsgs_cons _ _ _ _ s.dest _ _ _ ha hmsgs
    · exact (ok_bind _ _ _ ha).trans (ok_bind _ _ _ hseries)
    · rw [List.map_cons, List.forall_mem_cons, ← hhead, ← hrest, List.cons_eq_cons]
      refine and_congr_left fun _ => ⟨fun h => ?_, fun h => ?_⟩
      · exact eq_of_heq (Sigma.mk.inj h).2
      · rw [h]
        rfl

theorem readMsgs_defined (host : Host) (D : Defaults) (msg : Message) (insts : List Instance)
    (pos : Nat) (r : List Instance × Nat) (h : readMsgs host D msg pos insts = .ok r) :
    ∀ i ∈ insts, Defined host i.1 := by
  induction insts generalizing pos r with
  | nil => exact fun i hi => by cases hi
  | cons i insts ih =>
    obtain ⟨a, ha, h⟩ := (bind_ok _ _ _).mp h
    obtain ⟨as, has, -⟩ := (bind_ok _ _ _).mp h
    exact List.forall_mem_cons.mpr ⟨readInto_defined host D msg i.1 pos i.2 a ha, ih a.2 as has⟩

/-- **A series of values is read like the values one by one exactly when every destination but the
first holds its value already**, a string when the message has an empty one for it, and when the
host can read the types.  The iterators agree in any case. -/
theorem readSeries_same_iff (host : Host) (D : Defaults) (msg : Message) (pos : Nat) (s : Slot)
    (ss : List Slot) (hin : ∃ w, HoldsAll (s :: ss) w ∧ At msg pos w) :
    (SameResult (readSeries host D msg pos s.dest (ss.map Slot.dest))
        (readMsgs host D msg pos ((s :: ss).map Slot.dest)) ↔
      Defined host s.t ∧ ∀ r ∈ ss, Unmoved host r.t r.held r.prior) ∧
    ((∀ r ∈ s :: ss, Defined host r.t) → ∃ vs vs' pos',
      readSeries host D msg pos s.dest (ss.map Slot.dest) = .ok (vs, pos') ∧
      readMsgs host D msg pos ((s :: ss).map Slot.dest) = .ok (vs', pos')) := by
  obtain ⟨w, hw, hat⟩ := hin
  have hread := fun hs => readSeries_ok host D msg s ss hs pos w hw hat
  refine ⟨⟨fun h => ?_, fun h => ?_⟩, fun hs => ?_⟩
  · obtain ⟨v, p, hseries, hmsgs⟩ := h
    have hdef := readMsgs_defined host D msg _ pos _ hmsgs
    rw [List.forall_mem_map] at hdef
    obtain ⟨a, as, pos', hmsgs', hseries', -, hiff⟩ := hread hdef
    rw [hmsgs] at hmsgs'
    rw [hseries] at hseries'
    have heq := (Except.ok.inj hseries').symm.trans (Except.ok.inj hmsgs')
    exact ⟨hdef s List.mem_cons_self, hiff.mp (List.cons_eq_cons.mp (Prod.mk.inj heq).1).2.symm⟩
  · obtain ⟨hdef, hmoved⟩ := h
    obtain ⟨a, as, pos', hmsgs, hseries, -, hiff⟩ :=
      hread (List.forall_mem_cons.mpr ⟨hdef, fun r hr => (hmoved r hr).defined⟩)
    rw [hiff.mpr hmoved] at hmsgs
    exact ⟨_, _, hseries, hmsgs⟩
  · obtain ⟨a, as, pos', hmsgs, hseries, -, -⟩ := hread hs
    exact ⟨_, _, pos', hseries, hmsgs⟩

/-- a byte that is stored and a string that has nothing to append -/
theorem readSeries_same_iff_kept :
    SameResult
        (readSeries .littleEndian (fun _ _ => none) [7, 5, 0, 0, 0, 0] 0 ⟨.int .uint8, 0#8⟩
          [⟨.int .uint8, 5#8⟩, ⟨.string, [97#8]⟩])
        (readMsgs .littleEndian (fun _ _ => none) [7, 5, 0, 0, 0, 0] 0
          [⟨.int .uint8, 0#8⟩, ⟨.int .uint8, 5#8⟩, ⟨.string, [97#8]⟩]) :=
  (readSeries_same_iff .littleEndian (fun _ _ => none) [7, 5, 0, 0, 0, 0] 0
    ⟨.int .uint8, 7#8, 0#8⟩ [⟨.int .uint8, 5#8, 5#8⟩, ⟨.string, [], [97#8]⟩]
    ⟨[7, 5, 0, 0, 0, 0], ⟨[7], [5, 0, 0, 0, 0], rfl, rfl, [5], [0, 0, 0, 0], rfl, rfl,
      [0, 0, 0, 0], [], rfl, ⟨by decide, rfl⟩, rfl⟩, List.prefix_refl _⟩).1.mpr
    ⟨defined_little _, List.forall_mem_cons.mpr ⟨fun _ => rfl,
      List.forall_mem_cons.mpr ⟨⟨rfl, rfl⟩, fun _ h => by cases h⟩⟩⟩

/-- the bytes `1` and `2` read into two variables that hold `0` -/
theorem readSeries_second :
    readMsgs .littleEndian (fun _ _ => none) [1, 2] 0 [⟨.int .uint8, 0#8⟩, ⟨.int .uint8, 0#8⟩]
      = .ok ([⟨.int .uint8, 1#8⟩, ⟨.int .uint8, 2#8⟩], 2) ∧
    readSeries .littleEndian (fun _ _ => none) [1, 2] 0 ⟨.int .uint8, 0#8⟩ [⟨.int .uint8, 0#8⟩]
      = .ok ([⟨.int .uint8, 1#8⟩, ⟨.int .uint8, 0#8⟩], 2) ∧
    ¬ SameResult
      (readSeries .littleEndian (fun _ _ => none) [1, 2] 0 ⟨.int .uint8, 0#8⟩
        [⟨.int .uint8, 0#8⟩])
      (readMsgs .littleEndian (fun _ _ => none) [1, 2] 0
        [⟨.int .uint8, 0#8⟩, ⟨.int .uint8, 0#8⟩]) := by
  have h1 : readMsgs .littleEndian (fun _ _ => none) [1, 2] 0
      [⟨.int .uint8, 0#8⟩, ⟨.int .uint8, 0#8⟩]
      = .ok ([⟨.int .uint8, 1#8⟩, ⟨.int .uint8, 2#8⟩], 2) := by rfl
  have h2 : readSeries .littleEndian (fun _ _ => none) [1, 2] 0 ⟨.int .uint8, 0#8⟩
      [⟨.int .uint8, 0#8⟩] = .ok ([⟨.int .uint8, 1#8⟩, ⟨.int .uint8, 0#8⟩], 2) := by rfl
  refine ⟨h1, h2, fun h => ?_⟩
  obtain ⟨v, pos, hv1, hv2⟩ := h
  have heq := (Except.ok.inj (h2.symm.trans hv1)).trans (Except.ok.inj (h1.symm.trans hv2)).symm
  have hlist := (List.cons_eq_cons.mp (Prod.mk.inj heq).1).2
  have hval : (0#8 : BitVec 8) = 2#8 := eq_of_heq (Sigma.mk.inj (List.cons_eq_cons.mp hlist).1).2
  revert hval
  decide

end VoltNet
