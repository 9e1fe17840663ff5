import VoltNet.Serialize.Bounds
import VoltNet.Serialize.Endianness

/-!
# Writing what was read

The converse of the round trip, from arbitrary bytes: a relay that reads a message and writes the
values again sends what it received.

* `Ty.Canonical`          types of whose values each has one accepted form only;
* `readInto_rewire`       a read of such a type consumes the network form of what it returns;
* `writeMsgs_readMsgs`    so writing the values of a sequence of reads gives the bytes back.
-/

namespace VoltNet
open Stuffing Positional Fallible

/-- no `bool`, `float` or user struct anywhere; any byte but zero reads as `true`, and a `float`
is written with more bytes than are read -/
def Ty.Canonical : Ty → Prop
  | .bool | .float | .struct _ _ => False
  | .vector t => t.Canonical
  | .array t _ => t.Canonical
  | .field t rest => t.Canonical ∧ rest.Canonical
  | .int _ | .double | .string | .done => True

theorem Ty.Canonical.floatFree {t : Ty} (h : t.Canonical) : t.FloatFree := by
  induction t with
  | int | double | string | done => trivial
  | bool | float | struct => exact h.elim
  | vector t ih => exact ih h
  | array t n ih => exact ih h
  | field t rest iht ihr => exact ⟨iht h.1, ihr h.2⟩

theorem netBytes_ofNat (w : List NetWord) :
    netBytes w.length (BitVec.ofNat (8 * w.length) (ofNetBytes w)).toNat = w := by
  rw [BitVec.toNat_ofNat, ← pow_256, netBytes_mod, netBytes_ofNetBytes]

/-! ## reads that consume a network form -/

/-- whatever the read at `pos` returns, its network form stands there and was consumed -/
def Rewires {α : Type} (msg : Message) (wire : α → List NetWord) (pos : Nat)
    (read : Except ReadFault (α × Nat)) : Prop :=
  ∀ v pos', read = .ok (v, pos') → At msg pos (wire v) ∧ pos' = pos + (wire v).length

section
variable {α β : Type} {msg : Message}

/-- two reads in a row, their values put together by `g` -/
theorem Rewires.bind {γ : Type} (wire : α → List NetWord) (wire' : β → List NetWord)
    (wire'' : γ → List NetWord) (g : α → β → γ) {pos : Nat} {read : Except ReadFault (α × Nat)}
    {rest : Nat → Except ReadFault (β × Nat)} (hg : ∀ a b, wire'' (g a b) = wire a ++ wire' b)
    (hread : Rewires msg wire pos read) (hrest : ∀ pos, Rewires msg wire' pos (rest pos)) :
    Rewires msg wire'' pos (read >>= fun r => rest r.2 >>= fun s => pure (g r.1 s.1, s.2)) := by
  intro v pos' h
  obtain ⟨r, hr, h⟩ := (bind_ok _ _ _).mp h
  obtain ⟨s, hs, h⟩ := (bind_ok _ _ _).mp h
  obtain ⟨hat, hpos⟩ := hread r.1 r.2 hr
  obtain ⟨hat', hpos'⟩ := hrest r.2 s.1 s.2 hs
  cases h
  rw [hpos] at hat' hpos'
  rw [hg, List.length_append, ← Nat.add_assoc]
  exact ⟨(at_append msg pos _ _).mpr ⟨hat, hat'⟩, hpos'⟩

theorem readScalar_rewire (pos n : Nat) (hn : 0 < n) (inst : Cells) (hinst : inst.length = n) :
    Rewires msg (fun v => netBytes n v.toNat) pos (readScalar .littleEndian msg pos n inst) := by
  intro v pos' h
  by_cases hlen : pos + n ≤ msg.length
  · have hw := length_take_drop msg pos n hlen
    have hat := at_take msg pos n
    revert hw hat
    generalize (msg.drop pos).take n = w
    intro hw hat
    subst hw
    rw [readScalar_little msg pos w hat hn inst hinst] at h
    cases h
    show At msg pos (netBytes w.length _) ∧ _ = _ + List.length (netBytes w.length _)
    rw [netBytes_ofNat]
    exact ⟨hat, rfl⟩
  · obtain ⟨f, -, hf⟩ := readScalar_short .littleEndian msg pos n (Nat.lt_of_not_le hlen) hn inst
    rw [hf] at h
    cases h

theorem readInt_rewire (n pos : Nat) (hn : 0 < n) (inst : BitVec (8 * n)) :
    Rewires msg (fun v => netBytes n v.toNat) pos (readInt .littleEndian msg n pos inst) :=
  readScalar_rewire pos n hn _ (length_stored _ _ _)

/-! ## containers -/

/-- reads of elements one after the other, each into a copy of `val` -/
inductive ElemReads (readElem : Nat → α → Except ReadFault (α × Nat)) (val : α) :
    Nat → List α → Nat → Prop where
  | nil (pos : Nat) : ElemReads readElem val pos [] pos
  | cons {pos pos' : Nat} {xs : List α} (r : α × Nat) (hr : readElem pos val = .ok r)
    (h : ElemReads readElem val r.2 xs pos') : ElemReads readElem val pos (r.1 :: xs) pos'

variable {readElem : Nat → α → Except ReadFault (α × Nat)}

theorem readElems_ok {val : α} (n pos pos' : Nat) (array l : List α)
    (h : readElems readElem val n pos array = .ok (l, pos')) :
    ∃ v, l = array ++ v ∧ v.length = n ∧ ElemReads readElem val pos v pos' := by
  induction n generalizing pos array with
  | zero =>
    obtain ⟨rfl, rfl⟩ := Prod.mk.inj (Except.ok.inj h)
    exact ⟨[], (List.append_nil array).symm, rfl, .nil pos⟩
  | succ n ih =>
    obtain ⟨r, hr, h⟩ := (bind_ok _ _ _).mp h
    obtain ⟨v, hl, hlen, hv⟩ := ih r.2 (array ++ [r.1]) h
    refine ⟨r.1 :: v, ?_, congrArg Nat.succ hlen, .cons r hr hv⟩
    rw [hl, List.append_assoc]
    rfl

/-- the count that an array read took, and its elements -/
theorem readIntoArray_ok {host : Host} {val : α} (pos pos' : Nat) (l : List α)
    (h : readIntoArray host msg readElem val pos [] = .ok (l, pos')) :
    ∃ size : BitVec (8 * 4) × Nat, readScalar host msg pos 4 (unwritten 4) = .ok size ∧
      l.length = size.1.toNat ∧ ElemReads readElem val size.2 l pos' := by
  obtain ⟨size, hsize, h⟩ := (bind_ok _ _ _).mp h
  obtain ⟨v, rfl, hlen, hv⟩ := readElems_ok _ _ _ _ _ h
  exact ⟨size, hsize, hlen, hv⟩

theorem ElemReads.rewire {wire : α → List NetWord} {val : α} {pos pos' : Nat} {v : List α}
    (hread : ∀ pos, Rewires msg wire pos (readElem pos val))
    (h : ElemReads readElem val pos v pos') :
    At msg pos (v.flatMap wire) ∧ pos' = pos + (v.flatMap wire).length := by
  induction h with
  | nil pos => exact ⟨at_nil msg pos, rfl⟩
  | cons r hr _ ih =>
    obtain ⟨hat, hpos⟩ := hread _ r.1 r.2 hr
    obtain ⟨hat', hpos'⟩ := ih
    rw [hpos] at hat' hpos'
    rw [List.flatMap_cons, List.length_append, ← Nat.add_assoc]
    exact ⟨(at_append msg _ _ _).mpr ⟨hat, hat'⟩, hpos'⟩

theorem ElemReads.forall {P : α → Prop} {val : α} {pos pos' : Nat} {v : List α}
    (hread : ∀ pos r, readElem pos val = .ok r → P r.1) (h : ElemReads readElem val pos v pos') :
    ∀ x ∈ v, P x := by
  induction h with
  | nil pos => exact fun _ hx => by cases hx
  | cons r hr _ ih => exact List.forall_mem_cons.mpr ⟨hread _ r hr, ih⟩

theorem readIntoArray_rewire (wire : α → List NetWord) (val : α)
    (hread : ∀ pos, Rewires msg wire pos (readElem pos val)) (pos : Nat) :
    Rewires msg (fun l => netBytes 4 l.length ++ l.flatMap wire) pos
      (readIntoArray .littleEndian msg readElem val pos []) := by
  intro l pos' h
  obtain ⟨size, hsize, hlen, hv⟩ := readIntoArray_ok pos pos' l h
  obtain ⟨hat, hpos⟩ := readScalar_rewire pos 4 (by decide) (unwritten 4) rfl size.1 size.2 hsize
  obtain ⟨hat', hpos'⟩ := hv.rewire hread
  rw [hpos] at hat' hpos'
  show At msg pos (netBytes 4 l.length ++ l.flatMap wire) ∧ _ = _ + List.length (_ ++ _)
  rw [hlen]
  refine ⟨(at_append msg pos _ _).mpr ⟨hat, hat'⟩, ?_⟩
  rw [hpos', List.length_append, Nat.add_assoc]

/-- a count is below `2 ^ 32` -/
theorem readIntoArray_short {host : Host} {P : α → Prop} (val : α)
    (hread : ∀ pos r, readElem pos val = .ok r → P r.1) (pos : Nat) (r : List α × Nat)
    (h : readIntoArray host msg readElem val pos [] = .ok r) : ShortList P r.1 := by
  obtain ⟨size, -, hlen, hv⟩ := readIntoArray_ok pos r.2 r.1 h
  refine ⟨?_, hv.forall hread⟩
  rw [hlen]
  exact size.1.isLt

theorem readEach_rewire (wire : α → List NetWord) (n : Nat) (inst : List.Vector α n)
    (hread : ∀ x ∈ inst.toList, ∀ pos, Rewires msg wire pos (readElem pos x)) (pos : Nat) :
    Rewires msg (fun v => v.toList.flatMap wire) pos (readEach readElem n pos inst) := by
  induction n generalizing pos with
  | zero =>
    intro v pos' h
    cases h
    rw [List.Vector.eq_nil inst]
    exact ⟨at_nil msg pos, rfl⟩
  | succ n ih =>
    obtain ⟨x, xs, rfl⟩ := List.Vector.exists_eq_cons inst
    have hcons : ∀ (a : α) (as : List.Vector α n),
        (List.Vector.cons a as).toList.flatMap wire = wire a ++ as.toList.flatMap wire := by
      intro a as
      rw [List.Vector.toList_cons, List.flatMap_cons]
    exact Rewires.bind wire (fun as => as.toList.flatMap wire) (fun as => as.toList.flatMap wire)
      List.Vector.cons hcons (hread x (by simp) pos) fun pos =>
      ih xs (fun y hy => hread y (by simp [hy])) pos

theorem readEach_all {P : α → Prop} (n : Nat) (inst : List.Vector α n)
    (hread : ∀ x ∈ inst.toList, ∀ pos r, readElem pos x = .ok r → P r.1) (pos : Nat)
    (r : List.Vector α n × Nat) (h : readEach readElem n pos inst = .ok r) :
    ∀ x ∈ r.1.toList, P x := by
  induction n generalizing pos with
  | zero =>
    cases h
    rw [List.Vector.eq_nil inst]
    exact fun _ hx => by cases hx
  | succ n ih =>
    obtain ⟨x, xs, rfl⟩ := List.Vector.exists_eq_cons inst
    obtain ⟨a, ha, h⟩ := (bind_ok _ _ _).mp h
    obtain ⟨as, has, h⟩ := (bind_ok _ _ _).mp h
    cases h
    rw [List.Vector.toList_cons]
    exact List.forall_mem_cons.mpr
      ⟨hread x (by simp) pos a ha, ih xs (fun y hy => hread y (by simp [hy])) a.2 as has⟩

end

/-! ## types -/

/-- **A read into an empty instance consumes exactly the network form of what it returns.** -/
theorem readInto_rewire (D : Defaults) (msg : Message) (t : Ty) (ht : t.Canonical) (inst : t.Val)
    (hinst : Blank D t inst) (pos : Nat) :
    Rewires msg t.wire pos (readInto .littleEndian D msg t pos inst) := by
  induction t generalizing pos with
  | int k => exact readInt_rewire k.size pos k.size_pos inst
  | double => exact readInt_rewire 8 pos (by decide) inst
  | bool | float | struct => exact ht.elim
  | string =>
    have hnil : inst = ([] : List _) := List.eq_nil_of_length_eq_zero hinst
    rw [hnil]
    intro v pos' h
    obtain ⟨charVec, hvec, h⟩ := (bind_ok _ _ _).mp h
    have hchars := readIntoArray_rewire (fun c => netBytes 1 c.toNat) 0
      (fun pos => readInt_rewire 1 pos Nat.one_pos 0) pos charVec.1 charVec.2 hvec
    cases h
    exact hchars
  | vector t ih =>
    have hnil : inst = ([] : List _) := List.eq_nil_of_length_eq_zero hinst.1
    rw [hnil]
    exact readIntoArray_rewire t.wire (t.init D) (ih ht (t.init D) hinst.2) pos
  | array t n ih => exact readEach_rewire t.wire n inst (fun x hx => ih ht x (hinst x hx)) pos
  | done =>
    intro v pos' h
    cases h
    exact ⟨at_nil msg pos, rfl⟩
  | field t rest iht ihr =>
    exact Rewires.bind t.wire rest.wire (Ty.field t rest).wire Prod.mk (fun _ _ => rfl)
      (iht ht.1 inst.1 hinst.1 pos) (ihr ht.2 inst.2 hinst.2)

/-- a read into an empty instance gives strings and vectors that a count can stand before -/
theorem readInto_short (host : Host) (D : Defaults) (msg : Message) (t : Ty) (inst : t.Val)
    (hinst : Blank D t inst) (pos : Nat) (r : t.Val × Nat)
    (h : readInto host D msg t pos inst = .ok r) : Short t r.1 := by
  induction t generalizing pos with
  | int | bool | float | double | done => trivial
  | string =>
    have hnil : inst = ([] : List _) := List.eq_nil_of_length_eq_zero hinst
    rw [hnil] at h
    obtain ⟨charVec, hvec, h⟩ := (bind_ok _ _ _).mp h
    cases h
    have hshort := readIntoArray_short (P := fun _ => True) 0 (fun _ _ _ => trivial) pos charVec hvec
    exact hshort.1
  | vector t ih =>
    have hnil : inst = ([] : List _) := List.eq_nil_of_length_eq_zero hinst.1
    rw [hnil] at h
    exact readIntoArray_short (t.init D) (ih (t.init D) hinst.2) pos r h
  | array t n ih => exact readEach_all n inst (fun x hx => ih x (hinst x hx)) pos r h
  | struct name fields ih => exact ih inst hinst pos r h
  | field t rest iht ihr =>
    obtain ⟨a, ha, h⟩ := (bind_ok _ _ _).mp h
    obtain ⟨b, hb, h⟩ := (bind_ok _ _ _).mp h
    cases h
    exact ⟨iht inst.1 hinst.1 pos a ha, ihr inst.2 hinst.2 a.2 b hb⟩

theorem readMsgs_rewire (D : Defaults) (msg : Message) (insts : List Instance)
    (hs : ∀ i ∈ insts, i.1.Canonical ∧ Blank D i.1 i.2) (pos : Nat) :
    Rewires msg wireAll pos (readMsgs .littleEndian D msg pos insts) := by
  induction insts generalizing pos with
  | nil =>
    intro v pos' h
    cases h
    exact ⟨at_nil msg pos, rfl⟩
  | cons i insts ih =>
    obtain ⟨hi, hblank⟩ := hs i List.mem_cons_self
    have hcons : ∀ (a : i.1.Val) (vs : List Instance),
        wireAll (⟨i.1, a⟩ :: vs) = i.1.wire a ++ wireAll vs := fun _ _ => List.flatMap_cons
    exact Rewires.bind i.1.wire wireAll wireAll (fun a vs => ⟨i.1, a⟩ :: vs) hcons
      (readInto_rewire D msg i.1 hi i.2 hblank pos)
      fun pos => ih (fun j hj => hs j (List.mem_cons_of_mem i hj)) pos

/-- the types of the values that a sequence of reads returns -/
theorem readMsgs_types (host : Host) (D : Defaults) (msg : Message) (insts vs : List Instance)
    (pos pos' : Nat) (h : readMsgs host D msg pos insts = .ok (vs, pos')) :
    vs.map Sigma.fst = insts.map Sigma.fst := by
  induction insts generalizing pos vs with
  | nil =>
    cases h
    rfl
  | cons i insts ih =>
    obtain ⟨r, -, h⟩ := (bind_ok _ _ _).mp h
    obtain ⟨rs, hrs, h⟩ := (bind_ok _ _ _).mp h
    cases h
    rw [List.map_cons, List.map_cons, ih rs.1 r.2 hrs]

/-- **Writing what was read gives the bytes back.**  On a little-endian host, for every message
and every sequence of reads into empty instances that stays inside it, the values read, written
again, are behind the escaping exactly the bytes that the reads consumed. -/
theorem writeMsgs_readMsgs (behind : Message → List.Vector NetWord 4) (D : Defaults)
    (msg : Message) (insts : List Instance)
    (hs : ∀ i ∈ insts, i.1.Canonical ∧ Blank D i.1 i.2) (pos : Nat)
    (hin : Inside (readMsgs .littleEndian D msg pos insts)) :
    ∃ vs pos', readMsgs .littleEndian D msg pos insts = .ok (vs, pos') ∧
      vs.map Sigma.fst = insts.map Sigma.fst ∧
      unescape (writeMsgs .littleEndian behind vs []) = (msg.drop pos).take (pos' - pos) ∧
      pos' = pos + (unescape (writeMsgs .littleEndian behind vs [])).length := by
  have hspans := readMsgs_spans .littleEndian D msg insts (fun i _ => defined_little i.1) pos
  cases hr : readMsgs .littleEndian D msg pos insts with
  | error f =>
    rw [hr] at hspans
    have hleaves := hspans.symm.trans (hin f hr)
    cases hleaves
  | ok r =>
    obtain ⟨vs, pos'⟩ := r
    have htypes := readMsgs_types .littleEndian D msg insts vs pos pos' hr
    have hfree : ∀ v ∈ vs, v.1.FloatFree := by
      intro v hv
      have hmem : v.1 ∈ insts.map Sigma.fst := htypes ▸ List.mem_map_of_mem hv
      obtain ⟨i, hi, hty⟩ := List.mem_map.mp hmem
      rw [← hty]
      exact (hs i hi).1.floatFree
    obtain ⟨hat, hpos⟩ := readMsgs_rewire D msg insts hs pos vs pos' hr
    have hback : unescape (writeMsgs .littleEndian behind vs []) = wireAll vs := by
      rw [writeMsgs_eq .littleEndian behind vs hfree, List.nil_append, unescape_stuffAll]
    refine ⟨vs, pos', rfl, htypes, ?_, ?_⟩
    · rw [hback, hpos, Nat.add_sub_cancel_left, hat.take]
    · rw [hback]
      exact hpos

/-- a string, then an array of two vectors, from the middle of a message -/
theorem writeMsgs_readMsgs_nested :
    ∃ vs pos', readMsgs .littleEndian (fun _ _ => none)
        [9, 0, 0, 0, 1, 255, 0, 0, 0, 0, 0, 0, 0, 1, 1, 2, 8] 1
        [⟨.string, []⟩, ⟨.array (.vector (.int .uint16)) 2, ⟨[[], []], rfl⟩⟩] = .ok (vs, pos') ∧
      vs.map Sigma.fst = [.string, .array (.vector (.int .uint16)) 2] ∧
      unescape (writeMsgs .littleEndian (fun _ => List.Vector.replicate 4 0) vs [])
        = ([9, 0, 0, 0, 1, 255, 0, 0, 0, 0, 0, 0, 0, 1, 1, 2, 8].drop 1).take (pos' - 1) ∧
      pos' = 1 + (unescape
        (writeMsgs .littleEndian (fun _ => List.Vector.replicate 4 0) vs [])).length := by
  refine writeMsgs_readMsgs (fun _ => List.Vector.replicate 4 0) (fun _ _ => none) _
    [⟨.string, []⟩, ⟨.array (.vector (.int .uint16)) 2, ⟨[[], []], rfl⟩⟩] ?_ 1 ?_
  · have hvec : ∀ x ∈ ([[], []] : List (List (BitVec 16))), x.length = 0 := by decide
    simp only [List.forall_mem_cons, Ty.Canonical, Blank, List.Vector.toList_mk]
    exact ⟨⟨trivial, rfl⟩, ⟨trivial, fun x hx => ⟨hvec x hx, trivial⟩⟩, fun _ h => by cases h⟩
  · intro f hf
    cases hf

end VoltNet
