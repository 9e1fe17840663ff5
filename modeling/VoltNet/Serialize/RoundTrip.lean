import VoltNet.Serialize.Read
import VoltNet.Framing.Streams

/-!
# Writing and reading typed values

The little-endian pair of writer and reader, type by type, then through the frame format.

* `readInto_wire`           on the network form of a value a read into an empty instance gives
                            the value and consumes exactly that form;
* `readMsgs_writeMsgs`      values written with `write_msg`, sent, and read with `read_msg`.
-/

namespace VoltNet
open Stuffing Positional Fallible

section
variable (msg : Message)

/-! ## leaves -/

theorem readInt_wire (n pos : Nat) (hn : 0 < n) (v inst : BitVec (8 * n))
    (h : At msg pos (netBytes n v.toNat)) :
    readInt .littleEndian msg n pos inst = .ok (v, pos + n) := by
  have hlen := length_netBytes n v.toNat
  have h1 := readScalar_little msg pos _ h (by rw [hlen]; exact hn)
    (stored .littleEndian n inst.toNat) (by rw [hlen, length_stored])
  rw [hlen, ofNat_ofNetBytes] at h1
  exact h1

theorem readCount_wire (n pos : Nat) (h : At msg pos (netBytes 4 n)) :
    readScalar .littleEndian msg pos 4 (unwritten 4) = .ok (BitVec.ofNat (8 * 4) n, pos + 4) := by
  have h1 := readScalar_little msg pos _ h (by decide : 0 < 4) (unwritten 4) rfl
  rw [length_netBytes, ofNetBytes_netBytes] at h1
  have h2 : BitVec.ofNat (8 * 4) (n % 256 ^ 4) = BitVec.ofNat (8 * 4) n :=
    BitVec.eq_of_toNat_eq (Nat.mod_mod n _)
  rw [h2] at h1
  exact h1

theorem readBool_wire (v : Bool) (pos : Nat) (h : At msg pos (netBytes 1 v.toNat)) :
    readBool .littleEndian msg pos = .ok (v, pos + 1) := by
  have h1 := readScalar_little msg pos _ h Nat.one_pos (unwritten 1) rfl
  rw [length_netBytes, ofNetBytes_netBytes] at h1
  rw [readBool, ok_bind _ _ _ h1]
  cases v <;> rfl

/-! ## containers -/

variable {α : Type} (wire : α → List NetWord)
  (readElem : Nat → α → Except ReadFault (α × Nat))

theorem readElems_wire (val : α) (l : List α)
    (hread : ∀ x ∈ l, ∀ pos, At msg pos (wire x) →
      readElem pos val = .ok (x, pos + (wire x).length))
    (pos : Nat) (array : List α) (h : At msg pos (l.flatMap wire)) :
    readElems readElem val l.length pos array
      = .ok (array ++ l, pos + (l.flatMap wire).length) := by
  induction l generalizing pos array with
  | nil => rw [List.append_nil]; rfl
  | cons x l ih =>
    rw [List.flatMap_cons] at h ⊢
    obtain ⟨hx, hl⟩ := (at_append msg pos _ _).mp h
    rw [List.length_cons, readElems, ok_bind _ _ _ (hread x List.mem_cons_self pos hx),
      ih (fun y hy => hread y (List.mem_cons_of_mem x hy)) _ _ hl, List.append_assoc,
      List.length_append, Nat.add_assoc]
    rfl

theorem readIntoArray_wire (val : α) (l : List α) (hl : l.length < 2 ^ 32)
    (hread : ∀ x ∈ l, ∀ pos, At msg pos (wire x) →
      readElem pos val = .ok (x, pos + (wire x).length))
    (pos : Nat) (array : List α) (h : At msg pos (netBytes 4 l.length ++ l.flatMap wire)) :
    readIntoArray .littleEndian msg readElem val pos array
      = .ok (array ++ l, pos + (netBytes 4 l.length ++ l.flatMap wire).length) := by
  obtain ⟨hcount, helems⟩ := (at_append msg pos _ _).mp h
  rw [length_netBytes] at helems
  have hn : (BitVec.ofNat (8 * 4) l.length).toNat = l.length := Nat.mod_eq_of_lt hl
  rw [readIntoArray, ok_bind _ _ _ (readCount_wire msg l.length pos hcount), hn,
    readElems_wire msg wire readElem val l hread _ _ helems, List.length_append, length_netBytes,
    Nat.add_assoc]

theorem readEach_wire (n : Nat) (v inst : List.Vector α n)
    (hread : ∀ x ∈ v.toList, ∀ y ∈ inst.toList, ∀ pos, At msg pos (wire x) →
      readElem pos y = .ok (x, pos + (wire x).length))
    (pos : Nat) (h : At msg pos (v.toList.flatMap wire)) :
    readEach readElem n pos inst = .ok (v, pos + (v.toList.flatMap wire).length) := by
  induction n generalizing pos with
  | zero =>
    rw [readEach, Subsingleton.elim v inst, List.Vector.eq_nil inst]
    rfl
  | succ n ih =>
    obtain ⟨x, xs, rfl⟩ := List.Vector.exists_eq_cons v
    obtain ⟨y, ys, rfl⟩ := List.Vector.exists_eq_cons inst
    rw [List.Vector.toList_cons, List.flatMap_cons] at h ⊢
    obtain ⟨hx, hxs⟩ := (at_append msg pos _ _).mp h
    have hhead := hread x (by simp) y (by simp) pos hx
    have htail := ih xs ys (fun a ha b hb => hread a (by simp [ha]) b (by simp [hb])) _ hxs
    rw [readEach, List.Vector.head_cons, List.Vector.tail_cons, ok_bind _ _ _ hhead,
      ok_bind _ _ _ htail, List.length_append, ← Nat.add_assoc]
    rfl

end

/-! ## types -/

theorem readString_wire (msg : Message) (v : List (BitVec (8 * 1))) (hv : v.length < 2 ^ 32)
    (pos : Nat) (h : At msg pos (netBytes 4 v.length ++ v.flatMap fun c => netBytes 1 c.toNat)) :
    readString .littleEndian msg pos []
      = .ok (v, pos + (netBytes 4 v.length ++ v.flatMap fun c => netBytes 1 c.toNat).length) := by
  have hread : ∀ c ∈ v, ∀ pos, At msg pos (netBytes 1 c.toNat) →
      readInt .littleEndian msg 1 pos 0 = .ok (c, pos + (netBytes 1 c.toNat).length) :=
    fun c _ pos hc => by
      rw [length_netBytes]
      exact readInt_wire msg 1 pos Nat.one_pos c 0 hc
  rw [readString, ok_bind _ _ _ (readIntoArray_wire msg _ _ 0 v hv hread pos [] h)]
  rfl

/-- **A read into an empty instance gives the value back and consumes exactly its network
form.** -/
theorem readInto_wire (D : Defaults) (msg : Message) (t : Ty) (v inst : t.Val) (hv : Short t v)
    (hinst : Blank D t inst) (pos : Nat) (h : At msg pos (t.wire v)) :
    readInto .littleEndian D msg t pos inst = .ok (v, pos + (t.wire v).length) := by
  induction t generalizing pos with
  | int k =>
    have h1 := readInt_wire msg k.size pos k.size_pos v inst h
    exact h1.trans (by rw [Ty.wire, length_netBytes]; rfl)
  | bool =>
    have h1 := readBool_wire msg v pos h
    exact h1.trans (by rw [Ty.wire, length_netBytes]; rfl)
  | float =>
    have h1 := readInt_wire msg 4 pos (by decide) v inst h
    exact h1.trans (by rw [Ty.wire, length_netBytes]; rfl)
  | double =>
    have h1 := readInt_wire msg 8 pos (by decide) v inst h
    exact h1.trans (by rw [Ty.wire, length_netBytes]; rfl)
  | string =>
    have hnil : inst = ([] : List _) := List.eq_nil_of_length_eq_zero hinst
    rw [hnil]
    exact readString_wire msg v hv pos h
  | vector t ih =>
    have hnil : inst = ([] : List _) := List.eq_nil_of_length_eq_zero hinst.1
    rw [hnil]
    exact readIntoArray_wire msg t.wire _ (t.init D) v hv.1
      (fun x hx pos hpos => ih x (t.init D) (hv.2 x hx) hinst.2 pos hpos) pos [] h
  | array t n ih =>
    exact readEach_wire msg t.wire _ n v inst
      (fun x hx y hy pos hpos => ih x y (hv x hx) (hinst y hy) pos hpos) pos h
  | struct name fields ih => exact ih v inst hv hinst pos h
  | done => rfl
  | field t rest iht ihr =>
    obtain ⟨h1, h2⟩ := (at_append msg pos _ _).mp h
    have hfirst := iht v.1 inst.1 hv.1 hinst.1 pos h1
    have hrest := ihr v.2 inst.2 hv.2 hinst.2 _ h2
    refine (readInto_field _ _ _ t rest pos inst _ _ hfirst hrest).trans ?_
    rw [Ty.wire, List.length_append, ← Nat.add_assoc]
    rfl

/-- the default-constructed instance that a value is read into -/
def Instance.blank (D : Defaults) (v : Instance) : Instance := ⟨v.1, v.1.init D⟩

theorem readMsgs_wire (D : Defaults) (msg : Message) (vs : List Instance)
    (hvs : ∀ v ∈ vs, v.1.Builtin ∧ Short v.1 v.2) (pos : Nat) (h : At msg pos (wireAll vs)) :
    readMsgs .littleEndian D msg pos (vs.map (Instance.blank D))
      = .ok (vs, pos + (wireAll vs).length) := by
  induction vs generalizing pos with
  | nil => rfl
  | cons v vs ih =>
    obtain ⟨h1, h2⟩ := (at_append msg pos _ _).mp h
    obtain ⟨ht, hv⟩ := hvs v List.mem_cons_self
    have hfirst := readInto_wire D msg v.1 v.2 _ hv (blank_init D v.1 ht) pos h1
    have hrest := ih (fun u hu => hvs u (List.mem_cons_of_mem v hu)) _ h2
    rw [List.map_cons]
    refine (readMsgs_cons _ _ _ _ _ _ _ _ hfirst hrest).trans ?_
    rw [Nat.add_assoc, ← List.length_append]
    rfl

/-- **Typed round trip through the wire.**  Values written with `write_msg`, closed with
`end_msg` and received in any chunks make one message; `read_msg` at the same types gives the
values back and ends at the end of the message. -/
theorem readMsgs_writeMsgs (behind : Message → List.Vector NetWord 4) (D : Defaults)
    (vs : List Instance) (hvs : ∀ v ∈ vs, v.1.Builtin ∧ Short v.1 v.2) (cb : NewMsgCallback)
    (id : ConId) (chunks : List (List NetWord))
    (hcut : chunks.flatten = endMsg (writeMsgs .littleEndian behind vs []))
    (hlen : ∀ chunk ∈ chunks, chunk.length ≤ buffCapacity) :
    ∃ r m, ConState.feed cb (ConState.fresh id) chunks = .ok r ∧ delivered r.trace = [(id, m)] ∧
      readMsgs .littleEndian D m 0 (vs.map (Instance.blank D)) = .ok (vs, m.length) := by
  rw [endMsg_writeMsgs .littleEndian behind vs fun v hv => (hvs v hv).1.floatFree] at hcut
  obtain ⟨r, hok, hdel⟩ := feed_frame cb id (wireAll vs) chunks hcut hlen
  refine ⟨r, wireAll vs, hok, hdel, ?_⟩
  rw [readMsgs_wire D (wireAll vs) vs hvs 0 (List.prefix_refl _), Nat.zero_add]

theorem readMsgs_writeMsgs_mixed :
    ∃ r m, ConState.feed (fun _ => true) (ConState.fresh 5)
        [[1, 255], [255, 0, 0, 0, 2, 97, 255, 255, 0, 0, 0], [1, 1, 255, 0]] = .ok r ∧
      delivered r.trace = [(5, m)] ∧
      readMsgs .littleEndian (fun _ _ => none) m 0
          (([⟨.int .uint16, 511#16⟩, ⟨.string, [97#8, 255#8]⟩,
            ⟨.array (.vector .bool) 1, ⟨[[true]], rfl⟩⟩] : List Instance).map
              (Instance.blank fun _ _ => none))
        = .ok ([⟨.int .uint16, 511#16⟩, ⟨.string, [97#8, 255#8]⟩,
            ⟨.array (.vector .bool) 1, ⟨[[true]], rfl⟩⟩], m.length) :=
  readMsgs_writeMsgs (fun _ => List.Vector.replicate 4 0) (fun _ _ => none) _
    (by
      have hvec : ∀ x ∈ [[true]], x.length < 2 ^ 32 := by decide
      simp only [List.forall_mem_cons, Ty.Builtin, Short, ShortList, List.Vector.toList_mk]
      exact ⟨⟨trivial, trivial⟩, ⟨trivial, by decide⟩, ⟨trivial, fun x hx => ⟨hvec x hx,
        fun _ _ => trivial⟩⟩, fun _ h => by cases h⟩) _ 5 _ (by decide) (by decide)

end VoltNet
