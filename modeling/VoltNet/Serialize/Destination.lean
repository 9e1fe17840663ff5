import VoltNet.Serialize.Bounds

/-!
# What a destination held before a read

Integers, floating point numbers and booleans are overwritten; `read_into_array` pushes its
elements behind those the vector has, and the overload for `std::string` appends.

* `readIntoArray_prior`   an array read keeps what was there;
* `readInto_pair`         the same read into two destinations, side by side;
* `readInto_same_iff`     the results agree exactly when the destinations agree in every string
                          and every vector (`Agree`).
-/

namespace VoltNet
open Positional Fallible

/-- the prior contents between which a read makes no difference.  A big-endian host stores
nothing, so there it keeps every number, and has no value for what goes through a local
variable. -/
def Agree (host : Host) : (t : Ty) → t.Val → t.Val → Prop
  | .int _, p, q | .float, p, q | .double, p, q => host = .bigEndian → p = q
  | .bool, _, _ => host = .littleEndian
  | .string, p, q | .vector _, p, q => host = .littleEndian ∧ p = q
  | .array t _, p, q =>
    List.Forall₂ (Agree host t) (List.Vector.toList p) (List.Vector.toList q)
  | .struct _ fields, p, q => Agree host fields p q
  | .done, _, _ => True
  | .field t rest, p, q => Agree host t p.1 q.1 ∧ Agree host rest p.2 q.2

/-- two reads that leave the same value and the same iterator -/
def SameResult {α : Type} (r1 r2 : Except ReadFault (α × Nat)) : Prop :=
  ∃ v pos, r1 = .ok (v, pos) ∧ r2 = .ok (v, pos)

/-- two reads of a word that ends at `pos`, with the condition for equal values -/
def Pair {α : Type} (pos : Nat) (C : Prop) (r1 r2 : Except ReadFault (α × Nat)) : Prop :=
  ∃ a b, r1 = .ok (a, pos) ∧ r2 = .ok (b, pos) ∧ (a = b ↔ C)

theorem Pair.same_iff {α : Type} {pos : Nat} {C : Prop} {r1 r2 : Except ReadFault (α × Nat)}
    (h : Pair pos C r1 r2) : SameResult r1 r2 ↔ C := by
  obtain ⟨a, b, ha, hb, hC⟩ := h
  rw [← hC]
  constructor
  · intro h
    obtain ⟨v, pos', h1, h2⟩ := h
    rw [ha] at h1
    rw [hb] at h2
    cases h1
    cases h2
    rfl
  · intro hab
    rw [← hab] at hb
    exact ⟨a, pos, ha, hb⟩

section
variable {α : Type} {msg : Message} {P : List NetWord → Prop}
  {readElem : Nat → α → Except ReadFault (α × Nat)}

/-! ## containers -/

theorem readElems_prior (readElem : Nat → α → Except ReadFault (α × Nat)) (val : α) (n pos : Nat)
    (array more : List α) :
    readElems readElem val n pos (array ++ more)
      = readElems readElem val n pos more >>= fun r => pure (array ++ r.1, r.2) := by
  induction n generalizing pos more with
  | zero => rfl
  | succ n ih =>
    rw [readElems, readElems]
    cases readElem pos val with
    | error f => rfl
    | ok r =>
      show readElems readElem val n r.2 (array ++ more ++ [r.1]) = _
      rw [List.append_assoc, ih]
      rfl

theorem readIntoArray_prior (host : Host) (val : α) (pos : Nat) (array : List α) :
    readIntoArray host msg readElem val pos array
      = readIntoArray host msg readElem val pos [] >>= fun r => pure (array ++ r.1, r.2) := by
  rw [readIntoArray, readIntoArray]
  cases readScalar host msg pos 4 (unwritten 4) with
  | error f => rfl
  | ok n =>
    have h := readElems_prior readElem val n.1.toNat n.2 array []
    rw [List.append_nil] at h
    exact h

theorem readIntoArray_pair (val : α) (hread : Fits msg P (readElem · val)) (p q : List α)
    (pos : Nat) (w : List NetWord) (hw : Counted P w) (hat : At msg pos w) :
    Pair (pos + w.length) (Host.littleEndian = .littleEndian ∧ p = q)
      (readIntoArray .littleEndian msg readElem val pos p)
      (readIntoArray .littleEndian msg readElem val pos q) := by
  obtain ⟨l, hl⟩ := readIntoArray_fits val hread [] pos w hw hat
  rw [readIntoArray_prior .littleEndian val pos p, readIntoArray_prior .littleEndian val pos q]
  refine ⟨p ++ l, q ++ l, ok_bind _ _ _ hl, ok_bind _ _ _ hl, ?_⟩
  rw [List.append_left_inj]
  exact ⟨fun h => ⟨rfl, h⟩, And.right⟩

/-- two reads in a row, their values put together by `g` -/
theorem Pair.seq {β γ : Type} {g : α → β → γ}
    (hg : ∀ a b a' b', g a b = g a' b' ↔ a = a' ∧ b = b') {pos pos' : Nat} {C C' : Prop}
    {r1 r2 : Except ReadFault (α × Nat)} (s1 s2 : Nat → Except ReadFault (β × Nat))
    (hr : Pair pos C r1 r2) (hs : Pair pos' C' (s1 pos) (s2 pos)) :
    Pair pos' (C ∧ C') (r1 >>= fun r => s1 r.2 >>= fun s => pure (g r.1 s.1, s.2))
      (r2 >>= fun r => s2 r.2 >>= fun s => pure (g r.1 s.1, s.2)) := by
  obtain ⟨a, a', ha, ha', hC⟩ := hr
  obtain ⟨b, b', hb, hb', hC'⟩ := hs
  refine ⟨g a b, g a' b', ?_, ?_, ?_⟩
  · rw [ok_bind _ _ _ ha]
    exact ok_bind _ _ _ hb
  · rw [ok_bind _ _ _ ha']
    exact ok_bind _ _ _ hb'
  · rw [hg, hC, hC']

theorem readEach_pair (C : α → α → Prop)
    (hread : ∀ p q pos w, P w → At msg pos w →
      Pair (pos + w.length) (C p q) (readElem pos p) (readElem pos q))
    (n : Nat) (p q : List.Vector α n) (pos : Nat) (w : List NetWord) (hw : Repeated P n w)
    (hat : At msg pos w) :
    Pair (pos + w.length) (List.Forall₂ C p.toList q.toList) (readEach readElem n pos p)
      (readEach readElem n pos q) := by
  induction n generalizing pos w with
  | zero =>
    obtain rfl : w = [] := hw
    refine ⟨p, q, rfl, rfl, fun _ => ?_, fun _ => ?_⟩
    · rw [List.Vector.eq_nil p, List.Vector.eq_nil q]
      exact .nil
    · rw [List.Vector.eq_nil p, List.Vector.eq_nil q]
  | succ n ih =>
    obtain ⟨u, v, rfl, hu, hv⟩ := hw
    obtain ⟨hat1, hat2⟩ := (at_append msg pos u v).mp hat
    obtain ⟨x, xs, rfl⟩ := List.Vector.exists_eq_cons p
    obtain ⟨y, ys, rfl⟩ := List.Vector.exists_eq_cons q
    have hcons : ∀ (a : α) (as : List.Vector α n) (b : α) (bs : List.Vector α n),
        List.Vector.cons a as = List.Vector.cons b bs ↔ a = b ∧ as = bs := fun a as b bs => by
      rw [List.Vector.eq_cons_iff, List.Vector.head_cons, List.Vector.tail_cons]
    have h := Pair.seq hcons (readEach readElem n · xs) (readEach readElem n · ys)
      (hread x y pos u hu hat1) (ih xs ys _ v hv hat2)
    rw [List.Vector.toList_cons, List.Vector.toList_cons, List.forall₂_cons, List.length_append,
      ← Nat.add_assoc]
    exact h

end

/-! ## types -/

theorem readInt_pair (host : Host) (msg : Message) (n : Nat) (hn : 0 < n) (p q : BitVec (8 * n))
    (pos : Nat) (w : List NetWord) (hw : w.length = n) (hat : At msg pos w) :
    Pair (pos + w.length) (host = .bigEndian → p = q) (readInt host msg n pos p)
      (readInt host msg n pos q) := by
  subst hw
  cases host with
  | littleEndian =>
    refine ⟨_, _, readScalar_little msg pos w hat hn _ (length_stored _ _ _),
      readScalar_little msg pos w hat hn _ (length_stored _ _ _), fun _ h => ?_, fun _ => rfl⟩
    cases h
  | bigEndian =>
    have hlen := hat.length_le hn
    exact ⟨p, q, readScalar_big msg pos _ hlen p, readScalar_big msg pos _ hlen q,
      fun h _ => h, fun h => h rfl⟩

theorem readString_pair (msg : Message) (p q : List (BitVec (8 * 1))) (pos : Nat)
    (w : List NetWord) (hw : Counted (fun c => c.length = 1) w) (hat : At msg pos w) :
    Pair (pos + w.length) (Host.littleEndian = .littleEndian ∧ p = q)
      (readString .littleEndian msg pos p) (readString .littleEndian msg pos q) := by
  obtain ⟨l, hl⟩ := readIntoArray_fits 0 (readInt_fits .littleEndian 1 Nat.one_pos 0) [] pos w hw
    hat
  refine ⟨p ++ l, q ++ l, ok_bind _ _ _ hl, ok_bind _ _ _ hl, ?_⟩
  rw [List.append_left_inj]
  exact ⟨fun h => ⟨rfl, h⟩, And.right⟩

/-- **One word read into two destinations**: the iterators agree, and the values do exactly when
the destinations agreed. -/
theorem readInto_pair (host : Host) (D : Defaults) (msg : Message) (t : Ty) (ht : Defined host t)
    (p q : t.Val) (pos : Nat) (w : List NetWord) (hw : t.Words w) (hat : At msg pos w) :
    Pair (pos + w.length) (Agree host t p q) (readInto host D msg t pos p)
      (readInto host D msg t pos q) := by
  induction t generalizing pos w with
  | int k => exact readInt_pair host msg k.size k.size_pos p q pos w hw hat
  | float => exact readInt_pair host msg 4 (by decide) p q pos w hw hat
  | double => exact readInt_pair host msg 8 (by decide) p q pos w hw hat
  | bool =>
    obtain rfl := ht.little id
    obtain ⟨v, hv⟩ := readBool_fits pos w hw hat
    exact ⟨v, v, hv, hv, fun _ => rfl, fun _ => rfl⟩
  | string =>
    obtain rfl := ht.little id
    exact readString_pair msg p q pos w hw hat
  | vector t _ =>
    obtain rfl := ht.little id
    exact readIntoArray_pair (t.init D)
      (readInto_fits .littleEndian D msg t (defined_little t) (t.init D)) p q pos w hw hat
  | array t n ih =>
    cases n with
    | zero =>
      obtain rfl : w = [] := hw
      refine ⟨p, q, rfl, rfl, fun _ => ?_, fun _ => ?_⟩
      · show List.Forall₂ _ (List.Vector.toList p) (List.Vector.toList q)
        rw [List.Vector.eq_nil p, List.Vector.eq_nil q]
        exact .nil
      · exact (List.Vector.eq_nil p).trans (List.Vector.eq_nil q).symm
    | succ n =>
      exact readEach_pair (Agree host t) (ih fun h => (ht h).resolve_left (Nat.succ_ne_zero n)) _
        p q pos w hw hat
  | struct name fields ih => exact ih ht p q pos w hw hat
  | done =>
    obtain rfl : w = [] := hw
    exact ⟨(), (), rfl, rfl, fun _ => trivial, fun _ => rfl⟩
  | field t rest iht ihr =>
    obtain ⟨u, v, rfl, hu, hv⟩ := hw
    obtain ⟨hat1, hat2⟩ := (at_append msg pos u v).mp hat
    have hpair : ∀ (a : t.Val) (b : rest.Val) a' b', (a, b) = (a', b') ↔ a = a' ∧ b = b' :=
      fun _ _ _ _ => Prod.mk_inj
    have h := Pair.seq hpair (readInto host D msg rest · p.2) (readInto host D msg rest · q.2)
      (iht (fun h => (ht h).1) p.1 q.1 pos u hu hat1)
      (ihr (fun h => (ht h).2) p.2 q.2 _ v hv hat2)
    rw [List.length_append, ← Nat.add_assoc]
    exact h

/-- agreeing destinations: the read is defined on the host -/
theorem Agree.defined {host : Host} (t : Ty) {p q : t.Val} (h : Agree host t p q) :
    Defined host t := by
  intro hbig
  rw [hbig] at h
  induction t with
  | int | float | double | done => trivial
  | bool => cases h
  | string | vector => cases h.1
  | array t n ih =>
    cases n with
    | zero => exact .inl rfl
    | succ n =>
      obtain ⟨x, xs, rfl⟩ := List.Vector.exists_eq_cons p
      obtain ⟨y, ys, rfl⟩ := List.Vector.exists_eq_cons q
      have h1 : List.Forall₂ (Agree .bigEndian t) (x :: xs.toList) (y :: ys.toList) := h
      exact .inr (ih (List.forall₂_cons.mp h1).1)
  | struct name fields ih => exact ih h
  | field t rest iht ihr => exact ⟨iht h.1, ihr h.2⟩

theorem readScalar_local (msg : Message) (pos n : Nat) (hn : 0 < n) (r : BitVec (8 * n) × Nat) :
    readScalar .bigEndian msg pos n (unwritten n) ≠ .ok r := by
  intro hr
  by_cases hlen : pos + n ≤ msg.length
  · rw [readScalar_unwritten msg pos n hlen hn] at hr
    cases hr
  · obtain ⟨f, -, hf⟩ := readScalar_short .bigEndian msg pos n (Nat.lt_of_not_le hlen) hn
      (unwritten n)
    rw [hf] at hr
    cases hr

/-- a read that returns is defined on the host -/
theorem readInto_defined (host : Host) (D : Defaults) (msg : Message) (t : Ty) (pos : Nat)
    (inst : t.Val) (r : t.Val × Nat) (h : readInto host D msg t pos inst = .ok r) :
    Defined host t := by
  intro hbig
  rw [hbig] at h
  induction t generalizing pos with
  | int | float | double | done => trivial
  | bool =>
    obtain ⟨val, hval, -⟩ := (bind_ok _ _ _).mp h
    exact readScalar_local msg pos 1 Nat.one_pos _ hval
  | string =>
    obtain ⟨charVec, hvec, -⟩ := (bind_ok _ _ _).mp h
    obtain ⟨n, hn, -⟩ := (bind_ok _ _ _).mp hvec
    exact readScalar_local msg pos 4 (by decide) _ hn
  | vector t _ =>
    obtain ⟨n, hn, -⟩ := (bind_ok _ _ _).mp h
    exact readScalar_local msg pos 4 (by decide) _ hn
  | array t n ih =>
    cases n with
    | zero => exact .inl rfl
    | succ n =>
      obtain ⟨a, ha, -⟩ := (bind_ok _ _ _).mp h
      exact .inr (ih pos _ a ha)
  | struct name fields ih => exact ih pos inst r h
  | field t rest iht ihr =>
    obtain ⟨a, ha, h1⟩ := (bind_ok _ _ _).mp h
    obtain ⟨b, hb, -⟩ := (bind_ok _ _ _).mp h1
    exact ⟨iht pos _ a ha, ihr a.2 _ b hb⟩

/-- **A read does not depend on its destination exactly when the destinations agree in every
string and every vector.** -/
theorem readInto_same_iff (host : Host) (D : Defaults) (msg : Message) (t : Ty) (p q : t.Val)
    (pos : Nat) (hin : ∃ w, t.Words w ∧ At msg pos w) :
    SameResult (readInto host D msg t pos p) (readInto host D msg t pos q) ↔ Agree host t p q := by
  obtain ⟨w, hw, hat⟩ := hin
  constructor
  · intro h
    have ⟨v, pos', hv, _⟩ := h
    have ht := readInto_defined host D msg t pos p _ hv
    exact (readInto_pair host D msg t ht p q pos w hw hat).same_iff.mp h
  · intro h
    exact (readInto_pair host D msg t (Agree.defined t h) p q pos w hw hat).same_iff.mpr h

/-- the struct of the test program without its `double`, which it does not send; the numbers of the
destinations differ, and the strings are the same -/
theorem readInto_same_iff_test :
    Agree .littleEndian
        (.struct "test" (.field (.int .int32) (.field (.int .char) (.field .string .done))))
        (1#32, 99#8, [33#8], ()) (0#32, 0#8, [33#8], ()) ∧
      SameResult
        (readInto .littleEndian (fun _ _ => none) [0, 0, 0, 1, 112, 0, 0, 0, 1, 77]
          (.struct "test" (.field (.int .int32) (.field (.int .char) (.field .string .done)))) 0
          (1#32, 99#8, [33#8], ()))
        (readInto .littleEndian (fun _ _ => none) [0, 0, 0, 1, 112, 0, 0, 0, 1, 77]
          (.struct "test" (.field (.int .int32) (.field (.int .char) (.field .string .done)))) 0
          (0#32, 0#8, [33#8], ())) := by
  have hagree : Agree .littleEndian
      (.struct "test" (.field (.int .int32) (.field (.int .char) (.field .string .done))))
      (1#32, 99#8, [33#8], ()) (0#32, 0#8, [33#8], ()) :=
    ⟨nofun, nofun, ⟨rfl, rfl⟩, trivial⟩
  refine ⟨hagree, (readInto_same_iff .littleEndian (fun _ _ => none) _
    (.struct "test" (.field (.int .int32) (.field (.int .char) (.field .string .done)))) _ _ 0
    ⟨[0, 0, 0, 1, 112, 0, 0, 0, 1, 77], ⟨[0, 0, 0, 1], [112, 0, 0, 0, 1, 77], rfl, rfl,
      [112], [0, 0, 0, 1, 77], rfl, rfl, [0, 0, 0, 1, 77], [], rfl,
      ⟨[0, 0, 0, 1], [77], rfl, rfl, [77], [], rfl, rfl, rfl⟩, rfl⟩,
      List.prefix_refl _⟩).mpr hagree⟩

/-- the string `M` read into an empty string and into `!` -/
theorem readInto_appends :
    readInto .littleEndian (fun _ _ => none) [0, 0, 0, 1, 77] .string 0 [] = .ok ([77#8], 5) ∧
    readInto .littleEndian (fun _ _ => none) [0, 0, 0, 1, 77] .string 0 [33#8]
      = .ok ([33#8, 77#8], 5) ∧
    ¬ SameResult (readInto .littleEndian (fun _ _ => none) [0, 0, 0, 1, 77] .string 0 [])
      (readInto .littleEndian (fun _ _ => none) [0, 0, 0, 1, 77] .string 0 [33#8]) := by
  have h1 : readInto .littleEndian (fun _ _ => none) [0, 0, 0, 1, 77] .string 0 []
      = .ok ([77#8], 5) := by rfl
  have h2 : readInto .littleEndian (fun _ _ => none) [0, 0, 0, 1, 77] .string 0 [33#8]
      = .ok ([33#8, 77#8], 5) := by rfl
  refine ⟨h1, h2, ?_⟩
  intro h
  obtain ⟨v, pos, hv1, hv2⟩ := h
  rw [h1] at hv1
  rw [h2] at hv2
  have e1 : [77#8] = v := congrArg Prod.fst (Except.ok.inj hv1)
  have e2 : [33#8, 77#8] = v := congrArg Prod.fst (Except.ok.inj hv2)
  have hlen := congrArg List.length (e1.trans e2.symm)
  cases hlen

end VoltNet
