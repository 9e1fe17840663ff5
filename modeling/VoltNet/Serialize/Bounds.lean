import VoltNet.Serialize.Read

/-!
# Reads and the end of the message

No function of the reading side compares its position with `msg->end()`, so whether a read stays
inside is a matter of what the message holds.

* `Ty.Words`               the words that a read at a type expects: fixed widths, and a count
                           that tells how many elements follow it;
* `readInto_fits`          where such a word stands the read takes exactly that word;
* `readInto_spans`         and where none stands it leaves the message;
* `readMsgs_inside_iff`    the same for a sequence of `read_msg` calls on a whole message.
-/

namespace VoltNet
open Positional Fallible

/-! ## the words of a type -/

/-- `n` words one after the other -/
def Repeated (P : List NetWord → Prop) : Nat → List NetWord → Prop
  | 0, w => w = []
  | n + 1, w => ∃ u v, w = u ++ v ∧ P u ∧ Repeated P n v

/-- a 32-bit count, then so many words -/
def Counted (P : List NetWord → Prop) (w : List NetWord) : Prop :=
  ∃ c v, w = c ++ v ∧ c.length = 4 ∧ Repeated P (ofNetBytes c) v

def Ty.Words : Ty → List NetWord → Prop
  | .int k, w => w.length = k.size
  | .bool, w => w.length = 1
  | .float, w => w.length = 4
  | .double, w => w.length = 8
  | .string, w => Counted (fun c => c.length = 1) w
  | .vector t, w => Counted t.Words w
  | .array t n, w => Repeated t.Words n w
  | .struct _ fields, w => fields.Words w
  | .done, w => w = []
  | .field t rest, w => ∃ u v, w = u ++ v ∧ t.Words u ∧ rest.Words v

/-- words of the types of a sequence of calls -/
def WordsAll : List Ty → List NetWord → Prop
  | [], w => w = []
  | t :: ts, w => ∃ u v, w = u ++ v ∧ t.Words u ∧ WordsAll ts v

/-- a read that uses no local variable: those that do are undefined on a big-endian host, where
nothing is stored in the variable -/
def Ty.Direct : Ty → Prop
  | .bool | .string | .vector _ => False
  | .array t n => n = 0 ∨ t.Direct
  | .struct _ fields => fields.Direct
  | .field t rest => t.Direct ∧ rest.Direct
  | .int _ | .float | .double | .done => True

def Defined (host : Host) (t : Ty) : Prop := host = .bigEndian → t.Direct

theorem defined_little (t : Ty) : Defined .littleEndian t := by
  intro h
  cases h

/-! ## what a read does with the message -/

/-- the result of a read at `pos`: it took one of the words `P`, or it left the message -/
def Spans {α : Type} (msg : Message) (P : List NetWord → Prop) (pos : Nat) :
    Except ReadFault (α × Nat) → Prop
  | .ok r => ∃ w, P w ∧ At msg pos w ∧ r.2 = pos + w.length
  | .error f => f.leaves = true

/-- where one of the words `P` stands, the read takes it -/
def Fits {α : Type} (msg : Message) (P : List NetWord → Prop)
    (read : Nat → Except ReadFault (α × Nat)) : Prop :=
  ∀ pos w, P w → At msg pos w → ∃ v, read pos = .ok (v, pos + w.length)

section
variable {α β : Type} {msg : Message} {P Q R : List NetWord → Prop}

theorem Spans.bind {pos : Nat} {x : Except ReadFault (α × Nat)}
    {f : α × Nat → Except ReadFault (β × Nat)} (hx : Spans msg P pos x)
    (hf : ∀ r, Spans msg Q r.2 (f r)) (hR : ∀ u v, P u → Q v → R (u ++ v)) :
    Spans msg R pos (x >>= f) := by
  cases x with
  | error e => exact hx
  | ok r =>
    obtain ⟨u, hu, hat, hpos⟩ := hx
    show Spans msg R pos (f r)
    have hr := hf r
    cases hfr : f r with
    | error e =>
      rw [hfr] at hr
      exact hr
    | ok s =>
      rw [hfr] at hr
      obtain ⟨v, hv, hat', hpos'⟩ := hr
      rw [hpos] at hat' hpos'
      refine ⟨u ++ v, hR u v hu hv, (at_append msg pos u v).mpr ⟨hat, hat'⟩, ?_⟩
      rw [hpos', List.length_append, Nat.add_assoc]

theorem Spans.map {pos : Nat} {x : Except ReadFault (α × Nat)} (hx : Spans msg P pos x)
    (g : α → β) : Spans msg P pos (x >>= fun r => pure (g r.1, r.2)) := by
  cases x with
  | error e => exact hx
  | ok r => exact hx

theorem Fits.bind {read : Nat → Except ReadFault (α × Nat)}
    {f : α → Nat → Except ReadFault (β × Nat)} (hx : Fits msg P read)
    (hf : ∀ a, Fits msg Q (f a)) :
    Fits msg (fun w => ∃ u v, w = u ++ v ∧ P u ∧ Q v)
      (fun pos => read pos >>= fun r => f r.1 r.2) := by
  intro pos w hw hat
  obtain ⟨u, v, rfl, hu, hv⟩ := hw
  obtain ⟨hat1, hat2⟩ := (at_append msg pos u v).mp hat
  obtain ⟨a, ha⟩ := hx pos u hu hat1
  obtain ⟨b, hb⟩ := hf a (pos + u.length) v hv hat2
  refine ⟨b, ?_⟩
  show (read pos >>= fun r => f r.1 r.2) = _
  rw [ok_bind _ _ _ ha, hb, List.length_append, Nat.add_assoc]

theorem Fits.map {read : Nat → Except ReadFault (α × Nat)} (hx : Fits msg P read) (g : α → β) :
    Fits msg P (fun pos => read pos >>= fun r => pure (g r.1, r.2)) := by
  intro pos w hw hat
  obtain ⟨a, ha⟩ := hx pos w hw hat
  exact ⟨g a, ok_bind _ _ _ ha⟩

/-! ## leaves -/

theorem readInt_fits (host : Host) (n : Nat) (hn : 0 < n) (inst : BitVec (8 * n)) :
    Fits msg (fun w => w.length = n) (readInt host msg n · inst) := by
  intro pos w hw hat
  subst hw
  cases host with
  | littleEndian => exact ⟨_, readScalar_little msg pos w hat hn _ (length_stored _ _ _)⟩
  | bigEndian => exact ⟨inst, readScalar_big msg pos _ (hat.length_le hn) inst⟩

/-- a read that takes any `n` bytes, and leaves the message where there are fewer -/
theorem Fits.spans {read : Nat → Except ReadFault (α × Nat)} {n : Nat}
    (hfits : Fits msg (fun w => w.length = n) read) (pos : Nat)
    (hshort : msg.length < pos + n → ∃ f, f.leaves = true ∧ read pos = .error f) :
    Spans msg (fun w => w.length = n) pos (read pos) := by
  by_cases h : pos + n ≤ msg.length
  · have hlen := length_take_drop msg pos n h
    obtain ⟨v, hv⟩ := hfits pos _ hlen (at_take msg pos n)
    rw [hv]
    exact ⟨_, hlen, at_take msg pos n, rfl⟩
  · obtain ⟨f, hf, he⟩ := hshort (Nat.lt_of_not_le h)
    rw [he]
    exact hf

theorem readInt_spans (host : Host) (n : Nat) (hn : 0 < n) (inst : BitVec (8 * n)) (pos : Nat) :
    Spans msg (fun w => w.length = n) pos (readInt host msg n pos inst) := by
  apply (readInt_fits host n hn inst).spans
  intro h
  exact readScalar_short host msg pos n h hn (stored host n inst.toNat)

theorem readBool_fits : Fits msg (fun w => w.length = 1) (readBool .littleEndian msg) := by
  intro pos w hw hat
  have h1 := readScalar_little msg pos w hat (by rw [hw]; exact Nat.one_pos) (unwritten w.length)
    (length_unwritten _)
  rw [hw] at h1 ⊢
  exact ⟨_, ok_bind _ _ _ h1⟩

theorem readBool_spans (pos : Nat) :
    Spans msg (fun w => w.length = 1) pos (readBool .littleEndian msg pos) := by
  apply readBool_fits.spans
  intro h
  obtain ⟨f, hf, he⟩ := readScalar_short .littleEndian msg pos 1 h Nat.one_pos (unwritten 1)
  exact ⟨f, hf, error_bind _ _ _ he⟩

/-! ## containers -/

/-- the count that `read_into_array` reads -/
theorem readCount_little (pos : Nat) (c : List NetWord) (hc : c.length = 4) (hat : At msg pos c) :
    ∃ n : BitVec (8 * 4), n.toNat = ofNetBytes c ∧
      readScalar .littleEndian msg pos 4 (unwritten 4) = .ok (n, pos + 4) := by
  have h1 := readScalar_little msg pos c hat (by omega) (unwritten c.length) (length_unwritten _)
  rw [hc] at h1
  refine ⟨_, ?_, h1⟩
  have hlt : ofNetBytes c < 256 ^ 4 := by
    have h2 := value_lt byteDigit c.reverse
    rwa [List.length_reverse, hc] at h2
  exact Nat.mod_eq_of_lt hlt

variable {readElem : Nat → α → Except ReadFault (α × Nat)}

theorem readElems_fits (val : α) (hread : Fits msg P (readElem · val)) (n : Nat)
    (array : List α) :
    Fits msg (Repeated P n) (readElems readElem val n · array) := by
  induction n generalizing array with
  | zero =>
    intro pos w hw _
    obtain rfl : w = [] := hw
    exact ⟨array, rfl⟩
  | succ n ih => exact hread.bind fun a => ih (array ++ [a])

theorem readElems_spans (val : α) (hread : ∀ pos, Spans msg P pos (readElem pos val)) (n pos : Nat)
    (array : List α) : Spans msg (Repeated P n) pos (readElems readElem val n pos array) := by
  induction n generalizing pos array with
  | zero => exact ⟨[], rfl, at_nil msg pos, rfl⟩
  | succ n ih =>
    exact (hread pos).bind (fun r => ih r.2 (array ++ [r.1])) fun u v hu hv => ⟨u, v, rfl, hu, hv⟩

theorem readIntoArray_fits (val : α) (hread : Fits msg P (readElem · val)) (array : List α) :
    Fits msg (Counted P) (readIntoArray .littleEndian msg readElem val · array) := by
  intro pos w hw hat
  obtain ⟨c, v, rfl, hc, hv⟩ := hw
  obtain ⟨hat1, hat2⟩ := (at_append msg pos c v).mp hat
  obtain ⟨n, hn, hcount⟩ := readCount_little pos c hc hat1
  rw [← hn] at hv
  rw [hc] at hat2
  obtain ⟨l, hl⟩ := readElems_fits val hread n.toNat array (pos + 4) v hv hat2
  refine ⟨l, ?_⟩
  rw [List.length_append, hc, ← Nat.add_assoc, ← hl]
  exact ok_bind _ _ _ hcount

theorem readIntoArray_spans (val : α) (hread : ∀ pos, Spans msg P pos (readElem pos val))
    (pos : Nat) (array : List α) :
    Spans msg (Counted P) pos (readIntoArray .littleEndian msg readElem val pos array) := by
  by_cases h : pos + 4 ≤ msg.length
  · have hc := length_take_drop msg pos 4 h
    obtain ⟨n, hn, hcount⟩ := readCount_little pos _ hc (at_take msg pos 4)
    have hrest := readElems_spans val hread n.toNat (pos + 4) array
    rw [readIntoArray, ok_bind _ _ _ hcount]
    cases hr : readElems readElem val n.toNat (pos + 4) array with
    | error f =>
      simp only [hr] at hrest ⊢
      exact hrest
    | ok r =>
      simp only [hr] at hrest ⊢
      obtain ⟨v, hv, hat, hpos⟩ := hrest
      rw [hn] at hv
      refine ⟨_ ++ v, ⟨_, v, rfl, hc, hv⟩, (at_append msg pos _ v).mpr ⟨at_take msg pos 4, ?_⟩, ?_⟩
      · rw [hc]; exact hat
      · rw [hpos, List.length_append, hc, Nat.add_assoc]
  · obtain ⟨f, hf, he⟩ := readScalar_short .littleEndian msg pos 4 (Nat.lt_of_not_le h)
      (by decide) (unwritten 4)
    rw [readIntoArray, error_bind _ _ _ he]
    exact hf

theorem readEach_fits (hread : ∀ inst, Fits msg P (readElem · inst)) (n : Nat)
    (inst : List.Vector α n) : Fits msg (Repeated P n) (readEach readElem n · inst) := by
  induction n with
  | zero =>
    intro pos w hw _
    obtain rfl : w = [] := hw
    exact ⟨inst, rfl⟩
  | succ n ih => exact (hread inst.head).bind fun a => (ih inst.tail).map (List.Vector.cons a)

theorem readEach_spans (hread : ∀ pos inst, Spans msg P pos (readElem pos inst)) (n pos : Nat)
    (inst : List.Vector α n) : Spans msg (Repeated P n) pos (readEach readElem n pos inst) := by
  induction n generalizing pos with
  | zero => exact ⟨[], rfl, at_nil msg pos, rfl⟩
  | succ n ih =>
    exact (hread pos inst.head).bind
      (fun r => (ih r.2 inst.tail).map (List.Vector.cons r.1)) fun u v hu hv => ⟨u, v, rfl, hu, hv⟩

end

/-! ## types -/

theorem readString_fits (msg : Message) (inst : List (BitVec (8 * 1))) :
    Fits msg (Counted fun c => c.length = 1) (readString .littleEndian msg · inst) :=
  (readIntoArray_fits 0 (readInt_fits .littleEndian 1 Nat.one_pos 0) []).map (inst ++ ·)

theorem readString_spans (msg : Message) (pos : Nat) (inst : List (BitVec (8 * 1))) :
    Spans msg (Counted fun c => c.length = 1) pos (readString .littleEndian msg pos inst) :=
  (readIntoArray_spans 0 (readInt_spans .littleEndian 1 Nat.one_pos 0) pos []).map (inst ++ ·)

theorem Defined.little {host : Host} {t : Ty} (h : Defined host t) (ht : ¬ t.Direct) :
    host = .littleEndian := by
  cases host with
  | littleEndian => rfl
  | bigEndian => exact absurd (h rfl) ht

/-- **Where a word of the type stands, a read takes exactly that word**, whatever the
destination holds. -/
theorem readInto_fits (host : Host) (D : Defaults) (msg : Message) (t : Ty)
    (ht : Defined host t) (inst : t.Val) : Fits msg t.Words (readInto host D msg t · inst) := by
  induction t with
  | int k => exact readInt_fits host k.size k.size_pos inst
  | float => exact readInt_fits host 4 (by decide) inst
  | double => exact readInt_fits host 8 (by decide) inst
  | bool =>
    obtain rfl := ht.little id
    exact readBool_fits
  | string =>
    obtain rfl := ht.little id
    exact readString_fits msg inst
  | vector t ih =>
    obtain rfl := ht.little id
    exact readIntoArray_fits (t.init D) (ih (defined_little t) (t.init D)) inst
  | array t n ih =>
    cases n with
    | zero =>
      intro pos w hw _
      obtain rfl : w = [] := hw
      exact ⟨inst, rfl⟩
    | succ n => exact readEach_fits (ih fun h => (ht h).resolve_left (Nat.succ_ne_zero n)) _ inst
  | struct name fields ih => exact ih ht inst
  | done =>
    intro pos w hw _
    obtain rfl : w = [] := hw
    exact ⟨(), rfl⟩
  | field t rest iht ihr =>
    exact (iht (fun h => (ht h).1) inst.1).bind fun a =>
      (ihr (fun h => (ht h).2) inst.2).map fun b => (a, b)

/-- **A read takes a word of its type or leaves the message.** -/
theorem readInto_spans (host : Host) (D : Defaults) (msg : Message) (t : Ty)
    (ht : Defined host t) (pos : Nat) (inst : t.Val) :
    Spans msg t.Words pos (readInto host D msg t pos inst) := by
  induction t generalizing pos with
  | int k => exact readInt_spans host k.size k.size_pos inst pos
  | float => exact readInt_spans host 4 (by decide) inst pos
  | double => exact readInt_spans host 8 (by decide) inst pos
  | bool =>
    obtain rfl := ht.little id
    exact readBool_spans pos
  | string =>
    obtain rfl := ht.little id
    exact readString_spans msg pos inst
  | vector t ih =>
    obtain rfl := ht.little id
    exact readIntoArray_spans (t.init D) (fun pos => ih (defined_little t) pos (t.init D)) pos
      inst
  | array t n ih =>
    cases n with
    | zero => exact ⟨[], rfl, at_nil msg pos, rfl⟩
    | succ n =>
      exact readEach_spans (ih fun h => (ht h).resolve_left (Nat.succ_ne_zero n)) _ pos inst
  | struct name fields ih => exact ih ht pos inst
  | done => exact ⟨[], rfl, at_nil msg pos, rfl⟩
  | field t rest iht ihr =>
    exact (iht (fun h => (ht h).1) pos inst.1).bind
      (fun r => (ihr (fun h => (ht h).2) r.2 inst.2).map fun b => (r.1, b))
      fun u v hu hv => ⟨u, v, rfl, hu, hv⟩

theorem readMsgs_fits (host : Host) (D : Defaults) (msg : Message) (insts : List Instance)
    (hs : ∀ i ∈ insts, Defined host i.1) :
    Fits msg (WordsAll (insts.map Sigma.fst)) (readMsgs host D msg · insts) := by
  induction insts with
  | nil =>
    intro pos w hw _
    obtain rfl : w = [] := hw
    exact ⟨[], rfl⟩
  | cons i insts ih =>
    have hfirst := readInto_fits host D msg i.1 (hs i List.mem_cons_self) i.2
    have hrest := ih fun j hj => hs j (List.mem_cons_of_mem i hj)
    exact hfirst.bind fun a => hrest.map fun vs => ⟨i.1, a⟩ :: vs

theorem readMsgs_spans (host : Host) (D : Defaults) (msg : Message) (insts : List Instance)
    (hs : ∀ i ∈ insts, Defined host i.1) (pos : Nat) :
    Spans msg (WordsAll (insts.map Sigma.fst)) pos (readMsgs host D msg pos insts) := by
  induction insts generalizing pos with
  | nil => exact ⟨[], rfl, at_nil msg pos, rfl⟩
  | cons i insts ih =>
    have hfirst := readInto_spans host D msg i.1 (hs i List.mem_cons_self) pos i.2
    have hrest := ih fun j hj => hs j (List.mem_cons_of_mem i hj)
    exact hfirst.bind (fun r => (hrest r.2).map fun vs => ⟨i.1, r.1⟩ :: vs)
      fun u v hu hv => ⟨u, v, rfl, hu, hv⟩

/-- no access at or beyond the end, and the iterator never passes it -/
def Inside {α : Type} (r : Except ReadFault (α × Nat)) : Prop :=
  ∀ f, r = .error f → f.leaves = false

/-- **Reading stays inside a message exactly when the message begins with words of the types
read**; it then stops behind them. -/
theorem readMsgs_inside_iff (host : Host) (D : Defaults) (msg : Message) (insts : List Instance)
    (hs : ∀ i ∈ insts, Defined host i.1) :
    (Inside (readMsgs host D msg 0 insts) ↔
      ∃ w, WordsAll (insts.map Sigma.fst) w ∧ w <+: msg) ∧
    ∀ w, WordsAll (insts.map Sigma.fst) w → w <+: msg →
      w.length ≤ msg.length ∧ ∃ vs, readMsgs host D msg 0 insts = .ok (vs, w.length) := by
  have hfits : ∀ w, WordsAll (insts.map Sigma.fst) w → w <+: msg →
      w.length ≤ msg.length ∧ ∃ vs, readMsgs host D msg 0 insts = .ok (vs, w.length) := by
    intro w hw hpre
    obtain ⟨vs, hvs⟩ := readMsgs_fits host D msg insts hs 0 w hw hpre
    rw [Nat.zero_add] at hvs
    exact ⟨List.IsPrefix.length_le hpre, vs, hvs⟩
  refine ⟨⟨fun hin => ?_, fun ⟨w, hw, hpre⟩ => ?_⟩, hfits⟩
  · have hspans := readMsgs_spans host D msg insts hs 0
    cases hr : readMsgs host D msg 0 insts with
    | error f =>
      rw [hr] at hspans
      have hleaves := hspans.symm.trans (hin f hr)
      cases hleaves
    | ok r =>
      rw [hr] at hspans
      obtain ⟨w, hw, hat, -⟩ := hspans
      exact ⟨w, hw, hat⟩
  · obtain ⟨-, vs, hvs⟩ := hfits w hw hpre
    intro f hf
    rw [hvs] at hf
    cases hf

/-- a number and a string, with one word of the message behind them -/
theorem readMsgs_inside_iff_pair :
    WordsAll [.int .uint16, .string] [0, 7, 0, 0, 0, 1, 97] ∧
      Inside (readMsgs .littleEndian (fun _ _ => none) [0, 7, 0, 0, 0, 1, 97, 9] 0
        [⟨.int .uint16, 0#16⟩, ⟨.string, []⟩]) ∧
      ∃ vs, readMsgs .littleEndian (fun _ _ => none) [0, 7, 0, 0, 0, 1, 97, 9] 0
        [⟨.int .uint16, 0#16⟩, ⟨.string, []⟩] = .ok (vs, 7) := by
  have hwords : WordsAll [.int .uint16, .string] [0, 7, 0, 0, 0, 1, 97] :=
    ⟨[0, 7], [0, 0, 0, 1, 97], rfl, rfl, [0, 0, 0, 1, 97], [], rfl,
      ⟨[0, 0, 0, 1], [97], rfl, rfl, [97], [], rfl, rfl, rfl⟩, rfl⟩
  have hpre : ([0, 7, 0, 0, 0, 1, 97] : Message) <+: [0, 7, 0, 0, 0, 1, 97, 9] := by decide
  obtain ⟨hiff, hfits⟩ := readMsgs_inside_iff .littleEndian (fun _ _ => none)
    [0, 7, 0, 0, 0, 1, 97, 9] [⟨.int .uint16, 0#16⟩, ⟨.string, []⟩] fun i _ => defined_little i.1
  exact ⟨hwords, hiff.mpr ⟨_, hwords, hpre⟩, (hfits _ hwords hpre).2⟩

/-- a string whose count promises five characters in a message that holds one -/
theorem readMsgs_hostile_count :
    ¬ Inside (readMsgs .littleEndian (fun _ _ => none) [0, 0, 0, 5, 97] 0 [⟨.string, []⟩]) := by
  have h : readMsgs .littleEndian (fun _ _ => none) [0, 0, 0, 5, 97] 0 [⟨.string, []⟩]
      = .error (.pastEnd 5) := by rfl
  intro hin
  have hleaves := hin _ h
  cases hleaves

end VoltNet
