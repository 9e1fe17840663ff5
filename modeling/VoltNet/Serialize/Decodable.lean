import VoltNet.Serialize.RoundTrip

/-!
# What a byte stream determines

Reading back what was written makes the two notations of the program codes without ambiguity: no
frame is the beginning of a different stream of frames, and no value of a type has a network form
that begins the form of another value of that type.  Both sides may be of either byte order.

* `encodeAll_mono`   the payloads of a stream that begins another one begin the other's;
* `wireAll_unique`   a list of types cuts its values off the front of a message in one way only;
* `stream_unique`    two hosts that put the same bytes on a wire for messages of the same types
                     have sent the same values.
-/

namespace VoltNet
open Stuffing

/-! ## frames -/

theorem encodeAll_mono (ps qs : List (List NetWord)) (h : encodeAll ps <+: encodeAll qs) :
    ps <+: qs := by
  rw [encodeAll_eq, encodeAll_eq] at h
  have hout := out_isPrefix codes ⟨[], false⟩ _ _ h
  rwa [out_stream, out_stream] at hout

/-! ## values -/

/-- structs without default member initialisers -/
def plain : Defaults := fun _ _ => none

theorem blank_plain (t : Ty) : Blank plain t (t.init plain) := by
  induction t with
  | int | bool | float | double | done => trivial
  | string => rfl
  | vector t ih => exact ⟨rfl, ih⟩
  | array t n ih =>
    intro x hx
    have hx : x ∈ List.replicate n (t.init plain) := hx
    rw [List.eq_of_mem_replicate hx]
    exact ih
  | struct name fields ih => exact ih
  | field t rest iht ihr => exact ⟨iht, ihr⟩

/-- what every value of a list must satisfy to be read back into fresh instances -/
def Readable (D : Defaults) (vs : List Instance) : Prop :=
  ∀ v ∈ vs, Short v.1 v.2 ∧ Blank D v.1 (v.1.init D)

theorem readMsgs_wireAll (D : Defaults) (msg : Message) (vs : List Instance) (hvs : Readable D vs)
    (pos : Nat) (h : At msg pos (wireAll vs)) :
    readMsgs .littleEndian D msg pos (vs.map (Instance.blank D))
      = .ok (vs, pos + (wireAll vs).length) := by
  induction vs generalizing pos with
  | nil => rfl
  | cons v vs ih =>
    obtain ⟨h1, h2⟩ := (at_append msg pos _ _).mp h
    obtain ⟨hv, hblank⟩ := hvs v List.mem_cons_self
    have hfirst := readInto_wire D msg v.1 v.2 _ hv hblank pos h1
    have hrest := ih (fun u hu => hvs u (List.mem_cons_of_mem v hu)) _ h2
    rw [List.map_cons]
    refine (readMsgs_cons _ _ _ _ _ _ _ _ hfirst hrest).trans ?_
    rw [Nat.add_assoc, ← List.length_append]
    rfl

/-- the types of a list of values -/
def types (vs : List Instance) : List Ty := vs.map Sigma.fst

theorem blank_types (D : Defaults) (vs : List Instance) :
    vs.map (Instance.blank D) = (types vs).map fun t => ⟨t, t.init D⟩ := by
  rw [types, List.map_map]
  rfl

/-- a list of types cuts its values off the front of a message in one way only -/
theorem wireAll_unique (vs us : List Instance) (htypes : types vs = types us)
    (hvs : ∀ v ∈ vs, Short v.1 v.2) (hus : ∀ u ∈ us, Short u.1 u.2) (x y : List NetWord)
    (h : wireAll vs ++ x = wireAll us ++ y) : vs = us ∧ x = y := by
  have hv := readMsgs_wireAll plain (wireAll vs ++ x) vs
    (fun v hv => ⟨hvs v hv, blank_plain v.1⟩) 0 (List.prefix_append _ _)
  have hu := readMsgs_wireAll plain (wireAll us ++ y) us
    (fun u hu => ⟨hus u hu, blank_plain u.1⟩) 0 (List.prefix_append _ _)
  have hblank : vs.map (Instance.blank plain) = us.map (Instance.blank plain) := by
    rw [blank_types, blank_types, htypes]
  rw [h, hblank, hu] at hv
  have hboth := Prod.mk.inj (Except.ok.inj hv)
  refine ⟨hboth.1.symm, ?_⟩
  rw [hboth.1] at h
  exact List.append_cancel_left h

/-! ## conversations -/

/-- the bytes of one message for each list of values -/
def conversation (host : Host) (behind : Message → List.Vector NetWord 4)
    (vss : List (List Instance)) : List NetWord :=
  vss.flatMap fun vs => endMsg (writeMsgs host behind vs [])

/-- values that go out as their network form, with counts that fit -/
def Sendable (vs : List Instance) : Prop := ∀ v ∈ vs, v.1.FloatFree ∧ Short v.1 v.2

theorem conversation_eq (host : Host) (behind : Message → List.Vector NetWord 4)
    (vss : List (List Instance)) (h : ∀ vs ∈ vss, Sendable vs) :
    conversation host behind vss = encodeAll (vss.map wireAll) := by
  rw [encodeAll, List.flatMap_map]
  exact List.flatMap_congr fun vs hvs =>
    endMsg_writeMsgs host behind vs fun v hv => (h vs hvs v hv).1

theorem map_wireAll_mono (vss uss : List (List Instance)) (hvs : ∀ vs ∈ vss, Sendable vs)
    (hus : ∀ us ∈ uss, Sendable us)
    (htypes : ∀ (i : Nat) (vs us : List Instance), vss[i]? = some vs → uss[i]? = some us →
      types vs = types us)
    (h : vss.map wireAll <+: uss.map wireAll) : vss <+: uss := by
  induction vss generalizing uss with
  | nil => exact List.nil_prefix
  | cons vs vss ih =>
    cases uss with
    | nil => exact absurd (List.prefix_nil.mp h) (by simp)
    | cons us uss =>
      rw [List.map_cons, List.map_cons, List.cons_prefix_cons] at h
      obtain ⟨hhead, htail⟩ := h
      have hsame := wireAll_unique vs us (htypes 0 vs us rfl rfl)
        (fun v hv => (hvs vs List.mem_cons_self v hv).2)
        (fun u hu => (hus us List.mem_cons_self u hu).2) [] [] (by rw [hhead])
      have hrest := ih uss (fun x hx => hvs x (List.mem_cons_of_mem vs hx))
        (fun x hx => hus x (List.mem_cons_of_mem us hx))
        (fun i x y hx hy => htypes (i + 1) x y hx hy) htail
      rw [hsame.1]
      exact List.cons_prefix_cons.mpr ⟨rfl, hrest⟩

/-- **The bytes of a conversation determine its values.**  If the messages of one host, of either
byte order, start the byte stream of another one, and both write the same types into their messages
one by one, then the values of the first start those of the second: no boundary of a message or of
a value can be mistaken. -/
theorem stream_unique (host host' : Host) (behind behind' : Message → List.Vector NetWord 4)
    (vss uss : List (List Instance)) (hvs : ∀ vs ∈ vss, Sendable vs)
    (hus : ∀ us ∈ uss, Sendable us)
    (htypes : ∀ (i : Nat) (vs us : List Instance), vss[i]? = some vs → uss[i]? = some us →
      types vs = types us)
    (h : conversation host behind vss <+: conversation host' behind' uss) : vss <+: uss := by
  rw [conversation_eq host behind vss hvs, conversation_eq host' behind' uss hus] at h
  exact map_wireAll_mono vss uss hvs hus htypes (encodeAll_mono _ _ h)

/-- one message of a big-endian host, and the first of two of a little-endian one -/
theorem stream_unique_two :
    ([[⟨.int .uint16, 511#16⟩, ⟨.vector .bool, [true]⟩]] : List (List Instance))
      <+: [[⟨.int .uint16, 511#16⟩, ⟨.vector .bool, [true]⟩], [⟨.string, [97#8]⟩]] := by
  have hnum : Sendable [⟨.int .uint16, 511#16⟩, ⟨.vector .bool, [true]⟩] := by
    have hvec : ShortList (Short .bool) [true] := ⟨by decide, fun _ _ => trivial⟩
    simp only [Sendable, List.forall_mem_cons, Ty.FloatFree, Short]
    exact ⟨⟨trivial, trivial⟩, ⟨trivial, hvec⟩, fun _ h => by cases h⟩
  have htext : Sendable [⟨.string, [97#8]⟩] := by
    simp only [Sendable, List.forall_mem_cons, Ty.FloatFree, Short]
    exact ⟨⟨trivial, by decide⟩, fun _ h => by cases h⟩
  refine stream_unique .bigEndian .littleEndian (fun _ => List.Vector.replicate 4 0)
    (fun _ => List.Vector.replicate 4 1) _ _ (fun vs hvs => ?_) (fun us hus => ?_)
    (fun i vs us hi hj => ?_) (by decide)
  · rw [List.mem_singleton.mp hvs]
    exact hnum
  · rcases List.mem_pair.mp hus with rfl | rfl
    · exact hnum
    · exact htext
  · cases i with
    | zero => rw [← Option.some.inj hi, ← Option.some.inj hj]
    | succ i => cases hi

end VoltNet
