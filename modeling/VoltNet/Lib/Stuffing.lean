import Mathlib.Data.List.Basic
import Mathlib.Data.List.Infix

/-!
# Escape stuffing over any alphabet

A sender separates payloads on one stream with the pair `esc fin`; a symbol `esc` of a payload
is sent as the pair `esc lit`.  Everything here is for an arbitrary alphabet `α` and arbitrary
codes with `fin ≠ lit`:

* `frame`, `stream`      the sender: one payload, a list of payloads;
* `next`, `run`, `out`   the receiver: one symbol, the state and the messages after a word;
* `scan`                 the left-to-right reading of a word as plain symbols and escape pairs;
* `out_stream`           the receiver returns the payloads of a stream;
* `out_take_stream`      and, on any prefix of it, the payloads whose frames are complete;
* `run_stream_synced`    two frames bring a receiver in any state back into step;
* `restuff`              stuffing what was received gives back the word without its
                         unrecognised pairs;
* `cuts_eq_frame_iff`    every message is cut out of its own frame exactly when no unrecognised
                         pair is followed by a terminator.
-/

namespace Stuffing

/-- the codes of the two recognised pairs `esc lit` and `esc fin` -/
structure Codes (α : Type) where
  esc : α
  lit : α
  fin : α
  fin_ne_lit : fin ≠ lit

/-- receiver: the message so far, and whether the last symbol opened a pair -/
structure St (α : Type) where
  recv : List α
  pending : Bool
deriving DecidableEq

/-- one item of the left-to-right reading of a word -/
inductive Tok (α : Type) where
  | plain (a : α)
  | pair (c : α)
  | dangling
deriving DecidableEq

section
variable {α : Type} [DecidableEq α] (K : Codes α)

/-! ## the sender -/

def stuff (a : α) : List α := if a = K.esc then [K.esc, K.lit] else [a]

def stuffAll (p : List α) : List α := p.flatMap (stuff K)

def frame (p : List α) : List α := stuffAll K p ++ [K.esc, K.fin]

def stream (ps : List (List α)) : List α := ps.flatMap (frame K)

theorem stuff_esc : stuff K K.esc = [K.esc, K.lit] := if_pos rfl

theorem stuff_of_ne (a : α) (h : a ≠ K.esc) : stuff K a = [a] := if_neg h

@[simp] theorem stuffAll_nil : stuffAll K [] = [] := rfl

theorem stuffAll_cons (a : α) (p : List α) : stuffAll K (a :: p) = stuff K a ++ stuffAll K p :=
  List.flatMap_cons

theorem stuffAll_append (p q : List α) : stuffAll K (p ++ q) = stuffAll K p ++ stuffAll K q :=
  List.flatMap_append

theorem stuffAll_concat (p : List α) (a : α) :
    stuffAll K (p ++ [a]) = stuffAll K p ++ stuff K a := by
  rw [stuffAll_append, stuffAll_cons, stuffAll_nil, List.append_nil]

@[simp] theorem stream_nil : stream K [] = [] := rfl

theorem stream_cons (p : List α) (ps : List (List α)) :
    stream K (p :: ps) = frame K p ++ stream K ps := List.flatMap_cons

theorem stream_append (ps qs : List (List α)) :
    stream K (ps ++ qs) = stream K ps ++ stream K qs := List.flatMap_append

/-! ## the receiver -/

/-- one symbol: the next state and the message it completes, if any -/
def next (s : St α) (b : α) : St α × Option (List α) :=
  if s.pending then
    if b = K.lit then (⟨s.recv ++ [K.esc], false⟩, none)
    else if b = K.fin then (⟨[], false⟩, some s.recv)
    else (⟨s.recv, false⟩, none)
  else if b = K.esc then (⟨s.recv, true⟩, none)
  else (⟨s.recv ++ [b], false⟩, none)

/-- state after a word -/
def run (s : St α) : List α → St α
  | [] => s
  | b :: bs => run (next K s b).1 bs

/-- messages completed by a word -/
def out (s : St α) : List α → List (List α)
  | [] => []
  | b :: bs => (next K s b).2.toList ++ out (next K s b).1 bs

theorem next_plain (r : List α) (b : α) (h : b ≠ K.esc) :
    next K ⟨r, false⟩ b = (⟨r ++ [b], false⟩, none) := by
  simp [next, h]

theorem next_esc (r : List α) : next K ⟨r, false⟩ K.esc = (⟨r, true⟩, none) := by
  simp [next]

theorem next_lit (r : List α) : next K ⟨r, true⟩ K.lit = (⟨r ++ [K.esc], false⟩, none) := by
  simp [next]

theorem next_fin (r : List α) : next K ⟨r, true⟩ K.fin = (⟨[], false⟩, some r) := by
  simp [next, K.fin_ne_lit]

theorem next_unrecognised (r : List α) (b : α) (h1 : b ≠ K.lit) (h2 : b ≠ K.fin) :
    next K ⟨r, true⟩ b = (⟨r, false⟩, none) := by
  simp [next, h1, h2]

theorem run_append (s : St α) (u v : List α) : run K s (u ++ v) = run K (run K s u) v := by
  induction u generalizing s with
  | nil => rfl
  | cons b u ih => exact ih _

theorem out_append (s : St α) (u v : List α) :
    out K s (u ++ v) = out K s u ++ out K (run K s u) v := by
  induction u generalizing s with
  | nil => rfl
  | cons b u ih =>
    show (next K s b).2.toList ++ out K (next K s b).1 (u ++ v) = _
    rw [ih, ← List.append_assoc]
    rfl

theorem out_isPrefix (s : St α) (u v : List α) (h : u <+: v) : out K s u <+: out K s v := by
  obtain ⟨w, rfl⟩ := h
  rw [out_append]
  exact List.prefix_append _ _

/-! ## what the receiver makes of the sender's words -/

theorem run_stuff (r : List α) (a : α) : run K ⟨r, false⟩ (stuff K a) = ⟨r ++ [a], false⟩ := by
  by_cases h : a = K.esc
  · rw [h, stuff_esc]
    show (next K (next K ⟨r, false⟩ K.esc).1 K.lit).1 = _
    rw [next_esc, next_lit]
  · rw [stuff_of_ne K a h]
    show (next K ⟨r, false⟩ a).1 = _
    rw [next_plain K r a h]

theorem out_stuff (r : List α) (a : α) : out K ⟨r, false⟩ (stuff K a) = [] := by
  by_cases h : a = K.esc
  · rw [h, stuff_esc]
    simp only [out, next_esc, next_lit, Option.toList_none, List.append_nil]
  · rw [stuff_of_ne K a h]
    simp only [out, next_plain K r a h, Option.toList_none, List.append_nil]

theorem run_stuffAll (r p : List α) : run K ⟨r, false⟩ (stuffAll K p) = ⟨r ++ p, false⟩ := by
  induction p generalizing r with
  | nil => rw [stuffAll_nil, List.append_nil]; rfl
  | cons a p ih => rw [stuffAll_cons, run_append, run_stuff, ih, List.append_assoc]; rfl

theorem out_stuffAll (r p : List α) : out K ⟨r, false⟩ (stuffAll K p) = [] := by
  induction p generalizing r with
  | nil => rfl
  | cons a p ih => rw [stuffAll_cons, out_append, out_stuff, run_stuff, ih]; rfl

theorem run_frame (r p : List α) : run K ⟨r, false⟩ (frame K p) = ⟨[], false⟩ := by
  rw [frame, run_append, run_stuffAll]
  show (next K (next K ⟨r ++ p, false⟩ K.esc).1 K.fin).1 = _
  rw [next_esc, next_fin]

theorem out_frame (r p : List α) : out K ⟨r, false⟩ (frame K p) = [r ++ p] := by
  rw [frame, out_append, out_stuffAll, run_stuffAll]
  simp only [out, next_esc, next_fin, Option.toList_none, Option.toList_some, List.nil_append,
    List.append_nil]

theorem run_stream (ps : List (List α)) : run K ⟨[], false⟩ (stream K ps) = ⟨[], false⟩ := by
  induction ps with
  | nil => rfl
  | cons p ps ih => rw [stream_cons, run_append, run_frame, ih]

/-- **The receiver returns the payloads of a stream.** -/
theorem out_stream (ps : List (List α)) : out K ⟨[], false⟩ (stream K ps) = ps := by
  induction ps with
  | nil => rfl
  | cons p ps ih => rw [stream_cons, out_append, out_frame, run_frame, ih]; rfl

/-- the payloads whose frames lie within the first `n` symbols of the stream -/
def within : List (List α) → Nat → List (List α)
  | [], _ => []
  | p :: ps, n => if (frame K p).length ≤ n then p :: within ps (n - (frame K p).length) else []

theorem within_isPrefix (ps : List (List α)) (n : Nat) : within K ps n <+: ps := by
  induction ps generalizing n with
  | nil => exact List.prefix_rfl
  | cons p ps ih =>
    unfold within
    split
    · exact List.cons_prefix_cons.mpr ⟨rfl, ih _⟩
    · exact List.nil_prefix

/-- a frame that is cut short delivers nothing -/
theorem out_take_frame (p : List α) (n : Nat) (h : n < (frame K p).length) :
    out K ⟨[], false⟩ ((frame K p).take n) = [] := by
  have hsplit : frame K p = (stuffAll K p ++ [K.esc]) ++ [K.fin] := by
    rw [frame, List.append_assoc]; rfl
  have hpre : (frame K p).take n <+: stuffAll K p ++ [K.esc] := by
    rw [hsplit] at h ⊢
    have hle : n ≤ (stuffAll K p ++ [K.esc]).length := by
      simp only [List.length_append, List.length_cons, List.length_nil] at h ⊢
      omega
    rw [List.take_append_of_le_length hle]
    exact List.take_prefix _ _
  have hout : out K ⟨[], false⟩ (stuffAll K p ++ [K.esc]) = [] := by
    rw [out_append, out_stuffAll, run_stuffAll]
    simp only [out, next_esc, Option.toList_none, List.append_nil]
  have h1 := out_isPrefix K ⟨[], false⟩ _ _ hpre
  rw [hout] at h1
  exact List.prefix_nil.mp h1

/-- **On a prefix of a stream the receiver returns the payloads whose frames are complete.** -/
theorem out_take_stream (ps : List (List α)) (n : Nat) :
    out K ⟨[], false⟩ ((stream K ps).take n) = within K ps n := by
  induction ps generalizing n with
  | nil => rw [stream_nil, List.take_nil]; rfl
  | cons p ps ih =>
    rw [stream_cons, within, List.take_append]
    by_cases h : (frame K p).length ≤ n
    · rw [if_pos h, List.take_of_length_le h, out_append, out_frame, run_frame, ih]
      rfl
    · have h0 : n - (frame K p).length = 0 := by omega
      rw [if_neg h, h0, List.take_zero, List.append_nil, out_take_frame K p n (by omega)]

/-! ## resynchronisation -/

/-- after a terminator no pair is open, in whatever state it arrives -/
theorem pending_end (hfin : K.fin ≠ K.esc) (s : St α) :
    (run K s [K.esc, K.fin]).pending = false := by
  obtain ⟨r, pending⟩ := s
  cases pending with
  | false =>
    show (next K (next K ⟨r, false⟩ K.esc).1 K.fin).1.pending = false
    rw [next_esc, next_fin]
  | true =>
    have hclose : (next K ⟨r, true⟩ K.esc).1.pending = false := by
      rw [next, if_pos rfl]
      split_ifs with h1 h2
      · rfl
      · rfl
      · rfl
    show (next K (next K ⟨r, true⟩ K.esc).1 K.fin).1.pending = false
    generalize next K ⟨r, true⟩ K.esc = u at hclose
    obtain ⟨⟨r', pending'⟩, m⟩ := u
    obtain rfl : pending' = false := hclose
    rw [next_plain K r' K.fin hfin]

theorem run_frame_any (hfin : K.fin ≠ K.esc) (s : St α) (p : List α) :
    ∃ r, run K s (frame K p) = ⟨r, false⟩ := by
  have hpending := pending_end K hfin (run K s (stuffAll K p))
  rw [← run_append] at hpending
  exact ⟨(run K s (frame K p)).recv, congrArg (St.mk _) hpending⟩

theorem run_stream_any (hfin : K.fin ≠ K.esc) (s : St α) (p : List α) (ps : List (List α)) :
    ∃ r, run K s (stream K (p :: ps)) = ⟨r, false⟩ := by
  induction ps generalizing s p with
  | nil =>
    rw [stream_cons, stream_nil, List.append_nil]
    exact run_frame_any K hfin s p
  | cons q ps ih =>
    rw [stream_cons, run_append]
    exact ih _ q

/-- **Two frames bring the receiver back into step**, in whatever state the first arrives. -/
theorem run_stream_synced (hfin : K.fin ≠ K.esc) (s : St α) (p q : List α)
    (ps : List (List α)) : run K s (stream K (p :: q :: ps)) = ⟨[], false⟩ := by
  obtain ⟨r, hr⟩ := run_frame_any K hfin s p
  rw [stream_cons, run_append, hr, stream_cons, run_append, run_frame, run_stream]

/-! ## the left-to-right reading of an arbitrary word -/

/-- reading of a word: `esc` takes the next symbol with it -/
def scan : List α → List (Tok α)
  | [] => []
  | [b] => if b = K.esc then [.dangling] else [.plain b]
  | b :: c :: bs => if b = K.esc then .pair c :: scan bs else .plain b :: scan (c :: bs)

/-- the symbols an item stands for -/
def Tok.word : Tok α → List α
  | .plain a => [a]
  | .pair c => [K.esc, c]
  | .dangling => [K.esc]

/-- a pair whose second half is neither code -/
def Tok.unrecognised : Tok α → Bool
  | .pair c => decide (c ≠ K.lit ∧ c ≠ K.fin)
  | _ => false

/-- symbols of a reading -/
def unscan (ts : List (Tok α)) : List α := ts.flatMap (Tok.word K)

/-- the word without its unrecognised pairs -/
def recognised (bs : List α) : List α :=
  unscan K ((scan K bs).filter fun t => !t.unrecognised K)

omit [DecidableEq α] in
theorem unscan_cons (t : Tok α) (ts : List (Tok α)) :
    unscan K (t :: ts) = t.word K ++ unscan K ts := List.flatMap_cons

theorem unscan_scan (bs : List α) : unscan K (scan K bs) = bs := by
  induction bs using scan.induct K with
  | case1 => rfl
  | case2 => simp [scan, unscan, Tok.word]
  | case3 b h => simp [scan, h, unscan, Tok.word]
  | case4 c bs ih => rw [scan, if_pos rfl, unscan_cons, ih]; rfl
  | case5 b c bs h ih => rw [scan, if_neg h, unscan_cons, ih]; rfl

/-- a word without unrecognised pairs is kept whole -/
theorem recognised_eq_self (bs : List α) (h : ∀ t ∈ scan K bs, t.unrecognised K = false) :
    recognised K bs = bs := by
  unfold recognised
  rw [List.filter_eq_self.mpr (fun t ht => by rw [h t ht]; rfl), unscan_scan]

theorem recognised_nil : recognised K [] = [] := rfl

theorem recognised_esc_cons (c : α) (bs : List α) :
    recognised K (K.esc :: c :: bs)
      = (if c ≠ K.lit ∧ c ≠ K.fin then [] else [K.esc, c]) ++ recognised K bs := by
  unfold recognised
  rw [scan, if_pos rfl, List.filter_cons]
  by_cases h : c ≠ K.lit ∧ c ≠ K.fin
  · simp [Tok.unrecognised, h]
  · simp [Tok.unrecognised, h, unscan_cons, Tok.word]

theorem recognised_plain_cons (b : α) (bs : List α) (h : b ≠ K.esc) :
    recognised K (b :: bs) = b :: recognised K bs := by
  unfold recognised
  cases bs with
  | nil => simp [scan, h, Tok.unrecognised, unscan, Tok.word]
  | cons c bs =>
    rw [scan, if_neg h, List.filter_cons]
    simp [Tok.unrecognised, unscan_cons, Tok.word]

/-- the opening half of a pair whose other half has not arrived -/
def St.tail (s : St α) : List α := if s.pending then [K.esc] else []

/-- **Stuffing what was received gives back the word without its unrecognised pairs**, after
what the receiver held before. -/
theorem restuff_from (r bs : List α) :
    stream K (out K ⟨r, false⟩ bs) ++ stuffAll K (run K ⟨r, false⟩ bs).recv
        ++ (run K ⟨r, false⟩ bs).tail K
      = stuffAll K r ++ recognised K bs := by
  induction bs using scan.induct K generalizing r with
  | case1 => simp [out, run, St.tail, recognised_nil]
  | case2 =>
    simp [out, run, next_esc, St.tail, recognised, scan, Tok.unrecognised, unscan, Tok.word]
  | case3 b h =>
    simp only [out, run, next_plain K r b h]
    simp [recognised_plain_cons K b [] h, recognised_nil, stuffAll_concat, stuff_of_ne K b h,
      St.tail]
  | case4 c bs ih =>
    simp only [out, run, next_esc, Option.toList_none, List.nil_append, recognised_esc_cons]
    by_cases h1 : c = K.lit
    · have h2 : ¬ (c ≠ K.lit ∧ c ≠ K.fin) := fun h => h.1 h1
      rw [if_neg h2, h1, next_lit, Option.toList_none, List.nil_append, ih, stuffAll_concat,
        stuff_esc, List.append_assoc]
    · by_cases h2 : c = K.fin
      · have h3 : ¬ (c ≠ K.lit ∧ c ≠ K.fin) := fun h => h.2 h2
        have ih0 := ih []
        rw [stuffAll_nil, List.nil_append] at ih0
        rw [if_neg h3, h2, next_fin, Option.toList_some, stream_append, stream_cons, stream_nil,
          List.append_nil, List.append_assoc, List.append_assoc, ← List.append_assoc (stream K _),
          ih0, frame, List.append_assoc]
      · rw [if_pos ⟨h1, h2⟩, next_unrecognised K r c h1 h2, Option.toList_none, List.nil_append,
          List.nil_append, ih]
  | case5 b c bs h ih =>
    rw [recognised_plain_cons K b (c :: bs) h]
    simp only [out, run, next_plain K r b h, Option.toList_none, List.nil_append] at ih ⊢
    rw [ih (r ++ [b]), stuffAll_concat, stuff_of_ne K b h, List.append_assoc]
    rfl

/-- **Stuffing what a fresh receiver made of a word gives back its recognised part.** -/
theorem restuff (bs : List α) :
    stream K (out K ⟨[], false⟩ bs) ++ stuffAll K (run K ⟨[], false⟩ bs).recv
        ++ (run K ⟨[], false⟩ bs).tail K = recognised K bs := by
  rw [restuff_from, stuffAll_nil, List.nil_append]

/-! ## which messages come out of their own frame -/

/-- the messages of a word, each with the segment of the word it was cut from: everything since
the message before it (`sg`: the symbols of the first segment seen already) -/
def cuts (s : St α) (sg : List α) : List α → List (List α × List α)
  | [] => []
  | b :: bs =>
    match (next K s b).2 with
    | some m => (sg ++ [b], m) :: cuts (next K s b).1 [] bs
    | none => cuts (next K s b).1 (sg ++ [b]) bs

theorem cuts_none (s : St α) (sg : List α) (b : α) (bs : List α) (h : (next K s b).2 = none) :
    cuts K s sg (b :: bs) = cuts K (next K s b).1 (sg ++ [b]) bs := by
  rw [cuts, h]

theorem cuts_some (s : St α) (sg : List α) (b : α) (bs m : List α)
    (h : (next K s b).2 = some m) :
    cuts K s sg (b :: bs) = (sg ++ [b], m) :: cuts K (next K s b).1 [] bs := by
  rw [cuts, h]

/-- one item of the reading at a time -/
theorem cuts_plain (r sg : List α) (b : α) (bs : List α) (h : b ≠ K.esc) :
    cuts K ⟨r, false⟩ sg (b :: bs) = cuts K ⟨r ++ [b], false⟩ (sg ++ [b]) bs := by
  rw [cuts_none _ _ _ _ _ (by rw [next_plain K r b h]), next_plain K r b h]

theorem cuts_lit (r sg bs : List α) :
    cuts K ⟨r, false⟩ sg (K.esc :: K.lit :: bs)
      = cuts K ⟨r ++ [K.esc], false⟩ (sg ++ [K.esc, K.lit]) bs := by
  rw [cuts_none _ _ _ _ _ (by rw [next_esc]), next_esc,
    cuts_none _ _ _ _ _ (by rw [next_lit]), next_lit, List.append_assoc]
  rfl

theorem cuts_fin (r sg bs : List α) :
    cuts K ⟨r, false⟩ sg (K.esc :: K.fin :: bs)
      = (sg ++ [K.esc, K.fin], r) :: cuts K ⟨[], false⟩ [] bs := by
  rw [cuts_none _ _ _ _ _ (by rw [next_esc]), next_esc,
    cuts_some _ _ _ _ _ r (by rw [next_fin]), next_fin, List.append_assoc]
  rfl

theorem cuts_unrecognised (r sg : List α) (c : α) (bs : List α) (h1 : c ≠ K.lit)
    (h2 : c ≠ K.fin) :
    cuts K ⟨r, false⟩ sg (K.esc :: c :: bs) = cuts K ⟨r, false⟩ (sg ++ [K.esc, c]) bs := by
  rw [cuts_none _ _ _ _ _ (by rw [next_esc]), next_esc,
    cuts_none _ _ _ _ _ (by rw [next_unrecognised K r c h1 h2]), next_unrecognised K r c h1 h2,
    List.append_assoc]
  rfl

theorem cuts_snd (s : St α) (sg bs : List α) : (cuts K s sg bs).map Prod.snd = out K s bs := by
  induction bs generalizing s sg with
  | nil => rfl
  | cons b bs ih =>
    rw [out]
    cases h : (next K s b).2 with
    | none => rw [cuts_none K s sg b bs h, ih]; rfl
    | some m => rw [cuts_some K s sg b bs m h, List.map_cons, ih]; rfl

/-- the segments lie one behind the other from the start of the word -/
theorem cuts_fst (s : St α) (sg bs : List α) :
    ((cuts K s sg bs).map Prod.fst).flatten <+: sg ++ bs := by
  induction bs generalizing s sg with
  | nil => exact List.nil_prefix
  | cons b bs ih =>
    have hassoc : sg ++ b :: bs = (sg ++ [b]) ++ bs := by rw [List.append_assoc]; rfl
    cases h : (next K s b).2 with
    | none =>
      rw [cuts_none K s sg b bs h, hassoc]
      exact ih _ _
    | some m =>
      rw [cuts_some K s sg b bs m h, List.map_cons, List.flatten_cons, hassoc]
      exact (List.prefix_append_right_inj _).mpr (ih _ [])

theorem cuts_isPrefix (s : St α) (sg u v : List α) (h : u <+: v) :
    cuts K s sg u <+: cuts K s sg v := by
  induction u generalizing s sg v with
  | nil => exact List.nil_prefix
  | cons b u ih =>
    obtain ⟨w, rfl⟩ := h
    have hu : u <+: u ++ w := List.prefix_append _ _
    show _ <+: cuts K s sg (b :: (u ++ w))
    cases hm : (next K s b).2 with
    | none =>
      rw [cuts_none K s sg b _ hm, cuts_none K s sg b _ hm]
      exact ih _ _ _ hu
    | some m =>
      rw [cuts_some K s sg b _ m hm, cuts_some K s sg b _ m hm]
      exact List.cons_prefix_cons.mpr ⟨rfl, ih _ _ _ hu⟩

/-- every message is the one its segment stuffs -/
def OwnFrames (l : List (List α × List α)) : Prop := ∀ x ∈ l, x.1 = frame K x.2

/-- no unrecognised pair is followed by a terminator -/
def CleanFrames (bs : List α) : Prop :=
  (scan K bs).Pairwise fun t u => t.unrecognised K = true → u ≠ .pair K.fin

instance (bs : List α) : Decidable (CleanFrames K bs) :=
  inferInstanceAs (Decidable (List.Pairwise _ _))

/-- once a segment is longer than the stuffing of its message it stays so up to its terminator -/
theorem ownFrames_dirty (r sg bs : List α) (h : (stuffAll K r).length < sg.length) :
    OwnFrames K (cuts K ⟨r, false⟩ sg bs) ↔ .pair K.fin ∉ scan K bs := by
  induction bs using scan.induct K generalizing r sg with
  | case1 => simp [OwnFrames, cuts, scan]
  | case2 => simp [OwnFrames, cuts, next_esc, scan]
  | case3 b hb => simp [OwnFrames, cuts, next_plain K r b hb, scan, hb]
  | case4 c bs ih =>
    rw [scan, if_pos rfl, List.mem_cons, not_or]
    by_cases h1 : c = K.lit
    · have h3 : Tok.pair K.fin ≠ .pair c := fun e =>
        K.fin_ne_lit (by injection e with e; rw [e, h1])
      rw [h1, cuts_lit, ih _ _ (by rw [stuffAll_concat, stuff_esc]; simpa using h), ← h1]
      exact (and_iff_right h3).symm
    · by_cases h2 : c = K.fin
      · rw [h2, cuts_fin]
        refine ⟨fun ho => ?_, fun hn => absurd rfl hn.1⟩
        have hlen := congrArg List.length (ho _ (List.mem_cons_self ..))
        simp only [frame, List.length_append] at hlen
        omega
      · have h3 : Tok.pair K.fin ≠ .pair c := fun e => h2 (by injection e with e; exact e.symm)
        rw [cuts_unrecognised K r sg c bs h1 h2, ih _ _ (by simp; omega)]
        exact (and_iff_right h3).symm
  | case5 b c bs hb ih =>
    have h3 : Tok.pair K.fin ≠ .plain b := fun e => by cases e
    rw [scan, if_neg hb, List.mem_cons, not_or, cuts_plain K r sg b (c :: bs) hb,
      ih _ _ (by rw [stuffAll_concat, stuff_of_ne K b hb]; simpa using h)]
    exact (and_iff_right h3).symm

theorem ownFrames_clean (r bs : List α) :
    OwnFrames K (cuts K ⟨r, false⟩ (stuffAll K r) bs) ↔ CleanFrames K bs := by
  induction bs using scan.induct K generalizing r with
  | case1 => simp [OwnFrames, cuts, CleanFrames, scan]
  | case2 => simp [OwnFrames, cuts, next_esc, CleanFrames, scan]
  | case3 b hb => simp [OwnFrames, cuts, next_plain K r b hb, CleanFrames, scan, hb]
  | case4 c bs ih =>
    have hsplit : CleanFrames K (K.esc :: c :: bs)
        ↔ ((Tok.pair c).unrecognised K = true → .pair K.fin ∉ scan K bs) ∧ CleanFrames K bs := by
      unfold CleanFrames
      rw [scan, if_pos rfl, List.pairwise_cons]
      refine and_congr_left fun _ => ⟨fun hp hu hm => hp _ hm hu rfl, fun hp u hu hc e => ?_⟩
      exact hp hc (e ▸ hu)
    rw [hsplit]
    by_cases h1 : c = K.lit
    · have h3 : (Tok.pair c).unrecognised K = false := by simp [Tok.unrecognised, h1]
      have hs : stuffAll K r ++ [K.esc, K.lit] = stuffAll K (r ++ [K.esc]) := by
        rw [stuffAll_concat, stuff_esc]
      rw [h3, h1, cuts_lit, hs, ih]
      simp
    · by_cases h2 : c = K.fin
      · have h3 : (Tok.pair c).unrecognised K = false := by simp [Tok.unrecognised, h2]
        have hs := ih []
        rw [stuffAll_nil] at hs
        rw [h3, h2, cuts_fin, ← hs]
        simp [OwnFrames, frame]
      · have h3 : (Tok.pair c).unrecognised K = true := by simp [Tok.unrecognised, h1, h2]
        rw [cuts_unrecognised K r _ c bs h1 h2, ownFrames_dirty K r _ bs (by simp), h3]
        refine ⟨fun hn => ⟨fun _ => hn, ?_⟩, fun hp => hp.1 rfl⟩
        exact List.Pairwise.imp_of_mem (fun _ hu _ _ e => hn (e ▸ hu))
          (List.pairwise_of_forall (R := fun _ _ => True) fun _ _ => trivial)
  | case5 b c bs hb ih =>
    have hsplit : CleanFrames K (b :: c :: bs) ↔ CleanFrames K (c :: bs) := by
      unfold CleanFrames
      rw [scan, if_neg hb, List.pairwise_cons]
      exact and_iff_right fun u _ hu => by cases hu
    rw [hsplit, ← ih (r ++ [b]), cuts_plain K r _ b (c :: bs) hb, stuffAll_concat,
      stuff_of_ne K b hb]

/-- **The messages of a word are cut out of their own frames exactly when no unrecognised pair
is followed by a terminator.** -/
theorem cuts_eq_frame_iff (bs : List α) :
    OwnFrames K (cuts K ⟨[], false⟩ [] bs) ↔ CleanFrames K bs := by
  have h := ownFrames_clean K [] bs
  rwa [stuffAll_nil] at h

end

end Stuffing
