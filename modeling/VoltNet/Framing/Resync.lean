import VoltNet.Framing.Streams

/-!
# Frames behind garbage

A dangling escape at the end of garbage takes the first byte of the next frame with it, and may
shift the pairs of that frame.  The damage ends with the second frame.

* `loopStates`, `feedStates`   every state in which the decoding loop tests its condition, also
                               in the middle of a chunk;
* `feedStates_took`            each of them has decoded the bytes taken so far;
* `feedStates_passed`          the loop passes through every prefix of the stream;
* `feed_resync`                what the frames behind arbitrary bytes deliver.
-/

namespace VoltNet
open Stuffing

/-! ## states on the way -/

/-- the states in which `decodeLoop` tests its condition -/
def ConState.loopStates (cb : NewMsgCallback) : Nat → ConState → List ConState
  | 0, s => [s]
  | fuel + 1, s =>
    s :: match s.con.turn with
      | .ok (c, some (b, m)) => loopStates cb fuel (ConState.afterByte cb b m ⟨c, s.trace⟩)
      | _ => []

/-- the same for successive reads that complete without error -/
def ConState.feedStates (cb : NewMsgCallback) : ConState → List (List NetWord) → List ConState
  | _, [] => []
  | s, chunk :: chunks =>
    ConState.loopStates cb (chunk.length + 1) (s.loaded chunk) ++
      match ConState.readCompletion cb chunk s with
      | .error _ => []
      | .ok s => feedStates cb s chunks

theorem mem_loopStates_self (cb : NewMsgCallback) (fuel : Nat) (s : ConState) :
    s ∈ ConState.loopStates cb fuel s := by
  cases fuel with
  | zero => exact List.mem_singleton_self s
  | succ fuel => exact List.mem_cons_self

theorem took_refl (s : ConState) : Took s [] s := Took.of_quiet rfl rfl rfl rfl id

theorem loopStates_took (cb : NewMsgCallback) (fuel : Nat) (s t : ConState)
    (hlen : s.con.msgSize ≤ s.con.buff.length) (ht : t ∈ ConState.loopStates cb fuel s) :
    ∃ w, Took s w t := by
  induction fuel generalizing s with
  | zero =>
    rw [List.mem_singleton.mp ht]
    exact ⟨[], took_refl s⟩
  | succ fuel ih =>
    rw [ConState.loopStates] at ht
    rcases List.mem_cons.mp ht with ht | ht
    · rw [ht]
      exact ⟨[], took_refl s⟩
    · cases ho : s.con.conOpen with
      | false =>
        rw [turn_closed s.con ho] at ht
        cases ht
      | true =>
        cases hr : s.con.rest with
        | nil =>
          rw [turn_nil s.con ho hlen hr] at ht
          cases ht
        | cons b bs =>
          obtain ⟨c, hturn, hd, -, -, hi, hb, hms⟩ := turn_cons s.con b bs ho hr
          obtain ⟨htook, -, hms'⟩ := afterByte_took cb s c b hd hi hb ho
          rw [hturn] at ht
          obtain ⟨w, hw⟩ := ih _ (by rw [hms', hms, htook.buff]; exact hlen) ht
          exact ⟨b :: w, htook.trans hw⟩

/-- the loop passes through every prefix of what it takes -/
theorem loopStates_passed (cb : NewMsgCallback) (fuel : Nat) (s r : ConState)
    (hlen : s.con.msgSize ≤ s.con.buff.length) (h : ConState.decodeLoop cb fuel s = .ok r)
    (hopen : r.con.conOpen = true) (w : List NetWord) (hw : w <+: s.con.rest) :
    ∃ t ∈ ConState.loopStates cb fuel s, Took s w t := by
  induction fuel generalizing s w with
  | zero => cases h
  | succ fuel ih =>
    cases w with
    | nil => exact ⟨s, mem_loopStates_self cb (fuel + 1) s, took_refl s⟩
    | cons b w =>
      obtain ⟨v, hv⟩ := hw
      have ho : s.con.conOpen = true := by
        by_contra hclosed
        rw [ConState.decodeLoop, turn_closed s.con (Bool.eq_false_iff.mpr hclosed)] at h
        rw [← Except.ok.inj h] at hopen
        exact hclosed hopen
      obtain ⟨c, hturn, hd, hrest, -, hi, hb, hms⟩ := turn_cons s.con b (w ++ v) ho hv.symm
      obtain ⟨htook, hrest', hms'⟩ := afterByte_took cb s c b hd hi hb ho
      rw [decodeLoop_succ cb fuel s c b _ hturn] at h
      have hpre : w <+: w ++ v := List.prefix_append w v
      rw [← hrest, ← hrest'] at hpre
      obtain ⟨t, ht, hwt⟩ := ih _ (by rw [hms', hms, htook.buff]; exact hlen) h w hpre
      refine ⟨t, ?_, htook.trans hwt⟩
      rw [ConState.loopStates, hturn]
      exact List.mem_cons_of_mem s ht

/-! ## whole streams -/

theorem feedStates_took (cb : NewMsgCallback) (chunks : List (List NetWord)) (s t : ConState)
    (hs : Ready s) (hlen : ∀ chunk ∈ chunks, chunk.length ≤ buffCapacity)
    (ht : t ∈ ConState.feedStates cb s chunks) : ∃ w, Took s w t := by
  induction chunks generalizing s with
  | nil => cases ht
  | cons chunk chunks ih =>
    have hle := hlen chunk List.mem_cons_self
    have hload := loaded_took chunk s (by rw [hs.buff]; exact hle)
    obtain ⟨u, v, hu, hready, hsu, -⟩ := readCompletion_took cb chunk s hs hle
    rw [ConState.feedStates, hu] at ht
    rcases List.mem_append.mp ht with ht | ht
    · have hbuff : (s.loaded chunk).con.msgSize ≤ (s.loaded chunk).con.buff.length := by
        rw [hload.buff, hs.buff]
        exact hle
      obtain ⟨w, hw⟩ := loopStates_took cb _ (s.loaded chunk) t hbuff ht
      exact ⟨w, hload.trans hw⟩
    · obtain ⟨w, hw⟩ := ih u hready (fun c hc => hlen c (List.mem_cons_of_mem chunk hc)) ht
      exact ⟨v ++ w, hsu.trans hw⟩

theorem feedStates_passed (cb : NewMsgCallback) (chunks : List (List NetWord)) (s r : ConState)
    (hs : Ready s) (hlen : ∀ chunk ∈ chunks, chunk.length ≤ buffCapacity)
    (h : ConState.feed cb s chunks = .ok r) (hopen : r.con.conOpen = true) (hne : chunks ≠ [])
    (w : List NetWord) (hw : w <+: chunks.flatten) :
    ∃ t ∈ ConState.feedStates cb s chunks, Took s w t := by
  induction chunks generalizing s w with
  | nil => exact absurd rfl hne
  | cons chunk chunks ih =>
    have hle := hlen chunk List.mem_cons_self
    have hlen' : ∀ c ∈ chunks, c.length ≤ buffCapacity :=
      fun c hc => hlen c (List.mem_cons_of_mem chunk hc)
    have hload := loaded_took chunk s (by rw [hs.buff]; exact hle)
    obtain ⟨u, v, hu, hready, hsu, -, -, hall⟩ := readCompletion_took cb chunk s hs hle
    rw [ConState.feed, hu] at h
    obtain ⟨r', w', hr', -, hur, -⟩ := feed_took cb chunks u hready hlen'
    obtain rfl : r = r' := Except.ok.inj (h.symm.trans hr')
    have huo := hur.opened hopen
    rw [ConState.feedStates, hu]
    rw [List.flatten_cons] at hw
    by_cases hshort : w.length ≤ chunk.length
    · have hchunk : w <+: chunk :=
        List.prefix_of_prefix_length_le hw (List.prefix_append _ _) hshort
      have hrest := loaded_rest chunk s (hs.index (hsu.opened huo))
      have hbuff : (s.loaded chunk).con.msgSize ≤ (s.loaded chunk).con.buff.length := by
        rw [hload.buff, hs.buff]
        exact hle
      obtain ⟨q, -, hq, -⟩ := decodeLoop_took cb (chunk.length + 1) (s.loaded chunk) hbuff
        (by rw [hrest]; omega)
      have hqu : u = if q.con.conOpen then q.scheduleReadHandler else q :=
        Except.ok.inj (hu.symm.trans (readCompletion_eq cb chunk s q hq))
      have hqo : q.con.conOpen = true := by
        by_contra hclosed
        rw [hqu, if_neg hclosed] at huo
        exact hclosed huo
      obtain ⟨t, ht, hst⟩ := loopStates_passed cb _ (s.loaded chunk) q hbuff hq hqo w
        (by rw [hrest]; exact hchunk)
      exact ⟨t, List.mem_append_left _ ht, hload.trans hst⟩
    · have hchunk : chunk <+: w :=
        List.prefix_of_prefix_length_le (List.prefix_append _ _) hw (by omega)
      obtain ⟨x, rfl⟩ := hchunk
      have hx := (List.prefix_append_right_inj chunk).mp hw
      have hne' : chunks ≠ [] := by
        intro he
        rw [he] at hx
        rw [List.prefix_nil.mp hx, List.append_nil] at hshort
        exact hshort le_rfl
      obtain ⟨t, ht, hut⟩ := ih u hready hlen' h hne' x hx
      rw [hall huo] at hsu
      exact ⟨t, List.mem_append_right _ ht, hsu.trans hut⟩

/-! ## resynchronisation -/

/-- `t` is a state in which the loop has taken exactly `w` since `s` -/
def ConState.Past (s t : ConState) (w : List NetWord) : Prop :=
  consumed t.trace = consumed s.trace ++ w

theorem past_took {s t : ConState} {v w : List NetWord} (h : Took s v t) (hp : s.Past t w) :
    Took s w t := by
  have hvw : v = w := List.append_cancel_left (h.consumed.symm.trans hp)
  rwa [← hvw]

theorem encodeAll_append (ps qs : List (List NetWord)) :
    encodeAll (ps ++ qs) = encodeAll ps ++ encodeAll qs := List.flatMap_append

theorem encodeAll_singleton (p : List NetWord) : encodeAll [p] = encode p := List.append_nil _

/-- what one more frame does behind arbitrary bytes and frames -/
theorem frame_took {s t₀ t : ConState} {g p : List NetWord} {us : List (List NetWord)}
    (h₀ : Took s (g ++ encodeAll us) t₀) (h : Took s (g ++ encodeAll (us ++ [p])) t) :
    t.con.nextIsEscape = false ∧
      delivered t.trace = delivered t₀.trace ++
        (out codes (run codes (run codes s.con.dec g) (stream codes us)) (frame codes p)).map
          (s.con.id, ·) := by
  have hfin : codes.fin ≠ codes.esc := by decide
  have hsplit : g ++ encodeAll (us ++ [p]) = (g ++ stream codes us) ++ frame codes p := by
    rw [encodeAll_append, encodeAll_singleton, encodeAll_eq, encode_eq, List.append_assoc]
  rw [hsplit] at h
  rw [encodeAll_eq] at h₀
  refine ⟨?_, ?_⟩
  · obtain ⟨r, hr⟩ := run_frame_any codes hfin (run codes s.con.dec (g ++ stream codes us)) p
    have hdec := h.dec
    rw [run_append, hr] at hdec
    exact congrArg St.pending hdec
  · rw [h.delivered, h₀.delivered, out_append, List.map_append, run_append, List.append_assoc]

/-- **The decoder resynchronises after garbage.**  From any state between two reads, feed
arbitrary bytes and then the frames of a list of payloads, however cut.  The loop passes through
the end of every frame, and no escape is pending there; while the second frame is read exactly
one message is delivered, and it ends with the payload of that frame; and while each later frame
is read exactly its payload is delivered. -/
theorem feed_resync (cb : NewMsgCallback) (s : ConState) (hs : Reached s) (g : List NetWord)
    (ps chunks : List (List NetWord)) (hcut : chunks.flatten = g ++ encodeAll ps)
    (hlen : ∀ chunk ∈ chunks, chunk.length ≤ buffCapacity) :
    ∃ r, ConState.feed cb s chunks = .ok r ∧
      (r.con.conOpen = true → ps ≠ [] → ∀ us vs, ps = us ++ vs →
        ∃ t ∈ ConState.feedStates cb s chunks, s.Past t (g ++ encodeAll us)) ∧
      ∀ us p vs, ps = us ++ p :: vs →
        ∀ t₀ ∈ ConState.feedStates cb s chunks, s.Past t₀ (g ++ encodeAll us) →
        ∀ t ∈ ConState.feedStates cb s chunks, s.Past t (g ++ encodeAll (us ++ [p])) →
          t.con.nextIsEscape = false ∧
          (us.length = 1 → ∃ m, delivered t.trace = delivered t₀.trace ++ [(s.con.id, m)] ∧
            p <:+ m) ∧
          (2 ≤ us.length → delivered t.trace = delivered t₀.trace ++ [(s.con.id, p)]) := by
  obtain ⟨r, -, hok, -⟩ := feed_took cb chunks s hs.ready hlen
  have hfin : codes.fin ≠ codes.esc := by decide
  refine ⟨r, hok, fun hopen hps us vs hsplit => ?_, fun us p vs _ t₀ ht₀ hp₀ t ht hp => ?_⟩
  · have hne : chunks ≠ [] := by
      intro he
      rw [he] at hcut
      have hnil := (List.append_eq_nil_iff.mp hcut.symm).2
      obtain ⟨q, qs, rfl⟩ := List.exists_cons_of_ne_nil hps
      rw [encodeAll_eq, stream_cons, frame] at hnil
      simp at hnil
    have hpre : g ++ encodeAll us <+: chunks.flatten := by
      rw [hcut, hsplit, encodeAll_append, ← List.append_assoc]
      exact List.prefix_append _ _
    obtain ⟨t, ht, htook⟩ := feedStates_passed cb chunks s r hs.ready hlen hok hopen hne _ hpre
    exact ⟨t, ht, htook.consumed⟩
  · obtain ⟨w₀, hw₀⟩ := feedStates_took cb chunks s t₀ hs.ready hlen ht₀
    obtain ⟨w, hw⟩ := feedStates_took cb chunks s t hs.ready hlen ht
    obtain ⟨hesc, hdel⟩ := frame_took (past_took hw₀ hp₀) (past_took hw hp)
    refine ⟨hesc, fun hone => ?_, fun htwo => ?_⟩
    · obtain ⟨q, rfl⟩ := List.length_eq_one_iff.mp hone
      obtain ⟨m, hm⟩ := run_stream_any codes hfin (run codes s.con.dec g) q []
      rw [hm, out_frame] at hdel
      exact ⟨m ++ p, hdel, List.suffix_append m p⟩
    · obtain ⟨q, us, rfl⟩ := List.exists_cons_of_length_pos (Nat.zero_lt_of_lt htwo)
      obtain ⟨q', qs, rfl⟩ := List.exists_cons_of_length_pos (Nat.lt_of_succ_lt_succ htwo)
      rw [run_stream_synced codes hfin, out_frame] at hdel
      exact hdel

/-- a dangling escape in front of three frames swallows the first byte of the first one -/
theorem feed_resync_dangling :
    ∃ r, ConState.feed (fun _ => false) (ConState.fresh 4)
        [[7, 255, 97], [255, 0, 98, 255, 0, 99], [255, 0]] = .ok r ∧ r.con.conOpen = true ∧
      ∃ t₀ t : ConState, (ConState.fresh 4).Past t₀ ([7, 255] ++ encodeAll [[97]]) ∧
        (ConState.fresh 4).Past t ([7, 255] ++ encodeAll [[97], [98]]) ∧
        t.con.nextIsEscape = false ∧
        ∃ m, delivered t.trace = delivered t₀.trace ++ [(4, m)] ∧ [98] <:+ m := by
  have hlen : ∀ chunk ∈ ([[7, 255, 97], [255, 0, 98, 255, 0, 99], [255, 0]] : List (List NetWord)),
      chunk.length ≤ buffCapacity := by decide
  obtain ⟨r, hok, hpassed, hframes⟩ := feed_resync (fun _ => false) (ConState.fresh 4)
    (Reached.fresh 4) [7, 255] [[97], [98], [99]] _ (by decide) hlen
  have hopen := feed_open (fun _ => false) (fun _ => rfl) _ _ r (ready_fresh 4) rfl hlen hok
  obtain ⟨t₀, ht₀, hp₀⟩ := hpassed hopen (List.cons_ne_nil _ _) [[97]] [[98], [99]] rfl
  obtain ⟨t, ht, hp⟩ := hpassed hopen (List.cons_ne_nil _ _) [[97], [98]] [[99]] rfl
  obtain ⟨hesc, hsecond, -⟩ := hframes [[97]] [98] [[99]] rfl t₀ ht₀ hp₀ t ht hp
  exact ⟨r, hok, hopen, t₀, t, hp₀, hp, hesc, hsecond rfl⟩

end VoltNet
