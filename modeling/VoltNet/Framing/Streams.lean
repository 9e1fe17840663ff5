import VoltNet.Framing.Decode

/-!
# Byte streams through a connection

What a connection makes of a whole byte stream, however the reads cut it.

* `feed_encodeAll`        a stream of frames delivers its payloads and leaves the decoder empty;
* `feed_segmentation`     the cutting does not matter, on any stream and from any state a
                          connection can be in between two reads (`Reached`);
* `feed_reencode`         encoding what was received gives back the stream without its
                          unrecognised escape pairs;
* `feed_delivered`        a callback that never closes gets the messages of the whole stream;
* `feed_segments`         the bytes that messages were cut from are pieces of the stream, one behind
                          the other;
* `feed_ownFrames_iff`    the messages delivered are exactly those of the frames they came in if
                          and only if no unrecognised pair is followed by an end of message.

The message callback is arbitrary: results that need the whole stream are stated for a
connection that is still open at the end, which `feed_open` gives for callbacks that never close.
-/

namespace VoltNet
open Stuffing

/-! ## states between two reads -/

/-- states a connection can be in when no handler of it runs -/
inductive Reached : ConState → Prop where
  | fresh (id : ConId) : Reached (ConState.fresh id)
  | read (cb : NewMsgCallback) (err : ErrorCode) (chunk : List NetWord) (s r : ConState) :
      Reached s → chunk.length ≤ buffCapacity →
      ConState.handleRead cb err chunk.length ⟨s.con.fillBuff chunk, s.trace⟩ = .ok r → Reached r
  | close (s : ConState) : Reached s → Reached s.closeCon

theorem closeCon_closed (s : ConState) : s.closeCon.con.conOpen = false := by
  unfold ConState.closeCon NetCon.closeCon
  by_cases h : s.con.conOpen <;> simp [h]

theorem ready_closeCon (s : ConState) (h : s.con.buff.length = buffCapacity) :
    Ready s.closeCon :=
  ⟨by rw [(closeCon_took s).buff, h], fun ho => by rw [closeCon_closed] at ho; cases ho⟩

theorem Reached.ready {s : ConState} (h : Reached s) : Ready s := by
  induction h with
  | fresh id => exact ready_fresh id
  | read cb err chunk s r _ hlen hr ih =>
    have hbuff : (s.con.fillBuff chunk).buff.length = buffCapacity := by
      rw [fillBuff_length s.con chunk (by rw [ih.buff]; exact hlen), ih.buff]
    cases err with
    | success =>
      obtain ⟨t, w, hok, ht, -⟩ := readCompletion_took cb chunk s ih hlen
      have e : r = t := Except.ok.inj (hr.symm.trans hok)
      rw [e]
      exact ht
    | eof =>
      have e := Except.ok.inj hr
      rw [← e]
      exact ready_closeCon _ hbuff
    | other =>
      have e := Except.ok.inj hr
      rw [← e]
      exact ready_closeCon _ hbuff
  | close s _ ih => exact ready_closeCon s ih.buff

/-! ## streams from a fresh connection -/

theorem fresh_delivered (id : ConId) : delivered (ConState.fresh id).trace = [] := rfl

/-- what a fresh connection has decoded, in terms of the bytes taken -/
theorem feed_fresh (cb : NewMsgCallback) (id : ConId) (chunks : List (List NetWord))
    (hlen : ∀ chunk ∈ chunks, chunk.length ≤ buffCapacity) :
    ∃ r w, ConState.feed cb (ConState.fresh id) chunks = .ok r ∧ Ready r ∧
      w <+: chunks.flatten ∧ (r.con.conOpen = true → w = chunks.flatten) ∧
      r.con.dec = run codes ⟨[], false⟩ w ∧
      delivered r.trace = (out codes ⟨[], false⟩ w).map (id, ·) ∧
      segments [] r.trace = cuts codes ⟨[], false⟩ [] w := by
  obtain ⟨r, w, hok, hr, htook, hpre, -, hall⟩ := feed_took cb chunks _ (ready_fresh id) hlen
  refine ⟨r, w, hok, hr, hpre, hall, htook.dec, ?_, ?_⟩
  · rw [htook.delivered, fresh_delivered, List.nil_append]
    rfl
  · have h1 := congrArg (segments []) htook.acts
    have h2 : (ConState.fresh id).trace.filter Action.visible = [] := rfl
    rw [segments_visible, h2, List.nil_append, segments_acts] at h1
    exact h1

/-- a callback that never closes sees the messages of the whole stream -/
theorem feed_delivered (cb : NewMsgCallback) (hcb : ∀ tr, cb tr = false) (id : ConId)
    (chunks : List (List NetWord)) (hlen : ∀ chunk ∈ chunks, chunk.length ≤ buffCapacity)
    (r : ConState) (h : ConState.feed cb (ConState.fresh id) chunks = .ok r) :
    r.con.conOpen = true ∧
      delivered r.trace = (out codes ⟨[], false⟩ chunks.flatten).map (id, ·) := by
  have ho := feed_open cb hcb chunks _ r (ready_fresh id) rfl hlen h
  obtain ⟨r', w, hok, -, -, hall, -, hdel, -⟩ := feed_fresh cb id chunks hlen
  obtain rfl : r = r' := Except.ok.inj (h.symm.trans hok)
  exact ⟨ho, by rw [hdel, hall ho]⟩

/-- one frame is one message, also when the callback then closes the connection -/
theorem feed_frame (cb : NewMsgCallback) (id : ConId) (p : List NetWord)
    (chunks : List (List NetWord)) (hcut : chunks.flatten = encode p)
    (hlen : ∀ chunk ∈ chunks, chunk.length ≤ buffCapacity) :
    ∃ r, ConState.feed cb (ConState.fresh id) chunks = .ok r ∧ delivered r.trace = [(id, p)] := by
  obtain ⟨r, w, hok, -, hpre, hall, -, hdel, -⟩ := feed_fresh cb id chunks hlen
  have hframe : out codes ⟨[], false⟩ chunks.flatten = [p] := by
    rw [hcut, encode_eq, out_frame, List.nil_append]
  refine ⟨r, hok, ?_⟩
  rcases feed_kept cb chunks _ r (ready_fresh id) (.inl rfl) hlen hok with ho | ⟨-, hne⟩
  · rw [hdel, hall ho, hframe]
    rfl
  · have h1 := out_isPrefix codes ⟨[], false⟩ w _ hpre
    rw [hframe] at h1
    rw [hdel] at hne ⊢
    rcases List.prefix_cons_iff.mp h1 with h2 | ⟨l, h2, hl⟩
    · exact absurd (by rw [h2]; rfl) hne
    · rw [h2, List.prefix_nil.mp hl]
      rfl

/-- **Framing round trip under any segmentation.**  However the stream of a list of payloads is
cut into reads, the callback gets exactly the payloads, in order, and the decoder is left
empty. -/
theorem feed_encodeAll (cb : NewMsgCallback) (id : ConId) (ps chunks : List (List NetWord))
    (hcut : chunks.flatten = encodeAll ps)
    (hlen : ∀ chunk ∈ chunks, chunk.length ≤ buffCapacity) :
    ∃ r, ConState.feed cb (ConState.fresh id) chunks = .ok r ∧
      ((∀ tr, cb tr = false) → r.con.conOpen = true) ∧
      (r.con.conOpen = true →
        delivered r.trace = ps.map (id, ·) ∧ r.con.recvMsg = [] ∧
          r.con.nextIsEscape = false ∧ r.con.currentIndex = 0) := by
  obtain ⟨r, w, hok, hr, -, hall, hdec, hdel, -⟩ := feed_fresh cb id chunks hlen
  refine ⟨r, hok, fun hcb => feed_open cb hcb chunks _ r (ready_fresh id) rfl hlen hok,
    fun ho => ?_⟩
  have hw : w = stream codes ps := by rw [hall ho, hcut, encodeAll_eq]
  rw [hw, run_stream] at hdec
  rw [hw, out_stream] at hdel
  exact ⟨hdel, congrArg St.recv hdec, congrArg St.pending hdec, hr.index ho⟩

/-- empty reads, and cuts inside of escape pairs -/
theorem feed_encodeAll_cut :
    ∃ r, ConState.feed (fun _ => false) (ConState.fresh 7)
        [[97, 255], [], [0, 255, 255, 255], [0, 255, 0]] = .ok r ∧ r.con.conOpen = true ∧
      delivered r.trace = [(7, [97]), (7, [255]), (7, [])] ∧ r.con.recvMsg = [] ∧
        r.con.nextIsEscape = false ∧ r.con.currentIndex = 0 := by
  obtain ⟨r, hok, hopen, hall⟩ := feed_encodeAll (fun _ => false) 7 [[97], [255], []]
    [[97, 255], [], [0, 255, 255, 255], [0, 255, 0]] (by decide) (by decide)
  have ho := hopen fun _ => rfl
  exact ⟨r, hok, ho, hall ho⟩

/-- **Segmentation independence on every stream.**  From a common state, two ways of cutting one
stream deliver the same messages and leave the same decoder state; every byte is taken once, in
order, and no read of the buffer is out of range.  An open connection whose callback never closes it
is open at the end. -/
theorem feed_segmentation (cb cb' : NewMsgCallback) (s : ConState) (hs : Reached s)
    (chunks chunks' : List (List NetWord)) (hcut : chunks.flatten = chunks'.flatten)
    (hlen : ∀ chunk ∈ chunks, chunk.length ≤ buffCapacity)
    (hlen' : ∀ chunk ∈ chunks', chunk.length ≤ buffCapacity) :
    ∃ r r', ConState.feed cb s chunks = .ok r ∧ ConState.feed cb' s chunks' = .ok r' ∧
      (s.con.conOpen = true → (∀ tr, cb tr = false) → r.con.conOpen = true) ∧
      (s.con.conOpen = true → (∀ tr, cb' tr = false) → r'.con.conOpen = true) ∧
      (r.con.conOpen = true →
        VoltNet.consumed r.trace = VoltNet.consumed s.trace ++ chunks.flatten) ∧
      (r'.con.conOpen = true →
        VoltNet.consumed r'.trace = VoltNet.consumed s.trace ++ chunks'.flatten) ∧
      (r.con.conOpen = true → r'.con.conOpen = true →
        delivered r.trace = delivered r'.trace ∧ r.con.recvMsg = r'.con.recvMsg ∧
          r.con.nextIsEscape = r'.con.nextIsEscape) := by
  obtain ⟨r, w, hok, -, ht, -, -, hall⟩ := feed_took cb chunks s hs.ready hlen
  obtain ⟨r', w', hok', -, ht', -, -, hall'⟩ := feed_took cb' chunks' s hs.ready hlen'
  refine ⟨r, r', hok, hok', fun ho hcb => feed_open cb hcb chunks s r hs.ready ho hlen hok,
    fun ho hcb => feed_open cb' hcb chunks' s r' hs.ready ho hlen' hok', fun ho => ?_,
    fun ho => ?_, fun ho ho' => ?_⟩
  · rw [ht.consumed, hall ho]
  · rw [ht'.consumed, hall' ho]
  · have hw : w = w' := by rw [hall ho, hall' ho', hcut]
    have hdec : r.con.dec = r'.con.dec := by rw [ht.dec, ht'.dec, hw]
    exact ⟨by rw [ht.delivered, ht'.delivered, hw], congrArg St.recv hdec,
      congrArg St.pending hdec⟩

/-- a whole frame, an unrecognised pair and the beginning of another frame, cut inside of the end
of the frame, and inside of the pair -/
theorem feed_segmentation_split :
    ∃ r r', ConState.feed (fun _ => false) (ConState.fresh 1) [[97, 255], [0, 255, 9, 98]] = .ok r ∧
      ConState.feed (fun _ => false) (ConState.fresh 1) [[97], [255, 0, 255], [9, 98]] = .ok r' ∧
      delivered r.trace = [(1, [97])] ∧ delivered r'.trace = [(1, [97])] ∧
      consumed r.trace = [97, 255, 0, 255, 9, 98] ∧ r.con.recvMsg = r'.con.recvMsg ∧
      r.con.nextIsEscape = r'.con.nextIsEscape := by
  obtain ⟨r, r', hok, hok', hopen, hopen', htook, -, hsame⟩ := feed_segmentation (fun _ => false)
    (fun _ => false) _ (Reached.fresh 1) [[97, 255], [0, 255, 9, 98]]
    [[97], [255, 0, 255], [9, 98]] (by decide) (by decide) (by decide)
  have ho := hopen rfl fun _ => rfl
  obtain ⟨hdel, hrecv, hescape⟩ := hsame ho (hopen' rfl fun _ => rfl)
  have hone : delivered r.trace = [(1, [97])] := by
    rw [(feed_delivered _ (fun _ => rfl) 1 _ (by decide) r hok).2]
    decide
  exact ⟨r, r', hok, hok', hone, hdel ▸ hone, htook ho, hrecv, hescape⟩

/-! ## encoding what was received -/

/-- the messages delivered, then the message under construction, then a pending escape, written
with `write_byte` and `end_msg` -/
def ConState.reencode (r : ConState) : List NetWord :=
  writeBytes r.con.recvMsg (encodeAll ((delivered r.trace).map Prod.snd))
    ++ if r.con.nextIsEscape then [escapeVal] else []

/-- **Encoding undoes decoding on every stream**, up to the escape pairs the decoder does not
recognise, which are the bytes it drops; for a callback that never closes without any proviso. -/
theorem feed_reencode (cb : NewMsgCallback) (id : ConId) (chunks : List (List NetWord))
    (hlen : ∀ chunk ∈ chunks, chunk.length ≤ buffCapacity) :
    ∃ r, ConState.feed cb (ConState.fresh id) chunks = .ok r ∧
      ((∀ tr, cb tr = false) → r.con.conOpen = true) ∧
      (r.con.conOpen = true → r.reencode = recognised codes chunks.flatten ∧
        ((∀ t ∈ scan codes chunks.flatten, t.unrecognised codes = false) →
          r.reencode = chunks.flatten)) := by
  obtain ⟨r, w, hok, -, -, hall, hdec, hdel, -⟩ := feed_fresh cb id chunks hlen
  refine ⟨r, hok, fun hcb => feed_open cb hcb chunks _ r (ready_fresh id) rfl hlen hok,
    fun ho => ?_⟩
  have hms : (delivered r.trace).map Prod.snd = out codes ⟨[], false⟩ w := by
    rw [hdel, List.map_map]
    exact List.map_id _
  have hmain : r.reencode = recognised codes chunks.flatten := by
    rw [← hall ho, ← restuff codes w, ← hdec, ConState.reencode, hms, writeBytes_eq,
      encodeAll_eq]
    rfl
  exact ⟨hmain, fun h => by rw [hmain, recognised_eq_self codes _ h]⟩

/-- the pair `255 7` is dropped, and the escape at the end waits for its other half -/
theorem feed_reencode_dropped :
    ∃ r, ConState.feed (fun _ => false) (ConState.fresh 3) [[97, 255, 7], [255, 0, 255]] = .ok r ∧
      delivered r.trace = [(3, [97])] ∧ r.con.nextIsEscape = true ∧
      r.reencode = [97, 255, 0, 255] := by
  obtain ⟨r, hok, hopen, hall⟩ := feed_reencode (fun _ => false) 3 [[97, 255, 7], [255, 0, 255]]
    (by decide)
  have hmain := (hall (hopen fun _ => rfl)).1
  have hone : delivered r.trace = [(3, [97])] := by
    rw [(feed_delivered _ (fun _ => rfl) 3 _ (by decide) r hok).2]
    decide
  have hvalue : r.reencode = [97, 255, 0, 255] := hmain.trans (by decide)
  obtain ⟨t, w, htok, -, -, hw, hdec, -⟩ :=
    feed_fresh (fun _ => false) 3 [[97, 255, 7], [255, 0, 255]] (by decide)
  obtain rfl : r = t := Except.ok.inj (hok.symm.trans htok)
  rw [hw (hopen fun _ => rfl)] at hdec
  exact ⟨r, hok, hone, congrArg St.pending hdec, hvalue⟩

/-! ## messages and the frames they came in -/

/-- every message delivered is the one encoded by the bytes taken since the message before it -/
def FromOwnFrames (tr : List Action) : Prop := ∀ x ∈ segments [] tr, x.1 = encode x.2

theorem fromOwnFrames_iff (tr : List Action) (w : List NetWord)
    (h : segments [] tr = cuts codes ⟨[], false⟩ [] w) :
    FromOwnFrames tr ↔ CleanFrames codes w := by
  rw [← cuts_eq_frame_iff, ← h]
  exact forall₂_congr fun x _ => by rw [encode_eq]

/-- the segments of a fresh connection are contiguous pieces of the stream, one behind the
other, and there is one for each message delivered -/
theorem feed_segments (cb : NewMsgCallback) (id : ConId) (chunks : List (List NetWord))
    (hlen : ∀ chunk ∈ chunks, chunk.length ≤ buffCapacity) :
    ∃ r, ConState.feed cb (ConState.fresh id) chunks = .ok r ∧
      ((segments [] r.trace).map Prod.fst).flatten <+: chunks.flatten ∧
      (segments [] r.trace).map Prod.snd = (delivered r.trace).map Prod.snd := by
  obtain ⟨r, w, hok, -, hpre, -, -, hdel, hseg⟩ := feed_fresh cb id chunks hlen
  refine ⟨r, hok, ?_, ?_⟩
  · rw [hseg]
    have h1 := cuts_fst codes ⟨[], false⟩ [] w
    rw [List.nil_append] at h1
    exact h1.trans hpre
  · rw [hseg, cuts_snd, hdel, List.map_map]
    exact (List.map_id _).symm

/-- **A connection accepts only its frame grammar exactly on the streams in which no unrecognised
escape pair is followed by an end of message.** -/
theorem feed_ownFrames_iff (cb : NewMsgCallback) (id : ConId) (chunks : List (List NetWord))
    (hlen : ∀ chunk ∈ chunks, chunk.length ≤ buffCapacity) :
    ∃ r, ConState.feed cb (ConState.fresh id) chunks = .ok r ∧
      (CleanFrames codes chunks.flatten → FromOwnFrames r.trace) ∧
      (r.con.conOpen = true →
        (FromOwnFrames r.trace ↔ CleanFrames codes chunks.flatten)) := by
  obtain ⟨r, w, hok, -, hpre, hall, -, -, hseg⟩ := feed_fresh cb id chunks hlen
  refine ⟨r, hok, fun hclean => ?_, fun ho => ?_⟩
  · have hown := (cuts_eq_frame_iff codes chunks.flatten).mpr hclean
    intro x hx
    rw [hseg] at hx
    rw [encode_eq]
    exact hown x ((cuts_isPrefix codes _ _ _ _ hpre).subset hx)
  · rw [fromOwnFrames_iff r.trace w hseg, hall ho]

/-- an unrecognised pair behind the last end of a message -/
theorem feed_ownFrames_tail :
    ∃ r, ConState.feed (fun _ => false) (ConState.fresh 3) [[97, 255], [0, 255, 7]] = .ok r ∧
      delivered r.trace = [(3, [97])] ∧ CleanFrames codes [97, 255, 0, 255, 7] ∧
      FromOwnFrames r.trace := by
  obtain ⟨r, hok, henough, -⟩ := feed_ownFrames_iff (fun _ => false) 3 [[97, 255], [0, 255, 7]]
    (by decide)
  have hclean : CleanFrames codes [97, 255, 0, 255, 7] := by decide
  have hone : delivered r.trace = [(3, [97])] := by
    rw [(feed_delivered _ (fun _ => rfl) 3 _ (by decide) r hok).2]
    decide
  exact ⟨r, hok, hone, hclean, henough hclean⟩

/-- the frame `97 255 7 98 255 0` is delivered as `97 98`, whose encoding is nowhere in it -/
theorem feed_skips_pair :
    ∃ r, ConState.feed (fun _ => false) (ConState.fresh 0) [[97, 255, 7, 98, 255, 0]] = .ok r ∧
      delivered r.trace = [(0, [97, 98])] ∧ ¬ encode [97, 98] <:+: [97, 255, 7, 98, 255, 0] ∧
      ¬ FromOwnFrames r.trace := by
  have hlen : ∀ chunk ∈ [([97, 255, 7, 98, 255, 0] : List NetWord)],
      chunk.length ≤ buffCapacity := by decide
  obtain ⟨r, w, hok, -, -, hall, -, hdel, hseg⟩ := feed_fresh (fun _ => false) 0 _ hlen
  have ho := feed_open (fun _ => false) (fun _ => rfl) _ _ r (ready_fresh 0) rfl hlen hok
  refine ⟨r, hok, ?_, by decide, ?_⟩
  · rw [hdel, hall ho]
    decide
  · rw [fromOwnFrames_iff r.trace w hseg, hall ho]
    decide

end VoltNet
