import VoltNet.Framing.NetCon

/-!
# What `handle_read` does to a chunk

The decoding loop is the stuffing receiver run over the bytes it takes, whatever the message
callback does, and it takes the whole chunk unless the connection is closed on the way.

* `handleByte_eq`         the loop body is one symbol of the receiver;
* `turn_nil`, `turn_cons` one turn, by what is left of the chunk;
* `Took s w r`            `r` comes from `s` by decoding the bytes `w`;
* `decodeLoop_took`, `readCompletion_took`, `feed_took`   the loop, one read, a list of reads.
-/

namespace VoltNet
open Stuffing

/-! ## one byte -/

/-- the receiver inside a connection -/
def NetCon.dec (c : NetCon) : St NetWord := ⟨c.recvMsg, c.nextIsEscape⟩

/-- **The loop body is one symbol of the receiver.** -/
theorem handleByte_eq (c : NetCon) (b : NetWord) :
    c.handleByte b = ({ c with
      recvMsg := (next codes c.dec b).1.recv
      nextIsEscape := (next codes c.dec b).1.pending }, (next codes c.dec b).2) := by
  have hne : msgEndEscaped ≠ msgOrigiChar := codes.fin_ne_lit
  cases hp : c.nextIsEscape with
  | false =>
    by_cases hb : b = escapeVal
    · simp [NetCon.handleByte, next, NetCon.dec, codes, hp, hb]
    · simp [NetCon.handleByte, next, NetCon.dec, codes, hp, hb]
  | true =>
    by_cases h1 : b = msgOrigiChar
    · simp [NetCon.handleByte, next, NetCon.dec, codes, hp, h1]
    · by_cases h2 : b = msgEndEscaped
      · simp [NetCon.handleByte, next, NetCon.dec, codes, hp, h2, hne]
      · simp [NetCon.handleByte, next, NetCon.dec, codes, hp, h1, h2]

theorem handleByte_snd (c : NetCon) (b : NetWord) :
    (c.handleByte b).2 = (next codes c.dec b).2 := by rw [handleByte_eq]

theorem handleByte_dec (c : NetCon) (b : NetWord) :
    (c.handleByte b).1.dec = (next codes c.dec b).1 := by rw [handleByte_eq]; rfl

/-! ## one turn of the loop -/

/-- bytes of the current chunk that the loop has yet to take -/
def NetCon.rest (c : NetCon) : List NetWord := (c.buff.take c.msgSize).drop c.currentIndex

theorem rest_eq_nil (c : NetCon) (hlen : c.msgSize ≤ c.buff.length) (h : c.rest = []) :
    c.msgSize ≤ c.currentIndex := by
  have h1 : (c.buff.take c.msgSize).length ≤ c.currentIndex := List.drop_eq_nil_iff.mp h
  rwa [List.length_take, Nat.min_eq_left hlen] at h1

theorem rest_eq_cons (c : NetCon) (b : NetWord) (bs : List NetWord) (h : c.rest = b :: bs) :
    c.currentIndex < c.msgSize ∧ c.buff[c.currentIndex]? = some b ∧
      (c.buff.take c.msgSize).drop (c.currentIndex + 1) = bs := by
  have hget : (c.buff.take c.msgSize)[c.currentIndex]? = some b := by
    have h0 : c.rest[0]? = some b := by rw [h]; rfl
    rw [NetCon.rest, List.getElem?_drop, Nat.add_zero] at h0
    exact h0
  have hlt : c.currentIndex < c.msgSize := by
    have := (List.getElem?_eq_some_iff.mp hget).1
    rw [List.length_take] at this
    omega
  refine ⟨hlt, ?_, ?_⟩
  · rwa [List.getElem?_take_of_lt hlt] at hget
  · have := congrArg List.tail h
    rwa [NetCon.rest, List.tail_drop] at this

theorem turn_nil (c : NetCon) (hopen : c.conOpen = true) (hlen : c.msgSize ≤ c.buff.length)
    (h : c.rest = []) : c.turn = .ok ({ c with currentIndex := 0 }, none) := by
  have hge := rest_eq_nil c hlen h
  simp [NetCon.turn, NetCon.getNextByte, hopen, hge]

theorem turn_closed (c : NetCon) (hopen : c.conOpen = false) : c.turn = .ok (c, none) := by
  simp [NetCon.turn, hopen]

theorem turn_cons (c : NetCon) (b : NetWord) (bs : List NetWord) (hopen : c.conOpen = true)
    (h : c.rest = b :: bs) :
    ∃ c', c.turn = .ok (c', some (b, (next codes c.dec b).2)) ∧ c'.dec = (next codes c.dec b).1 ∧
      c'.rest = bs ∧ c'.conOpen = true ∧ c'.id = c.id ∧ c'.buff = c.buff ∧
      c'.msgSize = c.msgSize := by
  obtain ⟨hlt, hget, hrest⟩ := rest_eq_cons c b bs h
  have hne : c.msgSize ≠ 0 := by omega
  have hnge : ¬ c.currentIndex ≥ c.msgSize := by omega
  let c1 : NetCon := { c with currentIndex := c.currentIndex + 1 }
  have hd : c1.dec = c.dec := rfl
  have hg : c.getNextByte = .ok (c1, some b) := by
    simp [NetCon.getNextByte, hne, hnge, hopen, hget, c1]
  refine ⟨(c1.handleByte b).1, ?_, ?_, ?_, ?_, ?_, ?_, ?_⟩
  · simp only [NetCon.turn, hopen, if_true, hg]
    rw [handleByte_snd, hd]
  · rw [handleByte_dec, hd]
  · rw [handleByte_eq]; exact hrest
  · rw [handleByte_eq]; exact hopen
  all_goals rw [handleByte_eq]

/-! ## traces -/

/-- bytes taken and messages handed over -/
def Action.visible : Action → Bool
  | .byte _ => true
  | .newMsg _ _ => true
  | _ => false

/-- the visible actions of a receiver over a word -/
def acts (id : ConId) (d : St NetWord) : List NetWord → List Action
  | [] => []
  | b :: bs =>
    .byte b :: ((next codes d b).2.toList.map (Action.newMsg id) ++ acts id (next codes d b).1 bs)

theorem acts_append (id : ConId) (d : St NetWord) (u v : List NetWord) :
    acts id d (u ++ v) = acts id d u ++ acts id (run codes d u) v := by
  induction u generalizing d with
  | nil => rfl
  | cons b u ih => simp only [List.cons_append, acts, ih, run, List.append_assoc]

theorem consumed_append (tr tr' : List Action) :
    consumed (tr ++ tr') = consumed tr ++ consumed tr' := List.filterMap_append

theorem delivered_append (tr tr' : List Action) :
    delivered (tr ++ tr') = delivered tr ++ delivered tr' := List.filterMap_append

theorem consumed_visible (tr : List Action) :
    consumed (tr.filter Action.visible) = consumed tr := by
  induction tr with
  | nil => rfl
  | cons a tr ih =>
    cases a with
    | byte b => exact congrArg (b :: ·) ih
    | newMsg id m => exact ih
    | closed id => exact ih
    | readScheduled => exact ih

theorem delivered_visible (tr : List Action) :
    delivered (tr.filter Action.visible) = delivered tr := by
  induction tr with
  | nil => rfl
  | cons a tr ih =>
    cases a with
    | byte b => exact ih
    | newMsg id m => exact congrArg ((id, m) :: ·) ih
    | closed id => exact ih
    | readScheduled => exact ih

theorem segments_visible (sg : List NetWord) (tr : List Action) :
    segments sg (tr.filter Action.visible) = segments sg tr := by
  induction tr generalizing sg with
  | nil => rfl
  | cons a tr ih =>
    cases a with
    | byte b => exact ih _
    | newMsg id m => exact congrArg ((sg, m) :: ·) (ih _)
    | closed id => exact ih _
    | readScheduled => exact ih _

theorem consumed_newMsgs (id : ConId) (ms : List Message) :
    consumed (ms.map (Action.newMsg id)) = [] := by
  induction ms with
  | nil => rfl
  | cons m ms ih => exact ih

theorem delivered_newMsgs (id : ConId) (ms : List Message) :
    delivered (ms.map (Action.newMsg id)) = ms.map (id, ·) := by
  induction ms with
  | nil => rfl
  | cons m ms ih => exact congrArg ((id, m) :: ·) ih

theorem consumed_acts (id : ConId) (d : St NetWord) (w : List NetWord) :
    consumed (acts id d w) = w := by
  induction w generalizing d with
  | nil => rfl
  | cons b w ih =>
    show b :: consumed (_ ++ acts id (next codes d b).1 w) = b :: w
    rw [consumed_append, consumed_newMsgs, ih, List.nil_append]

theorem delivered_acts (id : ConId) (d : St NetWord) (w : List NetWord) :
    delivered (acts id d w) = (out codes d w).map (id, ·) := by
  induction w generalizing d with
  | nil => rfl
  | cons b w ih =>
    show delivered (_ ++ acts id (next codes d b).1 w) = _
    rw [delivered_append, delivered_newMsgs, ih, out, List.map_append]

theorem segments_acts (id : ConId) (d : St NetWord) (sg w : List NetWord) :
    segments sg (acts id d w) = cuts codes d sg w := by
  induction w generalizing d sg with
  | nil => rfl
  | cons b w ih =>
    show segments (sg ++ [b]) (_ ++ acts id (next codes d b).1 w) = _
    cases h : (next codes d b).2 with
    | none => rw [cuts_none codes d sg b w h]; exact ih _ _
    | some m =>
      rw [cuts_some codes d sg b w m h]
      exact congrArg ((sg ++ [b], m) :: ·) (ih _ _)

/-! ## decoding a word -/

/-- `r` comes from `s` by decoding the bytes `w` -/
structure Took (s : ConState) (w : List NetWord) (r : ConState) : Prop where
  dec : r.con.dec = run codes s.con.dec w
  acts : r.trace.filter Action.visible
    = s.trace.filter Action.visible ++ acts s.con.id s.con.dec w
  id : r.con.id = s.con.id
  buff : r.con.buff.length = s.con.buff.length
  opened : r.con.conOpen = true → s.con.conOpen = true

theorem Took.trans {s t r : ConState} {u v : List NetWord} (h1 : Took s u t) (h2 : Took t v r) :
    Took s (u ++ v) r where
  dec := by rw [h2.dec, h1.dec, run_append]
  acts := by rw [h2.acts, h1.acts, h1.id, h1.dec, acts_append, List.append_assoc]
  id := h2.id.trans h1.id
  buff := h2.buff.trans h1.buff
  opened := fun h => h1.opened (h2.opened h)

/-- a step that decodes nothing -/
theorem Took.of_quiet {s r : ConState} (hd : r.con.dec = s.con.dec)
    (ht : r.trace.filter Action.visible = s.trace.filter Action.visible)
    (hi : r.con.id = s.con.id) (hb : r.con.buff.length = s.con.buff.length)
    (ho : r.con.conOpen = true → s.con.conOpen = true) : Took s [] r where
  dec := hd
  acts := by rw [ht]; exact (List.append_nil _).symm
  id := hi
  buff := hb
  opened := ho

theorem Took.consumed {s r : ConState} {w : List NetWord} (h : Took s w r) :
    consumed r.trace = VoltNet.consumed s.trace ++ w := by
  have h1 := congrArg VoltNet.consumed h.acts
  rwa [consumed_visible, consumed_append, consumed_visible, consumed_acts] at h1

theorem Took.delivered {s r : ConState} {w : List NetWord} (h : Took s w r) :
    delivered r.trace = VoltNet.delivered s.trace ++ (out codes s.con.dec w).map (s.con.id, ·) := by
  have h1 := congrArg VoltNet.delivered h.acts
  rwa [delivered_visible, delivered_append, delivered_visible, delivered_acts] at h1

/-! ## the loop -/

theorem ConState.closeCon_noop (s : ConState) (ho : s.con.conOpen = false) : s.closeCon = s := by
  simp [ConState.closeCon, NetCon.closeCon, ho]

theorem ConState.closeCon_notify (s : ConState) (ho : s.con.conOpen = true) :
    s.closeCon = ⟨{ s.con with conOpen := false }, s.trace ++ [.closed s.con.id]⟩ := by
  simp [ConState.closeCon, NetCon.closeCon, ho]

theorem closeCon_took (s : ConState) : Took s [] s.closeCon := by
  cases ho : s.con.conOpen with
  | false =>
    rw [s.closeCon_noop ho]
    exact Took.of_quiet rfl rfl rfl rfl id
  | true =>
    rw [s.closeCon_notify ho]
    exact Took.of_quiet rfl (by simp [Action.visible]) rfl rfl (fun _ => ho)

/-- `close_con` leaves the chunk alone -/
theorem closeCon_rest (s : ConState) :
    s.closeCon.con.rest = s.con.rest ∧ s.closeCon.con.msgSize = s.con.msgSize ∧
      s.closeCon.con.buff = s.con.buff := by
  unfold ConState.closeCon NetCon.closeCon
  by_cases ho : s.con.conOpen
  · simp [ho, NetCon.rest]
  · simp [ho]

/-- one byte and the call it causes -/
def ConState.afterByte (cb : NewMsgCallback) (b : NetWord) (m : Option Message) (s : ConState) :
    ConState :=
  match m with
  | none => ⟨s.con, s.trace ++ [.byte b]⟩
  | some m => ConState.newMsg cb m ⟨s.con, s.trace ++ [.byte b]⟩

theorem decodeLoop_succ (cb : NewMsgCallback) (fuel : Nat) (s : ConState) (c : NetCon)
    (b : NetWord) (m : Option Message) (h : s.con.turn = .ok (c, some (b, m))) :
    ConState.decodeLoop cb (fuel + 1) s
      = ConState.decodeLoop cb fuel (ConState.afterByte cb b m ⟨c, s.trace⟩) := by
  rw [ConState.decodeLoop, h]
  cases m <;> rfl

theorem newMsg_eq (cb : NewMsgCallback) (m : Message) (s : ConState) :
    ConState.newMsg cb m s = ⟨s.con, s.trace ++ [.newMsg s.con.id m]⟩ ∨
      ConState.newMsg cb m s
        = ConState.closeCon ⟨s.con, s.trace ++ [.newMsg s.con.id m]⟩ := by
  unfold ConState.newMsg
  by_cases h : cb (s.trace ++ [.newMsg s.con.id m])
  · exact .inr (by rw [if_pos h])
  · exact .inl (by rw [if_neg h])

theorem afterByte_took (cb : NewMsgCallback) (s : ConState) (c : NetCon) (b : NetWord)
    (hd : c.dec = (next codes s.con.dec b).1) (hi : c.id = s.con.id)
    (hb : c.buff = s.con.buff) (ho : s.con.conOpen = true) :
    Took s [b] (ConState.afterByte cb b (next codes s.con.dec b).2 ⟨c, s.trace⟩) ∧
      (ConState.afterByte cb b (next codes s.con.dec b).2 ⟨c, s.trace⟩).con.rest = c.rest ∧
      (ConState.afterByte cb b (next codes s.con.dec b).2 ⟨c, s.trace⟩).con.msgSize
        = c.msgSize := by
  have hacts : acts s.con.id s.con.dec [b]
      = .byte b :: (next codes s.con.dec b).2.toList.map (Action.newMsg s.con.id) := by
    simp [acts]
  cases hm : (next codes s.con.dec b).2 with
  | none =>
    rw [hm] at hacts
    exact ⟨⟨hd, by simp [hacts, ConState.afterByte, Action.visible], hi, by rw [← hb]; rfl,
      fun _ => ho⟩, rfl, rfl⟩
  | some m =>
    rw [hm] at hacts
    let t : ConState := ⟨c, s.trace ++ [.byte b] ++ [.newMsg c.id m]⟩
    have ht : Took s [b] t :=
      ⟨hd, by simp [t, hacts, Action.visible, hi], hi, by rw [← hb], fun _ => ho⟩
    show Took s [b] (ConState.newMsg cb m ⟨c, s.trace ++ [.byte b]⟩) ∧ _ ∧ _
    rcases newMsg_eq cb m ⟨c, s.trace ++ [.byte b]⟩ with h | h
    · exact ⟨by rw [h]; exact ht, by show (ConState.newMsg cb m _).con.rest = _; rw [h],
        by show (ConState.newMsg cb m _).con.msgSize = _; rw [h]⟩
    · obtain ⟨h1, h2, -⟩ := closeCon_rest t
      exact ⟨by rw [h]; exact ht.trans (closeCon_took t),
        by show (ConState.newMsg cb m _).con.rest = _; rw [h]; exact h1,
        by show (ConState.newMsg cb m _).con.msgSize = _; rw [h]; exact h2⟩

/-- **The loop decodes a prefix of what is left of the chunk**, all of it when the connection
is still open afterwards. -/
theorem decodeLoop_took (cb : NewMsgCallback) (fuel : Nat) (s : ConState)
    (hlen : s.con.msgSize ≤ s.con.buff.length) (hfuel : s.con.rest.length < fuel) :
    ∃ r w, ConState.decodeLoop cb fuel s = .ok r ∧ Took s w r ∧ w <+: s.con.rest ∧
      (r.con.conOpen = true → w = s.con.rest ∧ r.con.currentIndex = 0) := by
  induction fuel generalizing s with
  | zero => omega
  | succ fuel ih =>
    cases ho : s.con.conOpen with
    | false =>
      refine ⟨s, [], ?_, Took.of_quiet rfl rfl rfl rfl id, List.nil_prefix, ?_⟩
      · rw [ConState.decodeLoop, turn_closed s.con ho]
      · intro h; rw [ho] at h; cases h
    | true =>
      cases hr : s.con.rest with
      | nil =>
        refine ⟨⟨{ s.con with currentIndex := 0 }, s.trace⟩, [], ?_,
          Took.of_quiet rfl rfl rfl rfl id, List.nil_prefix, fun _ => ⟨rfl, rfl⟩⟩
        rw [ConState.decodeLoop, turn_nil s.con ho hlen hr]
      | cons b bs =>
        obtain ⟨c, hturn, hd, hrest, -, hi, hb, hms⟩ := turn_cons s.con b bs ho hr
        obtain ⟨htook, hrest', hms'⟩ := afterByte_took cb s c b hd hi hb ho
        have hlen' := hlen
        rw [← hms, ← hms', ← htook.buff] at hlen'
        rw [hr, List.length_cons] at hfuel
        rw [decodeLoop_succ cb fuel s c b _ hturn]
        obtain ⟨r, w, hok, hw, hpre, hopen⟩ := ih _ hlen' (by rw [hrest', hrest]; omega)
        rw [hrest', hrest] at hpre hopen
        refine ⟨r, b :: w, hok, htook.trans hw, List.cons_prefix_cons.mpr ⟨rfl, hpre⟩, ?_⟩
        intro h
        rw [(hopen h).1]
        exact ⟨rfl, (hopen h).2⟩

/-- the connection is open, or its callback closed it when it was given a message -/
def Kept (cb : NewMsgCallback) (s : ConState) : Prop :=
  s.con.conOpen = true ∨ ((∃ tr, cb tr = true) ∧ delivered s.trace ≠ [])

theorem afterByte_kept (cb : NewMsgCallback) (b : NetWord) (m : Option Message) (s : ConState)
    (hs : s.con.conOpen = true) : Kept cb (ConState.afterByte cb b m s) := by
  cases m with
  | none => exact .inl hs
  | some m =>
    let t : ConState := ⟨s.con, s.trace ++ [.byte b] ++ [.newMsg s.con.id m]⟩
    show Kept cb (if cb t.trace then t.closeCon else t)
    by_cases h : cb t.trace
    · rw [if_pos h]
      refine .inr ⟨⟨_, h⟩, ?_⟩
      have hd : delivered t.trace ≠ [] := by simp [t, delivered]
      rw [(closeCon_took t).delivered]
      exact List.append_ne_nil_of_left_ne_nil hd _
    · rw [if_neg h]
      exact .inl hs

theorem decodeLoop_kept (cb : NewMsgCallback) (fuel : Nat) (s r : ConState) (hs : Kept cb s)
    (hlen : s.con.msgSize ≤ s.con.buff.length)
    (h : ConState.decodeLoop cb fuel s = .ok r) : Kept cb r := by
  induction fuel generalizing s with
  | zero => cases h
  | succ fuel ih =>
    cases ho : s.con.conOpen with
    | false =>
      rw [ConState.decodeLoop, turn_closed s.con ho] at h
      injection h with h
      rw [← h]
      exact hs
    | true =>
      cases hr : s.con.rest with
      | nil =>
        rw [ConState.decodeLoop, turn_nil s.con ho hlen hr] at h
        injection h with h
        rw [← h]
        exact .inl ho
      | cons b bs =>
        obtain ⟨c, hturn, hd, -, hco, hi, hb, hms⟩ := turn_cons s.con b bs ho hr
        obtain ⟨htook, -, hms'⟩ := afterByte_took cb s c b hd hi hb ho
        rw [decodeLoop_succ cb fuel s c b _ hturn] at h
        refine ih _ (afterByte_kept cb b _ _ hco) ?_ h
        rw [hms', hms, htook.buff]
        exact hlen

/-! ## completions -/

/-- between two reads: the buffer has its size, and an open connection has its cursor at the
front -/
structure Ready (s : ConState) : Prop where
  buff : s.con.buff.length = buffCapacity
  index : s.con.conOpen = true → s.con.currentIndex = 0

theorem ready_fresh (id : ConId) : Ready (ConState.fresh id) :=
  ⟨List.length_replicate, fun _ => rfl⟩

theorem fillBuff_length (c : NetCon) (chunk : List NetWord)
    (h : chunk.length ≤ c.buff.length) : (c.fillBuff chunk).buff.length = c.buff.length := by
  simp only [NetCon.fillBuff, List.length_append, List.length_drop]
  omega

/-- the state in which the loop starts on a chunk -/
def ConState.loaded (chunk : List NetWord) (s : ConState) : ConState :=
  ⟨{ (s.con.fillBuff chunk) with msgSize := chunk.length }, s.trace⟩

theorem loaded_took (chunk : List NetWord) (s : ConState)
    (h : chunk.length ≤ s.con.buff.length) : Took s [] (s.loaded chunk) :=
  Took.of_quiet rfl rfl rfl (fillBuff_length s.con chunk h) id

theorem loaded_rest (chunk : List NetWord) (s : ConState) (h : s.con.currentIndex = 0) :
    (s.loaded chunk).con.rest = chunk := by
  show ((s.con.fillBuff chunk).buff.take chunk.length).drop s.con.currentIndex = chunk
  rw [h, List.drop_zero]
  exact List.take_left

/-- the fuel of the loop is enough for any chunk -/
theorem loaded_fuel (chunk : List NetWord) (s : ConState) :
    (s.loaded chunk).con.rest.length < chunk.length + 1 := by
  show ((List.take chunk.length (s.loaded chunk).con.buff).drop s.con.currentIndex).length < _
  rw [List.length_drop, List.length_take]
  omega

theorem readCompletion_eq (cb : NewMsgCallback) (chunk : List NetWord) (s r : ConState)
    (h : ConState.decodeLoop cb (chunk.length + 1) (s.loaded chunk) = .ok r) :
    ConState.readCompletion cb chunk s
      = .ok (if r.con.conOpen then r.scheduleReadHandler else r) := by
  have h' : ConState.decodeLoop cb (chunk.length + 1)
      ⟨{ (s.con.fillBuff chunk) with msgSize := chunk.length }, s.trace⟩ = .ok r := h
  simp only [ConState.readCompletion, ConState.handleRead, h']
  by_cases ho : r.con.conOpen
  · rw [if_pos ho, if_pos ho]
  · rw [if_neg ho, if_neg ho]

theorem scheduleReadHandler_took (r : ConState) : Took r [] r.scheduleReadHandler :=
  Took.of_quiet rfl (by simp [ConState.scheduleReadHandler, Action.visible]) rfl rfl id

/-- **A read completes normally; it decodes a prefix of its chunk: nothing on a closed
connection, and all of it when the connection is still open afterwards.** -/
theorem readCompletion_took (cb : NewMsgCallback) (chunk : List NetWord) (s : ConState)
    (hs : Ready s) (hlen : chunk.length ≤ buffCapacity) :
    ∃ r w, ConState.readCompletion cb chunk s = .ok r ∧ Ready r ∧ Took s w r ∧ w <+: chunk ∧
      (s.con.conOpen = false → w = []) ∧ (r.con.conOpen = true → w = chunk) := by
  have hle : chunk.length ≤ s.con.buff.length := by rw [hs.buff]; exact hlen
  have hload := loaded_took chunk s hle
  have hbuff : (s.loaded chunk).con.buff.length = buffCapacity := hload.buff.trans hs.buff
  cases ho : s.con.conOpen with
  | false =>
    have hloop : ConState.decodeLoop cb (chunk.length + 1) (s.loaded chunk)
        = .ok (s.loaded chunk) := by
      rw [ConState.decodeLoop, turn_closed (s.loaded chunk).con ho]
    have hnot : ¬ (s.loaded chunk).con.conOpen = true := fun h => by
      rw [hload.opened h] at ho; cases ho
    refine ⟨s.loaded chunk, [], ?_, ⟨hbuff, fun h => absurd h hnot⟩, hload, List.nil_prefix,
      fun _ => rfl, fun h => absurd h hnot⟩
    rw [readCompletion_eq cb chunk s _ hloop, if_neg hnot]
  | true =>
    have hrest := loaded_rest chunk s (hs.index ho)
    obtain ⟨r, w, hok, htook, hpre, hopen⟩ := decodeLoop_took cb (chunk.length + 1)
      (s.loaded chunk) (by rw [hbuff]; exact hlen) (by rw [hrest]; omega)
    rw [hrest] at hpre hopen
    have hsr : Took s w r := hload.trans htook
    have hbr : r.con.buff.length = buffCapacity := hsr.buff.trans hs.buff
    rw [readCompletion_eq cb chunk s r hok]
    by_cases hor : r.con.conOpen
    · have hq := hsr.trans (scheduleReadHandler_took r)
      rw [List.append_nil] at hq
      refine ⟨r.scheduleReadHandler, w, by rw [if_pos hor], ⟨hbr, fun h => (hopen h).2⟩, hq, hpre,
        (fun h => by cases h), fun h => (hopen h).1⟩
    · exact ⟨r, w, by rw [if_neg hor], ⟨hbr, fun h => (hopen h).2⟩, hsr, hpre,
        (fun h => by cases h), fun h => (hopen h).1⟩

/-- **A list of reads completes normally; it decodes a prefix of the bytes delivered: nothing on
a closed connection, and all of them when the connection is still open afterwards.** -/
theorem feed_took (cb : NewMsgCallback) (chunks : List (List NetWord)) (s : ConState)
    (hs : Ready s) (hlen : ∀ chunk ∈ chunks, chunk.length ≤ buffCapacity) :
    ∃ r w, ConState.feed cb s chunks = .ok r ∧ Ready r ∧ Took s w r ∧ w <+: chunks.flatten ∧
      (s.con.conOpen = false → w = []) ∧ (r.con.conOpen = true → w = chunks.flatten) := by
  induction chunks generalizing s with
  | nil =>
    exact ⟨s, [], rfl, hs, Took.of_quiet rfl rfl rfl rfl id, List.nil_prefix, fun _ => rfl,
      fun _ => rfl⟩
  | cons chunk chunks ih =>
    obtain ⟨t, u, htok, ht, hst, hpre, hnil, hall⟩ := readCompletion_took cb chunk s hs
      (hlen chunk (List.mem_cons_self ..))
    obtain ⟨r, w, hok, hr, htr, hpre', hnil', hall'⟩ := ih t ht
      (fun c hc => hlen c (List.mem_cons_of_mem _ hc))
    have hfeed : ConState.feed cb s (chunk :: chunks) = .ok r := by
      rw [ConState.feed, htok]
      exact hok
    refine ⟨r, u ++ w, hfeed, hr, hst.trans htr, ?_, fun h => ?_, fun h => ?_⟩
    · rw [List.flatten_cons]
      cases ho : t.con.conOpen with
      | true => rw [hall ho]; exact (List.prefix_append_right_inj _).mpr hpre'
      | false =>
        rw [hnil' ho, List.append_nil]
        exact hpre.trans (List.prefix_append _ _)
    · have ho : t.con.conOpen = false := by
        cases hc : t.con.conOpen with
        | false => rfl
        | true => rw [hst.opened hc] at h; cases h
      rw [hnil h, hnil' ho]
      rfl
    · rw [hall (htr.opened h), hall' h, List.flatten_cons]

theorem readCompletion_kept (cb : NewMsgCallback) (chunk : List NetWord) (s r : ConState)
    (hs : Ready s) (hkept : Kept cb s) (hlen : chunk.length ≤ buffCapacity)
    (h : ConState.readCompletion cb chunk s = .ok r) : Kept cb r := by
  have hbuff : (s.loaded chunk).con.buff.length = buffCapacity :=
    (loaded_took chunk s (by rw [hs.buff]; exact hlen)).buff.trans hs.buff
  have hle : (s.loaded chunk).con.msgSize ≤ (s.loaded chunk).con.buff.length := by
    rw [hbuff]
    exact hlen
  obtain ⟨t, w, hok, -, -, -⟩ := decodeLoop_took cb (chunk.length + 1) (s.loaded chunk) hle
    (loaded_fuel chunk s)
  have ht := decodeLoop_kept cb _ (s.loaded chunk) t hkept hle hok
  rw [readCompletion_eq cb chunk s t hok] at h
  cases ho : t.con.conOpen with
  | true =>
    rw [if_pos ho] at h
    injection h with h
    rw [← h]
    exact .inl ho
  | false =>
    rw [if_neg (by rw [ho]; exact Bool.false_ne_true)] at h
    injection h with h
    rw [← h]
    exact ht

theorem feed_kept (cb : NewMsgCallback) (chunks : List (List NetWord)) (s r : ConState)
    (hs : Ready s) (hkept : Kept cb s) (hlen : ∀ chunk ∈ chunks, chunk.length ≤ buffCapacity)
    (h : ConState.feed cb s chunks = .ok r) : Kept cb r := by
  induction chunks generalizing s with
  | nil =>
    injection h with h
    rw [← h]
    exact hkept
  | cons chunk chunks ih =>
    have hle := hlen chunk (List.mem_cons_self ..)
    obtain ⟨t, w, htok, ht, -⟩ := readCompletion_took cb chunk s hs hle
    rw [ConState.feed, htok] at h
    exact ih t ht (readCompletion_kept cb chunk s t hs hkept hle htok)
      (fun c hc => hlen c (List.mem_cons_of_mem _ hc)) h

/-- a connection whose callback never closes it stays open -/
theorem feed_open (cb : NewMsgCallback) (hcb : ∀ tr, cb tr = false)
    (chunks : List (List NetWord)) (s r : ConState) (hs : Ready s)
    (hopen : s.con.conOpen = true) (hlen : ∀ chunk ∈ chunks, chunk.length ≤ buffCapacity)
    (h : ConState.feed cb s chunks = .ok r) : r.con.conOpen = true := by
  rcases feed_kept cb chunks s r hs (.inl hopen) hlen h with ho | ⟨⟨tr, htr⟩, -⟩
  · exact ho
  · rw [hcb tr] at htr
    cases htr

end VoltNet
