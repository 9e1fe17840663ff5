import VoltNet.Framing.Streams
import VoltNet.Lib.Runs

/-!
# Nothing after `close_con`

Runs of the serialised events of one connection: completions of its reads, calls of `close_con`
between them, and further calls of `set_new_msg_callback`.

* `ReadRun`, `readStep`      the connection with the number of reads that have completed;
* `ClosedLast`               the call of the closed callback is the last thing in a trace;
* `turn_open`                a turn of the loop neither opens nor closes the connection;
* `Steady`                   what the pieces of a handler leave alone;
* `handleRead_reading`       a handler schedules one read if it leaves the connection open, else none;
* `readRun_closedLast`       nothing follows the close, and there is at most one read outstanding.

The flag is cleared and the closed callback is called in one step, so the place of the call in the
trace is the place where the connection was closed, also inside a decoding loop.
-/

namespace VoltNet
open Runs

/-! ## runs of events -/

/-- reads that have been started -/
def scheduled (tr : List Action) : Nat := tr.count .readScheduled

theorem scheduled_concat (tr : List Action) (a : Action) :
    scheduled (tr ++ [a]) = scheduled tr + if a = .readScheduled then 1 else 0 := by
  unfold scheduled
  rw [List.count_append, List.count_singleton]
  simp only [beq_iff_eq]

inductive ReadEvent where
  /-- the outstanding read completes, with `chunk` at the front of `buff`; `cb` is what the message
  callback does during this completion -/
  | complete (cb : NewMsgCallback) (err : ErrorCode) (chunk : List NetWord)
  | close
  | setNewMsgCallback

structure ReadRun where
  state : ConState
  completed : Nat

def ReadRun.start (id : ConId) : ReadRun := ⟨ConState.fresh id, 0⟩

/-- started and not completed -/
def ReadRun.outstanding (s : ReadRun) : Nat := scheduled s.state.trace - s.completed

def readStep (s : ReadRun) : ReadEvent → Option ReadRun
  | .complete cb err chunk =>
    if s.completed < scheduled s.state.trace ∧ chunk.length ≤ buffCapacity then
      match ConState.handleRead cb err chunk.length
          ⟨s.state.con.fillBuff chunk, s.state.trace⟩ with
      | .ok r => some ⟨r, s.completed + 1⟩
      | .error _ => none
    else none
  | .close => some ⟨s.state.closeCon, s.completed⟩
  | .setNewMsgCallback => some ⟨s.state.setNewMsgCallback, s.completed⟩

/-! ## the close as the end of a trace -/

/-- an open connection has not called its closed callback, and for a closed one that call is the
last thing it did -/
structure ClosedLast (s : ConState) : Prop where
  opened : s.con.conOpen = true → ∀ i, .closed i ∉ s.trace
  closed : s.con.conOpen = false →
    ∃ tr i, s.trace = tr ++ [.closed i] ∧ ∀ j, .closed j ∉ tr

theorem ClosedLast.iff {s : ConState} (h : ClosedLast s) :
    s.con.conOpen = false ↔ ∃ i, .closed i ∈ s.trace := by
  constructor
  · intro hc
    obtain ⟨tr, i, htr, -⟩ := h.closed hc
    exact ⟨i, by simp [htr]⟩
  · rintro ⟨i, hi⟩
    cases ho : s.con.conOpen with
    | false => rfl
    | true => exact absurd hi (h.opened ho i)

theorem ClosedLast.nothing_after {s : ConState} (h : ClosedLast s) (pre post : List Action)
    (i : ConId) (htr : s.trace = pre ++ .closed i :: post) : post = [] := by
  have hc : s.con.conOpen = false := h.iff.mpr ⟨i, by simp [htr]⟩
  obtain ⟨tr, j, hlast, hnone⟩ := h.closed hc
  by_contra hne
  -- the call at `pre` then stands before the last action of the trace
  have hdrop := congrArg List.dropLast (htr.symm.trans hlast)
  rw [List.dropLast_concat, List.dropLast_append_cons, List.dropLast_cons_of_ne_nil hne] at hdrop
  exact hnone i (by simp [← hdrop])

/-- an action of an open connection -/
theorem ClosedLast.act {s : ConState} (h : ClosedLast s) (ho : s.con.conOpen = true) (c : NetCon)
    (hc : c.conOpen = true) (a : Action) (ha : ∀ i, a ≠ .closed i) :
    ClosedLast ⟨c, s.trace ++ [a]⟩ := by
  refine ⟨fun _ i hi => ?_, fun hf => ?_⟩
  · rcases List.mem_append.mp hi with hi | hi
    · exact h.opened ho i hi
    · exact ha i (List.mem_singleton.mp hi).symm
  · cases hc.symm.trans hf

/-! ## what the pieces of a handler leave alone -/

/-- from `s` to `r` no read is scheduled, the connection is not opened, and if it was closed then
nothing happens at all -/
structure Steady (s r : ConState) : Prop where
  scheduled : scheduled r.trace = scheduled s.trace
  isReading : r.con.isReading = s.con.isReading
  opened : r.con.conOpen = true → s.con.conOpen = true
  closedLast : ClosedLast s → ClosedLast r
  stays : s.con.conOpen = false → r.trace = s.trace

theorem Steady.trans {s t r : ConState} (h1 : Steady s t) (h2 : Steady t r) : Steady s r where
  scheduled := h2.scheduled.trans h1.scheduled
  isReading := h2.isReading.trans h1.isReading
  opened := fun h => h1.opened (h2.opened h)
  closedLast := fun h => h2.closedLast (h1.closedLast h)
  stays := fun h => by
    have ht : t.con.conOpen = false := by
      cases ho : t.con.conOpen with
      | false => rfl
      | true => exact absurd (h.symm.trans (h1.opened ho)) (by decide)
    rw [h2.stays ht, h1.stays h]

/-- a change of the other members -/
theorem Steady.of_con {s : ConState} {c : NetCon} (ho : c.conOpen = s.con.conOpen)
    (hr : c.isReading = s.con.isReading) : Steady s ⟨c, s.trace⟩ where
  scheduled := rfl
  isReading := hr
  opened := fun h => ho.symm.trans h
  closedLast := fun h => ⟨fun h' => h.opened (ho.symm.trans h'), fun h' => h.closed (ho.symm.trans h')⟩
  stays := fun _ => rfl

/-- one action of an open connection, other than a close or the start of a read -/
theorem Steady.of_act {s : ConState} {c : NetCon} (a : Action) (ho : s.con.conOpen = true)
    (hc : c.conOpen = true) (hr : c.isReading = s.con.isReading) (ha : ∀ i, a ≠ .closed i)
    (hne : a ≠ .readScheduled) : Steady s ⟨c, s.trace ++ [a]⟩ where
  scheduled := by rw [scheduled_concat, if_neg hne, Nat.add_zero]
  isReading := hr
  opened := fun _ => ho
  closedLast := fun h => h.act ho c hc a ha
  stays := fun h => absurd (h.symm.trans ho) (by decide)

theorem closeCon_steady (s : ConState) : Steady s s.closeCon := by
  cases ho : s.con.conOpen with
  | false =>
    rw [s.closeCon_noop ho]
    exact Steady.of_con rfl rfl
  | true =>
    rw [s.closeCon_notify ho]
    refine ⟨?_, rfl, fun _ => ho, fun hs => ⟨?_, ?_⟩, fun hf => ?_⟩
    · show scheduled (s.trace ++ [.closed s.con.id]) = scheduled s.trace
      rw [scheduled_concat, if_neg (by simp), Nat.add_zero]
    · intro hf
      cases hf
    · intro _
      exact ⟨s.trace, s.con.id, rfl, hs.opened ho⟩
    · cases ho.symm.trans hf

theorem newMsg_steady (cb : NewMsgCallback) (m : Message) (s : ConState)
    (ho : s.con.conOpen = true) : Steady s (ConState.newMsg cb m s) := by
  have hcall : Steady s ⟨s.con, s.trace ++ [.newMsg s.con.id m]⟩ :=
    Steady.of_act _ ho ho rfl (by simp) (by simp)
  rcases newMsg_eq cb m s with h | h
  · rw [h]
    exact hcall
  · rw [h]
    exact hcall.trans (closeCon_steady _)

theorem afterByte_steady (cb : NewMsgCallback) (b : NetWord) (m : Option Message) (s : ConState)
    (ho : s.con.conOpen = true) : Steady s (ConState.afterByte cb b m s) := by
  have hbyte : Steady s ⟨s.con, s.trace ++ [.byte b]⟩ :=
    Steady.of_act _ ho ho rfl (by simp) (by simp)
  cases m with
  | none => exact hbyte
  | some m => exact hbyte.trans (newMsg_steady cb m _ ho)

/-! ## the loop -/

theorem getNextByte_open (c c' : NetCon) (o : Option NetWord) (h : c.getNextByte = .ok (c', o)) :
    c'.conOpen = c.conOpen ∧ c'.isReading = c.isReading := by
  unfold NetCon.getNextByte at h
  split at h
  · obtain ⟨rfl, -⟩ := Prod.mk.inj (Except.ok.inj h)
    exact ⟨rfl, rfl⟩
  · split at h
    · cases h
    · obtain ⟨rfl, -⟩ := Prod.mk.inj (Except.ok.inj h)
      exact ⟨rfl, rfl⟩

/-- **A turn of the loop neither opens nor closes the connection, and takes a byte only when it is
open.** -/
theorem turn_open (c c' : NetCon) (o : Option (NetWord × Option Message))
    (h : c.turn = .ok (c', o)) : c'.conOpen = c.conOpen ∧ c'.isReading = c.isReading ∧
      (c.conOpen = false → o = none) := by
  cases ho : c.conOpen with
  | false =>
    rw [turn_closed c ho] at h
    obtain ⟨rfl, rfl⟩ := Prod.mk.inj (Except.ok.inj h)
    exact ⟨ho, rfl, fun _ => rfl⟩
  | true =>
    simp only [NetCon.turn, ho, if_true] at h
    split at h
    · cases h
    · rename_i hg
      obtain ⟨rfl, rfl⟩ := Prod.mk.inj (Except.ok.inj h)
      exact ⟨(getNextByte_open _ _ _ hg).1.trans ho, (getNextByte_open _ _ _ hg).2, fun _ => rfl⟩
    · rename_i hg
      obtain ⟨rfl, rfl⟩ := Prod.mk.inj (Except.ok.inj h)
      rw [handleByte_eq]
      exact ⟨(getNextByte_open _ _ _ hg).1.trans ho, (getNextByte_open _ _ _ hg).2,
        fun hf => by cases hf⟩

theorem decodeLoop_steady (cb : NewMsgCallback) (fuel : Nat) (s r : ConState)
    (h : ConState.decodeLoop cb fuel s = .ok r) : Steady s r := by
  induction fuel generalizing s with
  | zero => cases h
  | succ fuel ih =>
    cases ht : s.con.turn with
    | error f =>
      rw [ConState.decodeLoop, ht] at h
      cases h
    | ok p =>
      obtain ⟨c, o⟩ := p
      obtain ⟨ho, hr, hnone⟩ := turn_open s.con c o ht
      have hcon : Steady s ⟨c, s.trace⟩ := Steady.of_con ho hr
      cases o with
      | none =>
        rw [ConState.decodeLoop, ht] at h
        rw [← Except.ok.inj h]
        exact hcon
      | some bm =>
        obtain ⟨b, m⟩ := bm
        have hopen : c.conOpen = true := by
          cases hc : c.conOpen with
          | true => rfl
          | false => exact absurd (hnone (ho.symm.trans hc)) (by simp)
        rw [decodeLoop_succ cb fuel s c b m ht] at h
        exact (hcon.trans (afterByte_steady cb b m _ hopen)).trans (ih _ h)

/-! ## completions -/

/-- **A handler schedules one read if it leaves the connection open, and none otherwise.** -/
structure Reading (s r : ConState) : Prop where
  again : r.con.conOpen = true → scheduled r.trace = scheduled s.trace + 1
  last : r.con.conOpen = false → scheduled r.trace = scheduled s.trace
  isReading : r.con.isReading = s.con.isReading
  closedLast : ClosedLast s → ClosedLast r
  stays : s.con.conOpen = false → r.con.conOpen = false ∧ r.trace = s.trace

/-- a handler that ends with `close_con` -/
theorem closeCon_reading (s : ConState) : Reading s s.closeCon := by
  have hs := closeCon_steady s
  have hc := closeCon_closed s
  refine ⟨fun ho => ?_, fun _ => hs.scheduled, hs.isReading, hs.closedLast,
    fun hf => ⟨hc, hs.stays hf⟩⟩
  cases hc.symm.trans ho

/-- a handler that ends with the test of `is_open` before the next read -/
theorem schedule_reading (s r : ConState) (h : Steady s r) :
    Reading s (if r.con.conOpen then r.scheduleReadHandler else r) := by
  cases ho : r.con.conOpen with
  | true =>
    rw [if_pos rfl]
    refine ⟨fun _ => ?_, fun hf => ?_, h.isReading, fun hl => ?_, fun hf => ?_⟩
    · show scheduled (r.trace ++ [.readScheduled]) = scheduled s.trace + 1
      rw [scheduled_concat, if_pos rfl, h.scheduled]
    · cases ho.symm.trans hf
    · exact (h.closedLast hl).act ho r.con ho _ (by simp)
    · cases hf.symm.trans (h.opened ho)
  | false =>
    rw [if_neg (by decide)]
    refine ⟨fun ht => ?_, fun _ => h.scheduled, h.isReading, h.closedLast,
      fun hf => ⟨ho, h.stays hf⟩⟩
    cases ho.symm.trans ht

/-- every completion returns, whatever its error, its bytes and the callback -/
theorem handleRead_reading (cb : NewMsgCallback) (err : ErrorCode) (chunk : List NetWord)
    (s : ConState) (hs : Ready s) (hlen : chunk.length ≤ buffCapacity) :
    ∃ r, ConState.handleRead cb err chunk.length ⟨s.con.fillBuff chunk, s.trace⟩ = .ok r ∧
      Reading s r := by
  have hload : Steady s (s.loaded chunk) := Steady.of_con rfl rfl
  have hclose : Reading s (s.loaded chunk).closeCon := by
    have h := closeCon_reading (s.loaded chunk)
    exact ⟨h.again, h.last, h.isReading, fun hl => h.closedLast (hload.closedLast hl), h.stays⟩
  cases err with
  | success =>
    have hbuff : (s.loaded chunk).con.buff.length = buffCapacity :=
      (loaded_took chunk s (by rw [hs.buff]; exact hlen)).buff.trans hs.buff
    obtain ⟨r, w, hok, -⟩ := decodeLoop_took cb (chunk.length + 1) (s.loaded chunk)
      (by rw [hbuff]; exact hlen) (loaded_fuel chunk s)
    exact ⟨_, readCompletion_eq cb chunk s r hok,
      schedule_reading s r (hload.trans (decodeLoop_steady cb _ _ r hok))⟩
  | eof => exact ⟨_, rfl, hclose⟩
  | other => exact ⟨_, rfl, hclose⟩

/-! ## runs -/

structure ReadInv (s : ReadRun) : Prop where
  reached : Reached s.state
  isReading : s.state.con.isReading = true
  closedLast : ClosedLast s.state
  again : s.state.con.conOpen = true → scheduled s.state.trace = s.completed + 1
  le : s.completed ≤ scheduled s.state.trace
  one : scheduled s.state.trace ≤ s.completed + 1

theorem readInv_start (id : ConId) : ReadInv (ReadRun.start id) where
  reached := Reached.fresh id
  isReading := rfl
  closedLast := by
    refine ⟨fun _ i hi => ?_, fun hf => ?_⟩
    · cases List.mem_singleton.mp hi
    · cases hf
  again := fun _ => rfl
  le := Nat.zero_le _
  one := Nat.le_refl 1

/-- a completion that can happen -/
theorem readStep_complete (s : ReadRun) (hs : ReadInv s) (cb : NewMsgCallback) (err : ErrorCode)
    (chunk : List NetWord) (hout : s.completed < scheduled s.state.trace)
    (hlen : chunk.length ≤ buffCapacity) :
    ∃ r, readStep s (.complete cb err chunk) = some ⟨r, s.completed + 1⟩ ∧ Reading s.state r ∧
      ReadInv ⟨r, s.completed + 1⟩ := by
  obtain ⟨r, hok, hr⟩ := handleRead_reading cb err chunk s.state hs.reached.ready hlen
  have hone := hs.one
  refine ⟨r, ?_, hr, ?_⟩
  · simp only [readStep, if_pos (And.intro hout hlen), hok]
  · refine ⟨Reached.read cb err chunk s.state r hs.reached hlen hok, hr.isReading.trans hs.isReading,
      hr.closedLast hs.closedLast, fun ho => ?_, ?_, ?_⟩
    · have h := hr.again ho
      show scheduled r.trace = s.completed + 1 + 1
      omega
    all_goals
      show _ ≤ _
      cases ho : r.con.conOpen with
      | true =>
        have h := hr.again ho
        simp only
        omega
      | false =>
        have h := hr.last ho
        simp only
        omega

theorem setNewMsgCallback_reading (s : ConState) (h : s.con.isReading = true) :
    s.setNewMsgCallback = s := by simp [ConState.setNewMsgCallback, h]

/-- what one event does -/
theorem readStep_inv (s t : ReadRun) (e : ReadEvent) (hs : ReadInv s) (h : readStep s e = some t) :
    ReadInv t ∧ (s.state.con.conOpen = false →
      t.state.con.conOpen = false ∧ t.state.trace = s.state.trace) := by
  cases e with
  | complete cb err chunk =>
    have hg : s.completed < scheduled s.state.trace ∧ chunk.length ≤ buffCapacity := by
      by_contra hn
      simp [readStep, if_neg hn] at h
    obtain ⟨r, hok, hr, hinv⟩ := readStep_complete s hs cb err chunk hg.1 hg.2
    rw [← Option.some.inj (hok.symm.trans h)]
    exact ⟨hinv, hr.stays⟩
  | close =>
    have hc := closeCon_closed s.state
    have hk := closeCon_steady s.state
    have hle := hs.le
    have hone := hs.one
    rw [← Option.some.inj h]
    refine ⟨⟨Reached.close _ hs.reached, hk.isReading.trans hs.isReading,
      hk.closedLast hs.closedLast, fun ho => ?_, ?_, ?_⟩, fun hf => ⟨hc, hk.stays hf⟩⟩
    · cases hc.symm.trans ho
    · show s.completed ≤ scheduled s.state.closeCon.trace
      rw [hk.scheduled]
      exact hle
    · show scheduled s.state.closeCon.trace ≤ s.completed + 1
      rw [hk.scheduled]
      exact hone
  | setNewMsgCallback =>
    simp only [readStep, setNewMsgCallback_reading s.state hs.isReading] at h
    rw [← Option.some.inj h]
    exact ⟨hs, fun hf => ⟨hf, rfl⟩⟩

theorem readInv_reached {id : ConId} {s : ReadRun}
    (h : Reach readStep (fun _ _ => True) (ReadRun.start id) s) : ReadInv s :=
  h.invariant (readInv_start id) fun s e t hs _ hstep => (readStep_inv s t e hs hstep).1

/-- a closed connection does nothing more -/
theorem closed_stays {s t : ReadRun} (hs : ReadInv s) (hc : s.state.con.conOpen = false)
    (h : Reach readStep (fun _ _ => True) s t) :
    t.state.con.conOpen = false ∧ t.state.trace = s.state.trace := by
  let I : ReadRun → Prop := fun t =>
    ReadInv t ∧ t.state.con.conOpen = false ∧ t.state.trace = s.state.trace
  have hstep : ∀ t e u, I t → True → readStep t e = some u → I u := by
    intro t e u ht _ hu
    obtain ⟨hinv, hstay⟩ := readStep_inv t u e ht.1 hu
    obtain ⟨hf, htr⟩ := hstay ht.2.1
    exact ⟨hinv, hf, htr.trans ht.2.2⟩
  have hI : I t := h.invariant ⟨hs, hc, rfl⟩ hstep
  exact hI.2

/-- **Nothing is delivered after the close.**  In every run, the call of the closed callback is
made exactly when the connection is closed and is the last thing it ever does: no message and no
scheduled read follow it, inside the handler in which it was closed or in later ones.  At most one
read is outstanding, exactly one while the connection is open, and every completion returns. -/
theorem readRun_closedLast (id : ConId) (s : ReadRun)
    (h : Reach readStep (fun _ _ => True) (ReadRun.start id) s) :
    (s.state.con.conOpen = false ↔ ∃ i, .closed i ∈ s.state.trace) ∧
      (∀ pre i post, s.state.trace = pre ++ .closed i :: post → post = []) ∧
      (s.state.con.conOpen = false → ∀ t, Reach readStep (fun _ _ => True) s t →
        t.state.con.conOpen = false ∧ t.state.trace = s.state.trace) ∧
      s.outstanding ≤ 1 ∧ (s.state.con.conOpen = true → s.outstanding = 1) ∧
      ∀ cb err chunk, 0 < s.outstanding → chunk.length ≤ buffCapacity →
        (readStep s (.complete cb err chunk)).isSome := by
  have hs := readInv_reached h
  have hone := hs.one
  refine ⟨hs.closedLast.iff, fun pre i post htr => hs.closedLast.nothing_after pre post i htr,
    fun hc t ht => closed_stays hs hc ht, ?_, fun ho => ?_, fun cb err chunk hout hlen => ?_⟩
  · unfold ReadRun.outstanding
    omega
  · have hagain := hs.again ho
    unfold ReadRun.outstanding
    omega
  · unfold ReadRun.outstanding at hout
    obtain ⟨r, hok, -⟩ := readStep_complete s hs cb err chunk (by omega) hlen
    rw [hok]
    rfl

/-- the connection is closed while its read is outstanding, and the read then completes with a
frame -/
theorem readRun_closedLast_queued :
    let s : ReadRun := ⟨(ConState.fresh 5).closeCon, 0⟩
    (s.state.con.conOpen = false ↔ ∃ i, .closed i ∈ s.state.trace) ∧
      (∀ pre i post, s.state.trace = pre ++ .closed i :: post → post = []) ∧
      (s.state.con.conOpen = false → ∀ t, Reach readStep (fun _ _ => True) s t →
        t.state.con.conOpen = false ∧ t.state.trace = s.state.trace) ∧
      s.outstanding ≤ 1 ∧ (s.state.con.conOpen = true → s.outstanding = 1) ∧
      ∀ cb err chunk, 0 < s.outstanding → chunk.length ≤ buffCapacity →
        (readStep s (.complete cb err chunk)).isSome :=
  readRun_closedLast 5 _ ((Reach.refl _).next .close trivial rfl)

end VoltNet
