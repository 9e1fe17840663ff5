import VoltNet.Framing.Decode
import VoltNet.Lib.Runs
import VoltNet.Network.Pool

/-!
# From the sockets to `new_msg_callback`

Any number of registered connections decode their streams while one thread calls
`process_new_msgs`; they meet in the receive pool.  A step is one completed read, one turn of a
decoding loop with the submission it causes, or one step of `notify_listeners`, so handlers
interleave at every point where they let go of the network lock.

* `Source`                   one connection with the bytes that its peer has sent;
* `netStep`                  the steps of the whole;
* `InOrder`                  the invariant: what was handed on, popped, or is queued for an id is
                             what the decoder of that id has emitted;
* `delivery_perConnection`   what the callback receives with an id is a prefix of the payloads
                             framed in the stream of that id, and all that was read when nothing
                             is deferred.
-/

namespace VoltNet
open Stuffing Runs

/-! ## one connection -/

structure Source where
  con : ConState
  /-- its `handle_read` is running -/
  inLoop : Bool
  /-- bytes that no read has taken from the socket -/
  unread : List NetWord
deriving DecidableEq

def Source.new (id : ConId) (bytes : List NetWord) : Source := ⟨ConState.fresh id, false, bytes⟩

/-- the outstanding read completes with `n` bytes -/
def Source.complete (n : Nat) (s : Source) : Source :=
  ⟨s.con.loaded (s.unread.take n), true, s.unread.drop n⟩

/-- one turn of the loop, and what it passes to `new_msg_callback`; the turn that ends the loop
schedules the next read -/
def Source.turn (s : Source) : Except Fault (Source × Option (ConId × Message)) :=
  match s.con.con.turn with
  | .error f => .error f
  | .ok (c, none) =>
    let r : ConState := ⟨c, s.con.trace⟩
    .ok (⟨if c.conOpen then r.scheduleReadHandler else r, false, s.unread⟩, none)
  | .ok (c, some (b, m)) =>
    .ok (⟨ConState.afterByte (fun _ => false) b m ⟨c, s.con.trace⟩, true, s.unread⟩,
      m.map (c.id, ·))

/-! ## the network -/

structure NetState where
  /-- registered connections by their id -/
  sources : ConId → Source
  pool : MsgRecPool
  /-- the thread that calls `process_new_msgs` -/
  drain : Drain
  /-- calls of `new_msg_callback` -/
  received : List (ConId × Message)
  /-- something threw, or popped an empty queue -/
  fault : Bool

inductive NetLabel where
  | complete (k : ConId) (n : Nat)
  | turn (k : ConId)
  | processNewMsgs
  | drain

def NetState.init (payloads : ConId → List (List NetWord)) (defer : Bool) : NetState where
  sources k := Source.new k (encodeAll (payloads k))
  pool := MsgRecPool.new defer
  drain := .idle
  received := []
  fault := false

/-- the callback that `add_connection` installs -/
def NetState.submit (m : Option (ConId × Message)) (s : NetState) : NetState :=
  match m with
  | none => s
  | some (id, msg) =>
    { s with
      pool := (s.pool.submitMessage id msg).1
      received := s.received ++ (s.pool.submitMessage id msg).2 }

def netStep (ids : List ConId) (s : NetState) : NetLabel → Option NetState
  | .complete k n =>
    if k ∈ ids ∧ (s.sources k).inLoop = false ∧ n ≤ buffCapacity ∧
        n ≤ (s.sources k).unread.length then
      some { s with sources := Function.update s.sources k ((s.sources k).complete n) }
    else none
  | .turn k =>
    if k ∈ ids ∧ (s.sources k).inLoop = true then
      match (s.sources k).turn with
      | .error _ => some { s with fault := true }
      | .ok (source, m) =>
        some (NetState.submit m { s with sources := Function.update s.sources k source })
    else none
  | .processNewMsgs =>
    if s.drain = .idle then some { s with drain := Drain.start s.pool } else none
  | .drain =>
    if s.drain = .idle then none
    else
      match s.drain.advance s.pool with
      | none => some { s with fault := true }
      | some (drain, pool, calls) =>
        some { s with drain := drain, pool := pool, received := s.received ++ calls }

/-- the messages of one id -/
def forId (k : ConId) (l : List (ConId × Message)) : List Message :=
  (l.filter fun x => x.1 = k).map Prod.snd

theorem forId_append (k : ConId) (l l' : List (ConId × Message)) :
    forId k (l ++ l') = forId k l ++ forId k l' := by
  rw [forId, List.filter_append, List.map_append]
  rfl

theorem forId_self (k : ConId) (l : List (ConId × Message)) (h : ∀ x ∈ l, x.1 = k) :
    forId k l = l.map Prod.snd := by
  rw [forId, List.filter_eq_self.mpr fun x hx => decide_eq_true (h x hx)]

theorem forId_other (k : ConId) (l : List (ConId × Message)) (h : ∀ x ∈ l, x.1 ≠ k) :
    forId k l = [] := by
  rw [forId, List.filter_eq_nil_iff.mpr fun x hx => by simpa using h x hx]
  rfl

/-! ## the invariant of a connection -/

/-- bytes of the current chunk that the loop has yet to take -/
def Source.left (s : Source) : List NetWord := if s.inLoop then s.con.con.rest else []

structure Source.Ok (k : ConId) (ps : List (List NetWord)) (s : Source) : Prop where
  took : Took (ConState.fresh k) (consumed s.con.trace) s.con
  opened : s.con.con.conOpen = true
  stream : consumed s.con.trace ++ (s.left ++ s.unread) = encodeAll ps
  cursor : s.inLoop = false → s.con.con.currentIndex = 0
  size : s.inLoop = true → s.con.con.msgSize ≤ buffCapacity

theorem Source.ok_new (k : ConId) (ps : List (List NetWord)) :
    (Source.new k (encodeAll ps)).Ok k ps where
  took := Took.of_quiet rfl rfl rfl rfl id
  opened := rfl
  stream := rfl
  cursor _ := rfl
  size h := by cases h

theorem Source.Ok.buff {k : ConId} {ps : List (List NetWord)} {s : Source} (h : s.Ok k ps) :
    s.con.con.buff.length = buffCapacity := h.took.buff.trans (ready_fresh k).buff

theorem Source.ok_complete (k : ConId) (ps : List (List NetWord)) (n : Nat) (s : Source)
    (h : s.Ok k ps) (hidle : s.inLoop = false) (hn : n ≤ buffCapacity)
    (hle : n ≤ s.unread.length) : (s.complete n).Ok k ps := by
  have hlen : (s.unread.take n).length = n := by rw [List.length_take, Nat.min_eq_left hle]
  have hload := loaded_took (s.unread.take n) s.con (by rw [hlen, h.buff]; exact hn)
  have hleft : (s.complete n).left = s.unread.take n := loaded_rest _ s.con (h.cursor hidle)
  have hold : s.left = [] := by rw [Source.left, hidle]; rfl
  have hstream := h.stream
  rw [hold, List.nil_append] at hstream
  have htook := h.took.trans hload
  rw [List.append_nil] at htook
  refine ⟨htook, h.opened, ?_, (fun hl => by cases hl), fun _ => ?_⟩
  · rw [hleft]
    show consumed s.con.trace ++ (s.unread.take n ++ s.unread.drop n) = encodeAll ps
    rw [List.take_append_drop, hstream]
  · show (s.unread.take n).length ≤ buffCapacity
    rw [hlen]
    exact hn

/-- **One turn of a loop** never throws, keeps the invariant, and hands on what it decodes under
the id of the connection. -/
theorem Source.ok_turn (k : ConId) (ps : List (List NetWord)) (s : Source) (h : s.Ok k ps)
    (hloop : s.inLoop = true) :
    ∃ s' m, s.turn = .ok (s', m) ∧ s'.Ok k ps ∧ (∀ x ∈ m, x.1 = k) ∧
      delivered s'.con.trace = delivered s.con.trace ++ m.toList := by
  have hid : s.con.con.id = k := h.took.id
  have hsize : s.con.con.msgSize ≤ s.con.con.buff.length := by
    rw [h.buff]
    exact h.size hloop
  have hleft : s.left = s.con.con.rest := by rw [Source.left, hloop]; rfl
  cases hr : s.con.con.rest with
  | nil =>
    have hturn := turn_nil s.con.con h.opened hsize hr
    let c : NetCon := { s.con.con with currentIndex := 0 }
    let r : ConState := ⟨c, s.con.trace⟩
    have hq : Took s.con [] r.scheduleReadHandler :=
      (Took.of_quiet rfl rfl rfl rfl id : Took s.con [] r).trans (scheduleReadHandler_took r)
    have htrace : consumed r.scheduleReadHandler.trace = consumed s.con.trace := by
      rw [hq.consumed, List.append_nil]
    refine ⟨⟨r.scheduleReadHandler, false, s.unread⟩, none, ?_, ?_, (fun x hx => by cases hx), ?_⟩
    · rw [Source.turn, hturn]
      show Except.ok (Source.mk (if s.con.con.conOpen then _ else _) false s.unread, none) = _
      rw [if_pos h.opened]
    · refine ⟨?_, h.opened, ?_, fun _ => rfl, (fun hl => by cases hl)⟩
      · rw [htrace]
        have ht := h.took.trans hq
        rwa [List.append_nil] at ht
      · have hstream := h.stream
        rw [hleft, hr] at hstream
        rw [htrace]
        exact hstream
    · exact hq.delivered
  | cons b bs =>
    obtain ⟨c, hturn, hd, hrest, hco, hi, hb, hms⟩ := turn_cons s.con.con b bs h.opened hr
    obtain ⟨htook, hrest', hms'⟩ := afterByte_took (fun _ => false) s.con c b hd hi hb h.opened
    let r := ConState.afterByte (fun _ => false) b (next codes s.con.con.dec b).2 ⟨c, s.con.trace⟩
    have hopen : r.con.conOpen = true :=
      (afterByte_kept (fun _ => false) b _ ⟨c, s.con.trace⟩ hco).resolve_right
        fun ⟨⟨_, hf⟩, _⟩ => by cases hf
    refine ⟨⟨r, true, s.unread⟩, (next codes s.con.con.dec b).2.map (c.id, ·), ?_, ?_, ?_, ?_⟩
    · rw [Source.turn, hturn]
    · refine ⟨?_, hopen, ?_, (fun hl => by cases hl), fun _ => ?_⟩
      · rw [htook.consumed]
        exact h.took.trans htook
      · have hstream := h.stream
        rw [hleft, hr] at hstream
        show consumed r.trace ++ (r.con.rest ++ s.unread) = encodeAll ps
        rw [htook.consumed, hrest', hrest, List.append_assoc]
        exact hstream
      · show r.con.msgSize ≤ buffCapacity
        rw [hms', hms]
        exact h.size hloop
    · intro x hx
      obtain ⟨m, -, rfl⟩ := Option.map_eq_some_iff.mp hx
      exact hi.trans hid
    · show delivered r.trace = _
      rw [htook.delivered, hi]
      cases hm : (next codes s.con.con.dec b).2 with
      | none => simp [out, hm]
      | some m => simp [out, hm]

/-! ## the invariant of the network -/

/-- everything decoded, in the order in which it was or will be handed on -/
def NetState.items (s : NetState) : List (ConId × Message) :=
  s.received ++ (s.drain.held ++ s.pool.queued)

structure InOrder (ids : List ConId) (payloads : ConId → List (List NetWord)) (defer : Bool)
    (s : NetState) : Prop where
  sources : ∀ k, (s.sources k).Ok k (payloads k)
  paired : s.pool.Paired
  popping : s.drain = .pop → s.pool.recMsgVec ≠ []
  mode : s.pool.deferMsgSignal = defer
  immediate : s.pool.deferMsgSignal = false → s.drain = .idle ∧ s.pool.queued = []
  order : ∀ k, forId k s.items = (delivered (s.sources k).con.trace).map Prod.snd
  known : ∀ x ∈ s.items, x.1 ∈ ids
  fault : s.fault = false

theorem inOrder_init (ids : List ConId) (payloads : ConId → List (List NetWord)) (defer : Bool) :
    InOrder ids payloads defer (NetState.init payloads defer) where
  sources k := Source.ok_new k (payloads k)
  paired := rfl
  popping h := by cases h
  mode := rfl
  immediate _ := ⟨rfl, rfl⟩
  order _ := rfl
  known x hx := by cases hx
  fault := rfl

theorem inOrder_complete (ids : List ConId) (payloads : ConId → List (List NetWord)) (defer : Bool)
    (s : NetState) (k : ConId) (n : Nat) (h : InOrder ids payloads defer s)
    (hidle : (s.sources k).inLoop = false) (hn : n ≤ buffCapacity)
    (hle : n ≤ (s.sources k).unread.length) :
    InOrder ids payloads defer
      { s with sources := Function.update s.sources k ((s.sources k).complete n) } where
  sources := by
    apply (Function.forall_update_iff s.sources fun j (x : Source) => x.Ok j (payloads j)).mpr
    exact ⟨Source.ok_complete k (payloads k) n (s.sources k) (h.sources k) hidle hn hle,
      fun j _ => h.sources j⟩
  paired := h.paired
  popping := h.popping
  mode := h.mode
  immediate := h.immediate
  order := by
    apply (Function.forall_update_iff s.sources fun j (x : Source) =>
      forId j s.items = (delivered x.con.trace).map Prod.snd).mpr
    exact ⟨h.order k, fun j _ => h.order j⟩
  known := h.known
  fault := h.fault

/-- a submission puts its message behind everything decoded before -/
theorem items_submit (m : Option (ConId × Message)) (s : NetState) (hp : s.pool.Paired)
    (himm : s.pool.deferMsgSignal = false → s.drain = .idle ∧ s.pool.queued = []) :
    (NetState.submit m s).items = s.items ++ m.toList := by
  cases m with
  | none => exact (List.append_nil _).symm
  | some x =>
    obtain ⟨id, msg⟩ := x
    show s.received ++ (s.pool.submitMessage id msg).2
      ++ (s.drain.held ++ (s.pool.submitMessage id msg).1.queued) = _
    obtain ⟨hdef, hnow⟩ := submit_queued id msg s.pool hp
    cases hd : s.pool.deferMsgSignal with
    | true =>
      obtain ⟨h1, h2⟩ := hdef hd
      rw [h1, h2, List.append_nil, ← List.append_assoc s.drain.held, ← List.append_assoc]
      rfl
    | false =>
      obtain ⟨hidle, hq⟩ := himm hd
      rw [hnow hd, NetState.items, hq, hidle]
      show s.received ++ [(id, msg)] ++ [] = s.received ++ [] ++ [(id, msg)]
      rw [List.append_nil, List.append_nil]

theorem submit_pool (m : Option (ConId × Message)) (s : NetState) (hp : s.pool.Paired) :
    (NetState.submit m s).pool.Paired ∧
      (NetState.submit m s).pool.deferMsgSignal = s.pool.deferMsgSignal ∧
      (s.pool.recMsgVec ≠ [] → (NetState.submit m s).pool.recMsgVec ≠ []) := by
  cases m with
  | none => exact ⟨hp, rfl, id⟩
  | some x =>
    obtain ⟨id, msg⟩ := x
    exact ⟨submit_paired id msg s.pool hp, submit_defer id msg s.pool, submit_ne_nil id msg s.pool⟩

theorem inOrder_turn (ids : List ConId) (payloads : ConId → List (List NetWord)) (defer : Bool)
    (s : NetState) (k : ConId) (hk : k ∈ ids) (source : Source) (m : Option (ConId × Message))
    (h : InOrder ids payloads defer s) (hsource : source.Ok k (payloads k)) (hm : ∀ x ∈ m, x.1 = k)
    (hdel : delivered source.con.trace = delivered (s.sources k).con.trace ++ m.toList) :
    InOrder ids payloads defer
      (NetState.submit m { s with sources := Function.update s.sources k source }) := by
  let u : NetState := { s with sources := Function.update s.sources k source }
  have hitems : (NetState.submit m u).items = s.items ++ m.toList :=
    items_submit m u h.paired h.immediate
  have hsources : (NetState.submit m u).sources = Function.update s.sources k source := by
    cases m <;> rfl
  have hdrain : (NetState.submit m u).drain = s.drain := by cases m <;> rfl
  have hm' : ∀ x ∈ m.toList, x.1 = k := fun x hx => hm x (Option.mem_toList.mp hx)
  obtain ⟨hp, hd, hne⟩ := submit_pool m u h.paired
  refine ⟨?_, hp, fun hpop => ?_, hd.trans h.mode, fun hi => ?_, ?_, fun x hx => ?_, ?_⟩
  · rw [hsources]
    apply (Function.forall_update_iff s.sources fun j (x : Source) => x.Ok j (payloads j)).mpr
    exact ⟨hsource, fun j _ => h.sources j⟩
  · exact hne (h.popping (hdrain ▸ hpop))
  · rw [hd] at hi
    obtain ⟨hidle, hq⟩ := h.immediate hi
    refine ⟨hdrain.trans hidle, ?_⟩
    cases m with
    | none => exact hq
    | some x =>
      show (s.pool.submitMessage x.1 x.2).1.queued = []
      rw [(submit_queued x.1 x.2 s.pool h.paired).2 hi]
      exact hq
  · rw [hitems, hsources]
    apply (Function.forall_update_iff s.sources fun j (x : Source) =>
      forId j (s.items ++ m.toList) = (delivered x.con.trace).map Prod.snd).mpr
    refine ⟨?_, fun j hj => ?_⟩
    · rw [forId_append, h.order k, hdel, List.map_append, forId_self k m.toList hm']
    · rw [forId_append, h.order j, forId_other j m.toList fun x hx e => hj (e ▸ hm' x hx),
        List.append_nil]
  · rw [hitems, List.mem_append] at hx
    rcases hx with hx | hx
    · exact h.known x hx
    · rw [hm' x hx]
      exact hk
  · cases m with
    | none => exact h.fault
    | some x => exact h.fault

theorem inOrder_start (ids : List ConId) (payloads : ConId → List (List NetWord)) (defer : Bool)
    (s : NetState) (h : InOrder ids payloads defer s) (hidle : s.drain = .idle) :
    InOrder ids payloads defer { s with drain := Drain.start s.pool } := by
  have hheld : (Drain.start s.pool).held = s.drain.held := by
    rw [hidle, Drain.start]
    split <;> rfl
  have hitems : NetState.items { s with drain := Drain.start s.pool } = s.items := by
    show s.received ++ ((Drain.start s.pool).held ++ s.pool.queued) = _
    rw [hheld]
    rfl
  refine ⟨h.sources, h.paired, fun hpop => ?_, h.mode, fun hi => ⟨?_, (h.immediate hi).2⟩,
    fun k => ?_, fun x hx => ?_, h.fault⟩
  · have hpop : Drain.start s.pool = .pop := hpop
    rw [Drain.start] at hpop
    split at hpop <;> cases hpop
  · show Drain.start s.pool = .idle
    rw [Drain.start, if_neg (by rw [show s.pool.deferMsgSignal = false from hi]; decide)]
  · rw [hitems]
    exact h.order k
  · rw [hitems] at hx
    exact h.known x hx

theorem inOrder_drain (ids : List ConId) (payloads : ConId → List (List NetWord)) (defer : Bool)
    (s : NetState) (drain : Drain) (pool : MsgRecPool) (calls : List (ConId × Message))
    (h : InOrder ids payloads defer s) (hbusy : s.drain ≠ .idle)
    (hadv : s.drain.advance s.pool = some (drain, pool, calls)) :
    InOrder ids payloads defer
      { s with drain := drain, pool := pool, received := s.received ++ calls } := by
  obtain ⟨hq, hp, hd, hpop⟩ := advance_queued s.drain drain s.pool pool calls h.paired hadv
  have hitems : NetState.items
      { s with drain := drain, pool := pool, received := s.received ++ calls } = s.items := by
    show s.received ++ calls ++ (drain.held ++ pool.queued) = _
    rw [List.append_assoc, ← List.append_assoc calls, hq]
    rfl
  refine ⟨h.sources, hp, hpop, hd.trans h.mode, fun hi => ?_, fun k => ?_, fun x hx => ?_, h.fault⟩
  · exact absurd (h.immediate (hd ▸ hi)).1 hbusy
  · rw [hitems]
    exact h.order k
  · rw [hitems] at hx
    exact h.known x hx

/-- **Every step keeps the order.** -/
theorem inOrder_step (ids : List ConId) (payloads : ConId → List (List NetWord)) (defer : Bool)
    (s t : NetState) (l : NetLabel) (h : InOrder ids payloads defer s)
    (hs : netStep ids s l = some t) : InOrder ids payloads defer t := by
  cases l with
  | complete k n =>
    obtain ⟨⟨-, hidle, hn, hle⟩, rfl⟩ := of_guard hs
    exact inOrder_complete ids payloads defer s k n h hidle hn hle
  | turn k =>
    obtain ⟨⟨hk, hloop⟩, ht⟩ := Option.ite_none_right_eq_some.mp hs
    obtain ⟨source, m, hturn, hok, hm, hdel⟩ :=
      Source.ok_turn k (payloads k) (s.sources k) (h.sources k) hloop
    rw [hturn] at ht
    rw [← Option.some.inj ht]
    exact inOrder_turn ids payloads defer s k hk source m h hok hm hdel
  | processNewMsgs =>
    obtain ⟨hidle, rfl⟩ := of_guard hs
    exact inOrder_start ids payloads defer s h hidle
  | drain =>
    obtain ⟨hbusy, ht⟩ := Option.ite_none_left_eq_some.mp hs
    obtain ⟨⟨drain, pool, calls⟩, hadv⟩ := advance_some s.drain s.pool h.paired hbusy h.popping
    rw [hadv] at ht
    rw [← Option.some.inj ht]
    exact inOrder_drain ids payloads defer s drain pool calls h hbusy hadv

theorem inOrder_reach (ids : List ConId) (payloads : ConId → List (List NetWord)) (defer : Bool)
    (s : NetState) (h : Reach (netStep ids) (fun _ _ => True) (NetState.init payloads defer) s) :
    InOrder ids payloads defer s :=
  h.invariant (inOrder_init ids payloads defer) fun t l u ht _ hs =>
    inOrder_step ids payloads defer t u l ht hs

/-! ## what the callback receives -/

/-- what a decoder has emitted are the payloads whose frames it has taken completely -/
theorem Source.Ok.emitted {k : ConId} {ps : List (List NetWord)} {s : Source} (h : s.Ok k ps) :
    (delivered s.con.trace).map Prod.snd = within codes ps (consumed s.con.trace).length := by
  have htake : consumed s.con.trace
      = (Stuffing.stream codes ps).take (consumed s.con.trace).length := by
    rw [← encodeAll_eq, ← h.stream, List.take_left]
  rw [h.took.delivered, ← out_take_stream, ← htake, List.map_append, List.map_map]
  exact List.map_id _

/-- the payloads whose frames have been fully read on `k` -/
def NetState.fullyRead (payloads : ConId → List (List NetWord)) (s : NetState) (k : ConId) :
    List Message := within codes (payloads k) (consumed (s.sources k).con.trace).length

theorem InOrder.received_all {ids : List ConId} {payloads : ConId → List (List NetWord)}
    {defer : Bool} {s : NetState} (h : InOrder ids payloads defer s) (hheld : s.drain.held = [])
    (hq : s.pool.queued = []) (k : ConId) :
    forId k s.received = s.fullyRead payloads k := by
  have horder := h.order k
  rw [NetState.items, hheld, hq, List.append_nil, List.append_nil, (h.sources k).emitted]
    at horder
  exact horder

/-- **Delivery per connection.**  In every run nothing throws and no empty queue is popped; what
`new_msg_callback` receives with an id of a registered connection is a prefix of the payloads
framed in the stream of that connection; and it is all the payloads whose frames have been read,
at any time when messages are not deferred, and else when `process_new_msgs` finds the queue
empty. -/
theorem delivery_perConnection (ids : List ConId) (payloads : ConId → List (List NetWord))
    (defer : Bool) (s : NetState)
    (h : Reach (netStep ids) (fun _ _ => True) (NetState.init payloads defer) s) :
    s.fault = false ∧ (∀ x ∈ s.received, x.1 ∈ ids) ∧
      (∀ k, forId k s.received <+: payloads k) ∧
      (∀ k, (s.sources k).inLoop = false →
        consumed (s.sources k).con.trace ++ (s.sources k).unread = encodeAll (payloads k)) ∧
      (defer = false → ∀ k, forId k s.received = s.fullyRead payloads k) ∧
      (∀ t, s.drain = .test → netStep ids s .drain = some t → t.drain = .idle →
        ∀ k, forId k t.received = t.fullyRead payloads k) := by
  have hi := inOrder_reach ids payloads defer s h
  refine ⟨hi.fault, fun x hx => hi.known x (List.mem_append_left _ hx), fun k => ?_,
    fun k hloop => ?_, fun hd => ?_, fun t htest hs hidle => ?_⟩
  · have h1 : forId k s.received <+: forId k s.items := by
      rw [NetState.items, forId_append]
      exact List.prefix_append _ _
    rw [hi.order k, (hi.sources k).emitted] at h1
    exact h1.trans (within_isPrefix codes _ _)
  · have hstream := (hi.sources k).stream
    rwa [Source.left, hloop] at hstream
  · obtain ⟨hidle, hq⟩ := hi.immediate (hi.mode.trans hd)
    exact hi.received_all (by rw [hidle]; rfl) hq
  · have ht := inOrder_step ids payloads defer s t .drain hi hs
    refine ht.received_all (by rw [hidle]; rfl) ?_
    -- the test left the pool as it was, and it was empty
    obtain ⟨-, hs⟩ := Option.ite_none_left_eq_some.mp hs
    rw [htest, Drain.advance] at hs
    by_cases he : s.pool.recMsgVec.isEmpty
    · rw [if_pos he] at hs
      rw [← Option.some.inj hs, MsgRecPool.queued, List.isEmpty_iff.mp he]
      exact List.zip_nil_right
    · rw [if_neg he] at hs
      rw [← Option.some.inj hs] at hidle
      cases hidle

/-- two connections, read in between one another, and a drain -/
theorem delivery_perConnection_two :
    ∃ s, exec (netStep [1, 2])
        (NetState.init (fun k => if k = 1 then [[97]] else [[98], []]) true)
        [.complete 1 2, .complete 2 3, .turn 2, .turn 1, .turn 2, .turn 1, .turn 2, .turn 1,
          .processNewMsgs, .drain, .drain, .drain] = some s ∧
      s.drain = .test ∧ s.received = [(2, [98])] ∧
      s.fault = false ∧ (∀ x ∈ s.received, x.1 ∈ [1, 2]) ∧
      (∀ k, forId k s.received <+: if k = 1 then [[97]] else [[98], []]) := by
  have hrun : (exec (netStep [1, 2])
      (NetState.init (fun k => if k = 1 then [[97]] else [[98], []]) true)
      [.complete 1 2, .complete 2 3, .turn 2, .turn 1, .turn 2, .turn 1, .turn 2, .turn 1,
        .processNewMsgs, .drain, .drain, .drain]).map (fun s => (s.drain, s.received))
      = some (.test, [(2, [98])]) := by decide
  obtain ⟨s, hs, hval⟩ := Option.map_eq_some_iff.mp hrun
  obtain ⟨hfault, hknown, hprefix, -⟩ := delivery_perConnection _ _ _ s (Reach.of_exec _ hs)
  exact ⟨s, hs, congrArg Prod.fst hval, congrArg Prod.snd hval, hfault, hknown, hprefix⟩

end VoltNet
