import Mathlib.Algebra.Order.BigOperators.Group.List
import Mathlib.Algebra.Order.Ring.Nat
import VoltNet.Network.Links

/-!
# Everything sent can be delivered

No state of the links is a dead end: as long as a message is on its way, some transfer, read or
step of `process_new_msgs` is possible that brings it closer to the callback.

* `LinkState.cost`      what is still to be done for the bytes of one connection;
* `link_spends`         some step lowers it, unless the link is settled;
* `links_settle`        all links can be settled, and the queue emptied behind them (`links_drain`);
* `link_deliverable`    from every state reached, all that was sent can still be delivered.
-/

namespace VoltNet
open Stuffing Runs

/-! ## one connection -/

/-- what is still to be done for the bytes of `k`; a byte costs less the further it has come -/
def LinkState.cost (s : LinkState) (k : ConId) : Nat :=
  (s.peers k).pending.length + 5 * (s.peers k).left.length
    + (4 * (s.net.sources k).unread.length
      + (2 * (s.net.sources k).left.length + (s.net.sources k).inLoop.toNat))

theorem turn_spends (s : Source) (hopen : s.con.con.conOpen = true)
    (hsize : s.con.con.msgSize ≤ s.con.con.buff.length) (hloop : s.inLoop = true) :
    ∃ s' m, s.turn = .ok (s', m) ∧ s'.unread = s.unread ∧
      2 * s'.left.length + s'.inLoop.toNat < 2 * s.left.length + s.inLoop.toNat := by
  have hleft : s.left = s.con.con.rest := by rw [Source.left, hloop]; rfl
  cases hr : s.con.con.rest with
  | nil =>
    have hturn := turn_nil s.con.con hopen hsize hr
    let c : NetCon := { s.con.con with currentIndex := 0 }
    let r : ConState := ⟨c, s.con.trace⟩
    refine ⟨⟨if c.conOpen then r.scheduleReadHandler else r, false, s.unread⟩, none, ?_, rfl, ?_⟩
    · rw [Source.turn, hturn]
    · rw [hleft, hr, hloop]
      exact Nat.one_pos
  | cons b bs =>
    obtain ⟨c, hturn, -, hrest, -⟩ := turn_cons s.con.con b bs hopen hr
    let r := ConState.afterByte (fun _ => false) b (next codes s.con.con.dec b).2 ⟨c, s.con.trace⟩
    have hafter : r.con.rest = bs := by
      show (ConState.afterByte _ b (next codes s.con.con.dec b).2 ⟨c, s.con.trace⟩).con.rest = bs
      cases (next codes s.con.con.dec b).2 with
      | none => exact hrest
      | some m => exact hrest
    refine ⟨⟨r, true, s.unread⟩, (next codes s.con.con.dec b).2.map (c.id, ·), ?_, rfl, ?_⟩
    · rw [Source.turn, hturn]
    · rw [hleft, hr, hloop]
      show 2 * r.con.rest.length + 1 < 2 * (b :: bs).length + 1
      rw [hafter, List.length_cons]
      omega

theorem cost_other (s t : LinkState) (k : ConId) (hp : t.peers k = s.peers k)
    (hs : t.net.sources k = s.net.sources k) : t.cost k = s.cost k := by
  rw [LinkState.cost, LinkState.cost, hp, hs]

/-- the oldest write of the peer of `k` puts all its bytes on the socket -/
theorem transfer_spends (ids : List ConId) (s : LinkState) (k : ConId)
    (hp : (s.peers k).pending ≠ []) :
    ∃ n t, Whole s (.transfer k n) ∧ linkStep ids s (.transfer k n) = some t ∧
      t.cost k < s.cost k ∧ (∀ j, j ≠ k → t.cost j = s.cost j) ∧ t.sent = s.sent := by
  cases hw : (s.peers k).pending with
  | nil => exact absurd hw hp
  | cons w ws =>
    let peer : SendState := { s.peers k with
      pending := ws, wire := (s.peers k).wire ++ w.rest, written := (s.peers k).written ++ [w.msg] }
    have hsize : 0 < w.rest.length ∨ w.rest = [] := by
      rcases Nat.eq_zero_or_pos w.rest.length with h0 | h0
      · exact .inr (List.eq_nil_of_length_eq_zero h0)
      · exact .inl h0
    have hstep : sendStep (s.peers k) (.transfer w.rest.length) = some peer := by
      simp only [sendStep, hw]
      rw [if_pos ⟨le_rfl, hsize⟩, SendState.transfer, if_pos rfl]
    have hold : (s.peers k).left.length = w.rest.length + peer.left.length := by
      rw [SendState.left, hw, List.map_cons, List.flatten_cons, List.length_append]
      rfl
    have hdrop : peer.wire.drop (s.peers k).wire.length = w.rest := List.drop_left
    have hunread :
        ((s.transfer k peer).net.sources k).unread = (s.net.sources k).unread ++ w.rest := by
      show (Function.update s.net.sources k _ k).unread = _
      rw [Function.update_self, hdrop]
      rfl
    refine ⟨w.rest.length, s.transfer k peer, ?_, ?_, ?_, fun j hj => ?_,
      sent_transfer s k _ peer hstep⟩
    · intro w' ws' hcons
      rw [hw] at hcons
      obtain ⟨rfl, -⟩ := List.cons.inj hcons
      exact .inl rfl
    · rw [linkStep, hstep]
      rfl
    · have hpeer : (s.transfer k peer).peers k = peer := Function.update_self ..
      have hcon : ((s.transfer k peer).net.sources k).left = (s.net.sources k).left ∧
          ((s.transfer k peer).net.sources k).inLoop = (s.net.sources k).inLoop := by
        show Source.left (Function.update s.net.sources k _ k) = _ ∧
          (Function.update s.net.sources k _ k).inLoop = _
        rw [Function.update_self]
        exact ⟨rfl, rfl⟩
      have hpending : peer.pending = ws := rfl
      rw [LinkState.cost, LinkState.cost, hpeer, hunread, hcon.1, hcon.2, hold, hw, hpending,
        List.length_append, List.length_cons]
      omega
    · exact cost_other s _ j (Function.update_of_ne hj ..) (Function.update_of_ne hj ..)

/-- the outstanding read of `k` takes as much as fits -/
theorem complete_spends (ids : List ConId) (s : LinkState) (k : ConId) (hk : k ∈ ids)
    (hidle : (s.net.sources k).inLoop = false) (hne : (s.net.sources k).unread ≠ [])
    (hindex : (s.net.sources k).con.con.currentIndex = 0) :
    ∃ n t, linkStep ids s (.net (.complete k n)) = some t ∧
      t.cost k < s.cost k ∧ (∀ j, j ≠ k → t.cost j = s.cost j) ∧ t.sent = s.sent := by
  let n := min buffCapacity (s.net.sources k).unread.length
  have hpos : 0 < n := Nat.lt_min.mpr ⟨by decide, List.length_pos_of_ne_nil hne⟩
  have hle : n ≤ (s.net.sources k).unread.length := Nat.min_le_right _ _
  let t : LinkState := { s with net := { s.net with
    sources := Function.update s.net.sources k ((s.net.sources k).complete n) } }
  have hsource : t.net.sources k = (s.net.sources k).complete n := Function.update_self ..
  refine ⟨n, t, ?_, ?_, fun j hj => ?_, rfl⟩
  · rw [linkStep, netStep, if_pos ⟨hk, hidle, Nat.min_le_left _ _, hle⟩]
    rfl
  · have hleft : ((s.net.sources k).complete n).left = (s.net.sources k).unread.take n :=
      loaded_rest _ _ hindex
    have hunread : ((s.net.sources k).complete n).unread = (s.net.sources k).unread.drop n := rfl
    have hloop : ((s.net.sources k).complete n).inLoop = true := rfl
    rw [LinkState.cost, LinkState.cost, hsource, hleft, hunread, hloop, hidle, List.length_take,
      List.length_drop, Nat.min_eq_left hle]
    show (s.peers k).pending.length + 5 * (s.peers k).left.length + _
      < (s.peers k).pending.length + 5 * (s.peers k).left.length + _
    have htrue : true.toNat = 1 := rfl
    rw [htrue]
    omega
  · exact cost_other s t j rfl (Function.update_of_ne hj ..)

/-- a turn of the running loop of `k` -/
theorem loop_spends (ids : List ConId) (s : LinkState) (k : ConId) (hk : k ∈ ids)
    (hopen : (s.net.sources k).con.con.conOpen = true)
    (hsize : (s.net.sources k).con.con.msgSize ≤ (s.net.sources k).con.con.buff.length)
    (hloop : (s.net.sources k).inLoop = true) :
    ∃ t, linkStep ids s (.net (.turn k)) = some t ∧
      t.cost k < s.cost k ∧ (∀ j, j ≠ k → t.cost j = s.cost j) ∧ t.sent = s.sent := by
  obtain ⟨source, m, hturn, hunread, hlt⟩ := turn_spends (s.net.sources k) hopen hsize hloop
  let net : NetState :=
    NetState.submit m { s.net with sources := Function.update s.net.sources k source }
  have hsources : net.sources = Function.update s.net.sources k source := by
    cases m with
    | none => rfl
    | some x => rfl
  have hsource : net.sources k = source := by rw [hsources, Function.update_self]
  refine ⟨{ s with net := net }, ?_, ?_, fun j hj => ?_, rfl⟩
  · rw [linkStep, netStep, if_pos ⟨hk, hloop⟩, hturn]
    rfl
  · show (s.peers k).pending.length + 5 * (s.peers k).left.length
        + (4 * (net.sources k).unread.length
          + (2 * (net.sources k).left.length + (net.sources k).inLoop.toNat)) < s.cost k
    rw [hsource, hunread, LinkState.cost]
    omega
  · refine cost_other s _ j rfl ?_
    show net.sources j = s.net.sources j
    rw [hsources, Function.update_of_ne hj]

/-! ## all connections -/

/-- an action that sends nothing and leaves writes whole -/
def Delivering (s : LinkState) (l : LinkLabel) : Prop := Whole s l ∧ l.NoSend

theorem not_settled (s : LinkState) (k : ConId) (h : ¬ s.Settled k) :
    (s.peers k).pending ≠ [] ∨ (s.net.sources k).inLoop = true ∨
      ((s.net.sources k).inLoop = false ∧ (s.net.sources k).unread ≠ []) := by
  by_cases hp : (s.peers k).pending = []
  · cases hl : (s.net.sources k).inLoop with
    | true => exact .inr (.inl rfl)
    | false => exact .inr (.inr ⟨rfl, fun hu => h ⟨hp, hl, hu⟩⟩)
  · exact .inl hp

/-- **A link that is not settled can come closer to it.** -/
theorem link_spends (ids : List ConId) (defer : Bool) (s : LinkState) (k : ConId) (hk : k ∈ ids)
    (hi : Carried ids defer s) (h : ¬ s.Settled k) :
    ∃ l t, Delivering s l ∧ linkStep ids s l = some t ∧
      t.cost k < s.cost k ∧ (∀ j, j ≠ k → t.cost j = s.cost j) ∧ t.sent = s.sent := by
  have hok := hi.order.sources k
  rcases not_settled s k h with hp | hloop | ⟨hidle, hne⟩
  · obtain ⟨n, t, hw, ht⟩ := transfer_spends ids s k hp
    exact ⟨.transfer k n, t, ⟨hw, trivial⟩, ht⟩
  · have hsize : (s.net.sources k).con.con.msgSize ≤ (s.net.sources k).con.con.buff.length := by
      have hbuff : (s.net.sources k).con.con.buff.length = buffCapacity := hok.buff
      rw [hbuff]
      exact hok.size hloop
    obtain ⟨t, ht⟩ := loop_spends ids s k hk hok.opened hsize hloop
    exact ⟨.net (.turn k), t, ⟨trivial, trivial⟩, ht⟩
  · obtain ⟨n, t, ht⟩ := complete_spends ids s k hk hidle hne (hok.cursor hidle)
    exact ⟨.net (.complete k n), t, ⟨trivial, trivial⟩, ht⟩

theorem sum_cost_lt (ids : List ConId) (s t : LinkState) (k : ConId) (hk : k ∈ ids)
    (hlt : t.cost k < s.cost k) (hother : ∀ j, j ≠ k → t.cost j = s.cost j) :
    (ids.map t.cost).sum < (ids.map s.cost).sum := by
  refine List.sum_lt_sum _ _ (fun j _ => ?_) ⟨k, hk, hlt⟩
  by_cases hj : j = k
  · rw [hj]
    exact hlt.le
  · exact (hother j hj).le

/-- all links can be settled -/
theorem links_settle (ids : List ConId) (defer : Bool) (s : LinkState) (h : Carried ids defer s) :
    ∃ t, Reach (linkStep ids) Delivering s t ∧
      (Carried ids defer t ∧ t.sent = s.sent) ∧ ∀ k ∈ ids, t.Settled k := by
  refine Reach.exhaust (fun t => Carried ids defer t ∧ t.sent = s.sent)
    (fun t => ∀ k ∈ ids, t.Settled k) (fun t => (ids.map t.cost).sum) (fun t ht hd => ?_) ⟨h, rfl⟩
  obtain ⟨k, hk⟩ := not_forall.mp hd
  obtain ⟨hk, hns⟩ := Classical.not_imp.mp hk
  obtain ⟨l, u, hl, hu, hlt, hother, hsent⟩ := link_spends ids defer t k hk ht.1 hns
  exact ⟨l, u, hl, hu, ⟨carried_step ids defer t u l ht.1 hl.1 hu, hsent.trans ht.2⟩,
    sum_cost_lt ids t u k hk hlt hother⟩

/-! ## the queue -/

/-- steps that `notify_listeners` needs at most before it looks at the queue again -/
def Drain.rank : Drain → Nat
  | .idle => 3
  | .test => 2
  | .pop => 1
  | .call _ _ => 3

theorem advance_rank (drain drain' : Drain) (pool pool' : MsgRecPool)
    (calls : List (ConId × Message)) (h : drain.advance pool = some (drain', pool', calls))
    (hne : drain.held ≠ [] ∨ pool.recMsgVec ≠ []) :
    4 * pool'.recMsgVec.length + drain'.rank < 4 * pool.recMsgVec.length + drain.rank := by
  cases drain with
  | idle => cases h
  | test =>
    have hvec : pool.recMsgVec ≠ [] := hne.resolve_left fun h => h rfl
    rw [Drain.advance, if_neg (by rw [List.isEmpty_iff]; exact hvec)] at h
    cases h
    exact Nat.add_lt_add_left (by decide : Drain.pop.rank < Drain.test.rank) _
  | pop =>
    cases hv : pool.recMsgVec with
    | nil => rw [Drain.advance, hv] at h; cases h
    | cons msg msgs =>
      cases hi : pool.recMsgIds with
      | nil => rw [Drain.advance, hv, hi] at h; cases h
      | cons id ids =>
        rw [Drain.advance, hv, hi] at h
        cases h
        show 4 * msgs.length + 3 < 4 * (msg :: msgs).length + 1
        rw [List.length_cons]
        omega
  | call id msg =>
    cases h
    exact Nat.add_lt_add_left (by decide : Drain.test.rank < 3) _

/-- what one more call of `process_new_msgs`, or one more step of it, does -/
theorem drain_spends (ids : List ConId) (defer : Bool) (s : LinkState) (hi : Carried ids defer s)
    (h : s.net.drain.held ≠ [] ∨ s.net.pool.recMsgVec ≠ []) :
    ∃ l t, Delivering s l ∧ linkStep ids s l = some t ∧ t.sent = s.sent ∧
      (∀ k, s.Settled k → t.Settled k) ∧
      4 * t.net.pool.recMsgVec.length + t.net.drain.rank
        < 4 * s.net.pool.recMsgVec.length + s.net.drain.rank := by
  by_cases hidle : s.net.drain = .idle
  · have hvec : s.net.pool.recMsgVec ≠ [] := h.resolve_left fun h => h (by rw [hidle]; rfl)
    have hdefer : s.net.pool.deferMsgSignal = true := by
      by_contra hd
      have hq := (hi.order.immediate (Bool.eq_false_iff.mpr hd)).2
      have hids : s.net.pool.recMsgIds.length = s.net.pool.recMsgVec.length := hi.order.paired
      rcases List.zip_eq_nil_iff.mp hq with h0 | h0
      · exact hvec (List.eq_nil_of_length_eq_zero (by rw [← hids]; exact congrArg List.length h0))
      · exact hvec h0
    let t : LinkState := { s with net := { s.net with drain := Drain.start s.net.pool } }
    refine ⟨.net .processNewMsgs, t, ⟨trivial, trivial⟩, ?_, rfl, fun k hk => hk, ?_⟩
    · rw [linkStep, netStep, if_pos hidle]
      rfl
    · show _ + (Drain.start s.net.pool).rank < _
      rw [hidle, Drain.start, if_pos hdefer]
      exact Nat.add_lt_add_left (by decide : Drain.test.rank < Drain.idle.rank) _
  · obtain ⟨⟨drain, pool, calls⟩, hadv⟩ :=
      advance_some s.net.drain s.net.pool hi.order.paired hidle hi.order.popping
    let t : LinkState := { s with net := { s.net with
      drain := drain, pool := pool, received := s.net.received ++ calls } }
    refine ⟨.net .drain, t, ⟨trivial, trivial⟩, ?_, rfl, fun k hk => hk, ?_⟩
    · rw [linkStep, netStep, if_neg hidle, hadv]
      rfl
    · exact advance_rank s.net.drain drain s.net.pool pool calls hadv h

/-- with all links settled, the queue can be emptied -/
theorem links_drain (ids : List ConId) (defer : Bool) (s : LinkState) (h : Carried ids defer s)
    (hset : ∀ k ∈ ids, s.Settled k) :
    ∃ t, Reach (linkStep ids) Delivering s t ∧ Carried ids defer t ∧ t.sent = s.sent ∧
      t.Drained ids := by
  obtain ⟨t, ht, ⟨hi, hsent, hset⟩, hheld, hvec⟩ := Reach.exhaust
    (fun t => Carried ids defer t ∧ t.sent = s.sent ∧ ∀ k ∈ ids, t.Settled k)
    (fun t => t.net.drain.held = [] ∧ t.net.pool.recMsgVec = [])
    (fun t => 4 * t.net.pool.recMsgVec.length + t.net.drain.rank) (fun t ht hd => by
      have hne : t.net.drain.held ≠ [] ∨ t.net.pool.recMsgVec ≠ [] :=
        Classical.or_iff_not_imp_left.mpr fun h1 h2 => hd ⟨Classical.not_not.mp h1, h2⟩
      obtain ⟨l, u, hl, hu, hsent, hkeep, hlt⟩ := drain_spends ids defer t ht.1 hne
      exact ⟨l, u, hl, hu, ⟨carried_step ids defer t u l ht.1 hl.1 hu, hsent.trans ht.2.1,
        fun k hk => hkeep k (ht.2.2 k hk)⟩, hlt⟩) ⟨h, rfl, hset⟩
  refine ⟨t, ht, hi, hsent, hset, hheld, ?_⟩
  rw [MsgRecPool.queued, hvec]
  exact List.zip_nil_right

/-- **Nothing gets stuck.**  From every state that a run with whole writes reaches, transfers, reads
and `process_new_msgs` alone can bring every message sent so far to the callback. -/
theorem link_deliverable (ids : List ConId) (defer : Bool) (s : LinkState)
    (h : Reach (linkStep ids) Whole (LinkState.init defer) s) :
    ∃ t, Reach (linkStep ids) Delivering s t ∧ t.sent = s.sent ∧ t.net.fault = false ∧
      ∀ k, forId k t.net.received = s.payloads k := by
  obtain ⟨t, ht, ⟨hi, hsent⟩, hset⟩ := links_settle ids defer s (carried_reach ids defer s h)
  obtain ⟨u, hu, hiu, hsentu, hd⟩ := links_drain ids defer t hi hset
  refine ⟨u, ht.trans hu, hsentu.trans hsent, hiu.order.fault, fun k => ?_⟩
  rw [hiu.received_drained hd k, payloads_congr (hsentu.trans hsent)]

/-- one byte of a message is on the wire, the rest is not -/
theorem link_deliverable_half :
    ∃ s t, exec (linkStep [1]) (LinkState.init true) [.send 1 [97, 255, 0], .transfer 1 1] = some s ∧
      s.net.received = [] ∧ Reach (linkStep [1]) Delivering s t ∧ t.sent = s.sent ∧
      t.net.fault = false ∧ ∀ k, forId k t.net.received = s.payloads k := by
  have hrun : (exec (linkStep [1]) (LinkState.init true) [.send 1 [97, 255, 0], .transfer 1 1]).map
      (fun s => s.net.received) = some [] := by decide
  have hwhole : Every (linkStep [1]) Whole (LinkState.init true)
      [.send 1 [97, 255, 0], .transfer 1 1] := by decide
  obtain ⟨s, hs, hval⟩ := Option.map_eq_some_iff.mp hrun
  obtain ⟨t, ht⟩ := link_deliverable [1] true s (Reach.of_every hwhole hs)
  exact ⟨s, t, hs, hval, ht⟩

end VoltNet
