import VoltNet.Framing.Resync
import VoltNet.Network.Delivery
import VoltNet.Network.Send

/-!
# From `send_msg` of a peer to `new_msg_callback`

`Delivery` starts from bytes that the peers have sent already, `Send` ends with bytes on a wire.
Here the two are one system: every connection of a network has a peer with an outgoing side of its
own, and what a transfer of the peer puts on the socket can be read behind it.

* `linkStep`             a `send_msg` of a peer, a transfer of its oldest write, or a step of the
                         network;
* `LinkState.flat`       the network with all that its peers have yet to transfer put behind the
                         unread bytes: the abstract system, in which everything sent has arrived;
* `flat_step`            a step of the links is a step of that system, or changes nothing in it;
* `link_delivery`        what the callback receives with an id is a prefix of what the peer sent,
                         and all of it once the link is `Drained`;
* `patient_delivery`     the same without a condition on transfers, for callers that wait.
-/

namespace VoltNet
open Stuffing Runs

/-! ## links -/

structure LinkState where
  net : NetState
  /-- the sending side of the peer of each connection -/
  peers : ConId → SendState

inductive LinkLabel where
  /-- the peer of `k` calls `send_msg` -/
  | send (k : ConId) (m : Message)
  /-- the oldest `async_write_some` of the peer of `k` transfers `n` bytes -/
  | transfer (k : ConId) (n : Nat)
  | net (l : NetLabel)

def LinkState.init (defer : Bool) : LinkState where
  net := NetState.init (fun _ => []) defer
  peers _ := SendState.init

/-- bytes that can be read behind those that can be read already -/
def Source.arrive (bytes : List NetWord) (s : Source) : Source :=
  { s with unread := s.unread ++ bytes }

def NetState.arrive (k : ConId) (bytes : List NetWord) (s : NetState) : NetState :=
  { s with sources := Function.update s.sources k ((s.sources k).arrive bytes) }

def LinkState.send (k : ConId) (m : Message) (s : LinkState) : LinkState :=
  { s with peers := Function.update s.peers k ((s.peers k).sendMsg m) }

/-- the peer of `k` goes on to `peer`; what it has put on the socket meanwhile arrives -/
def LinkState.transfer (k : ConId) (peer : SendState) (s : LinkState) : LinkState :=
  { s with
    net := s.net.arrive k (peer.wire.drop (s.peers k).wire.length)
    peers := Function.update s.peers k peer }

def linkStep (ids : List ConId) (s : LinkState) : LinkLabel → Option LinkState
  | .send k m => if k ∈ ids then some (s.send k m) else none
  | .transfer k n => (sendStep (s.peers k) (.transfer n)).map fun peer => s.transfer k peer
  | .net l => (netStep ids s.net l).map fun net => { s with net := net }

/-- what `end_msg` has closed in a message -/
def closedIn (m : Message) : List (List NetWord) := out codes ⟨[], false⟩ m

/-- a message of whole frames, as a writer makes it that ends with `end_msg` -/
def Framed (m : Message) : Prop := m = encodeAll (closedIn m)

def LinkState.sent (s : LinkState) (k : ConId) : List Message := (s.peers k).sent

/-- the payloads in the messages that the peer of `k` has sent -/
def LinkState.payloads (s : LinkState) (k : ConId) : List (List NetWord) :=
  closedIn (s.sent k).flatten

/-- messages are made of whole frames, and no transfer splits a write while another one of the same
peer has bytes left -/
def Whole (s : LinkState) : LinkLabel → Prop
  | .send _ m => Framed m
  | .transfer k n => Undivided (s.peers k) (.transfer n)
  | .net _ => True

instance decidableWhole (s : LinkState) (l : LinkLabel) : Decidable (Whole s l) :=
  match l with
  | .send _ m => inferInstanceAs (Decidable (m = encodeAll (closedIn m)))
  | .transfer k n => decidableUndivided (s.peers k) (.transfer n)
  | .net _ => isTrue trivial

theorem closedIn_encodeAll (ps : List (List NetWord)) : closedIn (encodeAll ps) = ps := by
  rw [closedIn, encodeAll_eq, out_stream]

theorem framed_encodeAll (ps : List (List NetWord)) : Framed (encodeAll ps) := by
  rw [Framed, closedIn_encodeAll]

/-- a framed message behind others adds its payloads to theirs -/
theorem closedIn_append (m m' : Message) (h : Framed m) :
    closedIn (m ++ m') = closedIn m ++ closedIn m' := by
  have hrun : run codes ⟨[], false⟩ m = ⟨[], false⟩ := by
    rw [h, encodeAll_eq, run_stream]
  rw [closedIn, out_append, hrun]
  rfl

theorem framed_append (m m' : Message) (h : Framed m) (h' : Framed m') : Framed (m ++ m') := by
  rw [Framed, closedIn_append m m' h, encodeAll_append, ← h, ← h']

/-! ## bytes that are still to come -/

theorem arrive_turn (bytes : List NetWord) (s : Source) :
    (s.arrive bytes).turn = s.turn.map fun x => (x.1.arrive bytes, x.2) := by
  have hcon : (s.arrive bytes).con = s.con := rfl
  rw [Source.turn, Source.turn, hcon]
  cases s.con.con.turn with
  | error f => rfl
  | ok x =>
    obtain ⟨c, m⟩ := x
    cases m with
    | none => rfl
    | some m => rfl

theorem arrive_complete (bytes : List NetWord) (s : Source) (n : Nat) (h : n ≤ s.unread.length) :
    (s.arrive bytes).complete n = (s.complete n).arrive bytes := by
  have htake : (s.unread ++ bytes).take n = s.unread.take n := List.take_append_of_le_length h
  have hdrop : (s.unread ++ bytes).drop n = s.unread.drop n ++ bytes :=
    List.drop_append_of_le_length h
  show Source.mk (s.con.loaded ((s.unread ++ bytes).take n)) true ((s.unread ++ bytes).drop n) = _
  rw [htake, hdrop]
  rfl

/-- the network with `extra k` behind the unread bytes of `k` -/
def NetState.ahead (extra : ConId → List NetWord) (s : NetState) : NetState :=
  { s with sources := fun k => (s.sources k).arrive (extra k) }

theorem ahead_update (extra : ConId → List NetWord) (s : NetState) (k : ConId) (source : Source) :
    NetState.ahead extra { s with sources := Function.update s.sources k source }
      = { s.ahead extra with
          sources := Function.update (s.ahead extra).sources k (source.arrive (extra k)) } := by
  have hsources : (fun j => (Function.update s.sources k source j).arrive (extra j))
      = Function.update (fun j => (s.sources j).arrive (extra j)) k (source.arrive (extra k)) := by
    funext j
    by_cases hj : j = k
    · rw [hj, Function.update_self, Function.update_self]
    · rw [Function.update_of_ne hj, Function.update_of_ne hj]
  show NetState.mk (fun j => (Function.update s.sources k source j).arrive (extra j)) _ _ _ _ = _
  rw [hsources]
  rfl

theorem ahead_submit (extra : ConId → List NetWord) (m : Option (ConId × Message)) (s : NetState) :
    (NetState.submit m s).ahead extra = NetState.submit m (s.ahead extra) := by
  cases m with
  | none => rfl
  | some x => rfl

/-- **A step of the network does not depend on what is still to come.** -/
theorem ahead_step (ids : List ConId) (extra : ConId → List NetWord) (s t : NetState) (l : NetLabel)
    (h : netStep ids s l = some t) : netStep ids (s.ahead extra) l = some (t.ahead extra) := by
  cases l with
  | complete k n =>
    obtain ⟨⟨hk, hidle, hn, hle⟩, rfl⟩ := of_guard h
    have hle' : n ≤ ((s.ahead extra).sources k).unread.length := by
      show n ≤ ((s.sources k).unread ++ extra k).length
      rw [List.length_append]
      omega
    rw [ahead_update, ← arrive_complete (extra k) (s.sources k) n hle]
    exact if_pos ⟨hk, hidle, hn, hle'⟩
  | turn k =>
    obtain ⟨hk, hs⟩ := Option.ite_none_right_eq_some.mp h
    have hturn : ((s.ahead extra).sources k).turn
        = (s.sources k).turn.map fun x => (x.1.arrive (extra k), x.2) :=
      arrive_turn (extra k) (s.sources k)
    refine (if_pos hk).trans ?_
    cases hr : (s.sources k).turn with
    | error f =>
      rw [hr] at hs
      rw [hturn, hr, ← Option.some.inj hs]
      rfl
    | ok x =>
      obtain ⟨source, m⟩ := x
      rw [hr] at hs
      rw [hturn, hr, ← Option.some.inj hs, ahead_submit, ahead_update]
      rfl
  | processNewMsgs =>
    obtain ⟨hidle, rfl⟩ := of_guard h
    exact if_pos hidle
  | drain =>
    obtain ⟨hbusy, hs⟩ := Option.ite_none_left_eq_some.mp h
    have hbusy' : ¬ (s.ahead extra).drain = .idle := hbusy
    have hsame : (s.ahead extra).drain.advance (s.ahead extra).pool = s.drain.advance s.pool := rfl
    rw [netStep, if_neg hbusy', hsame]
    cases ha : s.drain.advance s.pool with
    | none =>
      rw [ha] at hs
      rw [← Option.some.inj hs]
      rfl
    | some x =>
      rw [ha] at hs
      rw [← Option.some.inj hs]
      rfl

/-! ## everything sent, as if it had arrived -/

def LinkState.flat (s : LinkState) : NetState := s.net.ahead fun k => (s.peers k).left

theorem flat_send (k : ConId) (m : Message) (s : LinkState) :
    (s.send k m).flat = s.flat.arrive k m := by
  have hleft : ∀ j, ((s.send k m).peers j).left
      = if j = k then (s.peers k).left ++ m else (s.peers j).left := by
    intro j
    show (Function.update s.peers k ((s.peers k).sendMsg m) j).left = _
    by_cases hj : j = k
    · rw [hj, Function.update_self, if_pos rfl]
      simp [SendState.left, SendState.sendMsg]
    · rw [Function.update_of_ne hj, if_neg hj]
  have hsources : (fun j => (s.net.sources j).arrive ((s.send k m).peers j).left)
      = Function.update (fun j => (s.net.sources j).arrive (s.peers j).left) k
          (((s.net.sources k).arrive (s.peers k).left).arrive m) := by
    funext j
    rw [hleft]
    by_cases hj : j = k
    · rw [hj, Function.update_self, if_pos rfl]
      simp [Source.arrive, List.append_assoc]
    · rw [Function.update_of_ne hj, if_neg hj]
  show NetState.mk (fun j => (s.net.sources j).arrive ((s.send k m).peers j).left) _ _ _ _ = _
  rw [hsources]
  rfl

theorem transfer_wire (s t : SendState) (n : Nat) (h : sendStep s (.transfer n) = some t) :
    t.sent = s.sent ∧ ∃ bytes, t.wire = s.wire ++ bytes := by
  cases hp : s.pending with
  | nil => rw [sendStep, hp] at h; cases h
  | cons w ws =>
    simp only [sendStep, hp, Option.ite_none_right_eq_some, Option.some.injEq] at h
    rw [← h.2, SendState.transfer]
    split
    · exact ⟨rfl, w.rest, rfl⟩
    · exact ⟨rfl, w.rest.take n, rfl⟩

/-- a transfer that keeps the wire contiguous moves bytes from the sender to the socket -/
theorem flat_transfer (s : LinkState) (k : ConId) (n : Nat) (peer : SendState)
    (hs : sendStep (s.peers k) (.transfer n) = some peer) (hold : Contiguous (s.peers k))
    (hnew : Contiguous peer) : (s.transfer k peer).flat = s.flat := by
  obtain ⟨hsent, bytes, hwire⟩ := transfer_wire (s.peers k) peer n hs
  have hdrop : peer.wire.drop (s.peers k).wire.length = bytes := by
    rw [hwire, List.drop_left]
  have hleft : bytes ++ peer.left = (s.peers k).left := by
    have h1 : (s.peers k).wire ++ (bytes ++ peer.left)
        = (s.peers k).wire ++ (s.peers k).left := by
      rw [← List.append_assoc, ← hwire]
      exact hnew.trans ((congrArg List.flatten hsent).trans hold.symm)
    exact List.append_cancel_left h1
  have hsources : (fun j => ((s.transfer k peer).net.sources j).arrive
        ((s.transfer k peer).peers j).left)
      = fun j => (s.net.sources j).arrive (s.peers j).left := by
    funext j
    show (Function.update s.net.sources k _ j).arrive (Function.update s.peers k peer j).left = _
    by_cases hj : j = k
    · rw [hj, Function.update_self, Function.update_self, hdrop]
      simp [Source.arrive, List.append_assoc, hleft]
    · rw [Function.update_of_ne hj, Function.update_of_ne hj]
  show NetState.mk _ _ _ _ _ = _
  rw [hsources]
  rfl

/-! ## the invariant -/

theorem inOrder_arrive (ids : List ConId) (payloads : ConId → List (List NetWord)) (defer : Bool)
    (s : NetState) (k : ConId) (ps : List (List NetWord)) (h : InOrder ids payloads defer s) :
    InOrder ids (Function.update payloads k (payloads k ++ ps)) defer
      (s.arrive k (encodeAll ps)) where
  sources := by
    intro j
    show (Function.update s.sources k ((s.sources k).arrive (encodeAll ps)) j).Ok j
      (Function.update payloads k (payloads k ++ ps) j)
    by_cases hj : j = k
    · rw [hj, Function.update_self, Function.update_self]
      have hk := h.sources k
      refine ⟨hk.took, hk.opened, ?_, hk.cursor, hk.size⟩
      show consumed (s.sources k).con.trace
        ++ ((s.sources k).left ++ ((s.sources k).unread ++ encodeAll ps)) = _
      rw [← List.append_assoc (s.sources k).left, ← List.append_assoc, hk.stream,
        encodeAll_append]
    · rw [Function.update_of_ne hj, Function.update_of_ne hj]
      exact h.sources j
  paired := h.paired
  popping := h.popping
  mode := h.mode
  immediate := h.immediate
  order := by
    apply (Function.forall_update_iff s.sources fun j (x : Source) =>
      forId j s.items = (delivered x.con.trace).map Prod.snd).mpr
    exact ⟨h.order k, fun j _ => h.order j⟩
  known := h.known
  fault := h.fault

/-- the network decodes what was sent as if it had arrived, and no wire has lost its order -/
structure Carried (ids : List ConId) (defer : Bool) (s : LinkState) : Prop where
  order : InOrder ids s.payloads defer s.flat
  contiguous : ∀ k, Contiguous (s.peers k)
  framed : ∀ k, Framed (s.peers k).sent.flatten
  known : ∀ k, k ∉ ids → (s.peers k).sent = []

theorem carried_init (ids : List ConId) (defer : Bool) :
    Carried ids defer (LinkState.init defer) where
  order := inOrder_init ids (fun _ => []) defer
  contiguous _ := contiguous_init
  framed _ := rfl
  known _ _ := rfl

theorem sent_sendMsg (m : Message) (s : SendState) :
    (s.sendMsg m).sent.flatten = s.sent.flatten ++ m := by
  show (s.sent ++ [m]).flatten = _
  rw [List.flatten_append, List.flatten_singleton]

theorem sent_send (k : ConId) (m : Message) (s : LinkState) :
    (s.send k m).sent = Function.update s.sent k (s.sent k ++ [m]) := by
  funext j
  show (Function.update s.peers k ((s.peers k).sendMsg m) j).sent = _
  by_cases hj : j = k
  · rw [hj, Function.update_self, Function.update_self]
    rfl
  · rw [Function.update_of_ne hj, Function.update_of_ne hj]
    rfl

theorem payloads_send (k : ConId) (m : Message) (s : LinkState)
    (h : Framed (s.sent k).flatten) :
    (s.send k m).payloads = Function.update s.payloads k (s.payloads k ++ closedIn m) := by
  funext j
  rw [LinkState.payloads, sent_send]
  by_cases hj : j = k
  · rw [hj, Function.update_self, Function.update_self, List.flatten_append,
      List.flatten_singleton, closedIn_append _ m h]
    rfl
  · rw [Function.update_of_ne hj, Function.update_of_ne hj]
    rfl

theorem carried_send (ids : List ConId) (defer : Bool) (s : LinkState) (k : ConId)
    (m : Message) (hk : k ∈ ids) (hm : Framed m) (h : Carried ids defer s) :
    Carried ids defer (s.send k m) where
  order := by
    have harrive := inOrder_arrive ids s.payloads defer s.flat k (closedIn m) h.order
    rw [← hm, ← payloads_send k m s (h.framed k)] at harrive
    rw [flat_send]
    exact harrive
  contiguous := by
    apply (Function.forall_update_iff s.peers fun _ x => Contiguous x).mpr
    exact ⟨contiguous_sendMsg m (s.peers k) (h.contiguous k), fun j _ => h.contiguous j⟩
  framed := by
    apply (Function.forall_update_iff s.peers fun _ (x : SendState) => Framed x.sent.flatten).mpr
    refine ⟨?_, fun j _ => h.framed j⟩
    rw [sent_sendMsg]
    exact framed_append _ m (h.framed k) hm
  known := by
    intro j hj
    have hne : j ≠ k := fun e => hj (e ▸ hk)
    show (Function.update s.peers k _ j).sent = []
    rw [Function.update_of_ne hne]
    exact h.known j hj

theorem sent_transfer (s : LinkState) (k : ConId) (n : Nat) (peer : SendState)
    (hs : sendStep (s.peers k) (.transfer n) = some peer) : (s.transfer k peer).sent = s.sent := by
  funext j
  show (Function.update s.peers k peer j).sent = (s.peers j).sent
  by_cases hj : j = k
  · rw [hj, Function.update_self, (transfer_wire (s.peers k) peer n hs).1]
  · rw [Function.update_of_ne hj]

theorem payloads_congr {s t : LinkState} (h : t.sent = s.sent) : t.payloads = s.payloads := by
  unfold LinkState.payloads
  rw [h]

theorem carried_transfer (ids : List ConId) (defer : Bool) (s : LinkState) (k : ConId) (n : Nat)
    (peer : SendState) (hu : Undivided (s.peers k) (.transfer n))
    (hs : sendStep (s.peers k) (.transfer n) = some peer) (h : Carried ids defer s) :
    Carried ids defer (s.transfer k peer) where
  order := by
    rw [payloads_congr (sent_transfer s k n peer hs), flat_transfer s k n peer hs (h.contiguous k)
      (contiguous_step (s.peers k) peer _ (h.contiguous k) hu hs)]
    exact h.order
  contiguous := by
    apply (Function.forall_update_iff s.peers fun _ x => Contiguous x).mpr
    exact ⟨contiguous_step (s.peers k) peer _ (h.contiguous k) hu hs, fun j _ => h.contiguous j⟩
  framed := by
    apply (Function.forall_update_iff s.peers fun _ (x : SendState) => Framed x.sent.flatten).mpr
    rw [(transfer_wire (s.peers k) peer n hs).1]
    exact ⟨h.framed k, fun j _ => h.framed j⟩
  known := by
    apply (Function.forall_update_iff s.peers fun j (x : SendState) => j ∉ ids → x.sent = []).mpr
    rw [(transfer_wire (s.peers k) peer n hs).1]
    exact ⟨h.known k, fun j _ => h.known j⟩

/-- **A step of the links is a step of the network to which everything sent has arrived**, unless a
peer sends, which adds to what has arrived, or transfers, which changes nothing there. -/
theorem flat_step (ids : List ConId) (s t : LinkState) (l : NetLabel)
    (hs : linkStep ids s (.net l) = some t) :
    netStep ids s.flat l = some t.flat ∧ t.peers = s.peers := by
  obtain ⟨net, hnet, rfl⟩ := Option.map_eq_some_iff.mp hs
  exact ⟨ahead_step ids _ s.net net l hnet, rfl⟩

theorem carried_step (ids : List ConId) (defer : Bool) (s t : LinkState) (l : LinkLabel)
    (h : Carried ids defer s) (hw : Whole s l) (hs : linkStep ids s l = some t) :
    Carried ids defer t := by
  cases l with
  | send k m =>
    obtain ⟨hk, rfl⟩ := of_guard hs
    exact carried_send ids defer s k m hk hw h
  | transfer k n =>
    obtain ⟨peer, hpeer, rfl⟩ := Option.map_eq_some_iff.mp hs
    exact carried_transfer ids defer s k n peer hw hpeer h
  | net l =>
    obtain ⟨hflat, hpeers⟩ := flat_step ids s t l hs
    have hpayloads : t.payloads = s.payloads := by
      refine payloads_congr ?_
      unfold LinkState.sent
      rw [hpeers]
    refine ⟨?_, hpeers ▸ h.contiguous, hpeers ▸ h.framed, hpeers ▸ h.known⟩
    rw [hpayloads]
    exact inOrder_step ids s.payloads defer s.flat t.flat l h.order hflat

theorem carried_reach (ids : List ConId) (defer : Bool) (s : LinkState)
    (h : Reach (linkStep ids) Whole (LinkState.init defer) s) : Carried ids defer s :=
  h.invariant (carried_init ids defer) fun t l u ht hw hs => carried_step ids defer t u l ht hw hs

/-! ## frames of a step -/

def LinkLabel.NoSend : LinkLabel → Prop
  | .send _ _ => False
  | .transfer _ _ | .net _ => True

theorem sent_noSend (ids : List ConId) (s t : LinkState) (l : LinkLabel) (hl : l.NoSend)
    (hs : linkStep ids s l = some t) : t.sent = s.sent := by
  cases l with
  | send k m => exact hl.elim
  | transfer k n =>
    obtain ⟨peer, hpeer, rfl⟩ := Option.map_eq_some_iff.mp hs
    exact sent_transfer s k n peer hpeer
  | net l =>
    obtain ⟨net, -, rfl⟩ := Option.map_eq_some_iff.mp hs
    rfl

theorem submitMessage_calls_length (pool : MsgRecPool) (id : ConId) (msg : Message) :
    (pool.submitMessage id msg).2.length ≤ 1 := by
  unfold MsgRecPool.submitMessage
  split
  · exact Nat.zero_le _
  · exact le_rfl

theorem advance_calls_length (d e : Drain) (pool pool' : MsgRecPool)
    (calls : List (ConId × Message)) (h : d.advance pool = some (e, pool', calls)) :
    calls.length ≤ 1 := by
  cases d with
  | idle => cases h
  | test =>
    rw [Drain.advance] at h
    split at h
    · cases h
      exact Nat.zero_le _
    · cases h
      exact Nat.zero_le _
  | pop =>
    rw [Drain.advance] at h
    split at h
    · cases h
      exact Nat.zero_le _
    · cases h
  | call id msg =>
    cases h
    exact le_rfl

theorem received_netStep (ids : List ConId) (s t : NetState) (l : NetLabel)
    (hs : netStep ids s l = some t) :
    ∃ new, t.received = s.received ++ new ∧ new.length ≤ 1 := by
  have hnone : s.received = s.received ++ [] := (List.append_nil _).symm
  cases l with
  | complete k n =>
    obtain ⟨-, rfl⟩ := of_guard hs
    exact ⟨[], hnone, by decide⟩
  | turn k =>
    obtain ⟨-, hs⟩ := Option.ite_none_right_eq_some.mp hs
    cases hr : (s.sources k).turn with
    | error f =>
      rw [hr] at hs
      rw [← Option.some.inj hs]
      exact ⟨[], hnone, by decide⟩
    | ok x =>
      obtain ⟨source, m⟩ := x
      rw [hr] at hs
      rw [← Option.some.inj hs]
      cases m with
      | none => exact ⟨[], hnone, by decide⟩
      | some x =>
        exact ⟨(s.pool.submitMessage x.1 x.2).2, rfl, submitMessage_calls_length s.pool x.1 x.2⟩
  | processNewMsgs =>
    obtain ⟨-, rfl⟩ := of_guard hs
    exact ⟨[], hnone, by decide⟩
  | drain =>
    obtain ⟨-, hs⟩ := Option.ite_none_left_eq_some.mp hs
    cases ha : s.drain.advance s.pool with
    | none =>
      rw [ha] at hs
      rw [← Option.some.inj hs]
      exact ⟨[], hnone, by decide⟩
    | some x =>
      obtain ⟨drain, pool, calls⟩ := x
      rw [ha] at hs
      rw [← Option.some.inj hs]
      exact ⟨calls, rfl, advance_calls_length s.drain drain s.pool pool calls ha⟩

/-- a step hands on one message at most -/
theorem received_step (ids : List ConId) (s t : LinkState) (l : LinkLabel)
    (hs : linkStep ids s l = some t) :
    ∃ new, t.net.received = s.net.received ++ new ∧ new.length ≤ 1 := by
  cases l with
  | send k m =>
    obtain ⟨-, rfl⟩ := of_guard hs
    exact ⟨[], (List.append_nil _).symm, by decide⟩
  | transfer k n =>
    obtain ⟨peer, -, rfl⟩ := Option.map_eq_some_iff.mp hs
    exact ⟨[], (List.append_nil _).symm, by decide⟩
  | net l =>
    obtain ⟨net, hnet, rfl⟩ := Option.map_eq_some_iff.mp hs
    exact received_netStep ids s.net net l hnet

/-! ## what arrives -/

/-- nothing is on its way from the peer of `k` to the decoder -/
def LinkState.Settled (s : LinkState) (k : ConId) : Prop :=
  (s.peers k).pending = [] ∧ (s.net.sources k).inLoop = false ∧ (s.net.sources k).unread = []

/-- nothing is on its way to the callback -/
def LinkState.Drained (ids : List ConId) (s : LinkState) : Prop :=
  (∀ k ∈ ids, s.Settled k) ∧ s.net.drain.held = [] ∧ s.net.pool.queued = []

theorem left_settled (s : LinkState) (k : ConId) (h : s.Settled k) : (s.peers k).left = [] := by
  rw [SendState.left, h.1]
  rfl

/-- the wire of a settled link has been decoded to its end -/
theorem Carried.consumed_settled {ids : List ConId} {defer : Bool} {s : LinkState}
    (h : Carried ids defer s) (k : ConId) (hk : s.Settled k) :
    consumed (s.net.sources k).con.trace = encodeAll (s.payloads k) := by
  have hstream := (h.order.sources k).stream
  have hnone : (s.flat.sources k).left ++ (s.flat.sources k).unread = [] := by
    show Source.left ((s.net.sources k).arrive (s.peers k).left)
      ++ ((s.net.sources k).unread ++ (s.peers k).left) = []
    rw [left_settled s k hk, hk.2.2, Source.left]
    show (if (s.net.sources k).inLoop then _ else []) ++ [] = []
    rw [hk.2.1]
    rfl
  rw [hnone, List.append_nil] at hstream
  exact hstream

theorem Carried.received_drained {ids : List ConId} {defer : Bool} {s : LinkState}
    (h : Carried ids defer s) (hd : s.Drained ids) (k : ConId) :
    forId k s.net.received = s.payloads k := by
  by_cases hk : k ∈ ids
  · have hall := h.order.received_all hd.2.1 hd.2.2 k
    have hcons : consumed (s.flat.sources k).con.trace = stream codes (s.payloads k) :=
      (h.consumed_settled k (hd.1 k hk)).trans (encodeAll_eq _)
    have hwithin := out_take_stream codes (s.payloads k) (stream codes (s.payloads k)).length
    rw [List.take_length, out_stream] at hwithin
    refine hall.trans ?_
    rw [NetState.fullyRead, hcons]
    exact hwithin.symm
  · rw [LinkState.payloads, LinkState.sent, h.known k hk]
    exact forId_other k s.net.received fun x hx e =>
      hk (e ▸ h.order.known x (List.mem_append_left _ hx))

theorem Carried.received_first {ids : List ConId} {defer : Bool} {s : LinkState}
    (h : Carried ids defer s) (k : ConId) : forId k s.net.received <+: s.payloads k := by
  have h1 : forId k s.net.received <+: forId k s.flat.items := by
    rw [NetState.items, forId_append]
    exact List.prefix_append _ _
  rw [h.order.order k, (h.order.sources k).emitted] at h1
  exact h1.trans (within_isPrefix codes _ _)

/-- **Delivery from end to end.**  In every run in which messages are framed and transfers leave
writes whole, nothing throws; what the callback receives with an id is a prefix of the payloads
that the peer of this connection sent, in the order of its `send_msg` calls; without deferral it
has received every payload whose frame has been read; and once nothing is on its way it has
received them all. -/
theorem link_delivery (ids : List ConId) (defer : Bool) (s : LinkState)
    (h : Reach (linkStep ids) Whole (LinkState.init defer) s) :
    s.net.fault = false ∧ (∀ x ∈ s.net.received, x.1 ∈ ids) ∧
      (∀ k, forId k s.net.received <+: s.payloads k) ∧
      (∀ k, (s.sent k).flatten = encodeAll (s.payloads k)) ∧
      (defer = false → ∀ k, forId k s.net.received
        = within codes (s.payloads k) (consumed (s.net.sources k).con.trace).length) ∧
      (s.Drained ids → ∀ k, forId k s.net.received = s.payloads k) := by
  have hi := carried_reach ids defer s h
  refine ⟨hi.order.fault, fun x hx => hi.order.known x (List.mem_append_left _ hx),
    hi.received_first, hi.framed, fun hd k => ?_, fun hd => hi.received_drained hd⟩
  obtain ⟨hidle, hq⟩ := hi.order.immediate (hi.order.mode.trans hd)
  exact hi.order.received_all (by rw [hidle]; rfl) hq k

instance decidableSettled (s : LinkState) (k : ConId) : Decidable (s.Settled k) :=
  inferInstanceAs (Decidable (_ ∧ _ ∧ _))

instance decidableDrained (ids : List ConId) (s : LinkState) : Decidable (s.Drained ids) :=
  -- not by going through all ids there are
  @instDecidableAnd _ _ (List.decidableBAll _ ids) inferInstance

/-- two peers, one of them with two messages at once; reads and transfers interleave, and the queue
is emptied at the end -/
def twoPeers : List LinkLabel :=
  [.send 1 [97, 255, 0], .send 2 [255, 255, 255, 0], .send 1 [98, 255, 0], .transfer 1 3,
    .net (.complete 1 2), .transfer 2 4, .net (.turn 1), .net (.complete 2 4), .net (.turn 1),
    .net (.turn 2), .net (.turn 2), .net (.turn 2), .net (.turn 1), .net (.complete 1 1),
    .net (.turn 1), .transfer 1 3, .net (.turn 1), .net (.complete 1 3), .net (.turn 2),
    .net (.turn 1), .net (.turn 2), .net (.turn 1), .net (.turn 1), .net (.turn 1),
    .net .processNewMsgs] ++ List.replicate 9 (.net .drain)

theorem link_delivery_two :
    ∃ s, exec (linkStep [1, 2]) (LinkState.init true) twoPeers = some s ∧
      s.net.received = [(1, [97]), (2, [255]), (1, [98])] ∧ s.net.fault = false ∧
      forId 1 s.net.received = s.payloads 1 ∧ forId 2 s.net.received = s.payloads 2 := by
  have hrun : (exec (linkStep [1, 2]) (LinkState.init true) twoPeers).map
      (fun s => (s.net.received, decide (s.Drained [1, 2])))
        = some ([(1, [97]), (2, [255]), (1, [98])], true) := by decide
  have hwhole : Every (linkStep [1, 2]) Whole (LinkState.init true) twoPeers := by decide
  obtain ⟨s, hs, hval⟩ := Option.map_eq_some_iff.mp hrun
  have hdrained : s.Drained [1, 2] := of_decide_eq_true (congrArg Prod.snd hval)
  obtain ⟨hfault, -, -, -, -, hall⟩ := link_delivery _ _ s (Reach.of_every hwhole hs)
  exact ⟨s, hs, congrArg Prod.fst hval, hfault, hall hdrained 1, hall hdrained 2⟩

/-! ## callers that wait -/

/-- a message is sent only when every earlier write of the same peer has been completed; nothing is
asked of the transfers -/
def Patient (s : LinkState) : LinkLabel → Prop
  | .send k m => Framed m ∧ (s.peers k).pending = []
  | .transfer _ _ | .net _ => True

instance decidablePatient (s : LinkState) (l : LinkLabel) : Decidable (Patient s l) :=
  match l with
  | .send k m =>
    inferInstanceAs (Decidable (m = encodeAll (closedIn m) ∧ (s.peers k).pending = []))
  | .transfer _ _ | .net _ => isTrue trivial

/-- every peer has one write at most that is not completed -/
def OneWrite (s : LinkState) : Prop := ∀ k, (s.peers k).pending.length ≤ 1

theorem transfer_pending (s t : SendState) (n : Nat) (h : sendStep s (.transfer n) = some t) :
    t.pending.length ≤ s.pending.length := by
  cases hp : s.pending with
  | nil => rw [sendStep, hp] at h; cases h
  | cons w ws =>
    simp only [sendStep, hp, Option.ite_none_right_eq_some, Option.some.injEq] at h
    rw [← h.2, SendState.transfer]
    split
    · exact Nat.le_succ _
    · simp

theorem oneWrite_step (ids : List ConId) (s t : LinkState) (l : LinkLabel) (h : OneWrite s)
    (hp : Patient s l) (hs : linkStep ids s l = some t) : OneWrite t := by
  cases l with
  | send k m =>
    obtain ⟨-, rfl⟩ := of_guard hs
    apply (Function.forall_update_iff s.peers fun _ (x : SendState) => x.pending.length ≤ 1).mpr
    refine ⟨?_, fun j _ => h j⟩
    show ((s.peers k).pending ++ [(⟨m, m⟩ : Write)]).length ≤ 1
    rw [hp.2]
    exact le_rfl
  | transfer k n =>
    obtain ⟨peer, hpeer, rfl⟩ := Option.map_eq_some_iff.mp hs
    apply (Function.forall_update_iff s.peers fun _ (x : SendState) => x.pending.length ≤ 1).mpr
    exact ⟨(transfer_pending _ _ n hpeer).trans (h k), fun j _ => h j⟩
  | net l =>
    obtain ⟨net, -, rfl⟩ := Option.map_eq_some_iff.mp hs
    exact h

theorem whole_of_patient (s : LinkState) (l : LinkLabel) (h : OneWrite s) (hp : Patient s l) :
    Whole s l := by
  cases l with
  | send k m => exact hp.1
  | transfer k n =>
    intro w ws hw
    have hlen := h k
    rw [hw, List.length_cons] at hlen
    have hnil : ws = [] := List.eq_nil_of_length_eq_zero (by omega)
    exact .inr fun w' hw' => by rw [hnil] at hw'; cases hw'
  | net l => trivial

/-- **Callers that wait lose nothing, however the sockets take their bytes.**  When every peer sends
framed messages and waits for the completion of each before it sends the next, what the callback
receives is a prefix of what was sent, connection by connection, and everything once nothing is on
its way. -/
theorem patient_delivery (ids : List ConId) (defer : Bool) (s : LinkState)
    (h : Reach (linkStep ids) Patient (LinkState.init defer) s) :
    s.net.fault = false ∧ (∀ k, forId k s.net.received <+: s.payloads k) ∧
      (s.Drained ids → ∀ k, forId k s.net.received = s.payloads k) := by
  have hwhole : Reach (linkStep ids) Whole (LinkState.init defer) s :=
    h.imp (fun t l u => oneWrite_step ids t u l) whole_of_patient fun _ => Nat.zero_le 1
  have hi := carried_reach ids defer s hwhole
  exact ⟨hi.order.fault, hi.received_first, hi.received_drained⟩

/-- the socket takes one message in three pieces and another in two -/
def threePieces : List LinkLabel :=
  [.send 4 [97, 255, 0], .transfer 4 1, .transfer 4 1, .transfer 4 1, .send 4 [255, 0],
    .transfer 4 1, .net (.complete 4 4)] ++ List.replicate 5 (.net (.turn 4))
    ++ [.transfer 4 1, .net (.complete 4 1), .net (.turn 4), .net (.turn 4)]

theorem patient_delivery_pieces :
    ∃ s, exec (linkStep [4]) (LinkState.init false) threePieces = some s ∧
      s.net.received = [(4, [97]), (4, [])] ∧ s.net.fault = false ∧
      forId 4 s.net.received = s.payloads 4 := by
  have hrun : (exec (linkStep [4]) (LinkState.init false) threePieces).map
      (fun s => (s.net.received, decide (s.Drained [4]))) = some ([(4, [97]), (4, [])], true) := by
    decide
  have hpatient : Every (linkStep [4]) Patient (LinkState.init false) threePieces := by decide
  obtain ⟨s, hs, hval⟩ := Option.map_eq_some_iff.mp hrun
  have hdrained : s.Drained [4] := of_decide_eq_true (congrArg Prod.snd hval)
  obtain ⟨hfault, -, hall⟩ := patient_delivery [4] false s (Reach.of_every hpatient hs)
  exact ⟨s, hs, congrArg Prod.fst hval, hfault, hall hdrained 4⟩

end VoltNet
