import VoltNet.Framing.Streams
import VoltNet.Network.CloseCon
import VoltNet.Network.Delivery

/-!
# Connections that end while messages are on their way

`Delivery` is about connections that stay open.  Here any of them may be closed at any time: by
the end of its stream, by a read error, or by a call of `close_con` from anywhere, any number of
them side by side and between the turns of the decoding loop.  What it decoded before may still be
queued in the receive pool.  The closed callbacks destroy nothing, like the one of a network after
`network::close` (`closedCallback_stopped`).

* `partStep`          the steps of the network, the completions with an error, and the steps of each
                      call of `close_con`;
* `readError_eq`      a completion with an error, up to the steps of its `close_con`;
* `Ending`            whether the stream had come to its end when `con_open` was cleared;
* `Parted`            the invariant: the network is one of open connections, in which a closed
                      connection is one that is not read any more;
* `Serial`            no call loads `con_open` between the load and the store of another one;
* `parted_delivery`   what was decoded before the close reaches the callback, and nothing else
                      with that id does; behind the end of the stream that is everything.
-/

namespace VoltNet
open Stuffing Runs

inductive Ending where
  /-- `boost::asio::error::eof` -/
  | eof
  /-- another error, or `close_con` -/
  | abrupt
deriving DecidableEq

structure PartState where
  net : NetState
  /-- the calls of `close_con` on each connection -/
  sides : ConId → CloseSide
  /-- the error that the last read of a connection has completed with -/
  lastRead : ConId → Option Ending
  /-- how a connection was closed, and the messages decoded on it before -/
  ended : ConId → Option (Ending × List Message)

inductive PartLabel where
  | net (l : NetLabel)
  /-- the outstanding read of `k` completes with `eof`, all bytes of the peer having been read, and
  its handler makes the call `c` of `close_con` -/
  | eof (k : ConId) (c : CallId)
  /-- it completes with another error -/
  | fail (k : ConId) (c : CallId)
  /-- something else calls `close_con` -/
  | close (k : ConId) (c : CallId)
  /-- the call `c` of `close_con` goes on -/
  | advance (k : ConId) (c : CallId)

def PartState.init (payloads : ConId → List (List NetWord)) (defer : Bool) : PartState where
  net := NetState.init payloads defer
  sides _ := .init true
  lastRead _ := none
  ended _ := none

/-- `con_open.store(false)` -/
def Source.shut (s : Source) : Source :=
  { s with con := ⟨{ s.con.con with conOpen := false }, s.con.trace⟩ }

/-- what `handle_read` does on an error before it calls `close_con` -/
def Source.readError (s : Source) : Source :=
  { s with con := ⟨{ s.con.con with msgSize := 0 }, s.con.trace⟩ }

theorem readError_eq (err : ErrorCode) (herr : err ≠ .success) (s : Source) :
    ConState.handleRead (fun _ => false) err 0 s.con = .ok s.readError.con.closeCon := by
  cases err with
  | success => exact absurd rfl herr
  | eof | other => rfl

def PartState.closing (s : PartState) (k : ConId) : CloseState :=
  (s.sides k).state (s.net.sources k).con.con.conOpen

/-- `close_con` on `k` goes on to `c` -/
def PartState.withClosing (k : ConId) (c : CloseState) (s : PartState) : PartState :=
  if (s.net.sources k).con.con.conOpen ∧ !c.conOpen then
    { s with
      net := { s.net with sources := Function.update s.net.sources k (s.net.sources k).shut }
      sides := Function.update s.sides k c.side
      ended := Function.update s.ended k
        (some ((s.lastRead k).getD .abrupt, forId k s.net.items)) }
  else { s with sides := Function.update s.sides k c.side }

def PartState.close (k : ConId) (l : CloseLabel) (s : PartState) : Option PartState :=
  (closeStep (s.closing k) l).map fun c => s.withClosing k c

/-- the outstanding read of `k` completes with an error -/
def PartState.failed (k : ConId) (e : Ending) (s : PartState) : PartState :=
  { s with
    net := { s.net with sources := Function.update s.net.sources k (s.net.sources k).readError }
    lastRead := Function.update s.lastRead k (some e) }

/-- there is a read that can complete -/
def PartState.reading (s : PartState) : NetLabel → Bool
  | .complete k _ => s.lastRead k = none
  | .turn _ | .processNewMsgs | .drain => true

def partStep (ids : List ConId) (s : PartState) : PartLabel → Option PartState
  | .net l =>
    if s.reading l then (netStep ids s.net l).map fun net => { s with net := net } else none
  | .eof k c =>
    if k ∈ ids ∧ (s.net.sources k).inLoop = false ∧ (s.net.sources k).unread = [] ∧
        s.lastRead k = none then
      (s.failed k .eof).close k (.call c)
    else none
  | .fail k c =>
    if k ∈ ids ∧ (s.net.sources k).inLoop = false ∧ s.lastRead k = none then
      (s.failed k .abrupt).close k (.call c)
    else none
  | .close k c => if k ∈ ids then s.close k (.call c) else none
  | .advance k c => s.close k (.advance c)

/-! ## closed connections -/

/-- the loop of a closed connection takes nothing and ends -/
theorem closed_turn (s : Source) (h : s.con.con.conOpen = false) :
    s.turn = .ok (⟨⟨s.con.con, s.con.trace⟩, false, s.unread⟩, none) := by
  rw [Source.turn, turn_closed s.con.con h]
  show Except.ok (Source.mk (if s.con.con.conOpen then _ else _) false s.unread, none) = _
  rw [if_neg (by rw [h]; exact Bool.false_ne_true)]

/-- everything decoded from a stream that was read to its end -/
theorem Source.Ok.decoded_all {k : ConId} {ps : List (List NetWord)} {s : Source} (h : s.Ok k ps)
    (hidle : s.inLoop = false) (hread : s.unread = []) :
    (delivered s.con.trace).map Prod.snd = ps := by
  have hstream := h.stream
  have hleft : s.left = [] := by
    rw [Source.left, hidle]
    rfl
  rw [hleft, hread, List.append_nil, List.append_nil] at hstream
  rw [h.took.delivered, hstream, encodeAll_eq]
  show ((out codes ⟨[], false⟩ (Stuffing.stream codes ps)).map (k, ·)).map Prod.snd = ps
  rw [out_stream, List.map_map]
  exact List.map_id ps

theorem Source.Ok.readError {k : ConId} {ps : List (List NetWord)} {s : Source} (h : s.Ok k ps)
    (hidle : s.inLoop = false) : s.readError.Ok k ps where
  took := by
    have hquiet : Took s.con [] s.readError.con := Took.of_quiet rfl rfl rfl rfl id
    have htook := h.took.trans hquiet
    rwa [List.append_nil] at htook
  opened := h.opened
  stream := by
    have hleft : s.readError.left = s.left := by
      rw [Source.left, Source.left, hidle]
      show (if s.inLoop then _ else _) = _
      rw [hidle]
      rfl
    rw [hleft]
    exact h.stream
  cursor := h.cursor
  size hloop := absurd (hidle.symm.trans hloop) (by decide)

/-! ## the invariant -/

section
variable (ids : List ConId) (payloads : ConId → List (List NetWord)) (defer : Bool)

/-- `sources` are the connections as they are, but for the closed ones, which stay as they were
when they were closed -/
structure Parted (s : PartState) (sources : ConId → Source) : Prop where
  inOrder : InOrder ids payloads defer { s.net with sources := sources }
  opened : ∀ k, s.ended k = none → sources k = s.net.sources k
  closed : ∀ k e d, s.ended k = some (e, d) → (s.net.sources k).con.con.conOpen = false ∧
    (delivered (sources k).con.trace).map Prod.snd = d ∧ (e = .eof → d = payloads k)
  atEof : ∀ k, s.lastRead k = some .eof → s.ended k = none →
    (s.net.sources k).inLoop = false ∧ (s.net.sources k).unread = []

variable {ids payloads defer} {s : PartState} {sources : ConId → Source}

theorem Parted.ok (h : Parted ids payloads defer s sources) {k : ConId} (hk : s.ended k = none) :
    (s.net.sources k).Ok k (payloads k) := by
  rw [← h.opened k hk]
  exact h.inOrder.sources k

/-- `con_open` is set until the close is recorded -/
theorem Parted.conOpen (h : Parted ids payloads defer s sources) (k : ConId) :
    (s.net.sources k).con.con.conOpen = (s.ended k).isNone := by
  cases hk : s.ended k with
  | none => exact (h.ok hk).opened
  | some x => exact (h.closed k x.1 x.2 hk).1

/-- a closed connection does something, and stays closed -/
theorem Parted.still (h : Parted ids payloads defer s sources) (k : ConId)
    (hk : s.ended k ≠ none) (source : Source) (hclosed : source.con.con.conOpen = false) :
    Parted ids payloads defer
      { s with net := { s.net with sources := Function.update s.net.sources k source } }
      sources := by
  have hother : ∀ j, s.ended j = none → Function.update s.net.sources k source j
      = s.net.sources j := by
    intro j hj
    refine Function.update_of_ne ?_ ..
    rintro rfl
    exact hk hj
  refine ⟨h.inOrder, fun j hj => (h.opened j hj).trans (hother j hj).symm, fun j e d hj => ?_,
    fun j hover hj => ?_⟩
  · obtain ⟨hold, hdel, heof⟩ := h.closed j e d hj
    refine ⟨?_, hdel, heof⟩
    show (Function.update s.net.sources k source j).con.con.conOpen = false
    by_cases hjk : j = k
    · rw [hjk, Function.update_self]
      exact hclosed
    · rw [Function.update_of_ne hjk]
      exact hold
  · show (Function.update s.net.sources k source j).inLoop = false ∧
      (Function.update s.net.sources k source j).unread = []
    rw [hother j hj]
    exact h.atEof j hover hj

/-- an open connection goes on to `source`, which is open too -/
theorem Parted.moves (h : Parted ids payloads defer s sources) (k : ConId) (hk : s.ended k = none)
    (net : NetState) (source : Source)
    (hsources : net.sources = Function.update s.net.sources k source)
    (hinOrder : InOrder ids payloads defer
      { net with sources := Function.update sources k source })
    (hover : s.lastRead k = some .eof → source.inLoop = false ∧ source.unread = []) :
    Parted ids payloads defer { s with net := net } (Function.update sources k source) := by
  refine ⟨hinOrder, fun j hj => ?_, fun j e d hj => ?_, fun j hj hj' => ?_⟩
  · show _ = net.sources j
    rw [hsources]
    by_cases hjk : j = k
    · rw [hjk, Function.update_self, Function.update_self]
    · rw [Function.update_of_ne hjk, Function.update_of_ne hjk]
      exact h.opened j hj
  · have hjk : j ≠ k := by
      rintro rfl
      cases hk.symm.trans hj
    show (net.sources j).con.con.conOpen = false ∧ _
    rw [hsources, Function.update_of_ne hjk, Function.update_of_ne hjk]
    exact h.closed j e d hj
  · show (net.sources j).inLoop = false ∧ (net.sources j).unread = []
    rw [hsources]
    by_cases hjk : j = k
    · subst hjk
      rw [Function.update_self]
      exact hover hj
    · rw [Function.update_of_ne hjk]
      exact h.atEof j hj hj'

/-- **A connection is closed.**  What it has decoded is what was handed on or is queued with its
id. -/
theorem Parted.closes (h : Parted ids payloads defer s sources) (k : ConId) (c : CloseState)
    (hk : s.ended k = none) :
    Parted ids payloads defer
      { s with
        net := { s.net with sources := Function.update s.net.sources k (s.net.sources k).shut }
        sides := Function.update s.sides k c.side
        ended := Function.update s.ended k
          (some ((s.lastRead k).getD .abrupt, forId k s.net.items)) } sources := by
  -- the other ones are as they were
  have hother : ∀ j, Function.update s.ended k
      (some ((s.lastRead k).getD .abrupt, forId k s.net.items)) j = none →
        j ≠ k ∧ s.ended j = none := by
    intro j hj
    have hjk : j ≠ k := by
      rintro rfl
      rw [Function.update_self] at hj
      cases hj
    rw [Function.update_of_ne hjk] at hj
    exact ⟨hjk, hj⟩
  refine ⟨h.inOrder, fun j hj => ?_, fun j e d hj => ?_, fun j hover hj => ?_⟩
  · obtain ⟨hjk, hj⟩ := hother j hj
    exact (h.opened j hj).trans (Function.update_of_ne hjk ..).symm
  · have hj : Function.update s.ended k _ j = some (e, d) := hj
    show (Function.update s.net.sources k (s.net.sources k).shut j).con.con.conOpen = false ∧ _
    by_cases hjk : j = k
    · subst hjk
      rw [Function.update_self] at hj ⊢
      obtain ⟨rfl, rfl⟩ := Prod.mk.inj (Option.some.inj hj)
      have horder : forId j s.net.items = (delivered (sources j).con.trace).map Prod.snd :=
        h.inOrder.order j
      refine ⟨rfl, horder.symm, fun he => ?_⟩
      have hover : s.lastRead j = some .eof := by
        cases ho : s.lastRead j with
        | none => rw [ho] at he; cases he
        | some e => rw [ho] at he; exact congrArg some he
      obtain ⟨hidle, hread⟩ := h.atEof j hover hk
      rw [horder, h.opened j hk]
      exact (h.ok hk).decoded_all hidle hread
    · rw [Function.update_of_ne hjk] at hj ⊢
      exact h.closed j e d hj
  · obtain ⟨hjk, hj⟩ := hother j hj
    show (Function.update s.net.sources k (s.net.sources k).shut j).inLoop = false ∧
      (Function.update s.net.sources k (s.net.sources k).shut j).unread = []
    rw [Function.update_of_ne hjk]
    exact h.atEof j hover hj

theorem Parted.withClosing (h : Parted ids payloads defer s sources) (k : ConId) (c : CloseState) :
    Parted ids payloads defer (s.withClosing k c) sources := by
  rw [PartState.withClosing]
  split
  · next hstore =>
    exact h.closes k c (Option.isNone_iff_eq_none.mp ((h.conOpen k).symm.trans hstore.1))
  · exact ⟨h.inOrder, h.opened, h.closed, h.atEof⟩

theorem inOrder_readError (k : ConId) {t : NetState} (h : InOrder ids payloads defer t)
    (hidle : (t.sources k).inLoop = false) :
    InOrder ids payloads defer
      { t with sources := Function.update t.sources k (t.sources k).readError } where
  sources := by
    apply (Function.forall_update_iff t.sources fun j (x : Source) => x.Ok j (payloads j)).mpr
    exact ⟨(h.sources k).readError hidle, fun j _ => h.sources j⟩
  paired := h.paired
  popping := h.popping
  mode := h.mode
  immediate := h.immediate
  order := by
    apply (Function.forall_update_iff t.sources fun j (x : Source) =>
      forId j t.items = (delivered x.con.trace).map Prod.snd).mpr
    exact ⟨h.order k, fun j _ => h.order j⟩
  known := h.known
  fault := h.fault

/-- **A read completes with an error**, behind everything if it is the end of the stream. -/
theorem Parted.failed (h : Parted ids payloads defer s sources) (k : ConId) (e : Ending)
    (hidle : (s.net.sources k).inLoop = false)
    (hread : e = .eof → (s.net.sources k).unread = []) :
    ∃ sources', Parted ids payloads defer (s.failed k e) sources' := by
  let net : NetState :=
    { s.net with sources := Function.update s.net.sources k (s.net.sources k).readError }
  have hnet : ∃ sources', Parted ids payloads defer { s with net := net } sources' := by
    cases hk : s.ended k with
    | none =>
      have hsame := h.opened k hk
      rw [← hsame] at hidle
      refine ⟨_, h.moves k hk net (s.net.sources k).readError rfl ?_ fun hover => h.atEof k hover hk⟩
      rw [← hsame]
      exact inOrder_readError k h.inOrder hidle
    | some x =>
      exact ⟨sources, h.still k (by rw [hk]; nofun) _ (h.closed k x.1 x.2 hk).1⟩
  obtain ⟨sources', h'⟩ := hnet
  refine ⟨sources', h'.inOrder, h'.opened, h'.closed, fun j hover hj => ?_⟩
  by_cases hjk : j = k
  · subst hjk
    have hover : Function.update s.lastRead j (some e) j = some .eof := hover
    rw [Function.update_self] at hover
    show (Function.update s.net.sources j (s.net.sources j).readError j).inLoop = false ∧
      (Function.update s.net.sources j (s.net.sources j).readError j).unread = []
    rw [Function.update_self]
    exact ⟨hidle, hread (Option.some.inj hover)⟩
  · have hover : Function.update s.lastRead k (some e) j = some .eof := hover
    rw [Function.update_of_ne hjk] at hover
    exact h'.atEof j hover hj

/-! ## steps -/

theorem submit_sources (m : Option (ConId × Message)) (s : NetState) (f : ConId → Source) :
    { NetState.submit m s with sources := f } = NetState.submit m { s with sources := f } := by
  cases m with
  | none => rfl
  | some x => rfl

theorem parted_net (l : NetLabel) (t : PartState) (h : Parted ids payloads defer s sources)
    (hs : partStep ids s (.net l) = some t) : ∃ sources', Parted ids payloads defer t sources' := by
  obtain ⟨hreading, hs⟩ := Option.ite_none_right_eq_some.mp hs
  obtain ⟨net, hnet, rfl⟩ := Option.map_eq_some_iff.mp hs
  cases l with
  | complete k n =>
    obtain ⟨⟨-, hidle, hn, hle⟩, rfl⟩ := of_guard hnet
    have hover : s.lastRead k = none := of_decide_eq_true hreading
    cases hk : s.ended k with
    | none =>
      have hsame := h.opened k hk
      rw [← hsame] at hidle hle
      have ht := inOrder_complete ids payloads defer _ k n h.inOrder hidle hn hle
      rw [← hsame]
      exact ⟨_, h.moves k hk _ _ rfl ht fun heof => by cases hover.symm.trans heof⟩
    | some x =>
      exact ⟨sources, h.still k (by rw [hk]; nofun) _ (h.closed k x.1 x.2 hk).1⟩
  | turn k =>
    obtain ⟨⟨hin, hloop⟩, ht⟩ := Option.ite_none_right_eq_some.mp hnet
    cases hk : s.ended k with
    | none =>
      have hsame := h.opened k hk
      obtain ⟨source, m, hturn, hok, hm, hdel⟩ :=
        Source.ok_turn k (payloads k) (s.net.sources k) (h.ok hk) hloop
      rw [hturn] at ht
      rw [← Option.some.inj ht]
      rw [← hsame] at hdel
      have hin := inOrder_turn ids payloads defer _ k hin source m h.inOrder hok hm hdel
      refine ⟨_, h.moves k hk _ source ?_ ?_ fun heof => ?_⟩
      · cases m <;> rfl
      · rw [submit_sources]
        exact hin
      · cases hloop.symm.trans (h.atEof k heof hk).1
    | some x =>
      have hclosed := (h.closed k x.1 x.2 hk).1
      rw [closed_turn _ hclosed] at ht
      rw [← Option.some.inj ht]
      exact ⟨sources, h.still k (by rw [hk]; nofun) _ hclosed⟩
  | processNewMsgs =>
    obtain ⟨hidle, rfl⟩ := of_guard hnet
    exact ⟨sources, inOrder_start ids payloads defer _ h.inOrder hidle, h.opened, h.closed, h.atEof⟩
  | drain =>
    obtain ⟨hbusy, ht⟩ := Option.ite_none_left_eq_some.mp hnet
    obtain ⟨⟨drain, pool, calls⟩, hadv⟩ :=
      advance_some s.net.drain s.net.pool h.inOrder.paired hbusy h.inOrder.popping
    rw [hadv] at ht
    rw [← Option.some.inj ht]
    exact ⟨sources, inOrder_drain ids payloads defer _ drain pool calls h.inOrder hbusy hadv,
      h.opened, h.closed, h.atEof⟩

theorem parted_step (l : PartLabel) (t : PartState) (h : Parted ids payloads defer s sources)
    (hs : partStep ids s l = some t) : ∃ sources', Parted ids payloads defer t sources' := by
  cases l with
  | net l => exact parted_net l t h hs
  | eof k c =>
    obtain ⟨⟨-, hidle, hread, -⟩, hs⟩ := Option.ite_none_right_eq_some.mp hs
    obtain ⟨x, -, rfl⟩ := Option.map_eq_some_iff.mp hs
    obtain ⟨sources', h'⟩ := h.failed k .eof hidle fun _ => hread
    exact ⟨sources', h'.withClosing k x⟩
  | fail k c =>
    obtain ⟨⟨-, hidle, -⟩, hs⟩ := Option.ite_none_right_eq_some.mp hs
    obtain ⟨x, -, rfl⟩ := Option.map_eq_some_iff.mp hs
    obtain ⟨sources', h'⟩ := h.failed k .abrupt hidle nofun
    exact ⟨sources', h'.withClosing k x⟩
  | close k c =>
    obtain ⟨-, hs⟩ := Option.ite_none_right_eq_some.mp hs
    obtain ⟨x, -, rfl⟩ := Option.map_eq_some_iff.mp hs
    exact ⟨sources, h.withClosing k x⟩
  | advance k c =>
    obtain ⟨x, -, rfl⟩ := Option.map_eq_some_iff.mp hs
    exact ⟨sources, h.withClosing k x⟩

end

/-- there are such connections -/
def PartedSome (ids : List ConId) (payloads : ConId → List (List NetWord)) (defer : Bool)
    (s : PartState) : Prop :=
  ∃ sources, Parted ids payloads defer s sources

theorem partedSome_init (ids : List ConId) (payloads : ConId → List (List NetWord))
    (defer : Bool) : PartedSome ids payloads defer (PartState.init payloads defer) :=
  ⟨_, inOrder_init ids payloads defer, fun _ _ => rfl, nofun, nofun⟩

theorem partedSome_step (ids : List ConId) (payloads : ConId → List (List NetWord)) (defer : Bool)
    (s t : PartState) (l : PartLabel) (h : PartedSome ids payloads defer s)
    (hs : partStep ids s l = some t) : PartedSome ids payloads defer t := by
  obtain ⟨sources, h⟩ := h
  exact parted_step l t h hs

/-! ## the calls of `close_con` -/

/-- no call loads `con_open` while another one on the same connection is between its load and its
store -/
def Serial (s : PartState) : PartLabel → Prop
  | .advance k c => Guarded (s.closing k) (.advance c)
  | .net _ | .eof _ _ | .fail _ _ | .close _ _ => True

theorem closing_part (s : PartState) (k j : ConId) (c : CloseState)
    (hopen : c.conOpen = true → (s.net.sources k).con.con.conOpen = true) :
    (s.withClosing k c).closing j = if j = k then c else s.closing j := by
  rw [PartState.withClosing]
  by_cases hj : j = k
  · subst hj
    rw [if_pos rfl]
    split
    · next hstore =>
      have hclosed : c.conOpen = false := by simpa using hstore.2
      show (Function.update s.sides j c.side j).state
        (Function.update s.net.sources j (s.net.sources j).shut j).con.con.conOpen = c
      rw [Function.update_self, Function.update_self, CloseSide.state]
      show CloseState.mk false _ _ _ = c
      rw [← hclosed]
      rfl
    · next hnot =>
      have hflag : (s.net.sources j).con.con.conOpen = c.conOpen := by
        cases hc : c.conOpen with
        | true => exact hopen hc
        | false =>
          cases ho : (s.net.sources j).con.con.conOpen with
          | false => rfl
          | true => exact absurd ⟨ho, by rw [hc]; rfl⟩ hnot
      show (Function.update s.sides j c.side j).state (s.net.sources j).con.con.conOpen = c
      rw [Function.update_self, hflag]
      rfl
  · rw [if_neg hj]
    split
    · show (Function.update s.sides k c.side j).state
        (Function.update s.net.sources k (s.net.sources k).shut j).con.con.conOpen = _
      rw [Function.update_of_ne hj, Function.update_of_ne hj]
      rfl
    · show (Function.update s.sides k c.side j).state (s.net.sources j).con.con.conOpen = _
      rw [Function.update_of_ne hj]
      rfl

theorem closing_failed (s : PartState) (k j : ConId) (e : Ending) :
    (s.failed k e).closing j = s.closing j := by
  show (s.sides j).state (Function.update s.net.sources k _ j).con.con.conOpen = _
  by_cases hj : j = k
  · rw [hj, Function.update_self]
    rfl
  · rw [Function.update_of_ne hj]
    rfl

theorem oneCloser_close (s t : PartState) (k j : ConId) (l : CloseLabel)
    (hl : Guarded (s.closing k) l) (h : OneCloser (s.closing j)) (hs : s.close k l = some t) :
    OneCloser (t.closing j) := by
  obtain ⟨c, hc, rfl⟩ := Option.map_eq_some_iff.mp hs
  rw [closing_part s k j c (closeStep_opens _ c l hc)]
  by_cases hj : j = k
  · subst hj
    rw [if_pos rfl]
    exact oneCloser_step _ c l h hl hc
  · rw [if_neg hj]
    exact h

/-- a step of the network touches no `con_open` -/
theorem closing_net (ids : List ConId) (payloads : ConId → List (List NetWord)) (defer : Bool)
    (s t : PartState) (l : NetLabel) (h : PartedSome ids payloads defer s)
    (hs : partStep ids s (.net l) = some t) (j : ConId) : t.closing j = s.closing j := by
  obtain ⟨sources', h'⟩ := partedSome_step ids payloads defer s t _ h hs
  obtain ⟨sources, h⟩ := h
  obtain ⟨-, hs⟩ := Option.ite_none_right_eq_some.mp hs
  obtain ⟨net, -, rfl⟩ := Option.map_eq_some_iff.mp hs
  have hflag : (net.sources j).con.con.conOpen = (s.net.sources j).con.con.conOpen :=
    (h'.conOpen j).trans (h.conOpen j).symm
  show (s.sides j).state (net.sources j).con.con.conOpen = _
  rw [hflag]
  rfl

theorem oneCloser_part (ids : List ConId) (payloads : ConId → List (List NetWord)) (defer : Bool)
    (s t : PartState) (l : PartLabel) (hp : PartedSome ids payloads defer s) (hl : Serial s l)
    (h : ∀ j, OneCloser (s.closing j)) (hs : partStep ids s l = some t) (j : ConId) :
    OneCloser (t.closing j) := by
  cases l with
  | net l =>
    rw [closing_net ids payloads defer s t l hp hs j]
    exact h j
  | eof k c =>
    obtain ⟨-, hs⟩ := Option.ite_none_right_eq_some.mp hs
    exact oneCloser_close (s.failed k .eof) t k j (.call c) trivial
      (by rw [closing_failed]; exact h j) hs
  | fail k c =>
    obtain ⟨-, hs⟩ := Option.ite_none_right_eq_some.mp hs
    exact oneCloser_close (s.failed k .abrupt) t k j (.call c) trivial
      (by rw [closing_failed]; exact h j) hs
  | close k c =>
    obtain ⟨-, hs⟩ := Option.ite_none_right_eq_some.mp hs
    exact oneCloser_close s t k j (.call c) trivial (h j) hs
  | advance k c => exact oneCloser_close s t k j (.advance c) hl (h j) hs

/-- no call throws -/
theorem parted_serial (ids : List ConId) (payloads : ConId → List (List NetWord)) (defer : Bool)
    (s : PartState) (h : Reach (partStep ids) Serial (PartState.init payloads defer) s)
    (k : ConId) (c : CallId) : (s.sides k).calls c ≠ some .threw := by
  obtain ⟨-, hone⟩ := h.invariant
    (I := fun t => PartedSome ids payloads defer t ∧ ∀ j, OneCloser (t.closing j))
    ⟨partedSome_init ids payloads defer, fun _ => oneCloser_init⟩ fun t l u ht hl hu =>
      ⟨partedSome_step ids payloads defer t u l ht.1 hu,
        oneCloser_part ids payloads defer t u l ht.1 hl ht.2 hu⟩
  exact (hone k).unthrown c

/-! ## what the callback receives -/

section
variable {ids : List ConId} {payloads : ConId → List (List NetWord)} {defer : Bool}
  {s : PartState} {sources : ConId → Source}

theorem Parted.received_prefix (h : Parted ids payloads defer s sources) (k : ConId) :
    forId k s.net.received <+: (delivered (sources k).con.trace).map Prod.snd := by
  have horder : forId k s.net.items = (delivered (sources k).con.trace).map Prod.snd :=
    h.inOrder.order k
  rw [← horder, NetState.items, forId_append]
  exact List.prefix_append _ _

/-- all that was decoded, when nothing is queued -/
theorem Parted.received_all (h : Parted ids payloads defer s sources)
    (hquiet : defer = false ∨ (s.net.drain.held = [] ∧ s.net.pool.queued = [])) (k : ConId) :
    forId k s.net.received = (delivered (sources k).con.trace).map Prod.snd := by
  have hi := h.inOrder
  have hnone : s.net.drain.held = [] ∧ s.net.pool.queued = [] := by
    rcases hquiet with hd | hquiet
    · obtain ⟨hidle, hq⟩ := hi.immediate (hi.mode.trans hd)
      have hidle : s.net.drain = .idle := hidle
      exact ⟨by rw [hidle]; rfl, hq⟩
    · exact hquiet
  rw [(hi.sources k).emitted]
  exact hi.received_all hnone.1 hnone.2 k

end

/-- **A close loses no decoded message.**  In every run in which connections are closed in any of
the three ways and at any time: nothing throws while decoding and no empty queue is popped, and no
call of `close_con` throws if none loads `con_open` between another one's load and store; what the
callback receives with an id is a prefix of what the peer sent; with the id of a closed connection
it receives what was decoded before the close and nothing more, at once when messages are not
deferred, and else when the queue has been drained; if the stream had come to its end these are all
the payloads of the peer; and connections that are open receive as before. -/
theorem parted_delivery (ids : List ConId) (payloads : ConId → List (List NetWord)) (defer : Bool)
    (s : PartState)
    (h : Reach (partStep ids) (fun _ _ => True) (PartState.init payloads defer) s) :
    s.net.fault = false ∧
      (Reach (partStep ids) Serial (PartState.init payloads defer) s →
        ∀ k c, (s.sides k).calls c ≠ some .threw) ∧
      (∀ k, (s.net.sources k).con.con.conOpen = (s.ended k).isNone) ∧
      (∀ k, forId k s.net.received <+: payloads k) ∧
      (∀ k e decoded, s.ended k = some (e, decoded) →
        forId k s.net.received <+: decoded ∧ (e = .eof → decoded = payloads k) ∧
        (defer = false ∨ (s.net.drain.held = [] ∧ s.net.pool.queued = []) →
          forId k s.net.received = decoded)) ∧
      (∀ k, s.ended k = none →
        (defer = false ∨ (s.net.drain.held = [] ∧ s.net.pool.queued = []) →
          forId k s.net.received = s.net.fullyRead payloads k)) := by
  have hs : PartedSome ids payloads defer s :=
    h.invariant (partedSome_init ids payloads defer)
      fun t l u ht _ hu => partedSome_step ids payloads defer t u l ht hu
  obtain ⟨sources, hs⟩ := hs
  have hi := hs.inOrder
  refine ⟨hi.fault, parted_serial ids payloads defer s, hs.conOpen, fun k => ?_,
    fun k e decoded hk => ?_, fun k hk hquiet => ?_⟩
  · have hdel := hs.received_prefix k
    rw [(hi.sources k).emitted] at hdel
    exact hdel.trans (within_isPrefix codes _ _)
  · obtain ⟨-, hdel, heof⟩ := hs.closed k e decoded hk
    refine ⟨?_, heof, fun hquiet => ?_⟩
    · rw [← hdel]
      exact hs.received_prefix k
    · rw [hs.received_all hquiet k, hdel]
  · rw [hs.received_all hquiet k, (hi.sources k).emitted]
    show within codes (payloads k) (consumed (sources k).con.trace).length = _
    rw [hs.opened k hk]
    rfl

/-- one peer closes behind its message, and the other connection is closed inside a frame, by two
calls of which one comes after the other's store; the message of the first is handed on after
that -/
def partTwo : List PartLabel :=
  [.net (.complete 1 3), .net (.turn 1), .net (.turn 1), .net (.turn 1), .net (.turn 1), .eof 1 0,
    .advance 1 0, .net (.complete 2 4), .net (.turn 2), .net (.turn 2), .close 2 0, .close 2 1,
    .advance 2 0, .advance 2 0, .advance 1 0, .advance 2 1, .net (.turn 2), .net .processNewMsgs,
    .net .drain, .net .drain, .net .drain]

theorem parted_delivery_two :
    ∃ s, exec (partStep [1, 2])
        (PartState.init (fun k => if k = 1 then [[97]] else [[98], [99]]) true) partTwo = some s ∧
      s.ended 1 = some (.eof, [[97]]) ∧ s.ended 2 = some (.abrupt, []) ∧
      s.net.fault = false ∧ forId 1 s.net.received = [[97]] ∧ forId 2 s.net.received = [] := by
  have hrun : (exec (partStep [1, 2])
      (PartState.init (fun k => if k = 1 then [[97]] else [[98], [99]]) true) partTwo).map
          (fun s => (decide (s.ended 1 = some (.eof, [[97]])),
            decide (s.ended 2 = some (.abrupt, [])), (s.net.drain.held ++ s.net.pool.queued).length))
      = some (true, true, 0) := by decide
  obtain ⟨s, hs, hval⟩ := Option.map_eq_some_iff.mp hrun
  have h1 : s.ended 1 = some (.eof, [[97]]) := of_decide_eq_true (congrArg Prod.fst hval)
  have h2 : s.ended 2 = some (.abrupt, []) := of_decide_eq_true (congrArg (fun x => x.2.1) hval)
  have hquiet : s.net.drain.held = [] ∧ s.net.pool.queued = [] :=
    List.append_eq_nil_iff.mp (List.length_eq_zero_iff.mp (congrArg (fun x => x.2.2) hval))
  obtain ⟨hfault, -, -, -, hended, -⟩ := parted_delivery _ _ _ s (Reach.of_exec _ hs)
  exact ⟨s, hs, h1, h2, hfault, (hended 1 _ _ h1).2.2 (.inr hquiet),
    (hended 2 _ _ h2).2.2 (.inr hquiet)⟩

end VoltNet
