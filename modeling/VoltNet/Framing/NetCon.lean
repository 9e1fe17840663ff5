import VoltNet.Framing.Encode

/-!
# `net_con`: the reading side of one connection

State and handlers of `net_con.cpp`, for a connection whose two callbacks are installed.

* `NetCon`            the members that the handlers read or write;
* `getNextByte`       one byte of the chunk in `buff`, or the end of the chunk;
* `handleByte`        the body of the decoding loop, with the message it hands over, if any;
* `turn`              one turn of the loop: guard, `get_next_byte`, body;
* `ConState`          a connection together with the trace of what its handlers did;
* `decodeLoop`, `handleRead`   the loop and the completion handler;
* `readCompletion`, `feed`     a chunk that `async_read_some` put into `buff`, and a list of them.

A message callback may call `close_con` on its connection; whether it does may depend on
everything the connection did before (`NewMsgCallback`).
-/

namespace VoltNet

/-- `buff.resize(2048)` in the constructor -/
def buffCapacity : Nat := 2048

/-- what `handle_read` tells apart in the `error_code` of a completion -/
inductive ErrorCode where
  | success
  | eof
  | other
deriving DecidableEq

/-- ways in which a handler can fail to return normally -/
inductive Fault where
  /-- `std::out_of_range`, thrown by `buff.at` -/
  | outOfRange (index : Nat)
  /-- the loop bound of the model is used up -/
  | outOfFuel
deriving DecidableEq

/-- the members of `net_con` behind the reading side -/
structure NetCon where
  conOpen : Bool
  buff : List NetWord
  recvMsg : Message
  nextIsEscape : Bool
  currentIndex : Nat
  msgSize : Nat
  id : ConId
  isReading : Bool
deriving DecidableEq

/-- the constructor: `recv_msg` is a message of the pool, resized to zero -/
def NetCon.new (connectionId : ConId) : NetCon where
  conOpen := true
  buff := List.replicate buffCapacity 0
  recvMsg := []
  nextIsEscape := false
  currentIndex := 0
  msgSize := 0
  id := connectionId
  isReading := false

/-- `close_con` up to the callback: the argument is what `con_closed_callback` is called with,
`none` when the connection was closed already -/
def NetCon.closeCon (c : NetCon) : NetCon × Option ConId :=
  if !c.conOpen then (c, none) else ({ c with conOpen := false }, some c.id)

def NetCon.getNextByte (c : NetCon) : Except Fault (NetCon × Option NetWord) :=
  if c.msgSize = 0 ∨ c.currentIndex ≥ c.msgSize ∨ !c.conOpen then
    .ok ({ c with currentIndex := 0 }, none)
  else
    match c.buff[c.currentIndex]? with
    | none => .error (.outOfRange c.currentIndex)
    | some nextByte => .ok ({ c with currentIndex := c.currentIndex + 1 }, some nextByte)

/-- the body of the `while` of `handle_read`; the message is the one passed to
`new_msg_callback` -/
def NetCon.handleByte (c : NetCon) (nextByte : NetWord) : NetCon × Option Message :=
  if nextByte ≠ escapeVal ∧ !c.nextIsEscape then
    ({ c with recvMsg := c.recvMsg ++ [nextByte] }, none)
  else if nextByte = escapeVal ∧ !c.nextIsEscape then
    ({ c with nextIsEscape := true }, none)
  else if c.nextIsEscape then
    if nextByte = msgOrigiChar then
      ({ c with recvMsg := c.recvMsg ++ [escapeVal], nextIsEscape := false }, none)
    else if nextByte = msgEndEscaped then
      -- recv_msg is moved into the call and replaced by an emptied message of the pool
      ({ c with recvMsg := [], nextIsEscape := false }, some c.recvMsg)
    else
      -- the `default` branch: nothing is thrown, the pair is skipped
      ({ c with nextIsEscape := false }, none)
  else (c, none)

/-- one turn of the `while`: the byte taken and the message handed over, `none` when it ends -/
def NetCon.turn (c : NetCon) : Except Fault (NetCon × Option (NetWord × Option Message)) :=
  if c.conOpen then
    match c.getNextByte with
    | .error f => .error f
    | .ok (c, none) => .ok (c, none)
    | .ok (c, some b) => .ok ((c.handleByte b).1, some (b, (c.handleByte b).2))
  else .ok (c, none)

/-- what the handlers of a connection do, in order -/
inductive Action where
  /-- `get_next_byte` gave the loop a byte (a ghost: no code looks at it) -/
  | byte (b : NetWord)
  | newMsg (id : ConId) (m : Message)
  | closed (id : ConId)
  | readScheduled
deriving DecidableEq

structure ConState where
  con : NetCon
  trace : List Action
deriving DecidableEq

/-- whether `new_msg_callback` calls `close_con` before it returns, given what happened so far
(its own call is the last item) -/
abbrev NewMsgCallback := List Action → Bool

def ConState.closeCon (s : ConState) : ConState :=
  match s.con.closeCon with
  | (c, none) => ⟨c, s.trace⟩
  | (c, some id) => ⟨c, s.trace ++ [.closed id]⟩

def ConState.scheduleReadHandler (s : ConState) : ConState :=
  ⟨s.con, s.trace ++ [.readScheduled]⟩

/-- `set_new_msg_callback` starts the first read -/
def ConState.setNewMsgCallback (s : ConState) : ConState :=
  if !s.con.isReading then
    ⟨{ s.con with isReading := true }, s.scheduleReadHandler.trace⟩
  else s

/-- a new connection whose reading has been started -/
def ConState.fresh (id : ConId) : ConState := ConState.setNewMsgCallback ⟨NetCon.new id, []⟩

/-- the call of `new_msg_callback` -/
def ConState.newMsg (cb : NewMsgCallback) (m : Message) (s : ConState) : ConState :=
  let s : ConState := ⟨s.con, s.trace ++ [.newMsg s.con.id m]⟩
  if cb s.trace then s.closeCon else s

def ConState.decodeLoop (cb : NewMsgCallback) : Nat → ConState → Except Fault ConState
  | 0, _ => .error .outOfFuel
  | fuel + 1, s =>
    match s.con.turn with
    | .error f => .error f
    | .ok (c, none) => .ok ⟨c, s.trace⟩
    | .ok (c, some (b, none)) => decodeLoop cb fuel ⟨c, s.trace ++ [.byte b]⟩
    | .ok (c, some (b, some m)) =>
      decodeLoop cb fuel (ConState.newMsg cb m ⟨c, s.trace ++ [.byte b]⟩)

def ConState.handleRead (cb : NewMsgCallback) (err : ErrorCode) (bytesTransferred : Nat)
    (s : ConState) : Except Fault ConState :=
  let s : ConState := ⟨{ s.con with msgSize := bytesTransferred }, s.trace⟩
  match err with
  | .success =>
    match ConState.decodeLoop cb (bytesTransferred + 1) s with
    | .error f => .error f
    | .ok s => if s.con.conOpen then .ok s.scheduleReadHandler else .ok s
  | .eof => .ok s.closeCon
  | .other => .ok s.closeCon

/-- `async_read_some` wrote `chunk` to the front of `buff` -/
def NetCon.fillBuff (c : NetCon) (chunk : List NetWord) : NetCon :=
  { c with buff := chunk ++ c.buff.drop chunk.length }

/-- a read that completes without error -/
def ConState.readCompletion (cb : NewMsgCallback) (chunk : List NetWord) (s : ConState) :
    Except Fault ConState :=
  ConState.handleRead cb .success chunk.length ⟨s.con.fillBuff chunk, s.trace⟩

/-- successive reads that complete without error -/
def ConState.feed (cb : NewMsgCallback) : ConState → List (List NetWord) → Except Fault ConState
  | s, [] => .ok s
  | s, chunk :: chunks =>
    match ConState.readCompletion cb chunk s with
    | .error f => .error f
    | .ok s => feed cb s chunks

/-! ## reading a trace -/

/-- bytes that `get_next_byte` gave the loop -/
def consumed (tr : List Action) : List NetWord :=
  tr.filterMap fun
    | .byte b => some b
    | _ => none

/-- calls of `new_msg_callback` -/
def delivered (tr : List Action) : List (ConId × Message) :=
  tr.filterMap fun
    | .newMsg id m => some (id, m)
    | _ => none

/-- the messages of a trace, each with the bytes taken since the message before it (`sg`: bytes
taken already) -/
def segments (sg : List NetWord) : List Action → List (List NetWord × Message)
  | [] => []
  | .byte b :: tr => segments (sg ++ [b]) tr
  | .newMsg _ m :: tr => (sg, m) :: segments [] tr
  | .closed _ :: tr => segments sg tr
  | .readScheduled :: tr => segments sg tr

end VoltNet
