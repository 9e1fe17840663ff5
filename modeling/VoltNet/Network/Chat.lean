import VoltNet.Network.Values

/-!
# The chat programs

`single_server` reflects every message it receives to all its connections, `single_client` prints
what it receives and sends the lines of its user.  The system is one server, a client behind each of
its connections, and the wires in both directions.  The callback of the server runs under the network
lock: until its loop over the connections is done, no other message is handed to it, while reads
and transfers go on.

* `chatStep`          a line of a user, a turn of the loop of the callback, or a step of a link;
* `Chatting`          what was sent to a client, with what the loop has yet to send, is the log of
                      the server;
* `chat_totalOrder`   all clients print the same lines in the same order, as far as each has come,
                      and the lines of one user in the order in which they were typed;
* `chat_settles`      from every state reached, all clients can come to print everything said.
-/

namespace VoltNet
open Stuffing Runs Fallible

/-! ## lines -/

/-- `struct test` of the two programs: `user` and `chat_msg` -/
def chatTy : Ty := .struct "test" (.field .string (.field .string .done))

def chatLine (user chatMsg : List (BitVec (8 * 1))) : chatTy.Val := (user, chatMsg, ())

section
/- memory behind a `float`, of which there is none here -/
variable (behind : Message → List.Vector NetWord 4)

/-- `write_msg(t)` and `end_msg` on a new writer -/
def lineMessage (t : chatTy.Val) : Message := endMsg (writeInto .littleEndian behind chatTy t [])

/-- the part of the server's callback before its loop: the message to be sent to all -/
def reflected (m : Message) : Except ReadFault Message := do
  let r ← readInto .littleEndian plain m chatTy 0 (chatTy.init plain)
  return lineMessage behind r.1

theorem lineMessage_eq (t : chatTy.Val) : lineMessage behind t = encode (chatTy.wire t) := by
  have hwrite := endMsg_writeMsgs .littleEndian behind [⟨chatTy, t⟩] fun v hv => by
    rw [List.mem_singleton.mp hv]
    exact ⟨trivial, trivial, trivial⟩
  have hwire : wireAll [⟨chatTy, t⟩] = chatTy.wire t := List.append_nil _
  rwa [hwire] at hwrite

theorem read_line (t : chatTy.Val) (ht : Short chatTy t) :
    readInto .littleEndian plain (chatTy.wire t) chatTy 0 (chatTy.init plain)
      = .ok (t, (chatTy.wire t).length) := by
  have hread := readInto_wire plain (chatTy.wire t) chatTy t _ ht (blank_plain chatTy) 0
    (List.prefix_refl _)
  rwa [Nat.zero_add] at hread

/-- a line comes out of the server as it went in -/
theorem reflected_wire (t : chatTy.Val) (ht : Short chatTy t) :
    reflected behind (chatTy.wire t) = .ok (encode (chatTy.wire t)) := by
  rw [reflected, ok_bind _ _ _ (read_line t ht), ← lineMessage_eq behind t]
  rfl

/-! ## the system -/

structure ChatState where
  /-- the network of the server; the peer of a connection is a client -/
  server : LinkState
  /-- the network of the client behind each connection of the server; its only connection, with
  id `0`, has the server as its peer -/
  clients : ConId → LinkState
  /-- calls of `send_msg` that the loop of the callback has yet to make -/
  todo : List (ConId × Message)
  /-- the connection whose handler runs the callback, while there is something to do -/
  caller : ConId
  /-- the callback has read behind the end of a message -/
  fault : Bool

inductive ChatLabel where
  /-- the user of the client behind `k` enters a line -/
  | say (k : ConId) (user chatMsg : List (BitVec (8 * 1)))
  /-- a transfer of a client, or a step of the server's network -/
  | server (l : LinkLabel)
  /-- a turn of the loop of the callback -/
  | reflect
  /-- a transfer of the server to the client behind `k`, or a step of this client's network -/
  | client (k : ConId) (l : LinkLabel)

def ChatState.init : ChatState :=
  ⟨LinkState.init false, fun _ => LinkState.init false, [], 0, false⟩

/-- the callback is called with what the server's network has handed on -/
def ChatState.received (ids : List ConId) (server : LinkState) (new : List (ConId × Message))
    (s : ChatState) : Option ChatState :=
  match new with
  | [] => some { s with server := server }
  | (id, m) :: _ =>
    -- the network lock is taken while a callback runs
    if s.todo ≠ [] then none
    else
      match reflected behind m with
      | .error _ => some { s with server := server, fault := true }
      | .ok m' => some { s with server := server, todo := ids.map (·, m'), caller := id }

/-- the handler that runs the callback takes no turn of its own loop meanwhile -/
def ChatState.waits (s : ChatState) : LinkLabel → Prop
  | .net (.turn k) => s.todo ≠ [] ∧ k = s.caller
  | .send _ _ | .transfer _ _ | .net _ => False

instance decidableWaits (s : ChatState) (l : LinkLabel) : Decidable (s.waits l) := by
  unfold ChatState.waits
  split <;> infer_instance

instance decidableNoSend (l : LinkLabel) : Decidable l.NoSend := by
  unfold LinkLabel.NoSend
  split <;> infer_instance

def chatStep (ids : List ConId) (s : ChatState) : ChatLabel → Option ChatState
  | .say k user chatMsg =>
    (linkStep ids s.server (.send k (lineMessage behind (chatLine user chatMsg)))).map fun server =>
      { s with server := server }
  | .server l =>
    if l.NoSend ∧ ¬ s.waits l then
      (linkStep ids s.server l).bind fun server =>
        s.received behind ids server (server.net.received.drop s.server.net.received.length)
    else none
  | .reflect =>
    match s.todo with
    | [] => none
    | (k, m) :: todo =>
      (linkStep [0] (s.clients k) (.send 0 m)).map fun client =>
        { s with clients := Function.update s.clients k client, todo := todo }
  | .client k l =>
    if k ∈ ids ∧ l.NoSend then
      (linkStep [0] (s.clients k) l).map fun client =>
        { s with clients := Function.update s.clients k client }
    else none

end

/-- lines have fewer than `2 ^ 32` characters, and transfers leave writes whole -/
def Orderly (s : ChatState) : ChatLabel → Prop
  | .say _ user chatMsg => Short chatTy (chatLine user chatMsg)
  | .server l => Whole s.server l
  | .reflect => True
  | .client k l => Whole (s.clients k) l

instance decidableOrderly (s : ChatState) (l : ChatLabel) : Decidable (Orderly s l) :=
  match l with
  | .say _ user chatMsg =>
    inferInstanceAs (Decidable (user.length < 2 ^ 32 ∧ chatMsg.length < 2 ^ 32 ∧ True))
  | .server l => decidableWhole s.server l
  | .reflect => isTrue trivial
  | .client k l => decidableWhole (s.clients k) l

/-- what the server has been handed, in order -/
def ChatState.log (s : ChatState) : List Message := s.server.net.received.map Prod.snd

/-- what the client behind `k` has been handed, in order -/
def ChatState.display (s : ChatState) (k : ConId) : List Message :=
  (s.clients k).net.received.map Prod.snd

/-! ## the invariant -/

structure Chatting (ids : List ConId) (s : ChatState) : Prop where
  server : Carried ids false s.server
  clients : ∀ k, Carried [0] false (s.clients k)
  /-- the clients send lines only -/
  spoken : ∀ k, ∀ p ∈ s.server.payloads k, ∃ t, Short chatTy t ∧ p = chatTy.wire t
  /-- what was sent to a client, with what is to be sent, is what the server has been handed -/
  relayed : ∀ k ∈ ids, (s.clients k).payloads 0 ++ (forId k s.todo).flatMap closedIn = s.log
  todo : ∀ x ∈ s.todo, Framed x.2
  fault : s.fault = false

theorem chatting_init (ids : List ConId) : Chatting ids ChatState.init where
  server := carried_init ids false
  clients _ := carried_init [0] false
  spoken _ p hp := by cases hp
  relayed _ _ := rfl
  todo x hx := by cases hx
  fault := rfl

theorem encode_framed (p : List NetWord) : encode p = encodeAll [p] := by
  rw [encodeAll, List.flatMap_singleton]

theorem framed_encode (p : List NetWord) : Framed (encode p) := by
  rw [encode_framed]
  exact framed_encodeAll [p]

theorem closedIn_encode (p : List NetWord) : closedIn (encode p) = [p] := by
  rw [encode_framed, closedIn_encodeAll]

/-- one call for each connection -/
theorem forId_all (ids : List ConId) (hids : ids.Nodup) (k : ConId) (hk : k ∈ ids) (m : Message) :
    forId k (ids.map (·, m)) = [m] := by
  induction ids with
  | nil => cases hk
  | cons j ids ih =>
    obtain ⟨hnot, hnodup⟩ := List.nodup_cons.mp hids
    rw [List.map_cons, ← List.singleton_append, forId_append]
    by_cases hj : j = k
    · have hrest : forId k (ids.map (·, m)) = [] := by
        refine forId_other k _ fun x hx e => hnot ?_
        obtain ⟨i, hi, rfl⟩ := List.mem_map.mp hx
        rw [hj, ← e]
        exact hi
      rw [hrest, forId_self k [(j, m)] fun x hx => by rw [List.mem_singleton.mp hx]; exact hj]
      rfl
    · have hfirst : forId k [(j, m)] = [] :=
        forId_other k _ fun x hx => by rw [List.mem_singleton.mp hx]; exact hj
      rw [hfirst, List.nil_append]
      exact ih hnodup (List.mem_of_ne_of_mem (Ne.symm hj) hk)

section
variable (behind : Message → List.Vector NetWord 4) (ids : List ConId)

theorem chatting_say (s : ChatState) (k : ConId) (m : Message) (t : chatTy.Val)
    (ht : Short chatTy t) (hm : m = lineMessage behind t) (hk : k ∈ ids) (h : Chatting ids s) :
    Chatting ids { s with server := s.server.send k m } where
  server := by
    refine carried_send ids false s.server k m hk ?_ h.server
    rw [hm, lineMessage_eq]
    exact framed_encode _
  clients := h.clients
  spoken := by
    intro j p hp
    have hpay := payloads_send k m s.server (h.server.framed k)
    have hp : p ∈ (s.server.send k m).payloads j := hp
    rw [hpay] at hp
    by_cases hj : j = k
    · rw [hj, Function.update_self, hm, lineMessage_eq, closedIn_encode, List.mem_append,
        List.mem_singleton] at hp
      rcases hp with hp | hp
      · exact h.spoken k p hp
      · exact ⟨t, ht, hp⟩
    · rw [Function.update_of_ne hj] at hp
      exact h.spoken j p hp
  relayed := h.relayed
  todo := h.todo
  fault := h.fault

/-- a step of the server's link that hands on nothing -/
theorem chatting_server (s : ChatState) (server : LinkState) (hcarried : Carried ids false server)
    (hsent : server.sent = s.server.sent) (hnone : server.net.received = s.server.net.received)
    (h : Chatting ids s) : Chatting ids { s with server := server } where
  server := hcarried
  clients := h.clients
  spoken := by
    show ∀ k, ∀ p ∈ server.payloads k, _
    rw [payloads_congr hsent]
    exact h.spoken
  relayed := by
    intro k hk
    show _ = server.net.received.map Prod.snd
    rw [hnone]
    exact h.relayed k hk
  todo := h.todo
  fault := h.fault

/-- a message of the server's link is a line of the client that it came from -/
theorem line_received (s : ChatState) (server : LinkState) (hcarried : Carried ids false server)
    (hsent : server.sent = s.server.sent) (id : ConId) (m : Message)
    (hnew : server.net.received = s.server.net.received ++ [(id, m)]) (h : Chatting ids s) :
    ∃ t, Short chatTy t ∧ m = chatTy.wire t := by
  have hmem : m ∈ forId id server.net.received := by
    rw [hnew, forId_append, forId_self id [(id, m)] fun x hx => by rw [List.mem_singleton.mp hx]]
    exact List.mem_append_right _ List.mem_cons_self
  have hpay := (hcarried.received_first id).subset hmem
  rw [payloads_congr hsent] at hpay
  exact h.spoken id m hpay

/-- a step of the server's link that hands on a message while no callback runs -/
theorem chatting_callback (hids : ids.Nodup) (s : ChatState) (server : LinkState)
    (hcarried : Carried ids false server) (hsent : server.sent = s.server.sent) (id : ConId)
    (p : List NetWord) (hnew : server.net.received = s.server.net.received ++ [(id, p)])
    (hfree : s.todo = []) (h : Chatting ids s) :
    Chatting ids { s with server := server, todo := ids.map (·, encode p), caller := id } where
  server := hcarried
  clients := h.clients
  spoken := by
    show ∀ k, ∀ p ∈ server.payloads k, _
    rw [payloads_congr hsent]
    exact h.spoken
  relayed := by
    intro k hk
    have hold := h.relayed k hk
    rw [hfree] at hold
    show (s.clients k).payloads 0 ++ (forId k (ids.map (·, encode p))).flatMap closedIn
      = server.net.received.map Prod.snd
    rw [forId_all ids hids k hk, List.flatMap_singleton, closedIn_encode, hnew, List.map_append]
    have hold : (s.clients k).payloads 0 ++ [] = s.log := hold
    rw [List.append_nil] at hold
    rw [hold]
    rfl
  todo := by
    intro x hx
    obtain ⟨k, -, rfl⟩ := List.mem_map.mp hx
    exact framed_encode p
  fault := h.fault

/-- a call of `send_msg` in the loop of the callback -/
theorem chatting_reflect (s : ChatState) (k : ConId) (m : Message) (todo : List (ConId × Message))
    (htodo : s.todo = (k, m) :: todo) (h : Chatting ids s) :
    Chatting ids { s with
      clients := Function.update s.clients k ((s.clients k).send 0 m), todo := todo } where
  server := h.server
  clients := by
    have hm : Framed m := h.todo (k, m) (by rw [htodo]; exact List.mem_cons_self)
    apply (Function.forall_update_iff s.clients fun _ x => Carried [0] false x).mpr
    exact ⟨carried_send [0] false (s.clients k) 0 m List.mem_cons_self hm (h.clients k),
      fun j _ => h.clients j⟩
  spoken := h.spoken
  relayed := by
    intro j hj
    have hold := h.relayed j hj
    rw [htodo, ← List.singleton_append, forId_append, List.flatMap_append, ← List.append_assoc]
      at hold
    show (Function.update s.clients k _ j).payloads 0 ++ (forId j todo).flatMap closedIn = s.log
    by_cases hjk : j = k
    · rw [hjk, Function.update_self, payloads_send 0 m _ ((h.clients k).framed 0),
        Function.update_self]
      rw [hjk, forId_self k [(k, m)] fun x hx => by rw [List.mem_singleton.mp hx]] at hold
      rw [← hold]
      simp
    · rw [Function.update_of_ne hjk]
      have hnone : forId j [(k, m)] = [] :=
        forId_other j _ fun x hx => by rw [List.mem_singleton.mp hx]; exact Ne.symm hjk
      rw [hnone, List.flatMap_nil, List.append_nil] at hold
      exact hold
  todo := by
    intro x hx
    exact h.todo x (by rw [htodo]; exact List.mem_cons_of_mem _ hx)
  fault := h.fault

/-- a step of the link to a client -/
theorem chatting_client (s : ChatState) (k : ConId) (client : LinkState)
    (hcarried : Carried [0] false client) (hsent : client.sent = (s.clients k).sent)
    (h : Chatting ids s) :
    Chatting ids { s with clients := Function.update s.clients k client } where
  server := h.server
  clients := by
    apply (Function.forall_update_iff s.clients fun _ x => Carried [0] false x).mpr
    exact ⟨hcarried, fun j _ => h.clients j⟩
  spoken := h.spoken
  relayed := by
    intro j hj
    show (Function.update s.clients k client j).payloads 0 ++ _ = s.log
    by_cases hjk : j = k
    · rw [hjk, Function.update_self, payloads_congr hsent]
      exact hjk ▸ h.relayed j hj
    · rw [Function.update_of_ne hjk]
      exact h.relayed j hj
  todo := h.todo
  fault := h.fault

/-- what the callback makes of a step of the server's link: nothing, or a loop over the connections
with the frame of the line that it was handed -/
theorem chatting_received (hids : ids.Nodup) (s t : ChatState) (server : LinkState)
    (hcarried : Carried ids false server) (hsent : server.sent = s.server.sent)
    (new : List (ConId × Message)) (hnew : server.net.received = s.server.net.received ++ new)
    (hlen : new.length ≤ 1) (h : Chatting ids s)
    (hs : s.received behind ids server new = some t) :
    Chatting ids t ∧ t.server = server ∧ t.clients = s.clients ∧
      (t.todo = s.todo ∨ s.todo = [] ∧ t.todo.length = ids.length) := by
  cases new with
  | nil =>
    rw [← Option.some.inj hs]
    rw [List.append_nil] at hnew
    exact ⟨chatting_server ids s server hcarried hsent hnew h, rfl, rfl, .inl rfl⟩
  | cons x rest =>
    obtain ⟨id, m⟩ := x
    have hrest : rest = [] := List.eq_nil_of_length_eq_zero (by simpa using hlen)
    rw [hrest] at hnew
    obtain ⟨line, hline, rfl⟩ := line_received ids s server hcarried hsent id m hnew h
    obtain ⟨hfree, hs⟩ := Option.ite_none_left_eq_some.mp hs
    have hfree : s.todo = [] := Classical.not_not.mp hfree
    rw [reflected_wire behind line hline] at hs
    rw [← Option.some.inj hs]
    exact ⟨chatting_callback ids hids s server hcarried hsent id _ hnew hfree h, rfl, rfl,
      .inr ⟨hfree, List.length_map ..⟩⟩

theorem chatting_step (hids : ids.Nodup) (s t : ChatState) (l : ChatLabel) (h : Chatting ids s)
    (ho : Orderly s l) (hs : chatStep behind ids s l = some t) : Chatting ids t := by
  cases l with
  | say k user chatMsg =>
    obtain ⟨server, hserver, rfl⟩ := Option.map_eq_some_iff.mp hs
    obtain ⟨hk, rfl⟩ := of_guard hserver
    exact chatting_say behind ids s k _ _ ho rfl hk h
  | server l =>
    obtain ⟨⟨hl, -⟩, hs⟩ := Option.ite_none_right_eq_some.mp hs
    obtain ⟨server, hserver, hrec⟩ := Option.bind_eq_some_iff.mp hs
    obtain ⟨new, hnew, hlen⟩ := received_step ids s.server server l hserver
    rw [hnew, List.drop_left] at hrec
    exact (chatting_received behind ids hids s t server
      (carried_step ids false s.server server l h.server ho hserver)
      (sent_noSend ids s.server server l hl hserver) new hnew hlen h hrec).1
  | reflect =>
    cases htodo : s.todo with
    | nil => rw [chatStep, htodo] at hs; cases hs
    | cons x todo =>
      rw [chatStep, htodo] at hs
      obtain ⟨client, hclient, rfl⟩ := Option.map_eq_some_iff.mp hs
      rw [linkStep, if_pos List.mem_cons_self] at hclient
      rw [← Option.some.inj hclient]
      exact chatting_reflect ids s x.1 x.2 todo htodo h
  | client k l =>
    obtain ⟨⟨-, hl⟩, hs⟩ := Option.ite_none_right_eq_some.mp hs
    obtain ⟨client, hclient, rfl⟩ := Option.map_eq_some_iff.mp hs
    exact chatting_client ids s k client
      (carried_step [0] false (s.clients k) client l (h.clients k) ho hclient)
      (sent_noSend [0] (s.clients k) client l hl hclient) h

theorem chatting_reach (hids : ids.Nodup) (s : ChatState)
    (h : Reach (chatStep behind ids) Orderly ChatState.init s) : Chatting ids s :=
  h.invariant (chatting_init ids) fun t l u ht ho hs => chatting_step behind ids hids t u l ht ho hs

/-! ## what the clients print -/

/-- all messages of a client's network have the id of its only connection -/
theorem display_eq (s : ChatState) (k : ConId) (h : Carried [0] false (s.clients k)) :
    s.display k = forId 0 (s.clients k).net.received := by
  refine (forId_self 0 _ fun x hx => ?_).symm
  exact List.mem_singleton.mp (h.order.known x (List.mem_append_left _ hx))

theorem display_log (s : ChatState) (h : Chatting ids s) (k : ConId) (hk : k ∈ ids) :
    s.display k <+: s.log := by
  rw [display_eq s k (h.clients k), ← h.relayed k hk]
  exact ((h.clients k).received_first 0).trans (List.prefix_append _ _)

/-- every entry of the log is a line -/
theorem log_lines (s : ChatState) (h : Chatting ids s) :
    ∀ m ∈ s.log, ∃ t, Short chatTy t ∧ m = chatTy.wire t := by
  intro m hm
  obtain ⟨⟨id, m⟩, hx, rfl⟩ := List.mem_map.mp hm
  have hmem : m ∈ forId id s.server.net.received :=
    List.mem_map.mpr ⟨(id, m), List.mem_filter.mpr ⟨hx, decide_eq_true rfl⟩, rfl⟩
  exact h.spoken id m ((h.server.received_first id).subset hmem)

/-- **The chat has one order.**  In every run, whatever the interleaving of lines, callbacks, transfers
and reads, nothing throws and no read leaves a message; every client prints a prefix of the log of
the server, so any two clients print the same lines in the same order as far as both have come; each
printed message reads back as a line; and the log has the lines of each user in the order in which
they were sent, none twice. -/
theorem chat_totalOrder (hids : ids.Nodup) (s : ChatState)
    (h : Reach (chatStep behind ids) Orderly ChatState.init s) :
    s.fault = false ∧ s.server.net.fault = false ∧ (∀ k, (s.clients k).net.fault = false) ∧
      (∀ k ∈ ids, s.display k <+: s.log) ∧
      (∀ j ∈ ids, ∀ k ∈ ids, s.display j <+: s.display k ∨ s.display k <+: s.display j) ∧
      (∀ k ∈ ids, ∀ m ∈ s.display k, ∃ t, readInto .littleEndian plain m chatTy 0
        (chatTy.init plain) = .ok (t, m.length)) ∧
      (∀ k, forId k s.server.net.received <+: s.server.payloads k) := by
  have hi := chatting_reach behind ids hids s h
  refine ⟨hi.fault, hi.server.order.fault, fun k => (hi.clients k).order.fault,
    display_log ids s hi, fun j hj k hk => ?_, fun k hk m hm => ?_, hi.server.received_first⟩
  · exact List.prefix_or_prefix_of_prefix (display_log ids s hi j hj) (display_log ids s hi k hk)
  · obtain ⟨t, ht, rfl⟩ := log_lines ids s hi m ((display_log ids s hi k hk).subset hm)
    exact ⟨t, read_line t ht⟩

end

/-- an empty line on its way to two clients; the one that did not send it has printed it -/
theorem chat_totalOrder_two :
    ∃ s, exec (chatStep (fun _ => List.Vector.replicate 4 0) [1, 2]) ChatState.init
        ([.say 1 [] [], .server (.transfer 1 10), .server (.net (.complete 1 10))]
          ++ List.replicate 10 (.server (.net (.turn 1)))
          ++ [.reflect, .reflect, .client 2 (.transfer 0 10), .client 2 (.net (.complete 0 10))]
          ++ List.replicate 10 (.client 2 (.net (.turn 0)))) = some s ∧
      s.display 1 = [] ∧ s.display 2 = s.log ∧ s.log.length = 1 ∧ s.fault = false ∧
      (s.display 1 <+: s.display 2 ∨ s.display 2 <+: s.display 1) := by
  let run : List ChatLabel :=
    [.say 1 [] [], .server (.transfer 1 10), .server (.net (.complete 1 10))]
      ++ List.replicate 10 (.server (.net (.turn 1)))
      ++ [.reflect, .reflect, .client 2 (.transfer 0 10), .client 2 (.net (.complete 0 10))]
      ++ List.replicate 10 (.client 2 (.net (.turn 0)))
  have hrun : (exec (chatStep (fun _ => List.Vector.replicate 4 0) [1, 2]) ChatState.init run).map
      (fun s => (s.display 1, s.display 2, s.log))
      = some ([], [List.replicate 8 0], [List.replicate 8 0]) := by decide
  have horder : Every (chatStep (fun _ => List.Vector.replicate 4 0) [1, 2]) Orderly ChatState.init
      run := by decide
  obtain ⟨s, hs, hval⟩ := Option.map_eq_some_iff.mp hrun
  obtain ⟨hfault, -, -, -, hboth, -⟩ :=
    chat_totalOrder _ [1, 2] (by decide) s (Reach.of_every horder hs)
  obtain ⟨h1, h2, hlog⟩ : s.display 1 = [] ∧ s.display 2 = [List.replicate 8 0] ∧
      s.log = [List.replicate 8 0] := by simpa using hval
  exact ⟨s, hs, h1, by rw [h2, hlog], by rw [hlog]; rfl, hfault, hboth 1 (by decide) 2 (by decide)⟩

section
variable (behind : Message → List.Vector NetWord 4) (ids : List ConId)

/-! ## everything said can be printed -/

/-- an action of no user that leaves writes whole -/
def Silent (s : ChatState) (l : ChatLabel) : Prop :=
  Orderly s l ∧ ∀ k user chatMsg, l ≠ .say k user chatMsg

/-- the lines of all users have reached the callback, and its loop is done -/
def ChatState.Reflected (ids : List ConId) (s : ChatState) : Prop :=
  s.todo = [] ∧ ∀ k ∈ ids, s.server.Settled k

/-- a turn of the callback's loop -/
theorem reflect_spends (s : ChatState) (hne : s.todo ≠ []) :
    ∃ t, chatStep behind ids s .reflect = some t ∧ t.server = s.server ∧
      t.todo.length + 1 = s.todo.length := by
  cases htodo : s.todo with
  | nil => exact absurd htodo hne
  | cons x todo =>
    refine ⟨{ s with
      clients := Function.update s.clients x.1 ((s.clients x.1).send 0 x.2), todo := todo }, ?_,
      rfl, rfl⟩
    rw [chatStep, htodo]
    show (linkStep [0] (s.clients x.1) (.send 0 x.2)).map _ = _
    rw [linkStep, if_pos List.mem_cons_self]
    rfl

/-- a step of the server's link can be taken when no callback runs -/
theorem server_steps (s : ChatState) (h : Chatting ids s) (hfree : s.todo = [])
    (l : LinkLabel) (server : LinkState) (hl : Delivering s.server l)
    (hserver : linkStep ids s.server l = some server) :
    ∃ t, chatStep behind ids s (.server l) = some t ∧ t.server = server ∧
      t.todo.length ≤ ids.length := by
  have hwaits : ¬ s.waits l := by
    intro hw
    unfold ChatState.waits at hw
    split at hw
    · exact hw.1 hfree
    · exact hw
    · exact hw
    · exact hw
  obtain ⟨new, hnew, hlen⟩ := received_step ids s.server server l hserver
  have hcarried := carried_step ids false s.server server l h.server hl.1 hserver
  have hsent := sent_noSend ids s.server server l hl.2 hserver
  have hstep : chatStep behind ids s (.server l) = s.received behind ids server new := by
    rw [chatStep, if_pos ⟨hl.2, hwaits⟩, hserver, Option.bind_some, hnew, List.drop_left]
  cases new with
  | nil =>
    refine ⟨{ s with server := server }, hstep, rfl, ?_⟩
    show s.todo.length ≤ _
    rw [hfree]
    exact Nat.zero_le _
  | cons x rest =>
    obtain ⟨id, m⟩ := x
    have hrest : rest = [] := List.eq_nil_of_length_eq_zero (by simpa using hlen)
    rw [hrest] at hnew
    obtain ⟨line, hline, rfl⟩ := line_received ids s server hcarried hsent id m hnew h
    refine ⟨{ s with
      server := server, todo := ids.map (·, encode (chatTy.wire line)), caller := id }, ?_, rfl,
      (List.length_map ..).le⟩
    rw [hstep, ChatState.received, if_neg fun hne => hne hfree, reflected_wire behind line hline]

/-- while lines are on their way to the callback, they can come closer to it -/
theorem reflected_spends (s : ChatState) (h : Chatting ids s)
    (hd : ¬ s.Reflected ids) :
    ∃ l t, Silent s l ∧ chatStep behind ids s l = some t ∧ t.server.sent = s.server.sent ∧
      (ids.length + 1) * (ids.map t.server.cost).sum + t.todo.length
        < (ids.length + 1) * (ids.map s.server.cost).sum + s.todo.length := by
  by_cases hfree : s.todo = []
  · have hns : ∃ k ∈ ids, ¬ s.server.Settled k := by
      by_contra hall
      exact hd ⟨hfree, fun k hk => Classical.not_not.mp fun hn => hall ⟨k, hk, hn⟩⟩
    obtain ⟨k, hk, hn⟩ := hns
    obtain ⟨l, server, hl, hserver, hlt, hother, hsent⟩ :=
      link_spends ids false s.server k hk h.server hn
    obtain ⟨t, ht, hts, hlen⟩ := server_steps behind ids s h hfree l server hl hserver
    refine ⟨.server l, t, ⟨hl.1, fun _ _ _ e => by cases e⟩, ht, by rw [hts, hsent], ?_⟩
    have htotal := sum_cost_lt ids s.server server k hk hlt hother
    rw [hts, hfree]
    calc (ids.length + 1) * (ids.map server.cost).sum + t.todo.length
        ≤ (ids.length + 1) * (ids.map server.cost).sum + ids.length := Nat.add_le_add_left hlen _
      _ < (ids.length + 1) * ((ids.map server.cost).sum + 1) := by rw [Nat.mul_succ]; omega
      _ ≤ (ids.length + 1) * (ids.map s.server.cost).sum := Nat.mul_le_mul_left _ htotal
  · obtain ⟨t, ht, hts, hlen⟩ := reflect_spends behind ids s hfree
    refine ⟨.reflect, t, ⟨trivial, fun _ _ _ e => by cases e⟩, ht, by rw [hts], ?_⟩
    rw [hts]
    omega

/-- while lines are on their way to a client, they can come closer to it -/
theorem client_spends (s : ChatState) (h : Chatting ids s) (k : ConId) (hk : k ∈ ids)
    (hn : ¬ (s.clients k).Settled 0) :
    ∃ l t, Silent s l ∧ chatStep behind ids s l = some t ∧ t.server = s.server ∧
      t.todo = s.todo ∧
      (ids.map fun j => (t.clients j).cost 0).sum < (ids.map fun j => (s.clients j).cost 0).sum := by
  obtain ⟨l, client, hl, hclient, hlt, -, -⟩ :=
    link_spends [0] false (s.clients k) 0 List.mem_cons_self (h.clients k) hn
  let t : ChatState := { s with clients := Function.update s.clients k client }
  refine ⟨.client k l, t, ⟨hl.1, fun _ _ _ e => by cases e⟩, ?_, rfl, rfl, ?_⟩
  · rw [chatStep, if_pos ⟨hk, hl.2⟩, hclient]
    rfl
  · refine List.sum_lt_sum _ _ (fun j _ => ?_) ⟨k, hk, ?_⟩
    · show (Function.update s.clients k client j).cost 0 ≤ _
      by_cases hj : j = k
      · rw [hj, Function.update_self]
        exact hlt.le
      · rw [Function.update_of_ne hj]
    · show (Function.update s.clients k client k).cost 0 < _
      rw [Function.update_self]
      exact hlt

/-- **The chat never gets stuck.**  From every state reached, transfers, reads and the loop of the
callback alone lead to a state in which all clients print the same list of lines, and this list has
every line sent so far by every user. -/
theorem chat_settles (hids : ids.Nodup) (s : ChatState)
    (h : Reach (chatStep behind ids) Orderly ChatState.init s) :
    ∃ t, Reach (chatStep behind ids) Silent s t ∧ t.server.sent = s.server.sent ∧
      (∀ k ∈ ids, t.display k = t.log) ∧
      ∀ k, forId k t.server.net.received = s.server.payloads k := by
  have hi := chatting_reach behind ids hids s h
  obtain ⟨t, ht, ⟨hit, hsent⟩, hreflected⟩ := Reach.exhaust
    (fun t => Chatting ids t ∧ t.server.sent = s.server.sent) (ChatState.Reflected ids)
    (fun t => (ids.length + 1) * (ids.map t.server.cost).sum + t.todo.length) (fun t ht hd => by
      obtain ⟨l, u, hl, hu, hsame, hlt⟩ := reflected_spends behind ids t ht.1 hd
      exact ⟨l, u, hl, hu, ⟨chatting_step behind ids hids t u l ht.1 hl.1 hu,
        hsame.trans ht.2⟩, hlt⟩) ⟨hi, rfl⟩
  obtain ⟨u, hu, ⟨hiu, hserver, htodo⟩, hset⟩ := Reach.exhaust
    (fun u => Chatting ids u ∧ u.server = t.server ∧ u.todo = [])
    (fun u => ∀ k ∈ ids, (u.clients k).Settled 0)
    (fun u => (ids.map fun j => (u.clients j).cost 0).sum) (fun u hu hd => by
      obtain ⟨k, hk⟩ := not_forall.mp hd
      obtain ⟨hk, hn⟩ := Classical.not_imp.mp hk
      obtain ⟨l, v, hl, hv, hsame, hfree, hlt⟩ := client_spends behind ids u hu.1 k hk hn
      exact ⟨l, v, hl, hv, ⟨chatting_step behind ids hids u v l hu.1 hl.1 hv,
        hsame.trans hu.2.1, hfree.trans hu.2.2⟩, hlt⟩) ⟨hit, rfl, hreflected.1⟩
  refine ⟨u, ht.trans hu, by rw [hserver, hsent], fun k hk => ?_, fun k => ?_⟩
  · -- nothing is deferred, so a settled link is drained
    have hdrained : (u.clients k).Drained [0] := by
      obtain ⟨hidle, hq⟩ := (hiu.clients k).order.immediate (hiu.clients k).order.mode
      refine ⟨fun j hj => ?_, ?_, hq⟩
      · rw [List.mem_singleton.mp hj]
        exact hset k hk
      · have hidle : (u.clients k).net.drain = .idle := hidle
        rw [hidle]
        rfl
    have hrelayed := hiu.relayed k hk
    rw [htodo] at hrelayed
    rw [display_eq u k (hiu.clients k), (hiu.clients k).received_drained hdrained 0, ← hrelayed]
    exact (List.append_nil _).symm
  · have hdrained : u.server.Drained ids := by
      obtain ⟨hidle, hq⟩ := hiu.server.order.immediate hiu.server.order.mode
      refine ⟨fun j hj => ?_, ?_, hq⟩
      · rw [hserver]
        exact hreflected.2 j hj
      · have hidle : u.server.net.drain = .idle := hidle
        rw [hidle]
        rfl
    rw [hiu.server.received_drained hdrained k]
    exact congrFun (payloads_congr (by rw [hserver, hsent])) k

end

/-- two users have sent a line each, and nothing has been read -/
theorem chat_settles_two :
    ∃ s t, exec (chatStep (fun _ => List.Vector.replicate 4 0) [1, 2]) ChatState.init
        [.say 1 [97#8] [], .say 2 [98#8] [255#8], .server (.transfer 2 3)] = some s ∧
      s.log = [] ∧ Reach (chatStep (fun _ => List.Vector.replicate 4 0) [1, 2]) Silent s t ∧
      (∀ k ∈ [1, 2], t.display k = t.log) ∧
      ∀ k, forId k t.server.net.received = s.server.payloads k := by
  have hrun : (exec (chatStep (fun _ => List.Vector.replicate 4 0) [1, 2]) ChatState.init
      [.say 1 [97#8] [], .say 2 [98#8] [255#8], .server (.transfer 2 3)]).map ChatState.log
      = some [] := by decide
  have horder : Every (chatStep (fun _ => List.Vector.replicate 4 0) [1, 2]) Orderly ChatState.init
      [.say 1 [97#8] [], .say 2 [98#8] [255#8], .server (.transfer 2 3)] := by decide
  obtain ⟨s, hs, hlog⟩ := Option.map_eq_some_iff.mp hrun
  obtain ⟨t, ht, -, hdisplay, hall⟩ :=
    chat_settles _ [1, 2] (by decide) s (Reach.of_every horder hs)
  exact ⟨s, t, hs, hlog, ht, hdisplay, hall⟩

end VoltNet
