import VoltNet.Framing.NetCon
import VoltNet.Lib.Runs

/-!
# `send_msg`: several messages on one socket

`send_msg` starts an `async_write` and returns; nothing keeps a second one from being started
before the first has finished.  Of Boost.Asio the model takes: an `async_write` offers its
remaining bytes in one `async_write_some` after another; the outstanding ones of a socket are
served in the order of their issue; each transfers a non-empty prefix of what it offers; and a
write that is not finished issues its next one behind those already outstanding.

* `sendStep`             one `send_msg` call, or one `async_write_some` that completes;
* `wire_wholeMessages`   the wire carries whole messages in call order in every run in which a
                         transfer splits a write only while no other write has bytes left;
* `wire_interleaved`     and not in every run.
-/

namespace VoltNet
open Runs

/-- an unfinished `async_write`: its message, and the bytes its `async_write_some` offers -/
structure Write where
  msg : Message
  rest : List NetWord
deriving DecidableEq

structure SendState where
  /-- messages in the order of the `send_msg` calls -/
  sent : List Message
  /-- outstanding `async_write_some` operations in the order of their issue -/
  pending : List Write
  /-- bytes put on the socket -/
  wire : List NetWord
  /-- messages whose `handle_write` has been called -/
  written : List Message
deriving DecidableEq

def SendState.init : SendState := ⟨[], [], [], []⟩

inductive SendLabel where
  | sendMsg (m : Message)
  /-- the oldest `async_write_some` transfers `n` bytes -/
  | transfer (n : Nat)

def SendState.sendMsg (m : Message) (s : SendState) : SendState :=
  { s with sent := s.sent ++ [m], pending := s.pending ++ [⟨m, m⟩] }

/-- the oldest operation is done: the write is finished, or goes to the back with its rest -/
def SendState.transfer (w : Write) (ws : List Write) (n : Nat) (s : SendState) : SendState :=
  if n = w.rest.length then
    { s with pending := ws, wire := s.wire ++ w.rest, written := s.written ++ [w.msg] }
  else
    { s with
      pending := ws ++ [⟨w.msg, w.rest.drop n⟩]
      wire := s.wire ++ w.rest.take n }

def sendStep (s : SendState) : SendLabel → Option SendState
  | .sendMsg m => some (s.sendMsg m)
  | .transfer n =>
    match s.pending with
    | [] => none
    | w :: ws =>
      -- a non-empty prefix, but for a message without bytes
      if n ≤ w.rest.length ∧ (0 < n ∨ w.rest = []) then some (s.transfer w ws n) else none

/-- bytes of the unfinished writes in the order they will be offered -/
def SendState.left (s : SendState) : List NetWord := (s.pending.map Write.rest).flatten

/-- the step does not split a write while another one has bytes left -/
def Undivided (s : SendState) : SendLabel → Prop
  | .sendMsg _ => True
  | .transfer n => ∀ w ws, s.pending = w :: ws →
      n = w.rest.length ∨ ∀ w' ∈ ws, w'.rest = []

instance decidableUndivided (s : SendState) (l : SendLabel) : Decidable (Undivided s l) :=
  match l with
  | .sendMsg _ => isTrue trivial
  | .transfer n =>
    match h : s.pending with
    | [] => isTrue fun w ws hw => by rw [h] at hw; cases hw
    | w :: ws =>
      decidable_of_iff (n = w.rest.length ∨ ∀ w' ∈ ws, w'.rest = [])
        ⟨fun hd w₁ ws₁ hw => by
          rw [h] at hw
          obtain ⟨rfl, rfl⟩ := List.cons.inj hw
          exact hd, fun hd => hd w ws h⟩

/-- what is on the wire and what is left are the messages in call order -/
def Contiguous (s : SendState) : Prop := s.wire ++ s.left = s.sent.flatten

theorem contiguous_init : Contiguous SendState.init := rfl

theorem contiguous_sendMsg (m : Message) (s : SendState) (h : Contiguous s) :
    Contiguous (s.sendMsg m) := by
  have hleft : (s.sendMsg m).left = s.left ++ m := by
    simp [SendState.left, SendState.sendMsg]
  show s.wire ++ (s.sendMsg m).left = (s.sent ++ [m]).flatten
  rw [hleft, ← List.append_assoc, h, List.flatten_append]
  simp

theorem contiguous_transfer (w : Write) (ws : List Write) (n : Nat) (s : SendState)
    (hp : s.pending = w :: ws) (hu : n = w.rest.length ∨ ∀ w' ∈ ws, w'.rest = [])
    (h : Contiguous s) : Contiguous (s.transfer w ws n) := by
  have hleft : s.left = w.rest ++ (ws.map Write.rest).flatten := by
    rw [SendState.left, hp, List.map_cons, List.flatten_cons]
  have hsent : s.wire ++ (w.rest ++ (ws.map Write.rest).flatten) = s.sent.flatten := by
    rw [← hleft]; exact h
  unfold SendState.transfer
  by_cases hn : n = w.rest.length
  · rw [if_pos hn]
    show (s.wire ++ w.rest) ++ (ws.map Write.rest).flatten = s.sent.flatten
    rw [List.append_assoc, hsent]
  · rw [if_neg hn]
    have hnil : (ws.map Write.rest).flatten = [] := by
      rw [List.flatten_eq_nil_iff]
      intro l hl
      obtain ⟨w', hw', rfl⟩ := List.mem_map.mp hl
      exact (hu.resolve_left hn) w' hw'
    show (s.wire ++ w.rest.take n) ++ ((ws ++ [(⟨w.msg, w.rest.drop n⟩ : Write)]).map
      Write.rest).flatten = s.sent.flatten
    rw [hnil, List.append_nil] at hsent
    rw [List.map_append, List.flatten_append, hnil, List.nil_append, List.append_assoc,
      List.map_singleton, List.flatten_singleton, List.take_append_drop, hsent]

theorem contiguous_step (s t : SendState) (l : SendLabel) (h : Contiguous s)
    (hu : Undivided s l) (hs : sendStep s l = some t) : Contiguous t := by
  cases l with
  | sendMsg m =>
    injection hs with hs
    rw [← hs]
    exact contiguous_sendMsg m s h
  | transfer n =>
    cases hp : s.pending with
    | nil => rw [sendStep, hp] at hs; cases hs
    | cons w ws =>
      simp only [sendStep, hp, Option.ite_none_right_eq_some, Option.some.injEq] at hs
      rw [← hs.2]
      exact contiguous_transfer w ws n s hp (hu w ws hp) h

/-- **In a run that never splits a write while another one has bytes left, the wire carries a
prefix of the complete messages in call order.** -/
theorem wire_wholeMessages (s : SendState) (h : Reach sendStep Undivided SendState.init s) :
    s.wire <+: s.sent.flatten := by
  have hc : Contiguous s :=
    h.invariant contiguous_init fun t l u ht hu hs => contiguous_step t u l ht hu hs
  rw [← hc]
  exact List.prefix_append _ _

/-- two messages; each is split while it is alone -/
theorem wire_wholeMessages_alone :
    [97, 255, 0, 98, 255] <+: ([[97, 255, 0], [98, 255, 0]] : List Message).flatten := by
  have h1 : Reach sendStep Undivided SendState.init
      ⟨[[97, 255, 0]], [⟨[97, 255, 0], [97, 255, 0]⟩], [], []⟩ :=
    (Reach.refl _).next (.sendMsg [97, 255, 0]) trivial rfl
  have h2 : Reach sendStep Undivided SendState.init
      ⟨[[97, 255, 0]], [⟨[97, 255, 0], [255, 0]⟩], [97], []⟩ :=
    h1.next (.transfer 1) (by rintro w ws ⟨⟩; exact .inr (by simp)) rfl
  have h3 : Reach sendStep Undivided SendState.init
      ⟨[[97, 255, 0]], [], [97, 255, 0], [[97, 255, 0]]⟩ :=
    h2.next (.transfer 2) (by rintro w ws ⟨⟩; exact .inl rfl) rfl
  have h4 : Reach sendStep Undivided SendState.init
      ⟨[[97, 255, 0], [98, 255, 0]], [⟨[98, 255, 0], [98, 255, 0]⟩], [97, 255, 0],
        [[97, 255, 0]]⟩ := h3.next (.sendMsg [98, 255, 0]) trivial rfl
  have h5 : Reach sendStep Undivided SendState.init
      ⟨[[97, 255, 0], [98, 255, 0]], [⟨[98, 255, 0], [0]⟩], [97, 255, 0, 98, 255],
        [[97, 255, 0]]⟩ :=
    h4.next (.transfer 2) (by rintro w ws ⟨⟩; exact .inr (by simp)) rfl
  exact wire_wholeMessages _ h5

/-- two calls in a row; the socket takes one byte of the first message, then all of the second -/
theorem wire_interleaved :
    ∃ s, Reach sendStep (fun _ _ => True) SendState.init s ∧
      s.sent = [[97, 255, 0], [98, 255, 0]] ∧ s.wire = [97, 98, 255, 0] ∧
      ¬ s.wire <+: s.sent.flatten :=
  ⟨_, Reach.of_exec [.sendMsg [97, 255, 0], .sendMsg [98, 255, 0], .transfer 1, .transfer 3] rfl,
    by decide, by decide, by decide⟩

end VoltNet
