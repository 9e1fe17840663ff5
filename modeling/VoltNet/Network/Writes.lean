import VoltNet.Framing.NetCon
import VoltNet.Network.Closing

/-!
# Writes that fail

`handle_write` looks at the number of bytes first and last: the branch for an error is empty, and
a transfer that is not complete throws.  Nothing between the handler and the thread function of
the pool catches.

* `handleWrite`         the handler;
* `writeStep`           sends and their completions beside what goes on in the registry;
* `writes_registry`     the registry does what it does without any writes;
* `writes_local_iff`    no exception leaves a pool thread exactly when every completion reports
                        the whole message.
-/

namespace VoltNet
open Runs

/-- what a handler throws -/
inductive HandlerError where
  | runtimeError (what : String)
deriving DecidableEq

def handleWrite (err : ErrorCode) (bytesTransferred : Nat) (msg : Message) :
    Except HandlerError Unit := do
  if err ≠ .success then pure ()
  if bytesTransferred < msg.length then
    throw (.runtimeError "bytes_transferred < msg->size()")

/-- an `async_write` that has not completed -/
structure OutgoingWrite where
  con : ConRef
  msg : Message
deriving DecidableEq

structure WriteNet where
  registry : Registry
  writes : List OutgoingWrite
  /-- threads in `io_context::run` -/
  running : Nat
  /-- what has left `io_context::run` in a pool thread -/
  escaped : Option HandlerError
deriving DecidableEq

inductive WriteLabel where
  /-- `send_msg`, also on a connection that has closed; the runs include calls on one that `erase`
  has destroyed, which no caller can make -/
  | sendMsg (r : ConRef) (m : Message)
  /-- a pool thread runs the completion of the `i`-th outstanding write -/
  | writeDone (i : Nat) (err : ErrorCode) (bytesTransferred : Nat)
  | registry (l : RegistryLabel)

def WriteNet.init (threadCount : Nat) : WriteNet := ⟨Registry.init, [], threadCount, none⟩

/-- what Boost.Asio may report for a write of `m` -/
def Reportable (err : ErrorCode) (bytesTransferred : Nat) (m : Message) : Prop :=
  bytesTransferred ≤ m.length ∧ (err = .success → bytesTransferred = m.length)

instance (err : ErrorCode) (n : Nat) (m : Message) : Decidable (Reportable err n m) :=
  inferInstanceAs (Decidable (_ ∧ _))

/-- an exception in a pool thread ends the process, and with it every thread -/
def WriteNet.complete (err : ErrorCode) (bytesTransferred : Nat) (m : Message) (s : WriteNet) :
    WriteNet :=
  match handleWrite err bytesTransferred m with
  | .ok () => s
  | .error e => { s with running := 0, escaped := some e }

def writeStep (s : WriteNet) (l : WriteLabel) : Option WriteNet :=
  if s.escaped ≠ none then none
  else
    match l with
    | .sendMsg r m =>
      -- objects that the registry has erased are let in too
      if r < s.registry.objects.length then some { s with writes := s.writes ++ [⟨r, m⟩] }
      else none
    | .writeDone i err bytesTransferred =>
      match s.writes[i]? with
      | none => none
      | some w =>
        if 0 < s.running ∧ Reportable err bytesTransferred w.msg then
          some ({ s with writes := s.writes.eraseIdx i }.complete err bytesTransferred w.msg)
        else none
    | .registry l => (registryStep s.registry l).map fun registry => { s with registry := registry }

/-- the completion reports the whole message, with an error or without -/
def Complete (s : WriteNet) : WriteLabel → Prop
  | .writeDone i _ bytesTransferred => ∀ w, s.writes[i]? = some w → bytesTransferred = w.msg.length
  | _ => True

instance decidableComplete (s : WriteNet) : (l : WriteLabel) → Decidable (Complete s l)
  | .writeDone i _ n =>
    inferInstanceAs (Decidable (∀ w, w ∈ s.writes[i]? → n = w.msg.length))
  | .sendMsg _ _ => isTrue trivial
  | .registry _ => isTrue trivial

/-- no exception has left `run`, and all pool threads run -/
def AllRun (threadCount : Nat) (s : WriteNet) : Prop := s.escaped = none ∧ s.running = threadCount

/-! ## one completion -/

theorem handleWrite_iff (err : ErrorCode) (n : Nat) (m : Message) :
    handleWrite err n m = if n < m.length then
      .error (.runtimeError "bytes_transferred < msg->size()") else .ok () := by
  unfold handleWrite
  by_cases he : err ≠ .success <;> by_cases hn : n < m.length <;> simp [he, hn] <;> rfl

theorem complete_whole (err : ErrorCode) (n : Nat) (m : Message) (s : WriteNet)
    (h : n = m.length) : s.complete err n m = s := by
  rw [WriteNet.complete, handleWrite_iff, if_neg (by omega)]

theorem complete_short (err : ErrorCode) (n : Nat) (m : Message) (s : WriteNet)
    (h : n < m.length) : (s.complete err n m).escaped ≠ none := by
  rw [WriteNet.complete, handleWrite_iff, if_pos h]
  exact Option.some_ne_none _

theorem complete_registry (err : ErrorCode) (n : Nat) (m : Message) (s : WriteNet) :
    (s.complete err n m).registry = s.registry := by
  unfold WriteNet.complete
  split <;> rfl

theorem writeStep_done (s t : WriteNet) (i n : Nat) (err : ErrorCode)
    (hs : writeStep s (.writeDone i err n) = some t) :
    ∃ w, s.writes[i]? = some w ∧ n ≤ w.msg.length ∧
      t = { s with writes := s.writes.eraseIdx i }.complete err n w.msg := by
  obtain ⟨-, hs⟩ := Option.ite_none_left_eq_some.mp hs
  cases hw : s.writes[i]? with
  | none =>
    simp only [hw] at hs
    cases hs
  | some w =>
    simp only [hw] at hs
    obtain ⟨⟨-, hreport⟩, ht⟩ := of_guard hs
    exact ⟨w, rfl, hreport.1, ht⟩

/-! ## whole runs -/

theorem allRun_step (threadCount : Nat) (s t : WriteNet) (l : WriteLabel)
    (h : AllRun threadCount s) (hl : Complete s l) (hs : writeStep s l = some t) :
    AllRun threadCount t := by
  cases l with
  | sendMsg r m =>
    obtain ⟨-, hs⟩ := Option.ite_none_left_eq_some.mp hs
    obtain ⟨-, rfl⟩ := of_guard hs
    exact h
  | writeDone i err n =>
    obtain ⟨w, hw, -, rfl⟩ := writeStep_done s t i n err hs
    rw [complete_whole err n w.msg _ (hl w hw)]
    exact h
  | registry l =>
    obtain ⟨-, hs⟩ := Option.ite_none_left_eq_some.mp hs
    obtain ⟨registry, -, rfl⟩ := Option.map_eq_some_iff.mp hs
    exact h

theorem not_allRun_step (threadCount : Nat) (s t : WriteNet) (l : WriteLabel)
    (hl : ¬ Complete s l) (hs : writeStep s l = some t) : ¬ AllRun threadCount t := by
  cases l with
  | writeDone i err n =>
    obtain ⟨w, hw, hle, rfl⟩ := writeStep_done s t i n err hs
    have hne : n ≠ w.msg.length := by
      intro e
      refine hl fun w' hw' => ?_
      rw [← Option.some.inj (hw.symm.trans hw')]
      exact e
    intro hrun
    exact complete_short err n w.msg _ (Nat.lt_of_le_of_ne hle hne) hrun.1
  | sendMsg r m | registry l => exact absurd trivial hl

/-- what an action of the network is for the registry -/
def WriteLabel.onRegistry : WriteLabel → Option RegistryLabel
  | .registry l => some l
  | _ => none

/-- **The registry does what it does without any writes.** -/
theorem writes_registry (threadCount : Nat) (ls : List WriteLabel) (s : WriteNet)
    (h : exec writeStep (WriteNet.init threadCount) ls = some s) :
    exec registryStep Registry.init (ls.filterMap WriteLabel.onRegistry) = some s.registry := by
  refine exec_project (s := WriteNet.init threadCount) WriteNet.registry _
    (fun u l v a ha hs => ?_) (fun u l v ha hs => ?_) ls h
  · cases l with
    | registry l =>
      obtain rfl : l = a := Option.some.inj ha
      obtain ⟨-, hs⟩ := Option.ite_none_left_eq_some.mp hs
      obtain ⟨registry, hreg, rfl⟩ := Option.map_eq_some_iff.mp hs
      exact hreg
    | sendMsg r m | writeDone i err n => cases ha
  · cases l with
    | registry l => cases ha
    | sendMsg r m =>
      obtain ⟨-, hs⟩ := Option.ite_none_left_eq_some.mp hs
      obtain ⟨-, rfl⟩ := of_guard hs
      rfl
    | writeDone i err n =>
      obtain ⟨w, -, -, rfl⟩ := writeStep_done u v i n err hs
      exact complete_registry err n w.msg _

/-- **No exception leaves a pool thread, and all of them keep running, exactly when every
completion reports the whole message**; the registry is what it would be without the writes in any
case. -/
theorem writes_local_iff (threadCount : Nat) (ls : List WriteLabel) (s : WriteNet)
    (h : exec writeStep (WriteNet.init threadCount) ls = some s) :
    (Always writeStep (AllRun threadCount) (WriteNet.init threadCount) ls ↔
      Every writeStep Complete (WriteNet.init threadCount) ls) ∧
    exec registryStep Registry.init (ls.filterMap WriteLabel.onRegistry) = some s.registry :=
  ⟨always_iff_every (fun _ ht => ht)
    (fun t l u ht hl hs => allRun_step threadCount t u l ht hl hs)
    (fun t l u _ hl hs => not_allRun_step threadCount t u l hl hs) ⟨rfl, rfl⟩ ls h,
    writes_registry threadCount ls s h⟩

/-- two messages; the second is written in full, and then the connection breaks -/
theorem writes_local_iff_two :
    ∃ s, exec writeStep (WriteNet.init 2)
        [.registry (.add 7), .sendMsg 0 [97, 255, 0], .sendMsg 0 [98, 255, 0],
          .writeDone 0 .success 3, .writeDone 0 .other 3, .registry (.close .endOfFile 0)]
        = some s ∧
      Every writeStep Complete (WriteNet.init 2)
        [.registry (.add 7), .sendMsg 0 [97, 255, 0], .sendMsg 0 [98, 255, 0],
          .writeDone 0 .success 3, .writeDone 0 .other 3, .registry (.close .endOfFile 0)] ∧
      Always writeStep (AllRun 2) (WriteNet.init 2)
        [.registry (.add 7), .sendMsg 0 [97, 255, 0], .sendMsg 0 [98, 255, 0],
          .writeDone 0 .success 3, .writeDone 0 .other 3, .registry (.close .endOfFile 0)] := by
  have hrun : exec writeStep (WriteNet.init 2)
      [.registry (.add 7), .sendMsg 0 [97, 255, 0], .sendMsg 0 [98, 255, 0],
        .writeDone 0 .success 3, .writeDone 0 .other 3, .registry (.close .endOfFile 0)]
      = some ⟨⟨[⟨7, false⟩], [], true, false, false⟩, [], 2, none⟩ := by decide
  have hevery : Every writeStep Complete (WriteNet.init 2)
      [.registry (.add 7), .sendMsg 0 [97, 255, 0], .sendMsg 0 [98, 255, 0],
        .writeDone 0 .success 3, .writeDone 0 .other 3, .registry (.close .endOfFile 0)] := by
    decide
  exact ⟨_, hrun, hevery, (writes_local_iff 2 _ _ hrun).1.mpr hevery⟩

/-- a message to a peer that has gone: the write fails with no byte sent -/
theorem write_fails :
    ∃ s, Reach writeStep (fun _ _ => True) (WriteNet.init 2) s ∧
      s.escaped = some (.runtimeError "bytes_transferred < msg->size()") ∧ s.running = 0 ∧
      ¬ AllRun 2 s := by
  have hrun : exec writeStep (WriteNet.init 2)
      [.registry (.add 7), .sendMsg 0 [97, 255, 0], .writeDone 0 .other 0]
      = some ⟨⟨[⟨7, true⟩], [some 0], true, false, false⟩, [], 0,
          some (.runtimeError "bytes_transferred < msg->size()")⟩ := by decide
  refine ⟨_, Reach.of_exec _ hrun, rfl, rfl, fun h => ?_⟩
  cases h.1

end VoltNet
