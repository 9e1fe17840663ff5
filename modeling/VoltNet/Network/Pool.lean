import VoltNet.Framing.NetCon

/-!
# `msg_rec_pool`: received messages on their way to the user

`submit_message` is called under the network lock; with `defer_msg_signal` it pushes one item on
each of two queues, else it calls `on_msg_received`.  `notify_listeners` tests outside the lock,
pops both queues inside it, and calls `on_msg_received` outside again, so other threads run
between any two of these (`Drain`).

* `submit_queued`   a submission ends up at the back of the queue, or is handed on;
* `advance_queued`  a step of `notify_listeners` loses and reorders nothing.
-/

namespace VoltNet

structure MsgRecPool where
  deferMsgSignal : Bool
  recMsgVec : List Message
  recMsgIds : List ConId
deriving DecidableEq

/-- a pool, and the call of `on_msg_received` if there was one -/
abbrev PoolStep := MsgRecPool × List (ConId × Message)

def MsgRecPool.new (defer : Bool) : MsgRecPool := ⟨defer, [], []⟩

def MsgRecPool.submitMessage (id : ConId) (msg : Message) (pool : MsgRecPool) : PoolStep :=
  if pool.deferMsgSignal then
    ({ pool with recMsgVec := pool.recMsgVec ++ [msg], recMsgIds := pool.recMsgIds ++ [id] }, [])
  else (pool, [(id, msg)])

/-- where a thread is in `notify_listeners` -/
inductive Drain where
  /-- not called -/
  | idle
  /-- before `rec_msg_vec.empty()` -/
  | test
  /-- the queue was not empty; before the locked section -/
  | pop
  /-- before `on_msg_received` -/
  | call (id : ConId) (msg : Message)
deriving DecidableEq

/-- what a thread has popped and not handed on -/
def Drain.held : Drain → List (ConId × Message)
  | .call id msg => [(id, msg)]
  | _ => []

def Drain.start (pool : MsgRecPool) : Drain := if pool.deferMsgSignal then .test else .idle

/-- the next step of `notify_listeners`; `none` is `front` or `pop` on an empty queue, or no
call to continue -/
def Drain.advance (drain : Drain) (pool : MsgRecPool) : Option (Drain × PoolStep) :=
  match drain with
  | .idle => none
  | .test => if pool.recMsgVec.isEmpty then some (.idle, pool, []) else some (.pop, pool, [])
  | .pop =>
    match pool.recMsgVec, pool.recMsgIds with
    | msg :: msgs, id :: ids =>
      some (.call id msg, { pool with recMsgVec := msgs, recMsgIds := ids }, [])
    | _, _ => none
  | .call id msg => some (.test, pool, [(id, msg)])

/-! ## nothing is lost, nothing overtakes -/

/-- both queues, item by item -/
def MsgRecPool.queued (pool : MsgRecPool) : List (ConId × Message) :=
  pool.recMsgIds.zip pool.recMsgVec

/-- the two queues have the same length -/
def MsgRecPool.Paired (pool : MsgRecPool) : Prop :=
  pool.recMsgIds.length = pool.recMsgVec.length

theorem submit_paired (id : ConId) (msg : Message) (pool : MsgRecPool) (h : pool.Paired) :
    (pool.submitMessage id msg).1.Paired := by
  unfold MsgRecPool.submitMessage
  by_cases hd : pool.deferMsgSignal
  · rw [if_pos hd]
    show (pool.recMsgIds ++ [id]).length = (pool.recMsgVec ++ [msg]).length
    rw [List.length_append, List.length_append, h]
    rfl
  · rw [if_neg hd]
    exact h

theorem submit_queued (id : ConId) (msg : Message) (pool : MsgRecPool) (h : pool.Paired) :
    (pool.deferMsgSignal = true → (pool.submitMessage id msg).2 = [] ∧
      (pool.submitMessage id msg).1.queued = pool.queued ++ [(id, msg)]) ∧
    (pool.deferMsgSignal = false → pool.submitMessage id msg = (pool, [(id, msg)])) := by
  unfold MsgRecPool.submitMessage
  refine ⟨fun hd => ?_, fun hd => ?_⟩
  · rw [if_pos hd]
    exact ⟨rfl, List.zip_append h⟩
  · rw [if_neg (by rw [hd]; exact Bool.false_ne_true)]

theorem submit_defer (id : ConId) (msg : Message) (pool : MsgRecPool) :
    (pool.submitMessage id msg).1.deferMsgSignal = pool.deferMsgSignal := by
  unfold MsgRecPool.submitMessage
  split <;> rfl

theorem submit_ne_nil (id : ConId) (msg : Message) (pool : MsgRecPool)
    (h : pool.recMsgVec ≠ []) : (pool.submitMessage id msg).1.recMsgVec ≠ [] := by
  unfold MsgRecPool.submitMessage
  split
  · exact List.append_ne_nil_of_left_ne_nil h _
  · exact h

/-- with one thread at `pop` only after a test that found an item, a step of it keeps the items
in order -/
theorem advance_queued (drain drain' : Drain) (pool pool' : MsgRecPool)
    (calls : List (ConId × Message)) (hp : pool.Paired)
    (h : drain.advance pool = some (drain', pool', calls)) :
    calls ++ drain'.held ++ pool'.queued = drain.held ++ pool.queued ∧ pool'.Paired ∧
      pool'.deferMsgSignal = pool.deferMsgSignal ∧
      (drain' = .pop → pool'.recMsgVec ≠ []) := by
  cases drain with
  | idle => cases h
  | test =>
    by_cases he : pool.recMsgVec = []
    · rw [Drain.advance, if_pos (by rw [he]; rfl)] at h
      cases h
      exact ⟨rfl, hp, rfl, fun h => by cases h⟩
    · rw [Drain.advance, if_neg (by rw [List.isEmpty_iff]; exact he)] at h
      cases h
      exact ⟨rfl, hp, rfl, fun _ => he⟩
  | pop =>
    cases hv : pool.recMsgVec with
    | nil => rw [Drain.advance, hv] at h; cases h
    | cons msg msgs =>
      cases hi : pool.recMsgIds with
      | nil => rw [Drain.advance, hv, hi] at h; cases h
      | cons id ids =>
        rw [Drain.advance, hv, hi] at h
        cases h
        refine ⟨?_, ?_, rfl, fun h => by cases h⟩
        · have hq : pool.queued = (id, msg) :: ids.zip msgs := by
            rw [MsgRecPool.queued, hv, hi]
            rfl
          rw [hq]
          rfl
        · rw [MsgRecPool.Paired, hv, hi] at hp
          exact Nat.succ.inj hp
  | call id msg =>
    cases h
    exact ⟨rfl, hp, rfl, fun h => by cases h⟩

/-- and never meets an empty queue -/
theorem advance_some (drain : Drain) (pool : MsgRecPool) (hp : pool.Paired)
    (hd : drain ≠ .idle) (hne : drain = .pop → pool.recMsgVec ≠ []) :
    ∃ r, drain.advance pool = some r := by
  cases drain with
  | idle => exact absurd rfl hd
  | test =>
    by_cases he : pool.recMsgVec.isEmpty
    · exact ⟨_, if_pos he⟩
    · exact ⟨_, if_neg he⟩
  | pop =>
    cases hv : pool.recMsgVec with
    | nil => exact absurd hv (hne rfl)
    | cons msg msgs =>
      cases hi : pool.recMsgIds with
      | nil => rw [MsgRecPool.Paired, hv, hi] at hp; cases hp
      | cons id ids => exact ⟨_, by rw [Drain.advance, hv, hi]⟩
  | call id msg => exact ⟨_, rfl⟩

end VoltNet
