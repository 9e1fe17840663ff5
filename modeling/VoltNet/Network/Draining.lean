import VoltNet.Lib.Runs
import VoltNet.Network.Pool
import Mathlib.Logic.Function.Basic

/-!
# Runs of a `msg_rec_pool`

Any threads submit; a thread that drains may submit and drain again from inside the callback, so
calls of `notify_listeners` nest.  A step is one locked section, one test of the queue, or the
start or the end of a callback.

* `Drainer`              a thread in nested calls of `notify_listeners`;
* `poolStep`             the steps of a pool and its threads;
* `Drained`              the invariant: started, held and queued pairs are the submissions;
* `deferred_immediate`   with one draining thread the callbacks are those of a pool that does
                         not defer, in its order.
-/

namespace VoltNet
open Runs

abbrev ThreadId := Nat

/-- a thread that may be inside `notify_listeners` -/
structure Drainer where
  /-- its innermost call; `idle` outside any, and while the callback of that call runs -/
  drain : Drain
  /-- calls whose callback is running -/
  depth : Nat
deriving DecidableEq

/-- after a step of the innermost call: a call of `on_msg_received` enters the callback -/
def Drainer.enter (drain : Drain) (calls : List (ConId × Message)) (depth : Nat) : Drainer :=
  if calls = [] then ⟨drain, depth⟩ else ⟨.idle, depth + 1⟩

/-- the callback of the innermost call returns, and its loop goes on to the test -/
def Drainer.leave (drainer : Drainer) : Option Drainer :=
  match drainer with
  | ⟨.idle, depth + 1⟩ => some ⟨.test, depth⟩
  | _ => none

structure PoolRun where
  pool : MsgRecPool
  drainers : ThreadId → Drainer
  /-- pairs passed to `submit_message`, pairs popped, and pairs passed to `on_msg_received` -/
  submitted : List (ConId × Message)
  popped : List (ConId × Message)
  started : List (ConId × Message)
  /-- something popped an empty queue -/
  fault : Bool

inductive PoolLabel where
  /-- `submit_message`, by any thread, also from inside a callback -/
  | submit (id : ConId) (msg : Message)
  /-- `notify_listeners` is called -/
  | notify (k : ThreadId)
  | advance (k : ThreadId)
  /-- a callback returns -/
  | leave (k : ThreadId)

def PoolRun.init (defer : Bool) : PoolRun :=
  ⟨MsgRecPool.new defer, fun _ => ⟨.idle, 0⟩, [], [], [], false⟩

/-- what a step of `notify_listeners` takes off the queues -/
def Drain.pops : Drain → Drain → List (ConId × Message)
  | .pop, drain' => drain'.held
  | _, _ => []

def poolStep (s : PoolRun) : PoolLabel → Option PoolRun
  | .submit id msg =>
    some { s with
      pool := (s.pool.submitMessage id msg).1
      submitted := s.submitted ++ [(id, msg)]
      started := s.started ++ (s.pool.submitMessage id msg).2 }
  | .notify k =>
    if (s.drainers k).drain = .idle then
      some { s with
        drainers := Function.update s.drainers k ⟨Drain.start s.pool, (s.drainers k).depth⟩ }
    else none
  | .advance k =>
    if (s.drainers k).drain = .idle then none
    else
      match (s.drainers k).drain.advance s.pool with
      | none => some { s with fault := true }
      | some (drain, pool, calls) =>
        some { s with
          pool := pool
          drainers := Function.update s.drainers k (.enter drain calls (s.drainers k).depth)
          popped := s.popped ++ (s.drainers k).drain.pops drain
          started := s.started ++ calls }
  | .leave k =>
    match (s.drainers k).leave with
    | none => none
    | some drainer => some { s with drainers := Function.update s.drainers k drainer }

/-! ## a pool that does not defer -/

/-- the calls of `on_msg_received` that submissions cause at once -/
def submitCalls : MsgRecPool → List (ConId × Message) → List (ConId × Message)
  | _, [] => []
  | pool, (id, msg) :: rest =>
    (pool.submitMessage id msg).2 ++ submitCalls (pool.submitMessage id msg).1 rest

theorem submitCalls_immediate (pool : MsgRecPool) (hp : pool.Paired)
    (h : pool.deferMsgSignal = false) (l : List (ConId × Message)) : submitCalls pool l = l := by
  induction l with
  | nil => rfl
  | cons x l ih =>
    obtain ⟨id, msg⟩ := x
    rw [submitCalls, (submit_queued id msg pool hp).2 h]
    show (id, msg) :: submitCalls pool l = _
    rw [ih]

/-! ## one draining thread -/

/-- only the thread `k` calls `notify_listeners` -/
def OneDrainer (k : ThreadId) : PoolLabel → Prop
  | .submit _ _ => True
  | .notify j => j = k
  | .advance j => j = k
  | .leave j => j = k

structure Drained (k : ThreadId) (s : PoolRun) : Prop where
  mode : s.pool.deferMsgSignal = true
  paired : s.pool.Paired
  popping : (s.drainers k).drain = .pop → s.pool.recMsgVec ≠ []
  order : s.started ++ ((s.drainers k).drain.held ++ s.pool.queued) = s.submitted
  popped : s.popped = s.started ++ (s.drainers k).drain.held
  fault : s.fault = false

theorem drained_init (k : ThreadId) : Drained k (PoolRun.init true) where
  mode := rfl
  paired := rfl
  popping h := by cases h
  order := rfl
  popped := rfl
  fault := rfl

theorem drained_submit (k : ThreadId) (id : ConId) (msg : Message) (s t : PoolRun)
    (h : Drained k s) (hs : poolStep s (.submit id msg) = some t) : Drained k t := by
  obtain ⟨hcalls, hqueued⟩ := (submit_queued id msg s.pool h.paired).1 h.mode
  rw [← Option.some.inj hs]
  refine ⟨(submit_defer id msg s.pool).trans h.mode, submit_paired id msg s.pool h.paired,
    fun hpop => submit_ne_nil id msg s.pool (h.popping hpop), ?_, ?_, h.fault⟩
  · show s.started ++ (s.pool.submitMessage id msg).2 ++ ((s.drainers k).drain.held
      ++ (s.pool.submitMessage id msg).1.queued) = s.submitted ++ [(id, msg)]
    rw [hcalls, hqueued, List.append_nil, ← h.order]
    simp only [List.append_assoc]
  · show s.popped = s.started ++ (s.pool.submitMessage id msg).2 ++ (s.drainers k).drain.held
    rw [hcalls, List.append_nil, h.popped]

/-- a step that only moves the thread `k`, and leaves it without a popped pair, as before -/
theorem drained_moves (k : ThreadId) (s : PoolRun) (drainer : Drainer) (h : Drained k s)
    (hheld : (s.drainers k).drain.held = []) (hheld' : drainer.drain.held = [])
    (hpop : drainer.drain ≠ .pop) :
    Drained k { s with drainers := Function.update s.drainers k drainer } := by
  have hself : Function.update s.drainers k drainer k = drainer := Function.update_self ..
  refine ⟨h.mode, h.paired, fun hp => ?_, ?_, ?_, h.fault⟩
  · have hp : (Function.update s.drainers k drainer k).drain = .pop := hp
    rw [hself] at hp
    exact absurd hp hpop
  · show s.started ++ ((Function.update s.drainers k drainer k).drain.held ++ s.pool.queued) = _
    rw [hself, hheld', ← hheld]
    exact h.order
  · show s.popped = s.started ++ (Function.update s.drainers k drainer k).drain.held
    rw [hself, hheld', ← hheld]
    exact h.popped

theorem start_held (pool : MsgRecPool) : (Drain.start pool).held = [] ∧ Drain.start pool ≠ .pop := by
  unfold Drain.start
  split
  · exact ⟨rfl, fun h => by cases h⟩
  · exact ⟨rfl, fun h => by cases h⟩

theorem drained_notify (k : ThreadId) (s t : PoolRun) (h : Drained k s)
    (hs : poolStep s (.notify k) = some t) : Drained k t := by
  obtain ⟨hidle, rfl⟩ := of_guard hs
  obtain ⟨hheld, hpop⟩ := start_held s.pool
  exact drained_moves k s _ h (by rw [hidle]; rfl) hheld hpop

theorem leave_some (drainer drainer' : Drainer) (h : drainer.leave = some drainer') :
    drainer.drain = .idle ∧ drainer'.drain = .test := by
  obtain ⟨drain, depth⟩ := drainer
  cases drain with
  | idle =>
    cases depth with
    | zero => cases h
    | succ depth =>
      rw [← Option.some.inj h]
      exact ⟨rfl, rfl⟩
  | test | pop | call id msg => cases h

theorem poolStep_leave (k : ThreadId) (s t : PoolRun) (hs : poolStep s (.leave k) = some t) :
    ∃ drainer, (s.drainers k).drain = .idle ∧ drainer.drain = .test ∧
      t = { s with drainers := Function.update s.drainers k drainer } := by
  rw [poolStep] at hs
  split at hs
  · cases hs
  · next drainer hleave =>
    obtain ⟨hidle, htest⟩ := leave_some _ _ hleave
    exact ⟨drainer, hidle, htest, (Option.some.inj hs).symm⟩

theorem drained_leave (k : ThreadId) (s t : PoolRun) (h : Drained k s)
    (hs : poolStep s (.leave k) = some t) : Drained k t := by
  obtain ⟨drainer, hidle, htest, rfl⟩ := poolStep_leave k s t hs
  exact drained_moves k s drainer h (by rw [hidle]; rfl) (by rw [htest]; rfl)
    (by rw [htest]; intro hpop; cases hpop)

/-- what a step holds afterwards, the callback it may enter included -/
theorem enter_held (drain drain' : Drain) (pool pool' : MsgRecPool)
    (calls : List (ConId × Message)) (depth : Nat)
    (h : drain.advance pool = some (drain', pool', calls)) :
    (Drainer.enter drain' calls depth).drain.held = drain'.held ∧
      ((Drainer.enter drain' calls depth).drain = .pop → drain' = .pop) ∧
      drain.held ++ drain.pops drain' = calls ++ drain'.held := by
  unfold Drainer.enter
  cases drain with
  | idle => cases h
  | test =>
    rw [Drain.advance] at h
    split at h
    · cases h
      exact ⟨rfl, id, rfl⟩
    · cases h
      exact ⟨rfl, id, rfl⟩
  | pop =>
    rw [Drain.advance] at h
    split at h
    · cases h
      exact ⟨rfl, id, rfl⟩
    · cases h
  | call id msg =>
    cases h
    refine ⟨rfl, fun h => ?_, rfl⟩
    rw [if_neg (List.cons_ne_nil _ _)] at h
    cases h

/-- a step of `notify_listeners` that does not pop an empty queue -/
theorem poolStep_advance (k : ThreadId) (s t : PoolRun) (hpaired : s.pool.Paired)
    (hpopping : (s.drainers k).drain = .pop → s.pool.recMsgVec ≠ [])
    (hs : poolStep s (.advance k) = some t) :
    ∃ drain pool calls, (s.drainers k).drain.advance s.pool = some (drain, pool, calls) ∧
      t = { s with
        pool := pool
        drainers := Function.update s.drainers k (.enter drain calls (s.drainers k).depth)
        popped := s.popped ++ (s.drainers k).drain.pops drain
        started := s.started ++ calls } := by
  obtain ⟨hbusy, ht⟩ := Option.ite_none_left_eq_some.mp hs
  obtain ⟨⟨drain, pool, calls⟩, hadv⟩ :=
    advance_some (s.drainers k).drain s.pool hpaired hbusy hpopping
  rw [hadv] at ht
  exact ⟨drain, pool, calls, hadv, (Option.some.inj ht).symm⟩

theorem drained_advance (k : ThreadId) (s t : PoolRun) (h : Drained k s)
    (hs : poolStep s (.advance k) = some t) : Drained k t := by
  obtain ⟨drain, pool, calls, hadv, rfl⟩ := poolStep_advance k s t h.paired h.popping hs
  obtain ⟨hq, hp, hd, hpop⟩ :=
    advance_queued (s.drainers k).drain drain s.pool pool calls h.paired hadv
  obtain ⟨hheld, hpop', hpops⟩ :=
    enter_held (s.drainers k).drain drain s.pool pool calls (s.drainers k).depth hadv
  let drainer := Drainer.enter drain calls (s.drainers k).depth
  have hself : Function.update s.drainers k drainer k = drainer := Function.update_self ..
  refine ⟨hd.trans h.mode, hp, fun hpopping => ?_, ?_, ?_, h.fault⟩
  · have hdrainer : (Function.update s.drainers k drainer k).drain = .pop := hpopping
    rw [hself] at hdrainer
    exact hpop (hpop' hdrainer)
  · show s.started ++ calls ++ ((Function.update s.drainers k drainer k).drain.held
      ++ pool.queued) = s.submitted
    rw [hself, hheld, List.append_assoc, ← List.append_assoc calls, hq]
    exact h.order
  · show s.popped ++ (s.drainers k).drain.pops drain
      = s.started ++ calls ++ (Function.update s.drainers k drainer k).drain.held
    rw [hself, hheld, h.popped, List.append_assoc, hpops, List.append_assoc]

theorem drained_step (k : ThreadId) (s t : PoolRun) (l : PoolLabel) (h : Drained k s)
    (hl : OneDrainer k l) (hs : poolStep s l = some t) : Drained k t := by
  cases l with
  | submit id msg => exact drained_submit k id msg s t h hs
  | notify j =>
    obtain rfl : j = k := hl
    exact drained_notify j s t h hs
  | advance j =>
    obtain rfl : j = k := hl
    exact drained_advance j s t h hs
  | leave j =>
    obtain rfl : j = k := hl
    exact drained_leave j s t h hs

/-- a drain that stops has found the queues empty -/
theorem stop_empty (k : ThreadId) (s t : PoolRun) (htest : (s.drainers k).drain = .test)
    (hs : poolStep s (.advance k) = some t) (hidle : (t.drainers k).drain = .idle) :
    t.pool.queued = [] := by
  obtain ⟨-, ht⟩ := Option.ite_none_left_eq_some.mp hs
  rw [htest, Drain.advance] at ht
  by_cases he : s.pool.recMsgVec.isEmpty
  · rw [if_pos he] at ht
    rw [← Option.some.inj ht, MsgRecPool.queued]
    show s.pool.recMsgIds.zip s.pool.recMsgVec = []
    rw [List.isEmpty_iff.mp he]
    exact List.zip_nil_right
  · rw [if_neg he] at ht
    rw [← Option.some.inj ht] at hidle
    have hidle : (Function.update s.drainers k
      (Drainer.enter .pop [] (s.drainers k).depth) k).drain = .idle := hidle
    rw [Function.update_self] at hidle
    cases hidle

/-- **Deferred delivery is immediate delivery.**  In every run of a deferred pool in which one
thread drains, with calls of `notify_listeners` nested to any depth: nothing pops an empty queue;
the two queues have one length; what was popped and what is queued are the submissions in order;
callbacks are started for what was popped, in that order; and when a drain finds the queue empty
the callbacks started are those that a pool that does not defer starts for the same
submissions. -/
theorem deferred_immediate (k : ThreadId) (s : PoolRun)
    (h : Reach poolStep (fun _ => OneDrainer k) (PoolRun.init true) s) :
    s.fault = false ∧ s.pool.recMsgVec.length = s.pool.recMsgIds.length ∧
      s.popped ++ s.pool.queued = s.submitted ∧
      s.popped = s.started ++ (s.drainers k).drain.held ∧
      ∀ t, (s.drainers k).drain = .test → poolStep s (.advance k) = some t →
        (t.drainers k).drain = .idle →
        t.started = submitCalls (MsgRecPool.new false) t.submitted := by
  have hd : Drained k s :=
    h.invariant (drained_init k) fun t l u ht hl hs => drained_step k t u l ht hl hs
  refine ⟨hd.fault, hd.paired.symm, ?_, hd.popped, fun t htest hs hidle => ?_⟩
  · rw [hd.popped, List.append_assoc]
    exact hd.order
  · have ht := drained_advance k s t hd hs
    have horder := ht.order
    rw [hidle, stop_empty k s t htest hs hidle] at horder
    rw [submitCalls_immediate (MsgRecPool.new false) rfl rfl, ← horder]
    exact (List.append_nil t.started).symm

/-- inside the callback of the first message a third one is submitted and the queue drained -/
theorem deferred_immediate_nested :
    ∃ s, exec poolStep (PoolRun.init true)
        [.submit 1 [97], .submit 2 [98], .notify 0, .advance 0, .advance 0, .advance 0,
          .submit 3 [99], .notify 0, .advance 0, .advance 0, .advance 0, .leave 0, .advance 0,
          .advance 0] = some s ∧
      s.started = [(1, [97]), (2, [98])] ∧ s.popped = [(1, [97]), (2, [98]), (3, [99])] ∧
      s.fault = false ∧ s.popped = s.started ++ (s.drainers 0).drain.held := by
  have hrun : (exec poolStep (PoolRun.init true)
      [.submit 1 [97], .submit 2 [98], .notify 0, .advance 0, .advance 0, .advance 0,
        .submit 3 [99], .notify 0, .advance 0, .advance 0, .advance 0, .leave 0, .advance 0,
        .advance 0]).map (fun s => (s.started, s.popped))
      = some ([(1, [97]), (2, [98])], [(1, [97]), (2, [98]), (3, [99])]) := by decide
  obtain ⟨s, hs, hval⟩ := Option.map_eq_some_iff.mp hrun
  have hreach : Reach poolStep (fun _ => OneDrainer 0) (PoolRun.init true) s :=
    Reach.of_every (every_of_forall _ _ (by simp [OneDrainer])) hs
  obtain ⟨hfault, -, -, hpopped, -⟩ := deferred_immediate 0 s hreach
  exact ⟨s, hs, congrArg Prod.fst hval, congrArg Prod.snd hval, hfault, hpopped⟩

end VoltNet
