import VoltNet.Network.Drainers

/-!
# The order of the callbacks when many threads drain one `msg_rec_pool`

Between the pop and the call of `on_msg_received` a thread holds no lock, so the callbacks of two
threads may be started in either order.

* `TracedRun`            a pool, its threads, and which thread started which callback;
* `ThreadStep`           what a step pops and starts, all of it by one thread;
* `HeldAlone`            a pair is popped only while no other thread holds one;
* `InTurn`               the invariant of the runs of `HeldAlone` steps;
* `drainers_in_order`    each thread starts its callbacks in the order of the submissions, and
                         in the runs of `HeldAlone` steps all threads together do.
-/

namespace VoltNet
open Runs

/-- the callbacks that a step starts, with the thread that runs them -/
def PoolLabel.calls (s : PoolRun) : PoolLabel → List (ThreadId × ConId × Message)
  | .advance k => (s.drainers k).drain.held.map fun pair => (k, pair)
  | _ => []

structure TracedRun where
  run : PoolRun
  calls : List (ThreadId × ConId × Message)

def TracedRun.init : TracedRun := ⟨PoolRun.init true, []⟩

def tracedStep (s : TracedRun) (l : PoolLabel) : Option TracedRun :=
  (poolStep s.run l).map fun t => ⟨t, s.calls ++ l.calls s.run⟩

/-- what was passed to `on_msg_received` on the thread `k`, in order -/
def TracedRun.startedBy (s : TracedRun) (k : ThreadId) : List (ConId × Message) :=
  (s.calls.filter fun call => call.1 = k).map Prod.snd

/-- a pair is popped only while no other thread holds one -/
def HeldAlone (s : PoolRun) : PoolLabel → Prop
  | .advance k => (s.drainers k).drain = .pop → ∀ j, j ≠ k → (s.drainers j).drain.held = []
  | _ => True

/-! ## one step -/

/-- the thread `k` pops `pops` and starts callbacks for `calls` -/
structure ThreadStep (s t : PoolRun) (k : ThreadId) (pops calls : List (ConId × Message)) :
    Prop where
  others : ∀ j, j ≠ k → t.drainers j = s.drainers j
  held : (s.drainers k).drain.held ++ pops = calls ++ (t.drainers k).drain.held
  popped : t.popped = s.popped ++ pops
  started : t.started = s.started ++ calls

/-- a step that moves at most one thread, which holds nothing before and after it -/
theorem threadStep_still (s t : PoolRun) (k : ThreadId)
    (hothers : ∀ j, j ≠ k → t.drainers j = s.drainers j)
    (hheld : (s.drainers k).drain.held = (t.drainers k).drain.held)
    (hpopped : t.popped = s.popped) (hstarted : t.started = s.started) :
    ThreadStep s t k [] [] where
  others := hothers
  held := by rw [List.append_nil, List.nil_append, hheld]
  popped := by rw [hpopped, List.append_nil]
  started := by rw [hstarted, List.append_nil]

/-- a step of `notify_listeners` starts a callback for what the thread held -/
theorem advance_calls (drain drain' : Drain) (pool pool' : MsgRecPool)
    (calls : List (ConId × Message)) (h : drain.advance pool = some (drain', pool', calls)) :
    calls = drain.held ∧ (drain.pops drain' ≠ [] → drain = .pop) := by
  cases drain with
  | idle => cases h
  | test =>
    rw [Drain.advance] at h
    split at h
    · cases h
      exact ⟨rfl, fun hne => absurd rfl hne⟩
    · cases h
      exact ⟨rfl, fun hne => absurd rfl hne⟩
  | pop =>
    rw [Drain.advance] at h
    split at h
    · cases h
      exact ⟨rfl, fun _ => rfl⟩
    · cases h
  | call id msg =>
    cases h
    exact ⟨rfl, fun hne => absurd rfl hne⟩

theorem poolStep_thread (s t : PoolRun) (l : PoolLabel) (h : Shared s)
    (hs : poolStep s l = some t) :
    ∃ k pops calls, ThreadStep s t k pops calls ∧ l.calls s = calls.map (fun pair => (k, pair)) ∧
      (pops ≠ [] → l = .advance k ∧ (s.drainers k).drain = .pop) := by
  cases l with
  | submit id msg =>
    obtain ⟨hcalls, -⟩ := (submit_queued id msg s.pool h.paired).1 h.mode
    rw [← Option.some.inj hs]
    refine ⟨0, [], [], threadStep_still _ _ 0 (fun _ _ => rfl) rfl rfl ?_, rfl,
      fun hne => absurd rfl hne⟩
    show s.started ++ (s.pool.submitMessage id msg).2 = s.started
    rw [hcalls, List.append_nil]
  | notify k =>
    obtain ⟨hidle, rfl⟩ := of_guard hs
    refine ⟨k, [], [], threadStep_still _ _ k (fun j hj => ?_) ?_ rfl rfl, rfl,
      fun hne => absurd rfl hne⟩
    · exact Function.update_of_ne hj ..
    · show _ = (Function.update s.drainers k _ k).drain.held
      rw [Function.update_self, hidle]
      exact (start_held s.pool).1.symm
  | leave k =>
    obtain ⟨drainer, hidle, htest, rfl⟩ := poolStep_leave k s t hs
    refine ⟨k, [], [], threadStep_still _ _ k (fun j hj => ?_) ?_ rfl rfl, rfl,
      fun hne => absurd rfl hne⟩
    · exact Function.update_of_ne hj ..
    · show _ = (Function.update s.drainers k drainer k).drain.held
      rw [Function.update_self, hidle, htest]
      rfl
  | advance k =>
    obtain ⟨drain, pool, calls, hadv, rfl⟩ := poolStep_advance k s t h.paired (h.popping k) hs
    obtain ⟨hheld, -, hpops⟩ :=
      enter_held (s.drainers k).drain drain s.pool pool calls (s.drainers k).depth hadv
    obtain ⟨hcalls, hpop⟩ := advance_calls (s.drainers k).drain drain s.pool pool calls hadv
    refine ⟨k, (s.drainers k).drain.pops drain, calls, ⟨fun j hj => ?_, ?_, rfl, rfl⟩, ?_,
      fun hne => ⟨rfl, hpop hne⟩⟩
    · exact Function.update_of_ne hj ..
    · show _ = calls ++ (Function.update s.drainers k _ k).drain.held
      rw [Function.update_self, hheld, hpops]
    · rw [hcalls]
      rfl

/-! ## each thread -/

structure Traced (s : TracedRun) : Prop where
  shared : Shared s.run
  started : s.calls.map Prod.snd = s.run.started
  ordered : ∀ k, (s.startedBy k ++ (s.run.drainers k).drain.held).Sublist s.run.popped

theorem traced_init : Traced TracedRun.init where
  shared := shared_init
  started := rfl
  ordered _ := List.Sublist.refl []

theorem startedBy_append (s : TracedRun) (t : PoolRun) (k j : ThreadId)
    (calls : List (ConId × Message)) :
    TracedRun.startedBy ⟨t, s.calls ++ calls.map fun pair => (k, pair)⟩ j
      = s.startedBy j ++ if j = k then calls else [] := by
  unfold TracedRun.startedBy
  rw [List.filter_append, List.map_append]
  apply congrArg
  by_cases hj : j = k
  · rw [if_pos hj, List.filter_eq_self.mpr ?_, List.map_map]
    · exact List.map_id calls
    · intro call hcall
      obtain ⟨pair, -, rfl⟩ := List.mem_map.mp hcall
      exact decide_eq_true hj.symm
  · rw [if_neg hj, List.filter_eq_nil_iff.mpr ?_, List.map_nil]
    intro call hcall
    obtain ⟨pair, -, rfl⟩ := List.mem_map.mp hcall
    intro hk
    exact hj (of_decide_eq_true hk).symm

theorem traced_step (s : TracedRun) (l : PoolLabel) (t : TracedRun) (h : Traced s)
    (hl : LastAlone s.run l) (hs : tracedStep s l = some t) : Traced t := by
  obtain ⟨u, hu, rfl⟩ := Option.map_eq_some_iff.mp hs
  obtain ⟨k, pops, calls, hstep, hcalls, -⟩ := poolStep_thread s.run u l h.shared hu
  refine ⟨shared_step s.run l u h.shared hl hu, ?_, fun j => ?_⟩
  · show (s.calls ++ l.calls s.run).map Prod.snd = u.started
    rw [List.map_append, h.started, hcalls, List.map_map, hstep.started]
    exact congrArg (_ ++ ·) (List.map_id calls)
  · show List.Sublist (TracedRun.startedBy ⟨u, s.calls ++ l.calls s.run⟩ j ++ _) u.popped
    rw [hcalls, startedBy_append, hstep.popped]
    by_cases hj : j = k
    · subst hj
      rw [if_pos rfl, List.append_assoc, ← hstep.held, ← List.append_assoc]
      exact (h.ordered j).append (List.Sublist.refl pops)
    · rw [if_neg hj, List.append_nil, hstep.others j hj]
      exact (h.ordered j).trans (List.sublist_append_left s.run.popped pops)

/-! ## all threads together -/

/-- at most one thread holds a popped pair, and it is the next to be started -/
structure InTurn (s : TracedRun) : Prop where
  traced : Traced s
  turn : ∃ k, (∀ j, j ≠ k → (s.run.drainers j).drain.held = []) ∧
    s.run.popped = s.run.started ++ (s.run.drainers k).drain.held

theorem inTurn_init : InTurn TracedRun.init where
  traced := traced_init
  turn := ⟨0, fun _ _ => rfl, rfl⟩

theorem inTurn_step (s : TracedRun) (l : PoolLabel) (t : TracedRun) (h : InTurn s)
    (hl : LastAlone s.run l ∧ HeldAlone s.run l) (hs : tracedStep s l = some t) : InTurn t := by
  refine ⟨traced_step s l t h.traced hl.1 hs, ?_⟩
  obtain ⟨u, hu, rfl⟩ := Option.map_eq_some_iff.mp hs
  obtain ⟨i, pops, calls, hstep, -, hpop⟩ := poolStep_thread s.run u l h.traced.shared hu
  obtain ⟨k, hothers, hpopped⟩ := h.turn
  -- once the holder is the thread that moves, it stays so
  have hmover : (∀ j, j ≠ i → (s.run.drainers j).drain.held = []) →
      s.run.popped = s.run.started ++ (s.run.drainers i).drain.held →
      ∃ k, (∀ j, j ≠ k → (u.drainers j).drain.held = []) ∧
        u.popped = u.started ++ (u.drainers k).drain.held := by
    intro hidle hp
    refine ⟨i, fun j hj => ?_, ?_⟩
    · rw [hstep.others j hj]
      exact hidle j hj
    · rw [hstep.popped, hp, List.append_assoc, hstep.held, hstep.started, List.append_assoc]
  by_cases hik : i = k
  · subst hik
    exact hmover hothers hpopped
  · have hi : (s.run.drainers i).drain.held = [] := hothers i hik
    by_cases hpops : pops = []
    · -- the thread that moves holds nothing and pops nothing
      have hnone := hstep.held
      rw [hi, hpops, List.append_nil] at hnone
      obtain ⟨hcalls, hheld⟩ := List.append_eq_nil_iff.mp hnone.symm
      refine ⟨k, fun j hj => ?_, ?_⟩
      · by_cases hji : j = i
        · rw [hji]
          exact hheld
        · rw [hstep.others j hji]
          exact hothers j hj
      · rw [hstep.popped, hpops, List.append_nil, hpopped, hstep.started, hcalls, List.append_nil,
          hstep.others k fun hki => hik hki.symm]
    · obtain ⟨rfl, hat⟩ := hpop hpops
      have hk : (s.run.drainers k).drain.held = [] := hl.2 hat k fun hki => hik hki.symm
      refine hmover (fun j hj => hl.2 hat j hj) ?_
      rw [hpopped, hk, hi]

/-! ## finitely many threads -/

/-- both conditions, where only the threads `ks` call `notify_listeners` -/
def Among (ks : List ThreadId) (s : PoolRun) : PoolLabel → Prop
  | .submit _ _ => True
  | .notify k => k ∈ ks
  | .leave k => k ∈ ks
  | .advance k => k ∈ ks ∧ ((s.drainers k).drain = .pop → ∀ j ∈ ks, j ≠ k →
      (s.drainers j).drain.held = [] ∧
        (s.pool.recMsgVec.length = 1 → (s.drainers j).drain ≠ .pop))

instance (ks : List ThreadId) (s : PoolRun) : (l : PoolLabel) → Decidable (Among ks s l)
  | .submit _ _ => isTrue trivial
  | .notify k => inferInstanceAs (Decidable (k ∈ ks))
  | .leave k => inferInstanceAs (Decidable (k ∈ ks))
  | .advance k => inferInstanceAs (Decidable (k ∈ ks ∧ ((s.drainers k).drain = .pop →
      ∀ j ∈ ks, j ≠ k → (s.drainers j).drain.held = [] ∧
        (s.pool.recMsgVec.length = 1 → (s.drainers j).drain ≠ .pop))))

theorem among_alone (ks : List ThreadId) (ls : List PoolLabel)
    (h : Every tracedStep (fun s => Among ks s.run) TracedRun.init ls) :
    Every tracedStep (fun s l => LastAlone s.run l ∧ HeldAlone s.run l) TracedRun.init ls := by
  let I : TracedRun → Prop := fun s => ∀ j, j ∉ ks → (s.run.drainers j).drain = .idle
  have hstep : ∀ s l t, I s → Among ks s.run l → tracedStep s l = some t → I t := by
    intro s l t hs hl ht
    obtain ⟨u, hu, rfl⟩ := Option.map_eq_some_iff.mp ht
    refine onlyBy_idle ks s.run u l hs ?_ hu
    cases l with
    | submit id msg => trivial
    | notify k => exact hl
    | leave k => exact hl
    | advance k => exact hl.1
  have halone : ∀ s l, I s → Among ks s.run l → LastAlone s.run l ∧ HeldAlone s.run l := by
    intro s l hs hl
    cases l with
    | submit id msg => exact ⟨trivial, trivial⟩
    | notify k => exact ⟨trivial, trivial⟩
    | leave k => exact ⟨trivial, trivial⟩
    | advance k =>
      refine ⟨fun hpop hone j hj hjpop => ?_, fun hpop j hj => ?_⟩
      · by_cases hks : j ∈ ks
        · exact (hl.2 hpop j hks hj).2 hone hjpop
        · cases (hs j hks).symm.trans hjpop
      · by_cases hks : j ∈ ks
        · exact (hl.2 hpop j hks hj).1
        · rw [hs j hks]
          rfl
  exact every_imp hstep halone (fun _ _ => rfl) ls h

/-- **The order of the callbacks.**  While the last queued pair is only taken by a thread beside
which no other is about to pop, and however many threads drain, each thread starts its callbacks in
the order of the submissions, the one it is about to start included.  If moreover a pair is popped
only while no other thread holds one, all threads together start them in that order, and leave
none out. -/
theorem drainers_in_order (s : TracedRun) :
    (Reach tracedStep (fun s => LastAlone s.run) TracedRun.init s →
      s.calls.map Prod.snd = s.run.started ∧
      ∀ k, (s.startedBy k ++ (s.run.drainers k).drain.held).Sublist s.run.submitted) ∧
    (Reach tracedStep (fun s l => LastAlone s.run l ∧ HeldAlone s.run l) TracedRun.init s →
      s.run.started <+: s.run.submitted) := by
  refine ⟨fun h => ?_, fun h => ?_⟩
  · have hs : Traced s := h.invariant traced_init traced_step
    refine ⟨hs.started, fun k => ?_⟩
    rw [← hs.shared.order]
    exact (hs.ordered k).trans (List.sublist_append_left ..)
  · have hs : InTurn s := h.invariant inTurn_init inTurn_step
    obtain ⟨k, -, hpopped⟩ := hs.turn
    rw [← hs.traced.shared.order, hpopped, List.append_assoc]
    exact List.prefix_append ..

/-- the second thread pops while the callback of the first is running -/
theorem drainers_in_order_two :
    ∃ s, exec tracedStep TracedRun.init
        [.submit 1 [97], .submit 1 [98], .notify 0, .notify 1, .advance 0, .advance 1, .advance 0,
          .advance 0, .advance 1, .advance 1] = some s ∧
      s.startedBy 0 = [(1, [97])] ∧ s.startedBy 1 = [(1, [98])] ∧
      (∀ k, (s.startedBy k ++ (s.run.drainers k).drain.held).Sublist s.run.submitted) ∧
      s.run.started <+: s.run.submitted := by
  have hrun : (exec tracedStep TracedRun.init
      [.submit 1 [97], .submit 1 [98], .notify 0, .notify 1, .advance 0, .advance 1, .advance 0,
        .advance 0, .advance 1, .advance 1]).map (fun s => (s.startedBy 0, s.startedBy 1))
      = some ([(1, [97])], [(1, [98])]) := by decide
  obtain ⟨s, hs, hval⟩ := Option.map_eq_some_iff.mp hrun
  have hevery := among_alone [0, 1] [.submit 1 [97], .submit 1 [98], .notify 0, .notify 1,
    .advance 0, .advance 1, .advance 0, .advance 0, .advance 1, .advance 1] (by decide)
  have hreach := Reach.of_every hevery hs
  exact ⟨s, hs, congrArg Prod.fst hval, congrArg Prod.snd hval,
    ((drainers_in_order s).1 (hreach.mono fun _ _ h => h.1)).2, (drainers_in_order s).2 hreach⟩

/-- without `HeldAlone` the callbacks of one connection may overtake each other -/
example : (exec tracedStep TracedRun.init
    [.submit 1 [97], .submit 1 [98], .notify 0, .notify 1, .advance 0, .advance 0, .advance 1,
      .advance 1, .advance 1, .advance 0]).map (fun s => s.run.started)
    = some [(1, [98]), (1, [97])] := by decide

end VoltNet
