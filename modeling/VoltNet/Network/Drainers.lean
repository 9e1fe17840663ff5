import VoltNet.Network.Draining
import Mathlib.Data.List.Basic

/-!
# Many threads that drain one `msg_rec_pool`

`notify_listeners` tests the queue outside the lock and pops inside it, so another thread can take
the last pair in between.

* `LastAlone`               the last queued pair is taken while no other thread is before its pop;
* `flatMap_update`          what a family of lists holds after a change of one of them;
* `Shared`                  the invariant: pairs popped are started or held by one thread;
* `shared_thread`           a step of one thread keeps it;
* `lastAmong_lastAlone`     the condition, where it is known which threads drain;
* `second_pop`              after any other pop the next step of the other thread is a fault;
* `drainers_deliver_once`   in the runs of `LastAlone` steps every pair is delivered once.
-/

namespace VoltNet
open Runs

/-- the last queued pair is taken only while no other thread is between its test and its pop -/
def LastAlone (s : PoolRun) : PoolLabel → Prop
  | .advance k => (s.drainers k).drain = .pop → s.pool.recMsgVec.length = 1 →
      ∀ j, j ≠ k → (s.drainers j).drain ≠ .pop
  | _ => True

/-- pairs that the threads have popped and not handed on -/
def PoolRun.heldBy (s : PoolRun) (ks : List ThreadId) : List (ConId × Message) :=
  ks.flatMap fun k => (s.drainers k).drain.held

/-! ## what the threads hold -/

/-- a change of one list of a family -/
theorem flatMap_update {α β : Type} (f : ThreadId → α) (g : α → List β) (ks : List ThreadId)
    (hnd : ks.Nodup) (k : ThreadId) (hk : k ∈ ks) (a : α) :
    (ks.flatMap fun j => g (Function.update f k a j)).Perm
      (g a ++ (ks.erase k).flatMap fun j => g (f j)) := by
  have hrest : ((ks.erase k).flatMap fun j => g (Function.update f k a j))
      = (ks.erase k).flatMap fun j => g (f j) := by
    refine List.flatMap_congr fun j hj => ?_
    have hne : j ≠ k := fun h => hnd.not_mem_erase (h ▸ hj)
    rw [Function.update_of_ne hne]
  have h := (List.perm_cons_erase hk).flatMap_right fun j => g (Function.update f k a j)
  rwa [List.flatMap_cons, Function.update_self, hrest] at h

/-- `ks` are all threads that hold a popped pair, and popped pairs are started or held -/
structure Holders (s : PoolRun) (ks : List ThreadId) : Prop where
  nodup : ks.Nodup
  others : ∀ k, k ∉ ks → (s.drainers k).drain.held = []
  perm : (s.started ++ s.heldBy ks).Perm s.popped

/-- any thread may be counted among them -/
theorem Holders.insert {s : PoolRun} {ks : List ThreadId} (h : Holders s ks) (k : ThreadId) :
    ∃ ks', Holders s ks' ∧ k ∈ ks' := by
  by_cases hk : k ∈ ks
  · exact ⟨ks, h, hk⟩
  · refine ⟨k :: ks, ⟨List.nodup_cons.mpr ⟨hk, h.nodup⟩, fun j hj => ?_, ?_⟩, List.mem_cons_self⟩
    · exact h.others j fun hm => hj (List.mem_cons_of_mem k hm)
    · rw [PoolRun.heldBy, List.flatMap_cons, h.others k hk]
      exact h.perm

/-! ## the invariant -/

structure Shared (s : PoolRun) : Prop where
  mode : s.pool.deferMsgSignal = true
  paired : s.pool.Paired
  popping : ∀ k, (s.drainers k).drain = .pop → s.pool.recMsgVec ≠ []
  order : s.popped ++ s.pool.queued = s.submitted
  held : ∃ ks, Holders s ks
  fault : s.fault = false

theorem shared_init : Shared (PoolRun.init true) where
  mode := rfl
  paired := rfl
  popping k h := by cases h
  order := rfl
  held := ⟨[], List.nodup_nil, fun _ _ => rfl, List.Perm.refl _⟩
  fault := rfl

theorem shared_submit (id : ConId) (msg : Message) (s t : PoolRun) (h : Shared s)
    (hs : poolStep s (.submit id msg) = some t) : Shared t := by
  obtain ⟨hcalls, hqueued⟩ := (submit_queued id msg s.pool h.paired).1 h.mode
  obtain ⟨ks, hks⟩ := h.held
  rw [← Option.some.inj hs]
  refine ⟨(submit_defer id msg s.pool).trans h.mode, submit_paired id msg s.pool h.paired,
    fun k hpop => submit_ne_nil id msg s.pool (h.popping k hpop), ?_,
    ⟨ks, hks.nodup, hks.others, ?_⟩, h.fault⟩
  · show s.popped ++ (s.pool.submitMessage id msg).1.queued = s.submitted ++ [(id, msg)]
    rw [hqueued, ← List.append_assoc, h.order]
  · show (s.started ++ (s.pool.submitMessage id msg).2 ++ s.heldBy ks).Perm s.popped
    rw [hcalls, List.append_nil]
    exact hks.perm

/-- **A step of one thread**: it takes `pops` off the queues and makes `calls`. -/
theorem shared_thread (s : PoolRun) (h : Shared s) (k : ThreadId) (drainer : Drainer)
    (pool : MsgRecPool) (pops calls : List (ConId × Message))
    (hmode : pool.deferMsgSignal = s.pool.deferMsgSignal) (hpaired : pool.Paired)
    (hqueued : pops ++ pool.queued = s.pool.queued)
    (hheld : (s.drainers k).drain.held ++ pops = calls ++ drainer.drain.held)
    (hpop : drainer.drain = .pop → pool.recMsgVec ≠ [])
    (hothers : ∀ j, j ≠ k → (s.drainers j).drain = .pop → pool.recMsgVec ≠ []) :
    Shared { s with
      pool := pool
      drainers := Function.update s.drainers k drainer
      popped := s.popped ++ pops
      started := s.started ++ calls } := by
  obtain ⟨ks0, hks0⟩ := h.held
  obtain ⟨ks, hks, hk⟩ := hks0.insert k
  refine ⟨hmode.trans h.mode, hpaired, fun j hj => ?_, ?_,
    ⟨ks, hks.nodup, fun j hj => ?_, ?_⟩, h.fault⟩
  · by_cases hjk : j = k
    · have hd : (Function.update s.drainers k drainer j).drain = .pop := hj
      rw [hjk, Function.update_self] at hd
      exact hpop hd
    · have hd : (Function.update s.drainers k drainer j).drain = .pop := hj
      rw [Function.update_of_ne hjk] at hd
      exact hothers j hjk hd
  · show s.popped ++ pops ++ pool.queued = s.submitted
    rw [List.append_assoc, hqueued, h.order]
  · show (Function.update s.drainers k drainer j).drain.held = []
    have hne : j ≠ k := fun hjk => hj (hjk ▸ hk)
    rw [Function.update_of_ne hne]
    exact hks.others j hj
  · let rest := (ks.erase k).flatMap fun j => (s.drainers j).drain.held
    have hafter : (ks.flatMap fun j => (Function.update s.drainers k drainer j).drain.held).Perm
        (drainer.drain.held ++ rest) :=
      flatMap_update s.drainers (fun d => d.drain.held) ks hks.nodup k hk drainer
    have hbefore : (s.heldBy ks).Perm ((s.drainers k).drain.held ++ rest) := by
      have h' := (List.perm_cons_erase hk).flatMap_right fun j => (s.drainers j).drain.held
      rwa [List.flatMap_cons] at h'
    have hsplit : s.started ++ calls ++ (drainer.drain.held ++ rest)
        = s.started ++ ((s.drainers k).drain.held ++ (pops ++ rest)) := by
      simp only [List.append_assoc]
      rw [← List.append_assoc calls, ← hheld, List.append_assoc]
    calc List.Perm
          (s.started ++ calls
            ++ ks.flatMap fun j => (Function.update s.drainers k drainer j).drain.held)
          (s.started ++ calls ++ (drainer.drain.held ++ rest)) := hafter.append_left _
      _ = s.started ++ ((s.drainers k).drain.held ++ (pops ++ rest)) := hsplit
      List.Perm _ (s.started ++ ((s.drainers k).drain.held ++ (rest ++ pops))) :=
        (List.perm_append_comm.append_left _).append_left _
      _ = s.started ++ ((s.drainers k).drain.held ++ rest) ++ pops := by
        simp only [List.append_assoc]
      List.Perm _ (s.popped ++ pops) :=
        ((hbefore.symm.append_left _).trans hks.perm).append_right _

/-- a step that only moves one thread, and leaves it without a popped pair, as before -/
theorem shared_moves (s : PoolRun) (h : Shared s) (k : ThreadId) (drainer : Drainer)
    (hheld : (s.drainers k).drain.held = []) (hheld' : drainer.drain.held = [])
    (hpop : drainer.drain ≠ .pop) :
    Shared { s with drainers := Function.update s.drainers k drainer } := by
  have ht := shared_thread s h k drainer s.pool [] [] rfl h.paired rfl
    (by rw [hheld, hheld']) (fun hp => absurd hp hpop) (fun j _ hj => h.popping j hj)
  simpa only [List.append_nil] using ht

theorem shared_notify (k : ThreadId) (s t : PoolRun) (h : Shared s)
    (hs : poolStep s (.notify k) = some t) : Shared t := by
  obtain ⟨hidle, rfl⟩ := of_guard hs
  obtain ⟨hheld, hpop⟩ := start_held s.pool
  exact shared_moves s h k _ (by rw [hidle]; rfl) hheld hpop

theorem shared_leave (k : ThreadId) (s t : PoolRun) (h : Shared s)
    (hs : poolStep s (.leave k) = some t) : Shared t := by
  obtain ⟨drainer, hidle, htest, rfl⟩ := poolStep_leave k s t hs
  exact shared_moves s h k drainer (by rw [hidle]; rfl) (by rw [htest]; rfl)
    (by rw [htest]; intro hpop; cases hpop)

/-! ## steps of `notify_listeners` -/

/-- what the locked section takes away -/
theorem advance_length (drain drain' : Drain) (pool pool' : MsgRecPool)
    (calls : List (ConId × Message)) (h : drain.advance pool = some (drain', pool', calls)) :
    (drain = .pop → pool.recMsgVec.length = pool'.recMsgVec.length + 1) ∧
      (drain ≠ .pop → pool'.recMsgVec = pool.recMsgVec) := by
  cases drain with
  | idle => cases h
  | test =>
    refine ⟨fun hp => (by cases hp), fun _ => ?_⟩
    rw [Drain.advance] at h
    split at h
    · cases h
      rfl
    · cases h
      rfl
  | pop =>
    refine ⟨fun _ => ?_, fun hp => absurd rfl hp⟩
    rw [Drain.advance] at h
    split at h
    · next hv _ =>
      cases h
      rw [hv]
      rfl
    · cases h
  | call id msg =>
    refine ⟨fun hp => (by cases hp), fun _ => ?_⟩
    cases h
    rfl

theorem shared_advance (k : ThreadId) (s t : PoolRun) (h : Shared s)
    (hlast : LastAlone s (.advance k)) (hs : poolStep s (.advance k) = some t) : Shared t := by
  obtain ⟨drain, pool, calls, hadv, rfl⟩ := poolStep_advance k s t h.paired (h.popping k) hs
  obtain ⟨hq, hp, hd, hpop⟩ :=
    advance_queued (s.drainers k).drain drain s.pool pool calls h.paired hadv
  obtain ⟨hheld, hpop', hpops⟩ :=
    enter_held (s.drainers k).drain drain s.pool pool calls (s.drainers k).depth hadv
  obtain ⟨htakes, hkeeps⟩ := advance_length (s.drainers k).drain drain s.pool pool calls hadv
  have hqueued : (s.drainers k).drain.pops drain ++ pool.queued = s.pool.queued := by
    rw [← hpops, List.append_assoc] at hq
    exact List.append_cancel_left hq
  refine shared_thread s h k (.enter drain calls (s.drainers k).depth) pool _ calls hd hp hqueued
    (by rw [hheld, hpops]) (fun h' => hpop (hpop' h')) fun j hj hjpop => ?_
  -- the other thread still finds what it has seen
  by_cases hk : (s.drainers k).drain = .pop
  · have hlen := htakes hk
    intro hempty
    rw [hempty] at hlen
    exact hlast hk hlen j hj hjpop
  · rw [hkeeps hk]
    exact h.popping j hjpop

theorem shared_step (s : PoolRun) (l : PoolLabel) (t : PoolRun) (h : Shared s)
    (hl : LastAlone s l) (hs : poolStep s l = some t) : Shared t := by
  cases l with
  | submit id msg => exact shared_submit id msg s t h hs
  | notify k => exact shared_notify k s t h hs
  | advance k => exact shared_advance k s t h hl hs
  | leave k => exact shared_leave k s t h hs

theorem pop_fault (s : PoolRun) (k : ThreadId) (hk : (s.drainers k).drain = .pop)
    (hempty : s.pool.recMsgVec = []) : poolStep s (.advance k) = some { s with fault := true } := by
  have hbusy : (s.drainers k).drain ≠ .idle := by
    rw [hk]
    intro hidle
    cases hidle
  have hnone : (s.drainers k).drain.advance s.pool = none := by
    rw [hk, Drain.advance, hempty]
  rw [poolStep, if_neg hbusy]
  simp only [hnone]

/-! ## finitely many threads -/

/-- only the threads `ks` call `notify_listeners` -/
def OnlyBy (ks : List ThreadId) : PoolLabel → Prop
  | .submit _ _ => True
  | .notify k => k ∈ ks
  | .advance k => k ∈ ks
  | .leave k => k ∈ ks

/-- no other thread is inside `notify_listeners` -/
theorem onlyBy_idle (ks : List ThreadId) (s t : PoolRun) (l : PoolLabel)
    (h : ∀ j, j ∉ ks → (s.drainers j).drain = .idle) (hl : OnlyBy ks l)
    (hs : poolStep s l = some t) (j : ThreadId) (hj : j ∉ ks) : (t.drainers j).drain = .idle := by
  have hne : ∀ k, k ∈ ks → j ≠ k := fun k hk hjk => hj (hjk ▸ hk)
  cases l with
  | submit id msg =>
    rw [← Option.some.inj hs]
    exact h j hj
  | notify k =>
    obtain ⟨-, rfl⟩ := of_guard hs
    show (Function.update s.drainers k _ j).drain = .idle
    rw [Function.update_of_ne (hne k hl)]
    exact h j hj
  | leave k =>
    obtain ⟨drainer, -, -, rfl⟩ := poolStep_leave k s t hs
    show (Function.update s.drainers k drainer j).drain = .idle
    rw [Function.update_of_ne (hne k hl)]
    exact h j hj
  | advance k =>
    obtain ⟨-, ht⟩ := Option.ite_none_left_eq_some.mp hs
    split at ht
    · rw [← Option.some.inj ht]
      exact h j hj
    · rw [← Option.some.inj ht]
      show (Function.update s.drainers k _ j).drain = .idle
      rw [Function.update_of_ne (hne k hl)]
      exact h j hj

/-- `LastAlone`, where only the threads `ks` call `notify_listeners` -/
def LastAmong (ks : List ThreadId) (s : PoolRun) : PoolLabel → Prop
  | .submit _ _ => True
  | .notify k => k ∈ ks
  | .leave k => k ∈ ks
  | .advance k => k ∈ ks ∧ ((s.drainers k).drain = .pop → s.pool.recMsgVec.length = 1 →
      ∀ j ∈ ks, j ≠ k → (s.drainers j).drain ≠ .pop)

instance decidableLastAmong (ks : List ThreadId) (s : PoolRun) :
    (l : PoolLabel) → Decidable (LastAmong ks s l)
  | .submit _ _ => isTrue trivial
  | .notify k => inferInstanceAs (Decidable (k ∈ ks))
  | .leave k => inferInstanceAs (Decidable (k ∈ ks))
  | .advance k => inferInstanceAs (Decidable (k ∈ ks ∧ ((s.drainers k).drain = .pop →
      s.pool.recMsgVec.length = 1 → ∀ j ∈ ks, j ≠ k → (s.drainers j).drain ≠ .pop)))

theorem lastAmong_lastAlone (ks : List ThreadId) (defer : Bool) (ls : List PoolLabel)
    (h : Every poolStep (LastAmong ks) (PoolRun.init defer) ls) :
    Every poolStep LastAlone (PoolRun.init defer) ls := by
  let I : PoolRun → Prop := fun s => ∀ j, j ∉ ks → (s.drainers j).drain = .idle
  have hstep : ∀ s l t, I s → LastAmong ks s l → poolStep s l = some t → I t := by
    intro s l t hs hl ht
    refine onlyBy_idle ks s t l hs ?_ ht
    cases l with
    | submit id msg => trivial
    | notify k => exact hl
    | leave k => exact hl
    | advance k => exact hl.1
  have halone : ∀ s l, I s → LastAmong ks s l → LastAlone s l := by
    intro s l hs hl
    cases l with
    | submit id msg => trivial
    | notify k => trivial
    | leave k => trivial
    | advance k =>
      intro hpop hone j hj hjpop
      by_cases hks : j ∈ ks
      · exact hl.2 hpop hone j hks hj hjpop
      · cases (hs j hks).symm.trans hjpop
  exact every_imp hstep halone (fun _ _ => rfl) ls h

/-- **After any other pop the thread that is left pops an empty queue**, if it goes on before the
next submission. -/
theorem second_pop (s t : PoolRun) (l : PoolLabel) (h : Shared s) (hl : ¬ LastAlone s l)
    (hs : poolStep s l = some t) :
    ∃ j u, poolStep t (.advance j) = some u ∧ u.fault = true := by
  cases l with
  | submit id msg => exact absurd trivial hl
  | notify k => exact absurd trivial hl
  | leave k => exact absurd trivial hl
  | advance k =>
    simp only [LastAlone, not_forall, not_not] at hl
    obtain ⟨hk, hone, j, hjk, hj⟩ := hl
    obtain ⟨drain, pool, calls, hadv, rfl⟩ := poolStep_advance k s t h.paired (h.popping k) hs
    have hlen := (advance_length (s.drainers k).drain drain s.pool pool calls hadv).1 hk
    have hempty : pool.recMsgVec = [] := List.length_eq_zero_iff.mp (by omega)
    refine ⟨j, _, pop_fault _ j ?_ hempty, rfl⟩
    show (Function.update s.drainers k _ j).drain = .pop
    rw [Function.update_of_ne hjk]
    exact hj

/-- **Every pair is delivered once as long as the last queued pair is only taken while no other
thread is between its test and its pop.**  In such a run nothing pops an empty queue, the pairs
popped and queued are the submissions in order, and the pairs popped are those whose callback was
started or that one thread is about to start.  A run with any other step has a prefix after which
some thread pops an empty queue. -/
theorem drainers_deliver_once (ls : List PoolLabel) (s : PoolRun)
    (h : exec poolStep (PoolRun.init true) ls = some s) :
    (Every poolStep LastAlone (PoolRun.init true) ls →
      s.fault = false ∧ s.popped ++ s.pool.queued = s.submitted ∧
      (∃ ks : List ThreadId, ks.Nodup ∧ (∀ k, k ∉ ks → (s.drainers k).drain.held = []) ∧
        (s.started ++ s.heldBy ks).Perm s.popped) ∧
      (s.pool.recMsgVec = [] → (∀ k, (s.drainers k).drain.held = []) →
        s.started.Perm s.submitted)) ∧
    (¬ Every poolStep LastAlone (PoolRun.init true) ls →
      ∃ pre post j t, ls = pre ++ post ∧
        exec poolStep (PoolRun.init true) (pre ++ [.advance j]) = some t ∧ t.fault = true) := by
  refine ⟨fun hevery => ?_, fun hbad => ?_⟩
  · have hs : Shared s := (Reach.of_every hevery h).invariant shared_init shared_step
    obtain ⟨ks, hks⟩ := hs.held
    refine ⟨hs.fault, hs.order, ⟨ks, hks.nodup, hks.others, hks.perm⟩, fun hempty hnone => ?_⟩
    have hheld : s.heldBy ks = [] := List.flatMap_eq_nil_iff.mpr fun k _ => hnone k
    have hqueued : s.pool.queued = [] := by
      rw [MsgRecPool.queued, hempty]
      exact List.zip_nil_right
    have hperm := hks.perm
    have horder := hs.order
    rw [hheld, List.append_nil] at hperm
    rw [hqueued, List.append_nil] at horder
    rwa [horder] at hperm
  · obtain ⟨pre, l, post, u, v, hls, hpre, hu, hl, hv⟩ := exec_first
      (fun s l t hs hl ht => shared_step s l t hs hl ht) shared_init ls h hbad
    obtain ⟨j, t, hj, hfault⟩ := second_pop u v l hu hl hv
    have hfirst : exec poolStep (PoolRun.init true) (pre ++ [l]) = some v :=
      exec_append hpre (by rw [exec, hv]; rfl)
    refine ⟨pre ++ [l], post, j, t, ?_, exec_append hfirst ?_, hfault⟩
    · rw [hls, List.append_assoc]
      rfl
    · rw [exec, hj]
      rfl

/-- two threads; the second takes its pair while the callback of the first is running -/
theorem drainers_deliver_once_two :
    ∃ s, exec poolStep (PoolRun.init true) [.submit 1 [97], .submit 2 [98], .notify 0, .notify 1,
        .advance 0, .advance 1, .advance 0, .advance 1, .advance 1, .advance 0] = some s ∧
      s.started = [(2, [98]), (1, [97])] ∧ s.pool.queued = [] ∧ s.fault = false ∧
      s.popped = [(1, [97]), (2, [98])] := by
  have hrun : (exec poolStep (PoolRun.init true) [.submit 1 [97], .submit 2 [98], .notify 0,
      .notify 1, .advance 0, .advance 1, .advance 0, .advance 1, .advance 1, .advance 0]).map
        (fun s => (s.started, s.submitted, s.pool.queued))
      = some ([(2, [98]), (1, [97])], [(1, [97]), (2, [98])], []) := rfl
  obtain ⟨s, hs, hval⟩ := Option.map_eq_some_iff.mp hrun
  simp only [Prod.mk.injEq] at hval
  obtain ⟨hstarted, hsubmitted, hqueued⟩ := hval
  obtain ⟨hfault, horder, -⟩ := (drainers_deliver_once _ s hs).1
    (lastAmong_lastAlone [0, 1] true _ (by decide))
  rw [hqueued, hsubmitted, List.append_nil] at horder
  exact ⟨s, hs, hstarted, hqueued, hfault, horder⟩

/-- two threads see the one queued pair; the second pops an empty queue -/
theorem drainers_pop_empty :
    (exec poolStep (PoolRun.init true)
      [.submit 1 [97], .notify 0, .notify 1, .advance 0, .advance 1, .advance 0, .advance 1]).map
        PoolRun.fault = some true := by decide

end VoltNet
