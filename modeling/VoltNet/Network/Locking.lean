import VoltNet.Lib.Locks
import VoltNet.Network.Draining

/-!
# The mutexes

There are three: `connections_mut` of the network, which `get_guard` takes and which is recursive,
`mut` of `msg_rec_pool`, and `mut` of `msg_pool`.  Messages are handed to the user, and objects
destroyed, inside blocks that hold the first one, and user code calls the library back from there.
`~network` joins the threads of the pool, which take all three.

* `Call`                    calls into the library and back, nested in any way;
* `Call.code`               what a call does to the mutexes;
* `Call.handleRead` etc.     the functions of the library as calls;
* `networkDestructor`       `~network`;
* `network_neverStuck`      whatever threads do, they never block each other for good, and
                            `~network` returns;
* `underGuard`              `~network` in a block that holds the guard;
* `network_hangs`           it never gets past the join of a thread that has yet to take the guard.
-/

namespace VoltNet
open Runs Locks

inductive Mutex where
  /-- `network::connections_mut` -/
  | connectionsMut
  /-- `msg_rec_pool::mut` -/
  | recMut
  /-- `mut` in `msg_pool` -/
  | poolMut
deriving DecidableEq

/-- a `std::recursive_mutex`, or a `std::mutex` -/
def Mutex.reentrant : Mutex → Bool
  | .connectionsMut => true
  | .recMut => false
  | .poolMut => false

inductive Call where
  | done
  | seq (first second : Call)
  /-- a block that begins with `get_guard` -/
  | getGuard (block : Call)
  | getMessage
  | returnMessage
  | submitMessage (deferMsgSignal : Bool) (onMsgReceived : Call)
  /-- the locked block of `notify_listeners` -/
  | popMessage

def Call.code : Call → List (Op Mutex ThreadId)
  | .done => []
  | .seq first second => first.code ++ second.code
  | .getGuard block => .acquire .connectionsMut :: (block.code ++ [.release .connectionsMut])
  | .getMessage => [.acquire .poolMut, .release .poolMut]
  | .returnMessage => [.acquire .poolMut, .release .poolMut]
  | .submitMessage deferMsgSignal onMsgReceived =>
    if deferMsgSignal then [.acquire .recMut, .release .recMut] else onMsgReceived.code
  | .popMessage => [.acquire .recMut, .release .recMut]

/-! ## the functions of the library -/

def Call.sequence (calls : List Call) : Call := calls.foldr .seq .done

/-- a `message_ptr` goes; the last one may run the deleter of `get_message` -/
def Call.dropMessage (deletes : Bool) : Call := if deletes then .returnMessage else .done

/-- the message callback that `add_connection` installs; its parameter outlives the guard -/
def Call.newMsgCallback (deferMsgSignal : Bool) (onMsgReceived : Call) (deletes : Bool) : Call :=
  .seq (.getGuard (.submitMessage deferMsgSignal onMsgReceived)) (dropMessage deletes)

/-- the destructor of a `net_con`: what its `close_con` does, then its `recv_msg` -/
def Call.netConDestructor (closeCon : Call) (deletes : Bool) : Call :=
  .seq closeCon (dropMessage deletes)

/-- the closed callback that `add_connection` installs; `erased` are the objects that `erase`
destroys -/
def Call.closedCallback (closedConnectionCallback : Call) (erased : List (Call × Bool)) : Call :=
  .getGuard (.seq closedConnectionCallback
    (.sequence (erased.map fun e => netConDestructor e.1 e.2)))

/-- the messages of a read, and what becomes of the connection -/
def Call.handleRead (msgs : List Call) (closeCon : Call) : Call :=
  .seq (.sequence (msgs.map fun msg => .seq msg .getMessage)) closeCon

def Call.handleWrite (deletes : Bool) : Call := dropMessage deletes

/-- the callback of `start_listening` -/
def Call.acceptCallback (newConnectionCallback : Call) : Call :=
  .getGuard (.seq .getMessage newConnectionCallback)

/-- the task of `server_connect`, when it gets connected -/
def Call.connectTask (newConnectionCallback : Call) : Call :=
  .seq .getMessage (.getGuard newConnectionCallback)

def Call.notifyListeners (onMsgReceived : List (Call × Bool)) : Call :=
  .sequence (onMsgReceived.map fun e => .seq .popMessage (.seq e.1 (dropMessage e.2)))

/-- `~network`, with what closing its connections and destroying its members does -/
def networkDestructor (closes : List Call) (thrPool : List ThreadId) (members : Call) :
    List (Op Mutex ThreadId) :=
  (Call.getGuard (.sequence closes)).code ++ (thrPool.map .join ++ members.code)

/-- `owner` destroys the network at its end -/
def threadCode (owner : ThreadId) (closes : List Call) (thrPool : List ThreadId) (members : Call)
    (work : ThreadId → Call) (t : ThreadId) : List (Op Mutex ThreadId) :=
  (work t).code ++ if t = owner then networkDestructor closes thrPool members else []

/-! ## the order of the mutexes -/

def Mutex.rank : Mutex → Nat
  | .connectionsMut => 0
  | .recMut => 1
  | .poolMut => 2

theorem rank_lt (m : Mutex) : m.rank < 3 := by
  cases m with
  | connectionsMut => exact Nat.zero_lt_succ 2
  | recMut => exact Nat.lt_succ_of_lt (Nat.lt_succ_self 1)
  | poolMut => exact Nat.lt_succ_self 2

/-- nothing is held but the guard, any number of times -/
def GuardOnly (held : List Mutex) : Prop := ∀ m ∈ held, m = .connectionsMut

theorem guardOnly_lower {held : List Mutex} (h : GuardOnly held) {m : Mutex} (hm : 0 < m.rank) :
    ∀ n ∈ held, n.rank < m.rank := by
  intro n hn
  rw [h n hn]
  exact hm

theorem guardOnly_guard {held : List Mutex} (h : GuardOnly held) :
    (.connectionsMut ∈ held ∧ Mutex.reentrant .connectionsMut = true) ∨
      ∀ n ∈ held, n.rank < Mutex.rank .connectionsMut := by
  cases held with
  | nil => exact .inr fun n hn => by cases hn
  | cons n held =>
    refine .inl ⟨?_, rfl⟩
    rw [h n List.mem_cons_self]
    exact List.mem_cons_self

/-- a mutex that is held for a block without calls -/
theorem ordered_block {held : List Mutex} {ops : List (Op Mutex ThreadId)} (m : Mutex)
    (h : GuardOnly held) (hm : 0 < m.rank) (hops : Ordered Mutex.reentrant Mutex.rank held ops) :
    Ordered Mutex.reentrant Mutex.rank held ([.acquire m, .release m] ++ ops) :=
  ⟨.inr (guardOnly_lower h hm), rfl, hops⟩

/-- **A call is in order wherever nothing but the guard is held.** -/
theorem call_ordered (c : Call) (held : List Mutex) (ops : List (Op Mutex ThreadId))
    (h : GuardOnly held) (hops : Ordered Mutex.reentrant Mutex.rank held ops) :
    Ordered Mutex.reentrant Mutex.rank held (c.code ++ ops) := by
  induction c generalizing held ops with
  | done => exact hops
  | seq first second ih1 ih2 =>
    rw [Call.code, List.append_assoc]
    exact ih1 held _ h (ih2 held ops h hops)
  | getGuard block ih =>
    rw [Call.code, List.cons_append, List.append_assoc]
    refine Ordered.scoped (guardOnly_guard h) (fun hrest => ih _ _ ?_ hrest) hops
    intro m hm
    rcases List.mem_cons.mp hm with rfl | hm
    · rfl
    · exact h m hm
  | getMessage => exact ordered_block .poolMut h (Nat.zero_lt_succ 1) hops
  | returnMessage => exact ordered_block .poolMut h (Nat.zero_lt_succ 1) hops
  | submitMessage deferMsgSignal onMsgReceived ih =>
    rw [Call.code]
    split
    · exact ordered_block .recMut h Nat.zero_lt_one hops
    · exact ih held ops h hops
  | popMessage => exact ordered_block .recMut h Nat.zero_lt_one hops

/-- calls do not join -/
theorem join_notMem_code (c : Call) (u : ThreadId) : Op.join u ∉ c.code := by
  induction c with
  | done => exact List.not_mem_nil
  | seq first second ih1 ih2 =>
    rw [Call.code, List.mem_append]
    exact fun h => h.elim ih1 ih2
  | getGuard block ih =>
    rw [Call.code]
    simp [ih]
  | getMessage | returnMessage | popMessage => simp [Call.code]
  | submitMessage deferMsgSignal onMsgReceived ih =>
    rw [Call.code]
    split
    · simp
    · exact ih

theorem join_mem_destructor (closes : List Call) (thrPool : List ThreadId) (members : Call)
    (u : ThreadId) (h : Op.join u ∈ networkDestructor closes thrPool members) : u ∈ thrPool := by
  rw [networkDestructor, List.mem_append, List.mem_append] at h
  rcases h with h | h | h
  · exact absurd h (join_notMem_code _ u)
  · obtain ⟨v, hv, he⟩ := List.mem_map.mp h
    rw [← Op.join.inj he]
    exact hv
  · exact absurd h (join_notMem_code _ u)

theorem destructor_ordered (closes : List Call) (thrPool : List ThreadId) (members : Call) :
    Ordered Mutex.reentrant Mutex.rank [] (networkDestructor closes thrPool members) := by
  have hmembers : Ordered Mutex.reentrant Mutex.rank [] (members.code ++ []) :=
    call_ordered members [] [] nofun rfl
  rw [List.append_nil] at hmembers
  exact call_ordered _ [] _ nofun hmembers.joins

/-- threads in the pool are joined, their destroyer is not -/
def threadLevel (owner t : ThreadId) : Nat := if t = owner then 1 else 0

theorem threadCode_disciplined (owner : ThreadId) (closes : List Call) (thrPool : List ThreadId)
    (members : Call) (work : ThreadId → Call) (howner : owner ∉ thrPool) :
    Disciplined Mutex.reentrant Mutex.rank (threadLevel owner)
      (LockState.init (threadCode owner closes thrPool members work)) := by
  refine disciplined_init _ (fun t => call_ordered (work t) [] _ nofun ?_) fun t u hu => ?_
  · split
    · exact destructor_ordered closes thrPool members
    · rfl
  · rw [threadCode, List.mem_append] at hu
    have hu := hu.resolve_left (join_notMem_code _ u)
    by_cases ht : t = owner
    · rw [if_pos ht] at hu
      have hpool := join_mem_destructor closes thrPool members u hu
      have hne : u ≠ owner := fun e => howner (e ▸ hpool)
      rw [threadLevel, threadLevel, if_neg hne, if_pos ht]
      exact Nat.zero_lt_one
    · rw [if_neg ht] at hu
      cases hu

/-- **Threads never block each other for good.**  Whatever calls any number of threads make, with
callbacks nested in any way, and whichever of them a thread outside the pool has left behind when it
runs `~network`: in every state reached some thread can go on, unless all have come to their end, and
all of them can be brought there, so that `~network` returns. -/
theorem network_neverStuck (owner : ThreadId) (closes : List Call) (thrPool : List ThreadId)
    (members : Call) (work : ThreadId → Call) (howner : owner ∉ thrPool)
    (s : LockState Mutex ThreadId)
    (h : Reach (lockStep Mutex.reentrant) (fun _ _ => True)
      (LockState.init (threadCode owner closes thrPool members work)) s) :
    (∀ t, s.code t ≠ [] → ∃ u s', lockStep Mutex.reentrant s u = some s') ∧
    ∀ ts : List ThreadId, (∀ t, t ∉ ts → s.code t = []) →
      ∃ s', Reach (lockStep Mutex.reentrant) (fun _ _ => True) s s' ∧ ∀ t, s'.code t = [] := by
  have hd : Disciplined Mutex.reentrant Mutex.rank (threadLevel owner) s :=
    h.invariant (threadCode_disciplined owner closes thrPool members work howner)
      fun t l u ht _ hs => disciplined_step t u l ht hs
  exact ⟨fun t ht => disciplined_moves hd rank_lt t ht,
    fun ts hts => disciplined_ends hd rank_lt ts hts⟩

/-- a connection is made, two messages are handed over at once, with a callback that takes the guard
again, the connection is closed and erased, and a write completes -/
def poolWork : Call :=
  .sequence [.connectTask .done, .acceptCallback .done,
    .handleRead [.newMsgCallback false (.getGuard .done) true, .newMsgCallback true .done false]
      (.closedCallback .done [(.done, true)]),
    .handleWrite true]

/-- two threads of the pool, and one outside of it that takes messages from the queue; then it has
to wait for the others -/
theorem network_neverStuck_two :
    ∃ s s', exec (lockStep Mutex.reentrant)
        (LockState.init (threadCode 0 [.netConDestructor .done true] [1, 2] .done fun t =>
          if t = 0 then .notifyListeners [(.getGuard .done, true)]
          else if t = 1 ∨ t = 2 then poolWork else .done))
        [1, 1, 1, 0, 0, 2, 2] = some s ∧
      (lockStep Mutex.reentrant s 0).isNone = true ∧ (lockStep Mutex.reentrant s 2).isNone = true ∧
      Reach (lockStep Mutex.reentrant) (fun _ _ => True) s s' ∧ s'.code 0 = [] := by
  obtain ⟨-, hend⟩ := network_neverStuck 0 [.netConDestructor .done true] [1, 2] .done
    (fun t => if t = 0 then .notifyListeners [(.getGuard .done, true)]
      else if t = 1 ∨ t = 2 then poolWork else .done) (by decide) _
    (Reach.of_exec [1, 1, 1, 0, 0, 2, 2] rfl)
  obtain ⟨s', hreach, hall⟩ := hend [0, 1, 2] fun (t : Nat) ht => by
    have h0 : t ≠ 0 := fun e => ht (by simp [e])
    have h1 : t ≠ 1 := fun e => ht (by simp [e])
    have h2 : t ≠ 2 := fun e => ht (by simp [e])
    simp [LockState.acquire, LockState.release, LockState.init, threadCode, Call.code, h0, h1, h2]
  exact ⟨_, s', rfl, rfl, rfl, hreach, hall 0⟩

/-! ## the destructor under the guard -/

/-- `owner` destroys the network in a block that holds the guard -/
def underGuard (owner : ThreadId) (closes : List Call) (thrPool : List ThreadId)
    (members before after : Call) (work : ThreadId → Call) (t : ThreadId) :
    List (Op Mutex ThreadId) :=
  if t = owner then
    before.code ++ (.acquire .connectionsMut ::
      (networkDestructor closes thrPool members ++ .release .connectionsMut :: after.code))
  else (work t).code

/-- what a call acquires it releases -/
theorem call_balanced (c : Call) (m : Mutex) :
    c.code.count (.acquire m) = c.code.count (.release m) := by
  induction c with
  | done => rfl
  | seq first second ih1 ih2 => rw [Call.code, List.count_append, List.count_append, ih1, ih2]
  | getGuard block ih =>
    simp only [Call.code, List.count_cons, List.count_append, List.count_nil, ih, beq_iff_eq,
      reduceCtorEq, Op.acquire.injEq, Op.release.injEq, if_false, Nat.add_zero, Nat.zero_add]
  | getMessage | returnMessage | popMessage => simp [Call.code, List.count_cons]
  | submitMessage deferMsgSignal onMsgReceived ih =>
    rw [Call.code]
    split
    · simp [List.count_cons]
    · exact ih

/-- the end of a list of two parts -/
theorem suffix_append_cases {r a b : List (Op Mutex ThreadId)} (h : r <:+ a ++ b) :
    r <:+ b ∨ ∃ a', a' <:+ a ∧ r = a' ++ b := by
  rcases List.suffix_or_suffix_of_suffix h (List.suffix_append a b) with h' | ⟨a', rfl⟩
  · exact .inl h'
  · exact .inr ⟨a', List.suffix_append_self_iff.mp h, rfl⟩

/-- in the rest of a call nothing is acquired that is not released -/
theorem call_suffix (c : Call) (m : Mutex) (r : List (Op Mutex ThreadId)) (h : r <:+ c.code) :
    r.count (.acquire m) ≤ r.count (.release m) := by
  have hlast : ∀ n : Mutex, ∀ r, r <:+ ([.acquire n, .release n] : List (Op Mutex ThreadId)) →
      r.count (.acquire m) ≤ r.count (.release m) := by
    intro n r hr
    rw [List.suffix_cons_iff, List.suffix_cons_iff, List.suffix_nil] at hr
    rcases hr with rfl | rfl | rfl <;> simp [List.count_cons]
  induction c generalizing r with
  | done =>
    rw [List.suffix_nil.mp h]
    exact le_rfl
  | seq first second ih1 ih2 =>
    rcases suffix_append_cases h with h | ⟨a', ha, rfl⟩
    · exact ih2 r h
    · rw [List.count_append, List.count_append, call_balanced second m]
      exact Nat.add_le_add_right (ih1 a' ha) _
  | getGuard block ih =>
    rcases List.suffix_cons_iff.mp h with rfl | h
    · exact (call_balanced (.getGuard block) m).le
    · rcases suffix_append_cases h with h | ⟨a', ha, rfl⟩
      · rw [List.suffix_cons_iff, List.suffix_nil] at h
        rcases h with rfl | rfl <;> simp [List.count_cons]
      · rw [List.count_append, List.count_append, List.count_cons_of_ne (by nofun)]
        exact (ih a' ha).trans (Nat.le_add_right _ _)
  | getMessage | returnMessage | popMessage => exact hlast _ r h
  | submitMessage deferMsgSignal onMsgReceived ih =>
    rw [Call.code] at h
    split at h
    · exact hlast _ r h
    · exact ih r h

theorem count_joins (thrPool : List ThreadId) (op : Op Mutex ThreadId)
    (hop : ∀ u, Op.join u ≠ op) : (thrPool.map Op.join).count op = 0 :=
  List.count_eq_zero.mpr fun h => (List.mem_map.mp h).elim fun u hu => hop u hu.2

/-- a join is ahead of the destructor only, and the release of the guard behind it -/
theorem underGuard_keeps (closes : List Call) (thrPool : List ThreadId) (members after : Call)
    (u : ThreadId) (r : List (Op Mutex ThreadId))
    (h : r <:+ networkDestructor closes thrPool members ++ .release .connectionsMut :: after.code)
    (hu : .join u ∈ r) :
    r.count (.acquire .connectionsMut) < r.count (.release .connectionsMut) := by
  rw [networkDestructor, List.append_assoc, List.append_assoc, ← List.append_assoc] at h
  rcases suffix_append_cases h with h | ⟨a', ha, rfl⟩
  · have hnot := h.subset hu
    simp [join_notMem_code] at hnot
  · have hfirst : a'.count (.acquire .connectionsMut) ≤ a'.count (.release .connectionsMut) := by
      rcases suffix_append_cases ha with ha | ⟨c', hc, rfl⟩
      · rw [List.count_eq_zero.mpr fun hm => List.count_eq_zero.mp
          (count_joins thrPool (.acquire .connectionsMut) (by nofun)) (ha.subset hm)]
        exact Nat.zero_le _
      · rw [List.count_append, List.count_append, count_joins thrPool _ (by nofun),
          count_joins thrPool _ (by nofun)]
        exact call_suffix _ _ c' hc
    have hmembers := call_balanced members .connectionsMut
    have hafter := call_balanced after .connectionsMut
    simp only [List.count_append, List.count_cons_self, List.count_cons_of_ne
      (show (Op.release .connectionsMut : Op Mutex ThreadId) ≠ .acquire .connectionsMut by nofun)]
    omega

theorem underGuard_balanced (owner : ThreadId) (closes : List Call) (thrPool : List ThreadId)
    (members before after : Call) (work : ThreadId → Call) (t : ThreadId) (m : Mutex) :
    (underGuard owner closes thrPool members before after work t).count (.acquire m)
      = (underGuard owner closes thrPool members before after work t).count (.release m) := by
  rw [underGuard]
  split
  · have hjoin := count_joins thrPool (.acquire m) (by nofun)
    have hjoin' := count_joins thrPool (.release m) (by nofun)
    simp only [networkDestructor, List.count_append, List.count_cons, call_balanced, hjoin, hjoin',
      beq_iff_eq, reduceCtorEq, if_false, Op.acquire.injEq, Op.release.injEq]
    omega
  · exact call_balanced (work t) m

/-- **`~network` under the guard.**  When a thread destroys the network in a block that holds the
guard, it never gets past the join of a thread of the pool that has yet to take the guard. -/
theorem network_hangs (owner : ThreadId) (closes : List Call) (thrPool : List ThreadId)
    (members before after : Call) (work : ThreadId → Call) (howner : owner ∉ thrPool)
    (s s' : LockState Mutex ThreadId)
    (h : Reach (lockStep Mutex.reentrant) (fun _ _ => True)
      (LockState.init (underGuard owner closes thrPool members before after work)) s)
    (hinside : s.code owner <:+
      networkDestructor closes thrPool members ++ .release .connectionsMut :: after.code)
    (u : ThreadId) (hu : u ∈ thrPool) (hjoin : .join u ∈ s.code owner)
    (hneeds : .acquire .connectionsMut ∈ s.code u)
    (h' : Reach (lockStep Mutex.reentrant) (fun _ _ => True) s s') : .join u ∈ s'.code owner := by
  have hnone : Owned (LockState.init
      (underGuard owner closes thrPool members before after work)) :=
    fun _ _ => iff_of_false List.not_mem_nil nofun
  have howned : Owned s := h.invariant hnone fun v l w hv _ hs => owned_step v w l hv hs
  have hbalanced : Balanced s :=
    h.invariant
      (balanced_init _ (underGuard_balanced owner closes thrPool members before after work))
      fun v l w hv _ hs => balanced_step v w l hv hs
  have hhung : Hung owner u .connectionsMut s :=
    ⟨howned, hbalanced, fun r hr => underGuard_keeps closes thrPool members after u r
      (hr.trans hinside), hjoin, hneeds⟩
  have hne : u ≠ owner := fun e => howner (e ▸ hu)
  have hend : Hung owner u .connectionsMut s' :=
    h'.invariant hhung fun v l w hv _ hs => hung_step hne v w l hv hs
  exact hend.waits

/-- the network is released under the guard while a connection is being made -/
theorem network_hangs_connect :
    ∃ s s', exec (lockStep Mutex.reentrant)
        (LockState.init (underGuard 0 [.netConDestructor .done true] [1] .done .done .done
          fun _ => .connectTask .done))
        [0, 0, 1, 1] = some s ∧
      exec (lockStep Mutex.reentrant) s [0, 0, 0] = some s' ∧ .join 1 ∈ s'.code 0 := by
  obtain ⟨s, hs, hval⟩ := Option.map_eq_some_iff.mp (show (exec (lockStep Mutex.reentrant)
    (LockState.init (underGuard 0 [.netConDestructor .done true] [1] .done .done .done
      fun _ => .connectTask .done))
      [0, 0, 1, 1]).map
        (fun s => (s.code 0, s.code 1, (exec (lockStep Mutex.reentrant) s [0, 0, 0]).isSome))
      = some ([.acquire .poolMut, .release .poolMut, .release .connectionsMut, .join 1,
          .release .connectionsMut], [.acquire .connectionsMut, .release .connectionsMut], true)
    from rfl)
  simp only [Prod.mk.injEq] at hval
  obtain ⟨hcode, hcode', hmore⟩ := hval
  obtain ⟨s', hs'⟩ := Option.isSome_iff_exists.mp hmore
  refine ⟨s, s', hs, hs', network_hangs 0 _ [1] _ _ _ _ (by decide) s s' (Reach.of_exec _ hs) ?_ 1
    (List.mem_singleton_self 1) ?_ ?_ (Reach.of_exec _ hs')⟩
  · rw [hcode]
    exact List.suffix_cons _ _
  · rw [hcode]
    decide
  · rw [hcode']
    decide

end VoltNet
