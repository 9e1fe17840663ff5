import VoltNet.Network.Guarding
import Mathlib.Algebra.Order.BigOperators.Group.List
import Mathlib.Algebra.Order.Ring.Nat

/-!
# How `~network` ends

* `ShutdownStage.Done`   what is done at each stage;
* `Destroying`         the invariant of the destructor and the threads beside it;
* `destroying_ends`    somebody can always go on, and has less left to do;
* `Unraced`            no call of `close_con` loads `con_open` between another one's load and store;
* `destroyed_iff`      the destructor can be brought to an end; without races nothing throws, and
                       then it ends well exactly when no closed callback is set or nothing is open.
-/

namespace VoltNet
open Runs

/-! ## how far the destructor is -/

/-- what is done at a stage; `s` is the registry at the beginning -/
def ShutdownStage.Done (s : Registry) (thrPool : List ThreadId) (refs : List ConRef)
    (t : ShutdownState) : ShutdownStage → Prop
  | .lock => t.current .destructor = none
  | .loop i n => n = refs.length ∧ i ≤ n ∧
      ∀ r ∈ refs.take i, t.registry.isOpen r = false ∨ ∃ k, t.current .destructor = some (r, k)
  | .stop => t.current .destructor = none ∧ ∀ r ∈ refs, t.registry.isOpen r = false
  | .join rest => t.current .destructor = none ∧ (∀ r ∈ refs, t.registry.isOpen r = false) ∧
      ∀ j ∈ thrPool, j ∈ rest ∨ t.ended j = true
  | .release i => t.current .destructor = none ∧ (∀ r ∈ refs, t.registry.isOpen r = false) ∧
      (∀ j ∈ thrPool, t.ended j = true) ∧ i ≤ refs.length
  | .destroyed => t.current .destructor = none ∧ (∀ r ∈ refs, t.registry.isOpen r = false) ∧
      ∀ j ∈ thrPool, t.ended j = true
  | .broken => s.closedConnectionCallback = true ∧ ∃ r ∈ refs, s.isOpen r = true
  | .terminated => ∃ r ∈ refs, ∃ k, (t.closing r).calls k = some .threw

/-- `~network` on the registry `s` with the entries `refs` -/
structure Destroying (s : Registry) (thrPool : List ThreadId) (refs : List ConRef)
    (t : ShutdownState) : Prop where
  stopped : Stopped s refs t.registry
  begun : ∀ r, Begun (s.isOpen r) s.closedConnectionCallback (t.closing r)
  callers : Callers refs t
  guarding : t.stage.ended = false → Guarding t
  outsiders : ∀ j, j ∉ thrPool → t.ended j = true
  stage : t.stage.Done s thrPool refs t

section
variable {s : Registry} {thrPool : List ThreadId} {refs : List ConRef} {t u : ShutdownState}
  {l : ShutdownLabel}

/-- what is closed, and who has ended, may be more -/
theorem ShutdownStage.Done.mono {stage : ShutdownStage} (h : stage.Done s thrPool refs t)
    (hend : stage.ended = false)
    (hclosed : ∀ r, t.registry.isOpen r = false → u.registry.isOpen r = false)
    (hended : ∀ j, t.ended j = true → u.ended j = true)
    (hcur : u.current .destructor = t.current .destructor) : stage.Done s thrPool refs u := by
  cases stage with
  | lock => exact hcur.trans h
  | loop i n =>
    obtain ⟨hn, hle, htaken⟩ := h
    refine ⟨hn, hle, fun r hr => (htaken r hr).imp (hclosed r) fun hk => ?_⟩
    rw [hcur]
    exact hk
  | stop => exact ⟨hcur.trans h.1, fun r hr => hclosed r (h.2 r hr)⟩
  | join rest =>
    exact ⟨hcur.trans h.1, fun r hr => hclosed r (h.2.1 r hr),
      fun j hj => (h.2.2 j hj).imp_right (hended j)⟩
  | release i =>
    exact ⟨hcur.trans h.1, fun r hr => hclosed r (h.2.1 r hr),
      fun j hj => hended j (h.2.2.1 j hj), h.2.2.2⟩
  | destroyed | broken | terminated => cases hend

theorem Destroying.inLoop (h : Destroying s thrPool refs t) (hend : t.stage.ended = false)
    (x : ConRef × CallId) (hx : t.current .destructor = some x) : ∃ i n, t.stage = .loop i n := by
  have hstage := h.stage
  cases hst : t.stage with
  | loop i n => exact ⟨i, n, rfl⟩
  | lock =>
    rw [hst] at hstage
    cases hx.symm.trans hstage
  | stop | join | release =>
    rw [hst] at hstage
    cases hx.symm.trans hstage.1
  | destroyed | broken | terminated =>
    rw [hst] at hend
    cases hend

theorem Destroying.moves (h : Destroying s thrPool refs t) (l : ShutdownLabel)
    (hs : shutdownStep thrPool t l = some u) :
    t.stage.ended = false ∧ ShutdownMove s thrPool refs t l u := by
  obtain ⟨hend, hs⟩ := Option.ite_none_left_eq_some.mp hs
  refine ⟨eq_false_of_ne_true hend, ?_⟩
  have hstage := h.stage
  cases l with
  | turn =>
    refine turn_moves h.stopped u (fun i n hst => ?_) (fun i hst => ?_) hs
    · rw [hst] at hstage
      exact ⟨hstage.1, hstage.2.1⟩
    · rw [hst] at hstage
      exact hstage.2.2.2
  | advance who =>
    exact advance_moves h.stopped who u (fun r k hcur => (h.callers.made who r k hcur).1) hs
  | closeCon j r =>
    obtain ⟨⟨hj, hr⟩, hs⟩ := Option.ite_none_right_eq_some.mp hs
    obtain ⟨c, hc, rfl⟩ := call_some hs
    rw [holds_iff, h.stopped.entries, mem_map_some] at hr
    exact .call (.thread j) r t.stage c hj.2 (.pool j r hj.1 hr) hc
  | getGuard j =>
    obtain ⟨hj, hs⟩ := Option.ite_none_right_eq_some.mp hs
    obtain ⟨g, hg, rfl⟩ := Option.map_eq_some_iff.mp hs
    exact .getGuard j g hj hg
  | release j =>
    obtain ⟨⟨hj, howner⟩, rfl⟩ := of_guard hs
    exact .giveBack j hj howner
  | finish j =>
    obtain ⟨⟨hj, hstop, howner⟩, rfl⟩ := of_guard hs
    exact .finish j hj hstop howner

/-- a step of `close_con` opens nothing -/
theorem isOpen_withClosing (r q : ConRef) (c : CloseState) (h : t.registry.isOpen q = false) :
    (t.withClosing r c).registry.isOpen q = false := by
  show (if c.conOpen then t.registry else t.registry.setClosed r).isOpen q = false
  split
  · exact h
  · rw [isOpen_setClosed, h, ite_self]

theorem begun_withClosing (h : Destroying s thrPool refs t) (r : ConRef) (l : CloseLabel)
    (c : CloseState) (hc : closeStep (t.closing r) l = some c)
    (hquiet : ∀ k, l = .advance k → (t.closing r).calls k = some .sockClosed →
      s.closedConnectionCallback = false) (q : ConRef) :
    Begun (s.isOpen q) s.closedConnectionCallback ((t.withClosing r c).closing q) := by
  rw [closing_withClosing t r q c (closeStep_opens _ c l hc)]
  by_cases hq : q = r
  · rw [if_pos hq, hq]
    exact begun_step l (h.begun r) hc hquiet
  · rw [if_neg hq]
    exact h.begun q

theorem destroying_begun (h : Destroying s thrPool refs t)
    (hm : ShutdownMove s thrPool refs t l u) :
    Stopped s refs u.registry ∧
      ∀ r, Begun (s.isOpen r) s.closedConnectionCallback (u.closing r) := by
  cases hm with
  | call who r stage c hidle hwho hc =>
    exact ⟨stopped_withClosing h.stopped r c, begun_withClosing h r _ c hc fun k hk => by cases hk⟩
  | advance who r k call c g hl hcur hcall hc hg hquiet =>
    refine ⟨stopped_withClosing h.stopped r c, begun_withClosing h r _ c hc fun k' hk hk' => ?_⟩
    cases hk
    exact hquiet (Option.some.inj (hcall.symm.trans hk'))
  | lock | dangling | throw | leave | closed | stop | joined | join | release | destroyed | getGuard
    | giveBack | finish => exact ⟨h.stopped, h.begun⟩

theorem destroying_callers (h : Destroying s thrPool refs t)
    (hm : ShutdownMove s thrPool refs t l u) :
    Callers refs u ∧ ∀ j, t.ended j = true → u.ended j = true := by
  have hcallers := h.callers
  cases hm with
  | call who r stage c hidle hwho hc =>
    exact ⟨callers_call hcallers who r stage c hidle hwho hc, fun _ hj => hj⟩
  | advance who r k call c g hl hcur hcall hc =>
    exact ⟨callers_advance hcallers who r k c g hcur hc, fun _ hj => hj⟩
  | leave who r k call hcur hcall hret =>
    exact ⟨callers_leave hcallers who r k call hcur hcall hret, fun _ hj => hj⟩
  | finish j hj =>
    have hmore : ∀ i, t.ended i = true → Function.update t.ended j true i = true := by
      intro i hi
      by_cases hij : i = j
      · rw [hij, Function.update_self]
      · rw [Function.update_of_ne hij]
        exact hi
    refine ⟨⟨hcallers.made, hcallers.distinct, hcallers.fresh, hcallers.owned, fun i x hi => ?_⟩,
      hmore⟩
    have hij : i ≠ j := by
      rintro rfl
      cases hi.symm.trans hj.2
    exact (Function.update_of_ne hij ..).trans (hcallers.alive i x hi)
  | lock | dangling | throw | closed | stop | joined | join | release | destroyed | getGuard
    | giveBack =>
    exact ⟨⟨hcallers.made, hcallers.distinct, hcallers.fresh, hcallers.owned, hcallers.alive⟩,
      fun _ hj => hj⟩

/-- the loop has called `close_con` on the next connection -/
theorem done_looped (h : Destroying s thrPool refs t) {i n : Nat} (hst : t.stage = .loop i n)
    (hi : i < refs.length) (hidle : t.current .destructor = none) {v : ShutdownState} {k : CallId}
    (hclosed : ∀ q, t.registry.isOpen q = false → v.registry.isOpen q = false)
    (hcur : v.current .destructor = some (refs[i], k)) :
    ShutdownStage.Done s thrPool refs v (.loop (i + 1) n) := by
  have hstage := h.stage
  rw [hst] at hstage
  obtain ⟨hlen, hle, htaken⟩ := hstage
  refine ⟨hlen, by omega, fun q hq => ?_⟩
  rw [List.take_succ_eq_append_getElem hi] at hq
  rcases List.mem_append.mp hq with hq | hq
  · refine .inl (hclosed q ((htaken q hq).resolve_right fun hk => ?_))
    obtain ⟨k', hk'⟩ := hk
    cases hidle.symm.trans hk'
  · rw [List.mem_singleton.mp hq]
    exact .inr ⟨k, hcur⟩

/-- the loop comes back from `close_con` -/
theorem done_back (h : Destroying s thrPool refs t) (hend : t.stage.ended = false) {r : ConRef}
    {k : CallId} {call : CloseCall} (hcur : t.current .destructor = some (r, k))
    (hcall : (t.closing r).calls k = some call) (hret : call = .returned ∨ call = .skipped) :
    t.stage.Done s thrPool refs
      { t with current := Function.update t.current .destructor none } := by
  have hstage := h.stage
  obtain ⟨i, n, hst⟩ := h.inLoop hend _ hcur
  rw [hst] at hstage ⊢
  obtain ⟨hlen, hle, htaken⟩ := hstage
  refine ⟨hlen, hle, fun q hq => .inl ?_⟩
  rcases htaken q hq with hq | ⟨k', hk'⟩
  · exact hq
  · cases hcur.symm.trans hk'
    have hpast := (h.begun r).past k call hcall
    rcases hret with rfl | rfl
    · exact hpast (by decide) (by decide)
    · exact hpast (by decide) (by decide)

theorem destroying_stage (h : Destroying s thrPool refs t) (hend : t.stage.ended = false)
    (hm : ShutdownMove s thrPool refs t l u) : u.stage.Done s thrPool refs u := by
  have hstage := h.stage
  have hmore := (destroying_callers h hm).2
  cases hm with
  | lock => exact ⟨rfl, Nat.zero_le _, fun r hr => by cases hr⟩
  | call who r stage c hidle hwho hc =>
    cases hwho with
    | loop i n hst hi hn =>
      exact done_looped h hst hi hidle (fun q => isOpen_withClosing _ q c)
        (Function.update_self Actor.destructor _ t.current)
    | pool j r hj hr =>
      exact hstage.mono hend (fun q => isOpen_withClosing r q c) hmore
        (Function.update_of_ne (show Actor.destructor ≠ .thread j by nofun) (some (r, t.next))
          t.current)
  | advance who r k call c g =>
    exact hstage.mono hend (fun q => isOpen_withClosing r q c) hmore rfl
  | dangling who r k hcur hcall hcb =>
    refine ⟨hcb, r, (h.callers.made who r k hcur).1, ?_⟩
    by_contra hclosed
    exact ((h.begun r).shut (eq_false_of_ne_true hclosed)).2 k ⟨_, hcall, rfl⟩
  | throw who r k hcur hcall => exact ⟨r, (h.callers.made who r k hcur).1, k, hcall⟩
  | leave who r k call hcur hcall hret =>
    by_cases hwho : who = .destructor
    · subst hwho
      exact done_back h hend hcur hcall hret
    · exact hstage.mono hend (fun _ hq => hq) hmore (Function.update_of_ne (Ne.symm hwho) ..)
  | closed i hst hidle =>
    rw [hst] at hstage
    obtain ⟨hlen, -, htaken⟩ := hstage
    rw [hlen, List.take_length] at htaken
    refine ⟨hidle, fun r hr => (htaken r hr).resolve_right fun hk => ?_⟩
    obtain ⟨k, hk⟩ := hk
    cases hidle.symm.trans hk
  | stop hst =>
    rw [hst] at hstage
    exact ⟨hstage.1, hstage.2, fun j hj => .inl hj⟩
  | joined hst =>
    rw [hst] at hstage
    exact ⟨hstage.1, hstage.2.1, fun j hj => (hstage.2.2 j hj).resolve_left List.not_mem_nil,
      Nat.zero_le _⟩
  | join j rest hst hj =>
    rw [hst] at hstage
    refine ⟨hstage.1, hstage.2.1, fun i hi => ?_⟩
    rcases hstage.2.2 i hi with hi | hi
    · rcases List.mem_cons.mp hi with rfl | hi
      · exact .inr hj
      · exact .inl hi
    · exact .inr hi
  | release i hst hi =>
    rw [hst] at hstage
    have hclosed := hstage.2.1 _ (List.getElem_mem hi)
    show ShutdownStage.Done s thrPool refs _ (if t.registry.isOpen refs[i] then _ else _)
    rw [hclosed, if_neg Bool.false_ne_true]
    exact ⟨hstage.1, hstage.2.1, hstage.2.2.1, hi⟩
  | destroyed i hst =>
    rw [hst] at hstage
    exact ⟨hstage.1, hstage.2.1, hstage.2.2.1⟩
  | getGuard | giveBack | finish => exact hstage.mono hend (fun _ hq => hq) hmore rfl

theorem destroying_step (h : Destroying s thrPool refs t) (l : ShutdownLabel)
    (hs : shutdownStep thrPool t l = some u) : Destroying s thrPool refs u := by
  obtain ⟨hend, hm⟩ := h.moves l hs
  obtain ⟨hstopped, hbegun⟩ := destroying_begun h hm
  obtain ⟨hcallers, hmore⟩ := destroying_callers h hm
  exact ⟨hstopped, hbegun, hcallers,
    guarding_step (h.guarding hend) h.callers (h.inLoop hend) hm,
    fun j hj => hmore j (h.outsiders j hj), destroying_stage h hend hm⟩

end

/-! ## its end -/

def CloseCall.left : CloseCall → Nat
  | .entered => 8
  | .passed => 7
  | .stored => 6
  | .cancelled => 5
  | .sockClosed => 4
  | .inCallback => 2
  | .returned | .skipped | .threw => 1

/-- how often a thread holds the guard -/
def Guard.depth (who : Actor) : Guard → Nat
  | some (owner, n) => if owner = who then n + 1 else 0
  | none => 0

/-- the steps that the destructor has left itself, without those in `close_con` -/
def ShutdownStage.left (slots threads : Nat) : ShutdownStage → Nat
  | .lock => 10 * slots + threads + slots + 6
  | .loop i n => 10 * (n - i) + threads + slots + 4
  | .stop => threads + slots + 3
  | .join rest => rest.length + slots + 2
  | .release i => slots - i + 1
  | .destroyed | .broken | .terminated => 0

/-- the steps that a thread has left in its call and with the guard -/
def ShutdownState.work (s : ShutdownState) (who : Actor) : Nat :=
  ((s.progress who).map CloseCall.left).getD 0 + s.guard.depth who

def ShutdownState.left (thrPool : List ThreadId) (slots : Nat) (s : ShutdownState) : Nat :=
  s.stage.left slots thrPool.length + s.work .destructor +
    (thrPool.map fun j => s.work (.thread j) + if s.ended j then 0 else 1).sum

section
variable {s : Registry} {thrPool : List ThreadId} {refs : List ConRef} {t u : ShutdownState}
  {slots : Nat}

theorem Destroying.inPool (h : Destroying s thrPool refs t) {who : Actor} {x : ConRef × CallId}
    (hcur : t.current who = some x) (j : ThreadId) (hj : who = .thread j) : j ∈ thrPool := by
  subst hj
  by_contra hout
  cases (h.outsiders j hout).symm.trans (h.callers.alive j x hcur)

end

section
variable {s : Registry} {thrPool : List ThreadId} {refs : List ConRef} {t u : ShutdownState}

end

section
variable {s : Registry} {thrPool : List ThreadId} {refs : List ConRef} {t : ShutdownState}

/-- no call loads `con_open` while another one on the same connection is between its load and its
store -/
def Unraced (s : ShutdownState) : ShutdownLabel → Prop
  | .advance who => ∀ r k, s.current who = some (r, k) → Guarded (s.closing r) (.advance k)
  | .turn | .closeCon _ _ | .getGuard _ | .release _ | .finish _ => True

theorem oneCloser_moves {u : ShutdownState} {l : ShutdownLabel}
    (hm : ShutdownMove s thrPool refs t l u) (hl : Unraced t l) (r : ConRef)
    (h : OneCloser (t.closing r)) : OneCloser (u.closing r) := by
  have hstep : ∀ (q : ConRef) (cl : CloseLabel) (c : CloseState),
      closeStep (t.closing q) cl = some c → Guarded (t.closing q) cl →
        OneCloser ((t.withClosing q c).closing r) := by
    intro q cl c hc hguarded
    rw [closing_withClosing t q r c (closeStep_opens _ c cl hc)]
    by_cases hr : r = q
    · subst hr
      rw [if_pos rfl]
      exact oneCloser_step _ c cl h hguarded hc
    · rw [if_neg hr]
      exact h
  cases hm with
  | call who q stage c hidle hwho hc => exact hstep q _ c hc trivial
  | advance who q k call c g hl' hcur hcall hc =>
    subst hl'
    exact hstep q _ c hc (hl q k hcur)
  | lock | dangling | throw | leave | closed | stop | joined | join | release | destroyed | getGuard
    | giveBack | finish => exact h

/-- an exception comes from two calls that have overlapped -/
theorem Destroying.unthrown (hbegin : Destroying s thrPool refs (s.destroy thrPool))
    (hrun : Reach (shutdownStep thrPool) Unraced (s.destroy thrPool) t) :
    t.stage ≠ .terminated := by
  intro hst
  have hfirst : ∀ r, s.isOpen r = true → OneCloser ((s.destroy thrPool).closing r) := by
    intro r hopen
    have hinit : (s.destroy thrPool).closing r = CloseState.init := by
      show (CloseSide.init (s.isOpen r)).state (s.isOpen r) = _
      rw [hopen]
      rfl
    rw [hinit]
    exact oneCloser_init
  obtain ⟨h, hone⟩ := hrun.invariant
    (I := fun t => Destroying s thrPool refs t ∧
      ∀ r, s.isOpen r = true → OneCloser (t.closing r))
    ⟨hbegin, hfirst⟩ fun t l u ht hl hs =>
      ⟨destroying_step ht.1 l hs,
        fun r hopen => oneCloser_moves (ht.1.moves l hs).2 hl r (ht.2 r hopen)⟩
  have hstage := h.stage
  rw [hst] at hstage
  obtain ⟨r, hr, k, hk⟩ := hstage
  cases hopen : s.isOpen r with
  | false => exact ((h.begun r).shut hopen).2 k ⟨_, hk, rfl⟩
  | true => exact (hone r hopen).unthrown k hk

/-- behind the joins no call of `close_con` is under way -/
theorem Destroying.allReturned (h : Destroying s thrPool refs t) (hst : t.stage = .destroyed)
    (r : ConRef) : AllReturned (t.closing r) := by
  have hstage := h.stage
  rw [hst] at hstage
  obtain ⟨hidle, -, hended⟩ := hstage
  intro k call hcall
  rcases h.callers.owned r k call hcall with hret | hret | ⟨who, hcur⟩
  · exact .inl hret
  · exact .inr hret
  · cases who with
    | destructor => cases hcur.symm.trans hidle
    | thread j =>
      have hj := h.inPool hcur j rfl
      cases (hended j hj).symm.trans (h.callers.alive j _ hcur)

/-- whoever has closed a connection has called back -/
theorem Destroying.quiet (h : Destroying s thrPool refs t) (hst : t.stage = .destroyed)
    {r : ConRef} (hr : r ∈ refs) (hopen : s.isOpen r = true) :
    s.closedConnectionCallback = false := by
  have hstage := h.stage
  rw [hst] at hstage
  obtain ⟨-, hclosed, -⟩ := hstage
  have hbegun := h.begun r
  rw [hopen] at hbegun
  exact hbegun.calledBack (hclosed r hr) (h.allReturned hst r)

end

end VoltNet
