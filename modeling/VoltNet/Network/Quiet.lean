import VoltNet.Network.Listener

/-!
# A listener after `close_listener`

`accept_new_connection` returns early when `listener_open` is cleared, but `accept_v4` and
`accept_v6` go on to their `async_accept` in any case.  So every handler that returns has started
an accept, and every accept that completes calls a handler.

* `QuietAfter`       no accept is started after the flag is cleared;
* `IdleAfter`        no handler runs then, and no accept completes any more;
* `accepts_balance`  accepts started and handlers called, over any run;
* `goesQuiet_iff`    a listener goes quiet exactly in the runs that are `IdleAfter`;
* `accepts_forever`  an acceptor whose accepts fail is armed again, for ever.
-/

namespace VoltNet
open Runs

/-- the handler of `f` calls `async_accept` -/
def startsAccept (f : Family) (s : Listener) : ListenerLabel → Bool
  | .handle g => decide (g = f ∧ (s.sides g).stage = .rearm)
  | _ => false

/-- an accept of `f` completes, which calls its handler -/
def callsHandler (f : Family) (_ : Listener) : ListenerLabel → Bool
  | .accept g | .fail g => decide (g = f)
  | _ => false

/-- once `close_listener` has cleared the flag, no handler starts another accept, and each runs at
most once more -/
def QuietAfter (s : Listener) : ListenerLabel → Listener → List ListenerLabel → Prop
  | .close k, t, ls => s.closes k = .store → ∀ f,
      countWhere listenerStep (startsAccept f) t ls = 0 ∧
        countWhere listenerStep (callsHandler f) t ls ≤ 1
  | _, _, _ => True

/-- when `close_listener` clears the flag no handler is running, and no accept completes after
that -/
def IdleAfter (s : Listener) : ListenerLabel → Listener → List ListenerLabel → Prop
  | .close k, t, ls => s.closes k = .store → ∀ f,
      (t.sides f).stage = .idle ∧ countWhere listenerStep (callsHandler f) t ls = 0
  | _, _, _ => True

/-! ## accepts started and handlers called -/

def AcceptSide.running (side : AcceptSide) : Nat := if side.stage = .idle then 0 else 1

theorem running_idle (side : AcceptSide) : side.running = 0 ↔ side.stage = .idle := by
  unfold AcceptSide.running
  split
  · next h => exact ⟨fun _ => h, fun _ => rfl⟩
  · next h =>
    refine ⟨fun hone => ?_, fun hidle => absurd hidle h⟩
    cases hone

/-- a handler returns with its `async_accept`, and not before -/
theorem handler_running (listenerOpen : Bool) (side side' : AcceptSide) (calls : List Sock)
    (h : side.handler listenerOpen = some (side', calls)) :
    side.running = 1 ∧ (decide (side.stage = .rearm)).toNat + side'.running = 1 := by
  obtain ⟨sock, out, stage⟩ := side
  cases stage with
  | idle => cases h
  | entered err =>
    obtain ⟨rfl, -⟩ := Prod.mk.inj (Option.some.inj h)
    exact ⟨rfl, rfl⟩
  | test err socket =>
    simp only [AcceptSide.handler] at h
    split at h
    · obtain ⟨rfl, -⟩ := Prod.mk.inj (Option.some.inj h)
      exact ⟨rfl, rfl⟩
    · obtain ⟨rfl, -⟩ := Prod.mk.inj (Option.some.inj h)
      exact ⟨rfl, rfl⟩
  | call socket =>
    obtain ⟨rfl, -⟩ := Prod.mk.inj (Option.some.inj h)
    exact ⟨rfl, rfl⟩
  | replace =>
    obtain ⟨rfl, -⟩ := Prod.mk.inj (Option.some.inj h)
    exact ⟨rfl, rfl⟩
  | rearm =>
    obtain ⟨rfl, -⟩ := Prod.mk.inj (Option.some.inj h)
    exact ⟨rfl, rfl⟩

/-- a step at the acceptor `g` -/
theorem setSide_running (s : Listener) (f g : Family) (side : AcceptSide) :
    ((s.setSide g side).sides f).running = if g = f then side.running else (s.sides f).running := by
  show (Function.update s.sides g side f).running = _
  by_cases hg : g = f
  · rw [if_pos hg, ← hg, Function.update_self]
  · rw [if_neg hg, Function.update_of_ne (Ne.symm hg)]

theorem accepts_step (f : Family) (s : Listener) (l : ListenerLabel) (t : Listener)
    (h : s.SidesOk) (hs : listenerStep s l = some t) :
    (startsAccept f s l).toNat + (t.sides f).running
      = (callsHandler f s l).toNat + (s.sides f).running := by
  cases listenerStep_moves s l t hs with
  | start g _ _ _ hsides =>
    rw [hsides, setSide_running]
    show 0 + _ = 0 + _
    split
    · next hg =>
      subst hg
      rfl
    · rfl
  | setOpen _ hsides =>
    rw [hsides]
    rfl
  | close k _ hsides =>
    rw [hsides]
    rfl
  | complete g c l hl hout _ hsides =>
    have hcalls : callsHandler f s l = decide (g = f) := by
      rcases hl with rfl | rfl
      · rfl
      · rfl
    have hstarts : startsAccept f s l = false := by
      rcases hl with rfl | rfl
      · rfl
      · rfl
    have hcomplete : ((s.sides g).complete c).running = 1 := by
      cases c with
      | some c => rfl
      | none => rfl
    rw [hcalls, hstarts, hsides, setSide_running, hcomplete]
    by_cases hg : g = f
    · subst hg
      rw [(running_idle _).mpr ((h g).idle hout).1]
      simp
    · simp [hg]
  | handle g side calls hstep _ hsides =>
    obtain ⟨hbefore, hafter⟩ := handler_running _ _ _ _ hstep
    show (decide (g = f ∧ (s.sides g).stage = .rearm)).toNat + (t.sides f).running = 0 + _
    rw [hsides, setSide_running]
    by_cases hg : g = f
    · subst hg
      rw [if_pos rfl, hbefore]
      simpa using hafter
    · simp [hg]

/-- **Accepts started and handlers called**: they differ by the handler that is running. -/
theorem accepts_balance (f : Family) (s t : Listener) (hs : s.SidesOk) (ls : List ListenerLabel)
    (h : exec listenerStep s ls = some t) :
    countWhere listenerStep (startsAccept f) s ls + (t.sides f).running
      = countWhere listenerStep (callsHandler f) s ls + (s.sides f).running :=
  countWhere_balance sidesOk_step (fun u l v hu hv => accepts_step f u l v hu hv) hs ls h

/-! ## handlers come to their end -/

/-- only handlers run -/
def Handling (ls : List ListenerLabel) : Prop := ∀ l ∈ ls, ∃ f, l = .handle f

theorem handling_calls (f : Family) (s : Listener) (ls : List ListenerLabel) (h : Handling ls) :
    countWhere listenerStep (callsHandler f) s ls = 0 := by
  refine countWhere_eq_zero s ls fun l hl t => ?_
  obtain ⟨g, rfl⟩ := h l hl
  rfl

/-- a handler leaves the other acceptor alone -/
theorem handle_other (f g : Family) (hg : g ≠ f) (n : Nat) (s t : Listener)
    (h : exec listenerStep s (List.replicate n (.handle f)) = some t) : t.sides g = s.sides g := by
  induction n generalizing s with
  | zero => rw [Option.some.inj h]
  | succ n ih =>
    obtain ⟨u, hu, hrest⟩ := exec_cons h
    obtain ⟨side, calls, -, rfl⟩ := listenerStep_handle f s u hu
    rw [ih _ hrest]
    exact Function.update_of_ne hg _ _

theorem handlers_return (s : Listener) :
    ∃ ms t, Handling ms ∧ exec listenerStep s ms = some t ∧ ∀ f, (t.sides f).stage = .idle := by
  obtain ⟨n, u, hu, hfirst⟩ := handler_returns .v4 s
  obtain ⟨m, t, ht, hsecond⟩ := handler_returns .v6 u
  refine ⟨_, t, fun l hl => ?_, exec_append hu ht, fun f => ?_⟩
  · rcases List.mem_append.mp hl with hl | hl
    · exact ⟨.v4, (List.mem_replicate.mp hl).2⟩
    · exact ⟨.v6, (List.mem_replicate.mp hl).2⟩
  · cases f with
    | v4 =>
      rw [handle_other .v6 .v4 (by decide) m u t ht]
      exact hfirst
    | v6 => exact hsecond

/-! ## after the flag is cleared -/

/-- a run in which no handler runs and none is called starts no accept, whatever its handlers go
on to do -/
theorem quiet_of_idle (s t u : Listener) (hs : s.SidesOk) (ls ms : List ListenerLabel)
    (ht : exec listenerStep s ls = some t) (hms : Handling ms) (hu : exec listenerStep t ms = some u)
    (f : Family) (hidle : (s.sides f).stage = .idle)
    (hcalls : countWhere listenerStep (callsHandler f) s ls = 0) :
    countWhere listenerStep (startsAccept f) s (ls ++ ms) = 0 ∧
      countWhere listenerStep (callsHandler f) s (ls ++ ms) ≤ 1 := by
  have hall : countWhere listenerStep (callsHandler f) s (ls ++ ms) = 0 := by
    rw [countWhere_append ht, hcalls, handling_calls f t ms hms]
  have hbalance := accepts_balance f s u hs _ (exec_append ht hu)
  rw [hall, (running_idle _).mpr hidle] at hbalance
  exact ⟨by omega, by omega⟩

/-- a run that starts no accept before its handlers have returned had no handler -/
theorem idle_of_quiet (s t : Listener) (hs : s.SidesOk) (ls : List ListenerLabel)
    (ht : exec listenerStep s ls = some t) (f : Family)
    (hquiet : ∀ ms u, Handling ms → exec listenerStep t ms = some u →
      countWhere listenerStep (startsAccept f) s (ls ++ ms) = 0) :
    (s.sides f).stage = .idle ∧ countWhere listenerStep (callsHandler f) s ls = 0 := by
  obtain ⟨ms, u, hms, hu, hreturned⟩ := handlers_return t
  have hbalance := accepts_balance f s u hs _ (exec_append ht hu)
  rw [hquiet ms u hms hu, (running_idle _).mpr (hreturned f), countWhere_append ht] at hbalance
  exact ⟨(running_idle _).mp (by omega), by omega⟩

/-- the same for every call of `close_listener` in a run from `s` -/
theorem quiet_iff_idle (s t : Listener) (hs : s.SidesOk) (ls : List ListenerLabel)
    (ht : exec listenerStep s ls = some t) :
    (∀ ms u, Handling ms → exec listenerStep t ms = some u →
      EveryThen listenerStep QuietAfter s (ls ++ ms)) ↔ EveryThen listenerStep IdleAfter s ls := by
  induction ls generalizing s with
  | nil =>
    refine ⟨fun _ => trivial, fun _ ms u hms _ => ?_⟩
    refine everyThen_of_forall s ms fun l hl _ _ _ => ?_
    obtain ⟨f, rfl⟩ := hms l hl
    trivial
  | cons l ls ih =>
    obtain ⟨v, hv, hrest⟩ := exec_cons ht
    have hok : v.SidesOk := sidesOk_step s l v hs hv
    constructor
    · intro hquiet
      rw [everyThen_cons hv]
      refine ⟨?_, (ih v hok hrest).mp fun ms u hms hu => (hquiet ms u hms hu v hv).2⟩
      cases l with
      | close k =>
        intro hstore f
        refine idle_of_quiet v t hok ls hrest f fun ms u hms hu => ?_
        exact ((hquiet ms u hms hu v hv).1 hstore f).1
      | construct => trivial
      | accept g => trivial
      | fail g => trivial
      | handle g => trivial
    · intro hidle ms u hms hu
      obtain ⟨hfirst, hmore⟩ := hidle v hv
      rw [List.cons_append, everyThen_cons hv]
      refine ⟨?_, (ih v hok hrest).mpr hmore ms u hms hu⟩
      cases l with
      | close k =>
        intro hstore f
        obtain ⟨hstage, hcalls⟩ := hfirst hstore f
        exact quiet_of_idle v t u hok ls ms hrest hms hu f hstage hcalls
      | construct => trivial
      | accept g => trivial
      | fail g => trivial
      | handle g => trivial

/-- **A listener goes quiet exactly in the runs in which nothing is left to do when it is closed.**
For any order of the constructor, the accept completions of both acceptors and the calls of
`close_listener`, and whatever the handlers that are running go on to do: after the flag is cleared
no handler starts another accept and each runs at most once more, if and only if no handler is
running when the flag is cleared and no accept completes after that. -/
theorem goesQuiet_iff (prior : Bool) (ls : List ListenerLabel) (s : Listener)
    (h : exec listenerStep (Listener.init prior) ls = some s) :
    (∀ ms t, Handling ms → exec listenerStep s ms = some t →
      EveryThen listenerStep QuietAfter (Listener.init prior) (ls ++ ms)) ↔
      EveryThen listenerStep IdleAfter (Listener.init prior) ls :=
  quiet_iff_idle _ s (sidesOk_init prior) ls h

/-- the flag of a listener is cleared, and no thread is left to run its handlers -/
theorem goesQuiet_iff_left :
    EveryThen listenerStep QuietAfter (Listener.init false)
      ([.construct, .construct, .construct, .close 0, .close 0] ++ []) := by
  obtain ⟨s, hs⟩ : ∃ s, exec listenerStep (Listener.init false)
      [.construct, .construct, .construct, .close 0, .close 0] = some s := ⟨_, rfl⟩
  refine (goesQuiet_iff false _ s hs).mpr ?_ [] s (fun l hl => by cases hl) rfl
  rw [everyThen_cons rfl, everyThen_cons rfl, everyThen_cons rfl, everyThen_cons rfl,
    everyThen_cons rfl]
  refine ⟨trivial, trivial, trivial, fun hstore => ?_, fun _ f => ?_, trivial⟩
  · cases hstore
  · cases f with
    | v4 => exact ⟨rfl, rfl⟩
    | v6 => exact ⟨rfl, rfl⟩

/-- a closed listener whose IPv4 accept fails twice: each time another accept is started -/
theorem closed_rearms :
    ∃ s t, exec listenerStep (Listener.init false)
        [.construct, .construct, .construct, .close 0, .close 0, .close 0, .close 0, .close 0,
          .close 0] = some s ∧
      s.listenerOpen = false ∧ s.acceptorOpen .v4 = false ∧ s.acceptorOpen .v6 = false ∧
      exec listenerStep s
        [.fail .v4, .handle .v4, .handle .v4, .handle .v4, .handle .v4,
          .fail .v4, .handle .v4, .handle .v4, .handle .v4, .handle .v4] = some t ∧
      t.sides .v4 = ⟨.fresh, true, .idle⟩ ∧
      ¬ EveryThen listenerStep QuietAfter (Listener.init false)
        [.construct, .construct, .construct, .close 0, .close 0, .close 0, .close 0, .close 0,
          .close 0, .fail .v4, .handle .v4, .handle .v4, .handle .v4, .handle .v4,
          .fail .v4, .handle .v4, .handle .v4, .handle .v4, .handle .v4] := by
  refine ⟨_, _, rfl, rfl, rfl, rfl, rfl, rfl, fun hall => ?_⟩
  rw [everyThen_cons rfl, everyThen_cons rfl, everyThen_cons rfl, everyThen_cons rfl,
    everyThen_cons rfl] at hall
  obtain ⟨-, -, -, -, hquiet, -⟩ := hall
  have hstarts := (hquiet rfl .v4).1
  cases hstarts

/-! ## the chain of accepts -/

theorem started_step (f : Family) (s : Listener) (l : ListenerLabel) (t : Listener)
    (h : s.construct.started f = true) (hs : listenerStep s l = some t) :
    t.construct.started f = true := by
  cases listenerStep_moves s l t hs with
  | start g _ hafter hrest _ =>
    by_cases hf : f = g
    · rw [hf]
      exact hafter
    · rw [hrest f hf]
      exact h
  | setOpen hstarted _ =>
    rw [hstarted]
    exact h
  | close k hconstruct _ =>
    rw [hconstruct]
    exact h
  | complete g c _ _ _ hconstruct _ =>
    rw [hconstruct]
    exact h
  | handle g side calls _ hconstruct _ =>
    rw [hconstruct]
    exact h

/-- the acceptor `f` between two accepts -/
structure Armed (f : Family) (s : Listener) : Prop where
  sides : s.SidesOk
  started : s.construct.started f = true
  idle : (s.sides f).stage = .idle

/-- the handler of `f` returns -/
theorem armed_again (f : Family) (s : Listener) (hs : s.SidesOk)
    (hstarted : s.construct.started f = true) :
    ∃ n t, exec listenerStep s (List.replicate n (.handle f)) = some t ∧ Armed f t := by
  obtain ⟨n, t, ht, hidle⟩ := handler_returns f s
  have hreach := Reach.of_exec _ ht
  refine ⟨n, t, ht, hreach.invariant hs fun u l v hu _ hv => sidesOk_step u l v hu hv, ?_, hidle⟩
  exact hreach.invariant hstarted fun u l v hu _ hv => started_step f u l v hu hv

/-- an accept fails, and the next one is started -/
theorem accepts_more (f : Family) (s : Listener) (h : Armed f s) :
    ∃ ms t, (∀ l ∈ ms, l = .fail f ∨ l = .handle f) ∧ exec listenerStep s ms = some t ∧
      countWhere listenerStep (startsAccept f) s ms = 1 ∧ Armed f t := by
  have hside := h.sides f
  unfold AcceptSide.Ok at hside
  rw [h.idle, h.started] at hside
  let u : Listener := s.setSide f ((s.sides f).complete none)
  have hu : listenerStep s (.fail f) = some u := if_pos hside.1
  obtain ⟨n, t, ht, harmed⟩ := armed_again f u (sidesOk_step s _ u h.sides hu)
    (started_step f s _ u h.started hu)
  have hexec : exec listenerStep s (.fail f :: List.replicate n (.handle f)) = some t := by
    rw [exec, hu]
    exact ht
  have hhandling : Handling (List.replicate n (.handle f)) := fun l hl =>
    ⟨f, (List.mem_replicate.mp hl).2⟩
  have hcalls : countWhere listenerStep (callsHandler f) s
      (.fail f :: List.replicate n (.handle f)) = 1 := by
    rw [countWhere_cons hu, handling_calls f u _ hhandling, callsHandler, decide_eq_true rfl]
    rfl
  have hbalance := accepts_balance f s t h.sides _ hexec
  rw [hcalls, (running_idle _).mpr h.idle, (running_idle _).mpr harmed.idle] at hbalance
  refine ⟨_, t, fun l hl => ?_, hexec, by omega, harmed⟩
  rcases List.mem_cons.mp hl with rfl | hl
  · exact .inl rfl
  · exact .inr (List.mem_replicate.mp hl).2

/-- **An acceptor whose accepts fail is armed again, for ever**, whether the listener is open or
closed: any number of accepts is started before the chain ends. -/
theorem accepts_forever (prior : Bool) (ls : List ListenerLabel) (s : Listener)
    (h : exec listenerStep (Listener.init prior) ls = some s) (f : Family)
    (hstarted : s.construct.started f = true) (n : Nat) :
    ∃ ms t, (∀ l ∈ ms, l = .fail f ∨ l = .handle f) ∧ exec listenerStep s ms = some t ∧
      n ≤ countWhere listenerStep (startsAccept f) s ms ∧ Armed f t := by
  have hs : s.SidesOk := (Reach.of_exec ls h).invariant (sidesOk_init prior)
    fun u l v hu _ hv => sidesOk_step u l v hu hv
  induction n with
  | zero =>
    obtain ⟨m, t, ht, harmed⟩ := armed_again f s hs hstarted
    exact ⟨_, t, fun l hl => .inr (List.mem_replicate.mp hl).2, ht, Nat.zero_le _, harmed⟩
  | succ n ih =>
    obtain ⟨ms, t, hms, ht, hn, harmed⟩ := ih
    obtain ⟨more, u, hmore, hu, hone, hagain⟩ := accepts_more f t harmed
    refine ⟨ms ++ more, u, fun l hl => ?_, exec_append ht hu, ?_, hagain⟩
    · rcases List.mem_append.mp hl with hl | hl
      · exact hms l hl
      · exact hmore l hl
    · rw [countWhere_append ht, hone]
      omega

end VoltNet
