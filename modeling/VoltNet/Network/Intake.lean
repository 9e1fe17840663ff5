import VoltNet.Network.Accepts
import VoltNet.Network.Ids

/-!
# From the listener to the registry

The callback that `start_listening` gives to its listener locks the weak pointer to the network, takes
the guard, gets an id, and registers a `net_con` made of the socket.  The handlers of both acceptors
run it side by side, beside tasks of `server_connect`, closings and the end of the network.

* `Intake`                `Listener` and `IdState` together, and the callbacks between them;
* `intakeStep`            their steps; a handler goes on when its callback has returned;
* `unwatched`             a listener without the record of the connections accepted;
* `Taken`                 the invariant: what was handed over is the socket of one object;
* `intake_once`           no connection that the listener accepts becomes two objects, and none that
                          it hands to a living network is lost;
* `accepted_registered`   so each accepted one becomes one object, if no handler finds
                          `listener_open` cleared.
-/

namespace VoltNet
open Runs

/-- where the callback of `start_listening` is, for the handler of an acceptor -/
inductive IntakeStage where
  /-- not called, or before `net_ptr.lock()` -/
  | idle
  /-- it holds the network, before `get_guard` -/
  | locked
  /-- it holds the guard, before `add_connection` -/
  | guarded
  | returned
deriving DecidableEq

/-- whether it keeps the network alive -/
def IntakeStage.holds : IntakeStage → Bool
  | .locked => true
  | .guarded => true
  | .idle => false
  | .returned => false

structure Intake where
  listener : Listener
  ids : IdState
  stages : Family → IntakeStage
  /-- the callback that has the guard -/
  guard : Option Family
  /-- `net_ptr.lock()` gives the network -/
  alive : Bool
  /-- for every `net_con` object the connection it was made of, `none` for one to a server -/
  sources : List (Option AcceptNo)
  /-- sockets that were destroyed because the network had gone -/
  dropped : List AcceptNo

def Intake.init (prior : Bool) : Intake where
  listener := Listener.init prior
  ids := IdState.init
  stages _ := .idle
  guard := none
  alive := true
  sources := []
  dropped := []

/-- the tasks of the callbacks; all others are those of `server_connect` -/
def Family.task : Family → TaskId
  | .v4 => 0
  | .v6 => 1

def taskFamily (k : TaskId) : Option Family :=
  if k = Family.v4.task then some .v4 else if k = Family.v6.task then some .v6 else none

/-- the callback that takes a step of `IdState` -/
def IdLabel.family : IdLabel → Option Family
  | .load k => taskFamily k
  | .exchange k => taskFamily k
  | .retry k => taskFamily k
  | .add k => taskFamily k
  | .close _ _ => none

def IdLabel.adds : IdLabel → Bool
  | .add _ => true
  | .load _ | .exchange _ | .retry _ | .close _ _ => false

/-- steps inside of `get_guard` -/
def IdLabel.guarded : IdLabel → Bool
  | .add _ => true
  | .close _ _ => true
  | .load _ | .exchange _ | .retry _ => false

/-- the connection in the call of `new_con_callback` that the handler is at -/
def AcceptSide.calling (side : AcceptSide) : Option AcceptNo :=
  match side.stage with
  | .call socket => socket.con
  | _ => none

inductive IntakeLabel where
  | listener (l : ListenerLabel)
  /-- `net_ptr.lock()` -/
  | lock (f : Family)
  | getGuard (f : Family)
  | ids (l : IdLabel)
  /-- the last `shared_ptr` of the network goes -/
  | gone

/-- a handler waits for its callback -/
def Intake.free (s : Intake) : ListenerLabel → Bool
  | .handle f => (s.listener.sides f).calling.isNone || s.stages f == .returned
  | .construct | .accept _ | .fail _ | .close _ => true

def Intake.setStage (f : Family) (stage : IntakeStage) (s : Intake) : Intake :=
  { s with stages := Function.update s.stages f stage }

/-- the callback of a handler that has gone on is one to come -/
def Intake.afterListener (l : ListenerLabel) (listener : Listener) (s : Intake) : Intake :=
  match l with
  | .handle f => { s.setStage f .idle with listener := listener }
  | .construct | .accept _ | .fail _ | .close _ => { s with listener := listener }

/-- `net_con::new_connection` moves the socket into the object -/
def Intake.afterAdd (f : Family) (c : AcceptNo) (ids : IdState) (s : Intake) : Intake :=
  { s.setStage f .returned with ids := ids, guard := none, sources := s.sources ++ [some c] }

def intakeStep (s : Intake) : IntakeLabel → Option Intake
  | .listener l =>
    if s.free l then (listenerStep s.listener l).map fun listener => s.afterListener l listener
    else none
  | .lock f =>
    match (s.listener.sides f).calling with
    | none => none
    | some c =>
      if s.stages f = .idle then
        if s.alive then some (s.setStage f .locked)
        else some { s.setStage f .returned with dropped := s.dropped ++ [c] }
      else none
  | .getGuard f =>
    if s.stages f = .locked ∧ s.guard = none then some { s.setStage f .guarded with guard := some f }
    else none
  | .ids l =>
    match l.family with
    | some f =>
      match (s.listener.sides f).calling with
      | none => none
      | some c =>
        if s.stages f = .guarded then
          (idStep s.ids l).map fun ids => if l.adds then s.afterAdd f c ids else { s with ids := ids }
        else none
    | none =>
      if s.alive ∧ (l.guarded → s.guard = none) then
        (idStep s.ids l).map fun ids =>
          { s with ids := ids, sources := if l.adds then s.sources ++ [none] else s.sources }
      else none
  | .gone =>
    if (s.stages .v4).holds || (s.stages .v6).holds then none else some { s with alive := false }

/-- the accepted connections that objects were made of -/
def Intake.made (s : Intake) : List AcceptNo := s.sources.filterMap id

/-! ## what the listener does, whatever becomes of it -/

/-- a listener without the record of the connections accepted -/
def unwatched (s : Listener) : Listener := { s with accepted := [], closeCalled := true }

theorem unwatched_construct (s t : Listener) (hs : s.constructStep = some t) :
    (unwatched s).constructStep = some (unwatched t) := by
  have hconstruct : (unwatched s).construct = s.construct := rfl
  rw [Listener.constructStep] at hs ⊢
  rw [hconstruct]
  split at hs
  · rw [← Option.some.inj hs]
    rfl
  · rw [← Option.some.inj hs]
    rfl
  · rw [← Option.some.inj hs]
    rfl
  · cases hs

theorem unwatched_close (k : Nat) (s t : Listener) (hs : s.closeStep k = some t) :
    (unwatched s).closeStep k = some (unwatched t) := by
  have hcloses : (unwatched s).closes = s.closes := rfl
  simp only [Listener.closeStep, hcloses] at hs ⊢
  cases hk : s.closes k with
  | idle =>
    simp only [hk] at hs ⊢
    obtain ⟨hguard, rfl⟩ := of_guard hs
    exact if_pos hguard
  | store | cancel f =>
    simp only [hk] at hs ⊢
    rw [← Option.some.inj hs]
    rfl
  | close f =>
    cases f with
    | v4 | v6 =>
      simp only [hk] at hs ⊢
      rw [← Option.some.inj hs]
      rfl

theorem unwatched_step (s t : Listener) (l : ListenerLabel) (hs : listenerStep s l = some t) :
    listenerStep (unwatched s) l = some (unwatched t) := by
  cases l with
  | construct => exact unwatched_construct s t hs
  | close k => exact unwatched_close k s t hs
  | accept f =>
    obtain ⟨hguard, rfl⟩ := of_guard hs
    rw [listenerStep]
    exact if_pos hguard
  | fail f =>
    obtain ⟨hguard, rfl⟩ := of_guard hs
    rw [listenerStep]
    exact if_pos hguard
  | handle f =>
    obtain ⟨side, calls, hstep, rfl⟩ := listenerStep_handle f s t hs
    have hsame : ((unwatched s).sides f).handler (unwatched s).listenerOpen = some (side, calls) :=
      hstep
    simp only [listenerStep, hsame]
    rfl

/-- its connections are handed over at most once -/
theorem unwatched_kept (s t : Listener) (l : ListenerLabel) (h : AcceptsKept (unwatched s))
    (hs : listenerStep s l = some t) : AcceptsKept (unwatched t) := by
  refine acceptsKept_step (unwatched s) l (unwatched t) h ?_ (unwatched_step s t l hs)
  cases l with
  | handle f =>
    intro c _ hin
    cases hin
  | construct | accept f | fail f | close k => trivial

/-! ## where a handler calls -/

theorem calling_carried {side : AcceptSide} {c : AcceptNo} (h : side.calling = some c) :
    side.carried = some c := by
  obtain ⟨sock, out, stage⟩ := side
  cases stage with
  | call socket => exact h
  | idle | entered err | test err socket | replace | rearm => cases h

theorem idle_calling {side : AcceptSide} (h : side.stage = .idle) : side.calling = none := by
  rw [AcceptSide.calling, h]

theorem handler_calling (started listenerOpen : Bool) (side side' : AcceptSide) (calls : List Sock)
    (hside : side.Ok started) (h : side.handler listenerOpen = some (side', calls)) :
    (∃ c, side.calling = some c ∧ calls = [.connected c] ∧ side'.calling = none) ∨
      (side.calling = none ∧ calls = []) := by
  obtain ⟨sock, out, stage⟩ := side
  cases stage with
  | idle => cases h
  | call socket =>
    obtain ⟨-, -, c, rfl⟩ := hside
    obtain ⟨rfl, rfl⟩ := Prod.mk.inj (Option.some.inj h)
    exact .inl ⟨c, rfl, rfl, rfl⟩
  | test err socket =>
    refine .inr ⟨rfl, ?_⟩
    simp only [AcceptSide.handler] at h
    split at h
    · exact (Prod.mk.inj (Option.some.inj h)).2.symm
    · exact (Prod.mk.inj (Option.some.inj h)).2.symm
  | entered err | replace | rearm => exact .inr ⟨rfl, (Prod.mk.inj (Option.some.inj h)).2.symm⟩

theorem handed_kept (s t : Listener) (l : ListenerLabel) (hl : ∀ f, l ≠ .handle f)
    (hs : listenerStep s l = some t) : t.handed = s.handed := by
  cases l with
  | handle f => exact absurd rfl (hl f)
  | accept f =>
    obtain ⟨-, rfl⟩ := of_guard hs
    rfl
  | fail f =>
    obtain ⟨-, rfl⟩ := of_guard hs
    rfl
  | construct =>
    simp only [listenerStep, Listener.constructStep] at hs
    split at hs
    · exact (Option.some.inj hs) ▸ rfl
    · exact (Option.some.inj hs) ▸ rfl
    · exact (Option.some.inj hs) ▸ rfl
    · cases hs
  | close k =>
    simp only [listenerStep, Listener.closeStep] at hs
    split at hs
    · obtain ⟨-, rfl⟩ := of_guard hs
      rfl
    all_goals exact (Option.some.inj hs) ▸ rfl

/-- **What a step of the listener does to the calls**: a handler gets past its own, or all that are
under way stay as they are. -/
theorem listener_calls (s t : Listener) (l : ListenerLabel) (hok : s.SidesOk)
    (hs : listenerStep s l = some t) :
    (∃ f c, l = .handle f ∧ (s.sides f).calling = some c ∧ (t.sides f).calling = none ∧
      t.handed = s.handed ++ [.connected c] ∧ ∀ g, g ≠ f → t.sides g = s.sides g) ∨
    (t.handed = s.handed ∧ ∀ g c, (s.sides g).calling = some c →
      l ≠ .handle g ∧ t.sides g = s.sides g) := by
  -- a step on an acceptor that makes no call
  have hother : ∀ f side, (s.sides f).calling = none → t.sides = (s.setSide f side).sides →
      ∀ g c, (s.sides g).calling = some c → g ≠ f ∧ t.sides g = s.sides g := by
    intro f side hnone hsides g c hc
    have hg : g ≠ f := by
      rintro rfl
      rw [hnone] at hc
      cases hc
    rw [hsides]
    exact ⟨hg, Function.update_of_ne hg ..⟩
  cases listenerStep_moves s l t hs with
  | start f hbefore hafter hrest hsides =>
    have hside := hok f
    rw [hbefore] at hside
    have hnone : (s.sides f).calling = none := by
      cases hstage : (s.sides f).stage with
      | idle => exact idle_calling hstage
      | entered err | test err socket | call socket | replace | rearm =>
        rw [AcceptSide.Ok, hstage] at hside
        cases hside.1
    exact .inr ⟨handed_kept s t .construct nofun hs, fun g c hc =>
      ⟨nofun, (hother f _ hnone hsides g c hc).2⟩⟩
  | setOpen hstarted hsides =>
    exact .inr ⟨handed_kept s t .construct nofun hs, fun g c _ => ⟨nofun, by rw [hsides]⟩⟩
  | close k hconstruct hsides =>
    exact .inr ⟨handed_kept s t (.close k) nofun hs, fun g c _ => ⟨nofun, by rw [hsides]⟩⟩
  | complete f c' l hl hout hconstruct hsides =>
    have hnone := idle_calling ((hok f).idle hout).1
    have hnot : ∀ g, l ≠ .handle g := by
      rcases hl with rfl | rfl
      · exact fun _ => nofun
      · exact fun _ => nofun
    exact .inr ⟨handed_kept s t l hnot hs, fun g c hc =>
      ⟨hnot g, (hother f _ hnone hsides g c hc).2⟩⟩
  | handle f side calls hstep hconstruct hsides =>
    obtain ⟨side', calls', hstep', ht⟩ := listenerStep_handle f s t hs
    obtain ⟨rfl, rfl⟩ := Prod.mk.inj (Option.some.inj (hstep.symm.trans hstep'))
    have hhanded : t.handed = s.handed ++ calls := by rw [ht]
    rcases handler_calling _ _ _ _ _ (hok f) hstep with ⟨c, hc, hcalls, hnone⟩ | ⟨hnone, hcalls⟩
    · refine .inl ⟨f, c, rfl, hc, ?_, ?_, fun g hg => ?_⟩
      · rw [hsides]
        show (Function.update s.sides f side f).calling = none
        rw [Function.update_self]
        exact hnone
      · rw [hhanded, hcalls]
      · rw [hsides]
        exact Function.update_of_ne hg ..
    · refine .inr ⟨?_, fun g c hc => ?_⟩
      · rw [hhanded, hcalls, List.append_nil]
      · obtain ⟨hg, hsame⟩ := hother f side hnone hsides g c hc
        exact ⟨fun e => hg (ListenerLabel.handle.inj e).symm, hsame⟩

/-! ## the objects -/

theorem idStep_objects (s t : IdState) (l : IdLabel) (hs : idStep s l = some t) :
    t.registry.objects.length = s.registry.objects.length + l.adds.toNat := by
  cases l with
  | load k =>
    rw [idStep_load s t k hs]
    rfl
  | exchange k =>
    rw [idStep_exchange s t k hs]
    rfl
  | retry k =>
    rw [idStep_retry s t k hs]
    rfl
  | add k =>
    obtain ⟨id, ticket, registry, -, hreg, rfl⟩ := idStep_add s t k hs
    show registry.objects.length = _
    rw [addConnection_ok id s.registry registry hreg, List.length_append]
    rfl
  | close cause r =>
    obtain ⟨registry, -, hclose, rfl⟩ := idStep_close s t cause r hs
    exact (closeCon_shrinking _ r s.registry registry hclose).objects

/-! ## the invariant -/

/-- the connections whose callback is done with them -/
def Intake.settled (s : Intake) : List AcceptNo := s.made ++ s.dropped

structure Taken (s : Intake) : Prop where
  listener : AcceptsKept (unwatched s.listener)
  calls : ∀ f, s.stages f ≠ .idle → ∃ c, (s.listener.sides f).calling = some c
  objects : s.sources.length = s.ids.registry.objects.length
  mem : ∀ c, c ∈ s.settled ↔ .connected c ∈ s.listener.handed ∨
    ∃ f, s.stages f = .returned ∧ (s.listener.sides f).calling = some c
  nodup : s.settled.Nodup
  alive : s.alive = true → s.dropped = []

theorem taken_init (prior : Bool) : Taken (Intake.init prior) where
  listener :=
    { side := fun _ => ⟨rfl, rfl⟩
      carried_lt := fun _ _ h => by cases h
      carried_new := fun _ _ h => by cases h
      carried_one := fun _ _ _ h => by cases h
      handed_lt := fun _ h => by cases h
      handed_nodup := List.nodup_nil
      accepted := fun _ _ h => by cases h }
  calls _ h := absurd rfl h
  objects := rfl
  mem c := iff_of_false List.not_mem_nil fun h => by
    rcases h with h | ⟨f, h, -⟩
    · cases h
    · cases h
  nodup := List.nodup_nil
  alive _ := rfl

theorem Taken.sides {s : Intake} (h : Taken s) : s.listener.SidesOk := h.listener.side

/-- a change of a stage that leaves the socket with the callback -/
theorem Taken.advance {s : Intake} (h : Taken s) (f : Family) (stage : IntakeStage)
    (hcall : ∃ c, (s.listener.sides f).calling = some c) (hf : s.stages f ≠ .returned)
    (hstage : stage ≠ .returned) (guard : Option Family) :
    Taken { s.setStage f stage with guard := guard } := by
  refine ⟨h.listener, fun g hg => ?_, h.objects, fun c => ?_, h.nodup, h.alive⟩
  · by_cases hgf : g = f
    · rw [hgf]
      exact hcall
    · have hg : Function.update s.stages f stage g ≠ .idle := hg
      rw [Function.update_of_ne hgf] at hg
      exact h.calls g hg
  · refine (h.mem c).trans (or_congr_right (exists_congr fun g => and_congr_left fun _ => ?_))
    show s.stages g = .returned ↔ Function.update s.stages f stage g = .returned
    by_cases hgf : g = f
    · rw [hgf, Function.update_self]
      exact iff_of_false hf hstage
    · rw [Function.update_of_ne hgf]

/-- a callback is done with its socket -/
theorem Taken.settle {s t : Intake} (h : Taken s) (f : Family) (c : AcceptNo)
    (hc : (s.listener.sides f).calling = some c) (hf : s.stages f ≠ .returned)
    (hlistener : t.listener = s.listener)
    (hstages : t.stages = Function.update s.stages f .returned)
    (hsettled : t.settled.Perm (c :: s.settled))
    (hobjects : t.sources.length = t.ids.registry.objects.length)
    (halive : t.alive = true → t.dropped = []) : Taken t := by
  have hcarried := calling_carried hc
  have hnew : c ∉ s.settled := by
    intro hin
    rcases (h.mem c).mp hin with hhanded | ⟨g, hg, hgc⟩
    · exact h.listener.carried_new f c hcarried hhanded
    · have hgf : g = f := h.listener.carried_one g f c (calling_carried hgc) hcarried
      exact hf (hgf ▸ hg)
  refine ⟨hlistener ▸ h.listener, fun g hg => ?_, hobjects, fun d => ?_, ?_, halive⟩
  · rw [hlistener]
    by_cases hgf : g = f
    · exact ⟨c, hgf ▸ hc⟩
    · rw [hstages, Function.update_of_ne hgf] at hg
      exact h.calls g hg
  · rw [hsettled.mem_iff, List.mem_cons, h.mem d, hlistener, hstages]
    constructor
    · rintro (rfl | hin | ⟨g, hg, hgd⟩)
      · exact .inr ⟨f, Function.update_self .., hc⟩
      · exact .inl hin
      · have hgf : g ≠ f := fun e => hf (e ▸ hg)
        exact .inr ⟨g, by rw [Function.update_of_ne hgf]; exact hg, hgd⟩
    · rintro (hin | ⟨g, hg, hgd⟩)
      · exact .inr (.inl hin)
      · by_cases hgf : g = f
        · rw [hgf, hc] at hgd
          exact .inl (Option.some.inj hgd).symm
        · rw [Function.update_of_ne hgf] at hg
          exact .inr (.inr ⟨g, hg, hgd⟩)
  · exact hsettled.nodup_iff.mpr (List.nodup_cons.mpr ⟨hnew, h.nodup⟩)

/-- the handler of `f` goes on after its call -/
theorem taken_returned (s : Intake) (f : Family) (c : AcceptNo) (listener : Listener) (h : Taken s)
    (hkept : AcceptsKept (unwatched listener)) (hreturned : s.stages f = .returned)
    (hc : (s.listener.sides f).calling = some c)
    (hhanded : listener.handed = s.listener.handed ++ [.connected c])
    (hrest : ∀ g, g ≠ f → listener.sides g = s.listener.sides g) :
    Taken (s.afterListener (.handle f) listener) := by
  refine ⟨hkept, fun g hg => ?_, h.objects, fun d => ?_, h.nodup, h.alive⟩
  · have hg : Function.update s.stages f .idle g ≠ .idle := hg
    by_cases hgf : g = f
    · rw [hgf, Function.update_self] at hg
      exact absurd rfl hg
    · rw [Function.update_of_ne hgf] at hg
      show ∃ c, (listener.sides g).calling = some c
      rw [hrest g hgf]
      exact h.calls g hg
  · show d ∈ s.settled ↔ .connected d ∈ listener.handed ∨
      ∃ g, Function.update s.stages f .idle g = .returned ∧ (listener.sides g).calling = some d
    rw [h.mem d, hhanded, List.mem_append, List.mem_singleton]
    constructor
    · rintro (hin | ⟨g, hg, hgd⟩)
      · exact .inl (.inl hin)
      · by_cases hgf : g = f
        · rw [hgf, hc] at hgd
          rw [Option.some.inj hgd]
          exact .inl (.inr rfl)
        · exact .inr ⟨g, by rw [Function.update_of_ne hgf]; exact hg,
            by rw [hrest g hgf]; exact hgd⟩
    · rintro ((hin | he) | ⟨g, hg, hgd⟩)
      · exact .inl hin
      · rw [Sock.connected.inj he]
        exact .inr ⟨f, hreturned, hc⟩
      · by_cases hgf : g = f
        · rw [hgf, Function.update_self] at hg
          cases hg
        · rw [Function.update_of_ne hgf] at hg
          rw [hrest g hgf] at hgd
          exact .inr ⟨g, hg, hgd⟩

/-- a step of the listener beside the calls -/
theorem Taken.relisten {s : Intake} (h : Taken s) (listener : Listener)
    (hkept : AcceptsKept (unwatched listener)) (hhanded : listener.handed = s.listener.handed)
    (hsame : ∀ g c, (s.listener.sides g).calling = some c →
      listener.sides g = s.listener.sides g) : Taken { s with listener := listener } := by
  refine ⟨hkept, fun g hg => ?_, h.objects, fun d => ?_, h.nodup, h.alive⟩
  · obtain ⟨c, hc⟩ := h.calls g hg
    refine ⟨c, ?_⟩
    show (listener.sides g).calling = some c
    rw [hsame g c hc]
    exact hc
  · show d ∈ s.settled ↔ .connected d ∈ listener.handed ∨
      ∃ g, s.stages g = .returned ∧ (listener.sides g).calling = some d
    rw [h.mem d, hhanded]
    refine or_congr_right (exists_congr fun g => and_congr_right fun hg => ?_)
    obtain ⟨c, hc⟩ := h.calls g (by rw [hg]; decide)
    rw [hsame g c hc]

theorem taken_listener (s : Intake) (l : ListenerLabel) (listener : Listener) (h : Taken s)
    (hfree : s.free l = true) (hs : listenerStep s.listener l = some listener) :
    Taken (s.afterListener l listener) := by
  have hkept := unwatched_kept s.listener listener l h.listener hs
  rcases listener_calls s.listener listener l h.sides hs with
    ⟨f, c, rfl, hc, -, hhanded, hrest⟩ | ⟨hhanded, hsame⟩
  · have hreturned : s.stages f = .returned := by
      rw [Intake.free, hc] at hfree
      simpa using hfree
    exact taken_returned s f c listener h hkept hreturned hc hhanded hrest
  · -- a handler that goes on here makes no call
    have hafter : s.afterListener l listener = { s with listener := listener } := by
      cases l with
      | construct | accept f | fail f | close k => rfl
      | handle f =>
        have hidle : s.stages f = .idle := by
          by_contra hne
          obtain ⟨c, hc⟩ := h.calls f hne
          exact (hsame f c hc).1 rfl
        show Intake.mk _ _ (Function.update s.stages f .idle) _ _ _ _ = _
        rw [← hidle, Function.update_eq_self]
        rfl
    rw [hafter]
    exact h.relisten listener hkept hhanded fun g c hc => (hsame g c hc).2

/-- a step of the callback of `f` in its guarded block -/
theorem taken_callback (s : Intake) (l : IdLabel) (f : Family) (c : AcceptNo) (ids : IdState)
    (h : Taken s) (hc : (s.listener.sides f).calling = some c) (hguarded : s.stages f = .guarded)
    (hids : idStep s.ids l = some ids) :
    Taken (if l.adds then s.afterAdd f c ids else { s with ids := ids }) := by
  have hobjects := idStep_objects s.ids ids l hids
  have hf : s.stages f ≠ .returned := by
    rw [hguarded]
    decide
  cases hadds : l.adds with
  | true =>
    rw [if_pos rfl]
    refine h.settle f c hc hf rfl rfl ?_ ?_ h.alive
    · show ((s.sources ++ [some c]).filterMap id ++ s.dropped).Perm (c :: s.settled)
      rw [List.filterMap_append, List.append_assoc]
      exact List.perm_middle
    · show (s.sources ++ [some c]).length = ids.registry.objects.length
      rw [hobjects, hadds, List.length_append, h.objects]
      rfl
  | false =>
    rw [if_neg (by decide)]
    refine ⟨h.listener, h.calls, ?_, h.mem, h.nodup, h.alive⟩
    show s.sources.length = ids.registry.objects.length
    rw [hobjects, hadds, h.objects]
    rfl

/-- a step of another task of the network -/
theorem taken_task (s : Intake) (l : IdLabel) (ids : IdState) (h : Taken s)
    (hids : idStep s.ids l = some ids) :
    Taken { s with ids := ids, sources := if l.adds then s.sources ++ [none] else s.sources } := by
  have hobjects := idStep_objects s.ids ids l hids
  have hsettled : ((if l.adds then s.sources ++ [none] else s.sources).filterMap id ++ s.dropped)
      = s.settled := by
    split
    · rw [List.filterMap_append]
      show s.made ++ [] ++ s.dropped = s.settled
      rw [List.append_nil]
      rfl
    · rfl
  refine ⟨h.listener, h.calls, ?_, fun c => ?_, ?_, h.alive⟩
  · show (if l.adds then s.sources ++ [none] else s.sources).length = ids.registry.objects.length
    rw [hobjects]
    cases hadds : l.adds with
    | true =>
      rw [if_pos rfl, List.length_append, h.objects]
      rfl
    | false =>
      rw [if_neg (by decide), h.objects]
      rfl
  · show c ∈ (if l.adds then s.sources ++ [none] else s.sources).filterMap id ++ s.dropped ↔ _
    rw [hsettled]
    exact h.mem c
  · show ((if l.adds then s.sources ++ [none] else s.sources).filterMap id ++ s.dropped).Nodup
    rw [hsettled]
    exact h.nodup

theorem taken_ids (s : Intake) (l : IdLabel) (t : Intake) (h : Taken s)
    (hs : intakeStep s (.ids l) = some t) : Taken t := by
  simp only [intakeStep] at hs
  split at hs
  · next f hfamily =>
    split at hs
    · cases hs
    · next c hc =>
      obtain ⟨hguarded, hs⟩ := Option.ite_none_right_eq_some.mp hs
      obtain ⟨ids, hids, rfl⟩ := Option.map_eq_some_iff.mp hs
      exact taken_callback s l f c ids h hc hguarded hids
  · obtain ⟨-, hs⟩ := Option.ite_none_right_eq_some.mp hs
    obtain ⟨ids, hids, rfl⟩ := Option.map_eq_some_iff.mp hs
    exact taken_task s l ids h hids

theorem taken_step (s : Intake) (l : IntakeLabel) (t : Intake) (h : Taken s)
    (hs : intakeStep s l = some t) : Taken t := by
  cases l with
  | listener l =>
    obtain ⟨hfree, hs⟩ := Option.ite_none_right_eq_some.mp hs
    obtain ⟨listener, hlistener, rfl⟩ := Option.map_eq_some_iff.mp hs
    exact taken_listener s l listener h hfree hlistener
  | ids l => exact taken_ids s l t h hs
  | lock f =>
    simp only [intakeStep] at hs
    split at hs
    · cases hs
    · next c hc =>
      obtain ⟨hidle, hs⟩ := Option.ite_none_right_eq_some.mp hs
      have hf : s.stages f ≠ .returned := by
        rw [hidle]
        decide
      split at hs
      · rw [← Option.some.inj hs]
        exact h.advance f .locked ⟨c, hc⟩ hf (by decide) s.guard
      · next hgone =>
        rw [← Option.some.inj hs]
        refine h.settle f c hc hf rfl rfl ?_ h.objects fun halive => absurd halive hgone
        show (s.made ++ (s.dropped ++ [c])).Perm (c :: s.settled)
        rw [← List.append_assoc]
        exact List.perm_append_singleton c s.settled
  | getGuard f =>
    obtain ⟨⟨hlocked, -⟩, rfl⟩ := of_guard hs
    have hf : s.stages f ≠ .returned := by
      rw [hlocked]
      decide
    have hcall := h.calls f (by rw [hlocked]; decide)
    exact h.advance f .guarded hcall hf (by decide) (some f)
  | gone =>
    simp only [intakeStep] at hs
    split at hs
    · cases hs
    · rw [← Option.some.inj hs]
      exact ⟨h.listener, h.calls, h.objects, h.mem, h.nodup, fun halive => by cases halive⟩

/-- **No connection is taken in twice, and none is lost while the network lives.**  For any order of the
two acceptors, their callbacks, other tasks that register connections, closings and the end of the
network: every `net_con` object has one source; no accepted connection is the source of two; and
while the network lives, the sources are the connections that callbacks have returned from. -/
theorem intake_once (prior : Bool) (s : Intake)
    (h : Reach intakeStep (fun _ _ => True) (Intake.init prior) s) :
    s.sources.length = s.ids.registry.objects.length ∧ s.made.Nodup ∧
    (s.alive = true → ∀ c, c ∈ s.made ↔ .connected c ∈ s.listener.handed ∨
      ∃ f, s.stages f = .returned ∧ (s.listener.sides f).calling = some c) := by
  have ht : Taken s := h.invariant (taken_init prior) fun t l u ht _ hs => taken_step t l u ht hs
  refine ⟨ht.objects, ht.nodup.of_append_left, fun halive c => ?_⟩
  rw [← ht.mem c, Intake.settled, ht.alive halive, List.append_nil]

/-- a connection is accepted on IPv4, and one to a server is registered before its callback gets the
guard -/
theorem intake_once_two :
    ∃ s, exec intakeStep (Intake.init false) (List.replicate 3 (.listener .construct) ++
        [.listener (.accept .v4), .listener (.handle .v4), .listener (.handle .v4), .lock .v4,
          .ids (.load 2), .ids (.exchange 2), .ids (.add 2), .getGuard .v4, .ids (.load 0),
          .ids (.exchange 0), .ids (.add 0)]) = some s ∧
      s.sources = [none, some 0] ∧ s.made.Nodup ∧
      (0 ∈ s.made ↔ .connected 0 ∈ s.listener.handed ∨
        ∃ f, s.stages f = .returned ∧ (s.listener.sides f).calling = some 0) := by
  have hrun : (exec intakeStep (Intake.init false) (List.replicate 3 (.listener .construct) ++
      [.listener (.accept .v4), .listener (.handle .v4), .listener (.handle .v4), .lock .v4,
        .ids (.load 2), .ids (.exchange 2), .ids (.add 2), .getGuard .v4, .ids (.load 0),
        .ids (.exchange 0), .ids (.add 0)])).map (fun s => (s.sources, s.alive))
      = some ([none, some 0], true) := by decide
  obtain ⟨s, hs, hval⟩ := Option.map_eq_some_iff.mp hrun
  obtain ⟨hsources, halive⟩ := Prod.mk.inj hval
  obtain ⟨-, hnodup, hmade⟩ := intake_once false s (Reach.of_exec _ hs)
  exact ⟨s, hs, hsources, hnodup, hmade halive 0⟩

/-! ## connections accepted before `close_listener` -/

/-- no handler of such a connection finds `listener_open` cleared -/
def IntakeSeesOpen (s : Intake) : IntakeLabel → Prop
  | .listener l => SeesOpen s.listener l
  | .lock _ | .getGuard _ | .ids _ | .gone => True

instance decidableSeesOpen (s : Listener) (l : ListenerLabel) : Decidable (SeesOpen s l) :=
  match l with
  | .handle f =>
    decidable_of_iff (s.listenerOpen = true ∨
        ∀ a ∈ s.accepted, a.1 = f → (s.sides f).stage ≠ .test false (.connected a.2))
      ⟨fun h c htest hin => h.resolve_right fun hall => hall (f, c) hin rfl htest,
        fun h => Decidable.or_iff_not_imp_left.mpr fun hclosed a hin ha htest =>
          hclosed (h a.2 htest (ha ▸ hin))⟩
  | .construct | .accept _ | .fail _ | .close _ => isTrue trivial

instance decidableIntakeSeesOpen (s : Intake) (l : IntakeLabel) : Decidable (IntakeSeesOpen s l) :=
  match l with
  | .listener l => decidableSeesOpen s.listener l
  | .lock _ | .getGuard _ | .ids _ | .gone => isTrue trivial

/-- the listener runs by itself -/
theorem intake_listener (s t : Intake) (l : IntakeLabel) (hs : intakeStep s l = some t) :
    t.listener = s.listener ∨
      ∃ l', l = .listener l' ∧ listenerStep s.listener l' = some t.listener := by
  cases l with
  | listener l =>
    obtain ⟨-, hs⟩ := Option.ite_none_right_eq_some.mp hs
    obtain ⟨listener, hlistener, rfl⟩ := Option.map_eq_some_iff.mp hs
    have hafter : (s.afterListener l listener).listener = listener := by cases l <;> rfl
    exact .inr ⟨l, rfl, by rw [hafter]; exact hlistener⟩
  | lock f =>
    simp only [intakeStep] at hs
    split at hs
    · cases hs
    · obtain ⟨-, hs⟩ := Option.ite_none_right_eq_some.mp hs
      split at hs
      · exact .inl (Option.some.inj hs ▸ rfl)
      · exact .inl (Option.some.inj hs ▸ rfl)
  | getGuard f =>
    obtain ⟨-, rfl⟩ := of_guard hs
    exact .inl rfl
  | gone =>
    simp only [intakeStep] at hs
    split at hs
    · cases hs
    · exact .inl (Option.some.inj hs ▸ rfl)
  | ids l =>
    simp only [intakeStep] at hs
    split at hs
    · split at hs
      · cases hs
      · obtain ⟨-, hs⟩ := Option.ite_none_right_eq_some.mp hs
        obtain ⟨ids, -, rfl⟩ := Option.map_eq_some_iff.mp hs
        split
        · exact .inl rfl
        · exact .inl rfl
    · obtain ⟨-, hs⟩ := Option.ite_none_right_eq_some.mp hs
      obtain ⟨ids, -, rfl⟩ := Option.map_eq_some_iff.mp hs
      exact .inl rfl

/-- what `AcceptsKept` says of the listener by itself -/
def Intake.ListenerKept (s : Intake) : Prop := AcceptsKept s.listener

theorem listenerKept_init (prior : Bool) : (Intake.init prior).ListenerKept :=
  acceptsKept_init prior

theorem listenerKept_step (s : Intake) (l : IntakeLabel) (t : Intake) (h : s.ListenerKept)
    (hl : IntakeSeesOpen s l) (hs : intakeStep s l = some t) : t.ListenerKept := by
  show AcceptsKept t.listener
  rcases intake_listener s t l hs with hsame | ⟨l', rfl, hstep⟩
  · rw [hsame]
    exact h
  · exact acceptsKept_step s.listener l' t.listener h hl hstep

/-- **Every connection accepted becomes exactly one object.**  In the runs in which no handler of a
connection accepted before `close_listener` finds `listener_open` cleared, and while the network
lives, each such connection is the source of one object, or its callback has not returned yet. -/
theorem accepted_registered (prior : Bool) (s : Intake)
    (h : Reach intakeStep IntakeSeesOpen (Intake.init prior) s) (halive : s.alive = true)
    (f : Family) (c : AcceptNo) (hin : (f, c) ∈ s.listener.accepted) :
    s.made.count c =
      if (s.listener.sides f).carried = some c ∧ s.stages f ≠ .returned then 0 else 1 := by
  have ht : Taken s := h.invariant (taken_init prior) fun t l u ht _ hs => taken_step t l u ht hs
  have hk : s.ListenerKept := h.invariant (listenerKept_init prior) fun t l u ht hl hs =>
    listenerKept_step t l u ht hl hs
  have hmade : s.settled = s.made := by
    rw [Intake.settled, ht.alive halive, List.append_nil]
  have hmem := ht.mem c
  have hnodup := ht.nodup
  rw [hmade] at hmem hnodup
  by_cases hwaits : (s.listener.sides f).carried = some c ∧ s.stages f ≠ .returned
  · rw [if_pos hwaits, List.count_eq_zero, hmem]
    rintro (hhanded | ⟨g, hg, hgc⟩)
    · exact hk.carried_new f c hwaits.1 hhanded
    · exact hwaits.2 (hk.carried_one g f c (calling_carried hgc) hwaits.1 ▸ hg)
  · rw [if_neg hwaits]
    refine List.count_eq_one_of_mem hnodup (hmem.mpr ?_)
    rcases hk.accepted f c hin with hcarried | hhanded
    · have hreturned : s.stages f = .returned := by
        by_contra hne
        exact hwaits ⟨hcarried, hne⟩
      obtain ⟨d, hd⟩ := ht.calls f (by rw [hreturned]; decide)
      obtain rfl : d = c := Option.some.inj ((calling_carried hd).symm.trans hcarried)
      exact .inr ⟨f, hreturned, hd⟩
    · exact .inl hhanded

/-- a connection on IPv6 is registered while the handler of one on IPv4 has yet to look at it -/
theorem accepted_registered_two :
    ∃ s, exec intakeStep (Intake.init false) (List.replicate 3 (.listener .construct) ++
        [.listener (.accept .v6), .listener (.accept .v4), .listener (.handle .v6),
          .listener (.handle .v6), .lock .v6, .getGuard .v6, .ids (.load 1), .ids (.exchange 1),
          .ids (.add 1)]) = some s ∧
      s.made.count 0 = (if (s.listener.sides .v6).carried = some 0 ∧ s.stages .v6 ≠ .returned
        then 0 else 1) := by
  have hrun : (exec intakeStep (Intake.init false) (List.replicate 3 (.listener .construct) ++
      [.listener (.accept .v6), .listener (.accept .v4), .listener (.handle .v6),
        .listener (.handle .v6), .lock .v6, .getGuard .v6, .ids (.load 1), .ids (.exchange 1),
        .ids (.add 1)])).map (fun s => (s.alive, s.listener.accepted))
      = some (true, [(.v6, 0), (.v4, 1)]) := by decide
  have hgood : Every intakeStep IntakeSeesOpen (Intake.init false)
      (List.replicate 3 (.listener .construct) ++
      [.listener (.accept .v6), .listener (.accept .v4), .listener (.handle .v6),
        .listener (.handle .v6), .lock .v6, .getGuard .v6, .ids (.load 1), .ids (.exchange 1),
        .ids (.add 1)]) := by decide
  obtain ⟨s, hs, hval⟩ := Option.map_eq_some_iff.mp hrun
  obtain ⟨halive, haccepted⟩ := Prod.mk.inj hval
  have hin : (Family.v6, 0) ∈ s.listener.accepted := by
    rw [haccepted]
    exact List.mem_cons_self
  exact ⟨s, hs, accepted_registered false s (Reach.of_every hgood hs) halive .v6 0 hin⟩

end VoltNet
