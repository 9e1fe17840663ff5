import VoltNet.Network.Ownership

/-!
# `server_connect` and the status it reports

The task that `server_connect` posts runs on a pool thread, beside the owner's copies and releases
of the network and the handlers of other pool threads.  `resolve` and `connect` may fail or not;
`~network` stops the io context, which keeps a task from starting but not from going on.

* `AsyncStateHandler`   the status that the caller polls;
* `connectStep`         the steps of the task and of everybody else who holds the network;
* `TaskMove`            what one step of the task does;
* `FindsNetwork`        the task finds the network alive when it locks the weak pointer;
* `connected_iff`       there is one outcome at most, and `Connected` stands for a connection of the
                        network exactly when the task finds the network alive;
* `connected_alone`     a task that does not.
-/

namespace VoltNet
open Runs

/-! ## the status -/

inductive ServerConnectStatus where
  | connecting
  | connected
  | failed
deriving DecidableEq

/-- the enumerator as a byte -/
def ServerConnectStatus.code : ServerConnectStatus → UInt8
  | .connecting => 0
  | .connected => 1
  | .failed => 2

structure AsyncStateHandler where
  status : UInt8

def AsyncStateHandler.create : AsyncStateHandler := ⟨0⟩

def AsyncStateHandler.setState (state : ServerConnectStatus) (_ : AsyncStateHandler) :
    AsyncStateHandler := ⟨state.code⟩

/-- the enumerator that the byte is cast to, `none` for one without a name -/
def AsyncStateHandler.getState (handler : AsyncStateHandler) : Option ServerConnectStatus :=
  if handler.status = 0 then some .connecting
  else if handler.status = 1 then some .connected
  else if handler.status = 2 then some .failed
  else none

theorem getState_setState (state : ServerConnectStatus) (handler : AsyncStateHandler) :
    (handler.setState state).getState = some state := by cases state <;> rfl

/-! ## the task -/

/-- the next statement of the task -/
inductive ConnectStage where
  /-- posted to the io context, not started -/
  | posted
  | resolve
  | connect
  /-- `net.lock()` -/
  | lock
  /-- in the block: `new_connection` and `add_connection` -/
  | add
  /-- the end of the block -/
  | unlock
  | setConnected
  | setFailed
  | returned
  /-- in `~network`, which cannot join the thread it runs on and does not return -/
  | destroying
deriving DecidableEq

structure ServerConnect where
  net : OwnershipState
  /-- `io->stop()` was called by `~network` -/
  stopped : Bool
  stage : ConnectStage
  handler : AsyncStateHandler
  /-- `add_connection` was called with the new connection -/
  added : Bool
  /-- arguments of the calls of `SetState` -/
  history : List ServerConnectStatus

def ServerConnect.setState (state : ServerConnectStatus) (s : ServerConnect) : ServerConnect :=
  { s with handler := s.handler.setState state, history := s.history ++ [state] }

/-- `server_connect` has posted its task and returned -/
def ServerConnect.init : ServerConnect :=
  ServerConnect.setState .connecting
    ⟨OwnershipState.init, false, .posted, AsyncStateHandler.create, false, []⟩

/-- one step of the task, on the pool thread `k`; `err` is the error code of `resolve` or
`connect` -/
def ServerConnect.taskStep (k : ThreadId) (err : Bool) (s : ServerConnect) :
    Option ServerConnect :=
  match s.stage with
  | .posted => if s.stopped then none else some { s with stage := .resolve }
  | .resolve => some { s with stage := if err then .setFailed else .connect }
  | .connect => some { s with stage := if err then .setFailed else .lock }
  | .lock =>
    (ownershipStep s.net (.lock k)).map fun net =>
      { s with net := net, stage := if 0 < s.net.useCount then .add else .setConnected }
  | .add => some { s with added := true, stage := .unlock }
  | .unlock =>
    (ownershipStep s.net (.unlock k)).map fun net =>
      { s with
        net := net
        stage := if net.destroyedBy = some (.poolThread k) then .destroying else .setConnected }
  | .setConnected => some { s.setState .connected with stage := .returned }
  | .setFailed => some { s.setState .failed with stage := .returned }
  | .returned | .destroying => none

inductive ConnectLabel where
  | task (err : Bool)
  /-- the owner, or a handler on another pool thread -/
  | other (l : OwnershipLabel)
  /-- `~network` stops the io context -/
  | stop

/-- the pool thread of a step -/
def OwnershipLabel.thread : OwnershipLabel → Option ThreadId
  | .copy => none
  | .release => none
  | .lock k => some k
  | .unlock k => some k

def connectStep (k : ThreadId) (s : ServerConnect) : ConnectLabel → Option ServerConnect
  | .task err => s.taskStep k err
  | .other l =>
    if l.thread = some k then none
    else (ownershipStep s.net l).map fun net => { s with net := net }
  | .stop => if s.net.destroyedBy ≠ none then some { s with stopped := true } else none

/-- the task finds the network alive when it locks the weak pointer -/
def FindsNetwork (s : ServerConnect) : ConnectLabel → Prop
  | .task _ => s.stage = .lock → 0 < s.net.useCount
  | _ => True

/-- `Connected` is reported only of a connection that was added -/
def Registered (s : ServerConnect) : Prop :=
  s.handler.getState = some .connected → s.added = true

/-! ## the steps of the task -/

/-- stages before anything is added or reported -/
def ConnectStage.early : ConnectStage → Bool
  | .posted | .resolve | .connect | .lock | .add | .setFailed => true
  | .unlock | .setConnected | .returned | .destroying => false

/-- what one step of the task does -/
inductive TaskMove (s : ServerConnect) : ServerConnect → Prop where
  | go (net : OwnershipState) (stage : ConnectStage) (hfrom : s.stage.early = true)
    (hto : stage.early = true) : TaskMove s { s with net := net, stage := stage }
  /-- the weak pointer has expired -/
  | expired (net : OwnershipState) (h : s.stage = .lock) (hgone : ¬ 0 < s.net.useCount) :
    TaskMove s { s with net := net, stage := .setConnected }
  | add (h : s.stage = .add) : TaskMove s { s with added := true, stage := .unlock }
  | unlock (net : OwnershipState) (stage : ConnectStage) (h : s.stage = .unlock)
    (hto : stage = .destroying ∨ stage = .setConnected) :
    TaskMove s { s with net := net, stage := stage }
  | connected (h : s.stage = .setConnected) :
    TaskMove s { s.setState .connected with stage := .returned }
  | failed (h : s.stage = .setFailed) : TaskMove s { s.setState .failed with stage := .returned }

theorem taskStep_move (k : ThreadId) (err : Bool) (s t : ServerConnect)
    (h : s.taskStep k err = some t) :
    TaskMove s t ∧ (s.stage = .lock → 0 < s.net.useCount → t.stage = .add) := by
  cases hst : s.stage with
  | posted =>
    simp only [ServerConnect.taskStep, hst] at h
    obtain ⟨-, ht⟩ := Option.ite_none_left_eq_some.mp h
    rw [← Option.some.inj ht]
    exact ⟨.go s.net _ (by rw [hst]; rfl) rfl, fun hl => by cases hl⟩
  | resolve =>
    simp only [ServerConnect.taskStep, hst] at h
    rw [← Option.some.inj h]
    exact ⟨.go s.net _ (by rw [hst]; rfl) (by cases err <;> rfl), fun hl => by cases hl⟩
  | connect =>
    simp only [ServerConnect.taskStep, hst] at h
    rw [← Option.some.inj h]
    exact ⟨.go s.net _ (by rw [hst]; rfl) (by cases err <;> rfl), fun hl => by cases hl⟩
  | lock =>
    simp only [ServerConnect.taskStep, hst] at h
    obtain ⟨net, -, rfl⟩ := Option.map_eq_some_iff.mp h
    by_cases halive : 0 < s.net.useCount
    · rw [if_pos halive]
      exact ⟨.go net _ (by rw [hst]; rfl) rfl, fun _ _ => rfl⟩
    · rw [if_neg halive]
      exact ⟨.expired net hst halive, fun _ hpos => absurd hpos halive⟩
  | add =>
    simp only [ServerConnect.taskStep, hst] at h
    rw [← Option.some.inj h]
    exact ⟨.add hst, fun hl => by cases hl⟩
  | unlock =>
    simp only [ServerConnect.taskStep, hst] at h
    obtain ⟨net, -, rfl⟩ := Option.map_eq_some_iff.mp h
    refine ⟨.unlock net _ hst ?_, fun hl => by cases hl⟩
    by_cases hd : net.destroyedBy = some (.poolThread k)
    · exact .inl (if_pos hd)
    · exact .inr (if_neg hd)
  | setConnected =>
    simp only [ServerConnect.taskStep, hst] at h
    rw [← Option.some.inj h]
    exact ⟨.connected hst, fun hl => by cases hl⟩
  | setFailed =>
    simp only [ServerConnect.taskStep, hst] at h
    rw [← Option.some.inj h]
    exact ⟨.failed hst, fun hl => by cases hl⟩
  | returned | destroying =>
    simp only [ServerConnect.taskStep, hst] at h
    cases h

/-- a step of somebody else -/
theorem connectStep_other (k : ThreadId) (s t : ServerConnect) (l : ConnectLabel)
    (hl : ∀ err, l ≠ .task err) (h : connectStep k s l = some t) :
    t.stage = s.stage ∧ t.handler = s.handler ∧ t.added = s.added ∧ t.history = s.history := by
  cases l with
  | task err => exact absurd rfl (hl err)
  | other l =>
    obtain ⟨-, ht⟩ := Option.ite_none_left_eq_some.mp h
    obtain ⟨net, -, rfl⟩ := Option.map_eq_some_iff.mp ht
    exact ⟨rfl, rfl, rfl, rfl⟩
  | stop =>
    obtain ⟨-, rfl⟩ := of_guard h
    exact ⟨rfl, rfl, rfl, rfl⟩

/-! ## one outcome -/

/-- the status is `Connecting` until the task returns, and does not change afterwards -/
structure OneOutcome (s : ServerConnect) : Prop where
  before : s.stage ≠ .returned → s.history = [.connecting]
  after : s.stage = .returned → ∃ x, x ≠ .connecting ∧ s.history = [.connecting, x]
  status : s.handler.getState = s.history.getLast?

theorem oneOutcome_init : OneOutcome ServerConnect.init where
  before _ := rfl
  after h := by cases h
  status := rfl

/-- the last statement of the task -/
theorem OneOutcome.report {s : ServerConnect} (h : OneOutcome s) (hs : s.stage ≠ .returned)
    (x : ServerConnectStatus) (hx : x ≠ .connecting) :
    OneOutcome { s.setState x with stage := .returned } := by
  have hhistory : s.history ++ [x] = [.connecting, x] := by
    rw [h.before hs]
    rfl
  refine ⟨fun hne => absurd rfl hne, fun _ => ⟨x, hx, hhistory⟩, ?_⟩
  show (s.handler.setState x).getState = (s.history ++ [x]).getLast?
  rw [getState_setState, hhistory]
  rfl

/-- a step before that -/
theorem OneOutcome.quiet {s t : ServerConnect} (h : OneOutcome s)
    (hfrom : s.stage = .returned ↔ t.stage = .returned) (hhandler : t.handler = s.handler)
    (hhistory : t.history = s.history) : OneOutcome t := by
  refine ⟨fun hne => ?_, fun hret => ?_, ?_⟩
  · rw [hhistory]
    exact h.before fun hret => hne (hfrom.mp hret)
  · rw [hhistory]
    exact h.after (hfrom.mpr hret)
  · rw [hhandler, hhistory]
    exact h.status

theorem early_ne_returned {stage : ConnectStage} (h : stage.early = true) : stage ≠ .returned := by
  rintro rfl
  cases h

theorem oneOutcome_move (s t : ServerConnect) (h : OneOutcome s) (hm : TaskMove s t) :
    OneOutcome t := by
  cases hm with
  | go net stage hfrom hto =>
    refine h.quiet ⟨fun hs => ?_, fun ht => ?_⟩ rfl rfl
    · exact absurd hs (early_ne_returned hfrom)
    · exact absurd ht (early_ne_returned hto)
  | expired net hst _ => exact h.quiet (by simp [hst]) rfl rfl
  | add hst => exact h.quiet (by simp [hst]) rfl rfl
  | unlock net stage hst hto =>
    refine h.quiet ?_ rfl rfl
    rcases hto with rfl | rfl
    · simp [hst]
    · simp [hst]
  | connected hst => exact h.report (by simp [hst]) .connected (by simp)
  | failed hst => exact h.report (by simp [hst]) .failed (by simp)

theorem oneOutcome_step (k : ThreadId) (s : ServerConnect) (l : ConnectLabel) (t : ServerConnect)
    (h : OneOutcome s) (hs : connectStep k s l = some t) : OneOutcome t := by
  by_cases hl : ∀ err, l ≠ .task err
  · obtain ⟨hstage, hhandler, -, hhistory⟩ := connectStep_other k s t l hl hs
    exact h.quiet (by rw [hstage]) hhandler hhistory
  · simp only [ne_eq, not_forall, not_not] at hl
    obtain ⟨err, rfl⟩ := hl
    exact oneOutcome_move s t h (taskStep_move k err s t hs).1

/-! ## what `Connected` stands for -/

/-- the task has added its connection before it reports it -/
def AddsFirst (s : ServerConnect) : Prop :=
  match s.stage with
  | .unlock | .setConnected => s.added = true
  | .returned => Registered s
  | .destroying => True
  | _ => s.added = false

/-- the task reports, or has reported, a connection that it has not added -/
inductive ReportsAlone (s : ServerConnect) : Prop where
  | before (hstage : s.stage = .setConnected) (hadded : s.added = false)
  | after (hstage : s.stage = .returned) (hstatus : s.handler.getState = some .connected)
    (hadded : s.added = false)

theorem addsFirst_early {s : ServerConnect} (h : AddsFirst s) (hs : s.stage.early = true) :
    s.added = false := by
  unfold AddsFirst at h
  cases hst : s.stage with
  | posted | resolve | connect | lock | add | setFailed => simpa only [hst] using h
  | unlock | setConnected | returned | destroying =>
    rw [hst] at hs
    cases hs

theorem addsFirst_of_early {s : ServerConnect} (hs : s.stage.early = true)
    (hadded : s.added = false) : AddsFirst s := by
  unfold AddsFirst
  cases hst : s.stage with
  | posted | resolve | connect | lock | add | setFailed => exact hadded
  | unlock | setConnected | returned | destroying =>
    rw [hst] at hs
    cases hs

theorem addsFirst_move (s t : ServerConnect) (h : AddsFirst s) (hm : TaskMove s t)
    (halive : s.stage = .lock → 0 < s.net.useCount) : AddsFirst t := by
  cases hm with
  | go net stage hfrom hto =>
    have hadded : s.added = false := addsFirst_early h hfrom
    exact addsFirst_of_early hto hadded
  | expired net hst hgone => exact absurd (halive hst) hgone
  | add hst => exact rfl
  | unlock net stage hst hto =>
    rcases hto with rfl | rfl
    · trivial
    · unfold AddsFirst at h
      rw [hst] at h
      exact h
  | connected hst =>
    unfold AddsFirst at h
    rw [hst] at h
    exact fun _ => h
  | failed hst =>
    intro hconnected
    have hfailed : (s.handler.setState .failed).getState = some .connected := hconnected
    rw [getState_setState] at hfailed
    cases hfailed

theorem addsFirst_step (k : ThreadId) (s : ServerConnect) (l : ConnectLabel) (t : ServerConnect)
    (h : AddsFirst s) (hl : FindsNetwork s l) (hs : connectStep k s l = some t) : AddsFirst t := by
  by_cases htask : ∀ err, l ≠ .task err
  · obtain ⟨hstage, hhandler, hadded, -⟩ := connectStep_other k s t l htask hs
    unfold AddsFirst Registered at h ⊢
    rw [hstage, hhandler, hadded]
    exact h
  · simp only [ne_eq, not_forall, not_not] at htask
    obtain ⟨err, rfl⟩ := htask
    exact addsFirst_move s t h (taskStep_move k err s t hs).1 hl

theorem AddsFirst.registered {s : ServerConnect} (h : AddsFirst s) (hone : OneOutcome s) :
    Registered s := by
  by_cases hret : s.stage = .returned
  · unfold AddsFirst at h
    rw [hret] at h
    exact h
  · intro hconnected
    rw [hone.status, hone.before hret] at hconnected
    cases hconnected

/-- a task that finds the weak pointer expired -/
theorem reportsAlone_first (k : ThreadId) (s : ServerConnect) (l : ConnectLabel) (t : ServerConnect)
    (h : AddsFirst s) (hl : ¬ FindsNetwork s l) (hs : connectStep k s l = some t) :
    ReportsAlone t := by
  cases l with
  | other l => exact absurd trivial hl
  | stop => exact absurd trivial hl
  | task err =>
    obtain ⟨hlock, hgone⟩ : s.stage = .lock ∧ ¬ 0 < s.net.useCount := by
      simpa only [FindsNetwork, Classical.not_imp] using hl
    have hadded : s.added = false := addsFirst_early h (by rw [hlock]; rfl)
    have hs : s.taskStep k err = some t := hs
    simp only [ServerConnect.taskStep, hlock, if_neg hgone] at hs
    obtain ⟨net, -, rfl⟩ := Option.map_eq_some_iff.mp hs
    exact .before rfl hadded

/-- and nothing keeps it from reporting `Connected` -/
theorem reportsAlone_step (k : ThreadId) (s : ServerConnect) (l : ConnectLabel) (t : ServerConnect)
    (h : ReportsAlone s) (hs : connectStep k s l = some t) : ReportsAlone t := by
  by_cases htask : ∀ err, l ≠ .task err
  · obtain ⟨hstage, hhandler, hadded, -⟩ := connectStep_other k s t l htask hs
    cases h with
    | before hst hnot => exact .before (hstage.trans hst) (hadded.trans hnot)
    | after hst hconnected hnot =>
      exact .after (hstage.trans hst) (by rw [hhandler, hconnected]) (hadded.trans hnot)
  · simp only [ne_eq, not_forall, not_not] at htask
    obtain ⟨err, rfl⟩ := htask
    have hs : s.taskStep k err = some t := hs
    cases h with
    | before hst hnot =>
      simp only [ServerConnect.taskStep, hst] at hs
      rw [← Option.some.inj hs]
      exact .after rfl (getState_setState .connected s.handler) hnot
    | after hst _ _ =>
      simp only [ServerConnect.taskStep, hst] at hs
      cases hs

/-- **The status has one outcome at most, and `Connected` is reported only of a connection that
was added as long as the task finds the network alive when it locks the weak pointer**; when the
task has returned this is the case exactly if it did.  This holds whatever `resolve` and `connect`
return, for all copies and releases of the owner, and beside any other handlers. -/
theorem connected_iff (k : ThreadId) (ls : List ConnectLabel) (s : ServerConnect)
    (h : exec (connectStep k) ServerConnect.init ls = some s) :
    (s.history = [.connecting] ∨ ∃ x, x ≠ .connecting ∧ s.history = [.connecting, x]) ∧
      s.handler.getState = s.history.getLast? ∧
      (Every (connectStep k) FindsNetwork ServerConnect.init ls → Registered s) ∧
      (s.stage = .returned →
        (Registered s ↔ Every (connectStep k) FindsNetwork ServerConnect.init ls)) := by
  have hreach : Reach (connectStep k) (fun _ _ => True) ServerConnect.init s := Reach.of_exec ls h
  have hone : OneOutcome s :=
    hreach.invariant oneOutcome_init fun t l u ht _ hu => oneOutcome_step k t l u ht hu
  have hsplit := exec_split (addsFirst_step k) (reportsAlone_first k) (reportsAlone_step k)
    (show AddsFirst ServerConnect.init from rfl) ls h
  refine ⟨?_, hone.status, fun hevery => ?_, fun hret => ?_⟩
  · by_cases hret : s.stage = .returned
    · exact .inr (hone.after hret)
    · exact .inl (hone.before hret)
  · rcases hsplit with ⟨-, hadds⟩ | ⟨hnot, -⟩
    · exact hadds.registered hone
    · exact absurd hevery hnot
  · rcases hsplit with ⟨hevery, hadds⟩ | ⟨hnot, halone⟩
    · exact ⟨fun _ => hevery, fun _ => hadds.registered hone⟩
    · refine ⟨fun hreg => ?_, fun hevery => absurd hevery hnot⟩
      cases halone with
      | before hst _ => cases hst.symm.trans hret
      | after _ hconnected hadded => cases hadded.symm.trans (hreg hconnected)

/-- the owner keeps the network until the connection is added -/
theorem connected_iff_kept :
    ∃ s, exec (connectStep 0) ServerConnect.init
        [.task false, .task false, .task false, .task false, .other .copy, .other .release,
          .task false, .task false, .task false] = some s ∧
      s.handler.getState = some .connected ∧ s.added = true := by
  let ls : List ConnectLabel := [.task false, .task false, .task false, .task false,
    .other .copy, .other .release, .task false, .task false, .task false]
  have hrun : (exec (connectStep 0) ServerConnect.init ls).map (fun s => s.handler.getState)
      = some (some .connected) := by decide
  obtain ⟨s, hs, hconnected⟩ := Option.map_eq_some_iff.mp hrun
  refine ⟨s, hs, hconnected, ?_⟩
  have hevery : Every (connectStep 0) FindsNetwork ServerConnect.init ls := by
    rw [every_cons rfl, every_cons rfl, every_cons rfl, every_cons rfl, every_cons rfl,
      every_cons rfl, every_cons rfl, every_cons rfl, every_cons rfl]
    refine ⟨?_, ?_, ?_, fun _ => Nat.one_pos, trivial, trivial, ?_, ?_, ?_, trivial⟩
    all_goals
      intro hlock
      cases hlock
  exact (connected_iff 0 ls s hs).2.2.1 hevery hconnected

/-- the owner releases the network while the task connects -/
theorem connected_alone :
    ∃ s, exec (connectStep 0) ServerConnect.init
        [.task false, .task false, .other .release, .stop, .task false, .task false, .task false]
          = some s ∧
      s.net.destroyedBy = some .owner ∧ s.handler.getState = some .connected ∧ s.added = false ∧
      ¬ Registered s := by
  refine ⟨_, rfl, rfl, rfl, rfl, fun h => ?_⟩
  cases h rfl

end VoltNet
