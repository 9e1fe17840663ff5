import VoltNet.Framing.NetCon
import VoltNet.Lib.Runs
import Mathlib.Logic.Function.Basic
import Mathlib.Data.List.Nodup

/-!
# Calls of `close_con` side by side

`close_con` loads `con_open`, and stores to it later.  Any number of calls on one `net_con`, from
io threads, user threads and the destructor, take their steps in any order.  Of Boost.Asio the
model takes that `cancel` throws on a socket that is closed already.

* `closeStep`              one step of one call;
* `close_alone`            a call that runs alone is `NetCon.closeCon`;
* `Won`                    a call that the guard let through, whatever became of it;
* `notified_once_iff`      there is one notification exactly when no call loads `con_open` while
                           another one is between its load and its store;
* `notified_twice`         two calls that both get through;
* `CloseSide`              what a system keeps of the calls on a connection beside its `con_open`.
-/

namespace VoltNet
open Runs

/-- a call of `close_con` -/
abbrev CallId := Nat

/-- how far a call is -/
inductive CloseCall where
  | entered
  /-- the guard has seen `con_open` set -/
  | passed
  | stored
  | cancelled
  | sockClosed
  | inCallback
  | returned
  /-- returned by the guard -/
  | skipped
  /-- left by an exception of `cancel` -/
  | threw
deriving DecidableEq

structure CloseState where
  conOpen : Bool
  sockOpen : Bool
  calls : CallId → Option CloseCall
  /-- the calls that have invoked `con_closed_callback` -/
  notified : List CallId

inductive CloseLabel where
  | call (k : CallId)
  | advance (k : CallId)

def CloseState.init : CloseState := ⟨true, true, fun _ => none, []⟩

def CloseState.move (k : CallId) (call : CloseCall) (s : CloseState) : CloseState :=
  { s with calls := Function.update s.calls k (some call) }

def closeStep (s : CloseState) : CloseLabel → Option CloseState
  | .call k => if s.calls k = none then some (s.move k .entered) else none
  | .advance k =>
    match s.calls k with
    | some .entered => some (s.move k (if !s.conOpen then .skipped else .passed))
    | some .passed => some { s.move k .stored with conOpen := false }
    | some .stored => some (s.move k (if s.sockOpen then .cancelled else .threw))
    | some .cancelled => some { s.move k .sockClosed with sockOpen := false }
    | some .sockClosed => some { s.move k .inCallback with notified := s.notified ++ [k] }
    | some .inCallback => some (s.move k .returned)
    | some .returned | some .skipped | some .threw | none => none

/-- the steps that a call takes when it runs alone -/
def closeAlone (k : CallId) (conOpen : Bool) : List CloseLabel :=
  .call k :: List.replicate (if conOpen then 6 else 1) (.advance k)

/-- **A call that runs alone is `NetCon.closeCon`.** -/
theorem close_alone (c : NetCon) (s : CloseState) (k : CallId) (hk : s.calls k = none)
    (hopen : s.conOpen = c.conOpen) (hsock : s.conOpen = true → s.sockOpen = true) :
    ∃ t, exec closeStep s (closeAlone k c.conOpen) = some t ∧ t.conOpen = c.closeCon.1.conOpen ∧
      t.notified = s.notified ++ (c.closeCon.2.map fun _ => k).toList := by
  cases hc : c.conOpen with
  | true =>
    rw [hc] at hopen
    refine ⟨⟨false, false, Function.update s.calls k (some .returned), s.notified ++ [k]⟩, ?_, ?_,
      ?_⟩
    · simp [closeAlone, exec, closeStep, CloseState.move, hk, hopen, hsock hopen]
    · simp [NetCon.closeCon, hc]
    · simp [NetCon.closeCon, hc]
  | false =>
    rw [hc] at hopen
    refine ⟨⟨false, s.sockOpen, Function.update s.calls k (some .skipped), s.notified⟩, ?_, ?_, ?_⟩
    · simp [closeAlone, exec, closeStep, CloseState.move, hk, hopen]
    · simp [NetCon.closeCon, hc]
    · simp [NetCon.closeCon, hc]

/-! ## the steps of a call -/

/-- what one step of the call `k` does -/
inductive CloseMove (s : CloseState) (k : CallId) : CloseState → Prop where
  | skip (h : s.calls k = some .entered) (hopen : s.conOpen = false) :
    CloseMove s k (s.move k .skipped)
  | pass (h : s.calls k = some .entered) (hopen : s.conOpen = true) :
    CloseMove s k (s.move k .passed)
  | store (h : s.calls k = some .passed) :
    CloseMove s k { s.move k .stored with conOpen := false }
  | cancel (h : s.calls k = some .stored) (hsock : s.sockOpen = true) :
    CloseMove s k (s.move k .cancelled)
  | throw (h : s.calls k = some .stored) (hsock : s.sockOpen = false) :
    CloseMove s k (s.move k .threw)
  | sockClose (h : s.calls k = some .cancelled) :
    CloseMove s k { s.move k .sockClosed with sockOpen := false }
  | invoke (h : s.calls k = some .sockClosed) :
    CloseMove s k { s.move k .inCallback with notified := s.notified ++ [k] }
  | leave (h : s.calls k = some .inCallback) : CloseMove s k (s.move k .returned)

theorem closeStep_advance (s t : CloseState) (k : CallId)
    (hs : closeStep s (.advance k) = some t) : CloseMove s k t := by
  rw [closeStep] at hs
  split at hs
  · next h =>
    rw [← Option.some.inj hs]
    cases hopen : s.conOpen with
    | true => exact .pass h hopen
    | false => exact .skip h hopen
  · next h => exact Option.some.inj hs ▸ .store h
  · next h =>
    rw [← Option.some.inj hs]
    cases hsock : s.sockOpen with
    | true => exact .cancel h hsock
    | false => exact .throw h hsock
  · next h => exact Option.some.inj hs ▸ .sockClose h
  · next h => exact Option.some.inj hs ▸ .invoke h
  · next h => exact Option.some.inj hs ▸ .leave h
  all_goals cases hs

theorem closeStep_call (s t : CloseState) (k : CallId) (hs : closeStep s (.call k) = some t) :
    s.calls k = none ∧ t = s.move k .entered := of_guard hs

theorem move_self (s : CloseState) (k : CallId) (call : CloseCall) :
    (s.move k call).calls k = some call := Function.update_self ..

theorem move_ne (s : CloseState) {k j : CallId} (call : CloseCall) (h : j ≠ k) :
    (s.move k call).calls j = s.calls j := Function.update_of_ne h ..

/-! ## calls that the guard lets through -/

def CloseCall.won : CloseCall → Bool
  | .entered | .skipped => false
  | _ => true

/-- the call has got past the guard -/
def Won (calls : CallId → Option CloseCall) (k : CallId) : Prop :=
  ∃ call, calls k = some call ∧ call.won = true

theorem won_of_eq {calls : CallId → Option CloseCall} {k : CallId} {call : CloseCall}
    (h : calls k = some call) : Won calls k ↔ call.won = true := by
  constructor
  · intro hw
    obtain ⟨call', h', hw⟩ := hw
    rwa [Option.some.inj (h.symm.trans h')]
  · intro hw
    exact ⟨call, h, hw⟩

theorem won_ne {s : CloseState} {k j : CallId} {call : CloseCall} (h : j ≠ k) :
    Won (s.move k call).calls j ↔ Won s.calls j := by
  rw [Won, Won, move_ne s call h]

/-- a step that lets nobody through the guard -/
theorem won_move {s : CloseState} {k : CallId} {old new : CloseCall} (h : s.calls k = some old)
    (hwon : old.won = new.won) (j : CallId) :
    Won (s.move k new).calls j ↔ Won s.calls j := by
  by_cases hj : j = k
  · rw [hj, won_of_eq (move_self s k new), won_of_eq h, hwon]
  · exact won_ne hj

theorem won_advance (s t : CloseState) (k : CallId) (hm : CloseMove s k t) (j : CallId) :
    (Won t.calls j ↔ Won s.calls j) ∨
      (s.calls k = some .entered ∧ s.conOpen = true ∧ t = s.move k .passed) := by
  cases hm with
  | pass h hopen => exact .inr ⟨h, hopen, rfl⟩
  | skip h | store h | cancel h | throw h | sockClose h | invoke h | leave h =>
    exact .inl (won_move h (by rfl) j)

theorem won_step (s t : CloseState) (l : CloseLabel) (hs : closeStep s l = some t) (j : CallId)
    (h : Won s.calls j) : Won t.calls j := by
  cases l with
  | call k =>
    obtain ⟨hk, rfl⟩ := closeStep_call s t k hs
    have hj : j ≠ k := by
      intro e
      obtain ⟨call, hcall, -⟩ := h
      rw [e, hk] at hcall
      cases hcall
    exact (won_ne hj).mpr h
  | advance k =>
    rcases won_advance s t k (closeStep_advance s t k hs) j with hiff | ⟨hk, -, rfl⟩
    · exact hiff.mpr h
    · have hj : j ≠ k := by
        intro e
        rw [e, won_of_eq hk] at h
        cases h
      exact (won_ne hj).mpr h

/-! ## notifications -/

def CloseCall.notified : CloseCall → Bool
  | .inCallback | .returned => true
  | _ => false

/-- the record holds the calls that have got to the callback, each once -/
structure Recorded (s : CloseState) : Prop where
  mem : ∀ k, k ∈ s.notified ↔ ∃ call, s.calls k = some call ∧ call.notified = true
  nodup : s.notified.Nodup

theorem recorded_init : Recorded CloseState.init where
  mem k := iff_of_false List.not_mem_nil fun h => by obtain ⟨call, h, -⟩ := h; cases h
  nodup := List.nodup_nil

/-- a step without a notification -/
theorem recorded_move {s : CloseState} {k : CallId} {call : CloseCall} (h : Recorded s)
    (hk : k ∈ s.notified ↔ call.notified = true) (j : CallId) :
    j ∈ s.notified ↔ ∃ call', (s.move k call).calls j = some call' ∧ call'.notified = true := by
  by_cases hj : j = k
  · rw [hj, move_self, hk]
    constructor
    · intro hn
      exact ⟨call, rfl, hn⟩
    · intro hn
      obtain ⟨call', e, hn⟩ := hn
      rwa [Option.some.inj e]
  · rw [move_ne s call hj]
    exact h.mem j

theorem Recorded.mem_of_eq {s : CloseState} (h : Recorded s) {k : CallId} {call : CloseCall}
    (hk : s.calls k = some call) : k ∈ s.notified ↔ call.notified = true := by
  rw [h.mem k, hk]
  constructor
  · intro hn
    obtain ⟨call', e, hn⟩ := hn
    rwa [Option.some.inj e]
  · intro hn
    exact ⟨call, rfl, hn⟩

theorem recorded_step (s t : CloseState) (l : CloseLabel) (h : Recorded s)
    (hs : closeStep s l = some t) : Recorded t := by
  cases l with
  | call k =>
    obtain ⟨hk, rfl⟩ := closeStep_call s t k hs
    have hnot : k ∉ s.notified := by
      rw [h.mem k, hk]
      intro hn
      obtain ⟨call, e, -⟩ := hn
      cases e
    exact ⟨recorded_move h (iff_of_false hnot (by decide)), h.nodup⟩
  | advance k =>
    cases closeStep_advance s t k hs with
    | skip hk | pass hk | store hk | cancel hk | throw hk | sockClose hk | leave hk =>
      exact ⟨recorded_move h ((h.mem_of_eq hk).trans (by decide)), h.nodup⟩
    | invoke hk =>
      have hnot : k ∉ s.notified := by
        rw [h.mem_of_eq hk]
        decide
      refine ⟨fun j => ?_, ?_⟩
      · show j ∈ s.notified ++ [k] ↔
          ∃ call, (s.move k .inCallback).calls j = some call ∧ call.notified = true
        rw [List.mem_append, List.mem_singleton]
        by_cases hj : j = k
        · rw [hj, move_self]
          exact iff_of_true (.inr rfl) ⟨.inCallback, rfl, rfl⟩
        · rw [move_ne s _ hj, or_iff_left hj]
          exact h.mem j
      · refine List.Nodup.append h.nodup (List.nodup_singleton k) fun j hj hj' => ?_
        rw [List.mem_singleton.mp hj'] at hj
        exact hnot hj

/-! ## at most one call gets through -/

/-- the call does not load `con_open` while another one is between its load and its store -/
def Guarded (s : CloseState) : CloseLabel → Prop
  | .call _ => True
  | .advance k => s.calls k = some .entered → ∀ j, s.calls j ≠ some .passed

structure OneCloser (s : CloseState) : Prop where
  unique : ∀ i j, Won s.calls i → Won s.calls j → i = j
  opened : s.conOpen = true → s.sockOpen = true ∧
    ∀ k call, s.calls k = some call → call = .entered ∨ call = .passed
  closed : s.conOpen = false → ∃ k call, s.calls k = some call ∧ call.won = true ∧ call ≠ .passed
  sock : ∀ k, s.calls k = some .stored → s.sockOpen = true
  unthrown : ∀ k, s.calls k ≠ some .threw

theorem oneCloser_init : OneCloser CloseState.init where
  unique i j h := by obtain ⟨call, h, -⟩ := h; cases h
  opened _ := ⟨rfl, fun k call h => by cases h⟩
  closed h := by cases h
  sock k h := by cases h
  unthrown k h := by cases h

/-- a call behind its store -/
theorem OneCloser.past {s : CloseState} (h : OneCloser s) {k : CallId} {call : CloseCall}
    (hk : s.calls k = some call) (hwon : call.won = true) (hpassed : call ≠ .passed) :
    s.conOpen = false := by
  by_contra hopen
  rcases (h.opened (eq_true_of_ne_false hopen)).2 k call hk with rfl | rfl
  · cases hwon
  · exact hpassed rfl

theorem OneCloser.beforeStore {s : CloseState} (h : OneCloser s) {k : CallId}
    (hk : s.calls k = some .passed) : s.conOpen = true := by
  by_contra hopen
  obtain ⟨j, call, hj, hwon, hpassed⟩ := h.closed (eq_false_of_ne_true hopen)
  obtain rfl := h.unique j k ⟨call, hj, hwon⟩ ⟨_, hk, rfl⟩
  exact hpassed (Option.some.inj (hj.symm.trans hk))

/-- the call that got through goes on, its store made -/
theorem oneCloser_forward {s t : CloseState} {k : CallId} {old new : CloseCall} (h : OneCloser s)
    (hk : s.calls k = some old) (hold : old.won = true) (hnew : new.won = true)
    (hpassed : new ≠ .passed) (hthrew : new ≠ .threw) (ht : t.calls = (s.move k new).calls)
    (hopen : t.conOpen = false) (hsock : new = .stored → t.sockOpen = true) : OneCloser t := by
  have hwon : ∀ j, Won t.calls j ↔ Won s.calls j := by
    intro j
    rw [ht]
    exact won_move hk (hold.trans hnew.symm) j
  have hself : t.calls k = some new := by
    rw [ht]
    exact move_self s k new
  have hother : ∀ j, j ≠ k → ¬ Won t.calls j := by
    intro j hj hw
    exact hj (h.unique j k ((hwon j).mp hw) ⟨old, hk, hold⟩)
  refine ⟨fun i j hi hj => ?_, fun hcon => ?_, fun _ => ⟨k, new, hself, hnew, hpassed⟩,
    fun j hj => ?_, fun j hj => ?_⟩
  · exact h.unique i j ((hwon i).mp hi) ((hwon j).mp hj)
  · rw [hopen] at hcon
    cases hcon
  · by_cases hjk : j = k
    · rw [hjk, hself] at hj
      exact hsock (Option.some.inj hj)
    · exact absurd ⟨_, hj, rfl⟩ (hother j hjk)
  · by_cases hjk : j = k
    · rw [hjk, hself] at hj
      exact hthrew (Option.some.inj hj)
    · exact hother j hjk ⟨_, hj, rfl⟩

/-- a call that has not got through, and does not now -/
theorem oneCloser_bystander {s : CloseState} {k : CallId} {new : CloseCall} (h : OneCloser s)
    (hk : ¬ Won s.calls k) (hnew : new.won = false) (hopen : s.conOpen = true → new = .entered) :
    OneCloser (s.move k new) := by
  have hself : ¬ Won (s.move k new).calls k := by
    rw [won_of_eq (move_self s k new), hnew]
    decide
  have hback : ∀ j, Won (s.move k new).calls j → j ≠ k ∧ Won s.calls j := by
    intro j hj
    have hjk : j ≠ k := fun e => hself (e ▸ hj)
    exact ⟨hjk, (won_ne hjk).mp hj⟩
  refine ⟨fun i j hi hj => ?_, fun hcon => ⟨(h.opened hcon).1, fun j call hj => ?_⟩, fun hcon => ?_,
    fun j hj => ?_, fun j hj => ?_⟩
  · exact h.unique i j (hback i hi).2 (hback j hj).2
  · by_cases hjk : j = k
    · rw [hjk, move_self] at hj
      exact .inl ((Option.some.inj hj).symm.trans (hopen hcon))
    · rw [move_ne s new hjk] at hj
      exact (h.opened hcon).2 j call hj
  · obtain ⟨j, call, hj, hwon, hpassed⟩ := h.closed hcon
    have hjk : j ≠ k := fun e => hk (e ▸ ⟨call, hj, hwon⟩)
    exact ⟨j, call, by rw [move_ne s new hjk, hj], hwon, hpassed⟩
  · obtain ⟨hjk, -⟩ := hback j ⟨_, hj, rfl⟩
    rw [move_ne s new hjk] at hj
    exact h.sock j hj
  · obtain ⟨hjk, -⟩ := hback j ⟨_, hj, rfl⟩
    rw [move_ne s new hjk] at hj
    exact h.unthrown j hj

/-- the first call gets through -/
theorem oneCloser_pass {s : CloseState} {k : CallId} (h : OneCloser s) (hopen : s.conOpen = true)
    (hnone : ∀ j, s.calls j ≠ some .passed) : OneCloser (s.move k .passed) := by
  obtain ⟨hsock, hcalls⟩ := h.opened hopen
  have hwon : ∀ j, Won (s.move k .passed).calls j → j = k := by
    intro j hj
    by_contra hjk
    obtain ⟨call, hcall, hw⟩ := (won_ne hjk).mp hj
    rcases hcalls j call hcall with rfl | rfl
    · cases hw
    · exact hnone j hcall
  have hself := move_self s k .passed
  refine ⟨fun i j hi hj => (hwon i hi).trans (hwon j hj).symm,
    fun _ => ⟨hsock, fun j call hj => ?_⟩, fun hcon => ?_, fun _ _ => hsock, fun j hj => ?_⟩
  · by_cases hjk : j = k
    · rw [hjk, hself] at hj
      exact .inr (Option.some.inj hj).symm
    · rw [move_ne s _ hjk] at hj
      exact hcalls j call hj
  · have hcon : s.conOpen = false := hcon
    rw [hopen] at hcon
    cases hcon
  · obtain rfl := hwon j ⟨_, hj, rfl⟩
    rw [hself] at hj
    cases hj

theorem oneCloser_step (s t : CloseState) (l : CloseLabel) (h : OneCloser s) (hl : Guarded s l)
    (hs : closeStep s l = some t) : OneCloser t := by
  cases l with
  | call k =>
    obtain ⟨hk, rfl⟩ := closeStep_call s t k hs
    refine oneCloser_bystander h (fun hw => ?_) rfl fun _ => rfl
    obtain ⟨call, hcall, -⟩ := hw
    rw [hk] at hcall
    cases hcall
  | advance k =>
    cases closeStep_advance s t k hs with
    | skip hk hopen =>
      have hlost : ¬ Won s.calls k := by
        rw [won_of_eq hk]
        decide
      refine oneCloser_bystander h hlost rfl fun hcon => ?_
      rw [hopen] at hcon
      cases hcon
    | pass hk hopen => exact oneCloser_pass h hopen (hl hk)
    | store hk =>
      exact oneCloser_forward h hk rfl (by rfl) (by decide) (by decide) rfl rfl
        fun _ => (h.opened (h.beforeStore hk)).1
    | cancel hk | leave hk =>
      exact oneCloser_forward h hk rfl (by rfl) (by decide) (by decide) rfl
        (h.past hk rfl (by decide)) fun e => by cases e
    | throw hk hsock =>
      rw [h.sock k hk] at hsock
      cases hsock
    | sockClose hk | invoke hk =>
      exact oneCloser_forward h hk rfl (by rfl) (by decide) (by decide) rfl
        (h.past hk rfl (by decide)) fun e => by cases e

/-- two calls have got through -/
def TwoClosers (s : CloseState) : Prop := ∃ i j, i ≠ j ∧ Won s.calls i ∧ Won s.calls j

theorem twoClosers_step (s t : CloseState) (l : CloseLabel) (h : OneCloser s)
    (hl : ¬ Guarded s l) (hs : closeStep s l = some t) : TwoClosers t := by
  cases l with
  | call k => exact absurd trivial hl
  | advance k =>
    simp only [Guarded, Classical.not_imp, not_forall, not_not] at hl
    obtain ⟨hk, j, hj⟩ := hl
    have hopen := h.beforeStore hj
    have hjk : j ≠ k := by
      intro e
      rw [e, hk] at hj
      cases hj
    cases closeStep_advance s t k hs with
    | pass => exact ⟨k, j, hjk.symm, ⟨_, move_self s k _, rfl⟩, (won_ne hjk).mpr ⟨_, hj, rfl⟩⟩
    | skip _ hclosed =>
      rw [hopen] at hclosed
      cases hclosed
    | store h' | cancel h' | throw h' | sockClose h' | invoke h' | leave h' =>
      rw [hk] at h'
      cases h'

theorem twoClosers_stay (s t : CloseState) (l : CloseLabel) (h : TwoClosers s)
    (hs : closeStep s l = some t) : TwoClosers t := by
  obtain ⟨i, j, hij, hi, hj⟩ := h
  exact ⟨i, j, hij, won_step s t l hs i hi, won_step s t l hs j hj⟩

/-- every call made has returned -/
def AllReturned (s : CloseState) : Prop :=
  ∀ k call, s.calls k = some call → call = .returned ∨ call = .skipped

theorem notified_won {s : CloseState} (h : Recorded s) {k : CallId} (hk : k ∈ s.notified) :
    Won s.calls k := by
  obtain ⟨call, hcall, hn⟩ := (h.mem k).mp hk
  refine ⟨call, hcall, ?_⟩
  cases call with
  | inCallback | returned => rfl
  | entered | passed | stored | cancelled | sockClosed | skipped | threw => cases hn

theorem won_notified {s : CloseState} (h : Recorded s) (hall : AllReturned s) {k : CallId}
    (hk : Won s.calls k) : k ∈ s.notified := by
  obtain ⟨call, hcall, hwon⟩ := hk
  rcases hall k call hcall with rfl | rfl
  · exact (h.mem k).mpr ⟨_, hcall, rfl⟩
  · cases hwon

theorem notified_le_one {s : CloseState} (h : Recorded s) (hone : OneCloser s) :
    s.notified.length ≤ 1 := by
  cases hl : s.notified with
  | nil => exact Nat.zero_le 1
  | cons i rest =>
    cases rest with
    | nil => exact le_rfl
    | cons j rest =>
      have hi : i ∈ s.notified := by
        rw [hl]
        exact List.mem_cons_self
      have hj : j ∈ s.notified := by
        rw [hl]
        exact List.mem_cons_of_mem i List.mem_cons_self
      have hnodup := h.nodup
      rw [hl, hone.unique i j (notified_won h hi) (notified_won h hj), List.nodup_cons] at hnodup
      exact absurd List.mem_cons_self hnodup.1

theorem notified_pos {s : CloseState} (h : Recorded s) (hone : OneCloser s)
    (hmade : ∃ k call, s.calls k = some call) (hall : AllReturned s) : 0 < s.notified.length := by
  have hopen : s.conOpen = false := by
    by_contra hopen
    obtain ⟨k, call, hk⟩ := hmade
    rcases (hone.opened (eq_true_of_ne_false hopen)).2 k call hk with rfl | rfl <;>
      rcases hall k _ hk with e | e <;> cases e
  obtain ⟨k, call, hk, hwon, -⟩ := hone.closed hopen
  exact List.length_pos_of_mem (won_notified h hall ⟨call, hk, hwon⟩)

/-- **There is at most one notification in a run in which no call loads `con_open` while another
one is between its load and its store, and none of its calls throws.  When all calls of a run have
returned, there was exactly one notification exactly when the run is of this kind.** -/
theorem notified_once_iff (ls : List CloseLabel) (s : CloseState)
    (h : exec closeStep CloseState.init ls = some s) :
    (Every closeStep Guarded CloseState.init ls →
      s.notified.length ≤ 1 ∧ ∀ k, s.calls k ≠ some .threw) ∧
    ((∃ k call, s.calls k = some call) → AllReturned s →
      (s.notified.length = 1 ↔ Every closeStep Guarded CloseState.init ls)) := by
  have hrec : Recorded s := (Reach.of_exec ls h).invariant recorded_init fun t l u ht _ hs =>
    recorded_step t u l ht hs
  have hsplit := exec_split (fun t l u ht hl hs => oneCloser_step t u l ht hl hs)
    (fun t l u ht hl hs => twoClosers_step t u l ht hl hs)
    (fun t l u ht hs => twoClosers_stay t u l ht hs) oneCloser_init ls h
  constructor
  · intro hevery
    rcases hsplit with ⟨-, hone⟩ | ⟨hnot, -⟩
    · exact ⟨notified_le_one hrec hone, hone.unthrown⟩
    · exact absurd hevery hnot
  · intro hmade hall
    rcases hsplit with ⟨hevery, hone⟩ | ⟨hnot, i, j, hij, hi, hj⟩
    · refine iff_of_true ?_ hevery
      have hpos := notified_pos hrec hone hmade hall
      have hle := notified_le_one hrec hone
      omega
    · refine iff_of_false (fun hlen => hij ?_) hnot
      obtain ⟨k, hk⟩ := List.length_eq_one_iff.mp hlen
      have hi := won_notified hrec hall hi
      have hj := won_notified hrec hall hj
      rw [hk, List.mem_singleton] at hi hj
      rw [hi, hj]

/-- two calls, of which one loads after the other's store -/
theorem notified_once_iff_late :
    ∃ s, exec closeStep CloseState.init
        [.call 0, .call 1, .advance 0, .advance 0, .advance 1, .advance 0, .advance 0, .advance 0,
          .advance 0] = some s ∧ s.notified = [0] ∧
      (s.notified.length = 1 ↔ Every closeStep Guarded CloseState.init
        [.call 0, .call 1, .advance 0, .advance 0, .advance 1, .advance 0, .advance 0, .advance 0,
          .advance 0]) := by
  refine ⟨_, rfl, rfl, (notified_once_iff _ _ rfl).2 ⟨0, _, rfl⟩ fun k call hk => ?_⟩
  by_cases h0 : k = 0
  · rw [h0] at hk
    exact .inl (Option.some.inj hk).symm
  · by_cases h1 : k = 1
    · rw [h1] at hk
      exact .inr (Option.some.inj hk).symm
    · simp [CloseState.move, CloseState.init, h0, h1] at hk

/-- two calls load `con_open` before either stores to it -/
theorem notified_twice :
    ∃ s, Reach closeStep (fun _ _ => True) CloseState.init s ∧ s.calls 0 = some .returned ∧
      s.calls 1 = some .returned ∧ s.notified = [0, 1] :=
  ⟨_, Reach.of_exec
    [.call 0, .call 1, .advance 0, .advance 1, .advance 0, .advance 1, .advance 0, .advance 1,
      .advance 0, .advance 1, .advance 0, .advance 1, .advance 0, .advance 1] rfl, rfl, rfl, rfl⟩

/-! ## calls in a system that has `con_open` elsewhere -/

structure CloseSide where
  sockOpen : Bool
  calls : CallId → Option CloseCall
  notified : List CallId

/-- nothing has been called -/
def CloseSide.init (sockOpen : Bool) : CloseSide := ⟨sockOpen, fun _ => none, []⟩

def CloseSide.state (c : CloseSide) (conOpen : Bool) : CloseState :=
  ⟨conOpen, c.sockOpen, c.calls, c.notified⟩

def CloseState.side (s : CloseState) : CloseSide := ⟨s.sockOpen, s.calls, s.notified⟩

/-- `con_open` is not set again -/
theorem closeStep_opens (s t : CloseState) (l : CloseLabel) (hs : closeStep s l = some t)
    (ht : t.conOpen = true) : s.conOpen = true := by
  cases l with
  | call k =>
    obtain ⟨-, rfl⟩ := closeStep_call s t k hs
    exact ht
  | advance k =>
    cases closeStep_advance s t k hs with
    | store => cases ht
    | skip | pass | cancel | throw | sockClose | invoke | leave => exact ht

/-- another call is where it was -/
theorem closeStep_other (s t : CloseState) (k j : CallId)
    (hs : closeStep s (.advance k) = some t) (hj : j ≠ k) : t.calls j = s.calls j := by
  cases closeStep_advance s t k hs <;> exact move_ne s _ hj

end VoltNet
