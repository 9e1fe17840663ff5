import VoltNet.Network.Listener
import Mathlib.Data.List.Nodup

/-!
# Accepted connections and `listener_open`

A handler drops its connection when it finds `listener_open` cleared, and the flag has no value of
its own before the last statement of the constructor.

* `SeesOpen`          the handler of a connection accepted before `close_listener` finds the flag set;
* `NoneLost`          those connections are handed over once, and the next accept is outstanding;
* `AcceptsKept`       the invariant that carries this;
* `acceptsKept_step`  steps with `SeesOpen` keep it;
* `dropped_step`      any other step loses a connection;
* `noneLost_iff`      no connection is lost in a run exactly when all its steps have `SeesOpen`.
-/

namespace VoltNet
open Runs

/-- the handler of a connection that was accepted before `close_listener` finds the flag set -/
def SeesOpen (s : Listener) : ListenerLabel → Prop
  | .handle f => ∀ c, (s.sides f).stage = .test false (.connected c) → (f, c) ∈ s.accepted →
      s.listenerOpen = true
  | _ => True

/-- every connection accepted before `close_listener` is handed over once, and the handler that is
done with it has started the next accept -/
structure NoneLost (s : Listener) : Prop where
  once : ∀ f c, (f, c) ∈ s.accepted →
    s.handed.count (.connected c) = if (s.sides f).carried = some c then 0 else 1
  rearmed : ∀ f, s.construct.started f = true → (s.sides f).stage = .idle →
    (s.sides f).outstanding = true ∧ (s.sides f).newSock = .fresh

/-! ## the invariant -/

structure AcceptsKept (s : Listener) : Prop where
  side : ∀ f, (s.sides f).Ok (s.construct.started f)
  carried_lt : ∀ f c, (s.sides f).carried = some c → c < s.next
  carried_new : ∀ f c, (s.sides f).carried = some c → .connected c ∉ s.handed
  carried_one : ∀ f g c, (s.sides f).carried = some c → (s.sides g).carried = some c → f = g
  handed_lt : ∀ c, .connected c ∈ s.handed → c < s.next
  handed_nodup : s.handed.Nodup
  accepted : ∀ f c, (f, c) ∈ s.accepted →
    (s.sides f).carried = some c ∨ .connected c ∈ s.handed

theorem acceptsKept_init (prior : Bool) : AcceptsKept (Listener.init prior) where
  side _ := ⟨rfl, rfl⟩
  carried_lt _ _ h := by cases h
  carried_new _ _ h := by cases h
  carried_one _ _ _ h := by cases h
  handed_lt _ h := by cases h
  handed_nodup := List.nodup_nil
  accepted _ _ h := by cases h

theorem AcceptsKept.noneLost {s : Listener} (h : AcceptsKept s) : NoneLost s := by
  refine ⟨fun f c hc => ?_, fun f hf hidle => ?_⟩
  · by_cases hcar : (s.sides f).carried = some c
    · rw [if_pos hcar]
      exact List.count_eq_zero.mpr (h.carried_new f c hcar)
    · rw [if_neg hcar]
      exact List.count_eq_one_of_mem h.handed_nodup ((h.accepted f c hc).resolve_left hcar)
  · have hside := h.side f
    unfold AcceptSide.Ok at hside
    rw [hidle, hf] at hside
    exact hside

/-- a step after which the handlers carry the same connections -/
theorem AcceptsKept.same {s t : Listener} (h : AcceptsKept s)
    (hside : ∀ f, (t.sides f).Ok (t.construct.started f))
    (hcarried : ∀ f, (t.sides f).carried = (s.sides f).carried) (hnext : t.next = s.next)
    (haccepted : t.accepted = s.accepted) (hhanded : t.handed = s.handed) : AcceptsKept t := by
  refine ⟨hside, ?_, ?_, ?_, ?_, ?_, ?_⟩
  · intro f c hc
    rw [hnext]
    exact h.carried_lt f c ((hcarried f).symm.trans hc)
  · intro f c hc
    rw [hhanded]
    exact h.carried_new f c ((hcarried f).symm.trans hc)
  · intro f g c hf hg
    exact h.carried_one f g c ((hcarried f).symm.trans hf) ((hcarried g).symm.trans hg)
  · intro c hc
    rw [hhanded] at hc
    rw [hnext]
    exact h.handed_lt c hc
  · rw [hhanded]
    exact h.handed_nodup
  · intro f c hc
    rw [haccepted] at hc
    rw [hcarried, hhanded]
    exact h.accepted f c hc

/-! ## one acceptor at a time -/

theorem setSide_carried (s : Listener) (f : Family) (side : AcceptSide)
    (hside : side.carried = (s.sides f).carried) (g : Family) :
    ((s.setSide f side).sides g).carried = (s.sides g).carried := by
  show (Function.update s.sides f side g).carried = (s.sides g).carried
  by_cases hg : g = f
  · rw [hg, Function.update_self]
    exact hside
  · rw [Function.update_of_ne hg]

/-- what the other acceptor carries afterwards -/
theorem setSide_carried_some (s : Listener) (f : Family) (side : AcceptSide) (g : Family)
    (c : AcceptNo) (hnone : side.carried = none)
    (h : ((s.setSide f side).sides g).carried = some c) : g ≠ f ∧ (s.sides g).carried = some c := by
  have h : (Function.update s.sides f side g).carried = some c := h
  by_cases hg : g = f
  · rw [hg, Function.update_self, hnone] at h
    cases h
  · rw [Function.update_of_ne hg] at h
    exact ⟨hg, h⟩

/-- **A handler lets go of its connection**: it hands it over, or it may drop it. -/
theorem AcceptsKept.release {s : Listener} (h : AcceptsKept s) (f : Family) (side : AcceptSide)
    (c : AcceptNo) (calls : List Sock) (hside : side.Ok (s.construct.started f))
    (hc : (s.sides f).carried = some c) (hnone : side.carried = none)
    (hcalls : calls = [.connected c] ∨ calls = [] ∧ (f, c) ∉ s.accepted) :
    AcceptsKept { s.setSide f side with handed := s.handed ++ calls } := by
  have hmem : ∀ d, .connected d ∈ s.handed ++ calls → .connected d ∈ s.handed ∨ d = c := by
    intro d hd
    rcases List.mem_append.mp hd with hd | hd
    · exact .inl hd
    · rcases hcalls with rfl | ⟨rfl, -⟩
      · exact .inr (Sock.connected.inj (List.mem_singleton.mp hd))
      · cases hd
  refine ⟨setSide_ok s f side _ hside fun g _ => h.side g, ?_, ?_, ?_, ?_, ?_, ?_⟩
  · intro g d hd
    exact h.carried_lt g d (setSide_carried_some s f side g d hnone hd).2
  · intro g d hd hin
    obtain ⟨hg, hd⟩ := setSide_carried_some s f side g d hnone hd
    rcases hmem d hin with hin | rfl
    · exact h.carried_new g d hd hin
    · exact hg (h.carried_one g f d hd hc)
  · intro g g' d hd hd'
    exact h.carried_one g g' d (setSide_carried_some s f side g d hnone hd).2
      (setSide_carried_some s f side g' d hnone hd').2
  · intro d hd
    rcases hmem d hd with hd | rfl
    · exact h.handed_lt d hd
    · exact h.carried_lt f d hc
  · show (s.handed ++ calls).Nodup
    rcases hcalls with rfl | ⟨rfl, -⟩
    · exact List.nodup_append_comm.mp (List.nodup_cons.mpr ⟨h.carried_new f c hc, h.handed_nodup⟩)
    · rw [List.append_nil]
      exact h.handed_nodup
  · intro g d hd
    show (Function.update s.sides f side g).carried = some d ∨ .connected d ∈ s.handed ++ calls
    rcases h.accepted g d hd with hcar | hin
    · by_cases hg : g = f
      · subst hg
        obtain rfl : c = d := Option.some.inj (hc.symm.trans hcar)
        rcases hcalls with rfl | ⟨-, hnot⟩
        · exact .inr (List.mem_append_right _ (List.mem_singleton.mpr rfl))
        · exact absurd hd hnot
      · rw [Function.update_of_ne hg]
        exact .inl hcar
    · exact .inr (List.mem_append_left _ hin)

/-! ## steps -/

/-- a step of the constructor, which carries nothing -/
theorem acceptsKept_construct (s t : Listener) (h : AcceptsKept s)
    (hs : s.constructStep = some t) : AcceptsKept t := by
  have hside : t.SidesOk := sidesOk_step s .construct t h.side hs
  have hkeep : (∀ f, (t.sides f).carried = (s.sides f).carried) ∧ t.next = s.next ∧
      t.accepted = s.accepted ∧ t.handed = s.handed := by
    rw [Listener.constructStep] at hs
    split at hs
    · obtain rfl := Option.some.inj hs
      exact ⟨setSide_carried s .v4 _ rfl, rfl, rfl, rfl⟩
    · obtain rfl := Option.some.inj hs
      exact ⟨setSide_carried s .v6 _ rfl, rfl, rfl, rfl⟩
    · obtain rfl := Option.some.inj hs
      exact ⟨fun _ => rfl, rfl, rfl, rfl⟩
    · cases hs
  obtain ⟨hcarried, hnext, haccepted, hhanded⟩ := hkeep
  exact h.same hside hcarried hnext haccepted hhanded

theorem acceptsKept_close (k : Nat) (s t : Listener) (h : AcceptsKept s)
    (hs : s.closeStep k = some t) : AcceptsKept t := by
  have hside : t.SidesOk := sidesOk_step s (.close k) t h.side hs
  have hkeep : t.sides = s.sides ∧ t.next = s.next ∧ t.accepted = s.accepted ∧
      t.handed = s.handed := by
    simp only [Listener.closeStep] at hs
    split at hs
    · obtain ⟨-, rfl⟩ := of_guard hs
      exact ⟨rfl, rfl, rfl, rfl⟩
    all_goals
      rw [← Option.some.inj hs]
      exact ⟨rfl, rfl, rfl, rfl⟩
  obtain ⟨hsides, hnext, haccepted, hhanded⟩ := hkeep
  exact h.same hside (fun f => by rw [hsides]) hnext haccepted hhanded

theorem acceptsKept_fail (f : Family) (s t : Listener) (h : AcceptsKept s)
    (hs : listenerStep s (.fail f) = some t) : AcceptsKept t := by
  have hside : t.SidesOk := sidesOk_step s (.fail f) t h.side hs
  obtain ⟨hout, rfl⟩ := of_guard hs
  obtain ⟨hidle, -⟩ := (h.side f).idle hout
  refine h.same hside (setSide_carried s f _ ?_) rfl rfl rfl
  show none = (s.sides f).carried
  unfold AcceptSide.carried
  rw [hidle]

theorem acceptsKept_accept (f : Family) (s t : Listener) (h : AcceptsKept s)
    (hs : listenerStep s (.accept f) = some t) : AcceptsKept t := by
  have hside : t.SidesOk := sidesOk_step s (.accept f) t h.side hs
  obtain ⟨⟨hout, -, -⟩, rfl⟩ := of_guard hs
  obtain ⟨hidle, -⟩ := (h.side f).idle hout
  let side := (s.sides f).complete (some s.next)
  have hempty : (s.sides f).carried = none := by
    unfold AcceptSide.carried
    rw [hidle]
  -- the new connection is carried by `f`, and any other one as before
  have hcarried : ∀ g c, ((s.setSide f side).sides g).carried = some c →
      (g = f ∧ c = s.next) ∨ (g ≠ f ∧ (s.sides g).carried = some c) := by
    intro g c hc
    have hc : (Function.update s.sides f side g).carried = some c := hc
    by_cases hg : g = f
    · rw [hg, Function.update_self] at hc
      exact .inl ⟨hg, (Option.some.inj hc).symm⟩
    · rw [Function.update_of_ne hg] at hc
      exact .inr ⟨hg, hc⟩
  have hnew : .connected s.next ∉ s.handed := fun hin =>
    Nat.lt_irrefl s.next (h.handed_lt s.next hin)
  have hlt : ∀ g c, (s.sides g).carried = some c → c ≠ s.next := fun g c hc he =>
    Nat.lt_irrefl s.next (he ▸ h.carried_lt g c hc)
  refine ⟨hside, ?_, ?_, ?_, fun c hc => Nat.lt_succ_of_lt (h.handed_lt c hc), h.handed_nodup, ?_⟩
  · intro g c hc
    rcases hcarried g c hc with ⟨-, rfl⟩ | ⟨-, hc⟩
    · exact Nat.lt_succ_self s.next
    · exact Nat.lt_succ_of_lt (h.carried_lt g c hc)
  · intro g c hc
    rcases hcarried g c hc with ⟨-, rfl⟩ | ⟨-, hc⟩
    · exact hnew
    · exact h.carried_new g c hc
  · intro g g' c hc hc'
    rcases hcarried g c hc with ⟨rfl, rfl⟩ | ⟨-, hc⟩
    · rcases hcarried g' s.next hc' with ⟨hg', -⟩ | ⟨-, hc'⟩
      · exact hg'.symm
      · exact absurd rfl (hlt g' _ hc')
    · rcases hcarried g' c hc' with ⟨-, rfl⟩ | ⟨-, hc'⟩
      · exact absurd rfl (hlt g _ hc)
      · exact h.carried_one g g' c hc hc'
  · intro g c hc
    show (Function.update s.sides f side g).carried = some c ∨ .connected c ∈ s.handed
    have hc : (g, c) ∈ s.accepted ∨ (g, c) = (f, s.next) := by
      cases hcalled : s.closeCalled with
      | true =>
        simp only [hcalled, if_true] at hc
        exact .inl hc
      | false =>
        simp only [hcalled, Bool.false_eq_true, if_false] at hc
        rcases List.mem_append.mp hc with hc | hc
        · exact .inl hc
        · exact .inr (List.mem_singleton.mp hc)
    rcases hc with hc | hc
    · rcases h.accepted g c hc with hcar | hin
      · have hg : g ≠ f := by
          rintro rfl
          cases hempty.symm.trans hcar
        rw [Function.update_of_ne hg]
        exact .inl hcar
      · exact .inr hin
    · obtain ⟨rfl, rfl⟩ := Prod.mk.inj hc
      rw [Function.update_self]
      exact .inl rfl

theorem acceptsKept_handle (f : Family) (s t : Listener) (h : AcceptsKept s)
    (hl : SeesOpen s (.handle f)) (hs : listenerStep s (.handle f) = some t) : AcceptsKept t := by
  obtain ⟨side, calls, hstep, rfl⟩ := listenerStep_handle f s t hs
  obtain ⟨hside, hcases⟩ := handler_cases _ _ _ _ _ (h.side f) hstep
  rcases hcases with ⟨rfl, hsame⟩ | ⟨c, hcalls, hc, hnone⟩ | ⟨c, htest, hclosed, hcalls, hc, hnone⟩
  · exact h.same (setSide_ok s f side _ hside fun g _ => h.side g) (setSide_carried s f side hsame)
      rfl rfl (List.append_nil _)
  · exact h.release f side c calls hside hc hnone (.inl hcalls)
  · refine h.release f side c calls hside hc hnone (.inr ⟨hcalls, fun hin => ?_⟩)
    cases hclosed.symm.trans (hl c htest hin)

theorem acceptsKept_step (s : Listener) (l : ListenerLabel) (t : Listener) (h : AcceptsKept s)
    (hl : SeesOpen s l) (hs : listenerStep s l = some t) : AcceptsKept t := by
  cases l with
  | construct => exact acceptsKept_construct s t h hs
  | accept f => exact acceptsKept_accept f s t h hs
  | fail f => exact acceptsKept_fail f s t h hs
  | handle f => exact acceptsKept_handle f s t h hl hs
  | close k => exact acceptsKept_close k s t h hs

/-- **Any other step loses a connection.** -/
theorem dropped_step (s : Listener) (l : ListenerLabel) (t : Listener) (h : AcceptsKept s)
    (hl : ¬ SeesOpen s l) (hs : listenerStep s l = some t) : ¬ NoneLost t := by
  cases l with
  | construct => exact absurd trivial hl
  | accept f => exact absurd trivial hl
  | fail f => exact absurd trivial hl
  | close k => exact absurd trivial hl
  | handle f =>
    simp only [SeesOpen, not_forall] at hl
    obtain ⟨c, htest, hin, hclosed⟩ := hl
    have hcarried : (s.sides f).carried = some c := by
      unfold AcceptSide.carried
      rw [htest]
      rfl
    obtain ⟨side, calls, hstep, rfl⟩ := listenerStep_handle f s t hs
    simp only [AcceptSide.handler, htest, Bool.eq_false_iff.mpr hclosed, Bool.not_false, true_or,
      if_true] at hstep
    obtain ⟨rfl, rfl⟩ := Prod.mk.inj (Option.some.inj hstep)
    intro hnone
    have honce := hnone.once f c hin
    have hgone : ((s.setSide f { s.sides f with stage := .replace }).sides f).carried = none := by
      show (Function.update s.sides f _ f).carried = none
      rw [Function.update_self]
      rfl
    have hcount : (s.handed ++ []).count (Sock.connected c) = 0 := by
      rw [List.append_nil]
      exact List.count_eq_zero.mpr (h.carried_new f c hcarried)
    rw [hgone] at honce
    cases hcount.symm.trans honce

/-- **No connection accepted before `close_listener` is lost exactly in the runs in which the
handler of every such connection finds `listener_open` set**, for any order of the constructor, the
two acceptors and the calls of `close_listener`, and any first value of the flag. -/
theorem noneLost_iff (prior : Bool) (ls : List ListenerLabel) (s : Listener)
    (h : exec listenerStep (Listener.init prior) ls = some s) :
    Always listenerStep NoneLost (Listener.init prior) ls ↔
      Every listenerStep SeesOpen (Listener.init prior) ls :=
  always_iff_every (fun _ hk => hk.noneLost) acceptsKept_step dropped_step
    (acceptsKept_init prior) ls h

/-- a connection that is accepted before the constructor has set the flag, and tested afterwards -/
theorem noneLost_iff_early :
    Always listenerStep NoneLost (Listener.init false)
      [.construct, .accept .v4, .construct, .construct, .handle .v4, .handle .v4] := by
  refine (noneLost_iff false _ _ rfl).mpr ?_
  rw [every_cons rfl, every_cons rfl, every_cons rfl, every_cons rfl, every_cons rfl,
    every_cons rfl]
  refine ⟨trivial, trivial, trivial, trivial, fun c htest => ?_, fun c _ _ => rfl, trivial⟩
  cases htest

/-- a connection is accepted and tested while the constructor has yet to set the flag, which
happens to be cleared -/
theorem accept_lost :
    ∃ s, exec listenerStep (Listener.init false)
        [.construct, .accept .v4, .handle .v4, .handle .v4, .handle .v4, .handle .v4,
          .construct, .construct] = some s ∧
      s.accepted = [(.v4, 0)] ∧ s.handed = [] ∧ s.sides .v4 = ⟨.fresh, true, .idle⟩ ∧
      s.listenerOpen = true ∧ s.closeCalled = false ∧ ¬ NoneLost s := by
  refine ⟨_, rfl, rfl, rfl, rfl, rfl, rfl, fun h => ?_⟩
  have honce := h.once .v4 0 (List.mem_singleton.mpr rfl)
  cases honce

end VoltNet
