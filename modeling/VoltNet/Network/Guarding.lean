import VoltNet.Network.Destructor

/-!
# The threads beside `~network`

* `Begun`              the calls of `close_con` on a connection, and whether they have called back;
* `Callers`            who is in which call;
* `Guarding`           who holds the guard;
* `begun_step`, `callers_call`, `callers_advance`, `callers_leave`, `guarding_step`   what the steps
                       do to them.
-/

namespace VoltNet
open Runs

/-! ## the calls on one connection -/

/-- the calls on a connection that was open at first or not, in a network with a closed callback or
without -/
structure Begun (wasOpen callback : Bool) (c : CloseState) : Prop where
  recorded : Recorded c
  past : ∀ k call, c.calls k = some call → call ≠ .entered → call ≠ .passed → c.conOpen = false
  closer : wasOpen = true → c.conOpen = false → ∃ k, Won c.calls k
  shut : wasOpen = false → c.conOpen = false ∧ ∀ k, ¬ Won c.calls k
  quiet : callback = true → c.notified = []

theorem begun_past {wasOpen callback : Bool} {c c' : CloseState} (l : CloseLabel)
    (h : Begun wasOpen callback c) (hs : closeStep c l = some c') (j : CallId) (call : CloseCall)
    (hj : c'.calls j = some call) (hentered : call ≠ .entered) (hpassed : call ≠ .passed) :
    c'.conOpen = false := by
  by_contra hopen
  have hbefore := closeStep_opens c c' l hs (eq_true_of_ne_false hopen)
  have hold : ∀ call', c.calls j = some call' → call' = .entered ∨ call' = .passed := by
    intro call' hcall'
    by_contra hnot
    obtain ⟨h1, h2⟩ := not_or.mp hnot
    rw [h.past j call' hcall' h1 h2] at hbefore
    cases hbefore
  cases l with
  | call k =>
    obtain ⟨-, rfl⟩ := closeStep_call c c' k hs
    by_cases hjk : j = k
    · rw [hjk, move_self] at hj
      exact hentered (Option.some.inj hj).symm
    · rw [move_ne c _ hjk] at hj
      exact (hold call hj).elim hentered hpassed
  | advance k =>
    by_cases hjk : j = k
    · subst hjk
      cases closeStep_advance c c' j hs with
      | skip _ hclosed =>
        rw [hclosed] at hbefore
        cases hbefore
      | pass =>
        rw [move_self] at hj
        exact hpassed (Option.some.inj hj).symm
      | store => exact hopen rfl
      | cancel h' | throw h' | sockClose h' | invoke h' | leave h' =>
        rcases hold _ h' with e | e <;> cases e
    · rw [closeStep_other c c' k j hs hjk] at hj
      exact (hold call hj).elim hentered hpassed

/-- the store of `con_open` belongs to a call that the guard has let through -/
theorem begun_closer {wasOpen callback : Bool} {c c' : CloseState} (l : CloseLabel)
    (h : Begun wasOpen callback c) (hs : closeStep c l = some c') (hwas : wasOpen = true)
    (hclosed : c'.conOpen = false) : ∃ k, Won c'.calls k := by
  cases hopen : c.conOpen with
  | false =>
    obtain ⟨k, hk⟩ := h.closer hwas hopen
    exact ⟨k, won_step c c' l hs k hk⟩
  | true =>
    -- the store is what has just been made
    cases l with
    | call k =>
      obtain ⟨-, rfl⟩ := closeStep_call c c' k hs
      exact absurd (hopen.symm.trans hclosed) (by decide)
    | advance k =>
      cases closeStep_advance c c' k hs with
      | store => exact ⟨k, _, move_self c k _, rfl⟩
      | skip _ hskip => exact absurd (hopen.symm.trans hskip) (by decide)
      | pass | cancel | throw | sockClose | invoke | leave =>
        exact absurd (hopen.symm.trans hclosed) (by decide)

/-- a connection that was closed lets nothing through -/
theorem begun_shut {wasOpen callback : Bool} {c c' : CloseState} (l : CloseLabel)
    (h : Begun wasOpen callback c) (hs : closeStep c l = some c') (hwas : wasOpen = false) :
    c'.conOpen = false ∧ ∀ k, ¬ Won c'.calls k := by
  obtain ⟨hclosed, hnone⟩ := h.shut hwas
  refine ⟨?_, fun j hj => ?_⟩
  · by_contra hopen
    rw [closeStep_opens c c' l hs (eq_true_of_ne_false hopen)] at hclosed
    cases hclosed
  · cases l with
    | call k =>
      obtain ⟨-, rfl⟩ := closeStep_call c c' k hs
      by_cases hjk : j = k
      · rw [hjk, won_of_eq (move_self c k _)] at hj
        cases hj
      · exact hnone j ((won_ne hjk).mp hj)
    | advance k =>
      rcases won_advance c c' k (closeStep_advance c c' k hs) j with hiff | ⟨-, hopen, -⟩
      · exact hnone j (hiff.mp hj)
      · rw [hclosed] at hopen
        cases hopen

theorem begun_quiet {wasOpen callback : Bool} {c c' : CloseState} (l : CloseLabel)
    (h : Begun wasOpen callback c) (hs : closeStep c l = some c')
    (hquiet : ∀ k, l = .advance k → c.calls k = some .sockClosed → callback = false)
    (hcb : callback = true) : c'.notified = [] := by
  cases l with
  | call k =>
    obtain ⟨-, rfl⟩ := closeStep_call c c' k hs
    exact h.quiet hcb
  | advance k =>
    cases closeStep_advance c c' k hs with
    | invoke hk =>
      rw [hquiet k rfl hk] at hcb
      cases hcb
    | skip | pass | store | cancel | throw | sockClose | leave => exact h.quiet hcb

theorem begun_step {wasOpen callback : Bool} {c c' : CloseState} (l : CloseLabel)
    (h : Begun wasOpen callback c) (hs : closeStep c l = some c')
    (hquiet : ∀ k, l = .advance k → c.calls k = some .sockClosed → callback = false) :
    Begun wasOpen callback c' where
  recorded := recorded_step c c' l h.recorded hs
  past := begun_past l h hs
  closer := begun_closer l h hs
  shut := begun_shut l h hs
  quiet := begun_quiet l h hs hquiet

/-- calls that have all returned, on a connection that was closed meanwhile, have called back -/
theorem Begun.calledBack {callback : Bool} {c : CloseState} (h : Begun true callback c)
    (hclosed : c.conOpen = false) (hall : AllReturned c) : callback = false := by
  by_contra hcb
  obtain ⟨k, hk⟩ := h.closer rfl hclosed
  have hmem := won_notified h.recorded hall hk
  rw [h.quiet (eq_true_of_ne_false hcb)] at hmem
  cases hmem

/-! ## who is in which call -/

/-- how far the call is that a thread is in -/
def ShutdownState.progress (s : ShutdownState) (who : Actor) : Option CloseCall :=
  (s.current who).bind fun x => (s.closing x.1).calls x.2

theorem progress_of_eq {t : ShutdownState} {who : Actor} {r : ConRef} {k : CallId}
    (h : t.current who = some (r, k)) : t.progress who = (t.closing r).calls k := by
  rw [ShutdownState.progress, h]
  rfl

theorem progress_idle {t : ShutdownState} {who : Actor} (h : t.current who = none) :
    t.progress who = none := by
  rw [ShutdownState.progress, h]
  rfl

structure Callers (refs : List ConRef) (t : ShutdownState) : Prop where
  made : ∀ who r k, t.current who = some (r, k) →
    r ∈ refs ∧ ∃ call, (t.closing r).calls k = some call
  distinct : ∀ who who' r r' k, t.current who = some (r, k) → t.current who' = some (r', k) →
    who = who'
  fresh : ∀ r k call, (t.closing r).calls k = some call → k < t.next
  owned : ∀ r k call, (t.closing r).calls k = some call →
    call = .returned ∨ call = .skipped ∨ ∃ who, t.current who = some (r, k)
  alive : ∀ j x, t.current (.thread j) = some x → t.ended j = false

section
variable {refs : List ConRef} {t : ShutdownState}

theorem Callers.lt_next (h : Callers refs t) {who : Actor} {r : ConRef} {k : CallId}
    (hcur : t.current who = some (r, k)) : k < t.next := by
  obtain ⟨-, call, hcall⟩ := h.made who r k hcur
  exact h.fresh r k call hcall

/-- where the calls are after a step of `close_con` on `r` -/
theorem calls_withClosing {r q : ConRef} {c : CloseState} {l : CloseLabel}
    (hc : closeStep (t.closing r) l = some c) (j : CallId)
    (hj : ∀ k, l = .call k ∨ l = .advance k → q = r → j ≠ k) :
    ((t.withClosing r c).closing q).calls j = (t.closing q).calls j := by
  rw [closing_withClosing t r q c (closeStep_opens _ c l hc)]
  by_cases hq : q = r
  · rw [if_pos hq, hq]
    cases l with
    | call k =>
      obtain ⟨-, rfl⟩ := closeStep_call _ c k hc
      exact move_ne _ _ (hj k (.inl rfl) hq)
    | advance k => exact closeStep_other _ c k j hc (hj k (.inr rfl) hq)
  · rw [if_neg hq]

theorem closing_self {r : ConRef} {c : CloseState} {l : CloseLabel}
    (hc : closeStep (t.closing r) l = some c) : (t.withClosing r c).closing r = c := by
  rw [closing_withClosing t r r c (closeStep_opens _ c l hc), if_pos rfl]

/-- a new call on `r` leaves the others where they are -/
theorem calls_called {r : ConRef} {c : CloseState} {new : CallId}
    (hc : closeStep (t.closing r) (.call new) = some c) (q : ConRef) {j : CallId} (hj : j ≠ new) :
    ((t.withClosing r c).closing q).calls j = (t.closing q).calls j := by
  refine calls_withClosing hc j fun k hk _ => ?_
  rcases hk with hk | hk <;> cases hk
  exact hj

theorem calls_new {r : ConRef} {c : CloseState} {new : CallId}
    (hc : closeStep (t.closing r) (.call new) = some c) :
    ((t.withClosing r c).closing r).calls new = some .entered := by
  rw [closing_self hc, (closeStep_call _ c _ hc).2]
  exact move_self _ _ _

theorem callers_call (h : Callers refs t) (who : Actor) (r : ConRef) (stage : ShutdownStage)
    (c : CloseState) (hidle : t.current who = none) (hwho : Calls refs t who r stage)
    (hc : closeStep (t.closing r) (.call t.next) = some c) :
    Callers refs { t.withClosing r c with
      current := Function.update t.current who (some (r, t.next))
      next := t.next + 1
      stage := stage } := by
  have hr : r ∈ refs := by
    cases hwho with
    | loop i n _ hi _ => exact List.getElem_mem hi
    | pool j r _ hr => exact hr
  have hcur : ∀ w q k, Function.update t.current who (some (r, t.next)) w = some (q, k) →
      (w = who ∧ q = r ∧ k = t.next) ∨ (w ≠ who ∧ t.current w = some (q, k) ∧ k ≠ t.next) := by
    intro w q k hw
    by_cases hwho : w = who
    · rw [hwho, Function.update_self] at hw
      cases hw
      exact .inl ⟨hwho, rfl, rfl⟩
    · rw [Function.update_of_ne hwho] at hw
      exact .inr ⟨hwho, hw, Nat.ne_of_lt (h.lt_next hw)⟩
  refine ⟨fun w q k hw => ?_, fun w w' q q' k hw hw' => ?_, fun q k call hk => ?_,
    fun q k call hk => ?_, fun j x hj => ?_⟩
  · rcases hcur w q k hw with ⟨-, rfl, rfl⟩ | ⟨-, hw, hk⟩
    · exact ⟨hr, _, calls_new hc⟩
    · obtain ⟨hq, call, hcall⟩ := h.made w q k hw
      exact ⟨hq, call, (calls_called hc q hk).trans hcall⟩
  · rcases hcur w q k hw with ⟨rfl, -, hk⟩ | ⟨-, hw, hk⟩
    · rcases hcur w' q' k hw' with ⟨rfl, -, -⟩ | ⟨-, -, hk'⟩
      · rfl
      · exact absurd hk hk'
    · rcases hcur w' q' k hw' with ⟨-, -, hk'⟩ | ⟨-, hw', -⟩
      · exact absurd hk' hk
      · exact h.distinct w w' q q' k hw hw'
  · by_cases hk' : k = t.next
    · rw [hk']
      exact Nat.lt_succ_self _
    · have hk : ((t.withClosing r c).closing q).calls k = some call := hk
      rw [calls_called hc q hk'] at hk
      exact Nat.lt_succ_of_lt (h.fresh q k call hk)
  · have hk : ((t.withClosing r c).closing q).calls k = some call := hk
    by_cases hk' : k = t.next
    · by_cases hq : q = r
      · subst hq hk'
        exact .inr (.inr ⟨who, Function.update_self ..⟩)
      · rw [closing_withClosing t r q c (closeStep_opens _ c _ hc), if_neg hq, hk'] at hk
        exact absurd (h.fresh q _ call hk) (Nat.lt_irrefl _)
    · rw [calls_called hc q hk'] at hk
      refine (h.owned q k call hk).imp_right fun h' => h'.imp_right fun ⟨w, hw⟩ => ⟨w, ?_⟩
      have hne : w ≠ who := by
        rintro rfl
        rw [hidle] at hw
        cases hw
      exact (Function.update_of_ne hne ..).trans hw
  · show t.ended j = false
    by_cases hj' : Actor.thread j = who
    · cases hwho with
      | loop => cases hj'
      | pool j' r hend => cases hj'; exact hend
    · exact h.alive j x ((Function.update_of_ne hj' ..).symm.trans hj)

theorem callers_advance (h : Callers refs t) (who : Actor) (r : ConRef) (k : CallId)
    (c : CloseState) (g : Guard) (hcur : t.current who = some (r, k))
    (hc : closeStep (t.closing r) (.advance k) = some c) :
    Callers refs { t.withClosing r c with guard := g } := by
  have hold : ∀ q j, ¬ (q = r ∧ j = k) → ((t.withClosing r c).closing q).calls j
      = (t.closing q).calls j := by
    intro q j hj
    refine calls_withClosing hc j fun k' hk' hq => ?_
    rcases hk' with hk' | hk' <;> cases hk'
    exact fun e => hj ⟨hq, e⟩
  obtain ⟨hr, old, hcall⟩ := h.made who r k hcur
  have hself : ∃ call, ((t.withClosing r c).closing r).calls k = some call := by
    rw [closing_self hc]
    cases closeStep_advance _ c k hc <;> exact ⟨_, move_self _ _ _⟩
  refine ⟨fun w q j hw => ?_, h.distinct, fun q j call hj => ?_, fun q j call hj => ?_, h.alive⟩
  · obtain ⟨hq, call, hj⟩ := h.made w q j hw
    refine ⟨hq, ?_⟩
    by_cases hsame : q = r ∧ j = k
    · obtain ⟨rfl, rfl⟩ := hsame
      exact hself
    · exact ⟨call, (hold q j hsame).trans hj⟩
  · by_cases hsame : q = r ∧ j = k
    · rw [hsame.2]
      exact h.lt_next hcur
    · exact h.fresh q j call ((hold q j hsame).symm.trans hj)
  · by_cases hsame : q = r ∧ j = k
    · obtain ⟨rfl, rfl⟩ := hsame
      exact .inr (.inr ⟨who, hcur⟩)
    · exact h.owned q j call ((hold q j hsame).symm.trans hj)

theorem callers_leave (h : Callers refs t) (who : Actor) (r : ConRef) (k : CallId)
    (call : CloseCall) (hcur : t.current who = some (r, k))
    (hcall : (t.closing r).calls k = some call) (hend : call = .returned ∨ call = .skipped) :
    Callers refs { t with current := Function.update t.current who none } := by
  have hold : ∀ w x, Function.update t.current who none w = some x → t.current w = some x := by
    intro w x hw
    by_cases hne : w = who
    · rw [hne, Function.update_self] at hw
      cases hw
    · rwa [Function.update_of_ne hne] at hw
  refine ⟨fun w q j hw => h.made w q j (hold w _ hw), fun w w' q q' j hw hw' =>
    h.distinct w w' q q' j (hold w _ hw) (hold w' _ hw'), h.fresh, fun q j call' hj => ?_,
    fun j x hj => h.alive j x (hold _ x hj)⟩
  have hj : (t.closing q).calls j = some call' := hj
  rcases h.owned q j call' hj with h' | h' | ⟨w, hw⟩
  · exact .inl h'
  · exact .inr (.inl h')
  · by_cases hne : w = who
    · rw [hne, hcur] at hw
      cases hw
      rw [hcall] at hj
      rw [← Option.some.inj hj]
      exact hend.imp_right .inl
    · exact .inr (.inr ⟨w, (Function.update_of_ne hne ..).trans hw⟩)

end

/-! ## the guard -/

theorem lock_owner {g g' : Guard} {who : Actor} (h : g.lock who = some g') :
    g'.map Prod.fst = some who ∧ ∀ w, g.map Prod.fst = some w → w = who := by
  cases g with
  | none =>
    rw [← Option.some.inj h]
    exact ⟨rfl, nofun⟩
  | some x =>
    obtain ⟨owner, n⟩ := x
    obtain ⟨rfl, rfl⟩ := of_guard h
    exact ⟨rfl, fun w hw => (Option.some.inj hw).symm⟩

theorem unlock_owner {g : Guard} {w : Actor} (h : g.unlock.map Prod.fst = some w) :
    g.map Prod.fst = some w := by
  cases g with
  | none => exact h
  | some x =>
    obtain ⟨owner, n⟩ := x
    cases n with
    | zero => cases h
    | succ n => exact h

/-- the guard is held inside of the closed callback and by the loop, and by no thread that has
ended -/
structure Guarding (t : ShutdownState) : Prop where
  inside : ∀ who, t.progress who = some .inCallback → t.owner = some who
  pool : ∀ j, t.owner = some (.thread j) → t.ended j = false
  loop : ∀ i n, t.stage = .loop i n →
    t.guard = some (.destructor, if t.progress .destructor = some .inCallback then 1 else 0)
  outside : t.owner = some .destructor → ∃ i n, t.stage = .loop i n

section
variable {refs : List ConRef} {t : ShutdownState}

theorem Guarding.loop_owner (h : Guarding t) {i n : Nat} (hst : t.stage = .loop i n) :
    t.owner = some .destructor := by
  rw [ShutdownState.owner, h.loop i n hst]
  rfl

/-- who is in the callback, who holds the guard and where the destructor is has stayed the same -/
theorem Guarding.congr (h : Guarding t) {u : ShutdownState}
    (hsame : ∀ w, u.progress w = some .inCallback ↔ t.progress w = some .inCallback)
    (hguard : u.guard = t.guard) (hended : u.ended = t.ended) (hstage : u.stage = t.stage) :
    Guarding u := by
  have howner : u.owner = t.owner := congrArg (Option.map Prod.fst) hguard
  refine ⟨fun w hw => ?_, fun j hj => ?_, fun i n hst => ?_, fun hd => ?_⟩
  · exact howner.trans (h.inside w ((hsame w).mp hw))
  · rw [hended]
    exact h.pool j (howner.symm.trans hj)
  · refine (hguard.trans (h.loop i n (hstage.symm.trans hst))).trans ?_
    exact congrArg (fun d => some (Actor.destructor, d)) (if_congr (hsame _).symm rfl rfl)
  · rw [hstage]
    exact h.outside (howner.symm.trans hd)

theorem progress_call (h : Callers refs t) (who : Actor) (r : ConRef) (stage : ShutdownStage)
    (c : CloseState) (hc : closeStep (t.closing r) (.call t.next) = some c) (w : Actor) :
    ShutdownState.progress { t.withClosing r c with
        current := Function.update t.current who (some (r, t.next))
        next := t.next + 1
        stage := stage } w
      = if w = who then some .entered else t.progress w := by
  show (Function.update t.current who (some (r, t.next)) w).bind
    (fun x => ((t.withClosing r c).closing x.1).calls x.2) = _
  by_cases hw : w = who
  · rw [if_pos hw, hw, Function.update_self]
    exact calls_new hc
  · rw [if_neg hw, Function.update_of_ne hw, ShutdownState.progress]
    cases hcur : t.current w with
    | none => rfl
    | some x => exact calls_called hc x.1 (Nat.ne_of_lt (h.lt_next hcur))

theorem progress_advance (h : Callers refs t) (who : Actor) (r : ConRef) (k : CallId)
    (c : CloseState) (g : Guard) (hcur : t.current who = some (r, k))
    (hc : closeStep (t.closing r) (.advance k) = some c) (w : Actor) :
    ShutdownState.progress { t.withClosing r c with guard := g } w
      = if w = who then c.calls k else t.progress w := by
  show (t.current w).bind (fun x => ((t.withClosing r c).closing x.1).calls x.2) = _
  by_cases hw : w = who
  · rw [if_pos hw, hw, hcur]
    show ((t.withClosing r c).closing r).calls k = c.calls k
    rw [closing_self hc]
  · rw [if_neg hw, ShutdownState.progress]
    cases hw' : t.current w with
    | none => rfl
    | some x =>
      obtain ⟨q, j⟩ := x
      refine calls_withClosing hc j fun k' hk' _ => ?_
      rcases hk' with hk' | hk' <;> cases hk'
      rintro rfl
      exact hw (h.distinct w who q r j hw' hcur)

theorem progress_leave (who w : Actor) :
    ShutdownState.progress { t with current := Function.update t.current who none } w
      = if w = who then none else t.progress w := by
  show (Function.update t.current who none w).bind (fun x => (t.closing x.1).calls x.2) = _
  by_cases hw : w = who
  · rw [if_pos hw, hw, Function.update_self]
    rfl
  · rw [if_neg hw, Function.update_of_ne hw]
    rfl

theorem guarding_call (h : Guarding t) (hcallers : Callers refs t) (who : Actor) (r : ConRef)
    (stage : ShutdownStage) (c : CloseState) (hidle : t.current who = none)
    (hwho : Calls refs t who r stage)
    (hc : closeStep (t.closing r) (.call t.next) = some c) :
    Guarding { t.withClosing r c with
      current := Function.update t.current who (some (r, t.next))
      next := t.next + 1
      stage := stage } := by
  have hprog := progress_call hcallers who r stage c hc
  have hnone : t.progress who = none := progress_idle hidle
  -- nobody gets into the callback or out of it
  have hsame : ∀ w, ShutdownState.progress { t.withClosing r c with
      current := Function.update t.current who (some (r, t.next))
      next := t.next + 1
      stage := stage } w = some .inCallback ↔ t.progress w = some .inCallback := by
    intro w
    rw [hprog]
    by_cases hw : w = who
    · rw [if_pos hw, hw, hnone]
      exact iff_of_false (by decide) (by decide)
    · rw [if_neg hw]
  refine ⟨fun w hw => h.inside w ((hsame w).mp hw), h.pool, fun i n hst => ?_, fun howner => ?_⟩
  · have hguard : ∃ i n, t.stage = .loop i n := by
      cases hwho with
      | loop i n hst' => exact ⟨i, n, hst'⟩
      | pool => exact ⟨i, n, hst⟩
    obtain ⟨i', n', hst'⟩ := hguard
    show t.guard = _
    rw [h.loop i' n' hst']
    simp only [hsame]
  · obtain ⟨i, n, hst⟩ := h.outside howner
    cases hwho with
    | loop i n => exact ⟨i + 1, n, rfl⟩
    | pool => exact ⟨i, n, hst⟩

theorem advance_inCallback {c c' : CloseState} {k : CallId} {call : CloseCall}
    (hcall : c.calls k = some call) (hc : closeStep c (.advance k) = some c') :
    c'.calls k = some .inCallback ↔ call = .sockClosed := by
  cases closeStep_advance c c' k hc with
  | invoke h => exact iff_of_true (move_self _ _ _) (Option.some.inj (hcall.symm.trans h))
  | skip h | pass h | store h | cancel h | throw h | sockClose h | leave h =>
    obtain rfl := Option.some.inj (hcall.symm.trans h)
    exact iff_of_false (fun e => by cases (move_self _ _ _).symm.trans e) (by decide)

/-- `close_con` goes into the closed callback, and takes the guard -/
theorem guarding_enter (h : Guarding t) (hcallers : Callers refs t)
    (hin : ∀ x, t.current .destructor = some x → ∃ i n, t.stage = .loop i n) (who : Actor)
    (r : ConRef) (k : CallId) (c : CloseState) (g : Guard) (hcur : t.current who = some (r, k))
    (hcall : (t.closing r).calls k = some .sockClosed)
    (hc : closeStep (t.closing r) (.advance k) = some c) (hg : t.guard.lock who = some g) :
    Guarding { t.withClosing r c with guard := g } := by
  have hprog := progress_advance hcallers who r k c g hcur hc
  have hbefore : t.progress who = some .sockClosed := (progress_of_eq hcur).trans hcall
  obtain ⟨howner, hfirst⟩ := lock_owner hg
  refine ⟨fun w hw => ?_, fun j hj => ?_, fun i n hst => ?_, fun hd => ?_⟩
  · by_cases hw' : w = who
    · rw [hw']
      exact howner
    · rw [hprog, if_neg hw'] at hw
      exact absurd (hfirst w (h.inside w hw)) hw'
  · obtain rfl := Option.some.inj (howner.symm.trans hj)
    exact hcallers.alive j _ hcur
  · obtain rfl := hfirst .destructor (h.loop_owner hst)
    have hguard := h.loop i n hst
    rw [hbefore, if_neg (by decide)] at hguard
    rw [hprog, if_pos rfl, if_pos ((advance_inCallback hcall hc).mpr rfl)]
    rw [hguard, Guard.lock, if_pos rfl] at hg
    exact (Option.some.inj hg).symm
  · obtain rfl := Option.some.inj (howner.symm.trans hd)
    exact hin _ hcur

/-- it comes back from the callback, and gives the guard back -/
theorem guarding_exit (h : Guarding t) (hcallers : Callers refs t) (who : Actor) (r : ConRef)
    (k : CallId) (c : CloseState) (hcur : t.current who = some (r, k))
    (hcall : (t.closing r).calls k = some .inCallback)
    (hc : closeStep (t.closing r) (.advance k) = some c) :
    Guarding { t.withClosing r c with guard := t.guard.unlock } := by
  have hprog := progress_advance hcallers who r k c t.guard.unlock hcur hc
  have hbefore : t.progress who = some .inCallback := (progress_of_eq hcur).trans hcall
  have hmine := h.inside who hbefore
  have hout : c.calls k ≠ some .inCallback := fun e => by
    cases (advance_inCallback hcall hc).mp e
  refine ⟨fun w hw => ?_, fun j hj => h.pool j (unlock_owner hj), fun i n hst => ?_,
    fun hd => h.outside (unlock_owner hd)⟩
  · by_cases hw' : w = who
    · rw [hprog, if_pos hw'] at hw
      exact absurd hw hout
    · rw [hprog, if_neg hw'] at hw
      exact absurd (Option.some.inj ((h.inside w hw).symm.trans hmine)) hw'
  · obtain rfl := Option.some.inj ((h.loop_owner hst).symm.trans hmine)
    have hguard := h.loop i n hst
    rw [hbefore, if_pos rfl] at hguard
    rw [hprog, if_pos rfl, if_neg hout]
    show t.guard.unlock = _
    rw [hguard]
    rfl

theorem guarding_advance (h : Guarding t) (hcallers : Callers refs t)
    (hin : ∀ x, t.current .destructor = some x → ∃ i n, t.stage = .loop i n) (who : Actor)
    (r : ConRef) (k : CallId) (call : CloseCall) (c : CloseState) (g : Guard)
    (hcur : t.current who = some (r, k)) (hcall : (t.closing r).calls k = some call)
    (hc : closeStep (t.closing r) (.advance k) = some c) (hg : GuardAt who call t.guard g) :
    Guarding { t.withClosing r c with guard := g } := by
  have hbefore : t.progress who = some call := (progress_of_eq hcur).trans hcall
  -- the other steps of `close_con` leave the guard alone
  have hsame : call ≠ .sockClosed → call ≠ .inCallback → ∀ w,
      ShutdownState.progress { t.withClosing r c with guard := t.guard } w = some .inCallback
        ↔ t.progress w = some .inCallback := by
    intro henter hexit w
    rw [progress_advance hcallers who r k c t.guard hcur hc]
    by_cases hw : w = who
    · rw [if_pos hw, hw, hbefore]
      exact iff_of_false (fun e => henter ((advance_inCallback hcall hc).mp e))
        fun e => hexit (Option.some.inj e)
    · rw [if_neg hw]
  cases call with
  | sockClosed => exact guarding_enter h hcallers hin who r k c g hcur hcall hc hg
  | inCallback =>
    obtain rfl : g = t.guard.unlock := hg
    exact guarding_exit h hcallers who r k c hcur hcall hc
  | entered | passed | stored | cancelled | returned | skipped | threw =>
    obtain rfl : g = t.guard := hg
    exact h.congr (hsame (by decide) (by decide)) rfl rfl rfl

theorem guarding_leave (h : Guarding t) (who : Actor)
    (hout : t.progress who ≠ some .inCallback) :
    Guarding { t with current := Function.update t.current who none } := by
  have hsame : ∀ w, ShutdownState.progress { t with
      current := Function.update t.current who none } w = some .inCallback ↔
        t.progress w = some .inCallback := by
    intro w
    rw [progress_leave]
    by_cases hw : w = who
    · rw [if_pos hw, hw]
      exact iff_of_false (by decide) hout
    · rw [if_neg hw]
  exact h.congr hsame rfl rfl rfl

/-- the destructor takes the guard for its loop -/
theorem guarding_lock (h : Guarding t)
    (hin : ∀ x, t.current .destructor = some x → ∃ i n, t.stage = .loop i n) (n : Nat) (g : Guard)
    (hst : t.stage = .lock) (hg : t.guard.lock .destructor = some g) :
    Guarding { t with guard := g, stage := .loop 0 n } := by
  obtain ⟨howner, hfirst⟩ := lock_owner hg
  have hnot : ¬ ∃ i n, t.stage = .loop i n := by
    rw [hst]
    nofun
  -- it does not hold the guard yet, and is in no call
  have hfree : t.owner = none :=
    Option.eq_none_iff_forall_ne_some.mpr fun w hw => hnot (h.outside (hfirst w hw ▸ hw))
  have hidle : t.current .destructor = none :=
    Option.eq_none_iff_forall_ne_some.mpr fun x hx => hnot (hin x hx)
  refine ⟨fun who hwho => ?_, fun j hj => ?_, fun i m _ => ?_, fun _ => ⟨0, n, rfl⟩⟩
  · cases (h.inside who hwho).symm.trans hfree
  · cases howner.symm.trans hj
  · show g = some (.destructor, if t.progress .destructor = some .inCallback then 1 else 0)
    rw [Option.map_eq_none_iff.mp hfree] at hg
    rw [progress_idle hidle, if_neg (by decide)]
    exact (Option.some.inj hg).symm

/-- it gives the guard back behind the loop -/
theorem guarding_closed (h : Guarding t) (i : Nat) (hst : t.stage = .loop i i)
    (hidle : t.current .destructor = none) :
    Guarding { t with guard := t.guard.unlock, stage := .stop } := by
  have hguard := h.loop i i hst
  rw [progress_idle hidle, if_neg (by decide)] at hguard
  refine ⟨fun w hw => ?_, fun j hj => ?_, nofun, fun howner => ?_⟩
  · -- the destructor holds the guard, and is in no callback
    obtain rfl := Option.some.inj ((h.loop_owner hst).symm.trans (h.inside w hw))
    cases (progress_idle hidle).symm.trans hw
  · rw [ShutdownState.owner, hguard] at hj
    cases hj
  · rw [ShutdownState.owner, hguard] at howner
    cases howner

/-- a step outside of `close_con` and of the loop that leaves the guard alone -/
theorem Guarding.elsewhere (h : Guarding t) (hin : ¬ ∃ i n, t.stage = .loop i n)
    (stage : ShutdownStage) (hstage : ∀ i n, stage ≠ .loop i n) :
    Guarding { t with stage := stage } where
  inside := h.inside
  pool := h.pool
  loop i n hst := absurd hst (hstage i n)
  outside howner := absurd (h.outside howner) hin

/-- a thread of the pool takes the guard in user code -/
theorem guarding_getGuard (h : Guarding t) (j : ThreadId) (g : Guard) (hj : t.free j)
    (hg : t.guard.lock (.thread j) = some g) : Guarding { t with guard := g } := by
  obtain ⟨howner, hfirst⟩ := lock_owner hg
  refine ⟨fun w hw => ?_, fun j' hj' => ?_, fun i n hst => ?_, fun hd => ?_⟩
  · obtain rfl := hfirst w (h.inside w hw)
    cases (progress_idle hj.2).symm.trans hw
  · cases howner.symm.trans hj'
    exact hj.1
  · cases hfirst _ (h.loop_owner hst)
  · cases howner.symm.trans hd

/-- it gives it back -/
theorem guarding_giveBack (h : Guarding t) (j : ThreadId) (hj : t.free j)
    (howner : t.owner = some (.thread j)) : Guarding { t with guard := t.guard.unlock } := by
  refine ⟨fun w hw => ?_, fun j' hj' => h.pool j' (unlock_owner hj'), fun i n hst => ?_,
    fun hd => h.outside (unlock_owner hd)⟩
  · obtain rfl := Option.some.inj ((h.inside w hw).symm.trans howner)
    cases (progress_idle hj.2).symm.trans hw
  · cases (h.loop_owner hst).symm.trans howner

theorem guarding_step {s : Registry} {thrPool : List ThreadId} {u : ShutdownState}
    {l : ShutdownLabel} (h : Guarding t) (hcallers : Callers refs t)
    (hin : ∀ x, t.current .destructor = some x → ∃ i n, t.stage = .loop i n)
    (hm : ShutdownMove s thrPool refs t l u) (hend : u.stage.ended = false) : Guarding u := by
  cases hm with
  | lock g hst hg => exact guarding_lock h hin refs.length g hst hg
  | call who r stage c hidle hwho hc => exact guarding_call h hcallers who r stage c hidle hwho hc
  | advance who r k call c g hl hcur hcall hc hg =>
    exact guarding_advance h hcallers hin who r k call c g hcur hcall hc hg
  | dangling | throw | destroyed => cases hend
  | leave who r k call hcur hcall hret =>
    refine guarding_leave h who ?_
    rw [progress_of_eq hcur, hcall]
    rcases hret with rfl | rfl <;> decide
  | closed i hst hidle => exact guarding_closed h i hst hidle
  | stop hst => exact h.elsewhere (by rw [hst]; nofun) _ nofun
  | joined hst => exact h.elsewhere (by rw [hst]; nofun) _ nofun
  | join j rest hst => exact h.elsewhere (by rw [hst]; nofun) _ nofun
  | release i hst =>
    refine h.elsewhere (by rw [hst]; nofun) _ fun i' n e => ?_
    split at e <;> cases e
  | getGuard j g hj hg => exact guarding_getGuard h j g hj hg
  | giveBack j hj howner => exact guarding_giveBack h j hj howner
  | finish j hj hstop howner =>
    refine ⟨h.inside, fun j' hj' => ?_, h.loop, h.outside⟩
    have hne : j' ≠ j := by
      rintro rfl
      exact howner hj'
    exact (Function.update_of_ne hne ..).trans (h.pool j' hj')

end

end VoltNet
