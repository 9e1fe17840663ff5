import VoltNet.Network.Registry
import VoltNet.Lib.Runs
import Mathlib.Data.List.Nodup
import Mathlib.Data.Option.Basic

/-!
# Closing a registered connection

The registry of a running network over any sequence of additions and closings.

* `registry_live`       in every registry reached all entries are open, distinct and not null;
* `closeCon_first`      closing the first entry takes exactly that entry away;
* `closeCon_later`      closing any other one destroys the first: with two entries both are gone,
                        with more the destructors run over the end of the vector;
* `close_cases`         one of the two, for every registered connection;
* `close_removes_iff`   so closing removes exactly the closed connection when it is the first.
-/

namespace VoltNet
open Fallible Runs

inductive RegistryLabel where
  | add (id : ConId)
  | close (cause : CloseCause) (r : ConRef)
  | setNewConnectionCallback
  | setClosedConnectionCallback

/-- no step where the code has no defined behaviour -/
def registryStep (s : Registry) : RegistryLabel → Option Registry
  | .add id => (s.addConnection id).toOption
  | .close cause r =>
    if some r ∈ s.connections ∧ s.isOpen r = true then (s.close cause r).toOption else none
  | .setNewConnectionCallback => some { s with newConnectionCallback := true }
  | .setClosedConnectionCallback => some { s with closedConnectionCallback := true }

theorem close_eq (s : Registry) (cause : CloseCause) (r : ConRef) :
    s.close cause r = s.closeCon r := by cases cause <;> rfl

/-! ## the first entry -/

section
variable {delete : ConRef → Registry → Except NetFault Registry}

/-- shifting with nothing to destroy but what the first slot held, which is inert -/
theorem moveDown_inert (s : Registry) (done rest : List (Option ConRef)) (held : Option ConRef)
    (hinert : ∀ c, deleteHeld delete held { s with connections := c }
      = .ok { s with connections := c }) :
    moveDown delete rest.length done.length { s with connections := done ++ held :: rest }
      = .ok { s with connections := done ++ rest ++ [if rest = [] then held else none] } := by
  induction rest generalizing done held with
  | nil => rw [List.append_nil, if_pos rfl]; rfl
  | cons x rest ih =>
    have hi : (done ++ held :: x :: rest)[done.length]? = some held := by simp
    have hi1 : (done ++ held :: x :: rest)[done.length + 1]? = some x := by simp
    have hset : ((done ++ held :: x :: rest).set done.length x).set (done.length + 1) none
        = (done ++ [x]) ++ none :: rest := by simp
    have hrest := ih (done ++ [x]) none fun c => rfl
    rw [List.length_append, List.length_singleton, ite_self] at hrest
    have hstep : moveDown delete (x :: rest).length done.length
        { s with connections := done ++ held :: x :: rest }
        = (deleteHeld delete held { s with connections := (done ++ [x]) ++ none :: rest } >>=
          fun u => moveDown delete rest.length (done.length + 1) u) := by
      rw [List.length_cons, moveDown, hi, hi1]
      show (deleteHeld delete held { s with connections :=
        ((done ++ held :: x :: rest).set done.length x).set (done.length + 1) none } >>= _) = _
      rw [hset]
    rw [hstep, ok_bind _ _ _ (hinert _), hrest, if_neg (List.cons_ne_nil x rest),
      List.append_assoc done [x] rest]
    rfl

theorem erase_inert (s : Registry) (held : Option ConRef) (rest : List (Option ConRef))
    (hs : s.connections = held :: rest)
    (hinert : ∀ c, deleteHeld delete held { s with connections := c }
      = .ok { s with connections := c }) :
    erase delete 0 s = .ok { s with connections := rest } := by
  have hmove : moveDown delete rest.length 0 s
      = .ok { s with connections := rest ++ [if rest = [] then held else none] } := by
    have h1 := moveDown_inert s [] rest held hinert
    rw [List.nil_append, List.nil_append, ← hs] at h1
    exact h1
  have hlen : s.connections.length - (0 + 1) = rest.length := by rw [hs]; rfl
  rw [erase, hlen, ok_bind _ _ _ hmove, popBack]
  simp only [List.getLast?_append, List.getLast?_singleton, Option.some_or, List.dropLast_concat]
  by_cases hr : rest = []
  · rw [if_pos hr]
    exact hinert rest
  · rw [if_neg hr]
    rfl

end

theorem isOpen_lt {s : Registry} {r : ConRef} (h : s.isOpen r = true) : r < s.objects.length := by
  rw [Registry.isOpen] at h
  by_contra hlt
  rw [List.getElem?_eq_none (Nat.le_of_not_lt hlt)] at h
  cases h

/-- what an open connection of a running network does when it closes -/
theorem closeCon_erase (s : Registry) (r : ConRef) (ho : s.isOpen r = true)
    (hcb : s.closedConnectionCallback = false) (hrun : s.running = true)
    (hne : s.connections ≠ []) :
    s.closeCon r = erase (closeCon s.objects.length) 0 (s.setClosed r) := by
  obtain ⟨id, hid⟩ := closeCon_open s.objects.length r s ho
  rw [Registry.closeCon, hid]
  exact closedCallback_erase id (s.setClosed r) hcb hrun hne

/-- **Closing the first entry takes exactly that entry away.** -/
theorem closeCon_first (s : Registry) (r : ConRef) (rest : List (Option ConRef))
    (hs : s.connections = some r :: rest) (ho : s.isOpen r = true)
    (hcb : s.closedConnectionCallback = false) (hrun : s.running = true) :
    s.closeCon r = .ok { s.setClosed r with connections := rest } := by
  have hr := isOpen_lt ho
  obtain ⟨fuel, hfuel⟩ := Nat.exists_eq_succ_of_ne_zero (Nat.ne_of_gt (Nat.zero_lt_of_lt hr))
  have hne : s.connections ≠ [] := by
    rw [hs]
    exact List.cons_ne_nil _ _
  rw [closeCon_erase s r ho hcb hrun hne]
  refine erase_inert (s.setClosed r) (some r) rest hs fun c => ?_
  -- the destructor of `r` finds it closed
  rw [hfuel]
  refine closeCon_idle fuel r { s.setClosed r with connections := c } ?_ ?_
  · show r < (s.objects.modify r _).length
    rw [List.length_modify]
    exact hr
  · show (s.setClosed r).isOpen r = false
    rw [isOpen_setClosed, if_pos rfl]

/-! ## any other entry -/

/-- closing a later entry starts with the destructor of the first, whatever comes of the rest -/
theorem closeCon_later_eq (s : Registry) (r q : ConRef) (x : Option ConRef)
    (rest : List (Option ConRef)) (hs : s.connections = some q :: x :: rest)
    (ho : s.isOpen r = true) (hcb : s.closedConnectionCallback = false)
    (hrun : s.running = true) :
    s.closeCon r =
      (VoltNet.closeCon s.objects.length q { s.setClosed r with connections := x :: none :: rest }
        >>= fun u => moveDown (VoltNet.closeCon s.objects.length) rest.length 1 u
        >>= popBack (VoltNet.closeCon s.objects.length)) := by
  have hne : s.connections ≠ [] := by
    rw [hs]
    exact List.cons_ne_nil _ _
  have hconns : (s.setClosed r).connections = some q :: x :: rest := hs
  have hlen : (s.setClosed r).connections.length - (0 + 1) = rest.length + 1 := by
    rw [hconns]
    rfl
  rw [closeCon_erase s r ho hcb hrun hne, erase, hlen, moveDown, hconns]
  exact bind_assoc (VoltNet.closeCon s.objects.length q _) _ _

/-- closing the first entry goes wrong only with a `closed_connection_callback` -/
theorem closeCon_first_error (s : Registry) (r : ConRef) (rest : List (Option ConRef))
    (f : NetFault) (hs : s.connections = some r :: rest) (ho : s.isOpen r = true)
    (hrun : s.running = true) (h : s.closeCon r = .error f) : f = .danglingReference := by
  cases hcb : s.closedConnectionCallback with
  | false =>
    rw [closeCon_first s r rest hs ho hcb hrun] at h
    cases h
  | true =>
    obtain ⟨id, hid⟩ := closeCon_open s.objects.length r s ho
    have hcb : (s.setClosed r).closedConnectionCallback = true := hcb
    rw [Registry.closeCon, hid, closedCallback, if_pos hcb] at h
    exact (Except.error.inj h).symm

/-- **Closing a later entry destroys the first**, and returns only when there were two. -/
theorem closeCon_later (s t : Registry) (r q : ConRef) (rest : List (Option ConRef))
    (hs : s.connections = some q :: rest) (hrest : rest ≠ []) (hqr : q ≠ r)
    (ho : s.isOpen r = true) (hq : s.isOpen q = true) (hrun : s.running = true)
    (hcb : s.closedConnectionCallback = false) (h : s.closeCon r = .ok t) :
    t.isOpen q = false ∧ t.connections = [] := by
  obtain ⟨x, rest, rfl⟩ := List.exists_cons_of_ne_nil hrest
  rw [closeCon_later_eq s r q x rest hs ho hcb hrun] at h
  obtain ⟨v, hv, h⟩ := (bind_ok _ _ _).mp h
  obtain ⟨u, hu, ht⟩ := (bind_ok _ _ _).mp h
  have hdel := closeCon_shrinking s.objects.length
  let w : Registry := { s.setClosed r with connections := x :: none :: rest }
  have hqopen : w.isOpen q = true := by
    show (s.setClosed r).isOpen q = true
    rw [isOpen_setClosed, if_neg (Ne.symm hqr), hq]
  have hvq := (closeCon_shrunk _ q w v hv).2
  have hvlen : v.connections.length < rest.length + 2 :=
    closeCon_shrinks _ q w v hqopen hcb hrun (List.cons_ne_nil _ _) hv
  have huv := moveDown_shrunk hdel rest.length 1 v u hu
  obtain ⟨htu, htlen⟩ := popBack_shrunk hdel u t ht
  refine ⟨htu.closed q (huv.closed q hvq), ?_⟩
  cases rest with
  | nil =>
    have hulen := huv.length
    rw [List.length_nil] at hvlen
    exact List.eq_nil_of_length_eq_zero (by omega)
  | cons y rest =>
    -- the loop would need more slots than the vector still has
    have hneeds := moveDown_length hdel rest.length 1 v u hu
    rw [List.length_cons] at hvlen
    omega

/-! ## every registry reached -/

/-- the vector holds a pointer to the object -/
def Registry.holds (s : Registry) (r : ConRef) : Bool := s.connections.contains (some r)

theorem holds_iff (s : Registry) (r : ConRef) : s.holds r = true ↔ some r ∈ s.connections :=
  List.contains_iff_mem

structure Registry.Live (s : Registry) : Prop where
  running : s.running = true
  refs : ∃ refs : List ConRef, s.connections = refs.map some ∧ refs.Nodup ∧
    ∀ r ∈ refs, s.isOpen r = true

theorem live_init : Registry.init.Live := ⟨rfl, [], rfl, List.nodup_nil, fun r hr => by cases hr⟩

theorem mem_map_some {r : ConRef} {rest : List ConRef} : some r ∈ rest.map some ↔ r ∈ rest :=
  List.mem_map_of_injective (Option.some_injective _)

theorem Registry.Live.isOpen {s : Registry} (h : s.Live) {r : ConRef}
    (hr : some r ∈ s.connections) : s.isOpen r = true := by
  obtain ⟨refs, hrefs, -, hopen⟩ := h.refs
  rw [hrefs, mem_map_some] at hr
  exact hopen r hr

/-- the entries behind the first one -/
theorem Registry.Live.behind {s : Registry} (h : s.Live) {r : ConRef} {rest : List ConRef}
    (hs : s.connections = some r :: rest.map some) :
    r ∉ rest ∧ rest.Nodup ∧ ∀ p ∈ rest, s.isOpen p = true := by
  obtain ⟨refs, hrefs, hnodup, hopen⟩ := h.refs
  obtain rfl : refs = r :: rest :=
    List.map_injective_iff.mpr (Option.some_injective _) (hrefs.symm.trans hs)
  obtain ⟨hnot, hrest⟩ := List.nodup_cons.mp hnodup
  exact ⟨hnot, hrest, fun p hp => hopen p (List.mem_cons_of_mem r hp)⟩

theorem addConnection_ok (id : ConId) (s t : Registry) (hs : s.addConnection id = .ok t) :
    t = { s with
      objects := s.objects ++ [⟨id, true⟩]
      connections := s.connections ++ [some s.objects.length] } := by
  rw [Registry.addConnection] at hs
  split at hs
  · cases hs
  · exact (Except.ok.inj hs).symm

theorem mem_add (id : ConId) (s t : Registry) (hs : s.addConnection id = .ok t) (r : ConRef) :
    some r ∈ t.connections ↔ some r ∈ s.connections ∨ r = s.objects.length := by
  rw [addConnection_ok id s t hs]
  show some r ∈ s.connections ++ [some s.objects.length] ↔ _
  rw [List.mem_append, List.mem_singleton, Option.some.injEq]

theorem live_add (id : ConId) (s t : Registry) (h : s.Live) (hs : s.addConnection id = .ok t) :
    t.Live := by
  obtain ⟨refs, hrefs, hnodup, hopen⟩ := h.refs
  rw [addConnection_ok id s t hs]
  refine ⟨h.running, refs ++ [s.objects.length], ?_, ?_, fun r hr => ?_⟩
  · show s.connections ++ [some s.objects.length] = _
    rw [hrefs, List.map_append]
    rfl
  · refine List.Nodup.append hnodup (List.nodup_singleton _) fun r hr hr' => ?_
    rw [List.mem_singleton.mp hr'] at hr
    exact absurd (isOpen_lt (hopen _ hr)) (Nat.lt_irrefl _)
  · show ((s.objects ++ [⟨id, true⟩])[r]?.map ConObject.conOpen).getD false = true
    rcases List.mem_append.mp hr with hr | hr
    · rw [List.getElem?_append_left (isOpen_lt (hopen r hr))]
      exact hopen r hr
    · rw [List.mem_singleton.mp hr, List.getElem?_append_right le_rfl, Nat.sub_self]
      rfl

theorem callback_unset (s t : Registry) (r : ConRef) (ho : s.isOpen r = true)
    (h : s.closeCon r = .ok t) : s.closedConnectionCallback = false := by
  obtain ⟨id, hid⟩ := closeCon_open s.objects.length r s ho
  rw [Registry.closeCon, hid] at h
  cases hcb : s.closedConnectionCallback with
  | false => rfl
  | true =>
    rw [closedCallback, if_pos (show (s.setClosed r).closedConnectionCallback = true from hcb)] at h
    cases h

/-- **What closing a registered connection does**: the first entry goes alone; any other one takes
the first with it and leaves nothing registered. -/
theorem close_cases (s t : Registry) (r : ConRef) (h : s.Live) (hr : some r ∈ s.connections)
    (hs : s.closeCon r = .ok t) :
    (∃ rest : List ConRef, s.connections = some r :: rest.map some ∧ r ∉ rest ∧
      t = { s.setClosed r with connections := rest.map some }) ∨
    (∃ (q : ConRef) (rest : List ConRef), s.connections = some q :: rest.map some ∧ q ≠ r ∧
      t.connections = [] ∧ t.isOpen q = false) := by
  obtain ⟨refs, hrefs, hnodup, hopen⟩ := h.refs
  have hmem : r ∈ refs := by
    rwa [hrefs, mem_map_some] at hr
  have ho := hopen r hmem
  have hcb := callback_unset s t r ho hs
  cases refs with
  | nil => cases hmem
  | cons q rest =>
    by_cases hqr : q = r
    · rw [hqr] at hrefs hnodup
      rw [closeCon_first s r (rest.map some) hrefs ho hcb h.running] at hs
      exact .inl ⟨rest, hrefs, (List.nodup_cons.mp hnodup).1, (Except.ok.inj hs).symm⟩
    · have hne : rest.map some ≠ [] := by
        intro he
        rw [List.map_eq_nil_iff.mp he, List.mem_singleton] at hmem
        exact hqr hmem.symm
      obtain ⟨hclosed, hnil⟩ := closeCon_later s t r q _ hrefs hne hqr ho
        (hopen q List.mem_cons_self) h.running hcb hs
      exact .inr ⟨q, rest, hrefs, hqr, hnil, hclosed⟩

theorem live_close (s t : Registry) (r : ConRef) (h : s.Live) (hr : some r ∈ s.connections)
    (hs : s.closeCon r = .ok t) : t.Live := by
  have hrun := (closeCon_shrinking _ r s t hs).running.trans h.running
  rcases close_cases s t r h hr hs with ⟨rest, hconns, hnot, rfl⟩ | ⟨q, rest, -, -, hnil, -⟩
  · obtain ⟨-, hnodup, hopen⟩ := h.behind hconns
    refine ⟨h.running, rest, rfl, hnodup, fun p hp => ?_⟩
    show (s.setClosed r).isOpen p = true
    rw [isOpen_setClosed, if_neg fun e : r = p => hnot (e ▸ hp)]
    exact hopen p hp
  · exact ⟨hrun, [], hnil, List.nodup_nil, fun p hp => by cases hp⟩

theorem conId_setClosed (s : Registry) (r q : ConRef) : (s.setClosed r).conId q = s.conId q := by
  unfold Registry.conId Registry.setClosed
  by_cases h : r = q
  · rw [h, List.getElem?_modify_eq]
    cases s.objects[q]? <;> rfl
  · rw [List.getElem?_modify_ne _ _ h]

/-- closing registers nothing and leaves every id as it is -/
theorem close_kept (s t : Registry) (r : ConRef) (h : s.Live) (hr : some r ∈ s.connections)
    (hs : s.closeCon r = .ok t) (q : ConRef) (hq : some q ∈ t.connections) :
    some q ∈ s.connections ∧ t.conId q = s.conId q := by
  rcases close_cases s t r h hr hs with ⟨rest, hconns, -, rfl⟩ | ⟨p, rest, -, -, hnil, -⟩
  · refine ⟨?_, conId_setClosed s r q⟩
    rw [hconns]
    exact List.mem_cons_of_mem _ hq
  · rw [hnil] at hq
    cases hq

theorem toOption_some {ε α : Type} (x : Except ε α) (a : α) (h : x.toOption = some a) :
    x = .ok a := by
  cases x with
  | error e => cases h
  | ok b => rw [Option.some.inj h]

/-- what `registryStep` does to close a connection -/
theorem registryStep_close (s t : Registry) (cause : CloseCause) (r : ConRef)
    (h : registryStep s (.close cause r) = some t) :
    some r ∈ s.connections ∧ s.closeCon r = .ok t := by
  obtain ⟨⟨hr, -⟩, ht⟩ := Option.ite_none_right_eq_some.mp h
  have hclose := toOption_some _ _ ht
  rw [close_eq] at hclose
  exact ⟨hr, hclose⟩

/-- **In every registry reached the network runs, and all entries are open, distinct and not
null.** -/
theorem registry_live (s : Registry)
    (h : Reach registryStep (fun _ _ => True) Registry.init s) : s.Live := by
  refine h.invariant live_init fun t l u ht _ hs => ?_
  cases l with
  | add id => exact live_add id t u ht (toOption_some _ _ hs)
  | close cause r =>
    obtain ⟨hr, hclose⟩ := registryStep_close t u cause r hs
    exact live_close t u r ht hr hclose
  | setNewConnectionCallback =>
    rw [← Option.some.inj hs]
    exact ⟨ht.running, ht.refs⟩
  | setClosedConnectionCallback =>
    rw [← Option.some.inj hs]
    exact ⟨ht.running, ht.refs⟩

/-! ## what closing removes -/

theorem findCon_congr (s t : Registry) (id : ConId) (l : List (Option ConRef))
    (h : ∀ r, s.conId r = t.conId r) : s.findCon id l = t.findCon id l := by
  induction l with
  | nil => rfl
  | cons x l ih =>
    cases x with
    | none => rfl
    | some r => rw [Registry.findCon, Registry.findCon, h, ih]

theorem findCon_absent (s : Registry) (id : ConId) (refs : List ConRef)
    (h : ∀ r ∈ refs, s.conId r ≠ some id) : s.findCon id (refs.map some) = .ok none := by
  induction refs with
  | nil => rfl
  | cons r refs ih =>
    rw [List.map_cons, Registry.findCon, if_neg (h r List.mem_cons_self)]
    exact ih fun q hq => h q (List.mem_cons_of_mem r hq)

/-- `t` is `s` without the connection `r`, which is gone under its id; all others are registered,
open and found as before -/
structure RemovedExactly (s : Registry) (r : ConRef) (t : Registry) : Prop where
  connections : t.connections = s.connections.erase (some r)
  others : ∀ q, some q ∈ s.connections → q ≠ r → some q ∈ t.connections ∧ t.isOpen q = true
  gone : ∀ k, s.conId r = some k → t.getCon k = .ok none
  found : ∀ j, s.conId r ≠ some j → t.getCon j = s.getCon j

theorem removed_first (s : Registry) (r : ConRef) (rest : List ConRef) (h : s.Live)
    (hs : s.connections = some r :: rest.map some)
    (hids : ∀ p q, some p ∈ s.connections → some q ∈ s.connections → s.conId p = s.conId q →
      p = q) : RemovedExactly s r { s.setClosed r with connections := rest.map some } := by
  obtain ⟨hnot, -, hopen⟩ := h.behind hs
  refine ⟨?_, fun q hq hqr => ?_, fun k hk => ?_, fun j hj => ?_⟩
  · rw [hs, List.erase_cons_head]
  · rw [hs, List.mem_cons, mem_map_some] at hq
    have hmem : q ∈ rest := hq.resolve_left fun e => hqr (Option.some.inj e)
    refine ⟨mem_map_some.mpr hmem, ?_⟩
    show (s.setClosed r).isOpen q = true
    rw [isOpen_setClosed, if_neg (Ne.symm hqr)]
    exact hopen q hmem
  · show Registry.findCon _ k (rest.map some) = _
    refine findCon_absent _ k rest fun q hq e => hnot ?_
    have e : (s.setClosed r).conId q = some k := e
    rw [conId_setClosed, ← hk] at e
    have hqmem : some q ∈ s.connections := by
      rw [hs]
      exact List.mem_cons_of_mem _ (List.mem_map_of_mem hq)
    have hrmem : some r ∈ s.connections := by
      rw [hs]
      exact List.mem_cons_self
    exact hids q r hqmem hrmem e ▸ hq
  · show Registry.findCon _ j (rest.map some) = s.findCon j s.connections
    rw [hs, Registry.findCon, if_neg hj]
    exact findCon_congr _ s j _ fun q => conId_setClosed s r q

/-- **Closing removes exactly the closed connection when it is the first of the vector** (and no
`closed_connection_callback` is set), and only then. -/
theorem close_removes_iff (s : Registry)
    (h : Reach registryStep (fun _ _ => True) Registry.init s) (cause : CloseCause) (r : ConRef)
    (hr : some r ∈ s.connections) (ho : s.isOpen r = true)
    (hids : ∀ p q, some p ∈ s.connections → some q ∈ s.connections → s.conId p = s.conId q →
      p = q) :
    (∃ t, s.close cause r = .ok t ∧ RemovedExactly s r t) ↔
      s.connections.head? = some (some r) ∧ s.closedConnectionCallback = false := by
  have hlive := registry_live s h
  rw [close_eq]
  constructor
  · intro h
    obtain ⟨t, ht, hremoved⟩ := h
    refine ⟨?_, callback_unset s t r ho ht⟩
    rcases close_cases s t r hlive hr ht with ⟨rest, hconns, -⟩ | ⟨q, rest, hconns, hqr, -, hclosed⟩
    · rw [hconns]
      rfl
    · have hq : some q ∈ s.connections := by
        rw [hconns]
        exact List.mem_cons_self
      rw [(hremoved.others q hq hqr).2] at hclosed
      cases hclosed
  · intro h
    obtain ⟨hhead, hcb⟩ := h
    obtain ⟨refs, hrefs, hnodup, hopen⟩ := hlive.refs
    cases refs with
    | nil => rw [hrefs] at hr; cases hr
    | cons q rest =>
      rw [hrefs] at hhead
      obtain rfl : q = r := Option.some.inj (Option.some.inj hhead)
      exact ⟨_, closeCon_first s q _ hrefs ho hcb hlive.running,
        removed_first s q rest hlive hrefs hids⟩

/-- the older of two connections closes -/
theorem close_removes_iff_older :
    ∃ s, exec registryStep Registry.init [.add 7, .add 9] = some s ∧
      s.connections.head? = some (some 0) ∧ s.closedConnectionCallback = false ∧
      ∃ t, s.close .endOfFile 0 = .ok t ∧ RemovedExactly s 0 t := by
  refine ⟨⟨[⟨7, true⟩, ⟨9, true⟩], [some 0, some 1], true, false, false⟩, by decide, rfl, rfl, ?_⟩
  refine (close_removes_iff _ (Reach.of_exec [.add 7, .add 9] (by decide)) .endOfFile 0
    (by decide) (by decide) fun p q hp hq => ?_).mpr ⟨rfl, rfl⟩
  simp only [List.mem_cons, Option.some.injEq, List.not_mem_nil, or_false] at hp hq
  rcases hp with rfl | rfl <;> rcases hq with rfl | rfl <;> decide

/-- the newer of two connections closes: both are gone, and both are closed -/
theorem close_newer_removes_both :
    ∃ s t, exec registryStep Registry.init [.add 7, .add 9] = some s ∧
      s.connections = [some 0, some 1] ∧ s.close .call 1 = .ok t ∧ t.connections = [] ∧
      t.isOpen 0 = false ∧ ¬ ∃ t, s.close .call 1 = .ok t ∧ RemovedExactly s 1 t := by
  refine ⟨⟨[⟨7, true⟩, ⟨9, true⟩], [some 0, some 1], true, false, false⟩,
    ⟨[⟨7, false⟩, ⟨9, false⟩], [], true, false, false⟩, by decide, rfl, by rfl, rfl, by decide, ?_⟩
  intro h
  obtain ⟨t, ht, hremoved⟩ := h
  have hret : Registry.close .call 1
      ⟨[⟨7, true⟩, ⟨9, true⟩], [some 0, some 1], true, false, false⟩
      = .ok ⟨[⟨7, false⟩, ⟨9, false⟩], [], true, false, false⟩ := by rfl
  have hcon := hremoved.connections
  rw [← Except.ok.inj (hret.symm.trans ht)] at hcon
  revert hcon
  decide

end VoltNet
