import VoltNet.Network.Closing
import Mathlib.Algebra.Group.Nat.Defs

/-!
# Connection ids

`get_next_id` counts in 16 bits with a compare-exchange loop.  Any tasks run it side by side, and
each registers the connection that it made with the id; connections are closed in between.

* `idStep`           the steps of the tasks and of the registry;
* `IdsKept`          the invariant: an id is the number of its exchange, modulo `2 ^ 16`;
* `ids_unique_iff`   registered connections have different ids all along a run exactly when no
                     connection is registered a multiple of `2 ^ 16` exchanges after (or before)
                     one that still is;
* `ids_repeat`       the run that opens `2 ^ 16 + 1` connections.
-/

namespace VoltNet
open Fallible Runs

/-- a task that connects or accepts -/
abbrev TaskId := Nat

/-- where a task is -/
inductive Maker where
  /-- outside `get_next_id`, or before its `load` -/
  | idle
  | loaded (newConId : ConId)
  /-- `get_next_id` has returned `id`, in the exchange with this number -/
  | issued (id : ConId) (ticket : Nat)
deriving DecidableEq

structure IdState where
  registry : Registry
  nextId : ConId
  makers : TaskId → Maker
  /-- successful exchanges so far -/
  exchanges : Nat
  /-- for every `net_con` object the number of the exchange that its id is from -/
  tickets : List Nat

inductive IdLabel where
  | load (k : TaskId)
  /-- the compare-exchange succeeds -/
  | exchange (k : TaskId)
  /-- it fails, as a weak one always may -/
  | retry (k : TaskId)
  /-- `add_connection` with the id -/
  | add (k : TaskId)
  | close (cause : CloseCause) (r : ConRef)

def IdState.init : IdState := ⟨Registry.init, 0, fun _ => .idle, 0, []⟩

def IdState.move (k : TaskId) (maker : Maker) (s : IdState) : IdState :=
  { s with makers := Function.update s.makers k maker }

def idStep (s : IdState) : IdLabel → Option IdState
  | .load k => if s.makers k = .idle then some (s.move k (.loaded s.nextId)) else none
  | .exchange k =>
    match s.makers k with
    | .loaded newConId =>
      if newConId = s.nextId then
        some { s.move k (.issued newConId s.exchanges) with
          nextId := newConId + 1
          exchanges := s.exchanges + 1 }
      else none
    | _ => none
  | .retry k =>
    match s.makers k with
    | .loaded _ => some (s.move k .idle)
    | _ => none
  | .add k =>
    match s.makers k with
    | .issued id ticket =>
      match registryStep s.registry (.add id) with
      | none => none
      | some registry =>
        some { s.move k .idle with registry := registry, tickets := s.tickets ++ [ticket] }
    | _ => none
  | .close cause r =>
    match registryStep s.registry (.close cause r) with
    | none => none
    | some registry => some { s with registry := registry }

/-! ## the invariant -/

/-- numbers of exchanges that give one id -/
def SameId (i j : Nat) : Prop := i % 2 ^ 16 = j % 2 ^ 16

instance (i j : Nat) : Decidable (SameId i j) := inferInstanceAs (Decidable (_ = _))

theorem ofNat_eq_iff_sameId (i j : Nat) : UInt16.ofNat i = UInt16.ofNat j ↔ SameId i j := by
  constructor
  · intro h
    have htoNat := congrArg UInt16.toNat h
    rwa [UInt16.toNat_ofNat', UInt16.toNat_ofNat'] at htoNat
  · intro h
    apply UInt16.toNat.inj
    rw [UInt16.toNat_ofNat', UInt16.toNat_ofNat']
    exact h

structure IdsKept (s : IdState) : Prop where
  live : s.registry.Live
  next : s.nextId = UInt16.ofNat s.exchanges
  objects : s.tickets.length = s.registry.objects.length
  ids : ∀ r, some r ∈ s.registry.connections →
    s.registry.conId r = s.tickets[r]?.map UInt16.ofNat
  makers : ∀ k id ticket, s.makers k = .issued id ticket →
    id = UInt16.ofNat ticket ∧ ticket < s.exchanges ∧ ticket ∉ s.tickets
  others : ∀ k k' id id' ticket, s.makers k = .issued id ticket →
    s.makers k' = .issued id' ticket → k = k'
  bound : ∀ ticket ∈ s.tickets, ticket < s.exchanges
  nodup : s.tickets.Nodup

theorem idsKept_init : IdsKept IdState.init where
  live := live_init
  next := rfl
  objects := rfl
  ids r hr := by cases hr
  makers k id ticket h := by cases h
  others k k' id id' ticket h := by cases h
  bound ticket h := by cases h
  nodup := List.nodup_nil

/-- a task that moves to a place where it holds no id -/
theorem idsKept_move (s : IdState) (k : TaskId) (maker : Maker) (h : IdsKept s)
    (hm : ∀ id ticket, maker ≠ .issued id ticket) : IdsKept (s.move k maker) := by
  have hissued : ∀ j id ticket, (s.move k maker).makers j = .issued id ticket →
      s.makers j = .issued id ticket := by
    intro j id ticket hj
    have hj : Function.update s.makers k maker j = .issued id ticket := hj
    by_cases hjk : j = k
    · rw [hjk, Function.update_self] at hj
      exact absurd hj (hm id ticket)
    · rwa [Function.update_of_ne hjk] at hj
  refine ⟨h.live, h.next, h.objects, h.ids, fun j id ticket hj => ?_,
    fun j j' id id' ticket hj hj' => ?_, h.bound, h.nodup⟩
  · exact h.makers j id ticket (hissued j id ticket hj)
  · exact h.others j j' id id' ticket (hissued j id ticket hj) (hissued j' id' ticket hj')

theorem idsKept_exchange (s : IdState) (k : TaskId) (h : IdsKept s) :
    IdsKept { s.move k (.issued s.nextId s.exchanges) with
      nextId := s.nextId + 1
      exchanges := s.exchanges + 1 } := by
  have hissued : ∀ j id ticket,
      Function.update s.makers k (.issued s.nextId s.exchanges) j = .issued id ticket →
      (j = k ∧ id = s.nextId ∧ ticket = s.exchanges) ∨
        (s.makers j = .issued id ticket ∧ ticket < s.exchanges) := by
    intro j id ticket hj
    by_cases hjk : j = k
    · rw [hjk, Function.update_self] at hj
      injection hj with hid hticket
      exact .inl ⟨hjk, hid.symm, hticket.symm⟩
    · rw [Function.update_of_ne hjk] at hj
      exact .inr ⟨hj, (h.makers j id ticket hj).2.1⟩
  refine ⟨h.live, ?_, h.objects, h.ids, fun j id ticket hj => ?_,
    fun j j' id id' ticket hj hj' => ?_, fun ticket ht => Nat.lt_succ_of_lt (h.bound ticket ht),
    h.nodup⟩
  · show s.nextId + 1 = UInt16.ofNat (s.exchanges + 1)
    rw [h.next, UInt16.ofNat_add]
    rfl
  · rcases hissued j id ticket hj with ⟨-, hid, ht⟩ | ⟨hold, ht⟩
    · refine ⟨by rw [hid, ht, h.next], by rw [ht]; exact Nat.lt_succ_self _, ?_⟩
      intro hmem
      rw [ht] at hmem
      exact absurd (h.bound _ hmem) (Nat.lt_irrefl _)
    · obtain ⟨hid, -, hnot⟩ := h.makers j id ticket hold
      exact ⟨hid, Nat.lt_succ_of_lt ht, hnot⟩
  · rcases hissued j id ticket hj with ⟨hjk, -, ht⟩ | ⟨hold, ht⟩ <;>
      rcases hissued j' id' ticket hj' with ⟨hjk', -, ht'⟩ | ⟨hold', ht'⟩
    · exact hjk.trans hjk'.symm
    · omega
    · omega
    · exact h.others j j' id id' ticket hold hold'

/-! ### registering and closing -/

theorem conId_add_old (id : ConId) (s t : Registry) (hs : s.addConnection id = .ok t) (r : ConRef)
    (hr : r < s.objects.length) : t.conId r = s.conId r := by
  rw [addConnection_ok id s t hs]
  show (s.objects ++ [⟨id, true⟩])[r]?.map ConObject.id = _
  rw [List.getElem?_append_left hr]
  rfl

theorem conId_add_new (id : ConId) (s t : Registry) (hs : s.addConnection id = .ok t) :
    t.conId s.objects.length = some id := by
  rw [addConnection_ok id s t hs]
  show (s.objects ++ [⟨id, true⟩])[s.objects.length]?.map ConObject.id = _
  rw [List.getElem?_concat_length]
  rfl

/-- what `add_connection` by the task `k` does -/
theorem idStep_add (s t : IdState) (k : TaskId) (hs : idStep s (.add k) = some t) :
    ∃ id ticket registry, s.makers k = .issued id ticket ∧
      s.registry.addConnection id = .ok registry ∧
      t = { s.move k .idle with registry := registry, tickets := s.tickets ++ [ticket] } := by
  rw [idStep] at hs
  split at hs
  · next id ticket hmaker =>
    split at hs
    · cases hs
    · next registry hreg =>
      exact ⟨id, ticket, registry, hmaker, toOption_some _ _ hreg, (Option.some.inj hs).symm⟩
  · cases hs

theorem idsKept_add (s : IdState) (k : TaskId) (id : ConId) (ticket : Nat) (registry : Registry)
    (h : IdsKept s) (hmaker : s.makers k = .issued id ticket)
    (hreg : s.registry.addConnection id = .ok registry) :
    IdsKept { s.move k .idle with registry := registry, tickets := s.tickets ++ [ticket] } := by
  obtain ⟨hid, hlt, hnot⟩ := h.makers k id ticket hmaker
  have hissued : ∀ j id' ticket', Function.update s.makers k .idle j = .issued id' ticket' →
      j ≠ k ∧ s.makers j = .issued id' ticket' := by
    intro j id' ticket' hj
    by_cases hjk : j = k
    · rw [hjk, Function.update_self] at hj
      cases hj
    · rw [Function.update_of_ne hjk] at hj
      exact ⟨hjk, hj⟩
  refine ⟨live_add id s.registry registry h.live hreg, h.next, ?_, fun r hr => ?_,
    fun j id' ticket' hj => ?_, fun j j' id' id'' ticket' hj hj' => ?_, fun ticket' ht => ?_, ?_⟩
  · rw [addConnection_ok id s.registry registry hreg, List.length_append, List.length_append,
      h.objects]
    rfl
  · show registry.conId r = (s.tickets ++ [ticket])[r]?.map UInt16.ofNat
    rcases (mem_add id s.registry registry hreg r).mp hr with hr | rfl
    · have hlt := isOpen_lt (h.live.isOpen hr)
      rw [conId_add_old id s.registry registry hreg r hlt, h.ids r hr,
        List.getElem?_append_left (by rwa [h.objects])]
    · rw [conId_add_new id s.registry registry hreg, ← h.objects, List.getElem?_concat_length, hid]
      rfl
  · obtain ⟨hjk, hj⟩ := hissued j id' ticket' hj
    obtain ⟨hid', hlt', hnot'⟩ := h.makers j id' ticket' hj
    refine ⟨hid', hlt', fun hmem => ?_⟩
    rcases List.mem_append.mp hmem with hmem | hmem
    · exact hnot' hmem
    · rw [List.mem_singleton.mp hmem] at hj
      exact hjk (h.others j k id' id ticket hj hmaker)
  · exact h.others j j' id' id'' ticket' (hissued j id' ticket' hj).2
      (hissued j' id'' ticket' hj').2
  · rcases List.mem_append.mp ht with ht | ht
    · exact h.bound ticket' ht
    · rw [List.mem_singleton.mp ht]
      exact hlt
  · refine List.Nodup.append h.nodup (List.nodup_singleton _) fun ticket' ht ht' => ?_
    rw [List.mem_singleton.mp ht'] at ht
    exact hnot ht

theorem idsKept_close (s : IdState) (r : ConRef) (registry : Registry) (h : IdsKept s)
    (hr : some r ∈ s.registry.connections) (hs : s.registry.closeCon r = .ok registry) :
    IdsKept { s with registry := registry } := by
  refine ⟨live_close s.registry registry r h.live hr hs, h.next, ?_, fun q hq => ?_, h.makers,
    h.others, h.bound, h.nodup⟩
  · exact h.objects.trans (closeCon_shrinking _ r s.registry registry hs).objects.symm
  · obtain ⟨hq', hid⟩ := close_kept s.registry registry r h.live hr hs q hq
    exact hid.trans (h.ids q hq')

theorem idStep_close (s t : IdState) (cause : CloseCause) (r : ConRef)
    (hs : idStep s (.close cause r) = some t) :
    ∃ registry, some r ∈ s.registry.connections ∧ s.registry.closeCon r = .ok registry ∧
      t = { s with registry := registry } := by
  rw [idStep] at hs
  split at hs
  · cases hs
  · next registry hreg =>
    obtain ⟨hr, hclose⟩ := registryStep_close s.registry registry cause r hreg
    exact ⟨registry, hr, hclose, (Option.some.inj hs).symm⟩

theorem idStep_exchange (s t : IdState) (k : TaskId) (hs : idStep s (.exchange k) = some t) :
    t = { s.move k (.issued s.nextId s.exchanges) with
      nextId := s.nextId + 1
      exchanges := s.exchanges + 1 } := by
  rw [idStep] at hs
  split at hs
  · next newConId hmaker =>
    obtain ⟨hnext, rfl⟩ := of_guard hs
    rw [hnext]
  · cases hs

theorem idStep_retry (s t : IdState) (k : TaskId) (hs : idStep s (.retry k) = some t) :
    t = s.move k .idle := by
  rw [idStep] at hs
  split at hs
  · exact (Option.some.inj hs).symm
  · cases hs

theorem idStep_load (s t : IdState) (k : TaskId) (hs : idStep s (.load k) = some t) :
    t = s.move k (.loaded s.nextId) := (of_guard hs).2

theorem idsKept_step (s t : IdState) (l : IdLabel) (h : IdsKept s) (hs : idStep s l = some t) :
    IdsKept t := by
  cases l with
  | load k =>
    rw [idStep_load s t k hs]
    exact idsKept_move s k _ h fun id ticket e => by cases e
  | exchange k =>
    rw [idStep_exchange s t k hs]
    exact idsKept_exchange s k h
  | retry k =>
    rw [idStep_retry s t k hs]
    exact idsKept_move s k _ h fun id ticket e => by cases e
  | add k =>
    obtain ⟨id, ticket, registry, hmaker, hreg, rfl⟩ := idStep_add s t k hs
    exact idsKept_add s k id ticket registry h hmaker hreg
  | close cause r =>
    obtain ⟨registry, hr, hclose, rfl⟩ := idStep_close s t cause r hs
    exact idsKept_close s r registry h hr hclose

/-! ## unique ids -/

def UniqueIds (s : Registry) : Prop :=
  ∀ p q, some p ∈ s.connections → some q ∈ s.connections → s.conId p = s.conId q → p = q

/-- where a connection is registered, none of the registered ones has its id from an exchange a
multiple of `2 ^ 16` before or after the one that the new id is from -/
def Unwrapped (s : IdState) : IdLabel → Prop
  | .add k => ∀ id ticket, s.makers k = .issued id ticket →
    ∀ r ticket', some r ∈ s.registry.connections → s.tickets[r]? = some ticket' →
      ¬ SameId ticket ticket'
  | _ => True

/-- the exchange that the id of an entry is from, if there is one, is no such multiple away -/
def apart (tickets : List Nat) (ticket : Nat) : Option ConRef → Bool
  | none => true
  | some r =>
    match tickets[r]? with
    | none => true
    | some ticket' => !decide (SameId ticket ticket')

theorem unwrapped_add (s : IdState) (k : TaskId) :
    Unwrapped s (.add k) ↔ ∀ id ticket, s.makers k = .issued id ticket →
      (s.registry.connections.all (apart s.tickets ticket)) = true := by
  refine forall_congr' fun id => forall_congr' fun ticket => imp_congr_right fun _ => ?_
  rw [List.all_eq_true]
  constructor
  · intro h c hc
    cases c with
    | none => rfl
    | some r =>
      cases ht : s.tickets[r]? with
      | none => simp [apart, ht]
      | some ticket' => simp [apart, ht, h r ticket' hc ht]
  · intro h r ticket' hr ht
    have hapart := h (some r) hr
    simpa [apart, ht] using hapart

instance decidableUnwrapped (s : IdState) : (l : IdLabel) → Decidable (Unwrapped s l)
  | .add k =>
    match hk : s.makers k with
    | .issued id ticket => decidable_of_iff
        ((s.registry.connections.all (apart s.tickets ticket)) = true) (by
          rw [unwrapped_add]
          refine ⟨fun h id' ticket' he => ?_, fun h => h id ticket hk⟩
          rw [hk] at he
          rw [← (Maker.issued.inj he).2]
          exact h)
    | .idle => isTrue ((unwrapped_add s k).mpr fun _ _ he => by rw [hk] at he; cases he)
    | .loaded _ => isTrue ((unwrapped_add s k).mpr fun _ _ he => by rw [hk] at he; cases he)
  | .load _ => isTrue trivial
  | .exchange _ => isTrue trivial
  | .retry _ => isTrue trivial
  | .close _ _ => isTrue trivial

theorem IdsKept.ticket {s : IdState} (h : IdsKept s) {r : ConRef}
    (hr : some r ∈ s.registry.connections) :
    ∃ ticket, s.tickets[r]? = some ticket ∧ s.registry.conId r = some (UInt16.ofNat ticket) := by
  have hlt : r < s.tickets.length := by
    rw [h.objects]
    exact isOpen_lt (h.live.isOpen hr)
  refine ⟨s.tickets[r], List.getElem?_eq_getElem hlt, ?_⟩
  rw [h.ids r hr, List.getElem?_eq_getElem hlt]
  rfl

/-- as long as the counter has not wrapped -/
theorem unique_of_bound (s : IdState) (h : IdsKept s) (hle : s.exchanges ≤ 2 ^ 16) :
    UniqueIds s.registry := by
  intro p q hp hq hid
  obtain ⟨i, hi, hidp⟩ := h.ticket hp
  obtain ⟨j, hj, hidq⟩ := h.ticket hq
  rw [hidp, hidq, Option.some.injEq] at hid
  have hsame : i % 2 ^ 16 = j % 2 ^ 16 := (ofNat_eq_iff_sameId i j).mp hid
  have hi' := h.bound i (List.mem_of_getElem? hi)
  have hj' := h.bound j (List.mem_of_getElem? hj)
  rw [Nat.mod_eq_of_lt (by omega), Nat.mod_eq_of_lt (by omega)] at hsame
  rw [← hsame] at hj
  obtain ⟨hltp, -⟩ := List.getElem?_eq_some_iff.mp hi
  exact (List.getElem?_inj hltp h.nodup).mp (hi.trans hj.symm)

theorem findCon_unique (s : Registry) (r : ConRef) (id : ConId) (hid : s.conId r = some id)
    (refs : List ConRef) (hr : r ∈ refs) (hids : ∀ q ∈ refs, s.conId q = some id → q = r) :
    s.findCon id (refs.map some) = .ok (some r) := by
  induction refs with
  | nil => cases hr
  | cons q refs ih =>
    rw [List.map_cons, Registry.findCon]
    by_cases hq : s.conId q = some id
    · rw [if_pos hq, hids q List.mem_cons_self hq]
    · rw [if_neg hq]
      apply ih
      · apply List.mem_of_ne_of_mem _ hr
        intro e
        exact hq (e ▸ hid)
      · intro p hp
        exact hids p (List.mem_cons_of_mem q hp)

/-- `get_con` finds the connection that an id denotes -/
theorem getCon_unique (s : Registry) (h : s.Live) (hids : UniqueIds s) (r : ConRef) (id : ConId)
    (hr : some r ∈ s.connections) (hid : s.conId r = some id) : s.getCon id = .ok (some r) := by
  obtain ⟨refs, hrefs, -, -⟩ := h.refs
  have hmem : ∀ q, some q ∈ s.connections ↔ q ∈ refs := by
    intro q
    rw [hrefs, mem_map_some]
  rw [Registry.getCon, hrefs]
  apply findCon_unique s r id hid refs ((hmem r).mp hr)
  intro q hq hidq
  exact hids q r ((hmem q).mpr hq) hr (hidq.trans hid.symm)

theorem unique_step (s t : IdState) (l : IdLabel) (h : IdsKept s) (hu : UniqueIds s.registry)
    (hl : Unwrapped s l) (hs : idStep s l = some t) : UniqueIds t.registry := by
  cases l with
  | add k =>
    obtain ⟨id, ticket, registry, hmaker, hreg, rfl⟩ := idStep_add s t k hs
    obtain ⟨hid, -, -⟩ := h.makers k id ticket hmaker
    -- an old connection and the new one
    have hnew : ∀ p, some p ∈ s.registry.connections →
        registry.conId p ≠ registry.conId s.registry.objects.length := by
      intro p hp e
      obtain ⟨ticket', ht', hidp⟩ := h.ticket hp
      rw [conId_add_new id _ registry hreg,
        conId_add_old id _ registry hreg p (isOpen_lt (h.live.isOpen hp)), hidp, hid,
        Option.some.injEq] at e
      exact hl id ticket hmaker p ticket' hp ht' ((ofNat_eq_iff_sameId ticket ticket').mp e.symm)
    intro p q hp hq e
    rcases (mem_add id _ registry hreg p).mp hp with hp | rfl <;>
      rcases (mem_add id _ registry hreg q).mp hq with hq | rfl
    · have e : registry.conId p = registry.conId q := e
      rw [conId_add_old id _ registry hreg p (isOpen_lt (h.live.isOpen hp)),
        conId_add_old id _ registry hreg q (isOpen_lt (h.live.isOpen hq))] at e
      exact hu p q hp hq e
    · exact absurd e (hnew p hp)
    · exact absurd e.symm (hnew q hq)
    · rfl
  | close cause r =>
    obtain ⟨registry, hr, hclose, rfl⟩ := idStep_close s t cause r hs
    intro p q hp hq e
    obtain ⟨hp, hidp⟩ := close_kept _ _ r h.live hr hclose p hp
    obtain ⟨hq, hidq⟩ := close_kept _ _ r h.live hr hclose q hq
    exact hu p q hp hq (hidp.symm.trans (e.trans hidq))
  | load k =>
    rw [idStep_load s t k hs]
    exact hu
  | exchange k =>
    rw [idStep_exchange s t k hs]
    exact hu
  | retry k =>
    rw [idStep_retry s t k hs]
    exact hu

/-- a connection registered with the id of another one -/
theorem not_unique_step (s t : IdState) (l : IdLabel) (h : IdsKept s) (hl : ¬ Unwrapped s l)
    (hs : idStep s l = some t) : ¬ UniqueIds t.registry := by
  intro hu
  apply hl
  cases l with
  | add k =>
    obtain ⟨id, ticket, registry, hmaker, hreg, rfl⟩ := idStep_add s t k hs
    intro id' ticket' hmaker' r i hr hi hsame
    obtain ⟨rfl, rfl⟩ : id = id' ∧ ticket = ticket' := Maker.issued.inj (hmaker.symm.trans hmaker')
    obtain ⟨hid, -, -⟩ := h.makers k id ticket hmaker
    obtain ⟨j, hj, hidr⟩ := h.ticket hr
    obtain rfl : j = i := Option.some.inj (hj.symm.trans hi)
    have hlt := isOpen_lt (h.live.isOpen hr)
    have hids : registry.conId r = registry.conId s.registry.objects.length := by
      rw [conId_add_old id _ registry hreg r hlt, conId_add_new id _ registry hreg, hidr, hid,
        (ofNat_eq_iff_sameId ticket j).mpr hsame]
    have hr' := (mem_add id _ registry hreg r).mpr (.inl hr)
    have hnew := (mem_add id _ registry hreg _).mpr (.inr rfl)
    exact absurd (hu r _ hr' hnew hids) (Nat.ne_of_lt hlt)
  | load k | exchange k | retry k | close cause r => trivial

/-- **Registered connections have different ids all along a run exactly when no connection is
registered while one with an id from a multiple of `2 ^ 16` exchanges away still is**; so they do
while at most `2 ^ 16` ids were issued, and then `get_con` finds every connection by its id. -/
theorem ids_unique_iff (ls : List IdLabel) (s : IdState)
    (h : exec idStep IdState.init ls = some s) :
    (Always idStep (fun t => UniqueIds t.registry) IdState.init ls ↔
      Every idStep Unwrapped IdState.init ls) ∧
    (s.exchanges ≤ 2 ^ 16 → UniqueIds s.registry) ∧
    (UniqueIds s.registry → ∀ r id, some r ∈ s.registry.connections →
      s.registry.conId r = some id → s.registry.getCon id = .ok (some r)) := by
  have hkept : IdsKept s := (Reach.of_exec ls h).invariant idsKept_init fun t l u ht _ hs =>
    idsKept_step t u l ht hs
  refine ⟨?_, unique_of_bound s hkept, fun hu r id => getCon_unique s.registry hkept.live hu r id⟩
  refine always_iff_every (I := fun t => IdsKept t ∧ UniqueIds t.registry) (fun t ht => ht.2)
    (fun t l u ht hl hs => ?_) (fun t l u ht hl hs => ?_) ⟨idsKept_init, ?_⟩ ls h
  · exact ⟨idsKept_step t u l ht.1 hs, unique_step t u l ht.1 ht.2 hl hs⟩
  · exact not_unique_step t u l ht.1 hl hs
  · exact unique_of_bound _ idsKept_init (Nat.zero_le _)

/-- two tasks at once, and a third connection after the older one has closed -/
theorem ids_unique_iff_two :
    ∃ s, exec idStep IdState.init
        [.load 0, .load 1, .exchange 0, .retry 1, .load 1, .exchange 1, .add 1, .add 0,
          .close .endOfFile 0, .load 0, .exchange 0, .add 0] = some s ∧
      s.registry.connections = [some 1, some 2] ∧
      Every idStep Unwrapped IdState.init
        [.load 0, .load 1, .exchange 0, .retry 1, .load 1, .exchange 1, .add 1, .add 0,
          .close .endOfFile 0, .load 0, .exchange 0, .add 0] ∧
      Always idStep (fun t => UniqueIds t.registry) IdState.init
        [.load 0, .load 1, .exchange 0, .retry 1, .load 1, .exchange 1, .add 1, .add 0,
          .close .endOfFile 0, .load 0, .exchange 0, .add 0] ∧
      s.registry.getCon 2 = .ok (some 2) := by
  have hrun : (exec idStep IdState.init
      [.load 0, .load 1, .exchange 0, .retry 1, .load 1, .exchange 1, .add 1, .add 0,
        .close .endOfFile 0, .load 0, .exchange 0, .add 0]).map
        (fun s => (s.registry.connections, s.registry.conId 2))
      = some ([some 1, some 2], some 2) := by decide
  obtain ⟨s, hs, hval⟩ := Option.map_eq_some_iff.mp hrun
  simp only [Prod.mk.injEq] at hval
  obtain ⟨hconns, hid⟩ := hval
  have hevery : Every idStep Unwrapped IdState.init
      [.load 0, .load 1, .exchange 0, .retry 1, .load 1, .exchange 1, .add 1, .add 0,
        .close .endOfFile 0, .load 0, .exchange 0, .add 0] := by decide
  obtain ⟨hiff, -, hget⟩ := ids_unique_iff _ s hs
  have halways := hiff.mpr hevery
  exact ⟨s, hs, hconns, hevery, halways,
    hget (halways.last hs) 2 2 (by rw [hconns]; decide) hid⟩

/-! ## the counter wraps -/

/-- `n` connections opened, none closed -/
def opened (n : Nat) : IdState where
  registry := { Registry.init with
    objects := (List.range n).map fun i => ⟨UInt16.ofNat i, true⟩
    connections := (List.range n).map some }
  nextId := UInt16.ofNat n
  makers := fun _ => .idle
  exchanges := n
  tickets := List.range n

theorem opened_succ (n : Nat) :
    exec idStep (opened n) [.load 0, .exchange 0, .add 0] = some (opened (n + 1)) := by
  let s : IdState := (opened n).move 0 (.loaded (UInt16.ofNat n))
  let t : IdState := { s.move 0 (.issued (UInt16.ofNat n) n) with
    nextId := UInt16.ofNat n + 1
    exchanges := n + 1 }
  have hload : idStep (opened n) (.load 0) = some s := by
    rw [idStep]
    exact if_pos rfl
  have hexchange : idStep s (.exchange 0) = some t := by
    rw [idStep]
    exact if_pos rfl
  have hidle : Function.update t.makers 0 .idle = fun _ => .idle := by
    show Function.update (Function.update (Function.update (fun _ : TaskId => Maker.idle) 0 _) 0 _)
      0 _ = _
    rw [Function.update_idem, Function.update_idem]
    exact Function.update_eq_self 0 _
  have hadd : idStep t (.add 0) = some { t with
      registry := { Registry.init with
        objects := (opened n).registry.objects ++ [⟨UInt16.ofNat n, true⟩]
        connections := (opened n).registry.connections ++
          [some (opened n).registry.objects.length] }
      makers := Function.update t.makers 0 .idle
      tickets := List.range n ++ [n] } := rfl
  rw [exec, hload, Option.bind_some, exec, hexchange, Option.bind_some, exec, hadd, hidle]
  simp [exec, t, opened, List.range_succ, UInt16.ofNat_add]

theorem opened_reach (n : Nat) : Reach idStep (fun _ _ => True) IdState.init (opened n) := by
  induction n with
  | zero => exact Reach.refl _
  | succ n ih => exact Relation.ReflTransGen.trans ih (Reach.of_exec _ (opened_succ n))

theorem opened_mem {n r : Nat} (hr : r < n) : some r ∈ (opened n).registry.connections :=
  List.mem_map_of_mem (List.mem_range.mpr hr)

theorem opened_conId {n r : Nat} (hr : r < n) :
    (opened n).registry.conId r = some (UInt16.ofNat r) := by
  show ((List.range n).map fun i => (⟨UInt16.ofNat i, true⟩ : ConObject))[r]?.map _ = _
  rw [List.getElem?_map, List.getElem?_range hr]
  rfl

/-- `2 ^ 16 + 1` connections are opened and stay open: the first and the last have one id -/
theorem ids_repeat :
    ∃ s, Reach idStep (fun _ _ => True) IdState.init s ∧ some 0 ∈ s.registry.connections ∧
      some 65536 ∈ s.registry.connections ∧
      s.registry.conId 0 = some 0 ∧ s.registry.conId 65536 = some 0 ∧ ¬ UniqueIds s.registry := by
  have hfirst : 0 < 65537 := by decide
  have hlast : 65536 < 65537 := by decide
  refine ⟨opened 65537, opened_reach 65537, opened_mem hfirst, opened_mem hlast,
    opened_conId hfirst, opened_conId hlast, fun hu => ?_⟩
  have hsame := hu 0 65536 (opened_mem hfirst) (opened_mem hlast)
    ((opened_conId hfirst).trans (opened_conId hlast).symm)
  exact absurd hsame (by decide)

end VoltNet
