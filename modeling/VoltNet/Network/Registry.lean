import VoltNet.Framing.NetCon
import VoltNet.Lib.Fallible

/-!
# The registry of connections

`connections` owns its `net_con` objects, so taking one out of the vector destroys it, its
destructor calls `close_con`, and that calls the closed callback again.  `erase` is the loop that
`std::vector` runs: it moves every later element one slot down, destroys what each slot held, and
then destroys the last slot.  A step that uses a slot behind the end, a null pointer, or the
parameter that the closed callback captured by reference is a `NetFault`.

* `Registry`, `addConnection`, `getCon`   the data and what reads and extends it;
* `closeCon`                              closing with everything it causes;
* `closeCon_shrunk`                       closing opens nothing and adds nothing;
* `closeCon_shrinks`                      it takes an entry off `connections`, or more;
* `closeCon_fuel`                         the nesting ends.
-/

namespace VoltNet
open Fallible

/-- a `net_con` object in memory -/
abbrev ConRef := Nat

structure ConObject where
  id : ConId
  conOpen : Bool
deriving DecidableEq

inductive NetFault where
  /-- `con` in the closed callback: a parameter of `add_connection`, which has returned -/
  | danglingReference
  /-- `*con` for an empty pointer -/
  | nullReference
  /-- a slot at or behind `end()` -/
  | pastEnd (slot : Nat)
  | outOfFuel
deriving DecidableEq

structure Registry where
  /-- every `net_con` made so far -/
  objects : List ConObject
  /-- slots of the vector, `none` for a pointer that was moved from -/
  connections : List (Option ConRef)
  running : Bool
  /-- whether these are set -/
  newConnectionCallback : Bool
  closedConnectionCallback : Bool
deriving DecidableEq

def Registry.init : Registry := ⟨[], [], true, false, false⟩

def Registry.isOpen (s : Registry) (r : ConRef) : Bool :=
  (s.objects[r]?.map ConObject.conOpen).getD false

def Registry.conId (s : Registry) (r : ConRef) : Option ConId := s.objects[r]?.map ConObject.id

/-- `con_open.store(false)` -/
def Registry.setClosed (s : Registry) (r : ConRef) : Registry :=
  { s with objects := s.objects.modify r fun o => { o with conOpen := false } }

/-- the parameter is moved into the vector and then handed to `new_connection_callback` -/
def Registry.addConnection (id : ConId) (s : Registry) : Except NetFault Registry :=
  let s : Registry := { s with
    objects := s.objects ++ [⟨id, true⟩]
    connections := s.connections ++ [some s.objects.length] }
  if s.newConnectionCallback then .error .nullReference else .ok s

/-- the loop of `get_con`, `none` for `null_con` -/
def Registry.findCon (s : Registry) (id : ConId) :
    List (Option ConRef) → Except NetFault (Option ConRef)
  | [] => .ok none
  | none :: _ => .error .nullReference
  | some r :: rest => if s.conId r = some id then .ok (some r) else s.findCon id rest

def Registry.getCon (s : Registry) (id : ConId) : Except NetFault (Option ConRef) :=
  s.findCon id s.connections

/-! ## closing -/

/-- `std::find_if` over `n` slots from `first`, with the predicate of the closed callback -/
def Registry.findIf (s : Registry) (id : ConId) (first : Nat) : Nat → Except NetFault Nat
  | 0 => .ok first
  | n + 1 =>
    match s.connections[first]? with
    | none => .error (.pastEnd first)
    | some none => .error .nullReference
    | some (some r) => if s.conId r = some id then .ok first else s.findIf id (first + 1) n

section
/- `delete` is the destruction of the object behind a pointer -/
variable (delete : ConRef → Registry → Except NetFault Registry)

/-- destruction of what a pointer held -/
def deleteHeld (old : Option ConRef) (s : Registry) : Except NetFault Registry :=
  match old with
  | none => .ok s
  | some r => delete r s

/-- `n` turns of the loop of `erase`: slot `i` takes what slot `i + 1` holds -/
def moveDown : Nat → Nat → Registry → Except NetFault Registry
  | 0, _, s => .ok s
  | n + 1, i, s =>
    match s.connections[i]?, s.connections[i + 1]? with
    | some old, some new => do
      let s ← deleteHeld delete old
        { s with connections := (s.connections.set i new).set (i + 1) none }
      moveDown n (i + 1) s
    | _, _ => .error (.pastEnd (i + 1))

/-- the end of `erase`: the vector is one shorter, then its old last slot is destroyed -/
def popBack (s : Registry) : Except NetFault Registry :=
  match s.connections.getLast? with
  | none => .error (.pastEnd 0)
  | some last => deleteHeld delete last { s with connections := s.connections.dropLast }

def erase (pos : Nat) (s : Registry) : Except NetFault Registry := do
  let s ← moveDown delete (s.connections.length - (pos + 1)) pos s
  popBack delete s

/-- the callback that `add_connection` installs; it searches from `begin()` to `begin()` -/
def closedCallback (id : ConId) (s : Registry) : Except NetFault Registry :=
  if s.closedConnectionCallback then .error .danglingReference
  else if !s.running then .ok s
  else do
    let conPos ← s.findIf id 0 0
    if conPos ≠ s.connections.length then erase delete conPos s else .ok s

end

/-- `close_con`, which is also all that the destructor does -/
def closeCon : Nat → ConRef → Registry → Except NetFault Registry
  | 0, _, _ => .error .outOfFuel
  | fuel + 1, r, s =>
    match s.objects[r]? with
    | none => .error .nullReference
    | some o =>
      if !o.conOpen then .ok s
      else closedCallback (closeCon fuel) o.id (s.setClosed r)

/-- with fuel for every object -/
def Registry.closeCon (r : ConRef) (s : Registry) : Except NetFault Registry :=
  VoltNet.closeCon (s.objects.length + 1) r s

/-- how a connection comes to be closed -/
inductive CloseCause where
  | call
  | endOfFile
  | readError
deriving DecidableEq

/-- `close_con` by the user, or the two branches of `handle_read` that close -/
def Registry.close (cause : CloseCause) (r : ConRef) (s : Registry) : Except NetFault Registry :=
  match cause with
  | .call => s.closeCon r
  | .endOfFile => s.closeCon r
  | .readError => s.closeCon r

/-! ## what closing does to a registry -/

def Registry.openCount (s : Registry) : Nat := s.objects.countP ConObject.conOpen

/-- `t` comes from `s` by closing connections and taking entries away -/
structure Registry.Shrunk (s t : Registry) : Prop where
  length : t.connections.length ≤ s.connections.length
  closed : ∀ r, s.isOpen r = false → t.isOpen r = false
  opens : t.openCount ≤ s.openCount
  objects : t.objects.length = s.objects.length
  running : t.running = s.running
  newCallback : t.newConnectionCallback = s.newConnectionCallback
  closedCallback : t.closedConnectionCallback = s.closedConnectionCallback

theorem Registry.Shrunk.refl (s : Registry) : s.Shrunk s :=
  ⟨le_rfl, fun _ h => h, le_rfl, rfl, rfl, rfl, rfl⟩

theorem Registry.Shrunk.trans {s t u : Registry} (h1 : s.Shrunk t) (h2 : t.Shrunk u) :
    s.Shrunk u where
  length := h2.length.trans h1.length
  closed r h := h2.closed r (h1.closed r h)
  opens := h2.opens.trans h1.opens
  objects := h2.objects.trans h1.objects
  running := h2.running.trans h1.running
  newCallback := h2.newCallback.trans h1.newCallback
  closedCallback := h2.closedCallback.trans h1.closedCallback

/-- moving slots about closes nothing -/
theorem shrunk_connections (s : Registry) (c : List (Option ConRef))
    (h : c.length ≤ s.connections.length) : s.Shrunk { s with connections := c } :=
  ⟨h, fun _ h => h, le_rfl, rfl, rfl, rfl, rfl⟩

theorem isOpen_setClosed (s : Registry) (r q : ConRef) :
    (s.setClosed r).isOpen q = if r = q then false else s.isOpen q := by
  unfold Registry.isOpen Registry.setClosed
  by_cases h : r = q
  · rw [if_pos h, h, List.getElem?_modify_eq]
    cases s.objects[q]? <;> rfl
  · rw [if_neg h, List.getElem?_modify_ne _ _ h]

theorem countP_modify (l : List ConObject) (r : Nat) (o : ConObject) (ho : l[r]? = some o)
    (hopen : o.conOpen = true) :
    (l.modify r fun o => { o with conOpen := false }).countP ConObject.conOpen + 1
      = l.countP ConObject.conOpen := by
  induction l generalizing r with
  | nil => cases ho
  | cons a l ih =>
    cases r with
    | zero =>
      obtain rfl : a = o := Option.some.inj ho
      rw [List.modify_zero_cons, List.countP_cons_of_neg (by simp), List.countP_cons_of_pos hopen]
    | succ r =>
      rw [List.modify_succ_cons, List.countP_cons, List.countP_cons, ← ih r ho]
      omega

theorem shrunk_setClosed (s : Registry) (r : ConRef) (o : ConObject) (ho : s.objects[r]? = some o)
    (hopen : o.conOpen = true) :
    s.Shrunk (s.setClosed r) ∧ (s.setClosed r).openCount + 1 = s.openCount := by
  have hcount := countP_modify s.objects r o ho hopen
  refine ⟨⟨le_rfl, fun q hq => ?_, ?_, List.length_modify .., rfl, rfl, rfl⟩, hcount⟩
  · rw [isOpen_setClosed, hq, ite_self]
  · exact Nat.le_of_succ_le (Nat.le_of_eq hcount)

section
variable {delete : ConRef → Registry → Except NetFault Registry}

/-! ### the loop of `erase`, for any destructor that shrinks the registry -/

def Shrinking (delete : ConRef → Registry → Except NetFault Registry) : Prop :=
  ∀ r s t, delete r s = .ok t → s.Shrunk t

theorem deleteHeld_shrunk (hdel : Shrinking delete) (old : Option ConRef)
    (s t : Registry) (h : deleteHeld delete old s = .ok t) : s.Shrunk t := by
  cases old with
  | none =>
    rw [← Except.ok.inj h]
    exact Registry.Shrunk.refl s
  | some r => exact hdel r s t h

theorem moveDown_succ (n i : Nat) (s t : Registry) (h : moveDown delete (n + 1) i s = .ok t) :
    ∃ old new u, s.connections[i]? = some old ∧ s.connections[i + 1]? = some new ∧
      deleteHeld delete old
        { s with connections := (s.connections.set i new).set (i + 1) none } = .ok u ∧
      moveDown delete n (i + 1) u = .ok t := by
  rw [moveDown] at h
  split at h
  · next old new hold hnew =>
    obtain ⟨u, hu, ht⟩ := (bind_ok _ _ _).mp h
    exact ⟨old, new, u, hold, hnew, hu, ht⟩
  · cases h

theorem moveDown_shrunk (hdel : Shrinking delete) (n i : Nat)
    (s t : Registry) (h : moveDown delete n i s = .ok t) : s.Shrunk t := by
  induction n generalizing i s with
  | zero =>
    rw [← Except.ok.inj h]
    exact Registry.Shrunk.refl s
  | succ n ih =>
    obtain ⟨old, new, u, -, -, hu, ht⟩ := moveDown_succ n i s t h
    have hset := shrunk_connections s ((s.connections.set i new).set (i + 1) none)
      (by rw [List.length_set, List.length_set])
    exact hset.trans ((deleteHeld_shrunk hdel old _ u hu).trans (ih (i + 1) u ht))

/-- the loop returns only when the vector is long enough for its last turn -/
theorem moveDown_length (hdel : Shrinking delete) (n i : Nat)
    (s t : Registry) (h : moveDown delete (n + 1) i s = .ok t) :
    i + n + 1 < s.connections.length := by
  induction n generalizing i s with
  | zero =>
    obtain ⟨_, _, _, _, hnew, _, _⟩ := moveDown_succ 0 i s t h
    exact (List.getElem?_eq_some_iff.mp hnew).1
  | succ n ih =>
    obtain ⟨old, new, u, -, -, hu, ht⟩ := moveDown_succ (n + 1) i s t h
    have hlen := (deleteHeld_shrunk hdel old _ u hu).length
    rw [List.length_set, List.length_set] at hlen
    have := ih (i + 1) u ht
    omega

theorem popBack_shrunk (hdel : Shrinking delete) (s t : Registry)
    (h : popBack delete s = .ok t) :
    s.Shrunk t ∧ t.connections.length < s.connections.length := by
  unfold popBack at h
  split at h
  · cases h
  · next last hlast =>
    have hne : s.connections ≠ [] := by
      intro he
      rw [he] at hlast
      cases hlast
    have hpos := List.length_pos_of_ne_nil hne
    have hset := shrunk_connections s s.connections.dropLast
      (by rw [List.length_dropLast]; exact Nat.sub_le _ _)
    have hd := deleteHeld_shrunk hdel last _ t h
    have hlen := hd.length
    rw [List.length_dropLast] at hlen
    exact ⟨hset.trans hd, by omega⟩

theorem erase_shrunk (hdel : Shrinking delete) (pos : Nat)
    (s t : Registry) (h : erase delete pos s = .ok t) :
    s.Shrunk t ∧ t.connections.length < s.connections.length := by
  obtain ⟨u, hu, ht⟩ := (bind_ok _ _ _).mp h
  have h1 := moveDown_shrunk hdel _ pos s u hu
  obtain ⟨h2, hlt⟩ := popBack_shrunk hdel u t ht
  exact ⟨h1.trans h2, lt_of_lt_of_le hlt h1.length⟩

/-- the search never gets anywhere: what is erased is the first entry -/
theorem closedCallback_erase (id : ConId) (s : Registry) (hcb : s.closedConnectionCallback = false)
    (hrun : s.running = true) (hne : s.connections ≠ []) :
    closedCallback delete id s = erase delete 0 s := by
  have hpos := List.length_pos_of_ne_nil hne
  rw [closedCallback, if_neg (by rw [hcb]; decide), if_neg (by rw [hrun]; decide)]
  show (if 0 ≠ s.connections.length then erase delete 0 s else .ok s) = _
  rw [if_pos hpos.ne]

theorem closedCallback_shrunk (hdel : Shrinking delete) (id : ConId)
    (s t : Registry) (h : closedCallback delete id s = .ok t) : s.Shrunk t := by
  unfold closedCallback at h
  split at h
  · cases h
  · split at h
    · rw [← Except.ok.inj h]
      exact Registry.Shrunk.refl s
    · obtain ⟨pos, -, ht⟩ := (bind_ok _ _ _).mp h
      split at ht
      · exact (erase_shrunk hdel pos s t ht).1
      · rw [← Except.ok.inj ht]
        exact Registry.Shrunk.refl s

end

/-! ### `close_con` -/

theorem closeCon_shrunk (fuel : Nat) (r : ConRef) (s t : Registry)
    (h : closeCon fuel r s = .ok t) : s.Shrunk t ∧ t.isOpen r = false := by
  induction fuel generalizing r s t with
  | zero => cases h
  | succ fuel ih =>
    rw [closeCon] at h
    split at h
    · cases h
    · next o ho =>
      by_cases hopen : o.conOpen = true
      · rw [if_neg (by rw [hopen]; decide)] at h
        obtain ⟨hset, -⟩ := shrunk_setClosed s r o ho hopen
        have hcb := closedCallback_shrunk (fun r s t ht => (ih r s t ht).1) o.id _ t h
        refine ⟨hset.trans hcb, hcb.closed r ?_⟩
        rw [isOpen_setClosed, if_pos rfl]
      · have hfalse : o.conOpen = false := Bool.eq_false_iff.mpr hopen
        rw [hfalse, if_pos (by decide)] at h
        rw [← Except.ok.inj h]
        refine ⟨Registry.Shrunk.refl s, ?_⟩
        rw [Registry.isOpen, ho]
        exact hfalse

theorem closeCon_shrinking (fuel : Nat) : Shrinking (closeCon fuel) := by
  intro r s t h
  exact (closeCon_shrunk fuel r s t h).1

theorem closeCon_open (fuel : Nat) (r : ConRef) (s : Registry) (ho : s.isOpen r = true) :
    ∃ id, closeCon (fuel + 1) r s = closedCallback (closeCon fuel) id (s.setClosed r) := by
  rw [Registry.isOpen] at ho
  cases hobj : s.objects[r]? with
  | none => rw [hobj] at ho; cases ho
  | some o =>
    rw [hobj] at ho
    have hopen : o.conOpen = true := ho
    refine ⟨o.id, ?_⟩
    rw [closeCon, hobj]
    show (if !o.conOpen then _ else _) = _
    rw [if_neg (by rw [hopen]; decide)]

/-- a closed connection is left alone, also by its destructor -/
theorem closeCon_idle (fuel : Nat) (r : ConRef) (s : Registry) (hr : r < s.objects.length)
    (hc : s.isOpen r = false) : closeCon (fuel + 1) r s = .ok s := by
  rw [Registry.isOpen, List.getElem?_eq_getElem hr] at hc
  have hopen : s.objects[r].conOpen = false := hc
  rw [closeCon, List.getElem?_eq_getElem hr]
  show (if !s.objects[r].conOpen then _ else _) = _
  rw [if_pos (by rw [hopen]; decide)]

/-- **Closing an open connection of a running network takes at least one entry away.** -/
theorem closeCon_shrinks (fuel : Nat) (r : ConRef) (s t : Registry) (ho : s.isOpen r = true)
    (hcb : s.closedConnectionCallback = false) (hrun : s.running = true)
    (hne : s.connections ≠ []) (h : closeCon fuel r s = .ok t) :
    t.connections.length < s.connections.length := by
  cases fuel with
  | zero => cases h
  | succ fuel =>
    obtain ⟨id, hid⟩ := closeCon_open fuel r s ho
    rw [hid, closedCallback_erase id (s.setClosed r) hcb hrun hne] at h
    exact (erase_shrunk (closeCon_shrinking fuel) 0 _ t h).2

/-! ### the nesting ends -/

section
variable {delete : ConRef → Registry → Except NetFault Registry} {n : Nat}

/-- a destructor that is never out of fuel while at most `n` connections are open -/
def Fuelled (n : Nat) (step : Registry → Except NetFault Registry) : Prop :=
  ∀ s, s.openCount ≤ n → step s ≠ .error .outOfFuel

theorem deleteHeld_fuel (hfuel : ∀ r, Fuelled n (delete r)) (old : Option ConRef) :
    Fuelled n (deleteHeld delete old) := by
  intro s hs
  cases old with
  | none =>
    intro h
    cases h
  | some r => exact hfuel r s hs

theorem moveDown_fuel (hdel : Shrinking delete)
    (hfuel : ∀ r, Fuelled n (delete r)) (m i : Nat) : Fuelled n (moveDown delete m i) := by
  induction m generalizing i with
  | zero =>
    intro s _ h
    cases h
  | succ m ih =>
    intro s hs h
    rw [moveDown] at h
    split at h
    · next old new hold hnew =>
      rcases (bind_error _ _ _).mp h with h1 | ⟨u, hu, h1⟩
      · exact deleteHeld_fuel hfuel old
          { s with connections := (s.connections.set i new).set (i + 1) none } hs h1
      · exact ih (i + 1) u ((deleteHeld_shrunk hdel old _ u hu).opens.trans hs) h1
    · cases h

theorem popBack_fuel (hfuel : ∀ r, Fuelled n (delete r)) : Fuelled n (popBack delete) := by
  intro s hs h
  unfold popBack at h
  split at h
  · cases h
  · next last hlast =>
    exact deleteHeld_fuel hfuel last { s with connections := s.connections.dropLast } hs h

theorem findIf_fuel (s : Registry) (id : ConId) (first m : Nat) :
    s.findIf id first m ≠ .error .outOfFuel := by
  induction m generalizing first with
  | zero =>
    intro h
    cases h
  | succ m ih =>
    intro h
    rw [Registry.findIf] at h
    split at h
    · cases h
    · cases h
    · split at h
      · cases h
      · exact ih (first + 1) h

theorem closedCallback_fuel (hdel : Shrinking delete)
    (hfuel : ∀ r, Fuelled n (delete r)) (id : ConId) : Fuelled n (closedCallback delete id) := by
  intro s hs h
  unfold closedCallback at h
  split at h
  · cases h
  · split at h
    · cases h
    · rcases (bind_error _ _ _).mp h with h1 | ⟨pos, -, h1⟩
      · exact findIf_fuel s id 0 0 h1
      · split at h1
        · rcases (bind_error _ _ _).mp h1 with h2 | ⟨u, hu, h2⟩
          · exact moveDown_fuel hdel hfuel _ pos s hs h2
          · exact popBack_fuel hfuel u ((moveDown_shrunk hdel _ pos s u hu).opens.trans hs) h2
        · cases h1

end

/-- **Fuel for every open connection is enough.** -/
theorem closeCon_fuel (fuel : Nat) (r : ConRef) (s : Registry) (h : s.openCount < fuel) :
    closeCon fuel r s ≠ .error .outOfFuel := by
  induction fuel generalizing r s with
  | zero => omega
  | succ fuel ih =>
    intro hs
    rw [closeCon] at hs
    split at hs
    · cases hs
    · next o ho =>
      split at hs
      · cases hs
      · next hopen =>
        obtain ⟨-, hcount⟩ := shrunk_setClosed s r o ho (by simpa using hopen)
        have hpos : 0 < fuel := by omega
        exact closedCallback_fuel (closeCon_shrinking fuel)
          (fun r u hu => ih r u (Nat.lt_of_le_of_lt hu (Nat.sub_lt hpos Nat.one_pos))) o.id _
          (by omega) hs

theorem Registry.closeCon_fuel (r : ConRef) (s : Registry) :
    s.closeCon r ≠ .error .outOfFuel :=
  VoltNet.closeCon_fuel _ r s (Nat.lt_succ_of_le List.countP_le_length)

end VoltNet
