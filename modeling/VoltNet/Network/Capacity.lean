import VoltNet.Network.Circulation

/-!
# How many buffers the pool holds

`return_message` compares the number of pooled buffers with `max_messages` by `<=` before it adds
one, so a buffer that comes to a pool with exactly `max_messages` of them is kept.

* `FreedWhenFull`    a buffer whose last handle is dropped while the pool is full is deleted;
* `NotAtCapacity`    no call of `return_message` finds exactly `max_messages` buffers;
* `msgVec_le`        the pool never holds more than one buffer too many;
* `capacity_iff`     it is within its capacity in a run exactly when all steps are `NotAtCapacity`.
-/

namespace VoltNet
open Runs

def MsgPool.WithinCapacity (s : MsgPool) : Prop := s.msgVec.length ≤ maxMessages

/-- freed rather than kept -/
def Freed (buf : Buf) (s : MsgPool) : Prop := buf ∈ s.deleted ∧ buf ∉ s.pooled

/-- the last handle of a message is dropped while the pool is full: then its buffer is freed, at
once or when `return_message` gets the lock and the pool still is full -/
def FreedWhenFull (s : MsgPool) : MsgPoolLabel → MsgPool → List MsgPoolLabel → Prop
  | .drop h, t, ls => s.LastHandle h → maxMessages ≤ s.msgVec.length →
      Freed h.ptr.buf t ∨
        Awaits msgPoolStep (fun u => h.ptr.buf ∈ u.returning) (.returnMessage h.ptr.buf)
          (fun u v => maxMessages ≤ u.msgVec.length → Freed h.ptr.buf v) t ls
  | _, _, _ => True

/-- a call of `return_message` that gets the lock does not find exactly `max_messages` buffers -/
def NotAtCapacity (s : MsgPool) : MsgPoolLabel → Prop
  | .returnMessage _ => s.msgVec.length ≠ maxMessages
  | _ => True

/-! ## the length of the pool -/

/-- what one step does to a pool that may be over its capacity by one -/
theorem msgVec_le_step (s : MsgPool) (l : MsgPoolLabel) (t : MsgPool)
    (h : s.msgVec.length ≤ maxMessages + 1) (hs : msgPoolStep s l = some t) :
    t.msgVec.length ≤ maxMessages + 1 := by
  rcases msgVec_step s l t hs with ⟨hvec, -⟩ | ⟨b, -, rfl⟩
  · exact hvec.length_le.trans h
  · rcases returnMessage_cases s b with ⟨hroom, hvec⟩ | ⟨-, hvec⟩
    · rw [hvec, List.length_append, List.length_singleton]
      omega
    · rw [hvec]
      exact h

/-- **The pool never holds more than `max_messages + 1` buffers.** -/
theorem msgVec_le (s : MsgPool) (h : Reach msgPoolStep (fun _ _ => True) MsgPool.init s) :
    s.msgVec.length ≤ maxMessages + 1 := by
  have hstep : ∀ t l u, t.msgVec.length ≤ maxMessages + 1 → True → msgPoolStep t l = some u →
      u.msgVec.length ≤ maxMessages + 1 := fun t l u ht _ hu => msgVec_le_step t l u ht hu
  refine h.invariant ?_ hstep
  exact Nat.zero_le _

/-- the invariant of the runs that stay below the capacity when they return a buffer -/
structure InCapacity (s : MsgPool) : Prop where
  circulating : Circulating s
  within : s.WithinCapacity

theorem inCapacity_step (s : MsgPool) (l : MsgPoolLabel) (t : MsgPool) (h : InCapacity s)
    (hl : NotAtCapacity s l) (hs : msgPoolStep s l = some t) : InCapacity t := by
  refine ⟨circulating_step s l t h.circulating hs, ?_⟩
  have hwithin : s.msgVec.length ≤ maxMessages := h.within
  show t.msgVec.length ≤ maxMessages
  rcases msgVec_step s l t hs with ⟨hvec, -⟩ | ⟨b, rfl, rfl⟩
  · exact hvec.length_le.trans hwithin
  · have hne : s.msgVec.length ≠ maxMessages := hl
    rcases returnMessage_cases s b with ⟨-, hvec⟩ | ⟨-, hvec⟩
    · rw [hvec, List.length_append, List.length_singleton]
      omega
    · rw [hvec]
      exact hwithin

/-- **A buffer that is returned to a pool of `max_messages` is kept.** -/
theorem overfull_step (s : MsgPool) (l : MsgPoolLabel) (t : MsgPool) (hl : ¬ NotAtCapacity s l)
    (hs : msgPoolStep s l = some t) : ¬ t.WithinCapacity := by
  cases l with
  | get => exact absurd trivial hl
  | write k contents => exact absurd trivial hl
  | copy k => exact absurd trivial hl
  | drop k => exact absurd trivial hl
  | returnMessage b =>
    obtain ⟨-, rfl⟩ := of_guard hs
    have hfull : s.msgVec.length = maxMessages := not_not.mp hl
    show ¬ (s.returnMessage b).msgVec.length ≤ maxMessages
    rcases returnMessage_cases s b with ⟨-, hvec⟩ | ⟨hover, -⟩
    · rw [hvec, List.length_append, List.length_singleton]
      omega
    · omega

/-! ## buffers that are dropped -/

/-- a deleted buffer is not in the pool -/
theorem freed_of_deleted (s : MsgPool) (h : BufferInv s) (b : Buf) (hb : b ∈ s.deleted) :
    Freed b s := by
  refine ⟨hb, fun hin => ?_⟩
  obtain ⟨p, hp, rfl⟩ := List.mem_map.mp hin
  have hgone := (h.exclusive.clean.gone p.buf hb).1
  cases hgone.symm.trans (h.exclusive.clean.empty p hp)

theorem freed_whenFull (s : MsgPool) (l : MsgPoolLabel) (t : MsgPool) (ls : List MsgPoolLabel)
    (h : InCapacity s) (hl : NotAtCapacity s l) (hs : msgPoolStep s l = some t)
    (hls : Every msgPoolStep NotAtCapacity t ls) : FreedWhenFull s l t ls := by
  have ht : InCapacity t := inCapacity_step s l t h hl hs
  cases l with
  | get => trivial
  | write k contents => trivial
  | copy k => trivial
  | returnMessage b => trivial
  | drop k =>
    obtain ⟨hk, rfl⟩ := of_guard hs
    intro hlast _
    by_cases hreused : k.ptr.buf ∈ s.returned
    · have hdeleted := (drop_last_reused s h.circulating k hk hlast hreused).1
      refine .inl (freed_of_deleted _ ht.circulating.buffers _ ?_)
      rw [hdeleted]
      exact List.mem_append_right _ (List.mem_singleton.mpr rfl)
    · have hwaits : k.ptr.buf ∈ (s.dropHandle k).returning := by
        rw [drop_last_first s h.circulating k hk hlast hreused]
        exact List.mem_cons_self
      have hwait : ∀ u, InCapacity u ∧ k.ptr.buf ∈ u.returning → k.ptr.buf ∈ u.returning :=
        fun u hu => hu.2
      refine .inr (awaits_of_every hwait ?_ ?_ ⟨ht, hwaits⟩ ls hls)
      · intro u l v hu hl hne hv
        exact ⟨inCapacity_step u l v hu.1 hl hv, returning_step u l v _ hu.2 hne hv⟩
      · intro u v hu hl _ hfull
        exact absurd (Nat.le_antisymm hu.1.within hfull) hl

/-- **The pool respects its capacity in exactly those runs in which no buffer is returned to a pool
of `max_messages`.**  In a run of any threads that get messages, write to them, and copy and drop
handles: the pool holds at most `max_messages` buffers in every state, and every buffer that is
dropped when it is full is freed, if and only if no call of `return_message` finds exactly
`max_messages` buffers. -/
theorem capacity_iff (ls : List MsgPoolLabel) (s : MsgPool)
    (h : exec msgPoolStep MsgPool.init ls = some s) :
    (Always msgPoolStep MsgPool.WithinCapacity MsgPool.init ls ∧
        EveryThen msgPoolStep FreedWhenFull MsgPool.init ls) ↔
      Every msgPoolStep NotAtCapacity MsgPool.init ls := by
  have hinit : InCapacity MsgPool.init := ⟨circulating_init, Nat.zero_le _⟩
  have halways : Always msgPoolStep MsgPool.WithinCapacity MsgPool.init ls ↔
      Every msgPoolStep NotAtCapacity MsgPool.init ls :=
    always_iff_every (fun _ hs => hs.within) inCapacity_step
      (fun s l t _ hl hs => overfull_step s l t hl hs) hinit ls h
  constructor
  · intro hall
    exact halways.mp hall.1
  · intro hevery
    exact ⟨halways.mpr hevery, everyThen_of_every inCapacity_step freed_whenFull hinit ls hevery⟩

/-- two messages that are dropped one after the other -/
theorem capacity_iff_two :
    Always msgPoolStep MsgPool.WithinCapacity MsgPool.init
        [.get, .get, .drop ⟨0, ⟨0, 0⟩⟩, .returnMessage 0, .drop ⟨1, ⟨1, 1⟩⟩, .returnMessage 1] ∧
      EveryThen msgPoolStep FreedWhenFull MsgPool.init
        [.get, .get, .drop ⟨0, ⟨0, 0⟩⟩, .returnMessage 0, .drop ⟨1, ⟨1, 1⟩⟩, .returnMessage 1] := by
  refine (capacity_iff _ _ rfl).mpr ?_
  rw [every_cons rfl, every_cons rfl, every_cons rfl, every_cons rfl, every_cons rfl,
    every_cons rfl]
  have hempty : 0 ≠ maxMessages := by decide
  have hone : 1 ≠ maxMessages := by decide
  exact ⟨trivial, trivial, trivial, hempty, trivial, hone, trivial⟩

/-- `n` messages are got, and dropped after that -/
def dropAll (n : Nat) : List MsgPoolLabel :=
  List.replicate n .get ++ (List.range n).flatMap fun i => [.drop ⟨i, ⟨i, i⟩⟩, .returnMessage i]

/-- fifty-one messages are live at once and dropped: the pool keeps all their buffers -/
theorem pool_overfull :
    ∃ s, exec msgPoolStep MsgPool.init (dropAll 51) = some s ∧ s.msgVec.length = 51 ∧
      s.deleted = [] ∧ maxMessages = 50 ∧
      ¬ Always msgPoolStep MsgPool.WithinCapacity MsgPool.init (dropAll 51) := by
  have hrun : (exec msgPoolStep MsgPool.init (dropAll 51)).map
      (fun s => (s.msgVec.length, s.deleted)) = some (51, []) := by decide +kernel
  obtain ⟨s, hs, hval⟩ := Option.map_eq_some_iff.mp hrun
  have hlength : s.msgVec.length = 51 := congrArg Prod.fst hval
  refine ⟨s, hs, hlength, congrArg Prod.snd hval, rfl, fun hall => ?_⟩
  have hwithin : s.msgVec.length ≤ 50 := hall.last hs
  omega

end VoltNet
