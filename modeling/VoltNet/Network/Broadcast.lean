import VoltNet.Network.Shutdown

/-!
# Sending to every connection

The users of a network send a message to all of its connections in a loop over `get_con_index`, under
the guard, while connections are added and closed between such loops.

* `broadcast`         the loop, which asks for `get_con_count` in every turn;
* `broadcastStep`     loops, additions, closings and `network::close`;
* `Broadcasting`      the invariant;
* `broadcast_exact`   a connection is sent what was broadcast while it was registered, all of it, in
                      order and once, and no loop meets an entry that is not there.
-/

namespace VoltNet
open Runs

def Registry.getConCount (s : Registry) : Nat := s.connections.length

/-- `connections.at(index)`, `none` where it throws -/
def Registry.getConIndex (s : Registry) (index : Nat) : Option (Option ConRef) :=
  s.connections[index]?

structure BroadcastState where
  registry : Registry
  /-- arguments of `send_msg` -/
  sent : ConRef → List Message
  /-- messages broadcast so far -/
  log : List Message
  /-- how many of them before the connection was added -/
  joined : ConRef → Nat
  /-- "Connection that should exist, doesn't", or an exception of `get_con_index` -/
  failed : Bool

def BroadcastState.init : BroadcastState := ⟨Registry.init, fun _ => [], [], fun _ => 0, false⟩

def BroadcastState.sendMsg (r : ConRef) (m : Message) (s : BroadcastState) : BroadcastState :=
  { s with sent := Function.update s.sent r (s.sent r ++ [m]) }

/-- the loop from index `i` on, for at most `turns` turns -/
def BroadcastState.loop (m : Message) : Nat → Nat → BroadcastState → BroadcastState
  | 0, _, s => s
  | turns + 1, i, s =>
    if i < s.registry.getConCount then
      match s.registry.getConIndex i with
      | some (some r) => loop m turns (i + 1) (s.sendMsg r m)
      | some none | none => { s with failed := true }
    else s

/-- `send_msg` adds no connections, so this is all of the loop -/
def BroadcastState.broadcast (m : Message) (s : BroadcastState) : BroadcastState :=
  { s.loop m s.registry.getConCount 0 with log := s.log ++ [m] }

inductive BroadcastLabel where
  | network (l : NetworkLabel)
  | broadcast (m : Message)

/-- the connection that a step of the registry adds, if it adds one -/
def BroadcastState.onNetwork (l : NetworkLabel) (registry : Registry) (s : BroadcastState) :
    BroadcastState :=
  match l with
  | .registry (.add _) =>
    { s with
      registry := registry
      joined := Function.update s.joined s.registry.objects.length s.log.length }
  | .registry (.close _ _) | .registry .setNewConnectionCallback
  | .registry .setClosedConnectionCallback | .close => { s with registry := registry }

def broadcastStep (s : BroadcastState) : BroadcastLabel → Option BroadcastState
  | .network l => (networkStep s.registry l).map fun registry => s.onNetwork l registry
  | .broadcast m => some (s.broadcast m)

/-! ## one loop -/

/-- **The loop sends to every entry once.** -/
theorem loop_sent (m : Message) (refs : List ConRef) (turns i : Nat) (s : BroadcastState)
    (hrefs : s.registry.connections = refs.map some) (hnodup : refs.Nodup)
    (hturns : turns + i = refs.length) :
    s.loop m turns i =
      { s with sent := fun r => if r ∈ refs.drop i then s.sent r ++ [m] else s.sent r } := by
  induction turns generalizing i s with
  | zero =>
    have hnone : refs.drop i = [] := List.drop_of_length_le (by omega)
    rw [BroadcastState.loop, hnone]
    simp
  | succ turns ih =>
    have hi : i < refs.length := by omega
    have hcount : s.registry.getConCount = refs.length := by
      rw [Registry.getConCount, hrefs, List.length_map]
    have hindex : s.registry.getConIndex i = some (some refs[i]) := by
      rw [Registry.getConIndex, hrefs, List.getElem?_map, List.getElem?_eq_getElem hi]
      rfl
    have hdrop : refs.drop i = refs[i] :: refs.drop (i + 1) := List.drop_eq_getElem_cons hi
    have hnot : refs[i] ∉ refs.drop (i + 1) := by
      have hsub : (refs[i] :: refs.drop (i + 1)).Nodup := hdrop ▸ hnodup.sublist (List.drop_sublist i refs)
      exact (List.nodup_cons.mp hsub).1
    rw [BroadcastState.loop, hcount, if_pos hi, hindex]
    show (s.sendMsg refs[i] m).loop m turns (i + 1) = _
    rw [ih (i + 1) (s.sendMsg refs[i] m) hrefs (by omega), hdrop]
    have hsent : (fun r => if r ∈ refs.drop (i + 1) then (s.sendMsg refs[i] m).sent r ++ [m]
          else (s.sendMsg refs[i] m).sent r)
        = fun r => if r ∈ refs[i] :: refs.drop (i + 1) then s.sent r ++ [m] else s.sent r := by
      funext r
      show (if r ∈ refs.drop (i + 1) then
          Function.update s.sent refs[i] (s.sent refs[i] ++ [m]) r ++ [m]
        else Function.update s.sent refs[i] (s.sent refs[i] ++ [m]) r) = _
      by_cases hr : r = refs[i]
      · rw [hr, if_neg hnot, Function.update_self, if_pos List.mem_cons_self]
      · rw [Function.update_of_ne hr]
        simp only [List.mem_cons, hr, false_or]
    rw [hsent]
    rfl

/-! ## any number of loops -/

/-- a step of the registry that is no addition adds nothing -/
theorem networkStep_entries (s t : Registry) (l : NetworkLabel) (h : s.Sound)
    (hs : networkStep s l = some t) :
    (∃ id, l = .registry (.add id) ∧ s.addConnection id = .ok t) ∨
    ((∀ id, l ≠ .registry (.add id)) ∧ t.objects.length = s.objects.length ∧
      ∀ r, some r ∈ t.connections → some r ∈ s.connections) := by
  cases l with
  | close =>
    rw [← Option.some.inj hs]
    exact .inr ⟨nofun, rfl, fun r hr => hr⟩
  | registry l =>
    cases l with
    | add id => exact .inl ⟨id, rfl, toOption_some _ _ hs⟩
    | close cause r =>
      obtain ⟨hr, hclose⟩ := registryStep_close s t cause r hs
      refine .inr ⟨nofun, (closeCon_shrinking _ r s t hclose).objects, fun q hq => ?_⟩
      cases hrun : s.running with
      | true => exact (close_kept s t r (h.live hrun) hr hclose q hq).1
      | false =>
        have hlt : r < s.objects.length := by
          obtain ⟨refs, hrefs, -, hlt⟩ := h.listed
          rw [hrefs, mem_map_some] at hr
          exact hlt r hr
        rw [closeCon_stopped s r hlt hrun] at hclose
        split at hclose
        · rw [Except.ok.inj hclose]
          exact hq
        · split at hclose
          · cases hclose
          · rw [← Except.ok.inj hclose] at hq
            exact hq
    | setNewConnectionCallback | setClosedConnectionCallback =>
      rw [← Option.some.inj hs]
      exact .inr ⟨nofun, rfl, fun r hr => hr⟩

structure Broadcasting (s : BroadcastState) : Prop where
  sound : s.registry.Sound
  joined : ∀ r, s.joined r ≤ s.log.length
  registered : ∀ r, some r ∈ s.registry.connections → s.sent r = s.log.drop (s.joined r)
  all : ∀ r, s.sent r <+: s.log.drop (s.joined r)
  unmade : ∀ r, s.registry.objects.length ≤ r → s.sent r = []
  failed : s.failed = false

theorem broadcasting_init : Broadcasting BroadcastState.init where
  sound := sound_init
  joined _ := le_rfl
  registered _ hr := by cases hr
  all _ := List.prefix_rfl
  unmade _ _ := rfl
  failed := rfl

theorem broadcasting_network (s : BroadcastState) (l : NetworkLabel) (registry : Registry)
    (h : Broadcasting s) (hs : networkStep s.registry l = some registry) :
    Broadcasting (s.onNetwork l registry) := by
  have hsound := sound_step s.registry registry l h.sound hs
  rcases networkStep_entries s.registry registry l h.sound hs with
    ⟨id, rfl, hadd⟩ | ⟨hl, hobjects, hentries⟩
  · have hnew := h.unmade s.registry.objects.length le_rfl
    have hdrop : s.log.drop s.log.length = [] := List.drop_length
    refine ⟨hsound, fun r => ?_, fun r hr => ?_, fun r => ?_, fun r hr => ?_, h.failed⟩
    · show Function.update s.joined s.registry.objects.length s.log.length r ≤ s.log.length
      by_cases hrn : r = s.registry.objects.length
      · rw [hrn, Function.update_self]
      · rw [Function.update_of_ne hrn]
        exact h.joined r
    · show s.sent r
        = s.log.drop (Function.update s.joined s.registry.objects.length s.log.length r)
      by_cases hrn : r = s.registry.objects.length
      · rw [hrn, Function.update_self, hdrop, hnew]
      · rw [Function.update_of_ne hrn]
        exact h.registered r (((mem_add id _ _ hadd r).mp hr).resolve_right hrn)
    · show s.sent r
        <+: s.log.drop (Function.update s.joined s.registry.objects.length s.log.length r)
      by_cases hrn : r = s.registry.objects.length
      · rw [hrn, hnew]
        exact List.nil_prefix
      · rw [Function.update_of_ne hrn]
        exact h.all r
    · refine h.unmade r ?_
      have hr : registry.objects.length ≤ r := hr
      rw [addConnection_ok id _ _ hadd, List.length_append] at hr
      omega
  · have hsame : s.onNetwork l registry = { s with registry := registry } := by
      cases l with
      | close => rfl
      | registry l =>
        cases l with
        | add id => exact absurd rfl (hl id)
        | close cause r => rfl
        | setNewConnectionCallback | setClosedConnectionCallback => rfl
    rw [hsame]
    refine ⟨hsound, h.joined, fun r hr => h.registered r (hentries r hr), h.all, fun r hr => ?_,
      h.failed⟩
    exact h.unmade r (hobjects ▸ hr)

theorem broadcasting_broadcast (s : BroadcastState) (m : Message) (h : Broadcasting s) :
    Broadcasting (s.broadcast m) := by
  obtain ⟨refs, hrefs, hnodup, hlt⟩ := h.sound.listed
  have hmem : ∀ r, some r ∈ s.registry.connections ↔ r ∈ refs := fun r => by rw [hrefs, mem_map_some]
  have hcount : s.registry.getConCount + 0 = refs.length := by
    rw [Registry.getConCount, hrefs, List.length_map, Nat.add_zero]
  have hloop := loop_sent m refs _ 0 s hrefs hnodup hcount
  rw [List.drop_zero] at hloop
  have hlog : ∀ r, (s.log ++ [m]).drop (s.joined r) = s.log.drop (s.joined r) ++ [m] := fun r =>
    List.drop_append_of_le_length (h.joined r)
  rw [BroadcastState.broadcast, hloop]
  refine ⟨h.sound, fun r => ?_, fun r hr => ?_, fun r => ?_, fun r hr => ?_, h.failed⟩
  · show s.joined r ≤ (s.log ++ [m]).length
    rw [List.length_append]
    exact Nat.le_add_right_of_le (h.joined r)
  · show (if r ∈ refs then s.sent r ++ [m] else s.sent r) = (s.log ++ [m]).drop (s.joined r)
    rw [if_pos ((hmem r).mp hr), hlog, h.registered r hr]
  · show (if r ∈ refs then s.sent r ++ [m] else s.sent r) <+: (s.log ++ [m]).drop (s.joined r)
    rw [hlog]
    by_cases hr : r ∈ refs
    · rw [if_pos hr, h.registered r ((hmem r).mpr hr)]
    · rw [if_neg hr]
      exact (h.all r).trans (List.prefix_append _ _)
  · show (if r ∈ refs then s.sent r ++ [m] else s.sent r) = []
    have hr : s.registry.objects.length ≤ r := hr
    rw [if_neg fun hin => absurd (hlt r hin) (Nat.not_lt.mpr hr)]
    exact h.unmade r hr

/-- **A connection is sent what is broadcast while it is registered.**  In every run of additions,
closings, `network::close` and loops over all connections: no loop fails, a registered connection was
sent everything broadcast since it was added, in order and each message once, and any other one a
first part of that. -/
theorem broadcast_exact (s : BroadcastState)
    (h : Reach broadcastStep (fun _ _ => True) BroadcastState.init s) :
    s.failed = false ∧ ∀ r,
      (some r ∈ s.registry.connections → s.sent r = s.log.drop (s.joined r)) ∧
      s.sent r <+: s.log.drop (s.joined r) := by
  have hs : Broadcasting s := h.invariant broadcasting_init fun t l u ht _ hu => by
    cases l with
    | network l =>
      obtain ⟨registry, hregistry, rfl⟩ := Option.map_eq_some_iff.mp hu
      exact broadcasting_network t l registry ht hregistry
    | broadcast m =>
      rw [← Option.some.inj hu]
      exact broadcasting_broadcast t m ht
  exact ⟨hs.failed, fun r => ⟨hs.registered r, hs.all r⟩⟩

/-- the older of two connections goes between two loops -/
theorem broadcast_exact_two :
    ∃ s, exec broadcastStep BroadcastState.init
        [.network (.registry (.add 7)), .broadcast [1], .network (.registry (.add 9)),
          .broadcast [2], .network (.registry (.close .endOfFile 0)), .broadcast [3]] = some s ∧
      s.failed = false ∧ s.sent 1 = [[2], [3]] ∧ s.sent 1 = s.log.drop (s.joined 1) ∧
      s.sent 0 <+: s.log.drop (s.joined 0) := by
  have hrun : (exec broadcastStep BroadcastState.init
      [.network (.registry (.add 7)), .broadcast [1], .network (.registry (.add 9)),
        .broadcast [2], .network (.registry (.close .endOfFile 0)), .broadcast [3]]).map
        (fun s => (s.sent 1, s.registry.connections)) = some ([[2], [3]], [some 1]) := by decide
  obtain ⟨s, hs, hval⟩ := Option.map_eq_some_iff.mp hrun
  obtain ⟨hsent, hconns⟩ := Prod.mk.inj hval
  obtain ⟨hfailed, hall⟩ := broadcast_exact s (Reach.of_exec _ hs)
  have hin : some 1 ∈ s.registry.connections := by
    rw [hconns]
    exact List.mem_cons_self
  exact ⟨s, hs, hfailed, hsent, (hall 1).1 hin, (hall 0).2⟩

end VoltNet
