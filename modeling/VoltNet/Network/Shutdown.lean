import VoltNet.Network.Ids

/-!
# `network::close`

`close` clears `running` and does nothing else: the closed callback of a connection then returns
before it looks for its entry.

* `networkStep`        the registry with `close`;
* `closedCallback_stopped`, `closeCon_stopped`   what closing does from then on;
* `stopped_keeps`      a network that was closed only ever gets more entries, and finds them all.
-/

namespace VoltNet
open Fallible Runs

inductive NetworkLabel where
  | registry (l : RegistryLabel)
  /-- `network::close` -/
  | close

def networkStep (s : Registry) : NetworkLabel → Option Registry
  | .registry l => registryStep s l
  | .close => some { s with running := false }

/-! ## a network that was closed -/

/-- all entries are objects, distinct and not null -/
def Registry.Listed (s : Registry) : Prop :=
  ∃ refs : List ConRef, s.connections = refs.map some ∧ refs.Nodup ∧
    ∀ r ∈ refs, r < s.objects.length

theorem Registry.Live.listed {s : Registry} (h : s.Live) : s.Listed := by
  obtain ⟨refs, hrefs, hnodup, hopen⟩ := h.refs
  exact ⟨refs, hrefs, hnodup, fun r hr => isOpen_lt (hopen r hr)⟩

theorem listed_add (id : ConId) (s t : Registry) (h : s.Listed) (hs : s.addConnection id = .ok t) :
    t.Listed := by
  obtain ⟨refs, hrefs, hnodup, hlt⟩ := h
  rw [addConnection_ok id s t hs]
  refine ⟨refs ++ [s.objects.length], ?_, ?_, fun r hr => ?_⟩
  · show s.connections ++ [some s.objects.length] = _
    rw [hrefs, List.map_append]
    rfl
  · refine List.Nodup.append hnodup (List.nodup_singleton _) fun r hr hr' => ?_
    rw [List.mem_singleton.mp hr'] at hr
    exact absurd (hlt _ hr) (Nat.lt_irrefl _)
  · show r < (s.objects ++ [_]).length
    rw [List.length_append, List.length_singleton]
    rcases List.mem_append.mp hr with hr | hr
    · exact Nat.lt_succ_of_lt (hlt r hr)
    · rw [List.mem_singleton.mp hr]
      exact Nat.lt_succ_self _

theorem listed_setClosed (s : Registry) (r : ConRef) (h : s.Listed) : (s.setClosed r).Listed := by
  obtain ⟨refs, hrefs, hnodup, hlt⟩ := h
  refine ⟨refs, hrefs, hnodup, fun q hq => ?_⟩
  show q < (s.objects.modify r _).length
  rw [List.length_modify]
  exact hlt q hq

/-- once the network is closed, the closed callback leaves the entries alone -/
theorem closedCallback_stopped (delete : ConRef → Registry → Except NetFault Registry) (id : ConId)
    (s : Registry) (hrun : s.running = false) :
    closedCallback delete id s =
      if s.closedConnectionCallback then .error .danglingReference else .ok s := by
  rw [closedCallback, hrun, if_pos (show (!false) = true from rfl)]

/-- closing a connection then closes it and does nothing else -/
theorem closeCon_stopped (s : Registry) (r : ConRef) (hr : r < s.objects.length)
    (hrun : s.running = false) :
    s.closeCon r =
      if s.isOpen r = false then .ok s
      else if s.closedConnectionCallback then .error .danglingReference
      else .ok (s.setClosed r) := by
  by_cases ho : s.isOpen r = false
  · rw [if_pos ho]
    exact closeCon_idle s.objects.length r s hr ho
  · rw [if_neg ho]
    obtain ⟨id, hid⟩ := closeCon_open s.objects.length r s (eq_true_of_ne_false ho)
    rw [Registry.closeCon, hid]
    exact closedCallback_stopped _ id (s.setClosed r) hrun

/-- what holds of every registry: closed or not, and live while it runs -/
structure Registry.Sound (s : Registry) : Prop where
  listed : s.Listed
  live : s.running = true → s.Live

theorem sound_init : Registry.init.Sound := ⟨live_init.listed, fun _ => live_init⟩

/-- `t` has the entries of `s`, under the ids that they had, and perhaps more -/
structure Registry.Extends (s t : Registry) : Prop where
  listed : t.Listed
  stopped : t.running = false
  entries : s.connections <+: t.connections
  objects : s.objects.length ≤ t.objects.length
  ids : ∀ r, r < s.objects.length → t.conId r = s.conId r

theorem Registry.Extends.refl {s : Registry} (h : s.Listed) (hrun : s.running = false) :
    s.Extends s := ⟨h, hrun, List.prefix_rfl, le_rfl, fun _ _ => rfl⟩

theorem Registry.Extends.trans {s t u : Registry} (h : s.Extends t) (h' : t.Extends u) :
    s.Extends u where
  listed := h'.listed
  stopped := h'.stopped
  entries := h.entries.trans h'.entries
  objects := h.objects.trans h'.objects
  ids r hr := (h'.ids r (lt_of_lt_of_le hr h.objects)).trans (h.ids r hr)

/-- **A step of a network that was closed.** -/
theorem stopped_step (s t : Registry) (l : NetworkLabel) (h : s.Listed)
    (hrun : s.running = false) (hs : networkStep s l = some t) : s.Extends t := by
  have hself := Registry.Extends.refl h hrun
  cases l with
  | close =>
    rw [← Option.some.inj hs]
    exact ⟨h, rfl, hself.entries, hself.objects, hself.ids⟩
  | registry l =>
    cases l with
    | add id =>
      have hadd := toOption_some _ _ hs
      have ht := addConnection_ok id s t hadd
      refine ⟨listed_add id s t h hadd, ?_, ?_, ?_, fun r hr => conId_add_old id s t hadd r hr⟩
      · rw [ht]
        exact hrun
      · rw [ht]
        exact List.prefix_append _ _
      · rw [ht]
        show s.objects.length ≤ (s.objects ++ [_]).length
        rw [List.length_append]
        exact Nat.le_add_right _ _
    | close cause r =>
      obtain ⟨hr, hclose⟩ := registryStep_close s t cause r hs
      have hlt : r < s.objects.length := by
        obtain ⟨refs, hrefs, -, hlt⟩ := h
        rw [hrefs, mem_map_some] at hr
        exact hlt r hr
      rw [closeCon_stopped s r hlt hrun] at hclose
      split at hclose
      · rw [← Except.ok.inj hclose]
        exact hself
      · split at hclose
        · cases hclose
        · rw [← Except.ok.inj hclose]
          refine ⟨listed_setClosed s r h, hrun, hself.entries, ?_, fun q _ => conId_setClosed s r q⟩
          show s.objects.length ≤ (s.objects.modify r _).length
          rw [List.length_modify]
    | setNewConnectionCallback =>
      rw [← Option.some.inj hs]
      exact ⟨h, hrun, hself.entries, hself.objects, hself.ids⟩
    | setClosedConnectionCallback =>
      rw [← Option.some.inj hs]
      exact ⟨h, hrun, hself.entries, hself.objects, hself.ids⟩

theorem sound_step (s t : Registry) (l : NetworkLabel) (h : s.Sound)
    (hs : networkStep s l = some t) : t.Sound := by
  cases hrun : s.running with
  | false =>
    have hext := stopped_step s t l h.listed hrun hs
    exact ⟨hext.listed, fun htrue => by rw [hext.stopped] at htrue; cases htrue⟩
  | true =>
    have hlive := h.live hrun
    cases l with
    | close =>
      rw [← Option.some.inj hs]
      exact ⟨h.listed, fun htrue => by cases htrue⟩
    | registry l =>
      have ht : t.Live := by
        cases l with
        | add id => exact live_add id s t hlive (toOption_some _ _ hs)
        | close cause r =>
          obtain ⟨hr, hclose⟩ := registryStep_close s t cause r hs
          exact live_close s t r hlive hr hclose
        | setNewConnectionCallback =>
          rw [← Option.some.inj hs]
          exact ⟨hlive.running, hlive.refs⟩
        | setClosedConnectionCallback =>
          rw [← Option.some.inj hs]
          exact ⟨hlive.running, hlive.refs⟩
      exact ⟨ht.listed, fun _ => ht⟩

theorem sound_reach (s : Registry) (h : Reach networkStep (fun _ _ => True) Registry.init s) :
    s.Sound :=
  h.invariant sound_init fun t l u ht _ hs => sound_step t u l ht hs

/-- the search of `get_con` ends at the same entry when entries are added behind it -/
theorem findCon_append (s t : Registry) (id : ConId) (r : ConRef) (l m : List (Option ConRef))
    (hids : ∀ q, some q ∈ l → t.conId q = s.conId q) (h : s.findCon id l = .ok (some r)) :
    t.findCon id (l ++ m) = .ok (some r) := by
  induction l with
  | nil => cases h
  | cons x l ih =>
    cases x with
    | none => cases h
    | some q =>
      rw [Registry.findCon] at h
      rw [List.cons_append, Registry.findCon, hids q List.mem_cons_self]
      by_cases hq : s.conId q = some id
      · rw [if_pos hq] at h
        rw [if_pos hq]
        exact h
      · rw [if_neg hq] at h
        rw [if_neg hq]
        exact ih (fun p hp => hids p (List.mem_cons_of_mem _ hp)) h

/-- **A network that was closed only ever gets more entries.**  Whatever is added and closed after
`close`, the entries stay where they are, and `get_con` finds every connection that it found, closed
or not. -/
theorem stopped_keeps (s t : Registry) (h : Reach networkStep (fun _ _ => True) Registry.init s)
    (hrun : s.running = false) (h' : Reach networkStep (fun _ _ => True) s t) :
    s.connections <+: t.connections ∧
      ∀ id r, s.getCon id = .ok (some r) → t.getCon id = .ok (some r) := by
  have hlisted := (sound_reach s h).listed
  have hself := Registry.Extends.refl hlisted hrun
  have hext : s.Extends t := h'.invariant hself fun u l v hu _ hs =>
    hu.trans (stopped_step u v l hu.listed hu.stopped hs)
  refine ⟨hext.entries, fun id r hfound => ?_⟩
  obtain ⟨refs, hrefs, -, hlt⟩ := hlisted
  obtain ⟨rest, hrest⟩ := hext.entries
  rw [Registry.getCon, ← hrest]
  refine findCon_append s t id r _ rest (fun q hq => ?_) hfound
  rw [hrefs, mem_map_some] at hq
  exact hext.ids q (hlt q hq)

/-- a connection closes after the network, and another one is added -/
theorem stopped_keeps_two :
    ∃ s t, exec networkStep Registry.init
        [.registry (.add 7), .registry (.add 9), .close] = some s ∧
      exec networkStep s [.registry (.close .endOfFile 1), .registry (.add 5)] = some t ∧
      t.isOpen 1 = false ∧ s.connections <+: t.connections ∧ t.getCon 9 = .ok (some 1) := by
  let s : Registry := ⟨[⟨7, true⟩, ⟨9, true⟩], [some 0, some 1], false, false, false⟩
  let t : Registry :=
    ⟨[⟨7, true⟩, ⟨9, false⟩, ⟨5, true⟩], [some 0, some 1, some 2], false, false, false⟩
  have hs : exec networkStep Registry.init
      [.registry (.add 7), .registry (.add 9), .close] = some s := by decide
  have ht : exec networkStep s [.registry (.close .endOfFile 1), .registry (.add 5)] = some t := by
    decide
  obtain ⟨hfirst, hfound⟩ := stopped_keeps s t (Reach.of_exec _ hs) rfl (Reach.of_exec _ ht)
  exact ⟨s, t, hs, ht, by decide, hfirst, hfound 9 1 (by decide)⟩

end VoltNet
