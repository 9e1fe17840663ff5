import VoltNet.Network.Arrival
import VoltNet.Serialize.Decodable

/-!
# Values from end to end

The peers of a network write typed values with `write_msg`, close them with `end_msg` and send
them; the callback reads them back with `read_msg` from the messages that it is given.

* `Values`        the lists of values that a peer has sent, as the messages in its log;
* `link_values`   the messages of an id read back as the first of the lists its peer sent, all of
                  them once the links are drained.
-/

namespace VoltNet
open Stuffing Runs

/-- `sent` are the messages of a host that wrote the lists `vss` of values, one message each -/
def Values (host : Host) (behind : Message → List.Vector NetWord 4) (vss : List (List Instance))
    (sent : List Message) : Prop := sent = vss.map fun vs => endMsg (writeMsgs host behind vs [])

/-- `read_msg` at the types of `vs`, into fresh instances, gives `vs` and uses up the message -/
def ReadsBack (D : Defaults) (m : Message) (vs : List Instance) : Prop :=
  readMsgs .littleEndian D m 0 (vs.map (Instance.blank D)) = .ok (vs, m.length)

theorem readsBack_wireAll (D : Defaults) (vs : List Instance) (h : Readable D vs) :
    ReadsBack D (wireAll vs) vs := by
  have hread := readMsgs_wireAll D (wireAll vs) vs h 0 (List.prefix_refl _)
  rwa [Nat.zero_add] at hread

theorem closedIn_values (host : Host) (behind : Message → List.Vector NetWord 4)
    (vss : List (List Instance)) (hvss : ∀ vs ∈ vss, Sendable vs) (sent : List Message)
    (h : Values host behind vss sent) : closedIn sent.flatten = vss.map wireAll := by
  have hflat : sent.flatten = conversation host behind vss := by
    rw [h, conversation, List.flatMap_def]
  rw [hflat, conversation_eq host behind vss hvss, closedIn_encodeAll]

/-- a prefix of the payloads of lists of values is the payloads of a prefix of the lists -/
theorem prefix_map_wireAll (vss : List (List Instance)) (ms : List Message)
    (h : ms <+: vss.map wireAll) : ∃ uss, uss <+: vss ∧ ms = uss.map wireAll := by
  obtain ⟨rest, hrest⟩ := h
  have hlen : ms = (vss.map wireAll).take ms.length := by rw [← hrest, List.take_left]
  refine ⟨vss.take ms.length, List.take_prefix _ _, ?_⟩
  rw [List.map_take]
  exact hlen

theorem forall₂_readsBack (D : Defaults) (uss : List (List Instance))
    (h : ∀ us ∈ uss, Readable D us) : List.Forall₂ (ReadsBack D) (uss.map wireAll) uss := by
  induction uss with
  | nil => exact .nil
  | cons us uss ih =>
    exact .cons (readsBack_wireAll D us (h us List.mem_cons_self))
      (ih fun vs hvs => h vs (List.mem_cons_of_mem us hvs))

/-- **Values from end to end.**  Whatever the byte order of the peers, when each of them has sent
lists of values, one message each, the messages handed on with its id read back as a prefix of these
lists, and as all of them once nothing is on its way. -/
theorem link_values (ids : List ConId) (defer : Bool) (s : LinkState)
    (h : Reach (linkStep ids) Whole (LinkState.init defer) s) (D : Defaults)
    (host : ConId → Host) (behind : ConId → Message → List.Vector NetWord 4)
    (vals : ConId → List (List Instance))
    (hvals : ∀ k, ∀ vs ∈ vals k, Sendable vs ∧ Readable D vs)
    (hsent : ∀ k, Values (host k) (behind k) (vals k) (s.sent k)) (k : ConId) :
    ∃ uss, uss <+: vals k ∧ List.Forall₂ (ReadsBack D) (forId k s.net.received) uss ∧
      (s.Drained ids → uss = vals k) := by
  have hi := carried_reach ids defer s h
  have hpay : s.payloads k = (vals k).map wireAll :=
    closedIn_values (host k) (behind k) (vals k) (fun vs hvs => (hvals k vs hvs).1) _ (hsent k)
  have hprefix : forId k s.net.received <+: (vals k).map wireAll := by
    rw [← hpay]
    exact hi.received_first k
  obtain ⟨uss, huss, hms⟩ := prefix_map_wireAll (vals k) _ hprefix
  refine ⟨uss, huss, ?_, fun hd => ?_⟩
  · rw [hms]
    exact forall₂_readsBack D uss fun us hus => (hvals k us (huss.subset hus)).2
  · have hall := hi.received_drained hd k
    rw [hms, hpay] at hall
    exact huss.eq_of_length (by simpa using congrArg List.length hall)

/-- one peer has sent a string and then a struct; the links are drained -/
theorem link_values_two :
    ∃ s, Reach (linkStep [1]) Whole (LinkState.init true) s ∧ s.Drained [1] ∧
      List.Forall₂ (ReadsBack plain) (forId 1 s.net.received)
        [[⟨.string, [255#8]⟩], [⟨.struct "point" (.field (.int .int16) .done), (511#16, ())⟩]] := by
  let behind : Message → List.Vector NetWord 4 := fun _ => List.Vector.replicate 4 0
  let text : List Instance := [⟨.string, [255#8]⟩]
  let point : List Instance := [⟨.struct "point" (.field (.int .int16) .done), (511#16, ())⟩]
  let m : List Instance → Message := fun vs => endMsg (writeMsgs .bigEndian behind vs [])
  let vals : ConId → List (List Instance) := fun k => if k = 1 then [text, point] else []
  let s₂ : LinkState := ((LinkState.init true).send 1 (m text)).send 1 (m point)
  have hnone : ∀ k, k ≠ 1 → vals k = [] := fun k hk => if_neg hk
  have hsent : ∀ k, Values .bigEndian behind (vals k) (s₂.sent k) := by
    intro k
    show LinkState.sent (((LinkState.init true).send 1 (m text)).send 1 (m point)) k = _
    rw [sent_send, sent_send]
    by_cases hk : k = 1
    · rw [hk, Function.update_self, Function.update_self]
      rfl
    · rw [Function.update_of_ne hk, Function.update_of_ne hk, hnone k hk]
      rfl
  have hreach : Reach (linkStep [1]) Whole (LinkState.init true) s₂ :=
    ((Reach.refl _).next (.send 1 (m text)) (by decide) rfl).next (.send 1 (m point)) (by decide) rfl
  have hvals : ∀ k, ∀ vs ∈ vals k, Sendable vs ∧ Readable plain vs := by
    intro k vs hvs
    have hcases : vs = text ∨ vs = point := by
      by_cases hk : k = 1
      · rw [hk] at hvs
        exact List.mem_pair.mp hvs
      · rw [hnone k hk] at hvs
        cases hvs
    rcases hcases with rfl | rfl
    · simp [Sendable, Readable, text, Ty.FloatFree, Short, Blank, Ty.init]
    · simp [Sendable, Readable, point, Ty.FloatFree, Short, Blank]
  obtain ⟨t, ht, ⟨hi, hsame⟩, hset⟩ := links_settle [1] true s₂ (carried_reach [1] true s₂ hreach)
  obtain ⟨u, hu, -, hsame', hd⟩ := links_drain [1] true t hi hset
  have hreach' : Reach (linkStep [1]) Whole (LinkState.init true) u :=
    hreach.trans ((ht.trans hu).mono fun _ _ h => h.1)
  obtain ⟨uss, -, hread, hall⟩ := link_values [1] true u hreach' plain (fun _ => .bigEndian)
    (fun _ => behind) vals hvals (by rw [hsame', hsame]; exact hsent) 1
  refine ⟨u, hreach', hd, ?_⟩
  rw [hall hd] at hread
  exact hread

end VoltNet
