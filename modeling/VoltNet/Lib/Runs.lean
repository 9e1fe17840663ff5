import Mathlib.Logic.Relation

/-!
# Runs of a system of labelled steps

`step s l` is the state after the action `l`, `none` where the action is not possible.  `ok s l`
is a condition on the actions of a run, `fun _ _ => True` for arbitrary runs.

* `Reach step ok s t`   `t` is reached from `s` by actions that meet `ok` where they are taken;
* `Reach.invariant`     what every such step preserves holds in every state reached;
* `Reach.simulate`      a view of the states that runs in a system of its own;
* `Reach.exhaust`       what can always come closer to its end can be brought to an end;
* `exec`                the state after a given list of actions;
* `Every`, `Always`     what holds of every action, or of every state, of such a list;
* `always_iff_every`    the states of a run are good exactly when its actions are;
* `exec_split`          a run of good actions keeps `I`, any other one ends in `B`;
* `exec_first`          a run with a bad action keeps `I` up to the first one;
* `EveryThen`, `Awaits` what follows an action in the rest of a run;
* `countWhere`          how often a run takes actions of a kind;
* `exec_project`        a part of the state runs by itself, with the actions that concern it.
-/

namespace Runs

section
variable {σ ℓ : Type} (step : σ → ℓ → Option σ) (ok : σ → ℓ → Prop)

def Reach (s t : σ) : Prop :=
  Relation.ReflTransGen (fun t u => ∃ l, ok t l ∧ step t l = some u) s t

variable {step ok}

theorem Reach.refl (s : σ) : Reach step ok s s := Relation.ReflTransGen.refl

theorem Reach.next {s t u : σ} (h : Reach step ok s t) (l : ℓ) (hok : ok t l)
    (hstep : step t l = some u) : Reach step ok s u :=
  Relation.ReflTransGen.tail h ⟨l, hok, hstep⟩

/-- **Invariant rule.** -/
theorem Reach.invariant {I : σ → Prop} {s t : σ} (h : Reach step ok s t) (h0 : I s)
    (hI : ∀ t l u, I t → ok t l → step t l = some u → I u) : I t := by
  induction h with
  | refl => exact h0
  | tail _ hstep ih =>
    obtain ⟨l, hok, hs⟩ := hstep
    exact hI _ l _ ih hok hs

/-- the state after a list of actions -/
def exec (step : σ → ℓ → Option σ) : σ → List ℓ → Option σ
  | s, [] => some s
  | s, l :: ls => (step s l).bind (exec step · ls)

theorem Reach.of_exec {s t : σ} (ls : List ℓ) (h : exec step s ls = some t) :
    Reach step (fun _ _ => True) s t := by
  induction ls generalizing s with
  | nil =>
    rw [← Option.some.inj h]
    exact Reach.refl s
  | cons l ls ih =>
    obtain ⟨u, hu, hrest⟩ := Option.bind_eq_some_iff.mp h
    exact Relation.ReflTransGen.head ⟨l, trivial, hu⟩ (ih hrest)

/-- a step with a guard -/
theorem of_guard {p : Prop} [Decidable p] {t u : σ} (h : (if p then some u else none) = some t) :
    p ∧ t = u := by
  obtain ⟨hp, hu⟩ := Option.ite_none_right_eq_some.mp h
  exact ⟨hp, (Option.some.inj hu).symm⟩

/-! ## getting from one state to another -/

theorem Reach.trans {s t u : σ} (h : Reach step ok s t) (h' : Reach step ok t u) :
    Reach step ok s u := Relation.ReflTransGen.trans h h'

theorem Reach.mono {ok' : σ → ℓ → Prop} {s t : σ} (h : Reach step ok s t)
    (himp : ∀ s l, ok s l → ok' s l) : Reach step ok' s t := by
  induction h with
  | refl => exact Reach.refl s
  | tail _ hstep ih =>
    obtain ⟨l, hok, hs⟩ := hstep
    exact ih.next l (himp _ l hok) hs

/-- a condition on the actions that follows from another one by an invariant of the other's runs -/
theorem Reach.imp {ok' : σ → ℓ → Prop} {I : σ → Prop}
    (hI : ∀ s l t, I s → ok s l → step s l = some t → I t)
    (himp : ∀ s l, I s → ok s l → ok' s l) {s t : σ} (hs : I s) (h : Reach step ok s t) :
    Reach step ok' s t := by
  have hboth : Reach step ok' s t ∧ I t := by
    induction h with
    | refl => exact ⟨Reach.refl s, hs⟩
    | tail _ hstep ih =>
      obtain ⟨l, hok, hu⟩ := hstep
      exact ⟨ih.1.next l (himp _ l ih.2 hok) hu, hI _ l _ ih.2 hok hu⟩
  exact hboth.1

/-- **Progress rule.**  If from every state with `I` that is not `Done` some good action keeps `I`
and makes `μ` smaller, then from every state with `I` the system can get done. -/
theorem Reach.exhaust (I Done : σ → Prop) (μ : σ → Nat)
    (hprog : ∀ s, I s → ¬ Done s → ∃ l t, ok s l ∧ step s l = some t ∧ I t ∧ μ t < μ s) {s : σ}
    (hs : I s) : ∃ t, Reach step ok s t ∧ I t ∧ Done t := by
  induction hn : μ s using Nat.strongRecOn generalizing s with
  | ind n ih =>
    rcases Classical.em (Done s) with hd | hd
    · exact ⟨s, Reach.refl s, hs, hd⟩
    · obtain ⟨l, t, hl, ht, hI, hlt⟩ := hprog s hs hd
      obtain ⟨u, hu, hIu, hdu⟩ := ih (μ t) (hn ▸ hlt) hI rfl
      exact ⟨u, Relation.ReflTransGen.head ⟨l, hl, ht⟩ hu, hIu, hdu⟩

/-! ## conditions on whole runs -/

/-- every action of the list meets `ok` where it is taken -/
def Every (step : σ → ℓ → Option σ) (ok : σ → ℓ → Prop) : σ → List ℓ → Prop
  | _, [] => True
  | s, l :: ls => ok s l ∧ ∀ t, step s l = some t → Every step ok t ls

/-- every state on the way satisfies `P` -/
def Always (step : σ → ℓ → Option σ) (P : σ → Prop) : σ → List ℓ → Prop
  | s, [] => P s
  | s, l :: ls => P s ∧ ∀ t, step s l = some t → Always step P t ls

theorem every_cons {s u : σ} {l : ℓ} {ls : List ℓ} (hu : step s l = some u) :
    Every step ok s (l :: ls) ↔ ok s l ∧ Every step ok u ls := by
  refine and_congr_right fun _ => ⟨fun h => h u hu, fun h t ht => ?_⟩
  rw [← Option.some.inj (hu.symm.trans ht)]
  exact h

instance decidableEvery [dec : ∀ s l, Decidable (ok s l)] :
    (s : σ) → (ls : List ℓ) → Decidable (Every step ok s ls)
  | _, [] => isTrue trivial
  | s, l :: ls =>
    match h : step s l with
    | none => decidable_of_iff (ok s l) ⟨fun hl => ⟨hl, fun t ht => by rw [h] at ht; cases ht⟩,
        fun hl => hl.1⟩
    | some t =>
      have := decidableEvery t ls
      decidable_of_iff (ok s l ∧ Every step ok t ls) (every_cons h).symm

theorem always_cons {P : σ → Prop} {s u : σ} {l : ℓ} {ls : List ℓ} (hu : step s l = some u) :
    Always step P s (l :: ls) ↔ P s ∧ Always step P u ls := by
  refine and_congr_right fun _ => ⟨fun h => h u hu, fun h t ht => ?_⟩
  rw [← Option.some.inj (hu.symm.trans ht)]
  exact h

theorem Always.head {P : σ → Prop} {s : σ} {ls : List ℓ} (h : Always step P s ls) : P s := by
  cases ls with
  | nil => exact h
  | cons l ls => exact h.1

theorem exec_cons {s t : σ} {l : ℓ} {ls : List ℓ} (h : exec step s (l :: ls) = some t) :
    ∃ u, step s l = some u ∧ exec step u ls = some t := Option.bind_eq_some_iff.mp h

theorem Always.last {P : σ → Prop} {s t : σ} {ls : List ℓ} (h : Always step P s ls)
    (hexec : exec step s ls = some t) : P t := by
  induction ls generalizing s with
  | nil =>
    rw [← Option.some.inj hexec]
    exact h
  | cons l ls ih =>
    obtain ⟨u, hu, hrest⟩ := exec_cons hexec
    exact ih (h.2 u hu) hrest

/-- a condition that does not look at the state -/
theorem every_of_forall {good : ℓ → Prop} (s : σ) (ls : List ℓ) (h : ∀ l ∈ ls, good l) :
    Every step (fun _ => good) s ls := by
  induction ls generalizing s with
  | nil => trivial
  | cons l ls ih =>
    exact ⟨h l List.mem_cons_self, fun t _ => ih t fun m hm => h m (List.mem_cons_of_mem l hm)⟩

/-- a condition that follows from another one by an invariant of the other's runs -/
theorem every_imp {ok' : σ → ℓ → Prop} {I : σ → Prop}
    (hI : ∀ s l t, I s → ok s l → step s l = some t → I t)
    (himp : ∀ s l, I s → ok s l → ok' s l) {s : σ} (hs : I s) (ls : List ℓ)
    (h : Every step ok s ls) : Every step ok' s ls := by
  induction ls generalizing s with
  | nil => trivial
  | cons l ls ih =>
    exact ⟨himp s l hs h.1, fun t ht => ih (hI s l t hs h.1 ht) (h.2 t ht)⟩

theorem Reach.of_every {s t : σ} {ls : List ℓ} (hok : Every step ok s ls)
    (h : exec step s ls = some t) : Reach step ok s t := by
  induction ls generalizing s with
  | nil =>
    rw [← Option.some.inj h]
    exact Reach.refl s
  | cons l ls ih =>
    obtain ⟨u, hu, hrest⟩ := exec_cons h
    exact Relation.ReflTransGen.head ⟨l, hok.1, hu⟩ (ih (hok.2 u hu) hrest)

/-- **The states of a run are all good exactly when its actions are**, if good actions keep an
invariant that implies the goodness of states, and from it any other action leads to a state that
is not good. -/
theorem always_iff_every {I P : σ → Prop} (hIP : ∀ s, I s → P s)
    (hok : ∀ s l t, I s → ok s l → step s l = some t → I t)
    (hbad : ∀ s l t, I s → ¬ ok s l → step s l = some t → ¬ P t) {s t : σ} (hs : I s)
    (ls : List ℓ) (h : exec step s ls = some t) :
    Always step P s ls ↔ Every step ok s ls := by
  induction ls generalizing s with
  | nil => exact ⟨fun _ => trivial, fun _ => hIP s hs⟩
  | cons l ls ih =>
    obtain ⟨u, hu, hrest⟩ := exec_cons h
    rw [always_cons hu, every_cons hu]
    by_cases hl : ok s l
    · rw [ih (hok s l u hs hl hu) hrest]
      exact ⟨fun h => ⟨hl, h.2⟩, fun h => ⟨hIP s hs, h.2⟩⟩
    · exact ⟨fun h => absurd h.2.head (hbad s l u hs hl hu), fun h => absurd h.1 hl⟩

/-- **A run of good actions keeps `I`; any other run ends in `B`**, if from `I` the first action
that is not good leads into `B`, and nothing leads out of it. -/
theorem exec_split {I B : σ → Prop} (hok : ∀ s l t, I s → ok s l → step s l = some t → I t)
    (hbad : ∀ s l t, I s → ¬ ok s l → step s l = some t → B t)
    (hB : ∀ s l t, B s → step s l = some t → B t) {s t : σ} (hs : I s) (ls : List ℓ)
    (h : exec step s ls = some t) :
    (Every step ok s ls ∧ I t) ∨ (¬ Every step ok s ls ∧ B t) := by
  induction ls generalizing s with
  | nil =>
    rw [← Option.some.inj h]
    exact .inl ⟨trivial, hs⟩
  | cons l ls ih =>
    obtain ⟨u, hu, hrest⟩ := exec_cons h
    rw [every_cons hu]
    by_cases hl : ok s l
    · rcases ih (hok s l u hs hl hu) hrest with ⟨hls, ht⟩ | ⟨hls, ht⟩
      · exact .inl ⟨⟨hl, hls⟩, ht⟩
      · exact .inr ⟨fun h => hls h.2, ht⟩
    · have hstay : Reach step (fun _ _ => True) u t := Reach.of_exec ls hrest
      have hend : B t := hstay.invariant (hbad s l u hs hl hu) fun v l' w hv _ hw => hB v l' w hv hw
      exact .inr ⟨fun h => hl h.1, hend⟩

theorem exec_append {s t u : σ} {ls ms : List ℓ} (h : exec step s ls = some t)
    (h' : exec step t ms = some u) : exec step s (ls ++ ms) = some u := by
  induction ls generalizing s with
  | nil =>
    rw [Option.some.inj h]
    exact h'
  | cons l ls ih =>
    obtain ⟨v, hv, hrest⟩ := exec_cons h
    rw [List.cons_append, exec, hv]
    exact ih hrest

/-- **A run with a bad action keeps `I` up to the first one.** -/
theorem exec_first {I : σ → Prop} (hok : ∀ s l t, I s → ok s l → step s l = some t → I t)
    {s t : σ} (hs : I s) (ls : List ℓ) (h : exec step s ls = some t) (hbad : ¬ Every step ok s ls) :
    ∃ pre l post u v, ls = pre ++ l :: post ∧ exec step s pre = some u ∧ I u ∧ ¬ ok u l ∧
      step u l = some v := by
  induction ls generalizing s with
  | nil => exact absurd trivial hbad
  | cons l ls ih =>
    obtain ⟨u, hu, hrest⟩ := exec_cons h
    by_cases hl : ok s l
    · rw [every_cons hu] at hbad
      obtain ⟨pre, m, post, v, w, hls, hpre, hv⟩ := ih (hok s l u hs hl hu) hrest
        fun h => hbad ⟨hl, h⟩
      refine ⟨l :: pre, m, post, v, w, by rw [hls, List.cons_append], ?_, hv⟩
      rw [exec, hu]
      exact hpre
    · exact ⟨[], l, ls, s, u, rfl, rfl, hs, hl, hu⟩

/-! ## what follows an action -/

/-- `Q` holds of every action of a run, with the states before and after it and the rest of the
run -/
def EveryThen (step : σ → ℓ → Option σ) (Q : σ → ℓ → σ → List ℓ → Prop) : σ → List ℓ → Prop
  | _, [] => True
  | s, l :: ls => ∀ t, step s l = some t → Q s l t ls ∧ EveryThen step Q t ls

theorem everyThen_cons {Q : σ → ℓ → σ → List ℓ → Prop} {s u : σ} {l : ℓ} {ls : List ℓ}
    (hu : step s l = some u) :
    EveryThen step Q s (l :: ls) ↔ Q s l u ls ∧ EveryThen step Q u ls := by
  refine ⟨fun h => h u hu, fun h t ht => ?_⟩
  rw [← Option.some.inj (hu.symm.trans ht)]
  exact h

/-- `W` holds of the states of a run until it takes the action `stop`, and `P` of that step -/
def Awaits (step : σ → ℓ → Option σ) (W : σ → Prop) (stop : ℓ) (P : σ → σ → Prop) :
    σ → List ℓ → Prop
  | s, [] => W s
  | s, l :: ls => W s ∧ ∀ t, step s l = some t →
      (l = stop → P s t) ∧ (l ≠ stop → Awaits step W stop P t ls)

theorem Awaits.head {W : σ → Prop} {stop : ℓ} {P : σ → σ → Prop} {s : σ} {ls : List ℓ}
    (h : Awaits step W stop P s ls) : W s := by
  cases ls with
  | nil => exact h
  | cons l ls => exact h.1

/-- what waits under an invariant of the actions that are taken meanwhile -/
theorem awaits_of_every {I W : σ → Prop} {stop : ℓ} {P : σ → σ → Prop} (hW : ∀ s, I s → W s)
    (hkeep : ∀ s l t, I s → ok s l → l ≠ stop → step s l = some t → I t)
    (hstop : ∀ s t, I s → ok s stop → step s stop = some t → P s t) {s : σ} (hs : I s)
    (ls : List ℓ) (h : Every step ok s ls) : Awaits step W stop P s ls := by
  induction ls generalizing s with
  | nil => exact hW s hs
  | cons l ls ih =>
    refine ⟨hW s hs, fun t ht => ⟨fun hl => ?_, fun hl => ?_⟩⟩
    · subst hl
      exact hstop s t hs h.1 ht
    · exact ih (hkeep s l t hs h.1 hl ht) (h.2 t ht)

theorem everyThen_of_every {I : σ → Prop} {Q : σ → ℓ → σ → List ℓ → Prop}
    (hok : ∀ s l t, I s → ok s l → step s l = some t → I t)
    (hQ : ∀ s l t ls, I s → ok s l → step s l = some t → Every step ok t ls → Q s l t ls) {s : σ}
    (hs : I s) (ls : List ℓ) (h : Every step ok s ls) : EveryThen step Q s ls := by
  induction ls generalizing s with
  | nil => trivial
  | cons l ls ih =>
    exact fun t ht => ⟨hQ s l t ls hs h.1 ht (h.2 t ht), ih (hok s l t hs h.1 ht) (h.2 t ht)⟩

/-- **What follows the actions of a run is right exactly when the actions are good**, if every
action keeps an invariant, and from it nothing right follows an action that is not good. -/
theorem everyThen_iff_every {I : σ → Prop} {Q : σ → ℓ → σ → List ℓ → Prop}
    (hI : ∀ s l t, I s → step s l = some t → I t)
    (hQ : ∀ s l t ls, I s → ok s l → step s l = some t → Every step ok t ls → Q s l t ls)
    (hbad : ∀ s l t ls, I s → ¬ ok s l → step s l = some t → ¬ Q s l t ls) {s t : σ} (hs : I s)
    (ls : List ℓ) (h : exec step s ls = some t) :
    EveryThen step Q s ls ↔ Every step ok s ls := by
  constructor
  · intro hall
    induction ls generalizing s with
    | nil => trivial
    | cons l ls ih =>
      obtain ⟨u, hu, hrest⟩ := exec_cons h
      obtain ⟨hl, hls⟩ := hall u hu
      rw [every_cons hu]
      refine ⟨?_, ih (hI s l u hs hu) hrest hls⟩
      by_cases hgood : ok s l
      · exact hgood
      · exact absurd hl (hbad s l u ls hs hgood hu)
  · exact everyThen_of_every (fun s l t hs _ ht => hI s l t hs ht) hQ hs ls

/-- what holds of actions of a kind, whatever precedes or follows them -/
theorem everyThen_of_forall {Q : σ → ℓ → σ → List ℓ → Prop} (s : σ) (ls : List ℓ)
    (h : ∀ l ∈ ls, ∀ s t rest, Q s l t rest) : EveryThen step Q s ls := by
  induction ls generalizing s with
  | nil => trivial
  | cons l ls ih =>
    exact fun t _ =>
      ⟨h l List.mem_cons_self s t ls, ih t fun m hm => h m (List.mem_cons_of_mem l hm)⟩

/-! ## counting actions -/

/-- how many actions of a run meet `p` where they are taken -/
def countWhere (step : σ → ℓ → Option σ) (p : σ → ℓ → Bool) : σ → List ℓ → Nat
  | _, [] => 0
  | s, l :: ls => (p s l).toNat + (step s l).elim 0 fun t => countWhere step p t ls

theorem countWhere_cons {p : σ → ℓ → Bool} {s t : σ} {l : ℓ} (h : step s l = some t)
    (ls : List ℓ) : countWhere step p s (l :: ls) = (p s l).toNat + countWhere step p t ls := by
  rw [countWhere, h]
  rfl

theorem countWhere_append {p : σ → ℓ → Bool} {s t : σ} {ls : List ℓ} (h : exec step s ls = some t)
    (ms : List ℓ) :
    countWhere step p s (ls ++ ms) = countWhere step p s ls + countWhere step p t ms := by
  induction ls generalizing s with
  | nil =>
    rw [Option.some.inj h]
    exact (Nat.zero_add _).symm
  | cons l ls ih =>
    obtain ⟨u, hu, hrest⟩ := exec_cons h
    rw [List.cons_append, countWhere_cons hu, countWhere_cons hu, ih hrest, Nat.add_assoc]

theorem countWhere_eq_zero {p : σ → ℓ → Bool} (s : σ) (ls : List ℓ)
    (h : ∀ l ∈ ls, ∀ s, p s l = false) : countWhere step p s ls = 0 := by
  induction ls generalizing s with
  | nil => rfl
  | cons l ls ih =>
    rw [countWhere, h l List.mem_cons_self s]
    cases step s l with
    | none => rfl
    | some t => exact (Nat.zero_add _).trans (ih t fun m hm => h m (List.mem_cons_of_mem l hm))

/-- **Balance of a run**: if every step keeps the balance of two kinds of actions with a quantity
of the state, so does the run. -/
theorem countWhere_balance {I : σ → Prop} {p q : σ → ℓ → Bool} {φ : σ → Nat}
    (hI : ∀ s l t, I s → step s l = some t → I t)
    (hstep : ∀ s l t, I s → step s l = some t → (p s l).toNat + φ t = (q s l).toNat + φ s)
    {s t : σ} (hs : I s) (ls : List ℓ) (h : exec step s ls = some t) :
    countWhere step p s ls + φ t = countWhere step q s ls + φ s := by
  induction ls generalizing s with
  | nil =>
    rw [Option.some.inj h]
    rfl
  | cons l ls ih =>
    obtain ⟨u, hu, hrest⟩ := exec_cons h
    have hone := hstep s l u hs hu
    have hmore := ih (hI s l u hs hu) hrest
    rw [countWhere_cons hu, countWhere_cons hu]
    omega

end

/-- **A part of the state runs by itself**, with the actions that concern it. -/
theorem exec_project {σ τ ℓ κ : Type} {step : σ → ℓ → Option σ} {partStep : τ → κ → Option τ}
    (state : σ → τ) (action : ℓ → Option κ)
    (hsome : ∀ s l t a, action l = some a → step s l = some t →
      partStep (state s) a = some (state t))
    (hnone : ∀ s l t, action l = none → step s l = some t → state t = state s) {s t : σ}
    (ls : List ℓ) (h : exec step s ls = some t) :
    exec partStep (state s) (ls.filterMap action) = some (state t) := by
  induction ls generalizing s with
  | nil =>
    rw [← Option.some.inj h]
    rfl
  | cons l ls ih =>
    obtain ⟨u, hu, hrest⟩ := exec_cons h
    cases ha : action l with
    | none =>
      rw [List.filterMap_cons_none ha, ← hnone s l u ha hu]
      exact ih hrest
    | some a =>
      rw [List.filterMap_cons_some ha, exec, hsome s l u a ha hu]
      exact ih hrest

end Runs
