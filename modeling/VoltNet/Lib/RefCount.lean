import Mathlib.Logic.Function.Basic

/-!
# Reference counting

Control blocks with use counts, for objects of any type.  A heap records, beside what the counts
say, the list of references that are alive; the counts agree with it in every heap that can be
built.

* `Heap`              control blocks, the live references, and their agreement;
* `Heap.make`         a control block of its own for an object, with its first reference;
* `Heap.copy`         one more reference;
* `Heap.drop`         one reference less; the last one gives the object back;
* `drop_cases`        an object is given back exactly by the last of its references.
-/

namespace RefCount

structure ControlBlock (β : Type) where
  owned : β
  useCount : Nat

structure Heap (β : Type) where
  blocks : Nat → Option (ControlBlock β)
  /-- number of the next control block -/
  next : Nat
  /-- the control block of each live reference -/
  refs : List Nat
  counted : ∀ i b, blocks i = some b → b.useCount = refs.count i ∧ 0 < b.useCount
  alive : ∀ i, i ∈ refs → ∃ b, blocks i = some b
  fresh : ∀ i, next ≤ i → blocks i = none

variable {β : Type}

def Heap.empty : Heap β where
  blocks := fun _ => none
  next := 0
  refs := []
  counted := fun _ _ h => by cases h
  alive := fun _ h => by cases h
  fresh := fun _ _ => rfl

/-- the object of a control block -/
def Heap.owned (h : Heap β) (i : Nat) : Option β := (h.blocks i).map ControlBlock.owned

theorem next_not_mem (h : Heap β) : h.next ∉ h.refs := by
  intro hmem
  obtain ⟨b, hb⟩ := h.alive _ hmem
  cases (h.fresh _ (Nat.le_refl _)).symm.trans hb

theorem owned_next (h : Heap β) : h.owned h.next = none := by
  rw [Heap.owned, h.fresh _ (Nat.le_refl _)]
  rfl

/-! ## making a reference -/

def Heap.make (h : Heap β) (x : β) : Heap β where
  blocks := Function.update h.blocks h.next (some ⟨x, 1⟩)
  next := h.next + 1
  refs := h.next :: h.refs
  counted := by
    intro i b hb
    by_cases hi : i = h.next
    · subst hi
      rw [Function.update_self] at hb
      rw [← Option.some.inj hb, List.count_cons_self,
        List.count_eq_zero.mpr (next_not_mem h)]
      exact ⟨rfl, Nat.one_pos⟩
    · rw [Function.update_of_ne hi] at hb
      rw [List.count_cons_of_ne (Ne.symm hi)]
      exact h.counted i b hb
  alive := by
    intro i hi
    by_cases hn : i = h.next
    · exact ⟨⟨x, 1⟩, by rw [hn, Function.update_self]⟩
    · rw [Function.update_of_ne hn]
      exact h.alive i ((List.mem_cons.mp hi).resolve_left hn)
  fresh := by
    intro i hi
    rw [Function.update_of_ne (by omega)]
    exact h.fresh i (by omega)

theorem make_owned (h : Heap β) (x : β) (i : Nat) :
    (h.make x).owned i = if i = h.next then some x else h.owned i := by
  show (Function.update h.blocks h.next (some ⟨x, 1⟩) i).map ControlBlock.owned = _
  by_cases hi : i = h.next
  · rw [if_pos hi, hi, Function.update_self]
    rfl
  · rw [if_neg hi, Function.update_of_ne hi]
    rfl

/-- one more reference to the object of a control block; `none` when there is no such block -/
def Heap.copy (h : Heap β) (i : Nat) : Option (Heap β) :=
  match hb : h.blocks i with
  | none => none
  | some b =>
    some {
      blocks := Function.update h.blocks i (some ⟨b.owned, b.useCount + 1⟩)
      next := h.next
      refs := i :: h.refs
      counted := by
        intro j c hc
        by_cases hj : j = i
        · subst hj
          rw [Function.update_self] at hc
          rw [← Option.some.inj hc, List.count_cons_self, (h.counted j b hb).1]
          exact ⟨rfl, Nat.succ_pos _⟩
        · rw [Function.update_of_ne hj] at hc
          rw [List.count_cons_of_ne (Ne.symm hj)]
          exact h.counted j c hc
      alive := by
        intro j hj
        by_cases hji : j = i
        · exact ⟨⟨b.owned, b.useCount + 1⟩, by rw [hji, Function.update_self]⟩
        · rw [Function.update_of_ne hji]
          exact h.alive j ((List.mem_cons.mp hj).resolve_left hji)
      fresh := by
        intro j hj
        have hji : j ≠ i := by
          rintro rfl
          cases (h.fresh j hj).symm.trans hb
        rw [Function.update_of_ne hji]
        exact h.fresh j hj }

theorem copy_some (h : Heap β) (i : Nat) (hi : i ∈ h.refs) :
    ∃ h', h.copy i = some h' ∧ h'.refs = i :: h.refs ∧ ∀ j, h'.owned j = h.owned j := by
  obtain ⟨b, hb⟩ := h.alive i hi
  unfold Heap.copy
  split
  · next hnone => cases hnone.symm.trans hb
  · next c hc =>
    refine ⟨_, rfl, rfl, fun j => ?_⟩
    show (Function.update h.blocks i (some ⟨c.owned, c.useCount + 1⟩) j).map _ = _
    by_cases hj : j = i
    · rw [hj, Function.update_self, Heap.owned, hc]
      rfl
    · rw [Function.update_of_ne hj]
      rfl

/-! ## dropping a reference -/

/-- one reference less, with the object if it was the last; `none` when there is no such block -/
def Heap.drop (h : Heap β) (i : Nat) : Option (Heap β × Option β) :=
  match hb : h.blocks i with
  | none => none
  | some b =>
    if hone : b.useCount = 1 then
      some ({
        blocks := Function.update h.blocks i none
        next := h.next
        refs := h.refs.erase i
        counted := by
          intro j c hc
          by_cases hj : j = i
          · rw [hj, Function.update_self] at hc
            cases hc
          · rw [Function.update_of_ne hj] at hc
            rw [List.count_erase_of_ne hj]
            exact h.counted j c hc
        alive := by
          intro j hj
          have hji : j ≠ i := by
            rintro rfl
            have hcount := (h.counted j b hb).1
            have hleft := List.count_pos_iff.mpr hj
            rw [List.count_erase_self] at hleft
            omega
          rw [Function.update_of_ne hji]
          exact h.alive j (List.mem_of_mem_erase hj)
        fresh := by
          intro j hj
          by_cases hji : j = i
          · rw [hji, Function.update_self]
          · rw [Function.update_of_ne hji]
            exact h.fresh j hj }, some b.owned)
    else
      some ({
        blocks := Function.update h.blocks i (some ⟨b.owned, b.useCount - 1⟩)
        next := h.next
        refs := h.refs.erase i
        counted := by
          intro j c hc
          by_cases hj : j = i
          · subst hj
            rw [Function.update_self] at hc
            obtain ⟨hcount, hpos⟩ := h.counted j b hb
            rw [← Option.some.inj hc, List.count_erase_self]
            exact ⟨by rw [hcount], by show 0 < b.useCount - 1; omega⟩
          · rw [Function.update_of_ne hj] at hc
            rw [List.count_erase_of_ne hj]
            exact h.counted j c hc
        alive := by
          intro j hj
          by_cases hji : j = i
          · exact ⟨⟨b.owned, b.useCount - 1⟩, by rw [hji, Function.update_self]⟩
          · rw [Function.update_of_ne hji]
            exact h.alive j (List.mem_of_mem_erase hj)
        fresh := by
          intro j hj
          have hji : j ≠ i := by
            rintro rfl
            cases (h.fresh j hj).symm.trans hb
          rw [Function.update_of_ne hji]
          exact h.fresh j hj }, none)

/-- **An object is given back exactly by the last of its references.** -/
theorem drop_cases (h : Heap β) (i : Nat) (hi : i ∈ h.refs) :
    ∃ h' o, h.drop i = some (h', o) ∧ h'.refs = h.refs.erase i ∧
      ((∃ x, o = some x ∧ h.owned i = some x ∧ i ∉ h'.refs ∧
          ∀ j, h'.owned j = if j = i then none else h.owned j) ∨
        (o = none ∧ i ∈ h'.refs ∧ ∀ j, h'.owned j = h.owned j)) := by
  obtain ⟨b, hb⟩ := h.alive i hi
  unfold Heap.drop
  split
  · next hnone => cases hnone.symm.trans hb
  · next c hc =>
    obtain ⟨hcount, hpos⟩ := h.counted i c hc
    have howned : h.owned i = some c.owned := by
      rw [Heap.owned, hc]
      rfl
    split
    · next hone =>
      refine ⟨_, _, rfl, rfl, .inl ⟨c.owned, rfl, howned, ?_, fun j => ?_⟩⟩
      · intro hleft
        have hleft : 0 < (h.refs.erase i).count i := List.count_pos_iff.mpr hleft
        rw [List.count_erase_self] at hleft
        omega
      · show (Function.update h.blocks i none j).map ControlBlock.owned = _
        by_cases hj : j = i
        · rw [if_pos hj, hj, Function.update_self]
          rfl
        · rw [if_neg hj, Function.update_of_ne hj]
          rfl
    · next hmore =>
      refine ⟨_, _, rfl, rfl, .inr ⟨rfl, ?_, fun j => ?_⟩⟩
      · show i ∈ h.refs.erase i
        apply List.count_pos_iff.mp
        rw [List.count_erase_self]
        omega
      · show (Function.update h.blocks i (some ⟨c.owned, c.useCount - 1⟩) j).map _ = _
        by_cases hj : j = i
        · rw [hj, Function.update_self, howned]
          rfl
        · rw [Function.update_of_ne hj]
          rfl

end RefCount
