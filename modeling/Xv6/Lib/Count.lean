import Mathlib.Algebra.BigOperators.Ring.Finset
import Mathlib.Data.Fintype.BigOperators
import Mathlib.Data.Finset.Card

open Function

namespace count

/-- Distinct labels found inside a finite set are at most as many as the set has elements. -/
theorem le_card_of_labels {ι α β : Type} (own : α → β) (c : ι → β) {T : Finset ι} {F : Finset α}
    (hinj : ∀ i ∈ T, ∀ j ∈ T, c i = c j → i = j) (h : ∀ i ∈ T, ∃ f ∈ F, own f = c i) :
    T.card ≤ F.card := by
  classical
  have hsub : T.image c ⊆ F.image own := by
    intro b hb
    obtain ⟨i, hi, rfl⟩ := Finset.mem_image.1 hb
    obtain ⟨f, hf, heq⟩ := h i hi
    exact Finset.mem_image.2 ⟨f, hf, heq⟩
  calc T.card = (T.image c).card := (Finset.card_image_of_injOn fun i hi j hj => hinj i hi j hj).symm
    _ ≤ (F.image own).card := Finset.card_le_card hsub
    _ ≤ F.card := Finset.card_image_le

/-- A list that contains `n` different values has at least `n` elements. -/
theorem le_length_of_injective {α : Type} [DecidableEq α] {L : List α} {n : Nat} {f : Nat → α}
    (hf : Function.Injective f) (h : ∀ i < n, f i ∈ L) : n ≤ L.length := by
  have hsub : (Finset.range n).image f ⊆ L.toFinset := by
    intro a ha
    obtain ⟨i, hi, rfl⟩ := Finset.mem_image.1 ha
    exact List.mem_toFinset.2 (h i (Finset.mem_range.1 hi))
  calc n = ((Finset.range n).image f).card := by rw [Finset.card_image_of_injective _ hf, Finset.card_range]
    _ ≤ L.toFinset.card := Finset.card_le_card hsub
    _ ≤ L.length := List.toFinset_card_le L

section
variable {X Y F : Type} [Fintype X] [Fintype Y] [DecidableEq F] {o : X → Option F} {f : F}

/-- How many places hold `f`. -/
def holders (o : X → Option F) (f : F) : Nat := (Finset.univ.filter fun x => o x = some f).card

theorem holders_eq_sum : holders o f = ∑ x, if o x = some f then 1 else 0 := Finset.card_filter ..

theorem holders_pos (x : X) (h : o x = some f) : 0 < holders o f :=
  Finset.card_pos.2 ⟨x, Finset.mem_filter.2 ⟨Finset.mem_univ x, h⟩⟩

theorem exists_of_holders_pos (h : 0 < holders o f) : ∃ x, o x = some f := by
  obtain ⟨x, hx⟩ := Finset.card_pos.1 h
  exact ⟨x, (Finset.mem_filter.1 hx).2⟩

theorem holders_none : holders (fun _ : X => none) f = 0 := by simp [holders]

theorem holders_finRange {n : Nat} (o : Fin n → Option F) : holders o f = (List.finRange n).countP (o · = some f) := by
  rw [List.countP_eq_length_filter]
  rfl

variable [DecidableEq X]

/-- Changing what one place holds. -/
theorem holders_update (o : X → Option F) (x : X) (v : Option F) :
    holders (update o x v) f + (if o x = some f then 1 else 0) = holders o f + (if v = some f then 1 else 0) := by
  rw [holders_eq_sum, holders_eq_sum, ← Finset.add_sum_erase _ _ (Finset.mem_univ x),
    ← Finset.add_sum_erase (f := fun y => if o y = some f then 1 else 0) _ (Finset.mem_univ x), update_self]
  have hrest : ∑ y ∈ Finset.univ.erase x, (if update o x v y = some f then 1 else 0) =
      ∑ y ∈ Finset.univ.erase x, if o y = some f then 1 else 0 :=
    Finset.sum_congr rfl fun y hy => by rw [update_of_ne (Finset.ne_of_mem_erase hy)]
  omega

/-- Changing what one row of places holds. -/
theorem holders_row {o o' : X → Y → Option F} (x : X) (h : ∀ y, y ≠ x → o' y = o y) :
    holders (fun z : X × Y => o' z.1 z.2) f + holders (o x) f = holders (fun z : X × Y => o z.1 z.2) f + holders (o' x) f := by
  have hsum (o : X → Y → Option F) : holders (fun z : X × Y => o z.1 z.2) f =
      holders (o x) f + ∑ y ∈ Finset.univ.erase x, holders (o y) f := by
    rw [holders_eq_sum, Fintype.sum_prod_type]
    simp only [← holders_eq_sum]
    exact (Finset.add_sum_erase _ _ (Finset.mem_univ x)).symm
  have hrest : ∑ y ∈ Finset.univ.erase x, holders (o' y) f = ∑ y ∈ Finset.univ.erase x, holders (o y) f :=
    Finset.sum_congr rfl fun y hy => by rw [h y (Finset.ne_of_mem_erase hy)]
  rw [hsum o', hsum o, hrest]
  omega

end

end count
