import Mathlib.Logic.Function.Basic
import Mathlib.Tactic.Common

namespace table

/-- A table of `len` slots, each of which is free or holds a key and its value. -/
structure Table (κ ν : Type) where
  len : Nat
  slot : Nat → Option (κ × ν)

variable {κ ν : Type} {t : Table κ ν} {i : Nat} {k k' : κ} {v : ν}

/-- No key is in two slots. -/
def Table.Distinct (t : Table κ ν) : Prop :=
  ∀ i j k v w, i < t.len → j < t.len → t.slot i = some (k, v) → t.slot j = some (k, w) → i = j

/-- The first free slot, or else the end of the table. -/
def Table.free (t : Table κ ν) : Nat := ((List.range t.len).find? fun i => (t.slot i).isNone).getD t.len

/-- Fill or free a slot; the table grows by one if it is the one after the last. -/
def Table.put (t : Table κ ν) (i : Nat) (x : Option (κ × ν)) : Table κ ν :=
  ⟨max t.len (i + 1), Function.update t.slot i x⟩

theorem Table.free_le (t : Table κ ν) : t.free ≤ t.len := by
  unfold free
  cases h : (List.range t.len).find? fun i => (t.slot i).isNone with
  | none => exact Nat.le_refl _
  | some i => exact Nat.le_of_lt (List.mem_range.1 (List.mem_of_find?_eq_some h))

theorem Table.slot_free (h : t.free < t.len) : t.slot t.free = none := by
  unfold free at h ⊢
  cases hfind : (List.range t.len).find? fun i => (t.slot i).isNone with
  | none =>
    rw [hfind] at h
    exact absurd h (Nat.lt_irrefl _)
  | some i =>
    have hnone : (t.slot i).isNone = true := List.find?_some (p := fun i => (t.slot i).isNone) hfind
    exact Option.isNone_iff_eq_none.1 hnone

theorem Table.free_eq_len (h : ∀ i < t.len, t.slot i ≠ none) : t.free = t.len := by
  rcases Nat.lt_or_ge t.free t.len with hlt | hge
  · exact absurd (slot_free hlt) (h _ hlt)
  · exact Nat.le_antisymm t.free_le hge

/-- A slot can be filled without the loss of an entry. -/
def Table.Open (t : Table κ ν) (i : Nat) : Prop := i = t.len ∨ i < t.len ∧ t.slot i = none

theorem Table.open_free (t : Table κ ν) : t.Open t.free := by
  rcases Nat.lt_or_ge t.free t.len with h | h
  · exact .inr ⟨h, slot_free h⟩
  · exact .inl (Nat.le_antisymm t.free_le h)

theorem Table.slot_of_put_none {j : Nat} {x : κ × ν} (hi : i ≤ t.len) (hj : j < (t.put i none).len)
    (hslot : (t.put i none).slot j = some x) : j ≠ i ∧ j < t.len ∧ t.slot j = some x := by
  have hne : j ≠ i := by
    rintro rfl
    simp [put] at hslot
  simp only [put, Function.update_of_ne hne] at hj hslot
  exact ⟨hne, by omega, hslot⟩

theorem Table.Distinct.erase (h : t.Distinct) (hi : i ≤ t.len) : (t.put i none).Distinct := by
  intro j j' k' w w' hj hj' hslot hslot'
  obtain ⟨-, hlt, hslot⟩ := slot_of_put_none hi hj hslot
  obtain ⟨-, hlt', hslot'⟩ := slot_of_put_none hi hj' hslot'
  exact h j j' k' w w' hlt hlt' hslot hslot'

section
variable [DecidableEq κ]

/-- The first slot that holds a key. -/
def Table.index (t : Table κ ν) (k : κ) : Option Nat := (List.range t.len).find? fun i => (t.slot i).map Prod.fst = some k

def Table.get (t : Table κ ν) (k : κ) : Option ν := (t.index k).bind fun i => (t.slot i).map Prod.snd

theorem Table.index_some (h : t.index k = some i) : i < t.len ∧ ∃ v, t.slot i = some (k, v) := by
  refine ⟨List.mem_range.1 (List.mem_of_find?_eq_some h), ?_⟩
  have hkey := List.find?_some (p := fun i => decide ((t.slot i).map Prod.fst = some k)) h
  obtain ⟨x, hx, rfl⟩ := Option.map_eq_some_iff.1 (of_decide_eq_true hkey)
  exact ⟨x.2, hx⟩

theorem Table.index_eq_none_iff : t.index k = none ↔ ∀ i < t.len, ∀ v, t.slot i ≠ some (k, v) := by
  unfold index
  rw [List.find?_eq_none]
  constructor
  · intro h i hi v hslot
    exact h i (List.mem_range.2 hi) (by simp [hslot])
  · intro h i hi hkey
    obtain ⟨x, hx, rfl⟩ := Option.map_eq_some_iff.1 (of_decide_eq_true hkey)
    exact h i (List.mem_range.1 hi) x.2 hx

theorem Table.get_of_index (hi : t.index k = some i) (hslot : t.slot i = some (k', v)) : t.get k = some v := by
  rw [get, hi, Option.bind_some, hslot, Option.map_some]

theorem Table.get_eq_none_iff : t.get k = none ↔ t.index k = none := by
  cases h : t.index k with
  | none => simp [get, h]
  | some i =>
    obtain ⟨-, v, hslot⟩ := index_some h
    simp [get_of_index h hslot]

theorem Table.exists_of_get (h : t.get k = some v) : ∃ i, t.index k = some i ∧ t.slot i = some (k, v) := by
  cases hi : t.index k with
  | none => rw [get_eq_none_iff.2 hi] at h; cases h
  | some i =>
    obtain ⟨-, w, hslot⟩ := index_some hi
    rw [get_of_index hi hslot] at h
    cases h
    exact ⟨i, rfl, hslot⟩

/-- With distinct keys the value of a key is that of any slot that holds it. -/
theorem Table.Distinct.get_eq_some_iff (h : t.Distinct) : t.get k = some v ↔ ∃ i < t.len, t.slot i = some (k, v) := by
  constructor
  · intro hget
    obtain ⟨i, hi, hslot⟩ := exists_of_get hget
    exact ⟨i, (index_some hi).1, hslot⟩
  · rintro ⟨i, hlt, hslot⟩
    cases hj : t.index k with
    | none => exact absurd hslot (index_eq_none_iff.1 hj i hlt v)
    | some j =>
      obtain ⟨hjlt, w, hslot'⟩ := index_some hj
      obtain rfl := h j i k w v hjlt hlt hslot' hslot
      exact get_of_index hj hslot

/-- Tables that hold the same entries for a key have the same value for it. -/
theorem Table.Distinct.get_congr {t' : Table κ ν} (h : t.Distinct) (h' : t'.Distinct)
    (hslots : ∀ v, (∃ i < t'.len, t'.slot i = some (k, v)) ↔ ∃ i < t.len, t.slot i = some (k, v)) : t'.get k = t.get k :=
  Option.ext fun v => by rw [h'.get_eq_some_iff, h.get_eq_some_iff, hslots]

theorem Table.Distinct.insert (h : t.Distinct) (hopen : t.Open i) (hk : t.get k = none) :
    (t.put i (some (k, v))).Distinct := by
  have hle : i ≤ t.len := by
    rcases hopen with rfl | ⟨hlt, -⟩
    · exact Nat.le_refl _
    · exact Nat.le_of_lt hlt
  have hnew : ∀ j k' w w', j < (t.put i (some (k, v))).len → j ≠ i → (t.put i (some (k, v))).slot j = some (k', w) →
      (t.put i (some (k, v))).slot i = some (k', w') → False := by
    intro j k' w w' hj hne hslot hself
    simp only [put, Function.update_of_ne hne, Function.update_self] at hj hslot hself
    cases hself
    exact index_eq_none_iff.1 (get_eq_none_iff.1 hk) j (by omega) w hslot
  intro j j' k' w w' hj hj' hslot hslot'
  by_cases hji : j = i <;> by_cases hji' : j' = i
  · rw [hji, hji']
  · subst hji
    exact (hnew j' k' w' w hj' hji' hslot' hslot).elim
  · subst hji'
    exact (hnew j k' w w' hj hji hslot hslot').elim
  · simp only [put, Function.update_of_ne hji, Function.update_of_ne hji'] at hj hj' hslot hslot'
    exact h j j' k' w w' (by omega) (by omega) hslot hslot'

theorem Table.Distinct.get_insert_self (h : t.Distinct) (hopen : t.Open i) (hk : t.get k = none) :
    (t.put i (some (k, v))).get k = some v :=
  (h.insert hopen hk).get_eq_some_iff.2 ⟨i, Nat.le_max_right _ _, Function.update_self ..⟩

theorem Table.Distinct.get_insert_of_ne (h : t.Distinct) (hopen : t.Open i) (hk : t.get k = none) (hne : k' ≠ k) :
    (t.put i (some (k, v))).get k' = t.get k' := by
  refine h.get_congr (h.insert hopen hk) fun w => ⟨?_, ?_⟩
  · rintro ⟨j, hj, hslot⟩
    by_cases hji : j = i
    · subst hji
      simp only [put, Function.update_self, Option.some.injEq, Prod.mk.injEq] at hslot
      exact absurd hslot.1.symm hne
    · simp only [put, Function.update_of_ne hji] at hj hslot
      rcases hopen with rfl | ⟨hlt, -⟩
      · exact ⟨j, by omega, hslot⟩
      · exact ⟨j, by omega, hslot⟩
  · rintro ⟨j, hj, hslot⟩
    have hji : j ≠ i := by
      rintro rfl
      rcases hopen with rfl | ⟨-, hnone⟩
      · exact Nat.lt_irrefl _ hj
      · rw [hnone] at hslot
        cases hslot
    exact ⟨j, Nat.lt_of_lt_of_le hj (Nat.le_max_left _ _), by simp only [put, Function.update_of_ne hji, hslot]⟩

theorem Table.Distinct.get_erase_self (h : t.Distinct) (hi : i < t.len) (hslot : t.slot i = some (k, v)) :
    (t.put i none).get k = none := by
  rw [get_eq_none_iff, index_eq_none_iff]
  intro j hj w hj'
  obtain ⟨hne, hlt, hj'⟩ := slot_of_put_none (Nat.le_of_lt hi) hj hj'
  exact hne (h j i k w v hlt hi hj' hslot)

theorem Table.Distinct.get_erase_of_ne (h : t.Distinct) (hi : i < t.len) (hslot : t.slot i = some (k, v))
    (hne : k' ≠ k) : (t.put i none).get k' = t.get k' := by
  refine h.get_congr (h.erase (Nat.le_of_lt hi)) fun w => ⟨?_, ?_⟩
  · rintro ⟨j, hj, hj'⟩
    obtain ⟨-, hlt, hj'⟩ := slot_of_put_none (Nat.le_of_lt hi) hj hj'
    exact ⟨j, hlt, hj'⟩
  · rintro ⟨j, hj, hj'⟩
    have hji : j ≠ i := by
      rintro rfl
      rw [hslot] at hj'
      cases hj'
      exact hne rfl
    exact ⟨j, Nat.lt_of_lt_of_le hj (Nat.le_max_left _ _), by simp only [put, Function.update_of_ne hji, hj']⟩

/-- A free slot stays without entries. -/
theorem Table.get_put_none (hi : i ≤ t.len) (hk : t.get k = none) : (t.put i none).get k = none := by
  rw [get_eq_none_iff, index_eq_none_iff] at hk ⊢
  intro j hj w hj'
  obtain ⟨-, hlt, hj'⟩ := slot_of_put_none hi hj hj'
  exact hk j hlt w hj'

end

end table
