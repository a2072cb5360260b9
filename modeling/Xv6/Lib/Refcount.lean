import Mathlib.Data.Finset.Card
import Mathlib.Data.Fintype.Basic
import Mathlib.Algebra.GroupWithZero.Nat
import Mathlib.Algebra.Notation.Pi.Basic
import Mathlib.Tactic.Common

open Function

namespace refcount

variable {ι α : Type} [Fintype ι] [DecidableEq α]

/-- How many holders refer to `a`. -/
def held (h : ι → Option α) (a : α) : Nat := (Finset.univ.filter fun i => h i = some a).card

/-- The counts `c` are right: each is the number of holders plus the references `e` that
are on their way from one holder to another. -/
def Exact (c : α → Nat) (h : ι → Option α) (e : α → Nat) : Prop := ∀ a, c a = held h a + e a

variable {c e : α → Nat} {h : ι → Option α} {i : ι} {a : α}

theorem held_pos : 0 < held h a ↔ ∃ i, h i = some a := by
  rw [held, Finset.card_pos]
  simp only [Finset.Nonempty, Finset.mem_filter, Finset.mem_univ, true_and]

/-- With no reference under way the counts are the numbers of holders. -/
theorem Exact.eq_held (hc : Exact c h 0) (a : α) : c a = held h a := by
  rw [hc a, Pi.zero_apply, Nat.add_zero]

theorem Exact.pos_of_held (hc : Exact c h e) (hi : h i = some a) : 0 < c a := by
  have hpos := held_pos.2 ⟨i, hi⟩
  have := hc a
  omega

theorem Exact.pos_of_flight (hc : Exact c h (e + Pi.single a 1)) : 0 < c a := by
  have := hc a
  rw [Pi.add_apply, Pi.single_eq_same] at this
  omega

/-- A new reference is counted. -/
theorem Exact.dup (hc : Exact c h e) (a : α) : Exact (update c a (c a + 1)) h (e + Pi.single a 1) := by
  intro b
  have := hc b
  rw [update_apply, Pi.add_apply, Pi.single_apply]
  split_ifs with hb
  · subst hb
    omega
  · omega

/-- A reference under way is given up. -/
theorem Exact.release (hc : Exact c h (e + Pi.single a 1)) : Exact (update c a (c a - 1)) h e := by
  intro b
  have := hc b
  rw [Pi.add_apply, Pi.single_apply] at this
  rw [update_apply]
  split_ifs with hb
  · subst hb
    rw [if_pos rfl] at this
    omega
  · rw [if_neg hb] at this
    omega

section holders

variable [DecidableEq ι]

/-- A holder without a reference gets one. -/
theorem held_update_some (hi : h i = none) (b : α) : held (update h i (some a)) b = held h b + if b = a then 1 else 0 := by
  unfold held
  split_ifs with hb
  · subst hb
    rw [← Finset.card_insert_of_notMem (a := i) (by simp [hi])]
    congr 1
    ext j
    by_cases hj : j = i
    · simp [hj]
    · simp [hj]
  · congr 1
    ext j
    by_cases hj : j = i
    · simp [hj, hi, Ne.symm hb]
    · simp [hj]

/-- A holder gives its reference up. -/
theorem held_update_none (hi : h i = some a) (b : α) : held (update h i none) b + (if b = a then 1 else 0) = held h b := by
  have hback := held_update_some (h := update h i none) (a := a) (update_self _ _ _) b
  rw [← hback, update_idem, ← hi, update_eq_self]

/-- A reference under way reaches its holder. -/
theorem Exact.take (hc : Exact c h (e + Pi.single a 1)) (hi : h i = none) : Exact c (update h i (some a)) e := by
  intro b
  have := hc b
  rw [held_update_some hi]
  rw [Pi.add_apply, Pi.single_apply] at this
  omega

/-- A holder hands its reference on. -/
theorem Exact.drop (hc : Exact c h e) (hi : h i = some a) : Exact c (update h i none) (e + Pi.single a 1) := by
  intro b
  have hb := held_update_none hi b
  have := hc b
  rw [Pi.add_apply, Pi.single_apply]
  omega

end holders

/-- The entries of the table `t` name the things that satisfy `O`, each of them once. -/
structure Names {ι β : Type} (t : ι → Option β) (O : β → Prop) : Prop where
  named : ∀ i b, t i = some b → O b
  inj : ∀ i j b, t i = some b → t j = some b → i = j
  entry : ∀ b, O b → ∃ i, t i = some b

section names

variable {ι β : Type} {t : ι → Option β} {O O' : β → Prop} {i : ι} {b : β}

theorem Names.congr (h : Names t O) (hO : ∀ b, O b ↔ O' b) : Names t O' :=
  ⟨fun i b hi => (hO b).1 (h.named i b hi), h.inj, fun b hb => h.entry b ((hO b).2 hb)⟩

variable [DecidableEq ι]

/-- An entry is cleared. -/
theorem Names.erase (h : Names t O) (hi : t i = some b) : Names (update t i none) fun c => O c ∧ c ≠ b := by
  have hold {j : ι} {c : β} (hj : update t i none j = some c) : j ≠ i ∧ t j = some c := by
    rw [update_apply] at hj
    split_ifs at hj with hji
    exact ⟨hji, hj⟩
  refine ⟨fun j c hj => ?_, fun j k c hj hk => h.inj j k c (hold hj).2 (hold hk).2, ?_⟩
  · obtain ⟨hne, hj⟩ := hold hj
    refine ⟨h.named j c hj, ?_⟩
    rintro rfl
    exact hne (h.inj j i c hj hi)
  · rintro c ⟨hc, hne⟩
    obtain ⟨j, hj⟩ := h.entry c hc
    have hji : j ≠ i := by
      rintro rfl
      exact hne (Option.some.inj (hj.symm.trans hi))
    exact ⟨j, by rwa [update_of_ne hji]⟩

/-- A free entry names something new. -/
theorem Names.insert (h : Names t O) (hi : t i = none) (hb : ¬ O b) : Names (update t i (some b)) fun c => O c ∨ c = b := by
  have hnew {j : ι} {c : β} (hj : update t i (some b) j = some c) : (j = i ∧ c = b) ∨ (t j = some c ∧ c ≠ b) := by
    rw [update_apply] at hj
    split_ifs at hj with hji
    · exact .inl ⟨hji, (Option.some.inj hj).symm⟩
    · exact .inr ⟨hj, fun hcb => hb (hcb ▸ h.named j c hj)⟩
  refine ⟨fun j c hj => ?_, fun j k c hj hk => ?_, ?_⟩
  · exact (hnew hj).elim (fun hc => .inr hc.2) fun hc => .inl (h.named j c hc.1)
  · rcases hnew hj with ⟨hji, hc⟩ | ⟨hj, hc⟩ <;> rcases hnew hk with ⟨hki, hc'⟩ | ⟨hk, hc'⟩
    · rw [hji, hki]
    · exact absurd hc hc'
    · exact absurd hc' hc
    · exact h.inj j k c hj hk
  · rintro c (hc | rfl)
    · obtain ⟨j, hj⟩ := h.entry c hc
      have hji : j ≠ i := by
        rintro rfl
        rw [hi] at hj
        cases hj
      exact ⟨j, by rwa [update_of_ne hji]⟩
    · exact ⟨i, update_self _ _ _⟩

end names

end refcount
