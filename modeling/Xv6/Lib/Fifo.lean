import Mathlib.Tactic.Common
import Mathlib.Logic.Function.Basic
import Mathlib.Data.Nat.ModEq

open Function

namespace fifo

variable {α : Type} {n M r w : Nat} [NeZero n] {data : Fin n → α} {a : α} {l : List α}

/-- A ring of `n` cells with free-running counters modulo `M` holds the elements
`l`, the first at position `r` and the next free cell at position `w`. -/
structure Queue (M : Nat) (data : Fin n → α) (r w : Nat) (l : List α) : Prop where
  count : w = (r + l.length) % M
  room : l.length ≤ n
  cells : ∀ j (hj : j < l.length), data (Fin.ofNat n (r + j)) = l[j]

theorem Queue.nil (hr : r < M) : Queue M data r r [] where
  count := (Nat.mod_eq_of_lt hr).symm
  room := Nat.zero_le _
  cells j hj := absurd hj (Nat.not_lt_zero j)

theorem Queue.length_eq (h : Queue M data r w l) (hr : r < M) (hM : n < M) : (M - r + w) % M = l.length := by
  have hroom := h.room
  have hcount := h.count
  rcases Nat.lt_or_ge (r + l.length) M with hlt | hge
  · rw [Nat.mod_eq_of_lt hlt] at hcount
    rw [show M - r + w = l.length + M by omega, Nat.add_mod_right, Nat.mod_eq_of_lt (by omega)]
  · rw [Nat.mod_eq_sub_mod hge, Nat.mod_eq_of_lt (by omega)] at hcount
    rw [show M - r + w = l.length by omega, Nat.mod_eq_of_lt (by omega)]

theorem Queue.empty_iff (h : Queue M data r w l) (hr : r < M) (hM : n < M) : r = w ↔ l = [] := by
  have hlength := h.length_eq hr hM
  constructor
  · rintro rfl
    rw [show M - r + r = M by omega, Nat.mod_self] at hlength
    exact List.length_eq_zero_iff.1 hlength.symm
  · rintro rfl
    exact (Nat.mod_eq_of_lt hr).symm.trans h.count.symm

theorem Queue.full_iff (h : Queue M data r w l) (hr : r < M) (hM : n < M) : w = (r + n) % M ↔ l.length = n := by
  have hlength := h.length_eq hr hM
  constructor
  · intro hfull
    rcases Nat.lt_or_ge (r + n) M with hlt | hge
    · rw [Nat.mod_eq_of_lt hlt] at hfull
      rw [show M - r + w = n + M by omega, Nat.add_mod_right, Nat.mod_eq_of_lt hM] at hlength
      exact hlength.symm
    · rw [Nat.mod_eq_sub_mod hge, Nat.mod_eq_of_lt (by omega)] at hfull
      rw [show M - r + w = n by omega, Nat.mod_eq_of_lt hM] at hlength
      exact hlength.symm
  · intro hfull
    rw [h.count, hfull]

/-- The counters may wrap, since the size of the ring divides their modulus. -/
theorem ofNat_mod (hdvd : n ∣ M) (k j : Nat) : Fin.ofNat n (k % M + j) = Fin.ofNat n (k + j) := by
  refine Fin.ext ?_
  rw [Fin.val_ofNat, Fin.val_ofNat, Nat.add_mod, Nat.mod_mod_of_dvd k hdvd, ← Nat.add_mod]

theorem Queue.push (h : Queue M data r w l) (hdvd : n ∣ M) (hroom : l.length < n) :
    Queue M (update data (Fin.ofNat n w) a) r ((w + 1) % M) (l ++ [a]) := by
  have hcell : Fin.ofNat n w = Fin.ofNat n (r + l.length) := by
    rw [h.count]
    exact ofNat_mod hdvd (r + l.length) 0
  refine ⟨?_, by simpa using Nat.succ_le_of_lt hroom, fun j hj => ?_⟩
  · rw [h.count, Nat.mod_add_mod, List.length_append, List.length_singleton, Nat.add_assoc]
  · rw [hcell]
    rcases Nat.lt_succ_iff_lt_or_eq.1 (by simpa using hj) with hlt | rfl
    · rw [List.getElem_append_left hlt, ← h.cells j hlt]
      refine update_of_ne (fun heq => ?_) _ _
      -- Two positions less than `n` apart are different cells.
      have hmod := congrArg Fin.val heq
      rw [Fin.val_ofNat, Fin.val_ofNat] at hmod
      have hsame : Nat.ModEq n j l.length := Nat.ModEq.add_left_cancel' r hmod
      rw [Nat.ModEq, Nat.mod_eq_of_lt (by omega), Nat.mod_eq_of_lt hroom] at hsame
      omega
    · rw [update_self]
      simp

theorem Queue.pop (h : Queue M data r w (a :: l)) (hdvd : n ∣ M) :
    data (Fin.ofNat n r) = a ∧ Queue M data ((r + 1) % M) w l := by
  refine ⟨h.cells 0 (by simp), ?_, ?_, fun j hj => ?_⟩
  · rw [h.count, Nat.mod_add_mod, List.length_cons, Nat.add_assoc, Nat.add_comm 1]
  · exact Nat.le_of_succ_le h.room
  · rw [ofNat_mod hdvd, Nat.add_right_comm, Nat.add_assoc]
    exact h.cells (j + 1) (by simpa using hj)

/-- Taking the last element back. -/
theorem Queue.back (h : Queue M data r ((w + 1) % M) (l ++ [a])) (hw : w < M) : Queue M data r w l where
  count := by
    have hcount := h.count
    rw [List.length_append, List.length_singleton, ← Nat.add_assoc] at hcount
    have hsame : Nat.ModEq M w (r + l.length) := Nat.ModEq.add_right_cancel' 1 hcount
    rwa [Nat.ModEq, Nat.mod_eq_of_lt hw] at hsame
  room := by
    have hroom := h.room
    rw [List.length_append] at hroom
    omega
  cells j hj := by
    rw [h.cells j (by rw [List.length_append]; omega), List.getElem_append_left hj]

end fifo
