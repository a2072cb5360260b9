import Mathlib.Data.List.Chain
import Mathlib.Data.List.Perm.Basic

namespace cycle

variable {α : Type} {R R' : α → α → Prop} {l : List α} {b f x y z : α}

/-- Nodes that are linked in order, the last one back to the first. -/
def IsCircular (R : α → α → Prop) (b : α) (l : List α) : Prop := (b :: (l ++ [b])).IsChain R

/-- Links depend on the node that they start from. -/
theorem isChain_congr (h : (l ++ [z]).IsChain R) (hsame : ∀ x ∈ l, ∀ y, R x y → R' x y) :
    (l ++ [z]).IsChain R' := by
  induction l with
  | nil => simp
  | cons x l ih =>
    obtain ⟨hx, hl⟩ := List.forall_mem_cons.1 hsame
    cases l with
    | nil => simpa using hx z (by simpa using h)
    | cons y l =>
      obtain ⟨hxy, htail⟩ := List.isChain_cons_cons.1 h
      exact List.isChain_cons_cons.2 ⟨hx y hxy, ih htail hl⟩

theorem isChain_last (h : (l ++ [y]).IsChain R) (hlast : ∀ x, R x y → R x z) : (l ++ [z]).IsChain R := by
  obtain ⟨hl, -, hcross⟩ := List.isChain_append.1 h
  refine List.isChain_append.2 ⟨hl, by simp, fun w hw v hv => ?_⟩
  obtain rfl : z = v := by simpa using hv
  exact hlast w (hcross w hw y (by simp))

theorem map_eq_of_isChain {β : Type} {g h : α → β} (hl : (x :: (l ++ [z])).IsChain fun x y => g x = h y) :
    (x :: l).map g = (l ++ [z]).map h := by
  induction l generalizing x with
  | nil => simpa using hl
  | cons y l ih =>
    obtain ⟨hxy, htail⟩ := List.isChain_cons_cons.1 hl
    rw [List.map_cons, ih htail, hxy]
    rfl

/-- A cycle can be entered at each of its nodes. -/
theorem IsCircular.enter (h : IsCircular R b l) (hf : f ∈ b :: l) : ∃ r, IsCircular R f r ∧ (f :: r).Perm (b :: l) := by
  rcases List.mem_cons.1 hf with rfl | hf
  · exact ⟨l, h, .refl _⟩
  · obtain ⟨s, t, rfl⟩ := List.append_of_mem hf
    have hsplit : ((b :: s) ++ f :: (t ++ [b])).IsChain R := by simpa [IsCircular] using h
    obtain ⟨hs, ht⟩ := List.isChain_split.1 hsplit
    refine ⟨t ++ b :: s, ?_, ?_⟩
    · have hjoin : ((f :: t) ++ b :: (s ++ [f])).IsChain R := List.isChain_split.2 ⟨ht, hs⟩
      simpa [IsCircular] using hjoin
    · exact show ((f :: t) ++ (b :: s)).Perm ((b :: s) ++ (f :: t)) from List.perm_append_comm

end cycle
