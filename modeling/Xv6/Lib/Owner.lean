import Mathlib.Logic.Function.Basic
import Mathlib.Logic.ExistsUnique
import Mathlib.Tactic.Common

namespace owner

variable {ι β : Type} {ref ref' : ι → Option β} {used used' : β → Prop}

/-- The references and the marks agree: the marked items are those referred to, each by one reference. -/
structure Owns (ref : ι → Option β) (used : β → Prop) : Prop where
  used_of_ref : ∀ {x b}, ref x = some b → used b
  inj : ∀ {x y b}, ref x = some b → ref y = some b → x = y
  exists_ref : ∀ {b}, used b → ∃ x, ref x = some b

theorem Owns.congr (h : Owns ref used) (hused : ∀ b, used' b ↔ used b) : Owns ref used' where
  used_of_ref hx := (hused _).2 (h.used_of_ref hx)
  inj := h.inj
  exists_ref hb := h.exists_ref ((hused _).1 hb)

/-- An empty reference is pointed at an unmarked item, which is then marked. -/
theorem Owns.alloc [DecidableEq ι] (h : Owns ref used) {x : ι} {b : β} (hx : ref x = none) (hb : ¬ used b)
    (hused : ∀ c, used' c ↔ used c ∨ c = b) : Owns (Function.update ref x (some b)) used' := by
  have hne {y : ι} : ref y ≠ some b := fun hy => hb (h.used_of_ref hy)
  refine ⟨?_, ?_, ?_⟩
  · intro y c hy
    by_cases hyx : y = x
    · subst hyx
      rw [Function.update_self] at hy
      exact (hused c).2 (Or.inr (Option.some.inj hy).symm)
    · rw [Function.update_of_ne hyx] at hy
      exact (hused c).2 (Or.inl (h.used_of_ref hy))
  · intro y z c hy hz
    by_cases hyx : y = x <;> by_cases hzx : z = x
    · rw [hyx, hzx]
    · subst hyx
      rw [Function.update_self, Option.some.injEq] at hy
      rw [Function.update_of_ne hzx, ← hy] at hz
      exact absurd hz hne
    · subst hzx
      rw [Function.update_self, Option.some.injEq] at hz
      rw [Function.update_of_ne hyx, ← hz] at hy
      exact absurd hy hne
    · rw [Function.update_of_ne hyx] at hy
      rw [Function.update_of_ne hzx] at hz
      exact h.inj hy hz
  · intro c hc
    obtain hc | rfl := (hused c).1 hc
    · obtain ⟨y, hy⟩ := h.exists_ref hc
      have hyx : y ≠ x := by
        rintro rfl
        rw [hx] at hy
        cases hy
      exact ⟨y, by rw [Function.update_of_ne hyx, hy]⟩
    · exact ⟨x, Function.update_self ..⟩

/-- The references in `S` are dropped and the items they point at are unmarked. -/
theorem Owns.release (h : Owns ref used) {S : ι → Prop} (hdrop : ∀ x, S x → ref' x = none)
    (hkeep : ∀ x, ¬ S x → ref' x = ref x)
    (hused : ∀ b, used' b ↔ used b ∧ ∀ x, S x → ref x ≠ some b) : Owns ref' used' := by
  have hold {x : ι} {b : β} (hx : ref' x = some b) : ¬ S x ∧ ref x = some b := by
    by_cases hs : S x
    · rw [hdrop x hs] at hx
      cases hx
    · exact ⟨hs, hkeep x hs ▸ hx⟩
  refine ⟨?_, ?_, ?_⟩
  · intro x b hx
    obtain ⟨hs, hx⟩ := hold hx
    exact (hused b).2 ⟨h.used_of_ref hx, fun y hy heq => hs (h.inj hx heq ▸ hy)⟩
  · intro x y b hx hy
    exact h.inj (hold hx).2 (hold hy).2
  · intro b hb
    obtain ⟨hb, hnone⟩ := (hused b).1 hb
    obtain ⟨x, hx⟩ := h.exists_ref hb
    exact ⟨x, by rw [hkeep x fun hs => hnone x hs hx, hx]⟩

end owner
