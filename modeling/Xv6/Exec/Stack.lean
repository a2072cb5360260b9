import Xv6.Exec.Load

open bytes outcome Function

namespace xv6

/-- An image with the guard page and the stack page on top. -/
structure Stacked (d sz : Nat) (s₀ : Machine) (g₀ : Ghost) (s : Machine) (g : Ghost) : Prop
    extends Image d sz s₀ g₀ s g where
  align : sz % 4096 = 0
  room : 8192 ≤ sz
  guard : lookup s.mem d (sz / 4096 - 2) / 4 % 2 = 0
  stack : lookup s.mem d (sz / 4096 - 1) % 4096 = 7

section stack

variable {s₀ s : Machine} {g₀ g : Ghost} {d sz : Nat}

theorem Image.roundup (h : Image d sz s₀ g₀ s g) : Image d (PGROUNDUP sz) s₀ g₀ s g := by
  have hsz := h.sz_le
  have hround : PGROUNDUP sz = (sz + 4095) / 4096 * 4096 := by
    simp only [PGROUNDUP, u32, PGSIZE]
    omega
  refine h.step (.refl _ _ _ _) h.sys ⟨fun k hk => ?_, h.layout.huge, h.layout.high⟩ (fun k hk => h.writable k ?_) rfl
  · rw [h.layout.base k hk, hround]
    omega
  · rw [hround] at hk
    omega

/-- The two pages on top of the loaded program. The frames of the program keep
their places and their contents. -/
theorem Image.stacked (h : Image d sz s₀ g₀ s g) :
    (∃ s₁ s₂ g₂,
      (xv6.allocuvm (P2V d) (PGROUNDUP sz) (u32 (PGROUNDUP sz + 2 * PGSIZE))).run s = .ok (PGROUNDUP sz + 8192) s₁ ∧
      (xv6.clearpteu (P2V d) (u32 (PGROUNDUP sz + 8192 + (2 ^ 32 - 2 * PGSIZE)))).run s₁ = .ok () s₂ ∧
      Stacked d (PGROUNDUP sz + 8192) s₀ g₀ s₂ g₂ ∧
      (∀ k < PGROUNDUP sz / 4096, lookup s₂.mem d k = lookup s.mem d k) ∧
      ∀ x i j, IsFrame x → g.own x = .page d i j → SameOn s.mem s₂.mem x 4096) ∨
    ∃ s₁ g₁, (xv6.allocuvm (P2V d) (PGROUNDUP sz) (u32 (PGROUNDUP sz + 2 * PGSIZE))).run s = .ok 0 s₁ ∧
      Image d (PGROUNDUP sz) s₀ g₀ s₁ g₁ := by
  have hsz := h.sz_le
  have hround : PGROUNDUP sz = (sz + 4095) / 4096 * 4096 := by
    simp only [PGROUNDUP, u32, PGSIZE]
    omega
  have hr := h.roundup
  generalize PGROUNDUP sz = b at hround hr
  have htop : u32 (b + 2 * PGSIZE) = b + 8192 := by
    simp only [u32, PGSIZE]
    omega
  have hguard : u32 (b + 8192 + (2 ^ 32 - 2 * PGSIZE)) = b := by
    simp only [u32, PGSIZE]
    omega
  rw [htop, hguard]
  rcases hr.allocuvm (b + 8192) with ⟨s₁, g₁, halloc, h₁, hext⟩ | ⟨s₁, g₁, halloc, h₁⟩
  swap
  · exact .inr ⟨s₁, g₁, halloc, h₁⟩
  left
  rw [max_eq_right (by omega)] at halloc h₁
  obtain ⟨s₂, hclear, h₂, hlook, hcleared, hsame⟩ := h₁.clearpteu (show b < b + 8192 by omega)
  have hstack := hext.mapped (b / 4096 + 1) (by omega) (by omega)
  refine ⟨s₁, s₂, g₁, halloc, hclear, ⟨h₂, by omega, by omega, ?_, ?_⟩, fun k hk => ?_, fun x i j hx hpage => ?_⟩
  · rwa [show (b + 8192) / 4096 - 2 = b / 4096 by omega]
  · rw [show (b + 8192) / 4096 - 1 = b / 4096 + 1 by omega, hlook _ (by omega) (by omega), hstack]
  · rw [hlook k (by omega) (by omega), hext.lookup_eq k (by omega) (by omega)]
  · obtain ⟨hpage', hsame'⟩ := hext.pages x i j hx hpage
    exact hsame'.trans (hsame x i j hx hpage')

end stack

end xv6
