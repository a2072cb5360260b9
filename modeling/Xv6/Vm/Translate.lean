import Xv6.Vm.Access
import Xv6.Vm.CopySpec

open bytes outcome

namespace xv6

/-- The translation of `va` by its 4MB entry `h`, or by its base entry `e` where `h` is 0. -/
def viewTranslate (h e va : Nat) : Option Translation :=
  if h ≠ 0 then
    some ⟨h / 0x400000 * 0x400000 + va % 0x400000, true, PTE_FLAGS h, hasFlag h PTE_W, hasFlag h PTE_U⟩
  else if hasFlag e PTE_P then
    some ⟨PTE_ADDR e + va % 4096, false, PTE_FLAGS e, hasFlag e PTE_W, hasFlag e PTE_U⟩
  else
    none

section translate

variable {s : Machine} {g : Ghost} {d va f fl : Nat} {o : DirOwner}

/-- The hardware sees the same entries as `lookup` and `hugeAt`, since all page
tables are entered with full permissions. -/
theorem Sys.translate_eq (hs : Sys s g) (hd : IsFrame d) (hdir : g.own d = .dir o) (hva : va < 2 ^ 32) :
    translate s.mem d va = viewTranslate (hugeAt s.mem d (va / 0x400000)) (lookup s.mem d (va / 4096)) va := by
  have hslot : va / 4096 / 1024 = va / 0x400000 := by omega
  have hload : load32 s.mem (d + 4 * PDX va) = entry s.mem d (va / 0x400000) := by
    rw [entry, PDX, Nat.mod_eq_of_lt (by omega)]
  simp only [translate, hload]
  rcases (hs.pde d o hd hdir (va / 0x400000) (by omega)).shape with habs | hps | ⟨t, ht, _, hpde⟩
  · have hp : hasFlag (entry s.mem d (va / 0x400000)) PTE_P = false := by
      rw [← Bool.not_eq_true, hasFlag_P]
      omega
    have hp' : hasFlag 0 PTE_P = false := by decide
    rw [hugeAt_of_not (.inl habs), lookup_of_absent (hslot ▸ habs)]
    simp only [viewTranslate, hp, hp', ne_eq, not_true_eq_false, Bool.false_eq_true, if_false]
  · by_cases habs : entry s.mem d (va / 0x400000) % 2 = 0
    · have hp : hasFlag (entry s.mem d (va / 0x400000)) PTE_P = false := by
        rw [← Bool.not_eq_true, hasFlag_P]
        omega
      have hp' : hasFlag 0 PTE_P = false := by decide
      rw [hugeAt_of_not (.inl habs), lookup_of_absent (hslot ▸ habs)]
      simp only [viewTranslate, hp, hp', ne_eq, not_true_eq_false, Bool.false_eq_true, if_false]
    · have hne : entry s.mem d (va / 0x400000) ≠ 0 := by omega
      rw [hugeAt_of_huge (by omega) hps, viewTranslate, if_pos hne, if_pos (hasFlag_P.2 (by omega)),
        if_pos (hasFlag_PS.2 hps)]
  · have halign := ht.1
    have hp : hasFlag (t + 7) PTE_P = true := hasFlag_P.2 (by omega)
    have hps : hasFlag (t + 7) PTE_PS = false := by
      rw [← Bool.not_eq_true, hasFlag_PS]
      omega
    have hw : hasFlag (t + 7) PTE_W = true := hasFlag_W.2 (by omega)
    have hu : hasFlag (t + 7) PTE_U = true := hasFlag_U.2 (by omega)
    have hlook : load32 s.mem (t + 4 * PTX va) = lookup s.mem d (va / 4096) :=
      (lookup_of_table halign (hslot ▸ hpde)).symm
    rw [hugeAt_of_not (.inr (by rw [hpde]; omega)), hpde, PTE_ADDR_add halign (show 7 < 4096 by omega), hlook]
    simp only [viewTranslate, hp, hps, hw, hu, ne_eq, not_true_eq_false, Bool.false_eq_true, if_true, if_false,
      Bool.true_and]

theorem viewTranslate_base (hf : f % 4096 = 0) (hfl : fl < 4096) (hodd : fl % 2 = 1) :
    viewTranslate 0 (f + fl) va = some ⟨f + va % 4096, false, fl, hasFlag fl PTE_W, hasFlag fl PTE_U⟩ := by
  have hflags : PTE_FLAGS (f + fl) = fl := by
    simp only [PTE_FLAGS]
    omega
  have hw : hasFlag (f + fl) PTE_W = hasFlag fl PTE_W := by
    rw [Bool.eq_iff_iff, hasFlag_W, hasFlag_W]
    omega
  have hu : hasFlag (f + fl) PTE_U = hasFlag fl PTE_U := by
    rw [Bool.eq_iff_iff, hasFlag_U, hasFlag_U]
    omega
  rw [viewTranslate, if_neg (by simp), if_pos (hasFlag_P.2 (by omega)), PTE_ADDR_add hf hfl, hflags, hw, hu]

theorem viewTranslate_huge (hf : f % 0x400000 = 0) (e : Nat) :
    viewTranslate (f + 0x87) e va = some ⟨f + va % 0x400000, true, 0x87, true, true⟩ := by
  have hflags : PTE_FLAGS (f + 0x87) = 0x87 := by
    simp only [PTE_FLAGS]
    omega
  rw [viewTranslate, if_pos (by omega), hflags, hasFlag_W.2 (by omega), hasFlag_U.2 (by omega),
    show (f + 0x87) / 0x400000 * 0x400000 = f by omega]

theorem viewTranslate_none : viewTranslate 0 0 va = none := rfl

/-- What a user address can translate to. -/
theorem Sys.translate_user (hs : Sys s g) (hd : IsFrame d) (hdir : g.own d = .dir o) (hva : va < 0x80000000) :
    translate s.mem d va = none ∧ hugeAt s.mem d (va / 0x400000) = 0 ∧ lookup s.mem d (va / 4096) = 0 ∨
    (∃ f fl, IsFrame f ∧ g.own f = .page d (va / 0x400000) (va / 4096 % 1024) ∧ fl < 4096 ∧ fl % 2 = 1 ∧
      lookup s.mem d (va / 4096) = f + fl ∧ hugeAt s.mem d (va / 0x400000) = 0 ∧
      translate s.mem d va = some ⟨f + va % 4096, false, fl, hasFlag fl PTE_W, hasFlag fl PTE_U⟩) ∨
    ∃ f, IsHuge f ∧ g.hown f = .page d (va / 0x400000) ∧ hugeAt s.mem d (va / 0x400000) = f + 0x87 ∧
      lookup s.mem d (va / 4096) = 0 ∧
      translate s.mem d va = some ⟨f + va % 0x400000, true, 0x87, true, true⟩ := by
  have hslot : va / 4096 / 1024 = va / 0x400000 := by omega
  rw [hs.translate_eq hd hdir (by omega)]
  rcases hs.hugeAt_user hd hdir (show va / 0x400000 < 512 by omega) with hz | ⟨f, hf, hrole, hpde, hat⟩
  · rcases hs.lookup_user hd hdir (show va / 4096 < 2 ^ 19 by omega) with hz' | ⟨f, fl, hf, hrole, hfl, hodd, hlook⟩
    · left
      rw [hz, hz']
      exact ⟨viewTranslate_none, rfl, rfl⟩
    · right; left
      refine ⟨f, fl, hf, hslot ▸ hrole, hfl, hodd, hlook, hz, ?_⟩
      rw [hz, hlook]
      exact viewTranslate_base hf.1 hfl hodd
  · right; right
    have halign := hf.1
    refine ⟨f, hf, hrole, hat, lookup_of_huge (by rw [hslot, hpde]; omega), ?_⟩
    rw [hat]
    exact viewTranslate_huge halign _

end translate

end xv6
