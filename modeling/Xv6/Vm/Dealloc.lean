import Xv6.Vm.Walk

open bytes outcome Function

namespace xv6

theorem hugeAt_ne_zero_iff {m : Mem} {d i : Nat} :
    hugeAt m d i ≠ 0 ↔ entry m d i % 2 = 1 ∧ entry m d i / 128 % 2 = 1 := by
  by_cases h : entry m d i % 2 = 1 ∧ entry m d i / 128 % 2 = 1
  · rw [hugeAt_of_huge h.1 h.2]
    omega
  · rw [hugeAt_of_not (by omega)]
    omega

/-- Frame `f` was unmapped from slot `j` of table `t` and freed. -/
def Machine.unmapped (s : Machine) (t j f : Nat) : Machine :=
  { s.freed f with mem := store32 (s.freed f).mem (t + 4 * j) 0 }

theorem Machine.unmapped_eq {s : Machine} {t j f : Nat} (ht : IsFrame t) (hf : IsFrame f)
    (hne : t ≠ f) (hj : j < 1024) :
    s.unmapped t j f = { s with mem := store32 s.mem (t + 4 * j) 0 }.freed f := by
  have hapart := ht.apart hf hne
  have hmem : store32 (s.freed f).mem (t + 4 * j) 0 =
      (Machine.freed { s with mem := store32 s.mem (t + 4 * j) 0 } f).mem := by
    funext b
    simp only [Machine.freed, store32, fill]
    by_cases hb : t + 4 * j ≤ b ∧ b < t + 4 * j + 4
    · rw [if_pos hb, if_neg (by omega), if_neg (by omega), if_pos hb]
    · rw [if_neg hb, if_neg hb]
  simp only [Machine.unmapped, hmem]
  rfl

section step

variable {s : Machine} {g : Ghost} {d k t f : Nat} {o : DirOwner}

/-- A missing page table: the loop goes on at the next directory slot. -/
theorem dealloc_step_absent (hd : IsFrame d) (hk : k < 1023 * 1024)
    (h : entry s.mem d (k / 1024) = 0) :
    (deallocuvm.step (P2V d) (4096 * k)).run s = .ok (4096 * (1024 * (k / 1024 + 1))) s := by
  have hlt := hd.lt
  have hpdx : PDX (4096 * k) = k / 1024 := PDX_page (by omega)
  have hps : ¬ hasFlag 0 PTE_PS = true := by simp
  have hnext : u32 (u32 (PGADDR (k / 1024 + 1) 0 0 + (2 ^ 32 - PGSIZE)) + PGSIZE) =
      4096 * (1024 * (k / 1024 + 1)) := by
    simp only [PGADDR, u32, PGSIZE]
    omega
  unfold deallocuvm.step
  rw [hpdx, readWord_entry_bind (by omega) (by omega), h, if_neg hps,
    bind_ok (walkpgdir_absent hd (by rw [hpdx, h])), if_pos rfl, EStateM.run_pure, hnext]

theorem dealloc_step_table (hd : IsFrame d) (hk : k < 2 ^ 20) (ht : IsFrame t)
    (h : entry s.mem d (k / 1024) = t + 7) :
    (deallocuvm.step (P2V d) (4096 * k)).run s =
      (do
        if hasFlag (entry s.mem t (k % 1024)) PTE_P then
          if PTE_ADDR (entry s.mem t (k % 1024)) = 0 then
            panic "kfree"
          else
            kfree (P2V (PTE_ADDR (entry s.mem t (k % 1024))))
            writeWord (P2V t + 4 * (k % 1024)) 0
        return u32 (4096 * k + PGSIZE) : KernelM Nat).run s := by
  have hlt := hd.lt
  have htlt := ht.lt
  have halign := ht.1
  have hpdx : PDX (4096 * k) = k / 1024 := PDX_page hk
  have hps : ¬ hasFlag (t + 7) PTE_PS = true := by
    rw [hasFlag_PS]
    omega
  have hne : ¬ P2V t + 4 * (k % 1024) = 0 := by
    have := P2V_ne_zero (f := t) (by omega)
    omega
  unfold deallocuvm.step
  rw [hpdx, readWord_entry_bind (by omega) (by omega), h, if_neg hps,
    bind_ok (walkpgdir_present hd false halign (show 7 < 4096 by omega) rfl (by rw [hpdx, h])),
    PTX_page, if_neg hne, readWord_entry_bind (by omega) (by omega)]

theorem dealloc_step_empty (hd : IsFrame d) (hk : k < 2 ^ 20 - 1) (ht : IsFrame t)
    (h : entry s.mem d (k / 1024) = t + 7) (hempty : entry s.mem t (k % 1024) % 2 = 0) :
    (deallocuvm.step (P2V d) (4096 * k)).run s = .ok (4096 * (k + 1)) s := by
  have hp : ¬ hasFlag (entry s.mem t (k % 1024)) PTE_P = true := by
    rw [hasFlag_P]
    omega
  have hnext : u32 (4096 * k + PGSIZE) = 4096 * (k + 1) := by
    simp only [u32, PGSIZE]
    omega
  rw [dealloc_step_table hd (by omega) ht h, if_neg hp, hnext]
  rfl

theorem dealloc_step_page {fl : Nat} (hd : IsFrame d) (hk : k < 2 ^ 20 - 1) (ht : IsFrame t)
    (h : entry s.mem d (k / 1024) = t + 7) (hf : IsFrame f) (hfl : fl < 4096) (hodd : fl % 2 = 1)
    (hpage : entry s.mem t (k % 1024) = f + fl) :
    (deallocuvm.step (P2V d) (4096 * k)).run s =
      .ok (4096 * (k + 1)) (s.unmapped t (k % 1024) f) := by
  have halign := hf.1
  have hlo := hf.2.1
  have htlt := ht.lt
  have hp : hasFlag (f + fl) PTE_P = true := by
    rw [hasFlag_P]
    omega
  have hne : ¬ f = 0 := by omega
  have hnext : u32 (4096 * k + PGSIZE) = 4096 * (k + 1) := by
    simp only [u32, PGSIZE]
    omega
  rw [dealloc_step_table hd (by omega) ht h, hpage, if_pos hp, PTE_ADDR_add halign hfl, if_neg hne, hnext]
  rw [bind_ok (kfree_run hf s), writeWord_entry_bind (by omega) (by omega)]
  rfl

/-- A 4MB entry: the first word of the mapped page is taken for a table entry. -/
theorem dealloc_step_ps {i : Nat} (hd : IsFrame d) (hi : i < 1024) (hf : IsHuge f)
    (h : entry s.mem d i = f + 0x87) :
    (deallocuvm.step (P2V d) (4096 * (1024 * i))).run s =
      (do
        if hasFlag (entry s.mem f 0) PTE_P then
          if PTE_ADDR (entry s.mem f 0) = 0 then
            panic "khugefree"
          else
            khugefree (P2V (PTE_ADDR (entry s.mem f 0)))
            writeWord (P2V f + 4 * 0) 0
        return u32 (4096 * (1024 * i) + HUGE_PAGE_SIZE) : KernelM Nat).run s := by
  have hlt := hd.lt
  have hflt := hf.lt
  have halign := hf.1
  have hpdx : PDX (4096 * (1024 * i)) = i := by
    rw [PDX_page (by omega)]
    omega
  have hptx : PTX (4096 * (1024 * i)) = 0 := by
    rw [PTX_page]
    omega
  have hps : hasFlag (f + 0x87) PTE_PS = true := by
    rw [hasFlag_PS]
    omega
  have hne (j : Nat) : ¬ P2V f + 4 * j = 0 := by
    have := P2V_ne_zero (f := f) (by omega)
    omega
  unfold deallocuvm.step
  rw [hpdx, readWord_entry_bind (by omega) hi, h, if_pos hps,
    bind_ok (walkpgdir_present (f := f) hd false (by omega) (show 0x87 < 4096 by omega) rfl (by rw [hpdx, h])),
    hptx, if_neg (hne 0), readWord_entry_bind (by omega) (by omega)]

/-- A huge page whose first word has no `PTE_P` bit is passed over and stays mapped. -/
theorem dealloc_step_huge {i : Nat} (hd : IsFrame d) (hi : i < 1023) (hf : IsHuge f)
    (h : entry s.mem d i = f + 0x87) (heven : entry s.mem f 0 % 2 = 0) :
    (deallocuvm.step (P2V d) (4096 * (1024 * i))).run s = .ok (4096 * (1024 * (i + 1))) s := by
  have hp : ¬ hasFlag (entry s.mem f 0) PTE_P = true := by
    rw [hasFlag_P]
    omega
  have hnext : u32 (4096 * (1024 * i) + HUGE_PAGE_SIZE) = 4096 * (1024 * (i + 1)) := by
    simp only [u32, HUGE_PAGE_SIZE]
    omega
  rw [dealloc_step_ps hd (by omega) hf h, if_neg hp, hnext]
  rfl

end step

end xv6
