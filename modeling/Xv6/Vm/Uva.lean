import Xv6.Vm.Translate

open bytes outcome

namespace xv6

/-- The physical address that a user access to `va` goes to; `none` where it faults. -/
def userAccess (m : Mem) (d va : Nat) : Option Nat :=
  match translate m d va with
  | some t => if t.user then some t.pa else none
  | none => none

/-- The kernel address of the page that a user access to `va` goes to; 0 where it faults. -/
def userAlias (m : Mem) (d va : Nat) : Nat :=
  match userAccess m d va with
  | some pa => P2V (PGROUNDDOWN pa)
  | none => 0

/-- What `uva2ka` makes of a page table entry. -/
def pteAlias (e : Nat) : Nat :=
  if hasFlag e PTE_P && hasFlag e PTE_U then P2V (PTE_ADDR e) else 0

/-- The directory entry for `va` refers to a page table. -/
def HasTable (m : Mem) (d va : Nat) : Prop :=
  entry m d (PDX va) % 2 = 1 ∧ entry m d (PDX va) / 128 % 2 = 0

section walk

variable {s : Machine} {g : Ghost} {d va : Nat} {o : DirOwner}

theorem uva2ka_of_pte {f : Nat} (hwalk : (walkpgdir (P2V d) va false).run s = .ok (P2V f + 4 * PTX va) s)
    (hf : f < 0x3E000000) : (uva2ka (P2V d) va).run s = .ok (pteAlias (entry s.mem f (PTX va))) s := by
  have hne : ¬ P2V f + 4 * PTX va = 0 := by
    have := P2V_ne_zero (show f < 0x80000000 by omega)
    omega
  unfold uva2ka pteAlias
  rw [bind_ok hwalk, if_neg hne, readWord_entry_bind hf (PTX_lt va)]
  generalize entry s.mem f (PTX va) = e
  simp only []
  cases hasFlag e PTE_P <;> cases hasFlag e PTE_U <;> simp

/-- Where there is a page table, `walkpgdir` finds the entry that the hardware uses. -/
theorem Sys.walk_table (hs : Sys s g) (hd : IsFrame d) (hdir : g.own d = .dir o) (hva : va < 2 ^ 32)
    (htable : HasTable s.mem d va) :
    ∃ t, IsFrame t ∧ g.own t = .table d (va / 0x400000) ∧
      (walkpgdir (P2V d) va false).run s = .ok (P2V t + 4 * PTX va) s ∧
      entry s.mem t (PTX va) = lookup s.mem d (va / 4096) ∧ hugeAt s.mem d (va / 0x400000) = 0 := by
  have hslot : va / 4096 / 1024 = va / 0x400000 := by omega
  have hpdx : PDX va = va / 0x400000 := Nat.mod_eq_of_lt (by omega)
  obtain ⟨hodd, hps⟩ := htable
  rw [hpdx] at hodd hps
  rcases (hs.pde d o hd hdir (va / 0x400000) (by omega)).shape with h | h | ⟨t, ht, hrole, hpde⟩
  · omega
  · omega
  · refine ⟨t, ht, hrole, ?_, ?_, hugeAt_of_not (.inr hps)⟩
    · exact walkpgdir_present hd false ht.1 (show 7 < 4096 by omega) rfl (by rw [hpdx, hpde])
    · exact (lookup_of_table ht.1 (hslot ▸ hpde)).symm

theorem Sys.userAccess_table (hs : Sys s g) (hd : IsFrame d) (hdir : g.own d = .dir o) (hva : va < 2 ^ 32)
    (hhuge : hugeAt s.mem d (va / 0x400000) = 0) :
    userAccess s.mem d va =
      if hasFlag (lookup s.mem d (va / 4096)) PTE_P && hasFlag (lookup s.mem d (va / 4096)) PTE_U then
        some (PTE_ADDR (lookup s.mem d (va / 4096)) + va % 4096)
      else none := by
  rw [userAccess, hs.translate_eq hd hdir hva, hhuge, viewTranslate, if_neg (by simp)]
  cases hasFlag (lookup s.mem d (va / 4096)) PTE_P <;> cases hasFlag (lookup s.mem d (va / 4096)) PTE_U <;> rfl

theorem Sys.userAlias_table (hs : Sys s g) (hd : IsFrame d) (hdir : g.own d = .dir o) (hva : va < 2 ^ 32)
    (hhuge : hugeAt s.mem d (va / 0x400000) = 0) :
    userAlias s.mem d va = pteAlias (lookup s.mem d (va / 4096)) := by
  rw [userAlias, hs.userAccess_table hd hdir hva hhuge, pteAlias]
  split_ifs
  · have hpage : PGROUNDDOWN (PTE_ADDR (lookup s.mem d (va / 4096)) + va % 4096) =
        PTE_ADDR (lookup s.mem d (va / 4096)) := by
      simp only [PGROUNDDOWN, PTE_ADDR, PGSIZE]
      omega
    simp only [hpage]
  · rfl

/-- `uva2ka` is right wherever there is a page table. -/
theorem uva2ka_table (hs : Sys s g) (hd : IsFrame d) (hdir : g.own d = .dir o) (hva : va < 2 ^ 32)
    (htable : HasTable s.mem d va) : (uva2ka (P2V d) va).run s = .ok (userAlias s.mem d va) s := by
  obtain ⟨t, ht, _, hwalk, hentry, hhuge⟩ := hs.walk_table hd hdir hva htable
  have hlt := ht.lt
  rw [uva2ka_of_pte hwalk (by omega), hs.userAlias_table hd hdir hva hhuge, hentry]

/-- A user access to a page of a page table goes to the page's own frame. -/
theorem Sys.userAccess_page {pa : Nat} (hs : Sys s g) (hd : IsFrame d) (hdir : g.own d = .dir o) (hva : va < 0x80000000)
    (hhuge : hugeAt s.mem d (va / 0x400000) = 0) (h : userAccess s.mem d va = some pa) :
    ∃ f fl, IsFrame f ∧ g.own f = .page d (va / 0x400000) (va / 4096 % 1024) ∧ fl < 4096 ∧ fl % 2 = 1 ∧ fl / 4 % 2 = 1 ∧
      lookup s.mem d (va / 4096) = f + fl ∧ pa = f + va % 4096 := by
  rw [hs.userAccess_table hd hdir (by omega) hhuge] at h
  split_ifs at h with hflags
  rw [Bool.and_eq_true, hasFlag_P, hasFlag_U] at hflags
  rcases hs.lookup_user hd hdir (show va / 4096 < 2 ^ 19 by omega) with hz | ⟨f, fl, hf, hpage, hfl, hodd, hlook⟩
  · omega
  · have halign := hf.1
    have hslot : va / 4096 / 1024 = va / 0x400000 := by omega
    rw [hlook, PTE_ADDR_add halign hfl, Option.some.injEq] at h
    exact ⟨f, fl, hf, hslot ▸ hpage, hfl, hodd, by omega, hlook, h.symm⟩

theorem kpte_not_user (k : Nat) : kpte k / 4 % 2 = 0 := by
  unfold kpte
  split_ifs <;> omega

theorem kpde_not_user (i : Nat) : kpde i / 4 % 2 = 0 := by
  unfold kpde
  split_ifs <;> omega

/-- No user access to the kernel half succeeds. -/
theorem KernOK.userAccess_eq_none (hk : KernOK s.mem d) (hs : Sys s g) (hd : IsFrame d) (hdir : g.own d = .dir o)
    (hlo : 0x80000000 ≤ va) (hva : va < 2 ^ 32) : userAccess s.mem d va = none := by
  have hlook := hk.lookup_eq (va / 4096) (by omega) (by omega)
  have hhuge := hk.huge_eq (va / 0x400000) (by omega) (by omega)
  by_cases hslot : hugeAt s.mem d (va / 0x400000) = 0
  · have hu : hasFlag (lookup s.mem d (va / 4096)) PTE_U = false := by
      rw [← Bool.not_eq_true, hasFlag_U, hlook, kpte_not_user]
      omega
    rw [hs.userAccess_table hd hdir hva hslot, hu, Bool.and_false, if_neg Bool.false_ne_true]
  · have hu : hasFlag (kpde (va / 0x400000)) PTE_U = false := by
      rw [← Bool.not_eq_true, hasFlag_U, kpde_not_user]
      omega
    rw [userAccess, hs.translate_eq hd hdir hva, viewTranslate, if_pos hslot, hhuge, hu]
    rfl

/-- The software walk agrees with the hardware on `va`: `walkpgdir` finds an entry, and `uva2ka` returns the
kernel address of the page that a user access goes to, or 0 where that faults. -/
def Agrees (s : Machine) (d va : Nat) : Prop :=
  (walkpgdir (P2V d) va false).run s ≠ .ok 0 s ∧ (uva2ka (P2V d) va).run s = .ok (userAlias s.mem d va) s

/-- The word `w` of a 4MB page with directory entry `e` reads as an entry for the page at `va` should: present, open to
the user and with the number of that 4KB page; or, if the 4MB page is not open to the user, not present, not open or
with the number that `P2V` takes to the null pointer. -/
def ReadsAsEntry (e w va : Nat) : Prop :=
  if e / 4 % 2 = 1 then w % 2 = 1 ∧ w / 4 % 2 = 1 ∧ w / 4096 = e / 0x400000 * 1024 + PTX va
  else w % 2 = 0 ∨ w / 4 % 2 = 0 ∨ w / 4096 = 0x80000

/-- The directory entry is there, and if it is that of a 4MB page then the word of the page that stands where a page
table would have the entry reads as that entry. -/
def Translates (m : Mem) (d va : Nat) : Prop :=
  entry m d (PDX va) ≠ 0 ∧ (entry m d (PDX va) / 128 % 2 = 1 →
    ReadsAsEntry (entry m d (PDX va)) (entry m (PTE_ADDR (entry m d (PDX va))) (PTX va)) va)

theorem pteAlias_eq_zero {w : Nat} (hw : w < 2 ^ 32) :
    pteAlias w = 0 ↔ w % 2 = 0 ∨ w / 4 % 2 = 0 ∨ w / 4096 = 0x80000 := by
  rw [pteAlias]
  split_ifs with h
  · rw [Bool.and_eq_true, hasFlag_P, hasFlag_U] at h
    simp only [P2V, PTE_ADDR, KERNBASE]
    omega
  · rw [Bool.and_eq_true, hasFlag_P, hasFlag_U] at h
    exact iff_of_true rfl (by omega)

theorem pteAlias_eq_P2V {w k : Nat} (hw : w < 2 ^ 32) (hk : k < 0x80000) :
    pteAlias w = P2V (4096 * k) ↔ w % 2 = 1 ∧ w / 4 % 2 = 1 ∧ w / 4096 = k := by
  rw [pteAlias]
  split_ifs with h
  · rw [Bool.and_eq_true, hasFlag_P, hasFlag_U] at h
    simp only [P2V, PTE_ADDR, KERNBASE]
    omega
  · rw [Bool.and_eq_true, hasFlag_P, hasFlag_U] at h
    exact iff_of_false (P2V_ne_zero (by omega)).symm (by omega)

/-- Where a user access to a 4MB page goes. -/
theorem userAccess_huge {m : Mem} (hodd : entry m d (PDX va) % 2 = 1) (hps : entry m d (PDX va) / 128 % 2 = 1) :
    userAccess m d va = if entry m d (PDX va) / 4 % 2 = 1 then
      some (entry m d (PDX va) / 0x400000 * 0x400000 + va % 0x400000) else none := by
  have hP : hasFlag (load32 m (d + 4 * PDX va)) PTE_P = true := hasFlag_P.2 hodd
  have hPS : hasFlag (load32 m (d + 4 * PDX va)) PTE_PS = true := hasFlag_PS.2 hps
  simp only [userAccess, translate, hP, hPS, if_true]
  split_ifs with hU hU' hU'
  · rfl
  · exact absurd (hasFlag_U.1 hU) hU'
  · exact absurd (hasFlag_U.2 hU') hU
  · rfl

/-- When `uva2ka` makes the right kernel address out of a word of a 4MB page. -/
theorem pteAlias_huge {m : Mem} {w : Nat} (hw : w < 2 ^ 32) (hodd : entry m d (PDX va) % 2 = 1)
    (hps : entry m d (PDX va) / 128 % 2 = 1) (hlt : entry m d (PDX va) < 0x80000000) :
    pteAlias w = userAlias m d va ↔ ReadsAsEntry (entry m d (PDX va)) w va := by
  rw [userAlias, userAccess_huge hodd hps, ReadsAsEntry]
  split_ifs
  · have hpage : PGROUNDDOWN (entry m d (PDX va) / 0x400000 * 0x400000 + va % 0x400000) =
        4096 * (entry m d (PDX va) / 0x400000 * 1024 + PTX va) := by
      simp only [PGROUNDDOWN, PGSIZE, PTX]
      omega
    simp only [hpage]
    exact pteAlias_eq_P2V hw (by simp only [PTX]; omega)
  · exact pteAlias_eq_zero hw

theorem agrees_of_pte {f : Nat} (hwalk : (walkpgdir (P2V d) va false).run s = .ok (P2V f + 4 * PTX va) s)
    (hf : f < 0x3E000000) : Agrees s d va ↔ pteAlias (entry s.mem f (PTX va)) = userAlias s.mem d va := by
  have hne := P2V_ne_zero (show f < 0x80000000 by omega)
  rw [Agrees, hwalk, uva2ka_of_pte hwalk hf]
  constructor
  · rintro ⟨-, h⟩
    rw [EStateM.Result.ok.injEq] at h
    exact h.1
  · intro h
    refine ⟨fun h0 => ?_, by rw [h]⟩
    rw [EStateM.Result.ok.injEq] at h0
    omega

/-- Which addresses `uva2ka` translates as the hardware does. -/
theorem agrees_iff (hs : Sys s g) (hd : IsFrame d) (hdir : g.own d = .dir o) (hva : va < 2 ^ 32) :
    Agrees s d va ↔ Translates s.mem d va := by
  have hps {f fl : Nat} (hf : f % 0x400000 = 0) (hlt : f < 0x3E000000) (hfl : fl = 0x87 ∨ fl = 0x83)
      (h : entry s.mem d (PDX va) = f + fl) : Agrees s d va ↔ Translates s.mem d va := by
    have hwalk := walkpgdir_present hd false (show f % 4096 = 0 by omega) (show fl < 4096 by omega) (by omega) h
    have hw : entry s.mem f (PTX va) < 2 ^ 32 := load32_lt _ _
    rw [agrees_of_pte hwalk hlt, pteAlias_huge hw (by omega) (by omega) (by omega), Translates, h,
      PTE_ADDR_add (by omega) (by omega)]
    exact ⟨fun hagree => ⟨by omega, fun _ => hagree⟩, fun hagree => hagree.2 (by omega)⟩
  rcases hs.pde d o hd hdir (PDX va) (PDX_lt va) with h | ⟨t, ht, -, h⟩ | ⟨-, f, hf, -, h⟩ | ⟨hlo, hhi, h⟩
  · refine iff_of_false (fun hagree => hagree.1 (walkpgdir_absent hd h)) fun htrans => htrans.1 h
  · have halign := ht.1
    have htable : HasTable s.mem d va := by
      rw [HasTable, h]
      omega
    refine iff_of_true ?_ ⟨by omega, fun hodd => by omega⟩
    obtain ⟨t', ht', -, hwalk, hentry, hhuge⟩ := hs.walk_table hd hdir hva htable
    have hlt := ht'.lt
    rw [agrees_of_pte hwalk (by omega), hentry, hs.userAlias_table hd hdir hva hhuge]
  · have hlt := hf.lt
    exact hps hf.1 (by omega) (.inl rfl) h
  · exact hps (by omega) (by omega) (.inr rfl) h

end walk

section write

variable {s : Machine} {g : Ghost} {d f i j off : Nat} {o : DirOwner}

/-- Writing into a page of directory `d`. -/
theorem blit_page (data : List UInt8) (hs : Sys s g) (hd : IsFrame d) (hdir : g.own d = .dir o)
    (hf : IsFrame f) (hpage : g.own f = .page d i j) (hlen : off + data.length ≤ 4096) :
    Sys { s with mem := blit s.mem (f + off) data } g ∧
      UserStep d (fun _ => False) s g { s with mem := blit s.mem (f + off) data } g ∧
      (∀ k < 2 ^ 20, lookup (blit s.mem (f + off) data) d k = lookup s.mem d k) ∧
      ∀ i < 1024, entry (blit s.mem (f + off) data) d i = entry s.mem d i := by
  have hne {x : Nat} (hr : ∀ i j, g.own x ≠ .page d i j) : x ≠ f := by
    rintro rfl
    exact hr _ _ hpage
  have hsame (x : Nat) (hx : IsFrame x) (hxf : x ≠ f) : SameOn s.mem (blit s.mem (f + off) data) x 4096 :=
    blit_sameOn _ (by have := hf.apart hx hxf.symm; omega)
  have hhsame (x n : Nat) (hx : IsHuge x) : SameOn s.mem (blit s.mem (f + off) data) x n :=
    blit_sameOn _ (by have := hf.apart_huge hx; omega)
  have hentry (i : Nat) (hi : i < 1024) : entry (blit s.mem (f + off) data) d i = entry s.mem d i :=
    entry_eq_of_sameOn (hsame d hd (hne (by simp [hdir]))) hi
  refine ⟨hs.congr rfl rfl (fun x hx hstruct => hsame x hx (hne fun i j h => ?_)) fun x hx _ => hhsame x _ hx,
    ⟨⟨fun _ _ => .inr rfl, fun x hx hout => hsame x hx (hne fun i j h => hout (.inr (.inr (.inr ⟨i, j, h⟩)))),
      fun _ _ => .inr rfl, fun x hx _ => hhsame x _ hx, rfl⟩, rfl, fun i _ hi => hentry i hi⟩, ?_, hentry⟩
  · simp [h, Role.structural] at hstruct
  · exact (hs.view_congr hd hdir (hsame d hd (hne (by simp [hdir]))) fun t i ht htable =>
      hsame t ht (hne (by simp [htable]))).1

end write

end xv6
