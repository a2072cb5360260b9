import Xv6.Exec
import Xv6.System.Grow
import Xv6.Vm.Copyout
import Xv6.Vm.Zero

open bytes outcome Function

namespace xv6

/-- Directory `d`, made since state `s₀`, maps an image of `sz` bytes and no huge page. -/
structure Image (d sz : Nat) (s₀ : Machine) (g₀ : Ghost) (s : Machine) (g : Ghost) : Prop where
  sys : Sys s g
  frame : IsFrame d
  was : g₀.own d = .free
  dir : g.own d = .dir .temp
  within : Within (WholeArea d) (fun _ => False) s₀ g₀ s g
  kern : KernOK s.mem d
  layout : Layout s.mem d sz 0
  writable : ∀ k, 4096 * k < sz → lookup s.mem d k / 2 % 2 = 1
  hfree : g.hfree = g₀.hfree

section image

variable {s₀ s s' : Machine} {g₀ g g' : Ghost} {d sz sz' k va va' pa : Nat}

theorem NewDir.image (h : NewDir d s g s' g') (hs' : Sys s' g') : Image d 0 s g s' g' where
  sys := hs'
  frame := h.frame
  was := h.was
  dir := h.dir
  within := h.whole
  kern := h.kern
  layout :=
    { base := fun k hk => by simp [lookup_of_absent (show entry s'.mem d (k / 1024) % 2 = 0 by rw [h.low _ (by omega)])]
      huge := fun i hi => by simp [hugeAt_of_not (.inl (show entry s'.mem d i % 2 = 0 by rw [h.low i hi]))]
      high := fun i _ hi _ => h.low i hi }
  writable k hk := by omega
  hfree := h.hfree

/-- A step on the user half of the directory that leaves an image of `sz'` bytes. -/
theorem Image.step (h : Image d sz s₀ g₀ s g) (hstep : UserStep d (fun _ => False) s g s' g') (hs' : Sys s' g')
    (hl : Layout s'.mem d sz' 0) (hw : ∀ k, 4096 * k < sz' → lookup s'.mem d k / 2 % 2 = 1) (hhfree : g'.hfree = g.hfree) :
    Image d sz' s₀ g₀ s' g' where
  sys := hs'
  frame := h.frame
  was := h.was
  dir := hstep.dir.trans h.dir
  within := h.within.trans hstep.whole
  kern := hstep.kernOK h.sys h.frame h.dir h.kern
  layout := hl
  writable := hw
  hfree := hhfree.trans h.hfree

theorem Image.sz_le (h : Image d sz s₀ g₀ s g) : sz ≤ 4096 * 57065 := h.layout.sz_le h.sys h.frame h.dir

theorem Image.hugeAt_eq (h : Image d sz s₀ g₀ s g) (i : Nat) (hi : i < 512) : hugeAt s.mem d i = 0 := by
  by_contra hne
  have := (h.layout.huge i hi).1 hne
  omega

theorem Image.quiet (h : Image d sz s₀ g₀ s g) {lo hi : Nat} (hlo : lo < 2 ^ 19) (hhi : hi ≤ 2 ^ 19) :
    Quiet s.mem d lo hi := by
  refine ⟨.inr (h.hugeAt_eq _ (by omega)), fun i f _ hi' hf hpde => ?_⟩
  have halign := hf.1
  have hz := h.hugeAt_eq i (by omega)
  rw [hugeAt_of_huge (by omega) (by omega)] at hz
  omega

/-- `allocuvm` extends the image to the larger of the two sizes, or leaves it as it was and returns 0. -/
theorem Image.allocuvm (h : Image d sz s₀ g₀ s g) (newsz : Nat) :
    (∃ s' g', (allocuvm (P2V d) sz newsz).run s = .ok (max sz newsz) s' ∧ Image d (max sz newsz) s₀ g₀ s' g' ∧
      Extended d ((sz + 4095) / 4096) ((newsz + 4095) / 4096) s g s' g') ∨
    ∃ s' g', (allocuvm (P2V d) sz newsz).run s = .ok 0 s' ∧ Image d sz s₀ g₀ s' g' := by
  have hsz := h.sz_le
  rcases allocuvm_spec h.sys h.frame h.dir (by omega) (h.layout.dense (by omega))
    (fun hlt => h.quiet (by omega) (show (newsz + 4095) / 4096 ≤ 2 ^ 19 by omega)) with
    ⟨hle, -, -, s', g', hrun, hs', hext⟩ | ⟨hlt, hrun⟩ | ⟨-, s', g', hrun, hs', hres⟩
  · left
    rw [max_eq_right hle]
    refine ⟨s', g', hrun, h.step hext.toUserStep hs' (hext.layout h.layout hle) (fun k hk => ?_) hext.hfree, hext⟩
    by_cases hnew : (sz + 4095) / 4096 ≤ k
    · have := hext.mapped k hnew (by omega)
      omega
    · rw [hext.lookup_eq k (by omega) (by omega)]
      exact h.writable k (by omega)
  · left
    rw [max_eq_left hlt.le]
    exact ⟨s, g, hrun, h, .refl (by omega)⟩
  · refine .inr ⟨s', g', hrun, h.step hres.toUserStep hs' (hres.layout h.layout) (fun k hk => ?_) hres.hfree⟩
    rw [hres.lookup_eq k (by omega), if_neg (by omega)]
    exact h.writable k hk

theorem Sys.hasTable {o : DirOwner} (hs : Sys s g) (hd : IsFrame d) (hdir : g.own d = .dir o) (hva : va < 2 ^ 32)
    (hne : lookup s.mem d (va / 4096) ≠ 0) : HasTable s.mem d va := by
  have hslot : va / 4096 / 1024 = va / 0x400000 := by omega
  have hpdx : PDX va = va / 0x400000 := Nat.mod_eq_of_lt (by omega)
  rcases (hs.pde d o hd hdir (va / 0x400000) (by omega)).shape with habs | hps | ⟨t, ht, -, hpde⟩
  · exact absurd (lookup_of_absent (hslot ▸ habs)) hne
  · exact absurd (lookup_of_huge (hslot ▸ hps)) hne
  · have halign := ht.1
    rw [HasTable, hpdx, hpde]
    omega

/-- The frame of a page of the image, and how the software and the hardware find it. -/
theorem Image.page (h : Image d sz s₀ g₀ s g) (hva : va < sz) :
    ∃ t f fl, IsFrame t ∧ IsFrame f ∧ g.own t = .table d (va / 0x400000) ∧
      g.own f = .page d (va / 0x400000) (va / 4096 % 1024) ∧ fl < 4096 ∧ fl % 2 = 1 ∧
      (walkpgdir (P2V d) va false).run s = .ok (P2V t + 4 * (va / 4096 % 1024)) s ∧
      entry s.mem t (va / 4096 % 1024) = f + fl ∧ lookup s.mem d (va / 4096) = f + fl ∧
      translate s.mem d va = some ⟨f + va % 4096, false, fl, hasFlag fl PTE_W, hasFlag fl PTE_U⟩ := by
  have hsz := h.sz_le
  have hne : lookup s.mem d (va / 4096) ≠ 0 := (h.layout.base _ (by omega)).2 (by omega)
  obtain ⟨t, ht, htable, hwalk, hentry, -⟩ :=
    h.sys.walk_table h.frame h.dir (by omega) (h.sys.hasTable h.frame h.dir (by omega) hne)
  rcases h.sys.translate_user h.frame h.dir (show va < 0x80000000 by omega) with
    ⟨-, -, hz⟩ | ⟨f, fl, hf, hpage, hfl, hodd, hlook, -, htrans⟩ | ⟨f, -, -, -, hz, -⟩
  · exact absurd hz hne
  · exact ⟨t, f, fl, ht, hf, htable, hpage, hfl, hodd, hwalk, hentry.trans hlook, hlook, htrans⟩
  · exact absurd hz hne

/-- Every address below the kernel half that a user reaches lies in the image. -/
theorem Image.lt_of_access (h : Image d sz s₀ g₀ s g) (hva : va < 2 ^ 32) (hacc : userAccess s.mem d va = some pa) :
    va / 4096 * 4096 < sz := by
  by_contra hout
  have hlow : va < 0x80000000 := by
    by_contra hhigh
    rw [h.kern.userAccess_eq_none h.sys h.frame h.dir (by omega) hva] at hacc
    cases hacc
  obtain ⟨f, fl, -, -, -, hodd, -, hlook, -⟩ :=
    h.sys.userAccess_page h.frame h.dir hlow (h.hugeAt_eq _ (by omega)) hacc
  have := (h.layout.base (va / 4096) (by omega)).1 (by omega)
  omega

theorem Image.hasTable (h : Image d sz s₀ g₀ s g) (hva : va / 4096 * 4096 < sz) : HasTable s.mem d va := by
  have hsz := h.sz_le
  exact h.sys.hasTable h.frame h.dir (by omega) ((h.layout.base _ (by omega)).2 (by omega))

/-- Different addresses of a user have different physical addresses. -/
theorem Image.access_inj (h : Image d sz s₀ g₀ s g) (hva : va < 2 ^ 32) (hva' : va' < 2 ^ 32)
    (hacc : userAccess s.mem d va = some pa) (hacc' : userAccess s.mem d va' = some pa) : va = va' := by
  have hsz := h.sz_le
  have hlt := h.lt_of_access hva hacc
  have hlt' := h.lt_of_access hva' hacc'
  exact h.sys.userAccess_inj h.frame h.dir (by omega) (by omega) (h.hasTable hlt) (h.hasTable hlt') hacc hacc'

/-- Giving the mapping of a page other flags. -/
theorem Sys.set_flags {i j t f fl : Nat} {o : DirOwner} (hs : Sys s g) (hd : IsFrame d) (hdir : g.own d = .dir o)
    (ht : IsFrame t) (htable : g.own t = .table d i) (hi : i < 512) (hj : j < 1024) (hf : IsFrame f)
    (hpage : g.own f = .page d i j) (hfl : fl < 4096) (hodd : fl % 2 = 1) :
    Sys { s with mem := store32 s.mem (t + 4 * j) (f + fl) } g ∧
      UserStep d (fun _ => False) s g { s with mem := store32 s.mem (t + 4 * j) (f + fl) } g ∧
      (∀ k < 2 ^ 20, lookup (store32 s.mem (t + 4 * j) (f + fl)) d k =
        if k = 1024 * i + j then f + fl else lookup s.mem d k) ∧
      (∀ i < 1024, entry (store32 s.mem (t + 4 * j) (f + fl)) d i = entry s.mem d i) ∧
      ∀ x, IsFrame x → x ≠ t → SameOn s.mem (store32 s.mem (t + 4 * j) (f + fl)) x 4096 := by
  have hflt := hf.lt
  have hs' := hs.set_pte ht htable hi hj hf (.inr hpage) (.inr ⟨rfl, fl, hfl, hodd, rfl⟩)
  rw [← hpage, update_eq_self] at hs'
  have hview := hs.view_set_pte hd hdir ht htable hj (show f + fl < 2 ^ 32 by omega)
  have hsame (x : Nat) (hx : IsFrame x) (hxt : x ≠ t) : SameOn s.mem (store32 s.mem (t + 4 * j) (f + fl)) x 4096 :=
    store_entry_sameOn ht hx hxt.symm hj
  refine ⟨hs', ⟨⟨fun _ _ => .inr rfl, fun x hx hout => hsame x hx ?_, fun _ _ => .inr rfl, fun x hx _ => ?_, rfl⟩, rfl,
    fun i _ hi => hview.2 i hi⟩, hview.1, hview.2, hsame⟩
  · rintro rfl
    exact hout (.inr (.inr (.inl ⟨i, hi, htable⟩)))
  · exact store_entry_sameOn_huge ht hj (by have := hx.2.1; omega)

/-- `clearpteu` takes the permission for user accesses from one page. -/
theorem Image.clearpteu (h : Image d sz s₀ g₀ s g) (hva : va < sz) :
    ∃ s', (clearpteu (P2V d) va).run s = .ok () s' ∧ Image d sz s₀ g₀ s' g ∧
      (∀ k < 2 ^ 20, k ≠ va / 4096 → lookup s'.mem d k = lookup s.mem d k) ∧
      lookup s'.mem d (va / 4096) / 4 % 2 = 0 ∧
      ∀ x i j, IsFrame x → g.own x = .page d i j → SameOn s.mem s'.mem x 4096 := by
  have hsz := h.sz_le
  obtain ⟨t, f, fl, ht, hf, htable, hpage, hfl, hodd, hwalk, hentry, hlook, -⟩ := h.page hva
  have htlt := ht.lt
  have halign := hf.1
  have hne : ¬ P2V t + 4 * (va / 4096 % 1024) = 0 := by
    have := P2V_ne_zero (show t < 0x80000000 by omega)
    omega
  obtain ⟨fl', hfl', hodd', hclear, hwrite, hval⟩ : ∃ fl', fl' < 4096 ∧ fl' % 2 = 1 ∧ fl' / 4 % 2 = 0 ∧
      fl' / 2 % 2 = fl / 2 % 2 ∧ (if hasFlag (f + fl) PTE_U then f + fl - PTE_U else f + fl) = f + fl' := by
    by_cases hu : hasFlag (f + fl) PTE_U
    · have hu' := hasFlag_U.1 hu
      refine ⟨fl - 4, by omega, by omega, by omega, by omega, ?_⟩
      rw [if_pos hu, PTE_U]
      omega
    · have hu' := hasFlag_U.not.1 hu
      exact ⟨fl, hfl, hodd, by omega, rfl, by rw [if_neg hu]⟩
  obtain ⟨hs', hstep, hlook', hentry', hsame⟩ := h.sys.set_flags h.frame h.dir ht htable (by omega)
    (show va / 4096 % 1024 < 1024 by omega) hf hpage hfl' hodd'
  rw [show 1024 * (va / 0x400000) + va / 4096 % 1024 = va / 4096 by omega] at hlook'
  refine ⟨_, ?_, h.step hstep hs' ⟨fun k hk => ?_, fun i hi => ?_, fun i hlo hi hz => ?_⟩ (fun k hk => ?_) rfl,
    fun k hk hne' => ?_, ?_, fun x i j hx hxpage => hsame x hx ?_⟩
  · unfold xv6.clearpteu
    rw [bind_ok hwalk, if_neg hne, readWord_entry_bind (by omega) (by omega), hentry, hval, writeWord_run,
      V2P_P2V_add (by omega)]
  · rw [hlook' k (by omega), ← h.layout.base k hk]
    split_ifs with heq
    · rw [heq, hlook]
      exact iff_of_true (by omega) (by omega)
    · exact Iff.rfl
  · rw [hugeAt_congr (hentry' i (by omega)), h.layout.huge i hi]
  · rw [hugeAt_congr (hentry' i (by omega))] at hz
    rw [hentry' i (by omega), h.layout.high i hlo hi hz]
  · have hold := h.writable k hk
    rw [hlook' k (by omega)]
    split_ifs with heq
    · rw [heq, hlook] at hold
      omega
    · exact hold
  · rw [hlook' k hk, if_neg hne']
  · rw [hlook' _ (by omega), if_pos rfl]
    omega
  · rintro rfl
    rw [htable] at hxpage
    cases hxpage

end image

end xv6
