import Xv6.Vm.Laid

open bytes outcome Function

namespace xv6

/-- The base frames that `copyuvm` takes for a process of size `sz`. -/
def copyNeed (sz : Nat) : Nat :=
  65 + (sz + 4095) / 4096 + ((sz + 4095) / 4096 + 1023) / 1024

/-- The huge frames of a huge heap of size `hugesz`. -/
def hugeNeed (hugesz : Nat) : Nat := (hugesz + 0x3FFFFF) / 0x400000

section copy

variable {s s' s'' : Machine} {g g' g'' : Ghost} {p d k sz hugesz : Nat} {o : DirOwner}

theorem NewDir.copyReady (h : NewDir d s g s' g') : CopyReady s'.mem d 0 where
  empty k _ hk := lookup_of_absent (by rw [h.low _ (by omega)])
  nohuge i hi := hugeAt_of_not (by rw [h.low i hi]; omega)
  slots i hi := by simp [h.low i hi]

theorem NewDir.whole (h : NewDir d s g s' g') : Within (WholeArea d) (fun _ => False) s g s' g' :=
  h.within.mono (fun _ _ h => buildArea_whole h) fun _ h => h

/-- The bytes behind a mapped page of a directory outside the area of a step. -/
theorem Within.page_bytes {A : Nat → Role → Prop} {H : HugeRole → Prop} (h : Within A H s g s' g')
    (hs : Sys s g) (hp : IsFrame p) (hdir : g.own p = .dir o) (hout : Outside A g p) (hk : k < 2 ^ 19)
    (hlook : lookup s.mem p k ≠ 0) {b : Nat} (hb : b < 4096) :
    s'.mem (PTE_ADDR (lookup s.mem p k) + b) = s.mem (PTE_ADDR (lookup s.mem p k) + b) := by
  rcases hs.lookup_user hp hdir hk with hz | ⟨f, fl, hf, hrole, hfl, _, heq⟩
  · exact absurd hz hlook
  · rw [heq, PTE_ADDR_add hf.1 hfl]
    exact h.same f hf (hout.page f _ _ hrole) _ (by omega) (by omega)

/-- A copied page survives a step that keeps its entry and all pages of its directory. -/
theorem PageCopy.target_congr {m : Mem} (h : PageCopy m p s.mem d k) (hs : Sys s g) (hd : IsFrame d)
    (hdir : g.own d = .dir o) (hk : k < 2 ^ 19) (hlook : lookup s'.mem d k = lookup s.mem d k)
    (hsame : ∀ x, IsFrame x → x ≠ d → SameOn s.mem s'.mem x 4096) : PageCopy m p s'.mem d k := by
  obtain ⟨hne, hflags, hbytes⟩ := h
  rw [PageCopy, hlook]
  refine ⟨hne, hflags, fun b hb => ?_⟩
  rw [← hbytes b hb]
  rcases hs.lookup_user hd hdir hk with hz | ⟨f, fl, hf, hrole, hfl, _, heq⟩
  · exact absurd hz hne
  · have hfd : f ≠ d := by
      rintro rfl
      simp [hdir] at hrole
    rw [heq, PTE_ADDR_add hf.1 hfl]
    exact hsame f hf hfd _ (by omega) (by omega)

/-- The copied huge pages do not depend on when the source is read. -/
theorem HugeCopy.source_congr {m : Mem} {i : Nat} (h : HugeCopy s'.mem p m d i)
    (hat : hugeAt s'.mem p i = hugeAt s.mem p i) (hs : Sys s g) (hp : IsFrame p) (hdir : g.own p = .dir o)
    (hi : i < 512) (hne : hugeAt s.mem p i ≠ 0)
    (hsame : ∀ x, IsHuge x → SameOn s.mem s'.mem x 0x400000) : HugeCopy s.mem p m d i := by
  obtain ⟨hnz, hflags, hbytes⟩ := h
  rw [hat] at hflags hbytes
  refine ⟨hnz, hflags, fun b hb => (hbytes b hb).trans ?_⟩
  rcases hs.hugeAt_user hp hdir hi with hz | ⟨x, hx, _, _, heq⟩
  · exact absurd hz hne
  · have halign := hx.1
    rw [heq, PTE_ADDR_add (by omega) (by omega)]
    exact hsame x hx _ (by omega) (by omega)

/-- The three stages of a successful `copyuvm`. -/
theorem Forked.of_stages {s₁ s₂ s₃ : Machine} {g₁ g₂ g₃ : Ghost} (hs : Sys s g) (hp : IsFrame p)
    (hpdir : g.own p = .dir o) (hl : Layout s.mem p sz hugesz) (hnew : NewDir d s g s₁ g₁) (hs₁ : Sys s₁ g₁)
    (hcop : Copied p d 0 ((sz + 4095) / 4096) s₁ g₁ s₂ g₂) (hs₂ : Sys s₂ g₂)
    (hhuge : HugeCopied p d 120 (120 + hugeNeed hugesz) s₂ g₂ s₃ g₃) :
    Forked p d sz hugesz s g s₃ g₃ := by
  have hd := hnew.frame
  have hsz := hl.sz_le hs hp hpdir
  have hhsz := hl.hugesz_le hs hp hpdir
  have hpd : p ≠ d := by
    rintro rfl
    simp [hnew.was] at hpdir
  have hpdir₁ : g₁.own p = .dir o := (hnew.own p (by simp [hpdir])).trans hpdir
  have hdir₂ : g₂.own d = .dir .temp := hcop.dir.trans hnew.dir
  have hout := Outside.whole hpd hpdir (.inl hnew.was)
  have hview₁ := hnew.whole.view_eq hs hp hpdir hout
  have hview₂ := hcop.toWithin.view_eq hs₁ hp hpdir₁ (Outside.user hpd hpdir₁ hnew.dir)
  have hzero (k : Nat) (hk : k < 2 ^ 19) : lookup s₁.mem d k = 0 := hnew.copyReady.empty k (by omega) hk
  have hpages (k : Nat) (hk : 4096 * k < sz) : PageCopy s.mem p s₃.mem d k := by
    have h₁ := (hcop.copy k (by omega) (by omega)).source_congr (hview₁.1 k (by omega)) fun b hb =>
      hnew.whole.page_bytes hs hp hpdir hout (by omega) ((hl.base k (by omega)).2 hk) hb
    exact h₁.target_congr hs₂ hd hdir₂ (by omega) (hhuge.lookup_eq k (by omega)) hhuge.frameSame
  have hhuges (i : Nat) (hlo : 120 ≤ i) (hi : 0x400000 * (i - 120) < hugesz) : HugeCopy s.mem p s₃.mem d i := by
    have hi' : i < 512 := by omega
    have hat : hugeAt s₂.mem p i = hugeAt s.mem p i :=
      hugeAt_congr ((hview₂.2 i (by omega)).trans (hview₁.2 i (by omega)))
    refine (hhuge.copy i hlo (by simp only [hugeNeed]; omega)).source_congr hat hs hp hpdir hi'
      ((hl.huge i hi').2 ⟨hlo, hi⟩) fun x hx => ?_
    exact (hnew.within.hsame x hx id).trans (hcop.hsame x hx id)
  exact
    { frame := hd
      was := hnew.was
      dir := hhuge.dir.trans hdir₂
      within := ((hnew.whole.mono (fun _ _ h => h) HugeArea.of_false).trans
        (hcop.toUserStep.whole.mono (fun _ _ h => h) HugeArea.of_false)).trans hhuge.toUserStep.whole
      own := by
        intro x hx
        have h₁ := hnew.own x hx
        rw [hhuge.own, hcop.own x (by rwa [h₁]), h₁]
      hown := by
        intro x hx
        have h₂ : g₂.hown x = g.hown x := by rw [hcop.hown, hnew.hown]
        rw [hhuge.hown x (by rwa [h₂]), h₂]
      kern := hhuge.toUserStep.kernOK hs₂ hd hdir₂ (hcop.toUserStep.kernOK hs₁ hd hnew.dir hnew.kern)
      layout := by
        have hslot (i : Nat) (hi : i < 512) (hlo : 56 ≤ i) : entry s₂.mem d i = 0 := by
          by_contra hne
          have := (hcop.slots i hi).1 hne
          omega
        refine ⟨fun k hk => ⟨fun hne => ?_, fun hlt => (hpages k hlt).1⟩,
          fun i hi => ⟨fun hne => ?_, fun h => (hhuges i h.1 h.2).1⟩, fun i hlo hi hz => ?_⟩
        · by_contra hge
          rw [hhuge.lookup_eq k (by omega), hcop.lookup_eq k (by omega) (by omega)] at hne
          exact hne (hzero k hk)
        · by_contra hout
          have hin : ¬ (120 ≤ i ∧ i < 120 + hugeNeed hugesz) := by
            simp only [hugeNeed]
            omega
          rw [hugeAt_congr (hhuge.entry_eq i (by omega) hin), hcop.huge_eq i (by omega)] at hne
          exact hne (hnew.copyReady.nohuge i hi)
        · by_cases hin : 120 ≤ i ∧ i < 120 + hugeNeed hugesz
          · exact absurd hz (hhuge.copy i hin.1 hin.2).1
          · rw [hhuge.entry_eq i (by omega) hin, hslot i hi hlo]
      pages := hpages
      huges := hhuges }

/-- An aborted copy gives everything back. -/
theorem copyuvm_giveBack {s₁ s₂ : Machine} {g₁ g₂ : Ghost} (hs : Sys s g) (hnew : NewDir d s g s₁ g₁)
    (hs₂ : Sys s₂ g₂) (hwithin : Within (WholeArea d) (fun _ => False) s₁ g₁ s₂ g₂)
    (hdir : g₂.own d = .dir .temp) (hnone : ∀ i < 512, hugeAt s₂.mem d i = 0) (hhfree : g₂.hfree = g₁.hfree) :
    ∃ s' g', (freevm (P2V d)).run s₂ = .ok () s' ∧ Sys s' g' ∧ Idle s g s' g' := by
  obtain ⟨s', g', hrun, hs', hfreed⟩ := freevm_complete hs₂ hnew.frame hdir hnone
  exact ⟨s', g', hrun, hs', hfreed.idle hs hnew.was (hnew.whole.trans hwithin) (hhfree.trans hnew.hfree)⟩

/-- `copyuvm` copies the address space when there is memory for all of it. When
base frames or all huge frames are missing it gives back what it took. When some
of the huge frames are there but not enough, it still returns no directory. -/
theorem copyuvm_spec (hs : Sys s g) (hp : IsFrame p) (hpdir : g.own p = .dir o) (hl : Layout s.mem p sz hugesz) :
    (copyNeed sz ≤ g.free.length ∧ hugeNeed hugesz ≤ g.hfree.length ∧
      ∃ d s' g', (copyuvm (P2V p) sz hugesz).run s = .ok (P2V d) s' ∧ Sys s' g' ∧ Forked p d sz hugesz s g s' g') ∨
    ((g.free.length < copyNeed sz ∨ (g.hfree = [] ∧ 0 < hugeNeed hugesz)) ∧
      ∃ s' g', (copyuvm (P2V p) sz hugesz).run s = .ok 0 s' ∧ Sys s' g' ∧ Idle s g s' g') ∨
    (copyNeed sz ≤ g.free.length ∧ 0 < g.hfree.length ∧ g.hfree.length < hugeNeed hugesz ∧
      ∀ r s', (copyuvm (P2V p) sz hugesz).run s = .ok r s' → r = 0) := by
  have hsz := hl.sz_le hs hp hpdir
  have hhsz := hl.hugesz_le hs hp hpdir
  have hneed : hugeNeed hugesz ≤ 128 := by
    simp only [hugeNeed]
    omega
  rcases setupkvm_spec hs with ⟨d, s₁, g₁, hsetup, hs₁, hnew⟩ | ⟨s₁, g₁, hsetup, hs₁, hidle, hshort⟩
  swap
  · refine .inr (.inl ⟨.inl (by simp only [copyNeed]; omega), s₁, g₁, ?_, hs₁, hidle⟩)
    unfold copyuvm
    rw [bind_ok hsetup, if_pos rfl, EStateM.run_pure]
  have hd := hnew.frame
  have hdlt := hd.lt
  have hne : ¬ P2V d = 0 := P2V_ne_zero (by omega)
  have hpd : p ≠ d := by
    rintro rfl
    simp [hnew.was] at hpdir
  have hpdir₁ : g₁.own p = .dir o := (hnew.own p (by simp [hpdir])).trans hpdir
  have hview₁ := hnew.whole.view_eq hs hp hpdir (Outside.whole hpd hpdir (.inl hnew.was))
  have hfree₁ := hnew.free
  have hbase := copy_loop hd hp hpd rfl (show (sz + 4095) / 4096 ≤ 2 ^ 19 by omega) (2 ^ 20 + 1) 0 s₁ g₁ hs₁
    hnew.dir hpdir₁ (Nat.zero_le _) (by omega)
    (fun k hk => by rw [hview₁.1 k (by omega)]; exact (hl.base k (by omega)).2 (by omega)) hnew.copyReady
  rw [Nat.mul_zero] at hbase
  rcases hbase with ⟨s₂, g₂, hloop, hs₂, hcop⟩ | ⟨s₂, g₂, hloop, hs₂, habort, hshort⟩
  swap
  · obtain ⟨s₃, g₃, hfreevm, hs₃, hidle⟩ := copyuvm_giveBack hs hnew hs₂ habort.toUserStep.whole
      (habort.dir.trans hnew.dir) habort.nohuge habort.hfree
    refine .inr (.inl ⟨.inl (by simp only [copyNeed]; omega), s₃, g₃, ?_, hs₃, hidle⟩)
    unfold copyuvm
    rw [bind_ok hsetup, if_neg hne, bind_ok hloop, if_neg (by simp), bind_ok hfreevm, EStateM.run_pure]
  have hfree₂ := hcop.free
  have hhfree₂ : g₂.hfree = g.hfree := hcop.hfree.trans hnew.hfree
  have henough : copyNeed sz ≤ g.free.length := by
    simp only [copyNeed]
    omega
  have hdir₂ : g₂.own d = .dir .temp := hcop.dir.trans hnew.dir
  have hpdir₂ : g₂.own p = .dir o := (hcop.own p (by simp [hpdir₁])).trans hpdir₁
  have hview₂ := hcop.toWithin.view_eq hs₁ hp hpdir₁ (Outside.user hpd hpdir₁ hnew.dir)
  have hhuge₂ (i : Nat) (hlo : 120 ≤ i) (hi : i < 120 + hugeNeed hugesz) : hugeAt s₂.mem p i ≠ 0 := by
    rw [hugeAt_congr ((hview₂.2 i (by omega)).trans (hview₁.2 i (by omega)))]
    exact (hl.huge i (by omega)).2 ⟨hlo, by simp only [hugeNeed] at hi; omega⟩
  have hempty₂ (i : Nat) (hlo : 120 ≤ i) (hi : i < 512) : entry s₂.mem d i = 0 := by
    by_contra hnz
    have := (hcop.slots i hi).1 hnz
    omega
  have hstop : u32 (HUGE_VA_OFFSET + hugesz) = 0x1E000000 + hugesz := by
    simp only [u32, HUGE_VA_OFFSET]
    omega
  have hrun : (copyuvm (P2V p) sz hugesz).run s =
      ((do
        if (← copyuvm.hugeLoop (P2V p) (P2V d) (0x1E000000 + hugesz) (2 ^ 10 + 1) (0x400000 * 120)) then
          return P2V d
        else
          freevm (P2V d)
          return 0 : KernelM Nat)).run s₂ := by
    unfold copyuvm
    rw [bind_ok hsetup, if_neg hne, bind_ok hloop, if_pos rfl, hstop]
  have hbelow (i : Nat) (hi : i < 120 + hugeNeed hugesz) : 0x400000 * i < 0x1E000000 + hugesz := by
    simp only [hugeNeed] at hi
    omega
  have habove : ¬ 0x400000 * (120 + hugeNeed hugesz) < 0x1E000000 + hugesz := by
    simp only [hugeNeed]
    omega
  rw [hrun]
  by_cases hhenough : hugeNeed hugesz ≤ g.hfree.length
  · obtain ⟨s₃, g₃, hloop₃, hs₃, _, hcop₃⟩ := copy_huge_rounds hd hp hpd (2 ^ 10 - hugeNeed hugesz + 1)
      (hugeNeed hugesz) 120 s₂ g₂ hs₂ hdir₂ hpdir₂ (by omega) (by rw [hhfree₂]; exact hhenough) hbelow hhuge₂
      fun i hlo hi => hempty₂ i hlo (by omega)
    rw [show 2 ^ 10 - hugeNeed hugesz + 1 + hugeNeed hugesz = 2 ^ 10 + 1 by omega,
      copy_huge_done _ habove] at hloop₃
    refine .inl ⟨henough, hhenough, d, s₃, g₃, ?_, hs₃, .of_stages hs hp hpdir hl hnew hs₁ hcop hs₂ hcop₃⟩
    rw [bind_ok hloop₃, if_pos rfl, EStateM.run_pure]
  cases hlist : g.hfree with
  | nil =>
    have hpos : 0 < hugeNeed hugesz := by omega
    obtain ⟨s₃, g₃, hfreevm, hs₃, hidle⟩ := copyuvm_giveBack hs hnew hs₂ hcop.toUserStep.whole hdir₂
      (fun i hi => (hcop.huge_eq i (by omega)).trans (hnew.copyReady.nohuge i hi)) hcop.hfree
    refine .inr (.inl ⟨.inr ⟨rfl, hpos⟩, s₃, g₃, ?_, hs₃, hidle⟩)
    rw [bind_ok (copy_huge_empty hs₂ hp (by omega) _ (hbelow 120 (by omega)) (hhfree₂.trans hlist)),
      if_neg (by simp), bind_ok hfreevm, EStateM.run_pure]
  | cons f L =>
    rw [← hlist]
    obtain ⟨s₃, g₃, hloop₃, hs₃, hlen, _⟩ := copy_huge_rounds hd hp hpd (2 ^ 10 - g.hfree.length + 1)
      g.hfree.length 120 s₂ g₂ hs₂ hdir₂ hpdir₂ (by omega) (by rw [hhfree₂])
      (fun i hi => hbelow i (by omega)) (fun i hlo hi => hhuge₂ i hlo (by omega))
      fun i hlo hi => hempty₂ i hlo (by omega)
    have hnil₃ : g₃.hfree = [] := List.eq_nil_of_length_eq_zero (by rw [hhfree₂] at hlen; omega)
    rw [show 2 ^ 10 - g.hfree.length + 1 + g.hfree.length = 2 ^ 10 + 1 by omega,
      copy_huge_empty hs₃ hp (by omega) _ (hbelow _ (by omega)) hnil₃] at hloop₃
    refine .inr (.inr ⟨henough, by simp [hlist], by omega, fun r s' h => ?_⟩)
    rw [bind_ok hloop₃, if_neg (by simp)] at h
    obtain ⟨_, _, _, hret⟩ := bind_eq_ok_iff.1 h
    rw [EStateM.run_pure] at hret
    cases hret
    rfl

end copy

end xv6
