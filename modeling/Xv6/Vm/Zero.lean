import Xv6.Vm.Grow

open bytes outcome Function

namespace xv6

/-- The pages `lo` up to `hi` of directory `d` are filled with zeros. -/
def Zeroed (m : Mem) (d lo hi : Nat) : Prop :=
  ∀ k, lo ≤ k → k < hi → ∀ f, IsFrame f → lookup m d k = f + 7 → ∀ b, f ≤ b → b < f + 4096 → m b = 0

section zero

variable {s s' s₁ : Machine} {g g₁ : Ghost} {d k hi f newsz : Nat} {o : DirOwner}

/-- A page that was filled with zeros before it was mapped keeps them while more pages are mapped. -/
theorem Extended.zeroed {g' : Ghost} (h : Extended d (k + 1) hi s₁ g₁ s' g') (hf : IsFrame f)
    (hpage : g₁.own f = .page d (k / 1024) (k % 1024)) (hlook : lookup s₁.mem d k = f + 7)
    (hzero : ∀ b, f ≤ b → b < f + 4096 → s₁.mem b = 0) (hk : k < 2 ^ 20) (hrest : Zeroed s'.mem d (k + 1) hi) :
    Zeroed s'.mem d k hi := by
  intro k' hlo hhi f' hf' hlook' b hb hb'
  by_cases heq : k' = k
  · subst heq
    rw [h.lookup_eq k' hk (by omega), hlook] at hlook'
    obtain rfl : f = f' := by omega
    rw [(h.pages f _ _ hf hpage).2 b hb hb', hzero b hb hb']
  · exact hrest k' (by omega) hhi f' hf' hlook' b hb hb'

/-- One round of the loop of `allocuvm` that finds a frame. -/
theorem allocuvm_round {L : List Nat} (hs : Sys s g) (hfree : g.free = f :: L) (oldsz n : Nat) (hlt : 4096 * k < newsz)
    (hk : k < 2 ^ 19) :
    (allocuvm.loop (P2V d) oldsz newsz (n + 1) (4096 * k)).run s =
      (do
        if (← mappages (P2V d) (4096 * k) PGSIZE f (PTE_W ||| PTE_U)) < 0 then
          let _ ← deallocuvm (P2V d) newsz oldsz
          kfree (P2V f)
          return 0
        else
          allocuvm.loop (P2V d) oldsz newsz n (4096 * (k + 1)) : KernelM Nat).run
        (s.popped f (fill s.mem f 0 4096)) := by
  obtain ⟨hf, -⟩ := (hs.mem_free f).1 (by simp [hfree])
  have hflt := hf.lt
  have hnext : u32 (4096 * k + PGSIZE) = 4096 * (k + 1) := by
    simp only [u32, PGSIZE]
    omega
  rw [allocuvm.loop, if_pos hlt, bind_ok (kalloc_cons hs hfree), if_neg hf.ne_zero, memset_bind, hf.phys, hnext]
  rfl

/-- The pages that the loop of `allocuvm` has mapped when it ends with the new size. -/
theorem allocuvm_loop_zeroed (hd : IsFrame d) (hnew : newsz ≤ 0x80000000) (hpos : newsz ≠ 0) (oldsz n : Nat) :
    ∀ (k : Nat) (s : Machine) (g : Ghost), Sys s g → g.own d = .dir o → k ≤ (newsz + 4095) / 4096 →
      (newsz + 4095) / 4096 - k < n → Dense s.mem d k →
      ∀ s', (allocuvm.loop (P2V d) oldsz newsz n (4096 * k)).run s = .ok newsz s' →
        Zeroed s'.mem d k ((newsz + 4095) / 4096) := by
  induction n with
  | zero =>
    intro k s g _ _ _ hn
    omega
  | succ n ih =>
    intro k s g hs hdir hk hn hdense s' hrun
    by_cases hdone : k = (newsz + 4095) / 4096
    · intro k' hlo hhi
      omega
    have hklt := hdense.lt hs hd hdir (by omega)
    cases hfree : g.free with
    | nil =>
      rw [allocuvm.loop, if_pos (by omega), bind_ok (kalloc_nil hs hfree), if_pos rfl, bind_eq_ok_iff] at hrun
      obtain ⟨_, t, -, hret⟩ := hrun
      rw [EStateM.run_pure, EStateM.Result.ok.injEq] at hret
      exact absurd hret.1.symm hpos
    | cons f L =>
      obtain ⟨hf, -⟩ := (hs.mem_free f).1 (by simp [hfree])
      have hal := hf.1
      rw [allocuvm_round hs hfree oldsz n (by omega) (by omega)] at hrun
      rcases mappages_fresh hs hd hdir (by omega) (hdense.base _ (by omega)) (hdense.above k le_rfl (by omega)) hfree
          (fun x hx hxf => fill_sameOn_frame hf hx hxf) (fun x hx => fill_sameOn_huge hf hx) (show 7 < 4096 by omega) rfl
          (user_entry_or hf.1) with ⟨s₁, g₁, hmap, hs₁, hsame, hgrown⟩ | ⟨hmap, -, -⟩
      · have hrun₁ : (allocuvm.loop (P2V d) oldsz newsz n (4096 * (k + 1))).run s₁ = .ok newsz s' := by
          rw [← hrun, bind_ok hmap, if_neg (by omega)]
        have hdir₁ := hgrown.dir.trans hdir
        have hdense₁ := hgrown.dense hdense (by omega) (by omega)
        have hzero (b : Nat) (hlo : f ≤ b) (hhi : b < f + 4096) : s₁.mem b = 0 := by
          rw [hsame b hlo hhi, fill, if_pos ⟨hlo, hhi⟩]
        have hlook : lookup s₁.mem d k = f + 7 := by rw [hgrown.lookup_eq k (by omega), if_pos rfl]
        have hrest := ih (k + 1) s₁ g₁ hs₁ hdir₁ (by omega) (by omega) hdense₁ s' hrun₁
        rcases allocuvm_rounds hd hnew oldsz n (k + 1) s₁ g₁ hs₁ hdir₁ (by omega) (by omega) hdense₁ with
          ⟨t, g', hrun', -, hext, -⟩ | ⟨_, t, _, _, _, _, _, _, _, hfail⟩
        · rw [hrun', EStateM.Result.ok.injEq] at hrun₁
          obtain ⟨-, rfl⟩ := hrun₁
          exact hext.zeroed hf hgrown.page hlook hzero (by omega) hrest
        · exfalso
          rcases hfail with hfail | ⟨f', -, hfail⟩
          · rw [hfail, bind_eq_ok_iff] at hrun₁
            obtain ⟨_, u, -, hret⟩ := hrun₁
            rw [EStateM.run_pure, EStateM.Result.ok.injEq] at hret
            exact absurd hret.1.symm hpos
          · rw [hfail, bind_eq_ok_iff] at hrun₁
            obtain ⟨_, u, -, hret⟩ := hrun₁
            rw [bind_eq_ok_iff] at hret
            obtain ⟨_, v, -, hret⟩ := hret
            rw [EStateM.run_pure, EStateM.Result.ok.injEq] at hret
            exact absurd hret.1.symm hpos
      · exfalso
        have hrun₁ := (bind_ok hmap).symm.trans hrun
        rw [if_pos (by omega), bind_eq_ok_iff] at hrun₁
        obtain ⟨_, u, -, hret⟩ := hrun₁
        rw [bind_eq_ok_iff] at hret
        obtain ⟨_, v, -, hret⟩ := hret
        rw [EStateM.run_pure, EStateM.Result.ok.injEq] at hret
        exact absurd hret.1.symm hpos

/-- Memory that `allocuvm` adds to an address space is filled with zeros. -/
theorem allocuvm_zeroed {oldsz : Nat} (hs : Sys s g) (hd : IsFrame d) (hdir : g.own d = .dir o) (hold : oldsz ≤ 0x80000000)
    (hdense : Dense s.mem d ((oldsz + 4095) / 4096)) (hpos : newsz ≠ 0)
    (hrun : (allocuvm (P2V d) oldsz newsz).run s = .ok newsz s') :
    Zeroed s'.mem d ((oldsz + 4095) / 4096) ((newsz + 4095) / 4096) := by
  have hround : PGROUNDUP oldsz = 4096 * ((oldsz + 4095) / 4096) := by
    simp only [PGROUNDUP, u32, PGSIZE]
    omega
  unfold allocuvm at hrun
  by_cases hkern : newsz ≥ KERNBASE
  · rw [if_pos hkern, EStateM.run_pure, EStateM.Result.ok.injEq] at hrun
    omega
  rw [if_neg hkern] at hrun
  simp only [KERNBASE] at hkern
  by_cases hshrink : newsz < oldsz
  · intro k hlo hhi
    omega
  rw [if_neg hshrink, hround] at hrun
  exact allocuvm_loop_zeroed hd (by omega) hpos oldsz _ _ s g hs hdir (by omega) (by omega) hdense s' hrun

end zero

end xv6
