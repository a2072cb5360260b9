import Xv6.Vm.Copy

open bytes outcome Function

namespace xv6

/-- The huge pages of the slots `lo` up to `hi` of directory `p` have been copied to `d`. -/
structure HugeCopied (p d lo hi : Nat) (s : Machine) (g : Ghost) (s' : Machine) (g' : Ghost) : Prop
    extends UserStep d (HugeArea d) s g s' g' where
  copy : ∀ i, lo ≤ i → i < hi → HugeCopy s.mem p s'.mem d i
  entry_eq : ∀ i < 1024, ¬ (lo ≤ i ∧ i < hi) → entry s'.mem d i = entry s.mem d i
  lookup_eq : ∀ k < 2 ^ 20, lookup s'.mem d k = lookup s.mem d k
  frameSame : ∀ x, IsFrame x → x ≠ d → SameOn s.mem s'.mem x 4096
  hugeSame : ∀ x, IsHuge x → g.hown x ≠ .free → SameOn s.mem s'.mem x 0x400000
  hown : ∀ x, g.hown x ≠ .free → g'.hown x = g.hown x
  own : g'.own = g.own
  free : g'.free = g.free

section huge

variable {s s' s'' : Machine} {g g' g'' : Ghost} {p d i lo hi f : Nat} {o o' : DirOwner} {L : List Nat}

theorem HugeCopied.refl (h : hi ≤ lo) : HugeCopied p d lo hi s g s g where
  toUserStep := UserStep.refl _ _ _ _
  copy i hlo hhi := by omega
  entry_eq _ _ _ := rfl
  lookup_eq _ _ := rfl
  frameSame _ _ _ := SameOn.refl _ _ _
  hugeSame _ _ _ := SameOn.refl _ _ _
  hown _ _ := rfl
  own := rfl
  free := rfl

theorem or_huge_flags (hf : f % 0x400000 = 0) : f ||| 0x87 ||| PTE_P ||| PTE_PS = f + 0x87 := by
  have h := Nat.two_pow_add_eq_or_of_lt (i := 12) (b := 0x87) (by omega) (f / 4096)
  rw [Nat.or_assoc, Nat.or_assoc, show 0x87 ||| (PTE_P ||| PTE_PS) = 0x87 from rfl]
  rw [show 2 ^ 12 * (f / 4096) = f by omega] at h
  exact h.symm

theorem hugeBlit_sameOn {m : Mem} {x : Nat} {data : List UInt8} (hf : IsHuge f) (hx : IsFrame x) :
    SameOn m (blit m f data) x 4096 := blit_sameOn m (by
  have h := hx.apart_huge hf
  omega)

theorem hugeBlit_sameOn_huge {m : Mem} {x : Nat} {data : List UInt8} (hf : IsHuge f) (hx : IsHuge x) (hne : x ≠ f)
    (hlen : data.length ≤ 0x400000) : SameOn m (blit m f data) x 0x400000 := blit_sameOn m (by
  have h := hf.apart hx hne.symm
  omega)

/-- A copied huge page followed by the copies of the slots after it. -/
theorem HugeGrown.copied (h : HugeGrown d i f s g s' g') (hs : Sys s g) (hp : IsFrame p) (hpd : p ≠ d)
    (hpdir : g.own p = .dir o) (hi' : i < hi) (hhi : hi ≤ 512) (hcopy : HugeCopy s.mem p s'.mem d i)
    (hhuge : ∀ j, i ≤ j → j < hi → hugeAt s.mem p j ≠ 0)
    (h' : HugeCopied p d (i + 1) hi s' g' s'' g'') : HugeCopied p d i hi s g s'' g'' := by
  obtain ⟨hf, hrole⟩ := (hs.mem_hfree f).1 (by simp [h.hfree])
  have hne {x : Nat} (hx : g.hown x ≠ .free) : x ≠ f := by
    rintro rfl
    exact hx hrole
  have hpde : entry s'.mem d i = f + 0x87 := (h.entry_eq i (by omega)).trans (if_pos rfl)
  have halign := hf.1
  have hat : hugeAt s'.mem d i = f + 0x87 := by
    rw [hugeAt_of_huge (by omega) (by omega), hpde]
  exact
    { toUserStep := h.toUserStep.trans h'.toUserStep
      copy := by
        intro j hlo hlt
        by_cases hij : j = i
        · subst hij
          obtain ⟨_, hflags, hbytes⟩ := hcopy
          have hat' : hugeAt s''.mem d j = f + 0x87 :=
            (hugeAt_congr (h'.entry_eq j (by omega) (by omega))).trans hat
          rw [hat] at hflags hbytes
          rw [HugeCopy, hat']
          refine ⟨by omega, hflags, fun b hb => ?_⟩
          rw [← hbytes b hb, PTE_ADDR_add (by omega) (by omega)]
          exact h'.hugeSame f hf (by simp [h.page]) _ (by omega) (by omega)
        · obtain ⟨hnz, hflags, hbytes⟩ := h'.copy j (by omega) hlt
          have hentry : entry s'.mem p j = entry s.mem p j :=
            entry_eq_of_sameOn (h.frameSame p hp hpd) (by omega)
          have hsrc : hugeAt s'.mem p j = hugeAt s.mem p j := hugeAt_congr hentry
          rw [hsrc] at hflags hbytes
          refine ⟨hnz, hflags, fun b hb => (hbytes b hb).trans ?_⟩
          rcases hs.hugeAt_user hp hpdir (show j < 512 by omega) with hz | ⟨x, hx, hpage, _, heq⟩
          · exact absurd hz (hhuge j (by omega) hlt)
          · have hxalign := hx.1
            rw [heq, PTE_ADDR_add (by omega) (by omega)]
            exact h.hugeSame x hx (hne (by simp [hpage])) _ (by omega) (by omega)
      entry_eq := by
        intro j hj hout
        rw [h'.entry_eq j hj (by omega), h.entry_eq j hj, if_neg (by omega)]
      lookup_eq := fun k hk => (h'.lookup_eq k hk).trans (h.lookup_eq k hk)
      frameSame := fun x hx hxd => (h.frameSame x hx hxd).trans (h'.frameSame x hx hxd)
      hugeSame := by
        intro x hx hfr
        have hxf := hne hfr
        exact (h.hugeSame x hx hxf).trans (h'.hugeSame x hx (by rwa [h.hown x hxf]))
      hown := by
        intro x hx
        have hxf := hne hx
        rw [h'.hown x (by rwa [h.hown x hxf]), h.hown x hxf]
      own := h'.own.trans h.own
      free := h'.free.trans h.free }

/-- The loop of `copyuvm` copies huge page after huge page as long as there are huge frames. -/
theorem copy_huge_rounds (hd : IsFrame d) (hp : IsFrame p) (hpd : p ≠ d) {stop : Nat} (n j : Nat) :
    ∀ (i : Nat) (s : Machine) (g : Ghost), Sys s g → g.own d = .dir o' → g.own p = .dir o → i + j ≤ 512 →
      j ≤ g.hfree.length → (∀ i' < i + j, 0x400000 * i' < stop) →
      (∀ i', i ≤ i' → i' < i + j → hugeAt s.mem p i' ≠ 0) →
      (∀ i', i ≤ i' → i' < i + j → entry s.mem d i' = 0) →
      ∃ s' g', (copyuvm.hugeLoop (P2V p) (P2V d) stop (n + j) (0x400000 * i)).run s =
          (copyuvm.hugeLoop (P2V p) (P2V d) stop n (0x400000 * (i + j))).run s' ∧ Sys s' g' ∧
        g.hfree.length = g'.hfree.length + j ∧ HugeCopied p d i (i + j) s g s' g' := by
  induction j with
  | zero =>
    intro i s g hs _ _ _ _ _ _ _
    exact ⟨s, g, rfl, hs, rfl, HugeCopied.refl le_rfl⟩
  | succ j ih =>
    intro i s g hs hdir hpdir hile hlen hlt hhuge hempty
    cases hfree : g.hfree with
    | nil =>
      rw [hfree, List.length_nil] at hlen
      omega
    | cons f L =>
      obtain ⟨hf, _⟩ := (hs.mem_hfree f).1 (by simp [hfree])
      obtain ⟨f₀, hf₀, hpage₀, hpde₀, hat₀⟩ : ∃ f, IsHuge f ∧ g.hown f = .page p i ∧
          entry s.mem p i = f + 0x87 ∧ hugeAt s.mem p i = f + 0x87 := by
        rcases hs.hugeAt_user hp hpdir (show i < 512 by omega) with hz | h
        · exact absurd hz (hhuge i le_rfl (by omega))
        · exact h
      have hplt := hp.lt
      have hflt := hf.lt
      have hf₀lt := hf₀.lt
      have halign := hf.1
      have halign₀ := hf₀.1
      have hfne : ¬ P2V f = 0 := P2V_ne_zero (by omega)
      have hpdx : PDX (0x400000 * i) = i := by
        simp only [PDX]
        omega
      have hnext : u32 (0x400000 * i + HUGE_PAGE_SIZE) = 0x400000 * (i + 1) := by
        simp only [u32, HUGE_PAGE_SIZE]
        omega
      have haddr : PTE_ADDR (f₀ + 0x87) = f₀ := PTE_ADDR_add (by omega) (by omega)
      have hflags : PTE_FLAGS (f₀ + 0x87) = 0x87 := by
        simp only [PTE_FLAGS]
        omega
      obtain ⟨s₁, g₁, hmap, hs₁, hbytes, hgrown⟩ := mappages_huge_fresh hs hd hdir (by omega)
        (hempty i le_rfl (by omega)) hfree (m := blit s.mem f (slice s.mem f₀ 0x400000))
        (fun x hx => hugeBlit_sameOn hf hx)
        (fun x hx hxf => hugeBlit_sameOn_huge hf hx hxf (by rw [slice_length])) (or_huge_flags hf.1)
      have hround : (copyuvm.hugeLoop (P2V p) (P2V d) stop (n + j + 1) (0x400000 * i)).run s =
          (copyuvm.hugeLoop (P2V p) (P2V d) stop (n + j) (0x400000 * (i + 1))).run s₁ := by
        rw [copyuvm.hugeLoop, if_pos (hlt i (by omega)), hpdx, readWord_entry_bind (by omega) (by omega), hpde₀,
          bind_ok (khugealloc_cons hs hfree), if_neg hfne, memmove_bind, haddr, hflags, V2P_P2V (by omega),
          V2P_P2V (by omega), hnext]
        change (mappages (P2V d) (0x400000 * i) HUGE_PAGE_SIZE f 0x87 >>= _).run
          (s.hpopped f (blit s.mem f (slice s.mem f₀ 0x400000))) = _
        rw [bind_ok hmap, if_neg (by omega)]
      have hpde : entry s₁.mem d i = f + 0x87 := (hgrown.entry_eq i (by omega)).trans (if_pos rfl)
      have hat : hugeAt s₁.mem d i = f + 0x87 := by
        rw [hugeAt_of_huge (by omega) (by omega), hpde]
      have hcopy : HugeCopy s.mem p s₁.mem d i := by
        rw [HugeCopy, hat, hat₀, haddr, hflags, PTE_ADDR_add (by omega) (by omega)]
        refine ⟨by omega, by simp only [PTE_FLAGS]; omega, fun b hb => ?_⟩
        rw [hbytes _ (by omega) (by omega), blit_slice_apply _ _ (by omega) (by omega), Nat.add_sub_cancel_left]
      have hlen₁ : j ≤ g₁.hfree.length := by
        rw [hgrown.hfree, List.length_cons] at hlen
        omega
      have hentry (j : Nat) (hj : j < 1024) : entry s₁.mem p j = entry s.mem p j :=
        entry_eq_of_sameOn (hgrown.frameSame p hp hpd) hj
      obtain ⟨s', g', hrun, hs', hcount, hcop⟩ := ih (i + 1) s₁ g₁ hs₁ (hgrown.dir.trans hdir)
        ((congrFun hgrown.own p).trans hpdir) (by omega) hlen₁ (fun i' hi' => hlt i' (by omega))
        (fun i' h h' => by rw [hugeAt_congr (hentry i' (by omega))]; exact hhuge i' (by omega) (by omega))
        (fun i' h h' => by
          rw [hgrown.entry_eq i' (by omega), if_neg (by omega)]
          exact hempty i' (by omega) (by omega))
      rw [show i + 1 + j = i + (j + 1) by omega] at hrun hcop
      refine ⟨s', g', hround.trans hrun, hs', ?_,
        hgrown.copied hs hp hpd hpdir (by omega) (by omega) hcopy hhuge hcop⟩
      rw [← hfree, hgrown.hfree, List.length_cons]
      omega

/-- Without any huge frame left the loop gives up. -/
theorem copy_huge_empty (hs : Sys s g) (hp : IsFrame p) (hi : i < 1024) {stop : Nat} (n : Nat)
    (hlt : 0x400000 * i < stop) (hnil : g.hfree = []) :
    (copyuvm.hugeLoop (P2V p) (P2V d) stop (n + 1) (0x400000 * i)).run s = .ok false s := by
  have hplt := hp.lt
  have hpdx : PDX (0x400000 * i) = i := by
    simp only [PDX]
    omega
  rw [copyuvm.hugeLoop, if_pos hlt, hpdx, readWord_entry_bind (by omega) hi, bind_ok (khugealloc_nil hs hnil),
    if_pos rfl, EStateM.run_pure]

theorem copy_huge_done {stop a : Nat} (n : Nat) (hge : ¬ a < stop) :
    (copyuvm.hugeLoop (P2V p) (P2V d) stop (n + 1) a).run s = .ok true s := by
  rw [copyuvm.hugeLoop, if_neg hge, EStateM.run_pure]

end huge

end xv6
