import Xv6.Vm.Dealloc

open bytes outcome Function

namespace xv6

/-- One `kfree` for each page from `lo` up to `hi` that directory `d` maps, in the order of the pages. -/
def sweptFrees (m : Mem) (d lo hi : Nat) : List FreeCall :=
  (List.range' lo (hi - lo)).filterMap fun k =>
    if lookup m d k = 0 then none else some (.kfree (P2V (PTE_ADDR (lookup m d k))))

theorem sweptFrees_nil {m : Mem} {d lo hi : Nat} (h : ∀ k, lo ≤ k → k < hi → lookup m d k = 0) :
    sweptFrees m d lo hi = [] := by
  refine List.filterMap_eq_nil_iff.2 fun k hk => if_pos ?_
  rw [List.mem_range'_1] at hk
  exact h k hk.1 (by omega)

theorem mem_sweptFrees {m : Mem} {d lo hi : Nat} {c : FreeCall} (h : c ∈ sweptFrees m d lo hi) : ∃ v, c = .kfree v := by
  obtain ⟨k, -, hk⟩ := List.mem_filterMap.1 h
  split_ifs at hk
  exact ⟨_, (Option.some.inj hk).symm⟩

theorem sweptFrees_append {m m' : Mem} {d lo mid hi : Nat} (hlo : lo ≤ mid) (hhi : mid ≤ hi)
    (h : ∀ k, mid ≤ k → k < hi → lookup m' d k = lookup m d k) :
    sweptFrees m d lo mid ++ sweptFrees m' d mid hi = sweptFrees m d lo hi := by
  have hsame : sweptFrees m' d mid hi = sweptFrees m d mid hi := by
    refine List.filterMap_congr fun k hk => ?_
    rw [List.mem_range'_1] at hk
    rw [h k hk.1 (by omega)]
  rw [hsame, sweptFrees, sweptFrees, sweptFrees, ← List.filterMap_append, show hi - lo = mid - lo + (hi - mid) by omega,
    ← List.range'_append, show lo + 1 * (mid - lo) = mid by omega]

/-- The pages `lo` up to `hi` of directory `d` have been unmapped and freed, one
`kfree` each, and nothing else has changed. -/
structure Swept (d lo hi : Nat) (s : Machine) (g : Ghost) (s' : Machine) (g' : Ghost) : Prop
    extends UserStep d (fun _ => False) s g s' g' where
  lookup_eq : ∀ k < 2 ^ 20, lookup s'.mem d k = if lo ≤ k ∧ k < hi then 0 else lookup s.mem d k
  entry_eq : ∀ i < 1024, entry s'.mem d i = entry s.mem d i
  own : ∀ x, g'.own x = g.own x ∨ (∃ i j, g.own x = .page d i j) ∧ g'.own x = .free
  pages : ∀ x i j, IsFrame x → g.own x = .page d i j → (1024 * i + j < lo ∨ hi ≤ 1024 * i + j) →
    g'.own x = .page d i j ∧ SameOn s.mem s'.mem x 4096
  hown : g'.hown = g.hown
  hfree : g'.hfree = g.hfree
  frees : s'.frees = s.frees ++ sweptFrees s.mem d lo hi

section swept

variable {s s' s'' : Machine} {g g' g'' : Ghost} {d lo mid hi k : Nat} {o : DirOwner}

theorem Swept.nil (h : ∀ k, lo ≤ k → k < hi → lookup s.mem d k = 0) :
    Swept d lo hi s g s g where
  toUserStep := UserStep.refl _ _ _ _
  lookup_eq k _ := by
    by_cases hr : lo ≤ k ∧ k < hi
    · rw [if_pos hr, h k hr.1 hr.2]
    · rw [if_neg hr]
  entry_eq _ _ := rfl
  own _ := .inl rfl
  pages _ _ _ _ hpage _ := ⟨hpage, SameOn.refl _ _ _⟩
  hown := rfl
  hfree := rfl
  frees := by rw [sweptFrees_nil h, List.append_nil]

theorem Swept.trans (h : Swept d lo mid s g s' g') (h' : Swept d mid hi s' g' s'' g'')
    (hlo : lo ≤ mid) (hhi : mid ≤ hi) (hlt : hi ≤ 2 ^ 20) : Swept d lo hi s g s'' g'' where
  toUserStep := h.toUserStep.trans h'.toUserStep
  lookup_eq k hk := by
    rw [h'.lookup_eq k hk, h.lookup_eq k hk]
    split_ifs <;> first | rfl | omega
  entry_eq i hi := (h'.entry_eq i hi).trans (h.entry_eq i hi)
  own x := by
    rcases h.own x with heq | ⟨hpage, hfree⟩
    · rcases h'.own x with heq' | ⟨hpage, hfree⟩
      · exact .inl (heq'.trans heq)
      · exact .inr ⟨heq ▸ hpage, hfree⟩
    · rcases h'.own x with heq' | ⟨_, hfree'⟩
      · exact .inr ⟨hpage, heq'.trans hfree⟩
      · exact .inr ⟨hpage, hfree'⟩
  pages x i j hx hpage hout := by
    obtain ⟨hpage', hsame⟩ := h.pages x i j hx hpage (by omega)
    obtain ⟨hpage'', hsame'⟩ := h'.pages x i j hx hpage' (by omega)
    exact ⟨hpage'', hsame.trans hsame'⟩
  hown := h'.hown.trans h.hown
  hfree := h'.hfree.trans h.hfree
  frees := by
    rw [h'.frees, h.frees, List.append_assoc, sweptFrees_append hlo hhi]
    intro k hk hk'
    rw [h.lookup_eq k (by omega), if_neg (by omega)]

theorem Swept.hugeAt_eq (h : Swept d lo hi s g s' g') {i : Nat} (hi' : i < 1024) :
    hugeAt s'.mem d i = hugeAt s.mem d i := hugeAt_congr (h.entry_eq i hi')

/-- No frame leaves the free list. -/
theorem Swept.free_le (h : Swept d lo hi s g s' g') (hs : Sys s g) (hs' : Sys s' g') : g.free.length ≤ g'.free.length := by
  refine (hs.nodup.subperm fun x hx => ?_).length_le
  obtain ⟨hf, hfree⟩ := (hs.mem_free x).1 hx
  refine (hs'.mem_free x).2 ⟨hf, ?_⟩
  rcases h.own x with heq | ⟨-, hfree'⟩
  · exact heq.trans hfree
  · exact hfree'

theorem freed_sameOn {f x : Nat} (hf : IsFrame f) (hx : IsFrame x) (hne : x ≠ f) :
    SameOn s.mem (s.freed f).mem x 4096 := by
  have h := hf.apart hx hne.symm
  exact (fill_sameOn_frame hf hx hne).trans (store32_sameOn _ (by omega))

theorem freed_sameOn_huge {f x n : Nat} (hf : IsFrame f) (hx : IsHuge x) :
    SameOn s.mem (s.freed f).mem x n := by
  have h := hf.apart_huge hx
  exact (fill_sameOn_huge hf hx).trans (store32_sameOn _ (by omega))

/-- One mapped page is unmapped and its frame freed. -/
theorem Swept.page {t f fl : Nat} (hs : Sys s g) (hd : IsFrame d) (hdir : g.own d = .dir o)
    (hk : k < 2 ^ 19) (ht : IsFrame t) (htable : g.own t = .table d (k / 1024)) (hf : IsFrame f) (hfl : fl < 4096)
    (hpage : entry s.mem t (k % 1024) = f + fl) (hrole : g.own f = .page d (k / 1024) (k % 1024)) :
    ∃ g', Sys (s.unmapped t (k % 1024) f) g' ∧ g'.free = f :: g.free ∧
      (∀ x, g'.own x = if x = f then .free else g.own x) ∧
      Swept d k (k + 1) s g (s.unmapped t (k % 1024) f) g' := by
  have hj : k % 1024 < 1024 := by omega
  have htf : t ≠ f := by
    rintro rfl
    simp [htable] at hrole
  have htd : t ≠ d := by
    rintro rfl
    simp [htable] at hdir
  have hdf : d ≠ f := by
    rintro rfl
    simp [hdir] at hrole
  rw [Machine.unmapped_eq ht hf htf hj]
  have hs₁ := hs.set_pte ht htable (by omega) hj hf (.inr hrole) (.inl ⟨rfl, rfl⟩)
  have hs₂ := hs₁.push hf (by simp)
  rw [update_idem] at hs₂
  have hown (x : Nat) : update g.own f .free x = if x = f then .free else g.own x := by
    simp [update_apply]
  have hview := hs.view_set_pte hd hdir ht htable hj (show 0 < 2 ^ 32 by omega)
  have hview' := hs₁.view_congr (m := (Machine.freed { s with mem := _ } f).mem) (o := o) hd
    (by simpa [update_of_ne hdf] using hdir) (freed_sameOn hf hd hdf) (fun t' i ht' htable' => by
      refine freed_sameOn hf ht' ?_
      rintro rfl
      simp at htable')
  have hentry (i : Nat) (hi : i < 1024) :
      entry (Machine.freed { s with mem := store32 s.mem (t + 4 * (k % 1024)) 0 } f).mem d i =
        entry s.mem d i :=
    (entry_eq_of_sameOn (freed_sameOn hf hd hdf) hi).trans (hview.2 i hi)
  refine ⟨_, hs₂, rfl, hown, ?_⟩
  exact
    { role := by
        intro x hx
        by_cases hxf : x = f
        · subst hxf
          exact .inl ⟨.inr (.inr (.inr ⟨_, _, hrole⟩)), .inr (.inl (update_self _ _ _))⟩
        · exact .inr (update_of_ne hxf _ _)
      same := by
        intro x hx hout
        have hxf : x ≠ f := by
          rintro rfl
          exact hout (.inr (.inr (.inr ⟨_, _, hrole⟩)))
        have hxt : t ≠ x := by
          rintro rfl
          exact hout (.inr (.inr (.inl ⟨_, by omega, htable⟩)))
        exact (store_entry_sameOn ht hx hxt hj).trans (freed_sameOn hf hx hxf)
      hrole := fun _ _ => .inr rfl
      hsame := by
        intro x hx _
        refine (store_entry_sameOn_huge ht hj ?_).trans (freed_sameOn_huge hf hx)
        obtain ⟨_, hlo, _⟩ := hx
        omega
      rest := rfl
      dir := update_of_ne hdf _ _
      kern := fun i _ hi => hentry i hi
      lookup_eq := by
        intro k' hk'
        refine (hview'.1 k' hk').trans ((hview.1 k' hk').trans ?_)
        rw [show 1024 * (k / 1024) + k % 1024 = k by omega]
        split_ifs <;> first | rfl | omega
      entry_eq := hentry
      own := by
        intro x
        by_cases hxf : x = f
        · subst hxf
          exact .inr ⟨⟨_, _, hrole⟩, update_self _ _ _⟩
        · exact .inl (update_of_ne hxf _ _)
      pages := by
        intro x i j hx hrole' hout
        have hxf : x ≠ f := by
          rintro rfl
          rw [hrole, Role.page.injEq] at hrole'
          omega
        have hxt : t ≠ x := by
          rintro rfl
          simp [htable] at hrole'
        exact ⟨(update_of_ne hxf _ _).trans hrole', (store_entry_sameOn ht hx hxt hj).trans (freed_sameOn hf hx hxf)⟩
      hown := rfl
      hfree := rfl
      frees := by
        have hlook : lookup s.mem d k = f + fl := (hs.lookup_table ht htable).trans hpage
        have halign := hf.1
        have hlo := hf.2.1
        rw [sweptFrees, show k + 1 - k = 1 by omega]
        simp only [List.range'_one, List.filterMap_cons, hlook, PTE_ADDR_add halign hfl, List.filterMap_nil]
        rw [if_neg (by omega)]
        rfl }

end swept

section loop

variable {s : Machine} {g : Ghost} {d lo hi k oldsz : Nat} {o : DirOwner}

/-- The huge pages of directory `d` that start in the range hold no word that
`deallocuvm` would take for a present entry. -/
def Quiet (m : Mem) (d lo hi : Nat) : Prop :=
  (lo % 1024 = 0 ∨ hugeAt m d (lo / 1024) = 0) ∧
    ∀ i f, lo ≤ 1024 * i → 1024 * i < hi → IsHuge f → entry m d i = f + 0x87 → entry m f 0 % 2 = 0

theorem Quiet.congr {m m' : Mem} (h : Quiet m d lo hi) (hhi : hi ≤ 2 ^ 19)
    (hentry : ∀ i < 1024, entry m' d i = entry m d i)
    (hsame : ∀ f, IsHuge f → SameOn m m' f 0x400000) (hlo : lo ≤ k)
    (hk : k % 1024 = 0 ∨ hugeAt m d (k / 1024) = 0) (hklt : k / 1024 < 1024) : Quiet m' d k hi := by
  refine ⟨hk.imp id fun h => (hugeAt_congr (hentry _ hklt)).trans h, fun i f hi hi' hf hpde => ?_⟩
  have heq : entry m' f 0 = entry m f 0 := (hsame f hf).load32_eq (by omega) (by omega)
  rw [heq]
  exact h.2 i f (by omega) hi' hf ((hentry i (by omega)).symm.trans hpde)

/-- Pages at the end of the range that were not mapped do not count. -/
theorem Swept.narrow {s' : Machine} {g' : Ghost} {hi' : Nat} (h : Swept d lo hi' s g s' g') (hs : Sys s g) (hlo : lo ≤ hi)
    (hhi : hi ≤ hi') (hzero : ∀ k, hi ≤ k → k < hi' → lookup s.mem d k = 0) : Swept d lo hi s g s' g' where
  toUserStep := h.toUserStep
  lookup_eq k hk := by
    rw [h.lookup_eq k hk]
    split_ifs
    · rfl
    · exact (hzero k (by omega) (by omega)).symm
    · omega
    · rfl
  entry_eq := h.entry_eq
  own := h.own
  pages x i j hx hpage hout := by
    refine h.pages x i j hx hpage ?_
    obtain ⟨fl, -, hodd, hlook⟩ := hs.lookup_page hx hpage
    have halign := hx.1
    by_contra hin
    have := hzero (1024 * i + j) (by omega) (by omega)
    omega
  hown := h.hown
  hfree := h.hfree
  frees := by
    have happend : sweptFrees s.mem d lo hi ++ sweptFrees s.mem d hi hi' = sweptFrees s.mem d lo hi' :=
      sweptFrees_append hlo hhi fun _ _ _ => rfl
    rw [h.frees, ← happend, sweptFrees_nil hzero, List.append_nil]

/-- One step of the loop of `deallocuvm` on the user half. Pages that it passes
without looking at them are not mapped. -/
theorem dealloc_step (hs : Sys s g) (hd : IsFrame d) (hdir : g.own d = .dir o) (hk : k < 2 ^ 19)
    (hhi : k < hi) (hquiet : Quiet s.mem d k hi) :
    ∃ k' s' g', (deallocuvm.step (P2V d) (4096 * k)).run s = .ok (4096 * k') s' ∧ Sys s' g' ∧
      Swept d k k' s g s' g' ∧ k < k' ∧ k' ≤ 1024 * (k / 1024 + 1) ∧
      (k' % 1024 = 0 ∨ hugeAt s.mem d (k' / 1024) = 0) ∧ ∀ k₁, k < k₁ → k₁ < k' → lookup s.mem d k₁ = 0 := by
  have hslot : k / 1024 < 1024 := by omega
  rcases hs.pde d o hd hdir (k / 1024) hslot with h | ⟨t, ht, htable, h⟩ | ⟨_, f, hf, _, h⟩ | ⟨hlo, _⟩
  · have habsent (k' : Nat) (hlo' : k ≤ k') (hhi' : k' < 1024 * (k / 1024 + 1)) : lookup s.mem d k' = 0 := by
      refine lookup_of_absent ?_
      rw [show k' / 1024 = k / 1024 by omega]
      omega
    exact ⟨1024 * (k / 1024 + 1), s, g, dealloc_step_absent hd (by omega) h, hs, Swept.nil habsent, by omega, le_rfl,
      .inl (by omega), fun k₁ hlo' => habsent k₁ (by omega)⟩
  · have halign := ht.1
    have hnext : (k + 1) % 1024 = 0 ∨ hugeAt s.mem d ((k + 1) / 1024) = 0 := by
      by_cases hk' : (k + 1) % 1024 = 0
      · exact .inl hk'
      · right
        rw [show (k + 1) / 1024 = k / 1024 by omega]
        exact hugeAt_of_not (by omega)
    have hlook := hs.lookup_table ht htable
    rcases hs.pte t d _ ht htable (by omega) (k % 1024) (by omega) with hz | ⟨f, fl, hf, hrole, hfl, hodd, hpte⟩
    · refine ⟨k + 1, s, g, dealloc_step_empty hd (by omega) ht h (by omega), hs,
        Swept.nil fun k' hlo' hhi' => ?_, by omega, by omega, hnext, fun k₁ _ _ => by omega⟩
      rw [show k' = k by omega, hlook, hz]
    · obtain ⟨g', hs', _, _, hswept⟩ := Swept.page hs hd hdir hk ht htable hf hfl hpte hrole
      exact ⟨k + 1, _, g', dealloc_step_page hd (by omega) ht h hf hfl hodd hpte, hs', hswept,
        by omega, by omega, hnext, fun k₁ _ _ => by omega⟩
  · have halign := hf.1
    have hne : hugeAt s.mem d (k / 1024) ≠ 0 := by
      rw [hugeAt_ne_zero_iff]
      omega
    have hk0 : k % 1024 = 0 := hquiet.1.resolve_right hne
    have hkeq : k = 1024 * (k / 1024) := by omega
    have heven := hquiet.2 (k / 1024) f (by omega) (by omega) hf h
    have hhuge (k' : Nat) (hlo' : k ≤ k') (hhi' : k' < 1024 * (k / 1024 + 1)) : lookup s.mem d k' = 0 := by
      refine lookup_of_huge ?_
      rw [show k' / 1024 = k / 1024 by omega]
      omega
    have hstep := dealloc_step_huge hd (by omega) hf h heven
    rw [← hkeq] at hstep
    exact ⟨1024 * (k / 1024 + 1), s, g, hstep, hs, Swept.nil hhuge, by omega, le_rfl, .inl (by omega),
      fun k₁ hlo' => hhuge k₁ (by omega)⟩
  · omega

/-- The loop of `deallocuvm` works through the pages up to any point `hi` of its
range, with fuel to spare. -/
theorem dealloc_reach (hd : IsFrame d) (hhi : hi ≤ 2 ^ 19) (hold : ∀ k < hi, 4096 * k < oldsz) (n : Nat) :
    ∀ (k : Nat) (s : Machine) (g : Ghost), Sys s g → g.own d = .dir o → k ≤ hi →
      Quiet s.mem d k hi → hi - k ≤ n →
      ∃ k' n' s' g', hi ≤ k' ∧ k' ≤ (hi + 1023) / 1024 * 1024 ∧ n ≤ n' + (hi - k) ∧
        (deallocuvm.loop (P2V d) oldsz n (4096 * k)).run s =
          (deallocuvm.loop (P2V d) oldsz n' (4096 * k')).run s' ∧ Sys s' g' ∧
        Swept d k hi s g s' g' := by
  induction n with
  | zero =>
    intro k s g hs _ hk _ hn
    exact ⟨k, 0, s, g, by omega, by omega, by omega, rfl, hs, Swept.nil fun k' _ _ => by omega⟩
  | succ n ih =>
    intro k s g hs hdir hk hquiet hn
    by_cases hdone : k = hi
    · exact ⟨k, n + 1, s, g, by omega, by omega, by omega, rfl, hs, Swept.nil fun k' _ _ => by omega⟩
    · obtain ⟨k₁, s₁, g₁, hstep, hs₁, hswept, hlt, hle, hal, hzero⟩ :=
        dealloc_step hs hd hdir (by omega) (by omega) hquiet
      have hloop : (deallocuvm.loop (P2V d) oldsz (n + 1) (4096 * k)).run s =
          (deallocuvm.loop (P2V d) oldsz n (4096 * k₁)).run s₁ := by
        rw [deallocuvm.loop, if_pos (hold k (by omega)), bind_ok hstep]
      by_cases hpast : hi ≤ k₁
      · exact ⟨k₁, n, s₁, g₁, hpast, by omega, by omega, hloop, hs₁,
          hswept.narrow hs hk hpast fun k₂ hlo => hzero k₂ (by omega)⟩
      · have hq : Quiet s₁.mem d k₁ hi :=
          hquiet.congr hhi hswept.entry_eq (fun f hf => hswept.hsame f hf id) (by omega) hal (by omega)
        obtain ⟨k', n', s', g', hk', hk'', hn', hrun, hs', hswept'⟩ :=
          ih k₁ s₁ g₁ hs₁ (hswept.dir.trans hdir) (by omega) hq (by omega)
        exact ⟨k', n', s', g', hk', hk'', by omega, hloop.trans hrun, hs',
          hswept.trans hswept' (by omega) (by omega) (by omega)⟩

/-- The page at which `deallocuvm` starts when it shrinks to `newsz`. -/
def deallocStart (m : Mem) (d newsz : Nat) : Nat :=
  if hugeAt m d (newsz / 0x400000) = 0 then (newsz + 4095) / 4096
  else 1024 * ((newsz + 0x3FFFFF) / 0x400000)

theorem PdeOK.hasFlag_PS_iff {m : Mem} {i : Nat} (h : PdeOK m g d i) :
    hasFlag (entry m d i) PTE_PS = true ↔ hugeAt m d i ≠ 0 := by
  rw [hasFlag_PS, hugeAt_ne_zero_iff]
  rcases h with h | ⟨t, ⟨ht, _⟩, _, h⟩ | ⟨_, f, ⟨hf, _⟩, _, h⟩ | ⟨_, _, h⟩ <;> omega

/-- `deallocuvm` enters its loop at `deallocStart`. -/
theorem deallocuvm_run {newsz : Nat} (hd : IsFrame d) (hpde : PdeOK s.mem g d (newsz / 0x400000))
    (hnew : newsz < oldsz) (hlt : newsz ≤ 0x80000000) :
    (deallocuvm (P2V d) oldsz newsz).run s =
      (do
        deallocuvm.loop (P2V d) oldsz (2 ^ 20 + 1) (4096 * deallocStart s.mem d newsz)
        return newsz : KernelM Nat).run s := by
  have hdlt := hd.lt
  have hpdx : PDX newsz = newsz / 0x400000 := by
    simp only [PDX]
    omega
  have hiff := hpde.hasFlag_PS_iff
  have hstart : (if hasFlag (entry s.mem d (newsz / 0x400000)) PTE_PS then HUGEPGROUNDUP newsz
      else PGROUNDUP newsz) = 4096 * deallocStart s.mem d newsz := by
    by_cases hps : hugeAt s.mem d (newsz / 0x400000) = 0
    · rw [if_neg (by rw [hiff]; exact not_not.2 hps), deallocStart, if_pos hps]
      simp only [PGROUNDUP, u32, PGSIZE]
      omega
    · rw [if_pos (hiff.2 hps), deallocStart, if_neg hps]
      simp only [HUGEPGROUNDUP, u32]
      omega
  unfold deallocuvm
  rw [if_neg (by omega), hpdx, readWord_entry_bind (by omega) (by omega), hstart]

/-- `deallocuvm` on a range of user addresses without misleading huge pages. -/
theorem deallocuvm_spec {newsz : Nat} (hs : Sys s g) (hd : IsFrame d) (hdir : g.own d = .dir o)
    (hold : oldsz ≤ 0x80000000) (hnew : newsz < oldsz)
    (hquiet : Quiet s.mem d (deallocStart s.mem d newsz) ((oldsz + 4095) / 4096)) :
    ∃ s' g', (deallocuvm (P2V d) oldsz newsz).run s = .ok newsz s' ∧ Sys s' g' ∧
      Swept d (deallocStart s.mem d newsz) ((oldsz + 4095) / 4096) s g s' g' := by
  have hexit (k n : Nat) (s : Machine) (hk : oldsz ≤ 4096 * k) :
      (deallocuvm.loop (P2V d) oldsz (n + 1) (4096 * k)).run s = .ok () s := by
    rw [deallocuvm.loop, if_neg (by omega), EStateM.run_pure]
  rw [deallocuvm_run hd (hs.pde d o hd hdir _ (by omega)) hnew (by omega)]
  by_cases hpast : (oldsz + 4095) / 4096 ≤ deallocStart s.mem d newsz
  · refine ⟨s, g, ?_, hs, Swept.nil fun k _ _ => by omega⟩
    rw [bind_ok (hexit _ _ s (by omega)), EStateM.run_pure]
  · have hin : ∀ k < (oldsz + 4095) / 4096, 4096 * k < oldsz := by
      intro k hk
      omega
    obtain ⟨k', n', s', g', hk', -, hn', hrun, hs', hswept⟩ :=
      dealloc_reach hd (by omega) hin (2 ^ 20 + 1) _ s g hs hdir (Nat.le_of_not_le hpast) hquiet (by omega)
    refine ⟨s', g', ?_, hs', hswept⟩
    obtain ⟨n, rfl⟩ : ∃ n, n' = n + 1 := ⟨n' - 1, by omega⟩
    rw [bind_ok (hrun.trans (hexit k' n s' (by omega))), EStateM.run_pure]

end loop

end xv6
