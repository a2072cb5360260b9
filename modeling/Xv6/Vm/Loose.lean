import Xv6.Vm.Unmap

open bytes chain outcome Function

namespace xv6

/-- The assignment with nothing said about the free list of huge frames. -/
def Ghost.noHuge (g : Ghost) : Ghost :=
  { g with hown := fun f => if g.hown f = .free then .temp else g.hown f, hfree := [] }

/-- What is left of the agreement between memory and the assignment when
`deallocuvm` has freed huge frames that are in use: everything but the free list
of huge frames, of which only the parity of its head is known. -/
structure Loose (s : Machine) (g : Ghost) : Prop where
  sys : Sys { s with freehugelist := 0 } g
  even : s.freehugelist % 2 = 0
  lt : s.freehugelist < 2 ^ 32

section loose

variable {s s' s'' : Machine} {g g' g'' : Ghost} {d k lo mid hi oldsz : Nat} {o : DirOwner}

theorem Sys.loose (hs : Sys s g) : Loose s g.noHuge := by
  have hpage {f d i : Nat} : g.noHuge.hown f = .page d i ↔ g.hown f = .page d i := by
    simp only [Ghost.noHuge]
    split_ifs with h <;> simp [h]
  refine ⟨⟨hs.chain, hs.nodup, hs.mem_free, rfl, List.nodup_nil, fun f => ?_, fun d o hd hdir i hi => ?_, hs.pte,
    hs.table_up, hs.page_up, fun f d i hf h => hs.huge_up f d i hf (hpage.1 h)⟩, ?_, hs.freehugelist_lt⟩
  · simp only [Ghost.noHuge, List.not_mem_nil, false_iff, not_and]
    intro _
    split_ifs with h
    · simp
    · exact h
  · exact (hs.pde d o hd hdir i hi).congr rfl (fun _ _ h => h) fun _ _ h => hpage.2 h
  · have hchain := hs.hchain
    cases hfree : g.hfree with
    | nil =>
      rw [hfree] at hchain
      rw [show s.freehugelist = 0 from hchain]
    | cons f L =>
      rw [hfree] at hchain
      obtain ⟨⟨halign, -, -⟩, -⟩ := (hs.mem_hfree f).1 (by simp [hfree])
      rw [hchain.1]
      simp only [P2V, KERNBASE]
      omega

/-- Steps of `deallocuvm` over the pages `lo` up to `hi`. The base pages there
are unmapped, the directory keeps its entries, and the first word of each huge
page that was passed is even afterwards. -/
structure LooseStep (d lo hi : Nat) (s : Machine) (g : Ghost) (s' : Machine) (g' : Ghost) : Prop where
  lookup_eq : ∀ k < 2 ^ 20, lookup s'.mem d k = if lo ≤ k ∧ k < hi then 0 else lookup s.mem d k
  entry_eq : ∀ i < 1024, entry s'.mem d i = entry s.mem d i
  pages : ∀ x i j, IsFrame x → g.own x = .page d i j → (1024 * i + j < lo ∨ hi ≤ 1024 * i + j) →
    g'.own x = .page d i j ∧ SameOn s.mem s'.mem x 4096
  dir : g'.own d = g.own d
  even : ∀ f, IsHuge f → entry s.mem f 0 % 2 = 0 → entry s'.mem f 0 % 2 = 0
  passed : ∀ i < 512, ∀ f, lo ≤ 1024 * i → 1024 * i < hi → IsHuge f → entry s.mem d i = f + 0x87 →
    entry s'.mem f 0 % 2 = 0
  rest : s' = { s with mem := s'.mem, freelist := s'.freelist, freehugelist := s'.freehugelist, frees := s'.frees }

theorem LooseStep.refl (h : hi ≤ lo) : LooseStep d lo hi s g s g :=
  ⟨fun k _ => by rw [if_neg (by omega)], fun _ _ => rfl, fun _ _ _ _ hpage _ => ⟨hpage, SameOn.refl _ _ _⟩, rfl,
    fun _ _ h => h, fun i _ f hlo hhi => by omega, rfl⟩

theorem LooseStep.trans (h : LooseStep d lo mid s g s' g') (h' : LooseStep d mid hi s' g' s'' g'')
    (hlo : lo ≤ mid) (hhi : mid ≤ hi) : LooseStep d lo hi s g s'' g'' where
  lookup_eq k hk := by
    rw [h'.lookup_eq k hk, h.lookup_eq k hk]
    split_ifs <;> first | rfl | omega
  entry_eq i hi := (h'.entry_eq i hi).trans (h.entry_eq i hi)
  pages x i j hx hpage hout := by
    obtain ⟨hpage', hsame⟩ := h.pages x i j hx hpage (by omega)
    obtain ⟨hpage'', hsame'⟩ := h'.pages x i j hx hpage' (by omega)
    exact ⟨hpage'', hsame.trans hsame'⟩
  dir := h'.dir.trans h.dir
  even f hf heven := h'.even f hf (h.even f hf heven)
  passed i hi f hlo hhi hf hpde := by
    by_cases hmid : 1024 * i < mid
    · exact h'.even f hf (h.passed i hi f hlo hmid hf hpde)
    · exact h'.passed i hi f (by omega) hhi hf ((h.entry_eq i (by omega)).trans hpde)
  rest := by rw [h'.rest, h.rest]

/-- Pages at the end of the range that were not mapped do not count. -/
theorem LooseStep.narrow {hi' : Nat} (h : LooseStep d lo hi' s g s' g') (hloose : Loose s g) (hhi : hi ≤ hi')
    (hzero : ∀ k, hi ≤ k → k < hi' → lookup s.mem d k = 0) : LooseStep d lo hi s g s' g' where
  lookup_eq k hk := by
    rw [h.lookup_eq k hk]
    split_ifs
    · rfl
    · exact (hzero k (by omega) (by omega)).symm
    · omega
    · rfl
  entry_eq := h.entry_eq
  pages x i j hx hpage hout := by
    refine h.pages x i j hx hpage ?_
    obtain ⟨fl, -, hodd, hlook⟩ := hloose.sys.lookup_page hx hpage
    have hlook : lookup s.mem d (1024 * i + j) = x + fl := hlook
    have halign := hx.1
    by_contra hin
    have := hzero (1024 * i + j) (by omega) (by omega)
    omega
  dir := h.dir
  even := h.even
  passed i hi f hlo hhi' := h.passed i hi f hlo (by omega)
  rest := h.rest

/-- The record of the freed frames does not matter. -/
theorem LooseStep.frees (h : LooseStep d lo hi s g s' g') (fr : List FreeCall) :
    LooseStep d lo hi s g { s' with frees := fr } g' :=
  ⟨h.lookup_eq, h.entry_eq, h.pages, h.dir, h.even, h.passed, by rw [h.rest]⟩

/-- A base step does not touch the huge frames. -/
theorem Swept.looseStep {m : Nat} (h : Swept d k hi { s with freehugelist := m } g s' g')
    (hnone : ∀ i f, k ≤ 1024 * i → 1024 * i < hi → IsHuge f → entry s.mem d i ≠ f + 0x87)
    (hlist : s'' = { s' with freehugelist := s.freehugelist }) : LooseStep d k hi s g s'' g' := by
  have hword (f : Nat) (hf : IsHuge f) : entry s'.mem f 0 = entry s.mem f 0 :=
    (h.hsame f hf id).load32_eq (by omega) (by omega)
  subst hlist
  refine ⟨h.lookup_eq, h.entry_eq, h.pages, h.dir, fun f hf heven => ?_,
    fun i _ f hlo hhi hf hpde => absurd hpde (hnone i f hlo hhi hf), ?_⟩
  · exact (congrArg (· % 2) (hword f hf)).trans heven
  · rw [h.rest]

/-- What the branch for 4MB entries makes of the machine when the first word of
the page in frame `f` names the huge frame `x`. -/
def Machine.misfreed (s : Machine) (f x : Nat) : Machine :=
  { s.hugefreed x with mem := store32 (s.hugefreed x).mem f 0 }

/-- Freeing a huge frame that is in use keeps all base frames. -/
theorem Loose.misfreed {f x : Nat} (h : Loose s g) (hf : IsHuge f) (hx : IsHuge x) :
    Loose (s.misfreed f x) g ∧ (∀ y, IsFrame y → SameOn s.mem (s.misfreed f x).mem y 4096) ∧
      entry (s.misfreed f x).mem f 0 = 0 ∧
      ∀ y, IsHuge y → entry s.mem y 0 % 2 = 0 → entry (s.misfreed f x).mem y 0 % 2 = 0 := by
  have hsame (y : Nat) (hy : IsFrame y) : SameOn s.mem (s.misfreed f x).mem y 4096 := by
    have hyx := hy.apart_huge hx
    have hyf := hy.apart_huge hf
    exact ((fill_sameOn _ (by omega)).trans (store32_sameOn _ (by omega))).trans (store32_sameOn _ (by omega))
  have halign := hx.1
  have hxlt := hx.lt
  refine ⟨⟨h.sys.congr rfl rfl (fun y hy _ => hsame y hy) fun y hy hrole => ?_, ?_, ?_⟩, hsame, ?_, fun y hy heven => ?_⟩
  · have := (h.sys.mem_hfree y).2 ⟨hy, hrole⟩
    have hnil : g.hfree = [] := by
      cases hfree : g.hfree with
      | nil => rfl
      | cons z L =>
        have hchain := h.sys.hchain
        rw [hfree] at hchain
        have hz := (h.sys.mem_hfree z).1 (by simp [hfree])
        have hzlt := hz.1.lt
        exact absurd hchain.1.symm (P2V_ne_zero (by omega))
    rw [hnil] at this
    simp at this
  · simp only [Machine.misfreed, Machine.hugefreed, P2V, KERNBASE]
    omega
  · exact Nat.mod_lt _ (by omega)
  · exact load32_store32_same _ _ (by omega)
  · by_cases hyf : y = f
    · rw [hyf]
      exact congrArg (· % 2) (load32_store32_same _ f (show 0 < 2 ^ 32 by omega))
    · have hne : entry (s.misfreed f x).mem y 0 = entry (s.hugefreed x).mem y 0 := by
        have hapart := hf.apart hy (Ne.symm hyf)
        exact load32_store32_ne _ (by omega)
      rw [hne]
      by_cases hyx : y = x
      · rw [hyx]
        exact (congrArg (· % 2) (load32_store32_same _ x h.lt)).trans h.even
      · have hapart := hx.apart hy (Ne.symm hyx)
        have hkeep : entry (s.hugefreed x).mem y 0 = entry s.mem y 0 :=
          ((fill_sameOn _ (by omega)).trans (store32_sameOn _ (show x + 4 ≤ y ∨ y + 0x400000 ≤ x by omega))).load32_eq
            (by omega) (by omega)
        rw [hkeep, heven]

/-- `khugefree` of an arbitrary page-aligned address. -/
theorem khugefree_cases {x : Nat} (hx : x < 2 ^ 32) (s : Machine) :
    IsHuge x ∧ (khugefree (P2V x)).run s = .ok () (s.hugefreed x) ∨
      ¬ IsHuge x ∧ ∃ fr, (khugefree (P2V x)).run s = .error (.panic "khugefree") { s with frees := fr } := by
  by_cases h : IsHuge x
  · exact .inl ⟨h, khugefree_run h s⟩
  · right
    have hbad : P2V x % HUGE_PAGE_SIZE ≠ 0 ∨ V2P (P2V x) < HUGE_PAGE_START ∨ V2P (P2V x) ≥ HUGE_PAGE_END := by
      rw [V2P_P2V hx]
      simp only [IsHuge, P2V, KERNBASE, HUGE_PAGE_SIZE, HUGE_PAGE_START, HUGE_PAGE_END] at h ⊢
      omega
    unfold khugefree
    rw [modify_bind, if_pos hbad]
    exact ⟨h, _, rfl⟩

/-- A huge page is passed over, or its first word is taken for a present entry. -/
theorem loose_step_huge {i f : Nat} (h : Loose s g) (hd : IsFrame d) (hdir : g.own d = .dir o) (hi : i < 512)
    (hf : IsHuge f) (hpde : entry s.mem d i = f + 0x87) :
    (entry s.mem f 0 % 2 = 1 ∧ ¬ IsHuge (PTE_ADDR (entry s.mem f 0)) ∧
      ∃ e fr, (deallocuvm.step (P2V d) (4096 * (1024 * i))).run s = .error e { s with frees := fr }) ∨
    ∃ s', (deallocuvm.step (P2V d) (4096 * (1024 * i))).run s = .ok (4096 * (1024 * (i + 1))) s' ∧ Loose s' g ∧
      LooseStep d (1024 * i) (1024 * (i + 1)) s g s' g ∧
      (entry s.mem f 0 % 2 = 0 ∧ s' = s ∨
        IsHuge (PTE_ADDR (entry s.mem f 0)) ∧ s' = s.misfreed f (PTE_ADDR (entry s.mem f 0))) := by
  have halign := hf.1
  have hflt := hf.lt
  have hunique {i' x : Nat} (hlo : 1024 * i ≤ 1024 * i') (hhi : 1024 * i' < 1024 * (i + 1))
      (hx : entry s.mem d i' = x + 0x87) : x = f := by
    rw [show i' = i by omega, hpde] at hx
    omega
  have hnone (k : Nat) (hlo : 1024 * i ≤ k) (hhi : k < 1024 * (i + 1)) : lookup s.mem d k = 0 :=
    lookup_of_huge (by
      rw [show k / 1024 = i by omega]
      omega)
  by_cases heven : entry s.mem f 0 % 2 = 0
  · right
    refine ⟨s, dealloc_step_huge hd (by omega) hf hpde heven, h, ⟨fun k _ => ?_, fun _ _ => rfl,
      fun _ _ _ _ hpage _ => ⟨hpage, SameOn.refl _ _ _⟩, rfl, fun _ _ h => h, fun i' _ x hlo hhi _ hx => ?_, rfl⟩, .inl ⟨heven, rfl⟩⟩
    · split_ifs with hin
      · exact hnone k hin.1 hin.2
      · rfl
    · rw [hunique hlo hhi hx, heven]
  · have hstep := dealloc_step_ps (s := s) hd (show i < 1024 by omega) hf hpde
    rw [if_pos (hasFlag_P.2 (by omega))] at hstep
    by_cases hzero : PTE_ADDR (entry s.mem f 0) = 0
    · left
      rw [if_pos hzero] at hstep
      refine ⟨by omega, fun hx => ?_, _, s.frees, hstep⟩
      have := hx.2.1
      omega
    · rw [if_neg hzero] at hstep
      have hlt : PTE_ADDR (entry s.mem f 0) < 2 ^ 32 := by
        have := entry_lt s.mem f 0
        simp only [PTE_ADDR]
        omega
      rcases khugefree_cases hlt s with ⟨hx, hrun⟩ | ⟨hx, fr, hrun⟩
      · right
        have hnext : u32 (4096 * (1024 * i) + HUGE_PAGE_SIZE) = 4096 * (1024 * (i + 1)) := by
          simp only [u32, HUGE_PAGE_SIZE]
          omega
        obtain ⟨hloose, hsame, hword, hkeep⟩ := h.misfreed hf hx
        have hview := h.sys.view_congr (m := (s.misfreed f (PTE_ADDR (entry s.mem f 0))).mem) hd hdir (hsame d hd)
          fun t i ht _ => hsame t ht
        refine ⟨s.misfreed f (PTE_ADDR (entry s.mem f 0)), ?_, hloose,
          ⟨fun k hk => ?_, fun i hi => entry_eq_of_sameOn (hsame d hd) hi,
            fun x _ _ hx hpage _ => ⟨hpage, hsame x hx⟩, rfl, hkeep, fun i' _ x hlo hhi _ hx => ?_, rfl⟩, .inr ⟨hx, rfl⟩⟩
        · refine hstep.trans ?_
          have haddr : V2P (P2V f + 4 * 0) = f := by
            rw [Nat.mul_zero, Nat.add_zero, V2P_P2V (by omega)]
          rw [bind_ok hrun, writeWord_bind, EStateM.run_pure, hnext, haddr]
          rfl
        · rw [hview.1 k hk]
          split_ifs with hin
          · exact hnone k hin.1 hin.2
          · rfl
        · rw [hunique hlo hhi hx, hword]
      · left
        exact ⟨by omega, hx, _, fr, hstep.trans (bind_error hrun)⟩

/-- One step of the loop of `deallocuvm`, whatever the huge pages contain. It
can only fail at a huge page, and pages that it passes without looking at them
are not mapped. -/
theorem loose_step (h : Loose s g) (hd : IsFrame d) (hdir : g.own d = .dir o) (hk : k < 2 ^ 19)
    (hstart : k % 1024 = 0 ∨ hugeAt s.mem d (k / 1024) = 0) :
    (hugeAt s.mem d (k / 1024) ≠ 0 ∧
      ∃ e fr, (deallocuvm.step (P2V d) (4096 * k)).run s = .error e { s with frees := fr }) ∨
      ∃ k' s' g', (deallocuvm.step (P2V d) (4096 * k)).run s = .ok (4096 * k') s' ∧ Loose s' g' ∧
        LooseStep d k k' s g s' g' ∧ k < k' ∧ k' ≤ 1024 * (k / 1024 + 1) ∧
        (k' % 1024 = 0 ∨ hugeAt s.mem d (k' / 1024) = 0) ∧ ∀ k₁, k < k₁ → k₁ < k' → lookup s.mem d k₁ = 0 := by
  have hslot : k / 1024 < 1024 := by omega
  have hother {k' : Nat} (hk' : k' ≤ 1024 * (k / 1024 + 1)) (hne : ∀ f, IsHuge f → entry s.mem d (k / 1024) ≠ f + 0x87) :
      ∀ i f, k ≤ 1024 * i → 1024 * i < k' → IsHuge f → entry s.mem d i ≠ f + 0x87 := by
    intro i f hlo hhi hf
    rw [show i = k / 1024 by omega]
    exact hne f hf
  rcases h.sys.pde d o hd hdir (k / 1024) hslot with hz | ⟨t, ht, htable, hpde⟩ | ⟨_, f, hf, _, hpde⟩ | ⟨hlo, _⟩
  · right
    have hz : entry s.mem d (k / 1024) = 0 := hz
    have habsent (k' : Nat) (hlo' : k ≤ k') (hhi' : k' < 1024 * (k / 1024 + 1)) : lookup s.mem d k' = 0 := by
      refine lookup_of_absent ?_
      rw [show k' / 1024 = k / 1024 by omega]
      omega
    have hswept : Swept d k (1024 * (k / 1024 + 1)) { s with freehugelist := 0 } g { s with freehugelist := 0 } g :=
      Swept.nil habsent
    exact ⟨1024 * (k / 1024 + 1), s, g, dealloc_step_absent hd (by omega) hz, h,
      hswept.looseStep (hother le_rfl fun f _ => by rw [hz]; omega) rfl, by omega, le_rfl, .inl (by omega),
      fun k₁ hlo' => habsent k₁ (by omega)⟩
  · right
    have hpde : entry s.mem d (k / 1024) = t + 7 := hpde
    have halign := ht.1
    have hnot : ∀ f, IsHuge f → entry s.mem d (k / 1024) ≠ f + 0x87 := by
      rintro f ⟨hf, -, -⟩
      omega
    have hnext : (k + 1) % 1024 = 0 ∨ hugeAt s.mem d ((k + 1) / 1024) = 0 := by
      by_cases hk' : (k + 1) % 1024 = 0
      · exact .inl hk'
      · right
        rw [show (k + 1) / 1024 = k / 1024 by omega]
        exact hugeAt_of_not (by omega)
    rcases h.sys.pte t d _ ht htable (by omega) (k % 1024) (by omega) with hz | ⟨f, fl, hf, hrole, hfl, hodd, hpte⟩
    · have hz : entry s.mem t (k % 1024) = 0 := hz
      have hswept : Swept d k (k + 1) { s with freehugelist := 0 } g { s with freehugelist := 0 } g :=
        Swept.nil fun k' hlo' hhi' => by
          rw [show k' = k by omega]
          exact (h.sys.lookup_table ht htable).trans hz
      exact ⟨k + 1, s, g, dealloc_step_empty hd (by omega) ht hpde (by omega), h,
        hswept.looseStep (hother (by omega) hnot) rfl, by omega, by omega, hnext, fun k₁ _ _ => by omega⟩
    · obtain ⟨g', hs', _, _, hswept⟩ := Swept.page h.sys hd hdir hk ht htable hf hfl hpte hrole
      exact ⟨k + 1, _, g', dealloc_step_page hd (by omega) ht hpde hf hfl hodd hpte, ⟨hs', h.even, h.lt⟩,
        hswept.looseStep (hother (by omega) hnot) rfl, by omega, by omega, hnext, fun k₁ _ _ => by omega⟩
  · have hpde : entry s.mem d (k / 1024) = f + 0x87 := hpde
    have halign := hf.1
    have hne : hugeAt s.mem d (k / 1024) ≠ 0 := by
      rw [hugeAt_ne_zero_iff]
      omega
    have hk0 : k % 1024 = 0 := hstart.resolve_right hne
    obtain ⟨i, rfl⟩ : ∃ i, k = 1024 * i := ⟨k / 1024, by omega⟩
    rw [show 1024 * i / 1024 = i by omega] at hpde
    rcases loose_step_huge h hd hdir (by omega) hf hpde with ⟨-, -, e, fr, hrun⟩ | ⟨s', hrun, hloose, hstep, -⟩
    · exact .inl ⟨hne, e, fr, hrun⟩
    · refine .inr ⟨1024 * (i + 1), s', g, hrun, hloose, hstep, by omega, by omega, .inl (by omega), fun k₁ _ _ => ?_⟩
      refine lookup_of_huge ?_
      rw [show k₁ / 1024 = i by omega]
      omega
  · omega

/-- The loop of `deallocuvm` with an invariant: it ends beyond `oldsz`, or in the error of a step. -/
theorem dealloc_loop_rule (d oldsz : Nat) {I : Nat → Machine → Prop} {E : Machine → Prop}
    (hstep : ∀ k s, I k s → 4096 * k < oldsz →
      (∃ e s', (deallocuvm.step (P2V d) (4096 * k)).run s = .error e s' ∧ E s') ∨
        ∃ k' s', (deallocuvm.step (P2V d) (4096 * k)).run s = .ok (4096 * k') s' ∧ k < k' ∧ I k' s')
    (n : Nat) (hpos : 0 < n) (hn : (oldsz + 4095) / 4096 < n + k) (h : I k s) :
    (∃ e s', (deallocuvm.loop (P2V d) oldsz n (4096 * k)).run s = .error e s' ∧ E s') ∨
      ∃ k' s', (deallocuvm.loop (P2V d) oldsz n (4096 * k)).run s = .ok () s' ∧ oldsz ≤ 4096 * k' ∧ I k' s' := by
  induction n generalizing k s with
  | zero => omega
  | succ n ih =>
    by_cases hdone : 4096 * k < oldsz
    · rcases hstep k s h hdone with ⟨e, s', hrun, hE⟩ | ⟨k', s', hrun, hlt, hI⟩
      · exact .inl ⟨e, s', by rw [deallocuvm.loop, if_pos hdone, bind_error hrun], hE⟩
      · rw [deallocuvm.loop, if_pos hdone, bind_ok hrun]
        exact ih (by omega) (by omega) hI
    · exact .inr ⟨k, s, by rw [deallocuvm.loop, if_neg hdone, EStateM.run_pure], by omega, h⟩

theorem deallocStart_le {m : Mem} {newsz : Nat} (h : newsz ≤ 0x80000000) : deallocStart m d newsz ≤ 2 ^ 19 := by
  simp only [deallocStart]
  split_ifs <;> omega

/-- The loop starts at the beginning of a slot or in one that holds no huge page. -/
theorem deallocStart_slot {m : Mem} (newsz : Nat) :
    deallocStart m d newsz % 1024 = 0 ∨ hugeAt m d (deallocStart m d newsz / 1024) = 0 := by
  simp only [deallocStart]
  split_ifs with hz
  · by_cases hend : (newsz + 4095) / 4096 % 1024 = 0
    · exact .inl hend
    · right
      rwa [show (newsz + 4095) / 4096 / 1024 = newsz / 0x400000 by omega]
  · exact .inl (by omega)

/-- The loop of `deallocuvm` from page `k` on, whatever the huge pages contain. -/
theorem loose_loop (h : Loose s g) (hd : IsFrame d) (hdir : g.own d = .dir o) (hold : oldsz ≤ 0x80000000)
    (hslot : k % 1024 = 0 ∨ hugeAt s.mem d (k / 1024) = 0) (hk : k ≤ 2 ^ 19) (n : Nat) (hpos : 0 < n)
    (hn : (oldsz + 4095) / 4096 < n + k) :
    (∃ e s' i g', (deallocuvm.loop (P2V d) oldsz n (4096 * k)).run s = .error e s' ∧ 0x400000 * i < oldsz ∧
      hugeAt s.mem d i ≠ 0 ∧ LooseStep d k (1024 * i) s g s' g') ∨
      ∃ s' g', (deallocuvm.loop (P2V d) oldsz n (4096 * k)).run s = .ok () s' ∧
        LooseStep d k ((oldsz + 4095) / 4096) s g s' g' := by
  have hrule := dealloc_loop_rule d oldsz
    (I := fun k' t => ∃ g', Loose t g' ∧ LooseStep d k (min k' ((oldsz + 4095) / 4096)) s g t g' ∧
      (k' % 1024 = 0 ∨ hugeAt t.mem d (k' / 1024) = 0) ∧ k ≤ k' ∧ k' ≤ 2 ^ 19)
    (E := fun t => ∃ i g', 0x400000 * i < oldsz ∧ hugeAt s.mem d i ≠ 0 ∧ LooseStep d k (1024 * i) s g t g') (by
      rintro k₁ t ⟨g', hloose, hstep, hslot, hlo, -⟩ hlt
      rw [min_eq_left (by omega)] at hstep
      rcases loose_step hloose hd (hstep.dir.trans hdir) (by omega) hslot with
        ⟨hne, e, fr, hrun⟩ | ⟨k', t', g'', hrun, hloose', hstep', hkk, hle, hslot', hzero⟩
      · have hk₁ : k₁ = 1024 * (k₁ / 1024) := by
          have := hslot.resolve_right hne
          omega
        rw [hk₁] at hstep
        refine .inl ⟨e, _, hrun, k₁ / 1024, g', by omega, ?_, hstep.frees fr⟩
        rwa [← hugeAt_congr (hstep.entry_eq _ (by omega))]
      · have hnarrow : LooseStep d k₁ (min k' ((oldsz + 4095) / 4096)) t g' t' g'' :=
          hstep'.narrow hloose (by omega) fun k₂ hlo' => hzero k₂ (by omega)
        refine .inr ⟨k', t', hrun, hkk, g'', hloose', hstep.trans hnarrow hlo (by omega), ?_, by omega, by omega⟩
        exact hslot'.imp id fun hz => (hugeAt_congr (hstep'.entry_eq _ (by omega))).trans hz)
    n hpos hn ⟨g, h, LooseStep.refl (by omega), hslot, le_rfl, hk⟩
  rcases hrule with ⟨e, s', hrun, i, g', hi, hne, hstep⟩ | ⟨k', s', hrun, hk', g', -, hstep, -⟩
  · exact .inl ⟨e, s', i, g', hrun, hi, hne, hstep⟩
  · rw [min_eq_right (by omega)] at hstep
    exact .inr ⟨s', g', hrun, hstep⟩

/-- `deallocuvm` on a range of user addresses, whatever the huge pages contain. -/
theorem dealloc_loose {newsz : Nat} (hs : Sys s g) (hd : IsFrame d) (hdir : g.own d = .dir o)
    (hold : oldsz ≤ 0x80000000) (hnew : newsz < oldsz) :
    (∃ e s' i g', (deallocuvm (P2V d) oldsz newsz).run s = .error e s' ∧ 0x400000 * i < oldsz ∧ hugeAt s.mem d i ≠ 0 ∧
      LooseStep d (deallocStart s.mem d newsz) (1024 * i) s g.noHuge s' g') ∨
    ∃ s' g', (deallocuvm (P2V d) oldsz newsz).run s = .ok newsz s' ∧
      LooseStep d (deallocStart s.mem d newsz) ((oldsz + 4095) / 4096) s g.noHuge s' g' := by
  rw [deallocuvm_run hd (hs.pde d o hd hdir _ (by omega)) hnew (by omega)]
  rcases loose_loop hs.loose hd hdir hold (deallocStart_slot newsz) (deallocStart_le (by omega)) (2 ^ 20 + 1) (by omega) (by omega)
    with ⟨e, s', i, g', hrun, hi, hne, hstep⟩ | ⟨s', g', hrun, hstep⟩
  · exact .inl ⟨e, s', i, g', by rw [bind_error hrun], hi, hne, hstep⟩
  · exact .inr ⟨s', g', by rw [bind_ok hrun, EStateM.run_pure], hstep⟩

/-- The first huge page of the range whose first word is odd. If the word names
no huge frame, `deallocuvm` stops there; otherwise the word is even afterwards. -/
theorem dealloc_at_odd {newsz i f : Nat} (hs : Sys s g) (hd : IsFrame d) (hdir : g.own d = .dir o)
    (hold : oldsz ≤ 0x80000000) (hnew : newsz < oldsz) (hlo : deallocStart s.mem d newsz ≤ 1024 * i)
    (hin : 0x400000 * i < oldsz) (hquiet : Quiet s.mem d (deallocStart s.mem d newsz) (1024 * i)) (hf : IsHuge f)
    (hpde : entry s.mem d i = f + 0x87) (hodd : entry s.mem f 0 % 2 = 1) :
    (¬ IsHuge (PTE_ADDR (entry s.mem f 0)) ∧ ∃ e s', (deallocuvm (P2V d) oldsz newsz).run s = .error e s' ∧
      s'.proc = s.proc ∧ (∀ i < 1024, entry s'.mem d i = entry s.mem d i) ∧
      ∀ x, IsHuge x → SameOn s.mem s'.mem x 0x400000) ∨
    IsHuge (PTE_ADDR (entry s.mem f 0)) ∧ entry (final ((deallocuvm (P2V d) oldsz newsz).run s)).mem f 0 % 2 = 0 := by
  have hbelow (k : Nat) (hk : k < 1024 * i) : 4096 * k < oldsz := by omega
  obtain ⟨k', n', s₁, g₁, hk', hk'', hn', hreach, hs₁, hswept⟩ :=
    dealloc_reach hd (show 1024 * i ≤ 2 ^ 19 by omega) hbelow (2 ^ 20 + 1) _ s g hs hdir hlo hquiet (by omega)
  obtain rfl : k' = 1024 * i := by omega
  obtain ⟨n, rfl⟩ : ∃ n, n' = n + 1 := ⟨n' - 1, by omega⟩
  have hdir₁ : g₁.own d = .dir o := hswept.dir.trans hdir
  have hpde₁ : entry s₁.mem d i = f + 0x87 := (hswept.entry_eq i (by omega)).trans hpde
  have hword : entry s₁.mem f 0 = entry s.mem f 0 := (hswept.hsame f hf id).load32_eq (by omega) (by omega)
  rw [deallocuvm_run hd (hs.pde d o hd hdir _ (by omega)) hnew (by omega), bind_congr_run hreach, deallocuvm.loop,
    if_pos (by omega)]
  rcases loose_step_huge hs₁.loose hd hdir₁ (by omega) hf hpde₁ with
    ⟨-, hnot, e, fr, hstep⟩ | ⟨s₂, hstep, hloose, hpast, ⟨heven, -⟩ | ⟨hx, -⟩⟩
  · rw [hword] at hnot
    exact .inl ⟨hnot, e, _, bind_error (bind_error hstep), by rw [hswept.rest], hswept.entry_eq,
      fun x hx => hswept.hsame x hx id⟩
  · omega
  · rw [hword] at hx
    have heven : entry s₂.mem f 0 % 2 = 0 := hpast.passed i (by omega) f le_rfl (by omega) hf hpde₁
    refine .inr ⟨hx, ?_⟩
    rcases loose_loop hloose hd hdir₁ hold (.inl (by omega)) (show 1024 * (i + 1) ≤ 2 ^ 19 by omega) n (by omega) (by omega)
      with ⟨e, s₃, _, _, hrun, -, -, hrest⟩ | ⟨s₃, _, hrun, hrest⟩
    · rw [bind_error ((bind_ok hstep).trans hrun)]
      exact hrest.even f hf heven
    · rw [bind_ok ((bind_ok hstep).trans hrun)]
      exact hrest.even f hf heven

end loose

end xv6
