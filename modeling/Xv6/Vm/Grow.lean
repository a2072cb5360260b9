import Xv6.Own.Bounds
import Xv6.Vm.Map
import Xv6.Vm.Unmap

open bytes outcome Function

namespace xv6

/-- The pages `lo` up to `hi` of directory `d` have been mapped to fresh frames. -/
structure Extended (d lo hi : Nat) (s : Machine) (g : Ghost) (s' : Machine) (g' : Ghost) : Prop
    extends UserStep d (fun _ => False) s g s' g' where
  mapped : ∀ k, lo ≤ k → k < hi → lookup s'.mem d k % 4096 = 7
  lookup_eq : ∀ k < 2 ^ 20, ¬ (lo ≤ k ∧ k < hi) → lookup s'.mem d k = lookup s.mem d k
  huge_eq : ∀ i < 1024, hugeAt s'.mem d i = hugeAt s.mem d i
  high_eq : ∀ i, 56 ≤ i → i < 1024 → entry s'.mem d i = entry s.mem d i
  pages : ∀ x i j, IsFrame x → g.own x = .page d i j → g'.own x = .page d i j ∧ SameOn s.mem s'.mem x 4096
  hown : g'.hown = g.hown
  hfree : g'.hfree = g.hfree
  frees : s'.frees = s.frees

/-- The user half of directory `d` maps exactly the pages below `lo` again. -/
structure Restored (d lo : Nat) (s : Machine) (g : Ghost) (s' : Machine) (g' : Ghost) : Prop
    extends UserStep d (fun _ => False) s g s' g' where
  lookup_eq : ∀ k < 2 ^ 20, lookup s'.mem d k = if lo ≤ k ∧ k < 2 ^ 19 then 0 else lookup s.mem d k
  huge_eq : ∀ i < 1024, hugeAt s'.mem d i = hugeAt s.mem d i
  high_eq : ∀ i, 56 ≤ i → i < 1024 → entry s'.mem d i = entry s.mem d i
  pages : ∀ x i j, IsFrame x → g.own x = .page d i j → 1024 * i + j < lo →
    g'.own x = .page d i j ∧ SameOn s.mem s'.mem x 4096
  hown : g'.hown = g.hown
  hfree : g'.hfree = g.hfree

/-- The frames that mapping the pages `lo` up to `hi` takes: one for each page,
and one for each page table that is missing. -/
def allocNeed (m : Mem) (d lo hi : Nat) : Nat :=
  hi - lo + ((Finset.range 1024).filter fun i =>
    max lo (1024 * i) < min hi (1024 * (i + 1)) ∧ entry m d i = 0).card

section alloc

variable {s s' : Machine} {g g' : Ghost} {d k lo hi f : Nat} {o : DirOwner} {L : List Nat} {m : Mem}

theorem Extended.refl (h : hi ≤ lo) : Extended d lo hi s g s g where
  toUserStep := UserStep.refl _ _ _ _
  mapped k hlo hhi := by omega
  lookup_eq _ _ _ := rfl
  huge_eq _ _ := rfl
  high_eq _ _ _ := rfl
  pages _ _ _ _ hpage := ⟨hpage, SameOn.refl _ _ _⟩
  hown := rfl
  hfree := rfl
  frees := rfl

theorem Grown.pages {v x i j : Nat} (h : Grown d k f v s g s' g') (hdir : g.own d = .dir o) (hx : IsFrame x)
    (hpage : g.own x = .page d i j) : g'.own x = .page d i j ∧ SameOn s.mem s'.mem x 4096 := by
  have hne : x ≠ d := by
    rintro rfl
    simp [hdir] at hpage
  exact ⟨(h.own x (by simp [hpage])).trans hpage, h.keep x hx hne (by simp [hpage]) (by simp [hpage])⟩

theorem Grown.extended {s'' : Machine} {g'' : Ghost} {v : Nat} (h : Grown d k f v s g s' g') (hdir : g.own d = .dir o)
    (hv : v % 4096 = 7) (hk : k < hi) (hlow : k < 57344) (h' : Extended d (k + 1) hi s' g' s'' g'') :
    Extended d k hi s g s'' g'' where
  toUserStep := h.toUserStep.trans h'.toUserStep
  mapped k' hlo hhi' := by
    by_cases hk' : k' = k
    · rw [h'.lookup_eq k' (by omega) (by omega), h.lookup_eq k' (by omega), if_pos hk', hv]
    · exact h'.mapped k' (by omega) hhi'
  lookup_eq k' hk' hout := by
    rw [h'.lookup_eq k' hk' (by omega), h.lookup_eq k' hk', if_neg (by omega)]
  huge_eq i hi := (h'.huge_eq i hi).trans (h.huge_eq i hi)
  high_eq i hlo hi := (h'.high_eq i hlo hi).trans (h.entry_eq i hi (by omega))
  pages x i j hx hpage := by
    obtain ⟨hpage', hsame⟩ := h.pages hdir hx hpage
    obtain ⟨hpage'', hsame'⟩ := h'.pages x i j hx hpage'
    exact ⟨hpage'', hsame.trans hsame'⟩
  hown := h'.hown.trans h.hown
  hfree := h'.hfree.trans h.hfree
  frees := h'.frees.trans h.frees

/-- Each page that is mapped takes one frame, and one more if it is the first of its page table. -/
theorem Grown.need {v : Nat} (h : Grown d k f v s g s' g') (hi : Nat) (hk : k < hi) (hlt : k < 2 ^ 20) :
    allocNeed s.mem d k hi + g'.free.length = allocNeed s'.mem d (k + 1) hi + g.free.length := by
  have hslot : k / 1024 < 1024 := by omega
  have hrange (i : Nat) (hne : i ≠ k / 1024) :
      max k (1024 * i) < min hi (1024 * (i + 1)) ↔ max (k + 1) (1024 * i) < min hi (1024 * (i + 1)) := by omega
  have hiff (i : Nat) (hi' : i < 1024) (hne : i ≠ k / 1024) :
      (max k (1024 * i) < min hi (1024 * (i + 1)) ∧ entry s.mem d i = 0) ↔
        max (k + 1) (1024 * i) < min hi (1024 * (i + 1)) ∧ entry s'.mem d i = 0 := by
    rw [hrange i hne, h.entry_eq i hi' hne]
  have hcard : ((Finset.range 1024).filter fun i =>
      max k (1024 * i) < min hi (1024 * (i + 1)) ∧ entry s.mem d i = 0).card =
      ((Finset.range 1024).filter fun i =>
        max (k + 1) (1024 * i) < min hi (1024 * (i + 1)) ∧ entry s'.mem d i = 0).card +
      if entry s.mem d (k / 1024) = 0 then 1 else 0 := by
    by_cases hz : entry s.mem d (k / 1024) = 0
    · rw [if_pos hz, ← Finset.card_insert_of_notMem (a := k / 1024)]
      · refine congrArg Finset.card (Finset.ext fun i => ?_)
        by_cases hne : i = k / 1024
        · subst hne
          simp only [Finset.mem_filter, Finset.mem_range, Finset.mem_insert, true_or, iff_true]
          exact ⟨hslot, by omega, hz⟩
        · simp only [Finset.mem_filter, Finset.mem_range, Finset.mem_insert, hne, false_or]
          exact and_congr_right fun hi' => hiff i hi' hne
      · simp [h.entry_ne]
    · rw [if_neg hz, Nat.add_zero]
      refine congrArg Finset.card (Finset.ext fun i => ?_)
      by_cases hne : i = k / 1024
      · subst hne
        simp [hz, h.entry_ne]
      · simp only [Finset.mem_filter, Finset.mem_range]
        exact and_congr_right fun hi' => hiff i hi' hne
  have hfree : g.free.length = g'.free.length + 1 + if entry s.mem d (k / 1024) = 0 then 1 else 0 := by
    rcases h.free with ⟨hz, hfree⟩ | ⟨hz, t, hfree⟩
    · rw [if_neg hz, hfree, List.length_cons]
    · rw [if_pos hz, hfree, List.length_cons, List.length_cons]
  simp only [allocNeed, hcard, hfree]
  omega

theorem allocNeed_pos (hk : k < hi) : 0 < allocNeed m d k hi := by
  simp only [allocNeed]
  omega

theorem allocNeed_table (hk : k < hi) (hlt : k < 2 ^ 20) (hz : entry m d (k / 1024) = 0) : 1 < allocNeed m d k hi := by
  have hin : k / 1024 ∈ (Finset.range 1024).filter fun i =>
      max k (1024 * i) < min hi (1024 * (i + 1)) ∧ entry m d i = 0 := by
    rw [Finset.mem_filter, Finset.mem_range]
    exact ⟨by omega, by omega, hz⟩
  have hpos := Finset.card_pos.2 ⟨_, hin⟩
  simp only [allocNeed]
  omega

theorem Restored.refl (h : ∀ k, lo ≤ k → k < 2 ^ 19 → lookup s.mem d k = 0) : Restored d lo s g s g where
  toUserStep := UserStep.refl _ _ _ _
  lookup_eq k _ := by
    split_ifs with hr
    · exact h k hr.1 hr.2
    · rfl
  huge_eq _ _ := rfl
  high_eq _ _ _ := rfl
  pages _ _ _ _ hpage _ := ⟨hpage, SameOn.refl _ _ _⟩
  hown := rfl
  hfree := rfl

/-- Cleaning up after a failed growth: everything from `lo` on is unmapped. -/
theorem Swept.restored {k' : Nat} (h : Swept d lo k' s g s' g') (hk' : k' ≤ 2 ^ 19)
    (hzero : ∀ k, k' ≤ k → k < 2 ^ 19 → lookup s.mem d k = 0) : Restored d lo s g s' g' where
  toUserStep := h.toUserStep
  lookup_eq k hk := by
    rw [h.lookup_eq k hk]
    by_cases hr : lo ≤ k ∧ k < k'
    · rw [if_pos hr, if_pos (by omega)]
    · rw [if_neg hr]
      by_cases hr' : lo ≤ k ∧ k < 2 ^ 19
      · rw [if_pos hr', hzero k (by omega) hr'.2]
      · rw [if_neg hr']
  huge_eq i hi := h.hugeAt_eq hi
  high_eq i _ hi := h.entry_eq i hi
  pages x i j hx hpage hlo := h.pages x i j hx hpage (.inl hlo)
  hown := h.hown
  hfree := h.hfree

theorem Extended.restored {s'' : Machine} {g'' : Ghost} (h : Extended d k hi s g s' g') (hk : lo ≤ k) (hhi : hi ≤ 2 ^ 19)
    (h' : Restored d lo s' g' s'' g'') : Restored d lo s g s'' g'' where
  toUserStep := h.toUserStep.trans h'.toUserStep
  lookup_eq k' hk' := by
    rw [h'.lookup_eq k' hk']
    split_ifs with hin
    · rfl
    · exact h.lookup_eq k' hk' (by omega)
  huge_eq i hi := (h'.huge_eq i hi).trans (h.huge_eq i hi)
  high_eq i hlo hi := (h'.high_eq i hlo hi).trans (h.high_eq i hlo hi)
  pages x i j hx hpage hlt := by
    obtain ⟨hpage', hsame⟩ := h.pages x i j hx hpage
    obtain ⟨hpage'', hsame'⟩ := h'.pages x i j hx hpage' hlt
    exact ⟨hpage'', hsame.trans hsame'⟩
  hown := h'.hown.trans h.hown
  hfree := h'.hfree.trans h.hfree

/-- A frame that was taken before a step on the user half is freed after it. -/
theorem Restored.giveBack (hs : Sys s g) (hd : IsFrame d) (hdir : g.own d = .dir o)
    (hfree : g.free = f :: L) (hm : ∀ x, IsFrame x → x ≠ f → SameOn s.mem m x 4096)
    (hhm : ∀ x, IsHuge x → SameOn s.mem m x 0x400000) (hs' : Sys s' g')
    (h : Restored d lo (s.popped f m) (g.popped f L) s' g') :
    ∃ g'', Sys (s'.freed f) g'' ∧ Restored d lo s g (s'.freed f) g'' := by
  obtain ⟨hf, hrole⟩ := (hs.mem_free f).1 (by simp [hfree])
  have hdf : d ≠ f := by
    rintro rfl
    simp [hdir] at hrole
  have hown (x : Nat) (hx : x ≠ f) : (g.popped f L).own x = g.own x := update_of_ne hx _ _
  have hdir' : g'.own d = .dir o := h.dir.trans ((hown d hdf).trans hdir)
  have htemp : g'.own f = .temp := by
    have hpop : (g.popped f L).own f = .temp := update_self _ _ _
    rcases h.role f hf with ⟨harea, _⟩ | heq
    · rw [hpop] at harea
      simp [UserArea, hdf.symm] at harea
    · rw [heq, hpop]
  have htables (t i : Nat) (ht : IsFrame t) (htab : g.own t = .table d i) : SameOn s.mem m t 4096 := by
    refine hm t ht ?_
    rintro rfl
    simp [hrole] at htab
  have hview := hs.view_congr hd hdir (hm d hd hdf) htables
  have hview' := hs'.view_congr (m := (s'.freed f).mem) hd hdir' (freed_sameOn hf hd hdf)
    fun t i ht htable => by
      refine freed_sameOn hf ht ?_
      rintro rfl
      simp [htemp] at htable
  refine ⟨_, hs'.push hf htemp, ?_⟩
  exact
    { role := by
        intro x hx
        by_cases hxf : x = f
        · subst hxf
          exact .inl ⟨.inr (.inl hrole), .inr (.inl (update_self _ _ _))⟩
        · change UserArea d x (g.own x) ∧ UserArea d x (update g'.own f .free x) ∨
            update g'.own f .free x = g.own x
          rw [update_of_ne hxf, ← hown x hxf]
          exact h.role x hx
      same := by
        intro x hx hout
        have hxf : x ≠ f := by
          rintro rfl
          exact hout (.inr (.inl hrole))
        rw [← hown x hxf] at hout
        exact ((hm x hx hxf).trans (h.same x hx hout)).trans (freed_sameOn hf hx hxf)
      hrole := fun x _ => .inr (congrFun h.hown x)
      hsame := fun x hx _ => ((hhm x hx).trans (h.hsame x hx id)).trans (freed_sameOn_huge hf hx)
      rest := by
        have hrest := h.rest
        simp only [Machine.freed, Machine.popped] at hrest ⊢
        rw [hrest]
      dir := by
        change update g'.own f .free d = g.own d
        rw [update_of_ne hdf, hdir', hdir]
      kern := fun i hlo hi => (entry_eq_of_sameOn (freed_sameOn hf hd hdf) hi).trans
        ((h.kern i hlo hi).trans (entry_eq_of_sameOn (hm d hd hdf) hi))
      lookup_eq := by
        intro k hk
        rw [hview'.1 k hk, h.lookup_eq k hk]
        change (if _ then _ else lookup m d k) = _
        rw [hview.1 k hk]
      huge_eq := fun i hi => (hview'.2 i hi).trans ((h.huge_eq i hi).trans (hview.2 i hi))
      high_eq := fun i hlo hi => (entry_eq_of_sameOn (freed_sameOn hf hd hdf) hi).trans
        ((h.high_eq i hlo hi).trans (entry_eq_of_sameOn (hm d hd hdf) hi))
      pages := by
        intro x i j hx hpage hlt
        have hxf : x ≠ f := by
          rintro rfl
          simp [hrole] at hpage
        obtain ⟨hpage', hsame⟩ := h.pages x i j hx ((hown x hxf).trans hpage) hlt
        exact ⟨(update_of_ne hxf _ _).trans hpage', ((hm x hx hxf).trans hsame).trans (freed_sameOn hf hx hxf)⟩
      hown := h.hown
      hfree := h.hfree }

theorem user_entry_or (hf : f % 4096 = 0) : f ||| (PTE_W ||| PTE_U) ||| PTE_P = f + 7 := by
  have h := Nat.two_pow_add_eq_or_of_lt (i := 12) (b := 7) (by omega) (f / 4096)
  rw [Nat.or_assoc, show PTE_W ||| PTE_U ||| PTE_P = 7 from rfl]
  rw [show 2 ^ 12 * (f / 4096) = f by omega] at h
  exact h.symm

/-- The user half is mapped without gaps up to page `lo`, and no 4MB entry is
in the part that base pages can reach. -/
structure Dense (m : Mem) (d lo : Nat) : Prop where
  below : ∀ k < lo, lookup m d k ≠ 0
  above : ∀ k, lo ≤ k → k < 2 ^ 19 → lookup m d k = 0
  base : ∀ i < 120, hugeAt m d i = 0

theorem Dense.lt (h : Dense s.mem d lo) (hs : Sys s g) (hd : IsFrame d) (hdir : g.own d = .dir o)
    (hlo : lo ≤ 2 ^ 19) : lo ≤ 57065 := hs.pages_le hd hdir hlo h.below

theorem Dense.deallocStart_eq (h : Dense s.mem d k) (hs : Sys s g) (hd : IsFrame d)
    (hdir : g.own d = .dir o) (hk : k ≤ 2 ^ 19) {oldsz : Nat} (hlo : (oldsz + 4095) / 4096 ≤ k) :
    deallocStart s.mem d oldsz = (oldsz + 4095) / 4096 := by
  have hlt := h.lt hs hd hdir hk
  rw [deallocStart, if_pos (h.base _ (by omega))]

theorem Grown.dense {v : Nat} (h : Grown d k f v s g s' g') (hdense : Dense s.mem d k)
    (hv : v ≠ 0) (hk : k < 2 ^ 19) : Dense s'.mem d (k + 1) where
  below k' hk' := by
    rw [h.lookup_eq k' (by omega)]
    split_ifs with heq
    · exact hv
    · exact hdense.below k' (by omega)
  above k' hlo hhi := by
    rw [h.lookup_eq k' (by omega), if_neg (by omega)]
    exact hdense.above k' (by omega) hhi
  base i hi := by
    rw [h.huge_eq i (by omega)]
    exact hdense.base i hi

theorem Quiet.of_hsame {m' : Mem} (h : Quiet m d lo hi) (hhi : hi ≤ 2 ^ 19) (hlo : lo / 1024 < 1024)
    (hhuge : ∀ i < 1024, hugeAt m' d i = hugeAt m d i)
    (hsame : ∀ f, IsHuge f → SameOn m m' f 0x400000) : Quiet m' d lo hi := by
  refine ⟨h.1.imp id fun h => (hhuge _ hlo).trans h, fun i f hi hi' hf hpde => ?_⟩
  have heq : entry m' f 0 = entry m f 0 := (hsame f hf).load32_eq (by omega) (by omega)
  have halign := hf.1
  have hat : hugeAt m' d i = f + 0x87 := by
    rw [hugeAt_of_huge (by omega) (by omega), hpde]
  rw [hhuge i (by omega)] at hat
  have hent := (hugeAt_ne_zero_iff (m := m) (d := d) (i := i)).1 (by omega)
  rw [hugeAt_of_huge hent.1 hent.2] at hat
  rw [heq]
  exact h.2 i f hi hi' hf hat

/-- A failed `kalloc` or `mappages` in the loop of `allocuvm` is followed by the
unmapping of everything the loop had added. -/
theorem dealloc_restored {oldsz newsz : Nat} (hs : Sys s g) (hd : IsFrame d) (hdir : g.own d = .dir o)
    (hnew : newsz ≤ 0x80000000) (hk : k < (newsz + 4095) / 4096) (hlo : (oldsz + 4095) / 4096 ≤ k)
    (hdense : Dense s.mem d k)
    (hquiet : Quiet s.mem d ((oldsz + 4095) / 4096) ((newsz + 4095) / 4096)) :
    ∃ s' g', (deallocuvm (P2V d) newsz oldsz).run s = .ok oldsz s' ∧ Sys s' g' ∧
      Restored d ((oldsz + 4095) / 4096) s g s' g' := by
  have hstart := hdense.deallocStart_eq hs hd hdir (by omega) hlo
  rw [← hstart] at hquiet
  obtain ⟨s', g', hrun, hs', hswept⟩ := deallocuvm_spec hs hd hdir hnew (by omega) hquiet
  rw [hstart] at hswept
  exact ⟨s', g', hrun, hs', hswept.restored (by omega) fun k hk hk' => hdense.above k (by omega) hk'⟩

/-- The loop of `allocuvm` up to the point where it is done, or where there is no
frame left for a page or for its page table. -/
theorem allocuvm_rounds (hd : IsFrame d) {newsz : Nat} (hnew : newsz ≤ 0x80000000) (oldsz n : Nat) :
    ∀ (k : Nat) (s : Machine) (g : Ghost), Sys s g → g.own d = .dir o → k ≤ (newsz + 4095) / 4096 →
      (newsz + 4095) / 4096 - k < n → Dense s.mem d k →
      (∃ s' g', (allocuvm.loop (P2V d) oldsz newsz n (4096 * k)).run s = .ok newsz s' ∧ Sys s' g' ∧
        Extended d k ((newsz + 4095) / 4096) s g s' g' ∧
        allocNeed s.mem d k ((newsz + 4095) / 4096) ≤ g.free.length) ∨
      ∃ k' s' g', k ≤ k' ∧ k' < (newsz + 4095) / 4096 ∧ Sys s' g' ∧ Extended d k k' s g s' g' ∧ Dense s'.mem d k' ∧
        g.free.length < allocNeed s.mem d k ((newsz + 4095) / 4096) ∧
        ((allocuvm.loop (P2V d) oldsz newsz n (4096 * k)).run s =
            (do
              let _ ← deallocuvm (P2V d) newsz oldsz
              return 0 : KernelM Nat).run s' ∨
          ∃ f, g'.free = [f] ∧ (allocuvm.loop (P2V d) oldsz newsz n (4096 * k)).run s =
            (do
              let _ ← deallocuvm (P2V d) newsz oldsz
              kfree (P2V f)
              return 0 : KernelM Nat).run (s'.popped f (fill s'.mem f 0 4096))) := by
  induction n with
  | zero =>
    intro k s g _ _ _ hn
    omega
  | succ n ih =>
    intro k s g hs hdir hk hn hdense
    by_cases hdone : k = (newsz + 4095) / 4096
    · left
      refine ⟨s, g, ?_, hs, Extended.refl (by omega), ?_⟩
      · rw [allocuvm.loop, if_neg (by omega), EStateM.run_pure]
      · have hnone : ((Finset.range 1024).filter fun i =>
            max k (1024 * i) < min ((newsz + 4095) / 4096) (1024 * (i + 1)) ∧ entry s.mem d i = 0) = ∅ :=
          Finset.filter_eq_empty_iff.2 fun i _ h => by omega
        rw [allocNeed, hnone, Finset.card_empty]
        omega
    · have hklt := hdense.lt hs hd hdir (by omega)
      have hnext : u32 (4096 * k + PGSIZE) = 4096 * (k + 1) := by
        simp only [u32, PGSIZE]
        omega
      cases hfree : g.free with
      | nil =>
        right
        refine ⟨k, s, g, le_rfl, by omega, hs, Extended.refl le_rfl, hdense, allocNeed_pos (by omega), .inl ?_⟩
        rw [allocuvm.loop, if_pos (by omega), bind_ok (kalloc_nil hs hfree), if_pos rfl]
      | cons f L =>
        obtain ⟨hf, _⟩ := (hs.mem_free f).1 (by simp [hfree])
        have hflt := hf.lt
        have hne : ¬ P2V f = 0 := P2V_ne_zero (by omega)
        have hv : V2P (P2V f) = f := V2P_P2V (by omega)
        have hround : (allocuvm.loop (P2V d) oldsz newsz (n + 1) (4096 * k)).run s =
            (do
              if (← mappages (P2V d) (4096 * k) PGSIZE f (PTE_W ||| PTE_U)) < 0 then
                let _ ← deallocuvm (P2V d) newsz oldsz
                kfree (P2V f)
                return 0
              else
                allocuvm.loop (P2V d) oldsz newsz n (4096 * (k + 1)) : KernelM Nat).run
              (s.popped f (fill s.mem f 0 4096)) := by
          rw [allocuvm.loop, if_pos (by omega), bind_ok (kalloc_cons hs hfree), if_neg hne, memset_bind, hv,
            hnext]
          rfl
        rcases mappages_fresh hs hd hdir (by omega) (hdense.base _ (by omega))
            (hdense.above k le_rfl (by omega)) hfree (fun x hx hxf => fill_sameOn_frame hf hx hxf)
            (fun x hx => fill_sameOn_huge hf hx) (show 7 < 4096 by omega) rfl
            (user_entry_or hf.1) with ⟨s₁, g₁, hmap, hs₁, _, hgrown⟩ | ⟨hmap, hnil, hzero⟩
        · have hneed := hgrown.need ((newsz + 4095) / 4096) (by omega) (by omega)
          have hext {k' : Nat} {s' : Machine} {g' : Ghost} (hk' : k < k') (h : Extended d (k + 1) k' s₁ g₁ s' g') :
              Extended d k k' s g s' g' :=
            hgrown.extended hdir (by have := hf.1; omega) hk' (by omega) h
          rw [hround, bind_ok hmap, if_neg (by omega)]
          rw [← hfree]
          rcases ih (k + 1) s₁ g₁ hs₁ (hgrown.dir.trans hdir) (by omega) (by omega)
              (hgrown.dense hdense (by omega) (by omega)) with
            ⟨s', g', hrun, hs', h, hle⟩ | ⟨k', s', g', hlo, hhi, hs', h, hdense', hlt, hrun⟩
          · exact .inl ⟨s', g', hrun, hs', hext (by omega) h, by omega⟩
          · exact .inr ⟨k', s', g', by omega, hhi, hs', hext (by omega) h, hdense', by omega, hrun⟩
        · right
          subst hnil
          refine ⟨k, s, g, le_rfl, by omega, hs, Extended.refl le_rfl, hdense, allocNeed_table (by omega) (by omega) hzero,
            .inr ⟨f, hfree, ?_⟩⟩
          rw [hround, bind_ok hmap, if_pos (by omega)]

/-- A frame that has been taken for a page whose page table is missing. -/
theorem Dense.popped (hdense : Dense s.mem d k) (hs : Sys s g) (hd : IsFrame d) (hdir : g.own d = .dir o)
    (hk : k ≤ 2 ^ 19) (hfree : g.free = [f]) :
    Sys (s.popped f (fill s.mem f 0 4096)) (g.popped f []) ∧ (g.popped f []).own d = .dir o ∧
      Dense (s.popped f (fill s.mem f 0 4096)).mem d k ∧
      ∀ i < 1024, entry (s.popped f (fill s.mem f 0 4096)).mem d i = entry s.mem d i := by
  obtain ⟨hf, hrole⟩ := (hs.mem_free f).1 (by simp [hfree])
  have hm (x : Nat) (hx : IsFrame x) (hxf : x ≠ f) : SameOn s.mem (fill s.mem f 0 4096) x 4096 :=
    fill_sameOn_frame hf hx hxf
  have hdf : d ≠ f := by
    rintro rfl
    simp [hdir] at hrole
  have hview := hs.view_congr hd hdir (hm d hd hdf) fun t i ht htab => by
    refine hm t ht ?_
    rintro rfl
    simp [htab] at hrole
  refine ⟨hs.popped hfree hm fun x hx => fill_sameOn_huge hf hx, (update_of_ne hdf _ _).trans hdir,
    ⟨fun k' hk' => ?_, fun k' h h' => ?_, fun i hi => ?_⟩, fun i hi => entry_eq_of_sameOn (hm d hd hdf) hi⟩
  · rw [Machine.popped, hview.1 k' (by omega)]
    exact hdense.below k' hk'
  · rw [Machine.popped, hview.1 k' (by omega)]
    exact hdense.above k' h h'
  · rw [Machine.popped, hview.2 i (by omega)]
    exact hdense.base i hi

/-- The clean-up after the loop of `allocuvm` has run out of frames. -/
theorem allocuvm_undo {oldsz newsz : Nat} (hs : Sys s g) (hd : IsFrame d) (hdir : g.own d = .dir o)
    (hnew : newsz ≤ 0x80000000) (hlo : (oldsz + 4095) / 4096 ≤ k) (hk : k < (newsz + 4095) / 4096)
    (hdense : Dense s.mem d k) (hquiet : Quiet s.mem d ((oldsz + 4095) / 4096) ((newsz + 4095) / 4096))
    (hfree : g.free = [f]) :
    ∃ s' g', (do
        let _ ← deallocuvm (P2V d) newsz oldsz
        kfree (P2V f)
        return 0 : KernelM Nat).run (s.popped f (fill s.mem f 0 4096)) = .ok 0 s' ∧ Sys s' g' ∧
      Restored d ((oldsz + 4095) / 4096) s g s' g' := by
  obtain ⟨hf, -⟩ := (hs.mem_free f).1 (by simp [hfree])
  have hhm (x : Nat) (hx : IsHuge x) : SameOn s.mem (fill s.mem f 0 4096) x 0x400000 := fill_sameOn_huge hf hx
  obtain ⟨hs₁, hdir₁, hdense₁, hentry⟩ := hdense.popped hs hd hdir (by omega) hfree
  obtain ⟨s₂, g₂, hrun, hs₂, hres⟩ := dealloc_restored hs₁ hd hdir₁ hnew hk hlo hdense₁
    (hquiet.of_hsame (by omega) (by omega) (fun i hi => hugeAt_congr (hentry i hi)) hhm)
  obtain ⟨g₃, hs₃, hback⟩ := hres.giveBack hs hd hdir hfree (fun x hx hxf => fill_sameOn_frame hf hx hxf) hhm hs₂
  exact ⟨_, g₃, by rw [bind_ok hrun, bind_ok (kfree_run hf s₂), EStateM.run_pure], hs₃, hback⟩

/-- The loop of `allocuvm`: either all pages up to `newsz` get mapped, or the
memory runs out and the pages from `oldsz` on are unmapped again. -/
theorem allocuvm_loop (hd : IsFrame d) {oldsz newsz : Nat} (hnew : newsz ≤ 0x80000000) (hs : Sys s g)
    (hdir : g.own d = .dir o) (hle : (oldsz + 4095) / 4096 ≤ (newsz + 4095) / 4096)
    (hdense : Dense s.mem d ((oldsz + 4095) / 4096))
    (hquiet : Quiet s.mem d ((oldsz + 4095) / 4096) ((newsz + 4095) / 4096)) :
    (allocNeed s.mem d ((oldsz + 4095) / 4096) ((newsz + 4095) / 4096) ≤ g.free.length ∧
      ∃ s' g', (allocuvm.loop (P2V d) oldsz newsz (2 ^ 20 + 1) (4096 * ((oldsz + 4095) / 4096))).run s = .ok newsz s' ∧
        Sys s' g' ∧ Extended d ((oldsz + 4095) / 4096) ((newsz + 4095) / 4096) s g s' g') ∨
    g.free.length < allocNeed s.mem d ((oldsz + 4095) / 4096) ((newsz + 4095) / 4096) ∧
      ∃ s' g', (allocuvm.loop (P2V d) oldsz newsz (2 ^ 20 + 1) (4096 * ((oldsz + 4095) / 4096))).run s = .ok 0 s' ∧
        Sys s' g' ∧ Restored d ((oldsz + 4095) / 4096) s g s' g' := by
  rcases allocuvm_rounds hd hnew oldsz (2 ^ 20 + 1) _ s g hs hdir hle (by omega) hdense with
    ⟨s', g', hrun, hs', hext, hneed⟩ | ⟨k, s₁, g₁, hlo, hhi, hs₁, hext, hdense₁, hneed, hrun⟩
  · exact .inl ⟨hneed, s', g', hrun, hs', hext⟩
  · right
    refine ⟨hneed, ?_⟩
    have hdir₁ := hext.dir.trans hdir
    have hquiet₁ := hquiet.of_hsame (by omega) (by omega) hext.huge_eq fun x hx => hext.hsame x hx id
    rcases hrun with hrun | ⟨f, hfree, hrun⟩
    · obtain ⟨s', g', hundo, hs', hres⟩ := dealloc_restored hs₁ hd hdir₁ hnew hhi hlo hdense₁ hquiet₁
      exact ⟨s', g', by rw [hrun, bind_ok hundo, EStateM.run_pure], hs', hext.restored le_rfl (by omega) hres⟩
    · obtain ⟨s', g', hundo, hs', hres⟩ := allocuvm_undo hs₁ hd hdir₁ hnew hlo hhi hdense₁ hquiet₁ hfree
      exact ⟨s', g', hrun.trans hundo, hs', hext.restored le_rfl (by omega) hres⟩

/-- `allocuvm` grows the base heap to `newsz`, does nothing, or leaves it at `oldsz`. -/
theorem allocuvm_spec {oldsz newsz : Nat} (hs : Sys s g) (hd : IsFrame d) (hdir : g.own d = .dir o)
    (hold : oldsz ≤ 0x80000000) (hdense : Dense s.mem d ((oldsz + 4095) / 4096))
    (hquiet : newsz < 0x80000000 → Quiet s.mem d ((oldsz + 4095) / 4096) ((newsz + 4095) / 4096)) :
    (oldsz ≤ newsz ∧ newsz < 0x80000000 ∧
      allocNeed s.mem d ((oldsz + 4095) / 4096) ((newsz + 4095) / 4096) ≤ g.free.length ∧
      ∃ s' g', (allocuvm (P2V d) oldsz newsz).run s = .ok newsz s' ∧ Sys s' g' ∧
        Extended d ((oldsz + 4095) / 4096) ((newsz + 4095) / 4096) s g s' g') ∨
    (newsz < oldsz ∧ (allocuvm (P2V d) oldsz newsz).run s = .ok oldsz s) ∨
    (newsz < 0x80000000 → g.free.length < allocNeed s.mem d ((oldsz + 4095) / 4096) ((newsz + 4095) / 4096)) ∧
    ∃ s' g', (allocuvm (P2V d) oldsz newsz).run s = .ok 0 s' ∧ Sys s' g' ∧
      Restored d ((oldsz + 4095) / 4096) s g s' g' := by
  unfold allocuvm
  by_cases hkern : newsz ≥ KERNBASE
  · right; right
    simp only [KERNBASE] at hkern
    exact ⟨fun hlt => by omega, s, g, by rw [if_pos hkern, EStateM.run_pure], hs, .refl hdense.above⟩
  · rw [if_neg hkern]
    simp only [KERNBASE] at hkern
    by_cases hshrink : newsz < oldsz
    · right; left
      exact ⟨hshrink, by rw [if_pos hshrink, EStateM.run_pure]⟩
    · have hround : PGROUNDUP oldsz = 4096 * ((oldsz + 4095) / 4096) := by
        simp only [PGROUNDUP, u32, PGSIZE]
        omega
      rw [if_neg hshrink, hround]
      rcases allocuvm_loop hd (by omega) hs hdir (by omega) hdense (hquiet (by omega)) with ⟨hneed, h⟩ | ⟨hneed, h⟩
      · exact .inl ⟨by omega, by omega, hneed, h⟩
      · exact .inr (.inr ⟨fun _ => hneed, h⟩)

end alloc

end xv6
