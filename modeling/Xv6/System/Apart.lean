import Xv6.System.HugeExact

open bytes outcome Function

namespace xv6

/-- The base heap of process `p` is the same in two states. -/
def BaseKept (p : Fin NPROC) (s s' : Machine) : Prop :=
  (s'.proc p).sz = (s.proc p).sz ∧ SameBase (V2P (s.proc p).pgdir) s.mem s'.mem

/-- The huge heap of process `p` is the same in two states. -/
def HugeKept (p : Fin NPROC) (s s' : Machine) : Prop :=
  (s'.proc p).hugesz = (s.proc p).hugesz ∧ SameHuge (V2P (s.proc p).pgdir) s.mem s'.mem

/-- The first word of the huge page in slot `i` of process `p`. -/
def firstWord (s : Machine) (p : Fin NPROC) (i : Nat) : Nat :=
  load32 s.mem (PTE_ADDR (hugeAt s.mem (V2P (s.proc p).pgdir) i))

/-- No base page starts between the new and the old size of a huge heap that
shrinks. The sizes are taken for addresses there. -/
def BaseApart (s : Machine) (p : Fin NPROC) (n : Int) : Prop :=
  n < 0 → 0 ≤ ((s.proc p).hugesz : Int) + n →
    ∀ k : Nat, ((s.proc p).hugesz : Int) + n ≤ (4096 * k : Nat) → 4096 * k < (s.proc p).hugesz → (s.proc p).sz ≤ 4096 * k

/-- If the base heap grows and the frames do not suffice, then the first huge
page below its new end whose first word is odd, if any, does not have the
address of a huge frame in that word. -/
def HugeApart (s : Machine) (p : Fin NPROC) (n : Int) (avail : Nat) : Prop :=
  0 < n → ((s.proc p).sz : Int) + n < KERNBASE →
    avail < allocNeed s.mem (V2P (s.proc p).pgdir) (((s.proc p).sz + 4095) / 4096)
      (((s.proc p).sz + n.toNat + 4095) / 4096) →
    ∀ i : Nat, 120 ≤ i → 0x400000 * (i - 120) < (s.proc p).hugesz → ((0x400000 * i : Nat) : Int) < (s.proc p).sz + n →
      firstWord s p i % 2 = 1 → (∀ j, 120 ≤ j → j < i → firstWord s p j % 2 = 0) → ¬ IsHuge (PTE_ADDR (firstWord s p i))

section base

variable {s s' : Machine} {g g' : Ghost} {p : Fin NPROC} {d lo hi : Nat} {n : Int}

theorem keepsBase_iff (hd : ProcDir s g p d) {t : Machine} (h : final ((growhugeproc p n).run s) = t)
    (hsz : (t.proc p).sz = (s.proc p).sz) : Keeps (BaseKept p) (growhugeproc p n) s ↔ SameBase d s.mem t.mem := by
  have hdlt := hd.frame.lt
  unfold Keeps BaseKept
  rw [h, hd.pgdir, V2P_P2V (by omega)]
  exact and_iff_right hsz

theorem HugeExtended.sameBase (h : HugeExtended d lo hi s g s' g') (hs : Sys s g) (hd : ProcDir s g p d) :
    SameBase d s.mem s'.mem := by
  refine ⟨fun k hk => h.lookup_eq k (by omega), fun k hk hne => ?_⟩
  obtain ⟨f, fl, hf, hrole, hfl, -, heq⟩ := (hs.lookup_user hd.frame hd.role hk).resolve_left hne
  rw [heq, PTE_ADDR_add hf.1 hfl]
  refine h.frameSame f hf ?_
  rintro rfl
  simp [hd.role] at hrole

/-- The steps of `deallocuvm` over a range keep the base pages if there are none in the range. -/
theorem LooseStep.sameBase_iff (h : LooseStep d lo hi s g.noHuge s' g') (hs : Sys s g) (hd : ProcDir s g p d) :
    SameBase d s.mem s'.mem ↔ ∀ k < 2 ^ 19, lo ≤ k → k < hi → lookup s.mem d k = 0 := by
  constructor
  · intro hsame k hk hlo hhi
    rw [← hsame.lookup_eq k hk, h.lookup_eq k (by omega), if_pos ⟨hlo, hhi⟩]
  · intro hnone
    refine ⟨fun k hk => ?_, fun k hk hne => ?_⟩
    · rw [h.lookup_eq k (by omega)]
      split_ifs with hin
      · exact (hnone k hk hin.1 hin.2).symm
      · rfl
    · obtain ⟨f, fl, hf, hrole, hfl, -, heq⟩ := (hs.lookup_user hd.frame hd.role hk).resolve_left hne
      rw [heq, PTE_ADDR_add hf.1 hfl]
      refine (h.pages f _ _ hf hrole ?_).2
      by_contra hin
      exact hne (hnone k hk (by omega) (by omega))

/-- All base pages lie below the huge heap, so that `deallocuvm` has passed them
when it stops at a huge page. -/
theorem LooseStep.sameBase_iff_apart {newsz : Nat} (h : LooseStep d (deallocStart s.mem d newsz) hi s g.noHuge s' g')
    (hs : Sys s g) (hd : ProcDir s g p d) (hneg : n < 0) (hnew : ((s.proc p).hugesz : Int) + n = newsz)
    (hhi : hi ≤ ((s.proc p).hugesz + 4095) / 4096) (hpast : hi = ((s.proc p).hugesz + 4095) / 4096 ∨ 1024 * 120 ≤ hi) :
    SameBase d s.mem s'.mem ↔ BaseApart s p n := by
  have hl := hd.layout
  have hsz := hl.sz_le hs hd.frame hd.role
  have hhuge := hl.hugesz_le hs hd.frame hd.role
  have hstart : deallocStart s.mem d newsz = (newsz + 4095) / 4096 ∨
      (newsz + 4095) / 4096 ≤ deallocStart s.mem d newsz ∧ (s.proc p).sz ≤ newsz := by
    rw [deallocStart]
    split_ifs with hz
    · exact .inl rfl
    · have := (hl.huge _ (by omega)).1 hz
      exact .inr ⟨by omega, by omega⟩
  rw [h.sameBase_iff hs hd]
  constructor
  · intro hnone _ _ k hlo hlt
    by_contra hpage
    exact (hl.base k (by omega)).2 (by omega) (hnone k (by omega) (by omega) (by omega))
  · intro hapart k hk hlo hlt
    by_contra hne
    have hpage := (hl.base k hk).1 hne
    have := hapart hneg (by omega) k (by omega) (by omega)
    omega

theorem keepsBase_iff_apart (hs : Sys s g) (hd : ProcDir s g p d) (hkstack : (s.proc p).kstack ≠ 0) (hlo : -2 ^ 31 ≤ n)
    (hhi : n < 2 ^ 31) : Keeps (BaseKept p) (growhugeproc p n) s ↔ BaseApart s p n := by
  have hhuge := hd.layout.hugesz_le hs hd.frame hd.role
  rcases lt_trichotomy n 0 with hneg | rfl | hpos
  · by_cases hwrap : ((s.proc p).hugesz : Int) + n < 0
    · have hapart : BaseApart s p n := fun _ h => by omega
      have hrun := growhugeproc_wrap hs hd hkstack hlo hwrap
      split_ifs at hrun
      · exact iff_of_true ((keepsBase_iff hd (congrArg final hrun) rfl).2 (.refl _ _)) hapart
      · refine iff_of_true ((keepsBase_iff hd (congrArg final hrun) ?_).2 ?_) hapart
        · simp only [final, Machine.resized_proc]
        · simp only [final, Machine.resized_mem]
          exact .refl _ _
    · obtain ⟨newsz, hnew⟩ : ∃ newsz : Nat, ((s.proc p).hugesz : Int) + n = newsz :=
        ⟨((s.proc p).hugesz + n).toNat, by omega⟩
      have hadd : addInt (s.proc p).hugesz n = newsz := by
        have := addInt_eq (a := (s.proc p).hugesz) (n := n) (by omega) (by omega)
        omega
      have hshrink := growhugeproc_shrink hd hneg
      rw [hadd] at hshrink
      rcases dealloc_loose hs hd.frame hd.role (show (s.proc p).hugesz ≤ 0x80000000 by omega)
          (show newsz < (s.proc p).hugesz by omega) with
        ⟨e, s', i, g', hrun, hin, hne, hstep⟩ | ⟨s', g', hrun, hstep⟩
      · have hslot := (hd.layout.huge i (by omega)).1 hne
        rw [keepsBase_iff hd (congrArg final (hshrink.trans (bind_error hrun))) (by rw [final, hstep.rest]), final]
        exact hstep.sameBase_iff_apart hs hd hneg hnew (by omega) (.inr (by omega))
      · rw [← hstep.sameBase_iff_apart hs hd hneg hnew (Nat.le_refl _) (.inl rfl)]
        have hsame : s'.proc p = s.proc p := by rw [hstep.rest]
        rw [bind_ok hrun] at hshrink
        split_ifs at hshrink
        · exact keepsBase_iff hd (congrArg final hshrink) (congrArg Proc.sz hsame)
        · rw [commit_hugesz _ (hsame ▸ hd.pgdir_ne) (hsame ▸ hkstack)] at hshrink
          rw [keepsBase_iff hd (congrArg final hshrink) (by simp only [final, Machine.resized_proc, hsame])]
          simp only [final, Machine.resized_mem]
  · refine iff_of_true ((keepsBase_iff hd (congrArg final (growhugeproc_none hd hkstack)) ?_).2 ?_) fun h => by omega
    · simp only [final, Machine.resized_proc]
    · simp only [final, Machine.resized_mem]
      exact .refl _ _
  · obtain ⟨m, rfl⟩ : ∃ m : Nat, n = m := ⟨n.toNat, by omega⟩
    obtain ⟨s', g', hs', hext, hrun⟩ := growhugeproc_grow (m := m) hs hd hkstack (by omega) (by omega)
    have hsame : s'.proc p = s.proc p := by rw [hext.rest]
    have hbase := hext.sameBase hs hd
    refine iff_of_true ?_ fun h => absurd h (by omega)
    split_ifs at hrun
    · refine (keepsBase_iff hd (congrArg final hrun) ?_).2 ?_
      · simp only [final, Machine.resized_proc, hsame]
      · simpa only [final, Machine.resized_mem] using hbase
    · exact (keepsBase_iff hd (congrArg final hrun) (congrArg Proc.sz hsame)).2 hbase
    · exact (keepsBase_iff hd (congrArg final hrun) (congrArg Proc.sz hsame)).2 hbase

end base

section huge

variable {s s' : Machine} {g g' : Ghost} {p : Fin NPROC} {d m : Nat} {n : Int}

theorem keepsHuge_iff (hd : ProcDir s g p d) {t : Machine} (h : final ((growproc p n).run s) = t)
    (hsz : (t.proc p).hugesz = (s.proc p).hugesz) : Keeps (HugeKept p) (growproc p n) s ↔ SameHuge d s.mem t.mem := by
  have hdlt := hd.frame.lt
  unfold Keeps HugeKept
  rw [h, hd.pgdir, V2P_P2V (by omega)]
  exact and_iff_right hsz

theorem firstWord_eq (hd : ProcDir s g p d) {i f : Nat} (hf : IsHuge f) (hat : hugeAt s.mem d i = f + 0x87) :
    firstWord s p i = entry s.mem f 0 := by
  have hdlt := hd.frame.lt
  have halign := hf.1
  rw [firstWord, hd.pgdir, V2P_P2V (by omega), hat, PTE_ADDR_add (by omega) (by omega), entry, Nat.mul_zero, Nat.add_zero]

/-- The clean-up of a growth for which the frames do not suffice, when some huge page in its range has an odd first word. -/
theorem keepsHuge_iff_odd (hs : Sys s g) (hd : ProcDir s g p d) (hpos : 0 < m) (hlt : (s.proc p).sz + m < KERNBASE)
    (hshort : g.free.length < allocNeed s.mem d (((s.proc p).sz + 4095) / 4096) (((s.proc p).sz + m + 4095) / 4096))
    {i : Nat} (hi : 120 ≤ i) (hheap : 0x400000 * (i - 120) < (s.proc p).hugesz) (hin : 0x400000 * i < (s.proc p).sz + m)
    (hodd : firstWord s p i % 2 = 1) (hfirst : ∀ j, 120 ≤ j → j < i → firstWord s p j % 2 = 0) :
    Keeps (HugeKept p) (growproc p m) s ↔ ¬ IsHuge (PTE_ADDR (firstWord s p i)) := by
  have hl := hd.layout
  have hlt' : (s.proc p).sz + m < 0x80000000 := hlt
  have hsz := hl.sz_le hs hd.frame hd.role
  obtain ⟨f, hf, -, -, hat⟩ := (hs.hugeAt_user hd.frame hd.role (show i < 512 by omega)).resolve_left
    ((hl.huge i (by omega)).2 ⟨hi, hheap⟩)
  have hdlt := hd.frame.lt
  have halign := hf.1
  rw [firstWord_eq hd hf hat] at hodd ⊢
  obtain ⟨s₁, g₁, after, hs₁, hdir₁, hproc, hstart, hhuge, hsame, hafter, hrun⟩ := growproc_short hs hd hpos hlt hshort
  have hword {x : Nat} (hx : IsHuge x) : entry s₁.mem x 0 = entry s.mem x 0 := (hsame x hx).load32_eq (by omega) (by omega)
  have hpde : entry s₁.mem d i = f + 0x87 := by
    rw [entry_of_hugeAt (by rw [hhuge i (by omega)]; omega), hhuge i (by omega), hat]
  have hquiet : Quiet s₁.mem d (deallocStart s₁.mem d (s.proc p).sz) (1024 * i) := by
    refine ⟨deallocStart_slot _, fun j x _ hhi hx hpde' => ?_⟩
    have halign := hx.1
    have hat' : hugeAt s.mem d j = x + 0x87 := by
      rw [← hhuge j (by omega), hugeAt_of_huge (by omega) (by omega), hpde']
    have hslot := (hl.huge j (by omega)).1 (by omega)
    rw [hword hx, ← firstWord_eq hd hx hat']
    exact hfirst j hslot.1 (by omega)
  rw [← hword hf] at hodd ⊢
  rcases dealloc_at_odd hs₁ hd.frame hdir₁ (show (s.proc p).sz + m ≤ 0x80000000 by omega) (by omega) (by omega) hin hquiet hf
      hpde hodd with ⟨hnot, e, s', hrun', hproc', hentry, hsame'⟩ | ⟨hx, heven⟩
  · rw [keepsHuge_iff hd (congrArg final (hrun.trans (bind_error hrun'))) (by rw [final, hproc', hproc])]
    refine iff_of_true ⟨fun i hi => (hugeAt_congr (hentry i (by omega))).trans (hhuge i (by omega)), fun i hi hne => ?_⟩ hnot
    obtain ⟨x, hx, -, -, hat'⟩ := (hs.hugeAt_user hd.frame hd.role hi).resolve_left hne
    have halign := hx.1
    rw [hat', PTE_ADDR_add (by omega) (by omega)]
    exact (hsame x hx).trans (hsame' x hx)
  · refine iff_of_false ?_ (not_not.2 hx)
    rintro ⟨-, hkept⟩
    have hsame' := hkept.same i (by omega)
    rw [hd.pgdir, V2P_P2V (by omega), hat, PTE_ADDR_add (by omega) (by omega)] at hsame'
    have hword' : entry (final ((growproc p m).run s)).mem f 0 = entry s₁.mem f 0 :=
      ((hsame' (by omega)).load32_eq (by omega) (by omega)).trans (hword hf).symm
    -- But the clean-up has left an even word there.
    cases hdealloc : (deallocuvm (P2V d) ((s.proc p).sz + m) (s.proc p).sz).run s₁ with
    | ok r t =>
      obtain ⟨t', hrun', -, hkeep⟩ := hafter t
      have hlast : entry t'.mem f 0 = entry t.mem f 0 := (hkeep f hf).load32_eq (by omega) (by omega)
      rw [hdealloc] at heven
      rw [hrun, bind_ok hdealloc, bind_ok hrun', EStateM.run_pure] at hword'
      simp only [final] at heven hword'
      omega
    | error e t =>
      rw [hdealloc] at heven
      rw [hrun, bind_error hdealloc] at hword'
      simp only [final] at heven hword'
      omega

theorem keepsHuge_iff_apart (hs : Sys s g) (hd : ProcDir s g p d) (hkstack : (s.proc p).kstack ≠ 0) (hlo : -2 ^ 31 ≤ n)
    (hhi : n < 2 ^ 31) : Keeps (HugeKept p) (growproc p n) s ↔ HugeApart s p n g.free.length := by
  have hl := hd.layout
  have hdlt := hd.frame.lt
  have hdir : V2P (s.proc p).pgdir = d := by rw [hd.pgdir, V2P_P2V (by omega)]
  rcases lt_trichotomy n 0 with hneg | rfl | hpos
  · refine iff_of_true ?_ fun h => absurd h (by omega)
    by_cases hwrap : ((s.proc p).sz : Int) + n < 0
    · have hrun := growproc_wrap hs hd hkstack hlo hwrap
      split_ifs at hrun
      · exact (keepsHuge_iff hd (congrArg final hrun) rfl).2 (.refl _ _)
      · refine (keepsHuge_iff hd (congrArg final hrun) ?_).2 ?_
        · simp only [final, Machine.resized_proc]
        · simp only [final, Machine.resized_mem]
          exact .refl _ _
    · obtain ⟨newsz, hnew⟩ : ∃ newsz : Nat, ((s.proc p).sz : Int) + n = newsz := ⟨((s.proc p).sz + n).toNat, by omega⟩
      obtain ⟨s', g', hs', hstep, hl', hrun⟩ := growproc_shrink hs hd hkstack hneg hnew
      have hsame : s'.proc p = s.proc p := by rw [hstep.rest]
      have hhuge := hstep.toUserStep.sameHuge hs hd.frame hd.role fun i hi => hstep.hugeAt_eq (by omega)
      split_ifs at hrun
      · exact (keepsHuge_iff hd (congrArg final hrun) (congrArg Proc.hugesz hsame)).2 hhuge
      · refine (keepsHuge_iff hd (congrArg final hrun) ?_).2 ?_
        · simp only [final, Machine.resized_proc]
        · simpa only [final, Machine.resized_mem] using hhuge
  · refine iff_of_true ((keepsHuge_iff hd (congrArg final (growproc_none hd hkstack)) ?_).2 ?_) fun h => by omega
    · simp only [final, Machine.resized_proc]
    · simp only [final, Machine.resized_mem]
      exact .refl _ _
  · obtain ⟨m, rfl⟩ : ∃ m : Nat, n = m := ⟨n.toNat, by omega⟩
    have hiff : HugeApart s p m g.free.length ↔ ((s.proc p).sz + m < KERNBASE →
        g.free.length < allocNeed s.mem d (((s.proc p).sz + 4095) / 4096) (((s.proc p).sz + m + 4095) / 4096) →
        ∀ i : Nat, 120 ≤ i → 0x400000 * (i - 120) < (s.proc p).hugesz → 0x400000 * i < (s.proc p).sz + m →
          firstWord s p i % 2 = 1 → (∀ j, 120 ≤ j → j < i → firstWord s p j % 2 = 0) →
          ¬ IsHuge (PTE_ADDR (firstWord s p i))) := by
      rw [← hdir]
      exact ⟨fun h hlt hshort i hi hheap hin => h hpos (by omega) hshort i hi hheap (by omega),
        fun h _ hlt hshort i hi hheap hin => h (by omega) hshort i hi hheap (by omega)⟩
    rw [hiff]
    by_cases hlt : (s.proc p).sz + m < KERNBASE
    · by_cases hneed : allocNeed s.mem d (((s.proc p).sz + 4095) / 4096) (((s.proc p).sz + m + 4095) / 4096) ≤ g.free.length
      · obtain ⟨s', g', hrun, hs', hext⟩ := growproc_grow hs hd hkstack (by omega) hlt hneed
        have hhuge := hext.toUserStep.sameHuge hs hd.frame hd.role fun i hi => hext.huge_eq i (by omega)
        refine iff_of_true ((keepsHuge_iff hd (congrArg final hrun) ?_).2 ?_) fun _ hshort => by omega
        · simp only [final, Machine.resized_proc]
        · simpa only [final, Machine.resized_mem] using hhuge
      · by_cases hodd : ∃ i, 120 ≤ i ∧ 0x400000 * (i - 120) < (s.proc p).hugesz ∧ 0x400000 * i < (s.proc p).sz + m ∧
          firstWord s p i % 2 = 1 ∧ ∀ j, 120 ≤ j → j < i → firstWord s p j % 2 = 0
        · obtain ⟨i, hi, hheap, hin, hodd, hfirst⟩ := hodd
          rw [keepsHuge_iff_odd hs hd (by omega) hlt (by omega) hi hheap hin hodd hfirst]
          refine ⟨fun hnot _ _ j hj _ _ hodd' hfirst' => ?_, fun h => h hlt (by omega) i hi hheap hin hodd hfirst⟩
          -- There is only one such page.
          obtain rfl : j = i := by
            rcases lt_trichotomy j i with hji | rfl | hji
            · have := hfirst j hj hji
              omega
            · rfl
            · have := hfirst' i hi hji
              omega
          exact hnot
        · have heven : EvenBelow s p m := by
            intro i
            induction i using Nat.strongRecOn with
            | ind i ih =>
              intro hi hheap hin
              by_contra hne
              exact hodd ⟨i, hi, hheap, by omega, by unfold firstWord; omega,
                fun j hj hji => ih j hji hj (by omega) (by omega)⟩
          obtain ⟨s', g', hrun, hs', hres⟩ := growproc_undone hs hd (by omega) hlt (by omega) heven
          refine iff_of_true ((keepsHuge_iff hd (congrArg final hrun) (by rw [final, hres.rest])).2
            (hres.toUserStep.sameHuge hs hd.frame hd.role fun i hi => hres.huge_eq i (by omega)))
            fun _ _ i hi hheap hin hodd' hfirst _ => hodd ⟨i, hi, hheap, hin, hodd', hfirst⟩
    · exact iff_of_true ((keepsHuge_iff hd (congrArg final (growproc_beyond hs hd (by omega) (by omega) (by omega))) rfl).2
        (.refl _ _)) fun h => absurd h hlt

/-- Each heap is kept by the operation on the other one if and only if the two are apart. -/
theorem heaps_kept_iff (hs : Sys s g) (hd : ProcDir s g p d) (hkstack : (s.proc p).kstack ≠ 0) (hlo : -2 ^ 31 ≤ n)
    (hhi : n < 2 ^ 31) :
    (Keeps (BaseKept p) (growhugeproc p n) s ↔ BaseApart s p n) ∧
      (Keeps (HugeKept p) (growproc p n) s ↔ HugeApart s p n g.free.length) :=
  ⟨keepsBase_iff_apart hs hd hkstack hlo hhi, keepsHuge_iff_apart hs hd hkstack hlo hhi⟩

/-- The first process of a machine with one processor changes either heap by a page. -/
theorem heaps_kept_first : ∃ s g, (main 1 []).run (Machine.reset fun _ => 0) = .ok () s ∧ Sys s g ∧
    BaseApart s 0 4096 ∧ HugeApart s 0 4096 g.free.length ∧ Keeps (BaseKept 0) (growhugeproc 0 4096) s ∧
    Keeps (HugeKept 0) (growproc 0 4096) s := by
  obtain ⟨s, g, d, k, hrun, hfirst, hh⟩ := boot_first
  have hs := hfirst.sound.sys
  have hbase : BaseApart s 0 4096 := fun h => absurd h (by decide)
  have hhuge : HugeApart s 0 4096 g.free.length := by
    intro _ _ _ i _ hi
    rw [hfirst.hugesz] at hi
    exact absurd hi (Nat.not_lt_zero _)
  obtain ⟨hiff, hiff'⟩ := heaps_kept_iff hs hh.toProcDir hh.kstack_ne (show -2 ^ 31 ≤ (4096 : Int) by decide) (by decide)
  exact ⟨s, g, hrun, hs, hbase, hhuge, hiff.2 hbase, hiff'.2 hhuge⟩

/-- The first process maps a huge page and gives it back: its base heap is lost. -/
theorem shugebrk_takes_base : ∃ s s', (main 1 []).run (Machine.reset fun _ => 0) = .ok () s ∧
    (growhugeproc 0 0x400000).run s = .ok 0 s' ∧ (s'.proc 0).sz = 4096 ∧
    ¬ Keeps (BaseKept 0) (growhugeproc 0 (-0x400000)) s' := by
  obtain ⟨s, s', g, d, k, hrun, hgrow, h⟩ := boot_grown
  have hsz := h.sz
  refine ⟨s, s', hrun, hgrow, hsz, fun hkept => ?_⟩
  have hapart := (keepsBase_iff_apart h.sound.sys h.holds.toProcDir h.holds.kstack_ne (by decide) (by decide)).1 hkept
  have := hapart (by decide) (by rw [h.hugesz]; decide) 0 (by rw [h.hugesz]; decide) (by rw [h.hugesz]; decide)
  omega

end huge

end xv6
