import Xv6.System.Boot
import Xv6.System.Space
import Xv6.Vm.Loose

open bytes outcome Function

namespace xv6

/-- The first process has one page and one huge page, which is zero. -/
structure FirstHuge (s : Machine) (g : Ghost) (d k : Nat) : Prop where
  sound : Sound s g
  holds : Holds s g 0 d k
  run : (s.proc 0).state = .RUNNABLE
  sz : (s.proc 0).sz = 4096
  hugesz : (s.proc 0).hugesz = 0x400000
  free : 56000 ≤ g.free.length
  hfree : 127 ≤ g.hfree.length
  zero : ∀ f, IsHuge f → entry s.mem d 120 = f + 0x87 → entry s.mem f 0 = 0

theorem boot_grown : ∃ s s' g d k, (main 1 []).run (Machine.reset fun _ => 0) = .ok () s ∧
    (growhugeproc 0 0x400000).run s = .ok 0 s' ∧ FirstHuge s' g d k := by
  obtain ⟨s, g, d, k, hrun, hfirst, hh⟩ := boot_first
  have hd := hh.toProcDir
  have hlive : (s.proc 0).state ≠ .UNUSED := by simp [hfirst.run]
  have hhugesz := hfirst.hugesz
  have hfree := hfirst.hfree
  obtain ⟨s', g', hs', hext, hgrow⟩ := growhugeproc_grow hfirst.sound.sys hd hh.kstack_ne (show 0 < 0x400000 by omega) (by omega)
  have hrec : s'.proc = s.proc := by rw [hext.rest]
  have henough : hugeNeed ((s.proc 0).hugesz + 0x400000) ≤ hugeNeed (s.proc 0).hugesz + g.hfree.length := by
    rw [hhugesz]
    exact (show hugeNeed (0 + 0x400000) ≤ 128 by decide).trans (by omega)
  rw [if_pos henough, hrec] at hgrow
  rw [min_eq_left henough] at hext
  obtain ⟨hadj, hd'⟩ := hfirst.sound.resize hlive hd hext.toUserStep hs' (hext.layout hd.layout (hugeNeed_slots _)
    (hugeNeed_slots _) (by omega)) (s'.resized_eq ..) (fun q hq => s'.resized_other _ _ hq) (s'.resized_proc ..)
  obtain ⟨d', k', hh'⟩ := hadj.sound.holds (p := 0) (by rwa [(hadj.state 0).1])
  obtain rfl := hd'.unique hh'.frame hh'.pgdir
  have hproc : (s'.resized 0 (s.proc 0).sz ((s.proc 0).hugesz + 0x400000)).proc 0 =
      { s.proc 0 with hugesz := (s.proc 0).hugesz + 0x400000 } := by rw [Machine.resized_proc, hrec]
  rw [hhugesz] at hext
  refine ⟨s, _, g', d', k', hrun, hgrow, hadj.sound, hh', by rw [hproc, hfirst.run], by rw [hproc, hfirst.sz],
    by rw [hproc, hhugesz], ?_, ?_, fun f hf hpde => ?_⟩
  · exact hext.free ▸ hfirst.free
  · have hone : 120 + hugeNeed (0 + 0x400000) - (120 + hugeNeed 0) = 1 := by decide
    have := hext.hfree
    omega
  · rw [Machine.resized_mem] at hpde ⊢
    exact load32_zero fun b hlo hhi => hext.fresh 120 f (by decide) (by decide) (by decide) hf hpde b hlo (by omega)

/-- The base pages that directory `d` maps are the same in two memories, with their contents. -/
structure SameBase (d : Nat) (m m' : Mem) : Prop where
  lookup_eq : ∀ k < 2 ^ 19, lookup m' d k = lookup m d k
  same : ∀ k < 2 ^ 19, lookup m d k ≠ 0 → SameOn m m' (PTE_ADDR (lookup m d k)) 4096

/-- The huge pages of the user part of directory `d` are the same in two memories, with their contents. -/
structure SameHuge (d : Nat) (m m' : Mem) : Prop where
  huge_eq : ∀ i < 512, hugeAt m' d i = hugeAt m d i
  same : ∀ i < 512, hugeAt m d i ≠ 0 → SameOn m m' (PTE_ADDR (hugeAt m d i)) 0x400000

theorem SameBase.refl (d : Nat) (m : Mem) : SameBase d m m := ⟨fun _ _ => rfl, fun _ _ _ => SameOn.refl _ _ _⟩

theorem SameHuge.refl (d : Nat) (m : Mem) : SameHuge d m m := ⟨fun _ _ => rfl, fun _ _ _ => SameOn.refl _ _ _⟩

/-- The result `r` of `growproc` goes with the state `s'` it leaves: the new size and the pages for it, or -1 and
everything as before. -/
def Exactly (s : Machine) (p : Fin NPROC) (n r : Int) (s' : Machine) : Prop :=
  (r = 0 ∧ ((s'.proc p).sz : Int) = (s.proc p).sz + n ∧
    ∀ k < 2 ^ 19, lookup s'.mem (V2P (s.proc p).pgdir) k ≠ 0 ↔ 4096 * k < PGROUNDUP (s'.proc p).sz) ∨
  (r = -1 ∧ (s'.proc p).sz = (s.proc p).sz ∧ SameBase (V2P (s.proc p).pgdir) s.mem s'.mem ∧
    SameHuge (V2P (s.proc p).pgdir) s.mem s'.mem)

/-- `growproc` returns, and has done what its result says. -/
def GrowExact (s : Machine) (p : Fin NPROC) (n : Int) : Prop :=
  ∃ r s', (growproc p n).run s = .ok r s' ∧ Exactly s p n r s'

/-- The base heap shrinks by less than it has, or is empty; and growth for which
the frames do not suffice meets no huge page whose first word is odd. -/
def GrowOK (s : Machine) (p : Fin NPROC) (n : Int) (avail : Nat) : Prop :=
  (n < 0 → 0 < ((s.proc p).sz : Int) + n ∨ (s.proc p).sz = 0) ∧
    (0 < n → ((s.proc p).sz : Int) + n < KERNBASE →
      avail < allocNeed s.mem (V2P (s.proc p).pgdir) (((s.proc p).sz + 4095) / 4096)
        (((s.proc p).sz + n.toNat + 4095) / 4096) → EvenBelow s p n)

section exact

variable {s s' : Machine} {g g' : Ghost} {p : Fin NPROC} {d m sz hugesz : Nat} {n : Int}

theorem PGROUNDUP_gt_iff {k : Nat} (hsz : sz ≤ 0x80000000) : 4096 * k < PGROUNDUP sz ↔ 4096 * k < sz := by
  simp only [PGROUNDUP, u32, PGSIZE]
  omega

/-- A failed growth restores the user memory. -/
theorem Restored.sameBase (h : Restored d ((sz + 4095) / 4096) s g s' g') (hs : Sys s g) (hd : IsFrame d)
    (hdir : g.own d = .dir (.proc p)) (hl : Layout s.mem d sz hugesz) : SameBase d s.mem s'.mem := by
  have habove (k : Nat) (hk : k < 2 ^ 19) (hlo : (sz + 4095) / 4096 ≤ k) : lookup s.mem d k = 0 := by
    by_contra hne
    have := (hl.base k hk).1 hne
    omega
  refine ⟨fun k hk => ?_, fun k hk hne => ?_⟩
  · rw [h.lookup_eq k (by omega)]
    split_ifs with hin
    · exact (habove k hk hin.1).symm
    · rfl
  · obtain ⟨f, fl, hf, hrole, hfl, -, heq⟩ := (hs.lookup_user hd hdir hk).resolve_left hne
    have hlt : k < (sz + 4095) / 4096 := by
      by_contra hge
      exact hne (habove k hk (by omega))
    rw [heq, PTE_ADDR_add hf.1 hfl]
    exact (h.pages f _ _ hf hrole (by omega)).2

theorem UserStep.sameHuge (h : UserStep d (fun _ => False) s g s' g') (hs : Sys s g) (hd : IsFrame d)
    (hdir : g.own d = .dir (.proc p)) (hhuge : ∀ i < 512, hugeAt s'.mem d i = hugeAt s.mem d i) :
    SameHuge d s.mem s'.mem := by
  refine ⟨hhuge, fun i hi hne => ?_⟩
  obtain ⟨f, hf, -, -, hat⟩ := (hs.hugeAt_user hd hdir hi).resolve_left hne
  have halign := hf.1
  rw [hat, PTE_ADDR_add (by omega) (by omega)]
  exact h.hsame f hf id

/-- Growth that runs out of frames comes to a state with the same huge pages. There it calls `deallocuvm`, and then
gives back at most the frame it could not map. -/
theorem growproc_short (hs : Sys s g) (hd : ProcDir s g p d) (hpos : 0 < m) (hlt : (s.proc p).sz + m < KERNBASE)
    (hshort : g.free.length < allocNeed s.mem d (((s.proc p).sz + 4095) / 4096) (((s.proc p).sz + m + 4095) / 4096)) :
    ∃ s₁ g₁, ∃ after : KernelM Unit, Sys s₁ g₁ ∧ g₁.own d = .dir (.proc p) ∧ s₁.proc = s.proc ∧
      deallocStart s₁.mem d (s.proc p).sz = ((s.proc p).sz + 4095) / 4096 ∧
      (∀ i < 1024, hugeAt s₁.mem d i = hugeAt s.mem d i) ∧ (∀ f, IsHuge f → SameOn s.mem s₁.mem f 0x400000) ∧
      (∀ t, ∃ t', after.run t = .ok () t' ∧ t'.proc = t.proc ∧ ∀ f, IsHuge f → SameOn t.mem t'.mem f 0x400000) ∧
      (growproc p m).run s = (do
        let _ ← deallocuvm (P2V d) ((s.proc p).sz + m) (s.proc p).sz
        after
        return -1 : KernelM Int).run s₁ := by
  have hl := hd.layout
  have hsz := hl.sz_le hs hd.frame hd.role
  have hlt' : (s.proc p).sz + m < 0x80000000 := hlt
  have hadd : addInt (s.proc p).sz m = (s.proc p).sz + m := by
    have := addInt_eq (a := (s.proc p).sz) (n := m) (by omega) (by omega)
    omega
  have hround : PGROUNDUP (s.proc p).sz = 4096 * (((s.proc p).sz + 4095) / 4096) := by
    simp only [PGROUNDUP, u32, PGSIZE]
    omega
  have hgrow : (growproc p m).run s = (do
      let sz ← allocuvm.loop (P2V d) (s.proc p).sz ((s.proc p).sz + m) (2 ^ 20 + 1) (4096 * (((s.proc p).sz + 4095) / 4096))
      if sz = 0 then
        return -1
      else
        updateProc p fun proc => { proc with sz }
        switchuvm p
        return 0 : KernelM Int).run s := by
    unfold growproc
    rw [get_bind]
    simp only []
    rw [if_pos (show (m : Int) > 0 by omega), hd.pgdir, hadd, allocuvm, if_neg (by omega), if_neg (by omega), hround]
  rcases allocuvm_rounds hd.frame (show (s.proc p).sz + m ≤ 0x80000000 by omega) (s.proc p).sz (2 ^ 20 + 1) _ s g hs hd.role
      (by omega) (by omega) (hl.dense (by omega)) with
    ⟨_, _, _, _, _, hneed⟩ | ⟨k, s₁, g₁, hlo, hhi, hs₁, hext, hdense, -, hrun⟩
  · omega
  · have hdir₁ := hext.dir.trans hd.role
    rcases hrun with hrun | ⟨x, hfree, hrun⟩
    · refine ⟨s₁, g₁, pure (), hs₁, hdir₁, by rw [hext.rest], hdense.deallocStart_eq hs₁ hd.frame hdir₁ (by omega) hlo,
        hext.huge_eq, fun f hf => hext.hsame f hf id, fun t => ⟨t, rfl, rfl, fun _ _ => SameOn.refl _ _ _⟩, ?_⟩
      rw [hgrow, bind_congr_run hrun]
      simp only [bind_assoc, pure_bind, if_true]
    · obtain ⟨hx, -⟩ := (hs₁.mem_free x).1 (by simp [hfree])
      obtain ⟨hs₂, hdir₂, hdense₂, hentry⟩ := hdense.popped hs₁ hd.frame hdir₁ (by omega) hfree
      refine ⟨_, _, kfree (P2V x), hs₂, hdir₂, by rw [hext.rest]; rfl,
        hdense₂.deallocStart_eq hs₂ hd.frame hdir₂ (by omega) hlo,
        fun i hi => (hugeAt_congr (hentry i hi)).trans (hext.huge_eq i hi),
        fun f hf => (hext.hsame f hf id).trans (fill_sameOn_huge hx hf),
        fun t => ⟨t.freed x, kfree_run hx t, rfl, fun f hf => freed_sameOn_huge hx hf⟩, ?_⟩
      rw [hgrow, bind_congr_run hrun]
      simp only [bind_assoc, pure_bind, if_true]

theorem entry_of_hugeAt {m : Mem} {i : Nat} (hne : hugeAt m d i ≠ 0) : entry m d i = hugeAt m d i := by
  rw [hugeAt_ne_zero_iff] at hne
  rw [hugeAt_of_huge hne.1 hne.2]

/-- Growth that runs out of frames below a huge page whose first word is odd panics or changes the page. -/
theorem growproc_torn {i f : Nat} (hs : Sys s g) (hd : ProcDir s g p d) (hlt : (s.proc p).sz + m < KERNBASE)
    (hshort : g.free.length < allocNeed s.mem d (((s.proc p).sz + 4095) / 4096) (((s.proc p).sz + m + 4095) / 4096))
    (hi : 120 ≤ i) (hin : 0x400000 * i < (s.proc p).sz + m) (hf : IsHuge f) (hat : hugeAt s.mem d i = f + 0x87) :
    (∃ e s', (growproc p m).run s = .error e s') ∨
      ∃ s', (growproc p m).run s = .ok (-1) s' ∧ entry s'.mem f 0 % 2 = 0 := by
  have hlt' : (s.proc p).sz + m < 0x80000000 := hlt
  have hsz := hd.layout.sz_le hs hd.frame hd.role
  obtain ⟨s₁, g₁, after, hs₁, hdir₁, -, hstart, hhuge, -, hafter, hrun⟩ := growproc_short hs hd (by omega) hlt hshort
  have hpde : entry s₁.mem d i = f + 0x87 := by
    rw [entry_of_hugeAt (by rw [hhuge i (by omega)]; omega), hhuge i (by omega), hat]
  rcases dealloc_loose hs₁ hd.frame hdir₁ (by omega) (show (s.proc p).sz < (s.proc p).sz + m by omega) with
    ⟨e, s', _, _, hd', -⟩ | ⟨s', g', hd', hstep⟩
  · exact .inl ⟨e, s', by rw [hrun, bind_error hd']⟩
  · obtain ⟨s'', hrun', -, hsame⟩ := hafter s'
    have hword : entry s''.mem f 0 = entry s'.mem f 0 := (hsame f hf).load32_eq (by omega) (by omega)
    refine .inr ⟨s'', by rw [hrun, bind_ok hd', bind_ok hrun', EStateM.run_pure], ?_⟩
    rw [hword]
    exact hstep.passed i (by omega) f (by omega) (by omega) hf hpde

theorem growExact_iff_of_run {r : Int} (h : (growproc p n).run s = .ok r s') : GrowExact s p n ↔ Exactly s p n r s' := by
  refine ⟨?_, fun hex => ⟨r, s', h, hex⟩⟩
  rintro ⟨r', s'', h', hex⟩
  rw [h] at h'
  cases h'
  exact hex

theorem exactly_resized (hd : ProcDir s g p d) (hl : Layout s'.mem d sz hugesz) (hsz : sz ≤ 0x80000000) :
    Exactly s p n 0 (s'.resized p sz hugesz) ↔ (sz : Int) = (s.proc p).sz + n := by
  have hdlt := hd.frame.lt
  have hdir : V2P (s.proc p).pgdir = d := by rw [hd.pgdir, V2P_P2V (by omega)]
  unfold Exactly
  rw [Machine.resized_proc, Machine.resized_mem, hdir]
  constructor
  · rintro (⟨-, h, -⟩ | ⟨h, -⟩)
    · exact h
    · omega
  · intro h
    refine .inl ⟨rfl, h, fun k hk => ?_⟩
    rw [PGROUNDUP_gt_iff hsz]
    exact hl.base k hk

theorem exactly_failed (hd : ProcDir s g p d) (hproc : s'.proc p = s.proc p) :
    Exactly s p n (-1) s' ↔ SameBase d s.mem s'.mem ∧ SameHuge d s.mem s'.mem := by
  have hdlt := hd.frame.lt
  unfold Exactly
  rw [hproc, hd.pgdir, V2P_P2V (by omega)]
  constructor
  · rintro (⟨h, -⟩ | ⟨-, -, h⟩)
    · omega
    · exact h
  · exact fun h => .inr ⟨rfl, rfl, h⟩

/-- A base heap that shrinks to nothing: the result is -1, but the pages are gone. -/
theorem not_exact_of_emptied (hs : Sys s g) (hd : ProcDir s g p d) (hkstack : (s.proc p).kstack ≠ 0) (hneg : n < 0)
    (hzero : ((s.proc p).sz : Int) + n = 0) : ¬ GrowExact s p n := by
  obtain ⟨s', g', hs', hstep, hl', hrun⟩ := growproc_shrink hs hd hkstack hneg (show _ = ((0 : Nat) : Int) from hzero)
  rw [if_pos rfl] at hrun
  rw [growExact_iff_of_run hrun, exactly_failed hd (by rw [hstep.rest])]
  rintro ⟨hbase, -⟩
  have hold := (hd.layout.base 0 (by omega)).2 (by omega)
  rw [← hbase.lookup_eq 0 (by omega)] at hold
  have := (hl'.base 0 (by omega)).1 hold
  omega

/-- A huge page below the new end of the base heap, if there is one whose first word is odd. -/
theorem ProcDir.odd_of_not_even (hd : ProcDir s g p d) (hs : Sys s g) (h : ¬ EvenBelow s p n)
    (hlt : ((s.proc p).sz : Int) + n < KERNBASE) :
    ∃ i f, 120 ≤ i ∧ i < 512 ∧ ((0x400000 * i : Nat) : Int) < (s.proc p).sz + n ∧ IsHuge f ∧ entry s.mem d i = f + 0x87 ∧
      hugeAt s.mem d i = f + 0x87 ∧ entry s.mem f 0 % 2 = 1 := by
  have hdlt := hd.frame.lt
  unfold EvenBelow at h
  simp only [not_forall] at h
  obtain ⟨i, hlo, hheap, hin, hodd⟩ := h
  simp only [KERNBASE] at hlt
  have hi : i < 512 := by omega
  obtain ⟨f, hf, -, hentry, hat⟩ := (hs.hugeAt_user hd.frame hd.role hi).resolve_left ((hd.layout.huge i hi).2 ⟨hlo, hheap⟩)
  have halign := hf.1
  rw [hd.pgdir, V2P_P2V (by omega), hat, PTE_ADDR_add (by omega) (by omega)] at hodd
  refine ⟨i, f, hlo, hi, hin, hf, hentry, hat, ?_⟩
  rw [entry, Nat.mul_zero, Nat.add_zero]
  omega

/-- `growproc` is exact if and only if `GrowOK` holds. -/
theorem growproc_exact_iff (hs : Sys s g) (hd : ProcDir s g p d) (hkstack : (s.proc p).kstack ≠ 0) (hlo : -2 ^ 31 ≤ n)
    (hhi : n < 2 ^ 31) : GrowExact s p n ↔ GrowOK s p n g.free.length := by
  have hl := hd.layout
  have hsz := hl.sz_le hs hd.frame hd.role
  have hdlt := hd.frame.lt
  have hdir : V2P (s.proc p).pgdir = d := by rw [hd.pgdir, V2P_P2V (by omega)]
  rcases lt_trichotomy n 0 with hneg | rfl | hpos
  · have hiff : GrowOK s p n g.free.length ↔ 0 < ((s.proc p).sz : Int) + n ∨ (s.proc p).sz = 0 :=
      ⟨fun h => h.1 hneg, fun h => ⟨fun _ => h, fun hpos => by omega⟩⟩
    rw [hiff]
    by_cases hwrap : ((s.proc p).sz : Int) + n < 0
    · have hrun := growproc_wrap hs hd hkstack hlo hwrap
      split_ifs at hrun with hz
      · rw [growExact_iff_of_run hrun, exactly_failed hd rfl]
        exact iff_of_true ⟨.refl _ _, .refl _ _⟩ (.inr hz)
      · rw [growExact_iff_of_run hrun, exactly_resized hd hl (by omega)]
        omega
    · obtain ⟨newsz, hnew⟩ : ∃ newsz : Nat, ((s.proc p).sz : Int) + n = newsz := ⟨((s.proc p).sz + n).toNat, by omega⟩
      obtain ⟨s', g', hs', hstep, hl', hrun⟩ := growproc_shrink hs hd hkstack hneg hnew
      split_ifs at hrun with hz
      · exact iff_of_false (not_exact_of_emptied hs hd hkstack hneg (by omega)) (by omega)
      · rw [growExact_iff_of_run hrun, exactly_resized hd hl' (by omega)]
        omega
  · rw [growExact_iff_of_run (growproc_none hd hkstack), exactly_resized hd hl (by omega)]
    exact iff_of_true (by omega) ⟨fun h => by omega, fun h => by omega⟩
  · obtain ⟨m, rfl⟩ : ∃ m : Nat, n = m := ⟨n.toNat, by omega⟩
    have hiff : GrowOK s p m g.free.length ↔ ((s.proc p).sz + m < KERNBASE →
        g.free.length < allocNeed s.mem d (((s.proc p).sz + 4095) / 4096) (((s.proc p).sz + m + 4095) / 4096) →
        EvenBelow s p m) := by
      rw [← hdir]
      exact ⟨fun h hlt => h.2 hpos (by omega), fun h => ⟨fun hneg => by omega, fun _ hlt => h (by omega)⟩⟩
    rw [hiff]
    by_cases hlt : (s.proc p).sz + m < KERNBASE
    · have hlt' : (s.proc p).sz + m < 0x80000000 := hlt
      by_cases hneed : allocNeed s.mem d (((s.proc p).sz + 4095) / 4096) (((s.proc p).sz + m + 4095) / 4096) ≤ g.free.length
      · obtain ⟨s', g', hrun, hs', hext⟩ := growproc_grow hs hd hkstack (by omega) hlt hneed
        rw [growExact_iff_of_run hrun, exactly_resized hd (hext.layout hl (by omega)) (by omega)]
        exact iff_of_true (by omega) fun _ hshort => by omega
      · by_cases heven : EvenBelow s p m
        · obtain ⟨s', g', hrun, hs', hres⟩ := growproc_undone hs hd (by omega) hlt (by omega) heven
          rw [growExact_iff_of_run hrun, exactly_failed hd (by rw [hres.rest])]
          exact iff_of_true ⟨hres.sameBase hs hd.frame hd.role hl,
            hres.toUserStep.sameHuge hs hd.frame hd.role fun i hi => hres.huge_eq i (by omega)⟩ fun _ _ => heven
        · refine iff_of_false (fun hex => ?_) fun h => heven (h hlt (by omega))
          obtain ⟨i, f, hi, hi', hin, hf, hpde, hat, hodd⟩ := hd.odd_of_not_even hs heven (by omega)
          have halign := hf.1
          rcases growproc_torn hs hd hlt (by omega) hi (by omega) hf hat with ⟨e, s', hrun⟩ | ⟨s', hrun, heven'⟩
          · obtain ⟨r, s'', hrun', -⟩ := hex
            rw [hrun] at hrun'
            cases hrun'
          · rw [growExact_iff_of_run hrun] at hex
            rcases hex with ⟨h, -⟩ | ⟨-, -, -, hhuge⟩
            · omega
            · rw [hdir] at hhuge
              have hsame := hhuge.same i hi' (by omega)
              rw [hat, PTE_ADDR_add (by omega) (by omega)] at hsame
              have hword : entry s'.mem f 0 = entry s.mem f 0 := hsame.load32_eq (by omega) (by omega)
              omega
    · rw [growExact_iff_of_run (growproc_beyond hs hd (by omega) (by omega) (by omega)), exactly_failed hd rfl]
      exact iff_of_true ⟨.refl _ _, .refl _ _⟩ fun h => absurd h hlt

/-- The first process of a machine with one processor asks for a page. -/
theorem growproc_exact_first : ∃ s g, (main 1 []).run (Machine.reset fun _ => 0) = .ok () s ∧ Sys s g ∧
    GrowOK s 0 4096 g.free.length ∧ GrowExact s 0 4096 := by
  obtain ⟨s, g, d, k, hrun, hfirst, hh⟩ := boot_first
  have hok : GrowOK s 0 4096 g.free.length := by
    refine ⟨fun h => absurd h (by decide), fun _ _ _ i _ hi => ?_⟩
    rw [hfirst.hugesz] at hi
    exact absurd hi (Nat.not_lt_zero _)
  have hs := hfirst.sound.sys
  exact ⟨s, g, hrun, hs, hok, (growproc_exact_iff hs hh.toProcDir hh.kstack_ne (by decide) (by decide)).2 hok⟩

/-- The first process gives back its only page: it is told that it cannot, and the page is gone. -/
theorem growproc_empties : ∃ s, (main 1 []).run (Machine.reset fun _ => 0) = .ok () s ∧ (s.proc 0).sz = PGSIZE ∧
    ¬ GrowExact s 0 (-4096) := by
  obtain ⟨s, g, d, k, hrun, hfirst, hh⟩ := boot_first
  exact ⟨s, hrun, hfirst.sz, not_exact_of_emptied hfirst.sound.sys hh.toProcDir hh.kstack_ne (by decide)
    (by rw [hfirst.sz]; decide)⟩

end exact

end xv6
