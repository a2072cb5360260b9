import Xv6.Syscall
import Xv6.System.Boot

open bytes outcome Function

namespace xv6

section count

variable {s : Machine} {d : Nat}

theorem procpgdirinfo_table (pgtab : Nat) (js : List Nat) (cnt : Nat) :
    ∃ cnt', (sys_procpgdirinfo.table pgtab js cnt).run s = .ok cnt' s := by
  induction js generalizing cnt with
  | nil => exact ⟨cnt, rfl⟩
  | cons j js ih =>
    obtain ⟨cnt', hrun⟩ := ih (if hasFlag (load32 s.mem (V2P (pgtab + 4 * j))) PTE_U &&
      hasFlag (load32 s.mem (V2P (pgtab + 4 * j))) PTE_P then cnt + 1 else cnt)
    exact ⟨cnt', by rw [sys_procpgdirinfo.table, readWord_bind, hrun]⟩

/-- The entries that `sys_procpgdirinfo` counts as huge pages. -/
def userHuge (e : Nat) : Bool := hasFlag e PTE_PS && hasFlag e PTE_U && hasFlag e PTE_P

theorem procpgdirinfo_count (hd : IsFrame d) (is : List Nat) (his : ∀ i ∈ is, i < 1024) (base huge : Nat) :
    ∃ base', (sys_procpgdirinfo.count (P2V d) is base huge).run s =
      .ok (base', huge + is.countP fun i => userHuge (entry s.mem d i)) s := by
  have hlt := hd.lt
  induction is generalizing base huge with
  | nil => exact ⟨base, rfl⟩
  | cons i is ih =>
    have hsum (huge' : Nat) (hhuge : huge' = if userHuge (entry s.mem d i) then huge + 1 else huge) :
        huge' + is.countP (fun i => userHuge (entry s.mem d i)) =
          huge + (i :: is).countP fun i => userHuge (entry s.mem d i) := by
      rw [List.countP_cons, hhuge]
      split_ifs <;> omega
    have hrest (base huge' : Nat) (hhuge : huge' = if userHuge (entry s.mem d i) then huge + 1 else huge) :
        ∃ base', (sys_procpgdirinfo.count (P2V d) is base huge').run s =
          .ok (base', huge + (i :: is).countP fun i => userHuge (entry s.mem d i)) s := by
      rw [← hsum huge' hhuge]
      exact ih (fun i hi => his i (List.mem_cons_of_mem _ hi)) base huge'
    rw [sys_procpgdirinfo.count, readWord_entry_bind (by omega) (his i (by simp))]
    simp only []
    split
    · obtain ⟨cnt, htable⟩ := procpgdirinfo_table (s := s) (P2V (PTE_ADDR (entry s.mem d i))) (List.range NPTENTRIES) base
      rw [bind_ok htable]
      exact hrest _ _ rfl
    · exact hrest _ _ rfl

theorem countP_range_interval (n a b : Nat) (h : a ≤ b) (hb : b ≤ n) :
    (List.range n).countP (fun i => decide (a ≤ i ∧ i < b)) = b - a := by
  have hmin : (List.range n).countP (fun i => decide (a ≤ i ∧ i < b)) = min n b - a := by
    clear hb
    induction n with
    | zero => simp
    | succ n ih =>
      rw [List.range_succ, List.countP_append, ih, List.countP_singleton]
      split_ifs with hn
      · rw [decide_eq_true_iff] at hn
        omega
      · rw [decide_eq_true_iff] at hn
        omega
  rw [hmin, Nat.min_eq_right hb]

end count

/-- The huge pages of a process that `sys_procpgdirinfo` counts are those of its huge heap. -/
theorem Layout.huge_count {s : Machine} {g : Ghost} {d sz hugesz : Nat} {o : DirOwner} (h : Layout s.mem d sz hugesz)
    (hs : Sys s g) (hd : IsFrame d) (hdir : g.own d = .dir o) (hk : KernOK s.mem d) :
    ∃ base, (sys_procpgdirinfo.count (P2V d) (List.range NPDENTRIES) 0 0).run s = .ok (base, hugeNeed hugesz) s := by
  have hhuge := h.hugesz_le hs hd hdir
  obtain ⟨base, hrun⟩ := procpgdirinfo_count (s := s) hd (List.range NPDENTRIES) (fun i hi => List.mem_range.1 hi) 0 0
  refine ⟨base, hrun.trans ?_⟩
  have hcount : (List.range NPDENTRIES).countP (fun i => userHuge (entry s.mem d i)) =
      (List.range NPDENTRIES).countP fun i => decide (120 ≤ i ∧ i < 120 + hugeNeed hugesz) := by
    refine List.countP_congr fun i hi => ?_
    have hi : i < 1024 := List.mem_range.1 hi
    have hat := hugeAt_ne_zero_iff (m := s.mem) (d := d) (i := i)
    rw [decide_eq_true_iff, userHuge, Bool.and_eq_true, Bool.and_eq_true, hasFlag_PS, hasFlag_U, hasFlag_P]
    by_cases huser : i < 512
    · have hslot : hugeAt s.mem d i ≠ 0 ↔ 120 ≤ i ∧ i < 120 + hugeNeed hugesz := by
        rw [h.huge i huser, hugeNeed]
        omega
      rw [← hslot]
      rcases hs.hugeAt_user hd hdir huser with hz | ⟨f, hf, -, hentry, hne⟩
      · exact iff_of_false (fun hp => hat.2 ⟨hp.2, hp.1.1⟩ hz) (not_not.2 hz)
      · have halign := hf.1
        rw [hentry]
        exact iff_of_true (by omega) (by omega)
    · -- The kernel's own 4MB entries are not for user mode.
      refine iff_of_false (fun hp => ?_) (by simp only [hugeNeed]; omega)
      have hkern := hk.huge_eq i (by omega) hi
      have hne := hat.2 ⟨hp.2, hp.1.1⟩
      rw [hugeAt_of_huge hp.2 hp.1.1, kpde] at hkern
      split_ifs at hkern <;> omega
  rw [hcount, countP_range_interval _ _ _ (by omega) (by simp only [hugeNeed, NPDENTRIES]; omega)]
  simp

section grow

variable {s s' : Machine} {g : Ghost} {p : Fin NPROC} {d m : Nat}

/-- Growth of the huge heap by `m` bytes that succeeds. The result of
`sys_shugebrk` is the old end of the heap, from which on the bytes are mapped
for the user to write; the new pages are zeroed frames off the free list, one
each; the earlier pages and the kernel half stay as they were. -/
theorem huge_growth (hs : Sys s g) (hd : ProcDir s g p d) (hkstack : (s.proc p).kstack ≠ 0) (hpos : 0 < m)
    (hhi : m < 2 ^ 31) (hrun : (growhugeproc p m).run s = .ok 0 s') :
    (sys_shugebrk p m).run s = .ok ((HUGE_VA_OFFSET + (s.proc p).hugesz : Nat) : Int) s' ∧
      (∀ va, HUGE_VA_OFFSET + (s.proc p).hugesz ≤ va → va < HUGE_VA_OFFSET + (s.proc p).hugesz + m →
        ∃ pa, translate s'.mem d va = some ⟨pa, true, 0x87, true, true⟩) ∧
      (∀ i < 512, hugeAt s.mem d i = 0 → hugeAt s'.mem d i ≠ 0 →
        ∃ f ∈ g.hfree, hugeAt s'.mem d i = f + 0x87 ∧ ∀ b, f ≤ b → b < f + 0x400000 → s'.mem b = 0) ∧
      (∀ i < 512, ∀ j < 512, hugeAt s'.mem d i ≠ 0 → hugeAt s'.mem d i = hugeAt s'.mem d j → i = j) ∧
      (∀ i < 512, hugeAt s.mem d i ≠ 0 → hugeAt s'.mem d i = hugeAt s.mem d i ∧
        SameOn s.mem s'.mem (PTE_ADDR (hugeAt s.mem d i)) 0x400000) ∧
      (∀ i, PDX KERNBASE ≤ i → i < 1024 → entry s'.mem d i = entry s.mem d i) ∧
      ∃ base, (sys_procpgdirinfo.count (s'.proc p).pgdir (List.range NPDENTRIES) 0 0).run s' =
        .ok (base, ((s'.proc p).hugesz + 0x3FFFFF) / 0x400000) s' := by
  have hl := hd.layout
  have hhuge := hl.hugesz_le hs hd.frame hd.role
  obtain ⟨t, g', ht, hext, hrun'⟩ := growhugeproc_grow hs hd hkstack hpos hhi
  rw [hrun] at hrun'
  have henough : hugeNeed ((s.proc p).hugesz + m) ≤ hugeNeed (s.proc p).hugesz + g.hfree.length := by
    by_contra hnot
    rw [if_neg hnot] at hrun'
    split_ifs at hrun'
    simp at hrun'
  rw [if_pos henough, EStateM.Result.ok.injEq] at hrun'
  rw [min_eq_left henough] at hext
  obtain ⟨-, rfl⟩ := hrun'
  have hl' := hext.layout hl (hugeNeed_slots _) (hugeNeed_slots _) (by omega)
  have hdir : g'.own d = .dir (.proc p) := hext.dir.trans hd.role
  have hhuge' := hl'.hugesz_le ht hd.frame hdir
  have hsame : t.proc p = s.proc p := by rw [hext.rest]
  have hmem : (t.resized p (t.proc p).sz ((s.proc p).hugesz + m)).mem = t.mem := t.resized_mem ..
  refine ⟨?_, fun va hlo hva => ?_, fun i hi hz hne => ?_, fun i hi j hj hne heq => ?_, fun i hi hne => ?_,
    fun i hlo hi => ?_, ?_⟩
  · unfold sys_shugebrk
    rw [get_bind]
    simp only []
    rw [bind_ok hrun, if_neg (by decide), EStateM.run_pure]
    simp only [u32, HUGE_VA_OFFSET]
    rw [Nat.mod_eq_of_lt (by omega), Nat.add_comm]
  · rw [hmem]
    simp only [HUGE_VA_OFFSET] at hlo hva
    have hmapped := (hl'.huge (va / 0x400000) (by omega)).2 ⟨by omega, by omega⟩
    rcases ht.translate_user hd.frame hdir (show va < 0x80000000 by omega) with
      ⟨-, hz, -⟩ | ⟨f, fl, -, -, -, -, -, hz, -⟩ | ⟨f, -, -, -, -, htrans⟩
    · exact absurd hz hmapped
    · exact absurd hz hmapped
    · exact ⟨_, htrans⟩
  · rw [hmem] at hne ⊢
    have hslot := (hl'.huge i hi).1 hne
    have hslot' : ¬ (120 ≤ i ∧ 0x400000 * (i - 120) < (s.proc p).hugesz) := fun hin => (hl.huge i hi).2 hin hz
    obtain ⟨f, hf, hrole, hentry, hat⟩ := (ht.hugeAt_user hd.frame hdir hi).resolve_left hne
    have hfree : g.hown f = .free := by
      by_contra hused
      rw [hext.hown f hused] at hrole
      have hold := hs.hugeAt_page hf hrole
      omega
    refine ⟨f, (hs.mem_hfree f).2 ⟨hf, hfree⟩, hat, hext.fresh i f ?_ ?_ (by omega) hf hentry⟩
    · simp only [hugeNeed]
      omega
    · simp only [hugeNeed]
      omega
  · rw [hmem] at hne heq
    obtain ⟨f, hf, hrole, -, hat⟩ := (ht.hugeAt_user hd.frame hdir hi).resolve_left hne
    obtain ⟨f', hf', hrole', -, hat'⟩ := (ht.hugeAt_user hd.frame hdir hj).resolve_left (heq ▸ hne)
    obtain rfl : f = f' := by omega
    rw [hrole] at hrole'
    cases hrole'
    rfl
  · rw [hmem]
    have hslot := (hl.huge i hi).1 hne
    have hentry := hext.entry_eq i (by omega) (by simp only [hugeNeed]; omega)
    obtain ⟨f, hf, hrole, -, hat⟩ := (hs.hugeAt_user hd.frame hd.role hi).resolve_left hne
    refine ⟨hugeAt_congr hentry, ?_⟩
    have halign := hf.1
    rw [hat, PTE_ADDR_add (by omega) (by omega)]
    exact hext.hugeSame f i hf hrole
  · rw [hmem]
    exact hext.kern i (by simpa [PDX, KERNBASE] using hlo) hi
  · have hs' : Sys (t.resized p (t.proc p).sz ((s.proc p).hugesz + m)) g' :=
      ht.congr_mem hmem (t.resized_freelist ..) (t.resized_freehugelist ..)
    have hkern := hext.kernOK hs hd.frame hd.role hd.kern
    have hproc : (t.resized p (t.proc p).sz ((s.proc p).hugesz + m)).proc p =
        { s.proc p with hugesz := (s.proc p).hugesz + m } := by
      rw [Machine.resized_proc, hsame]
    have hpgdir : ((t.resized p (t.proc p).sz ((s.proc p).hugesz + m)).proc p).pgdir = P2V d := by
      rw [hproc, hd.pgdir]
    have hhugesz : ((t.resized p (t.proc p).sz ((s.proc p).hugesz + m)).proc p).hugesz = (s.proc p).hugesz + m := by
      rw [hproc]
    rw [← hmem] at hl' hkern
    obtain ⟨base, hcount⟩ := hl'.huge_count hs' hd.frame hdir hkern
    refine ⟨base, ?_⟩
    rw [hpgdir, hhugesz, hcount, hugeNeed]

/-- The first process of a machine with one processor asks for its first 8 bytes. -/
theorem huge_growth_first : ∃ s s' : Machine, (main 1 []).run (Machine.reset fun _ => 0) = .ok () s ∧
    (growhugeproc 0 (8 : Nat)).run s = .ok 0 s' ∧
    (sys_shugebrk 0 (8 : Nat)).run s = .ok ((HUGE_VA_OFFSET + 0 : Nat) : Int) s' := by
  obtain ⟨s, g, d, k, hrun, hfirst, hh⟩ := boot_first
  have hs := hfirst.sound.sys
  have hhugesz := hfirst.hugesz
  have hlen := hfirst.hfree
  obtain ⟨t, g', -, -, hgrow⟩ := growhugeproc_grow (m := 8) hs hh.toProcDir hh.kstack_ne (by decide) (by decide)
  rw [hhugesz, if_pos (by simp only [hugeNeed]; omega)] at hgrow
  have h := huge_growth hs hh.toProcDir hh.kstack_ne (by decide) (by decide) hgrow
  rw [hhugesz] at h
  exact ⟨s, _, hrun, hgrow, h.1⟩

end grow

end xv6
