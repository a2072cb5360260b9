import Xv6.System.GrowExact

open bytes outcome

namespace xv6

/-- One `khugefree` for each huge page of directory `d` whose first page number is from `lo` up to `hi`. -/
def hugeFrees (m : Mem) (d lo hi : Nat) : List FreeCall :=
  (List.range 1024).filterMap fun i =>
    if lo ≤ 1024 * i ∧ 1024 * i < hi ∧ hugeAt m d i ≠ 0 then some (.khugefree (P2V (PTE_ADDR (hugeAt m d i)))) else none

/-- The first address of the page that covers `va`, which is a base page where no huge page is mapped. -/
def pageStart (m : Mem) (d va : Nat) : Nat :=
  if hugeAt m d (va / 0x400000) ≠ 0 then 0x400000 * (va / 0x400000) else 4096 * (va / 4096)

/-- The pages of directory `d` that start at page number `lo` or later and below
address `oldsz` are gone: nothing is mapped there, the frame of each has gone to
its own deallocator once, and all other pages are mapped as before and have
their contents. -/
structure Removed (d lo oldsz : Nat) (s s' : Machine) : Prop where
  unmapped : ∀ va, 4096 * lo ≤ va → va < oldsz → translate s'.mem d va = none
  freed : ∃ calls, s'.frees = s.frees ++ calls ∧
    calls.Perm (sweptFrees s.mem d lo ((oldsz + 4095) / 4096) ++ hugeFrees s.mem d lo ((oldsz + 4095) / 4096))
  mapping : ∀ va < 2 ^ 32, ¬ (4096 * lo ≤ pageStart s.mem d va ∧ pageStart s.mem d va < oldsz) →
    translate s'.mem d va = translate s.mem d va
  contents : ∀ va < KERNBASE, ¬ (4096 * lo ≤ pageStart s.mem d va ∧ pageStart s.mem d va < oldsz) →
    ∀ t, translate s.mem d va = some t → s'.mem t.pa = s.mem t.pa

/-- `deallocuvm` returns `newsz` and removes exactly the range from `newsz`,
rounded up to the page that contains it, to `oldsz`. -/
def DeallocExact (s : Machine) (d oldsz newsz : Nat) : Prop :=
  ∃ s', (deallocuvm (P2V d) oldsz newsz).run s = .ok newsz s' ∧ Removed d (deallocStart s.mem d newsz) oldsz s s'

/-- No huge page starts in the range that `deallocuvm` works through. -/
def NoHugeStart (m : Mem) (d oldsz newsz : Nat) : Prop :=
  ∀ i, deallocStart m d newsz ≤ 1024 * i → 0x400000 * i < oldsz → hugeAt m d i = 0

section exact

variable {s s' : Machine} {g g' : Ghost} {d lo hi oldsz newsz : Nat} {o : DirOwner}

theorem hugeFrees_nil {m : Mem} (h : ∀ i, lo ≤ 1024 * i → 1024 * i < hi → hugeAt m d i = 0) : hugeFrees m d lo hi = [] :=
  List.filterMap_eq_nil_iff.2 fun i _ => if_neg fun hin => hin.2.2 (h i hin.1 hin.2.1)

/-- A present 4MB entry maps every address of its slot. -/
theorem translate_ne_none {m : Mem} {va : Nat} (hva : va < 2 ^ 32) (h : hugeAt m d (va / 0x400000) ≠ 0) :
    translate m d va ≠ none := by
  rw [hugeAt_ne_zero_iff] at h
  have hload : load32 m (d + 4 * PDX va) = entry m d (va / 0x400000) := by
    rw [entry, PDX, Nat.mod_eq_of_lt (by omega)]
  simp only [translate, hload]
  rw [if_pos (hasFlag_P.2 (by omega)), if_pos (hasFlag_PS.2 (by omega))]
  exact Option.some_ne_none _

/-- The entries that translate an address are the ones before, unless its page has been swept. -/
theorem Swept.translate_eq (h : Swept d lo hi s g s' g') (hs' : Sys s' g') (hd : IsFrame d)
    (hdir : g.own d = .dir o) {va : Nat} (hva : va < 2 ^ 32) :
    translate s'.mem d va = viewTranslate (hugeAt s.mem d (va / 0x400000))
      (if lo ≤ va / 4096 ∧ va / 4096 < hi then 0 else lookup s.mem d (va / 4096)) va := by
  rw [hs'.translate_eq hd (h.dir.trans hdir) hva, h.hugeAt_eq (by omega), h.lookup_eq _ (by omega)]

theorem Swept.removed (h : Swept d lo ((oldsz + 4095) / 4096) s g s' g') (hs : Sys s g) (hs' : Sys s' g') (hd : IsFrame d)
    (hdir : g.own d = .dir o) (hold : oldsz ≤ 0x80000000) (hslot : lo % 1024 = 0 ∨ hugeAt s.mem d (lo / 1024) = 0)
    (hnone : ∀ i, lo ≤ 1024 * i → 0x400000 * i < oldsz → hugeAt s.mem d i = 0) : Removed d lo oldsz s s' := by
  have hbase {va : Nat} (hlo : 4096 * lo ≤ va) (hva : va < oldsz) : hugeAt s.mem d (va / 0x400000) = 0 := by
    by_cases hin : lo ≤ 1024 * (va / 0x400000)
    · exact hnone _ hin (by omega)
    · -- The range starts inside the slot, which then has no huge page.
      rw [show va / 0x400000 = lo / 1024 by omega]
      exact hslot.resolve_left (by omega)
  have hout {va : Nat} (h : ¬ (4096 * lo ≤ pageStart s.mem d va ∧ pageStart s.mem d va < oldsz)) :
      hugeAt s.mem d (va / 0x400000) ≠ 0 ∨ ¬ (lo ≤ va / 4096 ∧ va / 4096 < (oldsz + 4095) / 4096) := by
    by_cases hz : hugeAt s.mem d (va / 0x400000) = 0
    · rw [pageStart, if_neg (not_not.2 hz)] at h
      exact .inr (by omega)
    · exact .inl hz
  refine ⟨fun va hlo hva => ?_, ⟨_, h.frees, ?_⟩, fun va hva hpage => ?_, fun va hva hpage t ht => ?_⟩
  · rw [h.translate_eq hs' hd hdir (by omega), hbase hlo hva, if_pos (by omega)]
    rfl
  · rw [hugeFrees_nil fun i hlo hhi => hnone i hlo (by omega), List.append_nil]
  · rw [h.translate_eq hs' hd hdir hva, hs.translate_eq hd hdir hva]
    rcases hout hpage with hne | hrange
    · simp only [viewTranslate, if_pos hne]
    · rw [if_neg hrange]
  · have hva : va < 0x80000000 := hva
    rcases hs.translate_user hd hdir hva with ⟨hn, -⟩ | ⟨f, fl, hf, hrole, -, -, -, hz, heq⟩ | ⟨f, hf, -, -, -, heq⟩
    · simp [hn] at ht
    · obtain rfl := Option.some.inj (heq.symm.trans ht)
      have hrange := (hout hpage).resolve_left (not_not.2 hz)
      exact (h.pages f _ _ hf hrole (by omega)).2 _ (Nat.le_add_right _ _) (Nat.add_lt_add_left (Nat.mod_lt _ (by omega)) f)
    · obtain rfl := Option.some.inj (heq.symm.trans ht)
      exact h.hsame f hf id _ (Nat.le_add_right _ _) (Nat.add_lt_add_left (Nat.mod_lt _ (by omega)) f)

/-- A huge page that starts in the range stays mapped, if the call returns at all. -/
theorem not_deallocExact_of_huge (hs : Sys s g) (hd : IsFrame d) (hdir : g.own d = .dir o) (hold : oldsz ≤ 0x80000000)
    (hnew : newsz < oldsz) {i : Nat} (hlo : deallocStart s.mem d newsz ≤ 1024 * i) (hhi : 0x400000 * i < oldsz)
    (hne : hugeAt s.mem d i ≠ 0) : ¬ DeallocExact s d oldsz newsz := by
  rintro ⟨s', hrun, hremoved⟩
  rcases dealloc_loose hs hd hdir hold hnew with ⟨e, s₁, _, _, herr, -⟩ | ⟨s₁, g', hok, hstep⟩
  · simp [herr] at hrun
  · obtain rfl : s₁ = s' := by
      rw [hok] at hrun
      cases hrun
      rfl
    refine translate_ne_none (show 0x400000 * i < 2 ^ 32 by omega) ?_ (hremoved.unmapped _ (by omega) hhi)
    rw [show 0x400000 * i / 0x400000 = i by omega, hugeAt_congr (hstep.entry_eq i (by omega))]
    exact hne

/-- Nothing happens when the range is one huge page whose first word is even. -/
theorem deallocuvm_skips {i f : Nat} (hs : Sys s g) (hd : IsFrame d) (hdir : g.own d = .dir o) (hi : i < 512) (hf : IsHuge f)
    (hpde : entry s.mem d i = f + 0x87) (heven : entry s.mem f 0 % 2 = 0) :
    (deallocuvm (P2V d) (0x400000 * (i + 1)) (0x400000 * i)).run s = .ok (0x400000 * i) s := by
  have halign := hf.1
  have hne : hugeAt s.mem d (0x400000 * i / 0x400000) ≠ 0 := by
    rw [show 0x400000 * i / 0x400000 = i by omega, hugeAt_ne_zero_iff]
    omega
  have hstart : deallocStart s.mem d (0x400000 * i) = 1024 * i := by
    rw [deallocStart, if_neg hne]
    omega
  have hloop : (deallocuvm.loop (P2V d) (0x400000 * (i + 1)) (2 ^ 20 + 1) (4096 * (1024 * i))).run s = .ok () s := by
    have hexit : (deallocuvm.loop (P2V d) (0x400000 * (i + 1)) (2 ^ 20) (4096 * (1024 * (i + 1)))).run s = .ok () s := by
      rw [show 2 ^ 20 = 2 ^ 20 - 1 + 1 from rfl, deallocuvm.loop, if_neg (by omega), EStateM.run_pure]
    rw [deallocuvm.loop, if_pos (by omega), bind_ok (dealloc_step_huge hd (by omega) hf hpde heven), hexit]
  rw [deallocuvm_run hd (hs.pde d o hd hdir _ (by omega)) (by omega) (by omega), hstart, bind_ok hloop, EStateM.run_pure]

/-- `deallocuvm` removes exactly its range if and only if no huge page starts there. -/
theorem deallocuvm_exact_iff (hs : Sys s g) (hd : IsFrame d) (hdir : g.own d = .dir o) (hold : oldsz ≤ KERNBASE)
    (hnew : newsz < oldsz) : DeallocExact s d oldsz newsz ↔ NoHugeStart s.mem d oldsz newsz := by
  have hold : oldsz ≤ 0x80000000 := hold
  constructor
  · intro hexact i hlo hhi
    by_contra hne
    exact not_deallocExact_of_huge hs hd hdir hold hnew hlo hhi hne hexact
  · intro hnone
    have hquiet : Quiet s.mem d (deallocStart s.mem d newsz) ((oldsz + 4095) / 4096) := by
      refine ⟨deallocStart_slot newsz, fun i f hlo hhi hf hpde => ?_⟩
      have halign := hf.1
      have hat := hnone i hlo (by omega)
      rw [hugeAt_of_huge (by omega) (by omega)] at hat
      omega
    obtain ⟨s', g', hrun, hs', hswept⟩ := deallocuvm_spec hs hd hdir hold hnew hquiet
    exact ⟨s', hrun, hswept.removed hs hs' hd hdir hold (deallocStart_slot newsz) hnone⟩

/-- The one page of the first process is removed. -/
theorem deallocuvm_exact_first : ∃ s s' g d, (main 1 []).run (Machine.reset fun _ => 0) = .ok () s ∧
    (growhugeproc 0 0x400000).run s = .ok 0 s' ∧ Sys s' g ∧ (s'.proc 0).pgdir = P2V d ∧
    NoHugeStart s'.mem d 4096 0 ∧ DeallocExact s' d 4096 0 := by
  obtain ⟨s, s', g, d, k, hrun, hgrow, h⟩ := boot_grown
  have hd := h.holds.toProcDir
  have hnone : NoHugeStart s'.mem d 4096 0 := by
    intro i _ hi
    by_contra hne
    have := (hd.layout.huge i (by omega)).1 hne
    omega
  exact ⟨s, s', g, d, hrun, hgrow, h.sound.sys, hd.pgdir, hnone,
    (deallocuvm_exact_iff h.sound.sys hd.frame hd.role (by decide) (by decide)).2 hnone⟩

/-- The first process maps one huge page, and `deallocuvm` is asked to take it
away: the page is still mapped afterwards and no frame has been freed. -/
theorem deallocuvm_keeps_huge : ∃ s s' d, (main 1 []).run (Machine.reset fun _ => 0) = .ok () s ∧
    (growhugeproc 0 0x400000).run s = .ok 0 s' ∧ (s'.proc 0).pgdir = P2V d ∧
    (deallocuvm (P2V d) (HUGE_VA_OFFSET + 0x400000) HUGE_VA_OFFSET).run s' = .ok HUGE_VA_OFFSET s' ∧
    translate s'.mem d HUGE_VA_OFFSET ≠ none ∧ ¬ DeallocExact s' d (HUGE_VA_OFFSET + 0x400000) HUGE_VA_OFFSET := by
  obtain ⟨s, s', g', d, k, hrun, hgrow, h⟩ := boot_grown
  have hs := h.sound.sys
  have hd := h.holds.toProcDir
  have hmapped : hugeAt s'.mem d 120 ≠ 0 := (hd.layout.huge 120 (by omega)).2 (by rw [h.hugesz]; omega)
  obtain ⟨f, hf, -, hpde, -⟩ := (hs.hugeAt_user hd.frame hd.role (show 120 < 512 by omega)).resolve_left hmapped
  have hword := h.zero f hf hpde
  refine ⟨s, s', d, hrun, hgrow, hd.pgdir,
    deallocuvm_skips hs hd.frame hd.role (show 120 < 512 by omega) hf hpde (by omega),
    translate_ne_none (by decide) hmapped,
    not_deallocExact_of_huge hs hd.frame hd.role (by decide) (by decide) (i := 120) ?_ (by decide) hmapped⟩
  rw [deallocStart, show HUGE_VA_OFFSET / 0x400000 = 120 from rfl, if_neg hmapped]
  decide

end exact

end xv6
