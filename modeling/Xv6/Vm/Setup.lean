import Xv6.Vm.Kernel
import Xv6.Vm.Other

open bytes outcome Function

namespace xv6

/-- A new directory `d` with the kernel half mapped and an empty user half. -/
structure NewDir (d : Nat) (s : Machine) (g : Ghost) (s' : Machine) (g' : Ghost) : Prop where
  frame : IsFrame d
  was : g.own d = .free
  dir : g'.own d = .dir .temp
  within : Within (fun x r => x = d ∨ r = .free ∨ ∃ i, r = .table d i) (fun _ => False) s g s' g'
  own : ∀ x, g.own x ≠ .free → g'.own x = g.own x
  kern : KernOK s'.mem d
  low : ∀ i < 512, entry s'.mem d i = 0
  free : g.free.length = g'.free.length + 65
  hown : g'.hown = g.hown
  hfree : g'.hfree = g.hfree
  frees : s'.frees = s.frees

/-- Frames have been taken and given back; everything in use is as before. -/
structure Idle (s : Machine) (g : Ghost) (s' : Machine) (g' : Ghost) : Prop extends
    Within (fun _ r => r = .free) (fun _ => False) s g s' g' where
  hfree : g'.hfree = g.hfree

theorem Idle.refl (s : Machine) (g : Ghost) : Idle s g s g := ⟨Within.refl _ _ _ _, rfl⟩

theorem Idle.own_eq {s s' : Machine} {g g' : Ghost} (h : Idle s g s' g') {x : Nat} (hx : IsFrame x) :
    g'.own x = g.own x := by
  rcases h.role x hx with ⟨h₁, h₂⟩ | h
  · rw [h₁, h₂]
  · exact h

theorem Idle.hown_eq {s s' : Machine} {g g' : Ghost} (h : Idle s g s' g') {x : Nat} (hx : IsHuge x) :
    g'.hown x = g.hown x := by
  rcases h.hrole x hx with ⟨h, _⟩ | h
  · exact h.elim
  · exact h

theorem mappages_row {pgdir virt size pa perm k last : Nat}
    (hbase : ¬ (HUGE_PAGE_START ≤ pa ∧ pa < HUGE_PAGE_END))
    (hlast : PGROUNDDOWN (u32 (virt + size + (2 ^ 32 - 1))) = 4096 * last)
    (hfirst : PGROUNDDOWN virt = 4096 * k) :
    mappages pgdir virt size pa perm = mappages.baseLoop pgdir (4096 * last) perm (2 ^ 20) (4096 * k) pa := by
  rw [mappages, if_neg hbase, hlast, hfirst]

theorem or_row {perm pv p : Nat} (hp : p % 4096 = 0) (hpv : perm ||| PTE_P = pv) (hlt : pv < 4096) :
    p ||| perm ||| PTE_P = p + pv := by
  have h := Nat.two_pow_add_eq_or_of_lt (i := 12) (b := pv) (by omega) (p / 4096)
  rw [Nat.or_assoc, hpv]
  rw [show 2 ^ 12 * (p / 4096) = p by omega] at h
  exact h.symm

section setup

variable {s : Machine} {g : Ghost} {d : Nat} {L : List Nat}

/-- The assignment after a frame was taken off the free list as a directory. -/
def Ghost.started (g : Ghost) (d : Nat) (L : List Nat) : Ghost :=
  { g with own := update g.own d (.dir .temp), free := L }

/-- The zeroed frame that `setupkvm` starts from. -/
theorem setup_start (hs : Sys s g) (hfree : g.free = d :: L) :
    Sys (s.popped d (fill s.mem d 0 4096))
      (g.started d L) := by
  obtain ⟨hd, _⟩ := (hs.mem_free d).1 (by simp [hfree])
  have hs₁ := hs.popped hfree (fun x hx hne => fill_sameOn_frame (c := 0) hd hx hne)
    (fun x hx => fill_sameOn_huge hd hx)
  have hs₂ := hs₁.add_dir .temp (update_self _ _ _) (fun i hi => fill_entry_zero hi)
  have hidem : update (g.popped d L).own d (.dir .temp) = update g.own d (.dir .temp) := update_idem _ _ _
  rwa [hidem] at hs₂

theorem setup_within (hs : Sys s g) (hfree : g.free = d :: L) :
    Within (fun x r => x = d ∨ r = .free ∨ ∃ i, r = .table d i) (fun _ => False) s g
      (s.popped d (fill s.mem d 0 4096)) (g.started d L) := by
  obtain ⟨hd, _⟩ := (hs.mem_free d).1 (by simp [hfree])
  have h : Within (fun x _ => x = d) (fun _ => False) s g (s.popped d (fill s.mem d 0 4096))
      (g.started d L) :=
    Within.frame (fun f hf => update_of_ne hf _ _) rfl (fun f hf hne => fill_sameOn_frame hd hf hne)
      (fun f hf => fill_sameOn_huge hd hf) rfl
  exact h.mono (fun x r h => .inl h) (fun _ h => h)

/-- A directory that was built from free frames and torn down again leaves no trace. -/
theorem Freed.idle {s' s'' : Machine} {g' g'' : Ghost} (hfreed : Freed (OwnedBy g' d) s' g' s'' g'')
    (hs : Sys s g) (hrole : g.own d = .free)
    (hwithin : Within (WholeArea d) (fun _ => False) s g s' g') (hhfree : g'.hfree = g.hfree) :
    Idle s g s'' g'' := by
  have hbefore {x : Nat} (hx : IsFrame x) (h : WholeArea d x (g.own x)) : g.own x = .free := by
    rcases h with h | h | ⟨i, h⟩ | ⟨i, j, h⟩
    · rw [h, hrole]
    · exact h
    · obtain ⟨_, _, _, o, ho⟩ := hs.table_up x d i hx h
      simp [hrole] at ho
    · obtain ⟨_, _, t, _, ht, htable, _⟩ := hs.page_up x d i j hx h
      obtain ⟨_, _, _, o, ho⟩ := hs.table_up t d i ht htable
      simp [hrole] at ho
  have howned {x : Nat} (h : OwnedBy g' d x) : WholeArea d x (g'.own x) := by
    rcases h with h | h | h
    · exact .inl h
    · exact .inr (.inr (.inl h))
    · exact .inr (.inr (.inr h))
  have hkeep {x : Nat} (hx : IsFrame x) (hfr : g.own x ≠ .free) : g'.own x = g.own x := by
    rcases hwithin.role x hx with ⟨h, _⟩ | h
    · exact absurd (hbefore hx h) hfr
    · exact h
  have hnot {x : Nat} (hx : IsFrame x) (hfr : g.own x ≠ .free) : ¬ OwnedBy g' d x := by
    intro h
    have harea := howned h
    rw [hkeep hx hfr] at harea
    exact hfr (hbefore hx harea)
  exact
    { role := by
        intro x hx
        by_cases hfr : g.own x = .free
        · left
          refine ⟨hfr, ?_⟩
          by_cases hown : OwnedBy g' d x
          · exact hfreed.freed x hx hown
          · rw [hfreed.kept x hx hown]
            rcases hwithin.role x hx with ⟨_, h | h | h | h⟩ | h
            · exact absurd (.inl h) hown
            · exact h
            · exact absurd (.inr (.inl h)) hown
            · exact absurd (.inr (.inr h)) hown
            · rw [h, hfr]
        · right
          rw [hfreed.kept x hx (hnot hx hfr), hkeep hx hfr]
      same := by
        intro x hx hfr
        refine (hwithin.same x hx fun h => hfr (hbefore hx h)).trans (hfreed.same x hx (hnot hx hfr) ?_)
        rwa [hkeep hx hfr]
      hrole := by
        intro x hx
        right
        rw [hfreed.hown x hx]
        rcases hwithin.hrole x hx with ⟨h, _⟩ | h
        · exact h.elim
        · exact h
      hsame := fun x hx _ => (hwithin.hsame x hx id).trans (hfreed.hsame x hx)
      rest := by rw [hfreed.rest, hwithin.rest]
      hfree := hfreed.hfree.trans hhfree }

theorem buildArea_whole {x : Nat} {r : Role} (h : x = d ∨ r = .free ∨ ∃ i, r = .table d i) :
    WholeArea d x r := by
  rcases h with h | h | h
  · exact .inl h
  · exact .inr (.inl h)
  · exact .inr (.inr (.inl h))

/-- When the tables cannot be allocated, `freevm` returns every frame. -/
theorem setup_fail (hs : Sys s g) (hfree : g.free = d :: L) {s' : Machine} {g' : Ghost} (hs' : Sys s' g')
    (hstep : KStep d (s.popped d (fill s.mem d 0 4096)) (g.started d L) s' g') :
    ∃ s'' g'', (do freevm (P2V d); return 0 : KernelM Nat).run s' = .ok 0 s'' ∧ Sys s'' g'' ∧
      Idle s g s'' g'' := by
  obtain ⟨hd, hrole⟩ := (hs.mem_free d).1 (by simp [hfree])
  have hdir : g'.own d = .dir .temp := by
    have h : (g.started d L).own d = .dir .temp := update_self _ _ _
    exact (hstep.own d (by simp [h])).trans h
  have hnone (i : Nat) (hi : i < 512) : hugeAt s'.mem d i = 0 := by
    have hz : entry s'.mem d i = 0 := (hstep.low_eq i hi).trans (fill_entry_zero (by omega))
    exact hugeAt_of_not (by omega)
  obtain ⟨s'', g'', hrun, hs'', hfreed⟩ := freevm_complete hs' hd hdir hnone
  refine ⟨s'', g'', by rw [bind_ok hrun, EStateM.run_pure], hs'', hfreed.idle hs hrole ?_ hstep.hfree⟩
  exact ((setup_within hs hfree).trans hstep.within).mono (fun _ _ h => buildArea_whole h) fun _ h => h

/-- A row of `kmap` covers the pages `k` to `last` and gives them the flags `pv`. -/
structure RowOK (row : KMap) (k last pv : Nat) : Prop where
  base : ¬ (HUGE_PAGE_START ≤ row.phys_start ∧ row.phys_start < HUGE_PAGE_END)
  last_eq : PGROUNDDOWN (u32 (row.virt + u32 (row.phys_end + (2 ^ 32 - row.phys_start)) + (2 ^ 32 - 1))) =
    4096 * last
  first_eq : PGROUNDDOWN row.virt = 4096 * k
  flags : row.perm ||| PTE_P = pv
  flags_lt : pv < 4096
  last_lt : last < 2 ^ 20
  high : 2 ^ 19 ≤ k
  le : k ≤ last
  align : row.phys_start % 4096 = 0
  fits : row.phys_start + 4096 * (last - k) + 4096 ≤ 2 ^ 32

theorem row_io : RowOK ⟨KERNBASE, 0, EXTMEM, PTE_W⟩ (2 ^ 19) (2 ^ 19 + 255) 3 := by
  constructor <;> decide

theorem row_text : RowOK ⟨KERNLINK, V2P KERNLINK, V2P data, 0⟩ (2 ^ 19 + 256) (2 ^ 19 + 264) 1 := by
  constructor <;> decide

theorem row_data : RowOK ⟨data, V2P data, PHYSTOP, PTE_W⟩ (2 ^ 19 + 265) (2 ^ 19 + 57343) 3 := by
  constructor <;> decide

theorem row_dev : RowOK ⟨DEVSPACE, DEVSPACE, 0, PTE_W⟩ 0xFE000 0xFFFFF 3 := by
  constructor <;> decide

/-- One row of `kmap` with 4KB pages. -/
theorem setup_row (hs : Sys s g) (hfree : g.free = d :: L) {row : KMap} (rest : List KMap) {k last pv : Nat}
    (hrow : RowOK row k last pv) {s₁ : Machine} {g₁ : Ghost} (hs₁ : Sys s₁ g₁)
    (hstep : KStep d (s.popped d (fill s.mem d 0 4096)) (g.started d L) s₁ g₁)
    (hzero : ∀ k', k ≤ k' → k' ≤ last → lookup s₁.mem d k' = 0)
    (hhuge : ∀ i < 1024, hugeAt s₁.mem d i = 0)
    (hslots : ∀ i, k / 1024 < i → i ≤ last / 1024 → entry s₁.mem d i = 0) :
    (∃ s₂ g₂, (setupkvm.loop (P2V d) (row :: rest)).run s₁ = (setupkvm.loop (P2V d) rest).run s₂ ∧
      Sys s₂ g₂ ∧ KMapped d k last (fun k' => row.phys_start + 4096 * (k' - k) + pv) s₁ g₁ s₂ g₂) ∨
    ∃ s'' g'', (setupkvm.loop (P2V d) (row :: rest)).run s₁ = .ok 0 s'' ∧ Sys s'' g'' ∧ Idle s g s'' g'' ∧
      g₁.free.length < (if entry s₁.mem d (k / 1024) = 0 then 1 else 0) + (last / 1024 - k / 1024) := by
  obtain ⟨hd, _⟩ := (hs.mem_free d).1 (by simp [hfree])
  have hdir : g₁.own d = .dir .temp := by
    have h : (g.started d L).own d = .dir .temp := update_self _ _ _
    exact (hstep.own d (by simp [h])).trans h
  have hlt := hrow.last_lt
  rw [setupkvm.loop, mappages_row hrow.base hrow.last_eq hrow.first_eq]
  rcases baseLoop_range hd (fun p hp => or_row hp hrow.flags hrow.flags_lt) hrow.flags_lt hlt (2 ^ 20) k _ s₁ g₁
      hs₁ hdir hrow.high hrow.le (by omega) hrow.align hrow.fits hzero (fun i _ _ => hhuge i (by omega)) hslots with
    ⟨s₂, g₂, hrun, hs₂, hmap⟩ | ⟨s₂, g₂, hrun, hs₂, hkstep, _, hshort⟩
  · left
    exact ⟨s₂, g₂, by rw [bind_ok hrun, if_neg (by omega)], hs₂, hmap⟩
  · right
    obtain ⟨s'', g'', hfail, hs'', hidle⟩ := setup_fail hs hfree hs₂ (hstep.trans hkstep)
    exact ⟨s'', g'', by rw [bind_ok hrun, if_pos (by omega), hfail], hs'', hidle, hshort⟩

/-- The last row of `kmap`, which the physical address makes a row of 4MB entries. -/
theorem setup_huge {s₁ : Machine} {g₁ : Ghost} (hd : IsFrame d) (hs₁ : Sys s₁ g₁) {o : DirOwner}
    (hdir : g₁.own d = .dir o) (hzero : ∀ i, 632 ≤ i → i ≤ 759 → entry s₁.mem d i = 0) :
    ∃ s', (setupkvm.loop (P2V d)
        [⟨P2V HUGE_PAGE_START, HUGE_PAGE_START, HUGE_PAGE_END, PTE_W ||| PTE_PS⟩]).run s₁ = .ok (P2V d) s' ∧
      Sys s' g₁ ∧ KStep d s₁ g₁ s' g₁ ∧ (∀ k < 2 ^ 20, lookup s'.mem d k = lookup s₁.mem d k) ∧
      ∀ i' < 1024, entry s'.mem d i' =
        if 632 ≤ i' ∧ i' ≤ 759 then (i' - 512) * 0x400000 + 0x83 else entry s₁.mem d i' := by
  obtain ⟨s', hrun, hs', hkstep, hlook, hentry⟩ := hugeLoop_range hd (2 ^ 10) 632 s₁ g₁ hs₁ hdir le_rfl (by omega)
    (by omega) hzero
  refine ⟨s', ?_, hs', hkstep, hlook, hentry⟩
  have hrow : mappages (P2V d) (P2V HUGE_PAGE_START)
      (u32 (HUGE_PAGE_END + (2 ^ 32 - HUGE_PAGE_START))) HUGE_PAGE_START (PTE_W ||| PTE_PS) =
      mappages.hugeLoop (P2V d) (0x400000 * 759) (PTE_W ||| PTE_PS) (2 ^ 10) (0x400000 * 632)
        (0x400000 * (632 - 512)) := by
    rw [mappages, if_pos (by decide)]
    congr 1
  rw [setupkvm.loop, hrow, bind_ok hrun, if_neg (by omega), setupkvm.loop, EStateM.run_pure]

/-- The four rows of 4KB pages, in the order in which `setupkvm` maps them. -/
theorem kpte_rows {k : Nat} (hk : k < 2 ^ 20) :
    (if 0xFE000 ≤ k ∧ k ≤ 0xFFFFF then 0xFE000000 + 4096 * (k - 0xFE000) + 3
      else if 2 ^ 19 + 265 ≤ k ∧ k ≤ 2 ^ 19 + 57343 then 0x109000 + 4096 * (k - (2 ^ 19 + 265)) + 3
      else if 2 ^ 19 + 256 ≤ k ∧ k ≤ 2 ^ 19 + 264 then 0x100000 + 4096 * (k - (2 ^ 19 + 256)) + 1
      else if 2 ^ 19 ≤ k ∧ k ≤ 2 ^ 19 + 255 then 0 + 4096 * (k - 2 ^ 19) + 3
      else 0) = kpte k := by
  unfold kpte
  by_cases hdev : 0xFE000 ≤ k
  · rw [if_pos (by omega), if_neg (by omega), if_neg (by omega), if_neg (by omega), if_pos hdev]
    omega
  · rw [if_neg (by omega)]
    by_cases hdata : 2 ^ 19 + 265 ≤ k ∧ k < 2 ^ 19 + 57344
    · rw [if_pos (by omega), if_neg (by omega), if_neg (by omega), if_pos hdata]
      omega
    · rw [if_neg (by omega)]
      by_cases htext : 2 ^ 19 + 256 ≤ k ∧ k < 2 ^ 19 + 265
      · rw [if_pos (by omega), if_neg (by omega), if_pos htext]
        omega
      · rw [if_neg (by omega)]
        by_cases hio : 2 ^ 19 ≤ k ∧ k < 2 ^ 19 + 256
        · rw [if_pos (by omega), if_pos hio, Nat.zero_add]
        · rw [if_neg (by omega), if_neg hio, if_neg htext, if_neg hdata, if_neg hdev]

/-- `setupkvm` takes 65 frames for a new directory, or leaves everything as it was. -/
theorem setupkvm_spec (hs : Sys s g) :
    (∃ d s' g', setupkvm.run s = .ok (P2V d) s' ∧ Sys s' g' ∧ NewDir d s g s' g') ∨
    ∃ s' g', setupkvm.run s = .ok 0 s' ∧ Sys s' g' ∧ Idle s g s' g' ∧ g.free.length < 65 := by
  cases hfree : g.free with
  | nil =>
    right
    refine ⟨s, g, ?_, hs, Idle.refl s g, by simp⟩
    unfold setupkvm
    rw [bind_ok (kalloc_nil hs hfree), if_pos rfl, EStateM.run_pure]
  | cons d L =>
    obtain ⟨hd, hrole⟩ := (hs.mem_free d).1 (by simp [hfree])
    have hdlt := hd.lt
    have hne : ¬ P2V d = 0 := P2V_ne_zero (by omega)
    have hhigh : ¬ P2V PHYSTOP > DEVSPACE := by decide
    have hrun₀ : setupkvm.run s =
        (setupkvm.loop (P2V d) kmap).run (s.popped d (fill s.mem d 0 4096)) := by
      unfold setupkvm
      rw [bind_ok (kalloc_cons hs hfree), if_neg hne, memset_bind, if_neg hhigh, V2P_P2V (by omega)]
      rfl
    rw [hrun₀, kmap]
    have hs₀ := setup_start hs hfree
    have hdir₀ : (g.started d L).own d = .dir .temp := update_self _ _ _
    have hentry₀ (i : Nat) (hi : i < 1024) : entry (fill s.mem d 0 4096) d i = 0 := fill_entry_zero hi
    have hlook₀ (k : Nat) (hk : k < 2 ^ 20) : lookup (fill s.mem d 0 4096) d k = 0 :=
      lookup_of_absent (by rw [hentry₀ _ (by omega)])
    have hhuge₀ (i : Nat) (hi : i < 1024) : hugeAt (fill s.mem d 0 4096) d i = 0 :=
      hugeAt_of_not (by rw [hentry₀ i hi]; omega)
    rcases setup_row hs hfree _ row_io hs₀ (KStep.refl _ _ _) (fun k _ _ => hlook₀ k (by omega)) hhuge₀
        (fun i _ _ => by omega) with
      ⟨s₁, g₁, hrun₁, hs₁, hmap₁⟩ | ⟨s'', g'', hrun₁, hs'', hidle, hshort⟩
    swap
    · refine .inr ⟨s'', g'', hrun₁, hs'', hidle, ?_⟩
      change L.length < _ at hshort
      rw [List.length_cons]
      split_ifs at hshort <;> omega
    have hlen₁ : L.length = g₁.free.length + 1 := by
      have hlen := hmap₁.free
      have hz : entry (s.popped d (fill s.mem d 0 4096)).mem d (2 ^ 19 / 1024) = 0 := hentry₀ _ (by omega)
      rw [if_pos hz] at hlen
      change L.length = _ at hlen
      omega
    have hentry₁ (i : Nat) (hi : i < 1024) (hne : i ≠ 512) : entry s₁.mem d i = 0 :=
      (hmap₁.entry_eq i hi (by omega)).trans (hentry₀ i hi)
    have hhuge₁ (i : Nat) (hi : i < 1024) : hugeAt s₁.mem d i = 0 := (hmap₁.huge_eq i hi).trans (hhuge₀ i hi)
    have hlook₁ (k : Nat) (hk : k < 2 ^ 20) : lookup s₁.mem d k =
        if 2 ^ 19 ≤ k ∧ k ≤ 2 ^ 19 + 255 then 0 + 4096 * (k - 2 ^ 19) + 3 else 0 := by
      rw [hmap₁.lookup_eq k hk]
      change (if _ then _ else lookup (fill s.mem d 0 4096) d k) = _
      rw [hlook₀ k hk]
    rcases setup_row hs hfree _ row_text hs₁ hmap₁.toKStep
        (fun k h h' => (hlook₁ k (by omega)).trans (if_neg (by omega))) hhuge₁ (fun i _ _ => by omega) with
      ⟨s₂, g₂, hrun₂, hs₂, hmap₂⟩ | ⟨_, _, _, _, _, hshort⟩
    swap
    · have := hmap₁.entry_ne 512 (by omega) (by omega)
      rw [show (2 ^ 19 + 256) / 1024 = 512 by omega, if_neg this] at hshort
      omega
    have hlen₂ : g₁.free.length = g₂.free.length := by
      have hlen := hmap₂.free
      rw [show (2 ^ 19 + 256) / 1024 = 512 by omega, if_neg (hmap₁.entry_ne 512 (by omega) (by omega))] at hlen
      omega
    have hlook₂ (k : Nat) (hk : k < 2 ^ 20) : lookup s₂.mem d k =
        if 2 ^ 19 + 256 ≤ k ∧ k ≤ 2 ^ 19 + 264 then 0x100000 + 4096 * (k - (2 ^ 19 + 256)) + 1
        else lookup s₁.mem d k := by
      rw [hmap₂.lookup_eq k hk, show V2P KERNLINK = 0x100000 by decide]
    have hstep₂ := hmap₁.toKStep.trans hmap₂.toKStep
    have hentry₂ (i : Nat) (hi : i < 1024) (hne : i ≠ 512) : entry s₂.mem d i = 0 :=
      (hmap₂.entry_eq i hi (by omega)).trans (hentry₁ i hi hne)
    have hhuge₂ (i : Nat) (hi : i < 1024) : hugeAt s₂.mem d i = 0 := (hmap₂.huge_eq i hi).trans (hhuge₁ i hi)
    rcases setup_row hs hfree _ row_data hs₂ hstep₂
        (fun k h h' => by rw [hlook₂ k (by omega), if_neg (by omega), hlook₁ k (by omega), if_neg (by omega)])
        hhuge₂ (fun i h h' => hentry₂ i (by omega) (by omega)) with
      ⟨s₃, g₃, hrun₃, hs₃, hmap₃⟩ | ⟨s'', g'', hrun₃, hs'', hidle, hshort⟩
    swap
    · refine .inr ⟨s'', g'', hrun₁.trans (hrun₂.trans hrun₃), hs'', hidle, ?_⟩
      rw [List.length_cons]
      split_ifs at hshort <;> omega
    have hlen₃ : g₂.free.length = g₃.free.length + 55 := by
      have hlen := hmap₃.free
      have hne' := hmap₂.entry_ne 512 (by omega) (by omega)
      rw [show (2 ^ 19 + 265) / 1024 = 512 by omega, if_neg hne'] at hlen
      omega
    have hlook₃ (k : Nat) (hk : k < 2 ^ 20) : lookup s₃.mem d k =
        if 2 ^ 19 + 265 ≤ k ∧ k ≤ 2 ^ 19 + 57343 then 0x109000 + 4096 * (k - (2 ^ 19 + 265)) + 3
        else lookup s₂.mem d k := by
      rw [hmap₃.lookup_eq k hk, show V2P data = 0x109000 by decide]
    have hstep₃ := hstep₂.trans hmap₃.toKStep
    have hentry₃ (i : Nat) (hi : i < 1024) (hne : 567 < i) : entry s₃.mem d i = 0 :=
      (hmap₃.entry_eq i hi (by omega)).trans (hentry₂ i hi (by omega))
    have hhuge₃ (i : Nat) (hi : i < 1024) : hugeAt s₃.mem d i = 0 := (hmap₃.huge_eq i hi).trans (hhuge₂ i hi)
    rcases setup_row hs hfree _ row_dev hs₃ hstep₃
        (fun k h h' => by
          rw [hlook₃ k (by omega), if_neg (by omega), hlook₂ k (by omega), if_neg (by omega),
            hlook₁ k (by omega), if_neg (by omega)])
        hhuge₃ (fun i h h' => hentry₃ i (by omega) (by omega)) with
      ⟨s₄, g₄, hrun₄, hs₄, hmap₄⟩ | ⟨s'', g'', hrun₄, hs'', hidle, hshort⟩
    swap
    · refine .inr ⟨s'', g'', hrun₁.trans (hrun₂.trans (hrun₃.trans hrun₄)), hs'', hidle, ?_⟩
      rw [List.length_cons]
      split_ifs at hshort <;> omega
    have hstep₄ := hstep₃.trans hmap₄.toKStep
    have hentry₄ (i : Nat) (hlo : 567 < i) (hi : i < 1016) : entry s₄.mem d i = 0 :=
      (hmap₄.entry_eq i (by omega) (by omega)).trans (hentry₃ i (by omega) hlo)
    have hdir₄ : g₄.own d = .dir .temp := (hstep₄.own d (by simp [hdir₀])).trans hdir₀
    obtain ⟨s', hrun', hs', hstep', hlook', hentry'⟩ := setup_huge hd hs₄ hdir₄ fun i h h' =>
      hentry₄ i (by omega) (by omega)
    have hstep := hstep₄.trans hstep'
    left
    refine ⟨d, s', g₄, hrun₁.trans (hrun₂.trans (hrun₃.trans (hrun₄.trans hrun'))), hs', ?_⟩
    exact
      { frame := hd
        was := hrole
        dir := hdir₄
        within := (setup_within hs hfree).trans hstep.within
        own := by
          intro x hx
          have hxd : x ≠ d := by
            rintro rfl
            exact hx hrole
          have heq : (g.started d L).own x = g.own x := update_of_ne hxd _ _
          exact (hstep.own x (by rwa [heq])).trans heq
        kern := by
          refine ⟨fun k hlo hk => ?_, fun i hlo hi => ?_⟩
          · rw [hlook' k hk, hmap₄.lookup_eq k hk, hlook₃ k hk, hlook₂ k hk, hlook₁ k hk]
            exact kpte_rows hk
          · by_cases hr : 632 ≤ i ∧ i ≤ 759
            · have hpde := hentry' i hi
              rw [if_pos hr] at hpde
              rw [hugeAt_of_huge (by omega) (by omega), hpde, kpde, if_pos (by omega)]
            · rw [hugeAt_congr ((hentry' i hi).trans (if_neg hr)), hmap₄.huge_eq i hi, hhuge₃ i hi, kpde,
                if_neg (by omega)]
        low := fun i hi => (hstep.low_eq i hi).trans (hentry₀ i (by omega))
        free := by
          have hlen₄ := hmap₄.free
          rw [if_pos (hentry₃ _ (by omega) (by omega))] at hlen₄
          rw [hfree, List.length_cons]
          omega
        hown := hstep.hown
        hfree := hstep.hfree
        frees := hstep.frees }

end setup

end xv6
