import Xv6.System.GrowExact

open bytes outcome

namespace xv6

/-- What a page directory has a frame for: itself, a page table, a user page or a huge user page. -/
inductive Place where
  | dir
  | table (i : Nat)
  | page (k : Nat)
  | huge (i : Nat)
  deriving DecidableEq

/-- The frame that directory `d` has in a place. -/
def frameAt (m : Mem) (d : Nat) : Place → Option Nat
  | .dir => some d
  | .table i =>
    if i < 1024 ∧ hasFlag (entry m d i) PTE_P ∧ ¬ hasFlag (entry m d i) PTE_PS then some (PTE_ADDR (entry m d i)) else none
  | .page k => if k < 2 ^ 19 ∧ lookup m d k ≠ 0 then some (PTE_ADDR (lookup m d k)) else none
  | .huge i => if i < 512 ∧ hugeAt m d i ≠ 0 then some (PTE_ADDR (hugeAt m d i)) else none

/-- Directory `d` in state `s'` is a copy of the address space that directory `p`
had in state `s`, made of frames that were free, and `p` is as it was. -/
structure CopyOf (p d sz hugesz : Nat) (free hfree : List Nat) (s s' : Machine) : Prop where
  copied : ∀ va, (va < sz ∨ HUGE_VA_OFFSET ≤ va ∧ va < HUGE_VA_OFFSET + hugesz) →
    ∃ t t', translate s.mem p va = some t ∧ translate s'.mem d va = some t' ∧ t'.huge = t.huge ∧ t'.flags = t.flags ∧
      s'.mem t'.pa = s.mem t.pa
  only : ∀ va < KERNBASE, translate s'.mem d va ≠ none →
    va < PGROUNDUP sz ∨ HUGE_VA_OFFSET ≤ va ∧ va < HUGE_VA_OFFSET + HUGEPGROUNDUP hugesz
  fresh : ∀ a x, frameAt s'.mem d a = some x → x ∈ free ∨ x ∈ hfree
  distinct : ∀ a b x, frameAt s'.mem d a = some x → frameAt s'.mem d b = some x → a = b
  apart : ∀ a b x, frameAt s'.mem d a = some x → frameAt s.mem p b ≠ some x
  dir : ∀ i < 1024, entry s'.mem p i = entry s.mem p i
  table : ∀ k < 2 ^ 20, lookup s'.mem p k = lookup s.mem p k
  memory : ∀ va < KERNBASE, ∀ t, translate s.mem p va = some t → s'.mem t.pa = s.mem t.pa

section places

variable {s s' : Machine} {g g' : Ghost} {p d x : Nat} {o o' : DirOwner} {a b : Place}

/-- The place of a frame is its role. -/
def Place.Role (g : Ghost) (d x : Nat) : Place → Prop
  | .dir => IsFrame x ∧ x = d
  | .table i => IsFrame x ∧ g.own x = .table d i
  | .page k => IsFrame x ∧ g.own x = .page d (k / 1024) (k % 1024)
  | .huge i => IsHuge x ∧ g.hown x = .page d i

theorem Sys.role_of_frameAt (hs : Sys s g) (hd : IsFrame d) (hdir : g.own d = .dir o) (h : frameAt s.mem d a = some x) :
    a.Role g d x := by
  cases a with
  | dir => exact ⟨Option.some.inj h ▸ hd, (Option.some.inj h).symm⟩
  | table i =>
    simp only [frameAt, Option.ite_none_right_eq_some, Option.some.injEq] at h
    obtain ⟨⟨hi, hp, hps⟩, rfl⟩ := h
    rw [hasFlag_P] at hp
    rw [hasFlag_PS] at hps
    rcases hs.pde d o hd hdir i hi with h | ⟨t, ht, htable, h⟩ | ⟨_, f, hf, _, h⟩ | ⟨_, _, h⟩
    · omega
    · rw [h, PTE_ADDR_add ht.1 (by omega)]
      exact ⟨ht, htable⟩
    · have halign := hf.1
      omega
    · omega
  | page k =>
    simp only [frameAt, Option.ite_none_right_eq_some, Option.some.injEq] at h
    obtain ⟨⟨hk, hne⟩, rfl⟩ := h
    obtain ⟨f, fl, hf, hrole, hfl, -, heq⟩ := (hs.lookup_user hd hdir hk).resolve_left hne
    rw [heq, PTE_ADDR_add hf.1 hfl]
    exact ⟨hf, hrole⟩
  | huge i =>
    simp only [frameAt, Option.ite_none_right_eq_some, Option.some.injEq] at h
    obtain ⟨⟨hi, hne⟩, rfl⟩ := h
    obtain ⟨f, hf, hrole, -, hat⟩ := (hs.hugeAt_user hd hdir hi).resolve_left hne
    have halign := hf.1
    rw [hat, PTE_ADDR_add (by omega) (by omega)]
    exact ⟨hf, hrole⟩

theorem not_huge_of_frame (hx : IsFrame x) (hx' : IsHuge x) : False := by
  have := hx.apart_huge hx'
  omega

/-- A frame has one role, so a directory has it in one place only. -/
theorem Place.Role.unique (hdir : g.own d = .dir o) (ha : a.Role g d x) (hb : b.Role g d x) : a = b := by
  cases a <;> cases b
  all_goals
    obtain ⟨hx, ha⟩ := ha
    obtain ⟨hx', hb⟩ := hb
  case dir.dir => rfl
  case dir.table => simp [ha, hdir] at hb
  case dir.page => simp [ha, hdir] at hb
  case table.dir => simp [hb, hdir] at ha
  case page.dir => simp [hb, hdir] at ha
  case table.table i j =>
    rw [ha, Role.table.injEq] at hb
    rw [hb.2]
  case table.page => simp [ha] at hb
  case page.table => simp [ha] at hb
  case page.page k j =>
    rw [ha, Role.page.injEq] at hb
    rw [show k = j by omega]
  case huge.huge i j =>
    rw [ha, HugeRole.page.injEq] at hb
    rw [hb.2]
  all_goals first
    | exact (not_huge_of_frame hx hx').elim
    | exact (not_huge_of_frame hx' hx).elim

/-- Two directories share no frame. -/
theorem Place.Role.apart (hdir : g.own d = .dir o) (hdir' : g.own p = .dir o') (hne : p ≠ d) (ha : a.Role g d x)
    (hb : b.Role g p x) : False := by
  cases a <;> cases b
  all_goals
    obtain ⟨hx, ha⟩ := ha
    obtain ⟨hx', hb⟩ := hb
  case dir.dir => exact hne (hb.symm.trans ha)
  case dir.table => simp [ha, hdir] at hb
  case dir.page => simp [ha, hdir] at hb
  case table.dir => simp [hb, hdir'] at ha
  case page.dir => simp [hb, hdir'] at ha
  case table.table =>
    rw [ha, Role.table.injEq] at hb
    exact hne hb.1.symm
  case table.page => simp [ha] at hb
  case page.table => simp [ha] at hb
  case page.page =>
    rw [ha, Role.page.injEq] at hb
    exact hne hb.1.symm
  case huge.huge =>
    rw [ha, HugeRole.page.injEq] at hb
    exact hne hb.1.symm
  all_goals first
    | exact not_huge_of_frame hx hx'
    | exact not_huge_of_frame hx' hx

end places

section copy

variable {s s' : Machine} {g g' : Ghost} {p d x sz hugesz va : Nat} {o : DirOwner}

theorem Forked.fresh (h : Forked p d sz hugesz s g s' g') (hs : Sys s g) {a : Place} (ha : a.Role g' d x) :
    x ∈ g.free ∨ x ∈ g.hfree := by
  have hno (o : DirOwner) : g.own d ≠ .dir o := by simp [h.was]
  cases a with
  | dir => exact .inl ((hs.mem_free x).2 ⟨ha.1, ha.2 ▸ h.was⟩)
  | table i =>
    refine .inl ((hs.mem_free x).2 ⟨ha.1, ?_⟩)
    by_contra hne
    obtain ⟨-, -, -, o, hdir⟩ := hs.table_up x d i ha.1 ((h.own x hne).symm.trans ha.2)
    exact hno o hdir
  | page k =>
    refine .inl ((hs.mem_free x).2 ⟨ha.1, ?_⟩)
    by_contra hne
    obtain ⟨-, -, t, -, ht, htable, -⟩ := hs.page_up x d _ _ ha.1 ((h.own x hne).symm.trans ha.2)
    obtain ⟨-, -, -, o, hdir⟩ := hs.table_up t d _ ht htable
    exact hno o hdir
  | huge i =>
    refine .inr ((hs.mem_hfree x).2 ⟨ha.1, ?_⟩)
    by_contra hne
    obtain ⟨-, -, -, o, hdir⟩ := hs.huge_up x d i ha.1 ((h.hown x hne).symm.trans ha.2)
    exact hno o hdir

theorem PTE_FLAGS_add {f fl : Nat} (hf : f % 4096 = 0) (hfl : fl < 4096) : PTE_FLAGS (f + fl) = fl := by
  simp only [PTE_FLAGS]
  omega

/-- A page of the copy translates as in the parent, to the same bytes. -/
theorem Forked.base (h : Forked p d sz hugesz s g s' g') (hs : Sys s g) (hs' : Sys s' g') (hp : IsFrame p)
    (hpdir : g.own p = .dir o) (hl : Layout s.mem p sz hugesz) (hva : va < sz) :
    ∃ t t', translate s.mem p va = some t ∧ translate s'.mem d va = some t' ∧ t'.huge = t.huge ∧ t'.flags = t.flags ∧
      s'.mem t'.pa = s.mem t.pa := by
  have hsz := hl.sz_le hs hp hpdir
  obtain ⟨hne, hflags, hbytes⟩ := h.pages (va / 4096) (by omega)
  have hne' := (hl.base (va / 4096) (by omega)).2 (by omega)
  obtain ⟨f, fl, hf, -, hfl, -, hlook, -, htr⟩ : ∃ f fl, IsFrame f ∧ g.own f = .page p (va / 0x400000) (va / 4096 % 1024) ∧
      fl < 4096 ∧ fl % 2 = 1 ∧ lookup s.mem p (va / 4096) = f + fl ∧ hugeAt s.mem p (va / 0x400000) = 0 ∧
      translate s.mem p va = some ⟨f + va % 4096, false, fl, hasFlag fl PTE_W, hasFlag fl PTE_U⟩ := by
    rcases hs.translate_user hp hpdir (show va < 0x80000000 by omega) with ⟨-, -, hz⟩ | hbase | ⟨f, -, -, -, hz, -⟩
    · exact absurd hz hne'
    · exact hbase
    · exact absurd hz hne'
  rcases hs'.translate_user h.frame h.dir (show va < 0x80000000 by omega) with
    ⟨-, -, hz⟩ | ⟨f', fl', hf', -, hfl', -, hlook', -, htr'⟩ | ⟨f', -, -, -, hz, -⟩
  · exact absurd hz hne
  · rw [hlook, hlook', PTE_FLAGS_add hf.1 hfl, PTE_FLAGS_add hf'.1 hfl'] at hflags
    rw [hlook, hlook', PTE_ADDR_add hf.1 hfl, PTE_ADDR_add hf'.1 hfl'] at hbytes
    exact ⟨_, _, htr, htr', rfl, hflags, hbytes _ (Nat.mod_lt _ (by omega))⟩
  · exact absurd hz hne

theorem Forked.huge (h : Forked p d sz hugesz s g s' g') (hs : Sys s g) (hs' : Sys s' g') (hp : IsFrame p)
    (hpdir : g.own p = .dir o) (hl : Layout s.mem p sz hugesz) (hlo : 0x1E000000 ≤ va) (hhi : va < 0x1E000000 + hugesz) :
    ∃ t t', translate s.mem p va = some t ∧ translate s'.mem d va = some t' ∧ t'.huge = t.huge ∧ t'.flags = t.flags ∧
      s'.mem t'.pa = s.mem t.pa := by
  have hhsz := hl.hugesz_le hs hp hpdir
  obtain ⟨hne, -, hbytes⟩ := h.huges (va / 0x400000) (by omega) (by omega)
  have hne' := (hl.huge (va / 0x400000) (by omega)).2 ⟨by omega, by omega⟩
  rcases hs.translate_user hp hpdir (show va < 0x80000000 by omega) with
    ⟨-, hz, -⟩ | ⟨f, fl, -, -, -, -, -, hz, -⟩ | ⟨f, hf, -, hat, -, htr⟩
  · exact absurd hz hne'
  · exact absurd hz hne'
  · rcases hs'.translate_user h.frame h.dir (show va < 0x80000000 by omega) with
      ⟨-, hz, -⟩ | ⟨f, fl, -, -, -, -, -, hz, -⟩ | ⟨f', hf', -, hat', -, htr'⟩
    · exact absurd hz hne
    · exact absurd hz hne
    · have halign := hf.1
      have halign' := hf'.1
      rw [hat, hat', PTE_ADDR_add (by omega) (by omega), PTE_ADDR_add (by omega) (by omega)] at hbytes
      exact ⟨_, _, htr, htr', rfl, rfl, hbytes _ (Nat.mod_lt _ (by omega))⟩

theorem Forked.copyOf (h : Forked p d sz hugesz s g s' g') (hs : Sys s g) (hs' : Sys s' g') (hp : IsFrame p)
    (hpdir : g.own p = .dir o) (hl : Layout s.mem p sz hugesz) : CopyOf p d sz hugesz g.free g.hfree s s' := by
  have hsz := hl.sz_le hs hp hpdir
  have hhsz := hl.hugesz_le hs hp hpdir
  have hpd : p ≠ d := by
    rintro rfl
    simp [h.was] at hpdir
  have hout := Outside.whole hpd hpdir (.inl h.was)
  have hview := h.within.view_eq hs hp hpdir hout
  have hpdir' : g'.own p = .dir o := (h.own p (by simp [hpdir])).trans hpdir
  have hplaces (b : Place) : frameAt s'.mem p b = frameAt s.mem p b := by
    cases b with
    | dir => rfl
    | table i =>
      by_cases hi : i < 1024
      · simp only [frameAt, hview.2 i hi]
      · simp only [frameAt, hi, false_and, if_false]
    | page k =>
      by_cases hk : k < 2 ^ 19
      · simp only [frameAt, hview.1 k (by omega)]
      · simp only [frameAt, hk, false_and, if_false]
    | huge i =>
      by_cases hi : i < 512
      · simp only [frameAt, hugeAt_congr (hview.2 i (by omega))]
      · simp only [frameAt, hi, false_and, if_false]
  exact
    { copied := fun va hva => by
        rcases hva with hva | ⟨hlo, hhi⟩
        · exact h.base hs hs' hp hpdir hl hva
        · exact h.huge hs hs' hp hpdir hl hlo hhi
      only := fun va hva hne => by
        have hva : va < 0x80000000 := hva
        have hround : PGROUNDUP sz = 4096 * ((sz + 4095) / 4096) ∧
            HUGEPGROUNDUP hugesz = 0x400000 * ((hugesz + 0x3FFFFF) / 0x400000) := by
          simp only [PGROUNDUP, HUGEPGROUNDUP, u32, PGSIZE]
          omega
        rw [hround.1, hround.2]
        simp only [HUGE_VA_OFFSET]
        rcases hs'.translate_user h.frame h.dir hva with
          ⟨hn, -⟩ | ⟨f, fl, hf, -, -, hodd, hlook, -⟩ | ⟨f, hf, -, hat, -⟩
        · exact absurd hn hne
        · have := (h.layout.base (va / 4096) (by omega)).1 (by omega)
          omega
        · have := (h.layout.huge (va / 0x400000) (by omega)).1 (by omega)
          omega
      fresh := fun a x ha => h.fresh hs (hs'.role_of_frameAt h.frame h.dir ha)
      distinct := fun a b x ha hb =>
        (hs'.role_of_frameAt h.frame h.dir ha).unique h.dir (hs'.role_of_frameAt h.frame h.dir hb)
      apart := fun a b x ha hb => by
        rw [← hplaces b] at hb
        exact (hs'.role_of_frameAt h.frame h.dir ha).apart h.dir hpdir' hpd (hs'.role_of_frameAt hp hpdir' hb)
      dir := hview.2
      table := hview.1
      memory := fun va hva t ht => by
        have hva : va < 0x80000000 := hva
        rcases hs.translate_user hp hpdir hva with ⟨hn, -⟩ | ⟨f, fl, hf, hrole, -, -, -, -, heq⟩ | ⟨f, hf, hrole, -, -, heq⟩
        · simp [hn] at ht
        · obtain rfl := Option.some.inj (heq.symm.trans ht)
          exact h.within.page_same hf hrole hout _ (Nat.le_add_right _ _) (Nat.add_lt_add_left (Nat.mod_lt _ (by omega)) f)
        · obtain rfl := Option.some.inj (heq.symm.trans ht)
          have harea : ¬ HugeArea d (g.hown f) := by
            rw [hrole]
            rintro (h | ⟨i, h⟩)
            · cases h
            · exact hpd (HugeRole.page.inj h).1
          exact h.within.hsame f hf harea _ (Nat.le_add_right _ _) (Nat.add_lt_add_left (Nat.mod_lt _ (by omega)) f) }

/-- When `copyuvm` returns a directory, it is a copy of the parent's address space. -/
theorem copyuvm_copyOf (hs : Sys s g) (hp : IsFrame p) (hpdir : g.own p = .dir o) (hl : Layout s.mem p sz hugesz) {r : Nat}
    (hrun : (copyuvm (P2V p) sz hugesz).run s = .ok r s') (hr : r ≠ 0) :
    ∃ d, r = P2V d ∧ CopyOf p d sz hugesz g.free g.hfree s s' := by
  rcases copyuvm_spec hs hp hpdir hl with
    ⟨-, -, d, s₁, g', hrun', hs', hforked⟩ | ⟨-, s₁, g', hrun', -⟩ | ⟨-, -, -, hzero⟩
  · rw [hrun, EStateM.Result.ok.injEq] at hrun'
    obtain ⟨heq, rfl⟩ := hrun'
    exact ⟨d, heq, hforked.copyOf hs hs' hp hpdir hl⟩
  · rw [hrun, EStateM.Result.ok.injEq] at hrun'
    exact absurd hrun'.1 hr
  · exact absurd (hzero r s' hrun) hr

/-- The only page of the first process is copied. -/
theorem copyuvm_copyOf_first : ∃ s s₁ s₂ g p d, (main 1 []).run (Machine.reset fun _ => 0) = .ok () s ∧
    (growhugeproc 0 0x400000).run s = .ok 0 s₁ ∧ Sys s₁ g ∧ (s₁.proc 0).pgdir = P2V p ∧
    (copyuvm (P2V p) 4096 0x400000).run s₁ = .ok (P2V d) s₂ ∧ CopyOf p d 4096 0x400000 g.free g.hfree s₁ s₂ := by
  obtain ⟨s, s₁, g, p, k, hrun, hgrow, h⟩ := boot_grown
  have hs := h.sound.sys
  have hp := h.holds.toProcDir
  have hl := hp.layout
  have hfree := h.free
  have hhfree := h.hfree
  rw [h.sz, h.hugesz] at hl
  have hneed : copyNeed 4096 = 67 ∧ hugeNeed 0x400000 = 1 := by decide
  rcases copyuvm_spec hs hp.frame hp.role hl with
    ⟨-, -, d, s₂, g', hcopy, -, hforked⟩ | ⟨hshort | ⟨hnil, -⟩, -⟩ | ⟨-, -, hshort, -⟩
  · have hdlt := hforked.frame.lt
    obtain ⟨d', heq, hof⟩ := copyuvm_copyOf hs hp.frame hp.role hl hcopy (P2V_ne_zero (by omega))
    rw [heq] at hcopy
    exact ⟨s, s₁, s₂, g, p, d', hrun, hgrow, hs, hp.pgdir, hcopy, hof⟩
  · omega
  · simp [hnil] at hhfree
  · omega

/-- The first process gives back a byte of its page. A copy of it has this byte mapped. -/
theorem copyuvm_maps_rest : ∃ s s₁ s₂ : Machine, ∃ p d, (main 1 []).run (Machine.reset fun _ => 0) = .ok () s ∧
    (growproc 0 (-1)).run s = .ok 0 s₁ ∧ (s₁.proc 0).pgdir = P2V p ∧ (s₁.proc 0).sz = 4095 ∧ (s₁.proc 0).hugesz = 0 ∧
    Layout s₁.mem p 4095 0 ∧ (copyuvm (P2V p) 4095 0).run s₁ = .ok (P2V d) s₂ ∧ translate s₂.mem d 4095 ≠ none := by
  obtain ⟨s, g, p, k, hrun, hfirst, hh⟩ := boot_first
  have hp := hh.toProcDir
  have hsz := hfirst.sz
  have hhugesz := hfirst.hugesz
  have hfree := hfirst.free
  obtain ⟨s', g', hs', hswept, hl, hgrow⟩ := growproc_shrink hfirst.sound.sys hp hh.kstack_ne (show (-1 : Int) < 0 by decide)
    (show _ = ((4095 : Nat) : Int) by rw [hsz]; decide)
  have hsame : s'.proc 0 = s.proc 0 := by rw [hswept.rest]
  have hle := hswept.free_le hfirst.sound.sys hs'
  have hneed : copyNeed 4095 = 67 ∧ hugeNeed 0 = 0 := by decide
  rw [if_neg (by omega), hhugesz] at hgrow
  rw [hhugesz] at hl
  generalize ht : s'.resized 0 4095 0 = t at hgrow
  have hmem : t.mem = s'.mem := by rw [← ht, Machine.resized_mem]
  have hproc : t.proc 0 = { s.proc 0 with sz := 4095, hugesz := 0 } := by rw [← ht, Machine.resized_proc, hsame]
  have hsys : Sys t g' :=
    hs'.congr (ht ▸ Machine.resized_freelist ..) (ht ▸ Machine.resized_freehugelist ..)
      (fun _ _ _ => by rw [hmem]; exact SameOn.refl _ _ _) fun _ _ _ => by rw [hmem]; exact SameOn.refl _ _ _
  rw [← hmem] at hl
  rcases copyuvm_spec hsys hp.frame (hswept.dir.trans hp.role) hl with
    ⟨-, -, d, s₂, g₂, hcopy, hs₂, hforked⟩ | ⟨hshort | ⟨-, hshort⟩, -⟩ | ⟨-, -, hshort, -⟩
  · refine ⟨s, t, s₂, p, d, hrun, hgrow, ?_, by rw [hproc], by rw [hproc], hl, hcopy, fun hnone => ?_⟩
    · rw [hproc]
      exact hp.pgdir
    · have hpage := (hforked.layout.base 0 (by omega)).2 (by omega)
      rcases hs₂.translate_user hforked.frame hforked.dir (show 4095 < 0x80000000 by omega) with
        ⟨-, -, hz⟩ | ⟨f, fl, -, -, -, -, -, -, heq⟩ | ⟨f, -, -, -, -, heq⟩
      · exact hpage hz
      · simp [heq] at hnone
      · simp [heq] at hnone
  · omega
  · omega
  · omega

end copy

end xv6
