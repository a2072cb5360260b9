import Xv6.Vm.Walk

open bytes outcome Function

namespace xv6

/-- The entry of page `k` of directory `d` has become `v`, with a page table made
for it where there was none; `f` is the frame that the entry now owns, or `d`
for an entry of the kernel half. -/
structure Entered (d k f v : Nat) (s : Machine) (g : Ghost) (s' : Machine) (g' : Ghost) : Prop where
  within : Within (fun x r => (x = d ∨ r = .free ∨ r = .table d (k / 1024)) ∨ x = f) (fun _ => False)
    s g s' g'
  same : ∀ x, IsFrame x → x ≠ d → g.own x ≠ .free → g.own x ≠ .table d (k / 1024) →
    SameOn s.mem s'.mem x 4096
  own : ∀ x, x ≠ f → g.own x ≠ .free → g'.own x = g.own x
  lookup_eq : ∀ k' < 2 ^ 20, lookup s'.mem d k' = if k' = k then v else lookup s.mem d k'
  huge_eq : ∀ i < 1024, hugeAt s'.mem d i = hugeAt s.mem d i
  entry_eq : ∀ i < 1024, i ≠ k / 1024 → entry s'.mem d i = entry s.mem d i
  entry_ne : entry s'.mem d (k / 1024) ≠ 0
  free : entry s.mem d (k / 1024) ≠ 0 ∧ g'.free = g.free ∨
    entry s.mem d (k / 1024) = 0 ∧ ∃ t, g.free = t :: g'.free
  hown : g'.hown = g.hown
  hfree : g'.hfree = g.hfree
  frees : s'.frees = s.frees

section store

variable {s s' : Machine} {g g' g'' : Ghost} {d k t f v : Nat} {o : DirOwner}

theorem Ensured.ne {i : Nat} (h : Ensured d i t s g s' g') (hs' : Sys s' g') : d ≠ t := by
  rintro rfl
  obtain ⟨_, _, _, o', ho'⟩ := hs'.table_up d d _ h.frame h.table
  simp [h.table] at ho'

/-- Writing the entry once the page table is there. -/
theorem Ensured.store (h : Ensured d (k / 1024) t s g s' g') (hs' : Sys s' g')
    (hd : IsFrame d) (hdir : g.own d = .dir o) (hk : k < 2 ^ 20) (hv : v < 2 ^ 32)
    (hown : ∀ x, x ≠ f → g''.own x = g'.own x) (hfree : g''.free = g'.free)
    (hhown : g''.hown = g'.hown) (hhfree : g''.hfree = g'.hfree) :
    Entered d k f v s g { s' with mem := store32 s'.mem (t + 4 * (k % 1024)) v } g'' := by
  have hj : k % 1024 < 1024 := by omega
  have htd : t ≠ d := (h.ne hs').symm
  have hdir' : g'.own d = .dir o := (h.own d htd.symm).trans hdir
  have hview := hs'.view_set_pte hd hdir' h.frame h.table hj hv
  have hpde := (hs'.table_up t d _ h.frame h.table).2.2.1
  have hstore (x : Nat) (hx : IsFrame x) (hne : x ≠ t) :
      SameOn s'.mem (store32 s'.mem (t + 4 * (k % 1024)) v) x 4096 :=
    store_entry_sameOn h.frame hx hne.symm hj
  have htold : g.own t = .free ∨ g.own t = .table d (k / 1024) := by
    rcases h.within.role t h.frame with ⟨(h' | h'), _⟩ | h'
    · exact absurd h' htd
    · exact h'
    · exact .inr (h'.symm.trans h.table)
  have hsame (x : Nat) (hx : IsFrame x) (hxd : x ≠ d) (hfr : g.own x ≠ .free)
      (htab : g.own x ≠ .table d (k / 1024)) :
      SameOn s.mem (store32 s'.mem (t + 4 * (k % 1024)) v) x 4096 := by
    refine (h.within.same x hx (by simp [hxd, hfr, htab])).trans (hstore x hx ?_)
    rintro rfl
    rcases htold with h' | h'
    · exact hfr h'
    · exact htab h'
  exact
    { within := by
        refine ⟨fun x hx => ?_, fun x hx hout => ?_, fun x hx => ?_, fun x hx hout => ?_, ?_⟩
        · by_cases hxf : x = f
          · exact .inl ⟨.inr hxf, .inr hxf⟩
          · rw [hown x hxf]
            exact (h.within.role x hx).imp (fun h => ⟨.inl h.1, .inl h.2⟩) id
        · push Not at hout
          exact hsame x hx hout.1.1 hout.1.2.1 hout.1.2.2
        · rw [hhown, h.hown]
          exact .inr rfl
        · refine (h.within.hsame x hx id).trans (store_entry_sameOn_huge h.frame hj ?_)
          obtain ⟨_, hlo, _⟩ := hx
          omega
        · rw [h.within.rest]
      same := hsame
      own := by
        intro x hxf hfr
        rw [hown x hxf]
        by_cases hxt : x = t
        · subst hxt
          rcases htold with h' | h'
          · exact absurd h' hfr
          · rw [h.table, h']
        · exact h.own x hxt
      lookup_eq := by
        intro k' hk'
        rw [hview.1 k' hk', show 1024 * (k / 1024) + k % 1024 = k by omega, h.lookup_eq k' hk']
      huge_eq := fun i hi => (hugeAt_congr (hview.2 i hi)).trans (h.huge_eq i hi)
      entry_eq := fun i hi hne => (hview.2 i hi).trans (h.entry_eq i hi hne)
      entry_ne := by
        have := hview.2 (k / 1024) (by omega)
        rw [hpde] at this
        change entry (store32 s'.mem _ v) d _ ≠ 0
        omega
      free := by
        rw [hfree]
        exact h.free.imp id fun h => ⟨h.1, t, h.2⟩
      hown := hhown.trans h.hown
      hfree := hhfree.trans h.hfree
      frees := h.frees }

end store

section baseLoop

variable {s : Machine} {g : Ghost} {d k f : Nat} {o : DirOwner} {last perm pa n : Nat}

/-- One round of the loop of `mappages` over 4KB pages. -/
theorem baseLoop_round {s' : Machine} {t : Nat} (ht : IsFrame t)
    (hwalk : (walkpgdir (P2V d) (4096 * k) true).run s = .ok (P2V t + 4 * (k % 1024)) s')
    (hempty : entry s'.mem t (k % 1024) % 2 = 0) :
    (mappages.baseLoop (P2V d) last perm (n + 1) (4096 * k) pa).run s =
      (if 4096 * k = last then pure 0 else
        mappages.baseLoop (P2V d) last perm n (u32 (4096 * k + PGSIZE)) (u32 (pa + PGSIZE))).run
        { s' with mem := store32 s'.mem (t + 4 * (k % 1024)) (pa ||| perm ||| PTE_P) } := by
  have htlt := ht.lt
  have hne : ¬ P2V t + 4 * (k % 1024) = 0 := by
    have := P2V_ne_zero (f := t) (by omega)
    omega
  have hp : ¬ hasFlag (entry s'.mem t (k % 1024)) PTE_P = true := by
    rw [hasFlag_P]
    omega
  rw [mappages.baseLoop, bind_ok hwalk, if_neg hne, readWord_entry_bind (by omega) (by omega), if_neg hp,
    writeWord_entry_bind (by omega) (by omega)]

theorem baseLoop_fail (hwalk : (walkpgdir (P2V d) (4096 * k) true).run s = .ok 0 s) :
    (mappages.baseLoop (P2V d) last perm (n + 1) (4096 * k) pa).run s = .ok (-1) s := by
  rw [mappages.baseLoop, bind_ok hwalk, if_pos rfl, EStateM.run_pure]

/-- A round that maps the user page `k` to frame `f`. -/
theorem baseLoop_user {fl : Nat} (hs : Sys s g) (hd : IsFrame d) (hdir : g.own d = .dir o)
    (hk : k < 2 ^ 19) (hhuge : hugeAt s.mem d (k / 1024) = 0) (hempty : lookup s.mem d k = 0)
    (hf : IsFrame f) (htemp : g.own f = .temp) (hfl : fl < 4096) (hodd : fl % 2 = 1)
    (hor : f ||| perm ||| PTE_P = f + fl) :
    (∃ s' g', (∀ last n, (mappages.baseLoop (P2V d) last perm (n + 1) (4096 * k) f).run s =
        (if 4096 * k = last then pure 0 else
          mappages.baseLoop (P2V d) last perm n (u32 (4096 * k + PGSIZE)) (u32 (f + PGSIZE))).run s') ∧
      Sys s' g' ∧ g'.own f = .page d (k / 1024) (k % 1024) ∧ Entered d k f (f + fl) s g s' g') ∨
    (∀ last n, (mappages.baseLoop (P2V d) last perm (n + 1) (4096 * k) f).run s = .ok (-1) s) ∧
      g.free = [] ∧ entry s.mem d (k / 1024) = 0 := by
  rcases walkpgdir_alloc hs hd hdir (by omega) hhuge with ⟨t, s', g', hwalk, hs', hens⟩ | ⟨hwalk, hnil, hzero⟩
  · left
    have htemp' : g'.own f = .temp := by
      have hft : f ≠ t := by
        rintro rfl
        rcases hens.within.role f hf with ⟨h | h | h, _⟩ | h
        · simp [h, hdir] at htemp
        · simp [h] at htemp
        · simp [h] at htemp
        · simp [htemp, hens.table] at h
      rw [hens.own f hft, htemp]
    have hpte : entry s'.mem t (k % 1024) = 0 := by
      rw [← hs'.lookup_table hens.frame hens.table, hens.lookup_eq k (by omega), hempty]
    have hflt := hf.lt
    refine ⟨_, { g' with own := update g'.own f (.page d (k / 1024) (k % 1024)) },
      fun last n => baseLoop_round hens.frame hwalk (by omega), ?_, update_self _ _ _, ?_⟩
    · rw [hor]
      exact hs'.set_pte hens.frame hens.table (by omega) (by omega) hf (.inl ⟨htemp', hpte⟩)
        (.inr ⟨rfl, fl, hfl, hodd, rfl⟩)
    · rw [hor]
      exact hens.store hs' hd hdir (by omega) (by omega) (fun x hx => update_of_ne hx _ _) rfl rfl rfl
  · exact .inr ⟨fun last n => baseLoop_fail hwalk, hnil, hzero⟩

/-- A round that maps the kernel page `k`. -/
theorem baseLoop_kernel {v : Nat} (hs : Sys s g) (hd : IsFrame d) (hdir : g.own d = .dir o)
    (hlo : 2 ^ 19 ≤ k) (hk : k < 2 ^ 20) (hhuge : hugeAt s.mem d (k / 1024) = 0)
    (hempty : lookup s.mem d k = 0) (hv : v < 2 ^ 32) (hor : pa ||| perm ||| PTE_P = v) :
    (∃ s' g', (∀ last n, (mappages.baseLoop (P2V d) last perm (n + 1) (4096 * k) pa).run s =
        (if 4096 * k = last then pure 0 else
          mappages.baseLoop (P2V d) last perm n (u32 (4096 * k + PGSIZE)) (u32 (pa + PGSIZE))).run s') ∧
      Sys s' g' ∧ g'.own d = g.own d ∧ Entered d k d v s g s' g') ∨
    (∀ last n, (mappages.baseLoop (P2V d) last perm (n + 1) (4096 * k) pa).run s = .ok (-1) s) ∧
      g.free = [] ∧ entry s.mem d (k / 1024) = 0 := by
  rcases walkpgdir_alloc hs hd hdir hk hhuge with ⟨t, s', g', hwalk, hs', hens⟩ | ⟨hwalk, hnil, hzero⟩
  · left
    have hpte : entry s'.mem t (k % 1024) = 0 := by
      rw [← hs'.lookup_table hens.frame hens.table, hens.lookup_eq k hk, hempty]
    refine ⟨_, g', fun last n => baseLoop_round hens.frame hwalk (by omega), ?_,
      hens.own d (hens.ne hs'), ?_⟩
    · exact hs'.set_kernel_pte hens.frame hens.table (by omega) (by omega)
    · rw [hor]
      exact hens.store hs' hd hdir hk hv (fun _ _ => rfl) rfl rfl rfl
  · exact .inr ⟨fun last n => baseLoop_fail hwalk, hnil, hzero⟩

end baseLoop

/-- A frame `f` off the free list was mapped as user page `k` of directory `d`. -/
structure Grown (d k f v : Nat) (s : Machine) (g : Ghost) (s' : Machine) (g' : Ghost) : Prop
    extends UserStep d (fun _ => False) s g s' g' where
  page : g'.own f = .page d (k / 1024) (k % 1024)
  own : ∀ x, g.own x ≠ .free → g'.own x = g.own x
  keep : ∀ x, IsFrame x → x ≠ d → g.own x ≠ .free → (∀ i, g.own x ≠ .table d i) →
    SameOn s.mem s'.mem x 4096
  lookup_eq : ∀ k' < 2 ^ 20, lookup s'.mem d k' = if k' = k then v else lookup s.mem d k'
  huge_eq : ∀ i < 1024, hugeAt s'.mem d i = hugeAt s.mem d i
  entry_eq : ∀ i < 1024, i ≠ k / 1024 → entry s'.mem d i = entry s.mem d i
  entry_ne : entry s'.mem d (k / 1024) ≠ 0
  free : entry s.mem d (k / 1024) ≠ 0 ∧ g.free = f :: g'.free ∨
    entry s.mem d (k / 1024) = 0 ∧ ∃ t, g.free = f :: t :: g'.free
  hown : g'.hown = g.hown
  hfree : g'.hfree = g.hfree
  frees : s'.frees = s.frees

section grow

variable {s : Machine} {g : Ghost} {d k f perm fl : Nat} {o : DirOwner} {L : List Nat} {m : Mem}

/-- The machine after `kalloc` returned frame `f` and `f` was filled. -/
def Machine.popped (s : Machine) (f : Nat) (m : Mem) : Machine :=
  { s with mem := m, freelist := load32 s.mem f }

def Ghost.popped (g : Ghost) (f : Nat) (L : List Nat) : Ghost :=
  { g with own := update g.own f .temp, free := L }

theorem Sys.popped (hs : Sys s g) (hfree : g.free = f :: L)
    (hm : ∀ x, IsFrame x → x ≠ f → SameOn s.mem m x 4096)
    (hhm : ∀ x, IsHuge x → SameOn s.mem m x 0x400000) : Sys (s.popped f m) (g.popped f L) := by
  refine (hs.pop hfree).congr rfl rfl (fun x hx hstruct => hm x hx ?_)
    (fun x hx _ => (hhm x hx).mono le_rfl (by omega))
  rintro rfl
  simp [Role.structural] at hstruct

/-- `mappages` of a single user page to a frame that was just taken. -/
theorem mappages_fresh (hs : Sys s g) (hd : IsFrame d) (hdir : g.own d = .dir o) (hk : k < 2 ^ 19)
    (hhuge : hugeAt s.mem d (k / 1024) = 0) (hempty : lookup s.mem d k = 0) (hfree : g.free = f :: L)
    (hm : ∀ x, IsFrame x → x ≠ f → SameOn s.mem m x 4096)
    (hhm : ∀ x, IsHuge x → SameOn s.mem m x 0x400000) (hfl : fl < 4096) (hodd : fl % 2 = 1)
    (hor : f ||| perm ||| PTE_P = f + fl) :
    (∃ s' g', (mappages (P2V d) (4096 * k) PGSIZE f perm).run (s.popped f m) = .ok 0 s' ∧ Sys s' g' ∧
      SameOn m s'.mem f 4096 ∧ Grown d k f (f + fl) s g s' g') ∨
    (mappages (P2V d) (4096 * k) PGSIZE f perm).run (s.popped f m) = .ok (-1) (s.popped f m) ∧ L = [] ∧
      entry s.mem d (k / 1024) = 0 := by
  obtain ⟨hf, hrole⟩ := (hs.mem_free f).1 (by simp [hfree])
  have hs₁ := hs.popped hfree hm hhm
  have hdf : d ≠ f := by
    rintro rfl
    simp [hdir] at hrole
  have hown (x : Nat) (hx : x ≠ f) : (g.popped f L).own x = g.own x := update_of_ne hx _ _
  have hdir₁ : (g.popped f L).own d = .dir o := (hown d hdf).trans hdir
  have htables (t i : Nat) (ht : IsFrame t) (h : g.own t = .table d i) : SameOn s.mem m t 4096 := by
    refine hm t ht ?_
    rintro rfl
    simp [hrole] at h
  have hview := hs.view_congr hd hdir (hm d hd hdf) htables
  have hentry (i : Nat) (hi : i < 1024) : entry m d i = entry s.mem d i :=
    entry_eq_of_sameOn (hm d hd hdf) hi
  have hslot : k / 1024 < 1024 := by omega
  have hflt := hf.lt
  have hlast : PGROUNDDOWN (u32 (4096 * k + PGSIZE + (2 ^ 32 - 1))) = 4096 * k := by
    simp only [PGROUNDDOWN, u32, PGSIZE]
    omega
  have hfirst : PGROUNDDOWN (4096 * k) = 4096 * k := by
    simp only [PGROUNDDOWN, PGSIZE]
    omega
  have hbase : ¬ (HUGE_PAGE_START ≤ f ∧ f < HUGE_PAGE_END) := by
    simp only [HUGE_PAGE_START]
    omega
  unfold mappages
  rw [if_neg hbase, hlast, hfirst, show (2 ^ 20 : Nat) = 1048575 + 1 from rfl]
  rcases baseLoop_user hs₁ hd hdir₁ hk ((hview.2 _ hslot).trans hhuge)
      ((hview.1 k (by omega)).trans hempty) hf (update_self _ _ _) hfl hodd hor with
    ⟨s', g', hrun, hs', hpage, hent⟩ | ⟨hrun, hnil, hzero⟩
  · left
    have hnotfree : (g.popped f L).own f = .temp := update_self _ _ _
    refine ⟨s', g', by rw [hrun, if_pos rfl, EStateM.run_pure], hs', ?_, ?_⟩
    · exact hent.same f hf hdf.symm (by simp [hnotfree]) (by simp [hnotfree])
    · exact
      { role := by
          intro x hx
          by_cases hxf : x = f
          · subst hxf
            exact .inl ⟨.inr (.inl hrole), .inr (.inr (.inr ⟨_, _, hpage⟩))⟩
          · have harea (r : Role) (h : (x = d ∨ r = .free ∨ r = .table d (k / 1024)) ∨ x = f) :
                UserArea d x r := by
              rcases h with (h | h | h) | h
              · exact .inl h
              · exact .inr (.inl h)
              · exact .inr (.inr (.inl ⟨_, by omega, h⟩))
              · exact absurd h hxf
            rw [← hown x hxf]
            exact (hent.within.role x hx).imp (fun h => ⟨harea _ h.1, harea _ h.2⟩) id
        same := by
          intro x hx hout
          have hxf : x ≠ f := by
            rintro rfl
            exact hout (.inr (.inl hrole))
          refine (hm x hx hxf).trans (hent.same x hx ?_ ?_ ?_)
          · exact fun h => hout (.inl h)
          · exact fun h => hout (.inr (.inl ((hown x hxf).symm.trans h)))
          · exact fun h => hout (.inr (.inr (.inl ⟨_, by omega, (hown x hxf).symm.trans h⟩)))
        hrole := fun x _ => .inr (by rw [hent.hown]; rfl)
        hsame := fun x hx _ => (hhm x hx).trans (hent.within.hsame x hx id)
        rest := by
          rw [hent.within.rest]
          rfl
        dir := by
          rw [hent.own d hdf (by simp [hdir₁]), hdir₁, hdir]
        kern := fun i hlo hi => (hent.entry_eq i hi (by omega)).trans (hentry i hi)
        page := hpage
        own := by
          intro x hfr
          have hxf : x ≠ f := by
            rintro rfl
            exact hfr hrole
          rw [← hown x hxf]
          exact hent.own x hxf (by rwa [hown x hxf])
        keep := by
          intro x hx hxd hfr htab
          have hxf : x ≠ f := by
            rintro rfl
            exact hfr hrole
          refine (hm x hx hxf).trans (hent.same x hx hxd ?_ ?_)
          · rwa [hown x hxf]
          · rw [hown x hxf]
            exact htab _
        lookup_eq := by
          intro k' hk'
          rw [hent.lookup_eq k' hk']
          change (if k' = k then _ else lookup m d k') = _
          rw [hview.1 k' hk']
        huge_eq := fun i hi => (hent.huge_eq i hi).trans (hview.2 i hi)
        entry_eq := fun i hi hne => (hent.entry_eq i hi hne).trans (hentry i hi)
        entry_ne := hent.entry_ne
        free := by
          have h := hent.free
          change entry m d (k / 1024) ≠ 0 ∧ g'.free = L ∨ entry m d (k / 1024) = 0 ∧ _ at h
          rw [hentry _ hslot] at h
          rw [hfree]
          refine h.imp (fun h => ⟨h.1, by rw [h.2]⟩) fun ⟨hz, t, ht⟩ => ⟨hz, t, ?_⟩
          rw [← ht]
          rfl
        hown := hent.hown
        hfree := hent.hfree
        frees := hent.frees }
  · right
    exact ⟨hrun _ _, hnil, (hentry _ hslot).symm.trans hzero⟩

end grow

end xv6
