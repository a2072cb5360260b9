import Xv6.Vm.Grow

open bytes outcome Function

namespace xv6

/-- A huge frame `f` off the free list was mapped at slot `i` of directory `d`. -/
structure HugeGrown (d i f : Nat) (s : Machine) (g : Ghost) (s' : Machine) (g' : Ghost) : Prop
    extends UserStep d (HugeArea d) s g s' g' where
  page : g'.hown f = .page d i
  hown : ∀ x, x ≠ f → g'.hown x = g.hown x
  own : g'.own = g.own
  frameSame : ∀ x, IsFrame x → x ≠ d → SameOn s.mem s'.mem x 4096
  hugeSame : ∀ x, IsHuge x → x ≠ f → SameOn s.mem s'.mem x 0x400000
  lookup_eq : ∀ k < 2 ^ 20, lookup s'.mem d k = lookup s.mem d k
  entry_eq : ∀ i' < 1024, entry s'.mem d i' = if i' = i then f + 0x87 else entry s.mem d i'
  free : g'.free = g.free
  hfree : g.hfree = f :: g'.hfree
  frees : s'.frees = s.frees

section hugeMap

variable {s : Machine} {g : Ghost} {d i f perm : Nat} {o : DirOwner} {L : List Nat} {m : Mem}

/-- The machine after `khugealloc` returned frame `f` and `f` was filled. -/
def Machine.hpopped (s : Machine) (f : Nat) (m : Mem) : Machine :=
  { s with mem := m, freehugelist := load32 s.mem f }

def Ghost.hpopped (g : Ghost) (f : Nat) (L : List Nat) : Ghost :=
  { g with hown := update g.hown f .temp, hfree := L }

theorem Sys.hpopped (hs : Sys s g) (hfree : g.hfree = f :: L)
    (hm : ∀ x, IsFrame x → SameOn s.mem m x 4096)
    (hhm : ∀ x, IsHuge x → x ≠ f → SameOn s.mem m x 0x400000) : Sys (s.hpopped f m) (g.hpopped f L) := by
  refine (hs.hpop hfree).congr rfl rfl (fun x hx _ => hm x hx) (fun x hx hrole => ?_)
  refine (hhm x hx ?_).mono le_rfl (by omega)
  rintro rfl
  simp at hrole

/-- `mappages` of a single 4MB page. -/
theorem mappages_huge_run (hd : IsFrame d) (hi : i < 512) (hf : IsHuge f)
    (hor : f ||| perm ||| PTE_P ||| PTE_PS = f + 0x87) :
    (mappages (P2V d) (0x400000 * i) HUGE_PAGE_SIZE f perm).run s =
      .ok 0 { s with mem := store32 s.mem (d + 4 * i) (f + 0x87) } := by
  have hdlt := hd.lt
  have hpdx : PDX (0x400000 * i) = i := by
    simp only [PDX]
    omega
  have hlast : HUGEPGROUNDDOWN (u32 (0x400000 * i + HUGE_PAGE_SIZE + (2 ^ 32 - 1))) = 0x400000 * i := by
    simp only [HUGEPGROUNDDOWN, u32, HUGE_PAGE_SIZE]
    omega
  have hfirst : HUGEPGROUNDDOWN (0x400000 * i) = 0x400000 * i := by
    simp only [HUGEPGROUNDDOWN]
    omega
  have hrange : HUGE_PAGE_START ≤ f ∧ f < HUGE_PAGE_END := hf.2
  unfold mappages
  rw [if_pos hrange, hlast, hfirst, show (2 ^ 10 : Nat) = 1023 + 1 from rfl, mappages.hugeLoop, hpdx,
    writeWord_entry_bind (by omega) (by omega), if_pos rfl, EStateM.run_pure, hor]

/-- `mappages` of a single 4MB page to a huge frame that was just taken. -/
theorem mappages_huge_fresh (hs : Sys s g) (hd : IsFrame d) (hdir : g.own d = .dir o) (hi : i < 512)
    (hempty : entry s.mem d i = 0) (hfree : g.hfree = f :: L)
    (hm : ∀ x, IsFrame x → SameOn s.mem m x 4096)
    (hhm : ∀ x, IsHuge x → x ≠ f → SameOn s.mem m x 0x400000)
    (hor : f ||| perm ||| PTE_P ||| PTE_PS = f + 0x87) :
    ∃ s' g', (mappages (P2V d) (0x400000 * i) HUGE_PAGE_SIZE f perm).run (s.hpopped f m) = .ok 0 s' ∧
      Sys s' g' ∧ SameOn m s'.mem f 0x400000 ∧ HugeGrown d i f s g s' g' := by
  obtain ⟨hf, hrole⟩ := (hs.mem_hfree f).1 (by simp [hfree])
  have hs₁ := hs.hpopped hfree hm hhm
  have hentry (i' : Nat) (hi' : i' < 1024) : entry m d i' = entry s.mem d i' :=
    entry_eq_of_sameOn (hm d hd) hi'
  have hflt := hf.lt
  have hempty₁ : entry m d i = 0 := (hentry i (by omega)).trans hempty
  have hs₂ := hs₁.add_huge hd hdir hi hempty₁ hf (update_self _ _ _)
  have hbase (x : Nat) (hx : IsFrame x) (hxd : x ≠ d) :
      SameOn s.mem (store32 m (d + 4 * i) (f + 0x87)) x 4096 :=
    (hm x hx).trans (store_entry_sameOn hd hx hxd.symm (by omega))
  have hstore (x : Nat) (hx : IsHuge x) : SameOn m (store32 m (d + 4 * i) (f + 0x87)) x 0x400000 := by
    refine store_entry_sameOn_huge hd (by omega) ?_
    obtain ⟨_, hlo, _⟩ := hx
    omega
  have hpde (i' : Nat) (hi' : i' < 1024) : entry (store32 m (d + 4 * i) (f + 0x87)) d i' =
      if i' = i then f + 0x87 else entry s.mem d i' := by
    split_ifs with h
    · rw [h, entry_store_same (by omega)]
    · rw [entry_store_slot (Ne.symm h), hentry i' hi']
  have hown (x : Nat) (hx : x ≠ f) :
      update (update g.hown f .temp) f (.page d i) x = g.hown x := by
    rw [update_of_ne hx, update_of_ne hx]
  refine ⟨_, _, mappages_huge_run hd hi hf hor, hs₂, hstore f hf, ?_⟩
  exact
    { role := fun _ _ => .inr rfl
      same := fun x hx hout => hbase x hx fun h => hout (.inl h)
      hrole := by
        intro x hx
        by_cases hxf : x = f
        · subst hxf
          exact .inl ⟨.inl hrole, .inr ⟨i, update_self _ _ _⟩⟩
        · exact .inr (hown x hxf)
      hsame := by
        intro x hx hout
        refine (hhm x hx ?_).trans (hstore x hx)
        rintro rfl
        exact hout (.inl hrole)
      rest := rfl
      dir := rfl
      kern := fun i' hlo hi' => (hpde i' hi').trans (if_neg (by omega))
      page := update_self _ _ _
      hown := hown
      own := rfl
      frameSame := hbase
      hugeSame := fun x hx hxf => (hhm x hx hxf).trans (hstore x hx)
      lookup_eq := by
        intro k hk
        have hview := hs₁.view_set_pde (v := f + 0x87) hd hdir (show i < 1024 by omega)
        have hcong := hs.view_congr hd hdir (hm d hd) fun t i ht _ => hm t ht
        by_cases hslot : k / 1024 = i
        · have hnew := hpde (k / 1024) (by omega)
          have halign := hf.1
          rw [if_pos hslot] at hnew
          rw [lookup_of_absent (m := s.mem) (by rw [hslot]; omega)]
          exact lookup_of_huge (m := store32 m (d + 4 * i) (f + 0x87)) (by omega)
        · exact (hview.1 k hk hslot).trans (hcong.1 k hk)
      entry_eq := hpde
      free := rfl
      hfree := hfree
      frees := rfl }

end hugeMap

/-- The slots `lo` up to `hi` of directory `d` have been mapped to fresh huge frames. -/
structure HugeExtended (d lo hi : Nat) (s : Machine) (g : Ghost) (s' : Machine) (g' : Ghost) : Prop
    extends UserStep d (HugeArea d) s g s' g' where
  mapped : ∀ i, lo ≤ i → i < hi → hugeAt s'.mem d i ≠ 0
  entry_eq : ∀ i < 1024, ¬ (lo ≤ i ∧ i < hi) → entry s'.mem d i = entry s.mem d i
  lookup_eq : ∀ k < 2 ^ 20, lookup s'.mem d k = lookup s.mem d k
  frameSame : ∀ x, IsFrame x → x ≠ d → SameOn s.mem s'.mem x 4096
  hugeSame : ∀ x i, IsHuge x → g.hown x = .page d i → SameOn s.mem s'.mem x 0x400000
  hown : ∀ x, g.hown x ≠ .free → g'.hown x = g.hown x
  own : g'.own = g.own
  free : g'.free = g.free
  hfree : g.hfree.length = g'.hfree.length + (hi - lo)
  fresh : ∀ i f, lo ≤ i → i < hi → i < 1024 → IsHuge f → entry s'.mem d i = f + 0x87 →
    ∀ b, f ≤ b → b < f + 0x400000 → s'.mem b = 0
  frees : s'.frees = s.frees

section hugeAlloc

variable {s s' s'' : Machine} {g g' g'' : Ghost} {d i lo hi f : Nat} {o : DirOwner} {L : List Nat}

theorem HugeExtended.refl (h : hi ≤ lo) : HugeExtended d lo hi s g s g where
  toUserStep := UserStep.refl _ _ _ _
  mapped i hlo hhi := by omega
  entry_eq _ _ _ := rfl
  lookup_eq _ _ := rfl
  frameSame _ _ _ := SameOn.refl _ _ _
  hugeSame _ _ _ _ := SameOn.refl _ _ _
  hown _ _ := rfl
  own := rfl
  free := rfl
  hfree := by rw [show hi - lo = 0 by omega, Nat.add_zero]
  fresh i f hlo hhi := by omega
  frees := rfl

theorem HugeGrown.extended (h : HugeGrown d i f s g s' g') (hs : Sys s g) (hi' : i < hi)
    (hhi : i < 512) (hzero : ∀ b, f ≤ b → b < f + 0x400000 → s'.mem b = 0)
    (h' : HugeExtended d (i + 1) hi s' g' s'' g'') : HugeExtended d i hi s g s'' g'' := by
  obtain ⟨hf, hrole⟩ := (hs.mem_hfree f).1 (by simp [h.hfree])
  have hne {x : Nat} (hx : g.hown x ≠ .free) : x ≠ f := by
    rintro rfl
    exact hx hrole
  exact
    { toUserStep := h.toUserStep.trans h'.toUserStep
      mapped := by
        intro i' hlo hlt
        by_cases hii : i' = i
        · have halign := hf.1
          have hpde := h.entry_eq i (by omega)
          rw [if_pos rfl] at hpde
          rw [hii, hugeAt_congr (h'.entry_eq i (by omega) (by omega)), hugeAt_ne_zero_iff]
          omega
        · exact h'.mapped i' (by omega) hlt
      entry_eq := by
        intro i' hi' hout
        rw [h'.entry_eq i' hi' (by omega), h.entry_eq i' hi', if_neg (by omega)]
      lookup_eq := fun k hk => (h'.lookup_eq k hk).trans (h.lookup_eq k hk)
      frameSame := fun x hx hxd => (h.frameSame x hx hxd).trans (h'.frameSame x hx hxd)
      hugeSame := by
        intro x i' hx hpage
        have hxf := hne (x := x) (by simp [hpage])
        exact (h.hugeSame x hx hxf).trans (h'.hugeSame x i' hx (by rw [h.hown x hxf, hpage]))
      hown := by
        intro x hx
        have hxf := hne hx
        rw [h'.hown x (by rwa [h.hown x hxf]), h.hown x hxf]
      own := h'.own.trans h.own
      free := h'.free.trans h.free
      hfree := by
        have hlen := h'.hfree
        rw [h.hfree, List.length_cons, hlen]
        omega
      fresh := by
        intro i' x hlo hlt hlt' hx hpde b hb hb'
        by_cases hii : i' = i
        · subst hii
          rw [h'.entry_eq i' hlt' (by omega), h.entry_eq i' hlt', if_pos rfl] at hpde
          obtain rfl : x = f := by omega
          rw [h'.hugeSame x i' hx h.page b hb hb', hzero b hb hb']
        · exact h'.fresh i' x (by omega) hlt hlt' hx hpde b hb hb'
      frees := h'.frees.trans h.frees }

theorem huge_entry_or (hf : f % 0x400000 = 0) :
    f ||| (PTE_PS ||| PTE_W ||| PTE_U) ||| PTE_P ||| PTE_PS = f + 0x87 := by
  have h := Nat.two_pow_add_eq_or_of_lt (i := 12) (b := 0x87) (by omega) (f / 4096)
  rw [Nat.or_assoc, Nat.or_assoc, show PTE_PS ||| PTE_W ||| PTE_U ||| (PTE_P ||| PTE_PS) = 0x87 from rfl]
  rw [show 2 ^ 12 * (f / 4096) = f by omega] at h
  exact h.symm

/-- The user slots from `lo` on hold nothing, and those between the start of the
huge region and `lo` hold 4MB entries. -/
structure HugeDense (m : Mem) (d lo : Nat) : Prop where
  below : ∀ i, 120 ≤ i → i < lo → hugeAt m d i ≠ 0
  above : ∀ i, lo ≤ i → i < 512 → entry m d i = 0

theorem HugeDense.le (h : HugeDense s.mem d lo) (hs : Sys s g) (hd : IsFrame d) (hdir : g.own d = .dir o)
    (hlo : lo ≤ 512) : lo ≤ 248 := hs.huge_le hd hdir hlo h.below

theorem HugeGrown.dense (h : HugeGrown d i f s g s' g') (hdense : HugeDense s.mem d i) (hf : IsHuge f)
    (hi : i < 512) : HugeDense s'.mem d (i + 1) where
  below i' hlo hi' := by
    by_cases hii : i' = i
    · have halign := hf.1
      have hpde := h.entry_eq i (by omega)
      rw [if_pos rfl] at hpde
      rw [hii, hugeAt_ne_zero_iff]
      omega
    · rw [hugeAt_congr ((h.entry_eq i' (by omega)).trans (if_neg hii))]
      exact hdense.below i' hlo (by omega)
  above i' hlo hi' := by
    rw [h.entry_eq i' (by omega), if_neg (by omega)]
    exact hdense.above i' (by omega) hi'

theorem hugeFill_sameOn {m : Mem} {x : Nat} {c : UInt8} (hf : IsHuge f) (hx : IsFrame x) :
    SameOn m (fill m f c 0x400000) x 4096 := fill_sameOn m (by
  have h := hx.apart_huge hf
  omega)

theorem hugeFill_sameOn_huge {m : Mem} {x : Nat} {c : UInt8} (hf : IsHuge f) (hx : IsHuge x) (hne : x ≠ f) :
    SameOn m (fill m f c 0x400000) x 0x400000 := fill_sameOn m (by
  have h := hf.apart hx hne.symm
  omega)

/-- One round of the loop of `allochugeuvm` while there are huge frames. -/
theorem allochugeuvm_round (oldsz n : Nat) {newsz : Nat} (hs : Sys s g) (hd : IsFrame d)
    (hdir : g.own d = .dir o) (hlo : i ≤ 512) (hdense : HugeDense s.mem d i)
    (hlt : 0x400000 * i < newsz) (hfree : g.hfree = f :: L) :
    ∃ s' g', (allochugeuvm.loop (P2V d) oldsz newsz (n + 1) (0x400000 * i)).run s =
        (allochugeuvm.loop (P2V d) oldsz newsz n (0x400000 * (i + 1))).run s' ∧ Sys s' g' ∧
      (∀ b, f ≤ b → b < f + 0x400000 → s'.mem b = 0) ∧ HugeGrown d i f s g s' g' := by
  have hi := hdense.le hs hd hdir hlo
  obtain ⟨hf, _⟩ := (hs.mem_hfree f).1 (by simp [hfree])
  have hflt := hf.lt
  have hne : ¬ P2V f = 0 := P2V_ne_zero (by omega)
  have hv : V2P (P2V f) = f := V2P_P2V (by omega)
  have hnext : u32 (0x400000 * i + HUGE_PAGE_SIZE) = 0x400000 * (i + 1) := by
    simp only [u32, HUGE_PAGE_SIZE]
    omega
  obtain ⟨s', g', hmap, hs', hsame, hgrown⟩ := mappages_huge_fresh hs hd hdir (by omega)
    (hdense.above i le_rfl (by omega)) hfree (m := fill s.mem f 0 0x400000)
    (fun x hx => hugeFill_sameOn hf hx) (fun x hx hxf => hugeFill_sameOn_huge hf hx hxf)
    (huge_entry_or hf.1)
  refine ⟨s', g', ?_, hs', fun b hb hb' => ?_, hgrown⟩
  · rw [allochugeuvm.loop, if_pos hlt, bind_ok (khugealloc_cons hs hfree), if_neg hne, memset_bind, hv, hnext]
    change (mappages (P2V d) (0x400000 * i) HUGE_PAGE_SIZE f _ >>= _).run
      (s.hpopped f (fill s.mem f 0 0x400000)) = _
    rw [bind_ok hmap, if_neg (by omega)]
  · rw [hsame b hb hb']
    exact if_pos ⟨hb, hb'⟩

/-- The loop of `allochugeuvm` maps slot after slot as long as there are huge frames. -/
theorem allochugeuvm_rounds (hd : IsFrame d) {newsz : Nat} (oldsz n j : Nat) :
    ∀ (i : Nat) (s : Machine) (g : Ghost), Sys s g → g.own d = .dir o → i ≤ 512 → HugeDense s.mem d i →
      j ≤ g.hfree.length → (∀ i' < i + j, 0x400000 * i' < newsz) →
      ∃ s' g', (allochugeuvm.loop (P2V d) oldsz newsz (n + j) (0x400000 * i)).run s =
          (allochugeuvm.loop (P2V d) oldsz newsz n (0x400000 * (i + j))).run s' ∧
        Sys s' g' ∧ i + j ≤ 512 ∧ HugeDense s'.mem d (i + j) ∧ HugeExtended d i (i + j) s g s' g' := by
  induction j with
  | zero =>
    intro i s g hs _ hlo hdense _ _
    exact ⟨s, g, rfl, hs, hlo, hdense, HugeExtended.refl le_rfl⟩
  | succ j ih =>
    intro i s g hs hdir hlo hdense hlen hlt
    cases hfree : g.hfree with
    | nil =>
      rw [hfree, List.length_nil] at hlen
      omega
    | cons f L =>
      have hle := hdense.le hs hd hdir hlo
      obtain ⟨hf, _⟩ := (hs.mem_hfree f).1 (by simp [hfree])
      obtain ⟨s₁, g₁, hround, hs₁, hzero, hgrown⟩ :=
        allochugeuvm_round oldsz (n + j) hs hd hdir hlo hdense (hlt i (by omega)) hfree
      have hlen₁ : j ≤ g₁.hfree.length := by
        rw [hgrown.hfree, List.length_cons] at hlen
        omega
      obtain ⟨s', g', hrun, hs', hle', hdense', hext⟩ := ih (i + 1) s₁ g₁ hs₁ (hgrown.dir.trans hdir)
        (by omega) (hgrown.dense hdense hf (by omega)) hlen₁ (fun i' hi' => hlt i' (by omega))
      rw [show i + 1 + j = i + (j + 1) by omega] at hrun hle' hdense' hext
      exact ⟨s', g', hround.trans hrun, hs', hle', hdense', hgrown.extended hs (by omega) (by omega) hzero hext⟩

/-- The loop of `deallocuvm` passes over slots that have no page table or hold a
huge page whose first word has no `PTE_P` bit. -/
theorem dealloc_loop_idle (hd : IsFrame d) (s : Machine) (oldsz hi n : Nat) :
    ∀ i, (∀ j, i ≤ j → j < hi → entry s.mem d j = 0 ∨
        ∃ f, IsHuge f ∧ entry s.mem d j = f + 0x87 ∧ entry s.mem f 0 % 2 = 0) →
      i ≤ hi → hi ≤ 512 → (∀ j < hi, 0x400000 * j < oldsz) →
      (deallocuvm.loop (P2V d) oldsz (n + (hi - i)) (4096 * (1024 * i))).run s =
        (deallocuvm.loop (P2V d) oldsz n (4096 * (1024 * hi))).run s := by
  intro i hidle hle hhi hold
  induction hm : hi - i generalizing i with
  | zero =>
    obtain rfl : i = hi := by omega
    rfl
  | succ m ih =>
    have hstep : (deallocuvm.step (P2V d) (4096 * (1024 * i))).run s = .ok (4096 * (1024 * (i + 1))) s := by
      rcases hidle i le_rfl (by omega) with hz | ⟨f, hf, hpde, heven⟩
      · have hslot : 1024 * i / 1024 = i := by omega
        have hstep := dealloc_step_absent (s := s) (k := 1024 * i) hd (by omega) (by rw [hslot, hz])
        rwa [hslot] at hstep
      · exact dealloc_step_huge hd (by omega) hf hpde heven
    rw [← Nat.add_assoc, deallocuvm.loop, if_pos (by have := hold i (by omega); omega), bind_ok hstep]
    exact ih (i + 1) (fun j hj hj' => hidle j (by omega) hj') (by omega) (by omega)

/-- The first page of the kernel half maps physical address 0, at which `deallocuvm` panics. -/
theorem dealloc_step_kernbase (hs : Sys s g) (hd : IsFrame d) (hdir : g.own d = .dir o)
    (hkern : lookup s.mem d (2 ^ 19) = 3) :
    (deallocuvm.step (P2V d) (4096 * 2 ^ 19)).run s = .error (.panic "kfree") s := by
  rcases hs.lookup_cases hd hdir (show 2 ^ 19 < 2 ^ 20 by omega) with ⟨hz, _⟩ | ⟨t, ht, htable, hlook⟩
  · omega
  · obtain ⟨_, _, hpde, _⟩ := hs.table_up t d _ ht htable
    rw [hkern] at hlook
    rw [dealloc_step_table hd (by omega) ht hpde, ← hlook]
    rfl

/-- The end of the huge region in a laid out directory. -/
theorem HugeDense.deallocStart_eq {oldsz : Nat} (h : HugeDense s.mem d i)
    (hle : (oldsz + 0x3FFFFF) / 0x400000 ≤ i) (hlo : 0x1E000000 ≤ oldsz) :
    deallocStart s.mem d oldsz = 1024 * ((oldsz + 0x3FFFFF) / 0x400000) := by
  rw [deallocStart]
  split_ifs with hz
  · have halign : oldsz / 0x400000 = (oldsz + 0x3FFFFF) / 0x400000 := by
      by_contra hne
      exact h.below (oldsz / 0x400000) (by omega) (by omega) hz
    omega
  · rfl

/-- The clean-up of `allochugeuvm` changes nothing: the pages it was meant to
free hold zeroes, so that `deallocuvm` passes over them. Beyond `KERNBASE` it
runs into the kernel half and panics. -/
theorem huge_cleanup {oldsz lo : Nat} (newsz : Nat) (hs : Sys s g) (hd : IsFrame d) (hdir : g.own d = .dir o)
    (hlo : (oldsz + 0x3FFFFF) / 0x400000 = lo) (hoff : 0x1E000000 ≤ oldsz) (hi : i < 512) (hle : lo ≤ i)
    (hnew : i ≤ (newsz + 0x3FFFFF) / 0x400000) (hlt : oldsz < newsz) (hdense : HugeDense s.mem d i)
    (hidle : ∀ j, lo ≤ j → j < i →
      ∃ f, IsHuge f ∧ entry s.mem d j = f + 0x87 ∧ entry s.mem f 0 % 2 = 0)
    (hkern : lookup s.mem d (2 ^ 19) = 3) :
    (deallocuvm (P2V d) newsz oldsz).run s =
      if newsz ≤ 0x80000000 then .ok oldsz s else .error (.panic "kfree") s := by
  have hslots (j : Nat) (hj : lo ≤ j) (hj' : j < 512) : entry s.mem d j = 0 ∨
      ∃ f, IsHuge f ∧ entry s.mem d j = f + 0x87 ∧ entry s.mem f 0 % 2 = 0 := by
    by_cases h : j < i
    · exact .inr (hidle j hj h)
    · exact .inl (hdense.above j (by omega) hj')
  rw [deallocuvm_run hd (hs.pde d o hd hdir _ (by omega)) hlt (by omega), hdense.deallocStart_eq (by omega) hoff, hlo]
  by_cases hkb : newsz ≤ 0x80000000
  · have hloop := dealloc_loop_idle hd s newsz ((newsz + 0x3FFFFF) / 0x400000)
      (2 ^ 20 + 1 - ((newsz + 0x3FFFFF) / 0x400000 - lo)) lo (fun j hj hj' => hslots j hj (by omega))
      (by omega) (by omega) (fun j hj => by omega)
    rw [Nat.sub_add_cancel (by omega)] at hloop
    obtain ⟨n, hn⟩ : ∃ n, 2 ^ 20 + 1 - ((newsz + 0x3FFFFF) / 0x400000 - lo) = n + 1 :=
      ⟨_, (Nat.sub_add_cancel (by omega)).symm⟩
    have hexit : (deallocuvm.loop (P2V d) newsz (n + 1)
        (4096 * (1024 * ((newsz + 0x3FFFFF) / 0x400000)))).run s = .ok () s := by
      rw [deallocuvm.loop, if_neg (by omega), EStateM.run_pure]
    rw [hn, hexit] at hloop
    rw [bind_ok hloop, EStateM.run_pure, if_pos hkb]
  · have hloop := dealloc_loop_idle hd s newsz 512 (2 ^ 20 + 1 - (512 - lo)) lo
      (fun j hj hj' => hslots j hj hj') (by omega) le_rfl (fun j hj => by omega)
    rw [Nat.sub_add_cancel (by omega)] at hloop
    obtain ⟨n, hn⟩ : ∃ n, 2 ^ 20 + 1 - (512 - lo) = n + 1 := ⟨_, (Nat.sub_add_cancel (by omega)).symm⟩
    have hstop : (deallocuvm.loop (P2V d) newsz (n + 1) (4096 * (1024 * 512))).run s =
        .error (.panic "kfree") s := by
      rw [deallocuvm.loop, if_pos (by omega), show 1024 * 512 = 2 ^ 19 from rfl,
        bind_error (dealloc_step_kernbase hs hd hdir hkern)]
    rw [hn, hstop] at hloop
    rw [bind_error hloop, if_neg hkb]

/-- `allochugeuvm` maps as many slots as there are huge frames. If they do not
suffice it reports failure, or panics, with these slots still mapped. -/
theorem allochugeuvm_spec {oldsz newsz lo hi : Nat} (hs : Sys s g) (hd : IsFrame d)
    (hdir : g.own d = .dir o) (hlo : (oldsz + 0x3FFFFF) / 0x400000 = lo)
    (hhi : (newsz + 0x3FFFFF) / 0x400000 = hi) (hoff : 0x1E000000 ≤ oldsz) (hold : oldsz ≤ 0x3E000000)
    (hle : oldsz ≤ newsz) (hdense : HugeDense s.mem d lo)
    (hkern : lookup s.mem d (2 ^ 19) = 3) :
    ∃ s' g', Sys s' g' ∧ HugeDense s'.mem d (lo + min (hi - lo) g.hfree.length) ∧
      HugeExtended d lo (lo + min (hi - lo) g.hfree.length) s g s' g' ∧
      (allochugeuvm (P2V d) oldsz newsz).run s =
        if hi - lo ≤ g.hfree.length then .ok newsz s'
        else if newsz ≤ 0x80000000 then .ok 0 s' else .error (.panic "kfree") s' := by
  have hround : HUGEPGROUNDUP oldsz = 0x400000 * lo := by
    simp only [HUGEPGROUNDUP, u32]
    omega
  have hin : ∀ i' < lo + min (hi - lo) g.hfree.length, 0x400000 * i' < newsz := by
    intro i' hi'
    omega
  obtain ⟨s', g', hrun, hs', hle', hdense', hext⟩ := allochugeuvm_rounds hd oldsz
    (2 ^ 10 + 1 - min (hi - lo) g.hfree.length) (min (hi - lo) g.hfree.length) lo s g hs hdir (by omega)
    hdense (by omega) hin
  have hdir' : g'.own d = .dir o := hext.dir.trans hdir
  have hcount := hdense'.le hs' hd hdir' hle'
  rw [Nat.sub_add_cancel (by omega)] at hrun
  refine ⟨s', g', hs', hdense', hext, ?_⟩
  unfold allochugeuvm
  rw [if_neg (by omega), hround, hrun]
  obtain ⟨n, hn⟩ : ∃ n, 2 ^ 10 + 1 - min (hi - lo) g.hfree.length = n + 1 :=
    ⟨_, (Nat.sub_add_cancel (by omega)).symm⟩
  rw [hn]
  by_cases henough : hi - lo ≤ g.hfree.length
  · rw [allochugeuvm.loop, if_neg (by omega), EStateM.run_pure, if_pos henough]
  · have hnil : g'.hfree = [] := by
      rw [← List.length_eq_zero_iff]
      have hlen := hext.hfree
      omega
    have hidle (j : Nat) (hj : lo ≤ j) (hj' : j < lo + min (hi - lo) g.hfree.length) :
        ∃ f, IsHuge f ∧ entry s'.mem d j = f + 0x87 ∧ entry s'.mem f 0 % 2 = 0 := by
      rcases hs'.hugeAt_user hd hdir' (show j < 512 by omega) with hz | ⟨f, hf, _, hpde, _⟩
      · exact absurd hz (hext.mapped j hj hj')
      · have hfresh := hext.fresh j f hj hj' (by omega) hf hpde
        have hzero : entry s'.mem f 0 = 0 := load32_zero fun b hlo hhi => hfresh b hlo (by omega)
        exact ⟨f, hf, hpde, by omega⟩
    have hclean := huge_cleanup newsz hs' hd hdir' hlo hoff (show _ < 512 by omega) (by omega) (by omega)
      (by omega) hdense' hidle ((hext.lookup_eq _ (by omega)).trans hkern)
    rw [allochugeuvm.loop, if_pos (by omega), bind_ok (khugealloc_nil hs' hnil), if_pos rfl, if_neg henough]
    by_cases hkb : newsz ≤ 0x80000000
    · rw [if_pos hkb] at hclean
      rw [bind_ok hclean, EStateM.run_pure, if_pos hkb]
    · rw [if_neg hkb] at hclean
      rw [bind_error hclean, if_neg hkb]

end hugeAlloc

end xv6
