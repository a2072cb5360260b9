import Xv6.Vm.Space
import Xv6.Vm.Free
import Xv6.Vm.Map

open bytes outcome Function

namespace xv6

/-- The entry of the kernel half for page `k`, as the table `kmap` describes it. -/
def kpte (k : Nat) : Nat :=
  if 2 ^ 19 ≤ k ∧ k < 2 ^ 19 + 256 then 4096 * (k - 2 ^ 19) + 3
  else if 2 ^ 19 + 256 ≤ k ∧ k < 2 ^ 19 + 265 then 4096 * (k - 2 ^ 19) + 1
  else if 2 ^ 19 + 265 ≤ k ∧ k < 2 ^ 19 + 57344 then 4096 * (k - 2 ^ 19) + 3
  else if 0xFE000 ≤ k then 4096 * k + 3
  else 0

/-- The 4MB entry of the kernel half for slot `i`. -/
def kpde (i : Nat) : Nat :=
  if 632 ≤ i ∧ i < 760 then (i - 512) * 0x400000 + 0x83 else 0

/-- The kernel half of directory `d` is the one of `kmap`. -/
structure KernOK (m : Mem) (d : Nat) : Prop where
  lookup_eq : ∀ k, 2 ^ 19 ≤ k → k < 2 ^ 20 → lookup m d k = kpte k
  huge_eq : ∀ i, 512 ≤ i → i < 1024 → hugeAt m d i = kpde i

/-- A step in the construction of the kernel half of directory `d`. -/
structure KStep (d : Nat) (s : Machine) (g : Ghost) (s' : Machine) (g' : Ghost) : Prop where
  within : Within (fun x r => x = d ∨ r = .free ∨ ∃ i, r = .table d i) (fun _ => False) s g s' g'
  own : ∀ x, g.own x ≠ .free → g'.own x = g.own x
  low_eq : ∀ i < 512, entry s'.mem d i = entry s.mem d i
  hown : g'.hown = g.hown
  hfree : g'.hfree = g.hfree
  frees : s'.frees = s.frees

/-- The kernel pages `lo` to `last` have got the entries `val`. -/
structure KMapped (d lo last : Nat) (val : Nat → Nat) (s : Machine) (g : Ghost) (s' : Machine)
    (g' : Ghost) : Prop extends KStep d s g s' g' where
  lookup_eq : ∀ k < 2 ^ 20, lookup s'.mem d k = if lo ≤ k ∧ k ≤ last then val k else lookup s.mem d k
  huge_eq : ∀ i < 1024, hugeAt s'.mem d i = hugeAt s.mem d i
  entry_eq : ∀ i < 1024, i < lo / 1024 ∨ last / 1024 < i → entry s'.mem d i = entry s.mem d i
  entry_ne : ∀ i, lo / 1024 ≤ i → i ≤ last / 1024 → entry s'.mem d i ≠ 0
  free : g.free.length =
    g'.free.length + ((if entry s.mem d (lo / 1024) = 0 then 1 else 0) + (last / 1024 - lo / 1024))

section kstep

variable {s s' s'' : Machine} {g g' g'' : Ghost} {d k : Nat} {o : DirOwner}

theorem KStep.refl (d : Nat) (s : Machine) (g : Ghost) : KStep d s g s g :=
  ⟨Within.refl _ _ _ _, fun _ _ => rfl, fun _ _ => rfl, rfl, rfl, rfl⟩

theorem KStep.trans (h : KStep d s g s' g') (h' : KStep d s' g' s'' g'') : KStep d s g s'' g'' where
  within := h.within.trans h'.within
  own x hx := by
    have heq := h.own x hx
    rw [h'.own x (by rwa [heq]), heq]
  low_eq i hi := (h'.low_eq i hi).trans (h.low_eq i hi)
  hown := h'.hown.trans h.hown
  hfree := h'.hfree.trans h.hfree
  frees := h'.frees.trans h.frees

theorem Entered.kstep {v : Nat} (h : Entered d k d v s g s' g') (hk : 2 ^ 19 ≤ k)
    (hdir : g'.own d = g.own d) : KStep d s g s' g' where
  within := h.within.mono (fun x r hr => by
    rcases hr with (h | h | h) | h
    · exact .inl h
    · exact .inr (.inl h)
    · exact .inr (.inr ⟨_, h⟩)
    · exact .inl h) fun _ h => h
  own x hx := by
    by_cases hxd : x = d
    · rw [hxd, hdir]
    · exact h.own x hxd hx
  low_eq i hi := h.entry_eq i (by omega) (by omega)
  hown := h.hown
  hfree := h.hfree
  frees := h.frees

end kstep

section range

variable {d : Nat} {o : DirOwner}

/-- The loop of `mappages` over a range of kernel pages. -/
theorem baseLoop_range (hd : IsFrame d) {perm pv last : Nat}
    (hperm : ∀ p, p % 4096 = 0 → p ||| perm ||| PTE_P = p + pv) (hpv : pv < 4096)
    (hlast : last < 2 ^ 20) (n : Nat) :
    ∀ (k pa : Nat) (s : Machine) (g : Ghost), Sys s g → g.own d = .dir o → 2 ^ 19 ≤ k → k ≤ last →
      last - k < n → pa % 4096 = 0 → pa + 4096 * (last - k) + 4096 ≤ 2 ^ 32 →
      (∀ k', k ≤ k' → k' ≤ last → lookup s.mem d k' = 0) →
      (∀ i, k / 1024 ≤ i → i ≤ last / 1024 → hugeAt s.mem d i = 0) →
      (∀ i, k / 1024 < i → i ≤ last / 1024 → entry s.mem d i = 0) →
      (∃ s' g', (mappages.baseLoop (P2V d) (4096 * last) perm n (4096 * k) pa).run s = .ok 0 s' ∧
        Sys s' g' ∧ KMapped d k last (fun k' => pa + 4096 * (k' - k) + pv) s g s' g') ∨
      ∃ s' g', (mappages.baseLoop (P2V d) (4096 * last) perm n (4096 * k) pa).run s = .ok (-1) s' ∧
        Sys s' g' ∧ KStep d s g s' g' ∧ (∀ i < 1024, hugeAt s'.mem d i = hugeAt s.mem d i) ∧
        g.free.length < (if entry s.mem d (k / 1024) = 0 then 1 else 0) + (last / 1024 - k / 1024) := by
  induction n with
  | zero =>
    intro k pa s g _ _ _ _ hn
    omega
  | succ n ih =>
    intro k pa s g hs hdir hlo hk hn hpa hend hzero hhuge hslots
    rcases baseLoop_kernel hs hd hdir hlo (by omega) (hhuge _ le_rfl (by omega))
        (hzero k le_rfl hk) (show pa + pv < 2 ^ 32 by omega) (hperm pa hpa) with
      ⟨s₁, g₁, hrun, hs₁, hdir₁, hent⟩ | ⟨hrun, hnil, hz⟩
    · have hstep := hent.kstep hlo hdir₁
      have hfree := hent.free
      by_cases hdone : k = last
      · subst hdone
        left
        refine ⟨s₁, g₁, by rw [hrun, if_pos rfl, EStateM.run_pure], hs₁, ?_⟩
        exact
          { toKStep := hstep
            lookup_eq := by
              intro k' hk'
              rw [hent.lookup_eq k' hk']
              by_cases h : k' = k
              · subst h
                rw [if_pos rfl, if_pos ⟨le_rfl, le_rfl⟩, Nat.sub_self, Nat.mul_zero, Nat.add_zero]
              · rw [if_neg h, if_neg (by omega)]
            huge_eq := hent.huge_eq
            entry_eq := fun i hi hout => hent.entry_eq i hi (by omega)
            entry_ne := fun i hi hi' => by
              obtain rfl : i = k / 1024 := by omega
              exact hent.entry_ne
            free := by
              rcases hfree with ⟨hne, heq⟩ | ⟨hz, t, heq⟩
              · rw [if_neg hne, heq]
                omega
              · rw [if_pos hz, heq, List.length_cons]
                omega }
      · have hnext : u32 (4096 * k + PGSIZE) = 4096 * (k + 1) := by
          simp only [u32, PGSIZE]
          omega
        have hpa' : u32 (pa + PGSIZE) = pa + 4096 := by
          simp only [u32, PGSIZE]
          omega
        have hcost : (if entry s₁.mem d ((k + 1) / 1024) = 0 then 1 else 0) + (last / 1024 - (k + 1) / 1024) =
            last / 1024 - k / 1024 := by
          by_cases hslot : (k + 1) / 1024 = k / 1024
          · rw [hslot, if_neg hent.entry_ne, Nat.zero_add]
          · rw [if_pos]
            · omega
            · rw [hent.entry_eq _ (by omega) hslot]
              exact hslots _ (by omega) (by omega)
        rcases ih (k + 1) (pa + 4096) s₁ g₁ hs₁ (hdir₁.trans hdir) (by omega) (by omega) (by omega)
            (by omega) (by omega)
            (fun k' h h' => by rw [hent.lookup_eq k' (by omega), if_neg (by omega)]; exact hzero k' (by omega) h')
            (fun i h h' => by rw [hent.huge_eq i (by omega)]; exact hhuge i (by omega) h')
            (fun i h h' => by
              rw [hent.entry_eq i (by omega) (by omega)]
              exact hslots i (by omega) h') with
          ⟨s', g', hrun', hs', hmap⟩ | ⟨s', g', hrun', hs', hkstep, hhuge', hshort⟩
        · left
          refine ⟨s', g', by rw [hrun, if_neg (by omega), hnext, hpa', hrun'], hs', ?_⟩
          exact
            { toKStep := hstep.trans hmap.toKStep
              lookup_eq := by
                intro k' hk'
                rw [hmap.lookup_eq k' hk', hent.lookup_eq k' hk']
                by_cases h : k' = k
                · subst h
                  rw [if_neg (by omega), if_pos rfl, if_pos ⟨le_rfl, hk⟩, Nat.sub_self, Nat.mul_zero, Nat.add_zero]
                · rw [if_neg h]
                  by_cases h' : k + 1 ≤ k' ∧ k' ≤ last
                  · rw [if_pos h', if_pos (by omega)]
                    omega
                  · rw [if_neg h', if_neg (by omega)]
              huge_eq := fun i hi => (hmap.huge_eq i hi).trans (hent.huge_eq i hi)
              entry_eq := by
                intro i hi hout
                rw [hmap.entry_eq i hi (by omega), hent.entry_eq i hi (by omega)]
              entry_ne := by
                intro i hi hi'
                by_cases h : (k + 1) / 1024 ≤ i
                · exact hmap.entry_ne i h hi'
                · obtain rfl : i = k / 1024 := by omega
                  rw [hmap.entry_eq _ (by omega) (by omega)]
                  exact hent.entry_ne
              free := by
                have hlen := hmap.free
                rw [hcost] at hlen
                rcases hfree with ⟨hne, heq⟩ | ⟨hz, t, heq⟩
                · rw [if_neg hne, ← heq, hlen, Nat.zero_add]
                · rw [if_pos hz, heq, List.length_cons, hlen]
                  omega }
        · right
          refine ⟨s', g', by rw [hrun, if_neg (by omega), hnext, hpa', hrun'], hs', hstep.trans hkstep,
            fun i hi => (hhuge' i hi).trans (hent.huge_eq i hi), ?_⟩
          rw [hcost] at hshort
          rcases hfree with ⟨hne, heq⟩ | ⟨hz, t, heq⟩
          · rw [if_neg hne, ← heq]
            omega
          · rw [if_pos hz, heq, List.length_cons]
            omega
    · right
      refine ⟨s, g, hrun _ _, hs, KStep.refl _ _ _, fun _ _ => rfl, ?_⟩
      rw [hnil, if_pos hz, List.length_nil]
      omega

/-- The loop of `mappages` over the 4MB entries of the kernel half. -/
theorem hugeLoop_range (hd : IsFrame d) (n : Nat) :
    ∀ (i : Nat) (s : Machine) (g : Ghost), Sys s g → g.own d = .dir o → 632 ≤ i → i ≤ 759 → 759 - i < n →
      (∀ i', i ≤ i' → i' ≤ 759 → entry s.mem d i' = 0) →
      ∃ s', (mappages.hugeLoop (P2V d) (0x400000 * 759) (PTE_W ||| PTE_PS) n (0x400000 * i)
          (0x400000 * (i - 512))).run s = .ok 0 s' ∧ Sys s' g ∧ KStep d s g s' g ∧
        (∀ k < 2 ^ 20, lookup s'.mem d k = lookup s.mem d k) ∧
        ∀ i' < 1024, entry s'.mem d i' =
          if i ≤ i' ∧ i' ≤ 759 then (i' - 512) * 0x400000 + 0x83 else entry s.mem d i' := by
  induction n with
  | zero =>
    intro i s g _ _ _ _ hn
    omega
  | succ n ih =>
    intro i s g hs hdir hlo hi hn hzero
    have hdlt := hd.lt
    have hpdx : PDX (0x400000 * i) = i := by
      simp only [PDX]
      omega
    have hor : 0x400000 * (i - 512) ||| (PTE_W ||| PTE_PS) ||| PTE_P ||| PTE_PS =
        (i - 512) * 0x400000 + 0x83 := by
      have h := Nat.two_pow_add_eq_or_of_lt (i := 22) (b := 0x83) (by omega) (i - 512)
      rw [Nat.or_assoc, Nat.or_assoc, show PTE_W ||| PTE_PS ||| (PTE_P ||| PTE_PS) = 0x83 from rfl,
        Nat.mul_comm (i - 512)]
      exact h.symm
    have hempty := hzero i le_rfl hi
    have hs₁ := hs.set_kernel_pde hd hdir hlo (by omega) hempty
    have hslot (i' : Nat) : entry (store32 s.mem (d + 4 * i) ((i - 512) * 0x400000 + 0x83)) d i' =
        if i' = i then (i - 512) * 0x400000 + 0x83 else entry s.mem d i' := by
      split_ifs with h
      · rw [h, entry_store_same (by omega)]
      · rw [entry_store_slot (Ne.symm h)]
    have hview := hs.view_set_pde (v := (i - 512) * 0x400000 + 0x83) hd hdir (show i < 1024 by omega)
    have hlook (k : Nat) (hk : k < 2 ^ 20) :
        lookup (store32 s.mem (d + 4 * i) ((i - 512) * 0x400000 + 0x83)) d k = lookup s.mem d k := by
      by_cases h : k / 1024 = i
      · rw [lookup_of_absent (m := s.mem) (by rw [h]; omega)]
        refine lookup_of_huge ?_
        rw [hslot, if_pos h]
        omega
      · exact hview.1 k hk h
    have hstep : KStep d s g { s with mem := store32 s.mem (d + 4 * i) ((i - 512) * 0x400000 + 0x83) } g := by
      refine ⟨⟨fun _ _ => .inr rfl, fun x hx hout => ?_, fun _ _ => .inr rfl, fun x hx _ => ?_, rfl⟩,
        fun _ _ => rfl, fun i' hi' => ?_, rfl, rfl, rfl⟩
      · exact store_entry_sameOn hd hx (fun h => hout (.inl h.symm)) (by omega)
      · refine store_entry_sameOn_huge hd (by omega) ?_
        obtain ⟨_, hlo, _⟩ := hx
        omega
      · exact (hslot i').trans (if_neg (by omega))
    rw [mappages.hugeLoop, hpdx, writeWord_entry_bind (by omega) (by omega), hor]
    by_cases hdone : i = 759
    · subst hdone
      rw [if_pos rfl]
      refine ⟨_, EStateM.run_pure _ _, hs₁, hstep, hlook, fun i' _ => ?_⟩
      refine (hslot i').trans ?_
      by_cases h : i' = 759
      · rw [if_pos h, if_pos (by omega), h]
      · rw [if_neg h, if_neg (by omega)]
    · have hnext : u32 (0x400000 * i + HUGE_PAGE_SIZE) = 0x400000 * (i + 1) := by
        simp only [u32, HUGE_PAGE_SIZE]
        omega
      have hpa : u32 (0x400000 * (i - 512) + HUGE_PAGE_SIZE) = 0x400000 * (i + 1 - 512) := by
        simp only [u32, HUGE_PAGE_SIZE]
        omega
      obtain ⟨s', hrun, hs', hkstep, hlook', hentry⟩ := ih (i + 1) _ g hs₁ hdir (by omega) (by omega) (by omega)
        (fun i' h h' => (hslot i').trans ((if_neg (by omega)).trans (hzero i' (by omega) h')))
      refine ⟨s', ?_, hs', hstep.trans hkstep, fun k hk => (hlook' k hk).trans (hlook k hk), fun i' hi' => ?_⟩
      · rw [if_neg (by omega), hnext, hpa, hrun]
      · rw [hentry i' hi', hslot i']
        by_cases h : i' = i
        · rw [h, if_neg (by omega), if_pos rfl, if_pos (by omega)]
        · rw [if_neg h]
          by_cases h' : i + 1 ≤ i' ∧ i' ≤ 759
          · rw [if_pos h', if_pos (by omega)]
          · rw [if_neg h', if_neg (by omega)]

end range

end xv6
