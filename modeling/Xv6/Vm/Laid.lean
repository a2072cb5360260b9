import Xv6.Vm.CopyHuge

open bytes outcome Function

namespace xv6

/-- The address space of a process: base pages exactly below `sz`, 4MB entries
exactly over the huge heap, and no page table in a slot that base pages cannot
reach. -/
structure Layout (m : Mem) (d sz hugesz : Nat) : Prop where
  base : ∀ k < 2 ^ 19, lookup m d k ≠ 0 ↔ 4096 * k < sz
  huge : ∀ i < 512, hugeAt m d i ≠ 0 ↔ 120 ≤ i ∧ 0x400000 * (i - 120) < hugesz
  high : ∀ i, 56 ≤ i → i < 512 → hugeAt m d i = 0 → entry m d i = 0

section layout

variable {s : Machine} {g : Ghost} {d sz hugesz : Nat} {o : DirOwner}

theorem Layout.congr {m m' : Mem} (h : Layout m d sz hugesz)
    (hlook : ∀ k < 2 ^ 20, lookup m' d k = lookup m d k) (hentry : ∀ i < 1024, entry m' d i = entry m d i) :
    Layout m' d sz hugesz where
  base k hk := by rw [hlook k (by omega), h.base k hk]
  huge i hi := by rw [hugeAt_congr (hentry i (by omega)), h.huge i hi]
  high i hlo hi hz := by
    rw [hugeAt_congr (hentry i (by omega))] at hz
    rw [hentry i (by omega), h.high i hlo hi hz]

/-- There are not enough frames to reach `PHYSTOP`. -/
theorem Layout.sz_le (h : Layout s.mem d sz hugesz) (hs : Sys s g) (hd : IsFrame d) (hdir : g.own d = .dir o) :
    sz ≤ 4096 * 57065 := by
  by_contra hlt
  have := hs.pages_le (n := 57066) hd hdir (by omega) fun k hk => (h.base k (by omega)).2 (by omega)
  omega

theorem Layout.hugesz_le (h : Layout s.mem d sz hugesz) (hs : Sys s g) (hd : IsFrame d)
    (hdir : g.own d = .dir o) : hugesz ≤ 0x20000000 := by
  by_contra hlt
  have hall (i : Nat) (hlo : 120 ≤ i) (hi : i < 249) : hugeAt s.mem d i ≠ 0 :=
    (h.huge i (by omega)).2 ⟨hlo, by omega⟩
  have := hs.huge_le hd hdir (by omega) hall
  omega

theorem Layout.dense {m : Mem} (h : Layout m d sz hugesz) (hsz : sz ≤ 0x80000000) :
    Dense m d ((sz + 4095) / 4096) where
  below k hk := (h.base k (by omega)).2 (by omega)
  above k hlo hk := by
    by_contra hne
    have := (h.base k hk).1 hne
    omega
  base i hi := by
    by_contra hne
    have := (h.huge i (by omega)).1 hne
    omega

/-- The first slot after the huge heap. -/
theorem Layout.hugeDense {m : Mem} (h : Layout m d sz hugesz) (hhuge : hugesz ≤ 0x20000000) :
    HugeDense m d ((0x1E000000 + hugesz + 0x3FFFFF) / 0x400000) where
  below i hlo hi := (h.huge i (by omega)).2 ⟨hlo, by omega⟩
  above i hlo hi := by
    refine h.high i (by omega) hi ?_
    by_contra hne
    have := (h.huge i hi).1 hne
    omega

end layout

/-- A directory `d` that `copyuvm` has made as a copy of directory `p`. -/
structure Forked (p d sz hugesz : Nat) (s : Machine) (g : Ghost) (s' : Machine) (g' : Ghost) : Prop where
  frame : IsFrame d
  was : g.own d = .free
  dir : g'.own d = .dir .temp
  within : Within (WholeArea d) (HugeArea d) s g s' g'
  own : ∀ x, g.own x ≠ .free → g'.own x = g.own x
  hown : ∀ x, g.hown x ≠ .free → g'.hown x = g.hown x
  kern : KernOK s'.mem d
  layout : Layout s'.mem d sz hugesz
  pages : ∀ k, 4096 * k < sz → PageCopy s.mem p s'.mem d k
  huges : ∀ i, 120 ≤ i → 0x400000 * (i - 120) < hugesz → HugeCopy s.mem p s'.mem d i

theorem KernOK.congr {m m' : Mem} {d : Nat} (h : KernOK m d)
    (hlook : ∀ k, 2 ^ 19 ≤ k → k < 2 ^ 20 → lookup m' d k = lookup m d k)
    (hhuge : ∀ i, 512 ≤ i → i < 1024 → hugeAt m' d i = hugeAt m d i) : KernOK m' d where
  lookup_eq k hlo hk := (hlook k hlo hk).trans (h.lookup_eq k hlo hk)
  huge_eq i hlo hi := (hhuge i hlo hi).trans (h.huge_eq i hlo hi)

/-- A step on the user half keeps the kernel half of the directory itself. -/
theorem UserStep.kernOK {d : Nat} {H : HugeRole → Prop} {s s' : Machine} {g g' : Ghost} {o : DirOwner}
    (h : UserStep d H s g s' g') (hs : Sys s g) (hd : IsFrame d) (hdir : g.own d = .dir o)
    (hk : KernOK s.mem d) : KernOK s'.mem d := by
  refine hk.congr (fun k hlo hk => ?_) fun i hlo hi => hugeAt_congr (h.kern i hlo hi)
  have hentry := h.kern (k / 1024) (by omega) (by omega)
  have hshape := (hs.pde d o hd hdir (k / 1024) (by omega)).shape
  refine lookup_congr hentry (fun t _ htable => ?_) (hshape.imp id (.imp id fun ⟨t, ht, _, h⟩ => ⟨t, ht.1, h⟩))
  rcases hshape with h' | h' | ⟨t', ht', htab, h'⟩
  · omega
  · omega
  · obtain rfl : t = t' := by omega
    have hout : ¬ UserArea d t (g.own t) := by
      rw [htab]
      rintro (h | h | ⟨i, hi, h⟩ | ⟨i, j, h⟩)
      · rw [h, hdir] at htab
        simp at htab
      · simp at h
      · simp only [Role.table.injEq, true_and] at h
        omega
      · simp at h
    exact entry_eq_of_sameOn (h.same t ht' hout) (by omega)

end xv6
