import Xv6.Umalloc.Search

open bytes cycle extent Function

namespace xv6.umalloc

variable {s s' : Heap} {pool : Pool} {l : List Extent} {nbytes : Nat}

/-- The sizes of a process whose heaps have only grown, by whole units. -/
structure Sizes (s : Heap) : Prop where
  start_le : s.image.start ≤ s.sz
  sz_le : s.sz ≤ PHYSTOP
  sz_mod : s.sz % 8 = 0
  hugesz_le : s.hugesz ≤ HUGE_PAGE_END - HUGE_PAGE_START
  hugesz_mod : s.hugesz % 8 = 0

theorem Sizes.start_le_brk (h : Sizes s) (pool : Pool) : s.start pool ≤ s.brk pool := by
  cases pool with
  | base => exact h.start_le
  | huge => exact Nat.le_add_right _ _

theorem Sizes.brk_mod (h : Sizes s) (pool : Pool) : s.brk pool % 8 = 0 := by
  cases pool with
  | base => exact h.sz_mod
  | huge =>
    have := h.hugesz_mod
    simp only [Heap.brk, HUGE_VA_OFFSET]
    omega

/-- The end of what a pool can get. -/
def limit : Pool → Nat
  | .base => PHYSTOP
  | .huge => HUGE_PAGE_END

theorem Sizes.brk_le (h : Sizes s) (pool : Pool) : s.brk pool ≤ limit pool := by
  cases pool with
  | base => exact h.sz_le
  | huge =>
    have := h.hugesz_le
    simp only [Heap.brk, limit, HUGE_VA_OFFSET, HUGE_PAGE_END, HUGE_PAGE_START] at *
    omega

theorem limit_le (pool : Pool) : limit pool ≤ 0x3E000000 := by
  cases pool with
  | base => decide
  | huge => decide

/-- A pool whose free blocks are `l`. -/
structure PoolOK (s : Heap) (pool : Pool) (l : List Extent) : Prop where
  unused : s.freep pool = 0 → l = []
  list : s.freep pool ≠ 0 → FreeList s.mem (s.header pool) (s.start pool) (s.brk pool) l
  freep : s.freep pool ≠ 0 → ∃ f ∈ root (s.header pool) :: l, f.addr = s.freep pool

/-- The states that differ from `s` in the memory and in the pointer into the pool only. -/
def Heap.withList (s : Heap) (pool : Pool) (m : Mem) (p : Nat) : Heap :=
  { s with mem := m, freep := update s.freep pool p }

theorem Sizes.withList {m : Mem} {p : Nat} (h : Sizes s) : Sizes (s.withList pool m p) :=
  ⟨h.start_le, h.sz_le, h.sz_mod, h.hugesz_le, h.hugesz_mod⟩

theorem header_le_start (s : Heap) (hs : Sizes s) (pool p : Pool) : s.header pool + 8 ≤ s.start p := by
  have hle := s.image.header_le pool
  have := hs.start_le
  have := hs.sz_le
  cases p with
  | base => exact hle
  | huge =>
    simp only [Heap.header, Heap.start, PHYSTOP, HUGE_VA_OFFSET, headerSize] at *
    omega

theorem header_apart (s : Heap) {pool p : Pool} (hp : p ≠ pool) :
    s.header pool + 8 ≤ s.header p ∨ s.header p + 8 ≤ s.header pool := by
  have := s.image.apart
  cases p with
  | base =>
    cases pool with
    | base => contradiction
    | huge => exact this.symm
  | huge =>
    cases pool with
    | base => exact this
    | huge => contradiction

theorem regions (s : Heap) {pool p : Pool} (hp : p ≠ pool) : limit p ≤ s.start pool ∨ limit pool ≤ s.start p := by
  have hle : PHYSTOP ≤ HUGE_VA_OFFSET := by decide
  cases p with
  | base =>
    cases pool with
    | base => contradiction
    | huge => exact .inl hle
  | huge =>
    cases pool with
    | base => exact .inr hle
    | huge => contradiction

/-- A pool on its first use. -/
theorem freeList_nil (s : Heap) (pool : Pool) (hs : Sizes s) :
    FreeList (setSize (setPtr s.mem (s.header pool) (s.header pool)) (s.header pool) 0) (s.header pool) (s.start pool)
      (s.brk pool) [] where
  cycle := by
    have hle := header_le_start s hs pool pool
    have hbrk := hs.start_le_brk pool
    have := hs.brk_le pool
    have := limit_le pool
    refine List.isChain_cons_cons.2 ⟨⟨?_, ?_⟩, by simp⟩
    · rw [root_addr, ptr_setSize, ptr_setPtr _ _ (by omega)]
    · rw [root_addr, size_setSize _ _ (by omega)]
      rfl
  spaced := List.Pairwise.nil
  within := by simp
  below := header_le_start s hs pool pool
  hi_lt := by
    have := hs.brk_le pool
    have := limit_le pool
    omega

theorem prepare_spec (h : PoolOK s pool l) (hs : Sizes s) :
    ∃ m f, malloc.prepare pool s = s.withList pool m f.addr ∧ f ∈ root (s.header pool) :: l ∧
      FreeList m (s.header pool) (s.start pool) (s.brk pool) l ∧ Frame s.mem m (s.header pool) l := by
  unfold malloc.prepare
  split
  next hzero =>
    obtain rfl := h.unused hzero
    exact ⟨_, root (s.header pool), rfl, by simp, freeList_nil s pool hs, fun a n hb _ =>
      (setPtr_sameOn _ _ hb).trans (setSize_sameOn _ _ hb)⟩
  next hne =>
    obtain ⟨f, hf, haddr⟩ := h.freep hne
    refine ⟨s.mem, f, ?_, hf, h.list hne, fun a n _ _ => .refl _ _ _⟩
    rw [Heap.withList, haddr, update_eq_self]

/-- How `vfree` tells the pool of a block. -/
theorem pool_of_addr {a : Nat} (hlo : s.start pool ≤ a) (hhi : a ≤ limit pool + 8) :
    (if a ≥ HUGE_PAGE_START then Pool.huge else Pool.base) = pool := by
  cases pool with
  | base =>
    simp only [limit, PHYSTOP] at hhi
    exact if_neg (by simp only [HUGE_PAGE_START]; omega)
  | huge => exact if_pos hlo

/-- `vfree` of a block of the pool. -/
theorem vfree_run {x f : Extent} (hs : Sizes s) (hlist : FreeList s.mem (s.header pool) (s.start pool) (s.brk pool) l)
    (hf : f ∈ root (s.header pool) :: l) (hfreep : f.addr = s.freep pool)
    (hx : Within (s.start pool) (s.brk pool) x) (hsize : 8 * size s.mem x.addr = x.len) (hapart : ∀ y ∈ l, x.Apart y) :
    ∃ m, ∃ y ∈ root (s.header pool) :: place x l,
      (∀ fuel, l.length + 1 < fuel → vfree fuel s (x.addr + 8) = some (s.withList pool m y.addr)) ∧
      FreeList m (s.header pool) (s.start pool) (s.brk pool) (place x l) ∧ Frame s.mem m (s.header pool) (x :: l) := by
  obtain ⟨y, hy, hfind, hlist', hframe⟩ := hlist.vfree hx hsize hapart hf
  refine ⟨_, y, hy, fun fuel hfuel => ?_, hlist', hframe⟩
  have hlo := hx.lo_le
  have hhi := hx.le_hi
  have hpos := hx.pos
  have hfin := x.fin_eq
  have hle := hs.brk_le pool
  have hbp : u32 (x.addr + 8 + (2 ^ 32 - headerSize)) = x.addr := by
    have := limit_le pool
    simp only [u32, headerSize]
    omega
  have hpool : (if x.addr + 8 ≥ HUGE_PAGE_START then Pool.huge else Pool.base) = pool :=
    pool_of_addr (show s.start pool ≤ x.addr + 8 by omega) (by omega)
  unfold vfree
  simp only [hpool, hbp, ← hfreep, hfind fuel hfuel]
  rfl

/-- The state after a request that was refused. -/
def Heap.asked (s : Heap) (pool : Pool) (n : Int) : Heap := { s with requests := (pool, n) :: s.requests }

/-- The state after a request that was granted. -/
def Heap.grown (s : Heap) (pool : Pool) (n : Nat) : Heap :=
  match pool with
  | .base => { s.asked .base n with sz := s.sz + n }
  | .huge => { s.asked .huge n with hugesz := s.hugesz + n }

theorem grown_brk (s : Heap) (pool : Pool) (n : Nat) : (s.grown pool n).brk pool = s.brk pool + n := by
  cases pool with
  | base => rfl
  | huge => exact (Nat.add_assoc _ _ _).symm

theorem addInt_nat (a n : Nat) (h : a + n < 2 ^ 32) : addInt a n = a + n := by
  simp only [addInt]
  omega

/-- A request for `n` bytes is refused and changes nothing, or moves the break by `n`. -/
theorem sbrk_pos (hs : Sizes s) (pool : Pool) {n : Nat} (hn : 0 < n) (hmod : n % 8 = 0) :
    sbrk pool n s = (failed, s.asked pool n) ∨
      sbrk pool n s = (s.brk pool, s.grown pool n) ∧ Sizes (s.grown pool n) := by
  have hsz := hs.sz_le
  have hsz_mod := hs.sz_mod
  have hhugesz := hs.hugesz_le
  have hhugesz_mod := hs.hugesz_mod
  have hstart := hs.start_le
  simp only [PHYSTOP, HUGE_PAGE_END, HUGE_PAGE_START] at hsz hhugesz
  cases pool with
  | base =>
    simp only [sbrk, growproc]
    rw [if_pos (by omega)]
    by_cases hgrant : s.grants s.requests.length = true ∧ (s.sz : Int) + n ≤ PHYSTOP
    · right
      have hle := hgrant.2
      simp only [PHYSTOP] at hle
      rw [if_pos hgrant, addInt_nat _ _ (by omega)]
      refine ⟨rfl, ?_, ?_, ?_, hs.hugesz_le, hhugesz_mod⟩
      · exact hstart.trans (Nat.le_add_right _ _)
      · show s.sz + n ≤ 0xE000000
        omega
      · show (s.sz + n) % 8 = 0
        omega
    · rw [if_neg hgrant]
      exact .inl rfl
  | huge =>
    simp only [sbrk, growhugeproc]
    rw [if_pos (by omega)]
    by_cases hgrant : s.grants s.requests.length = true ∧ (s.hugesz : Int) + n ≤ (HUGE_PAGE_END - HUGE_PAGE_START : Nat)
    · right
      have hle := hgrant.2
      simp only [HUGE_PAGE_END, HUGE_PAGE_START] at hle
      rw [if_pos hgrant, addInt_nat _ _ (by omega)]
      have hbrk : u32 (s.hugesz + HUGE_VA_OFFSET) = s.brk .huge := by
        simp only [u32, Heap.brk, HUGE_VA_OFFSET]
        omega
      refine ⟨by rw [hbrk]; rfl, hstart, hs.sz_le, hsz_mod, ?_, ?_⟩
      · show s.hugesz + n ≤ 0x3E000000 - 0x1E000000
        omega
      · show (s.hugesz + n) % 8 = 0
        omega
    · rw [if_neg hgrant]
      exact .inl rfl

@[simp] theorem grown_mem (s : Heap) (pool : Pool) (n : Nat) : (s.grown pool n).mem = s.mem := by cases pool <;> rfl

@[simp] theorem grown_freep (s : Heap) (pool : Pool) (n : Nat) : (s.grown pool n).freep = s.freep := by cases pool <;> rfl

@[simp] theorem grown_image (s : Heap) (pool : Pool) (n : Nat) : (s.grown pool n).image = s.image := by cases pool <;> rfl

@[simp] theorem grown_requests (s : Heap) (pool : Pool) (n : Nat) :
    (s.grown pool n).requests = (pool, (n : Int)) :: s.requests := by cases pool <;> rfl

@[simp] theorem grown_header (s : Heap) (pool p : Pool) (n : Nat) : (s.grown pool n).header p = s.header p := by
  simp [Heap.header]

@[simp] theorem grown_start (s : Heap) (pool p : Pool) (n : Nat) : (s.grown pool n).start p = s.start p := by
  cases p with
  | base => simp [Heap.start]
  | huge => rfl

/-- The memory that a request adds to the pool. -/
def Heap.fresh (s : Heap) (pool : Pool) (n : Nat) : Extent := ⟨s.brk pool, n⟩

theorem moreUnits_pos (pool : Pool) (n : Nat) : 0 < moreUnits pool n ∧ n ≤ moreUnits pool n := by
  unfold moreUnits
  have : 0 < leastUnits pool := by cases pool <;> decide
  split <;> omega

theorem request_eq {n : Nat} (h : moreUnits pool n < 2 ^ 28) : request pool n = (8 * moreUnits pool n : Nat) := by
  have hbytes : u32 (moreUnits pool n * headerSize) = 8 * moreUnits pool n := by
    simp only [u32, headerSize]
    omega
  rw [request, hbytes, toInt, if_pos (by omega)]

/-- `morecore` adds the memory that it was granted to the free list. -/
theorem morecore_granted {f : Extent} {n : Nat} (hs : Sizes (s.grown pool (8 * moreUnits pool n)))
    (hlist : FreeList s.mem (s.header pool) (s.start pool) (s.brk pool) l) (hf : f ∈ root (s.header pool) :: l)
    (hfreep : f.addr = s.freep pool) (hbrk : s.start pool ≤ s.brk pool) (hmod : s.brk pool % 8 = 0)
    (hsbrk : sbrk pool (request pool n) s = (s.brk pool, s.grown pool (8 * moreUnits pool n))) :
    ∃ m, ∃ y ∈ root (s.header pool) :: place (s.fresh pool (8 * moreUnits pool n)) l,
      (∀ fuel, l.length + 1 < fuel →
        morecore pool fuel n s = some (y.addr, (s.grown pool (8 * moreUnits pool n)).withList pool m y.addr)) ∧
      FreeList m (s.header pool) (s.start pool) (s.brk pool + 8 * moreUnits pool n)
        (place (s.fresh pool (8 * moreUnits pool n)) l) ∧
      Frame s.mem m (s.header pool) (s.fresh pool (8 * moreUnits pool n) :: l) := by
  obtain ⟨k, hk⟩ : ∃ k, k = moreUnits pool n := ⟨_, rfl⟩
  have hkpos := moreUnits_pos pool n
  rw [← hk] at hkpos hs hsbrk ⊢
  have hle := hs.brk_le pool
  rw [grown_brk] at hle
  have hlimit := limit_le pool
  have hbelow := hlist.below
  -- the header of the new block lies above all others
  have hsame (a j : Nat) (ha : a + j ≤ s.brk pool) : SameOn s.mem (setSize s.mem (s.brk pool) k) a j :=
    setSize_sameOn _ _ (.inr ha)
  have hmember (y : Extent) (hy : y ∈ root (s.header pool) :: l) : y.addr + 8 ≤ s.brk pool := by
    rcases List.mem_cons.1 hy with rfl | hy
    · rw [root_addr]
      omega
    · have hw := hlist.within y hy
      have := hw.le_hi
      have := hw.pos
      have := hw.len
      simp only [Extent.fin_eq] at *
      omega
  obtain ⟨t, ht⟩ : ∃ t, t = { s.grown pool (8 * k) with mem := setSize s.mem (s.brk pool) k } := ⟨_, rfl⟩
  have hmem : t.mem = setSize s.mem (s.brk pool) k := by rw [ht]
  have hheader : t.header pool = s.header pool := by rw [ht]; exact grown_header s pool pool _
  have hstart : t.start pool = s.start pool := by rw [ht]; exact grown_start s pool pool _
  have htbrk : t.brk pool = s.brk pool + 8 * k := by rw [ht]; exact grown_brk s pool _
  have htfreep : t.freep = s.freep := by rw [ht]; exact grown_freep s pool _
  have hts : Sizes t := by
    rw [ht]
    exact ⟨hs.start_le, hs.sz_le, hs.sz_mod, hs.hugesz_le, hs.hugesz_mod⟩
  have htlist : FreeList t.mem (t.header pool) (t.start pool) (t.brk pool) l := by
    rw [hmem, hheader, hstart, htbrk]
    exact hlist.congr (by omega) (by omega) fun y hy => hsame _ _ (hmember y hy)
  have hfin : (s.fresh pool (8 * k)).fin = s.brk pool + 8 * k := rfl
  obtain ⟨m, y, hy, hrun, hlist', hframe⟩ := vfree_run (x := s.fresh pool (8 * k)) hts htlist (hheader ▸ hf)
    (htfreep ▸ hfreep) ⟨hstart ▸ hbrk, htbrk ▸ hfin.le, hmod, Nat.mul_mod_right 8 k, by
      show 0 < 8 * k
      omega⟩
    (by rw [hmem]; exact congrArg (8 * ·) (size_setSize _ _ (by omega)))
    (fun y hy => .inr (hlist.within y hy).le_hi)
  rw [hheader] at hy hlist' hframe
  rw [hstart, htbrk] at hlist'
  refine ⟨m, y, hy, fun fuel hfuel => ?_, hlist', fun a j hb hfree => ?_⟩
  · have hne : s.brk pool ≠ failed := by
      simp only [failed]
      omega
    have hadd : addHeaders (s.brk pool) 1 = (s.fresh pool (8 * k)).addr + 8 := by
      simp only [addHeaders, headerSize, u32, Heap.fresh]
      omega
    have hrun' := hrun fuel hfuel
    rw [ht] at hrun'
    rw [morecore, hsbrk]
    simp only [hne, if_false, grown_mem, ← hk, hadd, hrun']
    simp [Heap.withList]
  · have hnew := (List.forall_mem_cons.1 hfree).1
    refine SameOn.trans (setSize_sameOn _ _ ?_) (hmem ▸ hframe a j hb hfree)
    simp only [Heap.fresh, Extent.fin_mk] at hnew
    omega

theorem units_pos (nbytes : Nat) : 0 < units nbytes := Nat.succ_pos _

/-- The pool, whose free blocks were `l`, gives up the block `x`: what it looks like with the
memory `m` and the pointer `f` into the list. -/
structure Gives (s : Heap) (pool : Pool) (hi : Nat) (l : List Extent) (x : Extent) (l' : List Extent) (m : Mem) (f : Extent) :
    Prop where
  carve : Carve l x l'
  list : FreeList m (s.header pool) (s.start pool) hi l'
  freep : f ∈ root (s.header pool) :: l'
  size : 8 * size m x.addr = x.len

/-- The outcome of a search that succeeds. -/
theorem search_gives {f : Extent} {t : Heap} {hi n : Nat} (hlist : FreeList t.mem (s.header pool) (s.start pool) hi l)
    (hf : f ∈ root (s.header pool) :: l) (hfreep : t.freep pool = f.addr) (hn : 0 < n) (hex : ∃ x ∈ l, 8 * n ≤ x.len) :
    ∃ x l' m z, Gives s pool hi l x l' m z ∧ x.len = 8 * n ∧ Frame t.mem m (s.header pool) l ∧
      ∀ fuel, l.length < fuel → malloc.search pool n fuel f.addr (ptr t.mem f.addr) t =
        some (x.addr + 8, t.withList pool m z.addr) := by
  obtain ⟨l₁, y, l₂, z, m, rfl, hz, htaken, hrun⟩ := hlist.search_hit hf hfreep hn hex
  have hfits := htaken.fits
  refine ⟨⟨y.addr + (y.len - 8 * n), 8 * n⟩, l₁ ++ (cut y (8 * n) ++ l₂), m, z,
    ⟨⟨l₁, y, l₂, rfl, hfits, ?_, rfl⟩, htaken.list, ?_, congrArg (8 * ·) htaken.size⟩, rfl, htaken.frame, hrun⟩
  · simp only [Extent.fin_eq]
    omega
  · rcases List.mem_cons.1 hz with rfl | hz
    · simp
    · simp [hz]

/-- The writes inside a placed block and its neighbours. -/
theorem Frame.place {m m' : Mem} {b : Nat} {x : Extent} (h : Frame m m' b (place x l)) {a n : Nat}
    (hl : ∀ y ∈ x :: l, y.fin ≤ a ∨ a + n ≤ y.addr) (hb : b + 8 ≤ a ∨ a + n ≤ b) : SameOn m m' a n := by
  rcases Nat.eq_zero_or_pos n with rfl | hn
  · intro c hlo hhi
    omega
  · obtain ⟨hx, hl⟩ := List.forall_mem_cons.1 hl
    refine h a n hb (place_forall hx hl fun y z hy hz hmeet => ?_)
    simp only [Extent.fin_eq, Extent.join_addr, Extent.join_len] at *
    omega

theorem sbrk_withList (n : Int) (m : Mem) (p : Nat) :
    sbrk pool n (s.withList pool m p) = ((sbrk pool n s).1, (sbrk pool n s).2.withList pool m p) := by
  cases pool with
  | base =>
    simp only [sbrk, Heap.withList]
    split <;> rfl
  | huge =>
    simp only [sbrk, Heap.withList]
    split <;> rfl

@[simp] theorem withList_brk (s : Heap) (pool p : Pool) (m : Mem) (a : Nat) : (s.withList pool m a).brk p = s.brk p := by
  cases p <;> rfl

@[simp] theorem withList_start (s : Heap) (pool p : Pool) (m : Mem) (a : Nat) :
    (s.withList pool m a).start p = s.start p := by
  cases p <;> rfl

@[simp] theorem withList_mem (s : Heap) (pool : Pool) (m : Mem) (a : Nat) : (s.withList pool m a).mem = m := rfl

@[simp] theorem withList_header (s : Heap) (pool p : Pool) (m : Mem) (a : Nat) :
    (s.withList pool m a).header p = s.header p := rfl

@[simp] theorem withList_fresh (s : Heap) (pool p : Pool) (m : Mem) (a n : Nat) :
    (s.withList pool m a).fresh p n = s.fresh p n := by
  simp [Heap.fresh]

theorem withList_grown (s : Heap) (pool : Pool) (m : Mem) (a n : Nat) :
    (s.withList pool m a).grown pool n = (s.grown pool n).withList pool m a := by
  cases pool <;> rfl

@[simp] theorem withList_withList (s : Heap) (pool : Pool) (m m' : Mem) (a a' : Nat) :
    (s.withList pool m a).withList pool m' a' = s.withList pool m' a' := by
  simp [Heap.withList]

@[simp] theorem withList_freep (s : Heap) (pool : Pool) (m : Mem) (a : Nat) : (s.withList pool m a).freep pool = a :=
  update_self ..

/-- A request that the free blocks can serve. -/
theorem body_hit (h : PoolOK s pool l) (hs : Sizes s) (hex : ∃ x ∈ l, 8 * units nbytes ≤ x.len) :
    ∃ x l' m f, Gives s pool (s.brk pool) l x l' m f ∧ x.len = 8 * units nbytes ∧ Frame s.mem m (s.header pool) l ∧
      ∀ fuel, l.length < fuel → malloc.body pool fuel nbytes s = some (x.addr + 8, s.withList pool m f.addr) := by
  obtain ⟨m, f, hprep, hf, hlist, hframe⟩ := prepare_spec h hs
  obtain ⟨x, l', m', z, hgives, hlen, hframe', hrun⟩ := search_gives (t := s.withList pool m f.addr) hlist hf
    (withList_freep ..) (units_pos nbytes) hex
  refine ⟨x, l', m', z, hgives, hlen, fun a n hb hl => (hframe a n hb hl).trans (hframe' a n hb hl), fun fuel hfuel => ?_⟩
  simp only [malloc.body, hprep]
  rw [withList_freep, hrun fuel hfuel, withList_withList]

/-- A request that neither the free blocks nor the kernel can serve. -/
theorem body_refused (h : PoolOK s pool l) (hs : Sizes s) (hsmall : ∀ x ∈ l, x.len < 8 * units nbytes)
    (hfail : (sbrk pool (request pool (units nbytes)) s).1 = failed) :
    ∃ m f, FreeList m (s.header pool) (s.start pool) (s.brk pool) l ∧ f ∈ root (s.header pool) :: l ∧
      Frame s.mem m (s.header pool) l ∧ ∀ fuel, l.length < fuel →
        malloc.body pool fuel nbytes s =
          some (0, (sbrk pool (request pool (units nbytes)) s).2.withList pool m f.addr) := by
  obtain ⟨m, f, hprep, hf, hlist, hframe⟩ := prepare_spec h hs
  refine ⟨m, f, hlist, hf, hframe, fun fuel hfuel => ?_⟩
  obtain ⟨k, rfl⟩ : ∃ k, fuel = k + 1 + l.length := ⟨fuel - 1 - l.length, by omega⟩
  simp only [malloc.body, hprep]
  rw [withList_freep, hlist.search_miss (s := s.withList pool m f.addr) hf (withList_freep ..) hsmall (units_pos nbytes), morecore,
    sbrk_withList]
  simp [hfail]

theorem FreeList.addr_ne {m : Mem} {b lo hi : Nat} {f : Extent} (h : FreeList m b lo hi l) (hb : 0 < b)
    (hf : f ∈ root b :: l) : f.addr ≠ 0 := by
  rcases List.mem_cons.1 hf with rfl | hf
  · exact hb.ne'
  · have := (h.within f hf).lo_le
    have := h.below
    omega

/-- A request for which the kernel extends the pool. -/
theorem body_granted (h : PoolOK s pool l) (hs : Sizes s) (hsmall : ∀ x ∈ l, x.len < 8 * units nbytes)
    (hs' : Sizes (s.grown pool (8 * moreUnits pool (units nbytes))))
    (hsbrk : sbrk pool (request pool (units nbytes)) s =
      (s.brk pool, s.grown pool (8 * moreUnits pool (units nbytes)))) :
    ∃ x l' m f, Gives s pool (s.brk pool + 8 * moreUnits pool (units nbytes))
        (place (s.fresh pool (8 * moreUnits pool (units nbytes))) l) x l' m f ∧ x.len = 8 * units nbytes ∧
      Frame s.mem m (s.header pool) (s.fresh pool (8 * moreUnits pool (units nbytes)) :: l) ∧
      ∀ fuel, 2 * l.length + 3 < fuel → malloc.body pool fuel nbytes s =
        some (x.addr + 8, (s.grown pool (8 * moreUnits pool (units nbytes))).withList pool m f.addr) := by
  obtain ⟨m, f, hprep, hf, hlist, hframe⟩ := prepare_spec h hs
  obtain ⟨m₁, y, hy, hmore, hlist₁, hframe₁⟩ := morecore_granted (s := s.withList pool m f.addr) (l := l)
    (n := units nbytes) (by rw [withList_grown]; exact hs'.withList) (by simpa using hlist) hf (withList_freep ..).symm
    (by simpa using hs.start_le_brk pool) (by simpa using hs.brk_mod pool)
    (by rw [sbrk_withList, hsbrk, withList_grown, withList_brk])
  rw [withList_fresh] at hy hlist₁ hframe₁
  rw [withList_header] at hy hlist₁ hframe₁
  rw [withList_start, withList_brk] at hlist₁
  have hbig : ∃ x ∈ place (s.fresh pool (8 * moreUnits pool (units nbytes))) l, 8 * units nbytes ≤ x.len := by
    obtain ⟨x, hx, hle⟩ := place_len_le (s.fresh pool (8 * moreUnits pool (units nbytes))) l
    have hunits := (moreUnits_pos pool (units nbytes)).2
    exact ⟨x, hx, le_trans (by show _ ≤ 8 * moreUnits pool (units nbytes); omega) hle⟩
  obtain ⟨x, l', m₂, z, hgives, hlen, hframe₂, hrun⟩ := search_gives
    (t := (s.grown pool (8 * moreUnits pool (units nbytes))).withList pool m₁ y.addr) hlist₁ hy (withList_freep ..)
    (units_pos nbytes) hbig
  refine ⟨x, l', m₂, z, hgives, hlen, fun a n hb hl => ?_, fun fuel hfuel => ?_⟩
  · have hl' := (List.forall_mem_cons.1 hl).2
    exact ((hframe a n hb hl').trans (hframe₁ a n hb hl)).trans (hframe₂.place hl hb)
  · obtain ⟨k, rfl⟩ : ∃ k, fuel = k + 1 + l.length := ⟨fuel - 1 - l.length, by omega⟩
    have hlength := place_length_le (s.fresh pool (8 * moreUnits pool (units nbytes))) l
    simp only [malloc.body, hprep]
    rw [withList_freep, hlist.search_miss (s := s.withList pool m f.addr) hf (withList_freep ..) hsmall (units_pos nbytes),
      hmore k (by omega), withList_grown, withList_withList]
    have hne : y.addr ≠ 0 := hlist₁.addr_ne (s.image.header_pos pool) hy
    simp only [Option.bind_eq_bind, Option.bind_some, hne, if_false]
    rw [hrun k (by omega), withList_withList]

theorem run_eq_body (c : Call) (fuel : Nat) (s : Heap) :
    c.run fuel s = malloc.body (c.pool s) fuel c.nbytes s := by
  have hmalloc (nbytes : Nat) : malloc fuel nbytes s =
      malloc.body (if nbytes > 1000000 ∧ s.thp ≠ 0 then .huge else .base) fuel nbytes s := by
    unfold malloc
    split <;> rfl
  cases c with
  | malloc nbytes => exact hmalloc nbytes
  | vmalloc nbytes flag =>
    simp only [Call.run, Call.pool, Call.nbytes, vmalloc]
    split
    · exact hmalloc nbytes
    · rfl

/-- The free blocks of one pool are not affected by what happens in the other. -/
theorem PoolOK.other {p : Pool} {k : List Extent} (h : PoolOK s p k) (hs : Sizes s) (hp : p ≠ pool)
    (hframe : Frame s.mem s'.mem (s.header pool) l) (hl : ∀ x ∈ l, s.start pool ≤ x.addr ∧ x.fin ≤ limit pool)
    (himage : s'.image = s.image) (hfreep : s'.freep p = s.freep p) (hbrk : s'.brk p = s.brk p) : PoolOK s' p k := by
  have hheader : s'.header p = s.header p := by rw [Heap.header, himage, Heap.header]
  have hstart : s'.start p = s.start p := by
    cases p with
    | base => exact congrArg Image.start himage
    | huge => rfl
  refine ⟨fun hzero => h.unused (hfreep ▸ hzero), fun hne => ?_, fun hne => ?_⟩
  · have hlist := h.list (hfreep ▸ hne)
    rw [hheader, hstart, hbrk]
    refine hlist.congr le_rfl hlist.hi_lt fun y hy => hframe _ _ ?_ fun x hx => ?_
    · rcases List.mem_cons.1 hy with rfl | hy
      · exact header_apart s hp
      · have := (hlist.within y hy).lo_le
        have := header_le_start s hs pool p
        omega
    · obtain ⟨hlo, hhi⟩ := hl x hx
      rcases List.mem_cons.1 hy with rfl | hy
      · have := header_le_start s hs p pool
        rw [root_addr]
        omega
      · have hw := hlist.within y hy
        have := hw.lo_le
        have := hw.le_hi
        have := hw.pos
        have := hw.len
        have := hs.brk_le p
        have := y.fin_eq
        rcases regions s hp with h | h <;> omega
  · rw [hheader, hfreep]
    exact h.freep (hfreep ▸ hne)

theorem FreeList.poolOK {m : Mem} {f : Extent} (h : FreeList m (s.header pool) (s.start pool) (s.brk pool) l)
    (hf : f ∈ root (s.header pool) :: l) : PoolOK (s.withList pool m f.addr) pool l := by
  refine ⟨fun hzero => ?_, fun _ => by simpa using h, fun _ => ⟨f, hf, (withList_freep ..).symm⟩⟩
  rw [withList_freep] at hzero
  exact absurd hzero (h.addr_ne (s.image.header_pos pool) hf)

theorem FreeList.region {m : Mem} {x : Extent} (h : FreeList m (s.header pool) (s.start pool) (s.brk pool) l) (hs : Sizes s)
    (hx : x ∈ l) : s.start pool ≤ x.addr ∧ x.fin ≤ limit pool :=
  ⟨(h.within x hx).lo_le, (h.within x hx).le_hi.trans (hs.brk_le pool)⟩

theorem units_lt (h : nbytes ≤ 0x7FFFFFF0) : units nbytes < 2 ^ 28 := by
  simp only [units, u32, headerSize]
  omega

theorem moreUnits_lt (pool : Pool) {n : Nat} (h : n < 2 ^ 28) : moreUnits pool n < 2 ^ 28 := by
  unfold moreUnits
  split
  · cases pool <;> decide
  · exact h

/-- What a request for `n` units can lead to in a pool whose free blocks are `l`: the value returned and the
state after it. -/
inductive Outcome (s : Heap) (pool : Pool) (l : List Extent) (n : Nat) : Nat → Heap → Prop
  | hit {x : Extent} {l' : List Extent} {m : Mem} {f : Extent} :
    Gives s pool (s.brk pool) l x l' m f → x.len = 8 * n → Frame s.mem m (s.header pool) l →
      Outcome s pool l n (x.addr + 8) (s.withList pool m f.addr)
  | refused {m : Mem} {f : Extent} :
    (∀ x ∈ l, x.len < 8 * n) →
      sbrk pool (request pool n) s = (failed, s.asked pool (8 * moreUnits pool n : Nat)) →
      FreeList m (s.header pool) (s.start pool) (s.brk pool) l → f ∈ root (s.header pool) :: l →
      Frame s.mem m (s.header pool) l →
      Outcome s pool l n 0 ((s.asked pool (8 * moreUnits pool n : Nat)).withList pool m f.addr)
  | granted {x : Extent} {l' : List Extent} {m : Mem} {f : Extent} :
    (∀ x ∈ l, x.len < 8 * n) →
      sbrk pool (request pool n) s = (s.brk pool, s.grown pool (8 * moreUnits pool n)) →
      Sizes (s.grown pool (8 * moreUnits pool n)) →
      Gives s pool (s.brk pool + 8 * moreUnits pool n) (place (s.fresh pool (8 * moreUnits pool n)) l) x l' m f →
      x.len = 8 * n → Frame s.mem m (s.header pool) (s.fresh pool (8 * moreUnits pool n) :: l) →
      Outcome s pool l n (x.addr + 8) ((s.grown pool (8 * moreUnits pool n)).withList pool m f.addr)

/-- Every request whose size does not overflow comes to an end. -/
theorem run_outcome (c : Call) (hs : Sizes s) (h : PoolOK s (c.pool s) l) (hn : units c.nbytes < 2 ^ 28) :
    ∃ r s', c.Returns s r s' ∧ Outcome s (c.pool s) l (units c.nbytes) r s' := by
  simp only [Call.Returns, run_eq_body]
  generalize c.pool s = pool at *
  generalize c.nbytes = nbytes at *
  by_cases hex : ∃ x ∈ l, 8 * units nbytes ≤ x.len
  · obtain ⟨x, l', m, f, hgives, hlen, hframe, hrun⟩ := body_hit h hs hex
    exact ⟨_, _, ⟨l.length + 1, fun fuel hfuel => hrun fuel (by omega)⟩, .hit hgives hlen hframe⟩
  · have hsmall (x : Extent) (hx : x ∈ l) : x.len < 8 * units nbytes := by
      by_contra hge
      exact hex ⟨x, hx, by omega⟩
    have hrequest := request_eq (moreUnits_lt pool hn)
    have hpos := (moreUnits_pos pool (units nbytes)).1
    rcases sbrk_pos hs pool (n := 8 * moreUnits pool (units nbytes)) (by omega) (Nat.mul_mod_right _ _) with
      hfail | ⟨hok, hs'⟩
    · rw [← hrequest] at hfail
      obtain ⟨m, f, hlist, hf, hframe, hrun⟩ := body_refused h hs hsmall (by rw [hfail])
      rw [hfail, hrequest] at hrun
      rw [hrequest] at hfail
      exact ⟨_, _, ⟨l.length + 1, fun fuel hfuel => hrun fuel (by omega)⟩,
        .refused hsmall (hrequest ▸ hfail) hlist hf hframe⟩
    · rw [← hrequest] at hok
      obtain ⟨x, l', m, f, hgives, hlen, hframe, hrun⟩ := body_granted h hs hsmall hs' hok
      exact ⟨_, _, ⟨2 * l.length + 4, fun fuel hfuel => hrun fuel (by omega)⟩,
        .granted hsmall hok hs' hgives hlen hframe⟩

theorem Within.carve {lo hi : Nat} {x : Extent} {l' : List Extent} (hl : ∀ y ∈ l, Within lo hi y) (h : Carve l x l')
    (hmod : x.len % 8 = 0) (hpos : 0 < x.len) : Within lo hi x := by
  obtain ⟨y, hy, haddr, hfin⟩ := h.within
  have hw := hl y hy
  have hyaddr := hw.addr
  have hylen := hw.len
  refine ⟨hw.lo_le.trans haddr, hfin ▸ hw.le_hi, ?_, hmod, hpos⟩
  simp only [Extent.fin_eq] at hfin
  omega

theorem PoolOK.within (h : PoolOK s pool l) : ∀ x ∈ l, Within (s.start pool) (s.brk pool) x := by
  intro x hx
  by_cases hzero : s.freep pool = 0
  · simp [h.unused hzero] at hx
  · exact (h.list hzero).within x hx

theorem Within.mono {lo hi hi' : Nat} {x : Extent} (h : Within lo hi x) (hle : hi ≤ hi') : Within lo hi' x :=
  ⟨h.lo_le, h.le_hi.trans hle, h.addr, h.len, h.pos⟩

theorem within_fresh (hs : Sizes s) (pool : Pool) {n : Nat} (hn : 0 < n) :
    Within (s.start pool) (s.brk pool + 8 * n) (s.fresh pool (8 * n)) :=
  ⟨hs.start_le_brk pool, le_rfl, hs.brk_mod pool, Nat.mul_mod_right 8 n, Nat.mul_pos (by decide) hn⟩

theorem within_place (h : PoolOK s pool l) (hs : Sizes s) {n : Nat} (hn : 0 < n) :
    ∀ x ∈ place (s.fresh pool (8 * n)) l, Within (s.start pool) (s.brk pool + 8 * n) x :=
  place_forall (within_fresh hs pool hn) (fun x hx => (h.within x hx).mono (Nat.le_add_right _ _)) fun _ _ hy hz => hy.join hz

/-- The block that a request returns. -/
theorem Outcome.block {n r : Nat} (hout : Outcome s pool l n r s') (h : PoolOK s pool l) (hs : Sizes s) (hn : 0 < n) :
    r = 0 ∨ ∃ x : Extent, r = x.addr + 8 ∧ x.len = 8 * n ∧ size s'.mem x.addr = n ∧
      Within (s.start pool) (s'.brk pool) x := by
  cases hout with
  | hit hgives hlen hframe =>
    refine .inr ⟨_, rfl, hlen, by have := hgives.size; simp only [withList_mem]; omega, ?_⟩
    rw [withList_brk]
    exact .carve h.within hgives.carve (by omega) (by omega)
  | refused => exact .inl rfl
  | granted hsmall hok hs' hgives hlen hframe =>
    refine .inr ⟨_, rfl, hlen, by have := hgives.size; simp only [withList_mem]; omega, ?_⟩
    rw [withList_brk, grown_brk]
    exact .carve (within_place h hs (moreUnits_pos pool n).1) hgives.carve (by omega) (by omega)

theorem Sizes.brk_ne_failed (hs : Sizes s) (pool : Pool) : s.brk pool ≠ failed := by
  have := hs.brk_le pool
  have := limit_le pool
  simp only [failed]
  omega

theorem Sizes.initial {image : Image} (h : image.start ≤ PHYSTOP) (mem : Mem) (thp : Int) (grants : Nat → Bool) :
    Sizes (Heap.initial image mem thp grants) :=
  ⟨le_rfl, h, image.aligned, Nat.zero_le _, rfl⟩

theorem PoolOK.initial (image : Image) (mem : Mem) (thp : Int) (grants : Nat → Bool) (pool : Pool) :
    PoolOK (Heap.initial image mem thp grants) pool [] :=
  ⟨fun _ => rfl, fun h => absurd rfl h, fun h => absurd rfl h⟩

/-- A program of four pages. -/
def Image.small : Image where
  header
    | .base => 0x2000
    | .huge => 0x2008
  start := 0x4000
  header_pos pool := by cases pool <;> decide
  header_le pool := by cases pool <;> decide
  apart := .inl le_rfl
  aligned := rfl

/-- Free memory is used before the heap grows. The search for a block, by `malloc` or by `vmalloc`, ends
for every state of the free list. It asks the kernel for memory, once, exactly if no free block of the pool
is large enough, and returns 0 exactly if that is refused. The free blocks are then those from before. -/
theorem reuse_before_growth (c : Call) (hs : Sizes s) (h : PoolOK s (c.pool s) l) (hn : c.nbytes ≤ 0x7FFFFFF0) :
    ∃ r s', c.Returns s r s' ∧
      (s'.requests = s.requests ∨
        s'.requests = (c.pool s, ((8 * moreUnits (c.pool s) (units c.nbytes) : Nat) : Int)) :: s.requests) ∧
      (s'.requests ≠ s.requests ↔ ∀ x ∈ l, x.len < 8 * units c.nbytes) ∧
      (r = 0 ↔ s'.requests ≠ s.requests ∧ (sbrk (c.pool s) (request (c.pool s) (units c.nbytes)) s).1 = failed) ∧
      (r = 0 → PoolOK s' (c.pool s) l ∧ ∀ p k, p ≠ c.pool s → PoolOK s p k → PoolOK s' p k) := by
  obtain ⟨r, s', hret, hout⟩ := run_outcome c hs h (units_lt hn)
  refine ⟨r, s', hret, ?_⟩
  generalize c.pool s = pool at *
  cases hout with
  | @hit x l' m f hgives hlen hframe =>
    refine ⟨.inl rfl, ⟨fun hne => absurd rfl hne, fun hsmall => ?_⟩, ⟨fun h => absurd h (by omega), fun h => absurd rfl h.1⟩,
      fun h => absurd h (by omega)⟩
    obtain ⟨l₁, w, l₂, rfl, hle, -, -⟩ := hgives.carve
    have := hsmall w (by simp)
    omega
  | @refused m f hsmall hfail hlist hf hframe =>
    have hasked : ((s.asked pool (8 * moreUnits pool (units c.nbytes) : Nat)).withList pool m f.addr).requests ≠
        s.requests := List.cons_ne_self _ _
    refine ⟨.inr rfl, iff_of_true hasked hsmall, iff_of_true rfl ⟨hasked, by rw [hfail]⟩, fun _ => ⟨?_, fun p k hp hk => ?_⟩⟩
    · exact FreeList.poolOK (s := s.asked pool (8 * moreUnits pool (units c.nbytes) : Nat)) hlist hf
    · exact hk.other hs hp hframe (fun x hx => hlist.region hs hx) rfl (update_of_ne hp _ _) rfl
  | @granted x l' m f hsmall hok hs' hgives hlen hframe =>
    have hrequests : ((s.grown pool (8 * moreUnits pool (units c.nbytes))).withList pool m f.addr).requests =
        (pool, ((8 * moreUnits pool (units c.nbytes) : Nat) : Int)) :: s.requests := by
      rw [Heap.withList, grown_requests]
    have hasked := hrequests ▸ List.cons_ne_self (pool, ((8 * moreUnits pool (units c.nbytes) : Nat) : Int)) s.requests
    refine ⟨.inr hrequests, iff_of_true hasked hsmall, iff_of_false (by omega) ?_, fun h => absurd h (by omega)⟩
    rw [hok]
    exact fun h => hs.brk_ne_failed pool h.2

/-- A program of four pages with two free blocks of the base pool and a block in use between them. -/
def Heap.used : Heap where
  image := .small
  mem := setSize (setPtr (setSize (setPtr (setSize (setPtr (fun _ => 0) 0x2000 0x4000) 0x2000 0) 0x4000 0x6000) 0x4000
    0x200) 0x6000 0x2000) 0x6000 0xC00
  freep
    | .base => 0x6000
    | .huge => 0
  sz := 0xC000
  hugesz := 0
  thp := 0
  grants _ := true
  requests := [(.base, 0x8000)]

theorem sizes_used : Sizes .used := ⟨by decide, by decide, rfl, by decide, rfl⟩

theorem poolOK_used : PoolOK .used .base [⟨0x4000, 0x1000⟩, ⟨0x6000, 0x6000⟩] where
  unused h := absurd h (by decide)
  list _ := by
    refine ⟨?_, by simp [Spaced, Extent.fin_eq], ?_, by decide, by decide⟩
    · exact List.isChain_cons_cons.2 ⟨⟨by decide, by decide⟩, List.isChain_cons_cons.2 ⟨⟨by decide, by decide⟩,
        List.isChain_cons_cons.2 ⟨⟨by decide, by decide⟩, by simp⟩⟩⟩
    · simp only [List.forall_mem_cons]
      exact ⟨⟨by decide, by decide, rfl, rfl, by decide⟩, ⟨by decide, by decide, rfl, rfl, by decide⟩, by simp⟩
  freep _ := ⟨⟨0x6000, 0x6000⟩, by simp, rfl⟩

/-- A request that the second of two free blocks serves, and one that is too large for both. -/
theorem reuse_before_growth_used :
    (∃ r s', (Call.malloc 20000).Returns .used r s' ∧ r ≠ 0 ∧ s'.requests = [(.base, 0x8000)]) ∧
    ∃ r s', (Call.malloc 30000).Returns .used r s' ∧ r ≠ 0 ∧ s'.requests = [(.base, 0x8000), (.base, 0x8000)] := by
  obtain ⟨r, s', hret, hrequests, hasked, hzero, -⟩ := reuse_before_growth (.malloc 20000) sizes_used poolOK_used
    (by decide)
  obtain ⟨r₁, s₁, hret₁, hrequests₁, hasked₁, hzero₁, -⟩ := reuse_before_growth (.malloc 30000) sizes_used poolOK_used
    (by decide)
  have hsame : s'.requests = Heap.used.requests := by
    by_contra hne
    exact absurd (hasked.1 hne) (by decide)
  exact ⟨⟨r, s', hret, fun h => (hzero.1 h).1 hsame, hsame⟩, r₁, s₁, hret₁,
    fun h => absurd (hzero₁.1 h).2 (by decide), hrequests₁.resolve_left (hasked₁.2 (by decide))⟩

end xv6.umalloc
