import Xv6.Umalloc.Alloc

open bytes cycle extent Function

namespace xv6.umalloc

variable {s s' : Heap} {pool : Pool} {l : List Extent} {nbytes : Nat}

/-- What a system call changes besides the sizes, and what it returns. -/
theorem sbrk_cases (hs : Sizes s) (pool : Pool) (n : Int) :
    (sbrk pool n s).1 = failed ∨ (sbrk pool n s).1 = s.brk pool := by
  have hhuge : u32 (s.hugesz + HUGE_VA_OFFSET) = s.brk .huge := by
    have := hs.hugesz_le
    simp only [u32, Heap.brk, HUGE_VA_OFFSET, HUGE_PAGE_END, HUGE_PAGE_START] at *
    omega
  cases pool with
  | base =>
    simp only [sbrk]
    split
    · exact .inr rfl
    · exact .inl rfl
  | huge =>
    simp only [sbrk]
    split
    · exact .inr hhuge
    · exact .inl rfl

/-- A block on top of all others of a size that need not fit: where the first part of `vfree` links it to. -/
theorem joinUpper_top {m : Mem} {b p a : Nat} (hnext : ptr m p = b) (hb : b + 8 ≤ a) (hp : p + 8 ≤ a) (hsize : size m b = 0) :
    ∃ w, (w = b ∨ w = ptr m b) ∧ ptr (vfree.joinUpper m a p) a = w ∧ size (vfree.joinUpper m a p) a = size m a ∧
      ∀ c n, a + 8 ≤ c ∨ c + n ≤ a → SameOn m (vfree.joinUpper m a p) c n := by
  have hlt := size_lt m a
  have hblt : b < 2 ^ 32 := hnext ▸ ptr_lt m p
  unfold vfree.joinUpper
  split
  · refine ⟨ptr m b, .inr rfl, ?_⟩
    have hset (v c n : Nat) (hc : a + 8 ≤ c ∨ c + n ≤ a) : SameOn m (setSize m a v) c n := setSize_sameOn m v hc
    simp only [hnext, hsize, Nat.add_zero, ptr_congr (hset _ p 8 (.inr hp)), ptr_congr (hset _ b 8 (.inr hb))]
    have hu : u32 (size m a) = size m a := Nat.mod_eq_of_lt hlt
    rw [hu]
    refine ⟨ptr_setPtr _ _ (ptr_lt m b), ?_, fun c n hc => (hset _ c n hc).trans (setPtr_sameOn _ _ hc)⟩
    rw [size_setPtr, size_setSize _ _ hlt]
  · rw [hnext]
    exact ⟨b, .inl rfl, ptr_setPtr _ _ hblt, size_setPtr _ _ _, fun c n hc => setPtr_sameOn _ _ hc⟩

/-- What `vfree` does with a block on top of all others, whatever its size. -/
theorem FreeList.top {m : Mem} {b lo hi a : Nat} {f : Extent} (h : FreeList m b lo hi l) (hf : f ∈ root b :: l) (hlo : lo ≤ a)
    (htop : ∀ x ∈ l, x.fin ≤ a) :
    ∃ l₁ y, root b :: l = l₁ ++ [y] ∧ y.addr + 8 ≤ a ∧ y.fin ≤ a ∧
      ∀ n, l.length + 1 < n → vfree.find m a n f.addr = some y.addr := by
  obtain ⟨l₁, y, l₂, hl, hy, hupper, hfind⟩ := h.find (x := ⟨a, 0⟩) hlo (fun x hx heq => by
    have := htop x hx
    have := (h.within x hx).pos
    simp only [Extent.fin_eq] at *
    omega) hf
  have hnil : l₂ = [] := by
    refine List.eq_nil_iff_forall_not_mem.2 fun z hz => ?_
    have hza : a < z.addr := hupper z hz
    have hmem : z ∈ root b :: l := by simp [hl, hz]
    have hbelow := h.below
    rcases List.mem_cons.1 hmem with rfl | hmem
    · simp only [root_addr] at hza
      omega
    · have := htop z hmem
      have := z.fin_eq
      omega
  subst hnil
  have hbelow := h.below
  have hymem : y ∈ root b :: l := by simp [hl]
  have hya : y.addr + 8 ≤ a ∧ y.fin ≤ a := by
    rcases List.mem_cons.1 hymem with rfl | hymem
    · simp only [root_addr, root_fin]
      omega
    · have := htop y hymem
      have := (h.within y hymem).pos
      have := (h.within y hymem).len
      have := y.fin_eq
      omega
  exact ⟨l₁, y, hl, hya.1, hya.2, hfind⟩

/-- The members before the last one, entered from it past the header `base` or by way of it. -/
theorem FreeList.round {m m' : Mem} {b lo hi w : Nat} {l₁ : List Extent} {y f : Extent} (h : FreeList m b lo hi (l₁ ++ [y]))
    (hw : w = b ∨ w = ptr m b) (hptr : ptr m' f.addr = w) (hsize : 8 * size m' f.addr = f.len)
    (hsame : ∀ z ∈ root b :: l₁, SameOn m m' z.addr 8) :
    ∃ r, (∀ z ∈ r, z ∈ root b :: l₁) ∧ r.length ≤ l₁.length + 1 ∧ (f :: (r ++ [y])).IsChain (Link m') := by
  have hchain : ((root b :: l₁) ++ [y]).IsChain (Link m') :=
    chain_congr (List.isChain_split.1 (h.chain (show root b :: (l₁ ++ [y]) = (root b :: l₁) ++ [y] from rfl))).1 hsame
  rcases hw with rfl | rfl
  · exact ⟨root w :: l₁, fun z hz => hz, by simp, List.isChain_cons_cons.2 ⟨⟨hptr, hsize⟩, hchain⟩⟩
  · obtain ⟨v, u, hu⟩ : ∃ v u, l₁ ++ [y] = v :: u := List.exists_cons_of_ne_nil (by simp)
    refine ⟨l₁, fun z hz => by simp [hz], by simp, ?_⟩
    rw [List.cons_append, hu] at hchain
    rw [hu]
    obtain ⟨hroot, htail⟩ := List.isChain_cons_cons.1 hchain
    refine List.isChain_cons_cons.2 ⟨⟨?_, hsize⟩, htail⟩
    rw [hptr, ← hroot.1, ptr_congr (hsame (root b) (by simp)), root_addr]

/-- The search after a block of `n` units that cannot be there was put on top of the list: it is returned. -/
theorem FreeList.search_top {b lo hi a n : Nat} {t : Heap} {l₁ : List Extent} {y : Extent} {m : Mem}
    (h : FreeList m b lo hi l) (pool : Pool) (hl : root b :: l = l₁ ++ [y]) (hya : y.addr + 8 ≤ a) (hle : y.fin ≤ a) (halt : a + 8 < 2 ^ 32)
    (hn : 0 < n) (hnlt : n + size m y.addr < 2 ^ 32) (hsmall : ∀ x ∈ l, x.len < 8 * n) (hsize : size m a = n)
    (hba : b + 8 ≤ a) (hmem : t.mem = vfree.joinLower (vfree.joinUpper m a y.addr) a y.addr)
    (hfreep : t.freep pool = y.addr) :
    ∃ m' p, ∀ fuel, l.length < fuel →
      malloc.search pool n fuel y.addr (ptr t.mem y.addr) t = some (a + 8, t.withList pool m' p) := by
  have hymem : y ∈ root b :: l := by simp [hl]
  have hnext : ptr m y.addr = b := by
    have hchain := (List.isChain_split.1 (h.chain hl)).2
    exact (List.isChain_cons_cons.1 hchain).1.1
  have hroot : size m b = 0 := by
    have : 8 * size m b = 0 := h.link (y := root b) (by simp)
    omega
  obtain ⟨w, hw, hptr, hsz, hsame⟩ := joinUpper_top hnext hba hya hroot
  have hysize : size (vfree.joinUpper m a y.addr) y.addr = size m y.addr := size_congr (hsame _ 8 (.inr hya))
  have hylen := h.link hymem
  have hmeet : addHeaders y.addr (size m y.addr) = y.fin := addHeaders_eq hylen (by omega)
  have hadd : addHeaders a 1 = a + 8 := by
    simp only [addHeaders, headerSize, u32]
    omega
  by_cases hj : y.fin = a
  · -- joined to the last block, which is found after a round of the list
    have htmem : t.mem = setPtr (setSize (vfree.joinUpper m a y.addr) y.addr (size m y.addr + n)) y.addr w := by
      rw [hmem, vfree.joinLower, hysize, hmeet, if_pos hj, hsz, hsize]
      simp only [ptr_congr (setSize_sameOn _ _ (Or.inl hya)), hptr]
      rw [u32, Nat.mod_eq_of_lt (by omega)]
    have hyl : y ∈ l := by
      refine (List.mem_cons.1 hymem).resolve_left ?_
      rintro rfl
      rw [root_fin] at hj
      omega
    obtain ⟨l₀, rfl⟩ : ∃ l₀, l = l₀ ++ [y] := by
      cases l₁ with
      | nil =>
        obtain ⟨-, rfl⟩ := List.cons.inj hl
        simp at hyl
      | cons z l₀ => exact ⟨l₀, (List.cons.inj hl).2⟩
    have hcross (z : Extent) (hz : z ∈ root b :: l₀) : z.addr + 8 ≤ y.addr :=
      (List.pairwise_append.1 (show ((root b :: l₀) ++ [y]).Pairwise _ from h.headers)).2.2 z hz y (by simp)
    have htsame (z : Extent) (hz : z ∈ root b :: l₀) : SameOn m t.mem z.addr 8 := by
      have hzy := hcross z hz
      rw [htmem]
      exact ((hsame _ 8 (.inr (by omega))).trans (setSize_sameOn _ _ (.inr hzy))).trans (setPtr_sameOn _ _ (.inr hzy))
    have htsize : size t.mem y.addr = size m y.addr + n := by
      rw [htmem, size_setPtr, size_setSize _ _ (by omega)]
    obtain ⟨r, hr, hrlen, hchain⟩ := h.round (f := ⟨y.addr, 8 * (size m y.addr + n)⟩) hw
      (by rw [htmem]; exact ptr_setPtr _ _ (hptr ▸ ptr_lt _ _)) (by rw [htsize]) htsame
    have hskip (z : Extent) (hz : z ∈ r) : size t.mem z.addr < n ∧ z.addr ≠ t.freep pool := by
      have hzr := hr z hz
      have hzy := hcross z hzr
      refine ⟨?_, by omega⟩
      rw [size_congr (htsame z hzr)]
      rcases List.mem_cons.1 hzr with rfl | hzl
      · rw [root_addr, hroot]
        omega
      · have := h.link (y := z) (by simp [hzl])
        have := hsmall z (by simp [hzl])
        omega
    obtain ⟨z, -, -, hwalk⟩ := search_walk hchain hskip
    have hypos := (h.within y hyl).pos
    refine ⟨setSize (setSize t.mem y.addr (size m y.addr)) a n, z.addr, fun fuel hfuel => ?_⟩
    obtain ⟨k, rfl⟩ : ∃ k, fuel = k + 1 + r.length := ⟨fuel - 1 - r.length, by simp at hfuel; omega⟩
    rw [hwalk, malloc.search, htsize, if_pos (by omega), if_neg (by omega), Nat.add_sub_cancel]
    simp only [size_setSize _ _ (size_lt m y.addr), hmeet, hj, hadd]
    rfl
  · -- linked behind the last block, where the search starts
    have htmem : t.mem = setPtr (vfree.joinUpper m a y.addr) y.addr a := by
      rw [hmem, vfree.joinLower, hysize, hmeet, if_neg hj]
    have hta : size t.mem a = n := by
      rw [htmem, size_congr (setPtr_sameOn _ _ (.inl hya)), hsz, hsize]
    have hty : ptr t.mem y.addr = a := by rw [htmem, ptr_setPtr _ _ (by omega)]
    refine ⟨setPtr t.mem y.addr (ptr t.mem a), y.addr, fun fuel hfuel => ?_⟩
    obtain ⟨k, rfl⟩ : ∃ k, fuel = k + 1 := ⟨fuel - 1, by omega⟩
    rw [hty, malloc.search, if_pos hta.ge, if_pos hta, hadd]
    rfl

theorem PoolOK.small (h : PoolOK s pool l) (hs : Sizes s) {n : Nat} (hn : 2 ^ 28 ≤ n) : ∀ x ∈ l, x.len < 8 * n := by
  intro x hx
  have hne : s.freep pool ≠ 0 := fun hzero => by simp [h.unused hzero] at hx
  have := ((h.list hne).within x hx).le_hi
  have := hs.brk_le pool
  have := limit_le pool
  have := x.fin_eq
  omega

/-- A request whose size in bytes is not a positive `int`: if the kernel does not refuse it, `malloc` returns the
old end of the pool as a block. -/
theorem body_overflow (h : PoolOK s pool l) (hs : Sizes s) (hlo : 2 ^ 28 ≤ units nbytes) (hhi : units nbytes ≤ 2 ^ 29)
    (hok : (sbrk pool (request pool (units nbytes)) s).1 ≠ failed) :
    ∃ m p, ∀ fuel, 2 * l.length + 3 < fuel → malloc.body pool fuel nbytes s =
      some (s.brk pool + 8, (sbrk pool (request pool (units nbytes)) s).2.withList pool m p) := by
  obtain ⟨m, f, hprep, hf, hlist, -⟩ := prepare_spec h hs
  have hsmall := h.small hs hlo
  have hbrk := (sbrk_cases hs pool (request pool (units nbytes))).resolve_left hok
  have hmore : moreUnits pool (units nbytes) = units nbytes := by
    unfold moreUnits
    rw [if_neg]
    cases pool <;> simp only [leastUnits, HUGE_PAGE_SIZE, headerSize] <;> omega
  have hlimit := limit_le pool
  have hle := hs.brk_le pool
  have hstart := hs.start_le_brk pool
  have hheader := header_le_start s hs pool pool
  obtain ⟨m₁, hm₁⟩ : ∃ m₁, m₁ = setSize m (s.brk pool) (units nbytes) := ⟨_, rfl⟩
  have hfin (x : Extent) (hx : x ∈ l) : x.fin ≤ s.brk pool := (hlist.within x hx).le_hi
  have hlist₁ : FreeList m₁ (s.header pool) (s.start pool) (s.brk pool) l :=
    hlist.congr le_rfl hlist.hi_lt fun y hy => hm₁ ▸ setSize_sameOn _ _ (.inr (by
      rcases List.mem_cons.1 hy with rfl | hy
      · rw [root_addr]
        omega
      · have hw := hlist.within y hy
        have := hw.le_hi
        have := hw.pos
        have := hw.len
        have := y.fin_eq
        omega))
  obtain ⟨l₁, y, hl, hya, hyle, hfind⟩ := hlist₁.top hf hstart hfin
  obtain ⟨t, ht⟩ : ∃ t, t = (sbrk pool (request pool (units nbytes)) s).2.withList pool
      (vfree.joinLower (vfree.joinUpper m₁ (s.brk pool) y.addr) (s.brk pool) y.addr) y.addr := ⟨_, rfl⟩
  have hymem : y ∈ root (s.header pool) :: l := by simp [hl]
  have hylen := hlist₁.link hymem
  have hyfin := y.fin_eq
  obtain ⟨m', p, hsearch⟩ := hlist₁.search_top (t := t) pool hl hya hyle (by omega) (units_pos nbytes) (by omega) hsmall
    (hm₁ ▸ size_setSize _ _ (by omega)) (by omega) (by rw [ht]; rfl) (by rw [ht]; exact withList_freep ..)
  have hmorecore (k : Nat) (hk : l.length + 1 < k) :
      morecore pool k (units nbytes) (s.withList pool m f.addr) = some (y.addr, t) := by
    have hadd : addHeaders (s.brk pool) 1 = s.brk pool + 8 := by
      simp only [addHeaders, headerSize, u32]
      omega
    have hbp : u32 (s.brk pool + 8 + (2 ^ 32 - headerSize)) = s.brk pool := by
      simp only [u32, headerSize]
      omega
    rw [morecore, sbrk_withList, hbrk]
    simp only [if_neg (hbrk ▸ hok), hadd, hmore, vfree, hbp,
      pool_of_addr (show s.start pool ≤ s.brk pool + 8 by omega) (show s.brk pool + 8 ≤ limit pool + 8 by omega)]
    simp only [withList_mem, ← hm₁]
    rw [show ((sbrk pool (request pool (units nbytes)) s).2.withList pool m f.addr).freep pool = f.addr from
      withList_freep .., hfind k hk]
    simp [ht, Heap.withList]
  refine ⟨m', p, fun fuel hfuel => ?_⟩
  obtain ⟨k, rfl⟩ : ∃ k, fuel = k + 1 + l.length := ⟨fuel - 1 - l.length, by omega⟩
  simp only [malloc.body, hprep]
  rw [withList_freep, hlist.search_miss (s := s.withList pool m f.addr) hf (withList_freep ..) hsmall (units_pos nbytes),
    hmorecore k (by omega)]
  have hne : y.addr ≠ 0 := hlist₁.addr_ne (s.image.header_pos pool) hymem
  simp only [Option.bind_eq_bind, Option.bind_some, if_neg hne]
  rw [hsearch k (by omega), ht, withList_withList]

theorem Call.Returns.unique {c : Call} {r r' : Nat} {t t' : Heap} (h : c.Returns s r t) (h' : c.Returns s r' t') :
    r = r' ∧ t = t' := by
  obtain ⟨n, hn⟩ := h
  obtain ⟨n', hn'⟩ := h'
  have := (hn (n + n') (by omega)).symm.trans (hn' (n + n') (by omega))
  simpa using this

theorem grown_brk_ne (s : Heap) {p : Pool} (hp : p ≠ pool) (n : Nat) : (s.grown pool n).brk p = s.brk p := by
  cases pool <;> cases p <;> first | contradiction | rfl

theorem le_grown_brk (s : Heap) (pool p : Pool) (n : Nat) : s.brk p ≤ (s.grown pool n).brk p := by
  by_cases hp : p = pool
  · rw [hp, grown_brk]
    omega
  · rw [grown_brk_ne s hp]

/-- The requests of an outcome and what they do to the sizes. -/
theorem Outcome.requests {n r : Nat} (hout : Outcome s pool l n r s') :
    (∃ new, s'.requests = new ++ s.requests ∧ ∀ q ∈ new, 0 < q.2 ∧ q.2 = 8 * moreUnits q.1 n ∧
      (r ≠ 0 → (s'.brk q.1 : Int) = s.brk q.1 + q.2)) ∧ ∀ p, s.brk p ≤ s'.brk p := by
  have hpos := (moreUnits_pos pool n).1
  cases hout with
  | hit hgives hlen hframe => exact ⟨⟨[], rfl, by simp⟩, fun p => by rw [withList_brk]⟩
  | refused hsmall hfail hlist hf hframe =>
    refine ⟨⟨[(pool, ((8 * moreUnits pool n : Nat) : Int))], rfl, ?_⟩, fun p => ?_⟩
    · simp
      omega
    · rw [withList_brk]
      cases p <;> rfl
  | granted hsmall hok hs' hgives hlen hframe =>
    refine ⟨⟨[(pool, ((8 * moreUnits pool n : Nat) : Int))], by rw [Heap.withList, grown_requests]; rfl, ?_⟩, fun p => ?_⟩
    · simp [grown_brk]
      omega
    · rw [withList_brk]
      exact le_grown_brk s pool p _

end xv6.umalloc
