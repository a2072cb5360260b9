import Mathlib.Data.List.Nodup
import Xv6.Umalloc.Pool

open bytes cycle extent Function

namespace xv6.umalloc

variable {m m' : Mem} {b lo hi nunits : Nat} {l l₁ l₂ : List Extent} {x y z : Extent} {pool : Pool} {s : Heap}

theorem FreeList.link_inj (h : FreeList m b lo hi l) (hy : y ∈ root b :: l) (hz : z ∈ root b :: l)
    (heq : ptr m y.addr = ptr m z.addr) : y = z := by
  have hmap : (root b :: l).map (fun x => ptr m x.addr) = (l ++ [root b]).map Extent.addr :=
    map_eq_of_isChain (h.cycle.imp fun _ _ hlink => hlink.1)
  have haddr : ((root b :: l).map Extent.addr).Nodup :=
    List.Pairwise.map _ (fun x y hxy => by omega) h.headers
  have hnodup : ((root b :: l).map fun x => ptr m x.addr).Nodup := by
    rw [hmap]
    exact ((List.perm_append_singleton _ _).map _).nodup_iff.2 haddr
  exact List.inj_on_of_nodup_map hnodup hy hz heq

/-- Walking the list while the blocks are too small. -/
theorem search_walk {f : Extent} {r : List Extent} (hr : (f :: (r ++ [y])).IsChain (Link s.mem))
    (hsmall : ∀ z ∈ r, size s.mem z.addr < nunits ∧ z.addr ≠ s.freep pool) :
    ∃ z ∈ f :: r, Link s.mem z y ∧ ∀ n,
      malloc.search pool nunits (n + r.length) f.addr (ptr s.mem f.addr) s = malloc.search pool nunits n z.addr y.addr s := by
  induction r generalizing f with
  | nil =>
    have hlink := (List.isChain_cons_cons.1 hr).1
    exact ⟨f, by simp, hlink, fun n => by rw [hlink.1]; rfl⟩
  | cons w r ih =>
    obtain ⟨hfw, hchain⟩ := List.isChain_cons_cons.1 hr
    obtain ⟨hw, htail⟩ := List.forall_mem_cons.1 hsmall
    obtain ⟨z, hz, hlink, heq⟩ := ih hchain htail
    refine ⟨z, List.mem_cons_of_mem _ hz, hlink, fun n => ?_⟩
    rw [hfw.1, List.length_cons, ← Nat.add_assoc, malloc.search, if_neg (by omega), if_neg hw.2, heq]

/-- The member before a block. -/
theorem FreeList.pred (h : FreeList m b lo hi (l₁ ++ y :: l₂)) (hz : z ∈ root b :: (l₁ ++ y :: l₂)) (hlink : Link m z y) :
    ∃ l₀, root b :: l₁ = l₀ ++ [z] := by
  obtain ⟨l₀, w, hw⟩ : ∃ l₀ w, root b :: l₁ = l₀ ++ [w] :=
    ⟨_, _, (List.dropLast_append_getLast (List.cons_ne_nil (root b) l₁)).symm⟩
  have hsplit : root b :: (l₁ ++ y :: l₂) = l₀ ++ w :: y :: l₂ := by
    rw [← List.cons_append, hw, List.append_assoc]
    rfl
  have hwy := (List.isChain_cons_cons.1 (List.isChain_split.1 (h.chain hsplit)).2).1
  have hwmem : w ∈ root b :: (l₁ ++ y :: l₂) := by simp [hsplit]
  rw [h.link_inj hz hwmem (hlink.1.trans hwy.1.symm)]
  exact ⟨l₀, hw⟩

/-- Taking a whole block off the list. -/
theorem FreeList.unlink (h : FreeList m b lo hi (l₁ ++ y :: l₂)) (hz : z ∈ root b :: (l₁ ++ y :: l₂)) (hlink : Link m z y) :
    FreeList (setPtr m z.addr (ptr m y.addr)) b lo hi (l₁ ++ l₂) := by
  obtain ⟨l₀, hl₀⟩ := h.pred hz hlink
  have hsplit : root b :: (l₁ ++ y :: l₂) = l₀ ++ z :: y :: l₂ := by
    rw [← List.cons_append, hl₀, List.append_assoc]
    rfl
  obtain ⟨hlow, hhigh⟩ := List.isChain_split.1 (h.chain hsplit)
  obtain ⟨-, hheaders, hcross⟩ := List.pairwise_append.1 (hsplit ▸ h.headers)
  have hafter := (List.pairwise_cons.1 hheaders).1
  obtain ⟨w, u, hu⟩ : ∃ w u, l₂ ++ [root b] = w :: u := List.exists_cons_of_ne_nil (by simp)
  have hyw : Link m y w := by
    rw [List.cons_append, hu] at hhigh
    exact (List.isChain_cons_cons.1 (List.isChain_cons_cons.1 hhigh).2).1
  refine ⟨?_, h.spaced.sublist (by simp), fun x hx => h.within x ?_, h.below, h.hi_lt⟩
  · have hlist : root b :: (l₁ ++ l₂ ++ [root b]) = l₀ ++ z :: (l₂ ++ [root b]) := by
      rw [List.append_assoc, ← List.cons_append, hl₀, List.append_assoc]
      rfl
    rw [IsCircular, hlist]
    refine List.isChain_split.2 ⟨chain_congr hlow fun x hx => setPtr_sameOn m _ (.inr (hcross x hx z (by simp))), ?_⟩
    have htail : (l₂ ++ [root b]).IsChain (Link (setPtr m z.addr (ptr m y.addr))) :=
      chain_congr hhigh.tail.tail fun x hx => setPtr_sameOn m _ (.inl (hafter x (by simp [hx])))
    rw [hu] at htail ⊢
    refine List.isChain_cons_cons.2 ⟨⟨?_, ?_⟩, htail⟩
    · rw [ptr_setPtr _ _ (ptr_lt m _), hyw.1]
    · rw [size_setPtr, hlink.2]
  · simp only [List.mem_append, List.mem_cons] at hx ⊢
    tauto

/-- Taking the end of a block. -/
theorem FreeList.shorten (h : FreeList m b lo hi (l₁ ++ y :: l₂)) {n : Nat} (hn : 0 < n) (hlt : 8 * n < y.len) :
    FreeList (setSize (setSize m y.addr (size m y.addr - n)) (y.addr + (y.len - 8 * n)) n) b lo hi
      (l₁ ++ ⟨y.addr, y.len - 8 * n⟩ :: l₂) := by
  have hsplit : root b :: (l₁ ++ y :: l₂) = (root b :: l₁) ++ y :: l₂ := rfl
  obtain ⟨hlow, hhigh⟩ := List.isChain_split.1 (h.chain hsplit)
  obtain ⟨-, hheaders, hcross⟩ := List.pairwise_append.1 (hsplit ▸ h.headers)
  have hspaced := hsplit ▸ h.spaced_root
  have hy := h.within y (by simp)
  have hylen := hy.len
  have hylink := h.link (y := y) (by simp)
  have hyhi := hy.le_hi
  have hhi := h.hi_lt
  have hyfin := y.fin_eq
  have hafter (x : Extent) (hx : x ∈ l₂) : y.fin < x.addr :=
    (List.pairwise_cons.1 (List.pairwise_append.1 hspaced).2.1).1 x hx
  have hsame (a : Nat) (ha : y.fin ≤ a ∨ a + 8 ≤ y.addr) :
      SameOn m (setSize (setSize m y.addr (size m y.addr - n)) (y.addr + (y.len - 8 * n)) n) a 8 :=
    (setSize_sameOn m _ (by omega)).trans (setSize_sameOn _ _ (by omega))
  refine ⟨?_, h.spaced.shorten rfl (Nat.sub_le _ _), fun x hx => ?_, h.below, hhi⟩
  · have hlist : root b :: (l₁ ++ ⟨y.addr, y.len - 8 * n⟩ :: l₂ ++ [root b]) =
        (root b :: l₁) ++ ⟨y.addr, y.len - 8 * n⟩ :: (l₂ ++ [root b]) := by simp
    rw [IsCircular, hlist]
    refine List.isChain_split.2 ⟨isChain_last (chain_congr hlow fun x hx => hsame x.addr (.inr (hcross x hx y (by simp))))
      fun x hx => hx.target rfl, ?_⟩
    have htail := chain_congr hhigh.tail fun x hx => hsame x.addr (.inl (hafter x hx).le)
    obtain ⟨w, u, hu⟩ : ∃ w u, l₂ ++ [root b] = w :: u := List.exists_cons_of_ne_nil (by simp)
    rw [hu] at hhigh htail ⊢
    have hyw := (List.isChain_cons_cons.1 hhigh).1
    have hheader : SameOn (setSize m y.addr (size m y.addr - n))
        (setSize (setSize m y.addr (size m y.addr - n)) (y.addr + (y.len - 8 * n)) n) y.addr 8 :=
      setSize_sameOn _ _ (by omega)
    refine List.isChain_cons_cons.2 ⟨⟨?_, ?_⟩, htail⟩
    · rw [ptr_congr hheader, ptr_setSize, hyw.1]
    · rw [size_congr hheader, size_setSize _ _ (by have := size_lt m y.addr; omega)]
      show 8 * (size m y.addr - n) = y.len - 8 * n
      omega
  · simp only [List.mem_append, List.mem_cons] at hx
    rcases hx with hx | rfl | hx
    · exact h.within x (by simp [hx])
    · refine ⟨hy.lo_le, ?_, hy.addr, ?_, ?_⟩
      · simp only [Extent.fin_eq]
        omega
      · show (y.len - 8 * n) % 8 = 0
        omega
      · show 0 < y.len - 8 * n
        omega
    · exact h.within x (by simp [hx])

/-- What `malloc` leaves when it has taken `n` units from the block `y`. -/
structure Taken (m m' : Mem) (b lo hi : Nat) (l₁ : List Extent) (y : Extent) (l₂ : List Extent) (n : Nat) : Prop where
  fits : 8 * n ≤ y.len
  list : FreeList m' b lo hi (l₁ ++ (cut y (8 * n) ++ l₂))
  size : size m' (y.addr + (y.len - 8 * n)) = n
  frame : Frame m m' b (l₁ ++ y :: l₂)

theorem FreeList.header_apart (h : FreeList m b lo hi l) {a n : Nat} (hz : z ∈ root b :: l) (hb : b + 8 ≤ a ∨ a + n ≤ b)
    (hl : ∀ y ∈ l, y.fin ≤ a ∨ a + n ≤ y.addr) : z.addr + 8 ≤ a ∨ a + n ≤ z.addr := by
  rcases List.mem_cons.1 hz with rfl | hz
  · exact hb
  · have := hl z hz
    have := (h.within z hz).pos
    have := (h.within z hz).len
    simp only [Extent.fin_eq] at *
    omega

/-- The search has come to a block that is large enough. -/
theorem FreeList.take (h : FreeList s.mem b lo hi (l₁ ++ y :: l₂)) (hz : z ∈ root b :: (l₁ ++ y :: l₂))
    (hlink : Link s.mem z y) {n : Nat} (hn : 0 < n) (hfits : 8 * n ≤ y.len) (pool : Pool) :
    ∃ m', (∀ fuel, malloc.search pool n (fuel + 1) z.addr y.addr s =
        some (y.addr + (y.len - 8 * n) + 8, { s with mem := m', freep := update s.freep pool z.addr })) ∧
      z ∈ root b :: l₁ ∧ Taken s.mem m' b lo hi l₁ y l₂ n := by
  obtain ⟨l₀, hl₀⟩ := h.pred hz hlink
  have hy := h.within y (by simp)
  have hylink := h.link (y := y) (by simp)
  have hyhi := hy.le_hi
  have hhi := h.hi_lt
  have hyfin := y.fin_eq
  have hadd (a : Nat) (ha : a < y.fin) (hlen : a % 8 = 0) : addHeaders a 1 = a + 8 := by
    have := hy.addr
    have := hy.len
    simp only [addHeaders, headerSize, u32]
    omega
  have hylen := hy.len
  have hyaddr := hy.addr
  by_cases heq : size s.mem y.addr = n
  · refine ⟨setPtr s.mem z.addr (ptr s.mem y.addr), ?_, by simp [hl₀], hfits, ?_, ?_, fun a k hb hl => ?_⟩
    · intro fuel
      rw [malloc.search, if_pos (by omega), if_pos heq, hadd _ (by omega) hyaddr,
        show y.addr + (y.len - 8 * n) = y.addr by omega]
    · rw [cut, if_pos (by omega)]
      exact h.unlink hz hlink
    · rw [show y.addr + (y.len - 8 * n) = y.addr by omega, ← heq]
      refine size_congr (setPtr_sameOn _ _ ?_)
      have hbefore : z ∈ root b :: l₁ := by simp [hl₀]
      exact .inl ((List.pairwise_append.1 (show ((root b :: l₁) ++ y :: l₂).Pairwise _ from h.headers)).2.2 z hbefore y
        (by simp))
    · exact setPtr_sameOn _ _ (h.header_apart hz hb hl)
  · have hsize : addHeaders y.addr (size s.mem y.addr - n) = y.addr + (y.len - 8 * n) := by
      simp only [addHeaders, headerSize, u32]
      omega
    refine ⟨setSize (setSize s.mem y.addr (size s.mem y.addr - n)) (y.addr + (y.len - 8 * n)) n, ?_, by simp [hl₀], hfits,
      ?_, ?_, fun a k hb hl => ?_⟩
    · intro fuel
      rw [malloc.search, if_pos (by omega), if_neg heq]
      simp only [size_setSize _ _ (show size s.mem y.addr - n < 2 ^ 32 by have := size_lt s.mem y.addr; omega), hsize]
      rw [hadd _ (by omega) (by omega)]
    · rw [cut, if_neg (by omega)]
      exact h.shorten hn (by omega)
    · exact size_setSize _ _ (by omega)
    · have hya := hl y (by simp)
      exact (setSize_sameOn _ _ (by omega)).trans (setSize_sameOn _ _ (by omega))

/-- A list with a large enough block serves the request. -/
theorem FreeList.search_hit (h : FreeList s.mem b lo hi l) {f : Extent} {n : Nat} (hf : f ∈ root b :: l)
    (hfreep : s.freep pool = f.addr) (hn : 0 < n) (hex : ∃ x ∈ l, 8 * n ≤ x.len) :
    ∃ l₁ y l₂ z m', l = l₁ ++ y :: l₂ ∧ z ∈ root b :: l₁ ∧ Taken s.mem m' b lo hi l₁ y l₂ n ∧
      ∀ fuel, l.length < fuel → malloc.search pool n fuel f.addr (ptr s.mem f.addr) s =
        some (y.addr + (y.len - 8 * n) + 8, { s with mem := m', freep := update s.freep pool z.addr }) := by
  obtain ⟨r, hr, hperm⟩ := h.cycle.enter hf
  have hmem (x : Extent) : x ∈ r ++ [f] ↔ x ∈ root b :: l := by
    rw [← hperm.mem_iff]
    simp [or_comm]
  obtain ⟨x, hx, hxlen⟩ := hex
  obtain ⟨y, hy⟩ : ∃ y, (r ++ [f]).find? (fun y => decide (8 * n ≤ y.len)) = some y :=
    Option.isSome_iff_exists.1 (List.find?_isSome.2 ⟨x, (hmem x).2 (by simp [hx]), by simpa using hxlen⟩)
  obtain ⟨hfits, r₁, r₂, hsplit, hsmall⟩ := List.find?_eq_some_iff_append.1 hy
  simp only [decide_eq_true_eq, Bool.not_eq_true', decide_eq_false_iff_not, not_le] at hfits hsmall
  have hyl : y ∈ l := by
    have hyroot := (hmem y).1 (by simp [hsplit])
    refine (List.mem_cons.1 hyroot).resolve_left ?_
    rintro rfl
    have : (root b).len = 0 := rfl
    omega
  obtain ⟨l₁, l₂, rfl⟩ := List.append_of_mem hyl
  have hr₁ (z : Extent) (hz : z ∈ r₁) : z ∈ r := by
    have := congrArg List.dropLast hsplit
    rw [List.dropLast_concat, List.dropLast_append_of_ne_nil (by simp)] at this
    simp [this, hz]
  have hchain : ((f :: r₁) ++ y :: r₂).IsChain (Link s.mem) := by
    rw [List.cons_append, ← hsplit]
    exact hr
  have hnodup := hperm.nodup_iff.2 h.spaced_root.nodup
  have hrmem (z : Extent) (hz : z ∈ f :: r) : z ∈ root b :: (l₁ ++ y :: l₂) := hperm.mem_iff.1 hz
  have hskip (z : Extent) (hz : z ∈ r₁) : size s.mem z.addr < n ∧ z.addr ≠ s.freep pool := by
    have hzmem := hrmem z (by simp [hr₁ z hz])
    refine ⟨by have := h.link hzmem; have := hsmall z hz; omega, fun heq => ?_⟩
    have hzf : z = f := h.link_inj hzmem hf (by rw [heq, hfreep])
    exact (List.nodup_cons.1 hnodup).1 (hzf ▸ hr₁ z hz)
  have hlen : r₁.length ≤ (l₁ ++ y :: l₂).length := by
    have h₁ := congrArg List.length hsplit
    have h₂ := hperm.length_eq
    simp only [List.length_append, List.length_cons, List.length_nil] at h₁ h₂ ⊢
    omega
  obtain ⟨z, hz, hlink, hwalk⟩ := search_walk (List.isChain_split.1 hchain).1 hskip
  have hzmem : z ∈ root b :: (l₁ ++ y :: l₂) := hrmem z (by
    rcases List.mem_cons.1 hz with rfl | hz
    · simp
    · simp [hr₁ z hz])
  obtain ⟨m', htake, hzl₁, htaken⟩ := h.take hzmem hlink hn hfits pool
  refine ⟨l₁, y, l₂, z, m', rfl, hzl₁, htaken, fun fuel hfuel => ?_⟩
  obtain ⟨k, rfl⟩ : ∃ k, fuel = k + 1 + r₁.length := ⟨fuel - 1 - r₁.length, by omega⟩
  rw [hwalk, htake]

/-- Without one the search comes back to where it started and asks for memory. -/
theorem FreeList.search_miss (h : FreeList s.mem b lo hi l) {f : Extent} {n : Nat} (hf : f ∈ root b :: l)
    (hfreep : s.freep pool = f.addr) (hsmall : ∀ x ∈ l, x.len < 8 * n) (hn : 0 < n) (fuel : Nat) :
    malloc.search pool n (fuel + 1 + l.length) f.addr (ptr s.mem f.addr) s = (do
      let (q, s) ← morecore pool fuel n s
      if q = 0 then some (0, s) else malloc.search pool n fuel q (ptr s.mem q) s) := by
  obtain ⟨r, hr, hperm⟩ := h.cycle.enter hf
  have hnodup := hperm.nodup_iff.2 h.spaced_root.nodup
  have hsize (z : Extent) (hz : z ∈ f :: r) : size s.mem z.addr < n := by
    have hzmem := hperm.mem_iff.1 hz
    have := h.link hzmem
    rcases List.mem_cons.1 hzmem with rfl | hzl
    · have : (root b).len = 0 := rfl
      omega
    · have := hsmall z hzl
      omega
  have hskip (z : Extent) (hz : z ∈ r) : size s.mem z.addr < n ∧ z.addr ≠ s.freep pool := by
    refine ⟨hsize z (by simp [hz]), fun heq => ?_⟩
    have hzf : z = f := h.link_inj (hperm.mem_iff.1 (by simp [hz])) hf (by rw [heq, hfreep])
    exact (List.nodup_cons.1 hnodup).1 (hzf ▸ hz)
  obtain ⟨z, hz, hlink, hwalk⟩ := search_walk hr hskip
  have hlen : l.length = r.length := by simpa using hperm.length_eq.symm
  have hf' := hsize f (by simp)
  rw [hlen, hwalk, malloc.search, if_neg (by omega), if_pos hfreep.symm]

end xv6.umalloc
