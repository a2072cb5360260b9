import Xv6.Lib.Cycle
import Xv6.Lib.Extent
import Xv6.Umalloc

open bytes cycle extent

namespace xv6.umalloc

variable {m m' : Mem} {p q v : Nat}

theorem ptr_lt (m : Mem) (p : Nat) : ptr m p < 2 ^ 32 := load32_lt m p

theorem size_lt (m : Mem) (p : Nat) : size m p < 2 ^ 32 := load32_lt m _

theorem ptr_congr (h : SameOn m m' p 8) : ptr m' p = ptr m p := h.load32_eq le_rfl (by omega)

theorem size_congr (h : SameOn m m' p 8) : size m' p = size m p := h.load32_eq (by omega) (by omega)

@[simp] theorem ptr_setPtr (m : Mem) (p : Nat) (hv : v < 2 ^ 32) : ptr (setPtr m p v) p = v :=
  load32_store32_same m p hv

@[simp] theorem size_setSize (m : Mem) (p : Nat) (hv : v < 2 ^ 32) : size (setSize m p v) p = v :=
  load32_store32_same m _ hv

@[simp] theorem size_setPtr (m : Mem) (p v : Nat) : size (setPtr m p v) p = size m p :=
  load32_store32_ne m (by omega)

@[simp] theorem ptr_setSize (m : Mem) (p v : Nat) : ptr (setSize m p v) p = ptr m p :=
  load32_store32_ne m (by omega)

theorem setPtr_sameOn (m : Mem) {n : Nat} (v : Nat) (h : p + 8 ≤ q ∨ q + n ≤ p) : SameOn m (setPtr m p v) q n :=
  store32_sameOn m (by omega)

theorem setSize_sameOn (m : Mem) {n : Nat} (v : Nat) (h : p + 8 ≤ q ∨ q + n ≤ p) : SameOn m (setSize m p v) q n :=
  store32_sameOn m (by omega)

/-- The header at `x` is that of a block of the length of `x` with link to `y`. -/
def Link (m : Mem) (x y : Extent) : Prop := ptr m x.addr = y.addr ∧ 8 * size m x.addr = x.len

theorem Link.congr {x y : Extent} (h : Link m x y) (hsame : SameOn m m' x.addr 8) : Link m' x y :=
  ⟨(ptr_congr hsame).trans h.1, by rw [size_congr hsame, h.2]⟩

/-- A block between the addresses `lo` and `hi`. -/
structure Within (lo hi : Nat) (x : Extent) : Prop where
  lo_le : lo ≤ x.addr
  le_hi : x.fin ≤ hi
  addr : x.addr % 8 = 0
  len : x.len % 8 = 0
  pos : 0 < x.len

theorem Within.join {lo hi : Nat} {x y : Extent} (hx : Within lo hi x) (hy : Within lo hi y) (hmeet : x.fin = y.addr) :
    Within lo hi (x.join y) where
  lo_le := hx.lo_le
  le_hi := by
    have := hy.le_hi
    simp only [Extent.fin_eq, Extent.join_addr, Extent.join_len] at *
    omega
  addr := hx.addr
  len := by
    have := hx.len
    have := hy.len
    simp only [Extent.join_len]
    omega
  pos := Nat.add_pos_left hx.pos _

/-- The header `base` of a pool as a member of the list. -/
def root (b : Nat) : Extent := ⟨b, 0⟩

@[simp] theorem root_addr (b : Nat) : (root b).addr = b := rfl

@[simp] theorem root_fin (b : Nat) : (root b).fin = b := rfl

/-- The free list with the header `base` at `b` and the blocks `l` between `lo` and `hi`. -/
structure FreeList (m : Mem) (b lo hi : Nat) (l : List Extent) : Prop where
  cycle : IsCircular (Link m) (root b) l
  spaced : Spaced l
  within : ∀ x ∈ l, Within lo hi x
  below : b + 8 ≤ lo
  hi_lt : hi < 2 ^ 32

section
variable {b lo hi : Nat} {l : List Extent} {x : Extent}

theorem FreeList.spaced_root (h : FreeList m b lo hi l) : Spaced (root b :: l) := by
  refine List.pairwise_cons.2 ⟨fun x hx => ?_, h.spaced⟩
  have := (h.within x hx).lo_le
  have := h.below
  simp only [root_fin]
  omega

theorem addHeaders_eq (h : 8 * v = x.len) (hfin : x.fin < 2 ^ 32) : addHeaders x.addr v = x.fin := by
  simp only [addHeaders, Extent.fin_eq, headerSize, u32] at *
  omega

/-- A free list survives changes elsewhere, and its pool may grow. -/
theorem FreeList.congr {hi' : Nat} (h : FreeList m b lo hi l) (hle : hi ≤ hi') (hlt : hi' < 2 ^ 32)
    (hsame : ∀ y ∈ root b :: l, SameOn m m' y.addr 8) : FreeList m' b lo hi' l where
  cycle := isChain_congr (l := root b :: l) h.cycle fun y hy _ hlink => hlink.congr (hsame y hy)
  spaced := h.spaced
  within x hx := ⟨(h.within x hx).lo_le, (h.within x hx).le_hi.trans hle, (h.within x hx).addr, (h.within x hx).len,
    (h.within x hx).pos⟩
  below := h.below
  hi_lt := hlt

/-- The condition on which the loop of `vfree` stops. -/
def Stops (m : Mem) (bp p : Nat) : Prop := bp > p ∧ bp < ptr m p ∨ p ≥ ptr m p ∧ (bp > p ∨ bp < ptr m p)

theorem find_stop {n : Nat} (h : Stops m v p) : vfree.find m v (n + 1) p = some p := by
  unfold vfree.find
  rcases h with h | h
  · rw [if_pos h]
  · rw [if_pos h, ite_self]

theorem find_walk {f y : Extent} {r : List Extent} {n : Nat} (hr : (f :: (r ++ [y])).IsChain (Link m))
    (hgo : ∀ z ∈ f :: r, ¬ Stops m v z.addr) (hstop : Stops m v y.addr) (hn : r.length + 1 < n) :
    vfree.find m v n f.addr = some y.addr := by
  induction r generalizing f n with
  | nil =>
    obtain ⟨n, rfl⟩ : ∃ k, n = k + 2 := ⟨n - 2, by simp at hn; omega⟩
    have hnext : ptr m f.addr = y.addr := (List.isChain_cons_cons.1 hr).1.1
    have hf := hgo f (by simp)
    simp only [Stops, not_or] at hf
    rw [vfree.find, if_neg hf.1, if_neg hf.2, hnext, find_stop hstop]
  | cons z r ih =>
    obtain ⟨n, rfl⟩ : ∃ k, n = k + 1 := ⟨n - 1, by simp at hn; omega⟩
    obtain ⟨hfz, hchain⟩ := List.isChain_cons_cons.1 hr
    obtain ⟨hf, htail⟩ := List.forall_mem_cons.1 hgo
    simp only [Stops, not_or] at hf
    rw [vfree.find, if_neg hf.1, if_neg hf.2, hfz.1]
    exact ih hchain htail (by simp at hn; omega)

theorem FreeList.chain (h : FreeList m b lo hi l) {l₁ l₂ : List Extent} {y : Extent}
    (hl : root b :: l = l₁ ++ y :: l₂) : (l₁ ++ y :: (l₂ ++ [root b])).IsChain (Link m) := by
  have hcycle := h.cycle
  rw [IsCircular, ← List.cons_append, hl] at hcycle
  simpa using hcycle

theorem FreeList.stops (h : FreeList m b lo hi l) {l₁ l₂ : List Extent} {y : Extent}
    (hl : root b :: l = l₁ ++ y :: l₂) (hy : y.addr < x.addr) (hupper : ∀ z ∈ l₂, x.addr < z.addr) :
    Stops m x.addr y.addr := by
  have hchain := (List.isChain_split.1 (h.chain hl)).2
  have hspaced := hl ▸ h.spaced_root
  cases l₂ with
  | nil =>
    have hnext : ptr m y.addr = (root b).addr := (List.isChain_cons_cons.1 hchain).1.1
    have hle : (root b).addr ≤ y.addr := by
      cases l₁ with
      | nil => rw [(List.cons.inj hl).1]
      | cons z l₁ =>
        rw [(List.cons.inj hl).1]
        exact (Spaced.lt [] _ hspaced (by simp)).le
    exact .inr ⟨hnext ▸ hle, .inl hy⟩
  | cons z l₂ =>
    have hnext : ptr m y.addr = z.addr := (List.isChain_cons_cons.1 hchain).1.1
    exact .inl ⟨hy, hnext ▸ hupper z (by simp)⟩

theorem FreeList.not_stops (h : FreeList m b lo hi l) {l₁ l₂ : List Extent} {y z : Extent} (hlo : lo ≤ x.addr)
    (hl : root b :: l = l₁ ++ y :: l₂) (hy : y.addr < x.addr) (hupper : ∀ z ∈ l₂, x.addr < z.addr)
    (hz : z ∈ l₁ ∨ z ∈ l₂) : ¬ Stops m x.addr z.addr := by
  have hchain := h.chain hl
  have hspaced := hl ▸ h.spaced_root
  have hbelow := h.below
  rcases hz with hz | hz
  · obtain ⟨s, t, rfl⟩ := List.append_of_mem hz
    obtain ⟨w, u, hu⟩ : ∃ w u, t ++ [y] = w :: u := List.exists_cons_of_ne_nil (by simp)
    have hw : w ∈ t ++ [y] := by simp [hu]
    have hsplit : s ++ z :: t ++ y :: (l₂ ++ [root b]) = s ++ z :: w :: (u ++ (l₂ ++ [root b])) := by
      simpa using congrArg (· ++ (l₂ ++ [root b])) hu
    have hnext : ptr m z.addr = w.addr := by
      rw [hsplit] at hchain
      exact (List.isChain_cons_cons.1 (List.isChain_split.1 hchain).2).1.1
    have hwy : w.addr ≤ y.addr := by
      rcases List.mem_append.1 hw with hw | hw
      · obtain ⟨s', t', rfl⟩ := List.append_of_mem hw
        exact (Spaced.lt (s ++ z :: s') (t' ++ y :: l₂) (by simpa using hspaced) (by simp)).le
      · rw [List.mem_singleton.1 hw]
    have hzy : z.addr < y.addr := Spaced.lt s (t ++ y :: l₂) (by simpa using hspaced) (by simp)
    have hzw : z.addr < w.addr := by
      refine Spaced.lt s (t ++ y :: l₂) (by simpa using hspaced) ?_
      rcases List.mem_append.1 hw with hw | hw
      · simp [hw]
      · simp [List.mem_singleton.1 hw]
    simp only [Stops, hnext]
    omega
  · have hxz := hupper z hz
    obtain ⟨s, t, rfl⟩ := List.append_of_mem hz
    have hchain' : ((l₁ ++ y :: s) ++ z :: (t ++ [root b])).IsChain (Link m) := by simpa using hchain
    cases t with
    | nil =>
      have hnext : ptr m z.addr = b := (List.isChain_cons_cons.1 (List.isChain_split.1 hchain').2).1.1
      simp only [Stops, hnext]
      omega
    | cons w t =>
      have hnext : ptr m z.addr = w.addr := (List.isChain_cons_cons.1 (List.isChain_split.1 hchain').2).1.1
      have hzw : z.addr < w.addr := Spaced.lt (l₁ ++ y :: s) (w :: t) (by simpa using hspaced) (by simp)
      simp only [Stops, hnext]
      omega

/-- The loop of `vfree` finds the last member of the list below the block, wherever it starts. -/
theorem FreeList.find (h : FreeList m b lo hi l) {f : Extent} (hlo : lo ≤ x.addr)
    (hne : ∀ y ∈ l, y.addr ≠ x.addr) (hf : f ∈ root b :: l) :
    ∃ l₁ y l₂, root b :: l = l₁ ++ y :: l₂ ∧ y.addr < x.addr ∧ (∀ z ∈ l₂, x.addr < z.addr) ∧
      ∀ n, l.length + 1 < n → vfree.find m x.addr n f.addr = some y.addr := by
  have hroot : (root b).addr < x.addr := by
    have := h.below
    simp only [root_addr]
    omega
  obtain ⟨l₁, y, l₂, hl, hy, hupper⟩ := h.spaced_root.split hroot hne
  refine ⟨l₁, y, l₂, hl, hy, hupper, fun n hn => ?_⟩
  have hstop := h.stops hl hy hupper
  by_cases hfy : f = y
  · obtain ⟨n, rfl⟩ : ∃ k, n = k + 1 := ⟨n - 1, by omega⟩
    rw [hfy, find_stop hstop]
  · -- enter the cycle at `f` and follow it up to `y`
    obtain ⟨r, hr, hperm⟩ := h.cycle.enter hf
    have hyr : y ∈ f :: r := hperm.mem_iff.2 (by simp [hl])
    obtain ⟨r₁, r₂, rfl⟩ := List.append_of_mem ((List.mem_cons.1 hyr).resolve_left (Ne.symm hfy))
    have hnodup : (f :: r₁ ++ y :: r₂).Nodup := hperm.nodup_iff.2 h.spaced_root.nodup
    have hchain : ((f :: r₁) ++ y :: (r₂ ++ [f])).IsChain (Link m) := by simpa [IsCircular] using hr
    refine find_walk (List.isChain_split.1 hchain).1 (fun z hz => ?_) hstop ?_
    · have hzy : z ≠ y := by
        exact (List.nodup_append.1 hnodup).2.2 z hz y (by simp)
      have hmem : z ∈ l₁ ++ y :: l₂ := hl ▸ hperm.mem_iff.1 (List.mem_append_left (y :: r₂) hz)
      refine h.not_stops hlo hl hy hupper ?_
      simpa [hzy] using hmem
    · have hlen := hperm.length_eq
      simp only [List.length_cons, List.length_append] at hlen
      omega

/-- The members of a chain whose headers were not written. -/
theorem chain_congr {z : Extent} (h : (l ++ [z]).IsChain (Link m)) (hsame : ∀ y ∈ l, SameOn m m' y.addr 8) :
    (l ++ [z]).IsChain (Link m') :=
  isChain_congr h fun y hy _ hlink => hlink.congr (hsame y hy)

/-- The part of `vfree` that deals with the block above. -/
theorem joinUpper_spec {y : Extent} (hchain : (y :: (l ++ [root b])).IsChain (Link m))
    (hsize : 8 * size m x.addr = x.len) (hfin : x.fin < 2 ^ 32) (hlen : 8 ≤ x.len) (hb : b + 8 ≤ x.addr)
    (hy : y.addr + 8 ≤ x.addr) (hl : ∀ z ∈ l, x.fin ≤ z.addr ∧ z.fin < 2 ^ 32) :
    (placeUpper x l ++ [root b]).IsChain (Link (vfree.joinUpper m x.addr y.addr)) ∧
      ∀ a n, x.addr + 8 ≤ a ∨ a + n ≤ x.addr → SameOn m (vfree.joinUpper m x.addr y.addr) a n := by
  have hxfin := x.fin_eq
  have hmeet : addHeaders x.addr (size m x.addr) = x.fin := addHeaders_eq hsize hfin
  cases l with
  | nil =>
    have hnext : ptr m y.addr = b := (List.isChain_cons_cons.1 hchain).1.1
    have hjoin : vfree.joinUpper m x.addr y.addr = setPtr m x.addr b := by
      rw [vfree.joinUpper, hmeet, hnext, if_neg (by omega)]
    rw [hjoin]
    refine ⟨?_, fun a n => setPtr_sameOn m b⟩
    refine List.isChain_cons_cons.2 ⟨⟨ptr_setPtr m _ (by omega), ?_⟩, by simp⟩
    rw [size_setPtr, hsize]
  | cons z l =>
    have hnext : ptr m y.addr = z.addr := (List.isChain_cons_cons.1 hchain).1.1
    have htail : ((z :: l) ++ [root b]).IsChain (Link m) := hchain.tail
    obtain ⟨hz, hl⟩ := List.forall_mem_cons.1 hl
    have hzfin := z.fin_eq
    by_cases hxz : x.fin = z.addr
    · obtain ⟨w, u, hu⟩ : ∃ w u, l ++ [root b] = w :: u := List.exists_cons_of_ne_nil (by simp)
      have hzw : Link m z w := by
        rw [List.cons_append, hu] at htail
        exact (List.isChain_cons_cons.1 htail).1
      have hset (v a : Nat) (ha : x.addr + 8 ≤ a ∨ a + 8 ≤ x.addr) : SameOn m (setSize m x.addr v) a 8 :=
        setSize_sameOn m v ha
      have hjoin : vfree.joinUpper m x.addr y.addr =
          setPtr (setSize m x.addr (size m x.addr + size m z.addr)) x.addr w.addr := by
        rw [vfree.joinUpper, hmeet, hnext, if_pos hxz]
        simp only [ptr_congr (hset _ y.addr (.inr hy)), hnext, ptr_congr (hset _ z.addr (.inl (by omega))), hzw.1]
        rw [u32, Nat.mod_eq_of_lt (by have := hzw.2; omega)]
      have hsame (a n : Nat) (ha : x.addr + 8 ≤ a ∨ a + n ≤ x.addr) :
          SameOn m (vfree.joinUpper m x.addr y.addr) a n := by
        rw [hjoin]
        exact (setSize_sameOn m _ ha).trans (setPtr_sameOn _ _ ha)
      refine ⟨?_, hsame⟩
      have hcons : placeUpper x (z :: l) ++ [root b] = x.join z :: (l ++ [root b]) := by
        simp [placeUpper, hxz]
      have hl' := chain_congr htail.tail fun v hv => hsame v.addr 8 (.inl (by have := (hl v hv).1; omega))
      rw [hcons]
      rw [hu] at hl' ⊢
      refine List.isChain_cons_cons.2 ⟨?_, hl'⟩
      rw [hjoin]
      refine ⟨ptr_setPtr _ _ (hzw.1 ▸ ptr_lt m _), ?_⟩
      rw [Extent.join_addr, size_setPtr, size_setSize _ _ (by have := hzw.2; omega), Extent.join_len, ← hsize, ← hzw.2]
      omega
    · have hjoin : vfree.joinUpper m x.addr y.addr = setPtr m x.addr z.addr := by
        rw [vfree.joinUpper, hmeet, hnext, if_neg hxz]
      rw [hjoin]
      refine ⟨?_, fun a n => setPtr_sameOn m z.addr⟩
      have hcons : placeUpper x (z :: l) ++ [root b] = x :: z :: (l ++ [root b]) := by
        simp [placeUpper, hxz]
      rw [hcons]
      refine List.isChain_cons_cons.2 ⟨⟨ptr_setPtr m _ (hnext ▸ ptr_lt m _), ?_⟩, ?_⟩
      · rw [size_setPtr, hsize]
      · refine chain_congr htail fun v hv => setPtr_sameOn m _ (.inl ?_)
        rcases List.mem_cons.1 hv with rfl | hv
        · omega
        · have := (hl v hv).1
          omega

theorem Link.target {y z w : Extent} (h : Link m y z) (haddr : w.addr = z.addr) : Link m y w := ⟨h.1.trans haddr.symm, h.2⟩

/-- The part of `vfree` that deals with the block below. -/
theorem joinLower_spec {y q : Extent} {l₁ l₂ : List Extent} (hlow : (l₁ ++ [y]).IsChain (Link m))
    (hhigh : (q :: (l₂ ++ [root b])).IsChain (Link m)) (hsize : 8 * size m y.addr = y.len)
    (hyq : y.addr + 8 ≤ q.addr) (hle : y.fin ≤ q.addr) (hfin : q.fin < 2 ^ 32) (hl₁ : ∀ z ∈ l₁, z.addr + 8 ≤ y.addr)
    (hl₂ : ∀ z ∈ l₂, y.addr + 8 ≤ z.addr) :
    (l₁ ++ (if y.fin = q.addr then y.join q :: l₂ else y :: q :: l₂) ++ [root b]).IsChain
        (Link (vfree.joinLower m q.addr y.addr)) ∧
      ∀ a n, y.addr + 8 ≤ a ∨ a + n ≤ y.addr → SameOn m (vfree.joinLower m q.addr y.addr) a n := by
  have hyfin := y.fin_eq
  have hqfin := q.fin_eq
  have hmeet : addHeaders y.addr (size m y.addr) = y.fin := addHeaders_eq hsize (by omega)
  obtain ⟨w, u, hu⟩ : ∃ w u, l₂ ++ [root b] = w :: u := List.exists_cons_of_ne_nil (by simp)
  have hqw : Link m q w := by
    rw [hu] at hhigh
    exact (List.isChain_cons_cons.1 hhigh).1
  by_cases hjoins : y.fin = q.addr
  · have hjoin : vfree.joinLower m q.addr y.addr =
        setPtr (setSize m y.addr (size m y.addr + size m q.addr)) y.addr w.addr := by
      rw [vfree.joinLower, hmeet, if_pos hjoins]
      simp only [ptr_congr (setSize_sameOn m _ (Or.inl hyq)), hqw.1]
      rw [u32, Nat.mod_eq_of_lt (by have := hqw.2; omega)]
    have hsame (a n : Nat) (ha : y.addr + 8 ≤ a ∨ a + n ≤ y.addr) : SameOn m (vfree.joinLower m q.addr y.addr) a n := by
      rw [hjoin]
      exact (setSize_sameOn m _ ha).trans (setPtr_sameOn _ _ ha)
    refine ⟨?_, hsame⟩
    rw [if_pos hjoins, List.append_assoc, List.cons_append]
    refine List.isChain_split.2 ⟨isChain_last (chain_congr hlow fun z hz => hsame z.addr 8 (.inr (hl₁ z hz)))
      fun z hz => hz.target rfl, ?_⟩
    have htail := chain_congr hhigh.tail fun z hz => hsame z.addr 8 (.inl (hl₂ z hz))
    rw [hu] at htail ⊢
    refine List.isChain_cons_cons.2 ⟨?_, htail⟩
    rw [hjoin]
    refine ⟨ptr_setPtr _ _ (hqw.1 ▸ ptr_lt m _), ?_⟩
    rw [Extent.join_addr, size_setPtr, size_setSize _ _ (by have := hqw.2; omega), Extent.join_len, ← hsize, ← hqw.2]
    omega
  · have hjoin : vfree.joinLower m q.addr y.addr = setPtr m y.addr q.addr := by
      rw [vfree.joinLower, hmeet, if_neg hjoins]
    rw [hjoin]
    refine ⟨?_, fun a n => setPtr_sameOn m q.addr⟩
    rw [if_neg hjoins, List.append_assoc, List.cons_append, List.cons_append]
    refine List.isChain_split.2 ⟨chain_congr hlow fun z hz => setPtr_sameOn m _ (.inr (hl₁ z hz)), ?_⟩
    refine List.isChain_cons_cons.2 ⟨⟨ptr_setPtr m _ (by omega), by rw [size_setPtr, hsize]⟩, ?_⟩
    refine chain_congr (l := q :: l₂) hhigh fun z hz => setPtr_sameOn m _ (.inl ?_)
    rcases List.mem_cons.1 hz with rfl | hz
    · exact hyq
    · exact hl₂ z hz

/-- The headers that an operation on a free list may write: `base` and those of the blocks. -/
def Frame (m m' : Mem) (b : Nat) (l : List Extent) : Prop :=
  ∀ a n, b + 8 ≤ a ∨ a + n ≤ b → (∀ y ∈ l, y.fin ≤ a ∨ a + n ≤ y.addr) → SameOn m m' a n

theorem place_root (hx : b + 8 ≤ x.addr) : place x (root b :: l) = root b :: place x l := by
  rw [place, if_neg (by rw [root_addr]; omega), if_neg (by rw [root_fin]; omega)]

theorem FreeList.headers (h : FreeList m b lo hi l) : (root b :: l).Pairwise fun y z => y.addr + 8 ≤ z.addr := by
  refine List.pairwise_cons.2 ⟨fun y hy => ?_, h.spaced.imp_of_mem fun {y z} hy _ hyz => ?_⟩
  · have := (h.within y hy).lo_le
    have := h.below
    simp only [root_addr]
    omega
  · have := (h.within y hy).pos
    have := (h.within y hy).len
    simp only [Extent.fin_eq] at hyz
    omega

theorem FreeList.below_block (h : FreeList m b lo hi l) {y : Extent} (hy : y ∈ root b :: l) (hx : Within lo hi x)
    (hapart : ∀ y ∈ l, x.Apart y) (hlt : y.addr < x.addr) : y.addr + 8 ≤ x.addr ∧ y.fin ≤ x.addr := by
  have hbelow := h.below
  have hlo := hx.lo_le
  rcases List.mem_cons.1 hy with rfl | hy
  · simp only [root_addr, root_fin]
    omega
  · have hpos := (h.within y hy).pos
    have hlen := (h.within y hy).len
    have hxpos := hx.pos
    have := hapart y hy
    simp only [Extent.Apart, Extent.fin_eq] at *
    omega

theorem FreeList.above_block (h : FreeList m b lo hi l) {y : Extent} (hy : y ∈ root b :: l) (hx : Within lo hi x)
    (hapart : ∀ y ∈ l, x.Apart y) (hlt : x.addr < y.addr) : y ∈ l ∧ x.fin ≤ y.addr := by
  have hbelow := h.below
  have hlo := hx.lo_le
  rcases List.mem_cons.1 hy with rfl | hy
  · simp only [root_addr] at hlt
    omega
  · refine ⟨hy, ?_⟩
    have := hapart y hy
    simp only [Extent.Apart, Extent.fin_eq] at *
    omega

theorem FreeList.link (h : FreeList m b lo hi l) {y : Extent} (hy : y ∈ root b :: l) : 8 * size m y.addr = y.len := by
  obtain ⟨l₁, l₂, hl⟩ := List.append_of_mem hy
  have hchain := (List.isChain_split.1 (h.chain hl)).2
  obtain ⟨w, u, hu⟩ : ∃ w u, l₂ ++ [root b] = w :: u := List.exists_cons_of_ne_nil (by simp)
  rw [hu] at hchain
  exact (List.isChain_cons_cons.1 hchain).1.2

/-- `vfree` places the block in the list. -/
theorem FreeList.vfree (h : FreeList m b lo hi l) {f : Extent} (hx : Within lo hi x)
    (hsize : 8 * size m x.addr = x.len) (hapart : ∀ y ∈ l, x.Apart y) (hf : f ∈ root b :: l) :
    ∃ y ∈ root b :: place x l, (∀ n, l.length + 1 < n → vfree.find m x.addr n f.addr = some y.addr) ∧
      FreeList (vfree.joinLower (vfree.joinUpper m x.addr y.addr) x.addr y.addr) b lo hi (place x l) ∧
      Frame m (vfree.joinLower (vfree.joinUpper m x.addr y.addr) x.addr y.addr) b (x :: l) := by
  have hbelow := h.below
  have hhi := h.hi_lt
  have hxlo := hx.lo_le
  have hxhi := hx.le_hi
  have hxpos := hx.pos
  have hxlen := hx.len
  have hne (y : Extent) (hy : y ∈ l) : y.addr ≠ x.addr := by
    have hy' := hapart y hy
    have := (h.within y hy).pos
    simp only [Extent.Apart, Extent.fin_eq] at hy'
    omega
  obtain ⟨l₁, y, l₂, hl, hy, hupper, hfind⟩ := h.find hxlo hne hf
  obtain ⟨hlow, hhigh⟩ := List.isChain_split.1 (h.chain hl)
  have hspaced := hl ▸ h.spaced_root
  obtain ⟨-, hheaders, hcross⟩ := List.pairwise_append.1 (hl ▸ h.headers)
  have hymem : y ∈ root b :: l := by simp [hl]
  obtain ⟨hyx, hyle⟩ := h.below_block hymem hx hapart hy
  have habove (z : Extent) (hz : z ∈ l₂) : z ∈ l ∧ x.fin ≤ z.addr :=
    h.above_block (by simp [hl, hz]) hx hapart (hupper z hz)
  obtain ⟨hup, hupsame⟩ := joinUpper_spec hhigh hsize (by omega) (by omega) (by omega) hyx fun z hz =>
    ⟨(habove z hz).2, by have := (h.within z (habove z hz).1).le_hi; omega⟩
  obtain ⟨q, u, hq, hqaddr, hu⟩ := placeUpper_eq_cons x l₂
  have hqfin : q.fin ≤ hi := by
    refine placeUpper_forall (P := fun z => z.fin ≤ hi) hxhi (fun z hz => (h.within z (habove z hz).1).le_hi)
      (fun z w _ hw hmeet => ?_) q (by simp [hq])
    simp only [Extent.fin_eq, Extent.join_addr, Extent.join_len] at hw hmeet ⊢
    omega
  rw [hq] at hup
  obtain ⟨hdown, hdownsame⟩ := joinLower_spec
    (chain_congr hlow fun z hz => hupsame z.addr 8 (.inr (by have := hcross z hz y (by simp); omega))) hup
    (by rw [size_congr (hupsame y.addr 8 (.inr hyx)), h.link hymem]) (hqaddr ▸ hyx) (hqaddr ▸ hyle) (by omega)
    (fun z hz => hcross z hz y (by simp)) (fun z hz => (List.pairwise_cons.1 hheaders).1 z (hu z hz))
  rw [hqaddr] at hdown hdownsame
  have hplace : root b :: place x l = l₁ ++ if y.fin = x.addr then y.join q :: u else y :: q :: u := by
    rw [← place_root (by omega), hl, place_append y hspaced hy hupper]
    split
    next hmeet => rw [placeUpper_join hmeet hq]
    next => rw [hq]
  obtain ⟨z, hz, hzaddr⟩ : ∃ z ∈ root b :: place x l, z.addr = y.addr := by
    rw [hplace]
    split
    · exact ⟨y.join q, by simp, rfl⟩
    · exact ⟨y, by simp, rfl⟩
  refine ⟨z, hz, hzaddr ▸ hfind, ?_⟩
  rw [hzaddr]
  refine ⟨⟨?_, ?_, ?_, hbelow, hhi⟩, fun a n hb hfree => ?_⟩
  · rw [IsCircular, ← List.cons_append, hplace]
    exact hdown
  · exact h.spaced.place hxpos (fun z hz => (h.within z hz).pos) hapart
  · exact place_forall hx h.within fun _ _ hz hw => hz.join hw
  · obtain ⟨hxa, hla⟩ := List.forall_mem_cons.1 hfree
    have hya : y.addr + 8 ≤ a ∨ a + n ≤ y.addr := by
      rcases List.mem_cons.1 hymem with rfl | hy'
      · exact hb
      · have := hla y hy'
        have := (h.within y hy').pos
        have := (h.within y hy').len
        simp only [Extent.fin_eq] at *
        omega
    exact (hupsame a n (by simp only [Extent.fin_eq] at hxa; omega)).trans (hdownsame a n hya)

end

end xv6.umalloc
