import Xv6.Lib.Run
import Xv6.Umalloc.Overflow

open bytes cycle extent Function run

namespace xv6.umalloc

/-- A program that uses the allocator: its heap, and the pointers that it was given and has not freed, each with the
number of bytes that it asked for. -/
structure Program where
  heap : Heap
  live : List (Nat × Nat)

/-- What a program does to its heap: request memory, free a pointer (`free` is `vfree`), switch transparent huge pages
on or off, and write a byte. -/
inductive Event where
  | request (c : Call)
  | free (ap : Nat)
  | setthp (thp : Int)
  | store (a : Nat) (v : UInt8)

def Event.exec (fuel : Nat) (t : Program) : Event → Option Program
  | .request c => (c.run fuel t.heap).map fun (r, s) => ⟨s, if r = 0 then t.live else (r, c.nbytes) :: t.live⟩
  | .free ap => (vfree fuel t.heap ap).map fun s => ⟨s, t.live.eraseP (·.1 = ap)⟩
  | .setthp thp => some ⟨{ t.heap with thp := thp }, t.live⟩
  | .store a v => some ⟨{ t.heap with mem := update t.heap.mem a v }, t.live⟩

/-- The bytes that a program may write: its variables, but not those of the allocator, and what it asked for. -/
def Program.Owns (t : Program) (a : Nat) : Prop :=
  (a < t.heap.image.start ∧ ∀ pool ∈ [Pool.base, Pool.huge], a < t.heap.header pool ∨ t.heap.header pool + 8 ≤ a) ∨
    ∃ b ∈ t.live, b.1 ≤ a ∧ a < b.1 + b.2

/-- What a program may do: requests stay within the bound, and it frees what it holds and writes what it owns. -/
def Event.Allowed (t : Program) : Event → Prop
  | .request c => c.nbytes ≤ 0x7FFFFFF0
  | .free ap => ∃ b ∈ t.live, b.1 = ap
  | .setthp _ => True
  | .store a _ => t.Owns a

instance (t : Program) (a : Nat) : Decidable (t.Owns a) := inferInstanceAs (Decidable (_ ∨ _))

instance (t : Program) : DecidablePred (Event.Allowed t)
  | .request _ => inferInstanceAs (Decidable (_ ≤ _))
  | .free _ => inferInstanceAs (Decidable (∃ b ∈ _, _))
  | .setthp _ => inferInstanceAs (Decidable True)
  | .store _ _ => inferInstanceAs (Decidable (Program.Owns _ _))

/-- The event comes to an end and leaves `t'`, given enough fuel. -/
def Event.Ends (e : Event) (t t' : Program) : Prop := ∃ n, ∀ fuel, n ≤ fuel → e.exec fuel t = some t'

/-- One step of a history. -/
def Step (t t' : Program) : Prop := ∃ e : Event, e.Allowed t ∧ e.Ends t t'

/-- A program that has just been started, in a system that has any amount of memory for it. -/
def Started (t : Program) : Prop :=
  ∃ image mem thp grants, image.start ≤ PHYSTOP ∧ t = ⟨.initial image mem thp grants, []⟩

/-- The pool that `vfree` takes a pointer to be from. -/
def poolOf (ap : Nat) : Pool := if ap ≥ HUGE_PAGE_START then .huge else .base

/-- The block with the header below a pointer. -/
def block (m : Mem) (ap : Nat) : Extent := ⟨ap - 8, 8 * size m (ap - 8)⟩

/-- The blocks of a pool that belong to the pointers in a list. -/
def blocks (m : Mem) (live : List (Nat × Nat)) (pool : Pool) : List Extent :=
  (live.filter fun b => poolOf b.1 = pool).map fun b => block m b.1

/-- The blocks of a pool that the program holds. -/
def Program.used (t : Program) (pool : Pool) : List Extent := blocks t.heap.mem t.live pool

/-- The pointer `b.1` is that of a block with room for the `b.2` bytes that were asked for. -/
structure Held (s : Heap) (b : Nat × Nat) : Prop where
  within : Within (s.start (poolOf b.1)) (s.brk (poolOf b.1)) (block s.mem b.1)
  enough : b.2 + 8 ≤ (block s.mem b.1).len

/-- The invariant of the allocator, where `free` are the free blocks of the pools: each byte of a pool is in one
block, which the program holds or which is free. -/
structure Wf (t : Program) (free : Pool → List Extent) : Prop where
  sizes : Sizes t.heap
  pools : ∀ pool, PoolOK t.heap pool (free pool)
  unused : ∀ pool, t.heap.freep pool = 0 → t.heap.brk pool = t.heap.start pool
  tiles : ∀ pool, Tiles (t.used pool ++ free pool) (t.heap.start pool) (t.heap.brk pool)
  held : ∀ b ∈ t.live, Held t.heap b

variable {t : Program} {s s' : Heap} {m m' : Mem} {pool : Pool} {free : Pool → List Extent} {b : Nat × Nat} {a : Nat}

section
variable {live live' : List (Nat × Nat)}

theorem mem_blocks {x : Extent} : x ∈ blocks m live pool ↔ ∃ b ∈ live, poolOf b.1 = pool ∧ block m b.1 = x := by
  simp [blocks, and_assoc]

theorem blocks_congr (h : ∀ b ∈ live, block m' b.1 = block m b.1) (pool : Pool) :
    blocks m' live pool = blocks m live pool :=
  List.map_congr_left fun b hb => h b (List.mem_of_mem_filter hb)

theorem blocks_append (m : Mem) (live live' : List (Nat × Nat)) (pool : Pool) :
    blocks m (live ++ live') pool = blocks m live pool ++ blocks m live' pool := by
  simp [blocks]

theorem blocks_eq_nil (h : ∀ b ∈ live, poolOf b.1 ≠ pool) : blocks m live pool = [] :=
  List.eq_nil_iff_forall_not_mem.2 fun _ hx => by
    obtain ⟨b, hb, hp, -⟩ := mem_blocks.1 hx
    exact h b hb hp

theorem cover_blocks_perm (h : live.Perm live') (m : Mem) (pool : Pool) (a : Nat) :
    cover (blocks m live pool) a = cover (blocks m live' pool) a :=
  ((h.filter _).map _).countP_eq _

end

theorem start_pos (hs : Sizes s) (pool : Pool) : 8 < s.start pool := by
  have := header_le_start s hs pool pool
  have : 0 < s.header pool := s.image.header_pos pool
  omega

theorem Held.pointer (h : Held s b) (hs : Sizes s) : (block s.mem b.1).addr + 8 = b.1 := by
  have := h.within.lo_le
  have := start_pos hs (poolOf b.1)
  simp only [block] at *
  omega

theorem Wf.within (h : Wf t free) {x : Extent} (hx : x ∈ t.used pool ++ free pool) :
    Within (t.heap.start pool) (t.heap.brk pool) x := by
  rcases List.mem_append.1 hx with hx | hx
  · obtain ⟨b, hb, rfl, rfl⟩ := mem_blocks.1 hx
    exact (h.held b hb).within
  · exact (h.pools pool).within x hx

/-- The blocks of a pool, held or free, have no byte in common. -/
theorem Wf.disjoint (h : Wf t free) (pool : Pool) : (t.used pool ++ free pool).Pairwise Extent.Apart :=
  pairwise_apart (fun _ hx => (h.within hx).pos) fun a => by
    rw [h.tiles pool a]
    split <;> omega

/-- The blocks of different pools have no byte in common. -/
theorem Wf.apart_pools (h : Wf t free) {p : Pool} (hp : p ≠ pool) {x y : Extent} (hx : x ∈ t.used p ++ free p)
    (hlo : t.heap.start pool ≤ y.addr) (hhi : y.fin ≤ limit pool) : x.Apart y := by
  have hw := h.within hx
  have := hw.lo_le
  have := hw.le_hi
  have := h.sizes.brk_le p
  rcases regions t.heap hp with hle | hle
  · exact .inl (by omega)
  · exact .inr (by omega)

theorem Wf.apart_free (h : Wf t free) (hb : b ∈ t.live) {x : Extent} (hx : x ∈ free pool) :
    (block t.heap.mem b.1).Apart x := by
  have hmem : block t.heap.mem b.1 ∈ t.used (poolOf b.1) := mem_blocks.2 ⟨b, hb, rfl, rfl⟩
  by_cases hp : poolOf b.1 = pool
  · subst hp
    exact (List.pairwise_append.1 (h.disjoint _)).2.2 _ hmem x hx
  · have hw := h.within (List.mem_append_right (t.used pool) hx)
    exact h.apart_pools hp (List.mem_append_left _ hmem) hw.lo_le (hw.le_hi.trans (h.sizes.brk_le pool))

/-- The header of a block that the program holds is not written by an operation on other blocks. -/
theorem Wf.block_eq (h : Wf t free) (hb : b ∈ t.live) {k : List Extent}
    (hframe : Frame t.heap.mem m (t.heap.header pool) k) (hk : ∀ x ∈ k, (block t.heap.mem b.1).Apart x) :
    block m b.1 = block t.heap.mem b.1 := by
  have hw := (h.held b hb).within
  have hlen : 8 ≤ (block t.heap.mem b.1).len := (Nat.le_add_left _ _).trans (h.held b hb).enough
  have hlo := hw.lo_le
  have := header_le_start t.heap h.sizes pool (poolOf b.1)
  have hsame : SameOn t.heap.mem m (b.1 - 8) 8 := by
    refine hframe _ _ (.inl (by simp only [block] at hlo; omega)) fun x hx => ?_
    have := hk x hx
    simp only [Extent.Apart, Extent.fin_eq] at this ⊢
    simp only [block] at this hlen
    omega
  rw [block, size_congr hsame, block]

/-- What an operation on one pool keeps: it takes away the pointers `old` and adds the pointers `new`, both of that
pool, and writes the headers of the blocks `k` only. -/
theorem Wf.change (h : Wf t free) (pool : Pool) (old new : List (Nat × Nat)) (l' : List Extent)
    {keep : List (Nat × Nat)} {k : List Extent} (hs : Sizes s')
    (himage : s'.image = t.heap.image)
    (hother : ∀ p, p ≠ pool → s'.freep p = t.heap.freep p ∧ s'.brk p = t.heap.brk p)
    (hbrk : t.heap.brk pool ≤ s'.brk pool) (hframe : Frame t.heap.mem s'.mem (t.heap.header pool) k)
    (hk : ∀ x ∈ k, t.heap.start pool ≤ x.addr ∧ x.fin ≤ limit pool) (hpool : PoolOK s' pool l')
    (hfreep : s'.freep pool ≠ 0) (hperm : t.live.Perm (old ++ keep)) (hold : ∀ b ∈ old, poolOf b.1 = pool)
    (hnew : ∀ b ∈ new, poolOf b.1 = pool ∧ Held s' b)
    (hapart : ∀ b ∈ keep, poolOf b.1 = pool → ∀ x ∈ k, (block t.heap.mem b.1).Apart x)
    (htiles : Tiles (blocks s'.mem new pool ++ blocks t.heap.mem keep pool ++ l') (t.heap.start pool) (s'.brk pool)) :
    Wf ⟨s', new ++ keep⟩ (update free pool l') := by
  have hstart (p : Pool) : s'.start p = t.heap.start p := by
    cases p with
    | base => exact congrArg Image.start himage
    | huge => rfl
  have hmem (b : Nat × Nat) (hb : b ∈ keep) : b ∈ t.live := hperm.mem_iff.2 (List.mem_append_right _ hb)
  have hblock (b : Nat × Nat) (hb : b ∈ keep) : block s'.mem b.1 = block t.heap.mem b.1 := by
    refine h.block_eq (hmem b hb) hframe fun x hx => ?_
    by_cases hp : poolOf b.1 = pool
    · exact hapart b hb hp x hx
    · exact h.apart_pools hp (List.mem_append_left _ (mem_blocks.2 ⟨b, hmem b hb, rfl, rfl⟩)) (hk x hx).1 (hk x hx).2
  have hbrk' (p : Pool) : t.heap.brk p ≤ s'.brk p := by
    by_cases hp : p = pool
    · exact hp ▸ hbrk
    · exact (hother p hp).2.ge
  refine ⟨hs, fun p => ?_, fun p hzero => ?_, fun p => ?_, fun b hb => ?_⟩
  · by_cases hp : p = pool
    · subst hp
      rwa [update_self]
    · rw [update_of_ne hp]
      exact (h.pools p).other h.sizes hp hframe hk himage (hother p hp).1 (hother p hp).2
  · have hp : p ≠ pool := fun hp => hfreep (hp ▸ hzero)
    rw [hstart, (hother p hp).2]
    exact h.unused p ((hother p hp).1 ▸ hzero)
  · rw [Program.used, blocks_append, blocks_congr hblock, hstart]
    by_cases hp : p = pool
    · subst hp
      rwa [update_self]
    · rw [update_of_ne hp, (hother p hp).2]
      have hnil {l : List (Nat × Nat)} {m : Mem} (hl : ∀ b ∈ l, poolOf b.1 = pool) : blocks m l p = [] :=
        blocks_eq_nil fun b hb => hl b hb ▸ Ne.symm hp
      intro a
      rw [← h.tiles p a, hnil fun b hb => (hnew b hb).1, List.nil_append, cover_append, cover_append, Program.used,
        cover_blocks_perm hperm, blocks_append, hnil hold, List.nil_append]
  · rcases List.mem_append.1 hb with hb | hb
    · exact (hnew b hb).2
    · have hheld := h.held b (hmem b hb)
      refine ⟨?_, hblock b hb ▸ hheld.enough⟩
      rw [hstart, hblock b hb]
      exact hheld.within.mono (hbrk' _)

theorem poolOf_eq (hs : Sizes s) {x : Extent} (hw : Within (s.start pool) (s.brk pool) x) :
    poolOf (x.addr + 8) = pool := by
  have := hw.lo_le
  have := hw.le_hi
  have := hs.brk_le pool
  have := x.fin_eq
  exact pool_of_addr (s := s) (by omega) (by omega)

theorem block_pointer {x : Extent} (hsize : 8 * size m x.addr = x.len) : block m (x.addr + 8) = x := by
  rw [block, Nat.add_sub_cancel, hsize]

/-- A pool, grown to `s₁` if need be, gives the program a block. -/
theorem Wf.gives (h : Wf t free) {s₁ : Heap} {l₀ l' k : List Extent} {x f : Extent} {nbytes : Nat} (hs : Sizes s₁)
    (himage : s₁.image = t.heap.image) (hfreep : s₁.freep = t.heap.freep)
    (hother : ∀ p, p ≠ pool → s₁.brk p = t.heap.brk p) (hbrk : t.heap.brk pool ≤ s₁.brk pool)
    (hgives : Gives t.heap pool (s₁.brk pool) l₀ x l' m f)
    (hwithin : ∀ y ∈ l₀, Within (t.heap.start pool) (s₁.brk pool) y)
    (htiles : Tiles (t.used pool ++ l₀) (t.heap.start pool) (s₁.brk pool)) (hmod : x.len % 8 = 0)
    (hbytes : nbytes + 8 ≤ x.len) (hframe : Frame t.heap.mem m (t.heap.header pool) k)
    (hk : ∀ y ∈ k, y ∈ free pool ∨ t.heap.brk pool ≤ y.addr ∧ y.fin ≤ limit pool) :
    Wf ⟨s₁.withList pool m f.addr, (x.addr + 8, nbytes) :: t.live⟩ (update free pool l') := by
  have hstart : s₁.start pool = t.heap.start pool := by
    cases pool with
    | base => exact congrArg Image.start himage
    | huge => rfl
  have hheader : s₁.header pool = t.heap.header pool := congrArg (Image.header · pool) himage
  have hw : Within (t.heap.start pool) (s₁.brk pool) x := .carve hwithin hgives.carve hmod (by omega)
  have hblock : block m (x.addr + 8) = x := block_pointer hgives.size
  have hpool : poolOf (x.addr + 8) = pool := poolOf_eq hs (hstart ▸ hw)
  refine h.change pool [] [(x.addr + 8, nbytes)] _ (hs.withList : Sizes (s₁.withList pool m f.addr)) himage
    (fun p hp => ⟨(update_of_ne hp _ _).trans (congrFun hfreep p), by rw [withList_brk, hother p hp]⟩)
    (by rwa [withList_brk]) hframe (fun y hy => ?_) ?_ ?_ (.refl _) (by simp) (fun b hb => ?_) (fun b hb hp y hy => ?_) ?_
  · rcases hk y hy with hy | hy
    · have := (h.pools pool).within y hy
      exact ⟨this.lo_le, this.le_hi.trans (h.sizes.brk_le pool)⟩
    · exact ⟨(h.sizes.start_le_brk pool).trans hy.1, hy.2⟩
  · refine FreeList.poolOK (s := s₁) ?_ (hheader ▸ hgives.freep)
    rw [hheader, hstart]
    exact hgives.list
  · rw [withList_freep]
    exact hgives.list.addr_ne (t.heap.image.header_pos pool) hgives.freep
  · obtain rfl := List.mem_singleton.1 hb
    refine ⟨hpool, ?_, ?_⟩
    · rw [hpool, withList_start, withList_brk, withList_mem, hblock, hstart]
      exact hw
    · rw [withList_mem, hblock]
      exact hbytes
  · rcases hk y hy with hy | hy
    · exact h.apart_free hb hy
    · have := (h.held b hb).within.le_hi
      rw [hp] at this
      exact .inl (this.trans hy.1)
  · intro a
    have hnew : blocks m [(x.addr + 8, nbytes)] pool = [x] := by simp [blocks, hpool, hblock]
    rw [withList_mem, withList_brk, hnew, ← htiles a, cover_append, cover_append, cover_append, ← hgives.carve.cover,
      cover_cons, cover_cons, Program.used]
    simp only [cover, List.countP_nil]
    omega

theorem Wf.outcome (h : Wf t free) {nbytes r : Nat} (hn : nbytes ≤ 0x7FFFFFF0)
    (hout : Outcome t.heap pool (free pool) (units nbytes) r s') :
    ∃ free', Wf ⟨s', if r = 0 then t.live else (r, nbytes) :: t.live⟩ free' := by
  have hunits : nbytes + 8 ≤ 8 * units nbytes := by
    simp only [units, u32, headerSize]
    omega
  cases hout with
  | @hit x l' m f hgives hlen hframe =>
    rw [if_neg (by omega)]
    exact ⟨_, h.gives h.sizes rfl rfl (fun _ _ => rfl) le_rfl hgives (h.pools pool).within (h.tiles pool) (by omega)
      (by omega) hframe fun y hy => .inl hy⟩
  | @refused m f hsmall hfail hlist hf hframe =>
    rw [if_pos rfl]
    have hs : Sizes (t.heap.asked pool (8 * moreUnits pool (units nbytes) : Nat)) :=
      ⟨h.sizes.start_le, h.sizes.sz_le, h.sizes.sz_mod, h.sizes.hugesz_le, h.sizes.hugesz_mod⟩
    refine ⟨_, h.change pool [] [] (free pool) hs.withList rfl
      (fun p hp => ⟨update_of_ne hp _ _, by cases p <;> rfl⟩) (by cases pool <;> exact le_rfl) hframe
      (fun x hx => hlist.region h.sizes hx) ?_ ?_ (.refl _) (by simp) (by simp)
      (fun b hb _ x hx => h.apart_free hb hx) ?_⟩
    · exact FreeList.poolOK (s := t.heap.asked pool (8 * moreUnits pool (units nbytes) : Nat)) hlist hf
    · rw [withList_freep]
      exact hlist.addr_ne (t.heap.image.header_pos pool) hf
    · cases pool <;> exact h.tiles _
  | @granted x l' m f hsmall hok hs' hgives hlen hframe =>
    rw [if_neg (by omega)]
    have hle := hs'.brk_le pool
    rw [← grown_brk] at hgives
    rw [grown_brk] at hle
    refine ⟨_, h.gives hs' (grown_image ..) (grown_freep ..) (fun p hp => grown_brk_ne _ hp _) (by rw [grown_brk]; omega)
      hgives ?_ ?_ (by omega) (by omega) hframe fun y hy => ?_⟩
    · rw [grown_brk]
      exact within_place (h.pools pool) h.sizes (moreUnits_pos pool _).1
    · intro a
      rw [grown_brk, ← (h.tiles pool).grow (h.sizes.start_le_brk pool) _ a, cover_append, cover_place, cover_cons,
        cover_cons, cover_append]
      exact (Nat.add_assoc _ _ _).symm
    · rcases List.mem_cons.1 hy with rfl | hy
      · exact .inr ⟨le_rfl, hle⟩
      · exact .inl hy

/-- A pointer that the program holds can be freed. -/
theorem Wf.frees (h : Wf t free) {ap : Nat} (hap : ∃ b ∈ t.live, b.1 = ap) :
    ∃ t', (Event.free ap).Ends t t' ∧ ∃ free', Wf t' free' := by
  obtain ⟨b, hb, rfl⟩ := hap
  obtain ⟨c, l₁, l₂, -, hc, hlive, herase⟩ := List.exists_of_eraseP (p := fun c => decide (c.1 = b.1)) hb (by simp)
  have hcb : c.1 = b.1 := of_decide_eq_true hc
  obtain ⟨pool, hpool⟩ : ∃ pool, poolOf b.1 = pool := ⟨_, rfl⟩
  have hheld := h.held b hb
  have hw := hheld.within
  rw [hpool] at hw
  have hne : t.heap.freep pool ≠ 0 := fun hzero => by
    have := h.unused pool hzero
    have := hw.lo_le
    have := hw.le_hi
    have := hw.pos
    have := (block t.heap.mem b.1).fin_eq
    omega
  obtain ⟨f, hf, hfreep⟩ := (h.pools pool).freep hne
  obtain ⟨m, y, hy, hrun, hlist, hframe⟩ := vfree_run h.sizes ((h.pools pool).list hne) hf hfreep hw rfl
    fun x hx => h.apart_free hb hx
  rw [hheld.pointer h.sizes] at hrun
  have hperm : t.live.Perm ([c] ++ (l₁ ++ l₂)) := hlive ▸ List.perm_middle
  have hold : blocks t.heap.mem [c] pool = [block t.heap.mem b.1] := by simp [blocks, hcb, hpool]
  -- the pointers that remain are those of other blocks
  have hkept (d : Nat × Nat) (hd : d ∈ l₁ ++ l₂) (hp : poolOf d.1 = pool) :
      (block t.heap.mem d.1).Apart (block t.heap.mem b.1) := by
    have hpair := pairwise_apart (l := blocks t.heap.mem ([c] ++ (l₁ ++ l₂)) pool) (fun x hx => ?_) fun a => ?_
    · rw [blocks_append, hold, List.singleton_append] at hpair
      exact ((List.pairwise_cons.1 hpair).1 _ (mem_blocks.2 ⟨d, hd, hp, rfl⟩)).symm
    · obtain ⟨d, hd, rfl, rfl⟩ := mem_blocks.1 hx
      exact (h.held d (hperm.mem_iff.2 hd)).within.pos
    · have := h.tiles pool a
      rw [cover_append, Program.used, cover_blocks_perm hperm] at this
      split at this <;> omega
  refine ⟨_, ⟨(free pool).length + 2, fun fuel hfuel => ?_⟩, _,
    h.change pool [c] [] (place (block t.heap.mem b.1) (free pool)) h.sizes.withList rfl
      (fun p hp => ⟨update_of_ne hp _ _, by rw [withList_brk]⟩) (by rw [withList_brk]) hframe (fun x hx => ?_)
      (FreeList.poolOK hlist hy) (by rw [withList_freep]; exact hlist.addr_ne (t.heap.image.header_pos pool) hy) hperm
      (by simpa [hcb] using hpool) (by simp) (fun d hd hp x hx => ?_) ?_⟩
  · simp only [Event.exec, hrun fuel (by omega), herase]
    rfl
  · rcases List.mem_cons.1 hx with rfl | hx
    · exact ⟨hw.lo_le, hw.le_hi.trans (h.sizes.brk_le pool)⟩
    · exact ((h.pools pool).list hne).region h.sizes hx
  · rcases List.mem_cons.1 hx with rfl | hx
    · exact hkept d hd hp
    · exact h.apart_free (hperm.mem_iff.2 (List.mem_append_right _ hd)) hx
  · intro a
    rw [withList_brk, ← h.tiles pool a, cover_append, cover_append, cover_append, Program.used,
      cover_blocks_perm hperm, blocks_append _ [c], cover_append, cover_place, cover_cons, hold, cover_cons]
    simp only [blocks, cover, List.filter_nil, List.map_nil, List.countP_nil]
    omega

/-- No byte that the program owns is in a header. -/
theorem Wf.owns (h : Wf t free) (ha : t.Owns a) (pool : Pool) {x : Extent}
    (hx : x = root (t.heap.header pool) ∨ x ∈ t.used pool ++ free pool) : a < x.addr ∨ x.addr + 8 ≤ a := by
  have hstart : t.heap.image.start ≤ t.heap.start pool := by
    cases pool with
    | base => exact le_rfl
    | huge => exact (h.sizes.start_le.trans h.sizes.sz_le).trans (show PHYSTOP ≤ HUGE_VA_OFFSET by decide)
  rcases ha with ⟨hlt, hheaders⟩ | ⟨b, hb, hlo, hhi⟩
  · rcases hx with rfl | hx
    · exact hheaders pool (by cases pool <;> simp)
    · exact .inl (hlt.trans_le (hstart.trans (h.within hx).lo_le))
  · have hheld := h.held b hb
    have hpointer := hheld.pointer h.sizes
    have henough := hheld.enough
    have hmem : block t.heap.mem b.1 ∈ t.used (poolOf b.1) ++ free (poolOf b.1) :=
      List.mem_append_left _ (mem_blocks.2 ⟨b, hb, rfl, rfl⟩)
    rcases hx with rfl | hx
    · have := header_le_start t.heap h.sizes pool (poolOf b.1)
      have := hheld.within.lo_le
      exact .inr (by rw [root_addr]; omega)
    · by_cases heq : block t.heap.mem b.1 = x
      · exact .inr (by rw [← heq]; omega)
      · have hapart : (block t.heap.mem b.1).Apart x := by
          by_cases hp : poolOf b.1 = pool
          · exact (h.disjoint pool).forall (hp ▸ hmem) hx heq
          · have hw := h.within hx
            exact h.apart_pools hp hmem hw.lo_le (hw.le_hi.trans (h.sizes.brk_le pool))
        have := (h.within hx).pos
        have := (h.within hx).len
        simp only [Extent.Apart, Extent.fin_eq] at hapart
        omega

/-- The program writes its own memory. -/
theorem Wf.store (h : Wf t free) (ha : t.Owns a) (v : UInt8) :
    Wf ⟨{ t.heap with mem := update t.heap.mem a v }, t.live⟩ free := by
  have hsame (pool : Pool) {x : Extent} (hx : x = root (t.heap.header pool) ∨ x ∈ t.used pool ++ free pool) :
      SameOn t.heap.mem (update t.heap.mem a v) x.addr 8 := fun c hlo hhi =>
    update_of_ne (by have := h.owns ha pool hx; omega) _ _
  have hblock (b : Nat × Nat) (hb : b ∈ t.live) : block (update t.heap.mem a v) b.1 = block t.heap.mem b.1 := by
    have hheader := hsame (poolOf b.1) (.inr (List.mem_append_left _ (mem_blocks.2 ⟨b, hb, rfl, rfl⟩)))
    exact congrArg (fun n => Extent.mk (b.1 - 8) (8 * n)) (size_congr hheader)
  refine ⟨⟨h.sizes.start_le, h.sizes.sz_le, h.sizes.sz_mod, h.sizes.hugesz_le, h.sizes.hugesz_mod⟩, fun pool => ?_,
    fun pool => ?_, fun pool => ?_, fun b hb => ?_⟩
  · have hpool := h.pools pool
    refine ⟨hpool.unused, fun hne => ?_, hpool.freep⟩
    refine (hpool.list hne).congr le_rfl (hpool.list hne).hi_lt fun y hy => hsame pool ?_
    exact (List.mem_cons.1 hy).imp_right (List.mem_append_right _)
  · exact h.unused pool
  · rw [Program.used, blocks_congr hblock]
    exact h.tiles pool
  · refine ⟨?_, (hblock b hb).symm ▸ (h.held b hb).enough⟩
    rw [hblock b hb]
    exact (h.held b hb).within

theorem Event.Ends.unique {e : Event} {t₁ t₂ : Program} (h₁ : e.Ends t t₁) (h₂ : e.Ends t t₂) : t₁ = t₂ := by
  obtain ⟨n, hn⟩ := h₁
  obtain ⟨n', hn'⟩ := h₂
  exact Option.some.inj ((hn (n + n') (by omega)).symm.trans (hn' (n + n') (by omega)))

/-- What a program may do comes to an end and keeps the invariant. -/
theorem Wf.event (h : Wf t free) (e : Event) (he : e.Allowed t) : ∃ t', e.Ends t t' ∧ ∃ free', Wf t' free' := by
  cases e with
  | request c =>
    obtain ⟨r, s', ⟨n, hret⟩, hout⟩ := run_outcome c h.sizes (h.pools (c.pool t.heap)) (units_lt he)
    refine ⟨_, ⟨n, fun fuel hfuel => ?_⟩, h.outcome he hout⟩
    simp only [Event.exec, hret fuel hfuel]
    rfl
  | free ap => exact h.frees he
  | setthp thp =>
    exact ⟨_, ⟨0, fun _ _ => rfl⟩, free, ⟨h.sizes.start_le, h.sizes.sz_le, h.sizes.sz_mod, h.sizes.hugesz_le,
      h.sizes.hugesz_mod⟩, fun pool => ⟨(h.pools pool).unused, (h.pools pool).list, (h.pools pool).freep⟩, h.unused,
      h.tiles, fun b hb => ⟨(h.held b hb).within, (h.held b hb).enough⟩⟩
  | store a v => exact ⟨_, ⟨0, fun _ _ => rfl⟩, free, h.store he v⟩

/-- The invariant holds throughout every history. -/
theorem reachable_wf (h : Reachable Started Step t) : ∃ free, Wf t free := by
  refine h.inv (I := fun t => ∃ free, Wf t free) ?_ ?_
  · rintro _ ⟨image, mem, thp, grants, hle, rfl⟩
    refine ⟨fun _ => [], .initial hle mem thp grants, PoolOK.initial image mem thp grants, fun pool _ => ?_,
      fun pool a => ?_, by simp⟩
    · cases pool <;> rfl
    · have hbrk : (Heap.initial image mem thp grants).brk pool = (Heap.initial image mem thp grants).start pool := by
        cases pool <;> rfl
      exact (if_neg fun ha => absurd (hbrk ▸ ha.2) ha.1.not_gt).symm
  · rintro t t' ⟨free, hwf⟩ ⟨e, he, hends⟩
    obtain ⟨t₁, hends₁, hwf₁⟩ := hwf.event e he
    exact hends.unique hends₁ ▸ hwf₁

/-- What the heap of a program looks like, where `free` are the free blocks of the pools. -/
structure HeapSafe (t : Program) (free : Pool → List Extent) : Prop where
  aligned : ∀ b ∈ t.live, b.1 % 8 = 0
  enough : ∀ b ∈ t.live, (block t.heap.mem b.1).addr + 8 = b.1 ∧ b.1 + b.2 ≤ (block t.heap.mem b.1).fin
  disjoint : (t.used .base ++ free .base ++ (t.used .huge ++ free .huge)).Pairwise Extent.Apart
  inside : ∀ pool, ∀ x ∈ t.used pool ++ free pool, t.heap.start pool ≤ x.addr ∧ x.fin ≤ t.heap.brk pool
  regions : (∀ x ∈ free .base, x.fin ≤ HUGE_PAGE_START) ∧ ∀ x ∈ free .huge, HUGE_PAGE_START ≤ x.addr
  unused : ∀ pool, t.heap.freep pool = 0 → free pool = []
  circular : ∀ pool, t.heap.freep pool ≠ 0 → IsCircular (Link t.heap.mem) (root (t.heap.header pool)) (free pool) ∧
    t.heap.freep pool ∈ (root (t.heap.header pool) :: free pool).map Extent.addr
  ascending : ∀ pool, ((root (t.heap.header pool) :: free pool).map Extent.addr).Pairwise (· < ·)
  gaps : ∀ pool, Spaced (free pool)
  units : ∀ pool, ((t.used pool).map Extent.len).sum + ((free pool).map Extent.len).sum =
    t.heap.brk pool - t.heap.start pool

theorem Wf.heapSafe (h : Wf t free) : HeapSafe t free where
  aligned b hb := by
    have := (h.held b hb).pointer h.sizes
    have := (h.held b hb).within.addr
    omega
  enough b hb := by
    have hpointer := (h.held b hb).pointer h.sizes
    have := (h.held b hb).enough
    refine ⟨hpointer, ?_⟩
    rw [Extent.fin_eq]
    omega
  disjoint := List.pairwise_append.2 ⟨h.disjoint _, h.disjoint _, fun _ hx _ hy =>
    h.apart_pools (by simp) hx (h.within hy).lo_le ((h.within hy).le_hi.trans (h.sizes.brk_le _))⟩
  inside pool x hx := ⟨(h.within hx).lo_le, (h.within hx).le_hi⟩
  regions := by
    refine ⟨fun x hx => ?_, fun x hx => ((h.pools .huge).within x hx).lo_le⟩
    exact (((h.pools .base).within x hx).le_hi.trans (h.sizes.brk_le .base)).trans (show PHYSTOP ≤ _ by decide)
  unused pool := (h.pools pool).unused
  circular pool hne := ⟨((h.pools pool).list hne).cycle, by
    obtain ⟨f, hf, heq⟩ := (h.pools pool).freep hne
    exact heq ▸ List.mem_map_of_mem hf⟩
  ascending pool := by
    by_cases hzero : t.heap.freep pool = 0
    · simp [(h.pools pool).unused hzero]
    · exact List.Pairwise.map _ (fun x y hxy => by omega) ((h.pools pool).list hzero).headers
  gaps pool := by
    by_cases hzero : t.heap.freep pool = 0
    · simp [(h.pools pool).unused hzero, Spaced]
    · exact ((h.pools pool).list hzero).spaced
  units pool := by
    rw [← List.sum_append, ← List.map_append]
    exact (h.tiles pool).sum fun x hx => (h.within hx).le_hi

/-- The heap of a program is safe throughout every history, whatever the kernel grants: the blocks that the program
holds are aligned and large enough; they and the free blocks share no byte and lie in the memory that `sbrk` and
`shugebrk` gave, all of which they make up; the free blocks of each pool are its own, and its list is circular, in
order of the addresses and without neighbours that could be joined. And whatever the program may do next ends. -/
theorem heap_safe (h : Reachable Started Step t) :
    (∃ free, HeapSafe t free) ∧ ∀ e : Event, e.Allowed t → ∃ t', e.Ends t t' := by
  obtain ⟨free, hwf⟩ := reachable_wf h
  refine ⟨⟨free, hwf.heapSafe⟩, fun e he => ?_⟩
  obtain ⟨t', hends, -⟩ := hwf.event e he
  exact ⟨t', hends⟩

section
variable {n n' p q r nu : Nat}

theorem find_mono (h : vfree.find m p n q = some r) (hle : n ≤ n') : vfree.find m p n' q = some r := by
  induction n generalizing q n' with
  | zero => cases h
  | succ n ih =>
    obtain ⟨n', rfl⟩ : ∃ k, n' = k + 1 := ⟨n' - 1, by omega⟩
    rw [vfree.find] at h ⊢
    split_ifs at h ⊢
    · exact h
    · exact h
    · exact ih h (by omega)

theorem vfree_mono (h : vfree n s p = some s') (hle : n ≤ n') : vfree n' s p = some s' := by
  simp only [vfree, Option.bind_eq_bind, Option.bind_eq_some_iff] at h ⊢
  obtain ⟨q, hfind, hs⟩ := h
  exact ⟨q, find_mono hfind hle, hs⟩

theorem search_mono (h : malloc.search pool nu n p q s = some (r, s')) (hle : n ≤ n') :
    malloc.search pool nu n' p q s = some (r, s') := by
  induction n generalizing p q s n' with
  | zero => cases h
  | succ n ih =>
    obtain ⟨n', rfl⟩ : ∃ k, n' = k + 1 := ⟨n' - 1, by omega⟩
    rw [malloc.search] at h ⊢
    split_ifs at h ⊢
    · exact h
    · exact h
    · simp only [Option.bind_eq_bind, Option.bind_eq_some_iff] at h ⊢
      obtain ⟨⟨q', s₁⟩, hmore, hrest⟩ := h
      refine ⟨(q', s₁), ?_, ?_⟩
      · simp only [morecore] at hmore ⊢
        split_ifs at hmore ⊢
        · exact hmore
        · simp only [Option.bind_eq_bind, Option.bind_eq_some_iff] at hmore ⊢
          obtain ⟨s₂, hvfree, heq⟩ := hmore
          exact ⟨s₂, vfree_mono hvfree (by omega), heq⟩
      · split_ifs at hrest ⊢
        · exact hrest
        · exact ih hrest (by omega)
    · exact ih h (by omega)

/-- An event that ends within some fuel. -/
theorem Event.ends_of_exec {e : Event} {t' : Program} (h : e.exec n t = some t') : e.Ends t t' := by
  refine ⟨n, fun fuel hfuel => ?_⟩
  cases e with
  | request c =>
    obtain ⟨⟨r, s⟩, hrun, hs⟩ := Option.map_eq_some_iff.1 h
    rw [run_eq_body, malloc.body] at hrun
    rw [Event.exec, run_eq_body, malloc.body, search_mono hrun hfuel]
    exact congrArg some hs
  | free ap =>
    obtain ⟨s, hrun, hs⟩ := Option.map_eq_some_iff.1 h
    rw [Event.exec, vfree_mono hrun hfuel]
    exact congrArg some hs
  | setthp thp => exact h
  | store a v => exact h

/-- A sequence of events, all of which are allowed. -/
def history (fuel : Nat) : Program → List Event → Option Program
  | t, [] => some t
  | t, e :: es => if e.Allowed t then (e.exec fuel t).bind (history fuel · es) else none

theorem reachable_history (h : Reachable Started Step t) {t' : Program} {es : List Event}
    (hes : history n t es = some t') : Reachable Started Step t' := by
  induction es generalizing t with
  | nil => exact Option.some.inj hes ▸ h
  | cons e es ih =>
    rw [history] at hes
    split at hes
    next he =>
      obtain ⟨t₁, hexec, hrest⟩ := Option.bind_eq_some_iff.1 hes
      exact ih (h.next ⟨e, he, Event.ends_of_exec hexec⟩) hrest
    next => cases hes

end

/-- A program of four pages that has just been started. -/
def Program.small (thp : Int) : Program := ⟨.initial .small (fun _ => 0) thp fun _ => true, []⟩

theorem started_small (thp : Int) : Started (.small thp) := ⟨.small, fun _ => 0, thp, fun _ => true, by decide, rfl⟩

/-- Requests from both pools, one of them freed between two others, and a request after that with transparent huge
pages on. -/
theorem heap_safe_mixed : ∃ t, history 20 (.small 0) [.request (.malloc 100), .request (.vmalloc 5000 1),
      .request (.malloc 60), .store 48976 7, .free 49048, .setthp 1, .request (.malloc 2000000)] = some t ∧
    t.live = [(505505776, 2000000), (48976, 60), (507505784, 5000)] ∧ (∃ free, HeapSafe t free) ∧
    ∀ e : Event, e.Allowed t → ∃ t', e.Ends t t' := by
  obtain ⟨t, ht⟩ := Option.isSome_iff_exists.1 (show (history 20 (.small 0) [.request (.malloc 100),
    .request (.vmalloc 5000 1), .request (.malloc 60), .store 48976 7, .free 49048, .setthp 1,
    .request (.malloc 2000000)]).isSome by decide +kernel)
  refine ⟨t, ht, ?_, heap_safe (reachable_history (.start (started_small 0)) ht)⟩
  exact Option.some.inj ((congrArg (Option.map Program.live) ht).symm.trans (by decide +kernel))

end xv6.umalloc
