import Mathlib.Data.Finset.Card
import Xv6.Fs.Contents
import Xv6.Fs.Inode
import Xv6.Lib.Outcome

open bytes owner outcome

namespace xv6.fs

/-! ### Rules for the primitive steps -/

section
variable {β : Type} {s : Fs} {ip : Fin NINODE}

theorem setDisk_bind {g : Mem → Mem} {f : Unit → FsM β} :
    (setDisk g >>= f).run s = (f ()).run { s with disk := g s.disk } := rfl

theorem readInode_bind {f : Inode → FsM β} : (readInode ip >>= f).run s = (f (s.icache ip)).run s := rfl

theorem updateInode_bind {g : Inode → Inode} {f : Unit → FsM β} : (updateInode ip g >>= f).run s =
    (f ()).run { s with icache := Function.update s.icache ip (g (s.icache ip)) } := rfl

theorem updateDin_bind {g : Dinode → Dinode} {f : Unit → FsM β} : (updateDin ip g >>= f).run s =
    (f ()).run
      { s with icache := Function.update s.icache ip { s.icache ip with din := g (s.icache ip).din } } := rfl

theorem begin_op_run (h : s.lh.length + (s.outstanding + 1) * MAXOPBLOCKS ≤ LOGSIZE) :
    begin_op.run s = .ok () { s with outstanding := s.outstanding + 1 } := by
  rw [begin_op, get_bind, if_neg (Nat.not_lt_of_le h)]
  rfl

theorem log_write_bind {b : Nat} {f : Unit → FsM β} (hout : 0 < s.outstanding) (hlen : s.lh.length < LOGSIZE - 1) :
    (log_write b >>= f).run s = (f ()).run { s with lh := absorb s.lh b } := by
  have hsize : ¬ (s.lh.length ≥ LOGSIZE ∨ s.lh.length ≥ sb.nlog - 1) :=
    not_or.2 ⟨Nat.not_le_of_lt (Nat.lt_trans hlen (by decide)), Nat.not_le_of_lt hlen⟩
  refine bind_ok ?_
  rw [log_write, get_bind, if_neg hsize, if_neg (Nat.not_lt_of_le hout)]
  rfl

end

/-! ### The blocks in the log -/

/-- The log holds `l₀`, and besides at most the block of the free map and the blocks in the slots `N` of an inode,
each of them once. -/
def Logs (N : Finset Slot) (ref : Slot → Nat) (l₀ l : List Nat) : Prop :=
  ∃ new, l = l₀ ++ new ∧ new.Nodup ∧ ∀ b ∈ new, b = sb.bmapstart ∨ b ≠ 0 ∧ ∃ r ∈ N, ref r = b

section
variable {N : Finset Slot} {ref ref' : Slot → Nat} {l₀ l : List Nat} {b : Nat}

theorem Logs.refl (l : List Nat) : Logs N ref l l := ⟨[], (List.append_nil l).symm, List.nodup_nil, by simp⟩

theorem Logs.length_le (h : Logs N ref l₀ l) : l.length ≤ l₀.length + N.card + 1 := by
  obtain ⟨new, rfl, hnodup, hnew⟩ := h
  have hsub : new.toFinset ⊆ insert sb.bmapstart (N.image ref) := fun b hb => by
    rcases hnew b (List.mem_toFinset.1 hb) with hmap | ⟨-, r, hr, hb⟩
    · exact Finset.mem_insert.2 (.inl hmap)
    · exact Finset.mem_insert_of_mem (Finset.mem_image.2 ⟨r, hr, hb⟩)
  have hcard : new.length ≤ N.card + 1 := by
    rw [← List.toFinset_card_of_nodup hnodup]
    exact (Finset.card_le_card hsub).trans
      ((Finset.card_insert_le _ _).trans (Nat.add_le_add_right Finset.card_image_le 1))
  rw [List.length_append]
  omega

theorem Logs.absorb (h : Logs N ref l₀ l) (hb : b = sb.bmapstart ∨ b ≠ 0 ∧ ∃ r ∈ N, ref r = b) :
    Logs N ref l₀ (absorb l b) := by
  rw [fs.absorb]
  split
  · exact h
  next hmem =>
    obtain ⟨new, rfl, hnodup, hnew⟩ := h
    refine ⟨new ++ [b], List.append_assoc .., ?_, fun c hc => ?_⟩
    · exact List.nodup_append_comm.1 (List.nodup_cons.2 ⟨fun hc => hmem (List.mem_append_right _ hc), hnodup⟩)
    · rcases List.mem_append.1 hc with hc | hc
      · exact hnew c hc
      · rwa [List.mem_singleton.1 hc]

/-- Slots that have a block keep it. -/
theorem Logs.keep (h : Logs N ref l₀ l) (hkeep : ∀ r, ref r ≠ 0 → ref' r = ref r) : Logs N ref' l₀ l := by
  obtain ⟨new, hl, hnodup, hnew⟩ := h
  refine ⟨new, hl, hnodup, fun b hb => (hnew b hb).imp_right ?_⟩
  rintro ⟨hb0, r, hr, rfl⟩
  exact ⟨hb0, r, hr, hkeep r hb0⟩

end

/-- A transaction is open, and the log has room for the block of the free map, the inode and the blocks in the slots `N`
of the inode `d`. Some of them may be in the log already. -/
def Fits (s : Fs) (d : Dinode) (N : Finset Slot) : Prop :=
  0 < s.outstanding ∧ ∃ l₀, Logs N (d.ref s.disk) l₀ s.lh ∧ l₀.length + N.card + 2 ≤ LOGSIZE - 1

theorem fits_of_length {s : Fs} {N : Finset Slot} (hout : 0 < s.outstanding)
    (hlen : s.lh.length + N.card + 2 ≤ LOGSIZE - 1) (d : Dinode) : Fits s d N := ⟨hout, s.lh, .refl _, hlen⟩

theorem Fits.length_lt {s : Fs} {d : Dinode} {N : Finset Slot} (h : Fits s d N) : s.lh.length < LOGSIZE - 1 := by
  obtain ⟨-, l₀, hlogs, hlen⟩ := h
  exact Nat.lt_of_le_of_lt hlogs.length_le hlen

/-! ### Allocation of blocks -/

/-- The data blocks that the free map marks. -/
def usedIn (m : Mem) (b : Nat) : Prop := nmeta ≤ b ∧ b < FSSIZE ∧ inUse m b = true

/-- The free map marks the metadata and the blocks that the inodes `D` own. -/
structure Owned (m : Mem) (D : Nat → Dinode) : Prop where
  blocks : Blocks m D (usedIn m)
  reserved : ∀ b < nmeta, inUse m b = true

/-- The effect of allocating block `b`. The block `x` may have changed otherwise. -/
structure Allocated (m m' : Mem) (b x : Nat) : Prop where
  range : nmeta ≤ b ∧ b < FSSIZE
  fresh : inUse m b = false
  inodes : SameInodes m m'
  marks : ∀ c < BPB, inUse m' c = (decide (c = b) || inUse m c)
  other : ∀ c, nmeta ≤ c → c ≠ b → c ≠ x → SameBlock m m' c
  zero : ∀ o < BSIZE, m' (b * BSIZE + o) = 0

theorem allocated_fill (m : Mem) {b : Nat} (hrange : nmeta ≤ b ∧ b < FSSIZE) (hfresh : inUse m b = false) :
    Allocated m (fill (setInUse m b) (b * BSIZE) 0 BSIZE) b 0 := by
  have hfill := fill_inBlock (setInUse m b) hrange.1
  refine ⟨hrange, hfresh, (setInUse_sameInodes m b).trans hfill.inodes, ?_, ?_, ?_⟩
  · intro c hc
    rw [hfill.marks c hc, inUse_setInUse]
  · intro c hc hne _
    exact (store8_bmap_sameBlock m _ (Nat.lt_trans hrange.2 (by decide)) hc).trans (hfill.other c hne)
  · intro o ho
    simp only [fill]
    rw [if_pos (by omega)]

/-- The number of blocks that the free map does not mark. -/
def freeBlocks (m : Mem) : Nat := (List.range FSSIZE).countP fun b => !inUse m b

theorem balloc_run {s : Fs} (hres : ∀ b < nmeta, inUse s.disk b = true) (hfree : 0 < freeBlocks s.disk)
    {d : Dinode} {N : Finset Slot} (hfits : Fits s d N) :
    ∃ b m', balloc.run s = .ok b { s with disk := m', lh := absorb (absorb s.lh sb.bmapstart) b } ∧
      Allocated s.disk m' b 0 := by
  obtain ⟨hout, l₀, hlogs, hlen⟩ := hfits
  have hlt₀ : s.lh.length < LOGSIZE - 1 := Nat.lt_of_le_of_lt hlogs.length_le hlen
  have hlt₁ : (absorb s.lh sb.bmapstart).length < LOGSIZE - 1 :=
    Nat.lt_of_le_of_lt (hlogs.absorb (.inl rfl)).length_le hlen
  rw [balloc, get_bind]
  split
  next b hfind =>
    have hlt : b < FSSIZE := List.mem_range.1 (List.mem_of_find?_eq_some hfind)
    have hfresh : inUse s.disk b = false := by simpa using List.find?_some hfind
    have hmeta : nmeta ≤ b := by
      by_contra hb
      rw [hres b (by omega)] at hfresh
      cases hfresh
    refine ⟨b, _, ?_, allocated_fill s.disk ⟨hmeta, hlt⟩ hfresh⟩
    have hmap : BBLOCK b = sb.bmapstart := by
      rw [BBLOCK, Nat.div_eq_of_lt (Nat.lt_trans hlt (by decide)), Nat.zero_add]
    rw [hmap]
    refine setDisk_bind.trans ((log_write_bind (by exact hout) (by exact hlt₀)).trans ?_)
    rw [bzero, bind_assoc]
    exact setDisk_bind.trans (log_write_bind (by exact hout) (by exact hlt₁))
  next hfind =>
    obtain ⟨b, hb, huse⟩ := List.countP_pos_iff.1 hfree
    exact absurd huse (by simpa using List.find?_eq_none.1 hfind b hb)

section
variable {m m' : Mem} {D : Nat → Dinode} {i b x : Nat}

theorem ne_zero_of_nmeta_le (h : nmeta ≤ b) : b ≠ 0 := Nat.pos_iff_ne_zero.1 (Nat.lt_of_lt_of_le (by decide) h)

theorem Allocated.weaken (h : Allocated m m' b 0) (x : Nat) : Allocated m m' b x :=
  { h with other := fun c hc hne _ => h.other c hc hne (ne_zero_of_nmeta_le hc) }

theorem Allocated.not_used (h : Allocated m m' b x) : ¬ usedIn m b := by
  rintro ⟨-, -, hb⟩
  rw [h.fresh] at hb
  cases hb

theorem Allocated.used_iff (h : Allocated m m' b x) (c : Nat) : usedIn m' c ↔ usedIn m c ∨ c = b := by
  simp only [usedIn]
  constructor
  · rintro ⟨hc, hlt, huse⟩
    rw [h.marks c (Nat.lt_trans hlt (by decide))] at huse
    by_cases hcb : c = b
    · exact Or.inr hcb
    · simp only [hcb, decide_false, Bool.false_or] at huse
      exact Or.inl ⟨hc, hlt, huse⟩
  · rintro (⟨hc, hlt, huse⟩ | rfl)
    · exact ⟨hc, hlt, by rw [h.marks c (Nat.lt_trans hlt (by decide)), huse, Bool.or_true]⟩
    · exact ⟨h.range.1, h.range.2, by simp [h.marks c (Nat.lt_trans h.range.2 (by decide))]⟩

theorem Allocated.freeBlocks_eq (h : Allocated m m' b x) : freeBlocks m' + 1 = freeBlocks m := by
  have hb : b ∈ List.range FSSIZE := List.mem_range.2 h.range.2
  obtain ⟨l₁, l₂, hl⟩ := List.append_of_mem hb
  have hnodup : (l₁ ++ b :: l₂).Nodup := hl ▸ List.nodup_range
  have hmark (c : Nat) (hc : c ∈ l₁ ++ l₂) : inUse m' c = inUse m c := by
    have hlt : c < FSSIZE := List.mem_range.1 (hl ▸ by
      rcases List.mem_append.1 hc with hc | hc
      · simp [hc]
      · simp [hc])
    have hne : c ≠ b := by
      rintro rfl
      exact (List.nodup_cons.1 (List.perm_middle.nodup_iff.1 hnodup)).1 hc
    rw [h.marks c (Nat.lt_trans hlt (by decide))]
    simp [hne]
  have hnew : inUse m' b = true := by simp [h.marks b (Nat.lt_trans h.range.2 (by decide))]
  have hcount (l : List Nat) (hl : ∀ c ∈ l, inUse m' c = inUse m c) :
      l.countP (fun c => !inUse m' c) = l.countP fun c => !inUse m c :=
    List.countP_congr fun c hc => by rw [hl c hc]
  simp only [freeBlocks, hl, List.countP_append, List.countP_cons, hnew, h.fresh,
    hcount l₁ fun c hc => hmark c (by simp [hc]), hcount l₂ fun c hc => hmark c (by simp [hc])]
  simp
  omega

theorem Allocated.indirect_eq (h : Allocated m m' b x) {j : Nat} (hj : j < NINDIRECT) : indirect m' b j = 0 := by
  have hj : j < 128 := hj
  have hzero (k : Nat) (hk : k < 4) : m' (b * BSIZE + 4 * j + k) = 0 := by
    rw [Nat.add_assoc]
    exact h.zero _ (by simp only [BSIZE]; omega)
  have h0 := hzero 0 (by omega)
  rw [Nat.add_zero] at h0
  simp [indirect, load32, h0, hzero 1 (by omega), hzero 2 (by omega), hzero 3 (by omega)]

theorem Allocated.sameBlock (h : Allocated m m' b x) {c : Nat} (hc : usedIn m c) (hne : c ≠ x) : SameBlock m m' c :=
  h.other c hc.1 (fun heq => h.not_used (heq ▸ hc)) hne

/-- The new block's address is stored in the block `x`. -/
theorem Allocated.store (h : Allocated m m' b 0) (hx : usedIn m x) {j : Nat} (hj : j < NINDIRECT) (v : Nat) :
    Allocated m (store32 m' (x * BSIZE + 4 * j) v) b x := by
  have hst := store32_inBlock m' v hx.1 hj
  refine ⟨h.range, h.fresh, h.inodes.trans hst.inodes, ?_, ?_, ?_⟩
  · intro c hc
    rw [hst.marks c hc, h.marks c hc]
  · intro c hc hne hcx
    exact (h.other c hc hne (ne_zero_of_nmeta_le hc)).trans (hst.other c hcx)
  · intro o ho
    have hbx : b ≠ x := fun heq => h.not_used (heq ▸ hx)
    rw [(hst.other b hbx).apply ho, h.zero o ho]

/-! ### Growth of an inode -/

/-- There are enough free blocks for the slots in `N` that are still empty. -/
def Room (m : Mem) (d : Dinode) (N : Finset Slot) : Prop := (N.filter fun r => d.ref m r = 0).card ≤ freeBlocks m

/-- How the inode `i`, the disk and the log may change when blocks are added to the inode, in
slots from `N`, and its data blocks are written. -/
structure Grown (D : Nat → Dinode) (i : Nat) (N : Finset Slot) (m : Mem) (l : List Nat) (m' : Mem) (d' : Dinode)
    (l' : List Nat) : Prop where
  owned : Owned m' (Function.update D i d')
  inodes : SameInodes m m'
  fields : d' = { D i with addrs := d'.addrs }
  keep : ∀ r, (D i).ref m r ≠ 0 → d'.ref m' r = (D i).ref m r
  room : ∀ {M}, N ⊆ M → Room m (D i) M → Room m' d' M
  logs : ∀ l₀, Logs N ((D i).ref m) l₀ l → Logs N (d'.ref m') l₀ l'
  others : ∀ j < ninode, j ≠ i → (D j).type ≠ 0 → Untouched m m' (D j)

variable {N : Finset Slot} {l l' : List Nat}

theorem Grown.refl (h : Owned m D) : Grown D i N m l m (D i) l :=
  ⟨by rwa [Function.update_eq_self], SameInodes.refl m, rfl, fun _ _ => rfl, fun _ h => h, fun _ h => h,
    fun _ _ _ _ => Untouched.refl m _⟩

theorem Grown.trans {m'' : Mem} {d' d'' : Dinode} {l'' : List Nat} (h : Grown D i N m l m' d' l')
    (h' : Grown (Function.update D i d') i N m' l' m'' d'' l'') : Grown D i N m l m'' d'' l'' := by
  have hd := h'.fields
  have hkeep := h'.keep
  have hroom := @h'.room
  have hlogs := h'.logs
  simp only [Function.update_self] at hd hkeep hroom hlogs
  refine ⟨by simpa using h'.owned, h.inodes.trans h'.inodes, ?_, fun r hr => ?_, fun hN hM => hroom hN (h.room hN hM),
    fun l₀ hl => hlogs l₀ (h.logs l₀ hl), ?_⟩
  · rw [hd, h.fields]
  · rw [hkeep r (h.keep r hr ▸ hr), h.keep r hr]
  · intro j hj hne htype
    have h'j := h'.others j hj hne
    rw [Function.update_of_ne hne] at h'j
    exact (h.others j hj hne htype).trans (h'j htype)

/-- Filling an empty slot takes one of the free blocks set aside for it. -/
theorem Room.fill {d d' : Dinode} {r : Slot} (h : Room m d N) (hr : r ∈ N) (hempty : d.ref m r = 0) (hb : b ≠ 0)
    (href : d'.ref m' = Function.update (d.ref m) r b) (hfree : freeBlocks m' + 1 = freeBlocks m) : Room m' d' N := by
  have herase : (N.filter fun r' => d'.ref m' r' = 0) = (N.filter fun r' => d.ref m r' = 0).erase r := by
    ext r'
    by_cases hr' : r' = r
    · simp [hr', href, hb]
    · simp [hr', href]
  have hmem : r ∈ N.filter fun r' => d.ref m r' = 0 := Finset.mem_filter.2 ⟨hr, hempty⟩
  simp only [Room] at h ⊢
  rw [herase, Finset.card_erase_of_mem hmem]
  omega

theorem Room.mono {d : Dinode} {N' : Finset Slot} (h : Room m d N) (hsub : N' ⊆ N) : Room m d N' :=
  (Finset.card_le_card (Finset.filter_subset_filter _ hsub)).trans h

theorem Room.freeBlocks_pos {d : Dinode} {r : Slot} (h : Room m d N) (hr : r ∈ N) (hempty : d.ref m r = 0) :
    0 < freeBlocks m :=
  Nat.lt_of_lt_of_le (Finset.card_pos.2 ⟨r, Finset.mem_filter.2 ⟨hr, hempty⟩⟩) h

/-- The data blocks of an inode are not its indirect block. -/
theorem Owned.block_ne_ind (h : Owned m D) (hi : i < ninode) (htype : (D i).type ≠ 0) {bn j : Nat}
    (hbn : (D i).block m bn ≠ 0) (hj : j < ninode) (htype' : (D j).type ≠ 0) : (D i).block m bn ≠ (D j).ind :=
  fun heq => slotOf_ne_ind bn (h.blocks.ref_inj _ (.addr (Fin.last NDIRECT)) hi hj htype htype' hbn heq).2

/-- A new block in an empty slot is logged after the block of the free map. -/
theorem Logs.fill {ref : Slot → Nat} {l₀ : List Nat} {r : Slot} (h : Logs N ref l₀ l) (hr : r ∈ N) (hempty : ref r = 0)
    (hb : b ≠ 0) : Logs N (Function.update ref r b) l₀ (fs.absorb (fs.absorb l sb.bmapstart) b) := by
  refine ((h.absorb (.inl rfl)).keep fun r' hr' => Function.update_of_ne ?_ ..).absorb
    (.inr ⟨hb, r, hr, Function.update_self ..⟩)
  rintro rfl
  exact hr' hempty

/-- A new block in an empty slot of an inode. It is zeroed, so no byte of the file changes. -/
theorem Owned.grow (h : Owned m D) (hi : i < ninode) (htype : (D i).type ≠ 0) {r : Slot} {d : Dinode} (hr : r ∈ N)
    (hempty : (D i).ref m r = 0) (ha : Allocated m m' b (D i).ind) (hd : d = { D i with addrs := d.addrs })
    (href : d.ref m' = Function.update ((D i).ref m) r b) :
    Grown D i N m l m' d (fs.absorb (fs.absorb l sb.bmapstart) b) ∧ d.byte m' = (D i).byte m := by
  have hothers (j : Nat) (hj : j < ninode) (hne : j ≠ i) (htype' : (D j).type ≠ 0) : Untouched m m' (D j) := by
    intro r' hr'
    refine ha.sameBlock (h.blocks.used_ref hj htype' hr') fun heq => hne ?_
    exact (h.blocks.ref_inj _ (.addr (Fin.last NDIRECT)) hj hi htype' htype hr' heq).1
  have hfields : d.type = (D i).type := by rw [hd]
  have hb0 := ne_zero_of_nmeta_le ha.range.1
  refine ⟨⟨⟨?_, ?_⟩, ha.inodes, hd, ?_, fun hN hM => hM.fill (hN hr) hempty hb0 href ha.freeBlocks_eq,
    fun l₀ hl => href ▸ hl.fill hr hempty hb0, hothers⟩, ?_⟩
  · exact h.blocks.alloc hi htype hempty ha.not_used ha.range hfields href hothers ha.used_iff
  · intro c hc
    rw [ha.marks c (Nat.lt_trans hc (by decide)), h.reserved c hc, Bool.or_true]
  · intro r' hr'
    have hne : r' ≠ r := by
      rintro rfl
      exact hr' hempty
    rw [href, Function.update_of_ne hne]
  · funext o
    have hblock : d.block m' (o / BSIZE) = Function.update ((D i).ref m) r b (slotOf (o / BSIZE)) := congrFun href _
    by_cases hslot : slotOf (o / BSIZE) = r
    · have hzero : (D i).byte m o = 0 := if_pos (.inr ((congrArg _ hslot).trans hempty))
      rw [hslot, Function.update_self] at hblock
      rw [hzero, Dinode.byte, hblock, ha.zero _ (Nat.mod_lt _ (by decide)), ite_self]
    · rw [Function.update_of_ne hslot] at hblock
      refine Dinode.byte_congr hblock fun hb => ?_
      exact ha.sameBlock (h.blocks.used_ref hi htype hb) (h.block_ne_ind hi htype hb hi htype)

/-- A new block in an empty slot of `addrs`. -/
theorem Owned.grow_addr (h : Owned m D) (hi : i < ninode) (htype : (D i).type ≠ 0) {k : Fin (NDIRECT + 1)}
    (hk : .addr k ∈ N) (hempty : (D i).addrs k = 0) (ha : Allocated m m' b 0) {d : Dinode}
    (hd : d = { D i with addrs := Function.update (D i).addrs k b }) :
    Grown D i N m l m' d (fs.absorb (fs.absorb l sb.bmapstart) b) ∧ d.byte m' = (D i).byte m ∧
      d.ref m' = Function.update ((D i).ref m) (.addr k) b := by
  have hun : Untouched m m' (D i) :=
    h.blocks.untouched (fun c hc => ha.sameBlock hc (ne_zero_of_nmeta_le hc.1)) hi htype
  have href := hun.ref_set_addr hempty (ne_zero_of_nmeta_le ha.range.1) fun j => ha.indirect_eq
  rw [← hd] at href
  obtain ⟨hgrown, hbyte⟩ := h.grow hi htype hk hempty (ha.weaken _) (by rw [hd]) href
  exact ⟨hgrown, hbyte, href⟩

/-- A new block in an empty entry of the indirect block. -/
theorem Owned.grow_entry (h : Owned m D) (hi : i < ninode) (htype : (D i).type ≠ 0) {j : Fin NINDIRECT}
    (hN : .addr (Fin.last NDIRECT) ∈ N) (hj : .entry j ∈ N) (hind : (D i).ind ≠ 0)
    (hempty : indirect m (D i).ind j = 0) (ha : Allocated m m' b 0) {m'' : Mem}
    (hm : m'' = store32 m' ((D i).ind * BSIZE + 4 * j) b) :
    Grown D i N m l m'' (D i) (fs.absorb (fs.absorb (fs.absorb l sb.bmapstart) b) (D i).ind) ∧
      (D i).byte m'' = (D i).byte m ∧
      (D i).ref m'' = Function.update ((D i).ref m) (.entry j) b := by
  have hused : usedIn m (D i).ind := h.blocks.used_ref hi htype (r := .addr (Fin.last NDIRECT)) hind
  have hsame := ha.sameBlock hused (ne_zero_of_nmeta_le hused.1)
  have href : (D i).ref m'' = Function.update ((D i).ref m) (.entry j) b := by
    rw [hm]
    refine Dinode.ref_set_entry hind fun j' => ?_
    by_cases hjj : j' = j
    · rw [if_pos hjj, hjj]
      exact load32_store32_same m' _ (Nat.lt_trans ha.range.2 (by decide))
    · have hne : (j' : Nat) ≠ j := fun heq => hjj (Fin.ext heq)
      rw [if_neg hjj, ← hsame.indirect_eq j'.isLt]
      exact load32_store32_ne m' (by omega)
  obtain ⟨hgrown, hbyte⟩ := h.grow hi htype hj ((if_neg hind).trans hempty) (hm ▸ ha.store hused j.isLt b) rfl href
  refine ⟨{ hgrown with logs := fun l₀ hl => (hgrown.logs l₀ hl).absorb (.inr ⟨hind, _, hN, rfl⟩) }, hbyte, href⟩

end

end xv6.fs
