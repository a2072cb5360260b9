import Xv6.Fs.Disk

open bytes

namespace xv6.fs

/-- The number of inodes that the inode blocks hold. -/
abbrev ninode : Nat := ninodeblocks * IPB

theorem dinodeAt_eq (i : Nat) : dinodeAt i = 16384 + 64 * i := by
  simp only [dinodeAt, IBLOCK, sb, IPB, BSIZE, nlog, LOGSIZE, MAXOPBLOCKS]
  omega

theorem bmapByte_eq (b : Nat) : bmapByte b = 29696 + b / 8 := by
  simp only [bmapByte, BBLOCK, sb, BPB, BSIZE, nlog, LOGSIZE, MAXOPBLOCKS, ninodeblocks, NINODES, IPB]
  omega

/-! ### Inodes -/

/-- The fields of a dinode have the widths of the C types. -/
structure Dinode.Fits (d : Dinode) : Prop where
  type : d.type < 2 ^ 16
  major : d.major < 2 ^ 16
  minor : d.minor < 2 ^ 16
  nlink : d.nlink < 2 ^ 16
  size : d.size < 2 ^ 32
  addrs : ∀ k, d.addrs k < 2 ^ 32

theorem readDinode_fits (m : Mem) (i : Nat) : (readDinode m i).Fits :=
  ⟨load16_lt .., load16_lt .., load16_lt .., load16_lt .., load32_lt .., fun _ => load32_lt ..⟩

theorem addrs_lt (k : Fin (NDIRECT + 1)) : (k : Nat) < 13 := k.isLt

theorem readDinode_congr {m m' : Mem} {i : Nat} (h : SameOn m m' (dinodeAt i) 64) :
    readDinode m' i = readDinode m i := by
  ext k
  · exact h.load16_eq (by omega) (by omega)
  · exact h.load16_eq (by omega) (by omega)
  · exact h.load16_eq (by omega) (by omega)
  · exact h.load16_eq (by omega) (by omega)
  · exact h.load32_eq (by omega) (by omega)
  · have hk := addrs_lt k
    exact h.load32_eq (by omega) (by omega)

theorem Dinode.word_addrs (d : Dinode) (k : Fin (NDIRECT + 1)) : d.word (k + 3) = d.addrs k := by
  simp only [Dinode.word, k.isLt, dif_pos, Fin.eta]

theorem readDinode_writeDinode {m : Mem} {i : Nat} {d : Dinode} (hd : d.Fits) :
    readDinode (writeDinode m i d) i = d := by
  have htype := hd.type
  have hmajor := hd.major
  have hminor := hd.minor
  have hnlink := hd.nlink
  ext k
  · refine (load16_storeWords_lower m (k := 0) (by omega) (by omega)).trans ?_
    simp only [Dinode.word]
    omega
  · refine (load16_storeWords_upper m (k := 0) (by omega) (by omega)).trans ?_
    simp only [Dinode.word]
    omega
  · refine (load16_storeWords_lower m (k := 1) (by omega) (by omega)).trans ?_
    simp only [Dinode.word]
    omega
  · refine (load16_storeWords_upper m (k := 1) (by omega) (by omega)).trans ?_
    simp only [Dinode.word]
    omega
  · exact load32_storeWords m (k := 2) (by omega) (by omega) hd.size
  · have hk := addrs_lt k
    have hword := d.word_addrs k
    refine (load32_storeWords m (k := k + 3) (by omega) (by omega) (hword ▸ hd.addrs k)).trans hword

theorem writeDinode_sameOn (m : Mem) {i a n : Nat} {d : Dinode}
    (h : a + n ≤ dinodeAt i ∨ dinodeAt i + 64 ≤ a) : SameOn m (writeDinode m i d) a n :=
  storeWords_sameOn m (by omega)

theorem readDinode_writeDinode_ne {m : Mem} {i j : Nat} {d : Dinode} (hij : j ≠ i) :
    readDinode (writeDinode m i d) j = readDinode m j := by
  apply readDinode_congr
  apply writeDinode_sameOn
  rw [dinodeAt_eq, dinodeAt_eq]
  omega

/-! ### The free map -/

theorem mask_toBitVec (b : Nat) : (mask b).toBitVec = BitVec.twoPow 8 (b % 8) := by
  have h : b % BPB % 8 = b % 8 := Nat.mod_mod_of_dvd b ⟨512, rfl⟩
  have h8 : b % 8 < 8 := Nat.mod_lt _ (by omega)
  simp only [mask, h, UInt8.toBitVec_shiftLeft]
  rw [BitVec.twoPow_eq]
  simp

theorem inUse_eq (m : Mem) (b : Nat) : inUse m b = (m (bmapByte b)).toBitVec.getLsbD (b % 8) := by
  have hpow : BitVec.twoPow 8 (b % 8) ≠ 0#8 := by
    intro h
    have hbit := congrArg (fun v => v.getLsbD (b % 8)) h
    simp [Nat.mod_lt b (show 8 > 0 by omega)] at hbit
  have hiff : m (bmapByte b) &&& mask b = 0 ↔ (m (bmapByte b)).toBitVec.getLsbD (b % 8) = false := by
    rw [← UInt8.toBitVec_inj, UInt8.toBitVec_and, mask_toBitVec, BitVec.and_twoPow]
    cases (m (bmapByte b)).toBitVec.getLsbD (b % 8) <;> simp [hpow]
  cases hbit : (m (bmapByte b)).toBitVec.getLsbD (b % 8) <;> simp [inUse, hiff, hbit]

theorem inUse_congr {m m' : Mem} {b : Nat} (h : m' (bmapByte b) = m (bmapByte b)) : inUse m' b = inUse m b := by
  rw [inUse_eq, inUse_eq, h]

/-- Two blocks with their bits in one byte are told apart by the position there. -/
theorem eq_of_bmapByte_eq {b c : Nat} (h : bmapByte c = bmapByte b) (hmod : c % 8 = b % 8) : c = b := by
  rw [bmapByte_eq, bmapByte_eq] at h
  omega

theorem inUse_setInUse (m : Mem) (b c : Nat) : inUse (setInUse m b) c = (decide (c = b) || inUse m c) := by
  by_cases hbyte : bmapByte c = bmapByte b
  · have h8' : b % 8 < 8 := Nat.mod_lt _ (by omega)
    have hiff : b % 8 = c % 8 ↔ c = b := ⟨fun h => eq_of_bmapByte_eq hbyte h.symm, fun h => by rw [h]⟩
    simp only [inUse_eq, setInUse, store8, hbyte, if_pos, UInt8.toBitVec_or, mask_toBitVec,
      BitVec.getLsbD_or, BitVec.getLsbD_twoPow, h8', decide_true, Bool.true_and, hiff]
    rw [Bool.or_comm]
  · have hne : c ≠ b := fun h => hbyte (by rw [h])
    rw [inUse_congr (show setInUse m b (bmapByte c) = m (bmapByte c) from if_neg hbyte)]
    simp [hne]

/-! ### Regions

The inodes, the free map and the data blocks lie in disjoint parts of the disk. -/

/-- No inode has changed. -/
def SameInodes (m m' : Mem) : Prop := ∀ i < ninode, readDinode m' i = readDinode m i

/-- The data block `b` has not changed. -/
def SameBlock (m m' : Mem) (b : Nat) : Prop := SameOn m m' (b * BSIZE) BSIZE

theorem SameInodes.refl (m : Mem) : SameInodes m m := fun _ _ => rfl

theorem SameInodes.trans {m m' m'' : Mem} (h : SameInodes m m') (h' : SameInodes m' m'') : SameInodes m m'' :=
  fun i hi => (h' i hi).trans (h i hi)

theorem SameBlock.refl (m : Mem) (b : Nat) : SameBlock m m b := SameOn.refl m _ _

theorem SameBlock.trans {m m' m'' : Mem} {b : Nat} (h : SameBlock m m' b) (h' : SameBlock m' m'' b) :
    SameBlock m m'' b := SameOn.trans h h'

theorem SameBlock.apply {m m' : Mem} {b o : Nat} (h : SameBlock m m' b) (ho : o < BSIZE) :
    m' (b * BSIZE + o) = m (b * BSIZE + o) := h _ (Nat.le_add_right ..) (Nat.add_lt_add_left ho _)

theorem SameBlock.indirect_eq {m m' : Mem} {b j : Nat} (h : SameBlock m m' b) (hj : j < NINDIRECT) :
    indirect m' b j = indirect m b j := by
  simp only [NINDIRECT] at hj
  exact SameOn.load32_eq h (by omega) (by simp only [BSIZE]; omega)

theorem sameInodes_of_sameOn {m m' : Mem} (h : SameOn m m' 16384 13312) : SameInodes m m' := by
  intro i hi
  have hi : i < 208 := hi
  apply readDinode_congr
  rw [dinodeAt_eq]
  exact h.mono (by omega) (by omega)

theorem setInUse_sameInodes (m : Mem) (b : Nat) : SameInodes m (setInUse m b) := by
  apply sameInodes_of_sameOn
  apply store8_sameOn
  rw [bmapByte_eq]
  omega

/-- A write to the byte of block `b` in the free map changes no data block. -/
theorem store8_bmap_sameBlock (m : Mem) {b c : Nat} (v : UInt8) (hb : b < BPB) (hc : nmeta ≤ c) :
    SameBlock m (store8 m (bmapByte b) v) c := by
  have hb : b < 4096 := hb
  have hc : 59 ≤ c := hc
  apply store8_sameOn
  rw [bmapByte_eq]
  simp only [BSIZE]
  omega

theorem writeDinode_sameBlock (m : Mem) {i b : Nat} (d : Dinode) (hi : i < ninode) (hb : nmeta ≤ b) :
    SameBlock m (writeDinode m i d) b := by
  have hi : i < 208 := hi
  have hb : 59 ≤ b := hb
  apply writeDinode_sameOn
  rw [dinodeAt_eq]
  simp only [BSIZE]
  omega

theorem inUse_writeDinode (m : Mem) {i b : Nat} (d : Dinode) (hi : i < ninode) :
    inUse (writeDinode m i d) b = inUse m b := by
  have hi : i < 208 := hi
  apply inUse_congr
  refine writeDinode_sameOn m (n := 1) ?_ _ (Nat.le_refl _) (Nat.lt_succ_self _)
  rw [dinodeAt_eq, bmapByte_eq]
  omega

/-- What a change confined to data block `b` leaves alone. -/
structure InBlock (m m' : Mem) (b : Nat) : Prop where
  inodes : SameInodes m m'
  marks : ∀ c < BPB, inUse m' c = inUse m c
  other : ∀ c, c ≠ b → SameBlock m m' c

theorem inBlock_of_sameOn {m m' : Mem} {b : Nat} (hb : nmeta ≤ b)
    (h : ∀ a, (a < b * BSIZE ∨ b * BSIZE + BSIZE ≤ a) → m' a = m a) : InBlock m m' b := by
  have hb : 59 ≤ b := hb
  simp only [BSIZE] at h
  refine ⟨sameInodes_of_sameOn fun a _ ha => h a (by omega), ?_, ?_⟩
  · intro c hc
    have hc : c < 4096 := hc
    apply inUse_congr
    apply h
    rw [bmapByte_eq]
    omega
  · intro c hc a hlo hhi
    simp only [BSIZE] at hlo hhi
    exact h a (by omega)

theorem fill_inBlock (m : Mem) {b : Nat} (hb : nmeta ≤ b) : InBlock m (fill m (b * BSIZE) 0 BSIZE) b := by
  apply inBlock_of_sameOn hb
  intro a ha
  simp only [fill]
  rw [if_neg (by omega)]

theorem store32_inBlock (m : Mem) {b j : Nat} (v : Nat) (hb : nmeta ≤ b) (hj : j < NINDIRECT) :
    InBlock m (store32 m (b * BSIZE + 4 * j) v) b := by
  have hj : j < 128 := hj
  apply inBlock_of_sameOn hb
  intro a ha
  simp only [BSIZE] at ha
  simp only [store32, BSIZE]
  rw [if_neg (by omega)]

theorem blit_inBlock (m : Mem) {b o : Nat} {data : List UInt8} (hb : nmeta ≤ b) (ho : o + data.length ≤ BSIZE) :
    InBlock m (blit m (b * BSIZE + o) data) b := by
  apply inBlock_of_sameOn hb
  intro a ha
  simp only [blit]
  rw [if_neg (by omega)]

end xv6.fs
