import Xv6.Fs.Entries
import Xv6.Fs.Image

open bytes owner outcome

namespace xv6.fs

namespace mkfs

/-! ### The inode counter -/

/-- `mkfs` has taken no inode in between. -/
def SameCount (s s' : Img) : Prop := s'.freeinode = s.freeinode

instance : IsTrans Img SameCount := ⟨fun _ _ _ h h' => Eq.trans h' h⟩
instance : Std.Refl SameCount := ⟨fun _ => rfl⟩

/-- From every image, a computation takes no inode. -/
abbrev Counts {α : Type} (x : MkfsM α) : Prop := Always Allowed SameCount x

theorem rsect_counts (sec : Nat) : Counts (rsect sec) := .ite (.throw trivial) (.pure _)

theorem setDisk_counts (f : Mem → Mem) : Counts (setDisk f) := .modify fun _ => rfl

theorem winode_counts (inum : Nat) (din : Dinode) : Counts (winode inum din) :=
  (rsect_counts _).bind fun _ => setDisk_counts _

theorem rinode_counts (inum : Nat) : Counts (rinode inum) :=
  (rsect_counts _).bind fun _ => Always.get.bind fun _ => .pure _

theorem newblock_counts : Counts newblock := ⟨fun _ => ensures_newblock.2 rfl⟩

theorem block_counts (din : Dinode) (fbn : Nat) : Counts (iappend.block din fbn) := by
  unfold iappend.block
  split
  · exact .ite (newblock_counts.bind fun _ => .pure _) (.pure _)
  · have hjp : ∀ din : Dinode, Counts (do
        let ind := din.addrs (Fin.last NDIRECT)
        rsect ind
        if indirect (← get).disk ind (fbn - NDIRECT) = 0 then
          let x ← newblock
          setDisk fun m => store32 m (ind * BSIZE + 4 * (fbn - NDIRECT)) x
          return (din, x)
        else
          return (din, indirect (← get).disk ind (fbn - NDIRECT))) := fun din =>
      (rsect_counts _).bind fun _ => Always.get.bind fun _ => .ite
        (newblock_counts.bind fun _ => (setDisk_counts _).bind fun _ => .pure _)
        (Always.get.bind fun _ => .pure _)
    exact .ite (newblock_counts.bind fun _ => (Always.pure _).bind hjp) ((Always.pure _).bind hjp)

theorem loop_counts (fuel : Nat) (din : Dinode) (off : Nat) (p : List UInt8) :
    Counts (iappend.loop fuel din off p) := by
  induction fuel generalizing din off p with
  | zero => exact .pure _
  | succ fuel ih =>
    unfold iappend.loop
    refine .ite (.pure _) ?_
    refine .ite ((Always.throw trivial).bind fun _ => ?_) ?_ <;>
      exact (block_counts _ _).bind fun _ => (rsect_counts _).bind fun _ => (setDisk_counts _).bind fun _ => ih ..

theorem iappend_counts (inum : Nat) (p : List UInt8) : Counts (iappend inum p) :=
  (rinode_counts _).bind fun _ => (loop_counts ..).bind fun _ => winode_counts _ _

theorem copyin_counts (inum fuel : Nat) (data : List UInt8) : Counts (copyin inum fuel data) := by
  induction fuel generalizing data with
  | zero => exact .pure _
  | succ fuel ih => exact .ite (.pure _) ((iappend_counts _ _).bind fun _ => ih _)

theorem balloc_counts (used : Nat) : Counts (balloc used) := by
  unfold balloc
  have hmap : Counts (do
      setDisk fun m => fill m (sb.bmapstart * BSIZE) 0 BSIZE
      (List.range used).forM fun i => setDisk fun m =>
        let a := sb.bmapstart * BSIZE + i / 8
        store8 m a (m a ||| 1 <<< UInt8.ofNat (i % 8))) :=
    (setDisk_counts _).bind fun _ => Always.forM (fun _ => setDisk_counts _) _
  exact .ite ((Always.throw trivial).bind fun _ => hmap) hmap

/-- Each file takes one inode. -/
theorem addFile_counts (rootino : Nat) (f : Input) (s : Img) :
    Ensures Allowed (addFile rootino f) s fun _ s' => s'.freeinode = s.freeinode + 1 := by
  unfold addFile
  by_cases hslash : slash ∈ f.arg
  · simp only [if_pos hslash]
    trivial
  · simp only [if_neg hslash]
    unfold ialloc
    rw [ensures_bind, ensures_bind, ensures_get, ensures_bind, ensures_modify, ensures_bind]
    refine ((winode_counts _ _).ensures _).imp fun _ s₁ h₁ => ?_
    have hrest := ((iappend_counts rootino (dirent s.freeinode f.name)).bind fun _ =>
      copyin_counts s.freeinode f.contents.length f.contents).ensures s₁
    exact hrest.imp fun _ s₂ h₂ => Eq.trans h₂ h₁

theorem addFiles_counts (rootino : Nat) (files : List Input) (s : Img) :
    Ensures Allowed (files.forM (addFile rootino)) s fun _ s' => s'.freeinode = s.freeinode + files.length := by
  induction files generalizing s with
  | nil => rfl
  | cons f files ih =>
    rw [ensures_forM_cons]
    refine (addFile_counts rootino f s).imp fun _ s₁ h₁ => (ih s₁).imp fun _ s₂ h₂ => ?_
    rw [h₂, h₁, List.length_cons]
    omega

/-! ### The files -/

/-- The image when the entries of `n` files are in the root directory. -/
structure Listing (n : Nat) (s : Img) : Prop where
  rest : Rest s
  freeinode : s.freeinode = n + 2
  type : (readDinode s.disk ROOTINO).type ≠ 0
  size : (readDinode s.disk ROOTINO).size = DIRENT * (n + 2)

theorem addFile_spec {s : Img} {n : Nat} (h : Listing n s) (hn : n + 2 < ninode) (f : Input) :
    Ensures Allowed (addFile ROOTINO f) s fun _ s' => Listing (n + 1) s' := by
  obtain ⟨hrest, hfree, htype, hsize⟩ := h
  unfold addFile
  by_cases hslash : slash ∈ f.arg
  · simp only [if_pos hslash]
    trivial
  simp only [if_neg hslash]
  have hlt : s.freeinode < ninode := by omega
  have hroot : ROOTINO < ninode := by decide
  refine (ialloc_spec hrest hlt (by decide) (by decide)).bind fun i s₁ h₁ => ?_
  obtain ⟨rfl, hrest₁, hfree₁, hview₁⟩ := h₁
  have hne : ROOTINO ≠ s.freeinode := by
    simp only [ROOTINO]
    omega
  have hroot₁ := hview₁ ROOTINO hroot
  rw [if_neg hne, if_neg hne] at hroot₁
  refine (iappend_spec hrest₁ hroot (by rwa [hroot₁.1]) _).bind fun _ s₂ h₂ => ?_
  have hnew : (readDinode s₂.disk s.freeinode).type ≠ 0 := by
    rw [h₂.type _ hlt, (hview₁ _ hlt).1, if_pos rfl]
    decide
  refine (copyin_spec h₂.rest hlt hnew (Nat.le_refl _)).imp fun _ s₃ h₃ => ?_
  refine ⟨h₃.rest, ?_, ?_, ?_⟩
  · rw [h₃.freeinode, h₂.freeinode, hfree₁, hfree]
  · rwa [h₃.type _ hroot, h₂.type _ hroot, hroot₁.1]
  · rw [h₃.size _ hroot, if_neg hne, h₂.size _ hroot, if_pos rfl, hroot₁.2, hsize, dirent_length]
    simp only [DIRENT]
    omega

theorem addFiles_spec {s : Img} {n : Nat} (h : Listing n s) (files : List Input) (hn : n + files.length + 2 ≤ ninode) :
    Ensures Allowed (files.forM (addFile ROOTINO)) s fun _ s' => Listing (n + files.length) s' := by
  induction files generalizing s n with
  | nil => exact h
  | cons f files ih =>
    simp only [List.length_cons] at hn
    rw [ensures_forM_cons]
    refine (addFile_spec h (by omega) f).imp fun _ s₁ h₁ => (ih h₁ (by omega)).imp fun _ s₂ h₂ => ?_
    rwa [List.length_cons, ← Nat.add_assoc, Nat.add_right_comm]

/-- A disk that is zero but for the super block. -/
def formatted : Img := { blank with disk := storeWords blank.disk BSIZE 7 superWord }

theorem formatted_zero {a : Nat} (ha : 1024 ≤ a) : formatted.disk a = 0 := by
  simp only [formatted, storeWords, blank, BSIZE]
  rw [if_neg (by omega)]

theorem formatted_dinode (i : Nat) : readDinode formatted.disk i = Dinode.cleared 0 := by
  have hat := dinodeAt_eq i
  have h16 : ∀ a, dinodeAt i ≤ a → load16 formatted.disk a = 0 := fun a ha => by
    simp [load16, formatted_zero (a := a) (by omega), formatted_zero (a := a + 1) (by omega)]
  have h32 : ∀ a, dinodeAt i ≤ a → load32 formatted.disk a = 0 := fun a ha => by
    simp [load32, formatted_zero (a := a) (by omega), formatted_zero (a := a + 1) (by omega),
      formatted_zero (a := a + 2) (by omega), formatted_zero (a := a + 3) (by omega)]
  ext k
  · exact h16 _ (by omega)
  · exact h16 _ (by omega)
  · exact h16 _ (by omega)
  · exact h16 _ (by omega)
  · exact h32 _ (by omega)
  · exact h32 _ (by omega)

theorem formatted_rest : Rest formatted := by
  have htype : ∀ i, (readDinode formatted.disk i).type = 0 := fun i => by rw [formatted_dinode]; rfl
  have hnone : ∀ x, blockRef formatted.disk (readDinode formatted.disk) x = none := fun x => by
    simp only [blockRef, htype]
    simp
  have hempty : ∀ {b}, ¬ Taken formatted b := fun h => absurd h.1 (Nat.not_le_of_lt h.2)
  refine ⟨⟨⟨⟨?_, ?_, fun h => absurd h hempty⟩, fun h => absurd h hempty⟩, Nat.le_refl _, ?_, fun i _ _ => htype i,
    fun i _ _ => formatted_dinode i, fun i _ => readDinode_fits _ i, fun i _ ht => absurd (htype i) ht⟩,
    fun i _ ht => absurd (htype i) ht⟩
  · intro x b hx
    simp [hnone] at hx
  · intro x y b hx
    simp [hnone] at hx
  · intro b hb o _
    have hb : 59 ≤ b := hb
    exact formatted_zero (by simp only [BSIZE]; omega)

/-- `main` goes on with the files after the root directory has been made. -/
theorem main_spec {files : List Input} {Q : Unit → Img → Prop}
    (h : ∀ s, Listing 0 s → Ensures Allowed (do
      files.forM (addFile ROOTINO)
      let din ← rinode ROOTINO
      winode ROOTINO { din with size := (din.size / BSIZE + 1) * BSIZE }
      balloc (← get).freeblock) s Q) : Ensures Allowed (main files) blank Q := by
  have hroot : ROOTINO < ninode := by decide
  unfold main
  rw [ensures_bind, ensures_setDisk]
  refine (ialloc_spec formatted_rest (by decide) (by decide) (by decide)).bind fun i s₁ h₁ => ?_
  obtain ⟨hi, hrest₁, hfree₁, hview₁⟩ := h₁
  obtain rfl : i = ROOTINO := hi
  obtain ⟨htype₁, hsize₁⟩ := hview₁ ROOTINO hroot
  rw [if_pos rfl] at htype₁ hsize₁
  simp only [ne_eq, not_true, if_false]
  refine (iappend_spec hrest₁ hroot (by rw [htype₁]; decide) _).bind fun _ s₂ h₂ => ?_
  refine (iappend_spec h₂.rest hroot (by rw [h₂.type _ hroot, htype₁]; decide) _).bind fun _ s₃ h₃ => ?_
  refine h s₃ ⟨h₃.rest, ?_, ?_, ?_⟩
  · rw [h₃.freeinode, h₂.freeinode, hfree₁]
    rfl
  · rw [h₃.type _ hroot, h₂.type _ hroot, htype₁]
    decide
  · rw [h₃.size _ hroot, h₂.size _ hroot, hsize₁, if_pos rfl, if_pos rfl, dirent_length, dirent_length]
    rfl

/-- The number of inodes that a successful run has taken. -/
theorem main_counts (files : List Input) :
    Ensures Allowed (main files) blank fun _ s => s.freeinode = files.length + 2 := by
  refine main_spec fun s hs => (addFiles_counts ROOTINO files s).bind fun _ s₁ h₁ => ?_
  have hrest := ((rinode_counts ROOTINO).bind fun din =>
    (winode_counts ROOTINO { din with size := (din.size / BSIZE + 1) * BSIZE }).bind fun _ =>
      Always.get.bind fun t => balloc_counts t.freeblock).ensures s₁
  refine hrest.imp fun _ s₂ h₂ => ?_
  rw [show s₂.freeinode = s₁.freeinode from h₂, h₁, hs.freeinode]
  omega

/-! ### The free map -/

/-- The inodes and the data blocks have not changed. -/
structure SameFiles (m m' : Mem) : Prop where
  inodes : SameInodes m m'
  blocks : ∀ b, nmeta ≤ b → SameBlock m m' b

theorem SameFiles.trans {m m' m'' : Mem} (h : SameFiles m m') (h' : SameFiles m' m'') : SameFiles m m'' :=
  ⟨h.inodes.trans h'.inodes, fun b hb => (h.blocks b hb).trans (h'.blocks b hb)⟩

theorem setInUse_sameFiles (m : Mem) {b : Nat} (hb : b < BPB) : SameFiles m (setInUse m b) :=
  ⟨setInUse_sameInodes m b, fun _ hc => store8_bmap_sameBlock m _ hb hc⟩

/-- Setting the bit of a block in the loop of `balloc`. -/
theorem balloc_step (m : Mem) {b : Nat} (hb : b < BPB) :
    store8 m (sb.bmapstart * BSIZE + b / 8) (m (sb.bmapstart * BSIZE + b / 8) ||| 1 <<< UInt8.ofNat (b % 8)) =
      setInUse m b := by
  have haddr : bmapByte b = sb.bmapstart * BSIZE + b / 8 := by
    simp only [bmapByte, BBLOCK, Nat.div_eq_of_lt hb, Nat.mod_eq_of_lt hb, Nat.zero_add]
  have hmask : mask b = 1 <<< UInt8.ofNat (b % 8) := by
    simp only [mask, Nat.mod_eq_of_lt hb]
  rw [setInUse, haddr, hmask]

theorem ballocLoop_spec {l : List Nat} {s : Img} (hl : ∀ b ∈ l, b < BPB) :
    Ensures Allowed (l.forM fun i => setDisk fun m =>
        let a := sb.bmapstart * BSIZE + i / 8
        store8 m a (m a ||| 1 <<< UInt8.ofNat (i % 8))) s fun _ s' =>
      ∃ m', s' = { s with disk := m' } ∧ SameFiles s.disk m' ∧
        ∀ b, inUse m' b = (decide (b ∈ l) || inUse s.disk b) := by
  induction l generalizing s with
  | nil => exact ⟨s.disk, rfl, ⟨SameInodes.refl _, fun b _ => SameBlock.refl _ b⟩, fun b => by simp⟩
  | cons c l ih =>
    have hc : c < BPB := hl c (by simp)
    rw [ensures_forM_cons, ensures_setDisk]
    refine (ih fun b hb => hl b (by simp [hb])).imp fun _ s' hs' => ?_
    obtain ⟨m', rfl, hsame, huse⟩ := hs'
    simp only [balloc_step s.disk hc] at hsame huse
    refine ⟨m', rfl, (setInUse_sameFiles s.disk hc).trans hsame, fun b => ?_⟩
    rw [huse, inUse_setInUse]
    by_cases hbc : b = c <;> simp [hbc]

/-- `balloc` marks exactly the first `used` blocks. -/
theorem balloc_spec (used : Nat) (s : Img) :
    Ensures Allowed (balloc used) s fun _ s' => ∃ m', s' = { s with disk := m' } ∧ SameFiles s.disk m' ∧
      ∀ b < BPB, inUse m' b = decide (b < used) := by
  unfold balloc
  by_cases hused : used ≥ BSIZE * 8
  · simp only [if_pos hused]
    trivial
  simp only [if_neg hused]
  rw [ensures_bind, ensures_setDisk]
  have hlt : used < BPB := Nat.lt_of_not_le hused
  refine (ballocLoop_spec fun b hb => Nat.lt_trans (List.mem_range.1 hb) hlt).imp fun _ s' hs' => ?_
  obtain ⟨m', rfl, hsame, huse⟩ := hs'
  have hbmap : sb.bmapstart * BSIZE = 29696 := by
    simp only [sb, nlog, LOGSIZE, MAXOPBLOCKS, ninodeblocks, NINODES, IPB, BSIZE]
  have hfill : SameFiles s.disk (fill s.disk (sb.bmapstart * BSIZE) 0 BSIZE) := by
    rw [hbmap]
    refine ⟨sameInodes_of_sameOn (fill_sameOn _ (.inr (by omega))), fun b hb => fill_sameOn _ (.inl ?_)⟩
    have hb : 59 ≤ b := hb
    simp only [BSIZE]
    omega
  dsimp only at hsame huse
  refine ⟨m', rfl, hfill.trans hsame, fun b hb => ?_⟩
  have hb : b < 4096 := hb
  have hzero : inUse (fill s.disk (sb.bmapstart * BSIZE) 0 BSIZE) b = false := by
    have hbyte : fill s.disk (sb.bmapstart * BSIZE) 0 BSIZE (bmapByte b) = 0 := by
      simp only [fill, hbmap, bmapByte_eq, BSIZE]
      rw [if_pos (by omega)]
    simp [inUse, hbyte]
  rw [huse, hzero, Bool.or_false]
  simp

theorem Image.sameFiles {s : Img} {m m' : Mem} {N : Nat → Nat} (h : Image { s with disk := m } (readDinode m) N)
    (hm : SameFiles m m') : Image { s with disk := m' } (readDinode m') N := by
  have href : ∀ i < ninode, (readDinode m i).type ≠ 0 →
      (readDinode m' i).ref m' = (readDinode m i).ref m := by
    intro i hi ht
    rw [hm.inodes i hi]
    funext r
    exact (h.blocks.untouched (fun c hc => hm.blocks c hc.1) hi ht).ref_eq r
  refine ⟨h.blocks.congr (fun i hi => by rw [hm.inodes i hi]) href fun _ => Iff.rfl, h.first, ?_, ?_, ?_, ?_, ?_⟩
  · exact fun b hb o ho => ((hm.blocks b (Nat.le_trans h.first hb)).apply ho).trans (h.zero b hb o ho)
  · exact fun i hlo hi => by rw [hm.inodes i hi]; exact h.free i hlo hi
  · exact fun i hi ht => by rw [hm.inodes i hi] at ht ⊢; exact h.clear i hi ht
  · exact fun i _ => readDinode_fits _ i
  · intro i hi ht k hk
    rw [hm.inodes i hi] at ht
    rw [Dinode.block, href i hi ht]
    exact h.filled i hi ht k hk

/-- The finished image of `n` files. The size of the root directory has been
rounded up after its blocks were allocated. -/
structure Finished (n : Nat) (s : Img) : Prop where
  image : ∃ N, Image s (readDinode s.disk) N ∧ N ROOTINO = nblocksFor (DIRENT * (n + 2)) ∧
    ∀ i < ninode, i ≠ ROOTINO → (readDinode s.disk i).type ≠ 0 → N i = nblocksFor (readDinode s.disk i).size ∧
      (readDinode s.disk i).size ≤ MAXFILE * BSIZE
  type : (readDinode s.disk ROOTINO).type ≠ 0
  size : (readDinode s.disk ROOTINO).size = (DIRENT * (n + 2) / BSIZE + 1) * BSIZE
  bitmap : ∀ b < BPB, inUse s.disk b = decide (b < s.freeblock)

theorem main_finished {files : List Input} (hn : files.length + 2 ≤ ninode) :
    Ensures Allowed (main files) blank fun _ s => Finished files.length s := by
  have hroot : ROOTINO < ninode := by decide
  refine main_spec fun s hs => (addFiles_spec hs files (by omega)).bind fun _ s₁ h₁ => ?_
  rw [Nat.zero_add] at h₁
  obtain ⟨hrest, hfree, htype, hsize⟩ := h₁
  unfold rinode winode
  rw [ensures_bind, ensures_bind]
  refine ensures_rsect fun _ => ?_
  rw [ensures_bind, ensures_get, ensures_pure, ensures_bind, ensures_bind]
  refine ensures_rsect fun _ => ?_
  rw [ensures_setDisk, ensures_bind, ensures_get]
  refine (balloc_spec _ _).imp fun _ s₂ h₂ => ?_
  obtain ⟨m', rfl, hsame, huse⟩ := h₂
  obtain ⟨d, hd⟩ : ∃ d : Dinode,
      { readDinode s₁.disk ROOTINO with size := ((readDinode s₁.disk ROOTINO).size / BSIZE + 1) * BSIZE } = d := ⟨_, rfl⟩
  rw [hd] at hsame
  have hdsize : d.size = (DIRENT * (files.length + 2) / BSIZE + 1) * BSIZE := by rw [← hd, ← hsize]
  have hdtype : d.type = (readDinode s₁.disk ROOTINO).type := by rw [← hd]
  have hdaddrs : d.addrs = (readDinode s₁.disk ROOTINO).addrs := by rw [← hd]
  have hlen : files.length + 2 ≤ 208 := hn
  have hfits : d.Fits := by
    have hsmall : d.size < 2 ^ 32 := by
      simp only [hdsize, DIRENT, BSIZE]
      omega
    rw [← hd] at hsmall ⊢
    exact { readDinode_fits s₁.disk ROOTINO with size := hsmall }
  have hwritten : readDinode (writeDinode s₁.disk ROOTINO d) ROOTINO = d := readDinode_writeDinode hfits
  dsimp only at hsame
  have hstored := hrest.image.winode hroot htype (fun _ _ _ => rfl) hfits hdtype hdaddrs
  have himage := hstored.sameFiles hsame
  have hread : ∀ i < ninode, i ≠ ROOTINO → readDinode m' i = readDinode s₁.disk i := fun i hi hne => by
    rw [hsame.inodes i hi, readDinode_writeDinode_ne hne]
  refine ⟨⟨_, himage, congrArg nblocksFor hsize, fun i hi hne ht => ?_⟩, ?_, ?_, huse⟩
  · rw [hread i hi hne] at ht
    exact ⟨by rw [hread i hi hne], by rw [hread i hi hne]; exact hrest.small i hi ht⟩
  · simp only [hsame.inodes _ hroot, hwritten]
    rwa [hdtype]
  · simp only [hsame.inodes _ hroot, hwritten]
    exact hdsize

/-- What an image must satisfy: the block addresses of the inodes, those in
their indirect blocks included, are addresses of data blocks and occur once;
the free map marks exactly the blocks below `freeblock`; the inodes that were
taken, below `freeinode`, are below `NINODES`; every inode has the blocks that its size needs. -/
structure WellFormed (s : Img) : Prop where
  range : ∀ i < ninode, ∀ r, (readDinode s.disk i).ref s.disk r ≠ 0 →
    nmeta ≤ (readDinode s.disk i).ref s.disk r ∧ (readDinode s.disk i).ref s.disk r < FSSIZE
  once : ∀ i < ninode, ∀ j < ninode, ∀ r r', (readDinode s.disk i).ref s.disk r ≠ 0 →
    (readDinode s.disk i).ref s.disk r = (readDinode s.disk j).ref s.disk r' → i = j ∧ r = r'
  bitmap : ∀ b < BPB, inUse s.disk b = true ↔ b < s.freeblock
  inodes : ∀ i < s.freeinode, i < NINODES
  blocks : ∀ i < ninode, ∀ k < nblocksFor (readDinode s.disk i).size,
    k < MAXFILE ∧ (readDinode s.disk i).block s.disk k ≠ 0

/-- A free inode has no addresses. -/
theorem ref_cleared (m : Mem) (r : Slot) : (Dinode.cleared 0).ref m r = 0 := by
  cases r with
  | addr k => rfl
  | entry j => simp [Dinode.ref, Dinode.cleared]

/-- The finished image is well formed iff the inodes suffice and the entries do not fill the last block of the
root directory. -/
theorem Finished.wellFormed_iff {n : Nat} {s : Img} (h : Finished n s) (hfree : s.freeinode = n + 2)
    (hn : n + 2 ≤ NINODES) : WellFormed s ↔ (n + 2) % 32 ≠ 0 := by
  obtain ⟨⟨N, himage, hNroot, hN⟩, htype, hsize, hbitmap⟩ := h
  have hn : n + 2 ≤ 200 := hn
  have hroot : ROOTINO < ninode := by decide
  have hneed : nblocksFor (readDinode s.disk ROOTINO).size = (n + 2) / 32 + 1 := by
    rw [hsize]
    simp only [nblocksFor, DIRENT, BSIZE]
    omega
  have hhave : N ROOTINO = (n + 2 + 31) / 32 := by
    rw [hNroot]
    simp only [nblocksFor, DIRENT, BSIZE]
    omega
  constructor
  · intro hwf hmod
    obtain ⟨hmax, hblock⟩ := hwf.blocks ROOTINO hroot ((n + 2) / 32) (by omega)
    have hlt := (himage.filled ROOTINO hroot htype _ hmax).1 hblock
    omega
  · intro hmod
    have hcases : ∀ i < ninode, (readDinode s.disk i).type ≠ 0 ∨ readDinode s.disk i = Dinode.cleared 0 := fun i hi =>
      (Classical.em _).symm.imp_right (himage.clear i hi)
    have hused : ∀ i < ninode, ∀ r, (readDinode s.disk i).ref s.disk r ≠ 0 → (readDinode s.disk i).type ≠ 0 := by
      intro i hi r hr
      refine (hcases i hi).resolve_right fun hclear => ?_
      rw [hclear, ref_cleared] at hr
      exact hr rfl
    refine ⟨?_, ?_, ?_, ?_, ?_⟩
    · exact fun i hi r hr => himage.blocks.range (himage.blocks.used_ref hi (hused i hi r hr) hr)
    · intro i hi j hj r r' hr heq
      exact himage.blocks.ref_inj r r' hi hj (hused i hi r hr) (hused j hj r' (heq ▸ hr)) hr heq
    · intro b hb
      rw [hbitmap b hb, decide_eq_true_iff]
    · intro i hi
      show i < 200
      omega
    · intro i hi k hk
      rcases hcases i hi with ht | hclear
      · have hmax : k < MAXFILE ∧ k < N i := by
          by_cases hne : i = ROOTINO
          · subst hne
            refine ⟨?_, by omega⟩
            show k < 140
            omega
          · obtain ⟨hNi, hsmall⟩ := hN i hi hne ht
            refine ⟨?_, hNi ▸ hk⟩
            have hsmall : (readDinode s.disk i).size ≤ 140 * 512 := hsmall
            simp only [nblocksFor, BSIZE] at hk
            show k < 140
            omega
        exact ⟨hmax.1, (himage.filled i hi ht k hmax.1).2 hmax.2⟩
      · rw [hclear] at hk
        simp only [nblocksFor, Dinode.cleared, BSIZE] at hk
        omega

/-- A run of `mkfs` that succeeds leaves a well-formed image iff it was given
at most 198 files and the entries of the root directory do not end on a block boundary. -/
theorem main_wellFormed_iff {files : List Input} {img : Img} (h : (main files).run blank = .ok () img) :
    WellFormed img ↔ files.length + 2 ≤ NINODES ∧ (files.length + 2) % 32 ≠ 0 := by
  have hfree : img.freeinode = files.length + 2 := (ensures_of_ok h).1 (main_counts files)
  by_cases hn : files.length + 2 ≤ NINODES
  · have hfin : Finished files.length img := (ensures_of_ok h).1 (main_finished (Nat.le_trans hn (by decide)))
    rw [hfin.wellFormed_iff hfree hn]
    exact ⟨fun hmod => ⟨hn, hmod⟩, And.right⟩
  · refine iff_of_false (fun hwf => ?_) fun hc => hn hc.1
    have hlt : files.length + 1 < NINODES := hwf.inodes _ (by omega)
    exact hn hlt

/-- The image after `main`, or the one before it if `main` fails. -/
def image (files : List Input) : Img :=
  match (main files).run blank with
  | .ok _ s => s
  | .error _ _ => blank

/-- Whether `main` ends with status 0. -/
def succeeds (files : List Input) : Bool :=
  match (main files).run blank with
  | .ok _ _ => true
  | .error _ _ => false

theorem run_eq_image (files : List Input) (h : succeeds files = true) :
    (main files).run blank = .ok () (image files) := by
  unfold succeeds at h
  unfold image
  cases hrun : (main files).run blank with
  | ok _ s => rfl
  | error e s => simp [hrun] at h

/-- A command line with the file `a`, which is empty, `n` times. -/
def empties (n : Nat) : List Input := List.replicate n { arg := [97], contents := [] }

theorem main_wellFormed_one : (main (empties 1)).run blank = .ok () (image (empties 1)) ∧ WellFormed (image (empties 1)) :=
  have hrun := run_eq_image (empties 1) (by decide +kernel)
  ⟨hrun, (main_wellFormed_iff hrun).2 (by decide)⟩

/-- With 30 files the entries fill a block. The root directory is given the
size of two blocks and has one. -/
theorem image_thirty : (main (empties 30)).run blank = .ok () (image (empties 30)) ∧
    (readDinode (image (empties 30)).disk ROOTINO).size = 2 * BSIZE ∧
    (readDinode (image (empties 30)).disk ROOTINO).block (image (empties 30)).disk 1 = 0 ∧
    ¬ WellFormed (image (empties 30)) := by
  have hsize : (readDinode (image (empties 30)).disk ROOTINO).size = 2 * BSIZE := by decide +kernel
  have hblock : (readDinode (image (empties 30)).disk ROOTINO).block (image (empties 30)).disk 1 = 0 := by decide +kernel
  refine ⟨run_eq_image (empties 30) (by decide +kernel), hsize, hblock, fun hwf => ?_⟩
  exact (hwf.blocks ROOTINO (by decide) 1 (by rw [hsize]; decide)).2 hblock

end mkfs

end xv6.fs
