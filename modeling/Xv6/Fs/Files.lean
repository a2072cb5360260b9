import Mathlib.Algebra.Order.BigOperators.Group.Finset
import Mathlib.Order.Interval.Finset.Nat
import Xv6.Fs.ReadWrite

open bytes owner outcome

namespace xv6.fs

/-! ### Inodes as the kernel sees them -/

/-- The inode with number `i`: the copy in the cache where there is a valid one. -/
def Fs.dinode (s : Fs) (i : Nat) : Dinode :=
  match (List.finRange NINODE).find? fun x =>
    decide (0 < (s.icache x).ref ∧ (s.icache x).valid = true ∧ (s.icache x).inum = i) with
  | some x => (s.icache x).din
  | none => readDinode s.disk i

def Fs.node (s : Fs) (i : Nat) : Node := (s.dinode i).node s.disk

/-- `*ip` is the cache entry for the inode with number `i`. -/
structure Cached (s : Fs) (ip : Fin NINODE) (i : Nat) : Prop where
  ref : 0 < (s.icache ip).ref
  inum : (s.icache ip).inum = i
  lt : i < ninode
  unique : ∀ x, 0 < (s.icache x).ref → (s.icache x).inum = i → x = ip

section
variable {s s' : Fs} {ip : Fin NINODE} {i : Nat}

theorem dinode_of_entry {x : Fin NINODE} (hx : 0 < (s.icache x).ref) (hinum : (s.icache x).inum = i)
    (hunique : ∀ y, 0 < (s.icache y).ref → (s.icache y).inum = i → y = x) :
    s.dinode i = if (s.icache x).valid then (s.icache x).din else readDinode s.disk i := by
  rw [Fs.dinode]
  split
  next y hy =>
    have hp := List.find?_some hy
    simp only [decide_eq_true_eq] at hp
    obtain rfl := hunique y hp.1 hp.2.2
    rw [if_pos hp.2.1]
  next hnone =>
    have hvalid : (s.icache x).valid = false := by
      have hp := List.find?_eq_none.1 hnone x (List.mem_finRange x)
      simpa [hx, hinum] using hp
    rw [if_neg (by rw [hvalid]; decide)]

theorem Cached.dinode_eq (h : Cached s ip i) :
    s.dinode i = if (s.icache ip).valid then (s.icache ip).din else readDinode s.disk i :=
  dinode_of_entry h.ref h.inum h.unique

/-- Only the entries for the inode and the inode on the disk matter. -/
theorem dinode_congr (hkey : ∀ x, (s'.icache x).ref = (s.icache x).ref ∧ (s'.icache x).inum = (s.icache x).inum)
    (hentry : ∀ x, (s.icache x).inum = i → (s'.icache x).valid = (s.icache x).valid ∧ (s'.icache x).din = (s.icache x).din)
    (hdisk : readDinode s'.disk i = readDinode s.disk i) : s'.dinode i = s.dinode i := by
  have hfind : (fun x => decide (0 < (s'.icache x).ref ∧ (s'.icache x).valid = true ∧ (s'.icache x).inum = i)) =
      fun x => decide (0 < (s.icache x).ref ∧ (s.icache x).valid = true ∧ (s.icache x).inum = i) := by
    funext x
    rw [decide_eq_decide, (hkey x).1, (hkey x).2]
    exact and_congr_right fun _ => and_congr_left fun hinum => by rw [(hentry x hinum).1]
  simp only [Fs.dinode, hfind]
  split
  next x hx =>
    have hp := List.find?_some hx
    simp only [decide_eq_true_eq] at hp
    exact (hentry x hp.2.2).2
  next => exact hdisk

variable {m' : Mem} {d' : Dinode} {l' : List Nat}

theorem grownState_key (s : Fs) (ip x : Fin NINODE) (m' : Mem) (d' : Dinode) (l' : List Nat) :
    ((grownState s ip m' d' l').icache x).ref = (s.icache x).ref ∧
      ((grownState s ip m' d' l').icache x).valid = (s.icache x).valid ∧
      ((grownState s ip m' d' l').icache x).inum = (s.icache x).inum := by
  by_cases hx : x = ip
  · subst hx
    simp only [grownState, Function.update_self, and_self]
  · simp only [grownState, Function.update_of_ne hx, and_self]

theorem Cached.grown (h : Cached s ip i) (m' : Mem) (d' : Dinode) (l' : List Nat) :
    Cached (grownState s ip m' d' l') ip i := by
  have hkey := fun x => grownState_key s ip x m' d' l'
  refine ⟨(hkey ip).1 ▸ h.ref, (hkey ip).2.2.trans h.inum, h.lt, fun x hx hinum => ?_⟩
  exact h.unique x ((hkey x).1 ▸ hx) ((hkey x).2.2 ▸ hinum)

theorem Cached.dinode_grown (h : Cached s ip i) (hvalid : (s.icache ip).valid = true) :
    (grownState s ip m' d' l').dinode i = d' := by
  rw [(h.grown m' d' l').dinode_eq, (grownState_key s ip ip m' d' l').2.1, if_pos hvalid, grownState_din]

theorem Cached.dinode_grown_ne (h : Cached s ip i) {j : Nat} (hne : j ≠ i)
    (hdisk : readDinode m' j = readDinode s.disk j) : (grownState s ip m' d' l').dinode j = s.dinode j := by
  have hkey := fun x => grownState_key s ip x m' d' l'
  refine dinode_congr (fun x => ⟨(hkey x).1, (hkey x).2.2⟩) (fun x hx => ⟨(hkey x).2.1, ?_⟩) hdisk
  have hxip : x ≠ ip := by
    rintro rfl
    exact hne (hx.symm.trans h.inum)
  simp only [grownState, Function.update_of_ne hxip]

/-- What a change to the inode `i` and its blocks leaves alone. -/
structure Rewritten (s : Fs) (i : Nat) (N : Finset Slot) (s' : Fs) : Prop where
  outstanding : s'.outstanding = s.outstanding
  owned : Owned s'.disk s'.dinode
  keep : ∀ r, (s.dinode i).ref s.disk r ≠ 0 → (s'.dinode i).ref s'.disk r ≠ 0
  room : ∀ {M}, N ⊆ M → Room s.disk (s.dinode i) M → Room s'.disk (s'.dinode i) M
  dinodes : ∀ j < ninode, j ≠ i → s'.dinode j = s.dinode j
  others : ∀ j < ninode, j ≠ i → (s.dinode j).type ≠ 0 → Untouched s.disk s'.disk (s.dinode j)

/-- The blocks have been changed as `Grown` says; then the inode itself may have been
written, with other sizes and link counts. -/
theorem Cached.rewritten (h : Cached s ip i) (hvalid : (s.icache ip).valid = true) (htype : (s.dinode i).type ≠ 0)
    {N : Finset Slot} {m : Mem} {d : Dinode} {l : List Nat} (hgrown : Grown s.dinode i N s.disk s.lh m d l)
    (hblocks : ∀ b, nmeta ≤ b → SameBlock m m' b) (hmarks : ∀ b, inUse m' b = inUse m b)
    (hinodes : ∀ j < ninode, j ≠ i → readDinode m' j = readDinode m j) (hd : d'.type = d.type ∧ d'.addrs = d.addrs) :
    Rewritten s i N (grownState s ip m' d' l') := by
  have hdtype : d.type = (s.dinode i).type := by rw [hgrown.fields]
  have hused (c : Nat) : usedIn m' c ↔ usedIn m c := by simp only [usedIn, hmarks]
  have hun (j : Nat) (hj : j < ninode) (hjtype : (Function.update s.dinode i d j).type ≠ 0) :
      Untouched m m' (Function.update s.dinode i d j) :=
    hgrown.owned.blocks.untouched (fun c hc => hblocks c hc.1) hj hjtype
  have hne (j : Nat) (hj : j < ninode) (hji : j ≠ i) : (grownState s ip m' d' l').dinode j = s.dinode j :=
    h.dinode_grown_ne hji ((hinodes j hj hji).trans (hgrown.inodes j hj))
  have href : d'.ref m' = d.ref m := by
    have hi := hun i h.lt
    rw [Function.update_self, hdtype] at hi
    rw [Dinode.ref_congr hd.2]
    exact funext (hi htype).ref_eq
  have hD (j : Nat) (hj : j < ninode) :
      ((grownState s ip m' d' l').dinode j).type = (Function.update s.dinode i d j).type ∧
      ((grownState s ip m' d' l').dinode j).addrs = (Function.update s.dinode i d j).addrs := by
    by_cases hji : j = i
    · rw [hji, Function.update_self, h.dinode_grown hvalid]
      exact hd
    · rw [Function.update_of_ne hji, hne j hj hji]
      exact ⟨rfl, rfl⟩
  refine ⟨rfl, ⟨?_, ?_⟩, ?_, ?_, hne, ?_⟩
  · refine hgrown.owned.blocks.congr (fun j hj => (hD j hj).1) (fun j hj hjtype => ?_) hused
    rw [Dinode.ref_congr (hD j hj).2]
    exact funext (hun j hj hjtype).ref_eq
  · intro c hc
    exact (hmarks c).trans (hgrown.owned.reserved c hc)
  · intro r hr
    rw [h.dinode_grown hvalid, grownState_disk, href]
    exact (hgrown.keep r hr).trans_ne hr
  · intro M hN hroom
    have hfree : freeBlocks m' = freeBlocks m := by simp only [freeBlocks, hmarks]
    rw [h.dinode_grown hvalid, grownState_disk, Room, href, hfree]
    exact hgrown.room hN hroom
  · intro j hj hji hjtype
    have hj' := hun j hj
    rw [Function.update_of_ne hji] at hj'
    exact (hgrown.others j hj hji hjtype).trans (hj' hjtype)

end

/-! ### `readi` and `writei` -/

/-- The bytes of a file after a write, without the addresses of its blocks. -/
theorem Dinode.node_write {m m' : Mem} {d d' : Dinode} {off : Nat} {src : List UInt8} (hoff : off ≤ d.size)
    (hd : d' = { d with addrs := d'.addrs, size := max d.size (off + src.length) })
    (hbyte : d'.byte m' = blit (d.byte m) off src) : d'.node m' = (d.node m).write off src := by
  have hsize : d'.size = max d.size (off + src.length) := by rw [hd]
  have hdata : (d'.node m').data = ((d.node m).write off src).data := by
    funext o
    simp only [Dinode.node, Node.write, hbyte, hsize, blit]
    by_cases hin : off ≤ o ∧ o < off + src.length
    · rw [if_pos hin, if_pos hin, if_pos (by omega)]
    · rw [if_neg hin, if_neg hin]
      by_cases ho : o < d.size
      · rw [if_pos ho, if_pos (by omega)]
      · rw [if_neg ho, if_neg (by omega)]
  refine Node.ext ?_ ?_ ?_ ?_ hsize hdata <;> rw [hd] <;> rfl

section
variable {s : Fs} {ip : Fin NINODE} {i off : Nat} {N : Finset Slot}

/-- What `readi` and `writei` expect: the inode is locked, so its copy is valid, and is not that of a device. -/
structure Ready (s : Fs) (ip : Fin NINODE) (i : Nat) : Prop extends Cached s ip i where
  valid : (s.icache ip).valid = true
  type : (s.dinode i).type ≠ 0
  file : (s.dinode i).type ≠ T_DEV
  owned : Owned s.disk s.dinode

theorem Ready.din_eq (h : Ready s ip i) : (s.icache ip).din = s.dinode i := by
  rw [h.dinode_eq, if_pos h.valid]

/-- The ranges that `writei` refuses. -/
def Refused (f : Node) (off n : Nat) : Prop := f.size < off ∨ 2 ^ 32 ≤ off + n ∨ MAXFILE * BSIZE < off + n

instance (f : Node) (off n : Nat) : Decidable (Refused f off n) := inferInstanceAs (Decidable (_ ∨ _ ∨ _))

theorem writei_refused (h : Ready s ip i) {src : List UInt8} (hoff : off < 2 ^ 32) (hsrc : src.length < 2 ^ 32)
    (href : Refused (s.node i) off src.length) : (writei ip src off).run s = .ok none s := by
  have href : (s.dinode i).size < off ∨ 2 ^ 32 ≤ off + src.length ∨ 71680 < off + src.length := href
  rw [writei, readInode_bind, h.din_eq]
  simp only [u32]
  rw [if_neg h.file]
  by_cases hfirst : off > (s.dinode i).size ∨ (off + src.length) % 2 ^ 32 < off
  · rw [if_pos hfirst]
    rfl
  · have hlarge : (off + src.length) % 2 ^ 32 > MAXFILE * BSIZE := by
      simp only [MAXFILE, NDIRECT, NINDIRECT, BSIZE]
      omega
    rw [if_neg hfirst, if_pos hlarge]
    rfl

theorem iupdate_run (hout : 0 < s.outstanding) (hlen : s.lh.length < LOGSIZE - 1) :
    (iupdate ip).run s = .ok ()
      { s with
        disk := writeDinode s.disk (s.icache ip).inum (s.icache ip).din
        lh := absorb s.lh (IBLOCK (s.icache ip).inum) } := by
  rw [iupdate, readInode_bind, ← bind_pure (log_write _)]
  exact setDisk_bind.trans (log_write_bind (by exact hout) (by exact hlen))

/-- The part of `writei` behind its tests. -/
theorem writei_accepted (h : Ready s ip i) {src : List UInt8} (hacc : ¬ Refused (s.node i) off src.length) :
    (writei ip src off).run s = ((do
      writeLoop ip src.length off src
      if src.length > 0 ∧ off + src.length > (s.dinode i).size then
        updateDin ip fun d => { d with size := off + src.length }
        iupdate ip
      return some src.length : FsM (Option Nat))).run s := by
  have hacc : ¬ ((s.dinode i).size < off ∨ 2 ^ 32 ≤ off + src.length ∨ 71680 < off + src.length) := hacc
  have hfirst : ¬ (off > (s.dinode i).size ∨ u32 (off + src.length) < off) := by
    simp only [u32]
    omega
  have hsecond : ¬ u32 (off + src.length) > MAXFILE * BSIZE := by
    simp only [u32, MAXFILE, NDIRECT, NINDIRECT, BSIZE]
    omega
  rw [writei, readInode_bind, h.din_eq]
  simp only []
  rw [if_neg h.file, if_neg hfirst, if_neg hsecond]

/-- `writei` returns -1 from its tests only. -/
theorem writei_none_iff (h : Ready s ip i) {src : List UInt8} (hoff : off < 2 ^ 32) (hsrc : src.length < 2 ^ 32) :
    (writei ip src off).run s = .ok none s ↔ Refused (s.node i) off src.length := by
  refine ⟨fun hnone => by_contra fun hacc => ?_, writei_refused h hoff hsrc⟩
  rw [writei_accepted h hacc] at hnone
  obtain ⟨-, t, -, hrest⟩ := bind_eq_ok_iff.1 hnone
  split at hrest
  · obtain ⟨-, t', -, hupdate⟩ := bind_eq_ok_iff.1 hrest
    obtain ⟨u, t'', -, hend⟩ := (bind_eq_ok_iff (x := iupdate ip)).1 hupdate
    cases hend
  · cases hrest

theorem writei_run (h : Ready s ip i) {src : List UInt8} (hroom : Room s.disk (s.dinode i) N)
    (hfits : Fits s (s.dinode i) N) (hacc : ¬ Refused (s.node i) off src.length) (hN : slots off src.length ⊆ N) :
    ∃ m' d' l', (writei ip src off).run s = .ok (some src.length) (grownState s ip m' d' l') ∧
      Rewritten s i N (grownState s ip m' d' l') ∧ d'.node m' = (s.node i).write off src ∧
      ∀ bn ∈ touched off src.length, d'.block m' bn ≠ 0 := by
  have hle : ¬ ((s.dinode i).size < off ∨ 2 ^ 32 ≤ off + src.length ∨ 71680 < off + src.length) := hacc
  obtain ⟨m₁, d₁, l₁, hrun, hgrown, hbyte, hpresent⟩ := writeLoop_run h.owned h.lt h.din_eq h.type hroom hfits
    (Nat.le_refl src.length) (by simp only [MAXFILE, NDIRECT, NINDIRECT, BSIZE]; omega) hN
  rw [writei_accepted h hacc, bind_ok hrun]
  by_cases hgrow : src.length > 0 ∧ off + src.length > (s.dinode i).size
  · obtain ⟨d₂, hd₂⟩ : ∃ d₂, d₂ = { d₁ with size := off + src.length } := ⟨_, rfl⟩
    have hun : Untouched m₁ (writeDinode m₁ i d₂) d₁ := by
      have hblocks := hgrown.owned.blocks.untouched (fun c hc => writeDinode_sameBlock m₁ d₂ h.lt hc.1) h.lt
        (hgrown.type_ne_zero h.type)
      rwa [Function.update_self] at hblocks
    have haddrs : d₂.addrs = d₁.addrs := by rw [hd₂]
    have hlt : l₁.length < LOGSIZE - 1 := (show Fits (grownState s ip _ _ _) _ _ from hgrown.fits hfits).length_lt
    refine ⟨writeDinode m₁ i d₂, d₂, absorb l₁ (IBLOCK i), ?_, ?_, ?_, ?_⟩
    · rw [if_pos hgrow]
      refine updateDin_bind.trans ((bind_ok (iupdate_run (by exact hfits.1) (by exact hlt))).trans ?_)
      simp only [grownState, Function.update_self, Function.update_idem, h.inum, hd₂]
      rfl
    · exact h.rewritten h.valid h.type hgrown (fun b hb => writeDinode_sameBlock m₁ d₂ h.lt hb)
        (fun b => inUse_writeDinode m₁ d₂ h.lt) (fun j hj hne => readDinode_writeDinode_ne hne) (by simp [hd₂])
    · refine Dinode.node_write (by omega) ?_ ?_
      · rw [hd₂, hgrown.fields, Nat.max_eq_right (by omega)]
      · rw [← hbyte]
        funext o
        rw [← hun.byte_eq]
        simp only [Dinode.byte, Dinode.block_congr haddrs]
    · intro bn hbn
      rw [Dinode.block_congr haddrs, hun.block_eq]
      exact hpresent bn hbn
  · refine ⟨m₁, d₁, l₁, ?_, ?_, ?_, hpresent⟩
    · rw [if_neg hgrow]
      rfl
    · exact h.rewritten h.valid h.type hgrown (fun b _ => SameBlock.refl m₁ b) (fun _ => rfl) (fun _ _ _ => rfl) ⟨rfl, rfl⟩
    · refine Dinode.node_write (by omega) ?_ hbyte
      rw [Nat.max_eq_left (by omega)]
      exact hgrown.fields

theorem readi_run (h : Ready s ip i) {n : Nat} (hroom : Room s.disk (s.dinode i) N)
    (hout : (∃ r ∈ N, (s.dinode i).ref s.disk r = 0) → Fits s (s.dinode i) N) (hoff : off ≤ (s.node i).size)
    (hn : off + n < 2 ^ 32) (hmax : min (off + n) (s.node i).size ≤ MAXFILE * BSIZE)
    (hN : slots off (min n ((s.node i).size - off)) ⊆ N) :
    ∃ t, (readi ip off n).run s = .ok (some ((s.node i).read off n)) t := by
  have hoff : off ≤ (s.dinode i).size := hoff
  have hmax : min (off + n) (s.dinode i).size ≤ MAXFILE * BSIZE := hmax
  have hu : u32 (off + n) = off + n := Nat.mod_eq_of_lt hn
  have hcount : (if u32 (off + n) > (s.dinode i).size then (s.dinode i).size - off else n) =
      min n ((s.dinode i).size - off) := by
    rw [hu]
    split <;> omega
  obtain ⟨m', d', l', hrun, -, -⟩ := readLoop_run h.owned h.lt h.din_eq h.type hroom hout (Nat.le_refl _) (by omega) hN
  refine ⟨grownState s ip m' d' l', ?_⟩
  have hfirst : ¬ (off > (s.dinode i).size ∨ u32 (off + n) < off) := by omega
  have hread : slice ((s.dinode i).byte s.disk) off (min n ((s.dinode i).size - off)) = (s.node i).read off n := by
    refine slice_congr fun k hk => (if_pos ?_).symm
    omega
  rw [readi, readInode_bind, h.din_eq]
  simp only [hcount]
  rw [if_neg h.file, if_neg hfirst, ← hread]
  exact bind_ok hrun

theorem Ready.grown {m' : Mem} {d' : Dinode} {l' : List Nat} {src : List UInt8} (h : Ready s ip i)
    (hrew : Rewritten s i N (grownState s ip m' d' l')) (hnode : d'.node m' = (s.node i).write off src) :
    Ready (grownState s ip m' d' l') ip i := by
  have htype : d'.type = (s.dinode i).type := congrArg Node.type hnode
  refine ⟨h.toCached.grown m' d' l', (grownState_key s ip ip m' d' l').2.1.trans h.valid, ?_, ?_, hrew.owned⟩ <;>
    rw [h.dinode_grown h.valid, htype]
  · exact h.type
  · exact h.file

/-- Reading does not depend on the transactions that are open and what they have logged. -/
theorem Ready.log (h : Ready s ip i) (k : Nat) (l : List Nat) : Ready { s with outstanding := k, lh := l } ip i :=
  ⟨⟨h.ref, h.inum, h.lt, h.unique⟩, h.valid, h.type, h.file, h.owned⟩

/-- The file has no holes: every block below its size is there. -/
def Dense (m : Mem) (d : Dinode) : Prop := ∀ bn < MAXFILE, bn * BSIZE < d.size → d.block m bn ≠ 0

/-- After a write the blocks of a range are there if the file had no holes or the range has been written. -/
theorem Rewritten.block_ne_zero {s' : Fs} {off' n n' bn : Nat} (h : Rewritten s i N s') (hoff : off ≤ (s.node i).size)
    (hwritten : ∀ bn ∈ touched off n, (s'.dinode i).block s'.disk bn ≠ 0)
    (hrange : Dense s.disk (s.dinode i) ∨ off ≤ off' ∧ off' + n' ≤ off + n)
    (hend : off' + n' ≤ max (s.node i).size (off + n)) (hbn : bn ∈ touched off' n') :
    (s'.dinode i).block s'.disk bn ≠ 0 := by
  by_cases hin : bn ∈ touched off n
  · exact hwritten bn hin
  · rw [mem_touched] at hin hbn
    simp only [BSIZE] at hbn hin
    obtain hdense | hrange := hrange
    · have hlt : bn * BSIZE < (s.node i).size := by
        simp only [BSIZE]
        omega
      exact h.keep (slotOf bn) (hdense bn hbn.1 hlt)
    · omega

/-- **Read after write.** `writei` refuses exactly the ranges that start behind the end of the file, wrap around or
exceed the largest file, and then changes nothing. Otherwise, if the blocks of the range fit in the log, it returns `n`,
the file is as the abstract `write` has it, `readi` returns its bytes, and what the users of any other inode see stays
the same. A read needs an open transaction and the log only where the file has holes. -/
theorem writei_then_readi (h : Ready s ip i) {src : List UInt8} (hout : 0 < s.outstanding) (hoff : off < 2 ^ 32)
    (hsrc : src.length < 2 ^ 32)
    (hroom : Room s.disk (s.dinode i) (slots 0 (max (s.node i).size (off + src.length)))) :
    ((writei ip src off).run s = .ok none s ↔ Refused (s.node i) off src.length) ∧
    (¬ Refused (s.node i) off src.length → s.lh.length + (slots off src.length).card + 2 ≤ LOGSIZE - 1 →
      ∃ s', (writei ip src off).run s = .ok (some src.length) s' ∧ s'.node i = (s.node i).write off src ∧
      (∀ k l off' n', off' ≤ (s'.node i).size → off' + n' < 2 ^ 32 →
        min (off' + n') (s'.node i).size ≤ MAXFILE * BSIZE →
        (0 < k ∧ l.length + (slots off' n').card + 2 ≤ LOGSIZE - 1 ∨ Dense s.disk (s.dinode i) ∨
          off ≤ off' ∧ off' + n' ≤ off + src.length) →
        ∃ t, (readi ip off' n').run { s' with outstanding := k, lh := l } = .ok (some ((s'.node i).read off' n')) t) ∧
      (∀ k l, ∃ t, (readi ip off src.length).run { s' with outstanding := k, lh := l } = .ok (some src) t) ∧
      ∀ j < ninode, j ≠ i → s'.dinode j = s.dinode j ∧ ((s.dinode j).type ≠ 0 → s'.node j = s.node j)) := by
  refine ⟨writei_none_iff h hoff hsrc, fun hacc hlog => ?_⟩
  have hsub : slots off src.length ⊆ slots 0 (max (s.node i).size (off + src.length)) :=
    slots_mono (by omega) (by omega)
  obtain ⟨m', d', l', hrun, hrew, hnode, hpresent⟩ := writei_run h (hroom.mono hsub) (fits_of_length hout hlog _) hacc
    (Finset.Subset.refl _)
  have hoffsize : off ≤ (s.node i).size := Nat.le_of_not_lt fun hlt => hacc (.inl hlt)
  have hready := h.grown hrew hnode
  obtain ⟨s', hs'⟩ : ∃ s', s' = grownState s ip m' d' l' := ⟨_, rfl⟩
  rw [← hs'] at hrun hrew hready
  have hdin : s'.dinode i = d' := hs' ▸ h.dinode_grown h.valid
  have hdisk : s'.disk = m' := hs' ▸ rfl
  have hnode' : s'.node i = (s.node i).write off src := by rw [Fs.node, hdin, hdisk, hnode]
  have hsize : (s'.node i).size = max (s.node i).size (off + src.length) := congrArg Node.size hnode'
  rw [← hdin, ← hdisk] at hpresent
  have hread (k : Nat) (l : List Nat) (off' n' : Nat) (hoff' : off' ≤ (s'.node i).size) (hn' : off' + n' < 2 ^ 32)
      (hmax : min (off' + n') (s'.node i).size ≤ MAXFILE * BSIZE)
      (hk : 0 < k ∧ l.length + (slots off' n').card + 2 ≤ LOGSIZE - 1 ∨ Dense s.disk (s.dinode i) ∨
        off ≤ off' ∧ off' + n' ≤ off + src.length) :
      ∃ t, (readi ip off' n').run { s' with outstanding := k, lh := l } = .ok (some ((s'.node i).read off' n')) t := by
    have hend : off' + min n' ((s'.node i).size - off') ≤ off' + n' := by omega
    have hend' : off' + min n' ((s'.node i).size - off') ≤ max (s.node i).size (off + src.length) := by omega
    refine readi_run (hready.log k l) ((hrew.room hsub hroom).mono (slots_mono (Nat.zero_le off') ?_)) ?_ hoff' hn' hmax
      (Finset.Subset.refl _)
    · rw [Nat.zero_add]
      exact hend'
    · rintro ⟨r, hr, h0⟩
      obtain ⟨hk, hlen⟩ := hk.resolve_right fun hk => ref_ne_zero_of_touched (fun bn hbn =>
        hrew.block_ne_zero hoffsize hpresent (hk.imp_right fun hin => ⟨hin.1, hend.trans hin.2⟩) hend' hbn) hr h0
      have hcard := Finset.card_le_card (slots_mono (Nat.le_refl off') hend)
      exact fits_of_length hk (by exact (Nat.add_le_add_right (Nat.add_le_add_left hcard _) 2).trans hlen) _
  refine ⟨s', hrun, hnode', hread, fun k l => ?_, fun j hj hne => ⟨hrew.dinodes j hj hne, fun htype => ?_⟩⟩
  · have hacc' : ¬ ((s.node i).size < off ∨ 2 ^ 32 ≤ off + src.length ∨ MAXFILE * BSIZE < off + src.length) := hacc
    obtain ⟨t, ht⟩ := hread k l off src.length (by omega) (by omega) (by omega)
      (.inr (.inr ⟨Nat.le_refl _, Nat.le_refl _⟩))
    rw [hnode', Node.read_write] at ht
    exact ⟨t, ht⟩
  · rw [Fs.node, hrew.dinodes j hj hne]
    exact (hrew.others j hj hne htype).node_eq

end

/-! ### A file system with one empty file -/

/-- A disk on which no data block is in use and inode 1 is that of an empty file. -/
def emptyDisk : Mem := fun a =>
  if 29696 ≤ a ∧ a < 29703 then 255 else if a = 29703 then 7 else if a = 16448 then 2 else if a = 16454 then 1 else 0

/-- The empty file is open for writing, as file 0. -/
def emptyFs : Fs where
  disk := emptyDisk
  icache x := if x = 0 then ⟨1, 1, false, true, readDinode emptyDisk 1⟩ else ⟨0, 0, false, false, Dinode.cleared 0⟩
  ftable f := if f = 0 then ⟨.FD_INODE, 1, true, true, 0, 0, 0⟩ else ⟨.FD_NONE, 0, false, false, 0, 0, 0⟩
  pages := { free := [], held := [], pipe := fun _ => junk, made := fun _ => 0, freed := fun _ => 0 }
  proc _ := none
  outstanding := 0
  lh := []
  console := []

theorem inUse_of_byte {m : Mem} {b : Nat} (hb : b < FSSIZE) (h : m (29696 + b / 8) = 0) : inUse m b = false := by
  have hb : b < 1000 := hb
  have hbyte : bmapByte b = 29696 + b / 8 := by
    show (b / 4096 + 58) * 512 + b % 4096 / 8 = _
    omega
  simp [inUse, hbyte, h]

theorem emptyDisk_inUse (b : Nat) (hb : b < FSSIZE) : inUse emptyDisk b = decide (b < nmeta) := by
  by_cases hlt : b < 64
  · exact (by decide : ∀ b < 64, inUse emptyDisk b = decide (b < nmeta)) b hlt
  · refine (inUse_of_byte hb ?_).trans (decide_eq_false (show ¬ b < 59 by omega)).symm
    simp only [emptyDisk]
    split_ifs <;> first | rfl | omega

set_option maxRecDepth 10000 in
theorem emptyDisk_free : 280 ≤ freeBlocks emptyDisk := by
  have hcount : freeBlocks emptyDisk = (List.range FSSIZE).countP fun b => !decide (b < nmeta) :=
    List.countP_congr fun b hb => by rw [emptyDisk_inUse b (List.mem_range.1 hb)]
  rw [hcount]
  decide

theorem emptyDisk_addrs {i : Nat} (hi : i < ninode) (k : Fin (NDIRECT + 1)) : (readDinode emptyDisk i).addrs k = 0 := by
  have hi : i < 208 := hi
  have hk : (k : Nat) < 13 := k.isLt
  have hzero (o : Nat) (ho : o < 4) : emptyDisk (dinodeAt i + 12 + 4 * k + o) = 0 := by
    rw [dinodeAt_eq]
    simp only [emptyDisk]
    rw [if_neg (by omega), if_neg (by omega), if_neg (by omega), if_neg (by omega)]
  have h0 := hzero 0 (by omega)
  rw [Nat.add_zero] at h0
  simp [readDinode, load32, h0, hzero 1 (by omega), hzero 2 (by omega), hzero 3 (by omega)]

/-- An inode without addresses has no blocks. -/
theorem Dinode.ref_eq_zero {m : Mem} {d : Dinode} (h : ∀ k, d.addrs k = 0) (r : Slot) : d.ref m r = 0 := by
  cases r with
  | addr k => exact h k
  | entry j => exact if_pos (h _)

/-- A disk on which no data block is in use and no inode has addresses. -/
theorem owned_of_unused {m : Mem} {D : Nat → Dinode} (huse : ∀ b < FSSIZE, inUse m b = decide (b < nmeta))
    (haddrs : ∀ i < ninode, ∀ k, (D i).addrs k = 0) : Owned m D := by
  have hfree (b : Nat) : ¬ usedIn m b := by
    rintro ⟨hlo, hhi, hb⟩
    rw [huse b hhi, decide_eq_true_eq] at hb
    omega
  have hnone (x : Nat × Slot) : blockRef m D x = none := if_neg fun h => h.2.2 (Dinode.ref_eq_zero (haddrs _ h.1) _)
  refine ⟨⟨⟨?_, ?_, fun hb => absurd hb (hfree _)⟩, fun hb => absurd hb (hfree _)⟩, ?_⟩
  · intro x b hx
    rw [hnone] at hx
    cases hx
  · intro x y b hx
    rw [hnone] at hx
    cases hx
  · intro b hb
    rw [huse b (Nat.lt_trans hb (by decide)), decide_eq_true hb]

theorem emptyDisk_owned : Owned emptyDisk (readDinode emptyDisk) :=
  owned_of_unused emptyDisk_inUse fun _ hi => emptyDisk_addrs hi

theorem emptyFs_cached : Cached emptyFs 0 1 := by
  refine ⟨by decide, rfl, by decide, fun x hx _ => by_contra fun hne => ?_⟩
  simp [emptyFs, hne] at hx

theorem emptyFs_dinode : emptyFs.dinode = readDinode emptyDisk := by
  funext j
  by_cases hj : j = 1
  · rw [hj, emptyFs_cached.dinode_eq]
    exact if_pos rfl
  · rw [Fs.dinode]
    split
    next x hx =>
      have hp := List.find?_some hx
      simp only [decide_eq_true_eq] at hp
      obtain rfl : x = 0 := by_contra fun hne => by simp [emptyFs, hne] at hp
      exact absurd hp.2.2.symm hj
    next => rfl

theorem emptyFs_ready : Ready emptyFs 0 1 := by
  have htype : (readDinode emptyDisk 1).type = T_FILE := by decide
  refine ⟨emptyFs_cached, rfl, ?_, ?_, ?_⟩
  · rw [emptyFs_dinode, htype]
    decide
  · rw [emptyFs_dinode, htype]
    decide
  · rw [emptyFs_dinode]
    exact emptyDisk_owned

theorem touched_card_le (off n : Nat) : (touched off n).card ≤ n / BSIZE + 2 := by
  have hsub : touched off n ⊆ Finset.Ico (off / BSIZE) (off / BSIZE + (n / BSIZE + 2)) := fun bn hbn => by
    rw [mem_touched] at hbn
    rw [Finset.mem_Ico]
    simp only [BSIZE] at hbn ⊢
    omega
  exact (Finset.card_le_card hsub).trans (by rw [Nat.card_Ico, Nat.add_sub_cancel_left])

theorem slots_card_le (off n : Nat) : (slots off n).card ≤ (n / BSIZE + 2) * 2 :=
  (Finset.card_biUnion_le_card_mul _ _ 2 fun bn _ => path_card_le bn).trans
    (Nat.mul_le_mul_right 2 (touched_card_le off n))

theorem slots_card_le_max (off n : Nat) : (slots off n).card ≤ 280 := by
  have hcard : (touched off n).card ≤ 140 := (Finset.card_filter_le _ _).trans (Finset.card_range _).le
  exact (Finset.card_biUnion_le_card_mul _ _ 2 fun bn _ => path_card_le bn).trans (by omega)

theorem emptyDisk_room (d : Dinode) (off n : Nat) : Room emptyDisk d (slots off n) := by
  exact (Finset.card_filter_le _ _).trans ((slots_card_le_max off n).trans emptyDisk_free)

theorem emptyFs_size : (emptyFs.node 1).size = 0 := by
  rw [Fs.node, emptyFs_dinode]
  decide

/-- The blocks of the largest write that an empty log can take. -/
theorem slots_card_largest : (slots 0 13312).card = 27 := by decide

/-- 26 blocks written to the empty file are there afterwards. -/
theorem writei_then_readi_empty : ∃ s',
    (writei 0 (List.replicate 13312 1) 0).run { emptyFs with outstanding := 1 } = .ok (some 13312) s' ∧
    ∃ t, (readi 0 0 13312).run { s' with outstanding := 0, lh := [] } = .ok (some (List.replicate 13312 1)) t := by
  have hlen : (List.replicate 13312 (1 : UInt8)).length = 13312 := List.length_replicate
  have hacc : ¬ Refused (emptyFs.node 1) 0 (List.replicate 13312 (1 : UInt8)).length := by
    rw [Refused, emptyFs_size, hlen]
    decide
  have hspec := writei_then_readi (emptyFs_ready.log 1 []) (by decide) (show 0 < 2 ^ 32 by decide)
    (by rw [hlen]; decide) (emptyDisk_room _ _ _)
  obtain ⟨s', hrun, -, -, hread, -⟩ := hspec.2 hacc (by rw [hlen, slots_card_largest]; decide)
  rw [hlen] at hrun hread
  exact ⟨s', hrun, hread 0 []⟩

/-- What `writei` stops with. -/
def stop {α : Type} : EStateM.Result String Fs α → Option String
  | .ok .. => none
  | .error e _ => some e

/-- One byte more does not fit in the log, although the file and the disk have room for it. -/
theorem writei_too_big : Ready { emptyFs with outstanding := 1 } 0 1 ∧
    Room emptyFs.disk (emptyFs.dinode 1) (slots 0 13313) ∧ ¬ Refused (emptyFs.node 1) 0 13313 ∧
    stop ((writei 0 (List.replicate 13313 1) 0).run { emptyFs with outstanding := 1 }) =
      some "too big a transaction" := by
  refine ⟨emptyFs_ready.log 1 [], emptyDisk_room _ _ _, ?_, by decide +kernel⟩
  rw [Refused, emptyFs_size]
  decide

end xv6.fs
