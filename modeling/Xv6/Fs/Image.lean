import Xv6.Fs.Bmap
import Xv6.Fs.Mkfs

open bytes owner outcome

namespace xv6.fs.mkfs

/-- The data blocks that have been given out. -/
def Taken (s : Img) (b : Nat) : Prop := nmeta ≤ b ∧ b < s.freeblock

/-- The image while `mkfs` works on it, with `D` the inodes, one of which may
still be in memory. The first `N i` blocks of inode `i` are there and no others;
the blocks that have not been given out are zero, and so are the free inodes. -/
structure Image (s : Img) (D : Nat → Dinode) (N : Nat → Nat) : Prop where
  blocks : Blocks s.disk D (Taken s)
  first : nmeta ≤ s.freeblock
  zero : ∀ b, s.freeblock ≤ b → ∀ o < BSIZE, s.disk (b * BSIZE + o) = 0
  free : ∀ i, s.freeinode ≤ i → i < ninode → (D i).type = 0
  clear : ∀ i < ninode, (D i).type = 0 → D i = Dinode.cleared 0
  fits : ∀ i < ninode, (D i).Fits
  filled : ∀ i < ninode, (D i).type ≠ 0 → ∀ k < MAXFILE, (D i).block s.disk k ≠ 0 ↔ k < N i

variable {s s' : Img} {D D' : Nat → Dinode} {N : Nat → Nat} {i : Nat}

theorem indirect_of_zero {m : Mem} {b j : Nat} (h : ∀ o < BSIZE, m (b * BSIZE + o) = 0) (hj : j < NINDIRECT) :
    indirect m b j = 0 := by
  have hj : j < 128 := hj
  have hzero : ∀ k < 4, m (b * BSIZE + 4 * j + k) = 0 := fun k hk => by
    rw [Nat.add_assoc]
    exact h _ (by simp only [BSIZE]; omega)
  have h0 := hzero 0 (by omega)
  rw [Nat.add_zero] at h0
  simp [indirect, load32, h0, hzero 1, hzero 2, hzero 3]

/-- Only the inodes in the inode blocks matter. -/
theorem Image.congr {N' : Nat → Nat} (h : Image s D N) (hN : ∀ i < ninode, N' i = N i) : Image s D N' :=
  { h with filled := fun i hi ht k hk => by rw [hN i hi]; exact h.filled i hi ht k hk }

/-- The next block goes into an empty slot of inode `i`. -/
theorem Image.alloc (h : Image s D N) (hi : i < ninode) (htype : (D i).type ≠ 0) {r : Slot} {d : Dinode} {m' : Mem}
    {n : Nat} (hr : (D i).ref s.disk r = 0) (hb : s.freeblock < FSSIZE) (hd : d.type = (D i).type) (hfits : d.Fits)
    (href : d.ref m' = Function.update ((D i).ref s.disk) r s.freeblock)
    (hothers : ∀ j < ninode, j ≠ i → (D j).type ≠ 0 → Untouched s.disk m' (D j))
    (hzero : ∀ b, s.freeblock < b → SameBlock s.disk m' b)
    (hn : ∀ k < MAXFILE, Function.update ((D i).ref s.disk) r s.freeblock (slotOf k) ≠ 0 ↔ k < n) :
    Image { s with disk := m', freeblock := s.freeblock + 1 } (Function.update D i d) (Function.update N i n) := by
  have hfirst := h.first
  refine ⟨?_, by simp only; omega, ?_, ?_, ?_, ?_, ?_⟩
  · refine h.blocks.alloc hi htype hr (fun hc => absurd hc.2 (Nat.lt_irrefl _)) ⟨hfirst, hb⟩ hd href hothers ?_
    intro c
    simp only [Taken]
    omega
  · intro b hlo o ho
    have hlo : s.freeblock + 1 ≤ b := hlo
    exact ((hzero b (by omega)).apply ho).trans (h.zero b (by omega) o ho)
  · intro j hlo hj
    by_cases hji : j = i
    · subst hji
      exact absurd (h.free j hlo hj) htype
    · rw [Function.update_of_ne hji]
      exact h.free j hlo hj
  · intro j hj ht
    by_cases hji : j = i
    · subst hji
      rw [Function.update_self, hd] at ht
      exact absurd ht htype
    · rw [Function.update_of_ne hji] at ht ⊢
      exact h.clear j hj ht
  · intro j hj
    by_cases hji : j = i
    · subst hji
      rwa [Function.update_self]
    · rw [Function.update_of_ne hji]
      exact h.fits j hj
  · intro j hj ht k hk
    by_cases hji : j = i
    · subst hji
      simp only [Function.update_self, Dinode.block, href]
      exact hn k hk
    · simp only [Function.update_of_ne hji] at ht ⊢
      rw [Dinode.block, (hothers j hj hji ht).ref_eq]
      exact h.filled j hj ht k hk

/-- A change of the bytes of a data block of a file. -/
theorem Image.write (h : Image s D N) {m' : Mem} {b k : Nat} (hi : i < ninode) (htype : (D i).type ≠ 0)
    (hk : (D i).block s.disk k = b) (hb : b ≠ 0) (hm : InBlock s.disk m' b) : Image { s with disk := m' } D N := by
  have hne : (D i).ref s.disk (slotOf k) ≠ 0 := fun h0 => hb (hk.symm.trans h0)
  have href : ∀ j < ninode, (D j).type ≠ 0 → (D j).ref m' = (D j).ref s.disk := by
    intro j hj ht
    funext r
    cases r with
    | addr k => rfl
    | entry e =>
      simp only [Dinode.ref]
      by_cases hind : (D j).ind = 0
      · rw [if_pos hind, if_pos hind]
      · have hother : (D j).ind ≠ b := by
          intro heq
          have hslot := h.blocks.ref_inj (slotOf k) (.addr (Fin.last NDIRECT)) hi hj htype ht hne
            (hk.trans heq.symm)
          exact slotOf_ne_ind k hslot.2
        rw [if_neg hind, if_neg hind, (hm.other _ hother).indirect_eq e.isLt]
  have htaken : b < s.freeblock := hk ▸ (h.blocks.used_ref hi htype hne).2
  refine ⟨h.blocks.congr (fun _ _ => rfl) href fun _ => Iff.rfl, h.first, fun c hc o ho => ?_, h.free, h.clear, h.fits, ?_⟩
  · have hc : s.freeblock ≤ c := hc
    exact ((hm.other c (by omega)).apply ho).trans (h.zero c hc o ho)
  · intro j hj ht k hk
    rw [Dinode.block, href j hj ht]
    exact h.filled j hj ht k hk

@[simp] theorem ensures_newblock {E : String → Prop} {Q : Nat → Img → Prop} :
    Ensures E newblock s Q ↔ Q s.freeblock { s with freeblock := s.freeblock + 1 } := Iff.rfl

@[simp] theorem ensures_setDisk {E : String → Prop} {f : Mem → Mem} {Q : Unit → Img → Prop} :
    Ensures E (setDisk f) s Q ↔ Q () { s with disk := f s.disk } := Iff.rfl

/-- Failures of `mkfs` are left aside: what is shown is what holds when it goes on. -/
abbrev Allowed (_ : String) : Prop := True

theorem ensures_rsect {sec : Nat} {Q : Unit → Img → Prop} (h : sec < FSSIZE → Q () s) :
    Ensures Allowed (rsect sec) s Q := by
  unfold rsect
  by_cases hsec : sec ≥ FSSIZE
  · rw [if_pos hsec]
    trivial
  · rw [if_neg hsec]
    exact h (Nat.lt_of_not_le hsec)

/-- The result of `iappend.block`: the first `fbn + 1` blocks are there, the last at address `x`. -/
structure Extended (s : Img) (D : Nat → Dinode) (N : Nat → Nat) (i fbn : Nat) (d : Dinode) (x : Nat) (s' : Img) :
    Prop where
  image : Image s' (Function.update D i d) (Function.update N i (fbn + 1))
  block : d.block s'.disk fbn = x
  inodes : SameInodes s.disk s'.disk
  freeinode : s'.freeinode = s.freeinode
  fields : d = { D i with addrs := d.addrs }

theorem Fits.setAddr {d : Dinode} (h : d.Fits) (k : Fin (NDIRECT + 1)) {b : Nat} (hb : b < FSSIZE) :
    Dinode.Fits { d with addrs := Function.update d.addrs k b } := by
  refine { h with addrs := fun k' => ?_ }
  by_cases hk : k' = k
  · subst hk
    simp only [Function.update_self]
    exact Nat.lt_trans hb (by decide)
  · simp only [Function.update_of_ne hk]
    exact h.addrs k'

section
variable (h : Image s D N) (hi : i < ninode) (htype : (D i).type ≠ 0)
include h hi htype

/-- A new address in an empty slot of `addrs`. -/
theorem Image.setAddr {k : Fin (NDIRECT + 1)} (hk : (D i).addrs k = 0) (hb : s.freeblock < FSSIZE) {n : Nat}
    (hn : ∀ k' < MAXFILE, Function.update ((D i).ref s.disk) (.addr k) s.freeblock (slotOf k') ≠ 0 ↔ k' < n) :
    Image { s with freeblock := s.freeblock + 1 }
      (Function.update D i { D i with addrs := Function.update (D i).addrs k s.freeblock }) (Function.update N i n) := by
  have hb0 : s.freeblock ≠ 0 := ne_zero_of_nmeta_le h.first
  refine h.alloc hi htype (r := .addr k) hk hb rfl (Fits.setAddr (h.fits i hi) k hb) ?_ (fun j _ _ _ => Untouched.refl s.disk (D j))
    (fun b _ => SameBlock.refl s.disk b) hn
  exact (Untouched.refl s.disk (D i)).ref_set_addr hk hb0 fun j hj => indirect_of_zero (h.zero _ (Nat.le_refl _)) hj

theorem block_direct {fbn : Nat} (hlt : fbn < NDIRECT) (hN : N i = fbn ∨ N i = fbn + 1) :
    Ensures Allowed (iappend.block (D i) fbn) s fun r s' => r.2 < FSSIZE → Extended s D N i fbn r.1 r.2 s' := by
  have hmax : fbn < MAXFILE := Nat.lt_of_lt_of_le hlt (by decide)
  have hslot := slotOf_direct hlt
  have hfill := h.filled i hi htype
  have hblock : (D i).block s.disk fbn = (D i).addrs ⟨fbn, Nat.lt_succ_of_lt hlt⟩ := by rw [Dinode.block, hslot]; rfl
  unfold iappend.block
  rw [dif_pos hlt]
  by_cases hzero : (D i).addrs ⟨fbn, Nat.lt_succ_of_lt hlt⟩ = 0
  · have hn : N i = fbn := by
      rcases hN with hN | hN
      · exact hN
      · exact absurd (hblock.trans hzero) ((hfill fbn hmax).2 (by omega))
    rw [if_pos hzero, ensures_bind, ensures_newblock]
    intro hb
    refine ⟨h.setAddr hi htype hzero hb fun k hk => ?_, ?_, SameInodes.refl _, rfl, rfl⟩
    · by_cases hkf : k = fbn
      · subst hkf
        rw [hslot, Function.update_self]
        exact ⟨fun _ => Nat.lt_succ_self _, fun _ => ne_zero_of_nmeta_le h.first⟩
      · have hne : slotOf k ≠ .addr ⟨fbn, Nat.lt_succ_of_lt hlt⟩ := fun heq => hkf (slotOf_inj hk hmax (heq.trans hslot.symm))
        rw [Function.update_of_ne hne]
        exact (hfill k hk).trans (by omega)
    · rw [Dinode.block, hslot]
      exact Function.update_self ..
  · rw [if_neg hzero]
    intro _
    have hn : N i = fbn + 1 := by
      have hlt' := (hfill fbn hmax).1 (by rwa [hblock])
      omega
    refine ⟨?_, hblock, SameInodes.refl _, rfl, rfl⟩
    rw [← hn, Function.update_eq_self, Function.update_eq_self]
    exact h

/-- A new address in an empty entry of the indirect block. -/
theorem Image.setEntry {j : Fin NINDIRECT} (hind : (D i).ind ≠ 0) (hj : indirect s.disk (D i).ind j = 0)
    (hb : s.freeblock < FSSIZE) {n : Nat}
    (hn : ∀ k < MAXFILE, Function.update ((D i).ref s.disk) (.entry j) s.freeblock (slotOf k) ≠ 0 ↔ k < n) :
    Image
      { s with disk := store32 s.disk ((D i).ind * BSIZE + 4 * j) s.freeblock, freeblock := s.freeblock + 1 }
      D (Function.update N i n) := by
  obtain ⟨hmeta, htaken⟩ := h.blocks.used_ref hi htype (r := .addr (Fin.last NDIRECT)) hind
  have hm := store32_inBlock s.disk s.freeblock hmeta j.isLt
  have hentry : ∀ j' : Fin NINDIRECT, indirect (store32 s.disk ((D i).ind * BSIZE + 4 * j) s.freeblock) (D i).ind j' =
      if j' = j then s.freeblock else indirect s.disk (D i).ind j' := by
    intro j'
    by_cases hjj : j' = j
    · subst hjj
      rw [if_pos rfl]
      exact load32_store32_same _ _ (Nat.lt_trans hb (by decide))
    · rw [if_neg hjj]
      have hval : (j' : Nat) ≠ j := fun hv => hjj (Fin.ext hv)
      exact load32_store32_ne _ (by omega)
  have halloc := h.alloc hi htype (r := .entry j) (d := D i) (n := n) (by simp [Dinode.ref, hind, hj]) hb rfl
    (h.fits i hi) (Dinode.ref_set_entry hind hentry) ?_ ?_ hn
  · rwa [Function.update_eq_self] at halloc
  · intro j' hj' hne ht r hr
    refine hm.other _ fun heq => hne ?_
    exact (h.blocks.ref_inj r (.addr (Fin.last NDIRECT)) hj' hi ht htype hr heq).1
  · intro b hlt
    exact hm.other b (Nat.ne_of_gt (Nat.lt_trans htaken hlt))

end

/-- The part of `iappend.block` that works on the indirect block. -/
theorem block_entry (h : (D i).ind < FSSIZE → Image s D N) (hi : i < ninode) (htype : (D i).type ≠ 0)
    (hind : (D i).ind ≠ 0) {fbn : Nat} (hge : ¬ fbn < NDIRECT) (hj : fbn - NDIRECT < NINDIRECT)
    (hN : N i = fbn ∨ N i = fbn + 1) :
    Ensures Allowed (do
        rsect (D i).ind
        if indirect (← get).disk (D i).ind (fbn - NDIRECT) = 0 then
          let x ← newblock
          setDisk fun m => store32 m ((D i).ind * BSIZE + 4 * (fbn - NDIRECT)) x
          return (D i, x)
        else
          return (D i, indirect (← get).disk (D i).ind (fbn - NDIRECT))) s
      fun r s' => r.2 < FSSIZE → Extended s D N i fbn r.1 r.2 s' := by
  have hslot := slotOf_indirect hge hj
  have hmax : fbn < MAXFILE := by
    have hj : fbn - 12 < 128 := hj
    show fbn < 140
    omega
  refine ensures_bind.2 (ensures_rsect fun hlt => ?_)
  have him := h hlt
  have hfill := him.filled i hi htype
  have hblock : (D i).block s.disk fbn = indirect s.disk (D i).ind (fbn - NDIRECT) := by
    rw [Dinode.block, hslot]
    exact if_neg hind
  rw [ensures_bind, ensures_get]
  by_cases hzero : indirect s.disk (D i).ind (fbn - NDIRECT) = 0
  · have hn : N i = fbn := by
      rcases hN with hN | hN
      · exact hN
      · exact absurd (hblock.trans hzero) ((hfill fbn hmax).2 (by omega))
    rw [if_pos hzero, ensures_bind, ensures_newblock, ensures_bind, ensures_setDisk]
    intro hb
    have him' := him.setEntry hi htype (j := ⟨fbn - NDIRECT, hj⟩) (n := fbn + 1) hind hzero hb fun k hk => by
      by_cases hkf : k = fbn
      · subst hkf
        rw [hslot, Function.update_self]
        exact ⟨fun _ => Nat.lt_succ_self _, fun _ => ne_zero_of_nmeta_le him.first⟩
      · have hne : slotOf k ≠ .entry ⟨fbn - NDIRECT, hj⟩ := fun heq => hkf (slotOf_inj hk hmax (heq.trans hslot.symm))
        rw [Function.update_of_ne hne]
        exact (hfill k hk).trans (by omega)
    have hmeta := (him.blocks.used_ref hi htype (r := .addr (Fin.last NDIRECT)) hind).1
    refine ⟨by rwa [Function.update_eq_self], ?_, (store32_inBlock s.disk _ hmeta hj).inodes, rfl, rfl⟩
    rw [Dinode.block, hslot]
    exact (if_neg hind).trans (load32_store32_same _ _ (Nat.lt_trans hb (by decide)))
  · rw [if_neg hzero]
    intro _
    have hn : N i = fbn + 1 := by
      have hlt' := (hfill fbn hmax).1 (by rwa [hblock])
      omega
    refine ⟨?_, hblock, SameInodes.refl _, rfl, rfl⟩
    rw [← hn, Function.update_eq_self, Function.update_eq_self]
    exact him

theorem block_indirect (h : Image s D N) (hi : i < ninode) (htype : (D i).type ≠ 0) {fbn : Nat}
    (hge : ¬ fbn < NDIRECT) (hmax : fbn < MAXFILE) (hN : N i = fbn ∨ N i = fbn + 1) :
    Ensures Allowed (iappend.block (D i) fbn) s fun r s' => r.2 < FSSIZE → Extended s D N i fbn r.1 r.2 s' := by
  have hj : fbn - NDIRECT < NINDIRECT := by
    have hmax : fbn < 140 := hmax
    simp only [NDIRECT, NINDIRECT] at hge ⊢
    omega
  unfold iappend.block
  rw [dif_neg hge]
  by_cases hind : (D i).addrs (Fin.last NDIRECT) = 0
  · -- the new indirect block has no entries, so the file has as many blocks as before
    simp only [if_pos hind]
    rw [ensures_bind, ensures_newblock]
    set d : Dinode := { D i with addrs := Function.update (D i).addrs (Fin.last NDIRECT) s.freeblock } with hd
    have hself : Function.update D i d i = d := Function.update_self ..
    have hdind : d.ind = s.freeblock := by simp only [hd, Dinode.ind, Function.update_self]
    have hentry := block_entry (s := { s with freeblock := s.freeblock + 1 }) (D := Function.update D i d) (N := N) ?_ hi
      (by rw [hself]; exact htype) (by rw [hself, hdind]; exact ne_zero_of_nmeta_le h.first) hge hj hN
    · rw [hself] at hentry
      refine hentry.imp fun r s' hr hx => ?_
      obtain ⟨him, hblock, hinodes, hfree, hfields⟩ := hr hx
      rw [Function.update_idem] at him
      exact ⟨him, hblock, hinodes, hfree, by rw [hfields, hself]⟩
    · intro hb
      rw [hself, hdind] at hb
      have him := h.setAddr hi htype hind hb (n := N i) fun k hk => by
        rw [Function.update_of_ne (slotOf_ne_ind k)]
        exact h.filled i hi htype k hk
      rwa [Function.update_eq_self] at him
  · simp only [if_neg hind]
    exact block_entry (fun _ => h) hi htype hind hge hj hN

theorem block_spec (h : Image s D N) (hi : i < ninode) (htype : (D i).type ≠ 0) {fbn : Nat} (hmax : fbn < MAXFILE)
    (hN : N i = fbn ∨ N i = fbn + 1) :
    Ensures Allowed (iappend.block (D i) fbn) s fun r s' => r.2 < FSSIZE → Extended s D N i fbn r.1 r.2 s' := by
  by_cases hlt : fbn < NDIRECT
  · exact block_direct h hi htype hlt hN
  · exact block_indirect h hi htype hlt hmax hN

/-- The number of blocks that a file of `n` bytes needs. -/
def nblocksFor (n : Nat) : Nat := (n + (BSIZE - 1)) / BSIZE

/-- The image between two operations: the inodes are on disk, and every file
has the blocks that its size needs. -/
structure Rest (s : Img) : Prop where
  image : Image s (readDinode s.disk) fun i => nblocksFor (readDinode s.disk i).size
  small : ∀ i < ninode, (readDinode s.disk i).type ≠ 0 → (readDinode s.disk i).size ≤ MAXFILE * BSIZE

/-- The result of the loop of `iappend` for `n` bytes. -/
structure Appended (s : Img) (D : Nat → Dinode) (N : Nat → Nat) (i off n : Nat) (d : Dinode) (off' : Nat) (s' : Img) :
    Prop where
  image : Image s' (Function.update D i d) (Function.update N i (nblocksFor off'))
  off_eq : off' = off + n
  small : off' ≤ MAXFILE * BSIZE
  inodes : SameInodes s.disk s'.disk
  freeinode : s'.freeinode = s.freeinode
  fields : d = { D i with addrs := d.addrs }

theorem iappend_loop {fuel off : Nat} {p : List UInt8} (h : Image s D N) (hi : i < ninode) (htype : (D i).type ≠ 0)
    (hN : N i = nblocksFor off) (hoff : off ≤ MAXFILE * BSIZE) (hfuel : p.length ≤ fuel) :
    Ensures Allowed (iappend.loop fuel (D i) off p) s fun r s' => Appended s D N i off p.length r.1 r.2 s' := by
  induction fuel generalizing s D N off p with
  | zero =>
    obtain rfl : p = [] := List.length_eq_zero_iff.1 (Nat.le_zero.1 hfuel)
    refine ⟨?_, rfl, hoff, SameInodes.refl _, rfl, rfl⟩
    rw [← hN, Function.update_eq_self, Function.update_eq_self]
    exact h
  | succ fuel ih =>
    unfold iappend.loop
    by_cases hp : p = []
    · rw [if_pos hp]
      subst hp
      refine ⟨?_, rfl, hoff, SameInodes.refl _, rfl, rfl⟩
      rw [← hN, Function.update_eq_self, Function.update_eq_self]
      exact h
    rw [if_neg hp]
    by_cases hmax : off / BSIZE ≥ MAXFILE
    · simp only [if_pos hmax]
      trivial
    simp only [if_neg hmax]
    have hmax : off / 512 < 140 := Nat.lt_of_not_le hmax
    have hlen : 0 < p.length := List.length_pos_iff.2 hp
    have hblocks : N i = off / BSIZE ∨ N i = off / BSIZE + 1 := by
      simp only [hN, nblocksFor, BSIZE]
      omega
    refine (block_spec h hi htype hmax hblocks).bind fun r s₁ hext => ?_
    obtain ⟨d, x⟩ := r
    simp only at hext ⊢
    set n1 := min p.length ((off / BSIZE + 1) * BSIZE - off) with hn1
    have hn1' : n1 = min p.length ((off / 512 + 1) * 512 - off) := hn1
    refine ensures_bind.2 (ensures_rsect fun hx => ?_)
    obtain ⟨him, hblock, hinodes, hfree, hfields⟩ := hext hx
    rw [ensures_bind, ensures_setDisk]
    have hself : Function.update D i d i = d := Function.update_self ..
    have htype' : (Function.update D i d i).type ≠ 0 := by
      rw [hself, hfields]
      exact htype
    have hx0 : x ≠ 0 := by
      have hfill := him.filled i hi htype' (off / BSIZE) hmax
      rw [hself, hblock, Function.update_self] at hfill
      exact hfill.2 (Nat.lt_succ_self _)
    have hmeta : nmeta ≤ x := by
      have hused := (him.blocks.used_ref hi htype' (r := slotOf (off / BSIZE)) (by rw [hself, ← Dinode.block, hblock]; exact hx0)).1
      rwa [hself, ← Dinode.block, hblock] at hused
    have hin : InBlock s₁.disk (blit s₁.disk (x * BSIZE + (off - off / BSIZE * BSIZE)) (p.take n1)) x := by
      refine blit_inBlock s₁.disk hmeta ?_
      simp only [List.length_take, BSIZE]
      omega
    have him' := him.write hi htype' (k := off / BSIZE) (by rw [hself, hblock]) hx0 hin
    have hnext : Function.update N i (off / BSIZE + 1) i = nblocksFor (off + n1) := by
      rw [Function.update_self]
      simp only [nblocksFor, BSIZE]
      omega
    have hrest := ih (p := p.drop n1) him' htype' hnext (by simp only [MAXFILE, NDIRECT, NINDIRECT, BSIZE]; omega)
      (by simp only [List.length_drop]; omega)
    rw [hself] at hrest
    refine hrest.imp fun r s' happ => ?_
    obtain ⟨him₂, hoff₂, hsmall₂, hinodes₂, hfree₂, hfields₂⟩ := happ
    rw [Function.update_idem, Function.update_idem] at him₂
    refine ⟨him₂, ?_, hsmall₂, (hinodes.trans hin.inodes).trans hinodes₂, hfree₂.trans hfree, ?_⟩
    · rw [hoff₂, List.length_drop]
      omega
    · rw [hfields₂, hself, hfields]

/-- Inode `i` is written to the disk with the addresses it has in memory. -/
theorem Image.winode (h : Image s D N) (hi : i < ninode) (hused : (D i).type ≠ 0)
    (hD : ∀ j < ninode, j ≠ i → D j = readDinode s.disk j) {d : Dinode} (hfits : d.Fits) (htype : d.type = (D i).type) (haddrs : d.addrs = (D i).addrs) :
    Image { s with disk := writeDinode s.disk i d } (readDinode (writeDinode s.disk i d)) N := by
  have hself : readDinode (writeDinode s.disk i d) i = d := readDinode_writeDinode hfits
  have hne : ∀ j < ninode, j ≠ i → readDinode (writeDinode s.disk i d) j = D j := fun j hj hji => by
    rw [readDinode_writeDinode_ne hji, hD j hj hji]
  have hall : ∀ j < ninode, (readDinode (writeDinode s.disk i d) j).type = (D j).type ∧
      (readDinode (writeDinode s.disk i d) j).addrs = (D j).addrs := by
    intro j hj
    by_cases hji : j = i
    · subst hji
      rw [hself]
      exact ⟨htype, haddrs⟩
    · rw [hne j hj hji]
      exact ⟨rfl, rfl⟩
  have hsame : ∀ b, nmeta ≤ b → SameBlock s.disk (writeDinode s.disk i d) b := fun b hb =>
    writeDinode_sameBlock s.disk d hi hb
  have href : ∀ j < ninode, (D j).type ≠ 0 →
      (readDinode (writeDinode s.disk i d) j).ref (writeDinode s.disk i d) = (D j).ref s.disk := by
    intro j hj ht
    rw [Dinode.ref_congr (hall j hj).2]
    funext r
    exact (h.blocks.untouched (fun c hc => hsame c hc.1) hj ht).ref_eq r
  refine ⟨h.blocks.congr (fun j hj => (hall j hj).1) href fun _ => Iff.rfl, h.first, ?_, ?_, ?_, ?_, ?_⟩
  · intro b hb o ho
    exact ((hsame b (Nat.le_trans h.first hb)).apply ho).trans (h.zero b hb o ho)
  · intro j hlo hj
    rw [(hall j hj).1]
    exact h.free j hlo hj
  · intro j hj ht
    rw [(hall j hj).1] at ht
    have hji : j ≠ i := fun hji => hused (hji ▸ ht)
    rw [hne j hj hji]
    exact h.clear j hj ht
  · exact fun j _ => readDinode_fits _ j
  · intro j hj ht k hk
    rw [(hall j hj).1] at ht
    rw [Dinode.block, href j hj ht]
    exact h.filled j hj ht k hk

/-- What `mkfs` has done to the inodes: the file `i` has `n` more bytes, and no other file has changed its size. -/
structure Grew (i n : Nat) (s s' : Img) : Prop where
  rest : Rest s'
  freeinode : s'.freeinode = s.freeinode
  type : ∀ j < ninode, (readDinode s'.disk j).type = (readDinode s.disk j).type
  size : ∀ j < ninode, (readDinode s'.disk j).size = (readDinode s.disk j).size + if j = i then n else 0

theorem iappend_spec (h : Rest s) (hi : i < ninode) (htype : (readDinode s.disk i).type ≠ 0) (p : List UInt8) :
    Ensures Allowed (iappend i p) s fun _ s' => Grew i p.length s s' := by
  unfold iappend rinode winode
  rw [ensures_bind, ensures_bind]
  refine ensures_rsect fun _ => ?_
  rw [ensures_bind, ensures_get, ensures_pure]
  refine (iappend_loop h.image hi htype rfl (h.small i hi htype) (Nat.le_refl _)).bind fun r s₁ happ => ?_
  obtain ⟨d, off⟩ := r
  obtain ⟨him, hoff, hsmall, hinodes, hfree, hfields⟩ := happ
  simp only at him hoff hsmall hfields ⊢
  refine ensures_bind.2 (ensures_rsect fun _ => ?_)
  rw [ensures_setDisk]
  have hself : Function.update (readDinode s.disk) i d i = d := Function.update_self ..
  have hfits : Dinode.Fits { d with size := off } := by
    have hd := him.fits i hi
    rw [hself] at hd
    exact { hd with size := Nat.lt_of_le_of_lt hsmall (by decide) }
  have hwritten : readDinode (writeDinode s₁.disk i { d with size := off }) i = { d with size := off } :=
    readDinode_writeDinode hfits
  have hothers : ∀ j < ninode, j ≠ i →
      readDinode (writeDinode s₁.disk i { d with size := off }) j = readDinode s.disk j := fun j hj hji => by
    rw [readDinode_writeDinode_ne hji, hinodes j hj]
  have hview : ∀ j < ninode, (readDinode (writeDinode s₁.disk i { d with size := off }) j).type =
        (readDinode s.disk j).type ∧
      (readDinode (writeDinode s₁.disk i { d with size := off }) j).size =
        (readDinode s.disk j).size + if j = i then p.length else 0 := by
    intro j hj
    by_cases hji : j = i
    · subst hji
      rw [hwritten, if_pos rfl, hfields]
      exact ⟨rfl, hoff⟩
    · rw [hothers j hj hji, if_neg hji]
      exact ⟨rfl, rfl⟩
  have himage := him.winode hi (by rw [hself, hfields]; exact htype) (fun j hj hji => by rw [Function.update_of_ne hji, hinodes j hj]) hfits
    (by rw [hself]) (by rw [hself])
  refine ⟨⟨himage.congr fun j hj => ?_, fun j hj ht => ?_⟩, hfree, fun j hj => (hview j hj).1, fun j hj => (hview j hj).2⟩
  · by_cases hji : j = i
    · subst hji
      rw [Function.update_self, hwritten]
    · rw [Function.update_of_ne hji, hothers j hj hji]
  · by_cases hji : j = i
    · subst hji
      simp only [hwritten]
      exact hsmall
    · simp only [hothers j hj hji] at ht ⊢
      exact h.small j hj ht

/-- The next inode is taken, without any blocks. -/
theorem Image.ialloc (h : Image s D N) (hlt : s.freeinode < ninode) {d : Dinode} (hfits : d.Fits)
    (htype : d.type ≠ 0) (haddrs : ∀ k, d.addrs k = 0) : Image { s with freeinode := s.freeinode + 1 } (Function.update D s.freeinode d)
      (Function.update N s.freeinode 0) := by
  have hfree : (D s.freeinode).type = 0 := h.free _ (Nat.le_refl _) hlt
  have hblocks : Blocks s.disk (Function.update D s.freeinode d) (Taken s) := by
    refine h.blocks.release haddrs (fun c _ => SameBlock.refl s.disk c) fun c => ⟨fun hc => ⟨hc, fun r hr => ?_⟩, And.left⟩
    exact (blockRef_eq_some.1 hr).2.1 hfree
  refine ⟨hblocks, h.first, h.zero, ?_, ?_, ?_, ?_⟩
  · intro j hlo hj
    have hlo : s.freeinode + 1 ≤ j := hlo
    rw [Function.update_of_ne (by omega)]
    exact h.free j (by omega) hj
  · intro j hj ht
    by_cases hji : j = s.freeinode
    · rw [hji, Function.update_self] at ht
      exact absurd ht htype
    · rw [Function.update_of_ne hji] at ht ⊢
      exact h.clear j hj ht
  · intro j hj
    by_cases hji : j = s.freeinode
    · rwa [hji, Function.update_self]
    · rw [Function.update_of_ne hji]
      exact h.fits j hj
  · intro j hj ht k hk
    by_cases hji : j = s.freeinode
    · subst hji
      have hzero : d.block s.disk k = 0 := by
        rw [Dinode.block]
        cases slotOf k with
        | addr k => exact haddrs k
        | entry e => exact if_pos (haddrs _)
      rw [Function.update_self, Function.update_self, hzero]
      simp
    · rw [Function.update_of_ne hji] at ht ⊢
      rw [Function.update_of_ne hji]
      exact h.filled j hj ht k hk

theorem ialloc_spec (h : Rest s) (hlt : s.freeinode < ninode) {type : Nat} (htype : type < 2 ^ 16) (hne : type ≠ 0) :
    Ensures Allowed (ialloc type) s fun i s' => i = s.freeinode ∧ Rest s' ∧ s'.freeinode = s.freeinode + 1 ∧
      ∀ j < ninode, (readDinode s'.disk j).type = (if j = i then type else (readDinode s.disk j).type) ∧
        (readDinode s'.disk j).size = if j = i then 0 else (readDinode s.disk j).size := by
  obtain ⟨d, hd, hfits, haddrs, hdtype, hdsize⟩ : ∃ d : Dinode, { Dinode.cleared type with nlink := 1 } = d ∧ d.Fits ∧
      (∀ k, d.addrs k = 0) ∧ d.type = type ∧ d.size = 0 :=
    ⟨_, rfl, ⟨htype, Nat.two_pow_pos 16, Nat.two_pow_pos 16, Nat.one_lt_two_pow (by decide), Nat.two_pow_pos 32,
      fun _ => Nat.two_pow_pos 32⟩, fun _ => rfl, rfl, rfl⟩
  unfold mkfs.ialloc winode
  rw [ensures_bind, ensures_get, ensures_bind, ensures_modify, ensures_bind, ensures_bind, hd]
  refine ensures_rsect fun _ => ?_
  rw [ensures_setDisk, ensures_pure]
  have hwritten : readDinode (writeDinode s.disk s.freeinode d) s.freeinode = d := readDinode_writeDinode hfits
  have hothers : ∀ j, j ≠ s.freeinode → readDinode (writeDinode s.disk s.freeinode d) j = readDinode s.disk j :=
    fun j hji => readDinode_writeDinode_ne hji
  have htyped : d.type ≠ 0 := hdtype ▸ hne
  have himage := (h.image.ialloc hlt hfits htyped haddrs).winode hlt (by rwa [Function.update_self]) (fun j _ hji => Function.update_of_ne hji ..) hfits
    (by rw [Function.update_self]) (by rw [Function.update_self])
  refine ⟨rfl, ⟨himage.congr fun j hj => ?_, fun j hj ht => ?_⟩, rfl, fun j hj => ?_⟩
  · by_cases hji : j = s.freeinode
    · subst hji
      rw [Function.update_self, hwritten, hdsize]
      rfl
    · rw [Function.update_of_ne hji, hothers j hji]
  · by_cases hji : j = s.freeinode
    · subst hji
      simp only [hwritten, hdsize]
      exact Nat.zero_le _
    · simp only [hothers j hji] at ht ⊢
      exact h.small j hj ht
  · by_cases hji : j = s.freeinode
    · subst hji
      rw [if_pos rfl, if_pos rfl, hwritten]
      exact ⟨hdtype, hdsize⟩
    · rw [if_neg hji, if_neg hji, hothers j hji]
      exact ⟨rfl, rfl⟩

theorem Grew.refl (h : Rest s) (i : Nat) : Grew i 0 s s := ⟨h, rfl, fun _ _ => rfl, fun j _ => by split <;> rfl⟩

theorem Grew.trans {s'' : Img} {n n' : Nat} (h : Grew i n s s') (h' : Grew i n' s' s'') : Grew i (n + n') s s'' where
  rest := h'.rest
  freeinode := h'.freeinode.trans h.freeinode
  type j hj := (h'.type j hj).trans (h.type j hj)
  size j hj := by
    rw [h'.size j hj, h.size j hj]
    split <;> omega

theorem copyin_spec (h : Rest s) (hi : i < ninode) (htype : (readDinode s.disk i).type ≠ 0) {fuel : Nat}
    {data : List UInt8} (hfuel : data.length ≤ fuel) :
    Ensures Allowed (copyin i fuel data) s fun _ s' => Grew i data.length s s' := by
  induction fuel generalizing s data with
  | zero =>
    obtain rfl : data = [] := List.length_eq_zero_iff.1 (Nat.le_zero.1 hfuel)
    exact Grew.refl h i
  | succ fuel ih =>
    unfold copyin
    by_cases hdata : data = []
    · rw [if_pos hdata]
      subst hdata
      exact Grew.refl h i
    · rw [if_neg hdata]
      have hlen : 0 < data.length := List.length_pos_iff.2 hdata
      refine (iappend_spec h hi htype _).bind fun _ s₁ hgrew => ?_
      have hrest : (data.drop BSIZE).length ≤ fuel := by
        simp only [List.length_drop, BSIZE]
        omega
      refine (ih hgrew.rest (by rwa [hgrew.type i hi]) hrest).imp fun _ s' hgrew' => ?_
      have hall := hgrew.trans hgrew'
      rwa [← List.length_append, List.take_append_drop] at hall

end xv6.fs.mkfs
