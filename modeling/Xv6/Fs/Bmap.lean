import Xv6.Fs.Alloc

open bytes owner outcome

namespace xv6.fs

/-- The slots that `bmap` goes through for block number `bn`. -/
def path (bn : Nat) : Finset Slot := if bn < NDIRECT then {slotOf bn} else {.addr (Fin.last NDIRECT), slotOf bn}

theorem slotOf_mem_path (bn : Nat) : slotOf bn ∈ path bn := by
  simp only [path]
  split
  · exact Finset.mem_singleton_self _
  · exact Finset.mem_insert_of_mem (Finset.mem_singleton_self _)

theorem ind_mem_path {bn : Nat} (h : ¬ bn < NDIRECT) : .addr (Fin.last NDIRECT) ∈ path bn := by
  rw [path, if_neg h]
  exact Finset.mem_insert_self ..

theorem path_card_le (bn : Nat) : (path bn).card ≤ 2 := by
  rw [path]
  split
  · simp
  · exact Finset.card_le_two

theorem slotOf_direct {bn : Nat} (h : bn < NDIRECT) : slotOf bn = .addr ⟨bn, Nat.lt_succ_of_lt h⟩ := dif_pos h

theorem slotOf_indirect {bn : Nat} (h : ¬ bn < NDIRECT) (hj : bn - NDIRECT < NINDIRECT) :
    slotOf bn = .entry ⟨bn - NDIRECT, hj⟩ := by
  rw [slotOf, dif_neg h]
  simp only [Nat.mod_eq_of_lt hj]

/-- Where a block is present, so are all the slots on the way to it. -/
theorem Dinode.path_ne_zero {m : Mem} {d : Dinode} {bn : Nat} (h : d.block m bn ≠ 0) {r : Slot} (hr : r ∈ path bn) :
    d.ref m r ≠ 0 := by
  simp only [path] at hr
  split at hr
  · rwa [Finset.mem_singleton.1 hr]
  next hbn =>
    obtain rfl | hr := Finset.mem_insert.1 hr
    · intro h0
      rw [Dinode.block, slotOf, dif_neg hbn] at h
      exact h (if_pos h0)
    · rwa [Finset.mem_singleton.1 hr]

/-- The state after the disk, the copy of the inode in `*ip` and the log have changed. -/
def grownState (s : Fs) (ip : Fin NINODE) (m' : Mem) (d' : Dinode) (l' : List Nat) : Fs :=
  { s with disk := m', icache := Function.update s.icache ip { s.icache ip with din := d' }, lh := l' }

@[simp] theorem grownState_grownState (s : Fs) (ip : Fin NINODE) (m m' : Mem) (d d' : Dinode) (l l' : List Nat) :
    grownState (grownState s ip m d l) ip m' d' l' = grownState s ip m' d' l' := by
  simp only [grownState, Function.update_idem, Function.update_self]

@[simp] theorem grownState_disk (s : Fs) (ip : Fin NINODE) (m' : Mem) (d' : Dinode) (l' : List Nat) :
    (grownState s ip m' d' l').disk = m' := rfl

@[simp] theorem grownState_din (s : Fs) (ip : Fin NINODE) (m' : Mem) (d' : Dinode) (l' : List Nat) :
    ((grownState s ip m' d' l').icache ip).din = d' := by
  simp only [grownState, Function.update_self]

theorem grownState_self (s : Fs) (ip : Fin NINODE) : grownState s ip s.disk (s.icache ip).din s.lh = s := by
  simp only [grownState, Function.update_eq_self]

section
variable {s : Fs} {ip : Fin NINODE} {D : Nat → Dinode} {i bn : Nat} {N : Finset Slot} {m' : Mem} {d' : Dinode}
  {l' : List Nat}

/-- The result of `bmap`: the address of the block, which has been allocated if need be.
No byte of the file has changed. -/
def Mapped (s : Fs) (ip : Fin NINODE) (D : Nat → Dinode) (i : Nat) (N : Finset Slot) (bn : Nat) (x : FsM Nat) : Prop :=
  ∃ m' d' l', x.run s = .ok (d'.block m' bn) (grownState s ip m' d' l') ∧ Grown D i N s.disk s.lh m' d' l' ∧
    d'.byte m' = (D i).byte s.disk ∧ d'.block m' bn ≠ 0

theorem Mapped.pure (hown : Owned s.disk D) (hdin : (s.icache ip).din = D i) (h : (D i).block s.disk bn ≠ 0) :
    Mapped s ip D i N bn (pure ((D i).block s.disk bn)) := by
  refine ⟨s.disk, D i, s.lh, ?_, Grown.refl hown, rfl, h⟩
  rw [← hdin, grownState_self]
  rfl

theorem Mapped.trans {x : FsM Nat} (hgrown : Grown D i N s.disk s.lh m' d' l') (hbyte : d'.byte m' = (D i).byte s.disk)
    (h : Mapped (grownState s ip m' d' l') ip (Function.update D i d') i N bn x) :
    ∃ m'' d'' l'', x.run (grownState s ip m' d' l') = .ok (d''.block m'' bn) (grownState s ip m'' d'' l'') ∧
      Grown D i N s.disk s.lh m'' d'' l'' ∧ d''.byte m'' = (D i).byte s.disk ∧ d''.block m'' bn ≠ 0 := by
  obtain ⟨m'', d'', l'', hrun, hgrown', hbyte', hb⟩ := h
  rw [Function.update_self] at hbyte'
  exact ⟨m'', d'', l'', by rw [hrun, grownState_grownState], hgrown.trans hgrown', hbyte'.trans hbyte, hb⟩

theorem Grown.type_ne_zero {m : Mem} {l : List Nat} (h : Grown D i N m l m' d' l') (htype : (D i).type ≠ 0) :
    (Function.update D i d' i).type ≠ 0 := by
  rw [Function.update_self, h.fields]
  exact htype

theorem Grown.fits (h : Grown D i N s.disk s.lh m' d' l') (hfits : Fits s (D i) N) :
    Fits (grownState s ip m' d' l') (Function.update D i d' i) N := by
  obtain ⟨hout, l₀, hlogs, hlen⟩ := hfits
  rw [Function.update_self]
  exact ⟨hout, l₀, h.logs l₀ hlogs, hlen⟩

/-- A transaction that is open where slots are empty is open where fewer are. -/
theorem Grown.out (h : Grown D i N s.disk s.lh m' d' l')
    (hout : (∃ r ∈ N, (D i).ref s.disk r = 0) → Fits s (D i) N) :
    (∃ r ∈ N, (Function.update D i d' i).ref m' r = 0) →
      Fits (grownState s ip m' d' l') (Function.update D i d' i) N := by
  rintro ⟨r, hr, h0⟩
  rw [Function.update_self] at h0
  exact h.fits (hout ⟨r, hr, by_contra fun hne => hne (h.keep r hne ▸ h0)⟩)

variable (hown : Owned s.disk D) (hi : i < ninode) (hdin : (s.icache ip).din = D i) (htype : (D i).type ≠ 0)
  (hroom : Room s.disk (D i) N) (hout : (∃ r ∈ N, (D i).ref s.disk r = 0) → Fits s (D i) N)
include hown hi hdin htype hroom hout

/-- The block in an entry of the indirect block. -/
theorem bmap_entry {j : Fin NINDIRECT} (hind' : .addr (Fin.last NDIRECT) ∈ N) (hN : .entry j ∈ N)
    (hbn : slotOf bn = .entry j) (hind : (D i).ind ≠ 0) :
    Mapped s ip D i N bn (do
      let s ← get
      if indirect s.disk (D i).ind j = 0 then
        let addr ← balloc
        setDisk fun m => store32 m ((D i).ind * BSIZE + 4 * j) addr
        log_write (D i).ind
        return addr
      else
        return indirect s.disk (D i).ind j) := by
  have hblock : (D i).block s.disk bn = indirect s.disk (D i).ind j := by
    rw [Dinode.block, hbn]
    exact if_neg hind
  simp only [Mapped, get_bind]
  by_cases h : indirect s.disk (D i).ind j = 0
  · have hempty : (D i).ref s.disk (.entry j) = 0 := (if_neg hind).trans h
    have hfits := hout ⟨_, hN, hempty⟩
    obtain ⟨b, m', hrun, ha⟩ := balloc_run hown.reserved (hroom.freeBlocks_pos hN hempty) hfits
    obtain ⟨hgrown, hbyte, href⟩ := hown.grow_entry (l := s.lh) hi htype hind' hN hind h ha rfl
    obtain ⟨hpos, l₀, hlogs, hlen⟩ := hfits
    have hlt : (absorb (absorb s.lh sb.bmapstart) b).length < LOGSIZE - 1 :=
      Nat.lt_of_le_of_lt (hlogs.fill hN hempty (ne_zero_of_nmeta_le ha.range.1)).length_le hlen
    have hb : (D i).block (store32 m' ((D i).ind * BSIZE + 4 * j) b) bn = b := by
      rw [Dinode.block, hbn, href, Function.update_self]
    refine ⟨_, D i, _, ?_, hgrown, hbyte, hb.symm ▸ ne_zero_of_nmeta_le ha.range.1⟩
    rw [if_pos h, bind_ok hrun, hb]
    refine setDisk_bind.trans ((log_write_bind (by exact hpos) (by exact hlt)).trans ?_)
    simp only [grownState, ← hdin, Function.update_eq_self]
    rfl
  · rw [if_neg h, ← hblock]
    exact Mapped.pure hown hdin (hblock ▸ h)

/-- A new block in a slot of `addrs`. -/
theorem balloc_addr {k : Fin (NDIRECT + 1)} (hN : .addr k ∈ N) (hempty : (D i).addrs k = 0) {β : Type}
    (f : Nat → FsM β) :
    ∃ b m' d' l', d'.addrs k = b ∧ d'.ref m' = Function.update ((D i).ref s.disk) (.addr k) b ∧ b ≠ 0 ∧
      Grown D i N s.disk s.lh m' d' l' ∧ d'.byte m' = (D i).byte s.disk ∧ (do
        let addr ← balloc
        updateDin ip fun d => { d with addrs := Function.update d.addrs k addr }
        f addr).run s = (f b).run (grownState s ip m' d' l') := by
  obtain ⟨b, m', hrun, ha⟩ := balloc_run hown.reserved (hroom.freeBlocks_pos hN hempty) (hout ⟨_, hN, hempty⟩)
  obtain ⟨hgrown, hbyte, href⟩ := hown.grow_addr hi htype hN hempty ha rfl
  refine ⟨b, m', _, _, Function.update_self .., href, ne_zero_of_nmeta_le ha.range.1, hgrown, hbyte, ?_⟩
  rw [bind_ok hrun, ← hdin]
  exact updateDin_bind

/-- `bmap` returns the address of a block of the file, and allocates it if there is none. -/
theorem bmap_run (hbn : bn < MAXFILE) (hN : path bn ⊆ N) : Mapped s ip D i N bn (bmap ip bn) := by
  simp only [bmap, Mapped, readInode_bind]
  by_cases hlt : bn < NDIRECT
  · have hslot := slotOf_direct hlt
    have hmem : .addr ⟨bn, Nat.lt_succ_of_lt hlt⟩ ∈ N := hslot ▸ hN (slotOf_mem_path bn)
    rw [dif_pos hlt, hdin]
    by_cases h : (D i).addrs ⟨bn, Nat.lt_succ_of_lt hlt⟩ = 0
    · obtain ⟨b, m', d', l', -, href, hb, hgrown, hbyte, hrun⟩ :=
        balloc_addr hown hi hdin htype hroom hout hmem h (pure : Nat → FsM Nat)
      have hblock : d'.block m' bn = b := by rw [Dinode.block, hslot, href, Function.update_self]
      refine ⟨m', d', l', ?_, hgrown, hbyte, hblock.symm ▸ hb⟩
      rw [if_pos h, hblock]
      exact hrun
    · have hblock : (D i).block s.disk bn = (D i).addrs ⟨bn, Nat.lt_succ_of_lt hlt⟩ := by rw [Dinode.block, hslot]; rfl
      rw [if_neg h, ← hblock]
      exact Mapped.pure hown hdin (hblock ▸ h)
  · have hj : bn - NDIRECT < NINDIRECT := by
      simp only [NDIRECT, MAXFILE, NINDIRECT] at hbn hlt ⊢
      omega
    have hslot := slotOf_indirect hlt hj
    have hmem : .entry ⟨bn - NDIRECT, hj⟩ ∈ N := hslot ▸ hN (slotOf_mem_path bn)
    rw [dif_neg hlt, if_pos hj, hdin]
    have hmem' := hN (ind_mem_path hlt)
    by_cases h : (D i).ind = 0
    · obtain ⟨b, m', d', l', hind, href, hb, hgrown, hbyte, hrun⟩ :=
        balloc_addr hown hi hdin htype hroom hout hmem' h fun ind => do
          let s ← get
          if indirect s.disk ind (bn - NDIRECT) = 0 then
            let addr ← balloc
            setDisk fun m => store32 m (ind * BSIZE + 4 * (bn - NDIRECT)) addr
            log_write ind
            return addr
          else
            return indirect s.disk ind (bn - NDIRECT)
      have hdin' : ((grownState s ip m' d' l').icache ip).din = Function.update D i d' i := by simp
      have hmapped := bmap_entry hgrown.owned hi hdin' (hgrown.type_ne_zero htype)
        (by rw [Function.update_self]; exact hgrown.room (Finset.Subset.refl N) hroom) (hgrown.out hout) hmem' hmem hslot
        (by rw [Function.update_self, Dinode.ind, hind]; exact hb)
      simp only [Function.update_self, Dinode.ind, hind] at hmapped
      obtain ⟨m'', d'', l'', hrun', hrest⟩ := Mapped.trans hgrown hbyte hmapped
      refine ⟨m'', d'', l'', ?_, hrest⟩
      rw [if_pos h]
      simp only [pure_bind]
      exact hrun.trans hrun'
    · rw [if_neg h, pure_bind]
      have hmapped := bmap_entry hown hi hdin htype hroom hout hmem' hmem hslot h
      exact hmapped

end

end xv6.fs
