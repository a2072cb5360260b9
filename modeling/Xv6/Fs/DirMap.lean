import Xv6.Fs.Entries
import Xv6.Fs.Icache

open bytes owner outcome table

namespace xv6.fs

/-! ### Full disks -/

section
variable {s : Fs} {ip : Fin NINODE} {i bn : Nat}

theorem balloc_full (h : freeBlocks s.disk = 0) : balloc.run s = .error "balloc: out of blocks" s := by
  have hfind : (List.range sb.size).find? (fun b => !inUse s.disk b) = none :=
    List.find?_eq_none.2 (List.countP_eq_zero.1 h)
  rw [balloc, get_bind, hfind]
  rfl

theorem card_filter_pair {P : Slot → Prop} [DecidablePred P] {a b : Slot} (hb : ¬ P a ∨ ¬ P b) :
    (({a, b} : Finset Slot).filter P).card ≤ 1 := by
  refine Finset.card_le_one.2 fun x hx y hy => ?_
  simp only [Finset.mem_filter, Finset.mem_insert, Finset.mem_singleton] at hx hy
  obtain ⟨rfl | rfl, hx⟩ := hx <;> obtain ⟨rfl | rfl, hy⟩ := hy
  · rfl
  · exact absurd hx (hb.resolve_right (not_not_intro hy))
  · exact absurd hy (hb.resolve_right (not_not_intro hx))
  · rfl

/-- `bmap` panics when the disk has too few free blocks for the slots that it has to fill. -/
theorem bmap_no_room (h : Ready s ip i) (hfits : Fits s (s.dinode i) (path bn)) (hbn : bn < MAXFILE)
    (hroom : ¬ Room s.disk (s.dinode i) (path bn)) : ∃ t, (bmap ip bn).run s = .error "balloc: out of blocks" t := by
  simp only [bmap, readInode_bind, h.din_eq]
  rw [Room, Nat.not_le] at hroom
  by_cases hlt : bn < NDIRECT
  · rw [path, if_pos hlt] at hroom
    have hcard := (Finset.card_filter_le {slotOf bn} fun r => (s.dinode i).ref s.disk r = 0).trans
      (Finset.card_singleton _).le
    have hempty : (s.dinode i).addrs ⟨bn, Nat.lt_succ_of_lt hlt⟩ = 0 := by
      obtain ⟨r, hr⟩ := Finset.card_pos.1 (Nat.zero_lt_of_lt hroom)
      obtain ⟨hr, h0⟩ := Finset.mem_filter.1 hr
      rw [Finset.mem_singleton.1 hr, slotOf_direct hlt] at h0
      exact h0
    rw [dif_pos hlt, if_pos hempty]
    exact ⟨s, bind_error (balloc_full (by omega))⟩
  · have hj : bn - NDIRECT < NINDIRECT := by
      simp only [NDIRECT, MAXFILE, NINDIRECT] at hbn hlt ⊢
      omega
    have hslot := slotOf_indirect hlt hj
    rw [path, if_neg hlt, hslot] at hroom
    rw [dif_neg hlt, if_pos hj]
    by_cases hind : (s.dinode i).ind = 0
    · rw [if_pos hind]
      by_cases hfree : freeBlocks s.disk = 0
      · exact ⟨s, bind_error (balloc_full hfree)⟩
      · -- One block is left. It becomes the indirect block, and there is none for the data.
        obtain ⟨b, m', hrun, ha⟩ := balloc_run h.owned.reserved (Nat.pos_of_ne_zero hfree) hfits
        have hcard := (Finset.card_filter_le {.addr (Fin.last NDIRECT), .entry ⟨bn - NDIRECT, hj⟩}
          fun r => (s.dinode i).ref s.disk r = 0).trans Finset.card_le_two
        have hleft := ha.freeBlocks_eq
        have hzero := ha.indirect_eq hj
        rw [bind_ok hrun, updateDin_bind, pure_bind, get_bind]
        dsimp only
        rw [if_pos hzero]
        exact ⟨_, bind_error (balloc_full (by dsimp only; omega))⟩
    · have hcard : ((path bn).filter fun r => (s.dinode i).ref s.disk r = 0).card ≤ 1 := by
        rw [path, if_neg hlt]
        exact card_filter_pair (.inl hind)
      rw [path, if_neg hlt, hslot] at hcard
      have hentry : indirect s.disk (s.dinode i).ind (bn - NDIRECT) = 0 := by
        obtain ⟨r, hr⟩ := Finset.card_pos.1 (Nat.zero_lt_of_lt hroom)
        obtain ⟨hr, h0⟩ := Finset.mem_filter.1 hr
        rcases Finset.mem_insert.1 hr with rfl | hr
        · exact absurd h0 hind
        · rw [Finset.mem_singleton.1 hr] at h0
          simpa only [Dinode.ref, if_neg hind] using h0
      rw [if_neg hind, pure_bind, get_bind, if_pos hentry]
      exact ⟨s, bind_error (balloc_full (by omega))⟩

end

/-! ### Writing entries -/

/-- A directory in the hands of its user: it is locked, a transaction is open and it is well formed. -/
structure Dir (s : Fs) (dp : Fin NINODE) (i : Nat) : Prop extends Ready s dp i, IsDir s i where
  lock : (s.icache dp).lock = true
  out : 0 < s.outstanding

/-- The log has room for what the write of an entry logs: its block, the indirect block, the free map and the inode. -/
def EntryFits (s : Fs) : Prop := s.lh.length + 4 ≤ LOGSIZE - 1

section
variable {s s' : Fs} {dp : Fin NINODE} {i j : Nat} {de : List UInt8}

theorem Unchanged.dir (h : Unchanged s s') (hdir : Dir s dp i) : Dir s' dp i := by
  refine ⟨h.ready hdir.toReady, ⟨?_, ?_, ?_, ?_⟩, ?_, ?_⟩
  · rw [h.dinode_eq]
    exact hdir.dir
  · rw [h.disk_eq, h.dinode_eq]
    exact hdir.dense
  · rw [h.node_eq]
    exact hdir.whole
  · rw [h.node_eq]
    exact hdir.max
  · rw [h.icache_eq hdir.ref]
    exact hdir.lock
  · rw [h.rest]
    exact hdir.out

theorem Node.off_le {f : Node} (hj : j ≤ f.table.len) : DIRENT * j ≤ f.size := by
  have hj : j ≤ f.size / 16 := hj
  simp only [DIRENT]
  omega

/-- The blocks of the entries that a directory has are there. -/
theorem IsDir.room (h : IsDir s i) (hj : j < (s.node i).table.len) :
    Room s.disk (s.dinode i) (slots (DIRENT * j) DIRENT) := by
  have hempty : (slots (DIRENT * j) DIRENT).filter (fun r => (s.dinode i).ref s.disk r = 0) = ∅ := by
    refine Finset.filter_eq_empty_iff.2 fun r hr => ref_ne_zero_of_touched (fun bn hbn => ?_) hr
    rw [mem_touched] at hbn
    have hj : j < (s.dinode i).size / 16 := hj
    refine h.dense bn hbn.1 ?_
    simp only [DIRENT] at hbn
    omega
  rw [Room, hempty]
  exact Nat.zero_le _

/-- An entry lies in one block. -/
theorem slots_entry (j : Nat) : slots (DIRENT * j) DIRENT ⊆ path (DIRENT * j / BSIZE) := by
  refine Finset.biUnion_subset.2 fun bn hbn => ?_
  have hbn : bn = DIRENT * j / BSIZE := by
    rw [mem_touched] at hbn
    simp only [DIRENT, BSIZE] at hbn ⊢
    omega
  rw [hbn]

theorem Dir.fits (h : Dir s dp i) (hlog : EntryFits s) {N : Finset Slot} (hN : N.card ≤ 2) : Fits s (s.dinode i) N :=
  fits_of_length h.out ((Nat.add_le_add_right (Nat.add_le_add_left hN _) 2).trans hlog) _

/-- `writei` of one entry. -/
theorem Dir.write_entry (h : Dir s dp i) (hlog : EntryFits s) (hj : j ≤ (s.node i).table.len)
    (hde : de.length = DIRENT) (hend : DIRENT * j + DIRENT ≤ MAXFILE * BSIZE)
    (hroom : Room s.disk (s.dinode i) (slots (DIRENT * j) DIRENT)) :
    ∃ s', (writei dp de (DIRENT * j)).run s = .ok (some DIRENT) s' ∧ Dir s' dp i ∧
      Rewritten s i (slots (DIRENT * j) DIRENT) s' ∧ s'.node i = (s.node i).write (DIRENT * j) de ∧ (s'.node i).table = (s.node i).table.put j (entryOf de) := by
  have hoff := Node.off_le hj
  have hacc : ¬ Refused (s.node i) (DIRENT * j) de.length := by
    rw [hde, Refused]
    simp only [MAXFILE, NDIRECT, NINDIRECT, BSIZE] at hend ⊢
    omega
  have hfits := h.fits hlog ((Finset.card_le_card (slots_entry j)).trans (path_card_le _))
  obtain ⟨m', d', l', hrun, hrew, hnode, hpresent⟩ := writei_run h.toReady hroom hfits hacc (by rw [hde])
  have hdin : (grownState s dp m' d' l').dinode i = d' := h.toCached.dinode_grown h.valid
  have hnode' : (grownState s dp m' d' l').node i = (s.node i).write (DIRENT * j) de := by
    rw [Fs.node, hdin]
    exact hnode
  rw [hde] at hrun
  have hsize : ((s.node i).write (DIRENT * j) de).size = max (s.node i).size (DIRENT * j + DIRENT) := by
    rw [Node.write, hde]
  have hwhole : (s.node i).size % 16 = 0 := h.whole
  have hmax := h.max
  refine ⟨_, hrun, ⟨h.toReady.grown hrew hnode, ⟨?_, ?_, ?_, ?_⟩, ?_, h.out⟩, hrew, hnode', ?_⟩
  · rw [hdin]
    exact (congrArg Node.type hnode).trans h.dir
  · intro bn hbn hlt
    have hlt : bn * BSIZE < max (s.node i).size (DIRENT * j + DIRENT) := by
      rw [← hsize, ← hnode']
      exact hlt
    have hin : bn ∈ touched 0 (max (s.node i).size (DIRENT * j + DIRENT)) := by
      rw [mem_touched]
      simp only [BSIZE] at hlt ⊢
      omega
    rw [← hdin] at hpresent
    exact hrew.block_ne_zero hoff hpresent (.inl h.dense) (by omega) hin
  · rw [hnode', hsize]
    simp only [DIRENT]
    omega
  · rw [hnode', hsize]
    omega
  · simp only [grownState, Function.update_self]
    exact h.lock
  · rw [hnode', Node.table_write h.whole hoff hde]

/-- The write of one entry on a disk that has too few free blocks for it. -/
theorem Dir.write_no_room (h : Dir s dp i) (hlog : EntryFits s) (hj : j ≤ (s.node i).table.len)
    (hde : de.length = DIRENT) (hend : DIRENT * j + DIRENT ≤ MAXFILE * BSIZE)
    (hroom : ¬ Room s.disk (s.dinode i) (slots (DIRENT * j) DIRENT)) :
    ∃ t, (writei dp de (DIRENT * j)).run s = .error "balloc: out of blocks" t := by
  have hoff : DIRENT * j ≤ (s.dinode i).size := Node.off_le hj
  have hend : DIRENT * j + DIRENT ≤ 71680 := hend
  have hu : u32 (DIRENT * j + DIRENT) = DIRENT * j + DIRENT := Nat.mod_eq_of_lt (by omega)
  have hbn : DIRENT * j / BSIZE < MAXFILE := by
    simp only [DIRENT, BSIZE, MAXFILE, NDIRECT, NINDIRECT] at hend ⊢
    omega
  obtain ⟨t, hbmap⟩ := bmap_no_room h.toReady (h.fits hlog (path_card_le _)) hbn fun hr =>
    hroom (hr.mono (slots_entry j))
  refine ⟨t, ?_⟩
  rw [writei, readInode_bind, h.din_eq, hde]
  simp only [hu]
  rw [if_neg h.file, if_neg (by omega), if_neg (by simp only [MAXFILE, NDIRECT, NINDIRECT, BSIZE]; omega)]
  refine bind_error ?_
  have hne : de ≠ [] := by
    rintro rfl
    cases hde
  show (writeLoop dp (15 + 1) (DIRENT * j) de).run s = _
  rw [writeLoop, if_neg hne]
  exact bind_error hbmap

/-! ### Links and erasures -/

variable {name : List UInt8} {inum : Nat}

theorem found_none {t : Table (List UInt8) Nat} (hget : t.get (fileName name) = none) : found t name = pure none := by
  rw [found, hget, Table.get_eq_none_iff.1 hget]

theorem found_some {t : Table (List UInt8) Nat} (hj : t.index (fileName name) = some j)
    (hget : t.get (fileName name) = some inum) :
    found t name = iget inum >>= fun ip => pure (some (ip, DIRENT * j)) := by
  rw [found, hget, hj]

theorem bind_run_congr {α β : Type} {a b : FsM α} (f : α → FsM β) (h : a.run s = b.run s) :
    (a >>= f).run s = (b >>= f).run s := by
  rw [EStateM.run_bind, EStateM.run_bind, h]

/-- The name is there: the reference that `dirlookup` has taken is dropped. -/
theorem dirlink_present (h : Dir s dp i) (inum : Nat) (hget : (s.node i).table.get (fileName name) = some j) :
    (dirlink dp name inum).run s = ((iget j >>= iput) >>= fun _ => pure false).run s := by
  obtain ⟨k, hk, -⟩ := Table.exists_of_get hget
  rw [dirlink, bind_run_congr _ (dirlookup_run h.toReady h.toIsDir name), found_some hk hget, bind_assoc, bind_assoc]
  rfl

/-- The name is not there: an entry is written to the first free slot. -/
theorem dirlink_absent (h : Dir s dp i) (inum : Nat) (hget : (s.node i).table.get (fileName name) = none) :
    (dirlink dp name inum).run s = (writei dp (dirent inum name) (DIRENT * (s.node i).table.free) >>= fun r => do
      if r ≠ some DIRENT then
        throw "dirlink"
      return true).run s := by
  have hsize : (s.icache dp).din.size = (s.node i).size := by rw [h.din_eq]; rfl
  rw [dirlink, bind_run_congr _ (dirlookup_run h.toReady h.toIsDir name), found_none hget, pure_bind]
  dsimp only
  rw [readInode_bind, hsize]
  exact bind_ok (dirlink_free_run h.toReady h.toIsDir)

/-- There is no free entry and the directory cannot grow. -/
def Node.Full (f : Node) : Prop := f.table.free = f.table.len ∧ f.size = MAXFILE * BSIZE

/-- What `dirlink` is to do to the finite map: it returns -1 and changes nothing if the name is there, or else if
the directory is full; otherwise it adds the name. -/
def Links (s : Fs) (dp : Fin NINODE) (i : Nat) (name : List UInt8) (inum : Nat) : Prop :=
  ∃ r s', (dirlink dp name inum).run s = .ok r s' ∧ Dir s' dp i ∧
    match (s.node i).table.get (fileName name) with
    | some _ => r = false ∧ Unchanged s s'
    | none =>
      r = true ∧ (s'.node i).table.get (fileName name) = some inum ∧
          (∀ k ≠ fileName name, (s'.node i).table.get k = (s.node i).table.get k) ∨
        (s.node i).Full ∧ r = false ∧ Unchanged s s'

/-- When it does. -/
def CanLink (s : Fs) (i : Nat) (name : List UInt8) (inum : Nat) : Prop :=
  match (s.node i).table.get (fileName name) with
  | some j => ∃ x, s.igetEntry j = some x ∧ (s.icache x).lock = false
  | none => (0 < inum ∧ inum < 2 ^ 16) ∧ ((s.node i).table.free < (s.node i).table.len ∨
      (s.node i).size < MAXFILE * BSIZE ∧ Room s.disk (s.dinode i) (slots (s.node i).size DIRENT))

theorem dirlink_present_ok (h : Dir s dp i) {r : Bool} (hget : (s.node i).table.get (fileName name) = some j)
    (hrun : (dirlink dp name inum).run s = .ok r s') : ∃ x, s.igetEntry j = some x ∧ (s.icache x).lock = false := by
  rw [dirlink_present h inum hget] at hrun
  obtain ⟨u, t, hput, -⟩ := bind_eq_ok_iff.1 hrun
  obtain ⟨x, t', hx, hput⟩ := bind_eq_ok_iff.1 hput
  rw [iget_run] at hx
  cases hentry : s.igetEntry j with
  | none =>
    rw [hentry] at hx
    cases hx
  | some y =>
    rw [hentry] at hx
    cases hx
    refine ⟨x, rfl, Bool.eq_false_iff.2 fun hlock => ?_⟩
    have hlocked : ((setEntry s x ((s.icache x).gotten j)).icache x).lock = true := by
      rw [setEntry_self, Inode.gotten]
      split <;> exact hlock
    rw [iput_locked hlocked] at hput
    cases hput

theorem dirlink_unchanged (h : Dir s dp i) (inum : Nat) {x : Fin NINODE}
    (hget : (s.node i).table.get (fileName name) = some j) (hx : s.igetEntry j = some x)
    (hlock : (s.icache x).lock = false) : ∃ s', (dirlink dp name inum).run s = .ok false s' ∧ Unchanged s s' := by
  obtain ⟨s', hrun, hsame⟩ := iget_iput_run hlock hx
  exact ⟨s', by rw [dirlink_present h inum hget, bind_ok hrun]; rfl, hsame⟩

theorem links_present (h : Dir s dp i) (hget : (s.node i).table.get (fileName name) = some j) :
    Links s dp i name inum ↔ CanLink s i name inum := by
  simp only [Links, CanLink, hget]
  constructor
  · rintro ⟨r, s', hrun, -⟩
    exact dirlink_present_ok h hget hrun
  · rintro ⟨x, hx, hlock⟩
    obtain ⟨s', hrun, hsame⟩ := dirlink_unchanged h inum hget hx hlock
    exact ⟨false, s', hrun, hsame.dir h, rfl, hsame⟩

/-- Where the first free slot is and how far the directory has to reach for it. -/
theorem Dir.free_cases (h : Dir s dp i) :
    ((s.node i).table.free < (s.node i).table.len ∧ DIRENT * (s.node i).table.free + DIRENT ≤ MAXFILE * BSIZE) ∨
      ((s.node i).table.free = (s.node i).table.len ∧ DIRENT * (s.node i).table.free = (s.node i).size) := by
  have hle := (s.node i).table.free_le
  have hlen : (s.node i).table.len = (s.node i).size / 16 := rfl
  have hwhole : (s.node i).size % 16 = 0 := h.whole
  have hmax := h.max
  rcases Nat.lt_or_ge (s.node i).table.free (s.node i).table.len with hlt | hge
  · refine .inl ⟨hlt, ?_⟩
    simp only [DIRENT]
    omega
  · refine .inr ⟨by omega, ?_⟩
    simp only [DIRENT]
    omega

/-- `dirlink` of a new name, where there is a slot for it. -/
theorem dirlink_new (h : Dir s dp i) (hlog : EntryFits s) (inum : Nat)
    (hget : (s.node i).table.get (fileName name) = none)
    (hend : DIRENT * (s.node i).table.free + DIRENT ≤ MAXFILE * BSIZE)
    (hroom : Room s.disk (s.dinode i) (slots (DIRENT * (s.node i).table.free) DIRENT)) :
    ∃ s', (dirlink dp name inum).run s = .ok true s' ∧ Dir s' dp i ∧
      Rewritten s i (slots (DIRENT * (s.node i).table.free) DIRENT) s' ∧
      s'.node i = (s.node i).write (DIRENT * (s.node i).table.free) (dirent inum name) ∧
      (s'.node i).table = (s.node i).table.put (s.node i).table.free (entryOf (dirent inum name)) := by
  obtain ⟨s', hrun, hrest⟩ := h.write_entry hlog (s.node i).table.free_le (dirent_length inum name) hend hroom
  refine ⟨s', ?_, hrest⟩
  rw [dirlink_absent h inum hget, bind_ok hrun]
  rfl

/-- `dirlink` panics when the directory is full. -/
theorem dirlink_full (h : Dir s dp i) (inum : Nat) (hget : (s.node i).table.get (fileName name) = none)
    (hend : ¬ DIRENT * (s.node i).table.free + DIRENT ≤ MAXFILE * BSIZE) :
    (dirlink dp name inum).run s = .error "dirlink" s := by
  have hoff := Node.off_le (s.node i).table.free_le
  have hmax : (s.node i).size ≤ 71680 := h.max
  have href : Refused (s.node i) (DIRENT * (s.node i).table.free) (dirent inum name).length := by
    rw [dirent_length]
    exact .inr (.inr (Nat.lt_of_not_le hend))
  have hlen : (dirent inum name).length < 2 ^ 32 := by
    rw [dirent_length]
    decide
  rw [dirlink_absent h inum hget, bind_ok (writei_refused h.toReady (by omega) hlen href)]
  rfl

theorem dirlink_no_room (h : Dir s dp i) (hlog : EntryFits s) (inum : Nat)
    (hget : (s.node i).table.get (fileName name) = none)
    (hend : DIRENT * (s.node i).table.free + DIRENT ≤ MAXFILE * BSIZE)
    (hroom : ¬ Room s.disk (s.dinode i) (slots (DIRENT * (s.node i).table.free) DIRENT)) :
    ∃ t, (dirlink dp name inum).run s = .error "balloc: out of blocks" t := by
  obtain ⟨t, hrun⟩ := h.write_no_room hlog (s.node i).table.free_le (dirent_length inum name) hend hroom
  exact ⟨t, by rw [dirlink_absent h inum hget, bind_error hrun]⟩

theorem entryOf_dirent_mod (inum : Nat) (name : List UInt8) :
    entryOf (dirent inum name) = if inum % 2 ^ 16 = 0 then none else some (fileName name, inum % 2 ^ 16) := by
  rw [entryOf, direntInum_dirent, fileName_dirent]

theorem dirlink_absent_ok (h : Dir s dp i) (hlog : EntryFits s) {r : Bool}
    (hget : (s.node i).table.get (fileName name) = none)
    (hrun : (dirlink dp name inum).run s = .ok r s') :
    r = true ∧ DIRENT * (s.node i).table.free + DIRENT ≤ MAXFILE * BSIZE ∧
      Room s.disk (s.dinode i) (slots (DIRENT * (s.node i).table.free) DIRENT) ∧
      (s'.node i).table = (s.node i).table.put (s.node i).table.free (entryOf (dirent inum name)) := by
  have hend : DIRENT * (s.node i).table.free + DIRENT ≤ MAXFILE * BSIZE := by
    by_contra hend
    rw [dirlink_full h inum hget hend] at hrun
    cases hrun
  have hroom : Room s.disk (s.dinode i) (slots (DIRENT * (s.node i).table.free) DIRENT) := by
    by_contra hroom
    obtain ⟨t, herr⟩ := dirlink_no_room h hlog inum hget hend hroom
    rw [herr] at hrun
    cases hrun
  obtain ⟨s'', hrun', -, -, -, htable⟩ := dirlink_new h hlog inum hget hend hroom
  rw [hrun'] at hrun
  cases hrun
  exact ⟨rfl, hend, hroom, htable⟩

theorem links_absent (h : Dir s dp i) (hlog : EntryFits s) (hdist : (s.node i).table.Distinct)
    (hget : (s.node i).table.get (fileName name) = none) : Links s dp i name inum ↔ CanLink s i name inum := by
  have hopen := (s.node i).table.open_free
  simp only [Links, CanLink, hget]
  constructor
  · rintro ⟨r, s', hrun, -, hspec⟩
    obtain ⟨rfl, hend, hroom, htable⟩ := dirlink_absent_ok h hlog hget hrun
    have hinum : (s'.node i).table.get (fileName name) = some inum := by
      rcases hspec with ⟨-, hinum, -⟩ | ⟨-, hr, -⟩
      · exact hinum
      · cases hr
    refine ⟨?_, ?_⟩
    · rw [htable, entryOf_dirent_mod] at hinum
      by_cases h0 : inum % 2 ^ 16 = 0
      · rw [if_pos h0, Table.get_put_none (s.node i).table.free_le hget] at hinum
        cases hinum
      · rw [if_neg h0, hdist.get_insert_self hopen hget] at hinum
        have hmod := Option.some.inj hinum
        omega
    · rcases h.free_cases with ⟨hlt, -⟩ | ⟨-, hsize⟩
      · exact .inl hlt
      · rw [hsize] at hroom hend
        exact .inr ⟨by simp only [DIRENT] at hend; omega, hroom⟩
  · rintro ⟨hinum, hcan⟩
    have hready : DIRENT * (s.node i).table.free + DIRENT ≤ MAXFILE * BSIZE ∧
        Room s.disk (s.dinode i) (slots (DIRENT * (s.node i).table.free) DIRENT) := by
      rcases h.free_cases with ⟨hlt, hend⟩ | ⟨hlen, hsize⟩
      · exact ⟨hend, h.room hlt⟩
      · obtain ⟨hmax, hroom⟩ := hcan.resolve_left (by omega)
        have hwhole : (s.node i).size % 16 = 0 := h.whole
        rw [hsize]
        refine ⟨?_, hroom⟩
        simp only [DIRENT, MAXFILE, NDIRECT, NINDIRECT, BSIZE] at hmax ⊢
        omega
    obtain ⟨s', hrun, hdir, -, -, htable⟩ := dirlink_new h hlog inum hget hready.1 hready.2
    rw [entryOf_dirent hinum] at htable
    refine ⟨true, s', hrun, hdir, .inl ⟨rfl, ?_, fun k hk => ?_⟩⟩
    · rw [htable, hdist.get_insert_self hopen hget]
    · rw [htable, hdist.get_insert_of_ne hopen hget hk]

theorem links_iff (h : Dir s dp i) (hlog : EntryFits s) (hdist : (s.node i).table.Distinct) (name : List UInt8)
    (inum : Nat) :
    Links s dp i name inum ↔ CanLink s i name inum := by
  cases hget : (s.node i).table.get (fileName name) with
  | some j => exact links_present h hget
  | none => exact links_absent h hlog hdist hget

/-- Whatever `dirlink` returns, it leaves distinct names distinct. -/
theorem dirlink_distinct (h : Dir s dp i) (hlog : EntryFits s) (hdist : (s.node i).table.Distinct) {r : Bool}
    (hrun : (dirlink dp name inum).run s = .ok r s') : (s'.node i).table.Distinct := by
  cases hget : (s.node i).table.get (fileName name) with
  | some j =>
    obtain ⟨x, hx, hlock⟩ := dirlink_present_ok h hget hrun
    obtain ⟨s'', hrun', hsame⟩ := dirlink_unchanged h inum hget hx hlock
    rw [hrun'] at hrun
    cases hrun
    rwa [hsame.node_eq]
  | none =>
    obtain ⟨-, -, -, htable⟩ := dirlink_absent_ok h hlog hget hrun
    rw [htable, entryOf_dirent_mod]
    split
    · exact hdist.erase (s.node i).table.free_le
    · exact hdist.insert (s.node i).table.open_free hget

/-- `memset(&de, 0, sizeof(de))` and the `writei` in `sys_unlink`. -/
def sys_unlink.erase (dp : Fin NINODE) (off : Nat) : FsM Unit := do
  if (← writei dp (List.replicate DIRENT 0) off) ≠ some DIRENT then
    throw "unlink: writei"

theorem erase_run (h : Dir s dp i) (hlog : EntryFits s) (hj : j < (s.node i).table.len) :
    ∃ s', (sys_unlink.erase dp (DIRENT * j)).run s = .ok () s' ∧ Dir s' dp i ∧ s'.outstanding = s.outstanding ∧
      (s'.node i).table = (s.node i).table.put j none := by
  have hend : DIRENT * j + DIRENT ≤ MAXFILE * BSIZE := by
    have hmax := h.max
    have hj : j < (s.node i).size / 16 := hj
    simp only [DIRENT]
    omega
  obtain ⟨s', hrun, hdir, hrew, -, htable⟩ := h.write_entry hlog (Nat.le_of_lt hj)
    (List.length_replicate (n := DIRENT)) hend (h.room hj)
  exact ⟨s', bind_ok hrun, hdir, hrew.outstanding, htable⟩

/-- The offset that `dirlookup` reports is that of the name's entry. -/
theorem dirlookup_off (h : Dir s dp i) {ip : Fin NINODE} {off : Nat}
    (hrun : (dirlookup dp name).run s = .ok (some (ip, off)) s') :
    ∃ j inum, off = DIRENT * j ∧ j < (s.node i).table.len ∧ (s.node i).table.slot j = some (fileName name, inum) := by
  rw [dirlookup_run h.toReady h.toIsDir] at hrun
  cases hget : (s.node i).table.get (fileName name) with
  | none =>
    rw [found_none hget] at hrun
    cases hrun
  | some inum =>
    obtain ⟨j, hindex, hslot⟩ := Table.exists_of_get hget
    rw [found_some hindex hget] at hrun
    obtain ⟨x, t, -, hpure⟩ := bind_eq_ok_iff.1 hrun
    cases hpure
    exact ⟨j, inum, rfl, (Table.index_some hindex).1, hslot⟩

/-- Steps of the kernel, as far as the directory `i` goes: links, erasures at offsets that `dirlookup` reports,
and everything else that leaves the directory alone. -/
inductive DirStep (i : Nat) : Fs → Fs → Prop
  | link {s s' : Fs} {dp : Fin NINODE} {r : Bool} (name : List UInt8) (inum : Nat) : Dir s dp i → EntryFits s →
      (dirlink dp name inum).run s = .ok r s' → DirStep i s s'
  | erase {s s' t : Fs} {dp ip : Fin NINODE} {off : Nat} (name : List UInt8) : Dir s dp i → EntryFits s →
      (dirlookup dp name).run s = .ok (some (ip, off)) t → (sys_unlink.erase dp off).run s = .ok () s' → DirStep i s s'
  | other {s s' : Fs} : s'.node i = s.node i → DirStep i s s'

theorem step_distinct (hdist : (s.node i).table.Distinct) (hstep : DirStep i s s') : (s'.node i).table.Distinct := by
  cases hstep with
  | link name inum h hlog hrun => exact dirlink_distinct h hlog hdist hrun
  | erase name h hlog hlookup hrun =>
    obtain ⟨j, inum, rfl, hj, -⟩ := dirlookup_off h hlookup
    obtain ⟨s'', hrun', -, -, htable⟩ := erase_run h hlog hj
    rw [hrun'] at hrun
    cases hrun
    rw [htable]
    exact hdist.erase (Nat.le_of_lt hj)
  | other hnode => rwa [hnode]

/-- What an erasure is to do to the finite map. -/
def Erases (s : Fs) (dp : Fin NINODE) (i : Nat) (name : List UInt8) : Prop :=
  ∀ ip off t, (dirlookup dp name).run s = .ok (some (ip, off)) t →
    ∃ s', (sys_unlink.erase dp off).run s = .ok () s' ∧ Dir s' dp i ∧ (s'.node i).table.get (fileName name) = none ∧
      ∀ k ≠ fileName name, (s'.node i).table.get k = (s.node i).table.get k

/-- A directory that starts with distinct names is a finite map in every state that links and erasures lead to, and
`dirlookup` and the erasures work on it as such. So does `dirlink` exactly where `CanLink` holds. -/
theorem directory_map {s₀ : Fs} (hdist : (s₀.node i).table.Distinct)
    (hrun : run.Reachable (· = s₀) (DirStep i) s) :
    (s.node i).table.Distinct ∧ ∀ dp, Dir s dp i → EntryFits s → ∀ name,
      (dirlookup dp name).run s = (found (s.node i).table name).run s ∧ Erases s dp i name ∧
        ∀ inum, Links s dp i name inum ↔ CanLink s i name inum := by
  have hdist : (s.node i).table.Distinct :=
    hrun.inv (fun s hs => hs ▸ hdist) fun s s' hdist hstep => step_distinct hdist hstep
  refine ⟨hdist, fun dp h hlog name => ⟨dirlookup_run h.toReady h.toIsDir name, ?_, links_iff h hlog hdist name⟩⟩
  intro ip off t hlookup
  obtain ⟨j, inum, rfl, hj, hslot⟩ := dirlookup_off h hlookup
  obtain ⟨s', hrun, hdir, -, htable⟩ := erase_run h hlog hj
  refine ⟨s', hrun, hdir, ?_, fun k hk => ?_⟩
  · rw [htable, hdist.get_erase_self hj hslot]
  · rw [htable, hdist.get_erase_of_ne hj hslot hk]

end

/-! ### A directory filled up -/

/-- The empty directory that inode 1 of the disk is made. -/
def newDir : Dinode := { Dinode.cleared T_DIR with nlink := 1 }

def dirDisk : Mem := writeDinode emptyDisk 1 newDir

/-- A file system with one empty directory, which is locked. -/
def emptyDir : Fs :=
  { emptyFs with
    disk := dirDisk
    icache := fun x => if x = 0 then ⟨1, 1, true, true, newDir⟩ else ⟨0, 0, false, false, Dinode.cleared 0⟩
    outstanding := 1 }

theorem emptyDir_disk : emptyDir.disk = dirDisk := by simp only [emptyDir]

theorem emptyDir_cached : Cached emptyDir 0 1 := by
  refine ⟨by decide, rfl, by decide, fun x hx _ => by_contra fun hne => ?_⟩
  simp [emptyDir, hne] at hx

theorem emptyDir_dinode : emptyDir.dinode 1 = newDir := by
  rw [emptyDir_cached.dinode_eq]
  exact if_pos rfl

theorem emptyDir_addrs {j : Nat} (hj : j < ninode) (k : Fin (NDIRECT + 1)) : (emptyDir.dinode j).addrs k = 0 := by
  by_cases hj1 : j = 1
  · rw [hj1, emptyDir_dinode]
    rfl
  · rw [Fs.dinode]
    split
    next x hx =>
      have hp := List.find?_some hx
      simp only [decide_eq_true_eq] at hp
      obtain rfl : x = 0 := by_contra fun hne => by simp [emptyDir, hne] at hp
      exact absurd hp.2.2.symm hj1
    next =>
      rw [emptyDir_disk, dirDisk, readDinode_writeDinode_ne hj1]
      exact emptyDisk_addrs hj k

theorem dirDisk_inUse (b : Nat) : inUse dirDisk b = inUse emptyDisk b := by
  rw [dirDisk, inUse_writeDinode _ _ (by decide)]

theorem emptyDir_size : (emptyDir.node 1).size = 0 := by
  rw [Fs.node, emptyDir_dinode]
  rfl

theorem emptyDir_dir : Dir emptyDir 0 1 := by
  refine ⟨⟨emptyDir_cached, rfl, ?_, ?_, ?_⟩, ⟨?_, ?_, ?_, ?_⟩, rfl, by decide⟩
  · rw [emptyDir_dinode]
    decide
  · rw [emptyDir_dinode]
    decide
  · rw [emptyDir_disk]
    exact owned_of_unused (fun b hb => by rw [dirDisk_inUse, emptyDisk_inUse b hb]) fun j hj => emptyDir_addrs hj
  · rw [emptyDir_dinode]
    rfl
  · rw [emptyDir_dinode]
    exact fun bn _ hlt => absurd hlt (Nat.not_lt_zero _)
  · rw [emptyDir_size]
    rfl
  · rw [emptyDir_size]
    exact Nat.zero_le _

theorem emptyDir_room (off n : Nat) : Room emptyDir.disk (emptyDir.dinode 1) (slots off n) := by
  have hfree : freeBlocks dirDisk = freeBlocks emptyDisk := by simp only [freeBlocks, dirDisk_inUse]
  rw [emptyDir_disk, Room, hfree]
  exact (Finset.card_filter_le _ _).trans ((slots_card_le_max off n).trans emptyDisk_free)

theorem emptyDir_len : (emptyDir.node 1).table.len = 0 := by
  show (emptyDir.node 1).size / DIRENT = 0
  rw [emptyDir_size, Nat.zero_div]

theorem emptyDir_distinct : (emptyDir.node 1).table.Distinct := by
  intro j j' k v w hj
  rw [emptyDir_len] at hj
  exact absurd hj (Nat.not_lt_zero _)

/-- The name of entry number `n`. -/
def nthName (n : Nat) : List UInt8 := [UInt8.ofNat (1 + n % 128), UInt8.ofNat (1 + n / 128)]

theorem cut_cons {n : Nat} {c : UInt8} {p : List UInt8} (hc : c ≠ 0) : cut (n + 1) (c :: p) = c :: cut n p := by
  rw [cut_succ, List.headD_cons, if_neg hc, List.tail_cons]

theorem byte_ne_zero {n : Nat} (h : n < 128) : UInt8.ofNat (1 + n) ≠ 0 := by
  intro h0
  have hval := congrArg UInt8.toNat h0
  rw [UInt8.toNat_ofNat'] at hval
  change (1 + n) % 256 = 0 at hval
  omega

theorem fileName_nthName {n : Nat} (h : n ≤ 4480) : fileName (nthName n) = nthName n := by
  have h₁ := byte_ne_zero (n := n % 128) (by omega)
  have h₂ := byte_ne_zero (n := n / 128) (by omega)
  show cut (12 + 1 + 1) (nthName n) = _
  rw [nthName, cut_cons h₁, cut_cons h₂]
  rfl

theorem nthName_inj {n n' : Nat} (h : n ≤ 4480) (h' : n' ≤ 4480) (heq : nthName n = nthName n') : n = n' := by
  simp only [nthName, List.cons.injEq, and_true] at heq
  have h₁ := congrArg UInt8.toNat heq.1
  have h₂ := congrArg UInt8.toNat heq.2
  simp only [UInt8.toNat_ofNat'] at h₁ h₂
  omega

/-- A directory with the first `n` names and room for the rest of them, at the beginning of a transaction. -/
structure Filled (s : Fs) (n : Nat) : Prop where
  dir : Dir s 0 1
  alone : s.outstanding = 1
  log : s.lh = []
  size : (s.node 1).size = DIRENT * n
  slot : ∀ j < n, (s.node 1).table.slot j = some (nthName j, 1)
  room : Room s.disk (s.dinode 1) (slots 0 (MAXFILE * BSIZE))

theorem entryFits_of_nil {s : Fs} (h : s.lh = []) : EntryFits s := by
  rw [EntryFits, h]
  decide

/-- The transaction ends and the next one begins. -/
theorem commit_run {s : Fs} (h : s.outstanding = 1) :
    (end_op >>= fun _ => begin_op).run s = .ok () { s with outstanding := 1, lh := [] } := by
  rw [end_op, modify_bind, begin_op_run] <;> simp only [h, if_true, Nat.sub_self]
  decide

theorem Dir.commit {s : Fs} {dp : Fin NINODE} {i : Nat} (h : Dir s dp i) :
    Dir { s with outstanding := 1, lh := [] } dp i :=
  ⟨h.toReady.log 1 [], ⟨h.dir, h.dense, h.whole, h.max⟩, h.lock, Nat.one_pos⟩

theorem Filled.len {s : Fs} {n : Nat} (h : Filled s n) : (s.node 1).table.len = n := by
  show (s.node 1).size / DIRENT = n
  rw [h.size]
  simp only [DIRENT]
  omega

theorem Filled.free {s : Fs} {n : Nat} (h : Filled s n) : (s.node 1).table.free = n := by
  rw [Table.free_eq_len, h.len]
  intro j hj
  rw [h.slot j (h.len ▸ hj)]
  exact Option.some_ne_none _

theorem Filled.get {s : Fs} {n : Nat} (h : Filled s n) (hn : n ≤ 4480) :
    (s.node 1).table.get (fileName (nthName n)) = none := by
  refine Table.get_eq_none_iff.2 (Table.index_eq_none_iff.2 fun j hj v hslot => ?_)
  rw [h.len] at hj
  rw [h.slot j hj, fileName_nthName hn] at hslot
  have heq := nthName_inj (by omega) hn (Prod.mk.inj (Option.some.inj hslot)).1
  omega

/-- One more link. -/
theorem Filled.link {s : Fs} {n : Nat} (h : Filled s n) (hn : n < 4480) :
    ∃ s', (dirlink 0 (nthName n) 1).run s = .ok true s' ∧
      ∃ t, (end_op >>= fun _ => begin_op).run s' = .ok () t ∧ t.node = s'.node ∧ Filled t (n + 1) := by
  have hend : DIRENT * n + DIRENT ≤ MAXFILE * BSIZE := by
    simp only [DIRENT, MAXFILE, NDIRECT, NINDIRECT, BSIZE]
    omega
  have hN : slots (DIRENT * n) DIRENT ⊆ slots 0 (MAXFILE * BSIZE) := slots_mono (Nat.zero_le _) (by omega)
  obtain ⟨s', hrun, hdir, hrew, hnode, htable⟩ := dirlink_new h.dir (entryFits_of_nil h.log) 1
    (h.get (Nat.le_of_lt hn)) (by rwa [h.free]) (by rw [h.free]; exact h.room.mono hN)
  rw [h.free] at hnode htable hrew
  rw [entryOf_dirent (by decide), fileName_nthName (by omega)] at htable
  have halone := hrew.outstanding.trans h.alone
  refine ⟨s', hrun, _, commit_run halone, rfl, hdir.commit, rfl, rfl, ?_, fun j hj => ?_, hrew.room hN h.room⟩
  · show (s'.node 1).size = _
    rw [hnode, Node.write, h.size, dirent_length]
    simp only [DIRENT]
    omega
  · show (s'.node 1).table.slot j = _
    rw [htable, Table.put]
    by_cases hjn : j = n
    · rw [hjn]
      exact Function.update_self ..
    · exact (Function.update_of_ne hjn ..).trans (h.slot j (by omega))

theorem emptyDir_filled : Filled emptyDir 0 :=
  ⟨emptyDir_dir, rfl, rfl, emptyDir_size, fun j hj => absurd hj (Nat.not_lt_zero j), emptyDir_room _ _⟩

theorem filled_reachable {n : Nat} (hn : n ≤ 4480) : ∃ s, run.Reachable (· = emptyDir) (DirStep 1) s ∧ Filled s n := by
  induction n with
  | zero => exact ⟨emptyDir, .start rfl, emptyDir_filled⟩
  | succ n ih =>
    obtain ⟨s, hreach, hfilled⟩ := ih (by omega)
    obtain ⟨s', hrun, t, -, hnode, hfilled'⟩ := hfilled.link (by omega)
    refine ⟨t, .next (.next hreach (.link _ _ hfilled.dir (entryFits_of_nil hfilled.log) hrun)) ?_, hfilled'⟩
    exact .other (congrFun hnode 1)

/-- 4480 links, each in a transaction of its own, fill an empty directory. The next one makes `dirlink` panic where it
should return -1. -/
theorem dirlink_panics : ∃ s name, run.Reachable (· = emptyDir) (DirStep 1) s ∧ Dir s 0 1 ∧ s.lh = [] ∧
    (s.node 1).Full ∧ (s.node 1).table.get (fileName name) = none ∧
    (dirlink 0 name 1).run s = .error "dirlink" s := by
  obtain ⟨s, hreach, hfilled⟩ := filled_reachable (Nat.le_refl 4480)
  have hget := hfilled.get (Nat.le_refl _)
  refine ⟨s, nthName 4480, hreach, hfilled.dir, hfilled.log, ⟨?_, hfilled.size⟩, hget,
    dirlink_full hfilled.dir 1 hget ?_⟩
  · rw [hfilled.free, hfilled.len]
  · rw [hfilled.free]
    decide

/-- The directory looks up one of its names. -/
theorem Filled.lookup {s : Fs} {n j : Nat} (h : Filled s n) (hdist : (s.node 1).table.Distinct) (hj : j < n)
    (hn : n ≤ 4480) : ∃ ip t, (dirlookup 0 (nthName j)).run s = .ok (some (ip, DIRENT * j)) t := by
  have hname := fileName_nthName (n := j) (by omega)
  have hlen : j < (s.node 1).table.len := by rwa [h.len]
  have hget : (s.node 1).table.get (fileName (nthName j)) = some 1 := by
    rw [hname]
    exact hdist.get_eq_some_iff.2 ⟨j, hlen, h.slot j hj⟩
  obtain ⟨k, hindex, hslot⟩ := Table.exists_of_get hget
  rw [hname] at hslot
  obtain rfl : k = j := hdist k j _ _ _ (Table.index_some hindex).1 hlen hslot (h.slot j hj)
  obtain ⟨x, hx⟩ := igetEntry_of_cached h.dir.toCached
  have higet := iget_run (s := s) 1
  rw [hx] at higet
  refine ⟨x, setEntry s x ((s.icache x).gotten 1), ?_⟩
  rw [dirlookup_run h.dir.toReady h.dir.toIsDir, found_some hindex hget]
  exact bind_ok higet

/-- Two links and an erasure leave a directory with a free entry, which the next link takes. -/
theorem directory_map_reused : ∃ s, run.Reachable (· = emptyDir) (DirStep 1) s ∧ (s.node 1).table.len = 2 ∧
    (s.node 1).table.free = 0 ∧ (s.node 1).table.get (nthName 0) = none ∧
    ∃ s', (dirlink 0 (nthName 2) 5).run s = .ok true s' ∧ (s'.node 1).table.get (nthName 2) = some 5 ∧
      (s'.node 1).table.get (nthName 1) = some 1 := by
  obtain ⟨s, hreach, h⟩ := filled_reachable (show 2 ≤ 4480 by decide)
  have hdist := (directory_map emptyDir_distinct hreach).1
  have hlen : (s.node 1).table.len = 2 := h.len
  have hfits := entryFits_of_nil h.log
  obtain ⟨ip, u, hlookup⟩ := h.lookup hdist (show 0 < 2 by decide) (by decide)
  obtain ⟨s₁, hrun, hdir, hout, htable⟩ := erase_run (j := 0) h.dir hfits (by rw [hlen]; decide)
  obtain ⟨t, ht⟩ : ∃ t, t = { s₁ with outstanding := 1, lh := [] } := ⟨_, rfl⟩
  have hdir' : Dir t 0 1 := ht ▸ hdir.commit
  have hnode : t.node 1 = s₁.node 1 := ht ▸ rfl
  have hreach' : run.Reachable (· = emptyDir) (DirStep 1) t :=
    .next (.next hreach (.erase _ h.dir hfits hlookup hrun)) (.other hnode)
  rw [← hnode] at htable
  have hlen' : (t.node 1).table.len = 2 := by
    rw [htable, Table.put, hlen]
    rfl
  have hfree : (t.node 1).table.free = 0 := by
    rw [Table.free, hlen', htable]
    simp [Table.put, List.range_succ]
  have hget : (t.node 1).table.get (fileName (nthName 2)) = none := by
    rw [htable]
    exact Table.get_put_none (Nat.zero_le _) (h.get (by decide))
  have hone : (t.node 1).table.get (nthName 1) = some 1 := by
    rw [htable, hdist.get_erase_of_ne (by rw [hlen]; decide) (h.slot 0 (by decide)) (by decide)]
    exact hdist.get_eq_some_iff.2 ⟨1, by rw [hlen]; decide, h.slot 1 (by decide)⟩
  obtain ⟨-, hmap⟩ := directory_map emptyDir_distinct hreach'
  have hcan : CanLink t 1 (nthName 2) 5 := by
    simp only [CanLink, hget]
    exact ⟨by decide, .inl (by rw [hfree, hlen']; decide)⟩
  obtain ⟨r, s', hrun', -, hspec⟩ := ((hmap 0 hdir' (entryFits_of_nil (ht ▸ rfl)) (nthName 2)).2.2 5).2 hcan
  rw [hget] at hspec
  refine ⟨t, hreach', hlen', hfree, ?_, s', ?_⟩
  · rw [htable, hdist.get_erase_self (by rw [hlen]; decide) (h.slot 0 (by decide))]
  · rcases hspec with ⟨rfl, hnew, hothers⟩ | ⟨⟨hfull, -⟩, -⟩
    · exact ⟨hrun', hnew, (hothers _ (by decide)).trans hone⟩
    · rw [hfree, hlen'] at hfull
      cases hfull

end xv6.fs
