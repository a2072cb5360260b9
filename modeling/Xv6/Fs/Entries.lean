import Xv6.Lib.Table
import Xv6.Fs.Dir
import Xv6.Fs.Files

open bytes owner outcome table

namespace xv6.fs

/-! ### Names -/

/-- The bytes of a string of at most `n` bytes, up to its NUL. -/
def cut (n : Nat) (p : List UInt8) : List UInt8 := (p.take n).takeWhile (· ≠ 0)

theorem cut_succ (n : Nat) (p : List UInt8) :
    cut (n + 1) p = if p.headD 0 = 0 then [] else p.headD 0 :: cut n p.tail := by
  cases p with
  | nil => rfl
  | cons c p =>
    by_cases hc : c = 0
    · simp [cut, hc]
    · simp [cut, hc]

theorem strncmp_iff (n : Nat) (p q : List UInt8) : strncmp n p q = true ↔ cut n p = cut n q := by
  induction n generalizing p q with
  | zero => simp [strncmp, cut]
  | succ n ih =>
    rw [strncmp, cut_succ, cut_succ]
    by_cases hboth : p.headD 0 ≠ 0 ∧ p.headD 0 = q.headD 0
    · rw [if_pos hboth, ih, if_neg hboth.1, if_neg (hboth.2 ▸ hboth.1), hboth.2, List.cons.injEq]
      exact (and_iff_right rfl).symm
    · rw [if_neg hboth, beq_iff_eq]
      by_cases hp : p.headD 0 = 0 <;> by_cases hq : q.headD 0 = 0
      · simp only [hp, hq, if_true]
      · simp only [hp, hq, if_true, if_false, reduceCtorEq, iff_false]
        exact fun h => hq h.symm
      · simp only [hp, hq, if_true, if_false, reduceCtorEq]
      · simp only [hp, hq, if_false, List.cons.injEq]
        exact ⟨fun h => absurd ⟨hp, h⟩ hboth, fun h => h.1⟩

theorem cut_strncpy (n : Nat) (t : List UInt8) : cut n (strncpy n t) = cut n t := by
  induction n generalizing t with
  | zero => rfl
  | succ n ih =>
    rw [cut_succ n t, strncpy]
    by_cases ht : t.headD 0 = 0
    · rw [if_pos ht, if_pos ht, List.replicate_succ, cut_succ, List.headD_cons, if_pos rfl]
    · rw [if_neg ht, if_neg ht, cut_succ, List.headD_cons, if_neg ht, List.tail_cons, ih]

theorem strncpy_length (n : Nat) (t : List UInt8) : (strncpy n t).length = n := by
  induction n generalizing t with
  | zero => rfl
  | succ n ih =>
    rw [strncpy]
    split
    · exact List.length_replicate
    · rw [List.length_cons, ih]

/-- Names are compared on their first `DIRSIZ` bytes up to a NUL. -/
def fileName (name : List UInt8) : List UInt8 := cut DIRSIZ name

theorem namecmp_iff (s t : List UInt8) : namecmp s t = true ↔ fileName s = fileName t := strncmp_iff ..

theorem dirent_length (inum : Nat) (name : List UInt8) : (dirent inum name).length = DIRENT := by
  simp only [dirent, List.length_cons, strncpy_length]

theorem direntInum_dirent (inum : Nat) (name : List UInt8) : direntInum (dirent inum name) = inum % 2 ^ 16 := by
  simp only [direntInum, dirent, List.getD_cons_zero, List.getD_cons_succ, UInt8.toNat_ofNat']
  omega

theorem fileName_dirent (inum : Nat) (name : List UInt8) : fileName (direntName (dirent inum name)) = fileName name := by
  have htake : direntName (dirent inum name) = strncpy DIRSIZ name :=
    List.take_of_length_le (Nat.le_of_eq (strncpy_length DIRSIZ name))
  rw [htake, fileName, cut_strncpy, fileName]

/-! ### Directories as tables -/

/-- What an entry stands for: nothing if its inode number is 0. -/
def entryOf (de : List UInt8) : Option (List UInt8 × Nat) :=
  if direntInum de = 0 then none else some (fileName (direntName de), direntInum de)

theorem entryOf_dirent {inum : Nat} (h : 0 < inum ∧ inum < 2 ^ 16) (name : List UInt8) :
    entryOf (dirent inum name) = some (fileName name, inum) := by
  rw [entryOf, direntInum_dirent, Nat.mod_eq_of_lt h.2, if_neg (Nat.pos_iff_ne_zero.1 h.1), fileName_dirent]

/-- The table of the names and inode numbers in a directory. -/
def Node.table (f : Node) : Table (List UInt8) Nat := ⟨f.size / DIRENT, fun j => entryOf (f.read (DIRENT * j) DIRENT)⟩

theorem Node.table_slot (f : Node) (j : Nat) : f.table.slot j = entryOf (f.read (DIRENT * j) DIRENT) := rfl

/-- Writing an entry fills its slot. -/
theorem Node.table_write {f : Node} {j : Nat} {de : List UInt8} (hwhole : f.size % DIRENT = 0)
    (hj : DIRENT * j ≤ f.size) (hde : de.length = DIRENT) :
    (f.write (DIRENT * j) de).table = f.table.put j (entryOf de) := by
  have hlen : (f.write (DIRENT * j) de).size / DIRENT = max (f.size / DIRENT) (j + 1) := by
    simp only [Node.write, hde, DIRENT] at hwhole hj ⊢
    omega
  have hslot (j' : Nat) : (f.write (DIRENT * j) de).read (DIRENT * j') DIRENT =
      if j' = j then de else f.read (DIRENT * j') DIRENT := by
    by_cases hjj : j' = j
    · rw [if_pos hjj, hjj]
      have hread := f.read_write (DIRENT * j) de
      rwa [hde] at hread
    · have hcount : min DIRENT ((f.write (DIRENT * j) de).size - DIRENT * j') = min DIRENT (f.size - DIRENT * j') := by
        simp only [Node.write, hde, DIRENT] at hwhole hj ⊢
        omega
      rw [if_neg hjj, Node.read, hcount, Node.read]
      refine slice_congr fun k hk => ?_
      simp only [Node.write, blit, hde]
      rw [if_neg]
      simp only [DIRENT] at hk ⊢
      omega
  rw [Node.table, Table.put, hlen]
  congr 1
  funext j'
  rw [hslot, Function.update_apply]
  split
  · rfl
  · rfl

/-- A directory is well formed: it has no holes, and whole entries. -/
structure IsDir (s : Fs) (i : Nat) : Prop where
  dir : (s.dinode i).type = T_DIR
  dense : Dense s.disk (s.dinode i)
  whole : (s.node i).size % DIRENT = 0
  max : (s.node i).size ≤ MAXFILE * BSIZE

section
variable {s : Fs} {ip dp : Fin NINODE} {i : Nat}

/-- `bmap` on a block that is there. -/
theorem bmap_present {d : Dinode} {bn : Nat} (hdin : (s.icache ip).din = d) (hbn : bn < MAXFILE)
    (hb : d.block s.disk bn ≠ 0) : (bmap ip bn).run s = .ok (d.block s.disk bn) s := by
  rw [bmap, readInode_bind, hdin]
  by_cases hlt : bn < NDIRECT
  · have hblock : d.block s.disk bn = d.addrs ⟨bn, Nat.lt_succ_of_lt hlt⟩ := by rw [Dinode.block, slotOf_direct hlt]; rfl
    rw [dif_pos hlt, if_neg (hblock ▸ hb), hblock]
    rfl
  · have hj : bn - NDIRECT < NINDIRECT := by
      simp only [NDIRECT, MAXFILE, NINDIRECT] at hbn hlt ⊢
      omega
    have hind : d.ind ≠ 0 := Dinode.path_ne_zero hb (ind_mem_path hlt)
    have hblock : d.block s.disk bn = indirect s.disk d.ind (bn - NDIRECT) := by
      rw [Dinode.block, slotOf_indirect hlt hj]
      exact if_neg hind
    rw [dif_neg hlt, if_pos hj, if_neg hind, pure_bind, get_bind, if_neg (hblock ▸ hb), hblock]
    rfl

/-- Reading an entry changes nothing. -/
theorem readDirent_run (h : Ready s dp i) (hdir : IsDir s i) {j : Nat} (hj : j < (s.node i).table.len) (msg : String) :
    (readDirent dp (DIRENT * j) msg).run s = .ok ((s.node i).read (DIRENT * j) DIRENT) s := by
  have hsize : DIRENT * j + DIRENT ≤ (s.dinode i).size := by
    have hwhole : (s.dinode i).size % 16 = 0 := hdir.whole
    have hj : j < (s.dinode i).size / 16 := hj
    simp only [DIRENT]
    omega
  have hmax : (s.dinode i).size ≤ 71680 := hdir.max
  have hbn : DIRENT * j / BSIZE < MAXFILE := by
    simp only [DIRENT, BSIZE, MAXFILE, NDIRECT, NINDIRECT] at hsize ⊢
    omega
  have hb : (s.dinode i).block s.disk (DIRENT * j / BSIZE) ≠ 0 := hdir.dense _ hbn (by
    simp only [DIRENT, BSIZE] at hsize ⊢
    omega)
  have hfit : DIRENT * j % BSIZE + DIRENT ≤ BSIZE := by
    simp only [DIRENT, BSIZE]
    omega
  have hread : (s.node i).read (DIRENT * j) DIRENT =
      slice s.disk ((s.dinode i).block s.disk (DIRENT * j / BSIZE) * BSIZE + DIRENT * j % BSIZE) DIRENT := by
    have hcount : min DIRENT ((s.node i).size - DIRENT * j) = DIRENT := by
      show min DIRENT ((s.dinode i).size - DIRENT * j) = DIRENT
      omega
    rw [Node.read, hcount]
    refine slice_congr fun k hk => ?_
    have hsame := Dinode.byte_eq (o := DIRENT * j % BSIZE + k) hbn hb (by omega)
    rw [← Nat.add_assoc, Nat.div_add_mod' (DIRENT * j) BSIZE, ← Nat.add_assoc] at hsame
    rw [← hsame]
    exact if_pos (by omega)
  have hreadi : (readi dp (DIRENT * j) DIRENT).run s = .ok (some ((s.node i).read (DIRENT * j) DIRENT)) s := by
    have hu : u32 (DIRENT * j + DIRENT) = DIRENT * j + DIRENT := Nat.mod_eq_of_lt (by omega)
    rw [readi, readInode_bind, h.din_eq, if_neg h.file, hu, if_neg (by omega), if_neg (by omega)]
    have hmin : min DIRENT (BSIZE - DIRENT * j % BSIZE) = DIRENT := by omega
    have hloop : (readLoop dp DIRENT (DIRENT * j) DIRENT).run s = .ok ((s.node i).read (DIRENT * j) DIRENT) s := by
      show (readLoop dp (15 + 1) (DIRENT * j) DIRENT).run s = _
      rw [readLoop, if_neg (by decide), bind_ok (bmap_present h.din_eq hbn hb), get_bind, hmin]
      dsimp only
      rw [Nat.sub_self, bind_ok (readLoop_zero ..), hread, List.append_nil]
      rfl
    exact bind_ok hloop
  rw [readDirent, bind_ok hreadi]
  have hlen : ((s.node i).read (DIRENT * j) DIRENT).length = DIRENT := by rw [hread, slice_length]
  show (if ((s.node i).read (DIRENT * j) DIRENT).length ≠ DIRENT then throw msg else pure _ : FsM _).run s = _
  rw [if_neg (not_not_intro hlen)]
  rfl

/-- The offsets of a directory with whole entries. -/
theorem direntOffs_eq {size : Nat} (h : size % DIRENT = 0) :
    direntOffs 0 size = (List.range (size / DIRENT)).map fun j => DIRENT * j := by
  have hcount : (size - 0 + (DIRENT - 1)) / DIRENT = size / DIRENT := by
    simp only [DIRENT] at h ⊢
    omega
  rw [direntOffs, hcount]
  simp only [Nat.zero_add]

/-- What `dirlookup` does when it has found an entry, or none. -/
def found (t : Table (List UInt8) Nat) (name : List UInt8) : FsM (Option (Fin NINODE × Nat)) :=
  match t.index (fileName name), t.get (fileName name) with
  | some j, some inum => do return some (← iget inum, DIRENT * j)
  | _, _ => return none

theorem dirlookup_loop_run (h : Ready s dp i) (hdir : IsDir s i) (name : List UInt8) {js : List Nat}
    (hjs : ∀ j ∈ js, j < (s.node i).table.len) :
    (dirlookup.loop dp name (js.map fun j => DIRENT * j)).run s =
      match js.find? fun j => ((s.node i).table.slot j).map Prod.fst = some (fileName name) with
      | some j => (do return some (← iget (direntInum ((s.node i).read (DIRENT * j) DIRENT)), DIRENT * j) : FsM _).run s
      | none => .ok none s := by
  induction js with
  | nil => rfl
  | cons j js ih =>
    rw [List.map_cons, dirlookup.loop, bind_ok (readDirent_run h hdir (hjs j List.mem_cons_self) _)]
    have hmatch : (direntInum ((s.node i).read (DIRENT * j) DIRENT) ≠ 0 ∧
        namecmp name (direntName ((s.node i).read (DIRENT * j) DIRENT)) = true) ↔
        ((s.node i).table.slot j).map Prod.fst = some (fileName name) := by
      rw [namecmp_iff, Node.table_slot, entryOf]
      by_cases hfree : direntInum ((s.node i).read (DIRENT * j) DIRENT) = 0
      · simp [hfree]
      · simp [hfree, eq_comm]
    by_cases hj : ((s.node i).table.slot j).map Prod.fst = some (fileName name)
    · rw [if_pos (hmatch.2 hj), List.find?_cons, decide_eq_true hj]
    · rw [if_neg (fun h => hj (hmatch.1 h)), List.find?_cons, decide_eq_false hj]
      exact ih fun j' hj' => hjs j' (List.mem_cons_of_mem _ hj')

/-- `dirlookup` looks a name up in the table of the directory. -/
theorem dirlookup_run (h : Ready s dp i) (hdir : IsDir s i) (name : List UInt8) :
    (dirlookup dp name).run s = (found (s.node i).table name).run s := by
  have htype : (s.icache dp).din.type = T_DIR := by rw [h.din_eq, hdir.dir]
  have hsize : (s.icache dp).din.size = (s.node i).size := by rw [h.din_eq]; rfl
  rw [dirlookup, readInode_bind, if_neg (not_not_intro htype), hsize, direntOffs_eq hdir.whole]
  refine (dirlookup_loop_run h hdir name fun j hj => List.mem_range.1 hj).trans ?_
  rw [found]
  show (match (s.node i).table.index (fileName name) with | some j => _ | none => _) = _
  cases hindex : (s.node i).table.index (fileName name) with
  | none => rfl
  | some j =>
    obtain ⟨-, inum, hslot⟩ := Table.index_some hindex
    rw [Table.get_of_index hindex hslot]
    have hinum : direntInum ((s.node i).read (DIRENT * j) DIRENT) = inum := by
      rw [Node.table_slot, entryOf] at hslot
      split at hslot
      · cases hslot
      · exact (Prod.mk.inj (Option.some.inj hslot)).2
    dsimp only
    rw [hinum]

theorem dirlink_loop_run (h : Ready s dp i) (hdir : IsDir s i) (stop : Nat) {js : List Nat}
    (hjs : ∀ j ∈ js, j < (s.node i).table.len) :
    (dirlink.loop dp (DIRENT * stop) (js.map fun j => DIRENT * j)).run s =
      .ok (DIRENT * (js.find? fun j => ((s.node i).table.slot j).isNone).getD stop) s := by
  induction js with
  | nil => rfl
  | cons j js ih =>
    rw [List.map_cons, dirlink.loop, bind_ok (readDirent_run h hdir (hjs j List.mem_cons_self) _)]
    have hfree : direntInum ((s.node i).read (DIRENT * j) DIRENT) = 0 ↔ ((s.node i).table.slot j).isNone = true := by
      rw [Node.table_slot, entryOf]
      split
      · simpa
      · simpa
    by_cases hj : ((s.node i).table.slot j).isNone = true
    · rw [if_pos (hfree.2 hj), List.find?_cons, hj]
      rfl
    · rw [if_neg (fun h => hj (hfree.1 h)), List.find?_cons, Bool.eq_false_iff.2 hj]
      exact ih fun j' hj' => hjs j' (List.mem_cons_of_mem _ hj')

/-- The part of `dirlink` that looks for an empty entry. -/
theorem dirlink_free_run (h : Ready s dp i) (hdir : IsDir s i) :
    (dirlink.loop dp (DIRENT * (direntOffs 0 (s.node i).size).length) (direntOffs 0 (s.node i).size)).run s =
      .ok (DIRENT * (s.node i).table.free) s := by
  rw [direntOffs_eq hdir.whole, List.length_map, List.length_range]
  exact dirlink_loop_run h hdir _ fun j hj => List.mem_range.1 hj

end

end xv6.fs
