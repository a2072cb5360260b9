import Mathlib.Algebra.BigOperators.Fin
import Xv6.Fs.DirMap

open bytes owner outcome table

namespace xv6.fs

/-! ### Path elements -/

/-- The maximal segments of a path that are not empty and have no slash. -/
def segments (path : List UInt8) : List (List UInt8) := (path.splitOnP (· == slash)).filter (· ≠ [])

/-- The elements of a path: its segments, cut to `DIRSIZ` bytes. -/
def components (path : List UInt8) : List (List UInt8) := (segments path).map fun c => c.take DIRSIZ

theorem segments_slash (path : List UInt8) : segments (slash :: path) = segments path := by
  rw [segments, List.splitOnP_cons_eq_if_modifyHead, if_pos (beq_self_eq_true slash),
    List.filter_cons_of_neg (by simp), segments]

theorem segments_dropSlashes (path : List UInt8) : segments (path.dropWhile (· == slash)) = segments path := by
  induction path with
  | nil => rfl
  | cons c path ih =>
    by_cases hc : c = slash
    · rw [hc, List.dropWhile_cons_of_pos rfl, ih, segments_slash]
    · rw [List.dropWhile_cons_of_neg (by simpa using hc)]

theorem segments_append {seg rest : List UInt8} (hne : seg ≠ []) (hseg : ∀ c ∈ seg, (c == slash) = false)
    (hrest : rest = [] ∨ ∃ r, rest = slash :: r) : segments (seg ++ rest) = seg :: segments rest := by
  rcases hrest with rfl | ⟨r, rfl⟩
  · rw [List.append_nil, segments, List.splitOnP_eq_singleton hseg, List.filter_cons_of_pos (by simpa using hne)]
    rfl
  · rw [segments_slash, segments, List.splitOnP_append_cons_of_forall_mem hseg slash rfl,
      List.filter_cons_of_pos (by simpa using hne), segments]

theorem segments_length_le (path : List UInt8) : (segments path).length ≤ path.length := by
  have hhead : ∀ (c : UInt8) (l : List (List UInt8)),
      ((l.modifyHead (c :: ·)).filter (· ≠ [])).length ≤ (l.filter (· ≠ [])).length + 1 := by
    intro c l
    cases l with
    | nil => exact Nat.zero_le _
    | cons p l =>
      rw [List.modifyHead_cons, List.filter_cons_of_pos (by simp), List.length_cons, Nat.add_le_add_iff_right,
        List.filter_cons]
      split
      · exact Nat.le_succ _
      · exact Nat.le_refl _
  induction path with
  | nil => exact Nat.le_refl _
  | cons c path ih =>
    rw [segments, List.splitOnP_cons_eq_if_modifyHead, List.length_cons]
    split
    · rw [List.filter_cons_of_neg (by simp)]
      exact Nat.le_succ_of_le ih
    · exact (hhead c _).trans (Nat.succ_le_succ ih)

theorem components_length_lt (path : List UInt8) : (components path).length < path.length + 1 := by
  rw [components, List.length_map]
  exact Nat.lt_succ_of_le (segments_length_le path)

theorem dropWhile_slash_cases (p : List UInt8) :
    p.dropWhile (· == slash) = [] ∨ ∃ c r, p.dropWhile (· == slash) = c :: r ∧ c ≠ slash := by
  cases h : p.dropWhile (· == slash) with
  | nil => exact .inl rfl
  | cons c r =>
    have hhead := List.head?_dropWhile_not (· == slash) p
    rw [h] at hhead
    exact .inr ⟨c, r, rfl, by simpa using hhead⟩

/-- A path that begins with neither a slash nor a NUL begins with an element. -/
theorem segments_cons {c : UInt8} {p : List UInt8} (hc : c ≠ slash) (hnul : 0 ∉ c :: p) :
    segments (c :: p) = (c :: p).takeWhile (fun c => c != slash && c != 0) ::
      segments ((c :: p).dropWhile fun c => c != slash && c != 0) := by
  have hc0 : c ≠ 0 := fun h => hnul (h ▸ List.mem_cons_self)
  have hpos : (c != slash && c != 0) = true := by simp [hc, hc0]
  have hsplit := List.takeWhile_append_dropWhile (p := fun c => c != slash && c != 0) (l := c :: p)
  conv_lhs => rw [← hsplit]
  refine segments_append ?_ (fun d hd => ?_) ?_
  · rw [List.takeWhile_cons_of_pos (p := fun c => c != slash && c != 0) hpos]
    exact List.cons_ne_nil _ _
  · have hd := List.all_eq_true.1 (List.all_takeWhile (l := c :: p)) d hd
    simpa using (Bool.and_eq_true_iff.1 hd).1
  · cases hrest : (c :: p).dropWhile fun c => c != slash && c != 0 with
    | nil => exact .inl rfl
    | cons d r =>
      have hhead := List.head?_dropWhile_not (fun c => c != slash && c != 0) (c :: p)
      have hmem : d ∈ c :: p := (List.dropWhile_suffix _).subset (hrest ▸ List.mem_cons_self)
      have hd0 : d ≠ 0 := fun h => hnul (h ▸ hmem)
      rw [hrest] at hhead
      simp only [List.head?_cons, Bool.and_eq_false_iff, bne_eq_false_iff_eq] at hhead
      exact .inr ⟨r, by rw [hhead.resolve_right hd0]⟩

/-- `skipelem` takes the first element off a path. What is left is empty when there are no more. -/
theorem skipelem_spec {path : List UInt8} (hnul : 0 ∉ path) : match skipelem path with
    | none => components path = []
    | some (name, rest) =>
      components path = name :: components rest ∧ 0 ∉ rest ∧ (rest.headD 0 = 0 ↔ components rest = []) := by
  have hsegs := segments_dropSlashes path
  rcases dropWhile_slash_cases path with hempty | ⟨c, p, hp, hc⟩
  · have hskip : skipelem path = none := by
      rw [skipelem, hempty]
      rfl
    rw [hempty] at hsegs
    rw [hskip, components, ← hsegs]
    rfl
  · have hnul' : 0 ∉ c :: p := fun h => hnul ((List.dropWhile_suffix _).subset (hp ▸ h))
    have hc0 : c ≠ 0 := fun h => hnul' (h ▸ List.mem_cons_self)
    have hskip : skipelem path = some (((c :: p).takeWhile fun c => c != slash && c != 0).take DIRSIZ,
        ((c :: p).dropWhile fun c => c != slash && c != 0).dropWhile (· == slash)) := by
      rw [skipelem, hp]
      exact if_neg hc0
    rw [hp] at hsegs
    rw [hskip]
    obtain ⟨rest, hrest⟩ : ∃ rest, (c :: p).dropWhile (fun c => c != slash && c != 0) = rest := ⟨_, rfl⟩
    have hnulr : 0 ∉ rest := fun h => hnul' ((List.dropWhile_suffix _).subset (hrest ▸ h))
    refine ⟨?_, fun h => hnulr ((List.dropWhile_suffix _).subset (hrest ▸ h)), ?_⟩
    · rw [components, ← hsegs, segments_cons hc hnul', List.map_cons, components, segments_dropSlashes]
    · rw [hrest]
      rcases dropWhile_slash_cases rest with hempty | ⟨d, r, hr, hd⟩
      · rw [hempty]
        exact ⟨fun _ => rfl, fun _ => rfl⟩
      · have hnuld : 0 ∉ d :: r := fun h => hnulr ((List.dropWhile_suffix _).subset (hr ▸ h))
        rw [hr, components, segments_cons hd hnuld]
        refine ⟨fun h0 => absurd List.mem_cons_self (h0 ▸ hnuld), fun h => ?_⟩
        cases h

/-! ### The inode cache during a walk -/

/-- The inode `i` is allocated. -/
def Live (s : Fs) (i : Nat) : Prop := i < ninode ∧ (s.dinode i).type ≠ 0

/-- The inode `i` is in the cache. -/
def InCache (s : Fs) (i : Nat) : Prop := ∃ x, 0 < (s.icache x).ref ∧ (s.icache x).inum = i

/-- The inode `i` is not freed by dropping a reference that is taken now. -/
def Kept (s : Fs) (i : Nat) : Prop := (s.dinode i).nlink ≠ 0 ∨ InCache s i

/-- The directory tree of a file system at rest: directories are well formed, and what they name is there. -/
structure Tree (s : Fs) : Prop where
  owned : Owned s.disk s.dinode
  unique : ∀ x y, 0 < (s.icache x).ref → 0 < (s.icache y).ref → (s.icache x).inum = (s.icache y).inum → x = y
  unlocked : ∀ x, (s.icache x).lock = false
  live : ∀ x, 0 < (s.icache x).ref → Live s (s.icache x).inum
  root : Live s ROOTINO ∧ Kept s ROOTINO
  dirs : ∀ i, Live s i → (s.dinode i).type = T_DIR → IsDir s i
  entries : ∀ i, Live s i → (s.dinode i).type = T_DIR → ∀ k j, (s.node i).table.get k = some j → Live s j ∧ Kept s j

/-- The cache entry `e'` is `e` with `n` more references. The copy of the disk inode may have been read since. -/
structure Alike (m : Mem) (n : Nat) (e e' : Inode) : Prop where
  ref : e'.ref = e.ref + n
  inum : 0 < e.ref → e'.inum = e.inum
  copy : 0 < e.ref → e'.valid = e.valid ∧ e'.din = e.din ∨ e.valid = false ∧ e'.din = readDinode m e.inum
  fresh : e.ref = 0 → 0 < n → e'.valid = true → e'.din = readDinode m e'.inum

theorem Alike.refl (m : Mem) (e : Inode) : Alike m 0 e e :=
  ⟨rfl, fun _ => rfl, fun _ => .inl ⟨rfl, rfl⟩, fun _ h => absurd h (Nat.lt_irrefl _)⟩

/-- The state `t` is `s` with one more reference, to the inode `i` by the entry `ip`, which is locked if `b` says so. -/
structure Held (s t : Fs) (ip : Fin NINODE) (i : Nat) (b : Bool) : Prop where
  rest : t = { s with icache := t.icache }
  inum : (t.icache ip).inum = i
  home : ∀ x, 0 < (s.icache x).ref → (s.icache x).inum = i → x = ip
  mine : Alike s.disk 1 (s.icache ip) (t.icache ip)
  lock : (t.icache ip).lock = b
  others : ∀ x, x ≠ ip → Alike s.disk 0 (s.icache x) (t.icache x) ∧ (t.icache x).lock = (s.icache x).lock

/-- The references are those of `s` again. -/
structure Back (s t : Fs) : Prop where
  rest : t = { s with icache := t.icache }
  entry : ∀ x, Alike s.disk 0 (s.icache x) (t.icache x)

section
variable {s t : Fs} {x y ip : Fin NINODE} {i j : Nat} {b : Bool}

theorem igetEntry_some (h : s.igetEntry j = some y) :
    0 < (s.icache y).ref ∧ (s.icache y).inum = j ∨
      (s.icache y).ref = 0 ∧ ∀ x, 0 < (s.icache x).ref → (s.icache x).inum ≠ j := by
  rw [Fs.igetEntry] at h
  split at h
  next x hx =>
    obtain rfl := Option.some.inj h
    exact .inl (by simpa using List.find?_some hx)
  next hnone =>
    refine .inr ⟨by simpa using List.find?_some h, fun x hx hinum => ?_⟩
    exact List.find?_eq_none.1 hnone x (List.mem_finRange x) (decide_eq_true ⟨hx, hinum⟩)

theorem igetEntry_none (h : s.igetEntry j = none) : (s.icache x).ref ≠ 0 := by
  rw [Fs.igetEntry] at h
  split at h
  · cases h
  · simpa using List.find?_eq_none.1 h x (List.mem_finRange x)

theorem dinode_of_none (h : ∀ x, 0 < (s.icache x).ref → (s.icache x).inum ≠ j) : s.dinode j = readDinode s.disk j := by
  rw [Fs.dinode]
  split
  next y hy =>
    have hp := List.find?_some hy
    simp only [decide_eq_true_eq] at hp
    exact absurd hp.2.2 (h y hp.1)
  · rfl

theorem Held.disk_eq (h : Held s t ip i b) : t.disk = s.disk := by rw [h.rest]

theorem Held.alike (h : Held s t ip i b) (x : Fin NINODE) : ∃ n, Alike s.disk n (s.icache x) (t.icache x) := by
  by_cases hx : x = ip
  · exact ⟨1, hx ▸ h.mine⟩
  · exact ⟨0, (h.others x hx).1⟩

/-- The entries that are in use are those of `s` and `ip`. -/
theorem Held.used (h : Held s t ip i b) (hx : 0 < (t.icache x).ref) :
    0 < (s.icache x).ref ∧ (t.icache x).inum = (s.icache x).inum ∨ (s.icache x).ref = 0 ∧ x = ip := by
  rcases Nat.eq_zero_or_pos (s.icache x).ref with h0 | hpos
  · refine .inr ⟨h0, by_contra fun hne => ?_⟩
    rw [(h.others x hne).1.ref, h0] at hx
    exact Nat.lt_irrefl _ hx
  · obtain ⟨n, ha⟩ := h.alike x
    exact .inl ⟨hpos, ha.inum hpos⟩

theorem Held.used_of (h : Held s t ip i b) (hx : 0 < (s.icache x).ref) : 0 < (t.icache x).ref := by
  obtain ⟨n, ha⟩ := h.alike x
  rw [ha.ref]
  omega

theorem Held.unique (h : Held s t ip i b) (hs : Tree s) (hx : 0 < (t.icache x).ref) (hy : 0 < (t.icache y).ref)
    (hinum : (t.icache x).inum = (t.icache y).inum) : x = y := by
  rcases h.used hx with ⟨hxs, hxi⟩ | ⟨-, rfl⟩ <;> rcases h.used hy with ⟨hys, hyi⟩ | ⟨-, rfl⟩
  · exact hs.unique x y hxs hys (by rw [← hxi, ← hyi, hinum])
  · exact h.home x hxs (by rw [← hxi, hinum, h.inum])
  · exact (h.home y hys (by rw [← hyi, ← hinum, h.inum])).symm
  · rfl

/-- The inodes are those of `s`. -/
theorem Held.dinode_eq (h : Held s t ip i b) (hs : Tree s) (j : Nat) : t.dinode j = s.dinode j := by
  by_cases hin : ∃ x, 0 < (s.icache x).ref ∧ (s.icache x).inum = j
  · obtain ⟨x, hx, hxj⟩ := hin
    obtain ⟨n, ha⟩ := h.alike x
    have hxt := h.used_of hx
    have hxj' : (t.icache x).inum = j := (ha.inum hx).trans hxj
    rw [dinode_of_entry hx hxj fun y hy hyj => hs.unique y x hy hx (hyj.trans hxj.symm),
      dinode_of_entry hxt hxj' fun y hy hyj => h.unique hs hy hxt (hyj.trans hxj'.symm), h.disk_eq]
    rcases ha.copy hx with ⟨hvalid, hdin⟩ | ⟨hvalid, hdin⟩
    · rw [hvalid, hdin]
    · rw [hvalid, hdin, hxj, ite_self, if_neg (by decide)]
  · have hnone : ∀ x, 0 < (s.icache x).ref → (s.icache x).inum ≠ j := fun x hx hxj => hin ⟨x, hx, hxj⟩
    rw [dinode_of_none hnone]
    by_cases hij : i = j
    · subst hij
      have hip : 0 < (t.icache ip).ref := by
        rw [h.mine.ref]
        omega
      have h0 : (s.icache ip).ref = 0 := by
        by_contra hne
        have hpos := Nat.pos_of_ne_zero hne
        exact hnone ip hpos ((h.mine.inum hpos).symm.trans h.inum)
      rw [dinode_of_entry hip h.inum fun y hy hyj => h.unique hs hy hip (hyj.trans h.inum.symm), h.disk_eq]
      split
      next hvalid => rw [h.mine.fresh h0 Nat.one_pos hvalid, h.inum]
      · rfl
    · rw [dinode_of_none, h.disk_eq]
      intro x hx hxj
      rcases h.used hx with ⟨hxs, hxi⟩ | ⟨-, rfl⟩
      · exact hnone x hxs (hxi ▸ hxj)
      · exact hij (h.inum.symm.trans hxj)

theorem Held.node_eq (h : Held s t ip i b) (hs : Tree s) (j : Nat) : t.node j = s.node j := by
  rw [Fs.node, Fs.node, h.dinode_eq hs, h.disk_eq]

theorem Held.pos (h : Held s t ip i b) : 0 < (t.icache ip).ref := by
  rw [h.mine.ref]
  omega

theorem Held.dinode_mine (h : Held s t ip i b) (hs : Tree s) :
    s.dinode i = if (t.icache ip).valid then (t.icache ip).din else readDinode s.disk i := by
  rw [← h.dinode_eq hs, dinode_of_entry h.pos h.inum fun y hy hyj => h.unique hs hy h.pos (hyj.trans h.inum.symm),
    h.disk_eq]

/-! ### The steps of a walk -/

theorem Held.set {e : Inode} {b' : Bool} (h : Held s t ip i b) (hinum : e.inum = i)
    (hmine : Alike s.disk 1 (s.icache ip) e) (hlock : e.lock = b') : Held s (setEntry t ip e) ip i b' := by
  refine ⟨?_, by rwa [setEntry_self], h.home, by rwa [setEntry_self], by rwa [setEntry_self], fun x hx => ?_⟩
  · rw [h.rest]
    rfl
  · rw [setEntry_of_ne _ _ hx]
    exact h.others x hx

theorem Held.cached (h : Held s t ip i b) (hs : Tree s) (hi : Live s i) : Cached t ip i :=
  ⟨h.pos, h.inum, hi.1, fun _ hy hyi => h.unique hs hy h.pos (hyi.trans h.inum.symm)⟩

/-- The lock is taken and the inode read if it has not been. -/
theorem Held.ilock (h : Held s t ip i false) (hs : Tree s) (hi : Live s i) :
    ∃ t', (ilock ip).run t = .ok () t' ∧ Held s t' ip i true ∧ (t'.icache ip).valid = true := by
  have htype : (t.dinode i).type ≠ 0 := by
    rw [h.dinode_eq hs]
    exact hi.2
  refine ⟨_, ilock_run (h.cached hs hi) h.lock htype, h.set h.inum ?_ rfl, by rw [setEntry_self]⟩
  rw [h.dinode_eq hs]
  refine ⟨h.mine.ref, h.mine.inum, fun hpos => ?_, fun h0 _ _ => ?_⟩
  · have hinum : (s.icache ip).inum = i := (h.mine.inum hpos).symm.trans h.inum
    have hentry := dinode_of_entry hpos hinum fun y hy hyj => hs.unique y ip hy hpos (hyj.trans hinum.symm)
    cases hvalid : (s.icache ip).valid with
    | true =>
      rw [if_pos hvalid] at hentry
      exact .inl ⟨rfl, hentry⟩
    | false =>
      rw [if_neg (by rw [hvalid]; decide)] at hentry
      exact .inr ⟨rfl, by rw [hinum, hentry]⟩
  · have hnone : ∀ x, 0 < (s.icache x).ref → (s.icache x).inum ≠ i := by
      intro x hx hxi
      rw [h.home x hx hxi, h0] at hx
      exact Nat.lt_irrefl _ hx
    simp only [h.inum]
    exact dinode_of_none hnone

theorem Held.unlocked (h : Held s t ip i true) : Held s (setEntry t ip { t.icache ip with lock := false }) ip i false :=
  h.set h.inum ⟨h.mine.ref, h.mine.inum, h.mine.copy, h.mine.fresh⟩ rfl

/-- The reference can be dropped without freeing the inode. -/
theorem Held.keep (h : Held s t ip i b) (hs : Tree s) (hk : Kept s i) :
    ¬ ((t.icache ip).valid = true ∧ (t.icache ip).din.nlink = 0 ∧ (t.icache ip).ref = 1) := by
  rintro ⟨hvalid, hnlink, href⟩
  have hdin := h.dinode_mine hs
  rw [if_pos hvalid] at hdin
  rcases hk with hk | ⟨x, hx, hxi⟩
  · exact hk (hdin ▸ hnlink)
  · obtain rfl := h.home x hx hxi
    rw [h.mine.ref] at href
    omega

theorem Alike.drop {m : Mem} {e e' : Inode} {l : Bool} (h : Alike m 1 e e') :
    Alike m 0 e { e' with lock := l, ref := e'.ref - 1 } :=
  ⟨by simp only [h.ref]; omega, h.inum, h.copy, fun _ h0 => absurd h0 (Nat.lt_irrefl _)⟩

theorem Held.iput (h : Held s t ip i false) (hs : Tree s) (hk : Kept s i) :
    ∃ t', (iput ip).run t = .ok () t' ∧ Back s t' := by
  refine ⟨_, iput_run h.lock (h.keep hs hk), ?_, fun x => ?_⟩
  · rw [h.rest]
    rfl
  · by_cases hx : x = ip
    · rw [hx, setEntry_self]
      exact h.mine.drop
    · rw [setEntry_of_ne _ _ hx]
      exact (h.others x hx).1

theorem Held.iunlockput (h : Held s t ip i true) (hs : Tree s) (hk : Kept s i) :
    ∃ t', (iunlockput ip).run t = .ok () t' ∧ Back s t' := by
  obtain ⟨t', hrun, hback⟩ := h.unlocked.iput hs hk
  exact ⟨t', (bind_ok (iunlock_run h.pos h.lock)).trans hrun, hback⟩

/-- `iget` makes an entry one with a reference more. -/
theorem Alike.gotten {m : Mem} {e e' : Inode} (h : Alike m 0 e e') (hj : 0 < e'.ref → e'.inum = j) :
    Alike m 1 e (e'.gotten j) ∧ (e'.gotten j).inum = j ∧ (e'.gotten j).lock = e'.lock := by
  have href := h.ref
  rw [Inode.gotten]
  split
  next hpos =>
    refine ⟨⟨by simp only [href], h.inum, h.copy, fun h0 => ?_⟩, hj hpos, rfl⟩
    omega
  next hzero =>
    have h0 : e.ref = 0 := by omega
    exact ⟨⟨by rw [h0], fun hpos => by omega, fun hpos => by omega, fun _ _ hvalid => by cases hvalid⟩, rfl, rfl⟩

/-- The entry that `iget` takes is the one that has the inode, if there is one. -/
theorem igetEntry_home (hunique : ∀ x y, 0 < (t.icache x).ref → 0 < (t.icache y).ref →
    (t.icache x).inum = (t.icache y).inum → x = y) (hy : t.igetEntry j = some y) :
    (0 < (t.icache y).ref → (t.icache y).inum = j) ∧ ∀ x, 0 < (t.icache x).ref → (t.icache x).inum = j → x = y := by
  rcases igetEntry_some hy with ⟨hpos, hyj⟩ | ⟨h0, hnone⟩
  · exact ⟨fun _ => hyj, fun x hx hxj => hunique x y hx hpos (hxj.trans hyj.symm)⟩
  · exact ⟨fun hpos => by omega, fun x hx hxj => absurd hxj (hnone x hx)⟩

theorem held_of_iget (hs : Tree s) (hy : s.igetEntry j = some y) :
    Held s (setEntry s y ((s.icache y).gotten j)) y j false := by
  obtain ⟨hyj, hhome⟩ := igetEntry_home hs.unique hy
  obtain ⟨hmine, hinum, hlock⟩ := (Alike.refl s.disk (s.icache y)).gotten hyj
  refine ⟨rfl, ?_, hhome, ?_, ?_, fun x hx => ?_⟩
  · rwa [setEntry_self]
  · rwa [setEntry_self]
  · rw [setEntry_self, hlock, hs.unlocked]
  · rw [setEntry_of_ne _ _ hx]
    exact ⟨.refl _ _, rfl⟩

theorem held_of_idup (hs : Tree s) (hx : 0 < (s.icache x).ref) :
    Held s (setEntry s x { s.icache x with ref := (s.icache x).ref + 1 }) x (s.icache x).inum false := by
  refine ⟨rfl, by rw [setEntry_self], fun y hy hyi => hs.unique y x hy hx hyi, ?_, ?_, fun y hy => ?_⟩
  · rw [setEntry_self]
    exact ⟨rfl, fun _ => rfl, fun _ => .inl ⟨rfl, rfl⟩, fun h0 => by omega⟩
  · rw [setEntry_self]
    exact hs.unlocked x
  · rw [setEntry_of_ne _ _ hy]
    exact ⟨.refl _ _, rfl⟩

/-- The walk goes on from `ip` to the inode `j`. -/
theorem Held.next (h : Held s t ip i true) (hs : Tree s) (hk : Kept s i) (hy : t.igetEntry j = some y) :
    ∃ t', (fs.iunlockput ip).run (setEntry t y ((t.icache y).gotten j)) = .ok () t' ∧ Held s t' y j false := by
  obtain ⟨hyj, hhome⟩ := igetEntry_home (fun x y hx hy hxy => h.unique hs hx hy hxy) hy
  have hhome' : ∀ x, 0 < (s.icache x).ref → (s.icache x).inum = j → x = y := by
    intro x hx hxj
    obtain ⟨n, ha⟩ := h.alike x
    exact hhome x (h.used_of hx) ((ha.inum hx).trans hxj)
  by_cases hyip : y = ip
  · -- The directory names itself: one of the two references goes.
    subst hyip
    obtain rfl : i = j := h.inum.symm.trans (hyj h.pos)
    have hget : (t.icache y).gotten i = { t.icache y with ref := (t.icache y).ref + 1 } := if_pos h.pos
    have hpos := h.pos
    rw [hget]
    refine ⟨_, (bind_ok (iunlock_run (by rw [setEntry_self]; exact Nat.succ_pos _) (by rw [setEntry_self]; exact h.lock))).trans
      (iput_run (by rw [setEntry_self]) ?_), ?_⟩
    · rw [setEntry_self, setEntry_self]
      rintro ⟨-, -, href⟩
      simp only at href
      omega
    · rw [setEntry_self, setEntry_setEntry, setEntry_setEntry, setEntry_self]
      exact h.set h.inum ⟨h.mine.ref, h.mine.inum, h.mine.copy, h.mine.fresh⟩ rfl
  · obtain ⟨hmine, hinum, hlock⟩ := (h.others y hyip).1.gotten hyj
    have hip : (setEntry t y ((t.icache y).gotten j)).icache ip = t.icache ip := setEntry_of_ne _ _ (Ne.symm hyip)
    refine ⟨_, (bind_ok (iunlock_run (by rw [hip]; exact h.pos) (by rw [hip]; exact h.lock))).trans
      (iput_run (by rw [setEntry_self]) ?_), ?_, ?_, hhome', ?_, ?_, fun x hx => ?_⟩
    · rw [setEntry_self, hip]
      exact h.keep hs hk
    · rw [h.rest]
      rfl
    · rw [setEntry_setEntry, setEntry_of_ne _ _ hyip, setEntry_self, hinum]
    · rw [setEntry_setEntry, setEntry_of_ne _ _ hyip, setEntry_self]
      exact hmine
    · rw [setEntry_setEntry, setEntry_of_ne _ _ hyip, setEntry_self, hlock, (h.others y hyip).2, hs.unlocked]
    · rw [setEntry_setEntry]
      by_cases hxip : x = ip
      · rw [hxip, setEntry_self, setEntry_self, hip]
        exact ⟨h.mine.drop, (hs.unlocked ip).symm⟩
      · rw [setEntry_of_ne _ _ hxip, setEntry_of_ne _ _ hx]
        exact h.others x hxip

end

/-! ### Walks -/

/-- The inode that the names of a path lead to. -/
def walk (s : Fs) : Nat → List (List UInt8) → Option Nat
  | i, [] => some i
  | i, c :: cs =>
    if (s.node i).type = T_DIR then ((s.node i).table.get (fileName c)).bind fun j => walk s j cs else none

/-- The directory that all but the last name lead to, and the last name. -/
def walkParent (s : Fs) : Nat → List (List UInt8) → Option (Nat × List UInt8)
  | _, [] => none
  | i, c :: cs =>
    if (s.node i).type = T_DIR then
      if cs = [] then some (i, c) else ((s.node i).table.get (fileName c)).bind fun j => walkParent s j cs
    else none

theorem walkParent_eq (s : Fs) (i : Nat) (cs : List (List UInt8)) :
    walkParent s i cs = cs.getLast?.bind fun c => (walk s i cs.dropLast).bind fun j =>
      if (s.node j).type = T_DIR then some (j, c) else none := by
  induction cs generalizing i with
  | nil => rfl
  | cons c cs ih =>
    rw [walkParent]
    by_cases hcs : cs = []
    · subst hcs
      rw [if_pos rfl]
      rfl
    · obtain ⟨d, ds, rfl⟩ := List.exists_cons_of_ne_nil hcs
      rw [if_neg hcs, List.getLast?_cons_cons, List.dropLast_cons_of_ne_nil hcs, walk]
      have hlast : (d :: ds).getLast? = some ((d :: ds).getLast hcs) := List.getLast?_eq_some_getLast hcs
      rw [hlast, Option.bind_some]
      split
      · cases (s.node i).table.get (fileName c) with
        | none => rfl
        | some j =>
          rw [Option.bind_some, Option.bind_some, ih, hlast, Option.bind_some]
      · rfl

/-- What `namex` has come to: a reference to where the walk leads, or none. -/
def Reaches (s t : Fs) (parent : Bool) (i : Nat) (cs : List (List UInt8)) (r : Option (Fin NINODE × List UInt8)) : Prop :=
  if parent then
    match walkParent s i cs with
    | some (j, c) => ∃ ip, r = some (ip, c) ∧ Held s t ip j false
    | none => r = none ∧ Back s t
  else
    match walk s i cs with
    | some j => ∃ ip c, r = some (ip, c) ∧ Held s t ip j false
    | none => r = none ∧ Back s t

section
variable {s t : Fs} {ip : Fin NINODE} {i j : Nat} {parent : Bool} {c : List UInt8} {cs : List (List UInt8)}
  {r : Option (Fin NINODE × List UInt8)}

theorem Back.reaches (h : Back s t) (hwalk : walk s i cs = none ∨ parent = true)
    (hparent : walkParent s i cs = none ∨ parent = false) : Reaches s t parent i cs none := by
  cases parent with
  | true => simpa [Reaches, hparent.resolve_right (by decide)] using h
  | false => simpa [Reaches, hwalk.resolve_right (by decide)] using h

theorem reaches_next (hdir : (s.node i).type = T_DIR) (hget : (s.node i).table.get (fileName c) = some j)
    (hlast : ¬ (parent = true ∧ cs = [])) (h : Reaches s t parent j cs r) : Reaches s t parent i (c :: cs) r := by
  cases parent with
  | true =>
    have hcs : cs ≠ [] := fun hcs => hlast ⟨rfl, hcs⟩
    simpa only [Reaches, if_true, walkParent, if_pos hdir, if_neg hcs, hget, Option.bind_some] using h
  | false => simpa only [Reaches, Bool.false_eq_true, if_false, walk, if_pos hdir, hget, Option.bind_some] using h

/-- Two entries of the inode cache are unused. -/
def Spare (s : Fs) : Prop := ∃ x y, x ≠ y ∧ (s.icache x).ref = 0 ∧ (s.icache y).ref = 0

/-- Every entry of the inode cache is in use. -/
def CacheFull (s : Fs) : Prop := ∀ x, 0 < (s.icache x).ref

/-- A walk that is out of entries panics. One that gets the inode `j` from a full cache has found it there. -/
theorem Held.iget {b : Bool} (h : Held s t ip i b) (j : Nat) :
    (¬ Spare s ∧ (fs.iget j).run t = .error "iget: no inodes" t) ∨ ∃ y, t.igetEntry j = some y ∧
      (fs.iget j).run t = .ok y (setEntry t y ((t.icache y).gotten j)) ∧ (CacheFull s → InCache s j) := by
  have hrun := iget_run (s := t) j
  cases hy : t.igetEntry j with
  | none =>
    rw [hy] at hrun
    refine .inl ⟨?_, hrun⟩
    rintro ⟨x, y, hxy, hx, hy'⟩
    by_cases hxip : x = ip
    · have hyip : y ≠ ip := fun hyip => hxy (hxip.trans hyip.symm)
      exact igetEntry_none hy (by rw [(h.others y hyip).1.ref, hy'])
    · exact igetEntry_none hy (by rw [(h.others x hxip).1.ref, hx])
  | some y =>
    rw [hy] at hrun
    refine .inr ⟨y, rfl, hrun, fun hfull => ?_⟩
    obtain ⟨n, ha⟩ := h.alike y
    have hpos := h.used_of (hfull y)
    rcases igetEntry_some hy with ⟨-, hinum⟩ | ⟨h0, -⟩
    · exact ⟨y, hfull y, (ha.inum (hfull y)).symm.trans hinum⟩
    · omega

/-- The inodes that the walk takes references to, after the one that it begins with. -/
def visits (s : Fs) (parent : Bool) : Nat → List (List UInt8) → List Nat
  | _, [] => []
  | i, c :: cs =>
    if (s.node i).type = T_DIR ∧ ¬ (parent = true ∧ cs = []) then
      match (s.node i).table.get (fileName c) with
      | some j => j :: visits s parent j cs
      | none => []
    else []

/-- A directory that is locked can be read. -/
theorem Held.ready (h : Held s t ip i true) (hs : Tree s) (hi : Live s i) (hvalid : (t.icache ip).valid = true)
    (hdir : (s.dinode i).type = T_DIR) : Ready t ip i ∧ IsDir t i := by
  have hd := hs.dirs i hi hdir
  refine ⟨⟨h.cached hs hi, hvalid, ?_, ?_, ?_⟩, ?_, ?_, ?_, ?_⟩
  · rw [h.dinode_eq hs]
    exact hi.2
  · rw [h.dinode_eq hs, hdir]
    decide
  · rw [h.disk_eq, funext (h.dinode_eq hs)]
    exact hs.owned
  · rw [h.dinode_eq hs, hdir]
  · rw [h.dinode_eq hs, h.disk_eq]
    exact hd.dense
  · rw [h.node_eq hs]
    exact hd.whole
  · rw [h.node_eq hs]
    exact hd.max

/-- The loop of `namex` follows the names of the path, or it panics at an inode for which there is no entry. -/
theorem namex_loop_run (hs : Tree s) (parent : Bool) (fuel : Nat) {path : List UInt8} (name : List UInt8)
    (h : Held s t ip i false) (hi : Live s i) (hk : Kept s i) (hnul : 0 ∉ path) (hfuel : (components path).length < fuel) :
    (¬ Spare s ∧ ∃ t', (namex.loop parent fuel path ip name).run t = .error "iget: no inodes" t') ∨
      (CacheFull s → ∀ j ∈ visits s parent i (components path), InCache s j) ∧
      ∃ r t', (namex.loop parent fuel path ip name).run t = .ok r t' ∧ Reaches s t' parent i (components path) r := by
  induction fuel generalizing t ip i path name with
  | zero => exact absurd hfuel (Nat.not_lt_zero _)
  | succ fuel ih =>
    have hspec := skipelem_spec hnul
    unfold namex.loop
    cases hskip : skipelem path with
    | none =>
      rw [hskip] at hspec
      rw [hspec]
      refine .inr ⟨fun _ _ hj => absurd hj List.not_mem_nil, ?_⟩
      cases parent with
      | true =>
        obtain ⟨t', hrun, hback⟩ := h.iput hs hk
        exact ⟨none, t', bind_ok hrun, hback.reaches (.inr rfl) (.inl rfl)⟩
      | false => exact ⟨_, t, rfl, ip, name, rfl, h⟩
    | some elem =>
      obtain ⟨c, rest⟩ := elem
      rw [hskip] at hspec
      obtain ⟨hcs, hnulr, hempty⟩ := hspec
      rw [hcs, List.length_cons] at hfuel
      rw [hcs]
      obtain ⟨t₁, hlock, h₁, hvalid⟩ := h.ilock hs hi
      have hdin : (t₁.icache ip).din = s.dinode i := by rw [h₁.dinode_mine hs, if_pos hvalid]
      dsimp only
      rw [bind_ok hlock, readInode_bind, hdin, visits]
      by_cases hdir : (s.dinode i).type = T_DIR
      · have hdir' : (s.node i).type = T_DIR := hdir
        rw [if_neg (not_not_intro hdir)]
        by_cases hlast : parent = true ∧ components rest = []
        · obtain ⟨rfl, hrest⟩ := hlast
          rw [if_pos ⟨rfl, hempty.2 hrest⟩, bind_ok (iunlock_run h₁.pos h₁.lock), if_neg fun hgo => hgo.2 ⟨rfl, hrest⟩]
          refine .inr ⟨fun _ _ hj => absurd hj List.not_mem_nil, _, _, rfl, ?_⟩
          rw [hrest, Reaches, if_pos rfl, walkParent, if_pos hdir', if_pos rfl]
          exact ⟨ip, rfl, h₁.unlocked⟩
        · rw [if_neg fun hc => hlast ⟨hc.1, hempty.1 hc.2⟩, if_pos ⟨hdir', hlast⟩]
          obtain ⟨hready, hisdir⟩ := h₁.ready hs hi hvalid hdir
          rw [bind_run_congr _ (dirlookup_run hready hisdir c), h₁.node_eq hs]
          cases hget : (s.node i).table.get (fileName c) with
          | none =>
            obtain ⟨t', hrun, hback⟩ := h₁.iunlockput hs hk
            rw [found_none hget, pure_bind]
            refine .inr ⟨fun _ _ hj => absurd hj List.not_mem_nil, none, t', bind_ok hrun, hback.reaches (.inl ?_) ?_⟩
            · rw [walk, if_pos hdir', hget, Option.bind_none]
            · cases parent with
              | false => exact .inr rfl
              | true =>
                have hcs : components rest ≠ [] := fun hcs => hlast ⟨rfl, hcs⟩
                exact .inl (by rw [walkParent, if_pos hdir', if_neg hcs, hget, Option.bind_none])
          | some j =>
            obtain ⟨k, hk', -⟩ := Table.exists_of_get hget
            rw [found_some hk' hget, bind_assoc]
            rcases h₁.iget j with ⟨hspare, hpanic⟩ | ⟨y, hy, higet, hcached⟩
            · exact .inl ⟨hspare, t₁, bind_error hpanic⟩
            obtain ⟨t₂, hput, h₂⟩ := h₁.next hs hk hy
            obtain ⟨hj, hkj⟩ := hs.entries i hi hdir _ j hget
            rw [bind_ok higet, pure_bind]
            refine (ih c h₂ hj hkj hnulr (by omega)).imp (fun ⟨hspare, t', hrun⟩ => ⟨hspare, t', ?_⟩)
              fun ⟨hvisits, r, t', hrun, hreach⟩ => ⟨fun hfull => ?_, r, t', ?_, reaches_next hdir' hget hlast hreach⟩
            · exact (bind_ok hput).trans hrun
            · exact List.forall_mem_cons.2 ⟨hcached hfull, hvisits hfull⟩
            · exact (bind_ok hput).trans hrun
      · obtain ⟨t', hrun, hback⟩ := h₁.iunlockput hs hk
        have hdir' : (s.node i).type ≠ T_DIR := hdir
        rw [if_pos hdir, if_neg fun hgo => hdir' hgo.1]
        refine .inr ⟨fun _ _ hj => absurd hj List.not_mem_nil, none, t', bind_ok hrun, hback.reaches (.inl ?_) (.inl ?_)⟩
        · rw [walk, if_neg hdir']
        · rw [walkParent, if_neg hdir']

/-! ### Reference counts -/

/-- The references to the inode `j`. -/
def Fs.irefs (s : Fs) (j : Nat) : Nat := ∑ x, if (s.icache x).inum = j then (s.icache x).ref else 0

/-- An entry in use counts for its inode. -/
theorem Alike.count {m : Mem} {e e' : Inode} {n : Nat} (h : Alike m n e e') (hinum : 0 < n → e'.inum = i) (j : Nat) :
    (if e'.inum = j then e'.ref else 0) = (if e.inum = j then e.ref else 0) + if i = j then n else 0 := by
  rcases Nat.eq_zero_or_pos n with rfl | hn
  · rcases Nat.eq_zero_or_pos e.ref with h0 | hpos
    · rw [h.ref, h0]
      simp
    · rw [h.ref, h.inum hpos]
      simp
  · rcases Nat.eq_zero_or_pos e.ref with h0 | hpos
    · rw [h.ref, h0, hinum hn]
      simp
    · rw [h.ref, ← h.inum hpos, hinum hn]
      split <;> simp

theorem Held.irefs_eq {b : Bool} (h : Held s t ip i b) (j : Nat) : t.irefs j = s.irefs j + if i = j then 1 else 0 := by
  have hcount (x : Fin NINODE) : (if (t.icache x).inum = j then (t.icache x).ref else 0) =
      (if (s.icache x).inum = j then (s.icache x).ref else 0) + if x = ip then (if i = j then 1 else 0) else 0 := by
    by_cases hx : x = ip
    · rw [if_pos hx, hx, h.mine.count (i := i) (fun _ => h.inum) j]
    · rw [if_neg hx, (h.others x hx).1.count (i := i) (fun h0 => absurd h0 (Nat.lt_irrefl _)) j]
      simp
  rw [Fs.irefs, Finset.sum_congr rfl fun x _ => hcount x, Finset.sum_add_distrib, Finset.sum_ite_eq' Finset.univ ip,
    if_pos (Finset.mem_univ ip), Fs.irefs]

theorem Back.irefs_eq (h : Back s t) (j : Nat) : t.irefs j = s.irefs j := by
  refine Finset.sum_congr rfl fun x _ => ?_
  rw [(h.entry x).count (i := j) (fun h0 => absurd h0 (Nat.lt_irrefl _)) j]
  simp

/-! ### Path names -/

/-- Where the walk along a path begins. -/
def Fs.start (s : Fs) (cwd : Fin NINODE) (path : List UInt8) : Nat :=
  if path.headD 0 = slash then ROOTINO else (s.icache cwd).inum

variable {cwd : Fin NINODE} {path : List UInt8}

theorem start_slash : s.start cwd (slash :: path) = ROOTINO := if_pos rfl

/-- The inodes that have to be in the cache, or to be brought there, for a walk. -/
def Fs.needs (s : Fs) (cwd : Fin NINODE) (path : List UInt8) (parent : Bool) : List Nat :=
  if path.headD 0 = slash then ROOTINO :: visits s parent ROOTINO (components path)
  else visits s parent (s.icache cwd).inum (components path)

theorem namex_run (hs : Tree s) (hcwd : 0 < (s.icache cwd).ref) (hnul : 0 ∉ path) (parent : Bool) :
    (¬ Spare s ∧ ∃ t, (namex cwd path parent).run s = .error "iget: no inodes" t) ∨
      (CacheFull s → ∀ j ∈ s.needs cwd path parent, InCache s j) ∧
      ∃ r t, (namex cwd path parent).run s = .ok r t ∧ Reaches s t parent (s.start cwd path) (components path) r := by
  have hfuel := components_length_lt path
  rw [namex, Fs.start, Fs.needs]
  by_cases hroot : path.headD 0 = slash
  · rw [if_pos hroot, if_pos hroot, if_pos hroot]
    have higet := iget_run (s := s) ROOTINO
    cases hy : s.igetEntry ROOTINO with
    | none =>
      rw [hy] at higet
      exact .inl ⟨fun ⟨_, _, _, hx, _⟩ => igetEntry_none hy hx, s, bind_error higet⟩
    | some y =>
      rw [hy] at higet
      refine (namex_loop_run hs parent _ [] (held_of_iget hs hy) hs.root.1 hs.root.2 hnul hfuel).imp
        (fun ⟨hspare, t, hrun⟩ => ⟨hspare, t, (bind_ok higet).trans hrun⟩)
        fun ⟨hvisits, r, t, hrun, hreach⟩ => ⟨fun hfull => List.forall_mem_cons.2 ⟨⟨y, hfull y, ?_⟩, hvisits hfull⟩, r, t,
          (bind_ok higet).trans hrun, hreach⟩
      exact (igetEntry_home hs.unique hy).1 (hfull y)
  · rw [if_neg hroot, if_neg hroot, if_neg hroot]
    have hdup : (idup cwd).run s = .ok cwd (setEntry s cwd { s.icache cwd with ref := (s.icache cwd).ref + 1 }) := rfl
    exact (namex_loop_run hs parent _ [] (held_of_idup hs hcwd) (hs.live cwd hcwd) (.inr ⟨cwd, hcwd, rfl⟩) hnul hfuel).imp
      (fun ⟨hspare, t, hrun⟩ => ⟨hspare, t, (bind_ok hdup).trans hrun⟩)
      fun ⟨hvisits, r, t, hrun, hreach⟩ => ⟨hvisits, r, t, (bind_ok hdup).trans hrun, hreach⟩

theorem namex_panics (hs : Tree s) (hfull : CacheFull s) (hcwd : 0 < (s.icache cwd).ref) (hnul : 0 ∉ path)
    {parent : Bool} (hmiss : ∃ j ∈ s.needs cwd path parent, ¬ InCache s j) :
    ∃ t, (namex cwd path parent).run s = .error "iget: no inodes" t := by
  obtain ⟨j, hj, hmiss⟩ := hmiss
  rcases namex_run hs hcwd hnul parent with ⟨-, h⟩ | ⟨hneeds, -⟩
  · exact h
  · exact absurd (hneeds hfull j hj) hmiss

/-- `namei` returns the inode that the elements of the path lead to, and `nameiparent` the directory that all but
the last lead to, with the last; both return 0 if there is none. The reference to what is returned is the only new one.
That needs unused entries of the cache: without one they panic if the walk needs an inode that is not in the cache. -/
theorem namei_resolves (hs : Tree s) (hcwd : 0 < (s.icache cwd).ref) (hnul : 0 ∉ path) :
    (Spare s → (∃ r t, (namei cwd path).run s = .ok r t ∧
      r.map (fun ip => (t.icache ip).inum) = walk s (s.start cwd path) (components path) ∧
      ∀ j, t.irefs j = s.irefs j + if walk s (s.start cwd path) (components path) = some j then 1 else 0) ∧
    ∃ r t, (nameiparent cwd path).run s = .ok r t ∧
      r.map (fun x => ((t.icache x.1).inum, x.2)) = ((components path).getLast?.bind fun c =>
        (walk s (s.start cwd path) (components path).dropLast).bind fun j =>
          if (s.node j).type = T_DIR then some (j, c) else none) ∧
      ∀ j, t.irefs j = s.irefs j + if r.map (fun x => (t.icache x.1).inum) = some j then 1 else 0) ∧
    (CacheFull s →
      ((∃ j ∈ s.needs cwd path false, ¬ InCache s j) → ∃ t, (namei cwd path).run s = .error "iget: no inodes" t) ∧
      ((∃ j ∈ s.needs cwd path true, ¬ InCache s j) →
        ∃ t, (nameiparent cwd path).run s = .error "iget: no inodes" t)) := by
  refine ⟨fun hspare => ⟨?_, ?_⟩, fun hfull => ⟨fun hmiss => ?_, namex_panics hs hfull hcwd hnul⟩⟩
  · obtain ⟨-, r, t, hrun, hreach⟩ := (namex_run hs hcwd hnul false).resolve_left fun h => h.1 hspare
    refine ⟨r.map Prod.fst, t, (bind_ok hrun).trans rfl, ?_⟩
    rw [Reaches, if_neg (by decide)] at hreach
    cases hwalk : walk s (s.start cwd path) (components path) with
    | none =>
      rw [hwalk] at hreach
      obtain ⟨rfl, hback⟩ := hreach
      exact ⟨rfl, fun j => by simp [hback.irefs_eq j]⟩
    | some i =>
      rw [hwalk] at hreach
      obtain ⟨ip, c, rfl, hheld⟩ := hreach
      exact ⟨congrArg some hheld.inum, fun j => by simp [hheld.irefs_eq j]⟩
  · obtain ⟨-, r, t, hrun, hreach⟩ := (namex_run hs hcwd hnul true).resolve_left fun h => h.1 hspare
    refine ⟨r, t, hrun, ?_⟩
    rw [← walkParent_eq]
    rw [Reaches, if_pos rfl] at hreach
    cases hwalk : walkParent s (s.start cwd path) (components path) with
    | none =>
      rw [hwalk] at hreach
      obtain ⟨rfl, hback⟩ := hreach
      exact ⟨rfl, fun j => by simp [hback.irefs_eq j]⟩
    | some x =>
      obtain ⟨i, c⟩ := x
      rw [hwalk] at hreach
      obtain ⟨ip, rfl, hheld⟩ := hreach
      have hinum : (t.icache ip).inum = i := hheld.inum
      exact ⟨by rw [Option.map_some, hinum], fun j => by simp [hheld.irefs_eq j, hinum]⟩
  · obtain ⟨t, hrun⟩ := namex_panics hs hfull hcwd hnul hmiss
    exact ⟨t, bind_error hrun⟩

end

/-! ### Two directories and fifty files -/

/-- A disk with two directories, inodes 1 and 2, and empty files as inodes 3 to 51. The entries of the first directory
are `a` and `b`, for the inodes 2 and 51, in block 59. -/
def manyDisk : Mem := fun a =>
  if 29696 ≤ a ∧ a < 29703 then 255 else if a = 29703 then 15
  else if a = 30208 then 2 else if a = 30210 then 97 else if a = 30224 then 51 else if a = 30226 then 98
  else if a = 16456 then 32 else if a = 16460 then 59
  else if 16448 ≤ a ∧ a < 16448 + 64 * 51 then
    if a % 64 = 0 then (if a < 16576 then 1 else 2) else if a % 64 = 6 then 1 else 0
  else 0

theorem manyDisk_zero {a : Nat} (hbits : ¬ (29696 ≤ a ∧ a < 29704)) (hentries : ¬ (30208 ≤ a ∧ a ≤ 30226))
    (hfirst : a ≠ 16456 ∧ a ≠ 16460) (hinode : 16448 ≤ a ∧ a < 16448 + 64 * 51 → a % 64 ≠ 0 ∧ a % 64 ≠ 6) :
    manyDisk a = 0 := by
  unfold manyDisk
  rw [if_neg (by omega), if_neg (by omega), if_neg (by omega), if_neg (by omega), if_neg (by omega), if_neg (by omega),
    if_neg hfirst.1, if_neg hfirst.2]
  split
  · next h => rw [if_neg (hinode h).1, if_neg (hinode h).2]
  · rfl

theorem manyDisk_inUse (b : Nat) (hb : b < FSSIZE) : inUse manyDisk b = decide (b ≤ nmeta) := by
  by_cases hlt : b < 64
  · exact (by decide : ∀ b < 64, inUse manyDisk b = decide (b ≤ nmeta)) b hlt
  · have hb' : b < 1000 := hb
    exact (inUse_of_byte hb (manyDisk_zero (by omega) (by omega) (by omega) (by omega))).trans
      (decide_eq_false (show ¬ b ≤ 59 by omega)).symm

set_option maxRecDepth 4000 in
theorem manyDisk_inodes : ∀ i < ninode, (readDinode manyDisk i).size = (if i = 1 then 32 else 0) ∧ (0 < i → i < 52 →
    (readDinode manyDisk i).type ≠ 0 ∧ (readDinode manyDisk i).nlink ≠ 0) := by decide

theorem manyDisk_addrs (i : Nat) (hi : i < ninode) (k : Fin (NDIRECT + 1)) :
    (readDinode manyDisk i).addrs k = if i = 1 ∧ k = 0 then nmeta else 0 := by
  by_cases h1 : i = 1
  · subst h1
    exact (by decide : ∀ k, (readDinode manyDisk 1).addrs k = if 1 = 1 ∧ k = 0 then nmeta else 0) k
  · have hi : i < 208 := hi
    have hk : (k : Nat) < 13 := k.isLt
    rw [if_neg fun h => h1 h.1]
    refine load32_zero fun a hlo hhi => ?_
    rw [dinodeAt_eq] at hlo hhi
    exact manyDisk_zero (by omega) (by omega) (by omega) (by omega)

theorem manyDisk_ref {i : Nat} (hi : i < ninode) (r : Slot) :
    (readDinode manyDisk i).ref manyDisk r = if i = 1 ∧ r = .addr 0 then nmeta else 0 := by
  cases r with
  | addr k =>
    rw [Dinode.ref, manyDisk_addrs i hi]
    simp only [Slot.addr.injEq]
  | entry j =>
    have hind : (readDinode manyDisk i).ind = 0 := (manyDisk_addrs i hi _).trans (if_neg fun h => absurd h.2 (by decide))
    rw [Dinode.ref, if_pos hind, if_neg (by simp)]

theorem manyDisk_blockRef {x : Nat × Slot} {b : Nat} :
    blockRef manyDisk (readDinode manyDisk) x = some b ↔ x = (1, .addr 0) ∧ b = nmeta := by
  rw [blockRef_eq_some]
  constructor
  · rintro ⟨hlt, -, hb, h0⟩
    rw [manyDisk_ref hlt] at hb
    split at hb
    next h => exact ⟨Prod.ext h.1 h.2, hb.symm⟩
    next => exact absurd hb.symm h0
  · rintro ⟨rfl, rfl⟩
    exact ⟨by decide, ((manyDisk_inodes 1 (by decide)).2 (by decide) (by decide)).1,
      (manyDisk_ref (by decide) _).trans (if_pos ⟨rfl, rfl⟩), by decide⟩

theorem manyDisk_owned : Owned manyDisk (readDinode manyDisk) := by
  have hused {b : Nat} : usedIn manyDisk b ↔ b = nmeta := by
    constructor
    · rintro ⟨hlo, hhi, hb⟩
      rw [manyDisk_inUse b hhi, decide_eq_true_eq] at hb
      exact Nat.le_antisymm hb hlo
    · rintro rfl
      exact ⟨Nat.le_refl _, by decide, by rw [manyDisk_inUse _ (by decide)]; decide⟩
  refine ⟨⟨⟨?_, ?_, ?_⟩, ?_⟩, fun b hb => ?_⟩
  · intro x b hx
    exact hused.2 (manyDisk_blockRef.1 hx).2
  · intro x y b hx hy
    rw [(manyDisk_blockRef.1 hx).1, (manyDisk_blockRef.1 hy).1]
  · intro b hb
    exact ⟨_, manyDisk_blockRef.2 ⟨rfl, hused.1 hb⟩⟩
  · exact fun hb => ⟨hb.1, hb.2.1⟩
  · rw [manyDisk_inUse b (Nat.lt_trans hb (by decide)), decide_eq_true (Nat.le_of_lt hb)]

/-- A file system with that disk, and a cache of inodes that have been read from it. -/
structure Many (s : Fs) : Prop where
  disk : s.disk = manyDisk
  unique : ∀ x y, 0 < (s.icache x).ref → 0 < (s.icache y).ref → (s.icache x).inum = (s.icache y).inum → x = y
  unlocked : ∀ x, (s.icache x).lock = false
  range : ∀ x, 0 < (s.icache x).ref → 0 < (s.icache x).inum ∧ (s.icache x).inum < 52
  copy : ∀ x, 0 < (s.icache x).ref → (s.icache x).din = readDinode manyDisk (s.icache x).inum

theorem Many.dinode {s : Fs} (h : Many s) (j : Nat) : s.dinode j = readDinode manyDisk j := by
  rw [Fs.dinode]
  split
  next x hx =>
    have hp := List.find?_some hx
    simp only [decide_eq_true_eq] at hp
    rw [h.copy x hp.1, hp.2.2]
  · rw [h.disk]

theorem Many.node {s : Fs} (h : Many s) (j : Nat) : s.node j = (readDinode manyDisk j).node manyDisk := by
  rw [Fs.node, h.dinode, h.disk]

theorem Many.live {s : Fs} (h : Many s) {i : Nat} (h0 : 0 < i) (hi : i < 52) : Live s i ∧ Kept s i := by
  have hlt : i < ninode := Nat.lt_trans hi (by decide)
  have hinode := (manyDisk_inodes i hlt).2 h0 hi
  rw [Live, Kept, h.dinode]
  exact ⟨⟨hlt, hinode.1⟩, .inl hinode.2⟩

/-- The entries of the first directory. -/
theorem manyDisk_table : ((readDinode manyDisk 1).node manyDisk).table.len = 2 ∧
    ((readDinode manyDisk 1).node manyDisk).table.slot 0 = some ([97], 2) ∧
    ((readDinode manyDisk 1).node manyDisk).table.slot 1 = some ([98], 51) := by decide

theorem Many.size {s : Fs} (h : Many s) {i : Nat} (hi : i < ninode) : (s.node i).size = if i = 1 then 32 else 0 := by
  rw [h.node]
  exact (manyDisk_inodes i hi).1

theorem Many.isDir {s : Fs} (h : Many s) {i : Nat} (hi : i < ninode) (hdir : (s.dinode i).type = T_DIR) : IsDir s i := by
  have hsize := h.size hi
  refine ⟨hdir, fun bn _ hbn => ?_, ?_, ?_⟩
  · have hlt : bn * BSIZE < if i = 1 then 32 else 0 := hsize ▸ hbn
    split at hlt
    next h1 =>
      obtain rfl : bn = 0 := by
        simp only [BSIZE] at hlt
        omega
      rw [h1, h.dinode, h.disk]
      exact ((manyDisk_ref (by decide) _).trans (if_pos ⟨rfl, rfl⟩)).trans_ne (by decide)
    next => exact absurd hlt (Nat.not_lt_zero _)
  all_goals
    rw [hsize]
    split <;> decide

theorem Many.entry {s : Fs} (h : Many s) {i j : Nat} (hi : i < ninode) {k : List UInt8}
    (hget : (s.node i).table.get k = some j) : j = 2 ∨ j = 51 := by
  obtain ⟨x, hindex, hslot⟩ := Table.exists_of_get hget
  have hlt : x < (s.node i).size / 16 := (Table.index_some hindex).1
  rw [h.size hi] at hlt
  split at hlt
  next h1 =>
    rw [h1, h.node] at hslot
    obtain rfl | rfl : x = 0 ∨ x = 1 := by omega
    · rw [manyDisk_table.2.1] at hslot
      exact .inl (Prod.mk.inj (Option.some.inj hslot)).2.symm
    · rw [manyDisk_table.2.2] at hslot
      exact .inr (Prod.mk.inj (Option.some.inj hslot)).2.symm
  next => exact absurd hlt (Nat.not_lt_zero _)

theorem Many.tree {s : Fs} (h : Many s) : Tree s := by
  refine ⟨?_, h.unique, h.unlocked, fun x hx => (h.live (h.range x hx).1 (h.range x hx).2).1,
    h.live (by decide) (by decide), fun i hi hdir => h.isDir hi.1 hdir, fun i hi _ k j hget => ?_⟩
  · rw [h.disk, funext h.dinode]
    exact manyDisk_owned
  · rcases h.entry hi.1 hget with rfl | rfl
    · exact h.live (by decide) (by decide)
    · exact h.live (by decide) (by decide)

/-- The root is a directory, in which `a` is found as inode 2 and `b` as inode 51. -/
theorem Many.root {s : Fs} (h : Many s) : (s.node ROOTINO).type = T_DIR ∧
    (s.node ROOTINO).table.get (fileName [97]) = some 2 ∧ (s.node ROOTINO).table.get (fileName [98]) = some 51 := by
  rw [h.node]
  decide

theorem Many.walk {s : Fs} (h : Many s) (cwd : Fin NINODE) :
    walk s (s.start cwd [slash, 98]) (components [slash, 98]) = some 51 := by
  have hcs : components [slash, 98] = [[98]] := by decide
  rw [hcs, start_slash, fs.walk, if_pos h.root.1, h.root.2.2]
  rfl

/-- Inode 2 is in use, as the current directory. -/
def manyFs : Fs :=
  { emptyFs with
    disk := manyDisk
    icache := fun x =>
      if x = 0 then ⟨2, 1, false, true, readDinode manyDisk 2⟩ else ⟨0, 0, false, false, Dinode.cleared 0⟩ }

/-- The inodes 1 to 50 are in use. -/
def busyFs : Fs :=
  { emptyFs with
    disk := manyDisk
    icache := fun x => ⟨x + 1, 1, false, true, readDinode manyDisk (x + 1)⟩ }

theorem manyFs_used {x : Fin NINODE} (hx : 0 < (manyFs.icache x).ref) : x = 0 :=
  by_contra fun hne => by simp [manyFs, hne] at hx

theorem manyFs_many : Many manyFs := by
  refine ⟨by simp only [manyFs], fun x y hx hy _ => (manyFs_used hx).trans (manyFs_used hy).symm, fun x => ?_,
    fun x hx => ?_, fun x hx => ?_⟩
  · simp only [manyFs]
    split <;> rfl
  · obtain rfl := manyFs_used hx
    exact ⟨by decide, by decide⟩
  · obtain rfl := manyFs_used hx
    simp only [manyFs, if_true]

theorem busyFs_many : Many busyFs := by
  refine ⟨by simp only [busyFs], fun x y _ _ hxy => ?_, fun x => ?_, fun x _ => ?_, fun x _ => ?_⟩
  · simp only [busyFs] at hxy
    exact Fin.ext (by omega)
  · simp only [busyFs]
  · simp only [busyFs]
    have hlt : (x : Nat) < 50 := x.isLt
    omega
  · simp only [busyFs]

theorem busyFs_full : CacheFull busyFs := fun _ => Nat.one_pos

/-- The walk along `/b` needs inode 51, the only one that is not in the cache. -/
theorem busyFs_needs : ∃ j ∈ busyFs.needs 0 [slash, 98] false, ¬ InCache busyFs j := by
  obtain ⟨hdir, -, hget⟩ := busyFs_many.root
  refine ⟨51, ?_, ?_⟩
  · have hcs : components [slash, 98] = [[98]] := by decide
    have hneeds : busyFs.needs 0 [slash, 98] false = ROOTINO :: visits busyFs false ROOTINO (components [slash, 98]) :=
      if_pos rfl
    rw [hneeds, hcs, visits, if_pos ⟨hdir, by decide⟩, hget]
    exact List.mem_cons_of_mem _ List.mem_cons_self
  · rintro ⟨x, -, hx⟩
    have hx : (x : Nat) + 1 = 51 := hx
    have hlt : (x : Nat) < 50 := x.isLt
    omega

/-- `/b` is inode 51, and the parent of `/a/x` is inode 2; with the fifty other inodes in use `/b` cannot be had. -/
theorem namei_resolves_lookup : (∃ ip t ip' t', (namei 0 [slash, 98]).run manyFs = .ok (some ip) t ∧
    (t.icache ip).inum = 51 ∧ (nameiparent 0 [slash, 97, slash, 120]).run manyFs = .ok (some (ip', [120])) t' ∧
    (t'.icache ip').inum = 2) ∧ ∃ t, (namei 0 [slash, 98]).run busyFs = .error "iget: no inodes" t := by
  have hspare : Spare manyFs := ⟨1, 2, by decide, by decide, by decide⟩
  have hcwd : 0 < (manyFs.icache 0).ref := by decide
  obtain ⟨hdir, hget, -⟩ := manyFs_many.root
  have hdir2 : (manyFs.node 2).type = T_DIR := by
    rw [manyFs_many.node]
    decide
  obtain ⟨⟨r, t, hrun, hr, -⟩, -⟩ := (namei_resolves manyFs_many.tree hcwd (show 0 ∉ [slash, 98] by decide)).1 hspare
  obtain ⟨-, r', t', hrun', hr', -⟩ := (namei_resolves manyFs_many.tree hcwd
    (show 0 ∉ [slash, 97, slash, 120] by decide)).1 hspare
  have hcs : components [slash, 97, slash, 120] = [[97], [120]] := by decide
  have hparent : r'.map (fun x => ((t'.icache x.1).inum, x.2)) = some (2, [120]) := by
    rw [hr', hcs, start_slash]
    show (walk manyFs ROOTINO [[97]]).bind (fun j => if (manyFs.node j).type = T_DIR then some (j, [120]) else none) = _
    rw [walk, if_pos hdir, hget]
    show (if (manyFs.node 2).type = T_DIR then some (2, [120]) else none) = _
    rw [if_pos hdir2]
  obtain ⟨ip, rfl, hip⟩ := Option.map_eq_some_iff.1 (hr.trans (manyFs_many.walk 0))
  obtain ⟨⟨ip', c⟩, rfl, hip'⟩ := Option.map_eq_some_iff.1 hparent
  obtain ⟨hinum, rfl⟩ := Prod.mk.inj hip'
  exact ⟨⟨ip, t, ip', t', hrun, hip, hrun', hinum⟩,
    ((namei_resolves busyFs_many.tree (show 0 < (busyFs.icache 0).ref by decide) (by decide)).2 busyFs_full).1 busyFs_needs⟩

/-- With fifty other inodes in use, `/b` cannot be had although it is there. -/
theorem namei_no_inodes : Tree busyFs ∧ 0 < (busyFs.icache 0).ref ∧
    walk busyFs (busyFs.start 0 [slash, 98]) (components [slash, 98]) = some 51 ∧
    ∃ t, (namei 0 [slash, 98]).run busyFs = .error "iget: no inodes" t := by
  have hcwd : 0 < (busyFs.icache 0).ref := by decide
  obtain ⟨t, hrun⟩ := namex_panics busyFs_many.tree busyFs_full hcwd (by decide) busyFs_needs
  exact ⟨busyFs_many.tree, hcwd, busyFs_many.walk 0, t, bind_error hrun⟩

end xv6.fs
