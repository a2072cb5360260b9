import Xv6.Fs.Files

open bytes owner outcome

namespace xv6.fs

variable {s s' : Fs} {x ip : Fin NINODE} {i inum : Nat} {e : Inode}

/-- A change to the cache entry of one inode. -/
def setEntry (s : Fs) (ip : Fin NINODE) (e : Inode) : Fs := { s with icache := Function.update s.icache ip e }

theorem setEntry_self (s : Fs) (ip : Fin NINODE) (e : Inode) : (setEntry s ip e).icache ip = e := Function.update_self ..

theorem setEntry_of_ne (s : Fs) (e : Inode) {ip x : Fin NINODE} (hne : x ≠ ip) :
    (setEntry s ip e).icache x = s.icache x := Function.update_of_ne hne ..

theorem setEntry_setEntry (s : Fs) (ip : Fin NINODE) (e e' : Inode) :
    setEntry (setEntry s ip e) ip e' = setEntry s ip e' := by
  simp only [setEntry, Function.update_idem]

theorem updateInode_run (s : Fs) (ip : Fin NINODE) (g : Inode → Inode) :
    (updateInode ip g).run s = .ok () (setEntry s ip (g (s.icache ip))) := rfl

theorem Cached.set (h : Cached s ip i) (href : e.ref = (s.icache ip).ref) (hinum : e.inum = i) :
    Cached (setEntry s ip e) ip i := by
  refine ⟨?_, ?_, h.lt, fun x hx hxi => by_contra fun hne => hne ?_⟩
  · rw [setEntry_self, href]
    exact h.ref
  · rw [setEntry_self, hinum]
  · rw [setEntry_of_ne s e hne] at hx hxi
    exact h.unique x hx hxi

/-- The inodes stay the same if the entry goes on standing for its inode. -/
theorem Cached.dinode_set (h : Cached s ip i) (href : e.ref = (s.icache ip).ref) (hinum : e.inum = i)
    (hdin : (if e.valid then e.din else readDinode s.disk i) = s.dinode i) : (setEntry s ip e).dinode = s.dinode := by
  funext j
  by_cases hj : j = i
  · rw [hj, (h.set href hinum).dinode_eq, setEntry_self]
    exact hdin
  · refine dinode_congr (fun x => ?_) (fun x hx => ?_) rfl
    · by_cases hxip : x = ip
      · rw [hxip, setEntry_self, href, hinum, h.inum]
        exact ⟨rfl, rfl⟩
      · rw [setEntry_of_ne s e hxip]
        exact ⟨rfl, rfl⟩
    · have hxip : x ≠ ip := by
        rintro rfl
        exact hj (hx.symm.trans h.inum)
      rw [setEntry_of_ne s e hxip]
      exact ⟨rfl, rfl⟩

/-- `ilock` reads the inode from the disk if there is no valid copy. -/
theorem ilock_run (h : Cached s ip i) (hlock : (s.icache ip).lock = false) (htype : (s.dinode i).type ≠ 0) :
    (ilock ip).run s = .ok () (setEntry s ip { s.icache ip with lock := true, valid := true, din := s.dinode i }) := by
  have hpos := h.ref
  have hinum := h.inum
  have hdin := h.dinode_eq
  cases he : s.icache ip with
  | mk inum ref lock valid din =>
    rw [he] at hpos hinum hdin hlock
    obtain rfl : inum = i := hinum
    obtain rfl : lock = false := hlock
    have hacquire : (acquiresleep ip).run s = .ok () (setEntry s ip ⟨inum, ref, true, valid, din⟩) := by
      have hupdate : (updateInode ip fun e => { e with lock := true }).run s =
          .ok () (setEntry s ip { s.icache ip with lock := true }) := rfl
      rw [acquiresleep, readInode_bind, he]
      rw [he] at hupdate
      exact hupdate
    rw [ilock, readInode_bind, he, if_neg (Nat.not_lt.2 hpos), bind_ok hacquire, readInode_bind, setEntry_self]
    cases valid with
    | false =>
      have hdin : s.dinode inum = readDinode s.disk inum := hdin
      rw [hdin] at htype ⊢
      rw [if_pos rfl, get_bind, updateInode_bind, setEntry_self]
      split
      next h0 => exact absurd h0 htype
      next =>
        simp only [setEntry, Function.update_idem]
        rfl
    | true =>
      have hdin : s.dinode inum = din := hdin
      rw [hdin]
      rfl

/-- The cache entry that `iget` takes for an inode number: one that has it, or else an unused one. -/
def Fs.igetEntry (s : Fs) (inum : Nat) : Option (Fin NINODE) :=
  match (List.finRange NINODE).find? fun x => decide (0 < (s.icache x).ref ∧ (s.icache x).inum = inum) with
  | some x => some x
  | none => (List.finRange NINODE).find? fun x => (s.icache x).ref == 0

theorem igetEntry_of_cached (h : Cached s ip i) : ∃ x, s.igetEntry i = some x := by
  rw [Fs.igetEntry]
  split
  · exact ⟨_, rfl⟩
  next hnone => exact absurd (decide_eq_true ⟨h.ref, h.inum⟩) (List.find?_eq_none.1 hnone ip (List.mem_finRange ip))

/-- What `iget` makes of that entry. -/
def Inode.gotten (e : Inode) (inum : Nat) : Inode :=
  if 0 < e.ref then { e with ref := e.ref + 1 } else { e with inum := inum, ref := 1, valid := false }

theorem iget_run (inum : Nat) : (iget inum).run s = match s.igetEntry inum with
    | some x => .ok x (setEntry s x ((s.icache x).gotten inum))
    | none => .error "iget: no inodes" s := by
  rw [iget, get_bind, Fs.igetEntry]
  cases hfind : (List.finRange NINODE).find? fun x => decide (0 < (s.icache x).ref ∧ (s.icache x).inum = inum) with
  | some x =>
    have hx : 0 < (s.icache x).ref ∧ (s.icache x).inum = inum := by simpa using List.find?_some hfind
    simp only [Inode.gotten, if_pos hx.1]
    rfl
  | none =>
    cases hfree : (List.finRange NINODE).find? fun x => (s.icache x).ref == 0 with
    | some x =>
      have hx : (s.icache x).ref = 0 := by simpa using List.find?_some hfree
      simp only [Inode.gotten, hx, Nat.lt_irrefl, if_false]
      rfl
    | none => rfl

theorem acquiresleep_run (hlock : (s.icache x).lock = false) :
    (acquiresleep x).run s = .ok () (setEntry s x { s.icache x with lock := true }) := by
  rw [acquiresleep, readInode_bind, hlock]
  rfl

theorem iunlock_run (hpos : 0 < (s.icache x).ref) (hlock : (s.icache x).lock = true) :
    (iunlock x).run s = .ok () (setEntry s x { s.icache x with lock := false }) := by
  have hheld : ¬ ((s.icache x).lock = false ∨ (s.icache x).ref < 1) := by
    rw [hlock]
    simp only [reduceCtorEq, false_or]
    omega
  rw [iunlock, readInode_bind, if_neg hheld]
  rfl

/-- Dropping a reference to an inode that is not to be freed. -/
theorem iput_run (hlock : (s.icache x).lock = false)
    (hkeep : ¬ ((s.icache x).valid = true ∧ (s.icache x).din.nlink = 0 ∧ (s.icache x).ref = 1)) :
    (iput x).run s = .ok () (setEntry s x { s.icache x with ref := (s.icache x).ref - 1 }) := by
  rw [iput, bind_ok (acquiresleep_run hlock), readInode_bind, setEntry_self, if_neg hkeep]
  show (releasesleep x >>= fun _ => updateInode x _).run _ = _
  rw [releasesleep, bind_ok (updateInode_run ..), updateInode_run]
  simp only [setEntry_setEntry, setEntry_self, hlock]

theorem iput_locked (hlock : (s.icache x).lock = true) : (iput x).run s = .error "sleep" s := by
  have hacq : (acquiresleep x).run s = .error "sleep" s := by
    rw [acquiresleep, readInode_bind, hlock]
    rfl
  rw [iput, bind_error hacq]

/-- Nothing that is in use has changed. -/
structure Unchanged (s s' : Fs) : Prop where
  rest : s' = { s with icache := s'.icache }
  entry : ∀ x, s'.icache x = s.icache x ∨ (s.icache x).ref = 0 ∧ (s'.icache x).ref = 0

/-- A reference that is taken and dropped at once. -/
theorem iget_iput_run (hlock : (s.icache x).lock = false) (hx : s.igetEntry inum = some x) :
    ∃ s', (iget inum >>= iput).run s = .ok () s' ∧ Unchanged s s' := by
  have hget := iget_run (s := s) inum
  rw [hx] at hget
  have hlock' : (((s.icache x).gotten inum)).lock = false := by
    rw [Inode.gotten]
    split <;> exact hlock
  refine ⟨_, (bind_ok hget).trans (iput_run (by rwa [setEntry_self]) ?_), rfl, fun y => ?_⟩
  · rw [setEntry_self, Inode.gotten]
    rintro ⟨hvalid, -, href⟩
    split at href
    · simp only at href
      omega
    · rename_i h0
      rw [if_neg h0] at hvalid
      cases hvalid
  · rw [setEntry_setEntry]
    by_cases hy : y = x
    · subst hy
      rw [setEntry_self, setEntry_self, Inode.gotten]
      split
      · exact .inl rfl
      · exact .inr ⟨by omega, rfl⟩
    · exact .inl (setEntry_of_ne _ _ hy)

theorem Unchanged.disk_eq (h : Unchanged s s') : s'.disk = s.disk := by rw [h.rest]

theorem Unchanged.icache_eq (h : Unchanged s s') (hx : 0 < (s.icache x).ref) : s'.icache x = s.icache x :=
  (h.entry x).resolve_right fun h0 => Nat.pos_iff_ne_zero.1 hx h0.1

theorem Unchanged.used_iff (h : Unchanged s s') : 0 < (s'.icache x).ref ↔ 0 < (s.icache x).ref := by
  rcases h.entry x with heq | ⟨h0, h0'⟩
  · rw [heq]
  · rw [h0, h0']

theorem Unchanged.dinode_eq (h : Unchanged s s') (i : Nat) : s'.dinode i = s.dinode i := by
  have hfind : (fun x => decide (0 < (s'.icache x).ref ∧ (s'.icache x).valid = true ∧ (s'.icache x).inum = i)) =
      fun x => decide (0 < (s.icache x).ref ∧ (s.icache x).valid = true ∧ (s.icache x).inum = i) := by
    funext x
    rw [decide_eq_decide, h.used_iff]
    exact and_congr_right fun hx => by rw [h.icache_eq hx]
  rw [Fs.dinode, Fs.dinode, hfind, h.disk_eq]
  split
  next x hx =>
    have hp := List.find?_some hx
    simp only [decide_eq_true_eq] at hp
    rw [h.icache_eq hp.1]
  · rfl

theorem Unchanged.node_eq (h : Unchanged s s') (i : Nat) : s'.node i = s.node i := by
  rw [Fs.node, Fs.node, h.dinode_eq, h.disk_eq]

theorem Unchanged.ready (h : Unchanged s s') (hr : Ready s x i) : Ready s' x i := by
  have hx := h.icache_eq hr.ref
  refine ⟨⟨h.used_iff.2 hr.ref, hx ▸ hr.inum, hr.lt, fun y hy hinum => ?_⟩, hx ▸ hr.valid, ?_, ?_, ?_⟩
  · have hy := h.used_iff.1 hy
    exact hr.unique y hy (h.icache_eq hy ▸ hinum)
  · rw [h.dinode_eq]
    exact hr.type
  · rw [h.dinode_eq]
    exact hr.file
  · rw [h.disk_eq, funext h.dinode_eq]
    exact hr.owned

end xv6.fs
