import Xv6.Fs.Icache
import Xv6.Fs.Syscall

open bytes outcome

namespace xv6.fs

/-! ### Writing in parts -/

/-- The bytes that `filewrite` writes in one transaction. -/
abbrev chunk : Nat := ((MAXOPBLOCKS - 1 - 1 - 2) / 2) * 512

section
variable {s : Fs} {ip : Fin NINODE} {i : Nat}

/-- An inode in use that nobody has locked, and that is not that of a device. No transaction is open. -/
structure Idle (s : Fs) (ip : Fin NINODE) (i : Nat) : Prop extends Cached s ip i where
  closed : s.outstanding = 0
  log : s.lh = []
  lock : (s.icache ip).lock = false
  type : (s.dinode i).type ≠ 0
  file : (s.dinode i).type ≠ T_DEV
  owned : Owned s.disk s.dinode

/-- The state in which a part of a write is made: the transaction is open and the inode locked. -/
def entered (s : Fs) (ip : Fin NINODE) (i : Nat) : Fs :=
  setEntry { s with outstanding := s.outstanding + 1 } ip
    { s.icache ip with lock := true, valid := true, din := s.dinode i }

/-- The state after that part: the offset is `off`, the inode is unlocked and the transaction closed. -/
def left (s : Fs) (ip : Fin NINODE) (f : Fin NFILE) (off : Nat) : Fs :=
  { setEntry s ip { s.icache ip with lock := false } with
    ftable := Function.update s.ftable f { s.ftable f with off }
    outstanding := s.outstanding - 1
    lh := if s.outstanding = 1 then [] else s.lh }

theorem Idle.dinode_entered (h : Idle s ip i) : (entered s ip i).dinode = s.dinode :=
  Cached.dinode_set (s := { s with outstanding := s.outstanding + 1 }) ⟨h.ref, h.inum, h.lt, h.unique⟩ rfl h.inum rfl

theorem Idle.ready (h : Idle s ip i) : Ready (entered s ip i) ip i := by
  have hc : Cached { s with outstanding := s.outstanding + 1 } ip i := ⟨h.ref, h.inum, h.lt, h.unique⟩
  refine ⟨hc.set rfl h.inum, ?_, ?_, ?_, ?_⟩
  · rw [entered, setEntry_self]
  · rw [h.dinode_entered]
    exact h.type
  · rw [h.dinode_entered]
    exact h.file
  · rw [h.dinode_entered]
    exact h.owned

theorem Ready.dinode_left (h : Ready s ip i) (f : Fin NFILE) (off : Nat) : (left s ip f off).dinode = s.dinode :=
  h.toCached.dinode_set (e := { s.icache ip with lock := false }) rfl h.inum h.dinode_eq.symm

theorem Ready.idle (h : Ready s ip i) (hone : s.outstanding = 1) (f : Fin NFILE) (off : Nat) :
    Idle (left s ip f off) ip i := by
  have hc := h.toCached.set (e := { s.icache ip with lock := false }) rfl h.inum
  refine ⟨⟨hc.ref, hc.inum, hc.lt, hc.unique⟩, by rw [left, hone], if_pos hone, ?_, ?_, ?_, ?_⟩
  · exact congrArg Inode.lock (setEntry_self ..)
  · rw [h.dinode_left]
    exact h.type
  · rw [h.dinode_left]
    exact h.file
  · rw [h.dinode_left]
    exact h.owned

/-- One part of a write, from `begin_op` to `end_op`, with the result `r` of `writei`. -/
theorem part_run (h : Idle s ip i) (f : Fin NFILE) {part : List UInt8} {off : Nat} {r : Option Nat} {s' : Fs}
    (hwritei : (writei ip part off).run (entered s ip i) = .ok r s') (hready : Ready s' ip i)
    (hlock : (s'.icache ip).lock = true) {β : Type} (g : Option Nat → FsM β) : (do
      begin_op
      ilock ip
      let r ← writei ip part off
      updateFile f fun file => { file with off := u32 (file.off + r.getD 0) }
      iunlock ip
      end_op
      g r).run s = (g r).run (left s' ip f (u32 ((s'.ftable f).off + r.getD 0))) := by
  have hc : Cached { s with outstanding := s.outstanding + 1 } ip i := ⟨h.ref, h.inum, h.lt, h.unique⟩
  have hunlock (ft : Fin NFILE → File) : (iunlock ip).run { s' with ftable := ft } =
      .ok () (setEntry { s' with ftable := ft } ip { s'.icache ip with lock := false }) :=
    iunlock_run hready.ref hlock
  have hlocked := ilock_run hc h.lock h.type
  have hbegin := begin_op_run (s := s) (by rw [h.closed, h.log]; decide)
  rw [bind_ok hbegin, bind_ok hlocked]
  refine (bind_ok hwritei).trans ?_
  exact bind_ok (hunlock _)

variable {f : Fin NFILE} {part : List UInt8} {β : Type} (g : Option Nat → FsM β) (h : Idle s ip i)
include h

/-- A part that `writei` accepts. -/
theorem part_accepted {N : Finset Slot} (hpart : part.length ≤ chunk) (hroom : Room s.disk (s.dinode i) N)
    (hacc : ¬ Refused (s.node i) (s.ftable f).off part.length) (hN : slots (s.ftable f).off part.length ⊆ N) :
    ∃ s', (do
        begin_op
        ilock ip
        let r ← writei ip part (s.ftable f).off
        updateFile f fun file => { file with off := u32 (file.off + r.getD 0) }
        iunlock ip
        end_op
        g r).run s = (g (some part.length)).run s' ∧ Idle s' ip i ∧
      s'.node i = (s.node i).write (s.ftable f).off part ∧ Room s'.disk (s'.dinode i) N ∧
      s'.ftable f = { s.ftable f with off := (s.ftable f).off + part.length } := by
  have hready := h.ready
  have hnode : (entered s ip i).node i = s.node i := congrArg (Dinode.node s.disk) (congrFun h.dinode_entered i)
  have hacc' : ¬ Refused ((entered s ip i).node i) (s.ftable f).off part.length := by rwa [hnode]
  have hcard := slots_card_le (s.ftable f).off part.length
  have hlen : (entered s ip i).lh.length + (slots (s.ftable f).off part.length).card + 2 ≤ LOGSIZE - 1 := by
    show s.lh.length + _ + 2 ≤ 29
    rw [h.log, List.length_nil]
    simp only [BSIZE, chunk, MAXOPBLOCKS] at hcard hpart
    omega
  obtain ⟨m', d', l', hrun, hrew, hwrite, -⟩ := writei_run hready
    (by rw [h.dinode_entered]; exact hroom.mono hN) (fits_of_length (Nat.succ_pos _) hlen _) hacc' (Finset.Subset.refl _)
  have hdone := hready.grown hrew hwrite
  have hone : (grownState (entered s ip i) ip m' d' l').outstanding = 1 := congrArg (· + 1) h.closed
  have hoff : u32 ((s.ftable f).off + part.length) = (s.ftable f).off + part.length := by
    refine Nat.mod_eq_of_lt (by_contra fun hlarge => hacc (.inr (.inl (by omega))))
  refine ⟨_, part_run h f hrun hdone ?_ g, hdone.idle hone f _, ?_, ?_, ?_⟩
  · simp only [grownState, entered, setEntry, Function.update_self]
  · rw [Fs.node, hdone.dinode_left, hready.dinode_grown hready.valid, ← hnode]
    exact hwrite
  · rw [hdone.dinode_left]
    exact hrew.room hN (by rw [h.dinode_entered]; exact hroom)
  · exact (Function.update_self ..).trans (congrArg (fun off => { s.ftable f with off }) hoff)

/-- A part that `writei` refuses. -/
theorem part_refused (hoff : (s.ftable f).off < 2 ^ 32) (hpart : part.length < 2 ^ 32)
    (href : Refused (s.node i) (s.ftable f).off part.length) :
    ∃ s', (do
        begin_op
        ilock ip
        let r ← writei ip part (s.ftable f).off
        updateFile f fun file => { file with off := u32 (file.off + r.getD 0) }
        iunlock ip
        end_op
        g r).run s = (g none).run s' ∧ s'.node i = s.node i ∧ s'.ftable f = s.ftable f := by
  have hready := h.ready
  have hnode : (entered s ip i).node i = s.node i := congrArg (Dinode.node s.disk) (congrFun h.dinode_entered i)
  have hrun := writei_refused hready hoff hpart (by rwa [hnode])
  have hkeep : u32 ((s.ftable f).off + 0) = (s.ftable f).off := Nat.mod_eq_of_lt hoff
  refine ⟨_, part_run h f hrun hready ?_ g, ?_, ?_⟩
  · rw [entered, setEntry_self]
  · rw [Fs.node, hready.dinode_left]
    exact hnode
  · exact (Function.update_self ..).trans (congrArg (fun off => { s.ftable f with off }) hkeep)

end

/-! ### The loop of `filewrite` -/

theorem Node.write_nil {n : Node} {off : Nat} (hoff : off ≤ n.size) : n.write off [] = n := by
  simp only [Node.write, blit_nil, List.length_nil, Nat.add_zero, Nat.max_eq_left hoff]

theorem Node.write_write (n : Node) (off : Nat) (xs ys : List UInt8) :
    (n.write off xs).write (off + xs.length) ys = n.write off (xs ++ ys) := by
  simp only [Node.write, blit_append, List.length_append, Node.mk.injEq, true_and, and_true]
  omega

section
variable {s : Fs} {ip : Fin NINODE} {i : Nat} {f : Fin NFILE} {N : Finset Slot}

/-- What the loop does after a part: it stops after a failure and goes on with the bytes that are left otherwise. -/
def next (f : Fin NFILE) (fuel : Nat) (addr : List UInt8) : Option Nat → FsM Bool
  | none => return false
  | some n1 => do
    if n1 ≠ (addr.take chunk).length then
      throw "short filewrite"
    filewrite.loop f fuel (addr.drop n1)

theorem loop_succ (hip : (s.ftable f).ip = ip) (fuel : Nat) {addr : List UInt8} (hne : addr ≠ []) :
    (filewrite.loop f (fuel + 1) addr).run s = (do
      begin_op
      ilock ip
      let r ← writei ip (addr.take chunk) (s.ftable f).off
      updateFile f fun file => { file with off := u32 (file.off + r.getD 0) }
      iunlock ip
      end_op
      next f fuel addr r).run s := by
  subst hip
  rw [filewrite.loop, if_neg hne, get_bind]
  unfold next
  rfl

theorem loop_nil (fuel : Nat) : (filewrite.loop f fuel []).run s = .ok true s := by cases fuel <;> rfl

theorem next_some (fuel : Nat) (addr : List UInt8) : next f fuel addr (some (addr.take chunk).length) =
    filewrite.loop f fuel (addr.drop (addr.take chunk).length) := by
  rw [next, if_neg (not_not.2 rfl)]

theorem take_append_drop_length (n : Nat) (addr : List UInt8) : addr.take n ++ addr.drop (addr.take n).length = addr := by
  rw [List.length_take]
  rcases Nat.le_total n addr.length with hle | hle
  · rw [Nat.min_eq_left hle, List.take_append_drop]
  · rw [Nat.min_eq_right hle, List.take_of_length_le hle, List.drop_length, List.append_nil]

/-- The loop writes everything if the end is within the largest file. -/
theorem loop_accepted (h : Idle s ip i) (hip : (s.ftable f).ip = ip) (hroom : Room s.disk (s.dinode i) N) {fuel : Nat}
    {addr : List UInt8} (hfuel : addr.length ≤ fuel) (hoff : (s.ftable f).off ≤ (s.node i).size)
    (hmax : (s.ftable f).off + addr.length ≤ MAXFILE * BSIZE) (hN : slots (s.ftable f).off addr.length ⊆ N) :
    ∃ s', (filewrite.loop f fuel addr).run s = .ok true s' ∧ s'.node i = (s.node i).write (s.ftable f).off addr ∧
      (s'.ftable f).off = (s.ftable f).off + addr.length := by
  induction fuel generalizing s addr with
  | zero =>
    obtain rfl := List.length_eq_zero_iff.1 (Nat.le_zero.1 hfuel)
    exact ⟨s, loop_nil 0, (Node.write_nil hoff).symm, rfl⟩
  | succ fuel ih =>
    by_cases hne : addr = []
    · subst hne
      exact ⟨s, loop_nil _, (Node.write_nil hoff).symm, rfl⟩
    have hpos := List.length_pos_iff.2 hne
    have htake : (addr.take chunk).length = min chunk addr.length := List.length_take
    have hdrop : (addr.drop (addr.take chunk).length).length = addr.length - (addr.take chunk).length := List.length_drop
    have hchunk : 0 < chunk := by decide
    have hacc : ¬ Refused (s.node i) (s.ftable f).off (addr.take chunk).length := by
      rintro (hlt | hlarge | hlarge) <;> simp only [MAXFILE, NDIRECT, NINDIRECT, BSIZE] at * <;> omega
    obtain ⟨s', hrun, hidle, hnode, hroom', hfile⟩ := part_accepted (next f fuel addr) h (List.length_take_le ..) hroom hacc
      ((slots_mono (Nat.le_refl _) (by omega)).trans hN)
    have hoff' : (s'.ftable f).off = (s.ftable f).off + (addr.take chunk).length := by rw [hfile]
    have hsize : (s'.node i).size = max (s.node i).size ((s.ftable f).off + (addr.take chunk).length) := by
      rw [hnode]
      rfl
    have hfuel' : (addr.drop (addr.take chunk).length).length ≤ fuel := by omega
    obtain ⟨t, hrun', hnode', hend⟩ := ih hidle (by rw [hfile]; exact hip) hroom' hfuel' (by omega) (by omega)
      ((slots_mono (by omega) (by omega)).trans hN)
    refine ⟨t, ?_, ?_, by omega⟩
    · rw [loop_succ hip fuel hne, hrun, next_some, hrun']
    · rw [hnode', hnode, hoff', Node.write_write, take_append_drop_length]

/-- The loop fails if the end is beyond the largest file, and the offset never goes back. -/
theorem loop_refused (h : Idle s ip i) (hip : (s.ftable f).ip = ip) (hroom : Room s.disk (s.dinode i) N) {fuel : Nat}
    {addr : List UInt8} (hfuel : addr.length ≤ fuel) (hlt : (s.ftable f).off < 2 ^ 32)
    (hmax : MAXFILE * BSIZE < (s.ftable f).off + addr.length) (hne : addr ≠ []) (hN : slots (s.ftable f).off addr.length ⊆ N) :
    ∃ s', (filewrite.loop f fuel addr).run s = .ok false s' ∧ (s.ftable f).off ≤ (s'.ftable f).off := by
  induction fuel generalizing s addr with
  | zero => exact absurd (List.length_eq_zero_iff.1 (Nat.le_zero.1 hfuel)) hne
  | succ fuel ih =>
    have hpos := List.length_pos_iff.2 hne
    have htake : (addr.take chunk).length = min chunk addr.length := List.length_take
    have hdrop : (addr.drop (addr.take chunk).length).length = addr.length - (addr.take chunk).length := List.length_drop
    have hchunk : chunk = 1536 := rfl
    rw [loop_succ hip fuel hne]
    by_cases hacc : Refused (s.node i) (s.ftable f).off (addr.take chunk).length
    · obtain ⟨s', hrun, -, hfile⟩ := part_refused (next f fuel addr) h hlt (by omega) hacc
      exact ⟨s', hrun.trans rfl, by rw [hfile]⟩
    · obtain ⟨s', hrun, hidle, -, hroom', hfile⟩ := part_accepted (next f fuel addr) h (List.length_take_le ..) hroom hacc
        ((slots_mono (Nat.le_refl _) (by omega)).trans hN)
      have hoff' : (s'.ftable f).off = (s.ftable f).off + (addr.take chunk).length := by rw [hfile]
      have hbound : ¬ ((s.node i).size < (s.ftable f).off ∨ 2 ^ 32 ≤ (s.ftable f).off + (addr.take chunk).length ∨
        MAXFILE * BSIZE < (s.ftable f).off + (addr.take chunk).length) := hacc
      have hfuel' : (addr.drop (addr.take chunk).length).length ≤ fuel := by omega
      obtain ⟨t, hrun', hle⟩ := ih hidle (by rw [hfile]; exact hip) hroom' hfuel' (by omega) (by omega)
        (fun h0 => by rw [h0, List.length_nil] at hdrop; omega) ((slots_mono (by omega) (by omega)).trans hN)
      exact ⟨t, by rw [hrun, next_some, hrun'], by omega⟩

/-! ### `filewrite` as its caller sees it -/

/-- The call returns `n` with exactly the `n` bytes stored from the old offset and the offset advanced, or it returns -1
with the file and the offset as they were. -/
def AllOrNothing (s : Fs) (f : Fin NFILE) (i : Nat) (addr : List UInt8) : Prop :=
  ∃ r s', (filewrite f addr).run s = .ok r s' ∧
    (r = some addr.length ∧ (s'.ftable f).off = (s.ftable f).off + addr.length ∧
        s'.node i = (if addr = [] then s.node i else (s.node i).write (s.ftable f).off addr) ∨
      r = none ∧ (s'.ftable f).off = (s.ftable f).off ∧ s'.node i = s.node i)

/-- The largest file does not end between the first part of the write and its last byte. -/
def Whole (file : File) (n : Node) (len : Nat) : Prop :=
  file.writable = false ∨ len = 0 ∨ n.size < file.off ∨ MAXFILE * BSIZE < file.off + min len chunk ∨
    file.off + len ≤ MAXFILE * BSIZE

theorem filewrite_inode {addr : List UInt8} (htype : (s.ftable f).type = .FD_INODE) (hw : (s.ftable f).writable = true) :
    (filewrite f addr).run s = (do
      return if ← filewrite.loop f addr.length addr then some addr.length else none : FsM (Option Nat)).run s := by
  rw [filewrite, get_bind]
  simp only []
  rw [if_neg (by rw [hw]; decide), if_neg (by rw [htype]; decide), if_pos htype]

/-- A write that runs into the limit after its first part fails with bytes written and the offset advanced. -/
theorem filewrite_partial (h : Idle s ip i) (hip : (s.ftable f).ip = ip) (htype : (s.ftable f).type = .FD_INODE)
    {addr : List UInt8} (hroom : Room s.disk (s.dinode i) (slots (s.ftable f).off addr.length))
    (hpart : ¬ Whole (s.ftable f) (s.node i) addr.length) :
    ∃ s', (filewrite f addr).run s = .ok none s' ∧ (s.ftable f).off < (s'.ftable f).off := by
  simp only [Whole, not_or, Bool.not_eq_false] at hpart
  obtain ⟨hw, hpos, hsize, hfirst, hend⟩ := hpart
  have hne : addr ≠ [] := fun h0 => hpos (by rw [h0]; rfl)
  have htake : (addr.take chunk).length = min chunk addr.length := List.length_take
  have hdrop : (addr.drop (addr.take chunk).length).length = addr.length - (addr.take chunk).length := List.length_drop
  have hchunk : chunk = 1536 := rfl
  have hmax : MAXFILE * BSIZE = 71680 := rfl
  have hacc : ¬ Refused (s.node i) (s.ftable f).off (addr.take chunk).length := by
    rintro (hlt | hlarge | hlarge) <;> omega
  obtain ⟨fuel, hfuel⟩ : ∃ fuel, addr.length = fuel + 1 := Nat.exists_eq_succ_of_ne_zero hpos
  obtain ⟨s', hrun, hidle, -, hroom', hfile⟩ := part_accepted (next f fuel addr) h (List.length_take_le ..) hroom hacc
    (slots_mono (Nat.le_refl _) (by omega))
  have hoff' : (s'.ftable f).off = (s.ftable f).off + (addr.take chunk).length := by rw [hfile]
  have hfuel' : (addr.drop (addr.take chunk).length).length ≤ fuel := by omega
  obtain ⟨t, hrun', hle⟩ := loop_refused hidle (by rw [hfile]; exact hip) hroom' hfuel' (by omega) (by omega)
    (fun h0 => by rw [h0, List.length_nil] at hdrop; omega) (slots_mono (by omega) (by omega))
  refine ⟨t, ?_, by omega⟩
  have hloop : (filewrite.loop f addr.length addr).run s = .ok false t := by
    rw [hfuel, loop_succ hip fuel hne, hrun, next_some, hrun']
  rw [filewrite_inode htype hw, bind_ok hloop]
  rfl

theorem not_allOrNothing {s' : Fs} {addr : List UInt8} (hrun : (filewrite f addr).run s = .ok none s')
    (hlt : (s.ftable f).off < (s'.ftable f).off) : ¬ AllOrNothing s f i addr := by
  rintro ⟨r, t, hrun', hcases⟩
  rw [hrun] at hrun'
  obtain ⟨rfl, rfl⟩ := EStateM.Result.ok.inj hrun'
  obtain ⟨hr, -⟩ | ⟨-, hsame, -⟩ := hcases
  · cases hr
  · omega

/-- A write whose first part is refused changes nothing. -/
theorem filewrite_refused (h : Idle s ip i) (hip : (s.ftable f).ip = ip) (htype : (s.ftable f).type = .FD_INODE)
    (hw : (s.ftable f).writable = true) (hoff : (s.ftable f).off < 2 ^ 32) {addr : List UInt8} (hne : addr ≠ [])
    (href : (s.node i).size < (s.ftable f).off ∨ MAXFILE * BSIZE < (s.ftable f).off + min addr.length chunk) :
    ∃ s', (filewrite f addr).run s = .ok none s' ∧ s'.node i = s.node i ∧ s'.ftable f = s.ftable f := by
  have htake : (addr.take chunk).length = min chunk addr.length := List.length_take
  have hchunk : chunk = 1536 := rfl
  obtain ⟨fuel, hfuel⟩ : ∃ fuel, addr.length = fuel + 1 :=
    Nat.exists_eq_succ_of_ne_zero fun h0 => hne (List.length_eq_zero_iff.1 h0)
  have hpart : (addr.take chunk).length < 2 ^ 32 := by omega
  obtain ⟨s', hrun, hsame⟩ := part_refused (next f fuel addr) h hoff hpart
    (href.imp_right fun hlarge => .inr (by omega))
  have hloop : (filewrite.loop f addr.length addr).run s = .ok false s' := by
    rw [hfuel, loop_succ hip fuel hne, hrun]
    rfl
  refine ⟨s', ?_, hsame⟩
  rw [filewrite_inode htype hw, bind_ok hloop]
  rfl

/-- `filewrite` on an inode is all or nothing exactly when the limit does not fall between the first part and the end. -/
theorem filewrite_all_or_nothing_iff (h : Idle s ip i) (hip : (s.ftable f).ip = ip)
    (htype : (s.ftable f).type = .FD_INODE) (hoff : (s.ftable f).off < 2 ^ 32) (addr : List UInt8)
    (hroom : Room s.disk (s.dinode i) (slots (s.ftable f).off addr.length)) :
    AllOrNothing s f i addr ↔ Whole (s.ftable f) (s.node i) addr.length := by
  constructor
  · intro hall
    by_contra hpart
    obtain ⟨s', hrun, hlt⟩ := filewrite_partial h hip htype hroom hpart
    exact not_allOrNothing hrun hlt hall
  · intro hwhole
    cases hw : (s.ftable f).writable with
    | false =>
      refine ⟨none, s, ?_, .inr ⟨rfl, rfl, rfl⟩⟩
      rw [filewrite, get_bind]
      exact congrArg (fun x => EStateM.run x s) (if_pos hw)
    | true =>
      by_cases hne : addr = []
      · subst hne
        refine ⟨some 0, s, ?_, .inl ⟨rfl, rfl, rfl⟩⟩
        rw [filewrite_inode htype hw, bind_ok (loop_nil _)]
        rfl
      · by_cases href : (s.node i).size < (s.ftable f).off ∨ MAXFILE * BSIZE < (s.ftable f).off + min addr.length chunk
        · obtain ⟨s', hrun, hnode, hfile⟩ := filewrite_refused h hip htype hw hoff hne href
          exact ⟨none, s', hrun, .inr ⟨rfl, by rw [hfile], hnode⟩⟩
        · have hend : (s.ftable f).off + addr.length ≤ MAXFILE * BSIZE := by
            have hlen : addr.length ≠ 0 := fun h0 => hne (List.length_eq_zero_iff.1 h0)
            rcases hwhole with hfalse | h0 | hlt | hlarge | hle
            · rw [hw] at hfalse
              cases hfalse
            all_goals omega
          obtain ⟨s', hrun, hnode, hoff'⟩ := loop_accepted h hip hroom (Nat.le_refl _) (by omega) hend
            (Finset.Subset.refl _)
          refine ⟨some addr.length, s', ?_, .inl ⟨rfl, hoff', ?_⟩⟩
          · rw [filewrite_inode htype hw, bind_ok hrun]
            rfl
          · rw [if_neg hne, hnode]

end

theorem emptyFs_idle : Idle emptyFs 0 1 :=
  ⟨emptyFs_cached, rfl, rfl, rfl, emptyFs_ready.type, emptyFs_ready.file, emptyFs_ready.owned⟩

/-- Three bytes go into the empty file as a whole. -/
theorem filewrite_all_or_nothing_empty : AllOrNothing emptyFs 0 1 [1, 2, 3] :=
  (filewrite_all_or_nothing_iff emptyFs_idle rfl rfl (by decide) [1, 2, 3] (emptyDisk_room _ _ _)).2
    (.inr (.inr (.inr (.inr (by decide)))))

/-- One byte more than the largest file holds, written to the empty file: the call fails after 46 parts are in the file. -/
theorem filewrite_beyond_largest : ¬ AllOrNothing emptyFs 0 1 (List.replicate 71681 1) := by
  have hpart : ¬ Whole (emptyFs.ftable 0) (emptyFs.node 1) (List.replicate 71681 (1 : UInt8)).length := by
    rw [Whole, emptyFs_size, List.length_replicate]
    decide
  obtain ⟨s', hrun, hlt⟩ := filewrite_partial emptyFs_idle rfl rfl (emptyDisk_room _ _ _) hpart
  exact not_allOrNothing hrun hlt

end xv6.fs
