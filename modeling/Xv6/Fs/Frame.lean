import Xv6.Fs.Syscall
import Xv6.Lib.Outcome

open bytes outcome

namespace xv6.fs

@[simp] theorem ensures_readInode {E : String → Prop} {s : Fs} {ip : Fin NINODE} {R : Inode → Fs → Prop} :
    Ensures E (readInode ip) s R ↔ R (s.icache ip) s := Iff.rfl

/-! ### The inode layer and the open files -/

/-- The open files, the pages and the processes are untouched. -/
@[mk_iff]
structure SameFiles (s s' : Fs) : Prop where
  ftable : s'.ftable = s.ftable
  pages : s'.pages = s.pages
  proc : s'.proc = s.proc

instance : Std.Refl SameFiles := ⟨fun _ => ⟨rfl, rfl, rfl⟩⟩

instance : IsTrans Fs SameFiles :=
  ⟨fun _ _ _ h h' => ⟨h'.ftable.trans h.ftable, h'.pages.trans h.pages, h'.proc.trans h.proc⟩⟩

/-- Every panic but those of `filedup` and `fileclose`. -/
def NotFile (e : String) : Prop := e ≠ "filedup" ∧ e ≠ "fileclose"

instance (e : String) : Decidable (NotFile e) := inferInstanceAs (Decidable (_ ∧ _))

/-- Code of the inode layer: it does not touch the open files. -/
abbrev Quiet {α : Type} (x : FsM α) : Prop := Always NotFile SameFiles x

@[simp]
theorem throw_quiet {α : Type} {msg : String} (hdup : msg ≠ "filedup") (hclose : msg ≠ "fileclose") :
    Quiet (throw msg : FsM α) :=
  .throw ⟨hdup, hclose⟩

@[simp]
theorem modify_quiet {g : Fs → Fs} (hftable : ∀ s, (g s).ftable = s.ftable) (hpages : ∀ s, (g s).pages = s.pages)
    (hproc : ∀ s, (g s).proc = s.proc) : Quiet (modify g) :=
  .modify fun s => ⟨hftable s, hpages s, hproc s⟩

@[simp]
theorem setDisk_quiet (g : Mem → Mem) : Quiet (setDisk g) := .modify fun _ => ⟨rfl, rfl, rfl⟩

@[simp]
theorem updateInode_quiet (ip : Fin NINODE) (g : Inode → Inode) : Quiet (updateInode ip g) :=
  .modify fun _ => ⟨rfl, rfl, rfl⟩

@[simp]
theorem updateDin_quiet (ip : Fin NINODE) (g : Dinode → Dinode) : Quiet (updateDin ip g) :=
  updateInode_quiet ip _

@[simp]
theorem readInode_quiet (ip : Fin NINODE) : Quiet (readInode ip) := by
  unfold readInode
  repeat' first | with_reducible refine Always.bind ?_ fun _ => ?_ | split
  all_goals simp

@[simp]
theorem begin_op_quiet : Quiet begin_op := by
  unfold begin_op
  repeat' first | with_reducible refine Always.bind ?_ fun _ => ?_ | split
  all_goals simp

@[simp]
theorem end_op_quiet : Quiet end_op := .modify fun _ => ⟨rfl, rfl, rfl⟩

@[simp]
theorem log_write_quiet (b : Nat) : Quiet (log_write b) := by
  unfold log_write
  repeat' first | with_reducible refine Always.bind ?_ fun _ => ?_ | split
  all_goals simp

@[simp]
theorem bzero_quiet (b : Nat) : Quiet (bzero b) := by
  unfold bzero
  repeat' first | with_reducible refine Always.bind ?_ fun _ => ?_ | split
  all_goals simp

@[simp]
theorem balloc_quiet : Quiet balloc := by
  unfold balloc
  repeat' first | with_reducible refine Always.bind ?_ fun _ => ?_ | split
  all_goals simp

@[simp]
theorem bfree_quiet (b : Nat) : Quiet (bfree b) := by
  unfold bfree
  repeat' first | with_reducible refine Always.bind ?_ fun _ => ?_ | split
  all_goals simp

@[simp]
theorem iget_quiet (inum : Nat) : Quiet (iget inum) := by
  unfold iget
  repeat' first | with_reducible refine Always.bind ?_ fun _ => ?_ | split
  all_goals simp

@[simp]
theorem ialloc_quiet (type : Nat) : Quiet (ialloc type) := by
  unfold ialloc
  repeat' first | with_reducible refine Always.bind ?_ fun _ => ?_ | split
  all_goals simp

@[simp]
theorem iupdate_quiet (ip : Fin NINODE) : Quiet (iupdate ip) := by
  unfold iupdate
  repeat' first | with_reducible refine Always.bind ?_ fun _ => ?_ | split
  all_goals simp

@[simp]
theorem idup_quiet (ip : Fin NINODE) : Quiet (idup ip) := by
  unfold idup
  repeat' first | with_reducible refine Always.bind ?_ fun _ => ?_ | split
  all_goals simp

@[simp]
theorem acquiresleep_quiet (ip : Fin NINODE) : Quiet (acquiresleep ip) := by
  unfold acquiresleep
  repeat' first | with_reducible refine Always.bind ?_ fun _ => ?_ | split
  all_goals simp

@[simp]
theorem releasesleep_quiet (ip : Fin NINODE) : Quiet (releasesleep ip) := by
  unfold releasesleep
  repeat' first | with_reducible refine Always.bind ?_ fun _ => ?_ | split
  all_goals simp

@[simp]
theorem ilock_quiet (ip : Fin NINODE) : Quiet (ilock ip) := by
  unfold ilock
  repeat' first | with_reducible refine Always.bind ?_ fun _ => ?_ | split
  all_goals simp

@[simp]
theorem iunlock_quiet (ip : Fin NINODE) : Quiet (iunlock ip) := by
  unfold iunlock
  repeat' first | with_reducible refine Always.bind ?_ fun _ => ?_ | split
  all_goals simp

@[simp]
theorem bmap_quiet (ip : Fin NINODE) (bn : Nat) : Quiet (bmap ip bn) := by
  unfold bmap
  repeat' first | with_reducible refine Always.bind ?_ fun _ => ?_ | split
  all_goals simp

@[simp]
theorem itrunc_quiet (ip : Fin NINODE) : Quiet (itrunc ip) := by
  unfold itrunc
  repeat' first
    | with_reducible refine Always.bind ?_ fun _ => ?_
    | with_reducible refine Always.forM (fun _ => ?_) _
    | split
    | dsimp only
  all_goals simp

@[simp]
theorem iput_quiet (ip : Fin NINODE) : Quiet (iput ip) := by
  unfold iput
  repeat' first | with_reducible refine Always.bind ?_ fun _ => ?_ | split
  all_goals simp

@[simp]
theorem iunlockput_quiet (ip : Fin NINODE) : Quiet (iunlockput ip) := by
  unfold iunlockput
  repeat' first | with_reducible refine Always.bind ?_ fun _ => ?_ | split
  all_goals simp

@[simp]
theorem readLoop_quiet (ip : Fin NINODE) (fuel off n : Nat) : Quiet (readLoop ip fuel off n) := by
  induction fuel generalizing off n <;> unfold readLoop
  all_goals repeat' first | with_reducible refine Always.bind ?_ fun _ => ?_ | split
  all_goals simp [*]

@[simp]
theorem consoleread_quiet (n : Nat) : Quiet (consoleread n) := ⟨fun _ => ⟨rfl, rfl, rfl⟩⟩

@[simp]
theorem readi_quiet (ip : Fin NINODE) (off n : Nat) : Quiet (readi ip off n) := by
  unfold readi
  repeat' first | with_reducible refine Always.bind ?_ fun _ => ?_ | split
  all_goals simp

@[simp]
theorem writeLoop_quiet (ip : Fin NINODE) (fuel off : Nat) (src : List UInt8) : Quiet (writeLoop ip fuel off src) := by
  induction fuel generalizing off src <;> unfold writeLoop
  all_goals repeat' first | with_reducible refine Always.bind ?_ fun _ => ?_ | split
  all_goals simp [*]

@[simp]
theorem writei_quiet (ip : Fin NINODE) (src : List UInt8) (off : Nat) : Quiet (writei ip src off) := by
  unfold writei
  repeat' first | with_reducible refine Always.bind ?_ fun _ => ?_ | split | dsimp only
  all_goals simp

/-! ### Directories and paths -/

@[simp]
theorem readDirent_quiet (dp : Fin NINODE) (off : Nat) {msg : String} (hdup : msg ≠ "filedup")
    (hclose : msg ≠ "fileclose") : Quiet (readDirent dp off msg) := by
  unfold readDirent
  repeat' first | with_reducible refine Always.bind ?_ fun _ => ?_ | split
  all_goals simp [hdup, hclose]

@[simp]
theorem dirlookup_loop_quiet (dp : Fin NINODE) (name : List UInt8) (offs : List Nat) :
    Quiet (dirlookup.loop dp name offs) := by
  induction offs <;> unfold dirlookup.loop
  all_goals repeat' first | with_reducible refine Always.bind ?_ fun _ => ?_ | split
  all_goals simp [*]

@[simp]
theorem dirlookup_quiet (dp : Fin NINODE) (name : List UInt8) : Quiet (dirlookup dp name) := by
  unfold dirlookup
  repeat' first | with_reducible refine Always.bind ?_ fun _ => ?_ | split
  all_goals simp

@[simp]
theorem dirlink_loop_quiet (dp : Fin NINODE) (stop : Nat) (offs : List Nat) : Quiet (dirlink.loop dp stop offs) := by
  induction offs <;> unfold dirlink.loop
  all_goals repeat' first | with_reducible refine Always.bind ?_ fun _ => ?_ | split
  all_goals simp [*]

@[simp]
theorem dirlink_quiet (dp : Fin NINODE) (name : List UInt8) (inum : Nat) : Quiet (dirlink dp name inum) := by
  unfold dirlink
  repeat' first | with_reducible refine Always.bind ?_ fun _ => ?_ | split
  all_goals simp

@[simp]
theorem namex_loop_quiet (parent : Bool) (fuel : Nat) (path : List UInt8) (ip : Fin NINODE) (name : List UInt8) :
    Quiet (namex.loop parent fuel path ip name) := by
  induction fuel generalizing path ip name with
  | zero => exact .throw (by decide)
  | succ fuel ih =>
    unfold namex.loop
    repeat' first | with_reducible refine Always.bind ?_ fun _ => ?_ | split
    all_goals simp [ih]

@[simp]
theorem namex_quiet (cwd : Fin NINODE) (path : List UInt8) (parent : Bool) : Quiet (namex cwd path parent) := by
  unfold namex
  repeat' first | with_reducible refine Always.bind ?_ fun _ => ?_ | split
  all_goals simp

@[simp]
theorem namei_quiet (cwd : Fin NINODE) (path : List UInt8) : Quiet (namei cwd path) := by
  unfold namei
  repeat' first | with_reducible refine Always.bind ?_ fun _ => ?_ | split
  all_goals simp

@[simp]
theorem nameiparent_quiet (cwd : Fin NINODE) (path : List UInt8) : Quiet (nameiparent cwd path) := by
  unfold nameiparent
  repeat' first | with_reducible refine Always.bind ?_ fun _ => ?_ | split
  all_goals simp

@[simp]
theorem isdirempty_loop_quiet (dp : Fin NINODE) (offs : List Nat) : Quiet (isdirempty.loop dp offs) := by
  induction offs <;> unfold isdirempty.loop
  all_goals repeat' first | with_reducible refine Always.bind ?_ fun _ => ?_ | split
  all_goals simp [*]

@[simp]
theorem isdirempty_quiet (dp : Fin NINODE) : Quiet (isdirempty dp) := by
  unfold isdirempty
  repeat' first | with_reducible refine Always.bind ?_ fun _ => ?_ | split
  all_goals simp

@[simp]
theorem create_quiet (cwd : Fin NINODE) (path : List UInt8) (type major minor : Nat) :
    Quiet (create cwd path type major minor) := by
  unfold create
  repeat' first | with_reducible refine Always.bind ?_ fun _ => ?_ | split
  all_goals simp

@[simp]
theorem sys_open_inode_quiet (cwd : Fin NINODE) (path : List UInt8) (omode : Nat) :
    Quiet (sys_open.inode cwd path omode) := by
  unfold sys_open.inode
  repeat' first | with_reducible refine Always.bind ?_ fun _ => ?_ | split
  all_goals simp

/-! ### The calls that only use the inode layer -/

variable {p : Fin NPROC}

@[simp]
theorem readProc_quiet (p : Fin NPROC) : Quiet (readProc p) := by
  unfold readProc
  repeat' first | with_reducible refine Always.bind ?_ fun _ => ?_ | split
  all_goals simp

@[simp]
theorem sys_link_bad_quiet (ip : Fin NINODE) : Quiet (sys_link.bad ip) := by
  unfold sys_link.bad
  repeat' first | with_reducible refine Always.bind ?_ fun _ => ?_ | split
  all_goals simp

@[simp]
theorem sys_link_quiet (old new : List UInt8) : Quiet (sys_link p old new) := by
  unfold sys_link
  repeat' first | with_reducible refine Always.bind ?_ fun _ => ?_ | split
  all_goals simp

@[simp]
theorem sys_unlink_bad_quiet (dp : Fin NINODE) : Quiet (sys_unlink.bad dp) := by
  unfold sys_unlink.bad
  repeat' first | with_reducible refine Always.bind ?_ fun _ => ?_ | split
  all_goals simp

@[simp]
theorem sys_unlink_quiet (path : List UInt8) : Quiet (sys_unlink p path) := by
  unfold sys_unlink
  repeat' first | with_reducible refine Always.bind ?_ fun _ => ?_ | split | dsimp only
  all_goals simp

@[simp]
theorem sys_make_quiet (path : List UInt8) (type major minor : Nat) : Quiet (sys_make p path type major minor) := by
  unfold sys_make
  repeat' first | with_reducible refine Always.bind ?_ fun _ => ?_ | split
  all_goals simp

@[simp]
theorem exec_quiet (path : List UInt8) (parts : List (Nat × Nat)) : Quiet (exec p path parts) := by
  refine (readProc_quiet p).bind fun proc => begin_op_quiet.bind fun _ => (namei_quiet ..).bind fun r => ?_
  split
  · exact end_op_quiet.bind fun _ => .pure _
  · refine (ilock_quiet _).bind fun _ => (Always.forM (fun part => ?_) parts).bind fun _ =>
      (iunlockput_quiet _).bind fun _ => end_op_quiet.bind fun _ => .pure _
    exact Always.map (readi_quiet ..)

@[simp]
theorem filestat_quiet (f : Fin NFILE) : Quiet (filestat f) := by
  unfold filestat
  repeat' first | with_reducible refine Always.bind ?_ fun _ => ?_ | split | dsimp only
  all_goals simp

end xv6.fs
