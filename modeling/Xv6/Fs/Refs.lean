import Xv6.Fs.Frame
import Xv6.Fs.Mkfs
import Xv6.Fs.PipeEnds
import Xv6.Lib.Count

open Function outcome count run

namespace xv6.fs

/-- The counts of references of the open files. -/
def Fs.refs (s : Fs) (f : Fin NFILE) : Nat := (s.ftable f).ref

/-- The open file that descriptor `fd` of process `p` points to. -/
def Fs.ofile (s : Fs) (p : Fin NPROC) (fd : Fin NOFILE) : Option (Fin NFILE) := (s.proc p).bind fun proc => proc.ofile fd

/-- The number of descriptors that point to `f`. -/
def Fs.slots (s : Fs) (f : Fin NFILE) : Nat := holders (fun z : Fin NPROC × Fin NOFILE => s.ofile z.1 z.2) f

/-- Every open file is counted once for each descriptor that points to it. -/
structure Refs (s : Fs) : Prop where
  ends : PipeEnds s.ftable s.pages
  count : s.refs = s.slots

/-- The open files of `s'` have the counts `refs`; the processes are those of `s`. -/
structure Recount (s s' : Fs) (refs : Fin NFILE → Nat) : Prop where
  ends : PipeEnds s'.ftable s'.pages
  proc : s'.proc = s.proc
  refs : s'.refs = refs

section
variable {s s' s₁ : Fs} {f : Fin NFILE} {p : Fin NPROC}

theorem slots_of_ofile (h : s'.ofile = s.ofile) : s'.slots = s.slots := by
  unfold Fs.slots
  rw [h]

theorem slots_congr (h : s'.proc = s.proc) : s'.slots = s.slots :=
  slots_of_ofile (by unfold Fs.ofile; rw [h])

theorem SameFiles.recount (h : SameFiles s s') (hends : PipeEnds s.ftable s.pages) : Recount s s' s.refs := by
  refine ⟨by rw [h.ftable, h.pages]; exact hends, h.proc, ?_⟩
  unfold Fs.refs
  rw [h.ftable]

theorem Recount.quiet {refs : Fin NFILE → Nat} (h : Recount s s₁ refs) (hs : SameFiles s₁ s') : Recount s s' refs :=
  have hre := hs.recount h.ends
  ⟨hre.ends, hre.proc.trans h.proc, hre.refs.trans h.refs⟩

theorem refs_update (s : Fs) (f : Fin NFILE) (file : File) :
    Fs.refs { s with ftable := update s.ftable f file } = update s.refs f file.ref := by
  funext g
  grind [Fs.refs, update_apply]

theorem filealloc_spec (hends : PipeEnds s.ftable s.pages) :
    Ensures NotFile filealloc s fun r s' => match r with
      | none => s' = s
      | some f => s.refs f = 0 ∧ s' = { s with ftable := update s.ftable f { s.ftable f with ref := 1 } } ∧
          Recount s s' (update s.refs f 1) := by
  simp only [filealloc, ensures_bind, ensures_get]
  split
  · rename_i f hfind
    have hfree : (s.ftable f).ref = 0 := by simpa using List.find?_some hfind
    exact ⟨hfree, rfl, hends.count Nat.one_pos, rfl, refs_update s f _⟩
  · exact ensures_pure.2 rfl

theorem filedup_spec (hends : PipeEnds s.ftable s.pages) (hpos : 0 < s.refs f) :
    Ensures NotFile (filedup f) s fun _ s' => Recount s s' (update s.refs f (s.refs f + 1)) := by
  have hpos' : ¬ (s.ftable f).ref < 1 := Nat.not_lt.2 hpos
  simp only [filedup, ensures_bind, ensures_get, if_neg hpos', updateFile, ensures_modify]
  exact ⟨hends.count (Nat.succ_pos _), rfl, refs_update s f _⟩

theorem pipeclose_closes (p : Pipe) (w : Bool) :
    (p.close w).readopen = false ∧ (p.close w).writeopen = false ↔ isOpen p (!w) = false := by
  rw [closed_iff]
  simp only [isOpen_close]
  constructor
  · intro h
    have hother := h (!w)
    cases w <;> simpa using hother
  · intro h w'
    cases w <;> cases w' <;> simp_all

/-- `pipeclose` of the end that a file with no more references stood for. -/
theorem pipeclose_spec {file : File} {pg : Nat} {w : Bool} (hends : PipeEnds s.ftable s.pages)
    (hend : EndOf (s.ftable f) pg w) (htype : file.type = .FD_NONE) :
    Ensures NotFile (pipeclose pg w) { s with ftable := update s.ftable f file } fun _ s' =>
      Recount s s' (update s.refs f file.ref) := by
  simp only [pipeclose, updatePipe, ensures_bind, ensures_modify, ensures_get, update_self]
  by_cases hother : isOpen (s.pages.pipe pg) (!w) = false
  · rw [if_pos ((pipeclose_closes ..).2 hother)]
    simp only [kfree, ensures_modify, update_idem]
    exact ⟨hends.release hend htype hother, rfl, refs_update s f file⟩
  · rw [if_neg fun hclosed => hother ((pipeclose_closes ..).1 hclosed)]
    exact ⟨hends.shut hend htype (by simpa using hother), rfl, refs_update s f file⟩

theorem fileclose_spec (hends : PipeEnds s.ftable s.pages) (hpos : 0 < s.refs f) :
    Ensures NotFile (fileclose f) s fun _ s' => Recount s s' (update s.refs f (s.refs f - 1)) := by
  have hpos' : ¬ (s.ftable f).ref < 1 := Nat.not_lt.2 hpos
  simp only [fileclose, ensures_bind, ensures_get, if_neg hpos']
  by_cases hmore : (s.ftable f).ref - 1 > 0
  · rw [if_pos hmore]
    exact ⟨hends.count hmore, rfl, refs_update s f _⟩
  · rw [if_neg hmore]
    have hlast : s.refs f - 1 = 0 := Nat.eq_zero_of_not_pos hmore
    rw [hlast]
    simp only [ensures_bind, updateFile, ensures_modify]
    by_cases hpipe : (s.ftable f).type = .FD_PIPE
    · rw [if_pos hpipe]
      exact pipeclose_spec hends ⟨hpipe, rfl, rfl⟩ rfl
    · rw [if_neg hpipe]
      have hclosed : Recount s { s with ftable := update s.ftable f { s.ftable f with ref := 0, type := .FD_NONE } }
          (update s.refs f 0) := ⟨hends.keep hpipe (by simp) fun _ => rfl, rfl, refs_update s f _⟩
      have hiput : Quiet (do
          begin_op
          iput (s.ftable f).ip
          end_op) := begin_op_quiet.bind fun _ => (iput_quiet _).bind fun _ => end_op_quiet
      exact ((Always.ite hiput (.pure _)).ensures _).imp fun _ _ hsame => hclosed.quiet hsame

/-- A reference taken and given back. -/
theorem update_sub_one {refs : Fin NFILE → Nat} (hfree : refs f = 0) : update (update refs f 1) f (1 - 1) = refs := by
  rw [update_idem, Nat.sub_self, ← hfree, update_eq_self]

theorem fileclose_undo {refs : Fin NFILE → Nat} (h : Recount s s₁ (update refs f 1)) (hfree : refs f = 0) :
    Ensures NotFile (fileclose f) s₁ fun _ s' => Recount s s' refs := by
  refine (fileclose_spec h.ends ?_).imp fun _ s' h' => ⟨h'.ends, h'.proc.trans h.proc, ?_⟩
  · rw [h.refs, update_self]
    exact Nat.one_pos
  · rw [h'.refs, h.refs, update_self, update_sub_one hfree]

theorem pipealloc_spec (hends : PipeEnds s.ftable s.pages) :
    Ensures NotFile pipealloc s fun r s' => match r with
      | none => Recount s s' s.refs
      | some (rf, wf) => rf ≠ wf ∧ s.refs rf = 0 ∧ s.refs wf = 0 ∧ Recount s s' (update (update s.refs rf 1) wf 1) := by
  refine (filealloc_spec hends).bind fun r s₁ h₁ => ?_
  cases r with
  | none =>
    subst h₁
    exact ⟨hends, rfl, rfl⟩
  | some f0 =>
    obtain ⟨hfree₀, hs₁, h₁⟩ := h₁
    refine (filealloc_spec h₁.ends).bind fun r s₂ h₂ => ?_
    cases r with
    | none =>
      subst h₂
      simp only [pipealloc.bad, Option.forM, ensures_bind, ensures_pure]
      exact fileclose_undo h₁ hfree₀
    | some f1 =>
      obtain ⟨hfree₁, hs₂, h₂⟩ := h₂
      have hne : f0 ≠ f1 := by
        rintro rfl
        rw [h₁.refs, update_self] at hfree₁
        cases hfree₁
      rw [h₁.refs, update_of_ne hne.symm] at hfree₁
      have hboth : Recount s s₂ (update (update s.refs f0 1) f1 1) :=
        ⟨h₂.ends, h₂.proc.trans h₁.proc, by rw [h₂.refs, h₁.refs]⟩
      simp only [kalloc, ensures_bind, ensures_get]
      cases hpages : s₂.pages.free with
      | nil =>
        simp only [pipealloc.bad, Option.forM, ensures_bind, ensures_pure]
        rw [update_comm hne] at hboth
        refine (fileclose_undo hboth (by rw [update_of_ne hne, hfree₀])).imp fun _ s₃ h₃ => ?_
        exact fileclose_undo h₃ hfree₁
      | cons pg free =>
        have hnone₀ : (s₂.ftable f0).type = .FD_NONE := by
          rw [hs₂, hs₁]
          simpa [hne] using hends.closed f0 hfree₀
        have hnone₁ : (s₂.ftable f1).type = .FD_NONE := by
          rw [hs₂, hs₁]
          simpa [hne.symm] using hends.closed f1 hfree₁
        have href₀ : (s₂.ftable f0).ref = 1 := (congrFun hboth.refs f0).trans (by simp [hne])
        have href₁ : (s₂.ftable f1).ref = 1 := (congrFun hboth.refs f1).trans (by simp)
        simp only [ensures_bind, ensures_set, ensures_pure, updatePipe, updateFile, ensures_modify, update_of_ne hne.symm]
        refine ⟨hne, hfree₀, hfree₁, ?_, hboth.proc, ?_⟩
        · exact h₂.ends.make hpages hne (by simp [hnone₀]) (by simp [hnone₁]) ⟨rfl, rfl, rfl⟩ ⟨rfl, rfl, rfl⟩
            (by simp [href₀]) (by simp [href₁]) fun w => by cases w <;> rfl
        · rw [← hboth.refs]
          funext g
          grind [Fs.refs, update_apply]

/-! ### Descriptors -/

/-- Process `p`, which is `proc`, has `v` as its descriptor `fd` now. -/
def Fs.setFd (s : Fs) (p : Fin NPROC) (proc : Proc) (fd : Fin NOFILE) (v : Option (Fin NFILE)) : Fs :=
  { s with proc := update s.proc p (some { proc with ofile := update proc.ofile fd v }) }

variable {proc : Proc} {fd : Fin NOFILE} {v : Option (Fin NFILE)}

theorem ofile_eq (hproc : s.proc p = some proc) : s.ofile p = proc.ofile := by
  funext fd
  simp [Fs.ofile, hproc]

theorem slots_row (s s' : Fs) (f : Fin NFILE) {q : Fin NPROC} (h : ∀ p, p ≠ q → s'.proc p = s.proc p) :
    s'.slots f + holders (s.ofile q) f = s.slots f + holders (s'.ofile q) f := by
  refine holders_row q fun p hp => ?_
  funext fd
  rw [Fs.ofile, Fs.ofile, h p hp]

theorem slots_setFd (fd : Fin NOFILE) (v : Option (Fin NFILE)) (hproc : s.proc p = some proc) (g : Fin NFILE) :
    (s.setFd p proc fd v).slots g + (if proc.ofile fd = some g then 1 else 0) =
      s.slots g + if v = some g then 1 else 0 := by
  have hrow := slots_row s (s.setFd p proc fd v) g (q := p) fun q hq => update_of_ne hq _ _
  have hupdate := holders_update (f := g) proc.ofile fd v
  have hofile : (s.setFd p proc fd v).ofile p = update proc.ofile fd v := by
    rw [ofile_eq (update_self ..)]
  rw [ofile_eq hproc, hofile] at hrow
  omega

theorem slots_take (hproc : s.proc p = some proc) (hfd : proc.ofile fd = none) :
    (s.setFd p proc fd (some f)).slots = update s.slots f (s.slots f + 1) := by
  funext g
  have hslots := slots_setFd fd (some f) hproc g
  grind [update_apply]

theorem slots_drop (hproc : s.proc p = some proc) (hfd : proc.ofile fd = some f) :
    (s.setFd p proc fd none).slots = update s.slots f (s.slots f - 1) := by
  funext g
  have hslots := slots_setFd fd none hproc g
  grind [update_apply]

theorem setFd_undo (hproc : s.proc p = some proc) (hfd : proc.ofile fd = none) :
    (s.setFd p proc fd v).setFd p { proc with ofile := update proc.ofile fd v } fd none = s := by
  have hofile : update proc.ofile fd none = proc.ofile := by rw [← hfd, update_eq_self]
  have hback : update s.proc p (some proc) = s.proc := by rw [← hproc, update_eq_self]
  simp only [Fs.setFd, update_idem, hofile, hback]

theorem slots_pos (hproc : s.proc p = some proc) (hfd : proc.ofile fd = some f) : 0 < s.slots f :=
  holders_pos (p, fd) (by rw [ofile_eq hproc]; exact hfd)

theorem ensures_readProc {Q : Proc → Fs → Prop} (h : ∀ proc, s.proc p = some proc → Q proc s) :
    Ensures NotFile (readProc p) s Q := by
  simp only [readProc, ensures_bind, ensures_get]
  split
  · rename_i proc hproc
    exact h proc hproc
  · exact ensures_throw.2 (by decide)

theorem ensures_setFd {Q : Unit → Fs → Prop} (hproc : s.proc p = some proc) (h : Q () (s.setFd p proc fd v)) :
    Ensures NotFile (updateProc p fun proc => { proc with ofile := update proc.ofile fd v }) s Q := by
  simp only [updateProc, ensures_modify, hproc, Option.map_some]
  exact h

theorem argfd_spec {n : Nat} {Q : Option (Fin NOFILE × Fin NFILE) → Fs → Prop} (hnone : Q none s)
    (hsome : ∀ proc fd f, s.proc p = some proc → proc.ofile fd = some f → Q (some (fd, f)) s) :
    Ensures NotFile (argfd p n) s Q := by
  rw [argfd, ensures_bind]
  refine ensures_readProc fun proc hproc => ?_
  split
  · rename_i hn
    rw [ensures_pure]
    cases hfd : proc.ofile ⟨n, hn⟩ with
    | none => exact hnone
    | some f => exact hsome proc ⟨n, hn⟩ f hproc hfd
  · exact hnone

theorem fdalloc_spec :
    Ensures NotFile (fdalloc p f) s fun r s' => match r with
      | none => s' = s
      | some fd => ∃ proc, s.proc p = some proc ∧ proc.ofile fd = none ∧ s' = s.setFd p proc fd (some f) := by
  rw [fdalloc, ensures_bind]
  refine ensures_readProc fun proc hproc => ?_
  split
  · rename_i fd hfind
    rw [ensures_bind]
    refine ensures_setFd hproc ⟨proc, hproc, ?_, rfl⟩
    simpa using List.find?_some hfind
  · exact ensures_pure.2 rfl

/-! ### System calls -/

theorem Refs.quiet (h : Refs s) (hs : SameFiles s s') : Refs s' := by
  have hre := hs.recount h.ends
  exact ⟨hre.ends, by rw [hre.refs, slots_congr hre.proc, h.count]⟩

theorem Refs.ensures_quiet {α : Type} {x : FsM α} (h : Refs s) (hx : Quiet x) : Ensures NotFile x s fun _ s' => Refs s' :=
  (hx.ensures s).imp fun _ _ => h.quiet

theorem Recount.refs_of {refs : Fin NFILE → Nat} (h : Recount s s' refs) (hcount : refs = s.slots) : Refs s' :=
  ⟨h.ends, by rw [h.refs, slots_congr h.proc, hcount]⟩

theorem Refs.pos (h : Refs s) (hproc : s.proc p = some proc) (hfd : proc.ofile fd = some f) : 0 < s.refs f := by
  rw [h.count]
  exact slots_pos hproc hfd

theorem sys_dup_refs (h : Refs s) (n : Nat) : Ensures NotFile (sys_dup p n) s fun _ s' => Refs s' := by
  rw [sys_dup, ensures_bind]
  refine argfd_spec h fun proc fd f hproc hfd => fdalloc_spec.bind fun r s₁ h₁ => ?_
  cases r with
  | none =>
    subst h₁
    exact h
  | some fd' =>
    obtain ⟨proc', hproc', hnone, rfl⟩ := h₁
    rw [ensures_bind]
    refine (filedup_spec (s := s.setFd p proc' fd' (some f)) h.ends (h.pos hproc hfd)).imp fun _ s₂ h₂ => h₂.refs_of ?_
    rw [slots_take hproc' hnone, ← h.count]
    rfl

theorem sys_close_refs (h : Refs s) (n : Nat) : Ensures NotFile (sys_close p n) s fun _ s' => Refs s' := by
  rw [sys_close, ensures_bind]
  refine argfd_spec h fun proc fd f hproc hfd => ?_
  simp only [ensures_bind]
  refine ensures_setFd hproc ((fileclose_spec (s := s.setFd p proc fd none) h.ends (h.pos hproc hfd)).imp fun _ s₁ h₁ =>
    h₁.refs_of ?_)
  rw [slots_drop hproc hfd, ← h.count]
  rfl

theorem sys_open_refs (h : Refs s) (path : List UInt8) (omode : Nat) :
    Ensures NotFile (sys_open p path omode) s fun _ s' => Refs s' := by
  rw [sys_open, ensures_bind]
  refine ensures_readProc fun proc hproc => (begin_op_quiet.ensures s).bind fun _ s₁ h₁ => ?_
  refine ((sys_open_inode_quiet proc.cwd path omode).ensures s₁).bind fun r s₂ h₂ => ?_
  have hrefs : Refs s₂ := (h.quiet h₁).quiet h₂
  cases r with
  | none => exact hrefs.ensures_quiet (end_op_quiet.bind fun _ => .pure _)
  | some ip =>
    refine (filealloc_spec hrefs.ends).bind fun r s₃ h₃ => ?_
    cases r with
    | none =>
      subst h₃
      exact hrefs.ensures_quiet ((iunlockput_quiet ip).bind fun _ => end_op_quiet.bind fun _ => .pure _)
    | some f =>
      obtain ⟨hfree, hs₃, h₃⟩ := h₃
      refine fdalloc_spec.bind fun r s₄ h₄ => ?_
      cases r with
      | none =>
        subst h₄
        refine (fileclose_undo h₃ hfree).bind fun _ s₅ h₅ => ?_
        exact (h₅.refs_of hrefs.count).ensures_quiet ((iunlockput_quiet ip).bind fun _ => end_op_quiet.bind fun _ => .pure _)
      | some fd =>
        obtain ⟨proc', hproc', hnone, rfl⟩ := h₄
        have hrefs' : Refs (s₃.setFd p proc' fd (some f)) := by
          refine ⟨h₃.ends, ?_⟩
          rw [slots_take hproc' hnone, slots_congr h₃.proc, ← hrefs.count]
          refine Eq.trans h₃.refs ?_
          rw [hfree]
        refine ((iunlock_quiet ip).ensures _).bind fun _ s₅ h₅ => (end_op_quiet.ensures s₅).bind fun _ s₆ h₆ => ?_
        have hrefs₆ := (hrefs'.quiet h₅).quiet h₆
        simp only [ensures_bind, updateFile, ensures_modify, ensures_pure]
        have hfile : s₆.ftable f = { s₂.ftable f with ref := 1 } := by
          rw [h₆.ftable, h₅.ftable, hs₃]
          simp [Fs.setFd]
        have htype : (s₆.ftable f).type = .FD_NONE := by
          rw [hfile]
          exact hrefs.ends.closed f hfree
        have hone : (s₆.ftable f).ref = 1 := by rw [hfile]
        refine ⟨hrefs₆.ends.keep (by simp [htype]) (by simp) (by simp [hone]), ?_⟩
        rw [refs_update]
        exact (update_eq_self f s₆.refs).trans hrefs₆.count

theorem sys_pipe_refs (h : Refs s) : Ensures NotFile (sys_pipe p) s fun _ s' => Refs s' := by
  refine (pipealloc_spec h.ends).bind fun r s₁ h₁ => ?_
  match r with
  | none => exact h₁.refs_of h.count
  | some (rf, wf) =>
    obtain ⟨hne, hfree₀, hfree₁, h₁⟩ := h₁
    have hundo : Ensures NotFile (fileclose rf) s₁ fun _ s₂ =>
        Ensures NotFile (fileclose wf) s₂ fun _ s' => Recount s s' s.refs := by
      rw [update_comm hne] at h₁
      refine (fileclose_undo h₁ (by rw [update_of_ne hne, hfree₀])).imp fun _ s₂ h₂ => ?_
      exact fileclose_undo h₂ hfree₁
    refine fdalloc_spec.bind fun r s₂ h₂ => ?_
    cases r with
    | none =>
      subst h₂
      simp only [ensures_bind, ensures_pure]
      exact hundo.imp fun _ s₃ h₃ => h₃.imp fun _ s₄ h₄ => h₄.refs_of h.count
    | some fd0 =>
      obtain ⟨proc, hproc, hnone, rfl⟩ := h₂
      refine fdalloc_spec.bind fun r s₃ h₃ => ?_
      cases r with
      | none =>
        subst h₃
        simp only [ensures_bind, ensures_pure]
        refine ensures_setFd (update_self ..) ?_
        rw [setFd_undo hproc hnone]
        exact hundo.imp fun _ s₃ h₃ => h₃.imp fun _ s₄ h₄ => h₄.refs_of h.count
      | some fd1 =>
        obtain ⟨proc', hproc', hnone', rfl⟩ := h₃
        rw [ensures_pure]
        refine ⟨h₁.ends, ?_⟩
        rw [slots_take hproc' hnone', slots_take hproc hnone, slots_congr h₁.proc, update_of_ne hne.symm, ← h.count,
          hfree₀, hfree₁]
        exact h₁.refs

/-- The counts are kept. -/
def RefsKept (s s' : Fs) : Prop := Refs s → Refs s'

instance : Std.Refl RefsKept := ⟨fun _ => id⟩

instance : IsTrans Fs RefsKept := ⟨fun _ _ _ h h' => h' ∘ h⟩

/-- Code that keeps the counts, and whose panics do not depend on them. -/
abbrev Counted {α : Type} (x : FsM α) : Prop := Always NotFile RefsKept x

@[simp]
theorem Quiet.counted {α : Type} {x : FsM α} (h : Quiet x) : Counted x :=
  ⟨fun s => (h.ensures s).imp fun _ _ hs h => h.quiet hs⟩

theorem Refs.ensures {α : Type} {x : FsM α} (h : Refs s) (hx : Counted x) : Ensures NotFile x s fun _ s' => Refs s' :=
  (hx.ensures s).imp fun _ _ hs => hs h

@[simp]
theorem updateProc_counted {g : Proc → Proc} (p : Fin NPROC) (hg : ∀ proc, (g proc).ofile = proc.ofile) :
    Counted (updateProc p g) := by
  refine .modify fun s h => ⟨h.ends, h.count.trans (slots_of_ofile ?_).symm⟩
  funext q fd
  by_cases hq : q = p
  · subst hq
    cases hproc : s.proc q <;> simp [Fs.ofile, hproc, hg]
  · simp [Fs.ofile, hq]

@[simp]
theorem argfd_quiet (p : Fin NPROC) (n : Nat) : Quiet (argfd p n) := by
  unfold argfd
  repeat' first | with_reducible refine Always.bind ?_ fun _ => ?_ | split
  all_goals simp

theorem sys_chdir_counted (p : Fin NPROC) (path : List UInt8) : Counted (sys_chdir p path) := by
  unfold sys_chdir
  repeat' first | with_reducible refine Always.bind ?_ fun _ => ?_ | split
  all_goals simp

/-- The bytes of a pipe may change. -/
theorem Refs.updatePipe {pg : Nat} {q : Pipe} (h : Refs s) (hopen : ∀ w, isOpen q w = isOpen (s.pages.pipe pg) w) :
    Refs { s with pages := { s.pages with pipe := update s.pages.pipe pg q } } :=
  ⟨h.ends.memory (List.Perm.refl _) (by grind [update_apply]), h.count⟩

theorem piperead_loop_open (n : Nat) (q : Pipe) (w : Bool) : isOpen (piperead.loop n q).2 w = isOpen q w := by
  fun_induction piperead.loop n q <;> grind [isOpen]

theorem pipewrite_loop_open (addr : List UInt8) (q : Pipe) (w : Bool) : isOpen (pipewrite.loop addr q).2 w = isOpen q w := by
  fun_induction pipewrite.loop addr q <;> grind [isOpen, Pipe.put]

@[simp]
theorem piperead_counted (pg n : Nat) : Counted (piperead pg n) := by
  refine ⟨fun s => ?_⟩
  simp only [piperead, ensures_bind, ensures_get]
  split
  · exact ensures_throw.2 (by decide)
  · exact fun h => h.updatePipe fun w => piperead_loop_open n _ w

@[simp]
theorem pipewrite_counted (pg : Nat) (addr : List UInt8) : Counted (pipewrite pg addr) := by
  refine ⟨fun s => ?_⟩
  simp only [pipewrite, ensures_bind, ensures_get]
  have hkept (h : Refs s) := h.updatePipe (q := (pipewrite.loop addr (s.pages.pipe pg)).2) fun w =>
    pipewrite_loop_open addr _ w
  refine ensures_modify.2 ?_
  split
  · exact hkept
  · split
    · exact hkept
    · exact ensures_throw.2 (by decide)

/-- The offset of an open file may change. -/
@[simp]
theorem updateFile_counted {g : File → File} (f : Fin NFILE) (hg : ∀ file, ∃ off, g file = { file with off := off }) :
    Counted (updateFile f g) := by
  refine .modify fun s h => ?_
  obtain ⟨off, heq⟩ := hg (s.ftable f)
  rw [heq]
  refine ⟨h.ends.same rfl rfl rfl (h.ends.closed f), ?_⟩
  rw [refs_update]
  exact (update_eq_self f s.refs).trans h.count

@[simp]
theorem fileread_counted (f : Fin NFILE) (n : Nat) : Counted (fileread f n) := by
  unfold fileread
  repeat' first | with_reducible refine Always.bind ?_ fun _ => ?_ | split | dsimp only
  all_goals simp

@[simp]
theorem filewrite_loop_counted (f : Fin NFILE) (fuel : Nat) (addr : List UInt8) : Counted (filewrite.loop f fuel addr) := by
  induction fuel generalizing addr with
  | zero => exact .pure _
  | succ fuel ih =>
    unfold filewrite.loop
    repeat' first | with_reducible refine Always.bind ?_ fun _ => ?_ | split
    all_goals simp [ih]

@[simp]
theorem filewrite_counted (f : Fin NFILE) (addr : List UInt8) : Counted (filewrite f addr) := by
  unfold filewrite
  repeat' first | with_reducible refine Always.bind ?_ fun _ => ?_ | split | dsimp only
  all_goals simp

/-- Every system call keeps the counts and does not panic in `filedup` or `fileclose`. -/
theorem syscall_refs (h : Refs s) (op : Op) : Ensures NotFile (syscall p op) s fun _ s' => Refs s' := by
  cases op with
  | dup fd => exact sys_dup_refs h fd
  | read | write | fstat =>
    refine h.ensures ?_
    simp only [syscall, sys_read, sys_write, sys_fstat]
    repeat' first | with_reducible refine Always.bind ?_ fun _ => ?_ | split
    all_goals simp
  | close fd => exact sys_close_refs h fd
  | link old new => exact h.ensures_quiet (sys_link_quiet old new)
  | unlink path => exact h.ensures_quiet (sys_unlink_quiet path)
  | opens path omode => exact sys_open_refs h path omode
  | mkdir path => exact h.ensures_quiet (sys_make_quiet ..)
  | mknod path major minor => exact h.ensures_quiet (sys_make_quiet ..)
  | chdir path => exact h.ensures (sys_chdir_counted p path)
  | pipe => exact (sys_pipe_refs h).bind fun _ _ h₁ => h₁
  | exec path parts => exact h.ensures_quiet (exec_quiet path parts)

/-! ### Processes -/

theorem fork_loop (hends : PipeEnds s.ftable s.pages) (l : List (Fin NOFILE))
    (hpos : ∀ fd f, proc.ofile fd = some f → 0 < s.refs f) :
    Ensures NotFile (l.forM fun fd => match proc.ofile fd with
      | some f => filedup f
      | none => return) s fun _ s' => Recount s s' fun f => s.refs f + l.countP (proc.ofile · = some f) := by
  induction l generalizing s with
  | nil => exact ⟨hends, rfl, rfl⟩
  | cons fd l ih =>
    rw [ensures_forM_cons]
    cases hfd : proc.ofile fd with
    | none =>
      refine (ih hends hpos).imp fun _ s' h' => ⟨h'.ends, h'.proc, h'.refs.trans ?_⟩
      funext f
      simp [hfd]
    | some f =>
      refine (filedup_spec hends (hpos fd f hfd)).imp fun _ s₁ h₁ => ?_
      have hle (g : Fin NFILE) : s.refs g ≤ s₁.refs g := by
        rw [h₁.refs, update_apply]
        split_ifs with hg
        · rw [hg]
          omega
        · exact le_rfl
      refine (ih h₁.ends fun fd' g hg => (hpos fd' g hg).trans_le (hle g)).imp fun _ s' h' => ?_
      refine ⟨h'.ends, h'.proc.trans h₁.proc, h'.refs.trans ?_⟩
      funext g
      rw [h₁.refs, update_apply, List.countP_cons, hfd]
      by_cases hg : g = f
      · subst hg
        simp
        omega
      · simp [hg, Ne.symm hg]

theorem fork_refs (h : Refs s) (np : Option (Fin NPROC)) (hnp : ∀ q ∈ np, s.proc q = none) :
    Ensures NotFile (fork p np) s fun _ s' => Refs s' := by
  rw [fork, ensures_bind]
  refine ensures_readProc fun proc hproc => ?_
  cases np with
  | none => exact h
  | some np =>
    refine (fork_loop h.ends (List.finRange NOFILE) fun _ _ => h.pos hproc).bind fun _ s₁ h₁ => ?_
    refine ((idup_quiet proc.cwd).ensures s₁).bind fun cwd s₂ h₂ => ?_
    have h₂ := h₁.quiet h₂
    simp only [ensures_modify]
    refine ⟨h₂.ends, h₂.refs.trans ?_⟩
    funext f
    obtain ⟨s₃, hs₃⟩ : ∃ s₃, s₃ = { s₂ with proc := update s₂.proc np (some { cwd := cwd, ofile := proc.ofile }) } :=
      ⟨_, rfl⟩
    have hchild : s₃.proc np = some { cwd := cwd, ofile := proc.ofile } := by rw [hs₃]; exact update_self ..
    have hempty : s.ofile np = fun _ => none := by
      funext fd
      simp [Fs.ofile, hnp np rfl]
    have hrow := slots_row s s₃ f (q := np) fun q hq => by
      rw [hs₃]
      exact (update_of_ne hq _ _).trans (congrFun h₂.proc q)
    rw [ofile_eq hchild, hempty, holders_none] at hrow
    rw [← hs₃, h.count, ← holders_finRange, ← hrow, Nat.add_zero]

/-- The body of the loop of `exit`. -/
theorem exit_body (h : Refs s) (fd : Fin NOFILE) :
    Ensures NotFile (do
      let proc ← readProc p
      match proc.ofile fd with
      | some f =>
        fileclose f
        updateProc p fun proc => { proc with ofile := update proc.ofile fd none }
      | none => return) s fun _ s' =>
        Refs s' ∧ s'.ofile p fd = none ∧ ∀ fd', s.ofile p fd' = none → s'.ofile p fd' = none := by
  rw [ensures_bind]
  refine ensures_readProc fun proc hproc => ?_
  cases hfd : proc.ofile fd with
  | none => exact ⟨h, by rw [ofile_eq hproc]; exact hfd, fun _ hnone => hnone⟩
  | some f =>
    refine (fileclose_spec h.ends (h.pos hproc hfd)).bind fun _ s₁ h₁ => ?_
    have hproc₁ : s₁.proc p = some proc := by rw [h₁.proc, hproc]
    refine ensures_setFd hproc₁ ⟨⟨h₁.ends, ?_⟩, ?_, fun fd' hnone => ?_⟩
    · rw [slots_drop hproc₁ hfd, slots_congr h₁.proc, ← h.count]
      exact h₁.refs
    · rw [ofile_eq (update_self ..)]
      exact update_self ..
    · rw [ofile_eq hproc] at hnone
      rw [ofile_eq (update_self ..)]
      simp only [update_apply]
      split_ifs
      · rfl
      · exact hnone

theorem exit_loop (h : Refs s) (l : List (Fin NOFILE)) :
    Ensures NotFile (l.forM fun fd => do
      let proc ← readProc p
      match proc.ofile fd with
      | some f =>
        fileclose f
        updateProc p fun proc => { proc with ofile := update proc.ofile fd none }
      | none => return) s fun _ s' =>
        Refs s' ∧ (∀ fd ∈ l, s'.ofile p fd = none) ∧ ∀ fd, s.ofile p fd = none → s'.ofile p fd = none := by
  induction l generalizing s with
  | nil => exact ⟨h, by simp, fun _ hnone => hnone⟩
  | cons fd l ih =>
    rw [ensures_forM_cons]
    refine (exit_body h fd).imp fun _ s₁ h₁ => (ih h₁.1).imp fun _ s' h' => ⟨h'.1, fun fd' hmem => ?_, ?_⟩
    · rcases List.mem_cons.1 hmem with rfl | hmem
      · exact h'.2.2 fd' h₁.2.1
      · exact h'.2.1 fd' hmem
    · exact fun fd' hnone => h'.2.2 fd' (h₁.2.2 fd' hnone)

theorem exit_refs (h : Refs s) : Ensures NotFile (fs.exit p) s fun _ s' => Refs s' := by
  unfold fs.exit
  split
  · exact ensures_throw.2 (by decide)
  · refine (exit_loop h (List.finRange NOFILE)).bind fun _ s₁ h₁ => ?_
    rw [ensures_bind]
    refine ensures_readProc fun proc hproc => (begin_op_quiet.ensures s₁).bind fun _ s₂ h₂ =>
      ((iput_quiet proc.cwd).ensures s₂).bind fun _ s₃ h₃ => (end_op_quiet.ensures s₃).bind fun _ s₄ h₄ => ?_
    have hrefs := ((h₁.1.quiet h₂).quiet h₃).quiet h₄
    refine ⟨hrefs.ends, hrefs.count.trans (slots_of_ofile ?_).symm⟩
    funext q fd
    by_cases hq : q = p
    · subst hq
      have hnone := h₁.2.1 fd (List.mem_finRange fd)
      simp only [Fs.ofile, update_self, Option.bind_none] at hnone ⊢
      rw [h₄.proc, h₃.proc, h₂.proc, hnone]
    · simp [Fs.ofile, hq]

theorem Refs.step (h : Refs s) (hstep : Step s s') : Refs s' := by
  cases hstep with
  | syscall p op r hrun => exact (ensures_of_ok hrun).1 (syscall_refs h op)
  | fork p np hnp hrun => exact (ensures_of_ok hrun).1 (fork_refs h np hnp)
  | exit p hrun => exact (ensures_of_ok hrun).1 (exit_refs h)
  | typed input => exact ⟨h.ends, h.count⟩
  | memory free held pipe hperm hpipe =>
    refine ⟨h.ends.memory hperm fun pg hpg w => ?_, h.count⟩
    cases w with
    | false => exact (hpipe pg hpg).1
    | true => exact (hpipe pg hpg).2

/-- The kernel has been started, on any disk. -/
def Started (s : Fs) : Prop := ∃ disk free, userinit.run (iinit disk free) = .ok () s ∧ free.Nodup

theorem Refs.of_started (h : Started s) : Refs s := by
  obtain ⟨disk, free, hrun, hnodup⟩ := h
  have hinit : Refs (iinit disk free) := by
    refine ⟨⟨by simpa [iinit] using hnodup, ?_, ?_, ?_, ?_, ?_, ?_, ?_⟩, ?_⟩
    · simp [iinit, Pages.live]
    · simp [iinit]
    · simp [iinit]
    · exact fun f pg w he => by simpa [iinit] using he.type
    · exact fun f f' pg w he => by simpa [iinit] using he.type
    · simp [iinit, Pages.live]
    · simp [iinit, Pages.live]
    · funext f
      exact holders_none.symm
  suffices hens : Ensures NotFile userinit (iinit disk free) fun _ s' => Refs s' from (ensures_of_ok hrun).1 hens
  refine ((namei_quiet 0 [slash]).ensures _).bind fun r s₁ h₁ => ?_
  have hrefs := hinit.quiet h₁
  have hproc (q : Fin NPROC) : s₁.proc q = none := by rw [h₁.proc]; rfl
  cases r with
  | none => exact hrefs
  | some ip =>
    refine ⟨hrefs.ends, hrefs.count.trans (slots_of_ofile ?_).symm⟩
    funext q fd
    by_cases hq : q = initproc
    · simp [Fs.ofile, hq, hproc]
    · simp [Fs.ofile, hq]

/-- Some descriptor refers to an end of the pipe at page `pg`. -/
def Fs.refers (s : Fs) (pg : Nat) : Prop :=
  ∃ p fd f, s.ofile p fd = some f ∧ (s.ftable f).type = .FD_PIPE ∧ (s.ftable f).pipe = pg

theorem Refs.live_iff (h : Refs s) (pg : Nat) : s.pages.live pg ↔ s.refers pg := by
  constructor
  · intro hl
    obtain ⟨w, ho⟩ := h.ends.held pg hl
    obtain ⟨f, hf⟩ := h.ends.file pg w hl ho
    have hpos : 0 < s.slots f := by
      refine Nat.pos_of_ne_zero fun hzero => ?_
      have hnone := h.ends.closed f ((congrFun h.count f).trans hzero)
      rw [hf.type] at hnone
      cases hnone
    obtain ⟨z, hz⟩ := exists_of_holders_pos hpos
    exact ⟨z.1, z.2, f, hz, hf.type, hf.pipe⟩
  · rintro ⟨p, fd, f, -, htype, hpipe⟩
    exact (h.ends.opened f pg _ ⟨htype, hpipe, rfl⟩).1

/-- In every run of system calls, forks and exits, whether they succeed or not,
an open file is counted once for each descriptor that points to it, `filedup`
and `fileclose` do not panic, and the page of a pipe is given to `kfree` once,
when no descriptor refers to either end any more. -/
theorem files_counted (h : Reachable Started Step s) :
    (∀ f, (s.ftable f).ref = s.slots f) ∧
      (∀ p op, Ensures NotFile (syscall p op) s fun _ _ => True) ∧
      (∀ p np, (∀ q ∈ np, s.proc q = none) → Ensures NotFile (fork p np) s fun _ _ => True) ∧
      (∀ p, Ensures NotFile (fs.exit p) s fun _ _ => True) ∧
      ∀ pg, (s.refers pg → s.pages.made pg = s.pages.freed pg + 1 ∧ pg ∉ s.pages.free ++ s.pages.held) ∧
        (¬ s.refers pg → s.pages.made pg = s.pages.freed pg) := by
  have hrefs : Refs s := h.inv (fun _ => Refs.of_started) fun _ _ hr hstep => hr.step hstep
  refine ⟨congrFun hrefs.count, fun p op => (syscall_refs hrefs op).imp fun _ _ _ => trivial,
    fun p np hnp => (fork_refs hrefs np hnp).imp fun _ _ _ => trivial,
    fun p => (exit_refs hrefs).imp fun _ _ _ => trivial, fun pg => ⟨fun hr => ?_, fun hr => ?_⟩⟩
  · have hl := (hrefs.live_iff pg).2 hr
    exact ⟨Nat.le_antisymm (hrefs.ends.once pg).2 hl, hrefs.ends.apart pg hl⟩
  · have hl : ¬ s.pages.live pg := fun hl => hr ((hrefs.live_iff pg).1 hl)
    exact Nat.le_antisymm (Nat.not_lt.1 hl) (hrefs.ends.once pg).1

/-- The first process makes a pipe at page 7, duplicates its read end and closes the write end. -/
theorem files_counted_pipe :
    ∃ s : Fs, s.refers 7 ∧ s.pages.made 7 = 1 ∧ s.pages.freed 7 = 0 ∧ s.slots 0 = 2 ∧ (s.ftable 0).ref = 2 := by
  obtain ⟨s, hreach, hofile, htype, hpipe, hmade, href⟩ : ∃ s, Reachable Started Step s ∧ s.ofile initproc 0 = some 0 ∧
      (s.ftable 0).type = .FD_PIPE ∧ (s.ftable 0).pipe = 7 ∧ s.pages.made 7 = 1 ∧ (s.ftable 0).ref = 2 := by
    have hcheck : (match (do
          userinit
          let _ ← syscall initproc .pipe
          let _ ← syscall initproc (.dup 0)
          syscall initproc (.close 1)).run (iinit (fun _ => 0) [7]) with
        | .ok _ s => decide (s.ofile initproc 0 = some 0 ∧ (s.ftable 0).type = .FD_PIPE ∧ (s.ftable 0).pipe = 7 ∧
            s.pages.made 7 = 1 ∧ (s.ftable 0).ref = 2)
        | .error _ _ => false) = true := by decide
    split at hcheck
    · rename_i r s hrun
      obtain ⟨_, s₀, hstart, hrun⟩ := bind_eq_ok_iff.1 hrun
      obtain ⟨r₁, s₁, h₁, hrun⟩ := bind_eq_ok_iff.1 hrun
      obtain ⟨r₂, s₂, h₂, h₃⟩ := bind_eq_ok_iff.1 hrun
      have hreach₀ : Reachable Started Step s₀ := .start ⟨_, _, hstart, by decide⟩
      have hreach₁ := hreach₀.next (.syscall initproc .pipe r₁ h₁)
      have hreach₂ := hreach₁.next (.syscall initproc (.dup 0) r₂ h₂)
      exact ⟨s, hreach₂.next (.syscall initproc (.close 1) r h₃), of_decide_eq_true hcheck⟩
    · cases hcheck
  obtain ⟨hcount, -, -, -, hpages⟩ := files_counted hreach
  have hrefers : s.refers 7 := ⟨initproc, 0, 0, hofile, htype, hpipe⟩
  have hfreed := ((hpages 7).1 hrefers).1
  exact ⟨s, hrefers, hmade, by omega, (hcount 0).symm.trans href, href⟩

end

end xv6.fs
