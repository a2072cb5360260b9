import Xv6.Fs.Inode

open Function

namespace xv6.fs

/-- Whether an end of a pipe is open. -/
def isOpen (p : Pipe) (writable : Bool) : Bool := if writable then p.writeopen else p.readopen

/-- A page is that of a pipe as long as it has been taken more often than given back. -/
def Pages.live (pages : Pages) (pg : Nat) : Prop := pages.freed pg < pages.made pg

/-- An open end of the pipe at page `pg`. -/
@[mk_iff]
structure EndOf (file : File) (pg : Nat) (writable : Bool) : Prop where
  type : file.type = .FD_PIPE
  pipe : file.pipe = pg
  writable : file.writable = writable

attribute [grind =] endOf_iff

/-- The pages of pipes are apart from all others, and the open ends of a pipe
are the files of type `FD_PIPE` for it, one for each end. -/
structure PipeEnds (ftable : Fin NFILE → File) (pages : Pages) : Prop where
  nodup : (pages.free ++ pages.held).Nodup
  apart : ∀ pg, pages.live pg → pg ∉ pages.free ++ pages.held
  once : ∀ pg, pages.freed pg ≤ pages.made pg ∧ pages.made pg ≤ pages.freed pg + 1
  closed : ∀ f, (ftable f).ref = 0 → (ftable f).type = .FD_NONE
  opened : ∀ f pg w, EndOf (ftable f) pg w → pages.live pg ∧ isOpen (pages.pipe pg) w = true
  unique : ∀ f f' pg w, EndOf (ftable f) pg w → EndOf (ftable f') pg w → f = f'
  file : ∀ pg w, pages.live pg → isOpen (pages.pipe pg) w = true → ∃ f, EndOf (ftable f) pg w
  held : ∀ pg, pages.live pg → ∃ w, isOpen (pages.pipe pg) w = true

section
variable {ftable : Fin NFILE → File} {pages : Pages} {f : Fin NFILE} {file : File} {pg : Nat} {w : Bool}

theorem PipeEnds.keep (h : PipeEnds ftable pages) (hold : (ftable f).type ≠ .FD_PIPE) (hnew : file.type ≠ .FD_PIPE)
    (hclosed : file.ref = 0 → file.type = .FD_NONE) : PipeEnds (update ftable f file) pages := by
  obtain ⟨hnodup, hapart, honce, hshut, hopened, hunique, hfile, hheld⟩ := h
  refine ⟨hnodup, hapart, honce, ?_, ?_, ?_, fun pg w hl ho => (hfile pg w hl ho).imp fun g hg => ?_, hheld⟩
  all_goals grind [update_apply]

theorem PipeEnds.same (h : PipeEnds ftable pages) (htype : file.type = (ftable f).type)
    (hpipe : file.pipe = (ftable f).pipe) (hwritable : file.writable = (ftable f).writable)
    (hclosed : file.ref = 0 → file.type = .FD_NONE) : PipeEnds (update ftable f file) pages := by
  obtain ⟨hnodup, hapart, honce, hshut, hopened, hunique, hfile, hheld⟩ := h
  refine ⟨hnodup, hapart, honce, ?_, ?_, ?_, fun pg w hl ho => (hfile pg w hl ho).imp fun g hg => ?_, hheld⟩
  all_goals grind [update_apply]

theorem PipeEnds.count (h : PipeEnds ftable pages) {n : Nat} (hn : 0 < n) :
    PipeEnds (update ftable f { ftable f with ref := n }) pages :=
  h.same rfl rfl rfl fun hzero => absurd hzero (Nat.ne_of_gt hn)

theorem isOpen_close (p : Pipe) (w w' : Bool) : isOpen (p.close w) w' = (isOpen p w' && w' != w) := by
  cases w <;> cases w' <;> simp [isOpen, Pipe.close]

theorem closed_iff (p : Pipe) : p.readopen = false ∧ p.writeopen = false ↔ ∀ w, isOpen p w = false := by
  constructor
  · rintro ⟨hr, hw⟩ (_ | _)
    · exact hr
    · exact hw
  · exact fun h => ⟨h false, h true⟩

/-- `pipeclose` of one end while the other is open. -/
theorem PipeEnds.shut (h : PipeEnds ftable pages) (he : EndOf (ftable f) pg w) (htype : file.type = .FD_NONE)
    (hother : isOpen (pages.pipe pg) (!w) = true) :
    PipeEnds (update ftable f file) { pages with pipe := update pages.pipe pg ((pages.pipe pg).close w) } := by
  obtain ⟨hnodup, hapart, honce, hshut, hopened, hunique, hfile, hheld⟩ := h
  refine ⟨hnodup, hapart, honce, ?_, ?_, ?_, fun pg' w' hl ho => ?_, fun pg' hl => ?_⟩
  · grind [update_apply]
  · grind [update_apply, isOpen_close, Pages.live]
  · grind [update_apply]
  · obtain ⟨g, hg⟩ := hfile pg' w' hl (by grind [update_apply, isOpen_close])
    exact ⟨g, by grind [update_apply, isOpen_close]⟩
  · by_cases hpg : pg' = pg
    · exact ⟨!w, by grind [isOpen_close]⟩
    · exact (hheld pg' hl).imp (by grind [update_apply])

/-- The bytes of the pipes may change, and the pages that are not those of pipes may change hands. -/
theorem PipeEnds.memory (h : PipeEnds ftable pages) {free held : List Nat} {pipe : Nat → Pipe}
    (hperm : (free ++ held).Perm (pages.free ++ pages.held))
    (hpipe : ∀ pg, pg ∉ pages.free ++ pages.held → ∀ w, isOpen (pipe pg) w = isOpen (pages.pipe pg) w) :
    PipeEnds ftable { pages with free, held, pipe } := by
  obtain ⟨hnodup, hapart, honce, hshut, hopened, hunique, hfile, hheld⟩ := h
  refine ⟨hperm.nodup_iff.2 hnodup, fun pg hl hmem => hapart pg hl (hperm.mem_iff.1 hmem), honce, hshut, ?_, hunique,
    ?_, fun pg hl => (hheld pg hl).imp ?_⟩ <;> grind [Pages.live]

/-- The pages after `kfree` of the page of a pipe. -/
def Pages.kfree (pages : Pages) (pg : Nat) : Pages where
  free := pg :: pages.free
  held := pages.held
  pipe := update pages.pipe pg junk
  made := pages.made
  freed := update pages.freed pg (pages.freed pg + 1)

theorem PipeEnds.live_kfree (h : PipeEnds ftable pages) (pg' : Nat) :
    (pages.kfree pg).live pg' ↔ pages.live pg' ∧ pg' ≠ pg := by
  unfold Pages.live Pages.kfree
  by_cases hpg : pg' = pg
  · subst hpg
    have honce := h.once pg'
    simp only [update_self, ne_eq, not_true, and_false, iff_false]
    omega
  · simp [hpg]

/-- `pipeclose` of the last open end gives the page back. -/
theorem PipeEnds.release (h : PipeEnds ftable pages) (he : EndOf (ftable f) pg w) (htype : file.type = .FD_NONE)
    (hother : isOpen (pages.pipe pg) (!w) = false) : PipeEnds (update ftable f file) (pages.kfree pg) := by
  have hlive (pg' : Nat) : (pages.kfree pg).live pg' ↔ pages.live pg' ∧ pg' ≠ pg := h.live_kfree pg'
  have hpipe (pg' : Nat) (hpg : pg' ≠ pg) : (pages.kfree pg).pipe pg' = pages.pipe pg' := update_of_ne hpg _ _
  have hfreed (pg' : Nat) : (pages.kfree pg).freed pg' = if pg' = pg then pages.freed pg + 1 else pages.freed pg' :=
    update_apply ..
  obtain ⟨hnodup, hapart, honce, hshut, hopened, hunique, hfile, hheld⟩ := h
  have hpg := (hopened f pg w he).1
  refine ⟨List.nodup_cons.2 ⟨hapart pg hpg, hnodup⟩, ?_, ?_, ?_, ?_, ?_, fun pg' w' hl ho => ?_,
    fun pg' hl => (hheld pg' ((hlive pg').1 hl).1).imp ?_⟩
  · grind [Pages.kfree]
  · grind [Pages.kfree, Pages.live]
  · grind [update_apply]
  · grind [update_apply]
  · grind [update_apply]
  · obtain ⟨g, hg⟩ := hfile pg' w' ((hlive pg').1 hl).1 (by grind)
    exact ⟨g, by grind [update_apply]⟩
  · grind

/-- The pages after `kalloc` of a page for a pipe that is set to `p`. -/
def Pages.make (pages : Pages) (pg : Nat) (free : List Nat) (p : Pipe) : Pages where
  free := free
  held := pages.held
  pipe := update pages.pipe pg p
  made := update pages.made pg (pages.made pg + 1)
  freed := pages.freed

theorem PipeEnds.make {f0 f1 : Fin NFILE} {file0 file1 : File} {free : List Nat} {p : Pipe} (h : PipeEnds ftable pages)
    (hfree : pages.free = pg :: free) (hne : f0 ≠ f1) (h0 : (ftable f0).type ≠ .FD_PIPE)
    (h1 : (ftable f1).type ≠ .FD_PIPE) (he0 : EndOf file0 pg false) (he1 : EndOf file1 pg true)
    (hr0 : file0.ref ≠ 0) (hr1 : file1.ref ≠ 0) (hp : ∀ w, isOpen p w = true) :
    PipeEnds (update (update ftable f0 file0) f1 file1) (pages.make pg free p) := by
  have hdead : ¬ pages.live pg := fun hl => h.apart pg hl (by simp [hfree])
  have hmade (pg' : Nat) : (pages.make pg free p).made pg' = if pg' = pg then pages.made pg + 1 else pages.made pg' :=
    update_apply ..
  have hfreed (pg' : Nat) : (pages.make pg free p).freed pg' = pages.freed pg' := rfl
  have hlive (pg' : Nat) : (pages.make pg free p).live pg' ↔ pages.live pg' ∨ pg' = pg := by
    have honce := h.once pg'
    grind [Pages.live]
  have hpipe (pg' : Nat) : (pages.make pg free p).pipe pg' = if pg' = pg then p else pages.pipe pg' := update_apply ..
  have hnodup : (pg :: free ++ pages.held).Nodup := hfree ▸ h.nodup
  obtain ⟨-, hapart, honce, hshut, hopened, hunique, hfile, hheld⟩ := h
  refine ⟨(List.nodup_cons.1 hnodup).2, ?_, ?_, ?_, ?_, ?_, fun pg' w' hl ho => ?_, fun pg' hl => ?_⟩
  · grind [Pages.make]
  · grind [Pages.live]
  · grind [update_apply]
  · grind [update_apply]
  · grind [update_apply]
  · by_cases hpg : pg' = pg
    · exact ⟨if w' then f1 else f0, by grind [update_apply]⟩
    · obtain ⟨g, hg⟩ := hfile pg' w' (by grind) (by grind)
      exact ⟨g, by grind [update_apply]⟩
  · by_cases hpg : pg' = pg
    · exact ⟨true, by grind⟩
    · exact (hheld pg' (by grind)).imp (by grind)

end

end xv6.fs
