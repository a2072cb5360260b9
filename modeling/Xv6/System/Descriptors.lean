import Xv6.Syscall
import Xv6.System.Files

open bytes outcome refcount Function

namespace xv6

/-- The file that each descriptor of each process holds. -/
def descriptors (s : Machine) (x : Fin NPROC × Fin NOFILE) : Option (Fin NFILE) := (s.proc x.1).ofile x.2

/-- The reference counts of the file table are right, with the references `e` under way,
and no process that has ended has an open file. -/
structure Counted (s : Machine) (e : Fin NFILE → Nat) : Prop where
  exact : Exact (fun f => (s.file f).ref) (descriptors s) e
  shut : ∀ p, (s.proc p).state = .UNUSED ∨ (s.proc p).state = .ZOMBIE → ∀ fd, (s.proc p).ofile fd = none

/-- A step of the file table: it leaves the reference counts right with `e` under way and
does not touch the processes. -/
structure Tended (e : Fin NFILE → Nat) (s : Machine) (g : Ghost) (s' : Machine) (g' : Ghost) : Prop extends
    Calm s g s' g' where
  proc : s'.proc = s.proc
  counted : Counted s' e

section counted

variable {s s' : Machine} {g : Ghost} {e e' : Fin NFILE → Nat} {p : Fin NPROC} {f : Fin NFILE} {fd : Fin NOFILE}

theorem Tended.trans {s'' : Machine} {g' g'' : Ghost} (h : Tended e s g s' g') (h' : Tended e' s' g' s'' g'') :
    Tended e' s g s'' g'' := ⟨h.toCalm.trans h'.toCalm, h'.proc.trans h.proc, h'.counted⟩

theorem Counted.tended (h : Counted s e) (hs : Sound s g) : Tended e s g s g := ⟨.refl hs, rfl, h⟩

/-- Only the reference counts have changed. -/
theorem Counted.recount (h : Counted s e) (hproc : s'.proc = s.proc)
    (hexact : Exact (fun f => (s.file f).ref) (descriptors s) e → Exact (fun f => (s'.file f).ref) (descriptors s) e') :
    Counted s' e' := by
  refine ⟨?_, ?_⟩
  · have hdesc : descriptors s' = descriptors s := by
      funext x
      rw [descriptors, hproc, descriptors]
    rw [hdesc]
    exact hexact h.exact
  · rw [hproc]
    exact h.shut

/-- Neither the files nor the descriptors have changed, and no process has ended. -/
theorem Counted.congr (h : Counted s e) (hfile : s'.file = s.file) (hofile : ∀ q, (s'.proc q).ofile = (s.proc q).ofile)
    (hstate : ∀ q, (s'.proc q).state = .UNUSED ∨ (s'.proc q).state = .ZOMBIE →
      (s.proc q).state = .UNUSED ∨ (s.proc q).state = .ZOMBIE) : Counted s' e := by
  refine ⟨?_, fun q hq => ?_⟩
  · have hdesc : descriptors s' = descriptors s := by
      funext x
      rw [descriptors, hofile, descriptors]
    rw [hdesc, hfile]
    exact h.exact
  · rw [hofile q]
    exact h.shut q (hstate q hq)

/-- The machine after descriptor `fd` of process `p` has been set. -/
def Machine.setFile (s : Machine) (p : Fin NPROC) (fd : Fin NOFILE) (f : Option (Fin NFILE)) : Machine :=
  { s with proc := update s.proc p { s.proc p with ofile := update (s.proc p).ofile fd f } }

theorem updateProc_setFile (s : Machine) (p : Fin NPROC) (fd : Fin NOFILE) (f : Option (Fin NFILE)) :
    (updateProc p fun proc => { proc with ofile := update proc.ofile fd f }).run s = .ok () (s.setFile p fd f) := rfl

theorem descriptors_setFile (s : Machine) (p : Fin NPROC) (fd : Fin NOFILE) (f : Option (Fin NFILE)) :
    descriptors (s.setFile p fd f) = update (descriptors s) (p, fd) f := by
  funext ⟨q, j⟩
  by_cases hq : q = p
  · subst hq
    by_cases hj : j = fd
    · subst hj
      simp [descriptors, Machine.setFile]
    · have hne : (q, j) ≠ (q, fd) := fun heq => hj (Prod.mk.inj heq).2
      simp [descriptors, Machine.setFile, hj, hne]
  · have hne : (q, j) ≠ (p, fd) := fun heq => hq (Prod.mk.inj heq).1
    simp [descriptors, Machine.setFile, hq, hne]

theorem setFile_proc (s : Machine) (p : Fin NPROC) (fd : Fin NOFILE) (f : Option (Fin NFILE)) (q : Fin NPROC) :
    SameSlot (s.proc q) ((s.setFile p fd f).proc q) := by
  by_cases hq : q = p
  · subst hq
    simp only [Machine.setFile, update_self]
    exact ⟨rfl, rfl, rfl, rfl, rfl⟩
  · simp only [Machine.setFile, update_of_ne hq]
    exact .refl _

theorem Sound.setFile (h : Sound s g) (p : Fin NPROC) (fd : Fin NOFILE) (f : Option (Fin NFILE)) :
    Calm s g (s.setFile p fd f) g := h.reslot rfl (setFile_proc s p fd f)

/-- A descriptor takes over a reference. -/
theorem Counted.take (h : Counted s (e + Pi.single f 1)) (hopen : (s.proc p).state ≠ .UNUSED ∧ (s.proc p).state ≠ .ZOMBIE)
    (hfd : (s.proc p).ofile fd = none) : Counted (s.setFile p fd (some f)) e where
  exact := by
    rw [descriptors_setFile]
    exact h.exact.take hfd
  shut q hq j := by
    by_cases hqp : q = p
    · subst hqp
      rw [(setFile_proc s q fd (some f) q).state] at hq
      exact absurd hq (not_or.2 hopen)
    · have := h.shut q
      simp only [Machine.setFile, update_of_ne hqp] at hq ⊢
      exact this hq j

/-- A descriptor is cleared, and its reference is under way. -/
theorem Counted.drop (h : Counted s e) (hfd : (s.proc p).ofile fd = some f) :
    Counted (s.setFile p fd none) (e + Pi.single f 1) where
  exact := by
    rw [descriptors_setFile]
    exact h.exact.drop hfd
  shut q hq j := by
    rw [(setFile_proc s p fd none q).state] at hq
    have hnone := h.shut q hq j
    by_cases hqp : q = p
    · subst hqp
      simp only [Machine.setFile, update_self]
      by_cases hj : j = fd
      · rw [hj, update_self]
      · rw [update_of_ne hj, hnone]
    · simpa only [Machine.setFile, update_of_ne hqp] using hnone

end counted

section files

variable {s s' : Machine} {g : Ghost} {e : Fin NFILE → Nat} {p : Fin NPROC} {f : Fin NFILE} {fd : Fin NOFILE}

theorem filealloc_run (s : Machine) :
    filealloc.run s = .ok none s ∨
    ∃ f, (s.file f).ref = 0 ∧ filealloc.run s = .ok (some f) { s with file := update s.file f { s.file f with ref := 1 } } := by
  unfold filealloc
  rw [get_bind]
  cases hfind : findSlot fun f => (s.file f).ref == 0 with
  | none => exact .inl rfl
  | some f =>
    have hz := findSlot_some hfind
    exact .inr ⟨f, by simpa using hz, rfl⟩

theorem refs_update (file : Fin NFILE → File) (f : Fin NFILE) (v : File) :
    (fun f' => (update file f v f').ref) = update (fun f' => (file f').ref) f v.ref := by
  funext f'
  by_cases hf : f' = f
  · rw [hf, update_self, update_self]
  · rw [update_of_ne hf, update_of_ne hf]

/-- `filealloc` hands out a reference to a free entry. -/
theorem filealloc_spec (h : Sound s g) (hc : Counted s e) :
    filealloc.run s = .ok none s ∨ ∃ f s', filealloc.run s = .ok (some f) s' ∧ (s.file f).ref = 0 ∧
      s' = { s with file := update s.file f { s.file f with ref := 1 } } ∧ Tended (e + Pi.single f 1) s g s' g := by
  rcases filealloc_run s with hnone | ⟨f, hz, hsome⟩
  · exact .inl hnone
  refine .inr ⟨f, _, hsome, hz, rfl, h.refile rfl ?_, rfl, hc.recount rfl fun hexact => ?_⟩
  · exact h.files.set rfl rfl rfl fun _ => h.files.closed f hz
  · have hdup := hexact.dup f
    simp only [hz] at hdup
    simp only [refs_update]
    exact hdup

/-- The machine with one more reference to file `f`. -/
def Machine.dup (s : Machine) (f : Fin NFILE) : Machine :=
  { s with file := update s.file f { s.file f with ref := (s.file f).ref + 1 } }

theorem filedup_run (hpos : 0 < (s.file f).ref) : (filedup f).run s = .ok f (s.dup f) := by
  unfold filedup
  rw [get_bind, if_neg (by omega), updateFile_bind, EStateM.run_pure]
  rfl

theorem Counted.dup (hc : Counted s e) (f : Fin NFILE) : Counted (s.dup f) (e + Pi.single f 1) := by
  refine hc.recount rfl fun hexact => ?_
  simp only [Machine.dup, refs_update]
  exact hexact.dup f

theorem dup_file (hpos : 0 < (s.file f).ref) (f' : Fin NFILE) : pipeEnd ((s.dup f).file f') = pipeEnd (s.file f') ∧
    (((s.dup f).file f').ref = 0 → (s.file f').ref = 0) := by
  by_cases hf : f' = f
  · subst hf
    simp only [Machine.dup, update_self]
    exact ⟨rfl, fun hz => by omega⟩
  · simp only [Machine.dup, update_of_ne hf]
    exact ⟨trivial, id⟩

theorem Sound.dup (h : Sound s g) (f : Fin NFILE) : Calm s g (s.dup f) g :=
  h.refile rfl (h.files.set rfl rfl rfl fun hz => absurd hz (Nat.succ_ne_zero _))

theorem fileclose_calm (h : Sound s g) (hpos : 0 < (s.file f).ref) :
    ∃ s' g', (fileclose f).run s = .ok () s' ∧ Calm s g s' g' ∧ s'.proc = s.proc ∧
      (fun f' => (s'.file f').ref) = update (fun f' => (s.file f').ref) f ((s.file f).ref - 1) := by
  unfold fileclose
  rw [get_bind, if_neg (by omega)]
  by_cases hlast : (s.file f).ref - 1 > 0
  · rw [if_pos hlast]
    exact ⟨_, g, rfl, h.refile rfl (h.files.set rfl rfl rfl fun hz => absurd hz hlast.ne'), rfl, refs_update _ _ _⟩
  rw [if_neg hlast, updateFile_bind, show (s.file f).ref - 1 = 0 by omega]
  by_cases hpipe : (s.file f).type = .FD_PIPE
  · rw [if_pos hpipe]
    obtain ⟨s', hrun, hproc, hfile, g', hcalm⟩ := h.pipeclose { s.file f with ref := 0, type := .FD_NONE } hpipe rfl
    refine ⟨s', g', hrun, hcalm, hproc, ?_⟩
    rw [hfile]
    exact refs_update _ _ _
  · rw [if_neg hpipe]
    exact ⟨_, g, rfl, h.refile rfl (h.files.set rfl rfl (if_neg hpipe).symm fun _ => hpipe), rfl, refs_update _ _ _⟩

/-- `fileclose` gives a reference up. -/
theorem fileclose_spec (h : Sound s g) (hc : Counted s (e + Pi.single f 1)) :
    ∃ s' g', (fileclose f).run s = .ok () s' ∧ Tended e s g s' g' := by
  obtain ⟨s', g', hrun, hcalm, hproc, hrefs⟩ := fileclose_calm h hc.exact.pos_of_flight
  exact ⟨s', g', hrun, hcalm, hproc, hc.recount hproc fun hexact => hrefs ▸ hexact.release⟩

/-- The reference that the error path of `pipealloc` has to give up for one of its files. -/
def flight (f : Option (Fin NFILE)) : Fin NFILE → Nat := f.elim 0 fun f => Pi.single f 1

theorem bad_close (h : Sound s g) (f₀ : Option (Fin NFILE)) (hc : Counted s (e + flight f₀)) :
    ∃ s' g', (f₀.elim (pure ()) fileclose).run s = .ok () s' ∧ Tended e s g s' g' := by
  cases f₀ with
  | none => exact ⟨s, g, rfl, Counted.tended (by simpa [flight] using hc) h⟩
  | some f => exact fileclose_spec h hc

theorem pipealloc_bad_eq (f₀ f₁ : Option (Fin NFILE)) : pipealloc.bad 0 f₀ f₁ = (do
    f₀.elim (pure ()) fileclose
    f₁.elim (pure ()) fileclose
    return none) := by
  cases f₀ <;> cases f₁ <;> rfl

/-- The error path of `pipealloc` closes what it has opened. -/
theorem pipealloc_bad (h : Sound s g) (f₀ f₁ : Option (Fin NFILE)) (hc : Counted s (e + flight f₁ + flight f₀)) :
    ∃ s' g', (pipealloc.bad 0 f₀ f₁).run s = .ok none s' ∧ Tended e s g s' g' := by
  obtain ⟨s₁, g₁, hrun₁, ht₁⟩ := bad_close h f₀ hc
  obtain ⟨s₂, g₂, hrun₂, ht₂⟩ := bad_close ht₁.sound f₁ ht₁.counted
  refine ⟨s₂, g₂, ?_, ht₁.trans ht₂⟩
  rw [pipealloc_bad_eq, bind_ok hrun₁, bind_ok hrun₂, EStateM.run_pure]

/-- `pipealloc` hands out references to the two ends of a new pipe, or it leaves the counts as they were. -/
theorem pipealloc_spec (h : Sound s g) (hc : Counted s e) :
    (∃ s' g', pipealloc.run s = .ok none s' ∧ Tended e s g s' g') ∨
    ∃ f₀ f₁ s' g', pipealloc.run s = .ok (some (f₀, f₁)) s' ∧ Tended (e + Pi.single f₁ 1 + Pi.single f₀ 1) s g s' g' := by
  unfold pipealloc
  rcases filealloc_spec h hc with hnone | ⟨f₀, s₁, hsome₀, hz₀, hs₁, ht₁⟩
  · rw [bind_ok hnone]
    exact .inl (pipealloc_bad h none none (by simpa [flight] using hc))
  have hne₀ : pipeEnd (s.file f₀) = none := if_neg (h.files.closed f₀ hz₀)
  have hf₀ : s₁.file f₀ = { s.file f₀ with ref := 1 } := by
    rw [hs₁]
    exact update_self _ _ _
  rw [bind_ok hsome₀]
  simp only []
  rcases filealloc_spec ht₁.sound ht₁.counted with hnone | ⟨f₁, s₂, hsome₁, hz₁, hs₂, ht₂⟩
  · rw [bind_ok hnone]
    obtain ⟨s', g', hrun, ht⟩ := pipealloc_bad ht₁.sound (some f₀) none (e := e) (by simpa [flight] using ht₁.counted)
    exact .inl ⟨s', g', hrun, ht₁.trans ht⟩
  have hne₁ : pipeEnd (s₁.file f₁) = none := if_neg (ht₁.sound.files.closed f₁ hz₁)
  have hne : f₀ ≠ f₁ := by
    rintro rfl
    rw [hf₀] at hz₁
    cases hz₁
  have hf₁ : s₂.file f₁ = { s₁.file f₁ with ref := 1 } := by
    rw [hs₂]
    exact update_self _ _ _
  have hf₀' : s₂.file f₀ = { s.file f₀ with ref := 1 } := by
    rw [hs₂, ← hf₀]
    exact update_of_ne hne _ _
  have ht := ht₁.trans ht₂
  rw [add_right_comm] at ht
  rw [bind_ok hsome₁]
  simp only []
  cases hfree : g.free with
  | nil =>
    rw [bind_ok (kalloc_nil ht.sound.sys hfree), if_pos rfl]
    obtain ⟨s', g', hrun, ht'⟩ := pipealloc_bad ht.sound (some f₀) (some f₁) (e := e) ht.counted
    exact .inl ⟨s', g', hrun, ht.trans ht'⟩
  | cons x L =>
    obtain ⟨hx, -⟩ := (h.sys.mem_free x).1 (by simp [hfree])
    have hxlt := hx.lt
    have hoff (off : Nat) (hoff : off ≤ 4096) : V2P (P2V x + off) = x + off := V2P_P2V_add (by omega)
    obtain ⟨g', hcalm⟩ := pipealloc_make ht.sound hne (by rwa [hf₀']) (by rwa [hf₁]) (by simp [hf₀']) (by simp [hf₁]) hfree
    refine .inr ⟨f₀, f₁, s₂.piped f₀ f₁ x, g', ?_, ht.trans ⟨hcalm, rfl, ht.counted.recount rfl fun hexact => ?_⟩⟩
    · rw [bind_ok (kalloc_cons ht.sound.sys hfree), if_neg hx.ne_zero, writeWord_bind, writeWord_bind,
        writeWord_bind, writeWord_bind, updateFile_bind, updateFile_bind, EStateM.run_pure]
      simp only [update_of_ne hne.symm, pipePage, Machine.piped, hoff pipe.readopen (by decide),
        hoff pipe.writeopen (by decide), hoff pipe.nwrite (by decide), hoff pipe.nread (by decide)]
    · simp only [Machine.piped, refs_update, update_eq_self]
      exact hexact

/-- `fdalloc` fills a free descriptor, if there is one. -/
theorem fdalloc_run (s : Machine) (p : Fin NPROC) (f : Fin NFILE) :
    (fdalloc p f).run s = .ok none s ∨ ∃ fd, (s.proc p).ofile fd = none ∧
      (fdalloc p f).run s = .ok (some fd) (s.setFile p fd (some f)) := by
  unfold fdalloc
  rw [get_bind]
  cases hfind : findSlot fun fd => ((s.proc p).ofile fd).isNone with
  | none => exact .inl rfl
  | some fd => exact .inr ⟨fd, by simpa using findSlot_some hfind, rfl⟩

/-- `sys_close` gives the reference of the descriptor up. -/
theorem sys_close_spec (h : Sound s g) (hc : Counted s e) (fd : Int) :
    ∃ r s' g', (sys_close p fd).run s = .ok r s' ∧ Calm s g s' g' ∧ Counted s' e := by
  unfold sys_close
  rw [get_bind]
  by_cases hfd : 0 ≤ fd ∧ fd.toNat < NOFILE
  swap
  · rw [dif_neg hfd]
    exact ⟨-1, s, g, rfl, .refl h, hc⟩
  rw [dif_pos hfd]
  generalize (⟨fd.toNat, hfd.2⟩ : Fin NOFILE) = i
  cases hf : (s.proc p).ofile i with
  | none => exact ⟨-1, s, g, rfl, .refl h, hc⟩
  | some f =>
    have hcalm := h.setFile p i none
    obtain ⟨s', g', hrun, ht⟩ := fileclose_spec hcalm.sound (hc.drop hf)
    refine ⟨0, s', g', ?_, hcalm.trans ht.toCalm, ht.counted⟩
    simp only []
    rw [bind_ok (updateProc_setFile s p i none), bind_ok hrun, EStateM.run_pure]

/-- One round of the loop of `exit`. The reference is given up before the descriptor is cleared. -/
theorem exit_close_round (h : Sound s g) (hc : Counted s e) (hfd : (s.proc p).ofile fd = some f) :
    ∃ s₁ g₁, (fileclose f).run s = .ok () s₁ ∧ s₁.proc = s.proc ∧ Calm s g (s₁.setFile p fd none) g₁ ∧
      Counted (s₁.setFile p fd none) e := by
  obtain ⟨s₁, g₁, hrun, hcalm, hproc, hrefs⟩ := fileclose_calm h (hc.exact.pos_of_held (i := (p, fd)) hfd)
  have hdrop := hc.drop hfd
  refine ⟨s₁, g₁, hrun, hproc, hcalm.trans (hcalm.sound.setFile p fd none), ?_, ?_⟩
  · have hdesc : descriptors (s₁.setFile p fd none) = descriptors (s.setFile p fd none) := by
      funext x
      simp only [descriptors, Machine.setFile, hproc]
    rw [hdesc]
    have hrelease := hdrop.exact.release
    exact hrefs ▸ hrelease
  · have hshut := hdrop.shut
    simp only [Machine.setFile, hproc] at hshut ⊢
    exact hshut

/-- The loop of `exit` gives up every reference of the process. -/
theorem exit_close (fds : List (Fin NOFILE)) (s : Machine) (g : Ghost) (h : Sound s g) (hc : Counted s e) :
    ∃ s' g', (exit.close p fds).run s = .ok () s' ∧ Calm s g s' g' ∧ Counted s' e ∧
      ∀ fd, fd ∈ fds ∨ (s.proc p).ofile fd = none → (s'.proc p).ofile fd = none := by
  induction fds generalizing s g with
  | nil => exact ⟨s, g, rfl, .refl h, hc, by simp⟩
  | cons fd fds ih =>
    unfold exit.close
    rw [get_bind]
    cases hfd : (s.proc p).ofile fd with
    | none =>
      obtain ⟨s', g', hrun, hcalm, hcount, hnone⟩ := ih s g h hc
      refine ⟨s', g', hrun, hcalm, hcount, fun fd' hfd' => hnone fd' ?_⟩
      rw [List.mem_cons, or_assoc] at hfd'
      rcases hfd' with rfl | hfd'
      · exact .inr hfd
      · exact hfd'
    | some f =>
      obtain ⟨s₁, g₁, hclose, hproc, hcalm₁, hcount₁⟩ := exit_close_round h hc hfd
      obtain ⟨s', g', hrun, hcalm, hcount, hnone⟩ := ih _ _ hcalm₁.sound hcount₁
      refine ⟨s', g', ?_, hcalm₁.trans hcalm, hcount, fun fd' hfd' => hnone fd' ?_⟩
      · simp only []
        rw [bind_ok hclose, bind_ok (updateProc_setFile s₁ p fd none), hrun]
      · simp only [Machine.setFile, update_self, hproc]
        rw [List.mem_cons, or_assoc] at hfd'
        rcases hfd' with rfl | hfd' | hfd'
        · exact .inr (update_self _ _ _)
        · exact .inl hfd'
        · refine .inr ?_
          by_cases heq : fd' = fd
          · rw [heq, update_self]
          · rw [update_of_ne heq, hfd']

end files

end xv6
