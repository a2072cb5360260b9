import Xv6.Lib.Run
import Xv6.System.Calls

open bytes outcome refcount run Function

namespace xv6

/-- The machine when process `p` has entered the kernel with the registers `tf`. -/
def Machine.entered (s : Machine) (p : Fin NPROC) (tf : TrapFrame) : Machine :=
  { s with cr3 := V2P (s.proc p).pgdir, proc := update s.proc p { s.proc p with tf } }

theorem entered_mem (s : Machine) (p : Fin NPROC) (tf : TrapFrame) : (s.entered p tf).mem = s.mem := by
  rw [Machine.entered]

theorem entered_file (s : Machine) (p : Fin NPROC) (tf : TrapFrame) : (s.entered p tf).file = s.file := by
  rw [Machine.entered]

theorem entered_nextpid (s : Machine) (p : Fin NPROC) (tf : TrapFrame) : (s.entered p tf).nextpid = s.nextpid := by
  rw [Machine.entered]

theorem entered_proc (s : Machine) (p : Fin NPROC) (tf : TrapFrame) : (s.entered p tf).proc p = { s.proc p with tf } :=
  update_self _ _ _

theorem entered_other {p q : Fin NPROC} (s : Machine) (tf : TrapFrame) (hq : q ≠ p) : (s.entered p tf).proc q = s.proc q :=
  update_of_ne hq _ _

theorem entered_slot (s : Machine) (p q : Fin NPROC) (tf : TrapFrame) : SameSlot (s.proc q) ((s.entered p tf).proc q) := by
  by_cases hq : q = p
  · rw [hq, entered_proc]
    exact ⟨rfl, rfl, rfl, rfl, rfl⟩
  · rw [entered_other s tf hq]
    exact .refl _

/-- The machine when the result of a call is in the %eax of process `p`. -/
def Machine.answered (s : Machine) (p : Fin NPROC) (r : Int) : Machine :=
  { s with proc := update s.proc p { s.proc p with tf := { (s.proc p).tf with eax := addInt 0 r } } }

/-- The conditions under which an event is covered: addresses have 32 bits, the number in %eax is not that
of a call outside this machine, and the conditions of the call are met. -/
def Event.OK (p : Fin NPROC) (s : Machine) : Event → Prop
  | .store va _ => va < 2 ^ 32
  | .syscall tf => (Sysno.lookup tf.eax = none → tf.eax = 0 ∨ 26 < tf.eax) ∧
      ∀ c, Sysno.lookup tf.eax = some c → c.OK p (s.entered p tf)
  | .fault => True

def Event.Frugal (p : Fin NPROC) (s : Machine) : Event → Prop
  | .syscall tf => ∀ c, Sysno.lookup tf.eax = some c → c.Frugal p (s.entered p tf)
  | _ => True

/-- The scheduler picks process `p`, which runs to its next event. The files that there are may
differ from one step to the next. -/
def StepOf (K : Fin NPROC → Machine → Event → Prop) (p : Fin NPROC) (s s' : Machine) : Prop :=
  ∃ files e, (s.proc p).state = .RUNNABLE ∧ Event.OK p s e ∧ K p s e ∧ (e.run files p).run s = .ok () s'

def Step (K : Fin NPROC → Machine → Event → Prop) (s s' : Machine) : Prop := ∃ p, StepOf K p s s'

/-- Before the first event there is one process, with a page that it can write. -/
structure Alone (s : Machine) (g : Ghost) : Prop extends First s g where
  stable : Stable s g
  access : userAccess s.mem (V2P (s.proc 0).pgdir) 0 ≠ none

/-- The machine when `main` gives the processor to the scheduler. -/
def Booted (s : Machine) : Prop :=
  ∃ mem ncpu initcode, ncpu ≤ NCPU ∧ initcode.length < 4096 ∧ (main ncpu initcode).run (Machine.reset mem) = .ok () s

section event

variable {s s' s'' : Machine} {g g' g'' : Ghost} {p : Fin NPROC} {files : Files} {tf : TrapFrame}

theorem Stable.switch (h : Stable s g) (c : Nat) : Ran p s g { s with cr3 := c } g where
  sound := h.sound.adjust rfl
  slot _ _ := .refl _
  user _ _ _ := .refl _ _
  initproc := rfl
  stable := ⟨h.sound.adjust rfl, h.counted.congr rfl (fun _ => rfl) fun _ hq => hq, h.writable, h.rest⟩

theorem Stable.switchuvm (h : Stable s g) (hrun : (s.proc p).state = .RUNNABLE) :
    (switchuvm p).run s = .ok () { s with cr3 := V2P (s.proc p).pgdir } := by
  obtain ⟨d, k, hh⟩ := h.sound.holds (p := p) (by rw [hrun]; simp)
  exact switchuvm_run hh.pgdir_ne hh.kstack_ne

theorem Ran.and_then (hran : Ran p s g s' g') (hkept : Kept (· = p) s' g' s'' g'') (hstable : Stable s'' g'') :
    Ran p s g s'' g'' := ⟨hran.toKept.trans (hkept.mono fun _ hq => .inl hq), hstable⟩

/-- How the handling of an event can end: with a step of its process, or with one of two panics. -/
inductive Outcome (p : Fin NPROC) (s : Machine) (g : Ghost) (e : Event) (handler : KernelM Unit) : Prop
  | done (s' : Machine) (g' : Ghost) : handler.run s = .ok () s' → Ran p s g s' g' → (e.Frugal p s → Saved g g') →
      Outcome p s g e handler
  | kfree (s' : Machine) (tf : TrapFrame) : e = .syscall tf → Sysno.lookup tf.eax = some .shugebrk →
      handler.run s = .error (.panic "kfree") s' → Outcome p s g e handler
  | init (s' : Machine) : p = s.initproc → handler.run s = .error (.panic "init exiting") s' → Outcome p s g e handler

/-- The process is made to end after what it has done so far. -/
theorem Ran.exit (hran : Ran p s g s' g') (hrun : (s'.proc p).state = .RUNNABLE) :
    (∃ s'' g'', (exit p).run s' = .ok () s'' ∧ Ran p s g s'' g'' ∧ Saved g' g'') ∨
    p = s.initproc ∧ (exit p).run s' = .error (.panic "init exiting") s' := by
  by_cases hinit : p = s'.initproc
  · exact .inr ⟨hinit.trans hran.initproc, exit_init hinit⟩
  · obtain ⟨s'', g'', hcall, hkept, hstable, hsaved⟩ := exit_stable hran.stable hrun hinit
    exact .inl ⟨s'', g'', hcall, hran.and_then hkept hstable, hsaved⟩

theorem Stable.entered (h : Stable s g) (hrun : (s.proc p).state = .RUNNABLE) (tf : TrapFrame) :
    Ran p s g (s.entered p tf) g ∧ Active p (s.entered p tf) g := by
  have hran := h.switch (p := p) (V2P (s.proc p).pgdir)
  obtain ⟨hcalm, hc⟩ := hran.stable.record p (u := { s.proc p with tf }) ⟨rfl, rfl, rfl, rfl, rfl⟩ rfl
  have hp := entered_proc s p tf
  have hran' : Ran p s g (s.entered p tf) g := hran.calm hcalm hc
  refine ⟨hran', hran'.stable, ?_, ?_⟩
  · rw [hp]
    exact hrun
  · rw [hp]
    rfl

theorem Ran.answered (hran : Ran p s g s' g') (r : Int) : Ran p s g (s'.answered p r) g' := by
  obtain ⟨hcalm, hc⟩ := hran.stable.record p
    (u := { s'.proc p with tf := { (s'.proc p).tf with eax := addInt 0 r } }) ⟨rfl, rfl, rfl, rfl, rfl⟩ rfl
  exact hran.calm hcalm hc

theorem Ran.leave (hran : Ran p s g s' g') (hrun : (s'.proc p).state = .RUNNABLE) :
    (∃ s'' g'', (trap.leave p).run s' = .ok () s'' ∧ Ran p s g s'' g'' ∧ Saved g' g'') ∨
    p = s.initproc ∧ (trap.leave p).run s' = .error (.panic "init exiting") s' := by
  unfold trap.leave
  rw [get_bind]
  split_ifs with hkilled
  · exact hran.exit hrun
  · exact .inl ⟨s', g', rfl, hran, fun _ _ htemp => htemp⟩

theorem syscall_none (h : Sysno.lookup (s.proc p).tf.eax = none) :
    (syscall files p).run s = .ok true (s.answered p (-1)) := by
  unfold syscall
  rw [get_bind, h]
  rfl

theorem syscall_back {c : Sysno} {r : Int} (h : Sysno.lookup (s.proc p).tf.eax = some c)
    (hcall : (c.call files p).run s = .ok (some r) s') : (syscall files p).run s = .ok true (s'.answered p r) := by
  unfold syscall
  rw [get_bind, h]
  simp only []
  rw [bind_ok hcall]
  rfl

theorem syscall_gone {c : Sysno} (h : Sysno.lookup (s.proc p).tf.eax = some c)
    (hcall : (c.call files p).run s = .ok none s') : (syscall files p).run s = .ok false s' := by
  unfold syscall
  rw [get_bind, h]
  simp only []
  rw [bind_ok hcall]
  rfl

theorem syscall_error {c : Sysno} {e : Halt} (h : Sysno.lookup (s.proc p).tf.eax = some c)
    (hcall : (c.call files p).run s = .error e s') : (syscall files p).run s = .error e s' := by
  unfold syscall
  rw [get_bind, h]
  exact bind_error hcall

theorem Touched.of_entered {q : Fin NPROC} (h : Touched (s.entered p tf) p q) : Touched s p q := by
  by_cases hq : q = p
  · exact .inl hq
  · simpa only [Touched, Reapable, entered_other s tf hq] using h

theorem Ran.of_entered (hran : Ran p s g (s.entered p tf) g') (hran' : Ran p (s.entered p tf) g' s'' g'') : Ran p s g s'' g'' :=
  ⟨hran.toKept.trans (hran'.toKept.mono fun _ => Touched.of_entered), hran'.stable⟩

theorem trap_outcome (h : Stable s g) (hrun : (s.proc p).state = .RUNNABLE) (hok : Event.OK p s (.syscall tf)) :
    Outcome p s g (.syscall tf) (Event.run files p (.syscall tf)) := by
  obtain ⟨hran, hactive⟩ := h.entered hrun tf
  have hswitch := h.switchuvm hrun
  by_cases hkilled : (s.proc p).killed = true
  · have heq : (Event.run files p (.syscall tf)).run s = (exit p).run { s with cr3 := V2P (s.proc p).pgdir } := by
      simp only [Event.run, trap]
      rw [bind_ok hswitch, get_bind, if_pos hkilled]
    rcases (h.switch (p := p) (V2P (s.proc p).pgdir)).exit hrun with ⟨s'', g'', hexit, hran, hsaved⟩ | ⟨hinit, hpanic⟩
    · exact .done s'' g'' (heq.trans hexit) hran fun _ => hsaved
    · exact .init _ hinit (heq.trans hpanic)
  have heq : (Event.run files p (.syscall tf)).run s =
      (do if ← syscall files p then trap.leave p : KernelM Unit).run (s.entered p tf) := by
    simp only [Event.run, trap]
    rw [bind_ok hswitch, get_bind, if_neg hkilled, updateProc_bind]
    rfl
  -- The way back to user space, whatever the call has left in %eax.
  have hback {s' : Machine} {g' : Ghost} {r : Int} (hran' : Ran p s g s' g') (hstate : (s'.proc p).state = .RUNNABLE)
      (hsaved : Event.Frugal p s (.syscall tf) → Saved g g')
      (hcall : (syscall files p).run (s.entered p tf) = .ok true (s'.answered p r)) :
      Outcome p s g (.syscall tf) (Event.run files p (.syscall tf)) := by
    rcases (hran'.answered r).leave (by simpa [Machine.answered] using hstate) with
      ⟨s'', g'', hleave, hran'', hsaved'⟩ | ⟨hinit, hpanic⟩
    · exact .done s'' g'' (heq.trans ((bind_ok hcall).trans hleave)) hran'' fun hF => (hsaved hF).trans hsaved'
    · exact .init _ hinit (heq.trans ((bind_ok hcall).trans hpanic))
  have htf : ((s.entered p tf).proc p).tf.eax = tf.eax := by rw [entered_proc]
  cases hlookup : Sysno.lookup tf.eax with
  | none => exact hback hran hactive.run (fun _ _ _ htemp => htemp) (syscall_none (htf ▸ hlookup))
  | some c =>
    have hc : Sysno.lookup ((s.entered p tf).proc p).tf.eax = some c := htf ▸ hlookup
    cases call_ends hactive files c (hok.2 c hlookup) with
    | back r s' g' hcall hran' hstate hsaved =>
      exact hback (hran.of_entered hran') hstate (fun hF => hsaved (hF c hlookup)) (syscall_back hc hcall)
    | gone s' g' hcall hran' hsaved =>
      exact .done s' g' (heq.trans (bind_ok (syscall_gone hc hcall))) (hran.of_entered hran') fun hF => hsaved (hF c hlookup)
    | kfree s' hshuge hpanic =>
      exact .kfree s' tf rfl (hshuge ▸ hlookup) (heq.trans (bind_error (syscall_error hc hpanic)))
    | init s' hinit hpanic =>
      exact .init s' (hinit.trans hran.initproc) (heq.trans (bind_error (syscall_error hc hpanic)))

/-- What an event does, from any state between two events. -/
theorem Event.outcome (h : Stable s g) (hrun : (s.proc p).state = .RUNNABLE) (files : Files) (e : Event) (hok : e.OK p s) :
    Outcome p s g e (e.run files p) := by
  have hswitch := h.switchuvm hrun
  have hran := h.switch (p := p) (V2P (s.proc p).pgdir)
  cases e with
  | store va v =>
    obtain ⟨s', hstore, hp⟩ := userStore_spec hran.stable.sound (p := p) (by rw [hrun]; simp)
      (hran.stable.writable p hrun) rfl hok v
    have hran' : Ran p _ g s' g := hp.adjusted.ran hran.stable hp.writable
    exact .done s' g ((bind_ok hswitch).trans hstore) (hran.and_then hp.adjusted.toKept hran'.stable) fun _ => hp.adjusted.saved
  | syscall tf => exact trap_outcome h hrun hok
  | fault =>
    obtain ⟨hcalm, hc⟩ := hran.stable.record p (u := { s.proc p with killed := true }) ⟨rfl, rfl, rfl, rfl, rfl⟩ rfl
    have heq : (Event.run files p .fault).run s = (exit p).run { s with
        cr3 := V2P (s.proc p).pgdir, proc := update s.proc p { s.proc p with killed := true } } := by
      simp only [Event.run, trap.fault]
      rw [bind_ok hswitch, updateProc_bind]
    rcases (hran.calm hcalm hc).exit (by simpa using hrun) with ⟨s'', g'', hexit, hran', hsaved⟩ | ⟨hinit, hpanic⟩
    · exact .done s'' g'' (heq.trans hexit) hran' fun _ => hsaved
    · exact .init _ hinit (heq.trans hpanic)

end event

/-- What a `fork` of process `p` with the registers `tf` leaves: the child in slot `np` has the record and the memory of
its parent, but a directory, a kernel stack, a pid, a parent and a result of its own and the `killed` flag of its
slot, which `fork` does not clear: a `kill(0)` may have set it. Nothing else has changed. -/
structure Twins (p np : Fin NPROC) (tf : TrapFrame) (s s' : Machine) : Prop where
  vacant : (s.proc np).state = .UNUSED
  parent : s'.proc p = { s.proc p with tf := { tf with eax := addInt 0 s.nextpid } }
  child : ∃ d f, s'.proc np = Proc.child { s.proc p with tf } (s.proc np) p d f s.nextpid
  others : ∀ q, q ≠ p → q ≠ np → s'.proc q = s.proc q
  memory : ∀ va < 2 ^ 32, userByte s'.mem (V2P (s'.proc np).pgdir) va = userByte s.mem (V2P (s.proc p).pgdir) va
  same : SameUser (V2P (s.proc p).pgdir) s.mem s'.mem

section fork

variable {s : Machine} {g : Ghost} {p : Fin NPROC} {tf : TrapFrame}

theorem fork_event (h : Stable s g) (hrun : (s.proc p).state = .RUNNABLE) (hkilled : (s.proc p).killed = false)
    (heax : tf.eax = 1) (hslot : ∃ q, (s.proc q).state = .UNUSED) (hframes : copyNeed (s.proc p).sz < g.free.length)
    (hhuge : hugeNeed (s.proc p).hugesz ≤ g.hfree.length) (files : Files) :
    ∃ np s' g', (Event.run files p (.syscall tf)).run s = .ok () s' ∧ Twins p np tf s s' ∧ Ran p s g s' g' ∧ Saved g g' := by
  obtain ⟨hran, hactive⟩ := h.entered hrun tf
  have hp := entered_proc s p tf
  have hother {q : Fin NPROC} (hq : q ≠ p) := entered_other s tf hq
  have hroom : ¬ NoRoom (s.entered p tf) g p := by
    obtain ⟨q, hq⟩ := hslot
    have hqp : q ≠ p := by
      rintro rfl
      exact absurd (hrun.symm.trans hq) (by simp)
    rintro (hfull | hfew | ⟨hnone, hneed⟩)
    · exact hfull q (by rw [hother hqp, hq])
    · rw [hp] at hfew
      simp only [] at hfew
      omega
    · rw [hp] at hneed
      rw [hnone, List.length_nil] at hhuge
      simp only [] at hneed
      omega
  rcases fork_spec hactive.sound hactive.live (hactive.writable p hactive.run) hactive.counted
      (.inr (by rw [hp]; exact hhuge)) with ⟨hno, -⟩ | ⟨np, s₁, g₁, hnp, hcall, hkept, hsaved, hc, hw, hchild⟩
  · exact absurd hno hroom
  have hpn : p ≠ np := by
    rintro rfl
    exact hactive.live hnp
  have hswitch := h.switchuvm hrun
  have hlookup : Sysno.lookup ((s.entered p tf).proc p).tf.eax = some .fork := by
    rw [hp, heax]
    rfl
  have hp₁ : s₁.proc p = { s.proc p with tf } := (hchild.others p hpn).trans hp
  have hran₁ := hran.of_entered (hchild.ran hran.stable hkept hc hw)
  obtain ⟨s', hs'⟩ : ∃ s', s' = s₁.answered p s.nextpid := ⟨_, rfl⟩
  have hp' : s'.proc p = { s.proc p with tf := { tf with eax := addInt 0 s.nextpid } } := by
    rw [hs', Machine.answered, hp₁]
    exact update_self _ _ _
  have hother' {q : Fin NPROC} (hq : q ≠ p) : s'.proc q = s₁.proc q := by
    rw [hs']
    exact update_of_ne hq _ _
  have hmem : s'.mem = s₁.mem := by rw [hs', Machine.answered]
  refine ⟨np, s', g₁, ?_, ⟨?_, hp', ?_, fun q hq hqn => ?_, fun va hva => ?_, ?_⟩, hs' ▸ hran₁.answered s.nextpid, hsaved⟩
  · simp only [Event.run, trap]
    rw [bind_ok hswitch, get_bind, if_neg (by simp [hkilled]), updateProc_bind]
    refine (bind_ok (syscall_back hlookup (bind_ok hcall))).trans ?_
    rw [if_pos rfl, entered_nextpid, ← hs']
    simp only [trap.leave]
    rw [get_bind, hp', if_neg (by simp [hkilled])]
    rfl
  · rw [← hother hpn.symm]
    exact hnp
  · obtain ⟨d, f, hproc⟩ := hchild.proc
    refine ⟨d, f, ?_⟩
    rw [hother' hpn.symm, hproc, hp, hother hpn.symm, entered_nextpid]
  · rw [hother' hq, hchild.others q hqn, hother hq]
  · rw [hother' hpn.symm, hmem, hchild.memory va hva, hp, entered_mem]
  · have hsame := hkept.user p hactive.live hactive.live
    rw [hp, entered_mem] at hsame
    rwa [hmem]

end fork

section runs

variable {K : Fin NPROC → Machine → Event → Prop} {s s' : Machine} {g : Ghost} {p : Fin NPROC}

theorem boot_alone (mem : Mem) (ncpu : Nat) (initcode : List UInt8) (hcpu : ncpu ≤ NCPU) (hcode : initcode.length < 4096) :
    ∃ s g, (main ncpu initcode).run (Machine.reset mem) = .ok () s ∧ Alone s g := by
  obtain ⟨s, g, hrun, hfirst⟩ := boot_spec mem ncpu initcode hcpu hcode
  obtain ⟨d, k, hh⟩ := hfirst.holds
  have hs := hfirst.sound.sys
  have hd := hh.toProcDir
  have hzero := hfirst.zero
  have hsz := hfirst.sz
  have hflags := hfirst.page
  rw [hd.phys] at hflags
  have hnofile (q : Fin NPROC) (fd : Fin NOFILE) : (s.proc q).ofile fd = none := by
    by_cases hq : q = 0
    · rw [hq, hfirst.ofile]
    · rw [hzero q hq]
      rfl
  refine ⟨s, g, hrun, hfirst, ⟨hfirst.sound, ⟨fun f => ?_, fun q _ fd => hnofile q fd⟩, fun q hq => ?_, fun q => ?_⟩, ?_⟩
  · simp [hfirst.file, held, descriptors, hnofile]
  · have hq0 : q = 0 := by
      by_contra hne
      rw [hzero q hne] at hq
      cases hq
    subst hq0
    refine (writable_iff hs hd).2 fun k hk => ?_
    obtain rfl : k = 0 := by omega
    omega
  · by_cases hq : q = 0
    · rw [hq, hfirst.run]
      exact .inr (.inl rfl)
    · rw [hzero q hq]
      exact .inl rfl
  · rw [hd.phys]
    rcases hs.translate_user hd.frame hd.role (show 0 < 0x80000000 by omega) with
      ⟨-, -, hnone⟩ | ⟨f, fl, hf, -, hfl, -, hlook, -, hsome⟩ | ⟨f, -, -, -, hnone, -⟩
    · rw [Nat.zero_div] at hnone
      omega
    · have halign := hf.1
      rw [Nat.zero_div] at hlook
      obtain rfl : fl = 7 := by omega
      rw [userAccess, hsome]
      simp [hasFlag]
    · rw [Nat.zero_div] at hnone
      omega

theorem booted_alone : ∃ s g, Booted s ∧ Alone s g := by
  obtain ⟨s, g, hrun, halone⟩ := boot_alone (fun _ => 0) 1 [] (by decide) (by decide)
  exact ⟨s, g, ⟨_, 1, [], by decide, by decide, hrun⟩, halone⟩

theorem Alone.vacant (h : Alone s g) : ∃ q, (s.proc q).state = .UNUSED := ⟨1, by rw [h.zero 1 (by decide)]; rfl⟩

theorem Alone.need (h : Alone s g) : copyNeed (s.proc 0).sz = 67 ∧ hugeNeed (s.proc 0).hugesz = 0 := by
  rw [h.sz, h.hugesz]
  exact ⟨rfl, rfl⟩

theorem Booted.stable (h : Booted s) : ∃ g, Stable s g ∧ First s g := by
  obtain ⟨mem, ncpu, initcode, hcpu, hcode, hrun⟩ := h
  obtain ⟨s', g, hrun', halone⟩ := boot_alone mem ncpu initcode hcpu hcode
  rw [hrun, EStateM.Result.ok.injEq] at hrun'
  rw [hrun'.2]
  exact ⟨g, halone.stable, halone.toFirst⟩

theorem Event.ran (h : Stable s g) (hrun : (s.proc p).state = .RUNNABLE) {files : Files} {e : Event} (hok : e.OK p s)
    (hstep : (e.run files p).run s = .ok () s') : ∃ g', Ran p s g s' g' ∧ (e.Frugal p s → Saved g g') := by
  cases e.outcome h hrun files hok with
  | done s'' g' hdone hran hsaved =>
    rw [hstep, EStateM.Result.ok.injEq] at hdone
    rw [hdone.2]
    exact ⟨g', hran, hsaved⟩
  | kfree s'' tf _ _ hpanic =>
    rw [hstep] at hpanic
    cases hpanic
  | init s'' _ hpanic =>
    rw [hstep] at hpanic
    cases hpanic

theorem reachable_stable (h : Reachable Booted (Step K) s) : ∃ g, Stable s g := by
  refine h.inv (I := fun s => ∃ g, Stable s g) (fun s hs => hs.stable.imp fun g h => h.1) fun s s' hs hst => ?_
  obtain ⟨g, hstable⟩ := hs
  obtain ⟨p, files, e, hrun, hok, -, hstep⟩ := hst
  obtain ⟨g', hran, -⟩ := Event.ran hstable hrun hok hstep
  exact ⟨g', hran.stable⟩

/-- A run in which no huge heap is torn down loses no huge frame. -/
theorem reachable_frugal (h : Reachable Booted (Step fun p s e => e.Frugal p s) s) :
    ∃ g, Stable s g ∧ ∀ f, IsHuge f → g.hown f ≠ .temp := by
  refine h.inv (I := fun s => ∃ g, Stable s g ∧ ∀ f, IsHuge f → g.hown f ≠ .temp)
    (fun s hs => hs.stable.imp fun g h => ⟨h.1, h.2.huge⟩) fun s s' hs hst => ?_
  obtain ⟨g, hstable, hkept⟩ := hs
  obtain ⟨p, files, e, hrun, hok, hfrugal, hstep⟩ := hst
  obtain ⟨g', hran, hsaved⟩ := Event.ran hstable hrun hok hstep
  exact ⟨g', hran.stable, fun f hf htemp => hkept f hf (hsaved hfrugal f hf htemp)⟩

/-- A run with two processes. -/
theorem reachable_two : ∃ (s : Machine) (p q : Fin NPROC), p ≠ q ∧ Reachable Booted (Step fun p s e => e.Frugal p s) s ∧
    (s.proc p).state = .RUNNABLE ∧ (s.proc q).state = .RUNNABLE ∧ userAccess s.mem (V2P (s.proc p).pgdir) 0 ≠ none := by
  obtain ⟨s, g, hbooted, halone⟩ := booted_alone
  have hrun := halone.run
  have hfree := halone.free
  obtain ⟨hcopy, hneed⟩ := halone.need
  have htf : (TrapFrame.mk 1 0 0).eax = 1 := rfl
  obtain ⟨np, s', g', hstep, htwins, -, -⟩ := fork_event halone.stable hrun halone.killed htf halone.vacant
    (by omega) (by omega) fun _ => none
  have hok : Event.OK 0 s (.syscall ⟨1, 0, 0⟩) := by
    refine ⟨fun h => absurd h (by decide), fun c hc => ?_⟩
    obtain rfl : c = .fork := (Option.some.inj hc).symm
    intro L _
    right
    rw [Machine.entered]
    simp only [update_self]
    omega
  have hfrugal : Event.Frugal 0 s (.syscall ⟨1, 0, 0⟩) := by
    intro c hc
    obtain rfl : c = .fork := (Option.some.inj hc).symm
    trivial
  have hne : 0 ≠ np := by
    rintro rfl
    rw [htwins.vacant] at hrun
    cases hrun
  refine ⟨s', 0, np, hne, .next (.start hbooted) ⟨0, _, _, hrun, hok, hfrugal, hstep⟩, ?_, ?_, ?_⟩
  · rw [htwins.parent, hrun]
  · obtain ⟨d, f, hchild⟩ := htwins.child
    rw [hchild]
    rfl
  · rw [htwins.parent, htwins.same.access (by omega)]
    exact halone.access

end runs

end xv6
