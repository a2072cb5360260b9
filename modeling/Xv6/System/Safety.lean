import Xv6.System.Places
import Xv6.System.Run

open bytes outcome refcount run Function

namespace xv6

section safety

variable {K : Fin NPROC → Machine → Event → Prop} {s s' : Machine} {p q : Fin NPROC}

/-- In every run, whatever the processes do, each base frame is in one place: it is free, it belongs to one
directory, stack or pipe. A huge frame is never in two places. -/
theorem frames_conserved (h : Reachable Booted (Step K) s) :
    (∀ x, IsFrame x → ∃! b : Spot, b.Has s x) ∧ ∀ (x : Nat) (b b' : HugeSpot), b.Has s x → b'.Has s x → b = b' := by
  obtain ⟨g, hstable⟩ := reachable_stable h
  exact ⟨fun x hx => hstable.sound.one_spot hx, fun x b b' hb hb' => hstable.sound.hugeSpot_unique hb hb'⟩

theorem frames_conserved_two : ∃ s, Reachable Booted (Step fun p s e => e.Frugal p s) s ∧
    ∀ x, IsFrame x → ∃! b : Spot, b.Has s x := by
  obtain ⟨s, -, -, -, h, -⟩ := reachable_two
  exact ⟨s, h, (frames_conserved h).1⟩

/-- As long as no huge heap is torn down, each huge frame is in one place. -/
theorem huge_frames_conserved (h : Reachable Booted (Step fun p s e => e.Frugal p s) s) :
    ∀ x, IsHuge x → ∃! b : HugeSpot, b.Has s x := by
  obtain ⟨g, hstable, hkept⟩ := reachable_frugal h
  exact fun x hx => hstable.sound.one_hugeSpot hx (hkept x hx)

theorem huge_frames_conserved_two : ∃ s, Reachable Booted (Step fun p s e => e.Frugal p s) s ∧
    ∀ x, IsHuge x → ∃! b : HugeSpot, b.Has s x := by
  obtain ⟨s, -, -, -, h, -⟩ := reachable_two
  exact ⟨s, h, huge_frames_conserved h⟩

/-- What a process reaches in user mode is a page of its own: it is not within reach of another process, and
its frame is no table, directory, stack, pipe or free frame. -/
theorem user_isolated (h : Reachable Booted (Step K) s) (hp : (s.proc p).state ≠ .UNUSED) {va pa : Nat} (hva : va < 2 ^ 32)
    (hpa : userAccess s.mem (V2P (s.proc p).pgdir) va = some pa) :
    va < KERNBASE ∧ V2P kernelEnd ≤ pa ∧
    (∀ q, q ≠ p → (s.proc q).state ≠ .UNUSED → ∀ va' < 2 ^ 32, userAccess s.mem (V2P (s.proc q).pgdir) va' ≠ some pa) ∧
    ∀ x, IsFrame x → x ≤ pa → pa < x + 4096 → ∀ b : Spot, b.Has s x → b = .proc p (.page (va / 4096)) := by
  obtain ⟨g, hstable⟩ := reachable_stable h
  have hs := hstable.sound
  obtain ⟨hlow, hspot⟩ := hs.access_spot hp hva hpa
  refine ⟨hlow, ?_, fun q hq hlive va' hva' => hs.access_apart hp hlive hq.symm hva hva' hpa, fun x hx hle hlt b hb => ?_⟩
  · have hend : V2P kernelEnd = 0x116630 := by decide
    rcases hspot with ⟨y, -, ⟨-, hy, -⟩, rfl⟩ | ⟨y, -, ⟨-, hy, -⟩, rfl⟩ <;> omega
  · rcases hspot with ⟨y, hy, hfy, rfl⟩ | ⟨y, -, hfy, rfl⟩
    · obtain rfl : x = y := by
        have := hx.1
        have := hfy.1
        omega
      exact (hs.one_spot hx).unique hb hy
    · have := hx.apart_huge hfy
      omega

theorem user_isolated_two : ∃ (s : Machine) (p q : Fin NPROC) (va pa : Nat), p ≠ q ∧ (s.proc q).state ≠ .UNUSED ∧
    userAccess s.mem (V2P (s.proc p).pgdir) va = some pa ∧
    ∀ va' < 2 ^ 32, userAccess s.mem (V2P (s.proc q).pgdir) va' ≠ some pa := by
  obtain ⟨s, p, q, hne, h, hp, hq, haccess⟩ := reachable_two
  obtain ⟨pa, hpa⟩ := Option.ne_none_iff_exists'.1 haccess
  have hlive : (s.proc q).state ≠ .UNUSED := by
    rw [hq]
    simp
  obtain ⟨-, -, hothers, -⟩ := user_isolated h (by rw [hp]; simp) (by omega) hpa
  exact ⟨s, p, q, 0, pa, hne, hlive, hpa, hothers q hne.symm hlive⟩

/-- A process that does not take part in a run finds its memory as it was. -/
theorem others_undisturbed (h : Reachable Booted (Step K) s) (hq : (s.proc q).state = .RUNNABLE)
    (hrun : Relation.ReflTransGen (fun s s' => ∃ p, p ≠ q ∧ StepOf K p s s') s s') :
    SameSlot (s.proc q) (s'.proc q) ∧ SameUser (V2P (s.proc q).pgdir) s.mem s'.mem := by
  obtain ⟨g, hstable⟩ := reachable_stable h
  -- The process stays runnable, so that no step on the way may touch it.
  suffices hall : ∃ g', Stable s' g' ∧ SameSlot (s.proc q) (s'.proc q) ∧ SameUser (V2P (s.proc q).pgdir) s.mem s'.mem by
    obtain ⟨-, -, hsame⟩ := hall
    exact hsame
  induction hrun with
  | refl => exact ⟨g, hstable, .refl _, .refl _ _⟩
  | @tail t t' _ hstep ih =>
    obtain ⟨g₁, hstable₁, hslot, huser⟩ := ih
    obtain ⟨p, hpq, files, e, hrunp, hok, -, hstep⟩ := hstep
    obtain ⟨g₂, hran, -⟩ := Event.ran hstable₁ hrunp hok hstep
    have hstate := hslot.state.trans hq
    have hout : ¬ Touched t p q := by
      rintro (heq | hunused | hreap)
      · exact hpq heq.symm
      · rw [hstate] at hunused
        cases hunused
      · rw [hreap.2] at hstate
        cases hstate
    have huser' := hran.user q hout (by rw [hstate]; simp)
    rw [hslot.pgdir] at huser'
    exact ⟨g₂, hran.stable, hslot.trans (hran.slot q hout), huser.trans huser'⟩

theorem others_undisturbed_store : ∃ (s s' : Machine) (p q : Fin NPROC), p ≠ q ∧ (s.proc q).state = .RUNNABLE ∧
    (Event.run (fun _ => none) p (.store 0 1)).run s = .ok () s' ∧ SameUser (V2P (s.proc q).pgdir) s.mem s'.mem := by
  obtain ⟨s, p, q, hne, h, hp, hq, -⟩ := reachable_two
  obtain ⟨g, hstable⟩ := reachable_stable h
  obtain ⟨s', hstep⟩ : ∃ s', (Event.run (fun _ => none) p (.store 0 1)).run s = .ok () s' :=
    ⟨_, (bind_ok (hstable.switchuvm hp)).trans rfl⟩
  refine ⟨s, s', p, q, hne, hq, hstep, (others_undisturbed h hq (.single ⟨p, hne, ?_⟩)).2⟩
  exact ⟨_, .store 0 1, hp, show (0 : Nat) < 2 ^ 32 by omega, trivial, hstep⟩

/-- Nothing that a process does makes the kernel hang or panic, but for two things: a `shugebrk` past the user half
when no huge frame is free, whose undoing runs into the kernel half, and the end of the first process. -/
theorem events_end (h : Reachable Booted (Step K) s) (hrun : (s.proc p).state = .RUNNABLE) (files : Files) (e : Event)
    (hok : e.OK p s) :
    (∃ s', (e.run files p).run s = .ok () s') ∨
    (∃ tf s', e = .syscall tf ∧ tf.eax = 24 ∧ (e.run files p).run s = .error (.panic "kfree") s') ∨
    p = s.initproc ∧ ∃ s', (e.run files p).run s = .error (.panic "init exiting") s' := by
  obtain ⟨g, hstable⟩ := reachable_stable h
  cases e.outcome hstable hrun files hok with
  | done s' g' hdone => exact .inl ⟨s', hdone⟩
  | kfree s' tf he hlookup hpanic =>
    refine .inr (.inl ⟨tf, s', he, ?_, hpanic⟩)
    have hnum := List.find?_some hlookup
    simp only [Sysno.num, beq_iff_eq] at hnum
    exact hnum.symm
  | init s' hinit hpanic => exact .inr (.inr ⟨hinit, s', hpanic⟩)

theorem events_end_pipe : ∃ (s : Machine) (p : Fin NPROC), (s.proc p).state = .RUNNABLE ∧
    ((∃ s', (Event.run (fun _ => none) p (.syscall ⟨4, 0, 0⟩)).run s = .ok () s') ∨
      p = s.initproc ∧
        ∃ s', (Event.run (fun _ => none) p (.syscall ⟨4, 0, 0⟩)).run s = .error (.panic "init exiting") s') := by
  obtain ⟨s, p, -, -, h, hp, -⟩ := reachable_two
  have hok : Event.OK p s (.syscall ⟨4, 0, 0⟩) := by
    refine ⟨fun hnone => absurd hnone (by decide), fun c hc => ?_⟩
    obtain rfl : c = .pipe := (Option.some.inj hc).symm
    trivial
  refine ⟨s, p, hp, ?_⟩
  rcases events_end h hp (fun _ => none) (.syscall ⟨4, 0, 0⟩) hok with hdone | ⟨tf, s', heq, heax, -⟩ | hinit
  · exact .inl hdone
  · rw [Event.syscall.injEq] at heq
    rw [← heq] at heax
    simp at heax
  · exact .inr hinit

end safety

section kernel

variable {K : Fin NPROC → Machine → Event → Prop} {s : Machine} {g : Ghost} {p : Fin NPROC} {d va pa : Nat} {o : DirOwner}

/-- A directory translates the kernel half as `kmap` says. -/
theorem KernOK.translate_eq (hk : KernOK s.mem d) (hs : Sys s g) (hd : IsFrame d) (hdir : g.own d = .dir o)
    (hlo : KERNBASE ≤ va) (hva : va < 2 ^ 32) :
    translate s.mem d va = viewTranslate (kpde (va / 0x400000)) (kpte (va / 4096)) va := by
  rw [hs.translate_eq hd hdir hva, hk.huge_eq _ (by simp only [KERNBASE] at hlo; omega) (by omega),
    hk.lookup_eq _ (by simp only [KERNBASE] at hlo; omega) (by omega)]

/-- The kernel reaches physical address `pa` at `P2V pa`. -/
theorem viewTranslate_P2V (h : pa < PHYSTOP ∨ HUGE_PAGE_START ≤ pa ∧ pa < HUGE_PAGE_END) :
    ∃ t, viewTranslate (kpde (P2V pa / 0x400000)) (kpte (P2V pa / 4096)) (P2V pa) = some t ∧ t.pa = pa := by
  have hva : P2V pa = 0x80000000 + pa := by
    simp only [P2V, KERNBASE]
    simp only [PHYSTOP, HUGE_PAGE_START, HUGE_PAGE_END] at h
    omega
  rw [hva]
  simp only [PHYSTOP, HUGE_PAGE_START, HUGE_PAGE_END] at h
  rcases h with hlow | ⟨hlo, hhi⟩
  · have hpde : kpde ((0x80000000 + pa) / 0x400000) = 0 := by
      unfold kpde
      rw [if_neg (by omega)]
    obtain ⟨fl, hfl, hodd, hpte⟩ : ∃ fl < 4096, fl % 2 = 1 ∧ kpte ((0x80000000 + pa) / 4096) = 4096 * (pa / 4096) + fl := by
      have hpage : (0x80000000 + pa) / 4096 - 2 ^ 19 = pa / 4096 := by omega
      unfold kpte
      rw [hpage]
      split_ifs
      · exact ⟨3, by omega, rfl, rfl⟩
      · exact ⟨1, by omega, rfl, rfl⟩
      · exact ⟨3, by omega, rfl, rfl⟩
      all_goals omega
    rw [hpde, hpte, viewTranslate_base (by omega) hfl hodd]
    refine ⟨_, rfl, ?_⟩
    simp only []
    omega
  · have hpde : kpde ((0x80000000 + pa) / 0x400000) = pa / 0x400000 * 0x400000 + 0x83 := by
      unfold kpde
      rw [if_pos (by omega)]
      omega
    rw [hpde, viewTranslate, if_pos (by omega)]
    refine ⟨_, rfl, ?_⟩
    simp only []
    omega

/-- In every run all processes have the same kernel half: the kernel's own, closed to users, where the kernel
finds all frames. -/
theorem kernel_half_fixed (h : Reachable Booted (Step K) s) (hp : (s.proc p).state ≠ .UNUSED) :
    (∀ va, KERNBASE ≤ va → va < 2 ^ 32 →
      translate s.mem (V2P (s.proc p).pgdir) va = translate s.mem (V2P s.kpgdir) va ∧
      userAccess s.mem (V2P (s.proc p).pgdir) va = none) ∧
    ∀ pa, pa < PHYSTOP ∨ HUGE_PAGE_START ≤ pa ∧ pa < HUGE_PAGE_END →
      ∃ t, translate s.mem (V2P (s.proc p).pgdir) (P2V pa) = some t ∧ t.pa = pa := by
  obtain ⟨g, hstable⟩ := reachable_stable h
  have hs := hstable.sound.sys
  obtain ⟨d, hd⟩ := (hstable.sound.proc p).dir hp
  obtain ⟨k, hk, hkdir, hkpgdir, hkern, -⟩ := hstable.sound.kern.dir
  rw [hd.phys, hkpgdir, hk.phys]
  refine ⟨fun va hlo hva => ⟨?_, ?_⟩, fun pa hpa => ?_⟩
  · rw [hd.kern.translate_eq hs hd.frame hd.role hlo hva, hkern.translate_eq hs hk hkdir hlo hva]
  · exact hd.kern.userAccess_eq_none hs hd.frame hd.role hlo hva
  · have hrange : KERNBASE ≤ P2V pa ∧ P2V pa < 2 ^ 32 := by
      simp only [PHYSTOP, HUGE_PAGE_START, HUGE_PAGE_END] at hpa
      simp only [P2V, KERNBASE]
      omega
    rw [hd.kern.translate_eq hs hd.frame hd.role hrange.1 hrange.2]
    exact viewTranslate_P2V hpa

theorem kernel_half_fixed_two : ∃ (s : Machine) (p : Fin NPROC), (s.proc p).state = .RUNNABLE ∧
    ∀ va, KERNBASE ≤ va → va < 2 ^ 32 →
      translate s.mem (V2P (s.proc p).pgdir) va = translate s.mem (V2P s.kpgdir) va ∧
      userAccess s.mem (V2P (s.proc p).pgdir) va = none := by
  obtain ⟨s, p, -, -, h, hp, -⟩ := reachable_two
  exact ⟨s, p, hp, (kernel_half_fixed h (by rw [hp]; simp)).1⟩

end kernel

end xv6
