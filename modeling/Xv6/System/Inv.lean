import Xv6.File
import Xv6.Vm.Laid

open bytes Function

namespace xv6

/-- The kernel's own directory: the mappings of `kmap` and nothing else. -/
structure KernInv (s : Machine) (g : Ghost) : Prop where
  dir : ∃ d, IsFrame d ∧ g.own d = .dir .kernel ∧ s.kpgdir = P2V d ∧ KernOK s.mem d ∧ ∀ i < 512, entry s.mem d i = 0
  dir_of : ∀ f, IsFrame f → g.own f = .dir .kernel → s.kpgdir = P2V f

/-- Frame `d` is the page directory of process `p` and maps what its sizes say. -/
structure ProcDir (s : Machine) (g : Ghost) (p : Fin NPROC) (d : Nat) : Prop where
  frame : IsFrame d
  role : g.own d = .dir (.proc p)
  pgdir : (s.proc p).pgdir = P2V d
  kern : KernOK s.mem d
  layout : Layout s.mem d (s.proc p).sz (s.proc p).hugesz

/-- The record of process `p` and the frames it holds agree. -/
structure ProcInv (s : Machine) (g : Ghost) (p : Fin NPROC) : Prop where
  dir : (s.proc p).state ≠ .UNUSED → ∃ d, ProcDir s g p d
  dir_of : ∀ f, IsFrame f → g.own f = .dir (.proc p) → (s.proc p).state ≠ .UNUSED ∧ (s.proc p).pgdir = P2V f
  kstack : (s.proc p).state ≠ .UNUSED → ∃ f, IsFrame f ∧ g.own f = .kstack p ∧ (s.proc p).kstack = P2V f
  kstack_of : ∀ f, IsFrame f → g.own f = .kstack p → (s.proc p).state ≠ .UNUSED ∧ (s.proc p).kstack = P2V f
  embryo : (s.proc p).state ≠ .EMBRYO

/-- The stacks on which the other processors were started. -/
structure StackInv (s : Machine) (g : Ghost) : Prop where
  nodup : s.cpustack.Nodup
  stack : ∀ v ∈ s.cpustack, ∃ f, IsFrame f ∧ g.own f = .stack ∧ v = P2V f
  stack_of : ∀ f, IsFrame f → g.own f = .stack → P2V f ∈ s.cpustack

/-- The flag of a pipe page that says whether its read or its write end is open. -/
def openFlag (m : Mem) (x : Nat) (writable : Bool) : Nat :=
  load32 m (x + if writable then pipe.writeopen else pipe.readopen)

/-- Every open end of a pipe is one entry of the file table, and a pipe page is
held as long as one of its ends is open. -/
structure FileInv (s : Machine) (g : Ghost) : Prop where
  closed : ∀ f, (s.file f).ref = 0 → (s.file f).type ≠ .FD_PIPE
  pipe : ∀ f, (s.file f).type = .FD_PIPE → ∃ x, IsFrame x ∧ g.own x = .pipe ∧ (s.file f).pipe = P2V x ∧
    openFlag s.mem x (s.file f).writable ≠ 0
  inj : ∀ f f', (s.file f).type = .FD_PIPE → (s.file f').type = .FD_PIPE → (s.file f).pipe = (s.file f').pipe →
    (s.file f).writable = (s.file f').writable → f = f'
  end_of : ∀ x w, IsFrame x → g.own x = .pipe → openFlag s.mem x w ≠ 0 →
    ∃ f, (s.file f).type = .FD_PIPE ∧ (s.file f).writable = w ∧ (s.file f).pipe = P2V x
  held : ∀ x, IsFrame x → g.own x = .pipe → ∃ w, openFlag s.mem x w ≠ 0

/-- Everything but process `p`. -/
structure Others (p : Fin NPROC) (s : Machine) (g : Ghost) : Prop where
  kern : KernInv s g
  proc : ∀ q, q ≠ p → ProcInv s g q
  cpu : StackInv s g
  files : FileInv s g

theorem P2V_inj {a b : Nat} (ha : a < 2 ^ 32) (hb : b < 2 ^ 32) (h : P2V a = P2V b) : a = b := by
  simp only [P2V, KERNBASE] at h
  omega

theorem IsFrame.inj {a b : Nat} (ha : IsFrame a) (hb : IsFrame b) (h : P2V a = P2V b) : a = b := by
  rw [← ha.phys, h, hb.phys]

section frame

variable {s s' : Machine} {g g' : Ghost} {x f : Nat} {p : Fin NPROC} {H : HugeRole → Prop}

/-- Roles that a step on a directory changes for that directory only. -/
def Role.fixed : Role → Bool
  | .free | .table _ _ | .page _ _ _ => false
  | _ => true

/-- Roles that a frame handled on behalf of process `p` passes through. -/
def Role.Private (p : Fin NPROC) : Role → Prop
  | .free | .temp | .dir .temp => True
  | .dir (.proc q) => q = p
  | .kstack q => q = p
  | _ => False

theorem Within.fixed_eq (hw : Within (WholeArea x) H s g s' g') (hf : IsFrame f) (hne : f ≠ x)
    (h : (g.own f).fixed ∨ (g'.own f).fixed) : g'.own f = g.own f ∧ SameOn s.mem s'.mem f 4096 := by
  have hout (r : Role) (hr : r.fixed) : ¬ WholeArea x f r := by
    rintro (h | rfl | ⟨i, rfl⟩ | ⟨i, j, rfl⟩)
    · exact hne h
    all_goals simp [Role.fixed] at hr
  rcases hw.role f hf with ⟨ha, ha'⟩ | heq
  · rcases h with h | h
    · exact absurd ha (hout _ h)
    · exact absurd ha' (hout _ h)
  · rw [heq, or_self] at h
    exact ⟨heq, hw.same f hf (hout _ h)⟩

/-- The frames with a fixed role keep it, and no other frame gets it. -/
theorem Within.own_iff {r : Role} (hw : Within (WholeArea x) H s g s' g') (hf : IsFrame f) (hne : f ≠ x) (hr : r.fixed) :
    g'.own f = r ↔ g.own f = r := by
  constructor <;> intro hrole
  · exact (hw.fixed_eq hf hne (.inr (hrole ▸ hr))).1.symm.trans hrole
  · exact (hw.fixed_eq hf hne (.inl (hrole ▸ hr))).1.trans hrole

/-- A step on the user half of a directory does not change the role of the directory either. -/
theorem UserStep.own_iff {d : Nat} {r : Role} (h : UserStep d H s g s' g') (hf : IsFrame f) (hr : r.fixed) :
    g'.own f = r ↔ g.own f = r := by
  by_cases hne : f = d
  · rw [hne, h.dir]
  · exact h.whole.own_iff hf hne hr

/-- A frame is given another role. -/
theorem Within.give (s : Machine) (g : Ghost) (x : Nat) (r : Role) :
    Within (WholeArea x) H s g s { g with own := update g.own x r } where
  role f _ := (eq_or_ne f x).imp (fun h => ⟨.inl h, .inl h⟩) fun h => update_of_ne h _ _
  same _ _ _ := SameOn.refl _ _ _
  hrole _ _ := .inr rfl
  hsame _ _ _ := SameOn.refl _ _ _
  rest := rfl

theorem Outside.of_ne {d : Nat} {o : DirOwner} (hne : d ≠ x) (hdir : g.own d = .dir o)
    (hx : (g.own x).fixed ∨ g.own x = .free) : Outside (WholeArea x) g d where
  dir := by
    rintro (h | h | ⟨i, h⟩ | ⟨i, j, h⟩)
    · exact hne h
    all_goals simp [hdir] at h
  table t i htable := by
    rintro (rfl | h | ⟨i', h⟩ | ⟨i', j', h⟩)
    · simp [htable, Role.fixed] at hx
    · simp [htable] at h
    · rw [htable, Role.table.injEq] at h
      exact hne h.1
    · simp [htable] at h
  page f i j hpage := by
    rintro (rfl | h | ⟨i', h⟩ | ⟨i', j', h⟩)
    · simp [hpage, Role.fixed] at hx
    · simp [hpage] at h
    · simp [hpage] at h
    · rw [hpage, Role.page.injEq] at h
      exact hne h.1

theorem Role.Private.fixed_or {r : Role} (h : r.Private p) : r.fixed ∨ r = .free := by
  cases r <;> simp_all [Role.Private, Role.fixed]

theorem KernInv.within (h : KernInv s g) (hs : Sys s g) (hw : Within (WholeArea x) H s g s' g')
    (hx : g.own x ≠ .dir .kernel) (hx' : g'.own x ≠ .dir .kernel) (hfix : (g.own x).fixed ∨ g.own x = .free) :
    KernInv s' g' where
  dir := by
    obtain ⟨d, hd, hrole, hkpgdir, hkern, hlow⟩ := h.dir
    have hne : d ≠ x := fun h => hx (h ▸ hrole)
    have hview := hw.view_eq hs hd hrole (.of_ne hne hrole hfix)
    refine ⟨d, hd, ?_, ?_, ?_, fun i hi => (hview.2 i (by omega)).trans (hlow i hi)⟩
    · exact (hw.own_iff hd hne rfl).2 hrole
    · rw [hw.rest]
      exact hkpgdir
    · exact hkern.congr (fun k _ hk => hview.1 k hk) fun i _ hi => hugeAt_congr (hview.2 i hi)
  dir_of f hf hrole := by
    have hne : f ≠ x := fun h => hx' (h ▸ hrole)
    rw [hw.rest]
    exact h.dir_of f hf ((hw.own_iff hf hne rfl).1 hrole)

theorem ProcDir.within {d : Nat} (h : ProcDir s g p d) (hs : Sys s g) (hw : Within (WholeArea x) H s g s' g')
    (hne : d ≠ x) (hfix : (g.own x).fixed ∨ g.own x = .free) : ProcDir s' g' p d := by
  have hview := hw.view_eq hs h.frame h.role (.of_ne hne h.role hfix)
  have hproc : s'.proc p = s.proc p := by rw [hw.rest]
  refine ⟨h.frame, ?_, ?_, ?_, ?_⟩
  · exact (hw.own_iff h.frame hne rfl).2 h.role
  · rw [hproc, h.pgdir]
  · exact h.kern.congr (fun k _ hk => hview.1 k hk) fun i _ hi => hugeAt_congr (hview.2 i hi)
  · rw [hproc]
    exact h.layout.congr hview.1 hview.2

theorem ProcInv.within (h : ProcInv s g p) (hs : Sys s g) (hw : Within (WholeArea x) H s g s' g')
    (hx : g.own x ≠ .dir (.proc p) ∧ g.own x ≠ .kstack p)
    (hx' : g'.own x ≠ .dir (.proc p) ∧ g'.own x ≠ .kstack p) (hfix : (g.own x).fixed ∨ g.own x = .free) :
    ProcInv s' g' p := by
  have hproc : s'.proc p = s.proc p := by rw [hw.rest]
  refine ⟨?_, ?_, ?_, ?_, ?_⟩ <;> rw [hproc]
  · intro hlive
    obtain ⟨d, hd⟩ := h.dir hlive
    exact ⟨d, hd.within hs hw (fun h => hx.1 (h ▸ hd.role)) hfix⟩
  · intro f hf hrole
    have hne : f ≠ x := fun h => hx'.1 (h ▸ hrole)
    exact h.dir_of f hf ((hw.own_iff hf hne rfl).1 hrole)
  · intro hlive
    obtain ⟨f, hf, hrole, hkstack⟩ := h.kstack hlive
    have hne : f ≠ x := fun h => hx.2 (h ▸ hrole)
    exact ⟨f, hf, (hw.own_iff hf hne rfl).2 hrole, hkstack⟩
  · intro f hf hrole
    have hne : f ≠ x := fun h => hx'.2 (h ▸ hrole)
    exact h.kstack_of f hf ((hw.own_iff hf hne rfl).1 hrole)
  · exact h.embryo

theorem StackInv.within (h : StackInv s g) (hw : Within (WholeArea x) H s g s' g') (hx : g.own x ≠ .stack)
    (hx' : g'.own x ≠ .stack) : StackInv s' g' := by
  have hcpustack : s'.cpustack = s.cpustack := by rw [hw.rest]
  refine ⟨?_, ?_, ?_⟩ <;> rw [hcpustack]
  · exact h.nodup
  · intro v hv
    obtain ⟨f, hf, hrole, heq⟩ := h.stack v hv
    have hne : f ≠ x := fun h => hx (h ▸ hrole)
    exact ⟨f, hf, (hw.own_iff hf hne rfl).2 hrole, heq⟩
  · intro f hf hrole
    have hne : f ≠ x := fun h => hx' (h ▸ hrole)
    exact h.stack_of f hf ((hw.own_iff hf hne rfl).1 hrole)

theorem openFlag_eq {m m' : Mem} (h : SameOn m m' f 4096) (w : Bool) : openFlag m' f w = openFlag m f w := by
  have hoff : (if w then pipe.writeopen else pipe.readopen) ≤ 576 := by
    cases w <;> simp [pipe.writeopen, pipe.readopen]
  exact h.load32_eq (by omega) (by omega)

theorem FileInv.within (h : FileInv s g) (hw : Within (WholeArea x) H s g s' g') (hx : g.own x ≠ .pipe)
    (hx' : g'.own x ≠ .pipe) : FileInv s' g' := by
  have hfile : s'.file = s.file := by rw [hw.rest]
  have hkeep {f : Nat} (hf : IsFrame f) (hrole : g'.own f = .pipe) :
      g.own f = .pipe ∧ ∀ w, openFlag s'.mem f w = openFlag s.mem f w := by
    have hne : f ≠ x := fun h => hx' (h ▸ hrole)
    obtain ⟨heq, hsame⟩ := hw.fixed_eq hf hne (.inr (by simp [hrole, Role.fixed]))
    exact ⟨heq ▸ hrole, openFlag_eq hsame⟩
  refine ⟨?_, ?_, ?_, ?_, ?_⟩
  · rw [hfile]
    exact h.closed
  · rw [hfile]
    intro f hf
    obtain ⟨x', hx'', hrole, hpipe, hopen⟩ := h.pipe f hf
    have hne : x' ≠ x := fun h => hx (h ▸ hrole)
    obtain ⟨heq, hsame⟩ := hw.fixed_eq hx'' hne (.inl (by simp [hrole, Role.fixed]))
    exact ⟨x', hx'', heq.trans hrole, hpipe, by rwa [openFlag_eq hsame]⟩
  · rw [hfile]
    exact h.inj
  · rw [hfile]
    intro f w hf hrole hopen
    obtain ⟨hrole', hflag⟩ := hkeep hf hrole
    exact h.end_of f w hf hrole' (hflag w ▸ hopen)
  · intro f hf hrole
    obtain ⟨hrole', hflag⟩ := hkeep hf hrole
    obtain ⟨w, hopen⟩ := h.held f hf hrole'
    exact ⟨w, by rwa [hflag w]⟩

/-- A step on a frame or a directory of process `p` keeps everything else. -/
theorem Others.within (h : Others p s g) (hs : Sys s g) (hw : Within (WholeArea x) H s g s' g')
    (hx : (g.own x).Private p) (hx' : (g'.own x).Private p) : Others p s' g' where
  kern := h.kern.within hs hw (fun h => by simp [h, Role.Private] at hx)
    (fun h => by simp [h, Role.Private] at hx') hx.fixed_or
  proc q hq := (h.proc q hq).within hs hw
    ⟨fun h => by simp [h, Role.Private, hq] at hx, fun h => by simp [h, Role.Private, hq] at hx⟩
    ⟨fun h => by simp [h, Role.Private, hq] at hx', fun h => by simp [h, Role.Private, hq] at hx'⟩ hx.fixed_or
  cpu := h.cpu.within hw (fun h => by simp [h, Role.Private] at hx) fun h => by simp [h, Role.Private] at hx'
  files := h.files.within hw (fun h => by simp [h, Role.Private] at hx) fun h => by simp [h, Role.Private] at hx'

end frame

section congr

variable {s s' : Machine} {g : Ghost} {p : Fin NPROC}

theorem Sys.congr_mem (hs : Sys s g) (hmem : s'.mem = s.mem) (hfree : s'.freelist = s.freelist)
    (hhfree : s'.freehugelist = s.freehugelist) : Sys s' g :=
  hs.congr hfree hhfree (fun _ _ _ => hmem ▸ SameOn.refl _ _ _) fun _ _ _ => hmem ▸ SameOn.refl _ _ _

theorem ProcInv.congr (h : ProcInv s g p) (hmem : s'.mem = s.mem) (hproc : s'.proc p = s.proc p) :
    ProcInv s' g p := by
  refine ⟨?_, ?_, ?_, ?_, ?_⟩ <;> rw [hproc]
  · intro hlive
    obtain ⟨d, hd, hrole, hpgdir, hkern, hlayout⟩ := h.dir hlive
    exact ⟨d, hd, hrole, hproc ▸ hpgdir, hmem ▸ hkern, by rwa [hproc, hmem]⟩
  · exact h.dir_of
  · exact h.kstack
  · exact h.kstack_of
  · exact h.embryo

/-- Only the record of process `p` and fields that no invariant reads have changed. -/
theorem Others.congr (h : Others p s g) (hmem : s'.mem = s.mem) (hkpgdir : s'.kpgdir = s.kpgdir)
    (hproc : ∀ q, q ≠ p → s'.proc q = s.proc q) (hfile : s'.file = s.file) (hcpustack : s'.cpustack = s.cpustack) :
    Others p s' g where
  kern := by
    refine ⟨?_, ?_⟩ <;> rw [hkpgdir]
    · rw [hmem]
      exact h.kern.dir
    · exact h.kern.dir_of
  proc q hq := (h.proc q hq).congr hmem (hproc q hq)
  cpu := by
    refine ⟨?_, ?_, ?_⟩ <;> rw [hcpustack]
    · exact h.cpu.nodup
    · exact h.cpu.stack
    · exact h.cpu.stack_of
  files := by
    obtain ⟨hclosed, hpipe, hinj, hend, hheld⟩ := h.files
    rw [← hfile] at hclosed hpipe hinj hend
    rw [← hmem] at hpipe hend hheld
    exact ⟨hclosed, hpipe, hinj, hend, hheld⟩

end congr

end xv6
