import Xv6.System.Grow
import Xv6.System.Slot
import Xv6.Vm.Copyout

open bytes outcome Function

namespace xv6

/-- The invariant of the kernel between two system calls. Every base frame is in its
place; huge frames may have been lost, which is what `freevm` does to them. -/
structure Sound (s : Machine) (g : Ghost) : Prop where
  sys : Sys s g
  settled : ∀ f, IsFrame f → g.own f ≠ .temp ∧ g.own f ≠ .dir .temp
  kern : KernInv s g
  proc : ∀ p, ProcInv s g p
  cpu : StackInv s g
  files : FileInv s g

/-- The frames of process `p`: its page directory `d` and its kernel stack `k`. -/
structure Holds (s : Machine) (g : Ghost) (p : Fin NPROC) (d k : Nat) : Prop extends ProcDir s g p d where
  dir_eq : ∀ f, IsFrame f → g.own f = .dir (.proc p) → f = d
  stack : IsFrame k
  kstack : (s.proc p).kstack = P2V k
  kstack_iff : ∀ f, IsFrame f → (g.own f = .kstack p ↔ f = k)

/-- Directory `d` translates every address as before, and its user finds the same bytes. -/
def SameUser (d : Nat) (m m' : Mem) : Prop :=
  ∀ va < 2 ^ 32, translate m' d va = translate m d va ∧ ∀ pa, userAccess m d va = some pa → m' pa = m pa

/-- A step on behalf of process `p`, whose record and frames may be in any state. Everything else is as it was. -/
structure Aside (p : Fin NPROC) (s : Machine) (g : Ghost) (s' : Machine) (g' : Ghost) : Prop where
  sys : Sys s' g'
  settled : ∀ f, IsFrame f → g'.own f ≠ .temp ∧ g'.own f ≠ .dir .temp
  others : Others p s' g'
  proc : ∀ q, q ≠ p → s'.proc q = s.proc q
  user : ∀ q, q ≠ p → (s.proc q).state ≠ .UNUSED → SameUser (V2P (s.proc q).pgdir) s.mem s'.mem
  initproc : s'.initproc = s.initproc

/-- What becomes of the huge frames of directory `d` when it is torn down. -/
def DropArea (d : Nat) (r : HugeRole) : Prop := r = .temp ∨ ∃ i, r = .page d i

/-- The first words of the huge pages of process `p` are even, so that `freevm` takes none of them
for a present entry. -/
def HugeQuiet (s : Machine) (p : Fin NPROC) : Prop :=
  ∀ i : Nat, 120 ≤ i → 0x400000 * (i - 120) < (s.proc p).hugesz →
    load32 s.mem (PTE_ADDR (hugeAt s.mem (V2P (s.proc p).pgdir) i)) % 2 = 0

/-- No huge frame gets lost. -/
def Saved (g g' : Ghost) : Prop := ∀ f, IsHuge f → g'.hown f = .temp → g.hown f = .temp

section sound

variable {s s' s'' : Machine} {g g' g'' : Ghost} {p : Fin NPROC} {d k x : Nat} {H : HugeRole → Prop} {o : DirOwner}

theorem ProcDir.phys (h : ProcDir s g p d) : V2P (s.proc p).pgdir = d := h.pgdir ▸ h.frame.phys

theorem Sound.others (h : Sound s g) (p : Fin NPROC) : Others p s g := ⟨h.kern, fun q _ => h.proc q, h.cpu, h.files⟩

theorem Others.sound (h : Others p s g) (hs : Sys s g) (hset : ∀ f, IsFrame f → g.own f ≠ .temp ∧ g.own f ≠ .dir .temp)
    (hp : ProcInv s g p) : Sound s g where
  sys := hs
  settled := hset
  kern := h.kern
  proc q := by
    by_cases hq : q = p
    · subst hq
      exact hp
    · exact h.proc q hq
  cpu := h.cpu
  files := h.files

theorem Sound.holds (h : Sound s g) (hlive : (s.proc p).state ≠ .UNUSED) : ∃ d k, Holds s g p d k := by
  obtain ⟨d, hd⟩ := (h.proc p).dir hlive
  obtain ⟨k, hk, hrole, hkstack⟩ := (h.proc p).kstack hlive
  refine ⟨d, k, hd, fun f hf hrole' => ?_, hk, hkstack, fun f hf => ⟨fun hrole' => ?_, fun heq => heq ▸ hrole⟩⟩
  · exact hf.inj hd.frame (((h.proc p).dir_of f hf hrole').2.symm.trans hd.pgdir)
  · exact hf.inj hk (((h.proc p).kstack_of f hf hrole').2.symm.trans hkstack)

theorem Holds.inv (h : Holds s g p d k) (hlive : (s.proc p).state ≠ .UNUSED) (hborn : (s.proc p).state ≠ .EMBRYO) :
    ProcInv s g p where
  dir _ := ⟨d, h.toProcDir⟩
  dir_of f hf hrole := ⟨hlive, by rw [h.dir_eq f hf hrole, h.pgdir]⟩
  kstack _ := ⟨k, h.stack, (h.kstack_iff k h.stack).2 rfl, h.kstack⟩
  kstack_of f hf hrole := ⟨hlive, by rw [(h.kstack_iff f hf).1 hrole, h.kstack]⟩
  embryo := hborn

theorem Holds.kstack_ne (h : Holds s g p d k) : (s.proc p).kstack ≠ 0 := by
  rw [h.kstack]
  exact h.stack.ne_zero

theorem Holds.ne (h : Holds s g p d k) : d ≠ k := by
  intro heq
  have hrole := (h.kstack_iff d h.frame).2 heq
  rw [h.role] at hrole
  cases hrole

/-- A step on another frame keeps the frames of a process. -/
theorem Holds.within (h : Holds s g p d k) (hs : Sys s g) (hw : Within (WholeArea x) H s g s' g') (hd : d ≠ x) (hk : k ≠ x)
    (hfix : (g.own x).fixed ∨ g.own x = .free) (hx : g'.own x ≠ .dir (.proc p) ∧ g'.own x ≠ .kstack p) :
    Holds s' g' p d k where
  toProcDir := h.toProcDir.within hs hw hd hfix
  dir_eq f hf hrole := by
    have hne : f ≠ x := fun heq => hx.1 (heq ▸ hrole)
    exact h.dir_eq f hf ((hw.own_iff hf hne rfl).1 hrole)
  stack := h.stack
  kstack := by
    rw [hw.rest]
    exact h.kstack
  kstack_iff f hf := by
    by_cases hne : f = x
    · subst hne
      exact iff_of_false hx.2 hk.symm
    exact (hw.own_iff hf hne rfl).trans (h.kstack_iff f hf)

theorem settled_within (h : ∀ f, IsFrame f → g.own f ≠ .temp ∧ g.own f ≠ .dir .temp)
    (hw : Within (WholeArea x) H s g s' g') (hx : g'.own x ≠ .temp ∧ g'.own x ≠ .dir .temp) (f : Nat) (hf : IsFrame f) :
    g'.own f ≠ .temp ∧ g'.own f ≠ .dir .temp := by
  by_cases hne : f = x
  · subst hne
    exact hx
  exact ⟨fun hrole => (h f hf).1 ((hw.own_iff hf hne rfl).1 hrole), fun hrole => (h f hf).2 ((hw.own_iff hf hne rfl).1 hrole)⟩

/-- A step on another frame or directory, to which the huge frames of directory `d` do not belong. -/
theorem Within.sameUser (hw : Within (WholeArea x) H s g s' g') (hs : Sys s g) (hs' : Sys s' g') (hd : IsFrame d)
    (hdir : g.own d = .dir o) (hk : KernOK s.mem d) (hne : d ≠ x) (hfix : (g.own x).fixed ∨ g.own x = .free)
    (hH : ∀ i, ¬ H (.page d i)) : SameUser d s.mem s'.mem := by
  have hout := Outside.of_ne hne hdir hfix
  have hview := hw.view_eq hs hd hdir hout
  have hdir' : g'.own d = .dir o := (hw.own_iff hd hne rfl).2 hdir
  intro va hva
  have htrans : translate s'.mem d va = translate s.mem d va := by
    rw [hs.translate_eq hd hdir hva, hs'.translate_eq hd hdir' hva, hview.1 _ (by omega), hugeAt_congr (hview.2 _ (by omega))]
  refine ⟨htrans, fun pa hpa => ?_⟩
  have hlow : va < 0x80000000 := by
    by_contra hhigh
    rw [hk.userAccess_eq_none hs hd hdir (by omega) hva] at hpa
    cases hpa
  rcases hs.translate_user hd hdir hlow with ⟨hnone, -, -⟩ | ⟨f, fl, hf, hpage, -, -, -, -, hsome⟩ |
    ⟨f, hf, hpage, -, -, hsome⟩
  · rw [userAccess, hnone] at hpa
    cases hpa
  · rw [userAccess, hsome] at hpa
    simp only [Option.ite_none_right_eq_some, Option.some.injEq] at hpa
    exact hw.same f hf (hout.page f _ _ hpage) pa (by omega) (by omega)
  · rw [userAccess, hsome] at hpa
    simp only [if_true, Option.some.injEq] at hpa
    exact hw.hsame f hf (hpage ▸ hH _) pa (by omega) (by omega)

/-- A step on a frame or a directory of process `p` leaves the memory of the others alone. -/
theorem Others.sameUser {q : Fin NPROC} (h : Others p s g) (hs : Sys s g) (hs' : Sys s' g')
    (hw : Within (WholeArea x) H s g s' g') (hx : (g.own x).Private p) (hH : ∀ d i, H (.page d i) → d = x) (hq : q ≠ p)
    (hlive : (s.proc q).state ≠ .UNUSED) : SameUser (V2P (s.proc q).pgdir) s.mem s'.mem := by
  obtain ⟨d, hd⟩ := (h.proc q hq).dir hlive
  have hne : d ≠ x := by
    rintro rfl
    rw [hd.role] at hx
    exact hq hx
  rw [hd.phys]
  exact hw.sameUser hs hs' hd.frame hd.role hd.kern hne hx.fixed_or fun i hi => hne (hH d i hi)

theorem HugeArea.dir_eq {i : Nat} (h : HugeArea x (.page d i)) : d = x := by
  rcases h with h | ⟨i, h⟩
  · cases h
  · exact (HugeRole.page.inj h).1

theorem DropArea.dir_eq {i : Nat} (h : DropArea x (.page d i)) : d = x := by
  rcases h with h | ⟨i, h⟩
  · cases h
  · exact (HugeRole.page.inj h).1

/-- Tearing down directory `d` is a step on that directory. -/
theorem Freed.within (h : Freed (OwnedBy g d) s { g with hown := (g.drop d).hown } s' g') :
    Within (WholeArea d) (DropArea d) s g s' g' where
  role f hf := by
    by_cases hown : OwnedBy g d f
    · refine .inl ⟨?_, .inr (.inl (h.freed f hf hown))⟩
      rcases hown with rfl | htable | hpage
      · exact .inl rfl
      · exact .inr (.inr (.inl htable))
      · exact .inr (.inr (.inr hpage))
    · exact .inr (h.kept f hf hown)
  same f hf hout := by
    refine h.same f hf (fun hown => hout ?_) fun hfree => hout (.inr (.inl hfree))
    rcases hown with rfl | htable | hpage
    · exact .inl rfl
    · exact .inr (.inr (.inl htable))
    · exact .inr (.inr (.inr hpage))
  hrole f hf := by
    have hrole := h.hown f hf
    simp only [Ghost.drop] at hrole
    split_ifs at hrole with hof
    · exact .inl ⟨.inr hof, .inl hrole⟩
    · exact .inr hrole
  hsame f hf _ := h.hsame f hf
  rest := h.rest

theorem HugeQuiet.quiet (h : HugeQuiet s p) (hd : ProcDir s g p d) : Quiet s.mem d 0 (2 ^ 19) := by
  refine ⟨.inl rfl, fun i f _ hi hf hpde => ?_⟩
  have halign := hf.1
  have hat : hugeAt s.mem d i = f + 0x87 := by rw [hugeAt_of_huge (by omega) (by omega), hpde]
  have hslot := (hd.layout.huge i (by omega)).1 (by omega)
  have heven := h i hslot.1 hslot.2
  rw [hd.phys, hat, PTE_ADDR_add (by omega) (by omega)] at heven
  exact heven

/-- Frames that were taken and given back leave what the users see as it was. -/
theorem Idle.sameUser {q : Fin NPROC} (h : Idle s g s' g') (hs : Sys s g) (hs' : Sys s' g') (hd : ProcDir s g q d)
    (hkrole : g.own k = .kstack p) : SameUser d s.mem s'.mem := by
  have hw : Within (WholeArea k) (fun _ => False) s g s' g' := h.toWithin.mono (fun _ _ hr => .inr (.inl hr)) fun _ hr => hr
  have hne : d ≠ k := by
    rintro rfl
    exact absurd (hkrole.symm.trans hd.role) (by simp)
  exact hw.sameUser hs hs' hd.frame hd.role hd.kern hne (.inl (by simp [hkrole, Role.fixed])) fun _ => id

theorem SameUser.refl (d : Nat) (m : Mem) : SameUser d m m := fun _ _ => ⟨rfl, fun _ _ => rfl⟩

theorem SameUser.access {m m' : Mem} {va : Nat} (h : SameUser d m m') (hva : va < 2 ^ 32) :
    userAccess m' d va = userAccess m d va := by rw [userAccess, (h va hva).1, userAccess]

theorem SameUser.trans {m m' m'' : Mem} (h : SameUser d m m') (h' : SameUser d m' m'') : SameUser d m m'' := by
  intro va hva
  obtain ⟨hview, hbyte⟩ := h va hva
  obtain ⟨hview', hbyte'⟩ := h' va hva
  exact ⟨hview'.trans hview, fun pa hpa => (hbyte' pa ((h.access hva).trans hpa)).trans (hbyte pa hpa)⟩

theorem Sound.aside (h : Sound s g) (p : Fin NPROC) : Aside p s g s g :=
  ⟨h.sys, h.settled, h.others p, fun _ _ => rfl, fun _ _ _ => .refl _ _, rfl⟩

theorem Aside.sound (h : Aside p s g s' g') (hp : ProcInv s' g' p) : Sound s' g' := h.others.sound h.sys h.settled hp

/-- A change of the record of process `p`. -/
theorem Aside.record (h : Aside p s g s' g') (heq : s'' = { s' with proc := s''.proc, cr3 := s''.cr3, nextpid := s''.nextpid })
    (hproc : ∀ q, q ≠ p → s''.proc q = s.proc q) : Aside p s g s'' g' where
  sys := h.sys.congr_mem (by rw [heq]) (by rw [heq]) (by rw [heq])
  settled := h.settled
  others := h.others.congr (by rw [heq]) (by rw [heq]) (fun q hq => (hproc q hq).trans (h.proc q hq).symm) (by rw [heq])
    (by rw [heq])
  proc := hproc
  user q hq hlive := by
    rw [heq]
    exact h.user q hq hlive
  initproc := by
    rw [heq]
    exact h.initproc

/-- A step on a frame or a directory of process `p`. -/
theorem Aside.step (h : Aside p s g s' g') (hw : Within (WholeArea x) H s' g' s'' g'') (hs : Sys s'' g'')
    (hx : (g'.own x).Private p) (hx' : (g''.own x).Private p) (hset : g''.own x ≠ .temp ∧ g''.own x ≠ .dir .temp)
    (hH : ∀ d i, H (.page d i) → d = x) : Aside p s g s'' g'' where
  sys := hs
  settled := settled_within h.settled hw hset
  others := h.others.within h.sys hw hx hx'
  proc q hq := by
    rw [hw.rest]
    exact h.proc q hq
  user q hq hlive := by
    have hsame := h.others.sameUser h.sys hs hw hx hH hq (by rwa [h.proc q hq])
    rw [h.proc q hq] at hsame
    exact (h.user q hq hlive).trans hsame
  initproc := by
    rw [hw.rest]
    exact h.initproc

/-- Taking frames and giving them back keeps the invariant. -/
theorem Sound.idle (h : Sound s g) (hlive : (s.proc p).state ≠ .UNUSED) (hidle : Idle s g s' g') (hs' : Sys s' g') :
    Sound s' g' := by
  obtain ⟨d, k, hd⟩ := h.holds hlive
  have hkrole := (hd.kstack_iff k hd.stack).2 rfl
  have hw : Within (WholeArea k) (fun _ => False) s g s' g' := hidle.toWithin.mono (fun _ _ hr => .inr (.inl hr)) fun _ hr => hr
  have hk' : g'.own k = .kstack p := (hidle.own_eq hd.stack).trans hkrole
  have hproc : s'.proc p = s.proc p := by rw [hidle.rest]
  refine ((h.aside p).step hw hs' (by simp [hkrole, Role.Private]) (by simp [hk', Role.Private]) (by simp [hk'])
    fun _ _ => False.elim).sound (Holds.inv (d := d) (k := k) ⟨?_, fun f hf hrole => ?_, hd.stack, ?_, fun f hf => ?_⟩ ?_ ?_)
  · exact hd.toProcDir.within h.sys hw hd.ne (.inl (by simp [hkrole, Role.fixed]))
  · rw [hidle.own_eq hf] at hrole
    exact hd.dir_eq f hf hrole
  · rw [hproc, hd.kstack]
  · rw [hidle.own_eq hf]
    exact hd.kstack_iff f hf
  · rwa [hproc]
  · rw [hproc]
    exact (h.proc p).embryo

theorem Within.saved {A : Nat → Role → Prop} (hw : Within A H s g s' g') (hH : ¬ H .temp) : Saved g g' := by
  intro f hf htemp
  rcases hw.hrole f hf with ⟨-, hto⟩ | heq
  · exact absurd (htemp ▸ hto) hH
  · rwa [heq] at htemp

/-- A change of fields that the invariant does not read. -/
theorem Sound.adjust (h : Sound s g) (heq : s' = { s with cr3 := s'.cr3, initproc := s'.initproc }) : Sound s' g :=
  ((h.others 0).congr (by rw [heq]) (by rw [heq]) (fun _ _ => by rw [heq]) (by rw [heq]) (by rw [heq])).sound
    (h.sys.congr_mem (by rw [heq]) (by rw [heq]) (by rw [heq])) h.settled ((h.proc 0).congr (by rw [heq]) (by rw [heq]))

end sound

section spawn

variable {s s₁ s' : Machine} {g g₁ : Ghost} {np : Fin NPROC} {f d : Nat} {L : List Nat}

/-- A slot that was vacant has got a stack; everything else is as it was. -/
theorem Sound.embryo (h : Sound s g) (np : Fin NPROC) (hfree : g.free = f :: L) :
    Aside np s g (s.embryo np f) (g.embryo np f L) := by
  obtain ⟨-, hrole⟩ := (h.sys.mem_free f).1 (by simp [hfree])
  have hw := within_take s g f (load32 s.mem f) (.kstack np) L
  exact ((h.aside np).step hw (h.sys.take hfree rfl (by simp)) (by simp [hrole, Role.Private]) (by simp [Role.Private]) (by simp)
    fun _ _ => False.elim).record rfl fun q hq => update_of_ne hq _ _

/-- A new process: after `allocproc`, a directory `d` has been built for slot `np`. -/
theorem Sound.spawn (h : Sound s g) (hp : (s.proc np).state = .UNUSED) (hfree : g.free = f :: L) (hd : IsFrame d)
    (hwas : (g.embryo np f L).own d = .free) (hdir : g₁.own d = .dir .temp)
    (hwithin : Within (WholeArea d) (HugeArea d) (s.embryo np f) (g.embryo np f L) s₁ g₁) (hs₁ : Sys s₁ g₁)
    (hkern : KernOK s₁.mem d) (heq : s' = { s₁ with proc := s'.proc }) (hproc : ∀ q, q ≠ np → s'.proc q = s.proc q)
    (hl : Layout s₁.mem d (s'.proc np).sz (s'.proc np).hugesz) (hpgdir : (s'.proc np).pgdir = P2V d)
    (hkstack : (s'.proc np).kstack = P2V f) :
    Aside np s g s' { g₁ with own := update g₁.own d (.dir (.proc np)) } ∧
      Holds s' { g₁ with own := update g₁.own d (.dir (.proc np)) } np d f := by
  obtain ⟨hf, -⟩ := (h.sys.mem_free f).1 (by simp [hfree])
  have hvacant := (h.proc np).vacant hp
  have hrole₁ : (g.embryo np f L).own f = .kstack np := update_self _ _ _
  have hold {x : Nat} (hxf : x ≠ f) : (g.embryo np f L).own x = g.own x := update_of_ne hxf _ _
  have hne : f ≠ d := by
    rintro rfl
    exact absurd (hwas.symm.trans hrole₁) (by simp)
  -- Handing the directory over to the process changes the role of its frame only.
  have hw := hwithin.trans (.give s₁ g₁ d (.dir (.proc np)))
  have hs' := hs₁.give_dir (.proc np) hdir
  obtain ⟨g', hg'⟩ : ∃ g' : Ghost, g' = { g₁ with own := update g₁.own d (.dir (.proc np)) } := ⟨_, rfl⟩
  rw [← hg'] at hw hs' ⊢
  have hd' : g'.own d = .dir (.proc np) := hg' ▸ update_self _ _ _
  refine ⟨((h.embryo np hfree).step hw hs' (by simp [hwas, Role.Private]) (by simp [hd', Role.Private]) (by simp [hd'])
    fun _ _ => HugeArea.dir_eq).record (by rw [heq]) hproc, ⟨hd, hd', hpgdir, ?_, ?_⟩, fun x hx hrole => ?_, hf, hkstack,
    fun x hx => ⟨fun hrole => ?_, ?_⟩⟩
  · rwa [heq]
  · rwa [heq]
  · by_contra hxd
    replace hrole := (hw.own_iff hx hxd rfl).1 hrole
    by_cases hxf : x = f
    · rw [hxf, hrole₁] at hrole
      cases hrole
    · exact hvacant.dir x hx ((hold hxf).symm.trans hrole)
  · by_contra hxf
    have hxd : x ≠ d := by
      rintro rfl
      rw [hd'] at hrole
      cases hrole
    exact hvacant.kstack x hx ((hold hxf).symm.trans ((hw.own_iff hx hxd rfl).1 hrole))
  · rintro rfl
    exact (hw.own_iff hf hne rfl).2 hrole₁

end spawn

end xv6
