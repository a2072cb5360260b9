import Xv6.System.CopySpace

open bytes chain

namespace xv6

/-- The list from `freelist` ends and consists of the frames `L`. -/
def FreeList (s : Machine) (L : List Nat) : Prop := (∀ x ∈ L, IsFrame x) ∧ Chain (load32 s.mem) P2V s.freelist L

/-- The list from `freehugelist` ends and consists of the huge frames `L`. -/
def FreeHugeList (s : Machine) (L : List Nat) : Prop := (∀ x ∈ L, IsHuge x) ∧ Chain (load32 s.mem) P2V s.freehugelist L

/-- The uses that the kernel has for a base frame. -/
inductive Spot where
  | free
  | kernel (a : Place)
  | proc (p : Fin NPROC) (a : Place)
  | kstack (p : Fin NPROC)
  | pipe
  | cpustack
  deriving DecidableEq

/-- Frame `x` has a use, as the lists, tables and records of the machine show it. -/
def Spot.Has (s : Machine) (x : Nat) : Spot → Prop
  | .free => ∃ L, FreeList s L ∧ x ∈ L
  | .kernel a => frameAt s.mem (V2P s.kpgdir) a = some x
  | .proc p a => (s.proc p).state ≠ .UNUSED ∧ frameAt s.mem (V2P (s.proc p).pgdir) a = some x
  | .kstack p => (s.proc p).state ≠ .UNUSED ∧ (s.proc p).kstack = P2V x
  | .pipe => ∃ f, (s.file f).type = .FD_PIPE ∧ (s.file f).pipe = P2V x
  | .cpustack => P2V x ∈ s.cpustack

/-- The uses that the kernel has for a huge frame. -/
inductive HugeSpot where
  | free
  | proc (p : Fin NPROC) (i : Nat)
  deriving DecidableEq

def HugeSpot.Has (s : Machine) (x : Nat) : HugeSpot → Prop
  | .free => ∃ L, FreeHugeList s L ∧ x ∈ L
  | .proc p i => (s.proc p).state ≠ .UNUSED ∧ frameAt s.mem (V2P (s.proc p).pgdir) (.huge i) = some x

/-- The place `a` of a directory with that owner. -/
def DirOwner.spot (a : Place) : DirOwner → Option Spot
  | .kernel => some (.kernel a)
  | .proc p => some (.proc p a)
  | .temp => none

/-- The use that goes with a role. -/
def Ghost.spot (g : Ghost) : Role → Option Spot
  | .free => some .free
  | .temp => none
  | .dir o => o.spot .dir
  | .table d i => match g.own d with
    | .dir o => o.spot (.table i)
    | _ => none
  | .page d i j => match g.own d with
    | .dir o => o.spot (.page (1024 * i + j))
    | _ => none
  | .kstack p => some (.kstack p)
  | .pipe => some .pipe
  | .stack => some .cpustack

def Ghost.hugeSpot (g : Ghost) : HugeRole → Option HugeSpot
  | .free => some .free
  | .temp => none
  | .page d i => match g.own d with
    | .dir (.proc p) => some (.proc p i)
    | _ => none

section places

variable {s : Machine} {g : Ghost} {x d i : Nat} {p : Fin NPROC} {o : DirOwner} {a : Place}

theorem Sys.freeList_iff (hs : Sys s g) {L : List Nat} : FreeList s L ↔ L = g.free := by
  have hfree (y : Nat) (hy : y ∈ g.free) : IsFrame y := ((hs.mem_free y).1 hy).1
  refine ⟨fun h => ?_, fun h => h ▸ ⟨hfree, hs.chain⟩⟩
  exact Chain.unique (fun _ _ hx hy => hx.inj hy) (fun _ hy => hy.ne_zero) h.2 hs.chain h.1 hfree

theorem Sys.freeHugeList_iff (hs : Sys s g) {L : List Nat} : FreeHugeList s L ↔ L = g.hfree := by
  have hfree (y : Nat) (hy : y ∈ g.hfree) : IsHuge y := ((hs.mem_hfree y).1 hy).1
  refine ⟨fun h => ?_, fun h => h ▸ ⟨hfree, hs.hchain⟩⟩
  refine Chain.unique (fun x y hx hy => ?_) (fun y hy => ?_) h.2 hs.hchain h.1 hfree
  · have hxlt := hx.lt
    have hylt := hy.lt
    exact P2V_inj (by omega) (by omega)
  · have hylt := hy.lt
    exact P2V_ne_zero (by omega)

theorem Sys.has_free (hs : Sys s g) : Spot.free.Has s x ↔ x ∈ g.free := by
  simp only [Spot.Has, hs.freeList_iff, exists_eq_left]

theorem Sys.has_hugefree (hs : Sys s g) : HugeSpot.free.Has s x ↔ x ∈ g.hfree := by
  simp only [HugeSpot.Has, hs.freeHugeList_iff, exists_eq_left]

/-- A frame in a place of a directory has the use that the owner of the directory has for it. -/
theorem Place.Role.spot (hx : IsFrame x) (hdir : g.own d = .dir o) (h : a.Role g d x) : g.spot (g.own x) = o.spot a := by
  cases a with
  | dir =>
    obtain ⟨-, rfl⟩ := h
    rw [hdir]
    rfl
  | table i =>
    rw [h.2]
    simp only [Ghost.spot, hdir]
  | page k =>
    rw [h.2]
    simp only [Ghost.spot, hdir, Nat.div_add_mod]
  | huge i => exact (not_huge_of_frame hx h.1).elim

/-- Directory `d` has a frame in the place that its role says. -/
theorem Sys.frameAt_of_role (hs : Sys s g) (hx : IsFrame x) (h : a.Role g d x) :
    frameAt s.mem d a = some x := by
  cases a with
  | dir => rw [frameAt, h.2]
  | table i =>
    obtain ⟨-, hi, hpde, -⟩ := hs.table_up x d i hx h.2
    have halign := hx.1
    simp only [frameAt, hasFlag_P, hasFlag_PS]
    rw [hpde, if_pos ⟨hi, by omega, by omega⟩, PTE_ADDR_add halign (by omega)]
  | page k =>
    obtain ⟨hi, -, -⟩ := hs.page_up x d _ _ hx h.2
    obtain ⟨fl, hfl, hodd, hlook⟩ := hs.lookup_page hx h.2
    rw [Nat.div_add_mod] at hlook
    rw [frameAt, hlook, if_pos ⟨by omega, by omega⟩, PTE_ADDR_add hx.1 hfl]
  | huge i => exact (not_huge_of_frame hx h.1).elim

/-- The owner of a directory has a use for each frame in it. -/
theorem Sound.has_of_frameAt (h : Sound s g) (hd : IsFrame d) (hdir : g.own d = .dir o) (hat : frameAt s.mem d a = some x) :
    ∃ b, o.spot a = some b ∧ b.Has s x := by
  cases o with
  | kernel =>
    refine ⟨.kernel a, rfl, ?_⟩
    rw [Spot.Has, h.kern.dir_of d hd hdir, hd.phys]
    exact hat
  | proc p =>
    obtain ⟨hlive, hpgdir⟩ := (h.proc p).dir_of d hd hdir
    refine ⟨.proc p a, rfl, hlive, ?_⟩
    rw [hpgdir, hd.phys]
    exact hat
  | temp => exact absurd hdir (h.settled d hd).2

/-- The uses of a base frame are those that its role says. -/
theorem Sound.spot_of_has (h : Sound s g) (hx : IsFrame x) {b : Spot} (hb : b.Has s x) : g.spot (g.own x) = some b := by
  cases b with
  | free => rw [((h.sys.mem_free x).1 (h.sys.has_free.1 hb)).2, Ghost.spot]
  | kernel a =>
    obtain ⟨d, hd, hdir, hkpgdir, -⟩ := h.kern.dir
    rw [Spot.Has, hkpgdir, hd.phys] at hb
    rw [(h.sys.role_of_frameAt hd hdir hb).spot hx hdir, DirOwner.spot]
  | proc p a =>
    obtain ⟨hlive, hb⟩ := hb
    obtain ⟨d, hd⟩ := (h.proc p).dir hlive
    rw [hd.phys] at hb
    rw [(h.sys.role_of_frameAt hd.frame hd.role hb).spot hx hd.role, DirOwner.spot]
  | kstack p =>
    obtain ⟨hlive, hb⟩ := hb
    obtain ⟨k, hk, hrole, hkstack⟩ := (h.proc p).kstack hlive
    rw [hx.inj hk (hb.symm.trans hkstack), hrole, Ghost.spot]
  | pipe =>
    obtain ⟨f, htype, hb⟩ := hb
    obtain ⟨k, hk, hrole, hpipe, -⟩ := h.files.pipe f htype
    rw [hx.inj hk (hb.symm.trans hpipe), hrole, Ghost.spot]
  | cpustack =>
    obtain ⟨k, hk, hrole, heq⟩ := h.cpu.stack _ hb
    rw [hx.inj hk heq, hrole, Ghost.spot]

/-- A base frame has a use. -/
theorem Sound.has (h : Sound s g) (hx : IsFrame x) : ∃ b : Spot, b.Has s x := by
  cases hrole : g.own x with
  | free => exact ⟨.free, h.sys.has_free.2 ((h.sys.mem_free x).2 ⟨hx, hrole⟩)⟩
  | temp => exact absurd hrole (h.settled x hx).1
  | dir o =>
    obtain ⟨b, -, hb⟩ := h.has_of_frameAt hx hrole (a := .dir) rfl
    exact ⟨b, hb⟩
  | table d i =>
    obtain ⟨hd, -, -, o, hdir⟩ := h.sys.table_up x d i hx hrole
    obtain ⟨b, -, hb⟩ := h.has_of_frameAt hd hdir (h.sys.frameAt_of_role (a := .table i) hx ⟨hx, hrole⟩)
    exact ⟨b, hb⟩
  | page d i j =>
    obtain ⟨-, hj, t, -, ht, htable, -⟩ := h.sys.page_up x d i j hx hrole
    obtain ⟨hd, -, -, o, hdir⟩ := h.sys.table_up t d i ht htable
    have hplace : (Place.page (1024 * i + j)).Role g d x := by
      refine ⟨hx, ?_⟩
      rw [hrole, show (1024 * i + j) / 1024 = i by omega, show (1024 * i + j) % 1024 = j by omega]
    obtain ⟨b, -, hb⟩ := h.has_of_frameAt hd hdir (h.sys.frameAt_of_role hx hplace)
    exact ⟨b, hb⟩
  | kstack p => exact ⟨.kstack p, (h.proc p).kstack_of x hx hrole⟩
  | pipe =>
    obtain ⟨w, hopen⟩ := h.files.held x hx hrole
    obtain ⟨f, htype, -, hpipe⟩ := h.files.end_of x w hx hrole hopen
    exact ⟨.pipe, f, htype, hpipe⟩
  | stack => exact ⟨.cpustack, h.cpu.stack_of x hx hrole⟩

/-- A base frame has exactly one use. -/
theorem Sound.one_spot (h : Sound s g) (hx : IsFrame x) : ∃! b : Spot, b.Has s x := by
  obtain ⟨b, hb⟩ := h.has hx
  refine ⟨b, hb, fun b' hb' => ?_⟩
  exact Option.some.inj ((h.spot_of_has hx hb').symm.trans (h.spot_of_has hx hb))

theorem Sound.hugeSpot_of_has (h : Sound s g) {b : HugeSpot} (hb : b.Has s x) : g.hugeSpot (g.hown x) = some b := by
  cases b with
  | free => rw [((h.sys.mem_hfree x).1 (h.sys.has_hugefree.1 hb)).2, Ghost.hugeSpot]
  | proc p i =>
    obtain ⟨hlive, hb⟩ := hb
    obtain ⟨d, hd⟩ := (h.proc p).dir hlive
    rw [hd.phys] at hb
    rw [(h.sys.role_of_frameAt hd.frame hd.role hb).2]
    simp only [Ghost.hugeSpot, hd.role]

/-- A huge frame has at most one use. -/
theorem Sound.hugeSpot_unique (h : Sound s g) {b b' : HugeSpot} (hb : b.Has s x) (hb' : b'.Has s x) : b = b' :=
  Option.some.inj ((h.hugeSpot_of_has hb).symm.trans (h.hugeSpot_of_has hb'))

/-- A huge frame that has not been lost has exactly one use. -/
theorem Sound.one_hugeSpot (h : Sound s g) (hx : IsHuge x) (hkept : g.hown x ≠ .temp) : ∃! b : HugeSpot, b.Has s x := by
  have hhas : ∃ b : HugeSpot, b.Has s x := by
    cases hrole : g.hown x with
    | free => exact ⟨.free, h.sys.has_hugefree.2 ((h.sys.mem_hfree x).2 ⟨hx, hrole⟩)⟩
    | temp => exact absurd hrole hkept
    | page d i =>
      obtain ⟨hd, hi, hpde, o, hdir⟩ := h.sys.huge_up x d i hx hrole
      have hat := h.sys.hugeAt_page hx hrole
      have halign := hx.1
      have hframe : frameAt s.mem d (.huge i) = some x := by
        rw [frameAt, hat, if_pos ⟨hi, by omega⟩, PTE_ADDR_add (by omega) (by omega)]
      cases o with
      | kernel =>
        -- The kernel's own directory maps nothing in the user half.
        obtain ⟨d', hd', hdir', hkpgdir, -, hlow⟩ := h.kern.dir
        obtain rfl := hd.inj hd' ((h.kern.dir_of d hd hdir).symm.trans hkpgdir)
        rw [hlow i hi] at hpde
        omega
      | proc p =>
        obtain ⟨hlive, hpgdir⟩ := (h.proc p).dir_of d hd hdir
        refine ⟨.proc p i, hlive, ?_⟩
        rw [hpgdir, hd.phys]
        exact hframe
      | temp => exact absurd hdir (h.settled d hd).2
  obtain ⟨b, hb⟩ := hhas
  exact ⟨b, hb, fun b' hb' => h.hugeSpot_unique hb' hb⟩

/-- What a process reaches in user mode is one of its pages. -/
theorem Sound.access_spot (h : Sound s g) (hlive : (s.proc p).state ≠ .UNUSED) {va pa : Nat} (hva : va < 2 ^ 32)
    (hpa : userAccess s.mem (V2P (s.proc p).pgdir) va = some pa) :
    va < KERNBASE ∧
    ((∃ x, (Spot.proc p (.page (va / 4096))).Has s x ∧ IsFrame x ∧ pa = x + va % 4096) ∨
      ∃ x, (HugeSpot.proc p (va / 0x400000)).Has s x ∧ IsHuge x ∧ pa = x + va % 0x400000) := by
  obtain ⟨d, hd⟩ := (h.proc p).dir hlive
  rw [hd.phys] at hpa
  have hlow : va < 0x80000000 := by
    by_contra hhigh
    rw [hd.kern.userAccess_eq_none h.sys hd.frame hd.role (by omega) hva] at hpa
    cases hpa
  refine ⟨hlow, ?_⟩
  rcases h.sys.translate_user hd.frame hd.role hlow with ⟨hnone, -, -⟩ | ⟨f, fl, hf, -, hfl, hodd, hlook, -, hsome⟩ |
    ⟨f, hf, -, hat, -, hsome⟩
  · rw [userAccess, hnone] at hpa
    cases hpa
  · rw [userAccess, hsome] at hpa
    simp only [Option.ite_none_right_eq_some, Option.some.injEq] at hpa
    refine .inl ⟨f, ⟨hlive, ?_⟩, hf, hpa.2.symm⟩
    rw [hd.phys, frameAt, hlook, if_pos ⟨by omega, by omega⟩, PTE_ADDR_add hf.1 hfl]
  · rw [userAccess, hsome] at hpa
    simp only [if_true, Option.some.injEq] at hpa
    have halign := hf.1
    refine .inr ⟨f, ⟨hlive, ?_⟩, hf, hpa.symm⟩
    rw [hd.phys, frameAt, hat, if_pos ⟨by omega, by omega⟩, PTE_ADDR_add (by omega) (by omega)]

/-- No byte of memory is within reach of two processes. -/
theorem Sound.access_apart (h : Sound s g) {q : Fin NPROC} (hp : (s.proc p).state ≠ .UNUSED) (hq : (s.proc q).state ≠ .UNUSED)
    (hne : p ≠ q) {va va' pa : Nat} (hva : va < 2 ^ 32) (hva' : va' < 2 ^ 32)
    (hpa : userAccess s.mem (V2P (s.proc p).pgdir) va = some pa) :
    userAccess s.mem (V2P (s.proc q).pgdir) va' ≠ some pa := by
  intro hpa'
  rcases (h.access_spot hp hva hpa).2 with ⟨x, hx, hf, rfl⟩ | ⟨x, hx, hf, rfl⟩ <;>
    rcases (h.access_spot hq hva' hpa').2 with ⟨y, hy, hf', heq⟩ | ⟨y, hy, hf', heq⟩
  · have hxy : x = y := by
      have := hf.1
      have := hf'.1
      omega
    subst hxy
    have := (h.one_spot hf).unique hx hy
    exact hne (Spot.proc.inj this).1
  · have := hf.apart_huge hf'
    omega
  · have := hf'.apart_huge hf
    omega
  · have hxy : x = y := by
      have := hf.1
      have := hf'.1
      omega
    subst hxy
    exact hne (HugeSpot.proc.inj (h.hugeSpot_unique hx hy)).1

end places

end xv6
