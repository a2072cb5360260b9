import Xv6.Exec.Loader
import Xv6.System.Safety

open bytes chain outcome refcount run Function

namespace xv6

section layout

variable {K : Fin NPROC → Machine → Event → Prop} {s : Machine} {g : Ghost} {p : Fin NPROC} {d va sz hugesz : Nat} {o : DirOwner}

/-- The addresses of the user half that a directory with a layout maps. -/
theorem Layout.translate_iff (hl : Layout s.mem d sz hugesz) (hs : Sys s g) (hd : IsFrame d) (hdir : g.own d = .dir o)
    (hva : va < KERNBASE) :
    ((∃ t, translate s.mem d va = some t ∧ t.huge = false) ↔ va < PGROUNDUP sz) ∧
    ((∃ t, translate s.mem d va = some t ∧ t.huge = true) ↔
      HUGE_VA_OFFSET ≤ va ∧ va < HUGE_VA_OFFSET + HUGEPGROUNDUP hugesz) := by
  have hsz := hl.sz_le hs hd hdir
  have hhsz := hl.hugesz_le hs hd hdir
  have hbase := hl.base (va / 4096) (by simp only [KERNBASE] at hva; omega)
  have hhuge := hl.huge (va / 0x400000) (by simp only [KERNBASE] at hva; omega)
  have hup : PGROUNDUP sz = (sz + 4095) / 4096 * 4096 := by
    simp only [PGROUNDUP, u32, PGSIZE]
    omega
  have hhup : HUGEPGROUNDUP hugesz = (hugesz + 0x3FFFFF) / 0x400000 * 0x400000 := by
    simp only [HUGEPGROUNDUP, u32]
    omega
  rw [hup, hhup]
  simp only [HUGE_VA_OFFSET]
  rcases hs.translate_user hd hdir hva with ⟨hnone, hz, hz'⟩ | ⟨f, fl, hf, -, -, -, hlook, hz, hsome⟩ |
    ⟨f, hf, -, hat, hz', hsome⟩
  · rw [hz, ne_self_iff_false, false_iff] at hhuge
    rw [hz', ne_self_iff_false, false_iff] at hbase
    exact ⟨iff_of_false (by simp [hnone]) (by omega), iff_of_false (by simp [hnone]) (by omega)⟩
  · have hin := hbase.1 (by have := hf.2.1; omega)
    exact ⟨iff_of_true ⟨_, hsome, rfl⟩ (by omega), iff_of_false (by simp [hsome]) (by omega)⟩
  · have hin := hhuge.1 (by omega)
    exact ⟨iff_of_false (by simp [hsome]) (by omega), iff_of_true ⟨_, hsome, rfl⟩ (by omega)⟩

/-- In every run a process has base pages exactly below its size and huge pages exactly in its huge heap, and the
two do not meet. -/
theorem layout_kept (h : Reachable Booted (Step K) s) (hp : (s.proc p).state ≠ .UNUSED) :
    (s.proc p).sz ≤ PHYSTOP ∧ (s.proc p).hugesz ≤ HUGE_PAGE_END - HUGE_PAGE_START ∧
    ∀ va < KERNBASE,
      ((∃ t, translate s.mem (V2P (s.proc p).pgdir) va = some t ∧ t.huge = false) ↔ va < PGROUNDUP (s.proc p).sz) ∧
      ((∃ t, translate s.mem (V2P (s.proc p).pgdir) va = some t ∧ t.huge = true) ↔
        HUGE_VA_OFFSET ≤ va ∧ va < HUGE_VA_OFFSET + HUGEPGROUNDUP (s.proc p).hugesz) := by
  obtain ⟨g, hstable⟩ := reachable_stable h
  have hs := hstable.sound.sys
  obtain ⟨d, hd⟩ := (hstable.sound.proc p).dir hp
  have hsz := hd.layout.sz_le hs hd.frame hd.role
  rw [hd.phys]
  exact ⟨by simp only [PHYSTOP]; omega, hd.layout.hugesz_le hs hd.frame hd.role,
    fun va hva => hd.layout.translate_iff hs hd.frame hd.role hva⟩

theorem layout_kept_two : ∃ (s : Machine) (p q : Fin NPROC), p ≠ q ∧ (s.proc q).state = .RUNNABLE ∧ (s.proc p).sz ≤ PHYSTOP ∧
    ∀ va < KERNBASE,
      (∃ t, translate s.mem (V2P (s.proc p).pgdir) va = some t ∧ t.huge = false) ↔ va < PGROUNDUP (s.proc p).sz := by
  obtain ⟨s, p, q, hne, h, hp, hq, -⟩ := reachable_two
  obtain ⟨hsz, -, hmap⟩ := layout_kept h (by rw [hp]; simp)
  exact ⟨s, p, q, hne, hq, hsz, fun va hva => (hmap va hva).1⟩

end layout

section pointers

variable {K : Fin NPROC → Machine → Event → Prop} {s : Machine} {p : Fin NPROC}

/-- Every byte of a block that `argptr` accepts, and of a string that `fetchstr` accepts, is memory of the process
that the kernel can write. -/
theorem pointers_mapped (h : Reachable Booted (Step K) s) (hrun : (s.proc p).state = .RUNNABLE) (tf : TrapFrame) :
    (∀ n (size : Int), 0 ≤ size → size < 2 ^ 31 → ∃ r, (argptr p n size).run (s.entered p tf) = .ok r (s.entered p tf) ∧
      ∀ i, r = some i → ∀ va, i ≤ va → (va : Int) < i + size →
        ∃ t, translate s.mem (V2P (s.proc p).pgdir) va = some t ∧ t.writable = true) ∧
    ∀ addr, ∃ r, (fetchstr p addr).run (s.entered p tf) = .ok r (s.entered p tf) ∧
      ∀ n, r = some n → ∀ va, addr ≤ va → va ≤ addr + n →
        ∃ t, translate s.mem (V2P (s.proc p).pgdir) va = some t ∧ t.writable = true := by
  obtain ⟨g, hstable⟩ := reachable_stable h
  have hserve := (hstable.entered hrun tf).2.serving
  have hw (va : Nat) (hva : va < ((s.entered p tf).proc p).sz) :
      ∃ t, translate s.mem (V2P (s.proc p).pgdir) va = some t ∧ t.writable = true := by
    rw [entered_proc] at hva
    exact hstable.writable p hrun va hva
  refine ⟨fun n size hlo hhi => ?_, fun addr => ?_⟩
  · obtain ⟨r, harg, hin⟩ := argptr_spec hserve n hlo hhi
    refine ⟨r, harg, fun i hi va hle hlt => hw va ?_⟩
    have := hin i hi
    omega
  · obtain ⟨r, hfetch, hin⟩ := fetchstr_spec hserve addr
    refine ⟨r, hfetch, fun n hn va hle hlt => hw va ?_⟩
    have := hin n hn
    omega

theorem pointers_mapped_first : ∃ (s : Machine) (p : Fin NPROC), (s.proc p).state = .RUNNABLE ∧
    ∃ r, (argptr p 0 8).run (s.entered p ⟨4, 0, 0⟩) = .ok r (s.entered p ⟨4, 0, 0⟩) ∧
      ∀ i, r = some i → ∀ va, i ≤ va → (va : Int) < i + 8 →
        ∃ t, translate s.mem (V2P (s.proc p).pgdir) va = some t ∧ t.writable = true := by
  obtain ⟨s, p, -, -, h, hp, -⟩ := reachable_two
  exact ⟨s, p, hp, (pointers_mapped h hp ⟨4, 0, 0⟩).1 0 8 (by omega) (by omega)⟩

end pointers

section pipes

variable {K : Fin NPROC → Machine → Event → Prop} {s : Machine} {x : Nat}

/-- In every run the references of a file are the descriptors that hold it, and an end of a pipe is open as long
as a descriptor of some process holds it, but not longer. -/
theorem pipe_ends_held (h : Reachable Booted (Step K) s) :
    (∀ f, (s.file f).ref = held (descriptors s) f) ∧
    ∀ x, IsFrame x → Spot.pipe.Has s x → ∀ w, openFlag s.mem x w ≠ 0 ↔
      ∃ p fd f, (s.proc p).ofile fd = some f ∧ (s.file f).type = .FD_PIPE ∧ (s.file f).writable = w ∧
        (s.file f).pipe = P2V x := by
  obtain ⟨g, hstable⟩ := reachable_stable h
  have hfiles := hstable.sound.files
  have hcount (f : Fin NFILE) : (s.file f).ref = held (descriptors s) f := hstable.counted.exact.eq_held f
  refine ⟨hcount, fun x hx hpipe w => ⟨fun hopen => ?_, fun hheld => ?_⟩⟩
  · have hrole : g.own x = .pipe := by
      obtain ⟨f, htype, heq⟩ := hpipe
      obtain ⟨y, hy, hrole, hy', -⟩ := hfiles.pipe f htype
      rwa [hx.inj hy (heq.symm.trans hy')]
    obtain ⟨f, htype, hw, heq⟩ := hfiles.end_of x w hx hrole hopen
    have hpos : 0 < held (descriptors s) f := by
      rw [← hcount f]
      exact Nat.pos_of_ne_zero fun hz => hfiles.closed f hz htype
    obtain ⟨⟨p, fd⟩, hfd⟩ := held_pos.1 hpos
    exact ⟨p, fd, f, hfd, htype, hw, heq⟩
  · obtain ⟨p, fd, f, -, htype, rfl, heq⟩ := hheld
    obtain ⟨y, hy, -, hy', hopen⟩ := hfiles.pipe f htype
    rwa [hx.inj hy (heq.symm.trans hy')]

theorem pipe_ends_held_two : ∃ s, Reachable Booted (Step fun p s e => e.Frugal p s) s ∧
    ∀ f, (s.file f).ref = held (descriptors s) f := by
  obtain ⟨s, -, -, -, h, -⟩ := reachable_two
  exact ⟨s, h, (pipe_ends_held h).1⟩

end pipes

section calls

variable {K : Fin NPROC → Machine → Event → Prop} {s : Machine} {p : Fin NPROC}

/-- In every run a process with a slot and the frames for a copy of it in the free lists can fork, and the child is then
its twin up to what identifies it, its result and the `killed` flag, which is the one that the slot had. -/
theorem fork_twins (h : Reachable Booted (Step K) s) (hrun : (s.proc p).state = .RUNNABLE) (hkilled : (s.proc p).killed = false)
    {tf : TrapFrame} (heax : tf.eax = 1) (hslot : ∃ q, (s.proc q).state = .UNUSED)
    (hframes : ∃ L, FreeList s L ∧ copyNeed (s.proc p).sz < L.length)
    (hhuge : ∃ L, FreeHugeList s L ∧ hugeNeed (s.proc p).hugesz ≤ L.length) (files : Files) :
    ∃ np s', (Event.run files p (.syscall tf)).run s = .ok () s' ∧ Twins p np tf s s' := by
  obtain ⟨g, hstable⟩ := reachable_stable h
  obtain ⟨L, hL, hlen⟩ := hframes
  obtain ⟨L', hL', hlen'⟩ := hhuge
  rw [hstable.sound.sys.freeList_iff] at hL
  rw [hstable.sound.sys.freeHugeList_iff] at hL'
  obtain ⟨np, s', g', hstep, htwins, -⟩ :=
    fork_event hstable hrun hkilled heax hslot (hL ▸ hlen) (hL' ▸ hlen') files
  exact ⟨np, s', hstep, htwins⟩

theorem fork_twins_first : ∃ (s : Machine) (np : Fin NPROC) (s' : Machine), Booted s ∧
    (Event.run (fun _ => none) 0 (.syscall ⟨1, 0, 0⟩)).run s = .ok () s' ∧ Twins 0 np ⟨1, 0, 0⟩ s s' := by
  obtain ⟨s, g, hbooted, halone⟩ := booted_alone
  have hfree := halone.free
  have hs := halone.stable.sound.sys
  obtain ⟨hcopy, hneed⟩ := halone.need
  have htf : (TrapFrame.mk 1 0 0).eax = 1 := rfl
  have hreach : Reachable Booted (Step fun _ _ _ => True) s := .start hbooted
  obtain ⟨np, s', hstep, htwins⟩ := fork_twins hreach halone.run halone.killed htf halone.vacant
    ⟨_, hs.freeList_iff.2 rfl, by omega⟩ ⟨_, hs.freeHugeList_iff.2 rfl, by omega⟩ fun _ => none
  exact ⟨s, np, s', hbooted, hstep, htwins⟩

/-- The arguments of an `exec` are checked to the end before anything that the process has is touched: a call that
fails leaves every process, file and free frame as it was, and one that succeeds leaves the program of the
file, started with the arguments, and nothing of the other processes changed. -/
theorem exec_all_or_nothing (h : Reachable Booted (Step K) s) (hrun : (s.proc p).state = .RUNNABLE) (tf : TrapFrame)
    (hquiet : HugeQuiet s p) {argv : List (List UInt8)} (hargs : ArgsOK argv) (path : List UInt8) (ip : Option Inode) :
    (∃ s', (exec p path ip argv).run (s.entered p tf) = .ok (-1) s' ∧ s'.proc = (s.entered p tf).proc ∧ s'.file = s.file ∧
      (∀ q, (s.proc q).state ≠ .UNUSED → SameUser (V2P (s.proc q).pgdir) s.mem s'.mem) ∧
      ∀ x, Spot.free.Has s' x ↔ Spot.free.Has s x) ∨
    ∃ inode elf s', ip = some inode ∧ readi inode 0 sizeofElfhdr = some elf ∧
      (exec p path ip argv).run (s.entered p tf) = .ok 0 s' ∧ Installed p path inode elf argv (s.entered p tf) s' ∧
      ∀ q, q ≠ p → (s.proc q).state ≠ .UNUSED → SameUser (V2P (s.proc q).pgdir) s.mem s'.mem := by
  obtain ⟨g, hstable⟩ := reachable_stable h
  have hactive := (hstable.entered hrun tf).2
  have hslot (q : Fin NPROC) := entered_slot s p q tf
  have hquiet' : HugeQuiet (s.entered p tf) p := by
    unfold HugeQuiet
    rw [entered_proc, entered_mem]
    exact hquiet
  rcases exec_spec hactive.sound hactive.live hquiet' hargs path ip with ⟨s', g', hcall, hs', hidle⟩ |
    ⟨inode, elf, s', g', hip, hread, hcall, hkept, -, -, hinstalled⟩
  · have hcalm := hactive.sound.calm_idle hactive.live hidle hs'
    have hfile : s'.file = (s.entered p tf).file := by rw [hidle.rest]
    refine .inl ⟨s', hcall, by rw [hidle.rest], hfile.trans (entered_file s p tf), fun q hq => ?_, fun x => ?_⟩
    · have hsame := hcalm.user q (by rwa [(hslot q).state])
      rwa [(hslot q).pgdir, entered_mem] at hsame
    · rw [hs'.has_free, hstable.sound.sys.has_free, hs'.mem_free, hstable.sound.sys.mem_free]
      exact and_congr_right fun hx => by rw [hidle.own_eq hx]
  · refine .inr ⟨inode, elf, s', hip, hread, hcall, hinstalled, fun q hqp hq => ?_⟩
    have hsame := hkept.user q hqp (by rwa [(hslot q).state])
    rwa [(hslot q).pgdir, entered_mem] at hsame

theorem exec_all_or_nothing_first : ∃ s, Booted s ∧ ∀ path ip,
    (∃ s', (exec 0 path ip []).run (s.entered 0 ⟨7, 0, 0⟩) = .ok (-1) s' ∧ ∀ x, Spot.free.Has s' x ↔ Spot.free.Has s x) ∨
    ∃ inode elf s', (exec 0 path ip []).run (s.entered 0 ⟨7, 0, 0⟩) = .ok 0 s' ∧
      Installed 0 path inode elf [] (s.entered 0 ⟨7, 0, 0⟩) s' := by
  obtain ⟨s, g, hbooted, halone⟩ := booted_alone
  have hhugesz := halone.hugesz
  have hreach : Reachable Booted (Step fun _ _ _ => True) s := .start hbooted
  refine ⟨s, hbooted, fun path ip => ?_⟩
  rcases exec_all_or_nothing hreach halone.run ⟨7, 0, 0⟩ (fun i _ hi => by omega) (by decide : ArgsOK []) path ip with
    ⟨s', hcall, -, -, -, hfree⟩ | ⟨inode, elf, s', -, -, hcall, hinstalled, -⟩
  · exact .inl ⟨s', hcall, hfree⟩
  · exact .inr ⟨inode, elf, s', hcall, hinstalled⟩

/-- No executable, path or argument vector makes the kernel end in one of the panics by which the loader would answer a
badly formed file, and the calls of `loaduvm` store file bytes only where the new image maps the segment below its size. -/
theorem loader_safe (h : Reachable Booted (Step K) s) (hrun : (s.proc p).state = .RUNNABLE) (tf : TrapFrame)
    (path : List UInt8) (ip : Option Inode) (argv : List (List UInt8)) :
    (∀ msg ∈ loaderPanics, ∀ s', (exec p path ip argv).run (s.entered p tf) ≠ .error (.panic msg) s') ∧
    ∀ inode pgdir s₁, setupkvm.run (s.entered p tf) = .ok pgdir s₁ → pgdir ≠ 0 →
      ∀ n off ph sz s₂, exec.Loads pgdir inode n off 0 s₁ ph sz s₂ →
        ∃ r s₃, (loaduvm pgdir ph.vaddr inode ph.off ph.filesz).run s₂ = .ok r s₃ ∧ ph.vaddr + ph.filesz ≤ sz ∧
          Loaded s₂.mem s₃.mem (V2P pgdir) ph.vaddr (ph.vaddr + ph.filesz) := by
  obtain ⟨g, hstable⟩ := reachable_stable h
  have hs := (hstable.entered hrun tf).2.sound.sys
  refine ⟨fun msg hmsg s' hstop => exec_benign hs p path ip argv _ s' hstop msg hmsg rfl, ?_⟩
  intro inode pgdir s₁ hsetup hne n off ph sz s₂ hloads
  rcases setupkvm_spec hs with ⟨d, t, g₁, hsetup', hs₁, hnew⟩ | ⟨t, g₁, hsetup', -⟩
  · rw [hsetup', EStateM.Result.ok.injEq] at hsetup
    obtain ⟨rfl, rfl⟩ := hsetup
    obtain ⟨g₂, c, hprogram, halign, hend⟩ := hloads.program (hnew.program hs₁)
    obtain ⟨r, s₃, -, hcall, -, hloaded, -⟩ := hprogram.loaduvm halign hend
    refine ⟨r, s₃, hcall, hend, ?_⟩
    rwa [hnew.frame.phys]
  · rw [hsetup', EStateM.Result.ok.injEq] at hsetup
    exact absurd hsetup.1.symm hne

theorem loader_safe_first : ∃ s, Booted s ∧ ∀ path ip argv, ∀ msg ∈ loaderPanics, ∀ s',
    (exec 0 path ip argv).run (s.entered 0 ⟨7, 0, 0⟩) ≠ .error (.panic msg) s' := by
  obtain ⟨s, g, hbooted, halone⟩ := booted_alone
  have hreach : Reachable Booted (Step fun _ _ _ => True) s := .start hbooted
  exact ⟨s, hbooted, fun path ip argv => (loader_safe hreach halone.run ⟨7, 0, 0⟩ path ip argv).1⟩

end calls

section sbrk

variable {K : Fin NPROC → Machine → Event → Prop} {s s' : Machine} {g g' : Ghost} {p : Fin NPROC} {d lo hi va m : Nat}
  {o : DirOwner}

/-- What a user of directory `d` reads after pages have been added and filled with zeros. -/
theorem Extended.userByte_eq (h : Extended d lo hi s g s' g') (hs : Sys s g) (hs' : Sys s' g') (hd : IsFrame d)
    (hdir : g.own d = .dir o) (hk : KernOK s.mem d) (hzero : Zeroed s'.mem d lo hi) (hhi : hi ≤ 2 ^ 19) (hva : va < 2 ^ 32) :
    userByte s'.mem d va = if 4096 * lo ≤ va ∧ va < 4096 * hi then some 0 else userByte s.mem d va := by
  have hdir' : g'.own d = .dir o := h.dir.trans hdir
  split_ifs with hin
  · have hmapped := h.mapped (va / 4096) (by omega) (by omega)
    rcases hs'.translate_user hd hdir' (show va < 0x80000000 by omega) with ⟨-, -, hz⟩ | ⟨f, fl, hf, -, hfl, -, hlook, -, hsome⟩ |
      ⟨f, -, -, -, hz, -⟩
    · omega
    · have halign := hf.1
      obtain rfl : fl = 7 := by omega
      rw [userByte_base _ hsome, if_pos (by decide),
        hzero _ (by omega) (by omega) f hf hlook _ (by omega) (by omega)]
    · omega
  · have htrans : translate s'.mem d va = translate s.mem d va := by
      rw [hs.translate_eq hd hdir hva, hs'.translate_eq hd hdir' hva, h.lookup_eq _ (by omega) (by omega), h.huge_eq _ (by omega)]
    by_cases hlow : va < 0x80000000
    swap
    · have hnone := hk.userAccess_eq_none hs hd hdir (by omega) hva
      rw [userByte, userByte, userAccess, htrans, ← userAccess, hnone]
      rfl
    rcases hs.translate_user hd hdir hlow with ⟨hnone, -, -⟩ | ⟨f, fl, hf, hpage, -, -, -, -, hsome⟩ |
      ⟨f, hf, hpage, -, -, hsome⟩
    · simp only [userByte, userAccess, htrans, hnone, Option.map_none]
    · rw [userByte_base _ hsome, userByte_base _ (htrans.trans hsome), (h.pages f _ _ hf hpage).2 _ (by omega) (by omega)]
    · rw [userByte_huge _ hsome, userByte_huge _ (htrans.trans hsome), h.hsame f hf (by simp) _ (by omega) (by omega)]

/-- Memory that `growproc` adds is what `allocuvm` has put there. -/
theorem growproc_alloc {t : Machine} (hm : 0 < m) (hrun : (growproc p m).run s = .ok 0 t) :
    ∃ s₁, (allocuvm (s.proc p).pgdir (s.proc p).sz (addInt (s.proc p).sz m)).run s = .ok (t.proc p).sz s₁ ∧ t.mem = s₁.mem := by
  unfold growproc at hrun
  rw [get_bind] at hrun
  simp only [] at hrun
  rw [if_pos (show (m : Int) > 0 by omega), bind_eq_ok_iff] at hrun
  obtain ⟨sz, s₁, halloc, hcommit⟩ := hrun
  split_ifs at hcommit with hz
  · rw [EStateM.run_pure, EStateM.Result.ok.injEq] at hcommit
    omega
  rw [updateProc_bind, bind_eq_ok_iff] at hcommit
  obtain ⟨_, s₂, hswitch, hret⟩ := hcommit
  rw [EStateM.run_pure, EStateM.Result.ok.injEq] at hret
  obtain ⟨-, rfl⟩ := hret
  unfold switchuvm at hswitch
  rw [get_bind] at hswitch
  split_ifs at hswitch
  · cases hswitch
  · cases hswitch
  · obtain rfl := (EStateM.Result.ok.inj hswitch).2
    refine ⟨s₁, ?_, rfl⟩
    simpa only [update_self] using halloc

/-- What a process reads after its memory has grown. -/
theorem Sound.growproc_fresh (h : Sound s g) (hlive : (s.proc p).state ≠ .UNUSED) (hm : 0 < m)
    (hlt : (s.proc p).sz + m < KERNBASE) (hneed : allocNeed s.mem (V2P (s.proc p).pgdir) (((s.proc p).sz + 4095) / 4096)
      (((s.proc p).sz + m + 4095) / 4096) ≤ g.free.length) :
    ∃ s' g', (growproc p m).run s = .ok 0 s' ∧ Kept (· = p) s g s' g' ∧
      s'.proc = update s.proc p { s.proc p with sz := (s.proc p).sz + m } ∧
      ∀ va < 2 ^ 32, userByte s'.mem (V2P (s.proc p).pgdir) va =
        if PGROUNDUP (s.proc p).sz ≤ va ∧ va < PGROUNDUP ((s.proc p).sz + m) then some 0
        else userByte s.mem (V2P (s.proc p).pgdir) va := by
  have hs := h.sys
  obtain ⟨d, k, hh⟩ := h.holds hlive
  have hd := hh.toProcDir
  have hsz := hd.low hs
  have hl := hd.layout
  rw [hd.phys] at hneed ⊢
  obtain ⟨s', g', hgrow, hs', hext⟩ := growproc_grow hs hd hh.kstack_ne hm hlt hneed
  simp only [KERNBASE] at hlt
  have hproc : s'.proc = s.proc := by rw [hext.rest]
  have hadd : addInt (s.proc p).sz m = (s.proc p).sz + m := by
    have := addInt_eq (a := (s.proc p).sz) (n := m) (by omega) (by omega)
    omega
  obtain ⟨hadj, -⟩ := h.resize hlive hd (hext.toUserStep.mono HugeArea.of_false) hs' (hext.layout hl (by omega))
    (s'.resized_eq p ((s.proc p).sz + m) (s.proc p).hugesz) (fun q hq => s'.resized_other _ _ hq) (s'.resized_proc ..)
  obtain ⟨s₁, halloc, hmem⟩ := growproc_alloc hm hgrow
  rw [hd.pgdir, hadd, Machine.resized_proc] at halloc
  have hzero : Zeroed s'.mem d (((s.proc p).sz + 4095) / 4096) (((s.proc p).sz + m + 4095) / 4096) := by
    rw [← s'.resized_mem p ((s.proc p).sz + m) (s.proc p).hugesz, hmem]
    exact allocuvm_zeroed hs hd.frame hd.role (by omega) (hl.dense (by omega)) (by omega) halloc
  have hround (n : Nat) (hn : n < 0x80000000) : PGROUNDUP n = 4096 * ((n + 4095) / 4096) := by
    simp only [PGROUNDUP, u32, PGSIZE]
    omega
  refine ⟨_, g', hgrow, hadj.toKept, ?_, fun va hva => ?_⟩
  · rw [Machine.resized, hproc]
  · rw [Machine.resized_mem, hext.userByte_eq hs hs' hd.frame hd.role hd.kern hzero (by omega) hva, hround _ (by omega),
      hround _ (by omega)]

/-- In every run, `sbrk` of more memory that the free frames suffice for gives the process the addresses above its old size,
with zeros in the new pages, and changes nothing else that it or another process can read. -/
theorem sbrk_fresh (h : Reachable Booted (Step K) s) (hrun : (s.proc p).state = .RUNNABLE) (tf : TrapFrame) (hm : 0 < m)
    (hlt : (s.proc p).sz + m < KERNBASE)
    (hframes : ∃ L, FreeList s L ∧ allocNeed s.mem (V2P (s.proc p).pgdir) (((s.proc p).sz + 4095) / 4096)
      (((s.proc p).sz + m + 4095) / 4096) ≤ L.length) :
    ∃ s', (sys_sbrk p m).run (s.entered p tf) = .ok (s.proc p).sz s' ∧
      s'.proc = update s.proc p { s.proc p with tf, sz := (s.proc p).sz + m } ∧
      (∀ va < 2 ^ 32, userByte s'.mem (V2P (s.proc p).pgdir) va =
        if PGROUNDUP (s.proc p).sz ≤ va ∧ va < PGROUNDUP ((s.proc p).sz + m) then some 0
        else userByte s.mem (V2P (s.proc p).pgdir) va) ∧
      ∀ q, q ≠ p → (s.proc q).state ≠ .UNUSED → SameUser (V2P (s.proc q).pgdir) s.mem s'.mem := by
  obtain ⟨g, hstable⟩ := reachable_stable h
  obtain ⟨L, hL, hneed⟩ := hframes
  rw [hstable.sound.sys.freeList_iff] at hL
  subst hL
  have hactive := (hstable.entered hrun tf).2
  obtain ⟨e, he⟩ : ∃ e, e = s.entered p tf := ⟨_, rfl⟩
  have hproc : e.proc = update s.proc p { s.proc p with tf } := by rw [he, Machine.entered]
  have hp : e.proc p = { s.proc p with tf } := by rw [hproc, update_self]
  have hmem : e.mem = s.mem := by rw [he, entered_mem]
  rw [← he] at hactive ⊢
  have hsz : (e.proc p).sz = (s.proc p).sz := by rw [hp]
  have hpgdir : (e.proc p).pgdir = (s.proc p).pgdir := by rw [hp]
  rw [← hsz] at hlt
  rw [← hsz, ← hpgdir, ← hmem] at hneed
  obtain ⟨s', g', hgrow, hkept, hproc', hbytes⟩ := hactive.sound.growproc_fresh hactive.live hm hlt hneed
  rw [hp, hmem] at hbytes
  refine ⟨s', ?_, ?_, hbytes, fun q hq hlive => ?_⟩
  · unfold sys_sbrk
    rw [get_bind, bind_ok hgrow, if_neg (by omega), hp]
    rfl
  · rw [hproc', hp, hproc, update_idem]
  · have hother : e.proc q = s.proc q := by rw [hproc, update_of_ne hq]
    have hsame := hkept.user q hq (by rwa [hother])
    rwa [hother, hmem] at hsame

theorem sbrk_fresh_first : ∃ s s', Booted s ∧ (sys_sbrk 0 4096).run (s.entered 0 ⟨12, 0, 0⟩) = .ok 4096 s' ∧
    ∀ va, 4096 ≤ va → va < 8192 → userByte s'.mem (V2P (s.proc 0).pgdir) va = some 0 := by
  obtain ⟨s, g, hbooted, halone⟩ := booted_alone
  have hsz := halone.sz
  have hfree := halone.free
  have hreach : Reachable Booted (Step fun _ _ _ => True) s := .start hbooted
  have hneed : allocNeed s.mem (V2P (s.proc 0).pgdir) 1 2 ≤ 1025 := by
    have hcard := Finset.card_filter_le (Finset.range 1024) fun i =>
      max 1 (1024 * i) < min 2 (1024 * (i + 1)) ∧ entry s.mem (V2P (s.proc 0).pgdir) i = 0
    rw [Finset.card_range] at hcard
    rw [allocNeed]
    omega
  obtain ⟨s', hcall, -, hbytes, -⟩ := sbrk_fresh hreach halone.run ⟨12, 0, 0⟩ (show 0 < 4096 by omega)
    (by rw [hsz]; decide) ⟨_, halone.stable.sound.sys.freeList_iff.2 rfl, by rw [hsz]; exact hneed.trans (by omega)⟩
  rw [hsz] at hcall hbytes
  refine ⟨s, s', hbooted, hcall, fun va hlo hhi => ?_⟩
  rw [hbytes va (by omega), if_pos]
  exact ⟨hlo, hhi⟩

end sbrk

end xv6
