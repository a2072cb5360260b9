import Xv6.Exec.Build
import Xv6.System.Space

open bytes outcome Function

namespace xv6

/-- What a successful `exec` makes of process `p`: the record says where to start, the memory holds
the segments of the file and, above a guard page, the stack with the arguments. -/
structure Installed (p : Fin NPROC) (path : List UInt8) (ip : Inode) (elf : List UInt8) (argv : List (List UInt8))
    (s s' : Machine) : Prop where
  proc : s'.proc p = { s.proc p with
    name := (lastElem path).take 15, pgdir := (s'.proc p).pgdir, sz := (s'.proc p).sz, hugesz := 0,
    tf := { (s.proc p).tf with eip := field elf 24 4, esp := (s'.proc p).tf.esp } }
  others : ∀ q, q ≠ p → s'.proc q = s.proc q
  file : s'.file = s.file
  sz : (s'.proc p).sz = PGROUNDUP (exec.extent ip (field elf 44 2) (field elf 28 4) 0) + 8192
  program : ip.size < 2 ^ 32 → ∀ va < PGROUNDUP (exec.extent ip (field elf 44 2) (field elf 28 4) 0),
    ReadsAt s'.mem (V2P (s'.proc p).pgdir) va [exec.contents ip (field elf 44 2) (field elf 28 4) (fun _ => 0) va]
  stack : ArgStack s'.mem (V2P (s'.proc p).pgdir) (s'.proc p).sz (s'.proc p).tf.esp argv

section same

variable {m m' : Mem} {d sz esp va : Nat} {data : List UInt8} {argv : List (List UInt8)}

theorem ReadsAt.same (h : ReadsAt m d va data) (hu : SameUser d m m') (hva : va + data.length ≤ 2 ^ 32) :
    ReadsAt m' d va data := by
  intro i hi
  obtain ⟨pa, hpa, hbyte⟩ := h i hi
  have hsame := (hu (va + i) (by omega)).2
  exact ⟨pa, (hu.access (by omega)).trans hpa, (hsame pa hpa).trans hbyte⟩

theorem Strings.same {args : List (List UInt8)} {ptrs : List Nat} {top bot : Nat} (h : Strings m d top args ptrs bot)
    (hu : SameUser d m m') (htop : top ≤ 2 ^ 32) : Strings m' d top args ptrs bot := by
  induction args generalizing top ptrs with
  | nil =>
    cases ptrs with
    | nil => exact h
    | cons p ptrs => exact h.elim
  | cons arg args ih =>
    cases ptrs with
    | nil => exact h.elim
    | cons p ptrs =>
      obtain ⟨hread, halign, hle, hrest⟩ := h
      have hlen : (arg ++ [0]).length = arg.length + 1 := by simp
      exact ⟨hread.same hu (by omega), halign, hle, ih hrest (by omega)⟩

theorem ArgStack.same (h : ArgStack m d sz esp argv) (hu : SameUser d m m') (hsz : sz ≤ 2 ^ 32) :
    ArgStack m' d sz esp argv where
  low := h.low
  align := h.align
  args := by
    obtain ⟨ptrs, hstr, hread⟩ := h.args
    have hle := hstr.le
    have hlen := hstr.length_eq
    refine ⟨ptrs, hstr.same hu hsz, hread.same hu ?_⟩
    rw [wordBytes_length]
    simp only [List.length_append, List.length_cons, List.length_nil]
    omega
  guard va hlo hhi := (hu.access (by omega)).trans (h.guard va hlo hhi)

end same

section exec

variable {s s₁ : Machine} {g g₁ : Ghost} {p : Fin NPROC} {d₀ k d sz : Nat} {path : List UInt8} {argv : List (List UInt8)}

/-- A process that has got directory `d` gives up its old directory `d₀`. -/
theorem Holds.exchange {s' : Machine} {g' : Ghost} {H : HugeRole → Prop} (h : Holds s g p d₀ k)
    (hown : ∀ f, f ≠ d → g₁.own f = g.own f) (hd : ProcDir s₁ g₁ p d) (hk : (s₁.proc p).kstack = P2V k) (hs₁ : Sys s₁ g₁)
    (hne₀ : d₀ ≠ d) (hnek : k ≠ d) (hw : Within (WholeArea d₀) H s₁ g₁ s' g') (hfree : g'.own d₀ = .free) :
    Holds s' g' p d k where
  toProcDir := hd.within hs₁ hw hne₀.symm (.inl (by simp [hown d₀ hne₀, h.role, Role.fixed]))
  dir_eq f hf hrole := by
    have hf₀ : f ≠ d₀ := by
      rintro rfl
      rw [hfree] at hrole
      cases hrole
    by_contra hfd
    exact hf₀ (h.dir_eq f hf ((hown f hfd).symm.trans ((hw.own_iff hf hf₀ rfl).1 hrole)))
  stack := h.stack
  kstack := by
    rw [hw.rest]
    exact hk
  kstack_iff f hf := by
    by_cases hf₀ : f = d₀
    · rw [hf₀, hfree]
      exact iff_of_false (by simp) h.ne
    by_cases hfd : f = d
    · subst hfd
      rw [(hw.own_iff hf hf₀ rfl).2 hd.role]
      exact iff_of_false (by simp) hnek.symm
    rw [← h.kstack_iff f hf, ← hown f hfd]
    exact hw.own_iff hf hf₀ rfl

/-- The commit of `exec`: process `p` gives up directory `d₀` for directory `d`. -/
theorem Sound.exchange {u : Proc} (h : Sound s g) (hlive : (s.proc p).state ≠ .UNUSED) (hh : Holds s g p d₀ k)
    (heven : HugeQuiet s p) (himage : Image d sz s g s₁ g₁) (hpgdir : u.pgdir = P2V d) (hsz : u.sz = sz) (hhugesz : u.hugesz = 0)
    (hkstack : u.kstack = (s.proc p).kstack) (hstate : u.state = (s.proc p).state) :
    ∃ s' g', (freevm (P2V d₀)).run { s₁ with proc := update s₁.proc p u, cr3 := d } = .ok () s' ∧
      Kept (· = p) s g s' g' ∧ ((s.proc p).hugesz = 0 → Saved g g') ∧ Writable s' p ∧
      s' = { s with mem := s'.mem, freelist := s'.freelist, freehugelist := s'.freehugelist, frees := s'.frees,
                    proc := update s.proc p u, cr3 := d } ∧ SameUser d s₁.mem s'.mem := by
  have hs₁ := himage.sys
  have hw₁ := himage.within
  have hne₀ : d₀ ≠ d := by
    rintro rfl
    exact absurd (himage.was.symm.trans hh.role) (by simp)
  have hnek : k ≠ d := by
    rintro rfl
    exact absurd (himage.was.symm.trans ((hh.kstack_iff k hh.stack).2 rfl)) (by simp)
  have hh₁ : Holds s₁ g₁ p d₀ k := hh.within h.sys hw₁ hne₀ hnek (.inr himage.was) (by simp [himage.dir])
  -- The new directory is handed over to the process, which then has two.
  obtain ⟨g₂, hg₂⟩ : ∃ g₂ : Ghost, g₂ = { g₁ with own := update g₁.own d (.dir (.proc p)) } := ⟨_, rfl⟩
  obtain ⟨s₂, hs₂eq⟩ : ∃ s₂ : Machine, s₂ = { s₁ with proc := update s₁.proc p u, cr3 := d } := ⟨_, rfl⟩
  have hgive : Within (WholeArea d) (fun _ => False) s₁ g₁ s₁ g₂ := hg₂ ▸ .give s₁ g₁ d _
  have hd₂ : g₂.own d = .dir (.proc p) := by
    rw [hg₂]
    exact update_self _ _ _
  have hown₂ (f : Nat) (hf : f ≠ d) : g₂.own f = g₁.own f := by
    rw [hg₂]
    exact update_of_ne hf _ _
  have hmem₂ : s₂.mem = s₁.mem := by rw [hs₂eq]
  have hproc₂ : s₂.proc = update s.proc p u := by rw [hs₂eq, hw₁.rest]
  have haside₂ : Aside p s g s₂ g₂ := ((h.aside p).step (hw₁.trans hgive) (hg₂ ▸ hs₁.give_dir (.proc p) himage.dir)
    (by simp [himage.was, Role.Private]) (by simp [hd₂, Role.Private]) (by simp [hd₂]) fun _ _ => False.elim).record
    (by rw [hs₂eq]) fun q hq => by rw [hproc₂]; exact update_of_ne hq _ _
  have hs₂ := haside₂.sys
  have hdir₀ : g₂.own d₀ = .dir (.proc p) := (hown₂ d₀ hne₀).trans hh₁.role
  have hview := hw₁.view_eq h.sys hh.frame hh.role (.of_ne hne₀ hh.role (.inr himage.was))
  have hquiet : Quiet s₂.mem d₀ 0 (2 ^ 19) := by
    rw [hmem₂]
    exact (heven.quiet hh.toProcDir).congr le_rfl hview.2 (fun f hf => hw₁.hsame f hf id) le_rfl (.inl rfl) (by omega)
  obtain ⟨s', g', hrun, haside, hdrop⟩ := haside₂.freevm hh.frame hdir₀ hquiet
  have hw₃ := hdrop.within
  have hfix₀ : (g₂.own d₀).fixed ∨ g₂.own d₀ = .free := .inl (by simp [hdir₀, Role.fixed])
  have hdir₂ : ProcDir s₂ g₂ p d := by
    refine ⟨himage.frame, hd₂, ?_, hmem₂ ▸ himage.kern, ?_⟩
    · rw [hproc₂, update_self, hpgdir]
    · rw [hmem₂, hproc₂]
      simp only [update_self, hsz, hhugesz]
      exact himage.layout
  have hproc' : s'.proc = update s.proc p u := by rw [hw₃.rest, hproc₂]
  have hp' : s'.proc p = u := by rw [hproc', update_self]
  have hholds : Holds s' g' p d k :=
    hh₁.exchange hown₂ hdir₂ (by rw [hproc₂, update_self, hkstack, hh.kstack]) hs₂ hne₀ hnek hw₃ hdrop.free
  refine ⟨s', g', hs₂eq ▸ hrun, haside.kept (hholds.inv ?_ ?_),
    hdrop.saved (hw₁.trans hgive) h.sys hh.toProcDir, (writable_iff haside.sys hholds.toProcDir).2 fun k hk => ?_, ?_, ?_⟩
  · rwa [hp', hstate]
  · rw [hp', hstate]
    exact (h.proc p).embryo
  · have hszle := himage.sz_le
    rw [hp', hsz] at hk
    rw [(hw₃.view_eq hs₂ himage.frame hd₂ (.of_ne hne₀.symm hd₂ hfix₀)).1 k (by omega), hmem₂]
    exact himage.writable k hk
  · rw [hw₃.rest, hs₂eq, hw₁.rest]
  · rw [← hmem₂]
    exact hw₃.sameUser hs₂ haside.sys himage.frame hd₂ hdir₂.kern hne₀.symm hfix₀ fun i hdrop => hne₀ hdrop.dir_eq.symm

/-- An image that is given up leaves no trace. -/
theorem Image.abandon (h : Image d sz s g s₁ g₁) (hs : Sys s g) :
    ∃ s' g', (freevm (P2V d)).run s₁ = .ok () s' ∧ Sys s' g' ∧ Idle s g s' g' := by
  obtain ⟨s', g', hrun, hs', hfreed⟩ := freevm_complete h.sys h.frame h.dir h.hugeAt_eq
  exact ⟨s', g', hrun, hs', hfreed.idle hs h.was h.within h.hfree⟩

/-- `exec` either fails, and then it leaves no trace, or it installs the program. -/
theorem exec_spec (h : Sound s g) (hlive : (s.proc p).state ≠ .UNUSED) (hquiet : HugeQuiet s p) (hargs : ArgsOK argv)
    (path : List UInt8) (ip : Option Inode) :
    (∃ s' g', (exec p path ip argv).run s = .ok (-1) s' ∧ Sys s' g' ∧ Idle s g s' g') ∨
    ∃ inode elf s' g', ip = some inode ∧ readi inode 0 sizeofElfhdr = some elf ∧
      (exec p path ip argv).run s = .ok 0 s' ∧ Kept (· = p) s g s' g' ∧ ((s.proc p).hugesz = 0 → Saved g g') ∧
      Writable s' p ∧ Installed p path inode elf argv s s' := by
  have hsame : (∃ s' g', (pure (-1) : KernelM Int).run s = .ok (-1) s' ∧ Sys s' g' ∧ Idle s g s' g') :=
    ⟨s, g, rfl, h.sys, Idle.refl s g⟩
  unfold exec
  cases ip with
  | none => exact .inl hsame
  | some inode =>
    simp only []
    cases hread : readi inode 0 sizeofElfhdr with
    | none => exact .inl hsame
    | some elf =>
      simp only []
      by_cases hlen : elf.length ≠ sizeofElfhdr
      · rw [if_pos hlen]
        exact .inl hsame
      rw [if_neg hlen]
      by_cases hmagic : field elf 0 4 ≠ ELF_MAGIC
      · rw [if_pos hmagic]
        exact .inl hsame
      rw [if_neg hmagic]
      rcases setupkvm_spec h.sys with ⟨d, s₁, g₁, hsetup, hs₁, hnew⟩ | ⟨s₁, g₁, hsetup, hs₁, hidle, -⟩
      swap
      · rw [bind_ok hsetup, if_pos rfl]
        exact .inl ⟨s₁, g₁, rfl, hs₁, hidle⟩
      have hpgdir : ¬ P2V d = 0 := hnew.frame.ne_zero
      rw [bind_ok hsetup, if_neg hpgdir]
      rcases (hnew.program hs₁).build hargs inode (field elf 28 4) (field elf 44 2) with
        ⟨s₂, g₂, sz, hbuild, himage⟩ | ⟨s₂, g₂, sz, sp, hbuild, hstacked, hstack, hsz, hbytes⟩
      · obtain ⟨s', g', hfree, hs', hidle⟩ := himage.abandon h.sys
        rw [bind_ok hbuild]
        simp only []
        rw [bind_ok hfree]
        exact .inl ⟨s', g', rfl, hs', hidle⟩
      have hszle := hstacked.sz_le
      obtain ⟨d₀, k, hh⟩ := h.holds hlive
      have hproc₂ : s₂.proc = s.proc := by rw [hstacked.within.rest]
      rw [bind_ok hbuild]
      simp only []
      rw [get_bind, updateProc_bind]
      generalize hu : { s₂.proc p with
        name := (lastElem path).take 15, pgdir := P2V d, sz := sz, hugesz := 0,
        tf := { (s₂.proc p).tf with eip := field elf 24 4, esp := sp } } = u
      have hup : u.pgdir = P2V d := by rw [← hu]
      have husz : u.sz = sz := by rw [← hu]
      have huk : u.kstack = (s.proc p).kstack := by rw [← hu, hproc₂]
      have hust : u.state = (s.proc p).state := by rw [← hu, hproc₂]
      have huh : u.hugesz = 0 := by rw [← hu]
      have husp : u.tf.esp = sp := by rw [← hu]
      have hswitch : (switchuvm p).run { s₂ with proc := update s₂.proc p u } =
          .ok () { s₂ with proc := update s₂.proc p u, cr3 := d } := by
        rw [switchuvm_run]
        · simp only [update_self, hup, hnew.frame.phys]
        · simpa only [update_self, hup] using hpgdir
        · simpa only [update_self, huk] using hh.kstack_ne
      obtain ⟨s', g', hfree, hkept, hsaved, hwrite, hrest, huser⟩ :=
        h.exchange hlive hh hquiet hstacked.toImage hup husz huh huk hust
      have hproc' : s'.proc = update s.proc p u := by rw [hrest]
      have hp' : s'.proc p = u := by rw [hproc', update_self]
      have hold : (s₂.proc p).pgdir = P2V d₀ := by rw [hproc₂, hh.pgdir]
      rw [bind_ok hswitch, hold, bind_ok hfree]
      refine .inr ⟨inode, elf, s', g', rfl, hread, rfl, hkept, hsaved, hwrite, ?_, fun q hq => ?_, by rw [hrest], ?_,
        fun hsize va hva => ?_, ?_⟩
      · rw [hp', ← hu, hproc₂]
      · rw [hproc', update_of_ne hq]
      · rw [hp', husz, hsz]
      · rw [hp', hup, hnew.frame.phys]
        have hlen : [exec.contents inode (field elf 44 2) (field elf 28 4) (fun _ => 0) va].length = 1 := rfl
        exact (hbytes hsize va hva).same huser (by omega)
      · rw [hp', hup, hnew.frame.phys, husz, husp]
        exact hstack.same huser (by omega)

end exec

end xv6
