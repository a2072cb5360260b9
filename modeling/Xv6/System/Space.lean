import Xv6.System.Descriptors

open bytes outcome Function

namespace xv6

/-- A step that may change the processes in `A`: it keeps the invariant, and the other processes
keep their records and find their memory as it was. -/
structure Kept (A : Fin NPROC → Prop) (s : Machine) (g : Ghost) (s' : Machine) (g' : Ghost) : Prop where
  sound : Sound s' g'
  slot : ∀ q, ¬ A q → SameSlot (s.proc q) (s'.proc q)
  user : ∀ q, ¬ A q → (s.proc q).state ≠ .UNUSED → SameUser (V2P (s.proc q).pgdir) s.mem s'.mem
  initproc : s'.initproc = s.initproc

/-- A step of process `p` on its own memory. -/
structure Adjusted (p : Fin NPROC) (s : Machine) (g : Ghost) (s' : Machine) (g' : Ghost) : Prop extends
    Kept (· = p) s g s' g' where
  saved : Saved g g'
  file : s'.file = s.file
  proc : s'.proc = update s.proc p { s.proc p with sz := (s'.proc p).sz, hugesz := (s'.proc p).hugesz }

/-- The kernel may write to every address below the size of process `p`. -/
def Writable (s : Machine) (p : Fin NPROC) : Prop :=
  ∀ va < (s.proc p).sz, ∃ t, translate s.mem (V2P (s.proc p).pgdir) va = some t ∧ t.writable = true

section kept

variable {A : Fin NPROC → Prop} {s s' s'' : Machine} {g g' g'' : Ghost} {p q : Fin NPROC} {d k sz hugesz : Nat}

theorem Calm.kept (h : Calm s g s' g') : Kept A s g s' g' :=
  ⟨h.sound, fun q _ => h.slot q, fun q _ => h.user q, h.initproc⟩

theorem Calm.saved (h : Calm s g s' g') : Saved g g' := fun f hf htemp => (h.hown f hf).symm.trans htemp

theorem Kept.trans (h : Kept A s g s' g') (h' : Kept A s' g' s'' g'') : Kept A s g s'' g'' where
  sound := h'.sound
  slot q hq := (h.slot q hq).trans (h'.slot q hq)
  user q hq hlive := by
    have hrest := h'.user q hq (by rwa [(h.slot q hq).state])
    rw [(h.slot q hq).pgdir] at hrest
    exact (h.user q hq hlive).trans hrest
  initproc := h'.initproc.trans h.initproc

theorem Kept.mono {B : Fin NPROC → Prop} (h : Kept A s g s' g') (hsub : ∀ q, A q → B q) : Kept B s g s' g' :=
  ⟨h.sound, fun q hq => h.slot q (mt (hsub q) hq), fun q hq => h.user q (mt (hsub q) hq), h.initproc⟩

theorem Aside.kept (h : Aside p s g s' g') (hp : ProcInv s' g' p) : Kept (· = p) s g s' g' :=
  ⟨h.sound hp, fun q hq => h.proc q hq ▸ .refl _, h.user, h.initproc⟩

theorem Saved.trans (h : Saved g g') (h' : Saved g' g'') : Saved g g'' := fun f hf htemp => h f hf (h' f hf htemp)

/-- A step of process `p` on the user half of its directory that leaves it with the given sizes. -/
theorem Sound.resize (h : Sound s g) (hlive : (s.proc p).state ≠ .UNUSED) (hd : ProcDir s g p d)
    (hstep : UserStep d (HugeArea d) s g s' g') (hs' : Sys s' g') (hl : Layout s'.mem d sz hugesz)
    (heq : s'' = { s' with proc := s''.proc, cr3 := s''.cr3 }) (hproc : ∀ q, q ≠ p → s''.proc q = s'.proc q)
    (hp : s''.proc p = { s'.proc p with sz := sz, hugesz := hugesz }) : Adjusted p s g s'' g' ∧ ProcDir s'' g' p d := by
  have hwhole := hstep.whole
  have hrec : s'.proc = s.proc := by rw [hwhole.rest]
  have hdir : g'.own d = .dir (.proc p) := hstep.dir.trans hd.role
  have hmem : s''.mem = s'.mem := by rw [heq]
  obtain ⟨d', k, hh⟩ := h.holds hlive
  obtain rfl := hd.unique hh.frame hh.pgdir
  have haside : Aside p s g s'' g' := ((h.aside p).step hwhole hs' (by simp [hd.role, Role.Private])
    (by simp [hdir, Role.Private]) (by simp [hdir]) fun _ _ => HugeArea.dir_eq).record (by rw [heq])
    fun q hq => by rw [hproc q hq, hrec]
  have hholds : Holds s'' g' p d' k := by
    refine ⟨⟨hd.frame, hdir, ?_, ?_, ?_⟩, fun f hf hrole => ?_, hh.stack, ?_, fun f hf => ?_⟩
    · rw [hp, hrec]
      exact hd.pgdir
    · rw [hmem]
      exact hstep.kernOK h.sys hd.frame hd.role hd.kern
    · rw [hp, hmem]
      exact hl
    · exact hh.dir_eq f hf ((hstep.own_iff hf rfl).1 hrole)
    · rw [hp, hrec]
      exact hh.kstack
    · exact (hstep.own_iff hf rfl).trans (hh.kstack_iff f hf)
  refine ⟨⟨haside.kept (hholds.inv ?_ ?_), hwhole.saved (by simp [HugeArea]), by rw [heq, hwhole.rest], ?_⟩, hholds.toProcDir⟩
  · rw [hp, hrec]
    exact hlive
  · rw [hp, hrec]
    exact (h.proc p).embryo
  · funext q
    by_cases hq : q = p
    · rw [hq, update_self, hp, hrec]
    · rw [update_of_ne hq, hproc q hq, hrec]

theorem Adjusted.trans (h : Adjusted p s g s' g') (h' : Adjusted p s' g' s'' g'') : Adjusted p s g s'' g'' where
  toKept := h.toKept.trans h'.toKept
  saved := h.saved.trans h'.saved
  file := h'.file.trans h.file
  proc := by
    rw [h'.proc, h.proc, update_idem, update_self, update_self]

theorem Adjusted.refl (h : Sound s g) : Adjusted p s g s g where
  toKept := (Calm.refl h).kept
  saved := (Calm.refl h).saved
  file := rfl
  proc := (update_eq_self p s.proc).symm

theorem Adjusted.state (h : Adjusted p s g s' g') (q : Fin NPROC) :
    (s'.proc q).state = (s.proc q).state ∧ (s'.proc q).ofile = (s.proc q).ofile ∧ (s'.proc q).pgdir = (s.proc q).pgdir := by
  rw [h.proc]
  by_cases hq : q = p
  · rw [hq, update_self]
    exact ⟨rfl, rfl, rfl⟩
  · rw [update_of_ne hq]
    exact ⟨rfl, rfl, rfl⟩

theorem Adjusted.counted {e : Fin NFILE → Nat} (h : Adjusted p s g s' g') (hc : Counted s e) : Counted s' e :=
  hc.congr h.file (fun q => (h.state q).2.1) fun q hq => by rwa [(h.state q).1] at hq

theorem ProcDir.low (hd : ProcDir s g p d) (hs : Sys s g) : (s.proc p).sz ≤ 233738240 := hd.layout.sz_le hs hd.frame hd.role

theorem writable_iff (hs : Sys s g) (hd : ProcDir s g p d) :
    Writable s p ↔ ∀ k, 4096 * k < (s.proc p).sz → lookup s.mem d k / 2 % 2 = 1 := by
  have hsz := hd.low hs
  -- Every address below the size is in a base page.
  have hbase (va : Nat) (hva : va < (s.proc p).sz) : ∃ t, translate s.mem d va = some t ∧
      (t.writable = true ↔ lookup s.mem d (va / 4096) / 2 % 2 = 1) := by
    have hmapped := (hd.layout.base (va / 4096) (by omega)).2 (by omega)
    rcases hs.translate_user hd.frame hd.role (show va < 0x80000000 by omega) with ⟨-, -, hz⟩ |
      ⟨f, fl, hf, -, hfl, -, hlook, -, hsome⟩ | ⟨f, hf, -, -, hz, -⟩
    · exact absurd hz hmapped
    · have halign := hf.1
      refine ⟨_, hsome, ?_⟩
      rw [hlook]
      simp only [hasFlag_W]
      omega
    · exact absurd hz hmapped
  unfold Writable
  rw [hd.phys]
  constructor
  · intro h k hk
    obtain ⟨t, ht, hw⟩ := h (4096 * k) hk
    obtain ⟨t', ht', hiff⟩ := hbase (4096 * k) hk
    rw [ht, Option.some.injEq] at ht'
    rw [show 4096 * k / 4096 = k by omega, ← ht'] at hiff
    exact hiff.1 hw
  · intro h va hva
    obtain ⟨t, ht, hiff⟩ := hbase va hva
    exact ⟨t, ht, hiff.2 (h _ (by omega))⟩

/-- The processes that a step leaves alone stay writable. -/
theorem Kept.writable (h : Kept A s g s' g') (hs : Sound s g) (hq : ¬ A q) (hlive : (s.proc q).state ≠ .UNUSED)
    (hw : Writable s q) : Writable s' q := by
  obtain ⟨d, hd⟩ := (hs.proc q).dir hlive
  have hsz := hd.low hs.sys
  intro va hva
  rw [(h.slot q hq).sz] at hva
  obtain ⟨t, ht, htw⟩ := hw va hva
  refine ⟨t, ?_, htw⟩
  rw [(h.slot q hq).pgdir, (h.user q hq hlive va (by omega)).1, ht]

end kept

section grow

variable {s s' s'' : Machine} {g g' : Ghost} {p : Fin NPROC} {d sz hugesz : Nat} {n : Int}

/-- `Sound.resize` for a step that leaves every page below the new size writable. -/
theorem Sound.resize_writable (h : Sound s g) (hlive : (s.proc p).state ≠ .UNUSED) (hd : ProcDir s g p d)
    (hstep : UserStep d (HugeArea d) s g s' g') (hs' : Sys s' g') (hl : Layout s'.mem d sz hugesz)
    (hflags : ∀ k, 4096 * k < sz → lookup s'.mem d k / 2 % 2 = 1)
    (heq : s'' = { s' with proc := s''.proc, cr3 := s''.cr3 }) (hproc : ∀ q, q ≠ p → s''.proc q = s'.proc q)
    (hp : s''.proc p = { s'.proc p with sz := sz, hugesz := hugesz }) : Adjusted p s g s'' g' ∧ Writable s'' p := by
  obtain ⟨hadj, hd'⟩ := h.resize hlive hd hstep hs' hl heq hproc hp
  refine ⟨hadj, (writable_iff hadj.sound.sys hd').2 fun k hk => ?_⟩
  rw [hp] at hk
  rw [heq]
  exact hflags k hk

theorem Machine.resized_eq (s : Machine) (p : Fin NPROC) (sz hugesz : Nat) :
    s.resized p sz hugesz = { s with proc := (s.resized p sz hugesz).proc, cr3 := (s.resized p sz hugesz).cr3 } := rfl

theorem Machine.resized_other (s : Machine) {p q : Fin NPROC} (sz hugesz : Nat) (hq : q ≠ p) :
    (s.resized p sz hugesz).proc q = s.proc q := update_of_ne hq _ _

/-- `growproc` changes the memory of its process only. -/
theorem growproc_spec (h : Sound s g) (hlive : (s.proc p).state ≠ .UNUSED) (hw : Writable s p) (hlo : -2 ^ 31 ≤ n)
    (hhi : n < 2 ^ 31) (hok : SbrkOK s p n) :
    ∃ r s' g', (growproc p n).run s = .ok r s' ∧ Adjusted p s g s' g' ∧ Writable s' p := by
  obtain ⟨d, k, hh⟩ := h.holds hlive
  have hd := hh.toProcDir
  have hkstack := hh.kstack_ne
  have hs := h.sys
  have hl := hd.layout
  have hflags := (writable_iff hs hd).1 hw
  have hresize {s' : Machine} {g' : Ghost} {sz : Nat} (hstep : UserStep d (fun _ => False) s g s' g') (hs' : Sys s' g')
      (hl' : Layout s'.mem d sz (s.proc p).hugesz) (hflags' : ∀ k, 4096 * k < sz → lookup s'.mem d k / 2 % 2 = 1) :
      Adjusted p s g (s'.resized p sz (s.proc p).hugesz) g' ∧ Writable (s'.resized p sz (s.proc p).hugesz) p :=
    h.resize_writable hlive hd (hstep.mono HugeArea.of_false) hs' hl' hflags' (s'.resized_eq ..)
      (fun q hq => s'.resized_other _ _ hq) (s'.resized_proc ..)
  have hsame := hresize (UserStep.refl _ _ _ _) hs hl hflags
  rcases lt_trichotomy n 0 with hneg | rfl | hpos
  · by_cases hwrap : ((s.proc p).sz : Int) + n < 0
    · have hrun := growproc_wrap hs hd hkstack hlo hwrap
      split_ifs at hrun with hz
      · exact ⟨-1, s, g, hrun, .refl h, hw⟩
      · exact ⟨0, _, g, hrun, hsame⟩
    · obtain ⟨newsz, hnew⟩ : ∃ newsz : Nat, ((s.proc p).sz : Int) + n = newsz := ⟨((s.proc p).sz + n).toNat, by omega⟩
      obtain ⟨s', g', hs', hstep, hl', hrun⟩ := growproc_shrink hs hd hkstack hneg hnew
      have hne := hok.1 hneg
      rw [if_neg (by omega)] at hrun
      refine ⟨0, _, g', hrun, hresize hstep.toUserStep hs' hl' fun k hk => ?_⟩
      have hsz := hd.low hs
      rw [hstep.lookup_eq k (by omega), if_neg (by omega)]
      exact hflags k (by omega)
  · exact ⟨0, _, g, growproc_none hd hkstack, hsame⟩
  · obtain ⟨m, rfl⟩ : ∃ m : Nat, n = m := ⟨n.toNat, by omega⟩
    by_cases hlt : (s.proc p).sz + m < KERNBASE
    swap
    · exact ⟨-1, s, g, growproc_beyond hs hd (by omega) (by omega) (by omega), .refl h, hw⟩
    have hsz : (s.proc p).sz + m < 0x80000000 := hlt
    by_cases hneed : allocNeed s.mem d (((s.proc p).sz + 4095) / 4096) (((s.proc p).sz + m + 4095) / 4096) ≤ g.free.length
    · obtain ⟨s', g', hrun, hs', hext⟩ := growproc_grow hs hd hkstack (by omega) hlt hneed
      refine ⟨0, _, g', hrun, hresize hext.toUserStep hs' (hext.layout hl (by omega)) fun k hk => ?_⟩
      by_cases hold : ((s.proc p).sz + 4095) / 4096 ≤ k
      · have hnew := hext.mapped k hold (by omega)
        omega
      · rw [hext.lookup_eq k (by omega) (by omega)]
        exact hflags k (by omega)
    · obtain ⟨s', g', hrun, hs', hres⟩ := growproc_undone hs hd (by omega) hlt (by omega) (hok.2 hpos (by omega))
      have hrec : s'.proc = s.proc := by rw [hres.rest]
      refine ⟨-1, s', g', hrun, h.resize_writable hlive hd
        (hres.toUserStep.mono HugeArea.of_false) hs' (hres.layout hl) (fun k hk => ?_) rfl (fun _ _ => rfl) (by rw [hrec])⟩
      rw [hres.lookup_eq k (by omega), if_neg (by omega)]
      exact hflags k hk

/-- `growhugeproc` changes the memory of its process only, unless it panics. -/
theorem growhugeproc_spec (h : Sound s g) (hlive : (s.proc p).state ≠ .UNUSED) (hw : Writable s p) (hhi : n < 2 ^ 31)
    (hok : ShugebrkOK s p n g.hfree.length) :
    (∃ r s' g', (growhugeproc p n).run s = .ok r s' ∧ Adjusted p s g s' g' ∧ Writable s' p) ∨
      ∃ s', (growhugeproc p n).run s = .error (.panic "kfree") s' := by
  obtain ⟨d, k, hh⟩ := h.holds hlive
  have hd := hh.toProcDir
  have hkstack := hh.kstack_ne
  have hs := h.sys
  have hl := hd.layout
  have hsz := hd.low hs
  have hflags := (writable_iff hs hd).1 hw
  rcases hok with ⟨hneg, hzero⟩ | ⟨hpos, havail⟩
  · have hrun : (deallocuvm (s.proc p).pgdir (s.proc p).hugesz (addInt (s.proc p).hugesz n)).run s = .ok 0 s := by
      unfold deallocuvm
      rw [if_pos (by omega), hzero, EStateM.run_pure]
    refine .inl ⟨-1, s, g, ?_, .refl h, hw⟩
    unfold growhugeproc
    rw [get_bind]
    simp only []
    rw [if_neg (by omega), if_pos hneg, bind_ok hrun, if_pos rfl, EStateM.run_pure]
  · obtain ⟨m, rfl⟩ : ∃ m : Nat, n = m := ⟨n.toNat, by omega⟩
    simp only [Int.toNat_natCast] at havail
    obtain ⟨s', g', hs', hext, hrun⟩ := growhugeproc_grow hs hd hkstack (show 0 < m by omega) (by omega)
    have hrec : s'.proc = s.proc := by rw [hext.rest]
    have hflags' (k : Nat) (hk : 4096 * k < (s.proc p).sz) : lookup s'.mem d k / 2 % 2 = 1 := by
      rw [hext.lookup_eq k (by omega)]
      exact hflags k hk
    by_cases henough : hugeNeed ((s.proc p).hugesz + m) ≤ hugeNeed (s.proc p).hugesz + g.hfree.length
    · rw [if_pos henough, hrec] at hrun
      rw [min_eq_left henough] at hext
      have hl' := hext.layout hl (hugeNeed_slots _) (hugeNeed_slots _) (by omega)
      exact .inl ⟨0, _, g', hrun, h.resize_writable hlive hd hext.toUserStep hs' hl' hflags' (s'.resized_eq ..)
        (fun q hq => s'.resized_other _ _ hq) (s'.resized_proc ..)⟩
    · have hnil : g.hfree.length = 0 := by omega
      rw [if_neg henough] at hrun
      rw [min_eq_right (by omega), hnil, Nat.add_zero] at hext
      by_cases hkb : HUGE_VA_OFFSET + ((s.proc p).hugesz + m) ≤ KERNBASE
      · rw [if_pos hkb] at hrun
        have hl' := hext.layout hl (hugeNeed_slots _) (hugeNeed_slots _) (Nat.le_refl _)
        exact .inl ⟨-1, s', g', hrun, h.resize_writable hlive hd
          hext.toUserStep hs' hl' hflags' rfl (fun _ _ => rfl) (by rw [hrec])⟩
      · rw [if_neg hkb] at hrun
        exact .inr ⟨s', hrun⟩

end grow

section teardown

variable {s s' : Machine} {g g' : Ghost} {p q : Fin NPROC} {d k : Nat}

/-- Taking frames and giving them back is no change at all to the processes. -/
theorem Sound.calm_idle (h : Sound s g) (hlive : (s.proc p).state ≠ .UNUSED) (hidle : Idle s g s' g') (hs' : Sys s' g') :
    Calm s g s' g' := by
  obtain ⟨d, k, hh⟩ := h.holds hlive
  have hkrole := (hh.kstack_iff k hh.stack).2 rfl
  refine ⟨h.idle hlive hidle hs', fun f hf => hidle.hown_eq hf, fun q => ?_, fun q hlive' => ?_, by rw [hidle.rest],
    by rw [hidle.rest]⟩
  · rw [hidle.rest]
    exact .refl _
  · obtain ⟨d', hd'⟩ := (h.proc q).dir hlive'
    rw [hd'.phys]
    exact hidle.sameUser h.sys hs' hd' hkrole

theorem ProcDir.no_huge (hd : ProcDir s g p d) (hs : Sys s g) (hz : (s.proc p).hugesz = 0) {f : Nat} (hf : IsHuge f) (i : Nat) :
    g.hown f ≠ .page d i := by
  intro hpage
  obtain ⟨-, hi, hentry, -⟩ := hs.huge_up f d i hf hpage
  have halign := hf.1
  have hat := hugeAt_of_huge (m := s.mem) (d := d) (i := i) (by omega) (by omega)
  have := (hd.layout.huge i hi).1 (by omega)
  omega

/-- Directory `d` has been torn down. -/
structure Dropped (d : Nat) (s : Machine) (g : Ghost) (s' : Machine) (g' : Ghost) : Prop where
  within : Within (WholeArea d) (DropArea d) s g s' g'
  free : g'.own d = .free
  lost : ∀ f, IsHuge f → g'.hown f = .temp → g.hown f = .temp ∨ ∃ i, g.hown f = .page d i

/-- A process without huge pages loses no huge frame with its directory. -/
theorem Dropped.saved {s₁ s₂ : Machine} {g₁ : Ghost} {A : Nat → Role → Prop} (h : Dropped d s₂ g₁ s' g')
    (hw : Within A (fun _ => False) s g s₁ g₁) (hs : Sys s g) (hd : ProcDir s g p d) (hz : (s.proc p).hugesz = 0) :
    Saved g g' := by
  intro f hf htemp
  have heq : g₁.hown f = g.hown f := (hw.hrole f hf).resolve_left fun hfalse => hfalse.1
  rcases h.lost f hf htemp with hlost | ⟨i, hpage⟩
  · exact heq.symm.trans hlost
  · exact absurd (heq.symm.trans hpage) (hd.no_huge hs hz hf i)

/-- `freevm` on a directory of process `p` whose huge pages it does not take for page tables. -/
theorem Aside.freevm {s₁ : Machine} {g₁ : Ghost} (h : Aside p s g s₁ g₁) (hd : IsFrame d) (hdir : g₁.own d = .dir (.proc p))
    (hquiet : Quiet s₁.mem d 0 (2 ^ 19)) :
    ∃ s' g', (xv6.freevm (P2V d)).run s₁ = .ok () s' ∧ Aside p s g s' g' ∧ Dropped d s₁ g₁ s' g' := by
  obtain ⟨s', g', hrun, hs', hfreed⟩ := freevm_spec h.sys hd hdir hquiet
  have hw := hfreed.within
  have hfree : g'.own d = .free := hfreed.freed d hd (.inl rfl)
  refine ⟨s', g', hrun, h.step hw hs' (by simp [hdir, Role.Private]) (by simp [hfree, Role.Private]) (by simp [hfree])
    fun _ _ => DropArea.dir_eq, hw, hfree, fun f hf htemp => ?_⟩
  have hrole := hfreed.hown f hf
  simp only [Ghost.drop] at hrole
  split_ifs at hrole with hof
  · exact .inr hof
  · exact .inl (hrole.symm.trans htemp)

end teardown

end xv6
