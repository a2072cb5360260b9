import Xv6.Main
import Xv6.System.Sound

open bytes chain outcome Function

namespace xv6

/-- The loop of `freerange` and `freehugerange` over the frames `k` up to `hi`. -/
theorem freeLoop_rule (free : Nat → KernelM Unit) (size lo hi : Nat) {I : Nat → Machine → Prop} (hsize : 0 < size)
    (hend : size * hi + size < 0x80000000)
    (hstep : ∀ k s, lo ≤ k → k < hi → I k s → ∃ s', (free (P2V (size * k))).run s = .ok () s' ∧ I (k + 1) s') (n : Nat) :
    ∀ k s, lo ≤ k → k ≤ hi → hi - k < n → I k s →
      ∃ s', (freeLoop free size (P2V (size * hi)) n (P2V (size * k))).run s = .ok () s' ∧ I hi s' := by
  induction n with
  | zero =>
    intro k s _ _ hn
    omega
  | succ n ih =>
    intro k s hlo hk hn hI
    have hmul : size * k ≤ size * hi := Nat.mul_le_mul_left _ hk
    have hnext : u32 (P2V (size * k) + size) = P2V (size * k + size) := by
      simp only [u32, P2V, KERNBASE]
      omega
    by_cases hdone : k = hi
    · subst hdone
      refine ⟨s, ?_, hI⟩
      rw [freeLoop, hnext, if_neg, EStateM.run_pure]
      simp only [P2V, KERNBASE]
      omega
    · have hmul' : size * k + size ≤ size * hi := Nat.mul_le_mul_left size (show k + 1 ≤ hi by omega)
      obtain ⟨s', hrun, hI'⟩ := hstep k s hlo (by omega) hI
      obtain ⟨s'', hloop, hI''⟩ := ih (k + 1) s' (by omega) (by omega) (by omega) hI'
      refine ⟨s'', ?_, hI''⟩
      rw [freeLoop, hnext, if_pos, bind_ok hrun]
      · exact hloop
      · simp only [P2V, KERNBASE]
        omega

section count

variable {s : Machine} {g : Ghost} {lo hi : Nat}

theorem Sys.le_free_length (hs : Sys s g) (lo hi : Nat)
    (h : ∀ k, lo ≤ k → k < hi → IsFrame (4096 * k) ∧ g.own (4096 * k) = .free) : hi - lo ≤ g.free.length :=
  count.le_length_of_injective (f := fun i => 4096 * (lo + i)) (fun i j heq => by simpa using heq) fun i hi =>
    (hs.mem_free _).2 (h _ (by omega) (by omega))

theorem Sys.le_hfree_length (hs : Sys s g) (lo hi : Nat)
    (h : ∀ k, lo ≤ k → k < hi → IsHuge (0x400000 * k) ∧ g.hown (0x400000 * k) = .free) : hi - lo ≤ g.hfree.length :=
  count.le_length_of_injective (f := fun i => 0x400000 * (lo + i)) (fun i j heq => by simpa using heq) fun i hi =>
    (hs.mem_hfree _).2 (h _ (by omega) (by omega))

end count

/-- The kernel before its first process. Frames from `lo` and huge frames from
`hlo` on have not been handed to their allocators yet. -/
structure Bare (s : Machine) (g : Ghost) (lo hlo : Nat) : Prop where
  sys : Sys s g
  low : ∀ f, IsFrame f → f < lo →
    g.own f = .free ∨ g.own f = .dir .kernel ∨ (∃ d i, g.own f = .table d i) ∨ g.own f = .stack
  high : ∀ f, IsFrame f → lo ≤ f → g.own f = .temp
  hlow : ∀ f, IsHuge f → f < hlo → g.hown f = .free
  hhigh : ∀ f, IsHuge f → hlo ≤ f → g.hown f = .temp
  proc : ∀ p, s.proc p = .zero
  file : ∀ f, (s.file f).type = .FD_NONE ∧ (s.file f).ref = 0

/-- The same with the kernel's own directory and the stacks of its processors. -/
structure Mapped (s : Machine) (g : Ghost) (lo hlo : Nat) : Prop extends Bare s g lo hlo where
  kern : KernInv s g
  cpu : StackInv s g

section phases

variable {s : Machine} {g : Ghost} {lo hlo : Nat}

theorem Bare.reset (mem : Mem) :
    ∃ g, Bare (Machine.reset mem) g 0x117000 0x1E000000 := by
  refine ⟨⟨fun _ => .temp, fun _ => .temp, [], []⟩, ⟨rfl, List.nodup_nil, ?_, rfl, List.nodup_nil, ?_, ?_, ?_, ?_, ?_, ?_⟩,
    ?_, fun _ _ _ => rfl, ?_, fun _ _ _ => rfl, fun _ => rfl, fun _ => ⟨rfl, rfl⟩⟩
  · simp
  · simp
  · simp
  · simp
  · simp
  · simp
  · simp
  · rintro f ⟨_, hf, _⟩ hlt
    omega
  · rintro f ⟨_, hf, _⟩ hlt
    omega

/-- `kfree` of the next frame. -/
theorem Bare.free {k : Nat} (h : Bare s g (4096 * k) hlo) (hf : IsFrame (4096 * k)) :
    ∃ g', Bare (s.freed (4096 * k)) g' (4096 * (k + 1)) hlo ∧
      Within (WholeArea (4096 * k)) (fun _ => False) s g (s.freed (4096 * k)) g' ∧
      g.own (4096 * k) = .temp ∧ g'.own = update g.own (4096 * k) .free := by
  have htemp := h.high _ hf le_rfl
  refine ⟨_, ⟨h.sys.push hf htemp, fun f hf' hlt => ?_, fun f hf' hle => ?_, h.hlow, h.hhigh, h.proc, h.file⟩, ?_,
    htemp, rfl⟩
  · by_cases hne : f = 4096 * k
    · subst hne
      exact .inl (update_self _ _ _)
    · have halign := hf'.1
      simpa only [update_of_ne hne] using h.low f hf' (by omega)
  · exact (update_of_ne (by omega) _ _).trans (h.high f hf' (by omega))
  · refine Within.mono (A := fun x _ => x = 4096 * k) (H := fun _ => False) ?_ (fun _ _ h => Or.inl h) fun _ h => h
    exact Within.frame (fun _ hx => update_of_ne hx _ _) rfl (fun _ hx hne => freed_sameOn hf hx hne)
      (fun _ hx => freed_sameOn_huge hf hx) rfl

theorem isFrame_page {k : Nat} (hlo : 0x117 ≤ k) (hhi : k < 0xE000) : IsFrame (4096 * k) := ⟨by omega, by omega, by omega⟩

theorem isHuge_page {k : Nat} (hlo : 120 ≤ k) (hhi : k < 248) : IsHuge (0x400000 * k) := ⟨by omega, by omega, by omega⟩

/-- The frames below 4MB after `kinit1`. -/
structure Primed (s : Machine) (g : Ghost) (lo hlo : Nat) : Prop extends Bare s g lo hlo where
  free : ∀ f, IsFrame f → f < lo → g.own f = .free
  cpustack : s.cpustack = []

theorem kinit1_spec (h : Primed s g 0x117000 hlo) :
    ∃ s' g', (kinit1 kernelEnd (P2V (4 * 1024 * 1024))).run s = .ok () s' ∧ Primed s' g' 0x400000 hlo := by
  obtain ⟨s', hrun, g', h'⟩ := freeLoop_rule kfree 4096 0x117 0x400
    (I := fun k s => ∃ g, Primed s g (4096 * k) hlo) (by omega) (by omega) (fun k s hlo hk ⟨g, h⟩ => by
      have hf := isFrame_page hlo (show k < 0xE000 by omega)
      obtain ⟨g', hbare, -, -, hown⟩ := h.toBare.free hf
      refine ⟨_, kfree_run hf s, g', hbare, fun f hf' hlt => ?_, h.cpustack⟩
      rw [hown]
      by_cases hne : f = 4096 * k
      · rw [hne, update_self]
      · have halign := hf'.1
        rw [update_of_ne hne, h.free f hf' (by omega)]) (2 ^ 20) 0x117 s le_rfl (by omega) (by omega) ⟨g, h⟩
  exact ⟨s', g', hrun, h'⟩

theorem kvmalloc_spec (h : Primed s g 0x400000 hlo) :
    ∃ s' g', kvmalloc.run s = .ok () s' ∧ Mapped s' g' 0x400000 hlo ∧ 680 ≤ g'.free.length := by
  have hlen := h.sys.le_free_length 0x117 0x400 fun k hlo hhi =>
    have hf := isFrame_page hlo (show k < 0xE000 by omega)
    ⟨hf, h.free _ hf (by omega)⟩
  rcases setupkvm_spec h.sys with ⟨d, s', g', hrun, hs', hnew⟩ | ⟨-, -, -, -, -, hshort⟩
  swap
  · omega
  have hdlt : d < 0x400000 := by
    by_contra hge
    have := h.high d hnew.frame (by omega)
    simp [hnew.was] at this
  have hother (f : Nat) (hf : IsFrame f) (hne : f ≠ d) :
      g'.own f = .free ∨ (∃ d i, g'.own f = .table d i) ∨ g'.own f = g.own f := by
    rcases hnew.within.role f hf with ⟨-, hd | hfree | ⟨i, htable⟩⟩ | heq
    · exact absurd hd hne
    · exact .inl hfree
    · exact .inr (.inl ⟨d, i, htable⟩)
    · exact .inr (.inr heq)
  have hplain (f : Nat) (hf : IsFrame f) : g.own f = .free ∨ g.own f = .temp := by
    by_cases hlt : f < 0x400000
    · exact .inl (h.free f hf hlt)
    · exact .inr (h.high f hf (by omega))
  have hcpu : s'.cpustack = [] := by rw [hnew.within.rest, h.cpustack]
  refine ⟨{ s' with kpgdir := P2V d, cr3 := V2P (P2V d) }, { g' with own := update g'.own d (.dir .kernel) }, ?_,
    ⟨⟨(hs'.give_dir .kernel hnew.dir).congr_mem rfl rfl rfl, fun f hf hlt => ?_, fun f hf hle => ?_, ?_, ?_, ?_, ?_⟩,
      ⟨⟨d, hnew.frame, update_self _ _ _, rfl, hnew.kern, hnew.low⟩, fun f hf hrole => ?_⟩, ?_, ?_, ?_⟩, ?_⟩
  · unfold kvmalloc
    rw [bind_ok hrun, modify_bind]
    rfl
  · by_cases hne : f = d
    · exact .inr (.inl (hne ▸ update_self _ _ _))
    · simp only [update_of_ne hne]
      rcases hother f hf hne with hfree | htable | heq
      · exact .inl hfree
      · exact .inr (.inr (.inl htable))
      · exact .inl (heq.trans (h.free f hf hlt))
  · have htemp := h.high f hf hle
    simp only [update_of_ne (show f ≠ d by omega)]
    rw [hnew.own f (by simp [htemp]), htemp]
  · simp only [hnew.hown]
    exact h.hlow
  · simp only [hnew.hown]
    exact h.hhigh
  · intro p
    rw [show s'.proc = s.proc by rw [hnew.within.rest]]
    exact h.proc p
  · intro f
    rw [show s'.file = s.file by rw [hnew.within.rest]]
    exact h.file f
  · by_cases hne : f = d
    · rw [hne]
    · simp only [update_of_ne hne] at hrole
      rcases hother f hf hne with hfree | ⟨d', i, htable⟩ | heq
      · simp [hrole] at hfree
      · simp [hrole] at htable
      · rcases hplain f hf with hfree | htemp
        · simp [← heq, hrole] at hfree
        · simp [← heq, hrole] at htemp
  · simp only [hcpu, List.nodup_nil]
  · simp only [hcpu, List.not_mem_nil, false_imp_iff, implies_true]
  · intro f hf hrole
    have hne : f ≠ d := by
      rintro rfl
      simp at hrole
    simp only [update_of_ne hne] at hrole
    rcases hother f hf hne with hfree | ⟨d', i, htable⟩ | heq
    · simp [hrole] at hfree
    · simp [hrole] at htable
    · rcases hplain f hf with hfree | htemp
      · simp [← heq, hrole] at hfree
      · simp [← heq, hrole] at htemp
  · have := hnew.free
    change 680 ≤ g'.free.length
    omega

/-- One more processor has got a stack. -/
def Machine.stacked (s : Machine) (f : Nat) : Machine :=
  { s with
    mem := store32 s.mem 0x6FFC (u32 (P2V f + KSTACKSIZE))
    freelist := load32 s.mem f
    cpustack := P2V f :: s.cpustack }

theorem Machine.stacked_cpustack (s : Machine) (f : Nat) : (s.stacked f).cpustack = P2V f :: s.cpustack := rfl

theorem Mapped.stacked {f : Nat} {L : List Nat} (h : Mapped s g lo hlo) (hfree : g.free = f :: L) :
    Mapped (s.stacked f) { g with own := update g.own f .stack, free := L } lo hlo := by
  obtain ⟨hf, hrole⟩ := (h.sys.mem_free f).1 (by simp [hfree])
  have hsame (x n : Nat) (hx : 0x117000 ≤ x) : SameOn s.mem (s.stacked f).mem x n := store32_sameOn _ (by omega)
  have hwithin : Within (WholeArea f) (fun _ => False) s g
      { s with mem := (s.stacked f).mem, freelist := load32 s.mem f }
      { g with own := update g.own f .stack, free := L } := by
    refine Within.mono (A := fun x _ => x = f) (H := fun _ => False) ?_ (fun _ _ h => Or.inl h) fun _ h => h
    exact Within.frame (fun _ hx => update_of_ne hx _ _) rfl (fun x hx _ => hsame x _ hx.2.1)
      (fun x hx => hsame x _ (by have := hx.2.1; omega)) rfl
  have hkern := h.kern.within h.sys hwithin (by simp [hrole]) (by simp) (.inr hrole)
  refine ⟨⟨?_, fun x hx hlt => ?_, fun x hx hle => ?_, h.hlow, h.hhigh, h.proc, h.file⟩, ⟨hkern.dir, hkern.dir_of⟩,
    ?_, ?_, ?_⟩
  · exact (h.sys.take hfree rfl (by simp)).congr rfl rfl (fun x hx _ => hsame x _ hx.2.1)
      fun x hx _ => hsame x _ (by have := hx.2.1; omega)
  · by_cases hne : x = f
    · exact .inr (.inr (.inr (hne ▸ update_self _ _ _)))
    · simpa only [update_of_ne hne] using h.low x hx hlt
  · have htemp := h.high x hx hle
    have hne : x ≠ f := by
      rintro rfl
      simp [hrole] at htemp
    simpa only [update_of_ne hne] using htemp
  · refine List.nodup_cons.2 ⟨fun hin => ?_, h.cpu.nodup⟩
    obtain ⟨x, hx, hstack, heq⟩ := h.cpu.stack _ hin
    have hlt := hf.lt
    have hxlt := hx.lt
    obtain rfl := P2V_inj (show f < 2 ^ 32 by omega) (show x < 2 ^ 32 by omega) heq
    simp [hrole] at hstack
  · intro v hv
    rw [s.stacked_cpustack f, List.mem_cons] at hv
    rcases hv with hv | hv
    · exact ⟨f, hf, update_self _ _ _, hv⟩
    · obtain ⟨x, hx, hstack, heq⟩ := h.cpu.stack v hv
      have hne : x ≠ f := by
        rintro rfl
        simp [hrole] at hstack
      exact ⟨x, hx, by simpa only [update_of_ne hne] using hstack, heq⟩
  · intro x hx hstack
    by_cases hne : x = f
    · exact List.mem_cons.2 (.inl (by rw [hne]))
    · simp only [update_of_ne hne] at hstack
      exact List.mem_cons.2 (.inr (h.cpu.stack_of x hx hstack))

theorem startothers_spec (n : Nat) : ∀ (s : Machine) (g : Ghost), Mapped s g lo hlo → n ≤ g.free.length →
    ∃ s' g', (startothers n).run s = .ok () s' ∧ Mapped s' g' lo hlo := by
  induction n with
  | zero =>
    intro s g h _
    exact ⟨s, g, rfl, h⟩
  | succ n ih =>
    intro s g h hlen
    cases hfree : g.free with
    | nil =>
      rw [hfree] at hlen
      simp at hlen
    | cons f L =>
      rw [hfree, List.length_cons] at hlen
      obtain ⟨s', g', hrun, h'⟩ := ih _ _ (h.stacked hfree) (show n ≤ L.length by omega)
      refine ⟨s', g', ?_, h'⟩
      rw [startothers, bind_ok (kalloc_cons h.sys hfree), writeWord_bind, V2P_P2V (by omega), modify_bind]
      exact hrun

theorem kinit2_spec (h : Mapped s g 0x400000 hlo) :
    ∃ s' g', (kinit2 (P2V (4 * 1024 * 1024)) (P2V PHYSTOP)).run s = .ok () s' ∧ Mapped s' g' 0xE000000 hlo ∧
      ∀ f, IsFrame f → 0x400000 ≤ f → g'.own f = .free := by
  obtain ⟨s', hrun, g', h', hfree⟩ := freeLoop_rule kfree 4096 0x400 0xE000
    (I := fun k s => ∃ g, Mapped s g (4096 * k) hlo ∧ ∀ f, IsFrame f → 0x400000 ≤ f → f < 4096 * k → g.own f = .free)
    (by omega) (by omega) (fun k s hlo hk ⟨g, h, hfree⟩ => by
      have hf := isFrame_page (show 0x117 ≤ k by omega) hk
      obtain ⟨g', hbare, hwithin, htemp, hown⟩ := h.toBare.free hf
      have hnew : g'.own (4096 * k) = .free := by rw [hown, update_self]
      refine ⟨_, kfree_run hf s, g', ⟨hbare, h.kern.within h.sys hwithin (by simp [htemp]) (by simp [hnew])
        (.inl (by simp [htemp, Role.fixed])), h.cpu.within hwithin (by simp [htemp]) (by simp [hnew])⟩,
        fun f hf' hle hlt => ?_⟩
      rw [hown]
      by_cases hne : f = 4096 * k
      · rw [hne, update_self]
      · have halign := hf'.1
        rw [update_of_ne hne, hfree f hf' hle (by omega)]) (2 ^ 20) 0x400 s le_rfl (by omega) (by omega)
    ⟨g, h, fun f _ hle hlt => by omega⟩
  exact ⟨s', g', hrun, h', fun f hf hle => hfree f hf hle hf.2.2⟩

theorem khugeinit_spec (h : Mapped s g lo 0x1E000000) :
    ∃ s' g', (khugeinit (P2V HUGE_PAGE_START) (P2V HUGE_PAGE_END)).run s = .ok () s' ∧ Mapped s' g' lo 0x3E000000 ∧
      g'.free = g.free := by
  obtain ⟨s', hrun, g', h', hfree⟩ := freeLoop_rule khugefree 0x400000 120 248
    (I := fun k s => ∃ g', Mapped s g' lo (0x400000 * k) ∧ g'.free = g.free) (by omega) (by omega)
    (fun k s hlo hk ⟨g', h, hfree⟩ => by
      have hf := isHuge_page hlo hk
      have htemp := h.hhigh _ hf le_rfl
      have hsame (x : Nat) (hx : IsFrame x) : SameOn s.mem (s.hugefreed (0x400000 * k)).mem x 4096 := by
        have hapart := hx.apart_huge hf
        exact (fill_sameOn _ (by omega)).trans (store32_sameOn _ (by omega))
      refine ⟨_, khugefree_run hf s, _, ⟨⟨h.sys.hpush hf htemp, h.low, h.high, fun f hf' hlt => ?_, fun f hf' hle => ?_,
        h.proc, h.file⟩, ⟨?_, h.kern.dir_of⟩,
        ⟨h.cpu.nodup, h.cpu.stack, h.cpu.stack_of⟩⟩, hfree⟩
      · by_cases hne : f = 0x400000 * k
        · exact hne ▸ update_self _ _ _
        · have halign := hf'.1
          exact (update_of_ne hne _ _).trans (h.hlow f hf' (by omega))
      · exact (update_of_ne (by omega) _ _).trans (h.hhigh f hf' (by omega))
      · obtain ⟨d, hd, hdir, hkpgdir, hkern, hlow⟩ := h.kern.dir
        have hview := h.sys.view_congr hd hdir (hsame d hd) fun t _ ht _ => hsame t ht
        exact ⟨d, hd, hdir, hkpgdir, hkern.congr (fun k _ hk => hview.1 k hk) fun i _ hi => hview.2 i hi,
          fun i hi => (entry_eq_of_sameOn (hsame d hd) (by omega)).trans (hlow i hi)⟩) (2 ^ 10) 120 s le_rfl
    (by omega) (by omega) ⟨g, h, rfl⟩
  exact ⟨s', g', hrun, h', hfree⟩

/-- With all frames handed over, the invariant holds of a kernel without processes. -/
theorem Mapped.sound (h : Mapped s g 0xE000000 0x3E000000) : Sound s g := by
  have hrole (f : Nat) (hf : IsFrame f) := h.low f hf hf.2.2
  have hno (f : Nat) (hf : IsFrame f) : g.own f ≠ .pipe := by
    rcases hrole f hf with hr | hr | ⟨d, i, hr⟩ | hr <;> simp [hr]
  refine ⟨h.sys, fun f hf => ?_, h.kern, fun p => Vacant.inv ⟨fun f hf => ?_, fun f hf => ?_⟩ ?_,
    h.cpu, ⟨fun f _ => ?_, fun f hf => ?_, fun f f' hf => ?_, fun x w hx hr => ?_, fun x hx hr => ?_⟩⟩
  · rcases hrole f hf with hr | hr | ⟨d, i, hr⟩ | hr <;> simp [hr]
  · rcases hrole f hf with hr | hr | ⟨d, i, hr⟩ | hr <;> simp [hr]
  · rcases hrole f hf with hr | hr | ⟨d, i, hr⟩ | hr <;> simp [hr]
  · rw [h.proc p]
    rfl
  · simp [h.file f]
  · simp [h.file f] at hf
  · simp [h.file f] at hf
  · exact absurd hr (hno x hx)
  · exact absurd hr (hno x hx)

end phases

section userinit

variable {s : Machine} {g : Ghost} {d : Nat} {o : DirOwner} {initcode : List UInt8}

theorem inituvm_spec (hs : Sys s g) (hd : IsFrame d) (hdir : g.own d = .dir o) (hlow : ∀ i < 512, entry s.mem d i = 0)
    (hlen : 2 ≤ g.free.length) (hcode : initcode.length < 4096) :
    ∃ s' g', (inituvm (P2V d) initcode).run s = .ok () s' ∧ Sys s' g' ∧ UserStep d (fun _ => False) s g s' g' ∧
      Layout s'.mem d 4096 0 ∧ g'.hfree = g.hfree ∧ g.free.length ≤ g'.free.length + 2 ∧
      lookup s'.mem d 0 % 4096 = 7 := by
  cases hfree : g.free with
  | nil =>
    rw [hfree] at hlen
    simp at hlen
  | cons f L =>
    rw [hfree, List.length_cons] at hlen
    obtain ⟨hf, hrole⟩ := (hs.mem_free f).1 (by simp [hfree])
    have hflt := hf.lt
    have hv : V2P (P2V f) = f := V2P_P2V (by omega)
    have hlook (k : Nat) (hk : k < 2 ^ 19) : lookup s.mem d k = 0 :=
      lookup_of_absent (by rw [hlow _ (by omega)])
    have hhuge (i : Nat) (hi : i < 512) : hugeAt s.mem d i = 0 := hugeAt_of_not (by rw [hlow i hi]; omega)
    rcases mappages_fresh (k := 0) (m := fill s.mem f 0 4096) hs hd hdir (by omega) (hhuge _ (by omega)) (hlook 0 (by omega)) hfree
        (fun x hx hxf => fill_sameOn_frame hf hx hxf) (fun x hx => fill_sameOn_huge hf hx) (show 7 < 4096 by omega) rfl
        (user_entry_or hf.1) with ⟨s₁, g₁, hmap, hs₁, -, hgrown⟩ | ⟨-, hnil, -⟩
    swap
    · rw [hnil] at hlen
      simp at hlen
    have hblit := blit_page initcode hs₁ hd (hgrown.dir.trans hdir) hf hgrown.page
      (show 0 + initcode.length ≤ 4096 by omega)
    rw [Nat.add_zero] at hblit
    obtain ⟨hs₂, hstep, hlook₂, hentry₂⟩ := hblit
    refine ⟨_, g₁, ?_, hs₂, hgrown.toUserStep.trans hstep, ⟨fun k hk => ?_, fun i hi => ?_, fun i hi hi' _ => ?_⟩,
      hgrown.hfree, ?_, ?_⟩
    · unfold inituvm
      rw [if_neg (by simp only [PGSIZE]; omega), bind_ok (kalloc_cons hs hfree), memset_bind, hv]
      rw [Nat.mul_zero] at hmap
      refine (bind_ok hmap).trans ?_
      unfold writeBytes
      rw [EStateM.run_modify, hv]
    · rw [hlook₂ k (by omega), hgrown.lookup_eq k (by omega)]
      split_ifs with hk0
      · exact iff_of_true (by omega) (by omega)
      · rw [hlook k hk]
        exact iff_of_false (by simp) (by omega)
    · rw [hugeAt_congr (hentry₂ i (by omega)), hgrown.huge_eq i (by omega), hhuge i hi]
      exact iff_of_false (by simp) (by omega)
    · rw [hentry₂ i (by omega), hgrown.entry_eq i (by omega) (by omega), hlow i (by omega)]
    · rcases hgrown.free with ⟨-, h⟩ | ⟨-, t, h⟩
      · rw [← hfree, h, List.length_cons]
        omega
      · rw [← hfree, h, List.length_cons, List.length_cons]
    · rw [hlook₂ 0 (by omega), hgrown.lookup_eq 0 (by omega), if_pos rfl, Nat.add_mod, hf.1]

/-- The machine that `main` hands to the scheduler. Its only process has one page, which it can write, no file is open,
and no huge frame is in use or lost. -/
structure First (s : Machine) (g : Ghost) : Prop where
  sound : Sound s g
  huge : ∀ f, IsHuge f → g.hown f ≠ .temp
  initproc : s.initproc = 0
  run : (s.proc 0).state = .RUNNABLE
  sz : (s.proc 0).sz = 4096
  hugesz : (s.proc 0).hugesz = 0
  zero : ∀ q, q ≠ 0 → s.proc q = .zero
  hfree : 128 ≤ g.hfree.length
  free : 56000 ≤ g.free.length
  file : ∀ f, (s.file f).ref = 0
  ofile : ∀ fd, (s.proc 0).ofile fd = none
  killed : (s.proc 0).killed = false
  page : lookup s.mem (V2P (s.proc 0).pgdir) 0 % 4096 = 7

theorem First.holds (h : First s g) : ∃ d k, Holds s g 0 d k := h.sound.holds (by simp [h.run])

/-- The first process gets slot 0. -/
theorem userinit_spec (h : Mapped s g 0xE000000 0x3E000000) (hhfree : 128 ≤ g.hfree.length) (hlen : 56068 ≤ g.free.length)
    (hcode : initcode.length < 4096) : ∃ s' g', (userinit initcode).run s = .ok () s' ∧ First s' g' := by
  have hproc := h.proc
  have hslot : (findSlot fun p => decide ((s.proc p).state = .UNUSED)) = some 0 := by
    simp only [hproc, Proc.zero]
    rfl
  have hsound : Sound { s with initproc := 0 } g := h.sound.adjust rfl
  cases hfree : g.free with
  | nil =>
    rw [hfree] at hlen
    simp at hlen
  | cons f L =>
    rw [hfree, List.length_cons] at hlen
    rcases setupkvm_spec (hsound.embryo 0 hfree).sys with ⟨d, s₂, g₂, hrun₂, hs₂, hnew⟩ | ⟨-, -, -, -, -, hshort⟩
    swap
    · change L.length < 65 at hshort
      omega
    have hlen₂ : L.length = g₂.free.length + 65 := hnew.free
    have hdlt := hnew.frame.lt
    have hne : ¬ P2V d = 0 := P2V_ne_zero (by omega)
    have hs₃ : Sys { s₂ with proc := update s₂.proc 0 { s₂.proc 0 with pgdir := P2V d } } g₂ :=
      hs₂.congr_mem rfl rfl rfl
    obtain ⟨s₄, g₄, hrun₄, hs₄, hstep, hl, hhfree₄, hlen₄, hflags⟩ :=
      inituvm_spec hs₃ hnew.frame hnew.dir hnew.low (by omega) hcode
    have hsame₄ : s₄.proc = update s₂.proc 0 { s₂.proc 0 with pgdir := P2V d } := by rw [hstep.rest]
    have hsame₂ : s₂.proc = (s.embryo 0 f).proc := by rw [hnew.within.rest]; rfl
    have hp : s₄.proc 0 = { Proc.zero with state := .EMBRYO, pid := s.nextpid, kstack := P2V f, pgdir := P2V d } := by
      simp only [hsame₄, update_self, hsame₂, Machine.embryo, hproc]
    have hother (q : Fin NPROC) (hq : q ≠ 0) : s₄.proc q = .zero := by
      simp only [hsame₄, update_of_ne hq, hsame₂, Machine.embryo, hproc]
    obtain ⟨s', hs'⟩ : ∃ s' : Machine, s' = { s₄ with proc := update s₄.proc 0 { s₄.proc 0 with
      sz := PGSIZE, tf := { eax := 0, eip := 0, esp := PGSIZE }, name := "initcode".toUTF8.toList,
      state := .RUNNABLE } } := ⟨_, rfl⟩
    have hp' : s'.proc 0 = { Proc.zero with
        state := .RUNNABLE, pid := s.nextpid, kstack := P2V f, pgdir := P2V d, sz := PGSIZE,
        tf := { eax := 0, eip := 0, esp := PGSIZE }, name := "initcode".toUTF8.toList } := by
      simp only [hs', update_self, hp]
    have hother' (q : Fin NPROC) (hq : q ≠ 0) : s'.proc q = .zero := by
      simp only [hs', update_of_ne hq, hother q hq]
    have hnew' : Within (WholeArea d) (fun _ => False) _ (g.embryo 0 f L)
        (({ s with initproc := 0 } : Machine).embryo 0 f |>.withMem s₂) g₂ := hnew.whole.withMem rfl
    have hw := (hnew'.trans (hstep.whole.withMem rfl)).mono (fun _ _ h => h) (HugeArea.of_false (d := d))
    obtain ⟨haside, hholds⟩ := hsound.spawn (by simp [hproc, Proc.zero]) hfree hnew.frame hnew.was
      (hstep.dir.trans hnew.dir) hw (hs₄.congr_mem rfl rfl rfl) (hstep.kernOK hs₃ hnew.frame hnew.dir hnew.kern)
      (show s' = _ by rw [hs', hstep.rest, hnew.within.rest]; rfl) (fun q hq => (hother' q hq).trans (hproc q).symm) (by rw [hp']; exact hl)
      (by rw [hp']) (by rw [hp'])
    refine ⟨s', _, ?_, haside.sound (hholds.inv (by simp [hp']) (by simp [hp'])), fun x hx htemp => ?_, ?_, by rw [hp'],
      by rw [hp'], by rw [hp']; rfl, hother', ?_, ?_, fun x => ?_, fun fd => by rw [hp']; rfl, by rw [hp']; rfl, ?_⟩
    · unfold userinit
      rw [bind_ok (allocproc_cons h.sys hslot hfree)]
      simp only []
      rw [modify_bind]
      refine (bind_ok hrun₂).trans ?_
      rw [updateProc_bind, if_neg hne, bind_ok hrun₄, hs']
      rfl
    · have hlost : g.hown x = .temp := hw.saved (by simp [HugeArea]) x hx htemp
      simp [h.hlow x hx hx.2.2] at hlost
    · exact haside.initproc
    · change 128 ≤ g₄.hfree.length
      rw [hhfree₄, hnew.hfree]
      exact hhfree
    · change 56000 ≤ g₄.free.length
      omega
    · rw [hs', hstep.rest, hnew.within.rest]
      exact (h.file x).2
    · rw [hp', hs', V2P_P2V (show d < 2 ^ 32 by omega)]
      exact hflags

/-- The machine boots. -/
theorem boot_spec (mem : Mem) (ncpu : Nat) (initcode : List UInt8) (hcpu : ncpu ≤ NCPU) (hcode : initcode.length < 4096) :
    ∃ s g, (main ncpu initcode).run (Machine.reset mem) = .ok () s ∧ First s g := by
  obtain ⟨g₀, h₀⟩ := Bare.reset mem
  obtain ⟨s₁, g₁, hrun₁, h₁⟩ := kinit1_spec
    (show Primed (Machine.reset mem) g₀ 0x117000 0x1E000000 from
      ⟨h₀, fun f hf hlt => absurd hf.2.1 (by omega), rfl⟩)
  obtain ⟨s₂, g₂, hrun₂, h₂, hlen₂⟩ := kvmalloc_spec h₁
  obtain ⟨s₃, g₃, hrun₃, h₃⟩ := startothers_spec (ncpu - 1) s₂ g₂ h₂ (by simp only [NCPU] at hcpu; omega)
  obtain ⟨s₄, g₄, hrun₄, h₄, hfree₄⟩ := kinit2_spec h₃
  have hlen₄ := h₄.sys.le_free_length 0x400 0xE000 fun k hlo hhi =>
    have hf := isFrame_page (show 0x117 ≤ k by omega) hhi
    ⟨hf, hfree₄ _ hf (by omega)⟩
  obtain ⟨s₅, g₅, hrun₅, h₅, hfree₅⟩ := khugeinit_spec h₄
  have hlen₅ := h₅.sys.le_hfree_length 120 248 fun k hlo hhi =>
    have hf := isHuge_page hlo hhi
    ⟨hf, h₅.hlow _ hf hf.2.2⟩
  obtain ⟨s, g, hrun, hfirst⟩ := userinit_spec h₅ (by omega) (by rw [hfree₅]; omega) hcode
  refine ⟨s, g, ?_, hfirst⟩
  unfold main
  rw [bind_ok hrun₁, bind_ok hrun₂, bind_ok hrun₃, bind_ok hrun₄, bind_ok hrun₅, hrun]

theorem boot_first : ∃ s g d k, (main 1 []).run (Machine.reset fun _ => 0) = .ok () s ∧ First s g ∧ Holds s g 0 d k := by
  obtain ⟨s, g, hrun, hfirst⟩ := boot_spec (fun _ => 0) 1 [] (by decide) (by decide)
  obtain ⟨d, k, hh⟩ := hfirst.holds
  exact ⟨s, g, d, k, hrun, hfirst, hh⟩

end userinit

end xv6
