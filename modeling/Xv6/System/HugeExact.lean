import Xv6.System.GrowExact

open bytes chain outcome Function

namespace xv6

/-- Directory `d` and its page tables hold the same entries in two memories. -/
structure SameMap (d : Nat) (m m' : Mem) : Prop where
  lookup_eq : ∀ k < 2 ^ 20, lookup m' d k = lookup m d k
  huge_eq : ∀ i < 1024, hugeAt m' d i = hugeAt m d i

/-- The list from `freehugelist` ends and consists of the frames `L`. -/
def HugeList (s : Machine) (L : List Nat) : Prop := Chain (load32 s.mem) P2V s.freehugelist L

/-- The result `r` of `growhugeproc` goes with the state `s'` it leaves, where
`free` are the huge frames that were free before: the new size with the 4MB
entries for it and the other frames free, or -1 and everything as before. -/
def HugeExactly (s : Machine) (p : Fin NPROC) (n : Int) (free : List Nat) (r : Int) (s' : Machine) : Prop :=
  (r = 0 ∧ ((s'.proc p).hugesz : Int) = (s.proc p).hugesz + n ∧
    (∀ i < 512, hugeAt s'.mem (V2P (s.proc p).pgdir) i ≠ 0 ↔
      HUGE_VA_OFFSET ≤ 0x400000 * i ∧ 0x400000 * i < HUGE_VA_OFFSET + (s'.proc p).hugesz) ∧
    ∃ L, HugeList s' L ∧ ∀ i < 512, hugeAt s.mem (V2P (s.proc p).pgdir) i ≠ 0 →
      hugeAt s'.mem (V2P (s.proc p).pgdir) i = 0 → PTE_ADDR (hugeAt s.mem (V2P (s.proc p).pgdir) i) ∈ L) ∨
  (r = -1 ∧ (s'.proc p).hugesz = (s.proc p).hugesz ∧ SameMap (V2P (s.proc p).pgdir) s.mem s'.mem ∧
    ∃ L, HugeList s' L ∧ ∀ f, f ∈ L ↔ f ∈ free)

/-- `growhugeproc` returns, and has done what its result says. -/
def HugeGrowExact (s : Machine) (p : Fin NPROC) (n : Int) (free : List Nat) : Prop :=
  ∃ r s', (growhugeproc p n).run s = .ok r s' ∧ HugeExactly s p n free r s'

/-- The huge pages that start below `hugesz` look empty to `deallocuvm`. -/
def EvenHuge (s : Machine) (p : Fin NPROC) : Prop :=
  ∀ i : Nat, 120 ≤ i → 0x400000 * i < (s.proc p).hugesz →
    load32 s.mem (PTE_ADDR (hugeAt s.mem (V2P (s.proc p).pgdir) i)) % 2 = 0

/-- The huge heap grows and there are enough huge frames, or none at all; or it
is empty; or it is given back as a whole by a process without base pages, with
no huge page below `hugesz` whose first word is odd. -/
def HugeGrowOK (s : Machine) (p : Fin NPROC) (n : Int) (avail : Nat) : Prop :=
  (0 < n ∧ (hugeNeed ((s.proc p).hugesz + n.toNat) ≤ hugeNeed (s.proc p).hugesz + avail ∨
    avail = 0 ∧ (HUGE_VA_OFFSET : Int) + ((s.proc p).hugesz + n) ≤ KERNBASE)) ∨
  (n < 0 ∧ (s.proc p).hugesz = 0) ∨
  (n < 0 ∧ ((s.proc p).hugesz : Int) + n = 0 ∧ (s.proc p).sz = 0 ∧ EvenHuge s p)

section cases

variable {s s' : Machine} {g : Ghost} {p : Fin NPROC} {d : Nat} {n : Int}

theorem growhugeproc_none (hd : ProcDir s g p d) (hkstack : (s.proc p).kstack ≠ 0) :
    (growhugeproc p 0).run s =
      .ok 0 (s.resized p (s.proc p).sz (u32 ((s.proc p).hugesz + (2 ^ 32 - HUGE_VA_OFFSET)))) := by
  unfold growhugeproc
  rw [get_bind]
  simp only []
  rw [if_neg (by omega), if_neg (by omega), commit_hugesz _ hd.pgdir_ne hkstack]

/-- Shrinking calls `deallocuvm` with the size of the huge heap for an address. -/
theorem growhugeproc_shrink (hd : ProcDir s g p d) (hneg : n < 0) :
    (growhugeproc p n).run s = (do
      let sz ← deallocuvm (P2V d) (s.proc p).hugesz (addInt (s.proc p).hugesz n)
      if sz = 0 then
        return -1
      else
        updateProc p fun proc => { proc with hugesz := u32 (sz + (2 ^ 32 - HUGE_VA_OFFSET)) }
        switchuvm p
        return 0 : KernelM Int).run s := by
  unfold growhugeproc
  rw [get_bind]
  simp only []
  rw [if_neg (by omega), if_pos hneg, hd.pgdir]

/-- More than there is: nothing happens, but the size is set. -/
theorem growhugeproc_wrap (hs : Sys s g) (hd : ProcDir s g p d) (hkstack : (s.proc p).kstack ≠ 0) (hlo : -2 ^ 31 ≤ n)
    (hneg : ((s.proc p).hugesz : Int) + n < 0) :
    (growhugeproc p n).run s =
      if (s.proc p).hugesz = 0 then .ok (-1) s
      else .ok 0 (s.resized p (s.proc p).sz (u32 ((s.proc p).hugesz + (2 ^ 32 - HUGE_VA_OFFSET)))) := by
  have hhuge := hd.layout.hugesz_le hs hd.frame hd.role
  have hge := addInt_wrap (by omega) hlo hneg
  rw [growhugeproc_shrink hd (by omega), deallocuvm, if_pos (by omega), pure_bind]
  split_ifs with hz
  · rfl
  · exact commit_hugesz _ hd.pgdir_ne hkstack

/-- The size after a shrinkage is off by `HUGE_VA_OFFSET`. -/
theorem hugesz_off (x : Nat) : u32 (x + (2 ^ 32 - HUGE_VA_OFFSET)) ≠ x := by
  simp only [u32, HUGE_VA_OFFSET]
  omega

end cases

section lost

variable {s s' : Machine} {g : Ghost} {d k oldsz : Nat} {o : DirOwner} {free : List Nat}

/-- The list from `freehugelist` does not consist of frames of `free`: it holds another frame or never ends. -/
def Lost (s : Machine) (free : List Nat) : Prop := ∀ L, HugeList s L → ∃ f ∈ L, f ∉ free

theorem P2V_huge_inj {x y : Nat} (hx : IsHuge x) (hy : IsHuge y) (h : P2V x = P2V y) : x = y := by
  have hxlt := hx.lt
  have hylt := hy.lt
  exact P2V_inj (by omega) (by omega) h

/-- Freeing a frame on behalf of a huge page that is in use spoils the free list for good. -/
theorem Lost.misfreed {f x : Nat} (hf : IsHuge f) (hfree : ∀ y ∈ free, IsHuge y) (hused : f ∉ free) (hx : IsHuge x)
    (hlt : s.freehugelist < 2 ^ 32) (h : HugeList s free ∨ Lost s free) : Lost (s.misfreed f x) free := by
  intro L hL
  by_contra hall
  simp only [not_exists, not_and, not_not] at hall
  have hnz {y : Nat} (hy : IsHuge y) : P2V y ≠ 0 := by
    have := hy.lt
    exact P2V_ne_zero (by omega)
  have hkeep {y : Nat} (hy : IsHuge y) (hyf : y ≠ f) (hyx : y ≠ x) :
      load32 (s.misfreed f x).mem y = load32 s.mem y := by
    have hfy := hf.apart hy (Ne.symm hyf)
    have hxy := hx.apart hy (Ne.symm hyx)
    exact (((fill_sameOn s.mem (c := 1) (show x + 0x400000 ≤ y ∨ y + 4 ≤ x by omega)).trans
      (store32_sameOn _ (by omega))).trans (store32_sameOn _ (by omega))).load32_eq (by omega) (by omega)
  cases L with
  | nil => exact hnz hx hL
  | cons y L =>
    -- the list starts with the frame that has been freed
    obtain rfl : x = y := P2V_huge_inj hx (hfree y (hall y (by simp))) hL.1
    have hxf : x ≠ f := fun h => hused (h ▸ hall x (by simp))
    have hLfree (z : Nat) (hz : z ∈ L) : IsHuge z := hfree z (hall z (by simp [hz]))
    have hnext : load32 (s.misfreed f x).mem x = s.freehugelist := by
      have hapart := hf.apart hx (Ne.symm hxf)
      exact (load32_store32_ne _ (by omega)).trans (load32_store32_same _ x hlt)
    have hnotin : x ∉ L := Chain.notMem (fun _ _ => P2V_huge_inj) (fun _ => hnz) hL hLfree
    have hold : HugeList s L := by
      have htail := hL.2
      rw [hnext] at htail
      refine htail.congr fun z hz => (hkeep (hLfree z hz) ?_ ?_).symm
      · exact fun h => hused (h ▸ hall z (by simp [hz]))
      · exact fun h => hnotin (h ▸ hz)
    rcases h with h | h
    · rw [Chain.unique (fun _ _ => P2V_huge_inj) (fun _ => hnz) hold h hLfree hfree] at hnotin
      exact hnotin (hall x (by simp))
    · obtain ⟨z, hz, hzfree⟩ := h L hold
      exact hzfree (hall z (by simp [hz]))

/-- How far `deallocuvm` has come in a directory without base pages: it has
changed nothing and passed huge pages with even first words only, or the free
list is spoiled. -/
structure Idled (d : Nat) (s : Machine) (g : Ghost) (k : Nat) (t : Machine) : Prop where
  loose : Loose t g.noHuge
  none : ∀ k < 2 ^ 19, lookup t.mem d k = 0
  entry_eq : ∀ i < 1024, entry t.mem d i = entry s.mem d i
  slot : k % 1024 = 0 ∨ hugeAt t.mem d (k / 1024) = 0
  le : k ≤ 2 ^ 19
  list : (t.mem = s.mem ∧ t.freehugelist = s.freehugelist ∧ ∀ i f, 1024 * i < k → IsHuge f → entry s.mem d i = f + 0x87 →
    entry s.mem f 0 % 2 = 0) ∨ Lost t g.hfree

/-- A step that changes nothing and meets no huge page with an odd first word. -/
theorem Idled.pass {k' : Nat} {t : Machine} (h : Idled d s g k t)
    (hslot : k' % 1024 = 0 ∨ hugeAt t.mem d (k' / 1024) = 0) (hle : k' ≤ 2 ^ 19)
    (heven : ∀ i f, k ≤ 1024 * i → 1024 * i < k' → IsHuge f → entry t.mem d i = f + 0x87 → entry t.mem f 0 % 2 = 0) :
    Idled d s g k' t := by
  refine ⟨h.loose, h.none, h.entry_eq, hslot, hle, h.list.imp ?_ id⟩
  rintro ⟨hmem, hlist, hpassed⟩
  refine ⟨hmem, hlist, fun i f hi hf hpde => ?_⟩
  by_cases hik : 1024 * i < k
  · exact hpassed i f hik hf hpde
  · rw [← hmem] at hpde ⊢
    exact heven i f (by omega) hi hf hpde

theorem Idled.step {t : Machine} (h : Idled d s g k t) (hs : Sys s g) (hd : IsFrame d) (hdir : g.own d = .dir o)
    (hk : k < 2 ^ 19) :
    (∃ e t', (deallocuvm.step (P2V d) (4096 * k)).run t = .error e t') ∨
      ∃ k' t', (deallocuvm.step (P2V d) (4096 * k)).run t = .ok (4096 * k') t' ∧ k < k' ∧ Idled d s g k' t' := by
  have hloose := h.loose
  rcases hloose.sys.pde d o hd hdir (k / 1024) (by omega) with hz | ⟨x, hx, htable, hpde⟩ | ⟨_, f, hf, hrole, hpde⟩ | ⟨hlo, _⟩
  · have hz : entry t.mem d (k / 1024) = 0 := hz
    refine .inr ⟨1024 * (k / 1024 + 1), t, dealloc_step_absent hd (by omega) hz, by omega,
      h.pass (.inl (by omega)) (by omega) fun i f hlo hhi hf hpde => ?_⟩
    rw [show i = k / 1024 by omega] at hpde
    omega
  · have hpde : entry t.mem d (k / 1024) = x + 7 := hpde
    have halign := hx.1
    have hempty : entry t.mem x (k % 1024) = 0 := (hloose.sys.lookup_table hx htable).symm.trans (h.none k hk)
    refine .inr ⟨k + 1, t, dealloc_step_empty hd (by omega) hx hpde (by omega), by omega, h.pass ?_ (by omega) ?_⟩
    · by_cases hk' : (k + 1) % 1024 = 0
      · exact .inl hk'
      · right
        rw [show (k + 1) / 1024 = k / 1024 by omega]
        exact hugeAt_of_not (by omega)
    · rintro i f hlo hhi ⟨hf, -, -⟩ hpde'
      rw [show i = k / 1024 by omega] at hpde'
      omega
  · have hpde : entry t.mem d (k / 1024) = f + 0x87 := hpde
    have halign := hf.1
    have hne : hugeAt t.mem d (k / 1024) ≠ 0 := by
      rw [hugeAt_ne_zero_iff]
      omega
    have hk0 : k % 1024 = 0 := h.slot.resolve_right hne
    obtain ⟨i, rfl⟩ : ∃ i, k = 1024 * i := ⟨k / 1024, by omega⟩
    rw [show 1024 * i / 1024 = i by omega] at hpde hrole
    have hused : f ∉ g.hfree := by
      intro hmem
      have hfree := ((hs.mem_hfree f).1 hmem).2
      simp [Ghost.noHuge, hfree] at hrole
    rcases loose_step_huge hloose hd hdir (by omega) hf hpde with ⟨-, -, e, fr, hrun⟩ | ⟨t', hrun, hloose', hstep, hcase⟩
    · exact .inl ⟨e, _, hrun⟩
    · refine .inr ⟨1024 * (i + 1), t', hrun, by omega, ?_⟩
      rcases hcase with ⟨heven, rfl⟩ | ⟨hx, rfl⟩
      · refine h.pass (.inl (by omega)) (by omega) fun i' f' hlo hhi hf' hpde' => ?_
        rw [show i' = i by omega, hpde] at hpde'
        rw [show f' = f by omega, heven]
      · refine ⟨hloose', fun k' hk' => ?_, fun i' hi' => (hstep.entry_eq i' hi').trans (h.entry_eq i' hi'),
          .inl (by omega), by omega, .inr (Lost.misfreed hf (fun y hy => ((hs.mem_hfree y).1 hy).1) hused hx hloose.lt ?_)⟩
        · rw [hstep.lookup_eq k' (by omega)]
          split_ifs
          · rfl
          · exact h.none k' hk'
        · refine h.list.imp ?_ id
          rintro ⟨hmem, hlist, -⟩
          unfold HugeList
          rw [hmem, hlist]
          exact hs.hchain
  · omega

/-- `deallocuvm` in a directory without base pages. -/
theorem dealloc_idled (hs : Sys s g) (hd : IsFrame d) (hdir : g.own d = .dir o) (hold : oldsz ≤ 0x80000000)
    (hpos : 0 < oldsz) (hnone : ∀ k < 2 ^ 19, lookup s.mem d k = 0) (hlow : hugeAt s.mem d 0 = 0) :
    (∃ e s', (deallocuvm (P2V d) oldsz 0).run s = .error e s') ∨
      ∃ k s', (deallocuvm (P2V d) oldsz 0).run s = .ok 0 s' ∧ oldsz ≤ 4096 * k ∧ Idled d s g k s' := by
  have hstart : deallocStart s.mem d 0 = 0 := by rw [deallocStart, if_pos hlow]
  rw [deallocuvm_run hd (hs.pde d o hd hdir _ (by omega)) hpos (by omega), hstart]
  have hidle : Idled d s g 0 s :=
    ⟨hs.loose, hnone, fun _ _ => rfl, .inl rfl, by omega, .inl ⟨rfl, rfl, fun i f hi => by omega⟩⟩
  have hrule := dealloc_loop_rule d oldsz (I := Idled d s g) (E := fun _ => True) (fun k t h hlt => by
      rcases h.step hs hd hdir (by omega) with ⟨e, t', hrun⟩ | h'
      · exact .inl ⟨e, t', hrun, trivial⟩
      · exact .inr h') (2 ^ 20 + 1) (by omega) (by omega) hidle
  rcases hrule with ⟨e, s', hrun, -⟩ | ⟨k, s', hrun, hk, hidled⟩
  · exact .inl ⟨e, s', by rw [bind_error hrun]⟩
  · exact .inr ⟨k, s', by rw [bind_ok hrun, EStateM.run_pure], hk, hidled⟩

end lost

section exact

variable {s s' : Machine} {g : Ghost} {p : Fin NPROC} {d : Nat} {n r : Int} {free : List Nat}

theorem hugeExact_iff_of_run (h : (growhugeproc p n).run s = .ok r s') :
    HugeGrowExact s p n free ↔ HugeExactly s p n free r s' := by
  refine ⟨?_, fun hex => ⟨r, s', h, hex⟩⟩
  rintro ⟨r', s'', h', hex⟩
  rw [h] at h'
  cases h'
  exact hex

theorem not_hugeExact_of_error {e : Halt} (h : (growhugeproc p n).run s = .error e s') : ¬ HugeGrowExact s p n free := by
  rintro ⟨r, s'', h', -⟩
  rw [h] at h'
  cases h'

/-- A call that succeeds has to set the size. -/
theorem HugeExactly.size (h : HugeExactly s p n free 0 s') : ((s'.proc p).hugesz : Int) = (s.proc p).hugesz + n := by
  rcases h with ⟨-, h, -⟩ | ⟨h, -⟩
  · exact h
  · omega

theorem HugeExactly.refl (hs : Sys s g) : HugeExactly s p n g.hfree (-1) s :=
  .inr ⟨rfl, rfl, ⟨fun _ _ => rfl, fun _ _ => rfl⟩, g.hfree, hs.hchain, fun _ => Iff.rfl⟩

/-- Shrinking to a size that is not zero: it is set to another. -/
theorem not_hugeExact_of_shrunk {newsz : Nat} (hs : Sys s g) (hd : ProcDir s g p d) (hkstack : (s.proc p).kstack ≠ 0)
    (hneg : n < 0) (hnew : ((s.proc p).hugesz : Int) + n = newsz) (hpos : 0 < newsz) : ¬ HugeGrowExact s p n free := by
  have hhuge := hd.layout.hugesz_le hs hd.frame hd.role
  have hadd : addInt (s.proc p).hugesz n = newsz := by
    have := addInt_eq (a := (s.proc p).hugesz) (n := n) (by omega) (by omega)
    omega
  have hshrink := growhugeproc_shrink hd hneg
  rw [hadd] at hshrink
  rcases dealloc_loose hs hd.frame hd.role (show (s.proc p).hugesz ≤ 0x80000000 by omega)
      (show newsz < (s.proc p).hugesz by omega) with
    ⟨e, s', _, _, hrun, -⟩ | ⟨s', g', hrun, hstep⟩
  · exact not_hugeExact_of_error (hshrink.trans (bind_error hrun))
  · have hsame : s'.proc p = s.proc p := by rw [hstep.rest]
    rw [bind_ok hrun, if_neg (by omega), commit_hugesz _ (hsame ▸ hd.pgdir_ne) (hsame ▸ hkstack)] at hshrink
    rw [hugeExact_iff_of_run hshrink]
    intro hex
    have hsize := hex.size
    rw [Machine.resized_proc] at hsize
    exact hugesz_off newsz (by simp only at hsize; omega)

theorem evenHuge_iff (hs : Sys s g) (hd : ProcDir s g p d) :
    EvenHuge s p ↔ ∀ i f, 0x400000 * i < (s.proc p).hugesz → IsHuge f → entry s.mem d i = f + 0x87 →
      entry s.mem f 0 % 2 = 0 := by
  have hl := hd.layout
  have hhuge := hl.hugesz_le hs hd.frame hd.role
  have hdlt := hd.frame.lt
  unfold EvenHuge
  rw [hd.pgdir, V2P_P2V (by omega)]
  constructor
  · intro h i f hin hf hpde
    have halign := hf.1
    have hat : hugeAt s.mem d i = f + 0x87 := by rw [hugeAt_of_huge (by omega) (by omega), hpde]
    have hslot := (hl.huge i (by omega)).1 (by omega)
    have heven := h i hslot.1 hin
    rw [hat, PTE_ADDR_add (by omega) (by omega)] at heven
    exact heven
  · intro h i hlo hin
    obtain ⟨f, hf, -, hpde, hat⟩ := (hs.hugeAt_user hd.frame hd.role (show i < 512 by omega)).resolve_left
      ((hl.huge i (by omega)).2 ⟨hlo, by omega⟩)
    have halign := hf.1
    rw [hat, PTE_ADDR_add (by omega) (by omega)]
    exact h i f hin hf hpde

/-- Giving back the whole huge heap fails. It leaves everything as before if the
process has no base pages and the huge pages below `hugesz` look empty. -/
theorem hugeExact_emptied_iff (hs : Sys s g) (hd : ProcDir s g p d) (hneg : n < 0)
    (hzero : ((s.proc p).hugesz : Int) + n = 0) :
    HugeGrowExact s p n g.hfree ↔ (s.proc p).sz = 0 ∧ EvenHuge s p := by
  have hl := hd.layout
  have hhuge := hl.hugesz_le hs hd.frame hd.role
  have hdlt := hd.frame.lt
  have hdir : V2P (s.proc p).pgdir = d := by rw [hd.pgdir, V2P_P2V (by omega)]
  have hadd : addInt (s.proc p).hugesz n = 0 := by
    have := addInt_eq (a := (s.proc p).hugesz) (n := n) (by omega) (by omega)
    omega
  have hlow : hugeAt s.mem d 0 = 0 := by
    by_contra hne
    have := (hl.huge 0 (by omega)).1 hne
    omega
  have hstart : deallocStart s.mem d 0 = 0 := by rw [deallocStart, if_pos hlow]
  have hshrink := growhugeproc_shrink hd hneg
  rw [hadd] at hshrink
  by_cases hsz : (s.proc p).sz = 0
  · have hnone (k : Nat) (hk : k < 2 ^ 19) : lookup s.mem d k = 0 := by
      by_contra hne
      have := (hl.base k hk).1 hne
      omega
    by_cases heven : EvenHuge s p
    · refine iff_of_true ?_ ⟨hsz, heven⟩
      have hquiet : Quiet s.mem d (deallocStart s.mem d 0) (((s.proc p).hugesz + 4095) / 4096) := by
        rw [hstart]
        exact ⟨.inl rfl, fun i f _ hin hf hpde => (evenHuge_iff hs hd).1 heven i f (by omega) hf hpde⟩
      obtain ⟨s', g', hrun, hs', hswept⟩ := deallocuvm_spec hs hd.frame hd.role (by omega) (by omega) hquiet
      rw [bind_ok hrun, if_pos rfl] at hshrink
      refine (hugeExact_iff_of_run hshrink).2 (.inr ⟨rfl, by rw [hswept.rest], ?_, g'.hfree, hs'.hchain, ?_⟩)
      · rw [hdir]
        refine ⟨fun k hk => ?_, fun i hi => hswept.hugeAt_eq hi⟩
        rw [hswept.lookup_eq k hk]
        split_ifs with hin
        · exact (hnone k (by omega)).symm
        · rfl
      · intro f
        rw [hswept.hfree]
    · refine iff_of_false ?_ fun h => heven h.2
      rcases dealloc_idled hs hd.frame hd.role (show (s.proc p).hugesz ≤ 0x80000000 by omega) (by omega) hnone hlow with
        ⟨e, s', hrun⟩ | ⟨k, s', hrun, hk, hidled⟩
      · exact not_hugeExact_of_error (hshrink.trans (bind_error hrun))
      · rw [bind_ok hrun, if_pos rfl] at hshrink
        rw [hugeExact_iff_of_run hshrink]
        rintro (⟨h, -⟩ | ⟨-, -, -, L, hL, hset⟩)
        · omega
        · rcases hidled.list with ⟨-, -, hpassed⟩ | hlost
          · exact heven ((evenHuge_iff hs hd).2 fun i f hin => hpassed i f (by omega))
          · obtain ⟨f, hf, hnot⟩ := hlost L hL
            exact hnot ((hset f).1 hf)
  · refine iff_of_false ?_ fun h => hsz h.1
    rcases dealloc_loose hs hd.frame hd.role (show (s.proc p).hugesz ≤ 0x80000000 by omega)
        (show 0 < (s.proc p).hugesz by omega) with
      ⟨e, s', _, _, hrun, -⟩ | ⟨s', g', hrun, hstep⟩
    · exact not_hugeExact_of_error (hshrink.trans (bind_error hrun))
    · rw [bind_ok hrun, if_pos rfl] at hshrink
      rw [hugeExact_iff_of_run hshrink]
      rintro (⟨h, -⟩ | ⟨-, -, hmap, -⟩)
      · omega
      · -- The first page of the base heap is gone.
        have hpage := (hl.base 0 (by omega)).2 (by omega)
        rw [hdir] at hmap
        rw [← hmap.lookup_eq 0 (by omega), hstep.lookup_eq 0 (by omega), hstart, if_pos (by omega)] at hpage
        exact hpage rfl

/-- Growth of the huge heap is exact if all frames it needs are there, or none is. -/
theorem hugeExact_grow_iff {m : Nat} (hs : Sys s g) (hd : ProcDir s g p d) (hkstack : (s.proc p).kstack ≠ 0)
    (hpos : 0 < m) (hhi : m < 2 ^ 31) :
    HugeGrowExact s p m g.hfree ↔ hugeNeed ((s.proc p).hugesz + m) ≤ hugeNeed (s.proc p).hugesz + g.hfree.length ∨
      g.hfree.length = 0 ∧ HUGE_VA_OFFSET + ((s.proc p).hugesz + m) ≤ KERNBASE := by
  have hl := hd.layout
  have hhuge := hl.hugesz_le hs hd.frame hd.role
  have hdlt := hd.frame.lt
  have hdir : V2P (s.proc p).pgdir = d := by rw [hd.pgdir, V2P_P2V (by omega)]
  obtain ⟨s', g', hs', hext, hrun⟩ := growhugeproc_grow hs hd hkstack hpos hhi
  have hsame : s'.proc p = s.proc p := by rw [hext.rest]
  split_ifs at hrun with henough hkb
  · rw [min_eq_left henough] at hext
    have hl' := hext.layout hl (hugeNeed_slots _) (hugeNeed_slots _) (by omega)
    have hhuge' := hl'.hugesz_le hs' hd.frame (hext.dir.trans hd.role)
    refine iff_of_true ((hugeExact_iff_of_run hrun).2 (.inl ⟨rfl, ?_, ?_, g'.hfree, ?_, ?_⟩)) (.inl henough)
    · rw [Machine.resized_proc]
      simp
    · rw [hdir, Machine.resized_proc, Machine.resized_mem]
      intro i hi
      rw [hl'.huge i hi]
      simp only [HUGE_VA_OFFSET]
      omega
    · unfold HugeList
      rw [Machine.resized_mem, Machine.resized_freehugelist]
      exact hs'.hchain
    · rw [hdir, Machine.resized_mem]
      intro i hi hne hz
      have hslot := (hl.huge i hi).1 hne
      exact absurd hz ((hl'.huge i hi).2 ⟨hslot.1, by omega⟩)
  · rw [min_eq_right (by omega)] at hext
    rw [hugeExact_iff_of_run hrun]
    by_cases hnil : g.hfree.length = 0
    · have hlen := hext.hfree
      have hfree : g'.hfree = g.hfree := by
        rw [List.length_eq_zero_iff.1 hnil, List.length_eq_zero_iff.1 (show g'.hfree.length = 0 by omega)]
      refine iff_of_true (.inr ⟨rfl, by rw [hsame], ?_, g'.hfree, hs'.hchain, ?_⟩) (.inr ⟨hnil, hkb⟩)
      · rw [hdir]
        exact ⟨hext.lookup_eq, fun i hi => hugeAt_congr (hext.entry_eq i hi (by omega))⟩
      · intro f
        rw [hfree]
    · refine iff_of_false ?_ (by omega)
      rintro (⟨h, -⟩ | ⟨-, -, hmap, -⟩)
      · omega
      · -- The first of the slots that have been mapped.
        have hneed : hugeNeed (s.proc p).hugesz ≤ 128 ∧ (s.proc p).hugesz ≤ 0x400000 * hugeNeed (s.proc p).hugesz := by
          simp only [hugeNeed]
          omega
        have hnew := hext.mapped (120 + hugeNeed (s.proc p).hugesz) (Nat.le_refl _) (by omega)
        rw [hdir] at hmap
        rw [hmap.huge_eq _ (by omega), hl.huge _ (by omega)] at hnew
        omega
  · refine iff_of_false (not_hugeExact_of_error hrun) ?_
    rintro (h | ⟨-, h⟩)
    · exact henough h
    · exact hkb h

/-- `growhugeproc` is exact if and only if `HugeGrowOK` holds. -/
theorem growhugeproc_exact_iff (hs : Sys s g) (hd : ProcDir s g p d) (hkstack : (s.proc p).kstack ≠ 0)
    (hlo : -2 ^ 31 ≤ n) (hhi : n < 2 ^ 31) :
    HugeGrowExact s p n g.hfree ↔ HugeGrowOK s p n g.hfree.length := by
  rcases lt_trichotomy n 0 with hneg | rfl | hpos
  · have hiff : HugeGrowOK s p n g.hfree.length ↔ (s.proc p).hugesz = 0 ∨
        ((s.proc p).hugesz : Int) + n = 0 ∧ (s.proc p).sz = 0 ∧ EvenHuge s p := by
      unfold HugeGrowOK
      constructor
      · rintro (⟨h, -⟩ | ⟨-, h⟩ | ⟨-, h⟩)
        · omega
        · exact .inl h
        · exact .inr h
      · rintro (h | h)
        · exact .inr (.inl ⟨hneg, h⟩)
        · exact .inr (.inr ⟨hneg, h⟩)
    rw [hiff]
    by_cases hwrap : ((s.proc p).hugesz : Int) + n < 0
    · have hrun := growhugeproc_wrap hs hd hkstack hlo hwrap
      split_ifs at hrun with hz
      · exact iff_of_true ((hugeExact_iff_of_run hrun).2 (.refl hs)) (.inl hz)
      · refine iff_of_false (fun hex => ?_) (by omega)
        have hsize := ((hugeExact_iff_of_run hrun).1 hex).size
        omega
    · obtain ⟨newsz, hnew⟩ : ∃ newsz : Nat, ((s.proc p).hugesz : Int) + n = newsz :=
        ⟨((s.proc p).hugesz + n).toNat, by omega⟩
      by_cases hzero : newsz = 0
      · rw [hugeExact_emptied_iff hs hd hneg (by omega)]
        exact ⟨fun h => .inr ⟨by omega, h⟩, fun h => (h.resolve_left (by omega)).2⟩
      · exact iff_of_false (not_hugeExact_of_shrunk hs hd hkstack hneg hnew (by omega)) (by omega)
  · refine iff_of_false (fun hex => ?_) (by unfold HugeGrowOK; omega)
    have hsize := ((hugeExact_iff_of_run (growhugeproc_none hd hkstack)).1 hex).size
    rw [Machine.resized_proc] at hsize
    exact hugesz_off (s.proc p).hugesz (by simp only at hsize; omega)
  · obtain ⟨m, rfl⟩ : ∃ m : Nat, n = m := ⟨n.toNat, by omega⟩
    rw [hugeExact_grow_iff hs hd hkstack (by omega) (by omega)]
    unfold HugeGrowOK
    simp only [Int.toNat_natCast, HUGE_VA_OFFSET, KERNBASE]
    omega

/-- The first process of a machine with one processor asks for its first huge page. -/
theorem growhugeproc_exact_first : ∃ s g, (main 1 []).run (Machine.reset fun _ => 0) = .ok () s ∧ Sys s g ∧
    HugeGrowOK s 0 4096 g.hfree.length ∧ HugeGrowExact s 0 4096 g.hfree := by
  obtain ⟨s, g, d, k, hrun, hfirst, hh⟩ := boot_first
  have hok : HugeGrowOK s 0 4096 g.hfree.length := by
    refine .inl ⟨by decide, .inl ?_⟩
    rw [hfirst.hugesz]
    exact (show hugeNeed (0 + 4096) ≤ 128 by decide).trans (hfirst.hfree.trans (Nat.le_add_left _ _))
  have hs := hfirst.sound.sys
  exact ⟨s, g, hrun, hs, hok, (growhugeproc_exact_iff hs hh.toProcDir hh.kstack_ne (by decide) (by decide)).2 hok⟩

/-- `shugebrk(0)` of the first process: the call succeeds, and the size of its
huge heap is no longer 0. -/
theorem growhugeproc_zero_grows : ∃ s s' : Machine, (main 1 []).run (Machine.reset fun _ => 0) = .ok () s ∧
    (s.proc 0).hugesz = 0 ∧ (growhugeproc 0 0).run s = .ok 0 s' ∧ (s'.proc 0).hugesz = 0xE2000000 ∧
    ∀ free, ¬ HugeGrowExact s 0 0 free := by
  obtain ⟨s, g, d, k, hrun, hfirst, hh⟩ := boot_first
  have hhugesz := hfirst.hugesz
  have hnone := growhugeproc_none hh.toProcDir hh.kstack_ne
  rw [hhugesz] at hnone
  have hoff : u32 (0 + (2 ^ 32 - HUGE_VA_OFFSET)) = 0xE2000000 := by decide
  rw [hoff] at hnone
  refine ⟨s, _, hrun, hhugesz, hnone, by rw [Machine.resized_proc], fun free hex => ?_⟩
  have hsize := ((hugeExact_iff_of_run hnone).1 hex).size
  rw [Machine.resized_proc, hhugesz] at hsize
  simp only at hsize
  omega

end exact

end xv6
