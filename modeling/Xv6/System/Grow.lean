import Xv6.Proc
import Xv6.System.Inv
import Xv6.Vm.CopySpec

open bytes outcome Function

namespace xv6

section layout

variable {s s' : Machine} {g g' : Ghost} {d sz hugesz newsz : Nat}

theorem Extended.layout (h : Extended d ((sz + 4095) / 4096) ((newsz + 4095) / 4096) s g s' g')
    (hl : Layout s.mem d sz hugesz) (hle : sz ≤ newsz) : Layout s'.mem d newsz hugesz where
  base k hk := by
    by_cases hin : (sz + 4095) / 4096 ≤ k ∧ k < (newsz + 4095) / 4096
    · have hmapped := h.mapped k hin.1 hin.2
      exact ⟨fun _ => by omega, fun _ hz => by omega⟩
    · rw [h.lookup_eq k (by omega) hin, hl.base k hk]
      omega
  huge i hi := by rw [h.huge_eq i (by omega), hl.huge i hi]
  high i hlo hi hz := by
    rw [h.huge_eq i (by omega)] at hz
    rw [h.high_eq i hlo (by omega), hl.high i hlo hi hz]

theorem Restored.layout (h : Restored d ((sz + 4095) / 4096) s g s' g') (hl : Layout s.mem d sz hugesz) :
    Layout s'.mem d sz hugesz where
  base k hk := by
    rw [h.lookup_eq k (by omega)]
    split_ifs with hin
    · simp only [ne_eq, not_true_eq_false, false_iff]
      omega
    · exact hl.base k hk
  huge i hi := by rw [h.huge_eq i (by omega), hl.huge i hi]
  high i hlo hi hz := by
    rw [h.huge_eq i (by omega)] at hz
    rw [h.high_eq i hlo (by omega), hl.high i hlo hi hz]

theorem Swept.layout {hi : Nat} (h : Swept d ((newsz + 4095) / 4096) hi s g s' g')
    (hl : Layout s.mem d sz hugesz) (hle : newsz ≤ sz) (hhi : (sz + 4095) / 4096 ≤ hi) :
    Layout s'.mem d newsz hugesz where
  base k hk := by
    rw [h.lookup_eq k (by omega)]
    split_ifs with hin
    · simp only [ne_eq, not_true_eq_false, false_iff]
      omega
    · rw [hl.base k hk]
      omega
  huge i hi := by rw [hugeAt_congr (h.entry_eq i (by omega)), hl.huge i hi]
  high i hlo hi hz := by
    rw [hugeAt_congr (h.entry_eq i (by omega))] at hz
    rw [h.entry_eq i (by omega), hl.high i hlo hi hz]

theorem HugeExtended.layout {newhugesz lo hi : Nat} (h : HugeExtended d lo hi s g s' g')
    (hl : Layout s.mem d sz hugesz) (hlo : (0x1E000000 + hugesz + 0x3FFFFF) / 0x400000 = lo)
    (hhi : (0x1E000000 + newhugesz + 0x3FFFFF) / 0x400000 = hi) (hle : hugesz ≤ newhugesz) :
    Layout s'.mem d sz newhugesz where
  base k hk := by rw [h.lookup_eq k (by omega), hl.base k hk]
  huge i hi' := by
    by_cases hin : lo ≤ i ∧ i < hi
    · exact ⟨fun _ => by omega, fun _ => h.mapped i hin.1 hin.2⟩
    · rw [hugeAt_congr (h.entry_eq i (by omega) hin), hl.huge i hi']
      omega
  high i hlow hi' hz := by
    by_cases hin : lo ≤ i ∧ i < hi
    · exact absurd hz (h.mapped i hin.1 hin.2)
    · have heq := h.entry_eq i (by omega) hin
      rw [hugeAt_congr heq] at hz
      rw [heq, hl.high i hlow hi' hz]

end layout

/-- `deallocuvm` within the base heap. -/
theorem dealloc_base {s : Machine} {g : Ghost} {d sz hugesz newsz : Nat} {o : DirOwner} (hs : Sys s g) (hd : IsFrame d)
    (hdir : g.own d = .dir o) (hl : Layout s.mem d sz hugesz) (hlt : newsz < sz) :
    ∃ s' g', (deallocuvm (P2V d) sz newsz).run s = .ok newsz s' ∧ Sys s' g' ∧
      Swept d ((newsz + 4095) / 4096) ((sz + 4095) / 4096) s g s' g' ∧ Layout s'.mem d newsz hugesz := by
  have hsz := hl.sz_le hs hd hdir
  have hlow (i : Nat) (hi : i < 120) : hugeAt s.mem d i = 0 := by
    by_contra hne
    have := (hl.huge i (by omega)).1 hne
    omega
  have hstart : deallocStart s.mem d newsz = (newsz + 4095) / 4096 := by
    rw [deallocStart, if_pos (hlow _ (by omega))]
  have hquiet : Quiet s.mem d (deallocStart s.mem d newsz) ((sz + 4095) / 4096) := by
    refine ⟨.inr (hlow _ (by omega)), fun i f _ hhi hf hpde => ?_⟩
    have halign := hf.1
    have hz := hlow i (by omega)
    rw [hugeAt_of_huge (by omega) (by omega)] at hz
    omega
  obtain ⟨s', g', hrun, hs', hswept⟩ := deallocuvm_spec hs hd hdir (by omega) hlt hquiet
  rw [hstart] at hswept
  exact ⟨s', g', hrun, hs', hswept, hswept.layout hl (by omega) le_rfl⟩

theorem ProcDir.unique {s : Machine} {g : Ghost} {p : Fin NPROC} {d d' : Nat} (h : ProcDir s g p d) (hd' : IsFrame d') (hpgdir : (s.proc p).pgdir = P2V d') :
    d' = d := hd'.inj h.frame (hpgdir.symm.trans h.pgdir)

/-- The process record after a change of its sizes, with its directory loaded. -/
def Machine.resized (s : Machine) (p : Fin NPROC) (sz hugesz : Nat) : Machine :=
  { s with
    proc := update s.proc p { s.proc p with sz, hugesz }
    cr3 := V2P (s.proc p).pgdir }

section resized

variable (s : Machine) (p : Fin NPROC) (sz hugesz : Nat)

@[simp] theorem Machine.resized_mem : (s.resized p sz hugesz).mem = s.mem := by
  cases s with | mk mem => exact Eq.trans (b := mem) rfl rfl

@[simp] theorem Machine.resized_freelist : (s.resized p sz hugesz).freelist = s.freelist := by
  cases s with | mk _ freelist => exact Eq.trans (b := freelist) rfl rfl

@[simp] theorem Machine.resized_freehugelist : (s.resized p sz hugesz).freehugelist = s.freehugelist := by
  cases s with | mk _ _ freehugelist => exact Eq.trans (b := freehugelist) rfl rfl

@[simp] theorem Machine.resized_proc : (s.resized p sz hugesz).proc p = { s.proc p with sz := sz, hugesz := hugesz } :=
  Function.update_self ..

end resized

section grow

variable {s s' : Machine} {g : Ghost} {p : Fin NPROC} {d m : Nat} {n : Int}

theorem ProcDir.pgdir_ne (hd : ProcDir s g p d) : (s.proc p).pgdir ≠ 0 := by
  have hlt := hd.frame.lt
  rw [hd.pgdir]
  exact P2V_ne_zero (by omega)

theorem switchuvm_run (hpgdir : (s.proc p).pgdir ≠ 0) (hkstack : (s.proc p).kstack ≠ 0) :
    (switchuvm p).run s = .ok () { s with cr3 := V2P (s.proc p).pgdir } := by
  unfold switchuvm
  rw [get_bind, if_neg hkstack, if_neg hpgdir]
  rfl

theorem commit_sz (sz : Nat) (hpgdir : (s.proc p).pgdir ≠ 0) (hkstack : (s.proc p).kstack ≠ 0) :
    ((do
      updateProc p fun proc => { proc with sz := sz }
      switchuvm p
      return 0 : KernelM Int)).run s = .ok 0 (s.resized p sz (s.proc p).hugesz) := by
  unfold updateProc
  rw [modify_bind, bind_ok (switchuvm_run (by simpa using hpgdir) (by simpa using hkstack)), EStateM.run_pure]
  simp [Machine.resized]

theorem commit_hugesz (hugesz : Nat) (hpgdir : (s.proc p).pgdir ≠ 0) (hkstack : (s.proc p).kstack ≠ 0) :
    ((do
      updateProc p fun proc => { proc with hugesz := hugesz }
      switchuvm p
      return 0 : KernelM Int)).run s = .ok 0 (s.resized p (s.proc p).sz hugesz) := by
  unfold updateProc
  rw [modify_bind, bind_ok (switchuvm_run (by simpa using hpgdir) (by simpa using hkstack)), EStateM.run_pure]
  simp [Machine.resized]

theorem addInt_eq {a : Nat} (hlo : 0 ≤ (a : Int) + n) (hhi : (a : Int) + n < 2 ^ 32) :
    (addInt a n : Int) = a + n := by
  unfold addInt
  rw [Int.emod_eq_of_lt hlo hhi, Int.toNat_of_nonneg hlo]

theorem addInt_wrap {a : Nat} (ha : a < 2 ^ 31) (hlo : -2 ^ 31 ≤ n) (hneg : (a : Int) + n < 0) : a < addInt a n := by
  unfold addInt
  omega

/-- Growth of the base heap by `m` bytes for which there are enough frames. -/
theorem growproc_grow (hs : Sys s g) (hd : ProcDir s g p d) (hkstack : (s.proc p).kstack ≠ 0) (hpos : 0 < m)
    (hlt : (s.proc p).sz + m < KERNBASE)
    (hneed : allocNeed s.mem d (((s.proc p).sz + 4095) / 4096) (((s.proc p).sz + m + 4095) / 4096) ≤ g.free.length) :
    ∃ s' g', (growproc p m).run s = .ok 0 (s'.resized p ((s.proc p).sz + m) (s.proc p).hugesz) ∧ Sys s' g' ∧
      Extended d (((s.proc p).sz + 4095) / 4096) (((s.proc p).sz + m + 4095) / 4096) s g s' g' := by
  have hl := hd.layout
  have hsz := hl.sz_le hs hd.frame hd.role
  have hadd : addInt (s.proc p).sz m = (s.proc p).sz + m := by
    simp only [KERNBASE] at hlt
    have := addInt_eq (a := (s.proc p).sz) (n := m) (by omega) (by omega)
    omega
  have hround : PGROUNDUP (s.proc p).sz = 4096 * (((s.proc p).sz + 4095) / 4096) := by
    simp only [PGROUNDUP, u32, PGSIZE]
    omega
  rcases allocuvm_rounds hd.frame (show (s.proc p).sz + m ≤ 0x80000000 by simp only [KERNBASE] at hlt; omega) (s.proc p).sz
      (2 ^ 20 + 1) _ s g hs hd.role (by omega) (by simp only [KERNBASE] at hlt; omega) (hl.dense (by omega)) with
    ⟨s', g', hrun, hs', hext, -⟩ | ⟨_, _, _, _, _, _, _, _, hshort, _⟩
  · have halloc : (allocuvm (P2V d) (s.proc p).sz ((s.proc p).sz + m)).run s = .ok ((s.proc p).sz + m) s' := by
      unfold allocuvm
      rw [if_neg (by omega), if_neg (by omega), hround, hrun]
    have hsame : s'.proc p = s.proc p := by rw [hext.rest]
    refine ⟨s', g', ?_, hs', hext⟩
    unfold growproc
    rw [get_bind]
    simp only []
    rw [if_pos (show (m : Int) > 0 by omega), hd.pgdir, hadd, bind_ok halloc, if_neg (by omega),
      commit_sz _ (hsame ▸ hd.pgdir_ne) (hsame ▸ hkstack), hsame]
  · omega

/-- Growth beyond the user half is refused. -/
theorem growproc_beyond (hs : Sys s g) (hd : ProcDir s g p d) (hpos : 0 < m) (hhi : m < 2 ^ 31)
    (hlt : KERNBASE ≤ (s.proc p).sz + m) : (growproc p m).run s = .ok (-1) s := by
  have hsz := hd.layout.sz_le hs hd.frame hd.role
  have hadd : addInt (s.proc p).sz m = (s.proc p).sz + m := by
    have := addInt_eq (a := (s.proc p).sz) (n := m) (by omega) (by omega)
    omega
  unfold growproc
  rw [get_bind]
  simp only []
  rw [if_pos (show (m : Int) > 0 by omega), hadd, allocuvm, if_pos hlt, pure_bind, if_pos rfl, EStateM.run_pure]

/-- The huge pages that start below the new end of the base heap look empty to `deallocuvm`. -/
def EvenBelow (s : Machine) (p : Fin NPROC) (n : Int) : Prop :=
  ∀ i : Nat, 120 ≤ i → 0x400000 * (i - 120) < (s.proc p).hugesz → ((0x400000 * i : Nat) : Int) < (s.proc p).sz + n →
    load32 s.mem (PTE_ADDR (hugeAt s.mem (V2P (s.proc p).pgdir) i)) % 2 = 0

theorem EvenBelow.quiet (h : EvenBelow s p n) (hd : ProcDir s g p d) (hs : Sys s g) {newsz : Nat}
    (hnew : (newsz : Int) = (s.proc p).sz + n) (hlt : newsz < 0x80000000) :
    Quiet s.mem d (((s.proc p).sz + 4095) / 4096) ((newsz + 4095) / 4096) := by
  have hl := hd.layout
  have hsz := hl.sz_le hs hd.frame hd.role
  have hdlt := hd.frame.lt
  refine ⟨.inr ?_, fun i f hlo hhi hf hpde => ?_⟩
  · by_contra hne
    have := (hl.huge _ (by omega)).1 hne
    omega
  · have halign := hf.1
    have hat : hugeAt s.mem d i = f + 0x87 := by rw [hugeAt_of_huge (by omega) (by omega), hpde]
    have hslot := (hl.huge i (by omega)).1 (by omega)
    have heven := h i hslot.1 hslot.2 (by omega)
    rw [hd.pgdir, V2P_P2V (by omega), hat, PTE_ADDR_add (by omega) (by omega)] at heven
    exact heven

/-- Growth that runs out of frames is undone if no huge page is in the way. -/
theorem growproc_undone (hs : Sys s g) (hd : ProcDir s g p d) (hpos : 0 < m) (hlt : (s.proc p).sz + m < KERNBASE)
    (hshort : g.free.length < allocNeed s.mem d (((s.proc p).sz + 4095) / 4096) (((s.proc p).sz + m + 4095) / 4096))
    (heven : EvenBelow s p m) :
    ∃ s' g', (growproc p m).run s = .ok (-1) s' ∧ Sys s' g' ∧ Restored d (((s.proc p).sz + 4095) / 4096) s g s' g' := by
  have hl := hd.layout
  have hsz := hl.sz_le hs hd.frame hd.role
  have hlt' : (s.proc p).sz + m < 0x80000000 := hlt
  have hadd : addInt (s.proc p).sz m = (s.proc p).sz + m := by
    have := addInt_eq (a := (s.proc p).sz) (n := m) (by omega) (by omega)
    omega
  have hquiet := heven.quiet hd hs (by omega) hlt'
  rcases allocuvm_spec hs hd.frame hd.role (by omega) (hl.dense (by omega)) (fun _ => hquiet) with
    ⟨_, _, hneed, _⟩ | ⟨hlt, _⟩ | ⟨_, s', g', hrun, hs', hres⟩
  · omega
  · omega
  · refine ⟨s', g', ?_, hs', hres⟩
    unfold growproc
    rw [get_bind]
    simp only []
    rw [if_pos (show (m : Int) > 0 by omega), hd.pgdir, hadd, bind_ok hrun, if_pos rfl, EStateM.run_pure]

/-- Shrinking the base heap to `newsz` bytes. -/
theorem growproc_shrink {newsz : Nat} (hs : Sys s g) (hd : ProcDir s g p d) (hkstack : (s.proc p).kstack ≠ 0)
    (hneg : n < 0) (hnew : ((s.proc p).sz : Int) + n = newsz) :
    ∃ s' g', Sys s' g' ∧ Swept d ((newsz + 4095) / 4096) (((s.proc p).sz + 4095) / 4096) s g s' g' ∧
      Layout s'.mem d newsz (s.proc p).hugesz ∧ (growproc p n).run s =
        if newsz = 0 then .ok (-1) s' else .ok 0 (s'.resized p newsz (s.proc p).hugesz) := by
  have hl := hd.layout
  have hsz := hl.sz_le hs hd.frame hd.role
  have hadd : addInt (s.proc p).sz n = newsz := by
    have := addInt_eq (a := (s.proc p).sz) (n := n) (by omega) (by omega)
    omega
  obtain ⟨s', g', hrun, hs', hstep, hl'⟩ := dealloc_base hs hd.frame hd.role hl (show newsz < (s.proc p).sz by omega)
  have hsame : s'.proc p = s.proc p := by rw [hstep.rest]
  refine ⟨s', g', hs', hstep, hl', ?_⟩
  unfold growproc
  rw [get_bind]
  simp only []
  rw [if_neg (by omega), if_pos hneg, hd.pgdir, hadd, bind_ok hrun]
  split_ifs with hz
  · rfl
  · rw [commit_sz _ (hsame ▸ hd.pgdir_ne) (hsame ▸ hkstack), hsame]

/-- A shrinkage by more than there is wraps around and does nothing, but it is reported as done. -/
theorem growproc_wrap (hs : Sys s g) (hd : ProcDir s g p d) (hkstack : (s.proc p).kstack ≠ 0) (hlo : -2 ^ 31 ≤ n)
    (hneg : ((s.proc p).sz : Int) + n < 0) :
    (growproc p n).run s =
      if (s.proc p).sz = 0 then .ok (-1) s else .ok 0 (s.resized p (s.proc p).sz (s.proc p).hugesz) := by
  have hsz := hd.layout.sz_le hs hd.frame hd.role
  have hge := addInt_wrap (by omega) hlo hneg
  unfold growproc
  rw [get_bind]
  simp only []
  rw [if_neg (by omega), if_pos (by omega), deallocuvm, if_pos (by omega), pure_bind]
  split_ifs with hz
  · rfl
  · exact commit_sz _ hd.pgdir_ne hkstack

theorem growproc_none (hd : ProcDir s g p d) (hkstack : (s.proc p).kstack ≠ 0) :
    (growproc p 0).run s = .ok 0 (s.resized p (s.proc p).sz (s.proc p).hugesz) := by
  unfold growproc
  rw [get_bind]
  simp only []
  rw [if_neg (by omega), if_neg (by omega), commit_sz _ hd.pgdir_ne hkstack]

/-- The base heap does not shrink to nothing, and growth that `allocuvm` has to
undo meets no huge page whose first word looks like a present entry. -/
def SbrkOK (s : Machine) (p : Fin NPROC) (n : Int) : Prop :=
  (n < 0 → ((s.proc p).sz : Int) + n ≠ 0) ∧ (0 < n → ((s.proc p).sz : Int) + n < KERNBASE → EvenBelow s p n)

/-- A growth of the huge heap finds all the frames it needs or none at all; the
huge heap shrinks only where there is nothing to shrink. -/
def ShugebrkOK (s : Machine) (p : Fin NPROC) (n : Int) (avail : Nat) : Prop :=
  (n < 0 ∧ (s.proc p).hugesz = 0) ∨
    (0 < n ∧ (avail = 0 ∨ hugeNeed ((s.proc p).hugesz + n.toNat) ≤ hugeNeed (s.proc p).hugesz + avail))

theorem KernOK.kernbase {m : Mem} (h : KernOK m d) : lookup m d (2 ^ 19) = 3 := by
  rw [h.lookup_eq (2 ^ 19) le_rfl (by omega)]
  decide

theorem hugeNeed_slots (x : Nat) : (0x1E000000 + x + 0x3FFFFF) / 0x400000 = 120 + hugeNeed x := by
  simp only [hugeNeed]
  omega

/-- Growing the huge heap by `m` bytes maps the slots that the new size needs, as
far as there are huge frames. If they do not suffice the slots stay mapped. -/
theorem growhugeproc_grow {m : Nat} (hs : Sys s g) (hd : ProcDir s g p d) (hkstack : (s.proc p).kstack ≠ 0)
    (hpos : 0 < m) (hhi : m < 2 ^ 31) :
    ∃ s' g', Sys s' g' ∧
      HugeExtended d (120 + hugeNeed (s.proc p).hugesz)
        (120 + min (hugeNeed ((s.proc p).hugesz + m)) (hugeNeed (s.proc p).hugesz + g.hfree.length)) s g s' g' ∧
      (growhugeproc p m).run s =
        if hugeNeed ((s.proc p).hugesz + m) ≤ hugeNeed (s.proc p).hugesz + g.hfree.length then
          .ok 0 (s'.resized p (s'.proc p).sz ((s.proc p).hugesz + m))
        else if HUGE_VA_OFFSET + ((s.proc p).hugesz + m) ≤ KERNBASE then .ok (-1) s'
        else .error (.panic "kfree") s' := by
  have hl := hd.layout
  have hhuge := hl.hugesz_le hs hd.frame hd.role
  have hadd : addInt (s.proc p).hugesz m = (s.proc p).hugesz + m := by
    have := addInt_eq (a := (s.proc p).hugesz) (n := m) (by omega) (by omega)
    omega
  have hold : u32 ((s.proc p).hugesz + HUGE_VA_OFFSET) = 0x1E000000 + (s.proc p).hugesz := by
    simp only [u32, HUGE_VA_OFFSET]
    omega
  have hnew : u32 (addInt (s.proc p).hugesz m + HUGE_VA_OFFSET) = 0x1E000000 + ((s.proc p).hugesz + m) := by
    simp only [u32, HUGE_VA_OFFSET, hadd]
    omega
  have hmono : hugeNeed (s.proc p).hugesz ≤ hugeNeed ((s.proc p).hugesz + m) := by
    simp only [hugeNeed]
    omega
  obtain ⟨s', g', hs', _, hext, hrun⟩ := allochugeuvm_spec hs hd.frame hd.role (hugeNeed_slots (s.proc p).hugesz)
    (hugeNeed_slots ((s.proc p).hugesz + m)) (by omega) (by omega) (by omega) (hugeNeed_slots (s.proc p).hugesz ▸ hl.hugeDense hhuge) hd.kern.kernbase
  have hsame : s'.proc p = s.proc p := by rw [hext.rest]
  have hdiff : 120 + hugeNeed ((s.proc p).hugesz + m) - (120 + hugeNeed (s.proc p).hugesz) ≤ g.hfree.length ↔
      hugeNeed ((s.proc p).hugesz + m) ≤ hugeNeed (s.proc p).hugesz + g.hfree.length := by omega
  refine ⟨s', g', hs', ?_, ?_⟩
  · rw [show 120 + hugeNeed (s.proc p).hugesz + min (120 + hugeNeed ((s.proc p).hugesz + m) -
        (120 + hugeNeed (s.proc p).hugesz)) g.hfree.length = 120 + min (hugeNeed ((s.proc p).hugesz + m))
        (hugeNeed (s.proc p).hugesz + g.hfree.length) by omega] at hext
    exact hext
  · unfold growhugeproc
    rw [get_bind]
    simp only []
    rw [if_pos (show (m : Int) > 0 by omega), hold, hnew, hd.pgdir]
    by_cases henough : hugeNeed ((s.proc p).hugesz + m) ≤ hugeNeed (s.proc p).hugesz + g.hfree.length
    · have hback : u32 (0x1E000000 + ((s.proc p).hugesz + m) + (2 ^ 32 - HUGE_VA_OFFSET)) = (s.proc p).hugesz + m := by
        simp only [u32, HUGE_VA_OFFSET]
        omega
      rw [if_pos (hdiff.2 henough)] at hrun
      rw [if_pos henough, bind_ok hrun, if_neg (show ¬ 0x1E000000 + ((s.proc p).hugesz + m) = 0 by omega), hback,
        commit_hugesz _ (hsame ▸ hd.pgdir_ne) (hsame ▸ hkstack)]
    · rw [if_neg fun hle => henough (hdiff.1 hle)] at hrun
      rw [if_neg henough]
      by_cases hkb : HUGE_VA_OFFSET + ((s.proc p).hugesz + m) ≤ KERNBASE
      · rw [if_pos hkb] at hrun
        rw [if_pos hkb, bind_ok hrun, if_pos rfl, EStateM.run_pure]
      · rw [if_neg hkb] at hrun
        rw [if_neg hkb, bind_error hrun]

end grow

end xv6
