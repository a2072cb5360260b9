import Xv6.Lib.Relate
import Xv6.System.DeallocExact

open bytes outcome

namespace xv6

/-- A byte of a page that some directory maps into its user half. -/
def UserByte (g : Ghost) (b : Nat) : Prop :=
  (∃ x d i j, IsFrame x ∧ g.own x = .page d i j ∧ x ≤ b ∧ b < x + 4096) ∨
    ∃ x d i, IsHuge x ∧ g.hown x = .page d i ∧ x ≤ b ∧ b < x + 0x400000

/-- Two states that differ at most in the bytes of a set. -/
def Alike (U : Nat → Prop) (s t : Machine) : Prop := ∃ m, t = { s with mem := m } ∧ ∀ b, ¬ U b → m b = s.mem b

/-- Two runs pass the same frames to the deallocators, halt both or neither, and
leave the same in the frames of the page directories and page tables. -/
structure SameTeardown {α : Type} (g : Ghost) (r r' : EStateM.Result Halt Machine α) : Prop where
  frees : (final r').frees = (final r).frees
  halts : (∃ e s, r = .error e s) ↔ ∃ e s, r' = .error e s
  tables : ∀ x, IsFrame x → ((∃ o, g.own x = .dir o) ∨ ∃ d i, g.own x = .table d i) →
    SameOn (final r).mem (final r').mem x 4096

/-- A computation does the same whatever the user pages contain. -/
def Independent {α : Type} (g : Ghost) (x : KernelM α) (s : Machine) : Prop :=
  ∀ t, Alike (UserByte g) s t → SameTeardown g (x.run s) (x.run t)

section alike

variable {U : Nat → Prop} {s t : Machine} {g : Ghost} {d x i : Nat}

theorem Alike.sameOn {n : Nat} (h : Alike U s t) (hU : ∀ b, x ≤ b → b < x + n → ¬ U b) : SameOn s.mem t.mem x n := by
  obtain ⟨m, rfl, hm⟩ := h
  exact fun b hlo hhi => hm b (hU b hlo hhi)

theorem write_lockstep (w : Mem → Mem) (h : ∀ m m' b, m' b = m b → w m' b = w m b) :
    Lockstep (Alike U) (modify fun s => { s with mem := w s.mem } : KernelM Unit) := by
  refine .modify ?_
  rintro s t ⟨m, rfl, hm⟩
  exact ⟨w m, rfl, fun b hb => h _ _ b (hm b hb)⟩

theorem writeWord_lockstep (p v : Nat) : Lockstep (Alike U) (writeWord p v) :=
  write_lockstep (store32 · (V2P p) v) fun m m' b h => by simp only [store32, h]

theorem memset_lockstep (p : Nat) (c : UInt8) (n : Nat) : Lockstep (Alike U) (memset p c n) :=
  write_lockstep (fill · (V2P p) c n) fun m m' b h => by simp only [fill, h]

theorem kfree_lockstep (v : Nat) : Lockstep (Alike U) (kfree v) := by
  unfold kfree
  refine .bind (.modify ?_) fun _ => .ite (.throw _) (.bind (memset_lockstep ..) fun _ =>
    .read (p := Machine.freelist) (h := fun next => do
      writeWord v next
      modify fun s => { s with freelist := v }) ?_ fun next => .bind (writeWord_lockstep ..) fun _ => .modify ?_)
  · rintro s t ⟨m, rfl, hm⟩
    exact ⟨m, rfl, hm⟩
  · rintro s t ⟨m, rfl, -⟩
    rfl
  · rintro s t ⟨m, rfl, hm⟩
    exact ⟨m, rfl, hm⟩

/-- The bytes of a frame that is no user page. -/
theorem not_userByte_frame {b : Nat} (hx : IsFrame x) (hrole : ∀ d i j, g.own x ≠ .page d i j) (hlo : x ≤ b) (hhi : b < x + 4096) :
    ¬ UserByte g b := by
  rintro (⟨y, d, i, j, hy, hpage, hlo', hhi'⟩ | ⟨y, d, i, hy, -, hlo', hhi'⟩)
  · by_cases hxy : x = y
    · exact hrole d i j (hxy ▸ hpage)
    · have := hx.apart hy hxy
      omega
  · have := hx.apart_huge hy
    omega

theorem not_userByte_huge {b : Nat} (hx : IsHuge x) (hrole : ∀ d i, g.hown x ≠ .page d i) (hlo : x ≤ b) (hhi : b < x + 0x400000) :
    ¬ UserByte g b := by
  rintro (⟨y, d, i, j, hy, -, hlo', hhi'⟩ | ⟨y, d, i, hy, hpage, hlo', hhi'⟩)
  · have := hy.apart_huge hx
    omega
  · by_cases hxy : x = y
    · exact hrole d i (hxy ▸ hpage)
    · have := hx.apart hy hxy
      omega

/-- The user pages may contain anything. -/
theorem Alike.sys (h : Alike (UserByte g) s t) (hs : Sys s g) : Sys t g := by
  obtain ⟨m, rfl, hm⟩ := h
  refine hs.congr rfl rfl (fun f hf hstruct b hlo hhi => ?_) fun f hf hfree b hlo hhi => ?_
  · refine hm b (not_userByte_frame hf (fun d i j hpage => ?_) hlo hhi)
    simp [hpage, Role.structural] at hstruct
  · exact hm b (not_userByte_huge hf (by simp [hfree]) hlo (by omega))

theorem sameTeardown_of_agree {α : Type} {r r' : EStateM.Result Halt Machine α} (h : Agree (Alike (UserByte g)) r r') :
    SameTeardown g r r' := by
  refine ⟨?_, h.error_iff, fun x hx hrole => h.final.sameOn fun b => not_userByte_frame hx fun d i j hpage => ?_⟩
  · obtain ⟨m, heq, -⟩ := h.final
    rw [heq]
  · rcases hrole with ⟨o, h⟩ | ⟨d, i, h⟩
    · simp [h] at hpage
    · simp [h] at hpage

end alike

section independent

variable {U : Nat → Prop} {s t : Machine} {g : Ghost} {d k oldsz newsz : Nat} {o : DirOwner}

/-- The directory `d` and its page tables lie outside a set of bytes. -/
def ClearOf (U : Nat → Prop) (g : Ghost) (d : Nat) : Prop :=
  ∀ x, IsFrame x → (x = d ∨ ∃ i, g.own x = .table d i) → ∀ b, x ≤ b → b < x + 4096 → ¬ U b

theorem ClearOf.entry_eq (hU : ClearOf U g d) (h : Alike U s t) {x i : Nat} (hx : IsFrame x)
    (hrole : x = d ∨ ∃ i, g.own x = .table d i) (hi : i < 1024) : entry t.mem x i = entry s.mem x i :=
  entry_eq_of_sameOn (h.sameOn (hU x hx hrole)) hi

/-- A step of `deallocuvm` that meets no huge page reads the directory and a page table. -/
theorem step_agree (hs : Sys s g) (hd : IsFrame d) (hdir : g.own d = .dir o) (hU : ClearOf U g d) (halike : Alike U s t)
    (hk : k ≤ 2 ^ 19) (hnone : k / 1024 < 512 → hugeAt s.mem d (k / 1024) = 0) :
    Agree (Alike U) ((deallocuvm.step (P2V d) (4096 * k)).run s) ((deallocuvm.step (P2V d) (4096 * k)).run t) := by
  have hpde := hU.entry_eq halike hd (.inl rfl) (show k / 1024 < 1024 by omega)
  rcases hs.pde d o hd hdir (k / 1024) (by omega) with h | ⟨x, hx, htable, h⟩ | ⟨hlt, f, ⟨hf, -, -⟩, -, h⟩ | ⟨hlo, -⟩
  · rw [dealloc_step_absent hd (by omega) h, dealloc_step_absent hd (by omega) (hpde.trans h)]
    exact .ok _ halike
  · have hpte := hU.entry_eq halike hx (.inr ⟨_, htable⟩) (show k % 1024 < 1024 by omega)
    rw [dealloc_step_table hd (by omega) hx h, dealloc_step_table hd (by omega) hx (hpde.trans h), hpte]
    refine Lockstep.agree ?_ s t halike
    split_ifs
    · exact .bind (.throw _) fun _ => .pure _
    · exact .bind (kfree_lockstep _) fun _ => .bind (writeWord_lockstep ..) fun _ => .pure _
    · exact .pure _
  · have hz := hnone hlt
    rw [hugeAt_of_huge (by omega) (by omega)] at hz
    omega
  · omega

theorem loop_agree (hd : IsFrame d) (n : Nat) :
    ∀ (k : Nat) (s t : Machine) (g : Ghost), Sys s g → g.own d = .dir o → ClearOf U g d → Alike U s t → k ≤ 2 ^ 19 →
      (k % 1024 = 0 ∨ hugeAt s.mem d (k / 1024) = 0) →
      (∀ i < 512, k ≤ 1024 * i → 0x400000 * i < oldsz → hugeAt s.mem d i = 0) → lookup s.mem d (2 ^ 19) = 3 →
      Agree (Alike U) ((deallocuvm.loop (P2V d) oldsz n (4096 * k)).run s)
        ((deallocuvm.loop (P2V d) oldsz n (4096 * k)).run t) := by
  induction n with
  | zero =>
    intro k s t g _ _ _ halike _ _ _ _
    exact .error _ halike
  | succ n ih =>
    intro k s t g hs hdir hU halike hk hslot hnone hkern
    unfold deallocuvm.loop
    by_cases hlt : 4096 * k < oldsz
    · have hbase (hk' : k / 1024 < 512) : hugeAt s.mem d (k / 1024) = 0 := by
        rcases hslot with hk0 | hz
        · exact hnone _ hk' (by omega) (by omega)
        · exact hz
      rw [if_pos hlt]
      refine (step_agree hs hd hdir hU halike hk hbase).bind fun a s' t' hrun halike' => ?_
      by_cases hend : k = 2 ^ 19
      · rw [hend, dealloc_step_kernbase hs hd hdir hkern] at hrun
        cases hrun
      · have hquiet : Quiet s.mem d k (k + 1) := by
          refine ⟨hslot, fun i f hlo hhi hf hpde => ?_⟩
          have halign := hf.1
          have hz := hnone i (by omega) hlo (by omega)
          rw [hugeAt_of_huge (by omega) (by omega)] at hz
          omega
        obtain ⟨k', s₁, g', hrun', hs', hswept, hkk, hle, hslot', -⟩ := dealloc_step hs hd hdir (by omega) (by omega) hquiet
        rw [hrun] at hrun'
        cases hrun'
        refine ih k' s' t' g' hs' (hswept.dir.trans hdir) (fun x hx hrole => hU x hx ?_) halike' (by omega)
          (hslot'.imp id fun hz => (hswept.hugeAt_eq (by omega)).trans hz)
          (fun i hi hlo hlt => (hswept.hugeAt_eq (by omega)).trans (hnone i hi (by omega) hlt)) ?_
        · rcases hrole with rfl | ⟨i, htable⟩
          · exact .inl rfl
          · rcases hswept.own x with heq | ⟨-, hfree⟩
            · exact .inr ⟨i, heq.symm.trans htable⟩
            · simp [hfree] at htable
        · rw [hswept.lookup_eq _ (by omega), if_neg (by omega)]
          exact hkern
    · rw [if_neg hlt]
      exact .ok _ halike

theorem Sys.clearOf (hdir : g.own d = .dir o) : ClearOf (UserByte g) g d := by
  refine fun x hx hrole b hlo hhi => not_userByte_frame hx (fun d' i j hpage => ?_) hlo hhi
  rcases hrole with rfl | ⟨i, htable⟩
  · simp [hdir] at hpage
  · simp [htable] at hpage

/-- `deallocuvm` does not look into the user pages if it meets no huge page. -/
theorem dealloc_agree (hs : Sys s g) (hd : IsFrame d) (hdir : g.own d = .dir o) (hkern : lookup s.mem d (2 ^ 19) = 3)
    (hnew : newsz ≤ 0x80000000)
    (hnone : ∀ i < 512, deallocStart s.mem d newsz ≤ 1024 * i → 0x400000 * i < oldsz → hugeAt s.mem d i = 0)
    (halike : Alike (UserByte g) s t) :
    Agree (Alike (UserByte g)) ((deallocuvm (P2V d) oldsz newsz).run s) ((deallocuvm (P2V d) oldsz newsz).run t) := by
  have hU := Sys.clearOf hdir
  by_cases hlt : newsz < oldsz
  · have hstart : deallocStart t.mem d newsz = deallocStart s.mem d newsz := by
      rw [deallocStart, deallocStart, hugeAt_congr (hU.entry_eq halike hd (.inl rfl) (show newsz / 0x400000 < 1024 by omega))]
    rw [deallocuvm_run hd (hs.pde d o hd hdir _ (by omega)) hlt hnew,
      deallocuvm_run hd ((halike.sys hs).pde d o hd hdir _ (by omega)) hlt hnew, hstart]
    exact (loop_agree hd _ _ s t g hs hdir hU halike (deallocStart_le hnew) (deallocStart_slot newsz) hnone hkern).bind
      fun _ _ _ _ halike' => .ok _ halike'
  · unfold deallocuvm
    rw [if_pos (by omega)]
    exact .ok _ halike

theorem sweep_lockstep (hd : IsFrame d) (hU : ∀ b, d ≤ b → b < d + 4096 → ¬ U b) (n : Nat) :
    ∀ i, i + n ≤ 1024 → Lockstep (Alike U) (freevm.sweep (P2V d) n i) := by
  have hdlt := hd.lt
  induction n with
  | zero => exact fun i _ => .pure _
  | succ n ih =>
    intro i hi
    refine ⟨fun s t halike => ?_⟩
    have hpde : entry t.mem d i = entry s.mem d i := entry_eq_of_sameOn (halike.sameOn hU) (by omega)
    unfold freevm.sweep
    rw [readWord_entry_bind (by omega) (by omega), readWord_entry_bind (by omega) (by omega), hpde]
    refine Lockstep.agree ?_ s t halike
    split_ifs
    · exact ih (i + 1) (by omega)
    · exact .bind (kfree_lockstep _) fun _ => ih (i + 1) (by omega)
    · exact ih (i + 1) (by omega)

/-- `freevm` does not look into the user pages if there is no huge page. -/
theorem freevm_agree (hs : Sys s g) (hd : IsFrame d) (hdir : g.own d = .dir o) (hkern : lookup s.mem d (2 ^ 19) = 3)
    (hnone : ∀ i < 512, hugeAt s.mem d i = 0) (halike : Alike (UserByte g) s t) :
    Agree (Alike (UserByte g)) ((freevm (P2V d)).run s) ((freevm (P2V d)).run t) := by
  have hdlt := hd.lt
  unfold freevm
  rw [if_neg (P2V_ne_zero (by omega))]
  refine (dealloc_agree hs hd hdir hkern (by decide) (fun i hi _ _ => hnone i hi) halike).bind fun _ s' t' _ halike' => ?_
  refine Lockstep.agree (.bind (sweep_lockstep hd ?_ _ 0 (by decide)) fun _ => kfree_lockstep _) s' t' halike'
  exact fun b => Sys.clearOf hdir d hd (.inl rfl) b

end independent



section frees

/-- Calls of the deallocators are only added to the record. -/
def FreesGrow (s s' : Machine) : Prop := s.frees <+: s'.frees

instance : Std.Refl FreesGrow := ⟨fun s => List.prefix_refl s.frees⟩

instance : IsTrans Machine FreesGrow := ⟨fun _ _ _ => List.IsPrefix.trans⟩

theorem readWord_stays (p : Nat) : Stays FreesGrow (readWord p) := .bind .get fun _ => .pure _

theorem writeWord_stays (p v : Nat) : Stays FreesGrow (writeWord p v) := .modify fun s => List.prefix_refl s.frees

theorem memset_stays (p : Nat) (c : UInt8) (n : Nat) : Stays FreesGrow (memset p c n) := .modify fun s => List.prefix_refl s.frees

theorem kfree_stays (v : Nat) : Stays FreesGrow (kfree v) := by
  unfold kfree
  refine .bind (.modify fun s => List.prefix_append _ _) fun _ => .ite (.throw _) (.bind (memset_stays ..) fun _ =>
    .bind .get fun _ => .bind (writeWord_stays ..) fun _ => .modify fun s => List.prefix_refl s.frees)

theorem khugefree_stays (v : Nat) : Stays FreesGrow (khugefree v) := by
  unfold khugefree
  refine .bind (.modify fun s => List.prefix_append _ _) fun _ => .ite (.throw _) (.bind (memset_stays ..) fun _ =>
    .bind .get fun _ => .bind (writeWord_stays ..) fun _ => .modify fun s => List.prefix_refl s.frees)

theorem walkpgdir_stays (pgdir va : Nat) : Stays FreesGrow (walkpgdir pgdir va false) := by
  unfold walkpgdir
  refine .bind (readWord_stays _) fun _ => .ite (.pure _) ?_
  exact .pure _

theorem step_stays (pgdir a : Nat) : Stays FreesGrow (deallocuvm.step pgdir a) := by
  unfold deallocuvm.step
  refine .bind (readWord_stays _) fun _ => .ite ?_ ?_
  · refine .bind (walkpgdir_stays ..) fun _ => .ite (.pure _) (.bind (readWord_stays _) fun _ => .ite (.ite ?_ ?_) (.pure _))
    · exact .bind (.throw _) fun _ => .pure _
    · exact .bind (khugefree_stays _) fun _ => .bind (writeWord_stays ..) fun _ => .pure _
  · refine .bind (walkpgdir_stays ..) fun _ => .ite (.pure _) (.bind (readWord_stays _) fun _ => .ite (.ite ?_ ?_) (.pure _))
    · exact .bind (.throw _) fun _ => .pure _
    · exact .bind (kfree_stays _) fun _ => .bind (writeWord_stays ..) fun _ => .pure _

theorem loop_stays (pgdir oldsz n : Nat) : ∀ a, Stays FreesGrow (deallocuvm.loop pgdir oldsz n a) := by
  induction n with
  | zero => exact fun a => .throw _
  | succ n ih => exact fun a => .ite (.bind (step_stays ..) fun a' => ih a') (.pure _)

theorem sweep_stays (pgdir n : Nat) : ∀ i, Stays FreesGrow (freevm.sweep pgdir n i) := by
  induction n with
  | zero => exact fun i => .pure _
  | succ n ih =>
    intro i
    unfold freevm.sweep
    exact .bind (readWord_stays _) fun _ => .ite (.ite (ih _) (.bind (kfree_stays _) fun _ => ih _)) (ih _)

end frees

section dependent

variable {s t : Machine} {g : Ghost} {d i f oldsz newsz : Nat} {o : DirOwner}

/-- The huge frame that a directory slot refers to belongs to it. -/
theorem Sys.huge_role (hs : Sys s g) (hd : IsFrame d) (hdir : g.own d = .dir o) (hi : i < 512) (hf : IsHuge f)
    (hpde : entry s.mem d i = f + 0x87) : g.hown f = .page d i := by
  have halign := hf.1
  have hat : hugeAt s.mem d i = f + 0x87 := by rw [hugeAt_of_huge (by omega) (by omega), hpde]
  obtain ⟨x, -, hrole, -, hat'⟩ := (hs.hugeAt_user hd hdir hi).resolve_left (by omega)
  obtain rfl : x = f := by omega
  exact hrole

/-- There are two states that differ from a given one in user pages only: with
zeroes in all huge pages, and with a word that names the frame of one of them in that page. -/
theorem exists_twins (g : Ghost) (s : Machine) (hf : IsHuge f) (hrole : g.hown f = .page d i) :
    ∃ t t', Alike (UserByte g) s t ∧ Alike (UserByte g) s t' ∧
      (∀ x d i, IsHuge x → g.hown x = .page d i → entry t.mem x 0 = 0) ∧
      (∀ x d i, IsHuge x → g.hown x = .page d i → x ≠ f → entry t'.mem x 0 = 0) ∧ entry t'.mem f 0 = f + 1 := by
  classical
  have hflt := hf.lt
  let zero : Mem := fun b => if ∃ x d i, IsHuge x ∧ g.hown x = .page d i ∧ x ≤ b ∧ b < x + 0x400000 then 0 else s.mem b
  have hzero (x d i : Nat) (hx : IsHuge x) (hpage : g.hown x = .page d i) : entry zero x 0 = 0 :=
    load32_zero fun b hlo hhi => if_pos ⟨x, d, i, hx, hpage, by omega, by omega⟩
  have halike (b : Nat) (hb : ¬ UserByte g b) : zero b = s.mem b := if_neg fun h => hb (.inr h)
  refine ⟨{ s with mem := zero }, { s with mem := store32 zero f (f + 1) }, ⟨_, rfl, halike⟩, ⟨_, rfl, fun b hb => ?_⟩,
    hzero, fun x d i hx hpage hne => ?_, load32_store32_same _ f (by omega)⟩
  · have hout : b < f ∨ f + 4 ≤ b := by
      by_contra hin
      exact hb (.inr ⟨f, d, i, hf, hrole, by omega, by omega⟩)
    exact (store32_sameOn zero (a := f) (n := 1) (by omega) b (Nat.le_refl b) (by omega)).trans (halike b hb)
  · have hapart := hf.apart hx (Ne.symm hne)
    exact (load32_store32_ne _ (by omega)).trans (hzero x d i hx hpage)

/-- With zeroes in the huge pages, `deallocuvm` frees base frames only. -/
theorem dealloc_quiet_frees (oldsz : Nat) (hs : Sys s g) (hd : IsFrame d) (hdir : g.own d = .dir o) (hkern : lookup s.mem d (2 ^ 19) = 3)
    (hnew : newsz ≤ 0x80000000) (hzero : ∀ x d i, IsHuge x → g.hown x = .page d i → entry s.mem x 0 = 0) :
    ∃ l, (final ((deallocuvm (P2V d) oldsz newsz).run s)).frees = s.frees ++ l ∧ ∀ c ∈ l, ∃ v, c = .kfree v := by
  have hquiet {hi : Nat} (hhi : hi ≤ 2 ^ 19) : Quiet s.mem d (deallocStart s.mem d newsz) hi := by
    refine ⟨deallocStart_slot newsz, fun j x _ hj hx hpde => ?_⟩
    rw [hzero x d j hx (hs.huge_role hd hdir (by omega) hx hpde)]
  by_cases hlt : newsz < oldsz
  · by_cases hold : oldsz ≤ 0x80000000
    · obtain ⟨s', g', hrun, -, hswept⟩ := deallocuvm_spec hs hd hdir hold hlt (hquiet (by omega))
      rw [hrun]
      exact ⟨_, hswept.frees, fun c => mem_sweptFrees⟩
    · -- The loop runs into the kernel half.
      have hbelow (k : Nat) (hk : k < 2 ^ 19) : 4096 * k < oldsz := by omega
      obtain ⟨k', n', s', g', hk', hk'', hn', hreach, hs', hswept⟩ :=
        dealloc_reach hd (Nat.le_refl _) hbelow (2 ^ 20 + 1) _ s g hs hdir (deallocStart_le hnew) (hquiet (Nat.le_refl _))
          (by omega)
      obtain rfl : k' = 2 ^ 19 := by omega
      obtain ⟨n, rfl⟩ : ∃ n, n' = n + 1 := ⟨n' - 1, by omega⟩
      have hkern' : lookup s'.mem d (2 ^ 19) = 3 := by
        rw [hswept.lookup_eq _ (by omega), if_neg (by omega)]
        exact hkern
      have hstop : (deallocuvm.loop (P2V d) oldsz (n + 1) (4096 * 2 ^ 19)).run s' = .error (.panic "kfree") s' := by
        rw [deallocuvm.loop, if_pos (by omega), bind_error (dealloc_step_kernbase hs' hd (hswept.dir.trans hdir) hkern')]
      rw [deallocuvm_run hd (hs.pde d o hd hdir _ (by omega)) hlt hnew, bind_error (hreach.trans hstop)]
      exact ⟨_, hswept.frees, fun c => mem_sweptFrees⟩
  · unfold deallocuvm
    rw [if_pos (by omega)]
    exact ⟨[], (List.append_nil _).symm, by simp⟩

/-- A huge page that has the address of its own frame in its first word: the frame is freed. -/
theorem dealloc_named_frees (hs : Sys s g) (hd : IsFrame d) (hdir : g.own d = .dir o) (hlt : newsz < oldsz)
    (hnew : newsz ≤ 0x80000000) (hi : i < 512) (hlo : deallocStart s.mem d newsz ≤ 1024 * i) (hin : 0x400000 * i < oldsz)
    (hf : IsHuge f) (hpde : entry s.mem d i = f + 0x87) (hword : entry s.mem f 0 = f + 1)
    (hzero : ∀ x d i, IsHuge x → g.hown x = .page d i → x ≠ f → entry s.mem x 0 = 0) :
    ∃ l, (final ((deallocuvm (P2V d) oldsz newsz).run s)).frees = s.frees ++ l ∧ .khugefree (P2V f) ∈ l := by
  have halign := hf.1
  have hquiet : Quiet s.mem d (deallocStart s.mem d newsz) (1024 * i) := by
    refine ⟨deallocStart_slot newsz, fun j x _ hj hx hpde' => ?_⟩
    have hrole := hs.huge_role hd hdir (show j < 512 by omega) hx hpde'
    rw [hzero x d j hx hrole]
    rintro rfl
    rw [hs.huge_role hd hdir hi hf hpde, HugeRole.page.injEq] at hrole
    omega
  have hbelow (k : Nat) (hk : k < 1024 * i) : 4096 * k < oldsz := by omega
  obtain ⟨k', n', s₁, g₁, hk', hk'', hn', hreach, hs₁, hswept⟩ :=
    dealloc_reach hd (show 1024 * i ≤ 2 ^ 19 by omega) hbelow (2 ^ 20 + 1) _ s g hs hdir hlo hquiet (by omega)
  obtain rfl : k' = 1024 * i := by omega
  obtain ⟨n, rfl⟩ : ∃ n, n' = n + 1 := ⟨n' - 1, by omega⟩
  have hword₁ : entry s₁.mem f 0 = f + 1 := ((hswept.hsame f hf id).load32_eq (by omega) (by omega)).trans hword
  have haddr : PTE_ADDR (entry s₁.mem f 0) = f := by rw [hword₁, PTE_ADDR_add (by omega) (by omega)]
  rcases loose_step_huge hs₁.loose hd (hswept.dir.trans hdir) hi hf ((hswept.entry_eq i (by omega)).trans hpde) with
    ⟨-, hnot, -⟩ | ⟨s₂, hstep, -, -, ⟨heven, -⟩ | ⟨-, rfl⟩⟩
  · exact absurd (haddr.symm ▸ hf) hnot
  · omega
  · rw [haddr] at hstep
    have hloop : (deallocuvm.loop (P2V d) oldsz (n + 1) (4096 * (1024 * i))).run s₁ =
        (deallocuvm.loop (P2V d) oldsz n (4096 * (1024 * (i + 1)))).run (s₁.misfreed f f) := by
      rw [deallocuvm.loop, if_pos (by omega), bind_ok hstep]
    rw [deallocuvm_run hd (hs.pde d o hd hdir _ (by omega)) hlt hnew, bind_congr_run (hreach.trans hloop)]
    have hstays : Stays FreesGrow (deallocuvm.loop (P2V d) oldsz n (4096 * (1024 * (i + 1))) >>= fun _ => pure newsz) :=
      .bind (loop_stays ..) fun _ => .pure _
    obtain ⟨l, hl⟩ := hstays.keeps (s₁.misfreed f f)
    refine ⟨sweptFrees s.mem d (deallocStart s.mem d newsz) (1024 * i) ++ [.khugefree (P2V f)] ++ l, ?_, by simp⟩
    have hfrees : (s₁.misfreed f f).frees = s₁.frees ++ [.khugefree (P2V f)] := rfl
    rw [← hl, hfrees, hswept.frees]
    simp only [List.append_assoc]

/-- Runs that free base frames only and a huge frame show that the outcome depends on user pages. -/
theorem not_independent {α : Type} {x : KernelM α} {t' : Machine} {l l' : List FreeCall} {v : Nat} (halike : Alike (UserByte g) s t)
    (halike' : Alike (UserByte g) s t') (hl : (final (x.run t)).frees = t.frees ++ l) (hkfree : ∀ c ∈ l, ∃ v, c = .kfree v)
    (hl' : (final (x.run t')).frees = t'.frees ++ l') (hhuge : .khugefree v ∈ l') : ¬ Independent g x s := by
  intro hind
  have hfrees := (hind t' halike').frees.trans (hind t halike).frees.symm
  obtain ⟨m, rfl, -⟩ := halike
  obtain ⟨m', rfl, -⟩ := halike'
  rw [hl, hl', List.append_cancel_left_eq] at hfrees
  obtain ⟨w, hw⟩ := hkfree _ (hfrees ▸ hhuge)
  cases hw

theorem dealloc_dependent (hs : Sys s g) (hd : IsFrame d) (hdir : g.own d = .dir o) (hkern : lookup s.mem d (2 ^ 19) = 3)
    (hnew : newsz ≤ 0x80000000) (hi : i < 512) (hlo : deallocStart s.mem d newsz ≤ 1024 * i) (hin : 0x400000 * i < oldsz)
    (hne : hugeAt s.mem d i ≠ 0) : ¬ Independent g (deallocuvm (P2V d) oldsz newsz) s := by
  obtain ⟨f, hf, hrole, -, -⟩ := (hs.hugeAt_user hd hdir hi).resolve_left hne
  obtain ⟨t, t', halike, halike', hzero, hzero', hword⟩ := exists_twins g s hf hrole
  have hU := Sys.clearOf hdir
  have hs' := halike'.sys hs
  obtain ⟨-, -, hpde, -⟩ := hs'.huge_up f d i hf hrole
  have hstart : deallocStart t'.mem d newsz = deallocStart s.mem d newsz := by
    rw [deallocStart, deallocStart, hugeAt_congr (hU.entry_eq halike' hd (.inl rfl) (show newsz / 0x400000 < 1024 by omega))]
  have hlt : newsz < oldsz := by
    rw [deallocStart] at hlo
    split_ifs at hlo <;> omega
  have hkern' : lookup t.mem d (2 ^ 19) = 3 := by
    have hview := hs.view_congr hd hdir (halike.sameOn (hU d hd (.inl rfl))) fun x j hx htable =>
      halike.sameOn (hU x hx (.inr ⟨j, htable⟩))
    rw [hview.1 _ (by omega), hkern]
  obtain ⟨l, hl, hkfree⟩ := dealloc_quiet_frees oldsz (halike.sys hs) hd hdir hkern' hnew hzero
  obtain ⟨l', hl', hhuge⟩ := dealloc_named_frees hs' hd hdir hlt hnew hi (by omega) hin hf hpde hword hzero'
  exact not_independent halike halike' hl hkfree hl' hhuge

theorem freevm_dependent (hs : Sys s g) (hd : IsFrame d) (hdir : g.own d = .dir o) (hi : i < 512) (hne : hugeAt s.mem d i ≠ 0) :
    ¬ Independent g (freevm (P2V d)) s := by
  have hdlt := hd.lt
  obtain ⟨f, hf, hrole, -, -⟩ := (hs.hugeAt_user hd hdir hi).resolve_left hne
  obtain ⟨t, t', halike, halike', hzero, hzero', hword⟩ := exists_twins g s hf hrole
  have ht := halike.sys hs
  have ht' := halike'.sys hs
  obtain ⟨-, -, hpde, -⟩ := ht'.huge_up f d i hf hrole
  have hquiet : Quiet t.mem d 0 (2 ^ 19) :=
    ⟨.inl rfl, fun j x _ hj hx hpde' => by rw [hzero x d j hx (ht.huge_role hd hdir (by omega) hx hpde')]⟩
  obtain ⟨s', g', hrun, -, hfreed⟩ := freevm_spec ht hd hdir hquiet
  obtain ⟨l, hl, hkfree⟩ := hfreed.frees
  obtain ⟨l', hl', hhuge⟩ := dealloc_named_frees ht' hd hdir (show 0 < KERNBASE by decide) (by omega) hi
    (by rw [deallocStart_zero]; omega) (by simp only [KERNBASE]; omega) hf hpde hword hzero'
  -- What `freevm` does after `deallocuvm` only adds to the record.
  obtain ⟨l'', hl''⟩ : FreesGrow (final ((deallocuvm (P2V d) KERNBASE 0).run t')) (final ((freevm (P2V d)).run t')) := by
    unfold freevm
    rw [if_neg (P2V_ne_zero (by omega))]
    exact Stays.after (fun _ => .bind (sweep_stays ..) fun _ => kfree_stays _) _ _
  rw [hl', List.append_assoc] at hl''
  exact not_independent halike halike' (by rw [hrun]; exact hl) hkfree hl''.symm (List.mem_append_left _ hhuge)

/-- Tearing down an address space does not depend on the contents of user pages
if and only if it meets no huge page. -/
theorem teardown_independent_iff (hs : Sys s g) (hd : IsFrame d) (hdir : g.own d = .dir o) (hkern : KernOK s.mem d)
    (hnew : newsz ≤ KERNBASE) :
    (Independent g (deallocuvm (P2V d) oldsz newsz) s ↔
      ∀ i < 512, deallocStart s.mem d newsz ≤ 1024 * i → 0x400000 * i < oldsz → hugeAt s.mem d i = 0) ∧
    (Independent g (freevm (P2V d)) s ↔ ∀ i < 512, hugeAt s.mem d i = 0) := by
  have hnew : newsz ≤ 0x80000000 := hnew
  refine ⟨⟨fun hind i hi hlo hin => ?_, fun hnone t halike => ?_⟩, ⟨fun hind i hi => ?_, fun hnone t halike => ?_⟩⟩
  · by_contra hne
    exact dealloc_dependent hs hd hdir hkern.kernbase hnew hi hlo hin hne hind
  · exact sameTeardown_of_agree (dealloc_agree hs hd hdir hkern.kernbase hnew hnone halike)
  · by_contra hne
    exact freevm_dependent hs hd hdir hi hne hind
  · exact sameTeardown_of_agree (freevm_agree hs hd hdir hkern.kernbase hnone halike)

/-- The address space of the first process. -/
theorem teardown_independent_first : ∃ s g d, (main 1 []).run (Machine.reset fun _ => 0) = .ok () s ∧ Sys s g ∧
    (s.proc 0).pgdir = P2V d ∧ Independent g (deallocuvm (P2V d) 4096 0) s ∧ Independent g (freevm (P2V d)) s := by
  obtain ⟨s, g, d, k, hrun, hfirst, hh⟩ := boot_first
  have hs := hfirst.sound.sys
  obtain ⟨hdealloc, hfreevm⟩ : (Independent g (deallocuvm (P2V d) 4096 0) s ↔ _) ∧ _ :=
    teardown_independent_iff hs hh.frame hh.role hh.kern (by decide)
  have hnone (i : Nat) (hi : i < 512) : hugeAt s.mem d i = 0 := by
    by_contra hne
    have := (hh.layout.huge i hi).1 hne
    rw [hfirst.hugesz] at this
    omega
  exact ⟨s, g, d, hrun, hs, hh.pgdir, hdealloc.2 fun i hi _ _ => hnone i hi, hfreevm.2 hnone⟩

/-- When the first process has mapped a huge page, what it writes there decides
which frames are freed with its address space. -/
theorem teardown_reads_huge : ∃ s s' g d, (main 1 []).run (Machine.reset fun _ => 0) = .ok () s ∧
    (growhugeproc 0 0x400000).run s = .ok 0 s' ∧ Sys s' g ∧ (s'.proc 0).pgdir = P2V d ∧
    ¬ Independent g (deallocuvm (P2V d) (HUGE_VA_OFFSET + 0x400000) HUGE_VA_OFFSET) s' ∧
    ¬ Independent g (freevm (P2V d)) s' := by
  obtain ⟨s, s', g, d, k, hrun, hgrow, h⟩ := boot_grown
  have hs := h.sound.sys
  have hd := h.holds.toProcDir
  have hmapped : hugeAt s'.mem d 120 ≠ 0 := (hd.layout.huge 120 (by omega)).2 (by rw [h.hugesz]; omega)
  refine ⟨s, s', g, d, hrun, hgrow, hs, hd.pgdir,
    dealloc_dependent hs hd.frame hd.role hd.kern.kernbase (by decide) (show 120 < 512 by omega) ?_ (by decide) hmapped,
    freevm_dependent hs hd.frame hd.role (show 120 < 512 by omega) hmapped⟩
  rw [deallocStart, show HUGE_VA_OFFSET / 0x400000 = 120 from rfl, if_neg hmapped]
  decide

end dependent

end xv6
