import Xv6.Vm.Uva

open bytes outcome

namespace xv6

/-- The bytes `data` stand where a user finds them from address `va` on, and nothing else has changed. -/
structure Stored (m m' : Mem) (d va : Nat) (data : List UInt8) : Prop where
  bytes : ∀ i < data.length, ∃ pa, userAccess m d (u32 (va + i)) = some pa ∧ m' pa = data.getD i 0
  rest : ∀ a, (∀ i < data.length, userAccess m d (u32 (va + i)) ≠ some a) → m' a = m a

/-- Every byte of the range that comes after accessible ones only lies in a slot with a page table. -/
def InTables (m : Mem) (d va n : Nat) : Prop :=
  ∀ i < n, (∀ j < i, userAccess m d (u32 (va + j)) ≠ none) → HasTable m d (u32 (va + i))

/-- The loop of `copyout`, started for address `va` in state `s`, comes to the page at `va'` in state `s'`. -/
inductive copyout.Reaches (pgdir : Nat) : Nat → List UInt8 → Machine → Nat → Machine → Prop
  | here {va : Nat} {buf : List UInt8} {s : Machine} (h : buf ≠ []) : Reaches pgdir va buf s (PGROUNDDOWN va) s
  | next {va pa0 va' : Nat} {buf : List UInt8} {s s₁ s' : Machine} (h : buf ≠ [])
      (hpage : (uva2ka pgdir (PGROUNDDOWN va)).run s = .ok pa0 s₁) (hne : pa0 ≠ 0)
      (hnext : Reaches pgdir (u32 (PGROUNDDOWN va + PGSIZE))
        (buf.drop (min (PGSIZE - (va - PGROUNDDOWN va)) buf.length))
        { s₁ with mem := blit s₁.mem (V2P (pa0 + (va - PGROUNDDOWN va)))
                          (buf.take (min (PGSIZE - (va - PGROUNDDOWN va)) buf.length)) } va' s') :
      Reaches pgdir va buf s va' s'

/-- No step of the loop of `copyout` meets a missing page table. -/
def NoMissing (s : Machine) (d va : Nat) (buf : List UInt8) : Prop :=
  ∀ va' t, copyout.Reaches (P2V d) va buf s va' t → (walkpgdir (P2V d) va' false).run t ≠ .ok 0 t

section access

variable {s : Machine} {g : Ghost} {d va va' pa : Nat} {o : DirOwner} {m m' : Mem}

theorem HasTable.page (h : HasTable m d va) (hpage : va' / 4096 = va / 4096) : HasTable m d va' := by
  have hpdx : PDX va' = PDX va := by
    simp only [PDX]
    omega
  rwa [HasTable, hpdx]

theorem HasTable.hugeAt_eq (h : HasTable m d va) (hva : va < 2 ^ 32) : hugeAt m d (va / 0x400000) = 0 := by
  have hpdx : PDX va = va / 0x400000 := Nat.mod_eq_of_lt (by omega)
  exact hugeAt_of_not (.inr (hpdx ▸ h.2))

/-- The addresses of one page have one translation. -/
theorem Sys.userAccess_add (hs : Sys s g) (hd : IsFrame d) (hdir : g.own d = .dir o) (htable : HasTable s.mem d va)
    (hva : va < 0x80000000) (h : userAccess s.mem d va = some pa) (hpage : va' / 4096 = va / 4096) :
    userAccess s.mem d va' = some (pa - va % 4096 + va' % 4096) := by
  have hva' : va' < 2 ^ 32 := by omega
  obtain ⟨f, fl, hf, hown, hfl, hodd, hu, hlook, rfl⟩ :=
    hs.userAccess_page hd hdir hva (htable.hugeAt_eq (by omega)) h
  have hflags : hasFlag (f + fl) PTE_P && hasFlag (f + fl) PTE_U := by
    have halign := hf.1
    rw [Bool.and_eq_true, hasFlag_P, hasFlag_U]
    omega
  rw [hs.userAccess_table hd hdir hva' ((htable.page hpage).hugeAt_eq hva'), hpage, hlook, if_pos hflags,
    PTE_ADDR_add hf.1 hfl, Nat.add_sub_cancel]

/-- Different user addresses have different physical addresses. -/
theorem Sys.userAccess_inj (hs : Sys s g) (hd : IsFrame d) (hdir : g.own d = .dir o) (hva : va < 0x80000000)
    (hva' : va' < 0x80000000) (htable : HasTable s.mem d va) (htable' : HasTable s.mem d va')
    (h : userAccess s.mem d va = some pa) (h' : userAccess s.mem d va' = some pa) : va = va' := by
  obtain ⟨f, fl, hf, hown, -, -, -, -, hpa⟩ := hs.userAccess_page hd hdir hva (htable.hugeAt_eq (by omega)) h
  obtain ⟨f', fl', hf', hown', -, -, -, -, hpa'⟩ := hs.userAccess_page hd hdir hva' (htable'.hugeAt_eq (by omega)) h'
  have halign := hf.1
  have halign' := hf'.1
  obtain rfl : f = f' := by omega
  rw [hown, Role.page.injEq] at hown'
  omega

/-- What a user can reach depends on the entries of the directory only. -/
theorem userAccess_congr {s' : Machine} (hs : Sys s g) (hs' : Sys s' g) (hd : IsFrame d) (hdir : g.own d = .dir o)
    (hlook : ∀ k < 2 ^ 20, lookup s'.mem d k = lookup s.mem d k) (hentry : ∀ i < 1024, entry s'.mem d i = entry s.mem d i)
    (hva : va < 2 ^ 32) : userAccess s'.mem d va = userAccess s.mem d va := by
  rw [userAccess, userAccess, hs.translate_eq hd hdir hva, hs'.translate_eq hd hdir hva, hlook _ (by omega),
    hugeAt_congr (hentry _ (by omega))]

/-- Bytes that a user reaches one after the other lie in the user half. -/
theorem KernOK.lt_of_accessible (hk : KernOK s.mem d) (hs : Sys s g) (hd : IsFrame d) (hdir : g.own d = .dir o)
    (hva : va < 2 ^ 32) {i : Nat} (h : ∀ j ≤ i, userAccess s.mem d (u32 (va + j)) ≠ none) : va + i < 0x80000000 := by
  have hfirst : va < 0x80000000 := by
    by_contra hlarge
    refine h 0 (Nat.zero_le i) ?_
    have hu : u32 (va + 0) = va := Nat.mod_eq_of_lt hva
    rw [hu]
    exact hk.userAccess_eq_none hs hd hdir (by omega) hva
  by_contra hlarge
  refine h (0x80000000 - va) (by omega) ?_
  have hu : u32 (va + (0x80000000 - va)) = 0x80000000 := by
    simp only [u32]
    omega
  rw [hu]
  exact hk.userAccess_eq_none hs hd hdir le_rfl (by omega)

end access

/-- `copyout` has stored the first `k` bytes of `buf`, and stopped there if `k` is not all of them. -/
structure Delivered (d va : Nat) (buf : List UInt8) (k : Nat) (s : Machine) (g : Ghost) (s' : Machine) : Prop where
  le : k ≤ buf.length
  sys : Sys s' g
  step : UserStep d (fun _ => False) s g s' g
  lookup_eq : ∀ k < 2 ^ 20, lookup s'.mem d k = lookup s.mem d k
  entry_eq : ∀ i < 1024, entry s'.mem d i = entry s.mem d i
  stored : Stored s.mem s'.mem d va (buf.take k)
  stop : k < buf.length → userAccess s.mem d (u32 (va + k)) = none
  noMissing : NoMissing s d va buf

section loop

variable {s : Machine} {g : Ghost} {d va : Nat} {o : DirOwner} {buf : List UInt8}

/-- The part of the range that lies in the first page. -/
abbrev firstPart (va : Nat) (buf : List UInt8) : Nat := min (PGSIZE - (va - PGROUNDDOWN va)) buf.length

theorem PGROUNDDOWN_add (va : Nat) : PGROUNDDOWN va + va % 4096 = va := Nat.div_add_mod' va 4096

/-- One turn of the loop of `copyout`. -/
theorem copyout_turn (hs : Sys s g) (hk : KernOK s.mem d) (hd : IsFrame d) (hdir : g.own d = .dir o) (hva : va < 2 ^ 32)
    (htable : HasTable s.mem d va) (hbuf : buf ≠ []) (fuel : Nat) :
    userAccess s.mem d va = none ∧ (uva2ka (P2V d) (PGROUNDDOWN va)).run s = .ok 0 s ∧
      (copyout.loop (P2V d) (fuel + 1) va buf).run s = .ok (-1) s ∨
    ∃ f, IsFrame f ∧ g.own f = .page d (va / 0x400000) (va / 4096 % 1024) ∧ va < 0x80000000 ∧
      userAccess s.mem d va = some (f + va % 4096) ∧ (uva2ka (P2V d) (PGROUNDDOWN va)).run s = .ok (P2V f) s ∧
      (copyout.loop (P2V d) (fuel + 1) va buf).run s =
        (copyout.loop (P2V d) fuel (u32 (PGROUNDDOWN va + PGSIZE)) (buf.drop (firstPart va buf))).run
          { s with mem := blit s.mem (f + va % 4096) (buf.take (firstPart va buf)) } := by
  have hround := PGROUNDDOWN_add va
  have hpage : PGROUNDDOWN va / 4096 = va / 4096 := by
    simp only [PGROUNDDOWN, PGSIZE]
    omega
  have hoff : va - PGROUNDDOWN va = va % 4096 := by omega
  have hlen : buf.length > 0 := List.length_pos_iff.2 hbuf
  have hlt : PGROUNDDOWN va < 2 ^ 32 := by omega
  have htable' := htable.page hpage
  have hrun := uva2ka_table hs hd hdir hlt htable'
  have halias : userAlias s.mem d (PGROUNDDOWN va) = pteAlias (lookup s.mem d (va / 4096)) := by
    rw [hs.userAlias_table hd hdir hlt (htable'.hugeAt_eq hlt), hpage]
  rw [halias] at hrun
  have haccess := hs.userAccess_table hd hdir hva (htable.hugeAt_eq hva)
  cases hacc : userAccess s.mem d va with
  | none =>
    have hz : pteAlias (lookup s.mem d (va / 4096)) = 0 := by
      rw [hacc] at haccess
      rw [pteAlias]
      split_ifs at haccess ⊢
      rfl
    rw [hz] at hrun
    refine .inl ⟨rfl, hrun, ?_⟩
    rw [copyout.loop, if_pos hlen, bind_ok hrun, if_pos rfl, EStateM.run_pure]
  | some pa =>
    have hlow : va < 0x80000000 := by
      by_contra hlarge
      rw [hk.userAccess_eq_none hs hd hdir (by omega) hva] at hacc
      cases hacc
    obtain ⟨f, fl, hf, hown, hfl, hodd, hu, hlook, rfl⟩ := hs.userAccess_page hd hdir hlow (htable.hugeAt_eq hva) hacc
    have halign := hf.1
    have hflt := hf.lt
    have hne : ¬ P2V f = 0 := P2V_ne_zero (by omega)
    have hf' : pteAlias (lookup s.mem d (va / 4096)) = P2V f := by
      rw [pteAlias, hlook, PTE_ADDR_add halign hfl, if_pos]
      rw [Bool.and_eq_true, hasFlag_P, hasFlag_U]
      omega
    rw [hf'] at hrun
    refine .inr ⟨f, hf, hown, hlow, rfl, hrun, ?_⟩
    rw [copyout.loop, if_pos hlen, bind_ok hrun, if_neg hne, writeBytes_bind, firstPart, hoff, V2P_P2V_add (by omega)]

/-- The bytes of the first page, stored. -/
theorem Sys.stored_page {f n : Nat} (hs : Sys s g) (hd : IsFrame d) (hdir : g.own d = .dir o) (hva : va < 0x80000000)
    (htable : HasTable s.mem d va) (h : userAccess s.mem d va = some (f + va % 4096)) (hn : va % 4096 + n ≤ 4096)
    (hlen : n ≤ buf.length) :
    Stored s.mem (blit s.mem (f + va % 4096) (buf.take n)) d va (buf.take n) := by
  have htake : (buf.take n).length = n := List.length_take_of_le hlen
  have hacc (i : Nat) (hi : i < n) : userAccess s.mem d (u32 (va + i)) = some (f + va % 4096 + i) := by
    have hu : u32 (va + i) = va + i := Nat.mod_eq_of_lt (by omega)
    rw [hu, hs.userAccess_add hd hdir htable hva h (by omega), Option.some.injEq]
    omega
  refine ⟨fun i hi => ⟨_, hacc i (by omega), ?_⟩, fun a ha => ?_⟩
  · rw [blit, if_pos (by omega), Nat.add_sub_cancel_left]
  · rw [blit]
    refine if_neg fun hin => ha (a - (f + va % 4096)) (by omega) ?_
    rw [hacc _ (by omega), Option.some.injEq]
    omega

/-- The rest of the range is stored after its first part. -/
theorem Stored.append {m m₁ m' : Mem} {va₁ : Nat} {part rest : List UInt8} (h : Stored m m₁ d va part)
    (h' : Stored m₁ m' d va₁ rest) (hnext : ∀ i < rest.length, u32 (va₁ + i) = u32 (va + (part.length + i)))
    (hview : ∀ i < rest.length, userAccess m₁ d (u32 (va₁ + i)) = userAccess m d (u32 (va₁ + i)))
    (hinj : ∀ i < part.length, ∀ j < rest.length, ∀ pa, userAccess m d (u32 (va + i)) = some pa →
      userAccess m d (u32 (va₁ + j)) ≠ some pa) : Stored m m' d va (part ++ rest) where
  bytes i hi := by
    rw [List.length_append] at hi
    by_cases hpart : i < part.length
    · obtain ⟨pa, hpa, hbyte⟩ := h.bytes i hpart
      refine ⟨pa, hpa, ?_⟩
      rw [h'.rest pa fun j hj => (hview j hj).symm ▸ hinj i hpart j hj pa hpa, hbyte, List.getD_append _ _ _ _ hpart]
    · obtain ⟨pa, hpa, hbyte⟩ := h'.bytes (i - part.length) (by omega)
      rw [hview _ (by omega), hnext _ (by omega), Nat.add_sub_cancel' (by omega)] at hpa
      exact ⟨pa, hpa, by rw [hbyte, List.getD_append_right _ _ _ _ (by omega)]⟩
  rest a ha := by
    rw [List.length_append] at ha
    rw [h'.rest a, h.rest a]
    · exact fun i hi => ha i (by omega)
    · intro j hj
      rw [hview j hj, hnext j hj]
      exact ha _ (by omega)

/-- Bytes that a user reaches one after the other have different physical addresses. -/
theorem InTables.inj (h : InTables s.mem d va buf.length) (hs : Sys s g) (hk : KernOK s.mem d) (hd : IsFrame d)
    (hdir : g.own d = .dir o) (hva : va < 2 ^ 32) {n i j pa : Nat} (hn : n ≤ buf.length)
    (hacc : ∀ i < n, userAccess s.mem d (u32 (va + i)) ≠ none) (hi : i < n) (hj : j < n)
    (hpa : userAccess s.mem d (u32 (va + i)) = some pa) (hpa' : userAccess s.mem d (u32 (va + j)) = some pa) : i = j := by
  have hbound {x : Nat} (hx : x < n) : va + x < 0x80000000 :=
    hk.lt_of_accessible hs hd hdir hva fun y hy => hacc y (by omega)
  have htable {x : Nat} (hx : x < n) : HasTable s.mem d (u32 (va + x)) := h x (by omega) fun y hy => hacc y (by omega)
  have hlow {x : Nat} (hx : x < n) : u32 (va + x) = va + x := Nat.mod_eq_of_lt (by have := hbound hx; omega)
  have hlt {x : Nat} (hx : x < n) : u32 (va + x) < 0x80000000 := by
    rw [hlow hx]
    exact hbound hx
  have heq := hs.userAccess_inj hd hdir (hlt hi) (hlt hj) (htable hi) (htable hj) hpa hpa'
  rw [hlow hi, hlow hj] at heq
  omega

/-- The loop of `copyout` over a range that meets no missing page table and no 4MB page. -/
theorem copyout_loop (hd : IsFrame d) (hdir : g.own d = .dir o) (fuel : Nat) (hs : Sys s g) (hk : KernOK s.mem d)
    (hva : va < 2 ^ 32) (htab : InTables s.mem d va buf.length) (hfuel : buf.length < fuel) :
    ∃ k s', (copyout.loop (P2V d) fuel va buf).run s = .ok (if k = buf.length then 0 else -1) s' ∧
      Delivered d va buf k s g s' := by
  induction fuel generalizing s va buf with
  | zero => omega
  | succ fuel ih =>
    by_cases hbuf : buf = []
    · subst hbuf
      refine ⟨0, s, rfl, le_rfl, hs, .refl _ _ _ _, fun _ _ => rfl, fun _ _ => rfl, ⟨by simp, fun _ _ => rfl⟩, by simp, ?_⟩
      intro va' t hreach
      cases hreach with
      | here h => exact absurd rfl h
      | next h => exact absurd rfl h
    have hpos : 0 < buf.length := List.length_pos_iff.2 hbuf
    have hu0 : u32 (va + 0) = va := Nat.mod_eq_of_lt hva
    have htable : HasTable s.mem d va := hu0 ▸ htab 0 hpos fun j hj => by omega
    have hround := PGROUNDDOWN_add va
    have hpage : PGROUNDDOWN va / 4096 = va / 4096 := by
      simp only [PGROUNDDOWN, PGSIZE]
      omega
    have hoff : va - PGROUNDDOWN va = va % 4096 := by omega
    have hwalk : (walkpgdir (P2V d) (PGROUNDDOWN va) false).run s ≠ .ok 0 s := by
      obtain ⟨t, ht, -, hwalk, -⟩ := hs.walk_table hd hdir (show PGROUNDDOWN va < 2 ^ 32 by omega) (htable.page hpage)
      have hlt := ht.lt
      have hne := P2V_ne_zero (show t < 0x80000000 by omega)
      rw [hwalk]
      intro h0
      rw [EStateM.Result.ok.injEq] at h0
      omega
    rcases copyout_turn hs hk hd hdir hva htable hbuf fuel with ⟨hnone, hstop, hrun⟩ |
      ⟨f, hf, hown, hlow, hacc, hfound, hrun⟩
    · refine ⟨0, s, by rw [hrun, if_neg (by omega)], Nat.zero_le _, hs, .refl _ _ _ _, fun _ _ => rfl, fun _ _ => rfl,
        ⟨by simp, fun _ _ => rfl⟩, fun _ => hu0.symm ▸ hnone, ?_⟩
      intro va' t hreach
      cases hreach with
      | here h => exact hwalk
      | next h hpage' hne =>
        rw [hstop, EStateM.Result.ok.injEq] at hpage'
        exact absurd hpage'.1.symm hne
    generalize hn : firstPart va buf = n at hrun
    have hnle : n ≤ buf.length := hn ▸ Nat.min_le_right _ _
    have hnval : n = min (4096 - va % 4096) buf.length := by
      rw [← hn, firstPart, hoff]
    have htake : (buf.take n).length = n := List.length_take_of_le hnle
    have hfit : va % 4096 + (buf.take n).length ≤ 4096 := by omega
    obtain ⟨hs₁, hstep₁, hlook₁, hentry₁⟩ := blit_page (buf.take n) hs hd hdir hf hown hfit
    have hstored := hs.stored_page hd hdir hlow htable hacc (by omega) hnle
    have hk₁ := hstep₁.kernOK hs hd hdir hk
    have hview {x : Nat} (hx : x < 2 ^ 32) := userAccess_congr hs hs₁ hd hdir hlook₁ hentry₁ hx
    have hdrop : (buf.drop n).length = buf.length - n := List.length_drop
    have hnext (i : Nat) (hi : i < (buf.drop n).length) :
        u32 (u32 (PGROUNDDOWN va + PGSIZE) + i) = u32 (va + (n + i)) := by
      simp only [u32, PGSIZE]
      omega
    have hacc₁ (i : Nat) (hi : i < n) : userAccess s.mem d (u32 (va + i)) ≠ none := by
      obtain ⟨pa, hpa, -⟩ := hstored.bytes i (by omega)
      simp [hpa]
    have hlt (x : Nat) : u32 x < 2 ^ 32 := Nat.mod_lt _ (by omega)
    have htab₁ : InTables (blit s.mem (f + va % 4096) (buf.take n)) d (u32 (PGROUNDDOWN va + PGSIZE)) (buf.drop n).length := by
      intro i hi hall
      have hbefore (j : Nat) (hj : j < n + i) : userAccess s.mem d (u32 (va + j)) ≠ none := by
        by_cases hjn : j < n
        · exact hacc₁ j hjn
        · have := hall (j - n) (by omega)
          rwa [hview (hlt _), hnext _ (by omega), Nat.add_sub_cancel' (by omega)] at this
      rw [hnext i hi, HasTable, hentry₁ _ (PDX_lt _)]
      exact htab (n + i) (by omega) hbefore
    obtain ⟨k, s', hrun', hdel⟩ := ih hs₁ hk₁ (hlt _) htab₁ (by omega)
    have hkle := hdel.le
    have htake' : ((buf.drop n).take k).length = k := List.length_take_of_le hkle
    have hacc (i : Nat) (hi : i < n + k) : userAccess s.mem d (u32 (va + i)) ≠ none := by
      by_cases hin : i < n
      · exact hacc₁ i hin
      · obtain ⟨pa, hpa, -⟩ := hdel.stored.bytes (i - n) (by omega)
        rw [hview (hlt _), hnext _ (by omega), Nat.add_sub_cancel' (by omega)] at hpa
        simp [hpa]
    refine ⟨n + k, s', ?_, by omega, hdel.sys, hstep₁.trans hdel.step, fun x hx => (hdel.lookup_eq x hx).trans (hlook₁ x hx),
      fun i hi => (hdel.entry_eq i hi).trans (hentry₁ i hi), ?_, fun hk => ?_, ?_⟩
    · rw [hrun, hrun']
      simp only [hdrop, show k = buf.length - n ↔ n + k = buf.length by omega]
    · rw [List.take_add]
      refine hstored.append hdel.stored (fun i hi => ?_) (fun i hi => hview (hlt _)) fun i hi j hj pa hpa hpa' => ?_
      · rw [htake]
        exact hnext i (by omega)
      · rw [hnext j (by omega)] at hpa'
        have := htab.inj hs hk hd hdir hva (by omega) hacc (by omega) (by omega) hpa hpa'
        omega
    · have hstop := hdel.stop (by omega)
      rwa [hview (hlt _), hnext k (by omega)] at hstop
    · intro va' t hreach
      cases hreach with
      | here h => exact hwalk
      | next h hpage' hne hreach =>
        rw [hfound, EStateM.Result.ok.injEq] at hpage'
        obtain ⟨rfl, rfl⟩ := hpage'
        have hflt := hf.lt
        rw [show min (PGSIZE - (va - PGROUNDDOWN va)) buf.length = n from hn, hoff, V2P_P2V_add (by omega)] at hreach
        exact hdel.noMissing va' t hreach

end loop

end xv6
