import Xv6.Vm.Unmap

open bytes outcome Function

namespace xv6

/-- The frames that belong to directory `d`: its own, its page tables, its pages. -/
def OwnedBy (g : Ghost) (d x : Nat) : Prop :=
  x = d ∨ (∃ i, g.own x = .table d i) ∨ ∃ i j, g.own x = .page d i j

/-- Frames of a set have been freed and nothing else in memory has changed. -/
structure Freed (F : Nat → Prop) (s : Machine) (g : Ghost) (s' : Machine) (g' : Ghost) : Prop where
  freed : ∀ x, IsFrame x → F x → g'.own x = .free
  kept : ∀ x, IsFrame x → ¬ F x → g'.own x = g.own x
  same : ∀ x, IsFrame x → ¬ F x → g.own x ≠ .free → SameOn s.mem s'.mem x 4096
  hsame : ∀ x, IsHuge x → SameOn s.mem s'.mem x 0x400000
  hown : ∀ x, IsHuge x → g'.hown x = g.hown x
  hfree : g'.hfree = g.hfree
  frees : ∃ l, s'.frees = s.frees ++ l ∧ ∀ c ∈ l, ∃ v, c = .kfree v
  rest : s' = { s with mem := s'.mem, freelist := s'.freelist, freehugelist := s'.freehugelist,
                       frees := s'.frees }

section freed

variable {F F' : Nat → Prop} {s s' s'' : Machine} {g g' g'' : Ghost} {d f : Nat}

theorem Freed.refl (h : ∀ x, IsFrame x → ¬ F x) : Freed F s g s g where
  freed x hx hF := absurd hF (h x hx)
  kept _ _ _ := rfl
  same _ _ _ _ := SameOn.refl _ _ _
  hsame _ _ := SameOn.refl _ _ _
  hown _ _ := rfl
  hfree := rfl
  frees := ⟨[], by simp, by simp⟩
  rest := rfl

theorem Freed.trans (h : Freed F s g s' g') (h' : Freed F' s' g' s'' g'') (hdisj : ∀ x, F x → ¬ F' x) :
    Freed (fun x => F x ∨ F' x) s g s'' g'' where
  freed x hx hF := by
    rcases hF with hF | hF
    · rw [h'.kept x hx (hdisj x hF), h.freed x hx hF]
    · exact h'.freed x hx hF
  kept x hx hF := by
    rw [h'.kept x hx fun h => hF (.inr h), h.kept x hx fun h => hF (.inl h)]
  same x hx hF hfr := by
    have hF' : ¬ F x := fun h => hF (.inl h)
    exact (h.same x hx hF' hfr).trans
      (h'.same x hx (fun h => hF (.inr h)) (by rwa [h.kept x hx hF']))
  hsame x hx := (h.hsame x hx).trans (h'.hsame x hx)
  hown x hx := (h'.hown x hx).trans (h.hown x hx)
  hfree := h'.hfree.trans h.hfree
  frees := by
    obtain ⟨l, hl, hall⟩ := h.frees
    obtain ⟨l', hl', hall'⟩ := h'.frees
    refine ⟨l ++ l', by rw [hl', hl, List.append_assoc], fun c hc => ?_⟩
    rcases List.mem_append.1 hc with hc | hc
    · exact hall c hc
    · exact hall' c hc
  rest := by rw [h'.rest, h.rest]

theorem Freed.congr (h : Freed F s g s' g') (hiff : ∀ x, IsFrame x → (F x ↔ F' x)) :
    Freed F' s g s' g' where
  freed x hx hF := h.freed x hx ((hiff x hx).2 hF)
  kept x hx hF := h.kept x hx fun h => hF ((hiff x hx).1 h)
  same x hx hF := h.same x hx fun h => hF ((hiff x hx).1 h)
  hsame := h.hsame
  hown := h.hown
  hfree := h.hfree
  frees := h.frees
  rest := h.rest

/-- `kfree` of a frame that belongs to no place. -/
theorem Freed.push (hs : Sys s g) (hf : IsFrame f) (htemp : g.own f = .temp) :
    ∃ g', Sys (s.freed f) g' ∧ Freed (fun x => x = f) s g (s.freed f) g' := by
  refine ⟨_, hs.push hf htemp, ?_⟩
  exact
    { freed := fun x _ hx => hx ▸ update_self _ _ _
      kept := fun x _ hx => update_of_ne hx _ _
      same := fun x hx hne _ => freed_sameOn hf hx hne
      hsame := fun x hx => freed_sameOn_huge hf hx
      hown := fun _ _ => rfl
      hfree := rfl
      frees := ⟨[.kfree (P2V f)], rfl, by simp⟩
      rest := rfl }

end freed

section sweep

variable {s : Machine} {g : Ghost} {d i t : Nat}

/-- The slots of a directory that has been given up, as `freevm` meets them. -/
def Spare (m : Mem) (g : Ghost) (d lo : Nat) : Prop :=
  ∀ i, lo ≤ i → i < 1024 → entry m d i = 0 ∨ (entry m d i % 2 = 1 ∧ entry m d i / 128 % 2 = 1) ∨
    ∃ t, IsFrame t ∧ t ≠ d ∧ g.own t = .temp ∧ entry m d i = t + 7 ∧
      ∀ i', lo ≤ i' → i' < 1024 → i' ≠ i → entry m d i' ≠ t + 7

theorem sweep_skip (hd : IsFrame d) (hi : i < 1024) (n : Nat)
    (h : entry s.mem d i = 0 ∨ entry s.mem d i % 2 = 1 ∧ entry s.mem d i / 128 % 2 = 1) :
    (freevm.sweep (P2V d) (n + 1) i).run s = (freevm.sweep (P2V d) n (i + 1)).run s := by
  have hdlt := hd.lt
  rw [freevm.sweep, readWord_entry_bind (by omega) hi]
  rcases h with h | ⟨hp, hps⟩
  · rw [h, if_neg (by simp)]
  · rw [if_pos (hasFlag_P.2 hp), if_pos (hasFlag_PS.2 hps)]

theorem sweep_table (hd : IsFrame d) (hi : i < 1024) (n : Nat) (ht : IsFrame t)
    (h : entry s.mem d i = t + 7) :
    (freevm.sweep (P2V d) (n + 1) i).run s = (freevm.sweep (P2V d) n (i + 1)).run (s.freed t) := by
  have hdlt := hd.lt
  have halign := ht.1
  have hp : hasFlag (t + 7) PTE_P = true := by
    rw [hasFlag_P]
    omega
  have hps : ¬ hasFlag (t + 7) PTE_PS = true := by
    rw [hasFlag_PS]
    omega
  rw [freevm.sweep, readWord_entry_bind (by omega) hi, h, if_pos hp, if_neg hps,
    PTE_ADDR_add halign (by omega), bind_ok (kfree_run ht s)]

/-- The sweep of `freevm` frees exactly the page tables of the remaining slots. -/
theorem sweep_spec (hd : IsFrame d) (n : Nat) :
    ∀ (i : Nat) (s : Machine) (g : Ghost), n + i = 1024 → Sys s g → Spare s.mem g d i →
      ∃ s' g', (freevm.sweep (P2V d) n i).run s = .ok () s' ∧ Sys s' g' ∧
        Freed (fun x => ∃ j, i ≤ j ∧ j < 1024 ∧ entry s.mem d j = x + 7) s g s' g' := by
  induction n with
  | zero =>
    intro i s g hi hs _
    exact ⟨s, g, rfl, hs, Freed.refl fun x _ ⟨j, hj, hj', _⟩ => by omega⟩
  | succ n ih =>
    intro i s g hi hs hspare
    by_cases htab : ∃ t, IsFrame t ∧ entry s.mem d i = t + 7
    · obtain ⟨t, ht, hpde⟩ := htab
      have halign := ht.1
      obtain ⟨htd, htemp, huniq⟩ : t ≠ d ∧ g.own t = .temp ∧
          ∀ i', i ≤ i' → i' < 1024 → i' ≠ i → entry s.mem d i' ≠ t + 7 := by
        rcases hspare i le_rfl (by omega) with h | h | ⟨t', ht', htd, htemp, hpde', huniq⟩
        · omega
        · omega
        · obtain rfl : t = t' := by omega
          exact ⟨htd, htemp, huniq⟩
      obtain ⟨g₁, hs₁, hfreed⟩ := Freed.push hs ht htemp
      have hentry (j : Nat) (hj : j < 1024) : entry (s.freed t).mem d j = entry s.mem d j :=
        entry_eq_of_sameOn (freed_sameOn ht hd htd.symm) hj
      have hspare₁ : Spare (s.freed t).mem g₁ d (i + 1) := by
        intro j hj hj'
        rw [hentry j hj']
        rcases hspare j (by omega) hj' with h | h | ⟨t', ht', htd', htemp', hpde', huniq'⟩
        · exact .inl h
        · exact .inr (.inl h)
        · have htt : t' ≠ t := by
            rintro rfl
            exact huniq j (by omega) hj' (by omega) hpde'
          refine .inr (.inr ⟨t', ht', htd', ?_, hpde', fun i' hi' hlt hne => ?_⟩)
          · rw [hfreed.kept t' ht' htt, htemp']
          · rw [hentry i' hlt]
            exact huniq' i' (by omega) hlt hne
      obtain ⟨s', g', hrun, hs', hfreed'⟩ := ih (i + 1) _ g₁ (by omega) hs₁ hspare₁
      refine ⟨s', g', (sweep_table hd (by omega) n ht hpde).trans hrun, hs', ?_⟩
      refine (hfreed.trans hfreed' ?_).congr fun x hx => ⟨?_, ?_⟩
      · rintro x rfl ⟨j, hj, hj', h⟩
        rw [hentry j hj'] at h
        exact huniq j (by omega) hj' (by omega) h
      · rintro (rfl | ⟨j, hj, hj', h⟩)
        · exact ⟨i, le_rfl, by omega, hpde⟩
        · rw [hentry j hj'] at h
          exact ⟨j, by omega, hj', h⟩
      · rintro ⟨j, hj, hj', h⟩
        by_cases hji : j = i
        · subst hji
          left
          omega
        · right
          exact ⟨j, by omega, hj', (hentry j hj').trans h⟩
    · have hskip : entry s.mem d i = 0 ∨ entry s.mem d i % 2 = 1 ∧ entry s.mem d i / 128 % 2 = 1 := by
        rcases hspare i le_rfl (by omega) with h | h | ⟨t, ht, _, _, hpde, _⟩
        · exact .inl h
        · exact .inr h
        · exact absurd ⟨t, ht, hpde⟩ htab
      have hspare₁ : Spare s.mem g d (i + 1) := by
        intro j hj hj'
        rcases hspare j (by omega) hj' with h | h | ⟨t, ht, htd, htemp, hpde, huniq⟩
        · exact .inl h
        · exact .inr (.inl h)
        · exact .inr (.inr ⟨t, ht, htd, htemp, hpde, fun i' hi' hlt hne => huniq i' (by omega) hlt hne⟩)
      obtain ⟨s', g', hrun, hs', hfreed⟩ := ih (i + 1) s g (by omega) hs hspare₁
      refine ⟨s', g', (sweep_skip hd (by omega) n hskip).trans hrun, hs', hfreed.congr fun x hx => ⟨?_, ?_⟩⟩
      · rintro ⟨j, hj, hj', h⟩
        exact ⟨j, by omega, hj', h⟩
      · rintro ⟨j, hj, hj', h⟩
        refine ⟨j, ?_, hj', h⟩
        by_contra hcon
        obtain rfl : j = i := by omega
        exact htab ⟨x, hx, h⟩

end sweep

section freevm

variable {s : Machine} {g : Ghost} {d : Nat} {o : DirOwner}

theorem deallocStart_zero (m : Mem) (d : Nat) : deallocStart m d 0 = 0 := by
  simp [deallocStart]

theorem Sys.spare (hs : Sys s g) (hd : IsFrame d) (hdir : g.own d = .dir o) :
    Spare s.mem (g.drop d) d 0 := by
  intro i _ hi
  rcases hs.pde d o hd hdir i hi with h | ⟨t, ht, htable, h⟩ | ⟨_, f, hf, _, h⟩ | ⟨_, _, h⟩
  · exact .inl h
  · refine .inr (.inr ⟨t, ht, ?_, if_pos (.inr ⟨i, htable⟩), h, fun i' _ hi' hne heq => ?_⟩)
    · rintro rfl
      simp [hdir] at htable
    · have halign := ht.1
      rcases hs.pde d o hd hdir i' hi' with h' | ⟨t', ht', htable', h'⟩ | ⟨_, f, ⟨hf, _⟩, _, h'⟩ | ⟨_, _, h'⟩
      · omega
      · obtain rfl : t = t' := by omega
        rw [htable] at htable'
        simp only [Role.table.injEq, true_and] at htable'
        exact hne htable'.symm
      · omega
      · omega
  · have halign := hf.1
    right; left
    omega
  · right; left
    omega

/-- `freevm` frees every base frame of the directory. Its huge frames are lost:
they are neither mapped by a directory in use nor on the free list. -/
theorem freevm_spec (hs : Sys s g) (hd : IsFrame d) (hdir : g.own d = .dir o)
    (hquiet : Quiet s.mem d 0 (2 ^ 19)) :
    ∃ s' g', (freevm (P2V d)).run s = .ok () s' ∧ Sys s' g' ∧
      Freed (OwnedBy g d) s { g with hown := (g.drop d).hown } s' g' := by
  have hdlt := hd.lt
  have hne : ¬ P2V d = 0 := P2V_ne_zero (by omega)
  obtain ⟨s₁, g₁, hdealloc, hs₁, hswept⟩ :=
    deallocuvm_spec hs hd hdir (show 0x80000000 ≤ 0x80000000 from le_rfl) (show 0 < 0x80000000 by omega)
      (by rw [deallocStart_zero]; exact hquiet)
  rw [deallocStart_zero, show (0x80000000 + 4095) / 4096 = 2 ^ 19 from rfl] at hswept
  have hdir₁ : g₁.own d = .dir o := hswept.dir.trans hdir
  have hnopage (f i j : Nat) (hf : IsFrame f) : g₁.own f ≠ .page d i j := by
    intro hpage
    obtain ⟨hi, hj, _⟩ := hs₁.page_up f d i j hf hpage
    obtain ⟨fl, _, hodd, hlook⟩ := hs₁.lookup_page hf hpage
    rw [hswept.lookup_eq _ (by omega), if_pos (by omega)] at hlook
    omega
  have hs₂ := hs₁.drop hdir₁ hnopage
  obtain ⟨s₃, g₃, hsweep, hs₃, hfreed⟩ := sweep_spec hd 1024 0 s₁ (g₁.drop d) rfl hs₂ (hs₁.spare hd hdir₁)
  have htab {x i : Nat} (hx : IsFrame x) (hi : i < 1024) (h : entry s₁.mem d i = x + 7) :
      g₁.own x = .table d i := by
    have halign := hx.1
    rcases hs₁.pde d o hd hdir₁ i hi with h' | ⟨t, ht, htable, h'⟩ | ⟨_, f, ⟨hf, _⟩, _, h'⟩ | ⟨_, _, h'⟩
    · omega
    · obtain rfl : x = t := by omega
      exact htable
    · omega
    · omega
  have hnotF : ¬ ∃ j, 0 ≤ j ∧ j < 1024 ∧ entry s₁.mem d j = d + 7 := by
    rintro ⟨j, _, hj, h⟩
    have := htab hd hj h
    simp [hdir₁] at this
  have htemp : g₃.own d = .temp := by
    rw [hfreed.kept d hd hnotF]
    exact if_pos (.inl rfl)
  obtain ⟨g₄, hs₄, hfreed'⟩ := Freed.push hs₃ hd htemp
  have hall := hfreed.trans hfreed' fun x hx heq => hnotF (heq ▸ hx)
  -- Which frames of the original assignment the two stages have freed.
  have hdrop {x : Nat} (hx : ¬ OwnedBy g d x) : (g₁.drop d).own x = g.own x := by
    have heq : g₁.own x = g.own x := by
      rcases hswept.own x with heq | ⟨hpage, _⟩
      · exact heq
      · exact absurd (.inr (.inr hpage)) hx
    have hof : ¬ (g₁.own x).ofDir d x := by
      rintro (h | ⟨i, h⟩)
      · exact hx (.inl h)
      · exact hx (.inr (.inl ⟨i, heq ▸ h⟩))
    exact (if_neg hof).trans heq
  have hF {x : Nat} (hx : IsFrame x) (h : (∃ j, 0 ≤ j ∧ j < 1024 ∧ entry s₁.mem d j = x + 7) ∨ x = d) :
      OwnedBy g d x := by
    rcases h with ⟨j, _, hj, h⟩ | h
    · have htable := htab hx hj h
      rcases hswept.own x with heq | ⟨hpage, _⟩
      · exact .inr (.inl ⟨j, heq ▸ htable⟩)
      · exact .inr (.inr hpage)
    · exact .inl h
  refine ⟨_, g₄, ?_, hs₄, ?_⟩
  · unfold freevm
    rw [if_neg hne, bind_ok hdealloc, bind_ok hsweep, kfree_run hd s₃]
  · exact
      { freed := by
          rintro x hx (rfl | ⟨i, htable⟩ | ⟨i, j, hpage⟩)
          · exact hall.freed x hx (.inr rfl)
          · have htable₁ : g₁.own x = .table d i := by
              rcases hswept.own x with heq | ⟨⟨_, _, hpage⟩, _⟩
              · rw [heq, htable]
              · simp [htable] at hpage
            obtain ⟨_, hi, hpde, _⟩ := hs₁.table_up x d i hx htable₁
            exact hall.freed x hx (.inl ⟨i, by omega, hi, hpde⟩)
          · have hfree₁ : g₁.own x = .free := by
              rcases hswept.own x with heq | ⟨_, hfree⟩
              · exact absurd (heq.trans hpage) (hnopage x i j hx)
              · exact hfree
            have hxd : x ≠ d := by
              rintro rfl
              simp [hdir] at hpage
            have hout : ¬ ((∃ j, 0 ≤ j ∧ j < 1024 ∧ entry s₁.mem d j = x + 7) ∨ x = d) := by
              rintro (⟨j, _, hj, h⟩ | h)
              · have := htab hx hj h
                simp [hfree₁] at this
              · exact hxd h
            rw [hall.kept x hx hout]
            have hof : ¬ (g₁.own x).ofDir d x := by simp [Role.ofDir, hxd, hfree₁]
            exact (if_neg hof).trans hfree₁
        kept := by
          intro x hx hout
          rw [hall.kept x hx fun h => hout (hF hx h)]
          exact hdrop hout
        same := by
          intro x hx hout hfr
          have harea : ¬ UserArea d x (g.own x) := by
            rintro (h | h | ⟨i, _, h⟩ | h)
            · exact hout (.inl h)
            · exact hfr h
            · exact hout (.inr (.inl ⟨i, h⟩))
            · exact hout (.inr (.inr h))
          exact (hswept.same x hx harea).trans
            (hall.same x hx (fun h => hout (hF hx h)) (by rwa [hdrop hout]))
        hsame := fun x hx => (hswept.hsame x hx id).trans (hall.hsame x hx)
        hown := by
          intro x hx
          rw [hall.hown x hx]
          by_cases hof : (g.hown x).ofDir d
          · exact (if_pos (by rwa [hswept.hown])).trans (if_pos hof).symm
          · exact (if_neg (by rwa [hswept.hown])).trans ((congrFun hswept.hown x).trans (if_neg hof).symm)
        hfree := hall.hfree.trans hswept.hfree
        frees := by
          obtain ⟨l', hl', hk'⟩ := hall.frees
          refine ⟨sweptFrees s.mem d 0 (2 ^ 19) ++ l', by rw [hl', hswept.frees, List.append_assoc], fun c hc => ?_⟩
          rcases List.mem_append.1 hc with hc | hc
          · exact mem_sweptFrees hc
          · exact hk' c hc
        rest := by rw [hall.rest, hswept.rest] }

/-- A directory without huge pages is freed completely. -/
theorem freevm_complete (hs : Sys s g) (hd : IsFrame d) (hdir : g.own d = .dir o)
    (hnone : ∀ i < 512, hugeAt s.mem d i = 0) :
    ∃ s' g', (freevm (P2V d)).run s = .ok () s' ∧ Sys s' g' ∧ Freed (OwnedBy g d) s g s' g' := by
  have hquiet : Quiet s.mem d 0 (2 ^ 19) := by
    refine ⟨.inl rfl, fun i f _ hi hf hpde => ?_⟩
    have hz := hnone i (by omega)
    have halign := hf.1
    rw [hugeAt_of_huge (by omega) (by omega)] at hz
    omega
  obtain ⟨s', g', hrun, hs', hfreed⟩ := freevm_spec hs hd hdir hquiet
  refine ⟨s', g', hrun, hs', hfreed.freed, hfreed.kept, hfreed.same, hfreed.hsame, fun x hx => ?_,
    hfreed.hfree, hfreed.frees, hfreed.rest⟩
  rw [hfreed.hown x hx]
  refine if_neg ?_
  rintro ⟨i, hpage⟩
  obtain ⟨_, hi, _⟩ := hs.huge_up x d i hx hpage
  have hat := hs.hugeAt_page hx hpage
  rw [hnone i hi] at hat
  omega

end freevm

end xv6
