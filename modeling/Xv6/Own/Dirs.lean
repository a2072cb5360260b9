import Xv6.Own.Tables

open bytes chain Function

namespace xv6

/-- A huge frame is mapped at an empty user slot of a directory. -/
theorem Sys.add_huge {s : Machine} {g : Ghost} (hs : Sys s g) {d i f : Nat} {o : DirOwner}
    (hd : IsFrame d) (hdir : g.own d = .dir o) (hi : i < 512)
    (hempty : entry s.mem d i = 0) (hf : IsHuge f) (htemp : g.hown f = .temp) :
    Sys { s with mem := store32 s.mem (d + 4 * i) (f + 0x87) }
      { g with hown := update g.hown f (.page d i) } := by
  have hlt := hf.lt
  have hstore : entry (store32 s.mem (d + 4 * i) (f + 0x87)) d i = f + 0x87 :=
    entry_store_same (by omega)
  have hne {t d' i' : Nat} (h : g.own t = .table d' i') : d ≠ t := by
    rintro rfl
    simp [hdir] at h
  have hkeep {x d' i' : Nat} (h : g.hown x = .page d' i') :
      update g.hown f (.page d i) x = .page d' i' := by
    have hxf : x ≠ f := by
      rintro rfl
      simp [h] at htemp
    rw [update_of_ne hxf, h]
  have hslot {d' i' : Nat} (hd' : IsFrame d') (hi' : i' < 1024) (h : ¬ (d = d' ∧ i = i')) :
      entry (store32 s.mem (d + 4 * i) (f + 0x87)) d' i' = entry s.mem d' i' :=
    entry_store_ne hd hd' (by tauto) (by omega) hi'
  refine hs.revise (hs.chain_store hd (by omega) (by simp [hdir])) hs.nodup hs.mem_free (hs.hchain_store hd (by omega))
    hs.hnodup (fun x => ?_) (fun _ h => h) (fun _ _ _ h => h) (fun _ _ _ h => hkeep h)
    (fun d' o' hd' _ i' hi' hne => hslot hd' hi' ?_) (fun d' o' hd' h i' hi' => ?_)
    (fun t d' i' ht h _ j hj => .inl ⟨h, entry_store_frame hd ht (hne h) (by omega) hj, fun _ _ h => h⟩)
    (fun _ _ _ _ h => .inl h) (fun x d' i' j _ h => .inl ⟨h, fun t ht htab hj =>
      entry_store_frame hd ht (hne htab) (by omega) hj⟩) fun x d' i' _ h => ?_
  · rw [hs.mem_hfree x]
    by_cases hx : x = f
    · subst hx
      simp [htemp]
    · simp [update_of_ne hx]
  · rintro ⟨rfl, rfl⟩
    exact hne hempty
  · by_cases heq : d = d' ∧ i = i'
    · obtain ⟨rfl, rfl⟩ := heq
      exact .inr (.inr (.inr (.inl ⟨hi, f, hf, update_self _ _ _, hstore⟩)))
    · exact .inl ⟨⟨o', h⟩, hslot hd' hi' heq⟩
  · by_cases hxf : x = f
    · subst hxf
      obtain ⟨rfl, rfl⟩ : d = d' ∧ i = i' := by simpa using h
      exact .inr ⟨hd, hi, hstore, o, hdir⟩
    · exact .inl ((update_of_ne hxf _ _).symm.trans h)

/-- Entries of a page table of the kernel half own nothing. -/
theorem Sys.set_kernel_pte {s : Machine} {g : Ghost} (hs : Sys s g) {d i j t v : Nat}
    (ht : IsFrame t) (htable : g.own t = .table d i) (hi : 512 ≤ i) (hj : j < 1024) :
    Sys { s with mem := store32 s.mem (t + 4 * j) v } g := by
  have hdir {d' o' i' : _} (hd' : IsFrame d') (h : g.own d' = .dir o') (hi' : i' < 1024) :
      entry (store32 s.mem (t + 4 * j) v) d' i' = entry s.mem d' i' :=
    entry_store_frame ht hd' (by rintro rfl; simp [h] at htable) hj hi'
  have huser {t' d' i' j' : Nat} (ht' : IsFrame t') (h : g.own t' = .table d' i') (hi' : i' < 512) (hj' : j' < 1024) :
      entry (store32 s.mem (t + 4 * j) v) t' j' = entry s.mem t' j' := by
    refine entry_store_frame ht ht' ?_ hj hj'
    rintro rfl
    rw [htable, Role.table.injEq] at h
    omega
  exact hs.revise (hs.chain_store ht hj (by simp [htable])) hs.nodup hs.mem_free (hs.hchain_store ht hj) hs.hnodup
    hs.mem_hfree (fun _ h => h) (fun _ _ _ h => h) (fun _ _ _ h => h) (fun d' o' hd' h i' hi' _ => hdir hd' h hi')
    (fun d' o' hd' h i' hi' => .inl ⟨⟨o', h⟩, hdir hd' h hi'⟩)
    (fun t' d' i' ht' h hi' j' hj' => .inl ⟨h, huser ht' h hi' hj', fun _ _ h => h⟩) (fun _ _ _ _ h => .inl h)
    (fun f d' i' j' hf h => .inl ⟨h, fun t' ht' htab hj' => huser ht' htab (hs.page_up f d' i' j' hf h).1 hj'⟩)
    fun _ _ _ _ h => .inl h

/-- One of the kernel's own 4MB mappings is entered at an empty slot. -/
theorem Sys.set_kernel_pde {s : Machine} {g : Ghost} (hs : Sys s g) {d i : Nat} {o : DirOwner}
    (hd : IsFrame d) (hdir : g.own d = .dir o) (hi : 632 ≤ i) (hi' : i < 760)
    (hempty : entry s.mem d i = 0) :
    Sys { s with mem := store32 s.mem (d + 4 * i) ((i - 512) * 0x400000 + 0x83) } g := by
  have hne {t d' i' : Nat} (h : g.own t = .table d' i') : d ≠ t := by
    rintro rfl
    simp [hdir] at h
  have hslot {d' i₁ : Nat} (hd' : IsFrame d') (hi₁ : i₁ < 1024) (h : ¬ (d = d' ∧ i = i₁)) :
      entry (store32 s.mem (d + 4 * i) ((i - 512) * 0x400000 + 0x83)) d' i₁ = entry s.mem d' i₁ :=
    entry_store_ne hd hd' (by tauto) (by omega) hi₁
  refine hs.revise (hs.chain_store hd (by omega) (by simp [hdir])) hs.nodup hs.mem_free (hs.hchain_store hd (by omega))
    hs.hnodup hs.mem_hfree (fun _ h => h) (fun _ _ _ h => h) (fun _ _ _ h => h)
    (fun d' o' hd' _ i₁ hi₁ hne => hslot hd' hi₁ ?_) (fun d' o' hd' h i₁ hi₁ => ?_)
    (fun t d' i₁ ht h _ j hj => .inl ⟨h, entry_store_frame hd ht (hne h) (by omega) hj, fun _ _ h => h⟩)
    (fun _ _ _ _ h => .inl h) (fun x d' i₁ j _ h => .inl ⟨h, fun t ht htab hj =>
      entry_store_frame hd ht (hne htab) (by omega) hj⟩) fun _ _ _ _ h => .inl h
  · rintro ⟨rfl, rfl⟩
    exact hne hempty
  · by_cases heq : d = d' ∧ i = i₁
    · obtain ⟨rfl, rfl⟩ := heq
      exact .inr (.inr (.inr (.inr ⟨hi, hi', entry_store_same (by omega)⟩)))
    · exact .inl ⟨⟨o', h⟩, hslot hd' hi₁ heq⟩

/-- A zeroed frame becomes an empty page directory. -/
theorem Sys.add_dir {s : Machine} {g : Ghost} (hs : Sys s g) {d : Nat} (o : DirOwner)
    (htemp : g.own d = .temp) (hzero : ∀ i < 1024, entry s.mem d i = 0) :
    Sys s { g with own := update g.own d (.dir o) } := by
  have hkeep {f : Nat} {r : Role} (h : g.own f = r) (hr : r ≠ .temp) :
      update g.own d (.dir o) f = r := by
    have hne : f ≠ d := by
      rintro rfl
      exact hr (h.symm.trans htemp)
    rw [update_of_ne hne, h]
  have hback {f : Nat} {r : Role} (h : update g.own d (.dir o) f = r) (hr : r ≠ .dir o) :
      g.own f = r := by
    by_cases hf : f = d
    · subst hf
      rw [update_self] at h
      exact absurd h.symm hr
    · rwa [update_of_ne hf] at h
  refine hs.revise hs.chain hs.nodup (fun f => ?_) hs.hchain hs.hnodup hs.mem_hfree
    (fun d' ⟨o', h⟩ => ⟨o', hkeep h (by simp)⟩) (fun _ _ _ h => hkeep h (by simp)) (fun _ _ _ h => h)
    (fun _ _ _ _ _ _ _ => rfl) (fun d' o' _ h i hi => ?_)
    (fun t d' i _ h _ j _ => .inl ⟨hback h (by simp), rfl, fun _ _ h => hkeep h (by simp)⟩)
    (fun _ _ _ _ h => .inl (hback h (by simp))) (fun f d' i j _ h => .inl ⟨hback h (by simp), fun _ _ _ _ => rfl⟩)
    fun _ _ _ _ h => .inl h
  · exact (hs.mem_free f).trans (and_congr_right fun _ => ⟨fun h => hkeep h (by simp), fun h => hback h (by simp)⟩)
  · by_cases hne : d' = d
    · subst hne
      exact .inr (.inl (hzero i hi))
    · exact .inl ⟨⟨o', (update_of_ne hne _ _).symm.trans h⟩, rfl⟩

/-- A directory changes hands. -/
theorem Sys.give_dir {s : Machine} {g : Ghost} (hs : Sys s g) {d : Nat} {o : DirOwner}
    (o' : DirOwner) (hdir : g.own d = .dir o) : Sys s { g with own := update g.own d (.dir o') } := by
  have hiff {f : Nat} {r : Role} (hr : ∀ o, r ≠ .dir o) :
      update g.own d (.dir o') f = r ↔ g.own f = r := by
    by_cases hf : f = d
    · subst hf
      rw [update_self, hdir]
      exact ⟨fun h => absurd h.symm (hr o'), fun h => absurd h.symm (hr o)⟩
    · rw [update_of_ne hf]
  have hdirs {f : Nat} : (∃ o, update g.own d (.dir o') f = .dir o) ↔ ∃ o, g.own f = .dir o := by
    by_cases hf : f = d
    · subst hf
      simp [hdir]
    · rw [update_of_ne hf]
  exact hs.revise hs.chain hs.nodup (fun f => (hs.mem_free f).trans (and_congr_right fun _ => (hiff (by simp)).symm))
    hs.hchain hs.hnodup hs.mem_hfree (fun _ h => hdirs.2 h) (fun _ _ _ h => (hiff (by simp)).2 h) (fun _ _ _ h => h)
    (fun _ _ _ _ _ _ _ => rfl) (fun d' o'' _ h i _ => .inl ⟨hdirs.1 ⟨o'', h⟩, rfl⟩)
    (fun t d' i _ h _ j _ => .inl ⟨(hiff (by simp)).1 h, rfl, fun _ _ h => (hiff (by simp)).2 h⟩)
    (fun _ _ _ _ h => .inl ((hiff (by simp)).1 h))
    (fun f d' i j _ h => .inl ⟨(hiff (by simp)).1 h, fun _ _ _ _ => rfl⟩) fun _ _ _ _ h => .inl h

/-- The frames of directory `d` itself and of its page tables. -/
def Role.ofDir (d f : Nat) (r : Role) : Prop := f = d ∨ ∃ i, r = .table d i

def HugeRole.ofDir (d : Nat) (r : HugeRole) : Prop := ∃ i, r = .page d i

open Classical in
/-- What is left of the assignment when directory `d` is given up: its tables
and its own frame still have to be freed, and no one knows its huge frames. -/
noncomputable def Ghost.drop (g : Ghost) (d : Nat) : Ghost :=
  { g with
    own := fun f => if (g.own f).ofDir d f then .temp else g.own f
    hown := fun f => if (g.hown f).ofDir d then .temp else g.hown f }

/-- A directory without user pages can be given up. -/
theorem Sys.drop {s : Machine} {g : Ghost} (hs : Sys s g) {d : Nat} {o : DirOwner}
    (hdir : g.own d = .dir o) (hpages : ∀ f i j, IsFrame f → g.own f ≠ .page d i j) :
    Sys s (g.drop d) := by
  have hback {f : Nat} {r : Role} (h : (g.drop d).own f = r) (hr : r ≠ .temp) :
      g.own f = r ∧ ¬ r.ofDir d f := by
    by_cases hof : (g.own f).ofDir d f
    · simp only [Ghost.drop, if_pos hof] at h
      exact absurd h.symm hr
    · simp only [Ghost.drop, if_neg hof] at h
      exact ⟨h, h ▸ hof⟩
  have hkeep {f : Nat} {r : Role} (h : g.own f = r) (hr : ¬ r.ofDir d f) : (g.drop d).own f = r := by
    subst h
    exact if_neg hr
  have hhback {f : Nat} {r : HugeRole} (h : (g.drop d).hown f = r) (hr : r ≠ .temp) :
      g.hown f = r ∧ ¬ r.ofDir d := by
    by_cases hof : (g.hown f).ofDir d
    · simp only [Ghost.drop, if_pos hof] at h
      exact absurd h.symm hr
    · simp only [Ghost.drop, if_neg hof] at h
      exact ⟨h, h ▸ hof⟩
  have hhkeep {f : Nat} {r : HugeRole} (h : g.hown f = r) (hr : ¬ r.ofDir d) :
      (g.drop d).hown f = r := by
    subst h
    exact if_neg hr
  have hne {f : Nat} {r : Role} (h : g.own f = r) (hr : r ≠ .dir o) : f ≠ d := by
    rintro rfl
    exact hr (h.symm.trans hdir)
  refine ⟨hs.chain, hs.nodup, ?_, hs.hchain, hs.hnodup, ?_, ?_, ?_, ?_, ?_, ?_⟩
  · intro f
    refine (hs.mem_free f).trans ⟨fun h => ⟨h.1, hkeep h.2 ?_⟩, fun h => ⟨h.1, (hback h.2 (by simp)).1⟩⟩
    simp [Role.ofDir, hne h.2 (by simp)]
  · intro f
    exact (hs.mem_hfree f).trans ⟨fun h => ⟨h.1, hhkeep h.2 (by simp [HugeRole.ofDir])⟩,
      fun h => ⟨h.1, (hhback h.2 (by simp)).1⟩⟩
  · intro d' o' hd' hdir' i hi
    obtain ⟨hdir', hof⟩ := hback hdir' (by simp)
    have hdd : d' ≠ d := fun h => hof (.inl h)
    refine (hs.pde d' o' hd' hdir' i hi).congr rfl (fun t _ h => hkeep h ?_) (fun f _ h => hhkeep h ?_)
    · simp [Role.ofDir, hne h (by simp), hdd]
    · simp [HugeRole.ofDir, hdd]
  · intro t d' i ht htable hi j hj
    obtain ⟨htable, hof⟩ := hback htable (by simp)
    refine (hs.pte t d' i ht htable hi j hj).congr rfl fun f _ h => hkeep h ?_
    simp [Role.ofDir, hne h (by simp)]
  · intro t d' i ht htable
    obtain ⟨htable, hof⟩ := hback htable (by simp)
    obtain ⟨hd', hi, hpde, o', hdir'⟩ := hs.table_up t d' i ht htable
    refine ⟨hd', hi, hpde, o', hkeep hdir' ?_⟩
    rintro (rfl | ⟨i', h⟩)
    · exact hof (.inr ⟨i, rfl⟩)
    · simp at h
  · intro f d' i j hf hpage
    replace hpage := (hback hpage (by simp)).1
    have hdd : d' ≠ d := by
      rintro rfl
      exact hpages f i j hf hpage
    obtain ⟨hi, hj, t, fl, ht, htable, h⟩ := hs.page_up f d' i j hf hpage
    refine ⟨hi, hj, t, fl, ht, hkeep htable ?_, h⟩
    simp [Role.ofDir, hne htable (by simp), hdd]
  · intro f d' i hf hpage
    obtain ⟨hpage, hof⟩ := hhback hpage (by simp)
    obtain ⟨hd', hi, hpde, o', hdir'⟩ := hs.huge_up f d' i hf hpage
    refine ⟨hd', hi, hpde, o', hkeep hdir' ?_⟩
    rintro (rfl | ⟨i', h⟩)
    · exact hof ⟨i, rfl⟩
    · simp at h

end xv6
