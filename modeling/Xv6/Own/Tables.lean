import Xv6.Own.Frames

open bytes chain Function

namespace xv6

section setEntry

variable {m : Mem} {f f' i i' v : Nat}

theorem entry_store_same (hv : v < 2 ^ 32) : entry (store32 m (f + 4 * i) v) f i = v :=
  load32_store32_same m _ hv

theorem entry_store_slot (h : i ≠ i') :
    entry (store32 m (f + 4 * i) v) f i' = entry m f i' := by
  unfold entry
  exact load32_store32_ne m (by omega)

theorem entry_store_frame (hf : IsFrame f) (hf' : IsFrame f') (h : f ≠ f') (hi : i < 1024)
    (hi' : i' < 1024) : entry (store32 m (f + 4 * i) v) f' i' = entry m f' i' := by
  have := hf.apart hf' h
  exact load32_store32_ne m (by omega)

/-- Storing an entry changes no other entry of any frame. -/
theorem entry_store_ne (hf : IsFrame f) (hf' : IsFrame f') (h : f ≠ f' ∨ i ≠ i') (hi : i < 1024)
    (hi' : i' < 1024) : entry (store32 m (f + 4 * i) v) f' i' = entry m f' i' := by
  by_cases hff : f = f'
  · subst hff
    exact entry_store_slot (h.resolve_left (by simp))
  · exact entry_store_frame hf hf' hff hi hi'

theorem store_entry_sameOn (hf : IsFrame f) (hf' : IsFrame f') (h : f ≠ f') (hi : i < 1024) :
    SameOn m (store32 m (f + 4 * i) v) f' 4096 := by
  have := hf.apart hf' h
  exact store32_sameOn m (by omega)

theorem store_entry_sameOn_huge (hf : IsFrame f) (hi : i < 1024) {a n : Nat} (ha : 0xE000000 ≤ a) :
    SameOn m (store32 m (f + 4 * i) v) a n := by
  have := hf.lt
  exact store32_sameOn m (by omega)

end setEntry

/-- The free lists do not see a store into a directory or table. -/
theorem Sys.chain_store {s : Machine} {g : Ghost} (hs : Sys s g) {x i v : Nat} (hx : IsFrame x)
    (hi : i < 1024) (hrole : g.own x ≠ .free) :
    Chain (load32 (store32 s.mem (x + 4 * i) v)) P2V s.freelist g.free := by
  apply hs.chain.congr
  intro f hf
  obtain ⟨hframe, hfree⟩ := (hs.mem_free f).1 hf
  have hne : x ≠ f := by
    rintro rfl
    exact hrole hfree
  exact (store_entry_sameOn hx hframe hne hi).load32_eq le_rfl (by omega)

theorem Sys.hchain_store {s : Machine} {g : Ghost} (hs : Sys s g) {x i v : Nat} (hx : IsFrame x)
    (hi : i < 1024) :
    Chain (load32 (store32 s.mem (x + 4 * i) v)) P2V s.freehugelist g.hfree := by
  apply hs.hchain.congr
  intro f hf
  obtain ⟨⟨_, hlo, _⟩, _⟩ := (hs.mem_hfree f).1 hf
  exact (store_entry_sameOn_huge hx hi (by omega)).load32_eq le_rfl le_rfl

/-- A zeroed frame becomes the page table of an empty directory slot. -/
theorem Sys.add_table {s : Machine} {g : Ghost} (hs : Sys s g) {d i t : Nat} {o : DirOwner}
    (hd : IsFrame d) (hdir : g.own d = .dir o) (hi : i < 1024)
    (hempty : entry s.mem d i = 0) (ht : IsFrame t) (htemp : g.own t = .temp)
    (hzero : ∀ j < 1024, entry s.mem t j = 0) :
    Sys { s with mem := store32 s.mem (d + 4 * i) (t + 7) }
      { g with own := update g.own t (.table d i) } := by
  have hlt := ht.lt
  have hdt : d ≠ t := by
    rintro rfl
    simp [hdir] at htemp
  have hkeep {f : Nat} {r : Role} (h : g.own f = r) (hr : r ≠ .temp) : update g.own t (.table d i) f = r := by
    rw [update_of_ne (by rintro rfl; exact hr (h.symm.trans htemp)), h]
  have hback {f : Nat} {r : Role} (h : update g.own t (.table d i) f = r) (hr : r ≠ .table d i) : g.own f = r := by
    rwa [update_of_ne (by rintro rfl; exact hr (h.symm.trans (update_self _ _ _)))] at h
  have hslot {d' i' : Nat} (hd' : IsFrame d') (hi' : i' < 1024) (h : ¬ (d = d' ∧ i = i')) :
      entry (store32 s.mem (d + 4 * i) (t + 7)) d' i' = entry s.mem d' i' :=
    entry_store_ne hd hd' (by tauto) hi hi'
  have htable {t' d' i' j : Nat} (ht' : IsFrame t') (h : g.own t' = .table d' i') (hj : j < 1024) :
      entry (store32 s.mem (d + 4 * i) (t + 7)) t' j = entry s.mem t' j :=
    entry_store_frame hd ht' (by rintro rfl; simp [hdir] at h) hi hj
  refine hs.revise (hs.chain_store hd hi (by simp [hdir])) hs.nodup (fun f => ?_) (hs.hchain_store hd hi) hs.hnodup
    hs.mem_hfree (fun d' ⟨o', h⟩ => ⟨o', hkeep h (by simp)⟩) (fun _ _ _ h => hkeep h (by simp)) (fun _ _ _ h => h)
    (fun d' o' hd' _ i' hi' hne => hslot hd' hi' ?_) (fun d' o' hd' h i' hi' => ?_) (fun t' d' i' ht' h _ j hj => ?_)
    (fun t' d' i' _ h => ?_) (fun f d' i' j _ h => ?_) fun _ _ _ _ h => .inl h
  · exact (hs.mem_free f).trans (and_congr_right fun _ => ⟨fun h => hkeep h (by simp), fun h => hback h (by simp)⟩)
  · rintro ⟨rfl, rfl⟩
    exact hne hempty
  · by_cases heq : d = d' ∧ i = i'
    · obtain ⟨rfl, rfl⟩ := heq
      exact .inr (.inr (.inl ⟨t, ht, update_self _ _ _, entry_store_same (by omega)⟩))
    · exact .inl ⟨⟨o', hback h (by simp)⟩, hslot hd' hi' heq⟩
  · by_cases hne : t' = t
    · subst hne
      exact .inr (.inl ((entry_store_frame hd ht' hdt hi hj).trans (hzero j hj)))
    · have h' : g.own t' = .table d' i' := (update_of_ne hne _ _).symm.trans h
      exact .inl ⟨h', htable ht' h' hj, fun _ _ h => hkeep h (by simp)⟩
  · by_cases hne : t' = t
    · subst hne
      obtain ⟨rfl, rfl⟩ : d = d' ∧ i = i' := by simpa using h
      exact .inr ⟨hd, hi, entry_store_same (by omega), o, hkeep hdir (by simp)⟩
    · exact .inl ((update_of_ne hne _ _).symm.trans h)
  · exact .inl ⟨hback h (by simp), fun t' ht' htab hj => htable ht' htab hj⟩

/-- A directory slot has at most one page table. -/
theorem Sys.table_unique {s : Machine} {g : Ghost} (hs : Sys s g) {t t' d i : Nat} (ht : IsFrame t)
    (ht' : IsFrame t') (h : g.own t = .table d i) (h' : g.own t' = .table d i) : t = t' := by
  obtain ⟨_, _, hpde, _⟩ := hs.table_up t d i ht h
  obtain ⟨_, _, hpde', _⟩ := hs.table_up t' d i ht' h'
  omega

/-- A slot of a page table maps at most one frame. -/
theorem Sys.page_unique {s : Machine} {g : Ghost} (hs : Sys s g) {f f' d i j : Nat}
    (hf : IsFrame f) (hf' : IsFrame f') (h : g.own f = .page d i j) (h' : g.own f' = .page d i j) :
    f = f' := by
  obtain ⟨_, _, t, fl, ht, htable, hfl, _, hpte⟩ := hs.page_up f d i j hf h
  obtain ⟨_, _, t', fl', ht', htable', hfl', _, hpte'⟩ := hs.page_up f' d i j hf' h'
  obtain rfl := hs.table_unique ht ht' htable htable'
  obtain ⟨halign, _, _⟩ := hf
  obtain ⟨halign', _, _⟩ := hf'
  omega

/-- Writing a user page table entry: map a frame at an empty slot, unmap the
frame of a slot, or change the flags of its mapping. -/
theorem Sys.set_pte {s : Machine} {g : Ghost} (hs : Sys s g) {d i j t f v : Nat} {r : Role}
    (ht : IsFrame t) (htable : g.own t = .table d i) (hi : i < 512) (hj : j < 1024)
    (hf : IsFrame f)
    (hold : g.own f = .temp ∧ entry s.mem t j = 0 ∨ g.own f = .page d i j)
    (hnew : r = .temp ∧ v = 0 ∨
      r = .page d i j ∧ ∃ fl, fl < 4096 ∧ fl % 2 = 1 ∧ v = f + fl) :
    Sys { s with mem := store32 s.mem (t + 4 * j) v } { g with own := update g.own f r } := by
  have hflt := hf.lt
  have hv : v < 2 ^ 32 := by
    rcases hnew with ⟨_, rfl⟩ | ⟨_, fl, hfl, _, rfl⟩ <;> omega
  have hne {x : Nat} {r' : Role} (h : g.own x = r') (hr : r' ≠ .temp) (hr' : r' ≠ .page d i j) :
      x ≠ f := by
    rintro rfl
    rcases hold with ⟨h', _⟩ | h'
    · exact hr (h.symm.trans h')
    · exact hr' (h.symm.trans h')
  have hkeep {x : Nat} {r' : Role} (h : g.own x = r') (hr : r' ≠ .temp) (hr' : r' ≠ .page d i j) :
      update g.own f r x = r' := by
    rw [update_of_ne (hne h hr hr'), h]
  have hback {x : Nat} {r' : Role} (h : update g.own f r x = r') (hr : r' ≠ .temp)
      (hr' : r' ≠ .page d i j) : g.own x = r' := by
    by_cases hx : x = f
    · subst hx
      rw [update_self] at h
      rcases hnew with ⟨h', _⟩ | ⟨h', _⟩
      · exact absurd (h.symm.trans h') hr
      · exact absurd (h.symm.trans h') hr'
    · rwa [update_of_ne hx] at h
  have hother {x : Nat} (hx : IsFrame x) (h : g.own x = .page d i j) : x = f := by
    rcases hold with ⟨_, hzero⟩ | hold
    · obtain ⟨_, _, t', fl, ht', htable', _, hodd, hpte⟩ := hs.page_up x d i j hx h
      obtain rfl := hs.table_unique ht ht' htable htable'
      omega
    · exact hs.page_unique hx hf h hold
  have hdirslot {d' o' i' : _} (hd' : IsFrame d') (h : g.own d' = .dir o') (hi' : i' < 1024) :
      entry (store32 s.mem (t + 4 * j) v) d' i' = entry s.mem d' i' :=
    entry_store_frame ht hd' (by rintro rfl; simp [h] at htable) hj hi'
  refine hs.revise (hs.chain_store ht hj (by simp [htable])) hs.nodup (fun x => ?_) (hs.hchain_store ht hj) hs.hnodup
    hs.mem_hfree (fun d' ⟨o', h⟩ => ⟨o', hkeep h (by simp) (by simp)⟩) (fun _ _ _ h => hkeep h (by simp) (by simp))
    (fun _ _ _ h => h) (fun d' o' hd' h i' hi' _ => hdirslot hd' h hi') (fun d' o' hd' h i' hi' => ?_)
    (fun t' d' i' ht' h hi' j' hj' => ?_) (fun _ _ _ _ h => .inl (hback h (by simp) (by simp)))
    (fun x d' i' j' hx h => ?_) fun _ _ _ _ h => .inl h
  · exact (hs.mem_free x).trans (and_congr_right fun _ =>
      ⟨fun h => hkeep h (by simp) (by simp), fun h => hback h (by simp) (by simp)⟩)
  · have h' := hback h (by simp) (by simp)
    exact .inl ⟨⟨o', h'⟩, hdirslot hd' h' hi'⟩
  · have htab := hback h (by simp) (by simp)
    by_cases hslot : t = t' ∧ j = j'
    · obtain ⟨rfl, rfl⟩ := hslot
      obtain ⟨rfl, rfl⟩ : d' = d ∧ i' = i := by simpa [htab] using htable
      have hstore : entry (store32 s.mem (t + 4 * j) v) t j = v := entry_store_same hv
      rcases hnew with ⟨_, rfl⟩ | ⟨rfl, fl, hfl, hodd, rfl⟩
      · exact .inr (.inl hstore)
      · exact .inr (.inr ⟨f, fl, hf, by simp, hfl, hodd, hstore⟩)
    · refine .inl ⟨htab, entry_store_ne ht ht' (by tauto) hj hj', fun x hx h => hkeep h (by simp) fun heq => ?_⟩
      simp only [Role.page.injEq] at heq
      obtain ⟨rfl, rfl, rfl⟩ := heq
      exact hslot ⟨hs.table_unique ht ht' htable htab, rfl⟩
  · by_cases hslot : Role.page d' i' j' = Role.page d i j
    · simp only [Role.page.injEq] at hslot
      obtain ⟨rfl, rfl, rfl⟩ := hslot
      have hxf : x = f := by
        by_contra hxf
        exact hxf (hother hx ((update_of_ne hxf _ _).symm.trans h))
      subst hxf
      have h : r = .page d' i' j' := (update_self _ _ _).symm.trans h
      rcases hnew with ⟨rfl, _⟩ | ⟨_, fl, hfl, hodd, rfl⟩
      · cases h
      · exact .inr ⟨hi, hj, t, fl, ht, hkeep htable (by simp) (by simp), hfl, hodd, entry_store_same hv⟩
    · refine .inl ⟨hback h (by simp) hslot, fun t' ht' htab hj' => entry_store_ne ht ht' ?_ hj hj'⟩
      by_contra hcon
      push Not at hcon
      obtain ⟨rfl, rfl⟩ := hcon
      rw [htable, Role.table.injEq] at htab
      exact hslot (by rw [htab.1, htab.2])

end xv6
