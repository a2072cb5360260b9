import Xv6.Own.Dirs
import Xv6.Own.Within

open bytes Function

namespace xv6

/-- The base entry that directory `d` has for page `k`, 0 where there is no page table. -/
def lookup (m : Mem) (d k : Nat) : Nat :=
  if hasFlag (entry m d (k / 1024)) PTE_P && !hasFlag (entry m d (k / 1024)) PTE_PS then
    entry m (PTE_ADDR (entry m d (k / 1024))) (k % 1024)
  else 0

/-- The 4MB entry that directory `d` has in slot `i`, 0 where there is none. -/
def hugeAt (m : Mem) (d i : Nat) : Nat :=
  if hasFlag (entry m d i) PTE_P && hasFlag (entry m d i) PTE_PS then entry m d i else 0

@[simp] theorem hasFlag_P {e : Nat} : hasFlag e PTE_P = true ↔ e % 2 = 1 := by
  simp [hasFlag]

@[simp] theorem hasFlag_PS {e : Nat} : hasFlag e PTE_PS = true ↔ e / 128 % 2 = 1 := by
  simp [hasFlag]

@[simp] theorem hasFlag_U {e : Nat} : hasFlag e PTE_U = true ↔ e / 4 % 2 = 1 := by
  simp [hasFlag]

@[simp] theorem hasFlag_W {e : Nat} : hasFlag e PTE_W = true ↔ e / 2 % 2 = 1 := by
  simp [hasFlag]

theorem PTE_ADDR_add {f fl : Nat} (hf : f % 4096 = 0) (hfl : fl < 4096) : PTE_ADDR (f + fl) = f := by
  simp only [PTE_ADDR]
  omega

section view

variable {m m' : Mem} {d i k : Nat}

theorem lookup_of_table {t : Nat} (ht : t % 4096 = 0) (h : entry m d (k / 1024) = t + 7) :
    lookup m d k = entry m t (k % 1024) := by
  have hp : hasFlag (t + 7) PTE_P = true := by
    rw [hasFlag_P]
    omega
  have hps : hasFlag (t + 7) PTE_PS = false := by
    rw [← Bool.not_eq_true, hasFlag_PS]
    omega
  simp only [lookup, h, hp, hps, PTE_ADDR_add ht (show 7 < 4096 by omega)]
  simp

theorem lookup_of_absent (h : entry m d (k / 1024) % 2 = 0) : lookup m d k = 0 := by
  have hp : hasFlag (entry m d (k / 1024)) PTE_P = false := by
    rw [← Bool.not_eq_true, hasFlag_P]
    omega
  simp [lookup, hp]

theorem lookup_of_huge (h : entry m d (k / 1024) / 128 % 2 = 1) : lookup m d k = 0 := by
  have hps : hasFlag (entry m d (k / 1024)) PTE_PS = true := hasFlag_PS.2 h
  simp [lookup, hps]

theorem hugeAt_of_not (h : entry m d i % 2 = 0 ∨ entry m d i / 128 % 2 = 0) : hugeAt m d i = 0 := by
  have hnot : (hasFlag (entry m d i) PTE_P && hasFlag (entry m d i) PTE_PS) = false := by
    rw [← Bool.not_eq_true, Bool.and_eq_true, hasFlag_P, hasFlag_PS]
    omega
  simp [hugeAt, hnot]

theorem hugeAt_of_huge (h : entry m d i % 2 = 1) (h' : entry m d i / 128 % 2 = 1) :
    hugeAt m d i = entry m d i := by
  have hp := hasFlag_P.2 h
  have hps := hasFlag_PS.2 h'
  simp [hugeAt, hp, hps]

theorem hugeAt_congr (h : entry m' d i = entry m d i) : hugeAt m' d i = hugeAt m d i := by
  simp only [hugeAt, h]

theorem lookup_congr (h : entry m' d (k / 1024) = entry m d (k / 1024))
    (h' : ∀ t, t % 4096 = 0 → entry m d (k / 1024) = t + 7 →
      entry m' t (k % 1024) = entry m t (k % 1024))
    (hdir : entry m d (k / 1024) % 2 = 0 ∨ entry m d (k / 1024) / 128 % 2 = 1 ∨
      ∃ t, t % 4096 = 0 ∧ entry m d (k / 1024) = t + 7) : lookup m' d k = lookup m d k := by
  rcases hdir with habs | hhuge | ⟨t, ht, htable⟩
  · rw [lookup_of_absent habs, lookup_of_absent (h ▸ habs)]
  · rw [lookup_of_huge hhuge, lookup_of_huge (h ▸ hhuge)]
  · rw [lookup_of_table ht htable, lookup_of_table ht (h.trans htable), h' t ht htable]

end view

section sys

variable {s : Machine} {g : Ghost} {d i j k t f : Nat} {o : DirOwner}

/-- What an entry of a directory can be, by its bits. -/
theorem PdeOK.shape {m : Mem} (h : PdeOK m g d i) :
    entry m d i % 2 = 0 ∨ entry m d i / 128 % 2 = 1 ∨
      ∃ t, IsFrame t ∧ g.own t = .table d i ∧ entry m d i = t + 7 := by
  rcases h with h | ⟨t, ht, hrole, h⟩ | ⟨_, f, ⟨hf, _⟩, _, h⟩ | ⟨_, _, h⟩
  · left
    omega
  · exact .inr (.inr ⟨t, ht, hrole, h⟩)
  · right; left
    omega
  · right; left
    omega

theorem Sys.lookup_table (hs : Sys s g) (ht : IsFrame t) (h : g.own t = .table d (k / 1024)) :
    lookup s.mem d k = entry s.mem t (k % 1024) :=
  lookup_of_table ht.1 (hs.table_up t d _ ht h).2.2.1

/-- An entry for a page comes from the page table of its slot. -/
theorem Sys.lookup_cases (hs : Sys s g) (hd : IsFrame d) (hdir : g.own d = .dir o) (hk : k < 2 ^ 20) :
    lookup s.mem d k = 0 ∧ (∀ t, IsFrame t → g.own t ≠ .table d (k / 1024)) ∨
      ∃ t, IsFrame t ∧ g.own t = .table d (k / 1024) ∧ lookup s.mem d k = entry s.mem t (k % 1024) := by
  by_cases hex : ∃ t, IsFrame t ∧ g.own t = .table d (k / 1024)
  · obtain ⟨t, ht, htable⟩ := hex
    exact .inr ⟨t, ht, htable, hs.lookup_table ht htable⟩
  · left
    refine ⟨?_, fun t ht htable => hex ⟨t, ht, htable⟩⟩
    rcases (hs.pde d o hd hdir (k / 1024) (by omega)).shape with h | h | ⟨t, ht, htable, _⟩
    · exact lookup_of_absent h
    · exact lookup_of_huge h
    · exact absurd ⟨t, ht, htable⟩ hex

/-- A user page is unmapped or has its own frame. -/
theorem Sys.lookup_user (hs : Sys s g) (hd : IsFrame d) (hdir : g.own d = .dir o) (hk : k < 2 ^ 19) :
    lookup s.mem d k = 0 ∨ ∃ f fl, IsFrame f ∧ g.own f = .page d (k / 1024) (k % 1024) ∧ fl < 4096 ∧
      fl % 2 = 1 ∧ lookup s.mem d k = f + fl := by
  rcases hs.lookup_cases hd hdir (show k < 2 ^ 20 by omega) with ⟨h, _⟩ | ⟨t, ht, htable, h⟩
  · exact .inl h
  · rw [h]
    exact hs.pte t d (k / 1024) ht htable (by omega) (k % 1024) (by omega)

theorem Sys.lookup_page (hs : Sys s g) (hf : IsFrame f) (h : g.own f = .page d i j) :
    ∃ fl, fl < 4096 ∧ fl % 2 = 1 ∧ lookup s.mem d (1024 * i + j) = f + fl := by
  obtain ⟨_, hj, t, fl, ht, htable, hfl, hodd, hpte⟩ := hs.page_up f d i j hf h
  have hi : (1024 * i + j) / 1024 = i := by omega
  have hj' : (1024 * i + j) % 1024 = j := by omega
  refine ⟨fl, hfl, hodd, ?_⟩
  rw [hs.lookup_table ht (by rw [hi, htable]), hj', hpte]

/-- A user slot holds no 4MB entry or maps a huge frame of its own. -/
theorem Sys.hugeAt_user (hs : Sys s g) (hd : IsFrame d) (hdir : g.own d = .dir o) (hi : i < 512) :
    hugeAt s.mem d i = 0 ∨ ∃ f, IsHuge f ∧ g.hown f = .page d i ∧ entry s.mem d i = f + 0x87 ∧
      hugeAt s.mem d i = f + 0x87 := by
  rcases hs.pde d o hd hdir i (by omega) with h | ⟨t, ⟨ht, _⟩, _, h⟩ | ⟨_, f, hf, hrole, h⟩ | ⟨hlo, _⟩
  · exact .inl (hugeAt_of_not (by omega))
  · exact .inl (hugeAt_of_not (by omega))
  · right
    have halign := hf.1
    refine ⟨f, hf, hrole, h, ?_⟩
    rw [hugeAt_of_huge (by omega) (by omega), h]
  · omega

theorem Sys.hugeAt_page (hs : Sys s g) (hf : IsHuge f) (h : g.hown f = .page d i) :
    hugeAt s.mem d i = f + 0x87 := by
  obtain ⟨_, _, hpde, _⟩ := hs.huge_up f d i hf h
  have halign := hf.1
  rw [hugeAt_of_huge (by omega) (by omega), hpde]

/-- The view of a directory is kept by whatever keeps its frame and its tables. -/
theorem Sys.view_congr {m : Mem} (hs : Sys s g) (hd : IsFrame d) (hdir : g.own d = .dir o)
    (hsame : SameOn s.mem m d 4096)
    (htables : ∀ t i, IsFrame t → g.own t = .table d i → SameOn s.mem m t 4096) :
    (∀ k < 2 ^ 20, lookup m d k = lookup s.mem d k) ∧
      ∀ i < 1024, hugeAt m d i = hugeAt s.mem d i := by
  refine ⟨fun k hk => ?_, fun i hi => hugeAt_congr (entry_eq_of_sameOn hsame hi)⟩
  have hentry := entry_eq_of_sameOn hsame (show k / 1024 < 1024 by omega)
  have hshape := (hs.pde d o hd hdir (k / 1024) (by omega)).shape
  refine lookup_congr hentry (fun t ht htable => ?_) ?_
  · rcases hshape with h | h | ⟨t', ht', htable', h⟩
    · omega
    · omega
    · obtain rfl : t = t' := by omega
      exact entry_eq_of_sameOn (htables t _ ht' htable') (by omega)
  · exact hshape.imp id (.imp id fun ⟨t, ht, _, h⟩ => ⟨t, ht.1, h⟩)

/-- Writing an entry of a page table changes the view at that page only. -/
theorem Sys.view_set_pte (hs : Sys s g) (hd : IsFrame d) (hdir : g.own d = .dir o) (ht : IsFrame t)
    (htable : g.own t = .table d i) (hj : j < 1024) {v : Nat} (hv : v < 2 ^ 32) :
    (∀ k < 2 ^ 20, lookup (store32 s.mem (t + 4 * j) v) d k =
      if k = 1024 * i + j then v else lookup s.mem d k) ∧
      ∀ i < 1024, entry (store32 s.mem (t + 4 * j) v) d i = entry s.mem d i := by
  have htd : t ≠ d := by
    rintro rfl
    simp [hdir] at htable
  have hentry (i' : Nat) (hi' : i' < 1024) :
      entry (store32 s.mem (t + 4 * j) v) d i' = entry s.mem d i' := entry_store_frame ht hd htd hj hi'
  refine ⟨fun k hk => ?_, hentry⟩
  obtain ⟨_, hi, hpde, _⟩ := hs.table_up t d i ht htable
  by_cases hslot : k / 1024 = i
  · rw [← hslot] at hpde
    rw [lookup_of_table ht.1 hpde, lookup_of_table ht.1 ((hentry _ (by omega)).trans hpde)]
    by_cases hk' : k % 1024 = j
    · rw [if_pos (by omega), hk', entry_store_same hv]
    · rw [if_neg (by omega), entry_store_slot (by omega)]
  · rw [if_neg (by omega)]
    have hshape := (hs.pde d o hd hdir (k / 1024) (by omega)).shape
    refine lookup_congr (hentry _ (by omega)) (fun t' _ htable' => ?_)
      (hshape.imp id (.imp id fun ⟨t, ht, _, h⟩ => ⟨t, ht.1, h⟩))
    rcases hshape with h | h | ⟨t'', ht'', htab'', h⟩
    · omega
    · omega
    · obtain rfl : t' = t'' := by omega
      have htt : t ≠ t' := by
        rintro rfl
        rw [htable] at htab''
        simp only [Role.table.injEq] at htab''
        omega
      exact entry_store_frame ht ht'' htt hj (by omega)

/-- Writing a directory slot changes the view of the pages of that slot only. -/
theorem Sys.view_set_pde (hs : Sys s g) (hd : IsFrame d) (hdir : g.own d = .dir o) (hi : i < 1024)
    {v : Nat} :
    (∀ k < 2 ^ 20, k / 1024 ≠ i → lookup (store32 s.mem (d + 4 * i) v) d k = lookup s.mem d k) ∧
      ∀ i', i' ≠ i → hugeAt (store32 s.mem (d + 4 * i) v) d i' = hugeAt s.mem d i' := by
  refine ⟨fun k hk hne => ?_, fun i' hne => hugeAt_congr (entry_store_slot (Ne.symm hne))⟩
  have hshape := (hs.pde d o hd hdir (k / 1024) (by omega)).shape
  refine lookup_congr (entry_store_slot (Ne.symm hne)) (fun t' _ htable' => ?_)
    (hshape.imp id (.imp id fun ⟨t, ht, _, h⟩ => ⟨t, ht.1, h⟩))
  rcases hshape with h | h | ⟨t'', ht'', htab'', h⟩
  · omega
  · omega
  · obtain rfl : t' = t'' := by omega
    have hdt : d ≠ t' := by
      rintro rfl
      simp [hdir] at htab''
    exact entry_store_frame hd ht'' hdt hi (by omega)

end sys

end xv6
