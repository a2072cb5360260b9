import Xv6.Vm
import Xv6.Own.Alloc
import Xv6.Own.View

open bytes outcome Function

namespace xv6

theorem PDX_page {k : Nat} (hk : k < 2 ^ 20) : PDX (4096 * k) = k / 1024 := by
  simp only [PDX]
  omega

theorem PTX_page {k : Nat} : PTX (4096 * k) = k % 1024 := by
  simp only [PTX]
  omega

theorem PDX_lt (va : Nat) : PDX va < 1024 := Nat.mod_lt _ (by omega)

theorem PTX_lt (va : Nat) : PTX va < 1024 := Nat.mod_lt _ (by omega)

section run

variable {β : Type} {s : Machine} {f i v : Nat}

theorem readWord_entry_bind (hf : f < 0x3E000000) (hi : i < 1024) {F : Nat → KernelM β} :
    (readWord (P2V f + 4 * i) >>= F).run s = (F (entry s.mem f i)).run s := by
  rw [readWord_bind, V2P_P2V_add (by omega)]
  rfl

theorem writeWord_entry_bind (hf : f < 0x3E000000) (hi : i < 1024) {F : Unit → KernelM β} :
    (writeWord (P2V f + 4 * i) v >>= F).run s =
      (F ()).run { s with mem := store32 s.mem (f + 4 * i) v } := by
  rw [writeWord_bind, V2P_P2V_add (by omega)]

end run

section walk

variable {s : Machine} {g : Ghost} {d a t f : Nat} {o : DirOwner}

/-- The walk through a present entry, whatever page the entry refers to. -/
theorem walkpgdir_present (hd : IsFrame d) {fl : Nat} (alloc : Bool) (hf : f % 4096 = 0)
    (hfl : fl < 4096) (hodd : fl % 2 = 1) (h : entry s.mem d (PDX a) = f + fl) :
    (walkpgdir (P2V d) a alloc).run s = .ok (P2V f + 4 * PTX a) s := by
  have hlt := hd.lt
  have hp : hasFlag (f + fl) PTE_P = true := by
    rw [hasFlag_P]
    omega
  unfold walkpgdir
  rw [readWord_entry_bind (by omega) (PDX_lt a), h, if_pos hp, PTE_ADDR_add hf hfl, EStateM.run_pure]

theorem walkpgdir_absent (hd : IsFrame d) (h : entry s.mem d (PDX a) = 0) :
    (walkpgdir (P2V d) a false).run s = .ok 0 s := by
  have hlt := hd.lt
  have hp : ¬ hasFlag 0 PTE_P = true := by simp
  unfold walkpgdir
  rw [readWord_entry_bind (by omega) (PDX_lt a), h, if_neg hp, if_pos rfl, EStateM.run_pure]

theorem walkpgdir_alloc_nil (hs : Sys s g) (hd : IsFrame d) (h : entry s.mem d (PDX a) = 0)
    (hfree : g.free = []) : (walkpgdir (P2V d) a true).run s = .ok 0 s := by
  have hlt := hd.lt
  have hp : ¬ hasFlag 0 PTE_P = true := by simp
  unfold walkpgdir
  rw [readWord_entry_bind (by omega) (PDX_lt a), h, if_neg hp, if_neg (by simp),
    bind_ok (kalloc_nil hs hfree), if_pos rfl, EStateM.run_pure]

/-- The flags `PTE_P | PTE_W | PTE_U` of a directory entry. -/
theorem table_entry_or (ht : t % 4096 = 0) : t ||| PTE_P ||| PTE_W ||| PTE_U = t + 7 := by
  have h := Nat.two_pow_add_eq_or_of_lt (i := 12) (b := 7) (by omega) (t / 4096)
  rw [Nat.or_assoc, Nat.or_assoc, show PTE_P ||| (PTE_W ||| PTE_U) = 7 from rfl]
  rw [show 2 ^ 12 * (t / 4096) = t by omega] at h
  exact h.symm

/-- The machine after `walkpgdir` has taken frame `t` for the table of slot `i`. -/
def Machine.tabled (s : Machine) (d i t : Nat) : Machine :=
  { s with
    mem := store32 (fill s.mem t 0 4096) (d + 4 * i) (t + 7)
    freelist := load32 s.mem t }

theorem walkpgdir_alloc_cons (hs : Sys s g) (hd : IsFrame d) (h : entry s.mem d (PDX a) = 0)
    {L : List Nat} (hfree : g.free = t :: L) :
    (walkpgdir (P2V d) a true).run s = .ok (P2V t + 4 * PTX a) (s.tabled d (PDX a) t) := by
  have hlt := hd.lt
  obtain ⟨ht, _⟩ := (hs.mem_free t).1 (by simp [hfree])
  have htlt := ht.lt
  have hp : ¬ hasFlag 0 PTE_P = true := by simp
  have hne : ¬ P2V t = 0 := P2V_ne_zero (by omega)
  unfold walkpgdir
  rw [readWord_entry_bind (by omega) (PDX_lt a), h, if_neg hp, if_neg (by simp),
    bind_ok (kalloc_cons hs hfree), if_neg hne, memset_bind,
    writeWord_entry_bind (by omega) (PDX_lt a), EStateM.run_pure, V2P_P2V (by omega),
    table_entry_or ht.1]
  rfl

end walk

/-- Slot `i` of directory `d` has the page table `t`, which a step has created
where it was missing. No mapping has changed. -/
structure Ensured (d i t : Nat) (s : Machine) (g : Ghost) (s' : Machine) (g' : Ghost) : Prop where
  frame : IsFrame t
  table : g'.own t = .table d i
  within : Within (fun x r => x = d ∨ r = .free ∨ r = .table d i) (fun _ => False) s g s' g'
  own : ∀ x, x ≠ t → g'.own x = g.own x
  lookup_eq : ∀ k < 2 ^ 20, lookup s'.mem d k = lookup s.mem d k
  huge_eq : ∀ i < 1024, hugeAt s'.mem d i = hugeAt s.mem d i
  entry_eq : ∀ i' < 1024, i' ≠ i → entry s'.mem d i' = entry s.mem d i'
  free : entry s.mem d i ≠ 0 ∧ g'.free = g.free ∨ entry s.mem d i = 0 ∧ g.free = t :: g'.free
  hown : g'.hown = g.hown
  hfree : g'.hfree = g.hfree
  frees : s'.frees = s.frees

section ensure

variable {s : Machine} {g : Ghost} {d i t : Nat} {o : DirOwner}

theorem Ensured.refl (hs : Sys s g) (ht : IsFrame t) (htable : g.own t = .table d i) :
    Ensured d i t s g s g where
  frame := ht
  table := htable
  within := Within.refl _ _ _ _
  own _ _ := rfl
  lookup_eq _ _ := rfl
  huge_eq _ _ := rfl
  entry_eq _ _ _ := rfl
  free := by
    obtain ⟨_, _, hpde, _⟩ := hs.table_up t d i ht htable
    exact .inl ⟨by omega, rfl⟩
  hown := rfl
  hfree := rfl
  frees := rfl

theorem fill_entry_zero {m : Mem} {f j : Nat} (hj : j < 1024) : entry (fill m f 0 4096) f j = 0 :=
  load32_fill_zero m (by omega) (by omega)

theorem fill_sameOn_frame {m : Mem} {f x : Nat} {c : UInt8} (hf : IsFrame f) (hx : IsFrame x)
    (hne : x ≠ f) : SameOn m (fill m f c 4096) x 4096 := fill_sameOn m (by
  have h := hf.apart hx hne.symm
  omega)

theorem fill_sameOn_huge {m : Mem} {f x n : Nat} {c : UInt8} (hf : IsFrame f) (hx : IsHuge x) :
    SameOn m (fill m f c 4096) x n := fill_sameOn m (by
  have h := hf.apart_huge hx
  omega)

/-- A popped frame may be overwritten at will. -/
theorem Sys.fill {s : Machine} {g : Ghost} (hs : Sys s g) {f : Nat} {c : UInt8} (hf : IsFrame f)
    (htemp : g.own f = .temp) : Sys { s with mem := bytes.fill s.mem f c 4096 } g := by
  refine hs.congr rfl rfl (fun x hx hstruct => fill_sameOn_frame hf hx ?_)
    (fun x hx _ => fill_sameOn_huge hf hx)
  rintro rfl
  simp [htemp, Role.structural] at hstruct

/-- `walkpgdir` with `alloc` set takes a free frame as page table. -/
theorem Sys.tabled (hs : Sys s g) (hd : IsFrame d) (hdir : g.own d = .dir o) (hi : i < 1024)
    (hempty : entry s.mem d i = 0) {L : List Nat} (hfree : g.free = t :: L) :
    Sys (s.tabled d i t) { g with own := update g.own t (.table d i), free := L } ∧
      Ensured d i t s g (s.tabled d i t) { g with own := update g.own t (.table d i), free := L } := by
  obtain ⟨ht, hrole⟩ := (hs.mem_free t).1 (by simp [hfree])
  have hdt : d ≠ t := by
    rintro rfl
    simp [hdir] at hrole
  have hpop := (hs.pop hfree).fill (c := 0) ht (by simp)
  have hentry (i' : Nat) (hi' : i' < 1024) :
      entry (bytes.fill s.mem t 0 4096) d i' = entry s.mem d i' :=
    entry_eq_of_sameOn (fill_sameOn_frame ht hd hdt) hi'
  have hadd : Sys (s.tabled d i t) { g with own := update g.own t (.table d i), free := L } := by
    have h := hpop.add_table (o := o) hd (by simpa [update_of_ne hdt] using hdir) hi
      ((hentry i hi).trans hempty) ht (by simp) (fun j hj => fill_entry_zero hj)
    rwa [update_idem] at h
  refine ⟨hadd, ?_⟩
  have hsame (x : Nat) (hx : IsFrame x) (hxd : x ≠ d) (hxt : x ≠ t) :
      SameOn s.mem (s.tabled d i t).mem x 4096 :=
    (fill_sameOn_frame ht hx hxt).trans (store_entry_sameOn hd hx hxd.symm hi)
  have hown (x : Nat) (hx : x ≠ t) : update g.own t (.table d i) x = g.own x := update_of_ne hx _ _
  have hslot (i' : Nat) (hi' : i' < 1024) (hne : i' ≠ i) :
      entry (s.tabled d i t).mem d i' = entry s.mem d i' :=
    (entry_store_slot hne.symm).trans (hentry i' hi')
  exact
    { frame := ht
      table := update_self _ _ _
      within := by
        refine ⟨fun x hx => ?_, fun x hx hout => ?_, fun _ _ => .inr rfl, fun x hx _ => ?_, rfl⟩
        · by_cases hxt : x = t
          · subst hxt
            exact .inl ⟨.inr (.inl hrole), .inr (.inr (update_self _ _ _))⟩
          · exact .inr (hown x hxt)
        · push Not at hout
          refine hsame x hx hout.1 ?_
          rintro rfl
          exact hout.2.1 hrole
        · exact (fill_sameOn_huge ht hx).trans
            (store_entry_sameOn_huge hd hi (by obtain ⟨_, hlo, _⟩ := hx; omega))
      own := hown
      lookup_eq := by
        intro k hk
        by_cases hk' : k / 1024 = i
        · have habs : entry s.mem d (k / 1024) % 2 = 0 := by
            rw [hk']
            omega
          rw [lookup_of_absent habs, hadd.lookup_table ht (by rw [hk']; exact update_self _ _ _)]
          exact (entry_store_frame hd ht hdt hi (by omega)).trans (fill_entry_zero (by omega))
        · have hview := hpop.view_set_pde (o := o) (v := t + 7) hd
            (by simpa [update_of_ne hdt] using hdir) hi
          refine (hview.1 k hk hk').trans ?_
          refine ((hs.view_congr hd hdir
            (fill_sameOn_frame ht hd hdt) fun t' i' ht' htable' => ?_).1 k hk)
          refine fill_sameOn_frame ht ht' ?_
          rintro rfl
          simp [hrole] at htable'
      huge_eq := by
        intro i' hi'
        by_cases hne : i' = i
        · subst hne
          have hnew : entry (s.tabled d i' t).mem d i' = t + 7 :=
            entry_store_same (by have := ht.lt; omega)
          have halign := ht.1
          rw [hugeAt_of_not (by omega), hugeAt_of_not (by omega)]
        · exact hugeAt_congr (hslot i' hi' hne)
      entry_eq := hslot
      free := .inr ⟨hempty, hfree⟩
      hown := rfl
      hfree := rfl
      frees := rfl }

/-- `walkpgdir` with `alloc` set finds or makes the page table of a page that no
4MB entry covers, unless memory has run out. -/
theorem walkpgdir_alloc {k : Nat} (hs : Sys s g) (hd : IsFrame d) (hdir : g.own d = .dir o)
    (hk : k < 2 ^ 20) (hhuge : hugeAt s.mem d (k / 1024) = 0) :
    (∃ t s' g', (walkpgdir (P2V d) (4096 * k) true).run s = .ok (P2V t + 4 * (k % 1024)) s' ∧
      Sys s' g' ∧ Ensured d (k / 1024) t s g s' g') ∨
    ((walkpgdir (P2V d) (4096 * k) true).run s = .ok 0 s ∧ g.free = [] ∧
      entry s.mem d (k / 1024) = 0) := by
  have hpdx := PDX_page hk
  rcases hs.pde d o hd hdir (k / 1024) (by omega) with h | ⟨t, ht, htable, h⟩ | ⟨_, f, hf, _, h⟩ | ⟨_, _, h⟩
  · cases hfree : g.free with
    | nil => exact .inr ⟨walkpgdir_alloc_nil hs hd (by rw [hpdx, h]) hfree, rfl, h⟩
    | cons t L =>
      obtain ⟨hs', hens⟩ := hs.tabled hd hdir (by omega) h hfree
      have hrun := walkpgdir_alloc_cons (a := 4096 * k) hs hd (by rw [hpdx, h]) hfree
      rw [PTX_page, hpdx] at hrun
      exact .inl ⟨t, _, _, hrun, hs', hens⟩
  · have hrun := walkpgdir_present (a := 4096 * k) hd true ht.1 (show 7 < 4096 by omega) rfl (by rw [hpdx, h])
    rw [PTX_page] at hrun
    exact .inl ⟨t, s, g, hrun, hs, .refl hs ht htable⟩
  · have halign := hf.1
    rw [hugeAt_of_huge (by omega) (by omega)] at hhuge
    omega
  · rw [hugeAt_of_huge (by omega) (by omega)] at hhuge
    omega

end ensure

end xv6
