import Xv6.Vm.Huge
import Xv6.Vm.Setup

open bytes outcome Function

namespace xv6

/-- Page `k` of directory `d` in memory `m'` is a copy of page `k` of directory
`p` in memory `m`: the same flags and the same bytes. -/
def PageCopy (m : Mem) (p : Nat) (m' : Mem) (d k : Nat) : Prop :=
  lookup m' d k ≠ 0 ∧ PTE_FLAGS (lookup m' d k) = PTE_FLAGS (lookup m p k) ∧
    ∀ b < 4096, m' (PTE_ADDR (lookup m' d k) + b) = m (PTE_ADDR (lookup m p k) + b)

/-- The same for the huge page of slot `i`. -/
def HugeCopy (m : Mem) (p : Nat) (m' : Mem) (d i : Nat) : Prop :=
  hugeAt m' d i ≠ 0 ∧ PTE_FLAGS (hugeAt m' d i) = PTE_FLAGS (hugeAt m p i) ∧
    ∀ b < 0x400000, m' (PTE_ADDR (hugeAt m' d i) + b) = m (PTE_ADDR (hugeAt m p i) + b)

/-- The base pages `lo` up to `hi` of directory `p` have been copied to `d`. -/
structure Copied (p d lo hi : Nat) (s : Machine) (g : Ghost) (s' : Machine) (g' : Ghost) : Prop
    extends UserStep d (fun _ => False) s g s' g' where
  copy : ∀ k, lo ≤ k → k < hi → PageCopy s.mem p s'.mem d k
  lookup_eq : ∀ k < 2 ^ 20, ¬ (lo ≤ k ∧ k < hi) → lookup s'.mem d k = lookup s.mem d k
  huge_eq : ∀ i < 1024, hugeAt s'.mem d i = hugeAt s.mem d i
  slots : ∀ i < 512, entry s'.mem d i ≠ 0 ↔ 1024 * i < hi
  own : ∀ x, g.own x ≠ .free → g'.own x = g.own x
  keep : ∀ x, IsFrame x → x ≠ d → g.own x ≠ .free → (∀ i, g.own x ≠ .table d i) →
    SameOn s.mem s'.mem x 4096
  free : g.free.length = g'.free.length + (hi - lo) + ((hi + 1023) / 1024 - (lo + 1023) / 1024)
  hown : g'.hown = g.hown
  hfree : g'.hfree = g.hfree

section base

variable {s s' s'' : Machine} {g g' g'' : Ghost} {p d k lo hi f : Nat} {o o' : DirOwner} {L : List Nat}

theorem or_flags {fl : Nat} (hf : f % 4096 = 0) (hfl : fl < 4096) (hodd : fl % 2 = 1) :
    f ||| fl ||| PTE_P = f + fl := by
  have h := Nat.two_pow_add_eq_or_of_lt (i := 1) (b := 1) (by omega) (fl / 2)
  rw [show 2 ^ 1 * (fl / 2) + 1 = fl by omega] at h
  have hself : fl ||| PTE_P = fl := by
    rw [h, Nat.or_assoc, Nat.or_self]
  exact or_row hf hself hfl

/-- The copied page is a fresh frame with the parent's bytes. -/
theorem blit_sameOn_frame {m : Mem} {x : Nat} {data : List UInt8} (hf : IsFrame f) (hx : IsFrame x) (hne : x ≠ f)
    (hlen : data.length ≤ 4096) : SameOn m (blit m f data) x 4096 := blit_sameOn m (by
  have h := hf.apart hx hne.symm
  omega)

theorem blit_sameOn_huge {m : Mem} {x n : Nat} {data : List UInt8} (hf : IsFrame f) (hx : IsHuge x)
    (hlen : data.length ≤ 4096) : SameOn m (blit m f data) x n := blit_sameOn m (by
  have h := hf.apart_huge hx
  omega)

/-- The state in which the loop of `copyuvm` meets page `k`: the pages below are
copied and have their page tables, and the rest of the user half is empty. -/
structure CopyReady (m : Mem) (d k : Nat) : Prop where
  empty : ∀ k', k ≤ k' → k' < 2 ^ 19 → lookup m d k' = 0
  nohuge : ∀ i < 512, hugeAt m d i = 0
  slots : ∀ i < 512, entry m d i ≠ 0 ↔ 1024 * i < k

theorem Grown.copyReady {v : Nat} (h : Grown d k f v s g s' g') (hr : CopyReady s.mem d k) :
    CopyReady s'.mem d (k + 1) where
  empty k' hlo hhi := by
    rw [h.lookup_eq k' (by omega), if_neg (by omega)]
    exact hr.empty k' (by omega) hhi
  nohuge i hi := by
    rw [h.huge_eq i (by omega)]
    exact hr.nohuge i hi
  slots i hi := by
    by_cases hslot : i = k / 1024
    · subst hslot
      exact ⟨fun _ => by omega, fun _ => h.entry_ne⟩
    · rw [h.entry_eq i (by omega) hslot, hr.slots i hi]
      omega

/-- A user step keeps the copies that lie in another directory's frames. -/
theorem PageCopy.source_congr {m m' m'' : Mem} (h : PageCopy m' p m'' d k)
    (hlook : lookup m' p k = lookup m p k)
    (hbytes : ∀ b < 4096, m' (PTE_ADDR (lookup m p k) + b) = m (PTE_ADDR (lookup m p k) + b)) :
    PageCopy m p m'' d k := by
  obtain ⟨hne, hflags, hb⟩ := h
  rw [hlook] at hflags hb
  exact ⟨hne, hflags, fun b hlt => (hb b hlt).trans (hbytes b hlt)⟩

/-- The bytes of a mapped page of directory `p` do not change in a step on another directory. -/
theorem UserStep.page_bytes {H : HugeRole → Prop} (h : UserStep d H s g s' g') (hs : Sys s g) (hp : IsFrame p)
    (hdir : g.own p = .dir o) (hd : g.own d = .dir o') (hne : p ≠ d) (hk : k < 2 ^ 19)
    (hlook : lookup s.mem p k ≠ 0) {b : Nat} (hb : b < 4096) :
    s'.mem (PTE_ADDR (lookup s.mem p k) + b) = s.mem (PTE_ADDR (lookup s.mem p k) + b) := by
  rcases hs.lookup_user hp hdir hk with hz | ⟨f, fl, hf, hrole, hfl, _, heq⟩
  · exact absurd hz hlook
  · rw [heq, PTE_ADDR_add hf.1 hfl]
    exact h.same f hf ((Outside.user hne hdir hd).page f _ _ hrole) _ (by omega) (by omega)

theorem Copied.refl (hr : CopyReady s.mem d k) : Copied p d k k s g s g where
  toUserStep := UserStep.refl _ _ _ _
  copy k' hlo hhi := by omega
  lookup_eq _ _ _ := rfl
  huge_eq _ _ := rfl
  slots := hr.slots
  own _ _ := rfl
  keep _ _ _ _ _ := SameOn.refl _ _ _
  free := by omega
  hown := rfl
  hfree := rfl

/-- A copied page followed by the copies of the pages after it. -/
theorem Grown.copied {v : Nat} (h : Grown d k f v s g s' g') (hs : Sys s g) (hp : IsFrame p)
    (hpdir : g.own p = .dir o) (hdir : g.own d = .dir o') (hne : p ≠ d) (hk : k < hi) (hhi : hi ≤ 2 ^ 19)
    (hr : CopyReady s.mem d k) (hs' : Sys s' g') (hd : IsFrame d)
    (hcopy : PageCopy s.mem p s'.mem d k) (hpages : ∀ k < hi, lookup s.mem p k ≠ 0)
    (h' : Copied p d (k + 1) hi s' g' s'' g'') : Copied p d k hi s g s'' g'' where
  toUserStep := h.toUserStep.trans h'.toUserStep
  copy k' hlo hlt := by
    have hview := h.toWithin.view_eq hs hp hpdir (Outside.user hne hpdir hdir)
    by_cases hkk : k' = k
    · subst hkk
      obtain ⟨hnz, hflags, hbytes⟩ := hcopy
      have hlook : lookup s''.mem d k' = lookup s'.mem d k' := h'.lookup_eq k' (by omega) (by omega)
      unfold PageCopy
      rw [hlook]
      refine ⟨hnz, hflags, fun b hb => ?_⟩
      rcases hs'.lookup_user hd (h.dir.trans hdir) (show k' < 2 ^ 19 by omega) with hz | ⟨x, fl, hx, hrole, hfl, _, heq⟩
      · exact absurd hz hnz
      · have hxd : x ≠ d := by
          rintro rfl
          rw [h.dir, hdir] at hrole
          simp at hrole
        rw [← hbytes b hb, heq, PTE_ADDR_add hx.1 hfl]
        exact h'.keep x hx hxd (by simp [hrole]) (by simp [hrole]) _ (by omega) (by omega)
    · exact (h'.copy k' (by omega) hlt).source_congr (hview.1 k' (by omega)) fun b hb =>
        h.toUserStep.page_bytes hs hp hpdir hdir hne (by omega) (hpages k' hlt) hb
  lookup_eq k' hk' hout := by
    rw [h'.lookup_eq k' hk' (by omega), h.lookup_eq k' hk', if_neg (by omega)]
  huge_eq i hi := (h'.huge_eq i hi).trans (h.huge_eq i hi)
  slots := h'.slots
  own x hx := by
    rw [h'.own x (by rwa [h.own x hx]), h.own x hx]
  keep x hx hxd hfr htab := by
    have heq := h.own x hfr
    exact (h.keep x hx hxd hfr htab).trans (h'.keep x hx hxd (by rwa [heq]) (by rwa [heq]))
  free := by
    have hlen := h'.free
    have hslot := hr.slots (k / 1024) (by omega)
    rcases h.free with ⟨hnz, heq⟩ | ⟨hz, t, heq⟩
    · have hlt := hslot.1 hnz
      rw [heq, List.length_cons]
      omega
    · have hge : ¬ 1024 * (k / 1024) < k := fun hlt => hslot.2 hlt hz
      rw [heq, List.length_cons, List.length_cons]
      omega
  hown := h'.hown.trans h.hown
  hfree := h'.hfree.trans h.hfree

/-- The copy was given up for lack of memory; no huge page has been mapped. -/
structure Aborted (d : Nat) (s : Machine) (g : Ghost) (s' : Machine) (g' : Ghost) : Prop
    extends UserStep d (fun _ => False) s g s' g' where
  nohuge : ∀ i < 512, hugeAt s'.mem d i = 0
  hfree : g'.hfree = g.hfree

/-- The loop of `copyuvm` over the base pages, with the number of frames it takes. -/
theorem copy_loop (hd : IsFrame d) (hp : IsFrame p) (hne : p ≠ d) {sz : Nat} (hhi : hi = (sz + 4095) / 4096)
    (hle : hi ≤ 2 ^ 19) (n : Nat) :
    ∀ (k : Nat) (s : Machine) (g : Ghost), Sys s g → g.own d = .dir o' → g.own p = .dir o → k ≤ hi →
      hi - k < n → (∀ k' < hi, lookup s.mem p k' ≠ 0) → CopyReady s.mem d k →
      (∃ s' g', (copyuvm.baseLoop (P2V p) (P2V d) sz n (4096 * k)).run s = .ok true s' ∧ Sys s' g' ∧
        Copied p d k hi s g s' g') ∨
      ∃ s' g', (copyuvm.baseLoop (P2V p) (P2V d) sz n (4096 * k)).run s = .ok false s' ∧ Sys s' g' ∧
        Aborted d s g s' g' ∧
        g.free.length < hi - k + ((hi + 1023) / 1024 - (k + 1023) / 1024) := by
  induction n with
  | zero =>
    intro k s g _ _ _ _ hn
    omega
  | succ n ih =>
    intro k s g hs hdir hpdir hk hn hpages hr
    by_cases hdone : k = hi
    · left
      refine ⟨s, g, ?_, hs, hdone ▸ Copied.refl (hdone ▸ hr)⟩
      rw [copyuvm.baseLoop, if_neg (by omega), EStateM.run_pure]
    · have hklt : k < 2 ^ 19 := by omega
      have hnz := hpages k (by omega)
      have hnext : u32 (4096 * k + PGSIZE) = 4096 * (k + 1) := by
        simp only [u32, PGSIZE]
        omega
      obtain ⟨t, ht, htable, hlook⟩ : ∃ t, IsFrame t ∧ g.own t = .table p (k / 1024) ∧
          lookup s.mem p k = entry s.mem t (k % 1024) := by
        rcases hs.lookup_cases hp hpdir (show k < 2 ^ 20 by omega) with ⟨hz, _⟩ | h
        · exact absurd hz hnz
        · exact h
      obtain ⟨f₀, fl, hf₀, hrole₀, hfl, hodd, hentry⟩ : ∃ f fl, IsFrame f ∧
          g.own f = .page p (k / 1024) (k % 1024) ∧ fl < 4096 ∧ fl % 2 = 1 ∧ lookup s.mem p k = f + fl := by
        rcases hs.lookup_user hp hpdir hklt with hz | h
        · exact absurd hz hnz
        · exact h
      have hpte : entry s.mem t (k % 1024) = f₀ + fl := hlook.symm.trans hentry
      have htlt := ht.lt
      have hf₀lt := hf₀.lt
      have halign₀ := hf₀.1
      have hpde := (hs.table_up t p _ ht htable).2.2.1
      have hwalk := walkpgdir_present (a := 4096 * k) hp false ht.1 (show 7 < 4096 by omega) rfl
        (by rw [PDX_page (by omega), hpde])
      rw [PTX_page] at hwalk
      have hptene : ¬ P2V t + 4 * (k % 1024) = 0 := by
        have := P2V_ne_zero (f := t) (by omega)
        omega
      have hpresent : ¬ (!hasFlag (f₀ + fl) PTE_P) = true := by
        have : hasFlag (f₀ + fl) PTE_P = true := by
          rw [hasFlag_P]
          omega
        simp [this]
      have hflags : PTE_FLAGS (f₀ + fl) = fl := by
        simp only [PTE_FLAGS]
        omega
      have hstart : (copyuvm.baseLoop (P2V p) (P2V d) sz (n + 1) (4096 * k)).run s =
          (do
            let mem ← kalloc
            if mem = 0 then
              return false
            else
              memmove mem (P2V f₀) PGSIZE
              if (← mappages (P2V d) (4096 * k) PGSIZE (V2P mem) fl) < 0 then
                kfree mem
                return false
              else
                copyuvm.baseLoop (P2V p) (P2V d) sz n (4096 * (k + 1)) : KernelM Bool).run s := by
        rw [copyuvm.baseLoop, if_pos (by omega), bind_ok hwalk, if_neg hptene,
          readWord_entry_bind (by omega) (by omega), hpte, if_neg hpresent, PTE_ADDR_add halign₀ hfl, hflags, hnext]
      have hslot := hr.slots (k / 1024) (by omega)
      cases hfree : g.free with
      | nil =>
        right
        refine ⟨s, g, ?_, hs, ⟨UserStep.refl _ _ _ _, hr.nohuge, rfl⟩, ?_⟩
        · rw [hstart, bind_ok (kalloc_nil hs hfree), if_pos rfl, EStateM.run_pure]
        · rw [List.length_nil]
          omega
      | cons f L =>
        obtain ⟨hf, hrolef⟩ := (hs.mem_free f).1 (by simp [hfree])
        have hflt := hf.lt
        have hfne : ¬ P2V f = 0 := P2V_ne_zero (by omega)
        have hm (x : Nat) (hx : IsFrame x) (hxf : x ≠ f) :
            SameOn s.mem (blit s.mem f (slice s.mem f₀ 4096)) x 4096 :=
          blit_sameOn_frame hf hx hxf (by rw [slice_length])
        have hhm (x : Nat) (hx : IsHuge x) :
            SameOn s.mem (blit s.mem f (slice s.mem f₀ 4096)) x 0x400000 :=
          blit_sameOn_huge hf hx (by rw [slice_length])
        have hround : (copyuvm.baseLoop (P2V p) (P2V d) sz (n + 1) (4096 * k)).run s =
            (do
              if (← mappages (P2V d) (4096 * k) PGSIZE f fl) < 0 then
                kfree (P2V f)
                return false
              else
                copyuvm.baseLoop (P2V p) (P2V d) sz n (4096 * (k + 1)) : KernelM Bool).run
              (s.popped f (blit s.mem f (slice s.mem f₀ 4096))) := by
          rw [hstart, bind_ok (kalloc_cons hs hfree), if_neg hfne, memmove_bind, V2P_P2V (by omega), V2P_P2V (by omega)]
          rfl
        rcases mappages_fresh hs hd hdir hklt (hr.nohuge _ (by omega)) (hr.empty k le_rfl hklt) hfree hm hhm hfl hodd
            (or_flags hf.1 hfl hodd) with ⟨s₁, g₁, hmap, hs₁, hbytes, hgrown⟩ | ⟨hmap, hnil, hzero⟩
        · have hlook₁ : lookup s₁.mem d k = f + fl := by
            rw [hgrown.lookup_eq k (by omega), if_pos rfl]
          have hcopy : PageCopy s.mem p s₁.mem d k := by
            unfold PageCopy
            have halign := hf.1
            rw [hlook₁, hentry, PTE_ADDR_add hf.1 hfl, PTE_ADDR_add halign₀ hfl, hflags]
            refine ⟨by omega, by simp only [PTE_FLAGS]; omega, fun b hb => ?_⟩
            rw [hbytes _ (by omega) (by omega), blit_slice_apply _ _ (by omega) (by omega), Nat.add_sub_cancel_left]
          have hview := hgrown.toWithin.view_eq hs hp hpdir (Outside.user hne hpdir hdir)
          rw [hround, bind_ok hmap, if_neg (by omega)]
          rcases ih (k + 1) s₁ g₁ hs₁ (hgrown.dir.trans hdir)
              ((hgrown.own p (by simp [hpdir])).trans hpdir) (by omega) (by omega)
              (fun k' hk' => by rw [hview.1 k' (by omega)]; exact hpages k' hk') (hgrown.copyReady hr) with
            ⟨s', g', hrun, hs', hcop⟩ | ⟨s', g', hrun, hs', hab, hshort⟩
          · exact .inl ⟨s', g', hrun, hs', hgrown.copied hs hp hpdir hdir hne (by omega) hle hr hs₁ hd hcopy hpages hcop⟩
          · right
            refine ⟨s', g', hrun, hs', ⟨hgrown.toUserStep.trans hab.toUserStep, hab.nohuge,
              hab.hfree.trans hgrown.hfree⟩, ?_⟩
            rw [← hfree]
            rcases hgrown.free with ⟨hnz', heq⟩ | ⟨hz, t, heq⟩
            · have hlt := hslot.1 hnz'
              rw [heq, List.length_cons]
              omega
            · have hge : ¬ 1024 * (k / 1024) < k := fun hlt => hslot.2 hlt hz
              rw [heq, List.length_cons, List.length_cons]
              omega
        · right
          have hs₁ := hs.popped hfree hm hhm
          have hdf : d ≠ f := by
            rintro rfl
            simp [hdir] at hrolef
          have hview := hs.view_congr hd hdir (hm d hd hdf) fun t i ht htab => by
            refine hm t ht ?_
            rintro rfl
            simp [hrolef] at htab
          have hrest : Restored d k (s.popped f (blit s.mem f (slice s.mem f₀ 4096))) (g.popped f L)
              (s.popped f (blit s.mem f (slice s.mem f₀ 4096))) (g.popped f L) :=
            .refl fun k' hlo hk' => (hview.1 k' (by omega)).trans (hr.empty k' hlo hk')
          obtain ⟨g₂, hs₂, hback⟩ := hrest.giveBack hs hd hdir hfree hm hhm hs₁
          refine ⟨_, g₂, ?_, hs₂, ⟨hback.toUserStep, fun i hi => ?_, hback.hfree⟩, ?_⟩
          · rw [hround, bind_ok hmap, if_pos (by omega), bind_ok (kfree_run hf _), EStateM.run_pure]
          · rw [hback.huge_eq i (by omega)]
            exact hr.nohuge i hi
          · have hge : ¬ 1024 * (k / 1024) < k := fun hlt => hslot.2 hlt hzero
            rw [hnil, List.length_cons, List.length_nil]
            omega

end base

end xv6
