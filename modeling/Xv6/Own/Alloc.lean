import Xv6.Kalloc
import Xv6.Own.Frames

open bytes chain outcome Function

namespace xv6

section run

variable {β : Type} {s : Machine}

@[simp] theorem panic_run {α : Type} (msg : String) :
    (panic msg : KernelM α).run s = .error (.panic msg) s := rfl

theorem readWord_bind {p : Nat} {f : Nat → KernelM β} :
    (readWord p >>= f).run s = (f (load32 s.mem (V2P p))).run s := bind_ok rfl

theorem writeWord_run (p v : Nat) :
    (writeWord p v).run s = .ok () { s with mem := store32 s.mem (V2P p) v } := rfl

theorem writeWord_bind {p v : Nat} {f : Unit → KernelM β} :
    (writeWord p v >>= f).run s = (f ()).run { s with mem := store32 s.mem (V2P p) v } := bind_ok rfl

theorem memset_bind {p n : Nat} {c : UInt8} {f : Unit → KernelM β} :
    (memset p c n >>= f).run s = (f ()).run { s with mem := fill s.mem (V2P p) c n } := bind_ok rfl

theorem memmove_bind {dst src n : Nat} {f : Unit → KernelM β} :
    (memmove dst src n >>= f).run s =
      (f ()).run { s with mem := blit s.mem (V2P dst) (slice s.mem (V2P src) n) } := bind_ok rfl

theorem writeBytes_bind {p : Nat} {data : List UInt8} {f : Unit → KernelM β} :
    (writeBytes p data >>= f).run s = (f ()).run { s with mem := blit s.mem (V2P p) data } :=
  bind_ok rfl

theorem updateProc_bind {p : Fin NPROC} {h : Proc → Proc} {f : Unit → KernelM β} :
    (updateProc p h >>= f).run s =
      (f ()).run { s with proc := update s.proc p (h (s.proc p)) } := bind_ok rfl

theorem updateFile_bind {p : Fin NFILE} {h : File → File} {f : Unit → KernelM β} :
    (updateFile p h >>= f).run s =
      (f ()).run { s with file := update s.file p (h (s.file p)) } := bind_ok rfl

end run

/-- What `kfree` makes of the machine when it accepts the frame. -/
def Machine.freed (s : Machine) (f : Nat) : Machine :=
  { s with
    mem := store32 (fill s.mem f 1 4096) f s.freelist
    freelist := P2V f
    frees := s.frees ++ [.kfree (P2V f)] }

theorem kfree_run {f : Nat} (hf : IsFrame f) (s : Machine) :
    (kfree (P2V f)).run s = .ok () (s.freed f) := by
  obtain ⟨halign, hlo, hhi⟩ := hf
  have hv : V2P (P2V f) = f := V2P_P2V (by omega)
  have hok : ¬ (P2V f % PGSIZE ≠ 0 ∨ P2V f < kernelEnd ∨ V2P (P2V f) ≥ PHYSTOP) := by
    rw [hv]
    simp only [P2V, KERNBASE, PGSIZE, kernelEnd, PHYSTOP]
    omega
  unfold kfree
  rw [modify_bind, if_neg hok, memset_bind, get_bind, writeWord_bind, EStateM.run_modify, hv]
  rfl

theorem Sys.freelist_lt {s : Machine} {g : Ghost} (hs : Sys s g) : s.freelist < 2 ^ 32 := by
  have hchain := hs.chain
  cases hfree : g.free with
  | nil =>
    have hzero : s.freelist = 0 := by simpa [hfree, Chain] using hchain
    omega
  | cons f L =>
    rw [hfree] at hchain
    rw [hchain.1]
    simp only [P2V]
    omega

theorem Sys.freehugelist_lt {s : Machine} {g : Ghost} (hs : Sys s g) : s.freehugelist < 2 ^ 32 := by
  have hchain := hs.hchain
  cases hfree : g.hfree with
  | nil =>
    have hzero : s.freehugelist = 0 := by simpa [hfree, Chain] using hchain
    omega
  | cons f L =>
    rw [hfree] at hchain
    rw [hchain.1]
    simp only [P2V]
    omega

/-- `kalloc` on an empty list. -/
theorem kalloc_nil {s : Machine} {g : Ghost} (hs : Sys s g) (hfree : g.free = []) :
    kalloc.run s = .ok 0 s := by
  have hzero : s.freelist = 0 := by simpa [hfree, Chain] using hs.chain
  simp only [kalloc, get_bind, hzero, ne_eq, not_true_eq_false, if_false, EStateM.run_pure]

theorem kalloc_cons {s : Machine} {g : Ghost} (hs : Sys s g) {f : Nat} {L : List Nat}
    (hfree : g.free = f :: L) :
    kalloc.run s = .ok (P2V f) { s with freelist := load32 s.mem f } := by
  have hchain := hs.chain
  rw [hfree] at hchain
  obtain ⟨hf, _⟩ := (hs.mem_free f).1 (by simp [hfree])
  have hlt := hf.lt
  have hne : P2V f ≠ 0 := P2V_ne_zero (by omega)
  have hv : V2P (P2V f) = f := V2P_P2V (by omega)
  simp only [kalloc, get_bind, hchain.1, if_pos hne, readWord_bind, hv, modify_bind, EStateM.run_pure]

/-- A frame taken off the free list belongs to no place yet. -/
theorem Sys.pop {s : Machine} {g : Ghost} (hs : Sys s g) {f : Nat} {L : List Nat}
    (hfree : g.free = f :: L) :
    Sys { s with freelist := load32 s.mem f } { g with own := update g.own f .temp, free := L } := by
  have hchain := hs.chain
  have hnodup := hs.nodup
  rw [hfree] at hchain hnodup
  obtain ⟨hfresh, hnodup⟩ := List.nodup_cons.1 hnodup
  obtain ⟨hf, hrole⟩ := (hs.mem_free f).1 (by simp [hfree])
  apply hs.relabel (by simp [hrole, Role.detached]) rfl
  · exact hchain.2
  · exact hnodup
  · intro x
    by_cases hx : x = f
    · subst hx
      simp [hfresh]
    · have hmem := hs.mem_free x
      rw [hfree] at hmem
      simpa [update_of_ne hx, hx] using hmem
  · exact hs.hchain
  · exact fun _ _ _ => SameOn.refl _ _ _

/-- Freeing a frame that belongs to no place puts it at the head of the list. -/
theorem Sys.push {s : Machine} {g : Ghost} (hs : Sys s g) {f : Nat} (hf : IsFrame f)
    (hrole : g.own f = .temp) :
    Sys (s.freed f) { g with own := update g.own f .free, free := f :: g.free } := by
  have hnotmem : f ∉ g.free := by
    intro h
    have := ((hs.mem_free f).1 h).2
    simp [hrole] at this
  have hapart {x : Nat} (hx : IsFrame x) (hne : x ≠ f) : SameOn s.mem (s.freed f).mem x 4096 := by
    have h := hf.apart hx hne.symm
    exact (fill_sameOn s.mem h).trans (store32_sameOn _ (by omega))
  apply hs.relabel (by simp [hrole, Role.detached]) rfl
  · apply hs.chain.push
    · exact load32_store32_same _ _ hs.freelist_lt
    · intro x hx
      obtain ⟨hxf, _⟩ := (hs.mem_free x).1 hx
      exact (hapart hxf (fun h => hnotmem (h ▸ hx))).load32_eq le_rfl (by omega)
  · exact List.nodup_cons.2 ⟨hnotmem, hs.nodup⟩
  · intro x
    by_cases hx : x = f
    · subst hx
      simp [hf]
    · simpa [update_of_ne hx, hx] using hs.mem_free x
  · apply hs.hchain.congr
    intro x hx
    obtain ⟨hxh, _⟩ := (hs.mem_hfree x).1 hx
    have h := hf.apart_huge hxh
    exact ((fill_sameOn s.mem (k := 4) (by omega)).trans
      (store32_sameOn _ (by omega))).load32_eq le_rfl le_rfl
  · intro x hx hattached
    apply hapart hx
    rintro rfl
    simp [hrole, Role.detached] at hattached

/-- What `khugefree` makes of the machine when it accepts the frame. -/
def Machine.hugefreed (s : Machine) (f : Nat) : Machine :=
  { s with
    mem := store32 (fill s.mem f 1 0x400000) f s.freehugelist
    freehugelist := P2V f
    frees := s.frees ++ [.khugefree (P2V f)] }

theorem khugefree_run {f : Nat} (hf : IsHuge f) (s : Machine) :
    (khugefree (P2V f)).run s = .ok () (s.hugefreed f) := by
  obtain ⟨halign, hlo, hhi⟩ := hf
  have hv : V2P (P2V f) = f := V2P_P2V (by omega)
  have hok : ¬ (P2V f % HUGE_PAGE_SIZE ≠ 0 ∨ V2P (P2V f) < HUGE_PAGE_START ∨
      V2P (P2V f) ≥ HUGE_PAGE_END) := by
    rw [hv]
    simp only [P2V, KERNBASE, HUGE_PAGE_SIZE, HUGE_PAGE_START, HUGE_PAGE_END]
    omega
  unfold khugefree
  rw [modify_bind, if_neg hok, memset_bind, get_bind, writeWord_bind, EStateM.run_modify, hv]
  rfl

theorem khugealloc_nil {s : Machine} {g : Ghost} (hs : Sys s g) (hfree : g.hfree = []) :
    khugealloc.run s = .ok 0 s := by
  have hzero : s.freehugelist = 0 := by simpa [hfree, Chain] using hs.hchain
  simp only [khugealloc, get_bind, hzero, ne_eq, not_true_eq_false, if_false, EStateM.run_pure]

theorem khugealloc_cons {s : Machine} {g : Ghost} (hs : Sys s g) {f : Nat} {H : List Nat}
    (hfree : g.hfree = f :: H) :
    khugealloc.run s = .ok (P2V f) { s with freehugelist := load32 s.mem f } := by
  have hchain := hs.hchain
  rw [hfree] at hchain
  obtain ⟨hf, _⟩ := (hs.mem_hfree f).1 (by simp [hfree])
  have hlt := hf.lt
  have hne : P2V f ≠ 0 := P2V_ne_zero (by omega)
  have hv : V2P (P2V f) = f := V2P_P2V (by omega)
  simp only [khugealloc, get_bind, hchain.1, if_pos hne, readWord_bind, hv, modify_bind,
    EStateM.run_pure]

theorem Sys.hpop {s : Machine} {g : Ghost} (hs : Sys s g) {f : Nat} {H : List Nat}
    (hfree : g.hfree = f :: H) :
    Sys { s with freehugelist := load32 s.mem f }
      { g with hown := update g.hown f .temp, hfree := H } := by
  have hchain := hs.hchain
  have hnodup := hs.hnodup
  rw [hfree] at hchain hnodup
  obtain ⟨hfresh, hnodup⟩ := List.nodup_cons.1 hnodup
  obtain ⟨hf, hrole⟩ := (hs.mem_hfree f).1 (by simp [hfree])
  apply hs.hrelabel (by simp [hrole, HugeRole.detached]) rfl
  · exact hs.chain
  · exact hchain.2
  · exact hnodup
  · intro x
    by_cases hx : x = f
    · subst hx
      simp [hfresh]
    · have hmem := hs.mem_hfree x
      rw [hfree] at hmem
      simpa [update_of_ne hx, hx] using hmem
  · exact fun _ _ _ => SameOn.refl _ _ _

theorem Sys.hpush {s : Machine} {g : Ghost} (hs : Sys s g) {f : Nat} (hf : IsHuge f)
    (hrole : g.hown f = .temp) :
    Sys (s.hugefreed f) { g with hown := update g.hown f .free, hfree := f :: g.hfree } := by
  have hnotmem : f ∉ g.hfree := by
    intro h
    have := ((hs.mem_hfree f).1 h).2
    simp [hrole] at this
  have hlt := hs.freehugelist_lt
  have hbase {x : Nat} (hx : IsFrame x) : SameOn s.mem (s.hugefreed f).mem x 4096 := by
    have h := hx.apart_huge hf
    exact (fill_sameOn s.mem (by omega)).trans (store32_sameOn _ (by omega))
  apply hs.hrelabel (by simp [hrole, HugeRole.detached]) rfl
  · apply hs.chain.congr
    intro x hx
    exact (hbase ((hs.mem_free x).1 hx).1).load32_eq le_rfl (by omega)
  · apply hs.hchain.push
    · exact load32_store32_same _ _ hlt
    · intro x hx
      obtain ⟨hxf, _⟩ := (hs.mem_hfree x).1 hx
      have h := hf.apart hxf (fun h => hnotmem (h ▸ hx))
      exact ((fill_sameOn s.mem (k := 4) (by omega)).trans
        (store32_sameOn _ (by omega))).load32_eq le_rfl le_rfl
  · exact List.nodup_cons.2 ⟨hnotmem, hs.hnodup⟩
  · intro x
    by_cases hx : x = f
    · subst hx
      simp [hf]
    · simpa [update_of_ne hx, hx] using hs.mem_hfree x
  · exact fun x hx _ => hbase hx

end xv6
