import Xv6.Own.Basic

open bytes chain Function

namespace xv6

/-- Roles of frames whose contents the kernel reads as links or entries. -/
def Role.structural : Role → Bool
  | .free | .dir _ | .table _ _ => true
  | _ => false

/-- Roles of frames whose contents are entries. -/
def Role.maps : Role → Bool
  | .dir _ | .table _ _ => true
  | _ => false

/-- Roles that no page directory refers to. -/
def Role.detached : Role → Bool
  | .dir _ | .table _ _ | .page _ _ _ => false
  | _ => true

def HugeRole.detached : HugeRole → Bool
  | .page _ _ => false
  | _ => true

theorem P2V_ne_zero {f : Nat} (h : f < 0x80000000) : P2V f ≠ 0 := by
  simp only [P2V, KERNBASE]
  omega

theorem V2P_P2V {f : Nat} (h : f < 2 ^ 32) : V2P (P2V f) = f := by
  simp only [P2V, V2P, KERNBASE]
  omega

theorem V2P_P2V_add {f k : Nat} (h : f + k < 0x80000000) : V2P (P2V f + k) = f + k := by
  simp only [P2V, V2P, KERNBASE]
  omega

theorem IsFrame.phys {f : Nat} (h : IsFrame f) : V2P (P2V f) = f := V2P_P2V (by have := h.lt; omega)

theorem IsFrame.ne_zero {f : Nat} (h : IsFrame f) : P2V f ≠ 0 := P2V_ne_zero (by have := h.lt; omega)

theorem PdeOK.congr {m m' : Mem} {g g' : Ghost} {d i : Nat} (h : PdeOK m g d i)
    (hentry : entry m' d i = entry m d i)
    (hown : ∀ t, IsFrame t → g.own t = .table d i → g'.own t = .table d i)
    (hhown : ∀ f, IsHuge f → g.hown f = .page d i → g'.hown f = .page d i) : PdeOK m' g' d i := by
  unfold PdeOK
  rw [hentry]
  rcases h with h | ⟨t, ht, hrole, h⟩ | ⟨hi, f, hf, hrole, h⟩ | h
  · exact .inl h
  · exact .inr (.inl ⟨t, ht, hown t ht hrole, h⟩)
  · exact .inr (.inr (.inl ⟨hi, f, hf, hhown f hf hrole, h⟩))
  · exact .inr (.inr (.inr h))

theorem PteOK.congr {m m' : Mem} {g g' : Ghost} {t d i j : Nat} (h : PteOK m g t d i j)
    (hentry : entry m' t j = entry m t j)
    (hown : ∀ f, IsFrame f → g.own f = .page d i j → g'.own f = .page d i j) :
    PteOK m' g' t d i j := by
  unfold PteOK
  rw [hentry]
  rcases h with h | ⟨f, fl, hf, hrole, h⟩
  · exact .inl h
  · exact .inr ⟨f, fl, hf, hown f hf hrole, h⟩

/-- A change that keeps what the directories and user tables map, except for the entries that are shown to be right
again. -/
theorem Sys.revise {s s' : Machine} {g g' : Ghost} (hs : Sys s g)
    (hchain : Chain (load32 s'.mem) P2V s'.freelist g'.free) (hnodup : g'.free.Nodup)
    (hmem : ∀ f, f ∈ g'.free ↔ IsFrame f ∧ g'.own f = .free)
    (hhchain : Chain (load32 s'.mem) P2V s'.freehugelist g'.hfree) (hhnodup : g'.hfree.Nodup)
    (hhmem : ∀ f, f ∈ g'.hfree ↔ IsHuge f ∧ g'.hown f = .free)
    (hdirs : ∀ d, (∃ o, g.own d = .dir o) → ∃ o, g'.own d = .dir o)
    (htables : ∀ t d i, g.own t = .table d i → g'.own t = .table d i)
    (hhuges : ∀ f d i, g.hown f = .page d i → g'.hown f = .page d i)
    (hslots : ∀ d o, IsFrame d → g.own d = .dir o → ∀ i < 1024, entry s.mem d i ≠ 0 → entry s'.mem d i = entry s.mem d i)
    (hpde : ∀ d o, IsFrame d → g'.own d = .dir o → ∀ i < 1024,
      (∃ o, g.own d = .dir o) ∧ entry s'.mem d i = entry s.mem d i ∨ PdeOK s'.mem g' d i)
    (hpte : ∀ t d i, IsFrame t → g'.own t = .table d i → i < 512 → ∀ j < 1024, (g.own t = .table d i ∧
      entry s'.mem t j = entry s.mem t j ∧ ∀ f, IsFrame f → g.own f = .page d i j → g'.own f = .page d i j) ∨
      PteOK s'.mem g' t d i j)
    (htable : ∀ t d i, IsFrame t → g'.own t = .table d i → g.own t = .table d i ∨
      IsFrame d ∧ i < 1024 ∧ entry s'.mem d i = t + 7 ∧ ∃ o, g'.own d = .dir o)
    (hpage : ∀ f d i j, IsFrame f → g'.own f = .page d i j → (g.own f = .page d i j ∧
      ∀ t, IsFrame t → g.own t = .table d i → j < 1024 → entry s'.mem t j = entry s.mem t j) ∨
      i < 512 ∧ j < 1024 ∧ ∃ t fl, IsFrame t ∧ g'.own t = .table d i ∧ fl < 4096 ∧ fl % 2 = 1 ∧ entry s'.mem t j = f + fl)
    (hhuge : ∀ f d i, IsHuge f → g'.hown f = .page d i → g.hown f = .page d i ∨
      IsFrame d ∧ i < 512 ∧ entry s'.mem d i = f + 0x87 ∧ ∃ o, g'.own d = .dir o) : Sys s' g' := by
  refine ⟨hchain, hnodup, hmem, hhchain, hhnodup, hhmem, fun d o hd hdir i hi => ?_, fun t d i ht hrole hi j hj => ?_,
    fun t d i ht hrole => ?_, fun f d i j hf hrole => ?_, fun f d i hf hrole => ?_⟩
  · rcases hpde d o hd hdir i hi with ⟨⟨o', hdir'⟩, heq⟩ | h
    · exact (hs.pde d o' hd hdir' i hi).congr heq (fun t _ h => htables t d i h) fun f _ h => hhuges f d i h
    · exact h
  · rcases hpte t d i ht hrole hi j hj with ⟨hrole', heq, hkeep⟩ | h
    · exact (hs.pte t d i ht hrole' hi j hj).congr heq hkeep
    · exact h
  · rcases htable t d i ht hrole with hrole' | h
    · obtain ⟨hd, hi, hpde, o, hdir⟩ := hs.table_up t d i ht hrole'
      exact ⟨hd, hi, (hslots d o hd hdir i hi (by omega)).trans hpde, hdirs d ⟨o, hdir⟩⟩
    · exact h
  · rcases hpage f d i j hf hrole with ⟨hrole', heq⟩ | h
    · obtain ⟨hi, hj, t, fl, ht, htab, hfl, hodd, hpte⟩ := hs.page_up f d i j hf hrole'
      exact ⟨hi, hj, t, fl, ht, htables t d i htab, hfl, hodd, (heq t ht htab hj).trans hpte⟩
    · exact h
  · rcases hhuge f d i hf hrole with hrole' | h
    · obtain ⟨hd, hi, hpde, o, hdir⟩ := hs.huge_up f d i hf hrole'
      exact ⟨hd, hi, (hslots d o hd hdir i (by omega) (by omega)).trans hpde, hdirs d ⟨o, hdir⟩⟩
    · exact h

/-- A change that keeps the roles of directories, tables and pages, and the contents of directories and tables. -/
theorem Sys.remap {s s' : Machine} {g g' : Ghost} (hs : Sys s g)
    (hown : ∀ f r, r.detached = false → (g'.own f = r ↔ g.own f = r))
    (hhown : ∀ f d i, g'.hown f = .page d i ↔ g.hown f = .page d i)
    (hsame : ∀ f, IsFrame f → (g.own f).maps → SameOn s.mem s'.mem f 4096)
    (hchain : Chain (load32 s'.mem) P2V s'.freelist g'.free) (hnodup : g'.free.Nodup)
    (hmem : ∀ f, f ∈ g'.free ↔ IsFrame f ∧ g'.own f = .free)
    (hhchain : Chain (load32 s'.mem) P2V s'.freehugelist g'.hfree) (hhnodup : g'.hfree.Nodup)
    (hhmem : ∀ f, f ∈ g'.hfree ↔ IsHuge f ∧ g'.hown f = .free) : Sys s' g' := by
  have hentry {f i : Nat} {r : Role} (hf : IsFrame f) (h : g.own f = r) (hr : r.maps) (hi : i < 1024) :
      entry s'.mem f i = entry s.mem f i := entry_eq_of_sameOn (hsame f hf (by rwa [h])) hi
  refine hs.revise hchain hnodup hmem hhchain hhnodup hhmem (fun d ⟨o, h⟩ => ⟨o, (hown _ _ rfl).2 h⟩)
    (fun _ _ _ h => (hown _ _ rfl).2 h) (fun _ _ _ h => (hhown ..).2 h) (fun d o hd h i hi _ => hentry hd h rfl hi)
    (fun d o hd h i hi => ?_) (fun t d i ht h _ j hj => ?_) (fun _ _ _ _ h => .inl ((hown _ _ rfl).1 h))
    (fun f d i j hf h => ?_) fun _ _ _ _ h => .inl ((hhown ..).1 h)
  · have h' := (hown _ _ rfl).1 h
    exact .inl ⟨⟨o, h'⟩, hentry hd h' rfl hi⟩
  · have h' := (hown _ _ rfl).1 h
    exact .inl ⟨h', hentry ht h' rfl hj, fun _ _ h => (hown _ _ rfl).2 h⟩
  · exact .inl ⟨(hown _ _ rfl).1 h, fun t ht htab hj => hentry ht htab rfl hj⟩

/-- The assignment survives every change of the machine that keeps the links of
the free frames and the contents of directories and tables. -/
theorem Sys.congr {s s' : Machine} {g : Ghost} (hs : Sys s g)
    (hfree : s'.freelist = s.freelist) (hhfree : s'.freehugelist = s.freehugelist)
    (hsame : ∀ f, IsFrame f → (g.own f).structural → SameOn s.mem s'.mem f 4096)
    (hhsame : ∀ f, IsHuge f → g.hown f = .free → SameOn s.mem s'.mem f 4) : Sys s' g := by
  refine hs.remap (fun _ _ _ => Iff.rfl) (fun _ _ _ => Iff.rfl) (fun f hf hmaps => hsame f hf ?_) ?_ hs.nodup hs.mem_free
    ?_ hs.hnodup hs.mem_hfree
  · cases hrole : g.own f <;> simp_all [Role.maps, Role.structural]
  · rw [hfree]
    refine hs.chain.congr fun f hf => ?_
    obtain ⟨hframe, hrole⟩ := (hs.mem_free f).1 hf
    exact (hsame f hframe (by simp [hrole, Role.structural])).load32_eq le_rfl (by omega)
  · rw [hhfree]
    refine hs.hchain.congr fun f hf => ?_
    obtain ⟨hframe, hrole⟩ := (hs.mem_hfree f).1 hf
    exact (hhsame f hframe hrole).load32_eq le_rfl le_rfl

theorem Role.detached_of_maps {r : Role} (h : r.maps) : r.detached = false := by
  cases r <;> simp_all [Role.maps, Role.detached]

/-- A frame may change between roles that no directory knows about. Only the
free list has to be given anew. -/
theorem Sys.relabel {s s' : Machine} {g : Ghost} (hs : Sys s g) {x : Nat} {r : Role} {L : List Nat}
    (hold : (g.own x).detached) (hnew : r.detached)
    (hchain : Chain (load32 s'.mem) P2V s'.freelist L) (hnodup : L.Nodup)
    (hmem : ∀ f, f ∈ L ↔ IsFrame f ∧ update g.own x r f = .free)
    (hhchain : Chain (load32 s'.mem) P2V s'.freehugelist g.hfree)
    (hsame : ∀ f, IsFrame f → (g.own f).detached = false → SameOn s.mem s'.mem f 4096) :
    Sys s' { g with own := update g.own x r, free := L } := by
  refine hs.remap (fun f r' hr => ?_) (fun _ _ _ => Iff.rfl) (fun f hf h => hsame f hf (Role.detached_of_maps h)) hchain
    hnodup hmem hhchain hs.hnodup hs.mem_hfree
  by_cases hf : f = x
  · subst hf
    simp only [update_self]
    constructor <;> rintro rfl <;> simp_all
  · simp only [update_of_ne hf]

/-- A huge frame may change between the roles that no directory knows about. -/
theorem Sys.hrelabel {s s' : Machine} {g : Ghost} (hs : Sys s g) {x : Nat} {r : HugeRole}
    {H : List Nat} (hold : (g.hown x).detached) (hnew : r.detached)
    (hchain : Chain (load32 s'.mem) P2V s'.freelist g.free)
    (hhchain : Chain (load32 s'.mem) P2V s'.freehugelist H) (hnodup : H.Nodup)
    (hmem : ∀ f, f ∈ H ↔ IsHuge f ∧ update g.hown x r f = .free)
    (hsame : ∀ f, IsFrame f → (g.own f).detached = false → SameOn s.mem s'.mem f 4096) :
    Sys s' { g with hown := update g.hown x r, hfree := H } := by
  refine hs.remap (fun _ _ _ => Iff.rfl) (fun f d i => ?_) (fun f hf h => hsame f hf (Role.detached_of_maps h)) hchain
    hs.nodup hs.mem_free hhchain hnodup hmem
  by_cases hf : f = x
  · subst hf
    simp only [update_self]
    constructor <;> intro h <;> simp_all [HugeRole.detached]
  · simp only [update_of_ne hf]

end xv6
