import Xv6.System.CopySpace

open bytes outcome refcount Function

namespace xv6

section dup

variable {s s' : Machine} {e : Fin NFILE → Nat} {p np : Fin NPROC}

/-- Descriptors of process `np` and the reference counts of the files have changed. -/
structure Duplicated (np : Fin NPROC) (s s' : Machine) : Prop where
  rest : s' = { s with proc := update s.proc np { s.proc np with ofile := (s'.proc np).ofile }, file := s'.file }
  file : ∀ f, pipeEnd (s'.file f) = pipeEnd (s.file f) ∧ ((s'.file f).ref = 0 → (s.file f).ref = 0)

theorem Duplicated.refl (np : Fin NPROC) (s : Machine) : Duplicated np s s where
  rest := by simp only [update_eq_self]
  file f := ⟨rfl, id⟩

theorem Duplicated.trans {s'' : Machine} (h : Duplicated np s s') (h' : Duplicated np s' s'') : Duplicated np s s'' where
  rest := by
    rw [h'.rest, h.rest]
    simp only [update_idem, update_self]
  file f := ⟨(h'.file f).1.trans (h.file f).1, fun hz => (h.file f).2 ((h'.file f).2 hz)⟩

theorem Duplicated.other (h : Duplicated np s s') {q : Fin NPROC} (hq : q ≠ np) : s'.proc q = s.proc q := by
  rw [h.rest]
  exact update_of_ne hq _ _

theorem Duplicated.state (h : Duplicated np s s') : (s'.proc np).state = (s.proc np).state := by
  rw [h.rest]
  simp only [update_self]

/-- One round of the loop of `fork`. -/
theorem fork_dup_round {fd : Fin NOFILE} {f : Fin NFILE} (hc : Counted s e)
    (hopen : (s.proc np).state ≠ .UNUSED ∧ (s.proc np).state ≠ .ZOMBIE) (hfd : (s.proc p).ofile fd = some f)
    (hnone : (s.proc np).ofile fd = none) :
    ∃ s₁, (filedup f).run s = .ok f s₁ ∧ s₁.proc = s.proc ∧ Duplicated np s (s₁.setFile np fd (some f)) ∧
      Counted (s₁.setFile np fd (some f)) e := by
  have hpos : 0 < (s.file f).ref := hc.exact.pos_of_held (i := (p, fd)) hfd
  refine ⟨s.dup f, filedup_run hpos, rfl, ⟨?_, dup_file hpos⟩, (hc.dup f).take hopen hnone⟩
  simp only [Machine.setFile, Machine.dup, update_self]

/-- The loop of `fork` gives the child a reference for each descriptor of the parent. -/
theorem fork_dup (hne : p ≠ np) (fds : List (Fin NOFILE)) (hnodup : fds.Nodup) (s : Machine) (hc : Counted s e)
    (hopen : (s.proc np).state ≠ .UNUSED ∧ (s.proc np).state ≠ .ZOMBIE) (hnone : ∀ fd ∈ fds, (s.proc np).ofile fd = none) :
    ∃ s', (fork.dup p np fds).run s = .ok () s' ∧ Duplicated np s s' ∧ Counted s' e ∧
      ∀ fd, (s'.proc np).ofile fd = if fd ∈ fds then (s.proc p).ofile fd else (s.proc np).ofile fd := by
  induction fds generalizing s with
  | nil => exact ⟨s, rfl, .refl np s, hc, by simp⟩
  | cons fd fds ih =>
    obtain ⟨hfresh, hnodup⟩ := List.nodup_cons.1 hnodup
    have hfd := hnone fd (by simp)
    unfold fork.dup
    rw [get_bind]
    cases hof : (s.proc p).ofile fd with
    | none =>
      obtain ⟨s', hrun, hdup, hc', hofile⟩ := ih hnodup s hc hopen fun i hi => hnone i (by simp [hi])
      refine ⟨s', hrun, hdup, hc', fun i => ?_⟩
      rw [hofile i]
      by_cases hi : i = fd
      · rw [hi, if_neg hfresh, if_pos (by simp), hfd, hof]
      · simp [hi]
    | some f =>
      obtain ⟨s₁, hrun₁, hproc₁, hdup₁, hc₁⟩ := fork_dup_round hc hopen hof hfd
      have hset (i : Fin NOFILE) : ((s₁.setFile np fd (some f)).proc np).ofile i =
          if i = fd then some f else (s.proc np).ofile i := by
        simp only [Machine.setFile, update_self, hproc₁, update_apply]
      obtain ⟨s', hrun, hdup, hc', hofile⟩ := ih hnodup _ hc₁ (hdup₁.state ▸ hopen) fun i hi => by
        rw [hset i, if_neg (by rintro rfl; exact hfresh hi)]
        exact hnone i (by simp [hi])
      refine ⟨s', ?_, hdup₁.trans hdup, hc', fun i => ?_⟩
      · simp only []
        rw [bind_ok hrun₁, bind_ok (updateProc_setFile s₁ np fd (some f)), hrun]
      · rw [hofile i, hset i, hdup₁.other hne]
        by_cases hi : i = fd
        · rw [hi, if_neg hfresh, if_pos rfl, if_pos (by simp), hof]
        · simp [hi]

end dup

/-- The byte that a user of directory `d` reads at address `va`; `none` where the access faults. -/
def userByte (m : Mem) (d va : Nat) : Option UInt8 := (userAccess m d va).map m

section twin

variable {s s' : Machine} {g g' : Ghost} {p d sz hugesz va : Nat} {o o' : DirOwner}

theorem userByte_base {f fl : Nat} (m : Mem) (htrans : translate m d va =
    some ⟨f + va % 4096, false, fl, hasFlag fl PTE_W, hasFlag fl PTE_U⟩) :
    userByte m d va = if hasFlag fl PTE_U then some (m (f + va % 4096)) else none := by
  simp only [userByte, userAccess, htrans]
  split_ifs <;> rfl

theorem userByte_huge {f : Nat} (m : Mem) (htrans : translate m d va = some ⟨f + va % 0x400000, true, 0x87, true, true⟩) :
    userByte m d va = some (m (f + va % 0x400000)) := by
  rw [userByte, userAccess, htrans]
  rfl

/-- A user of the copy reads the same bytes as a user of the original. -/
theorem Forked.userByte_eq (h : Forked p d sz hugesz s g s' g') (hs : Sys s g) (hs' : Sys s' g') (hp : IsFrame p)
    (hpdir : g.own p = .dir o) (hk : KernOK s.mem p) (hl : Layout s.mem p sz hugesz) (hva : va < 2 ^ 32) :
    userByte s'.mem d va = userByte s.mem p va := by
  by_cases hlow : va < 0x80000000
  swap
  · rw [userByte, userByte, hk.userAccess_eq_none hs hp hpdir (by omega) hva,
      h.kern.userAccess_eq_none hs' h.frame h.dir (by omega) hva]
    rfl
  -- Both map the same slots, so that an address lies in the same kind of page for both.
  have hbase : lookup s.mem p (va / 4096) ≠ 0 ↔ lookup s'.mem d (va / 4096) ≠ 0 := by
    rw [hl.base _ (by omega), h.layout.base _ (by omega)]
  have hhuge : hugeAt s.mem p (va / 0x400000) ≠ 0 ↔ hugeAt s'.mem d (va / 0x400000) ≠ 0 := by
    rw [hl.huge _ (by omega), h.layout.huge _ (by omega)]
  rcases hs.translate_user hp hpdir hlow with ⟨hnone, hz, hz'⟩ | ⟨f, fl, hf, -, hfl, hodd, hlook, hz, hsome⟩ |
    ⟨f, hf, -, hat, hz, hsome⟩
  · rcases hs'.translate_user h.frame h.dir hlow with ⟨hnone', -, -⟩ | ⟨f', fl', -, -, -, hodd', hlook', -, -⟩ |
      ⟨f', -, -, hat', -, -⟩
    · simp only [userByte, userAccess, hnone, hnone', Option.map_none]
    · exact absurd hz' (hbase.2 (by omega))
    · exact absurd hz (hhuge.2 (by omega))
  · have halign := hf.1
    rcases hs'.translate_user h.frame h.dir hlow with ⟨-, -, hy⟩ | ⟨f', fl', hf', -, hfl', -, hlook', -, hsome'⟩ |
      ⟨f', -, -, -, hy, -⟩
    · exact absurd hy (hbase.1 (by omega))
    · have halign' := hf'.1
      obtain ⟨-, hflags, hbytes⟩ := h.pages (va / 4096) ((hl.base _ (by omega)).1 (by omega))
      rw [hlook, hlook', PTE_FLAGS_add halign hfl, PTE_FLAGS_add halign' hfl'] at hflags
      rw [hlook, hlook', PTE_ADDR_add halign hfl, PTE_ADDR_add halign' hfl'] at hbytes
      rw [userByte_base _ hsome, userByte_base _ hsome', hflags, hbytes _ (Nat.mod_lt _ (by omega))]
    · exact absurd hy (hbase.1 (by omega))
  · have halign := hf.1
    rcases hs'.translate_user h.frame h.dir hlow with ⟨-, hy, -⟩ | ⟨f', fl', -, -, -, -, -, hy, -⟩ |
      ⟨f', hf', -, hat', -, hsome'⟩
    · exact absurd hy (hhuge.1 (by omega))
    · exact absurd hy (hhuge.1 (by omega))
    · have halign' := hf'.1
      obtain ⟨hlo, hhi⟩ := (hl.huge (va / 0x400000) (by omega)).1 (by omega)
      obtain ⟨-, -, hbytes⟩ := h.huges (va / 0x400000) hlo hhi
      rw [hat, hat', PTE_ADDR_add (by omega) (by omega), PTE_ADDR_add (by omega) (by omega)] at hbytes
      rw [userByte_huge _ hsome, userByte_huge _ hsome', hbytes _ (Nat.mod_lt _ (by omega))]

end twin

section slot

variable {s s₂ s' : Machine} {g g₂ : Ghost} {p np : Fin NPROC} {f d k : Nat} {L : List Nat}

theorem Sound.stillborn (h : Sound s g) (hp : (s.proc np).state = .UNUSED) :
    Kept (fun q => (s.proc q).state = .UNUSED) s g (s.stillborn np) g := by
  have haside : Aside np s g (s.stillborn np) g := (h.aside np).record rfl fun q hq => update_of_ne hq _ _
  exact (haside.kept (((h.proc np).vacant hp).inv (by simp [Machine.stillborn]))).mono fun q hq => hq ▸ hp

/-- The stack of a process is given back. -/
theorem Sys.free_stack (hs : Sys s g) (hk : IsFrame k) (hrole : g.own k = .kstack p) :
    ∃ g', Sys (s.freed k) g' ∧ Within (WholeArea k) (fun _ => False) s g (s.freed k) g' ∧ g'.own k = .free := by
  obtain ⟨g', hs', hw, hfree, -⟩ := hs.give_back hk (by simp [hrole, Role.detached]) (by simp [hrole])
  exact ⟨g', hs', hw, hfree⟩

/-- `fork` without the frames for a copy of the memory: the stack is given back, and the slot is vacant again. -/
theorem Sound.unborn (h : Sound s g) (hp : (s.proc np).state = .UNUSED) (hfree : g.free = f :: L) (hs₂ : Sys s₂ g₂)
    (hidle : Idle (s.embryo np f) (g.embryo np f L) s₂ g₂) (heq : s' = { s₂.freed f with proc := s'.proc })
    (hproc : ∀ q, q ≠ np → s'.proc q = s.proc q) (hstate : (s'.proc np).state = .UNUSED) :
    ∃ g', Kept (fun q => (s.proc q).state = .UNUSED) s g s' g' ∧ Saved g g' := by
  obtain ⟨hf, -⟩ := (h.sys.mem_free f).1 (by simp [hfree])
  have hvacant := (h.proc np).vacant hp
  have hrole₁ : (g.embryo np f L).own f = .kstack np := update_self _ _ _
  have hw₁ : Within (WholeArea f) (fun _ => False) (s.embryo np f) (g.embryo np f L) s₂ g₂ :=
    hidle.toWithin.mono (fun _ _ hr => .inr (.inl hr)) fun _ hr => hr
  obtain ⟨g', hs', hw₂, hfree'⟩ := hs₂.free_stack hf ((hidle.own_eq hf).trans hrole₁)
  have hw := hw₁.trans hw₂
  have haside : Aside np s g s' g' := ((h.embryo np hfree).step hw hs' (by simp [hrole₁, Role.Private])
    (by simp [hfree', Role.Private]) (by simp [hfree']) fun _ _ => False.elim).record (by rw [heq]) hproc
  have hback {x : Nat} {r : Role} (hx : IsFrame x) (hr : r.fixed) (hrole : g'.own x = r) : g.own x = r := by
    have hxf : x ≠ f := by
      rintro rfl
      rw [← hrole, hfree'] at hr
      cases hr
    exact (update_of_ne hxf _ _).symm.trans ((hw.own_iff hx hxf hr).1 hrole)
  have hvacant' : Vacant g' np :=
    ⟨fun x hx hrole => hvacant.dir x hx (hback hx rfl hrole), fun x hx hrole => hvacant.kstack x hx (hback hx rfl hrole)⟩
  exact ⟨g', (haside.kept (hvacant'.inv hstate)).mono fun q hq => hq ▸ hp, fun x hx htemp => hw.saved id x hx htemp⟩

end slot

/-- The record that `fork` makes for the child of process `p` in a slot; the slot keeps its `killed` flag. -/
def Proc.child (parent slot : Proc) (p : Fin NPROC) (d f pid : Nat) : Proc :=
  { parent with
    pgdir := P2V d, kstack := P2V f, state := .RUNNABLE, pid, parent := some p, tf := { parent.tf with eax := 0 },
    killed := slot.killed }

/-- Slot `np` has become a child of process `p`: it has a copy of its memory and shares its files. -/
structure Child (p np : Fin NPROC) (s s' : Machine) : Prop where
  proc : ∃ d f, s'.proc np = (s.proc p).child (s.proc np) p d f s.nextpid
  others : ∀ q, q ≠ np → s'.proc q = s.proc q
  memory : ∀ va < 2 ^ 32, userByte s'.mem (V2P (s'.proc np).pgdir) va = userByte s.mem (V2P (s.proc p).pgdir) va

/-- There is no slot for a child of process `p`, or there are not the frames for it. -/
def NoRoom (s : Machine) (g : Ghost) (p : Fin NPROC) : Prop :=
  (∀ q, (s.proc q).state ≠ .UNUSED) ∨ g.free.length ≤ copyNeed (s.proc p).sz ∨
    g.hfree = [] ∧ 0 < hugeNeed (s.proc p).hugesz

section fork

variable {s s₂ : Machine} {g g₂ : Ghost} {e : Fin NFILE → Nat} {p np : Fin NPROC} {d dp f : Nat} {L : List Nat}

theorem embryo_proc (s : Machine) (np : Fin NPROC) (f : Nat) :
    (s.embryo np f).proc np = { s.proc np with state := .EMBRYO, pid := s.nextpid, kstack := P2V f } := update_self _ _ _

theorem embryo_other {q : Fin NPROC} (hq : q ≠ np) : (s.embryo np f).proc q = s.proc q := update_of_ne hq _ _

/-- `fork` without the frames for a copy of the memory. -/
theorem fork_unborn (h : Sound s g) (hslot : (findSlot fun p => decide ((s.proc p).state = .UNUSED)) = some np)
    (hc : Counted s e) (hfree : g.free = f :: L)
    (hcopy : (copyuvm ((s.embryo np f).proc p).pgdir ((s.embryo np f).proc p).sz ((s.embryo np f).proc p).hugesz).run
      (s.embryo np f) = .ok 0 s₂) (hs₂ : Sys s₂ g₂) (hidle : Idle (s.embryo np f) (g.embryo np f L) s₂ g₂) :
    ∃ s' g', (fork p).run s = .ok (-1) s' ∧ Kept (fun q => (s.proc q).state = .UNUSED) s g s' g' ∧ Saved g g' ∧
      Counted s' e ∧ ∀ q, (s'.proc q).state = (s.proc q).state := by
  have hp : (s.proc np).state = .UNUSED := by simpa using findSlot_some hslot
  obtain ⟨hf, -⟩ := (h.sys.mem_free f).1 (by simp [hfree])
  have hproc₂ : s₂.proc = (s.embryo np f).proc := by rw [hidle.rest]
  have hkstack : (s₂.proc np).kstack = P2V f := by rw [hproc₂, embryo_proc]
  obtain ⟨s', hs'⟩ : ∃ s' : Machine, s' = { s₂.freed f with
    proc := update s₂.proc np { s₂.proc np with pgdir := 0, kstack := 0, state := .UNUSED } } := ⟨_, rfl⟩
  have hrun : (fork p).run s = .ok (-1) s' := by
    unfold fork
    rw [bind_ok (allocproc_cons h.sys hslot hfree)]
    simp only []
    rw [get_bind, bind_ok hcopy, updateProc_bind, if_pos rfl, get_bind]
    simp only [update_self, hkstack]
    rw [bind_ok (kfree_run hf _), updateProc_bind, EStateM.run_pure, hs']
    simp only [Machine.freed, update_self, update_idem]
  have hproc {q : Fin NPROC} (hq : q ≠ np) : s'.proc q = s.proc q := by
    rw [hs']
    exact (update_of_ne hq _ _).trans (by rw [hproc₂, embryo_other hq])
  have hnp : s'.proc np = { s₂.proc np with pgdir := 0, kstack := 0, state := .UNUSED } := by
    rw [hs']
    exact update_self _ _ _
  obtain ⟨g', hkept, hsaved⟩ := h.unborn hp hfree hs₂ hidle (show s' = { s₂.freed f with proc := s'.proc } by rw [hs'])
    (fun q hq => hproc hq) (by rw [hnp])
  have hstate (q : Fin NPROC) : (s'.proc q).state = (s.proc q).state ∧ (s'.proc q).ofile = (s.proc q).ofile := by
    by_cases hq : q = np
    · rw [hq, hnp, hp, hproc₂, embryo_proc]
      exact ⟨rfl, rfl⟩
    · rw [hproc hq]
      exact ⟨rfl, rfl⟩
  refine ⟨s', g', hrun, hkept, hsaved, hc.congr ?_ (fun q => (hstate q).2) (fun q hq => by rwa [(hstate q).1] at hq),
    fun q => (hstate q).1⟩
  rw [hs', hidle.rest]
  rfl

/-- What `fork` does once the memory has been copied: it fills in the record and counts the files. -/
theorem fork_born_run (hs : Sys s g) (hslot : (findSlot fun p => decide ((s.proc p).state = .UNUSED)) = some np)
    (hpn : p ≠ np) (hc : Counted s e) (hfree : g.free = f :: L)
    (hcopy : (copyuvm ((s.embryo np f).proc p).pgdir ((s.embryo np f).proc p).sz ((s.embryo np f).proc p).hugesz).run
      (s.embryo np f) = .ok (P2V d) s₂) (hd : IsFrame d) (hproc₂ : s₂.proc = (s.embryo np f).proc) (hfile : s₂.file = s.file) :
    ∃ s', (fork p).run s = .ok s.nextpid s' ∧
      s' = { s₂ with proc := update s₂.proc np ((s.proc p).child (s.proc np) p d f s.nextpid), file := s'.file } ∧
      Counted s' e ∧ ∀ f', pipeEnd (s'.file f') = pipeEnd (s.file f') ∧ ((s'.file f').ref = 0 → (s.file f').ref = 0) := by
  have hp : (s.proc np).state = .UNUSED := by simpa using findSlot_some hslot
  have hnp : s₂.proc np = { s.proc np with state := .EMBRYO, pid := s.nextpid, kstack := P2V f } := by
    rw [hproc₂, embryo_proc]
  have hpp : s₂.proc p = s.proc p := by rw [hproc₂, embryo_other hpn]
  -- The record before the files are duplicated.
  obtain ⟨s₃, hs₃⟩ : ∃ s₃ : Machine, s₃ = { s₂ with proc := update s₂.proc np { s.proc np with
    sz := (s.proc p).sz, hugesz := (s.proc p).hugesz, pgdir := P2V d, kstack := P2V f, state := .EMBRYO, pid := s.nextpid,
    parent := some p, tf := { (s.proc p).tf with eax := 0 } } } := ⟨_, rfl⟩
  have hnp₃ : s₃.proc np = { s.proc np with
      sz := (s.proc p).sz, hugesz := (s.proc p).hugesz, pgdir := P2V d, kstack := P2V f, state := .EMBRYO, pid := s.nextpid,
      parent := some p, tf := { (s.proc p).tf with eax := 0 } } := by
    rw [hs₃]
    exact update_self _ _ _
  have hproc₃ {q : Fin NPROC} (hq : q ≠ np) : s₃.proc q = s.proc q := by
    rw [hs₃]
    exact (update_of_ne hq _ _).trans (by rw [hproc₂, embryo_other hq])
  have hc₃ : Counted s₃ e := by
    refine hc.congr (by rw [hs₃, hfile]) (fun q => ?_) fun q hq => ?_
    · by_cases hqn : q = np
      · rw [hqn, hnp₃]
      · rw [hproc₃ hqn]
    · by_cases hqn : q = np
      · rw [hqn, hp]
        exact .inl rfl
      · rwa [hproc₃ hqn] at hq
  obtain ⟨s₄, hdup, hd₄, hc₄, hofile⟩ := fork_dup hpn (List.finRange NOFILE) (List.nodup_finRange _) s₃ hc₃
    (by rw [hnp₃]; simp) fun fd _ => by rw [hnp₃]; exact hc.shut np (.inl hp) fd
  have hofile₄ : (s₄.proc np).ofile = (s.proc p).ofile := by
    funext fd
    rw [hofile fd, if_pos (List.mem_finRange fd), hproc₃ hpn]
  have hnp₄ : s₄.proc np = { s₃.proc np with ofile := (s.proc p).ofile } := by
    rw [← hofile₄]
    conv_lhs => rw [hd₄.rest]
    exact update_self _ _ _
  obtain ⟨u, hu⟩ : ∃ u : Proc, u = (s.proc p).child (s.proc np) p d f s.nextpid := ⟨_, rfl⟩
  refine ⟨{ s₄ with proc := update s₄.proc np u }, ?_, ?_, ?_, fun f' => ?_⟩
  · unfold fork
    rw [bind_ok (allocproc_cons hs hslot hfree)]
    simp only []
    rw [get_bind, bind_ok hcopy, updateProc_bind, if_neg hd.ne_zero, get_bind, updateProc_bind]
    simp only [update_self, update_idem, update_of_ne hpn, hnp, hpp]
    rw [← hs₃, bind_ok hdup, updateProc_bind, get_bind, updateProc_bind, EStateM.run_pure, hu]
    simp only [update_self, update_idem, hnp₄, hnp₃, Proc.child]
  · rw [← hu, hd₄.rest, hs₃]
    simp only [update_idem]
  · refine hc₄.congr rfl (fun q => ?_) fun q hq => ?_
    · by_cases hqn : q = np
      · rw [hqn, hofile₄]
        simp [hu, Proc.child]
      · simp only [update_of_ne hqn]
    · by_cases hqn : q = np
      · rw [hqn] at hq
        simp [hu, Proc.child] at hq
      · simpa only [update_of_ne hqn] using hq
  · have := hd₄.file f'
    rwa [hs₃, hfile] at this

/-- `fork` with a copy of the memory makes a child. -/
theorem fork_born (h : Sound s g) (hslot : (findSlot fun p => decide ((s.proc p).state = .UNUSED)) = some np)
    (hpn : p ≠ np) (hw : Writable s p) (hc : Counted s e) (hfree : g.free = f :: L)
    (hdp : ProcDir (s.embryo np f) (g.embryo np f L) p dp)
    (hcopy : (copyuvm ((s.embryo np f).proc p).pgdir ((s.embryo np f).proc p).sz ((s.embryo np f).proc p).hugesz).run
      (s.embryo np f) = .ok (P2V d) s₂) (hs₂ : Sys s₂ g₂)
    (hfork : Forked dp d (s.proc p).sz (s.proc p).hugesz (s.embryo np f) (g.embryo np f L) s₂ g₂) :
    ∃ s' g', (fork p).run s = .ok s.nextpid s' ∧ Kept (fun q => (s.proc q).state = .UNUSED) s g s' g' ∧ Saved g g' ∧
      Counted s' e ∧ Writable s' np ∧ Child p np s s' := by
  have hp : (s.proc np).state = .UNUSED := by simpa using findSlot_some hslot
  have hs₁ := (h.embryo np hfree).sys
  have hproc₂ : s₂.proc = (s.embryo np f).proc := by rw [hfork.within.rest]
  obtain ⟨s', hrun, heq, hc', hfiles⟩ := fork_born_run h.sys hslot hpn hc hfree hcopy hfork.frame hproc₂
    (by rw [hfork.within.rest]; rfl)
  obtain ⟨u, hu⟩ : ∃ u : Proc, u = (s.proc p).child (s.proc np) p d f s.nextpid := ⟨_, rfl⟩
  rw [← hu] at heq
  have hother {q : Fin NPROC} (hq : q ≠ np) : update s₂.proc np u q = s.proc q := by
    rw [update_of_ne hq, hproc₂, embryo_other hq]
  -- Before the files are looked at, the child is in place.
  obtain ⟨haside, hholds⟩ := h.spawn hp hfree hfork.frame hfork.was hfork.dir hfork.within hs₂ hfork.kern
    (show { s₂ with proc := update s₂.proc np u } = _ from rfl) (fun q hq => hother hq) (by simpa [hu, Proc.child] using hfork.layout)
    (by simp [hu, Proc.child]) (by simp [hu, Proc.child])
  obtain ⟨g', hg'⟩ : ∃ g' : Ghost, g' = { g₂ with own := update g₂.own d (.dir (.proc np)) } := ⟨_, rfl⟩
  rw [← hg'] at haside hholds
  have hkept : Kept (fun q => (s.proc q).state = .UNUSED) s g { s₂ with proc := update s₂.proc np u } g' :=
    (haside.kept (hholds.inv (by simp [hu, Proc.child]) (by simp [hu, Proc.child]))).mono fun q hq => hq ▸ hp
  have hsaved : Saved g g' := fun x hx htemp => hfork.within.saved (by simp [HugeArea]) x hx (by rwa [hg'] at htemp)
  have hwrite : Writable { s₂ with proc := update s₂.proc np u } np := by
    have hw₁ : Writable (s.embryo np f) p := by
      unfold Writable
      rw [embryo_other hpn]
      exact hw
    have hflags := (writable_iff hs₁ hdp).1 hw₁
    rw [embryo_other hpn] at hflags
    refine (writable_iff hkept.sound.sys hholds.toProcDir).2 fun k hk => ?_
    simp only [update_self, hu, Proc.child] at hk
    obtain ⟨-, hcopyflags, -⟩ := hfork.pages k hk
    have := hflags k hk
    simp only [PTE_FLAGS] at hcopyflags
    simp only []
    omega
  have hcalm : Calm { s₂ with proc := update s₂.proc np u } g' s' g' := by
    refine hkept.sound.refile (by rw [heq]) (hkept.sound.files.congr (by rw [heq]) fun f' => ?_)
    have hsame : s₂.file = s.file := by
      rw [hfork.within.rest]
      rfl
    simp only [hsame]
    exact ⟨(hfiles f').1, fun hz => h.files.closed f' ((hfiles f').2 hz)⟩
  have hnp : s'.proc np = u := by
    rw [heq]
    exact update_self _ _ _
  refine ⟨s', g', hrun, hkept.trans hcalm.kept, hsaved.trans hcalm.saved, hc', ?_, ⟨d, f, hnp.trans hu⟩, fun q hq => ?_,
    fun va hva => ?_⟩
  · exact (hcalm.kept (A := fun _ => False)).writable hkept.sound id (by simp [hu, Proc.child]) hwrite
  · rw [heq]
    exact hother hq
  · have hold : (s.embryo np f).proc p = s.proc p := embryo_other hpn
    have hpgdir : V2P (s.proc p).pgdir = dp := by rw [← hold, hdp.phys]
    have hl := hdp.layout
    rw [hold] at hl
    rw [hnp, hu, hpgdir, Proc.child, hfork.frame.phys, heq]
    exact hfork.userByte_eq hs₁ hs₂ hdp.frame hdp.role hdp.kern hl hva

/-- `fork` makes a child if there is room for one, and leaves the processes as they were if not. -/
theorem fork_spec (h : Sound s g) (hlive : (s.proc p).state ≠ .UNUSED) (hw : Writable s p) (hc : Counted s e)
    (hok : g.hfree.length = 0 ∨ hugeNeed (s.proc p).hugesz ≤ g.hfree.length) :
    (NoRoom s g p ∧ ∃ s' g', (fork p).run s = .ok (-1) s' ∧ Kept (fun q => (s.proc q).state = .UNUSED) s g s' g' ∧
      Saved g g' ∧ Counted s' e ∧ ∀ q, (s'.proc q).state = (s.proc q).state) ∨
    ∃ np s' g', (s.proc np).state = .UNUSED ∧ (fork p).run s = .ok s.nextpid s' ∧
      Kept (fun q => (s.proc q).state = .UNUSED) s g s' g' ∧ Saved g g' ∧ Counted s' e ∧ Writable s' np ∧ Child p np s s' := by
  cases hslot : findSlot fun p => decide ((s.proc p).state = .UNUSED) with
  | none =>
    refine .inl ⟨.inl fun q => ?_, s, g, bind_ok (allocproc_none hslot), (Calm.refl h).kept, (Calm.refl h).saved, hc,
      fun _ => rfl⟩
    simpa using findSlot_none hslot q
  | some np =>
  have hp : (s.proc np).state = .UNUSED := by simpa using findSlot_some hslot
  have hpn : p ≠ np := by
    rintro rfl
    exact hlive hp
  cases hfree : g.free with
  | nil =>
    have hproc (q : Fin NPROC) : ((s.stillborn np).proc q).state = (s.proc q).state ∧
        ((s.stillborn np).proc q).ofile = (s.proc q).ofile := by
      by_cases hq : q = np
      · subst hq
        simp [Machine.stillborn, hp]
      · simp [Machine.stillborn, hq]
    exact .inl ⟨.inr (.inl (by simp [hfree])), s.stillborn np, g, bind_ok (allocproc_nil h.sys hslot hfree), h.stillborn hp,
      fun _ _ htemp => htemp, hc.congr rfl (fun q => (hproc q).2) (fun q hq => by rwa [(hproc q).1] at hq),
      fun q => (hproc q).1⟩
  | cons f L =>
  obtain ⟨hs₁, -, hothers₁, -⟩ := h.embryo np hfree
  obtain ⟨dp, hdp⟩ := (hothers₁.proc p hpn).dir (by rwa [embryo_other hpn])
  have hhfree : (g.embryo np f L).hfree = g.hfree := rfl
  have hlen : (g.embryo np f L).free.length + 1 = g.free.length := by rw [hfree]; rfl
  rcases copyuvm_spec hs₁ hdp.frame hdp.role hdp.layout with ⟨-, -, d, s₂, g₂, hcopy, hs₂, hfork⟩ |
    ⟨hshort, s₂, g₂, hcopy, hs₂, hidle⟩ | ⟨-, hsome, hshort, -⟩
  · rw [← hdp.pgdir] at hcopy
    rw [embryo_other hpn] at hfork
    obtain ⟨s', g', hborn⟩ := fork_born h hslot hpn hw hc hfree hdp hcopy hs₂ hfork
    exact .inr ⟨np, s', g', hp, hborn⟩
  · rw [← hdp.pgdir] at hcopy
    rw [embryo_other hpn, hhfree] at hshort
    refine .inl ⟨.inr (hshort.imp (fun hlt => ?_) id), fork_unborn h hslot hc hfree hcopy hs₂ hidle⟩
    omega
  · rw [embryo_other hpn] at hshort
    rw [hhfree] at hsome hshort
    omega

end fork

end xv6
