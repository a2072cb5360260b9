import Xv6.Lib.Refcount
import Xv6.System.Sound

open bytes outcome refcount Function

namespace xv6

/-- The parts of a process record that the invariant reads. -/
structure SameSlot (a b : Proc) : Prop where
  pgdir : b.pgdir = a.pgdir
  sz : b.sz = a.sz
  hugesz : b.hugesz = a.hugesz
  kstack : b.kstack = a.kstack
  state : b.state = a.state

/-- A step that keeps the invariant, the places of the huge frames and the memory of the processes. -/
structure Calm (s : Machine) (g : Ghost) (s' : Machine) (g' : Ghost) : Prop where
  sound : Sound s' g'
  hown : ∀ f, IsHuge f → g'.hown f = g.hown f
  slot : ∀ q, SameSlot (s.proc q) (s'.proc q)
  user : ∀ q, (s.proc q).state ≠ .UNUSED → SameUser (V2P (s.proc q).pgdir) s.mem s'.mem
  cr3 : s'.cr3 = s.cr3
  initproc : s'.initproc = s.initproc

theorem SameSlot.refl (a : Proc) : SameSlot a a := ⟨rfl, rfl, rfl, rfl, rfl⟩

theorem SameSlot.trans {a b c : Proc} (h : SameSlot a b) (h' : SameSlot b c) : SameSlot a c :=
  ⟨h'.pgdir.trans h.pgdir, h'.sz.trans h.sz, h'.hugesz.trans h.hugesz, h'.kstack.trans h.kstack, h'.state.trans h.state⟩

theorem Calm.refl {s : Machine} {g : Ghost} (h : Sound s g) : Calm s g s g :=
  ⟨h, fun _ _ => rfl, fun _ => .refl _, fun _ _ => .refl _ _, rfl, rfl⟩

theorem Calm.trans {s s' s'' : Machine} {g g' g'' : Ghost} (h : Calm s g s' g') (h' : Calm s' g' s'' g'') : Calm s g s'' g'' where
  sound := h'.sound
  hown f hf := (h'.hown f hf).trans (h.hown f hf)
  slot q := (h.slot q).trans (h'.slot q)
  user q hlive := by
    have hrest := h'.user q (by rwa [(h.slot q).state])
    rw [(h.slot q).pgdir] at hrest
    exact (h.user q hlive).trans hrest
  cr3 := h'.cr3.trans h.cr3
  initproc := h'.initproc.trans h.initproc

section slots

variable {s s' : Machine} {g g' : Ghost} {x : Nat} {p : Fin NPROC}

theorem ProcInv.slot (h : ProcInv s g p) (hmem : s'.mem = s.mem) (hslot : SameSlot (s.proc p) (s'.proc p)) :
    ProcInv s' g p := by
  refine ⟨?_, ?_, ?_, ?_, ?_⟩ <;> rw [hslot.state]
  · intro hlive
    obtain ⟨d, hd⟩ := h.dir hlive
    exact ⟨d, hd.frame, hd.role, hslot.pgdir.trans hd.pgdir, hmem ▸ hd.kern, by
      rw [hslot.sz, hslot.hugesz, hmem]
      exact hd.layout⟩
  · rw [hslot.pgdir]
    exact h.dir_of
  · rw [hslot.kstack]
    exact h.kstack
  · rw [hslot.kstack]
    exact h.kstack_of
  · exact h.embryo

/-- Only process records and files have changed, the records in parts that do not matter here. -/
theorem Sound.tables (h : Sound s g) (heq : s' = { s with proc := s'.proc, file := s'.file })
    (hslot : ∀ q, SameSlot (s.proc q) (s'.proc q)) (hfiles : FileInv s' g) : Calm s g s' g := by
  have hmem : s'.mem = s.mem := by rw [heq]
  have hkern := h.kern
  have hcpu := h.cpu
  refine ⟨⟨h.sys.congr_mem hmem (by rw [heq]) (by rw [heq]), h.settled, ?_, fun q => (h.proc q).slot hmem (hslot q), ?_, hfiles⟩,
    fun _ _ => rfl, hslot, fun q _ => ?_, by rw [heq], by rw [heq]⟩
  · refine ⟨?_, ?_⟩ <;> rw [heq]
    · exact hkern.dir
    · exact hkern.dir_of
  · refine ⟨?_, ?_, ?_⟩ <;> rw [heq]
    · exact hcpu.nodup
    · exact hcpu.stack
    · exact hcpu.stack_of
  · rw [hmem]
    exact .refl _ _

/-- The end of a pipe that an entry of the file table is. -/
def pipeEnd (file : File) : Option (Nat × Bool) :=
  if file.type = .FD_PIPE then some (file.pipe, file.writable) else none

/-- End `e.2` of the pipe in the page at `e.1` is open. -/
def OpenEnd (m : Mem) (g : Ghost) (e : Nat × Bool) : Prop :=
  ∃ x, IsFrame x ∧ g.own x = .pipe ∧ e.1 = P2V x ∧ openFlag m x e.2 ≠ 0

theorem pipeEnd_eq_some {file : File} {e : Nat × Bool} :
    pipeEnd file = some e ↔ file.type = .FD_PIPE ∧ file.pipe = e.1 ∧ file.writable = e.2 := by
  unfold pipeEnd
  split_ifs with htype <;> simp [htype, Prod.ext_iff]

/-- The file table names the open ends of the pipes. -/
theorem fileInv_iff : FileInv s g ↔ (∀ f, (s.file f).ref = 0 → pipeEnd (s.file f) = none) ∧
    Names (fun f => pipeEnd (s.file f)) (OpenEnd s.mem g) ∧
    ∀ x, IsFrame x → g.own x = .pipe → ∃ w, openFlag s.mem x w ≠ 0 := by
  constructor
  · intro h
    refine ⟨fun f href => if_neg (h.closed f href), ⟨fun f e he => ?_, fun f f' e he he' => ?_, ?_⟩, h.held⟩
    · obtain ⟨htype, hpipe, hw⟩ := pipeEnd_eq_some.1 he
      rw [OpenEnd, ← hpipe, ← hw]
      exact h.pipe f htype
    · obtain ⟨htype, hpipe, hw⟩ := pipeEnd_eq_some.1 he
      obtain ⟨htype', hpipe', hw'⟩ := pipeEnd_eq_some.1 he'
      exact h.inj f f' htype htype' (hpipe.trans hpipe'.symm) (hw.trans hw'.symm)
    · rintro e ⟨x, hx, hrole, haddr, hopen⟩
      obtain ⟨f, htype, hw, hpipe⟩ := h.end_of x e.2 hx hrole hopen
      exact ⟨f, pipeEnd_eq_some.2 ⟨htype, hpipe.trans haddr.symm, hw⟩⟩
  · rintro ⟨hclosed, hnames, hheld⟩
    have hend {f : Fin NFILE} (htype : (s.file f).type = .FD_PIPE) :
        pipeEnd (s.file f) = some ((s.file f).pipe, (s.file f).writable) := if_pos htype
    refine ⟨fun f href htype => ?_, fun f htype => hnames.named f _ (hend htype), fun f f' htype htype' hpipe hw => ?_,
      fun x w hx hrole hopen => ?_, hheld⟩
    · have := hclosed f href
      rw [hend htype] at this
      cases this
    · exact hnames.inj f f' _ (hend htype) (by rw [hpipe, hw]; exact hend htype')
    · obtain ⟨f, hf⟩ := hnames.entry (P2V x, w) ⟨x, hx, hrole, rfl, hopen⟩
      obtain ⟨htype, hpipe, hw⟩ := pipeEnd_eq_some.1 hf
      exact ⟨f, htype, hw, hpipe⟩

/-- The entries are the ends that they were. -/
theorem FileInv.congr (h : FileInv s g) (hmem : s'.mem = s.mem)
    (hfile : ∀ f, pipeEnd (s'.file f) = pipeEnd (s.file f) ∧ ((s'.file f).ref = 0 → (s.file f).type ≠ .FD_PIPE)) :
    FileInv s' g := by
  obtain ⟨-, hnames, hheld⟩ := fileInv_iff.1 h
  refine fileInv_iff.2 ⟨fun f href => ?_, ?_, by rwa [hmem]⟩
  · rw [(hfile f).1]
    exact if_neg ((hfile f).2 href)
  · rw [hmem, funext fun f => (hfile f).1]
    exact hnames

/-- An entry is changed, and it is the end that it was. -/
theorem FileInv.set (h : FileInv s g) {f : Fin NFILE} {file : File} (hmem : s'.mem = s.mem)
    (hfile : s'.file = update s.file f file) (hend : pipeEnd file = pipeEnd (s.file f))
    (href : file.ref = 0 → (s.file f).type ≠ .FD_PIPE) : FileInv s' g := by
  refine h.congr hmem fun f' => ?_
  rw [hfile, update_apply]
  split_ifs with hf
  · exact hf ▸ ⟨hend, href⟩
  · exact ⟨rfl, h.closed f'⟩

/-- Whether an end of the pipe in page `x` is open. -/
theorem openEnd_iff (hx : IsFrame x) (m : Mem) (w : Bool) : OpenEnd m g (P2V x, w) ↔ g.own x = .pipe ∧ openFlag m x w ≠ 0 := by
  refine ⟨?_, fun h => ⟨x, hx, h.1, rfl, h.2⟩⟩
  rintro ⟨y, hy, hrole, haddr, hopen⟩
  obtain rfl := hx.inj hy haddr
  exact ⟨hrole, hopen⟩

/-- The page `x` may have changed, and the table names the ends of that pipe that are now open. -/
theorem FileInv.page (h : FileInv s g) (hx : IsFrame x) (hother : ∀ y, IsFrame y → y ≠ x →
      (g'.own y = .pipe ↔ g.own y = .pipe) ∧ ∀ w, openFlag s'.mem y w = openFlag s.mem y w)
    (hclosed : ∀ f, (s'.file f).ref = 0 → pipeEnd (s'.file f) = none)
    (hheld : g'.own x = .pipe → ∃ w, openFlag s'.mem x w ≠ 0)
    (hnames : Names (fun f => pipeEnd (s'.file f)) fun e =>
      if e.1 = P2V x then g'.own x = .pipe ∧ openFlag s'.mem x e.2 ≠ 0 else OpenEnd s.mem g e) : FileInv s' g' := by
  refine fileInv_iff.2 ⟨hclosed, hnames.congr fun e => ?_, fun y hy hrole => ?_⟩
  · obtain ⟨a, w⟩ := e
    simp only []
    split_ifs with he
    · rw [he]
      exact (openEnd_iff hx _ w).symm
    · refine exists_congr fun y => and_congr_right fun hy => ?_
      by_cases hyx : y = x
      · simp [hyx, he]
      · rw [(hother y hy hyx).1, (hother y hy hyx).2]
  · by_cases hyx : y = x
    · exact hyx ▸ hheld (hyx ▸ hrole)
    · obtain ⟨w, hopen⟩ := h.held y hy (((hother y hy hyx).1).1 hrole)
      exact ⟨w, by rwa [(hother y hy hyx).2]⟩

/-- A change of process records in parts that do not matter here. -/
theorem Sound.reslot (h : Sound s g) (heq : s' = { s with proc := s'.proc }) (hslot : ∀ q, SameSlot (s.proc q) (s'.proc q)) :
    Calm s g s' g := h.tables (by rw [heq]) hslot (h.files.congr (by rw [heq]) fun f => by rw [heq]; exact ⟨rfl, h.files.closed f⟩)

/-- A step on a page that holds a pipe before or after. -/
theorem Sound.pipe_step (h : Sound s g) {t : Machine} (hw : Within (WholeArea x) (fun _ => False) s g t g') (ht : Sys t g')
    (hx : g.own x = .pipe ∨ g.own x = .free) (hx' : g'.own x = .pipe ∨ g'.own x = .free)
    (heq : s' = { t with file := s'.file }) (hfiles : FileInv s' g') : Calm s g s' g' := by
  have hfix : (g.own x).fixed ∨ g.own x = .free := hx.imp (fun h => by simp [h, Role.fixed]) id
  have hne {r : Role} (hr : r ≠ .pipe) (hr' : r ≠ .free) : g.own x ≠ r ∧ g'.own x ≠ r := by
    rcases hx with hx | hx <;> rcases hx' with hx' | hx' <;> rw [hx, hx'] <;> exact ⟨by tauto, by tauto⟩
  have hkern := h.kern.within h.sys hw (hne (by simp) (by simp)).1 (hne (by simp) (by simp)).2 hfix
  have hproc (q : Fin NPROC) := (h.proc q).within h.sys hw
    ⟨(hne (by simp) (by simp)).1, (hne (by simp) (by simp)).1⟩ ⟨(hne (by simp) (by simp)).2, (hne (by simp) (by simp)).2⟩ hfix
  have hcpu := h.cpu.within hw (hne (by simp) (by simp)).1 (hne (by simp) (by simp)).2
  have hmem : s'.mem = t.mem := by rw [heq]
  have hrec : s'.proc = s.proc := by rw [heq, hw.rest]
  have hsettled := settled_within h.settled hw
    ⟨(hne (by simp) (by simp)).2, (hne (by simp) (by simp)).2⟩
  refine ⟨⟨ht.congr_mem hmem (by rw [heq]) (by rw [heq]), hsettled, ?_, fun q => ?_, ?_, hfiles⟩, fun f hf => ?_,
    fun q => hrec ▸ .refl _, fun q hlive => ?_, by rw [heq, hw.rest], by rw [heq, hw.rest]⟩
  · refine ⟨?_, ?_⟩ <;> rw [heq]
    · exact hkern.dir
    · exact hkern.dir_of
  · exact (hproc q).congr hmem (by rw [heq])
  · refine ⟨?_, ?_, ?_⟩ <;> rw [heq]
    · exact hcpu.nodup
    · exact hcpu.stack
    · exact hcpu.stack_of
  · rcases hw.hrole f hf with ⟨hfalse, -⟩ | heq
    · exact hfalse.elim
    · exact heq
  · obtain ⟨d, hd⟩ := (h.proc q).dir hlive
    have hdx : d ≠ x := by
      rintro rfl
      exact (hne (by simp) (by simp)).1 hd.role
    rw [hd.phys, hmem]
    exact hw.sameUser h.sys ht hd.frame hd.role hd.kern hdx hfix fun _ => id

end slots

section close

variable {s s' : Machine} {g g' : Ghost} {x : Nat} {f : Fin NFILE} {w : Bool} {file : File}

/-- Entry `f` of the file table, which was the end `w` of the pipe in page `x`, has been
cleared. The page is kept with that end closed, or it is given up if the other one is closed too. -/
theorem FileInv.close (h : FileInv s g) (hx : IsFrame x) (hend : pipeEnd (s.file f) = some (P2V x, w))
    (hfile : s'.file = update s.file f file) (hnone : pipeEnd file = none)
    (hother : ∀ y, IsFrame y → y ≠ x → (g'.own y = .pipe ↔ g.own y = .pipe) ∧
      ∀ w', openFlag s'.mem y w' = openFlag s.mem y w')
    (hpage : (g'.own x = .pipe ∧ openFlag s'.mem x w = 0 ∧ openFlag s'.mem x (!w) = openFlag s.mem x (!w) ∧
      openFlag s.mem x (!w) ≠ 0) ∨ (g'.own x ≠ .pipe ∧ openFlag s.mem x (!w) = 0)) : FileInv s' g' := by
  obtain ⟨hclosed, hnames, -⟩ := fileInv_iff.1 h
  have hrole := ((openEnd_iff hx _ w).1 (hnames.named f _ hend)).1
  have hends : (fun f' => pipeEnd (s'.file f')) = update (fun f' => pipeEnd (s.file f')) f none := by
    funext f'
    rw [hfile, update_apply, update_apply]
    split_ifs
    · exact hnone
    · rfl
  refine h.page hx hother (fun f' href => ?_) (fun hpipe => ?_) (hends ▸ (hnames.erase hend).congr fun e => ?_)
  · rw [hfile, update_apply] at href ⊢
    split_ifs at href ⊢
    · exact hnone
    · exact hclosed f' href
  · rcases hpage with ⟨-, -, hflag, hopen⟩ | ⟨hgone, -⟩
    · exact ⟨!w, by rwa [hflag]⟩
    · exact absurd hpipe hgone
  · obtain ⟨a, w'⟩ := e
    simp only []
    split_ifs with he
    · rw [he, openEnd_iff hx]
      -- The end that is left is the other one.
      by_cases hw : w' = w
      · subst hw
        rcases hpage with ⟨-, hz, -, -⟩ | ⟨hgone, -⟩
        · simp [hz]
        · simp [hgone]
      · rw [Bool.eq_not.2 hw]
        rcases hpage with ⟨hkept, -, hflag, -⟩ | ⟨hgone, hz⟩
        · simp [hrole, hkept, hflag]
        · simp [hgone, hz]
    · exact and_iff_left fun heq => he (congrArg Prod.fst heq)

theorem openFlag_store_same (m : Mem) (x : Nat) (w : Bool) (v : Nat) (hv : v < 2 ^ 32) :
    openFlag (store32 m (x + if w then pipe.writeopen else pipe.readopen) v) x w = v := load32_store32_same m _ hv

theorem openFlag_store_other (m : Mem) (x : Nat) (w : Bool) (v : Nat) :
    openFlag (store32 m (x + if w then pipe.writeopen else pipe.readopen) v) x (!w) = openFlag m x (!w) := by
  refine load32_store32_ne m ?_
  cases w <;> simp [pipe.writeopen, pipe.readopen]

/-- A store into the page of a pipe. -/
theorem Sound.store_pipe (h : Sound s g) (hx : IsFrame x) (hrole : g.own x = .pipe) {off : Nat} (hoff : off + 4 ≤ 4096)
    (v : Nat) :
    Sys { s with mem := store32 s.mem (x + off) v } g ∧
      Within (WholeArea x) (fun _ => False) s g { s with mem := store32 s.mem (x + off) v } g ∧
      ∀ y, IsFrame y → y ≠ x → SameOn s.mem (store32 s.mem (x + off) v) y 4096 := by
  have hxlt := hx.lt
  have hsame (y : Nat) (hy : IsFrame y) (hne : y ≠ x) : SameOn s.mem (store32 s.mem (x + off) v) y 4096 :=
    store32_sameOn _ (by have := hx.apart hy hne.symm; omega)
  have hhsame (y n : Nat) (hy : IsHuge y) : SameOn s.mem (store32 s.mem (x + off) v) y n :=
    store32_sameOn _ (by have := hx.apart_huge hy; omega)
  refine ⟨h.sys.congr rfl rfl (fun y hy hs => hsame y hy ?_) fun y hy _ => hhsame y 4 hy, ?_, hsame⟩
  · rintro rfl
    simp [hrole, Role.structural] at hs
  · refine ⟨fun _ _ => .inr rfl, fun y hy hout => hsame y hy fun heq => hout (.inl heq), fun _ _ => .inr rfl,
      fun y hy _ => hhsame y _ hy, rfl⟩

/-- Freeing a frame with a role that no directory knows about. -/
theorem Sys.give_back (hs : Sys s g) (hx : IsFrame x) (hrole : (g.own x).detached) (hne : g.own x ≠ .free) :
    ∃ g', Sys (s.freed x) g' ∧ Within (WholeArea x) (fun _ => False) s g (s.freed x) g' ∧ g'.own x = .free ∧
      ∀ y, y ≠ x → g'.own y = g.own y := by
  have htemp : Sys s { g with own := update g.own x .temp } := by
    refine hs.relabel hrole rfl hs.chain hs.nodup (fun y => ?_) hs.hchain fun _ _ _ => SameOn.refl _ _ _
    by_cases hy : y = x
    · subst hy
      rw [hs.mem_free, update_self]
      simp [hne]
    · rw [update_of_ne hy, hs.mem_free]
  refine ⟨_, htemp.push hx (update_self _ _ _), ⟨fun y _ => ?_, fun y hy hout => freed_sameOn hx hy ?_,
    fun _ _ => .inr rfl, fun y hy _ => freed_sameOn_huge hx hy, rfl⟩, update_self _ _ _, fun y hy => ?_⟩
  · by_cases hy : y = x
    · exact .inl ⟨.inl hy, .inl hy⟩
    · exact .inr ((update_of_ne hy _ _).trans (update_of_ne hy _ _))
  · exact fun heq => hout (.inl heq)
  · exact (update_of_ne hy _ _).trans (update_of_ne hy _ _)

/-- A change of the file table alone. -/
theorem Sound.refile (h : Sound s g) (heq : s' = { s with file := s'.file }) (hfiles : FileInv s' g) : Calm s g s' g := by
  have hrec : s'.proc = s.proc := by rw [heq]
  exact h.tables (by rw [heq]) (fun q => hrec ▸ .refl _) hfiles

theorem pipeclose_run (hx : IsFrame x) (w : Bool) (s : Machine) :
    (pipeclose (P2V x) w).run s =
      .ok () (if openFlag s.mem x (!w) = 0 then
        Machine.freed { s with mem := store32 s.mem (x + if w then pipe.writeopen else pipe.readopen) 0 } x
      else { s with mem := store32 s.mem (x + if w then pipe.writeopen else pipe.readopen) 0 }) := by
  have hxlt := hx.lt
  have hread : V2P (P2V x + pipe.readopen) = x + pipe.readopen := V2P_P2V_add (by simp only [pipe.readopen]; omega)
  have hwrite : V2P (P2V x + pipe.writeopen) = x + pipe.writeopen := V2P_P2V_add (by simp only [pipe.writeopen]; omega)
  have hsame := openFlag_store_same s.mem x w 0 (by omega)
  have hother := openFlag_store_other s.mem x w 0
  unfold pipeclose
  cases w
  · simp only [openFlag, Bool.false_eq_true, if_false, Bool.not_false, if_true] at hsame hother ⊢
    rw [writeWord_bind, readWord_bind, readWord_bind, hread, hwrite, hsame, hother]
    by_cases hz : load32 s.mem (x + pipe.writeopen) = 0
    · rw [if_pos ⟨rfl, hz⟩, if_pos hz, kfree_run hx]
    · rw [if_neg fun h => hz h.2, if_neg hz, EStateM.run_pure]
  · simp only [openFlag, Bool.not_true, Bool.false_eq_true, if_false, if_true] at hsame hother ⊢
    rw [writeWord_bind, readWord_bind, readWord_bind, hread, hwrite, hsame, hother]
    by_cases hz : load32 s.mem (x + pipe.readopen) = 0
    · rw [if_pos ⟨hz, rfl⟩, if_pos hz, kfree_run hx]
    · rw [if_neg fun h => hz h.1, if_neg hz, EStateM.run_pure]

/-- Closing the last reference to one end of a pipe frees its page exactly when the other end is closed. -/
theorem Sound.pipeclose (h : Sound s g) (file : File) (hpipe : (s.file f).type = .FD_PIPE) (hnone : pipeEnd file = none) :
    ∃ s', (xv6.pipeclose (s.file f).pipe (s.file f).writable).run { s with file := update s.file f file } = .ok () s' ∧
      s'.proc = s.proc ∧ s'.file = update s.file f file ∧ ∃ g', Calm s g s' g' := by
  obtain ⟨x, hx, hrole, haddr, hopen⟩ := h.files.pipe f hpipe
  rw [haddr, pipeclose_run hx]
  generalize hw : (s.file f).writable = w at hopen
  have hoff : (if w then pipe.writeopen else pipe.readopen) + 4 ≤ 4096 := by cases w <;> simp [pipe.writeopen, pipe.readopen]
  obtain ⟨hs₁, hw₁, hsame₁⟩ := h.store_pipe hx hrole hoff 0
  have hflag (y : Nat) (hy : IsFrame y) (hne : y ≠ x) (w' : Bool) :
      openFlag (store32 s.mem (x + if w then pipe.writeopen else pipe.readopen) 0) y w' = openFlag s.mem y w' :=
    openFlag_eq (hsame₁ y hy hne) w'
  by_cases hz : openFlag s.mem x (!w) = 0
  · simp only [if_pos hz]
    obtain ⟨g', hs', hw', hfree, hown⟩ := hs₁.give_back hx (by simp [hrole, Role.detached]) (by simp [hrole])
    refine ⟨_, rfl, rfl, rfl, g', h.pipe_step (hw₁.trans hw') hs' (.inl hrole) (.inr hfree) rfl
      (h.files.close hx (pipeEnd_eq_some.2 ⟨hpipe, haddr, hw⟩) rfl hnone (fun y hy hne => ⟨by rw [hown y hne], fun w' => ?_⟩)
        (.inr ⟨by simp [hfree], hz⟩))⟩
    rw [← hflag y hy hne w']
    exact openFlag_eq (freed_sameOn hx hy hne) w'
  · simp only [if_neg hz]
    refine ⟨_, rfl, rfl, rfl, g, h.pipe_step hw₁ hs₁ (.inl hrole) (.inl hrole) rfl
      (h.files.close hx (pipeEnd_eq_some.2 ⟨hpipe, haddr, hw⟩) rfl hnone (fun y hy hne => ⟨Iff.rfl, fun w' => ?_⟩)
        (.inl ⟨hrole, ?_, ?_, hz⟩))⟩
    · exact hflag y hy hne w'
    · exact openFlag_store_same s.mem x w 0 (by omega)
    · exact openFlag_store_other s.mem x w 0

end close

section make

variable {s s' : Machine} {g g' : Ghost} {x : Nat} {f f₀ f₁ : Fin NFILE} {file₀ file₁ : File}

/-- The entries of two files that are no pipe ends become the two ends of a new pipe. -/
theorem FileInv.make (h : FileInv s g) (hx : IsFrame x) (hfree : g.own x ≠ .pipe) (hne : f₀ ≠ f₁)
    (hold₀ : pipeEnd (s.file f₀) = none) (hold₁ : pipeEnd (s.file f₁) = none)
    (hfile : s'.file = update (update s.file f₀ file₀) f₁ file₁) (href₀ : file₀.ref ≠ 0) (href₁ : file₁.ref ≠ 0)
    (hend₀ : pipeEnd file₀ = some (P2V x, false)) (hend₁ : pipeEnd file₁ = some (P2V x, true)) (hrole : g'.own x = .pipe)
    (hflag : ∀ w, openFlag s'.mem x w ≠ 0)
    (hother : ∀ y, IsFrame y → y ≠ x → (g'.own y = .pipe ↔ g.own y = .pipe) ∧
      ∀ w, openFlag s'.mem y w = openFlag s.mem y w) : FileInv s' g' := by
  obtain ⟨hclosed, hnames, -⟩ := fileInv_iff.1 h
  have hshut (w : Bool) : ¬ OpenEnd s.mem g (P2V x, w) := fun hopen => hfree ((openEnd_iff hx _ w).1 hopen).1
  have hends : (fun f => pipeEnd (s'.file f)) =
      update (update (fun f => pipeEnd (s.file f)) f₀ (some (P2V x, false))) f₁ (some (P2V x, true)) := by
    funext f
    rw [hfile]
    simp only [update_apply]
    split_ifs
    · exact hend₁
    · exact hend₀
    · rfl
  have hnames' := (hnames.insert hold₀ (hshut false)).insert (i := f₁) (b := (P2V x, true)) (by rwa [update_of_ne hne.symm])
    (by simp [hshut])
  refine h.page hx hother (fun f href => ?_) (fun _ => ⟨true, hflag true⟩) (hends ▸ hnames'.congr fun e => ?_)
  · rw [hfile] at href ⊢
    simp only [update_apply] at href ⊢
    split_ifs at href ⊢
    · exact absurd href href₁
    · exact absurd href href₀
    · exact hclosed f href
  · obtain ⟨a, w⟩ := e
    simp only []
    split_ifs with he
    · simp only [he, hshut, hrole, hflag, Prod.mk.injEq, true_and, false_or, ne_eq, not_false_eq_true, and_self, iff_true]
      cases w <;> simp
    · simp [he]

/-- The page of a new pipe, with both ends open. -/
def pipePage (m : Mem) (x : Nat) : Mem :=
  store32 (store32 (store32 (store32 m (x + pipe.readopen) 1) (x + pipe.writeopen) 1) (x + pipe.nwrite) 0) (x + pipe.nread) 0

theorem openFlag_pipePage (m : Mem) (x : Nat) (w : Bool) : openFlag (pipePage m x) x w = 1 := by
  have hread : load32 (pipePage m x) (x + pipe.readopen) = 1 := by
    unfold pipePage pipe.readopen pipe.writeopen pipe.nwrite pipe.nread
    rw [load32_store32_ne _ (by omega), load32_store32_ne _ (by omega), load32_store32_ne _ (by omega),
      load32_store32_same _ _ (by omega)]
  have hwrite : load32 (pipePage m x) (x + pipe.writeopen) = 1 := by
    unfold pipePage pipe.readopen pipe.writeopen pipe.nwrite pipe.nread
    rw [load32_store32_ne _ (by omega), load32_store32_ne _ (by omega), load32_store32_same _ _ (by omega)]
  cases w
  · exact hread
  · exact hwrite

theorem pipePage_sameOn {m : Mem} {y n : Nat} (h : y + n ≤ x ∨ x + 4096 ≤ y) : SameOn m (pipePage m x) y n := by
  unfold pipePage
  refine (((store32_sameOn _ ?_).trans (store32_sameOn _ ?_)).trans (store32_sameOn _ ?_)).trans (store32_sameOn _ ?_)
  all_goals
    simp only [pipe.readopen, pipe.writeopen, pipe.nwrite, pipe.nread]
    omega

/-- Frame `x` leaves the free list and becomes the page of a pipe with ends `f₀` and `f₁`. -/
def Machine.piped (s : Machine) (f₀ f₁ : Fin NFILE) (x : Nat) : Machine :=
  let end₀ := { s.file f₀ with type := .FD_PIPE, readable := true, writable := false, pipe := P2V x }
  let end₁ := { s.file f₁ with type := .FD_PIPE, readable := false, writable := true, pipe := P2V x }
  { s with mem := pipePage s.mem x, freelist := load32 s.mem x, file := update (update s.file f₀ end₀) f₁ end₁ }

/-- The last part of `pipealloc`: a page for two files that have just been taken. -/
theorem pipealloc_make (h : Sound s g) (hne : f₀ ≠ f₁) (hold₀ : pipeEnd (s.file f₀) = none)
    (hold₁ : pipeEnd (s.file f₁) = none) (href₀ : (s.file f₀).ref ≠ 0) (href₁ : (s.file f₁).ref ≠ 0)
    {L : List Nat} (hfree : g.free = x :: L) : ∃ g', Calm s g (s.piped f₀ f₁ x) g' := by
  obtain ⟨hx, hrole⟩ := (h.sys.mem_free x).1 (by simp [hfree])
  have hxlt := hx.lt
  have htake := h.sys.take hfree (r := .pipe) rfl (by simp)
  have hw₁ := within_take s g x (load32 s.mem x) .pipe L
  generalize hg' : ({ g with own := update g.own x .pipe, free := L } : Ghost) = g' at htake hw₁
  have hrole' : g'.own x = .pipe := by
    rw [← hg']
    exact update_self _ _ _
  have hown (y : Nat) (hy : y ≠ x) : g'.own y = g.own y := by
    rw [← hg']
    exact update_of_ne hy _ _
  have hsame (y : Nat) (hy : IsFrame y) (hyx : y ≠ x) : SameOn s.mem (pipePage s.mem x) y 4096 :=
    pipePage_sameOn (by have := hx.apart hy hyx.symm; omega)
  have hhsame (y n : Nat) (hy : IsHuge y) : SameOn s.mem (pipePage s.mem x) y n :=
    pipePage_sameOn (.inr (hx.apart_huge hy))
  have ht : Sys { s with mem := pipePage s.mem x, freelist := load32 s.mem x } g' := by
    refine htake.congr rfl rfl (fun y hy hstruct => hsame y hy ?_) fun y hy _ => hhsame y 4 hy
    rintro rfl
    simp [hrole', Role.structural] at hstruct
  have hw : Within (WholeArea x) (fun _ => False) s g { s with mem := pipePage s.mem x, freelist := load32 s.mem x } g' :=
    ⟨hw₁.role, fun y hy hout => hsame y hy fun heq => hout (.inl heq), hw₁.hrole, fun y hy _ => hhsame y _ hy, rfl⟩
  refine ⟨g', h.pipe_step hw ht (.inr hrole) (.inl hrole') rfl (h.files.make hx (by simp [hrole]) hne hold₀ hold₁
    rfl href₀ href₁ rfl rfl hrole' (fun w => ?_) fun y hy hyx => ⟨by rw [hown y hyx], openFlag_eq (hsame y hy hyx)⟩)⟩
  unfold Machine.piped
  rw [openFlag_pipePage]
  decide

end make

end xv6
