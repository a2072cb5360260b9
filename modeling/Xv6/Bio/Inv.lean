import Mathlib.Data.Finset.Card
import Mathlib.Data.List.Pairwise
import Xv6.Bio

open Function ring run

namespace xv6.bio

/-- The block and the buffer of a caller. -/
def Pc.block : Pc → Option (Key × Fin NBUF)
  | .user => none
  | .acquiresleep k b | .locked k b | .reading k b | .held k b | .writing k b | .released k b => some (k, b)

/-- The caller holds the sleep-lock of buffer `b`. -/
def Pc.holds : Pc → Fin NBUF → Prop
  | .locked _ b', b | .reading _ b', b | .held _ b', b | .writing _ b', b => b' = b
  | _, _ => False

/-- The places at which the buffer of a caller must be valid. -/
def Pc.returned : Pc → Bool
  | .held .. | .writing .. | .released .. => true
  | _ => false

variable {C D : Type} {s s' : Sys C D} {c c' : C} {k : Key} {b b' : Fin NBUF} {pc : Pc}
  {order : List (Fin NBUF)} {users : Fin NBUF → Finset C}

/-- A buffer that has not been used since it was last recycled. -/
def Buf.pristine (buf : Buf C D) : Prop := buf.valid = false ∧ buf.dirty = false ∧ buf.refcnt = 0

/-- The last data given for a block, or the data of the disk if none were. -/
def Sys.current (s : Sys C D) (k : Key) : D := (s.given k).getD (s.disk k)

/-- The list of the cache: a ring of all buffers, in which no later buffer holds
the block of an earlier one, except for unused buffers with the initial key. -/
structure Listed (s : Sys C D) (order : List (Fin NBUF)) : Prop where
  ring : Ring s.links order
  mem : ∀ b, b ∈ order
  first : order.Pairwise fun x y =>
    (s.buf x).key = (s.buf y).key → (s.buf y).key = (0, 0) ∧ (s.buf y).pristine

/-- References, locks and keys of the callers' buffers. -/
structure Called (s : Sys C D) (users : Fin NBUF → Finset C) : Prop where
  mem : ∀ c b, c ∈ users b ↔ ∃ k, (s.pc c).block = some (k, b)
  refcnt : ∀ b, (s.buf b).refcnt = (users b).card
  key : ∀ c k b, (s.pc c).block = some (k, b) → (s.buf b).key = k
  lock : ∀ c b, (s.buf b).lock = some c ↔ (s.pc c).holds b

/-- What the buffers and the disk hold. -/
structure Stored (s : Sys C D) : Prop where
  returned : ∀ c k b, (s.pc c).block = some (k, b) → (s.pc c).returned → (s.buf b).valid
  dirty : ∀ b, (s.buf b).dirty → (s.buf b).valid
  data : ∀ b, (s.buf b).valid → (s.buf b).data = s.current (s.buf b).key
  disk : ∀ k, s.disk k = s.current k ∨ ∃ b, (s.buf b).key = k ∧ (s.buf b).dirty

/-- The invariant of the buffer cache. -/
structure Inv (s : Sys C D) (order : List (Fin NBUF)) (users : Fin NBUF → Finset C) : Prop where
  listed : Listed s order
  called : Called s users
  stored : Stored s

@[simp, grind =] theorem buf_update (f : Buf C D → Buf C D) : (s.update b f).buf b' = if b' = b then f (s.buf b) else s.buf b' := by
  simp [Sys.update, update_apply]

@[simp, grind =] theorem buf_goto [DecidableEq C] : (s.goto c pc).buf b = s.buf b := rfl

@[simp, grind =] theorem pc_update {f : Buf C D → Buf C D} : (s.update b f).pc c = s.pc c := rfl

@[simp, grind =] theorem buf_give {d : D} : (s.give k d).buf b = s.buf b := rfl

@[simp, grind =] theorem pc_give {d : D} : (s.give k d).pc c = s.pc c := rfl

@[simp, grind =] theorem disk_goto [DecidableEq C] : (s.goto c pc).disk k = s.disk k := rfl

@[simp, grind =] theorem current_goto [DecidableEq C] : (s.goto c pc).current k = s.current k := rfl

@[simp, grind =] theorem pc_goto [DecidableEq C] : (s.goto c pc).pc c' = if c' = c then pc else s.pc c' := update_apply ..

theorem key_update {f : Buf C D → Buf C D} (hf : ∀ buf, (f buf).key = buf.key) (b' : Fin NBUF) :
    ((s.update b f).buf b').key = (s.buf b').key := by
  simp only [buf_update]
  split_ifs with hb
  · rw [hf, hb]
  · rfl

theorem Listed.apart (h : Listed s order) (hkey : (s.buf b).key = (s.buf b').key) (hne : b ≠ b') :
    (s.buf b).key = (0, 0) ∧ ((s.buf b).pristine ∨ (s.buf b').pristine) := by
  let R (x y : Fin NBUF) : Prop :=
    (s.buf x).key = (s.buf y).key → (s.buf x).key = (0, 0) ∧ ((s.buf x).pristine ∨ (s.buf y).pristine)
  have hsymm : Std.Symm R := ⟨fun x y hxy heq => by
    obtain ⟨hzero, hp⟩ := hxy heq.symm
    exact ⟨heq.trans hzero, hp.symm⟩⟩
  have hpair : order.Pairwise R := h.first.imp fun hxy heq => by
    obtain ⟨hzero, hp⟩ := hxy heq
    exact ⟨heq.trans hzero, .inr hp⟩
  exact hpair.forall (h.mem b) (h.mem b') hne hkey

/-- Two buffers in use hold different blocks. -/
theorem Listed.unique (h : Listed s order) (hkey : (s.buf b).key = (s.buf b').key) (hb : ¬ (s.buf b).pristine)
    (hb' : ¬ (s.buf b').pristine) : b = b' := by
  by_contra hne
  exact ((h.apart hkey hne).2.elim hb hb')

/-- A buffer in use changes and keeps its block. -/
theorem Listed.touch (h : Listed s order) (hb : ¬ (s.buf b).pristine) (hlinks : s'.links = s.links)
    (hother : ∀ x, x ≠ b → s'.buf x = s.buf x) (hkey : (s'.buf b).key = (s.buf b).key) : Listed s' order := by
  have hkeys (x : Fin NBUF) : (s'.buf x).key = (s.buf x).key := by
    by_cases hx : x = b
    · rw [hx, hkey]
    · rw [hother x hx]
  refine ⟨hlinks ▸ h.ring, h.mem, h.first.imp fun {x y} hxy heq => ?_⟩
  rw [hkeys, hkeys] at heq
  have hy : y ≠ b := by
    rintro rfl
    exact hb (hxy heq).2
  rw [hother y hy]
  exact hxy heq

/-- A buffer that holds the block already is the first that does. -/
theorem Listed.hit (h : Listed s order) (hfind : order.find? (fun b => decide ((s.buf b).key = k)) = some b)
    (hlinks : s'.links = s.links) (hother : ∀ x, x ≠ b → s'.buf x = s.buf x)
    (hkey : (s'.buf b).key = (s.buf b).key) : Listed s' order := by
  obtain ⟨hb, l₁, l₂, rfl, hbefore⟩ := List.find?_eq_some_iff_append.1 hfind
  simp only [decide_eq_true_eq] at hb
  have hnodup := h.ring.nodup
  rw [List.nodup_append, List.nodup_cons] at hnodup
  obtain ⟨_, ⟨hbl₂, _⟩, hdisj⟩ := hnodup
  have hkeys (x : Fin NBUF) : (s'.buf x).key = (s.buf x).key := by
    by_cases hx : x = b
    · rw [hx, hkey]
    · rw [hother x hx]
  have hkeep {x y : Fin NBUF} (hy : y ≠ b)
      (hxy : (s.buf x).key = (s.buf y).key → (s.buf y).key = (0, 0) ∧ (s.buf y).pristine) :
      (s'.buf x).key = (s'.buf y).key → (s'.buf y).key = (0, 0) ∧ (s'.buf y).pristine := by
    rw [hkeys, hkeys, hother y hy]
    exact hxy
  obtain ⟨hfirst₁, hfirst, hcross⟩ := List.pairwise_append.1 h.first
  obtain ⟨hfirstb, hfirst₂⟩ := List.pairwise_cons.1 hfirst
  have hl₂ (y : Fin NBUF) (hy : y ∈ l₂) : y ≠ b := by
    rintro rfl
    exact hbl₂ hy
  have hl₁ (y : Fin NBUF) (hy : y ∈ l₁) : y ≠ b := fun heq => hdisj y hy b (by simp) heq
  refine ⟨hlinks ▸ h.ring, h.mem, List.pairwise_append.2 ⟨?_, List.pairwise_cons.2 ⟨?_, ?_⟩, ?_⟩⟩
  · exact hfirst₁.imp_of_mem fun _ hy hxy => hkeep (hl₁ _ hy) hxy
  · exact fun y hy => hkeep (hl₂ y hy) (hfirstb y hy)
  · exact hfirst₂.imp_of_mem fun _ hy hxy => hkeep (hl₂ _ hy) hxy
  · intro x hx y hy heq
    rcases List.mem_cons.1 hy with rfl | hy
    · rw [hkeys, hkeys, hb] at heq
      simpa [heq] using hbefore x hx
    · exact hkeep (hl₂ y hy) (hcross x hx y (List.mem_cons_of_mem _ hy)) heq

/-- A recycled buffer is the only one with its new block. -/
theorem Listed.recycle (h : Listed s order) (hnone : ∀ x, (s.buf x).key ≠ k) (hlinks : s'.links = s.links)
    (hother : ∀ x, x ≠ b → s'.buf x = s.buf x) (hkey : (s'.buf b).key = k) : Listed s' order := by
  refine ⟨hlinks ▸ h.ring, h.mem, (h.first.and h.ring.nodup).imp fun {x y} hxy heq => ?_⟩
  by_cases hx : x = b <;> by_cases hy : y = b <;> grind

/-- A buffer in use moves to the front. -/
theorem Listed.front (h : Listed s order) (hb : ¬ (s.buf b).pristine) (hlinks : s'.links = (s.links.unlink b).push b)
    (hbuf : s'.buf = s.buf) : Listed s' (b :: order.erase b) := by
  have hnodup := h.ring.nodup
  refine ⟨?_, fun x => ?_, List.pairwise_cons.2 ⟨fun y hy heq => ?_, ?_⟩⟩
  · rw [hlinks]
    exact (h.ring.unlink (h.mem b)).push (by simp [hnodup.mem_erase_iff])
  · by_cases hx : x = b
    · simp [hx]
    · exact List.mem_cons_of_mem _ ((List.mem_erase_of_ne hx).2 (h.mem x))
  · rw [hbuf] at heq ⊢
    have hne : b ≠ y := by
      rintro rfl
      simp [hnodup.mem_erase_iff] at hy
    obtain ⟨hzero, hp⟩ := h.apart heq hne
    exact ⟨heq ▸ hzero, hp.resolve_left hb⟩
  · rw [hbuf]
    exact h.first.sublist List.erase_sublist

theorem Called.pristine (h : Called s users) (hc : (s.pc c).block = some (k, b)) : ¬ (s.buf b).pristine := by
  intro hp
  have hmem := (h.mem c b).2 ⟨k, hc⟩
  have hcard := Finset.card_pos.2 ⟨c, hmem⟩
  have href := h.refcnt b
  rw [hp.2.2] at href
  omega

theorem not_pristine (hb : (s.buf b).valid ∨ (s.buf b).dirty) : ¬ (s.buf b).pristine := by
  rintro ⟨hvalid, hdirty, _⟩
  simp [hvalid, hdirty] at hb

section callers

variable [DecidableEq C]

/-- A caller goes on with its buffer. -/
theorem Called.move (h : Called s users) (hc : (s.pc c).block = some (k, b)) (hpc : ∀ c', s'.pc c' = if c' = c then pc else s.pc c')
    (hblock : pc.block = some (k, b)) (href : ∀ x, (s'.buf x).refcnt = (s.buf x).refcnt)
    (hkey : ∀ x, (s'.buf x).key = (s.buf x).key) (hlock : ∀ x, (s'.buf x).lock = some c ↔ pc.holds x)
    (hlocks : ∀ c' x, c' ≠ c → ((s'.buf x).lock = some c' ↔ (s.buf x).lock = some c')) : Called s' users := by
  obtain ⟨hmem, hrefcnt, hold, hholds⟩ := h
  constructor <;> grind

/-- A caller takes a reference to buffer `b`. -/
theorem Called.enter (h : Called s users) (hc : s.pc c = .user) (hpc : ∀ c', s'.pc c' = if c' = c then .acquiresleep k b else s.pc c')
    (href : (s'.buf b).refcnt = (s.buf b).refcnt + 1) (hrefs : ∀ x, x ≠ b → (s'.buf x).refcnt = (s.buf x).refcnt)
    (hkey : (s'.buf b).key = k) (hkeys : ∀ x, 0 < (s.buf x).refcnt → (s'.buf x).key = (s.buf x).key)
    (hlock : ∀ x, (s'.buf x).lock = (s.buf x).lock) : Called s' (update users b (insert c (users b))) := by
  have hnot (x : Fin NBUF) : c ∉ users x := by simp [h.mem, hc, Pc.block]
  have hused (c' : C) (k' : Key) (x : Fin NBUF) (hc' : (s.pc c').block = some (k', x)) : 0 < (s.buf x).refcnt := by
    rw [h.refcnt]
    exact Finset.card_pos.2 ⟨c', (h.mem c' x).2 ⟨k', hc'⟩⟩
  obtain ⟨hmem, hrefcnt, hold, hholds⟩ := h
  refine ⟨fun c' x => ?_, ?_, ?_, ?_⟩
  · by_cases hcc : c' = c <;> by_cases hxb : x = b <;> simp [hpc, hcc, hxb, hmem, hc, Pc.block, eq_comm (a := b)]
  all_goals grind [Pc.block, Pc.holds]

/-- A caller gives its reference back. -/
theorem Called.leave (h : Called s users) (hc : s.pc c = .released k b) (hpc : ∀ c', s'.pc c' = if c' = c then .user else s.pc c')
    (href : (s'.buf b).refcnt = (s.buf b).refcnt - 1) (hrefs : ∀ x, x ≠ b → (s'.buf x).refcnt = (s.buf x).refcnt)
    (hkey : ∀ x, (s'.buf x).key = (s.buf x).key) (hlock : ∀ x, (s'.buf x).lock = (s.buf x).lock) :
    Called s' (update users b ((users b).erase c)) := by
  have hused : c ∈ users b := (h.mem c b).2 ⟨k, by rw [hc]; rfl⟩
  obtain ⟨hmem, hrefcnt, hold, hholds⟩ := h
  constructor <;> grind [Pc.block, Pc.holds]

end callers

@[grind =] theorem iderw_key (x : Fin NBUF) : ((iderw s b).buf x).key = (s.buf x).key := by
  unfold iderw
  split_ifs <;> grind [Buf.key]

@[grind =] theorem iderw_other {x : Fin NBUF} (hx : x ≠ b) : (iderw s b).buf x = s.buf x := by
  unfold iderw
  split_ifs <;> simp [hx]

@[grind .] theorem iderw_flags : ((iderw s b).buf b).valid = true ∧ ((iderw s b).buf b).dirty = false := by
  unfold iderw
  split_ifs <;> simp

@[simp, grind =] theorem iderw_pc : (iderw s b).pc c = s.pc c := by
  unfold iderw
  split_ifs <;> rfl

theorem iderw_caller : (iderw s b).links = s.links ∧
    ∀ x, ((iderw s b).buf x).refcnt = (s.buf x).refcnt ∧ ((iderw s b).buf x).lock = (s.buf x).lock := by
  unfold iderw
  split_ifs <;> exact ⟨rfl, fun x => by grind⟩

theorem current_eq (hgiven : s'.given = s.given) (hdisk : s'.disk = s.disk) (k : Key) : s'.current k = s.current k := by
  simp only [Sys.current, hgiven, hdisk]

/-- New data for a block, in the buffer of its caller. -/
theorem Stored.give {d : D} (h : Stored s) (hl : Listed s order) (hb : ¬ (s.buf b).pristine) (hk : (s.buf b).key = k)
    (hvalid : (s.buf b).valid) (hpc : ∀ c', (s'.pc c').block = (s.pc c').block)
    (hreturned : ∀ c', (s'.pc c').returned = (s.pc c').returned)
    (hbuf : s'.buf b = { s.buf b with data := d, dirty := true }) (hother : ∀ x, x ≠ b → s'.buf x = s.buf x)
    (hgiven : s'.given = update s.given k (some d)) (hdisk : s'.disk = s.disk) : Stored s' := by
  have hcur (k' : Key) (hk' : k' ≠ k) : s'.current k' = s.current k' := by
    simp [Sys.current, hgiven, hdisk, hk']
  have hnew : s'.current k = d := by simp [Sys.current, hgiven]
  have hkey : (s'.buf b).key = k := by
    rw [hbuf, ← hk]
    rfl
  have honly (x : Fin NBUF) (hx : (s.buf x).valid) (heq : (s.buf x).key = k) : x = b :=
    hl.unique (heq.trans hk.symm) (not_pristine (.inl hx)) hb
  obtain ⟨hret, hdirty, hdata, hstore⟩ := h
  constructor <;> grind

section stored

variable [DecidableEq C]

/-- Nothing is read, written or recycled. -/
theorem Stored.keep (h : Stored s) (c : C) (pc : Pc) (hpc : ∀ c', s'.pc c' = if c' = c then pc else s.pc c')
    (hreturned : ∀ k b, pc.block = some (k, b) → pc.returned → (s.buf b).valid)
    (hvalid : ∀ x, (s'.buf x).valid = (s.buf x).valid) (hdirty : ∀ x, (s'.buf x).dirty = (s.buf x).dirty)
    (hdata : ∀ x, (s'.buf x).data = (s.buf x).data) (hkey : ∀ x, (s'.buf x).key = (s.buf x).key)
    (hgiven : s'.given = s.given) (hdisk : s'.disk = s.disk) : Stored s' := by
  have hcur := current_eq hgiven hdisk
  obtain ⟨hret, hsound, hnewest, hstore⟩ := h
  constructor <;> grind

/-- A clean buffer is recycled. -/
theorem Stored.recycle (h : Stored s) (hclean : (s.buf b).dirty = false) (hunused : ∀ c' k', (s.pc c').block ≠ some (k', b))
    (hpc : ∀ c', s'.pc c' = if c' = c then pc else s.pc c') (hreturned : pc.returned = false) (hvalid : (s'.buf b).valid = false)
    (hdirty : (s'.buf b).dirty = false) (hother : ∀ x, x ≠ b → s'.buf x = s.buf x) (hgiven : s'.given = s.given)
    (hdisk : s'.disk = s.disk) : Stored s' := by
  have hcur := current_eq hgiven hdisk
  obtain ⟨hret, hsound, hnewest, hstore⟩ := h
  constructor <;> grind

/-- The disk answers for the buffer of a caller. -/
theorem Stored.transfer (h : Stored s) (hl : Listed s order) (hb : ¬ (s.buf b).pristine) :
    Stored ((iderw s b).goto c (.held k b)) := by
  have hcur (k' : Key) : (iderw s b).current k' = s.current k' := by
    unfold iderw
    split_ifs with hd
    · have hdata := h.data b (h.dirty b hd)
      simp only [Sys.current, Sys.update, update_apply]
      split_ifs with hkk
      · rw [hkk, hdata]
        cases hg : s.given (s.buf b).key <;> simp [Sys.current, hg]
      · rfl
    · rfl
  have hdata : ((iderw s b).buf b).data = s.current (s.buf b).key := by
    unfold iderw
    split_ifs with hd
    · simpa using h.data b (h.dirty b hd)
    · simp only [buf_update, if_true]
      -- A clean buffer is read, and no other buffer holds newer data of its block.
      refine (h.disk _).resolve_right fun ⟨x, hx, hxd⟩ => ?_
      rw [hl.unique hx (not_pristine (.inr hxd)) hb] at hxd
      exact hd hxd
  have hdisk (k' : Key) : (iderw s b).disk k' = s.current k' ∨ ∃ x, x ≠ b ∧ (s.buf x).key = k' ∧ (s.buf x).dirty := by
    unfold iderw
    split_ifs with hd
    · simp only [Sys.update, update_apply]
      split_ifs with hkk
      · rw [hkk]
        exact .inl (h.data b (h.dirty b hd))
      · refine (h.disk k').imp id fun ⟨x, hx, hxd⟩ => ⟨x, ?_, hx, hxd⟩
        rintro rfl
        exact hkk hx.symm
    · refine (h.disk k').imp id fun ⟨x, hx, hxd⟩ => ⟨x, ?_, hx, hxd⟩
      rintro rfl
      exact hd hxd
  obtain ⟨hret, hdirty, hnewest, -⟩ := h
  refine ⟨by grind [Pc.block], by grind, by grind, fun k' => ?_⟩
  refine (hdisk k').imp (fun heq => heq.trans (hcur k').symm) fun ⟨x, hxb, hx, hxd⟩ => ⟨x, ?_⟩
  grind

end stored

end xv6.bio
