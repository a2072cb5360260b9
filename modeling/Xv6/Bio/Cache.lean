import Mathlib.Data.Fintype.Card
import Mathlib.Data.List.FinRange
import Xv6.Bio.Inv

open Function ring run

namespace xv6.bio

variable {C D : Type} {s s' : Sys C D} {c : C} {k : Key} {b : Fin NBUF} {pc : Pc}
  {order : List (Fin NBUF)} {users : Fin NBUF → Finset C}

theorem Listed.length_le (h : Listed s order) : order.length ≤ NBUF := by
  have hcard := List.Nodup.length_le_card h.ring.nodup
  rwa [Fintype.card_fin] at hcard

/-- `bget` finds the first buffer with the block, or recycles one that is neither referenced nor dirty. -/
theorem bget_cases (h : Listed s order) (hget : bget s k = some (b, s')) :
    (order.find? (fun x => decide ((s.buf x).key = k)) = some b ∧
      s' = s.update b fun buf => { buf with refcnt := buf.refcnt + 1 }) ∨
    ((∀ x, (s.buf x).key ≠ k) ∧ (s.buf b).refcnt = 0 ∧ (s.buf b).dirty = false ∧
      s' = s.update b fun buf => { buf with dev := k.1, blockno := k.2, valid := false, dirty := false, refcnt := 1 }) := by
  unfold bget at hget
  rw [h.ring.find_next _ h.length_le, h.ring.find_prev _ h.length_le] at hget
  split at hget
  · next x hfind =>
    cases hget
    exact .inl ⟨hfind, rfl⟩
  · next hnone =>
    split at hget
    · next x hfind =>
      cases hget
      have hfree := List.find?_some hfind
      simp only [Bool.and_eq_true, decide_eq_true_eq, Bool.not_eq_eq_eq_not, Bool.not_true] at hfree
      refine .inr ⟨fun x => ?_, hfree.1, hfree.2, rfl⟩
      simpa using List.find?_eq_none.1 hnone x (h.mem x)
    · cases hget

theorem Inv.binit (zero : D) (disk : Key → D) :
    Inv (binit zero disk : Sys C D) (List.finRange NBUF).reverse fun _ => ∅ := by
  refine ⟨⟨?_, by simp, ?_⟩, ⟨by simp [bio.binit, Pc.block], fun _ => rfl, by simp [bio.binit, Pc.block],
    by simp [bio.binit, Pc.holds]⟩, ⟨by simp [bio.binit, Pc.block], by simp [bio.binit], by simp [bio.binit],
    fun k => .inl rfl⟩⟩
  · have hring := (Ring.empty (α := Fin NBUF)).pushAll (List.nodup_finRange NBUF) (by simp)
    simpa [bio.binit] using hring
  · exact List.pairwise_of_forall fun _ _ _ => ⟨rfl, rfl, rfl, rfl⟩

section steps

variable [DecidableEq C]

theorem Inv.bread (h : Inv s order users) (hc : s.pc c = .user) (hget : bget s k = some (b, s')) :
    Inv (s'.goto c (.acquiresleep k b)) order (update users b (insert c (users b))) := by
  rcases bget_cases h.listed hget with ⟨hfind, rfl⟩ | ⟨hnone, href, hclean, rfl⟩
  · have hkey : (s.buf b).key = k := by simpa using List.find?_some hfind
    have hkeys := key_update (s := s) (b := b) (f := fun buf => { buf with refcnt := buf.refcnt + 1 }) fun _ => rfl
    refine ⟨h.listed.hit hfind rfl (fun x hx => by simp [hx]) (hkeys b), ?_, ?_⟩
    · exact h.called.enter hc (fun _ => pc_goto) (by simp) (fun x hx => by simp [hx]) ((hkeys b).trans hkey)
        (fun x _ => hkeys x) (by grind)
    · exact h.stored.keep _ _ (fun _ => pc_goto) (by simp [Pc.returned]) (by grind) (by grind) (by grind) hkeys rfl rfl
  · have hother (x : Fin NBUF) (hx : x ≠ b) : (s.update b fun buf =>
        { buf with dev := k.1, blockno := k.2, valid := false, dirty := false, refcnt := 1 }).buf x = s.buf x := by
      simp [hx]
    have hunused (c' : C) (k' : Key) : (s.pc c').block ≠ some (k', b) := fun hblock => by
      have hcard := Finset.card_pos.2 ⟨c', (h.called.mem c' b).2 ⟨k', hblock⟩⟩
      rw [← h.called.refcnt, href] at hcard
      omega
    refine ⟨h.listed.recycle hnone rfl hother (by simp [Buf.key]), ?_, ?_⟩
    · exact h.called.enter hc (fun _ => pc_goto) (by simp [href]) (fun x hx => by simp [hx]) (by simp [Buf.key])
        (by grind) (by grind)
    · exact h.stored.recycle hclean hunused (fun _ => pc_goto) rfl (by simp) (by simp) hother rfl rfl

/-- A caller changes the lock of its buffer, or nothing, and goes on. -/
theorem Inv.move (h : Inv s order users) (lock : Option C) (hc : (s.pc c).block = some (k, b))
    (hblock : pc.block = some (k, b)) (hlock : ∀ x, (if x = b then lock else (s.buf x).lock) = some c ↔ pc.holds x)
    (hlocks : ∀ c', c' ≠ c → (lock = some c' ↔ (s.buf b).lock = some c'))
    (hreturned : pc.returned → (s.buf b).valid) :
    Inv ((s.update b fun buf => { buf with lock := lock }).goto c pc) order users := by
  have hkeys := key_update (s := s) (b := b) (f := fun buf => { buf with lock := lock }) fun _ => rfl
  refine ⟨h.listed.touch (h.called.pristine hc) rfl (fun x hx => by simp [hx]) (hkeys b), ?_, ?_⟩
  · exact h.called.move hc (fun _ => pc_goto) hblock (by grind) hkeys (by grind) (by grind)
  · exact h.stored.keep _ _ (fun _ => pc_goto) (by grind) (by grind) (by grind) (by grind) hkeys rfl rfl

/-- A caller goes on without touching its buffer. -/
theorem Inv.goto (h : Inv s order users) (hc : (s.pc c).block = some (k, b)) (hblock : pc.block = some (k, b))
    (hholds : ∀ x, pc.holds x ↔ (s.pc c).holds x) (hreturned : pc.returned → (s.buf b).valid) :
    Inv (s.goto c pc) order users := by
  have hsame : (s.update b fun buf => { buf with lock := (s.buf b).lock }) = s := by simp [Sys.update]
  have hlock := h.called.lock c
  have hmove := h.move (s.buf b).lock hc hblock (by grind) (fun _ _ => Iff.rfl) hreturned
  rwa [hsame] at hmove

/-- A caller writes or marks its buffer with new data. -/
theorem Inv.give {d : D} (h : Inv s order users) (pc : Pc) (hc : (s.pc c).block = some (k, b)) (hret : (s.pc c).returned)
    (hblock : pc.block = some (k, b)) (hret' : pc.returned) (hholds : ∀ x, pc.holds x ↔ (s.pc c).holds x) :
    Inv (((s.update b fun buf => { buf with data := d, dirty := true }).give k d).goto c pc) order users := by
  have hkeys := key_update (s := s) (b := b) (f := fun buf => { buf with data := d, dirty := true }) fun _ => rfl
  have hpristine := h.called.pristine hc
  have hlock := h.called.lock c
  refine ⟨h.listed.touch hpristine rfl (fun x hx => by simp [hx]) (hkeys b), ?_, ?_⟩
  · exact h.called.move hc (fun _ => pc_goto) hblock (by grind) hkeys (by grind) (by grind)
  · exact h.stored.give h.listed hpristine (h.called.key c k b hc) (h.stored.returned c k b hc hret) (by grind) (by grind)
      (by simp) (fun x hx => by simp [hx]) rfl rfl

theorem Inv.ideintr (h : Inv s order users) (hc : (s.pc c).block = some (k, b)) (hholds : ∀ x, (s.pc c).holds x ↔ b = x) :
    Inv ((iderw s b).goto c (.held k b)) order users := by
  obtain ⟨hlinks, hsame⟩ := iderw_caller (s := s) (b := b)
  have hpristine := h.called.pristine hc
  have hlock := h.called.lock c
  refine ⟨h.listed.touch hpristine hlinks (fun x hx => iderw_other hx) (iderw_key b), ?_, ?_⟩
  · exact h.called.move hc (fun _ => pc_goto.trans (by rw [iderw_pc])) rfl (fun x => (hsame x).1) iderw_key (by grind [Pc.holds]) (by grind)
  · exact h.stored.transfer h.listed hpristine

theorem Inv.brelse (h : Inv s order users) (hc : s.pc c = .released k b) :
    ∃ order', Inv ((brelse s b).goto c .user) order' (update users b ((users b).erase c)) := by
  have hblock : (s.pc c).block = some (k, b) := by
    rw [hc]
    rfl
  have hpristine := h.called.pristine hblock
  let s₁ : Sys C D := s.update b fun buf => { buf with refcnt := buf.refcnt - 1 }
  have hflags (x : Fin NBUF) : (s₁.buf x).key = (s.buf x).key ∧ (s₁.buf x).lock = (s.buf x).lock ∧
      (s₁.buf x).valid = (s.buf x).valid ∧ (s₁.buf x).dirty = (s.buf x).dirty ∧ (s₁.buf x).data = (s.buf x).data := by
    grind [Buf.key]
  have hother (x : Fin NBUF) (hx : x ≠ b) : s₁.buf x = s.buf x := by simp [s₁, hx]
  have hlisted : Listed s₁ order := h.listed.touch hpristine rfl hother (hflags b).1
  have hcalled (links : Links (Fin NBUF)) :
      Called ({ s₁ with links := links }.goto c .user) (update users b ((users b).erase c)) :=
    h.called.leave hc (fun _ => pc_goto) (by simp [s₁, Sys.goto]) (fun x hx => congrArg Buf.refcnt (hother x hx))
      (fun x => (hflags x).1) fun x => (hflags x).2.1
  have hstored (links : Links (Fin NBUF)) : Stored ({ s₁ with links := links }.goto c .user) :=
    h.stored.keep c .user (fun _ => pc_goto) (by simp [Pc.block]) (fun x => (hflags x).2.2.1) (fun x => (hflags x).2.2.2.1)
      (fun x => (hflags x).2.2.2.2) (fun x => (hflags x).1) rfl rfl
  have hvalid : (s₁.buf b).valid := by
    rw [(hflags b).2.2.1]
    exact h.stored.returned c k b hblock (by rw [hc]; rfl)
  by_cases hzero : (s₁.buf b).refcnt = 0
  · refine ⟨b :: order.erase b, ?_⟩
    rw [show bio.brelse s b = { s₁ with links := (s₁.links.unlink b).push b } from if_pos hzero]
    have hfront : Listed ({ s₁ with links := (s₁.links.unlink b).push b }.goto c .user) (b :: order.erase b) :=
      hlisted.front (not_pristine (.inl hvalid)) rfl rfl
    exact ⟨hfront, hcalled _, hstored _⟩
  · refine ⟨order, ?_⟩
    rw [show bio.brelse s b = s₁ from if_neg hzero]
    exact ⟨⟨hlisted.ring, hlisted.mem, hlisted.first⟩, hcalled s₁.links, hstored s₁.links⟩

omit [DecidableEq C] in
@[grind =] theorem brelse_key (x : Fin NBUF) : ((brelse s b).buf x).key = (s.buf x).key := by
  simp only [brelse]
  split_ifs <;> simp only [buf_update] <;> grind [Buf.key]

/-- Every action keeps the invariant. -/
theorem Inv.step (h : Inv s order users) (hst : Step s s') : ∃ order' users', Inv s' order' users' := by
  obtain ⟨a, hexec⟩ := hst
  revert hexec
  fun_cases exec s a <;> intro hexec <;> cases hexec
  case case1 c k b s₁ hget hpc => exact ⟨_, _, h.bread hpc hget⟩
  case case3 c k b hpc hfree =>
    have hlock := h.called.lock c
    exact ⟨_, _, h.move (k := k) _ (by rw [hpc]; rfl) rfl (by grind [Pc.holds]) (by grind) (by simp [Pc.returned])⟩
  case case6 c k b hpc =>
    refine ⟨_, _, h.goto (k := k) (b := b) (by rw [hpc]; rfl) ?_ (fun x => ?_) fun hret => ?_⟩
    · split_ifs <;> rfl
    · rw [hpc]
      split_ifs <;> rfl
    · grind [Pc.returned]
  case case8 c k b hpc => exact ⟨_, _, h.ideintr (by rw [hpc]; rfl) (by simp [hpc, Pc.holds])⟩
  case case9 c k b hpc => exact ⟨_, _, h.ideintr (by rw [hpc]; rfl) (by simp [hpc, Pc.holds])⟩
  case case11 c d k b hpc =>
    exact ⟨_, _, h.give _ (by rw [hpc]; rfl) (by rw [hpc]; rfl) rfl rfl (by simp [hpc, Pc.holds])⟩
  case case13 c d k b hpc =>
    have hgive := h.give (c := c) (k := k) (b := b) (d := d) (.held k b) (by rw [hpc]; rfl) (by rw [hpc]; rfl) rfl rfl
      (by simp [hpc])
    rw [Sys.goto, ← hpc, show ((s.update b _).give k d).pc = s.pc from rfl, update_eq_self] at hgive
    exact ⟨_, _, hgive⟩
  case case15 c k b hpc =>
    have hlock := h.called.lock c
    refine ⟨_, _, h.move (k := k) _ (by rw [hpc]; rfl) rfl (by grind [Pc.holds]) (by grind [Pc.holds]) fun _ =>
      h.stored.returned c k b (by rw [hpc]; rfl) (by rw [hpc]; rfl)⟩
  case case17 c k b hpc =>
    obtain ⟨order', hinv⟩ := h.brelse hpc
    exact ⟨_, _, hinv⟩

/-- Only an unreferenced clean buffer gets another block. -/
theorem Step.key (h : Listed s order) (hst : Step s s') (hused : 0 < (s.buf b).refcnt ∨ (s.buf b).dirty) :
    (s'.buf b).key = (s.buf b).key := by
  obtain ⟨a, hexec⟩ := hst
  revert hexec
  fun_cases exec s a <;> intro hexec <;> cases hexec
  case case1 c k x s₁ hget hpc =>
    rcases bget_cases h hget with ⟨-, rfl⟩ | ⟨-, href, hclean, rfl⟩ <;> grind [Buf.key]
  all_goals grind [Buf.key]

/-- In every run the cache is a ring of all buffers, a block other than the
initial one is in one buffer at most, a referenced or dirty buffer is not
recycled, and `bread` returns a locked buffer with the block's last data. -/
theorem bcache_safe (h : Reachable Started Step s) :
    (∃ order : List (Fin NBUF), (∀ b, b ∈ order) ∧ Ring s.links order) ∧
    (∀ b b', (s.buf b).key = (s.buf b').key → (s.buf b).key ≠ (0, 0) → b = b') ∧
    (∀ s' b, Step s s' → 0 < (s.buf b).refcnt ∨ (s.buf b).dirty → (s'.buf b).key = (s.buf b).key) ∧
    ∀ c k b, s.pc c = .held k b →
      (s.buf b).lock = some c ∧ (s.buf b).key = k ∧ (s.buf b).data = (s.given k).getD (s.disk k) := by
  obtain ⟨order, users, hi⟩ := h.inv (I := fun s => ∃ order users, Inv s order users)
    (fun s ⟨zero, disk, hs⟩ => ⟨_, _, hs ▸ Inv.binit zero disk⟩) fun s s' ⟨_, _, hi⟩ hst => hi.step hst
  refine ⟨⟨order, hi.listed.mem, hi.listed.ring⟩, fun b b' hkey hzero => ?_, fun s' b hst => hst.key hi.listed,
    fun c k b hheld => ?_⟩
  · by_contra hne
    exact hzero (hi.listed.apart hkey hne).1
  · have hblock : (s.pc c).block = some (k, b) := by
      rw [hheld]
      rfl
    have hkey := hi.called.key c k b hblock
    have hvalid := hi.stored.returned c k b hblock (by rw [hheld]; rfl)
    refine ⟨(hi.called.lock c b).2 (by rw [hheld]; rfl), hkey, ?_⟩
    rw [hi.stored.data b hvalid, hkey]
    rfl

theorem bcache_safe_bread :
    ∃ s : Sys Unit Nat, s.pc () = .held (1, 59) 0 ∧ (s.buf 0).data = 7 := by
  have hstart : Reachable Started Step (binit 0 fun _ => 7 : Sys Unit Nat) := .start ⟨0, _, rfl⟩
  have hget := hstart.next ⟨.bread () (1, 59), rfl⟩
  have hlock := hget.next ⟨.acquiresleep (), rfl⟩
  have htest := hlock.next ⟨.test (), rfl⟩
  have hread := htest.next ⟨.ideintr (), rfl⟩
  exact ⟨_, rfl, ((bcache_safe hread).2.2.2 () (1, 59) 0 rfl).2.2⟩

end steps

end xv6.bio
