import Xv6.Lib.Crash
import Xv6.Log.Disk

open Function bytes crash

namespace xv6.log.redo

variable {s t : Dev} {b : Nat} {data : Block}

/-- The words of the header block that has been written. -/
theorem Block.word_setWords (b : Block) {n k : Nat} {w : Nat → Nat} (hn : n ≤ LOGSIZE + 1) (hk : k < n)
    (hw : w k < 2 ^ 32) : (b.setWords n w).word k = w k := by
  have hsame : SameOn (storeWords b.mem 0 n w) (b.setWords n w).mem 0 512 := by
    intro a _ ha
    have ha : a < fs.BSIZE := by omega
    simp only [Block.mem, Block.setWords, dif_pos ha]
  have hn : n ≤ 31 := hn
  rw [Block.word, hsame.load32_eq (Nat.zero_le _) (by omega)]
  exact load32_storeWords _ hk (by omega) hw

theorem bread_run (h : b < FSSIZE) : (bread b).run s = .ok (s.buf b) s := by
  simp only [bread, if_pos h]
  rfl

theorem lhBlock_run {i : Nat} (h : i < LOGSIZE) : (lhBlock i).run s = .ok (s.block i) s := by
  simp only [lhBlock, if_pos h]
  rfl

/-- The state after a block write. -/
def Dev.wrote (s : Dev) (b : Nat) (data : Block) : Dev :=
  { s with
    disk := update s.disk b data
    buf := update s.buf b data
    power := s.power - 1 }

/-- A block write happens or the machine stops before it. -/
theorem bwrite_safe {C : Stop → Dev → Prop} {Q : Unit → Dev → Prop} (hoff : s.power = 0 → C .off s)
    (hdone : 0 < s.power → Q () (s.wrote b data)) : Safe C (bwrite b data) s Q := by
  by_cases hp : s.power = 0
  · refine .of_error (e := .off) (t := s) ?_ (hoff hp)
    simp only [bwrite]
    rw [outcome.get_bind, if_pos hp]
    rfl
  · refine .of_ok (a := ()) (t := s.wrote b data) ?_ (hdone (by omega))
    simp only [bwrite]
    rw [outcome.get_bind, if_neg hp]
    rfl

/-- What every outcome guarantees holds of the disk that is left. -/
theorem left_of_safe {x : LogM Unit} {C : Stop → Dev → Prop} {Q : Unit → Dev → Prop} {D : (Nat → Block) → Prop}
    (hx : Safe C x s Q) (hC : ∀ e t, C e t → D t.disk) (hQ : ∀ a t, Q a t → D t.disk) : D (left x s) := by
  unfold Safe at hx
  unfold left
  cases hr : x.run s with
  | ok a t =>
    rw [hr] at hx
    exact hQ a t hx
  | error e t =>
    rw [hr] at hx
    exact hC e t hx

/-- The log area of the disk: the header block and the blocks of the log. -/
def InLog (s : Dev) (b : Nat) : Prop := s.start ≤ b ∧ b < s.start + s.size

/-- A transaction that can be committed: `log.lh` lists distinct blocks outside
the log, which alone differ from the disk in the cache. The super block of the
disk says where the log is, and the header on the disk is empty. -/
structure Ready (s : Dev) : Prop where
  logstart : (s.disk 1).word 4 = s.start
  nlog : (s.disk 1).word 3 = s.size
  super : ¬ InLog s 1
  fits : s.start + s.size ≤ FSSIZE
  nonneg : 0 ≤ s.n
  le_logsize : s.n ≤ LOGSIZE
  lt_size : s.n ≤ s.size - 1
  home : ∀ i < s.n.toNat, s.block i < FSSIZE ∧ ¬ InLog s (s.block i)
  distinct : ∀ i < s.n.toNat, ∀ j < s.n.toNat, s.block i = s.block j → i = j
  clean : ∀ b, (∀ i < s.n.toNat, s.block i ≠ b) → s.buf b = s.disk b
  empty : (s.disk s.start).word 0 = 0

/-- The transaction has happened on disk `d` as a whole or not at all. -/
structure Atomic (s : Dev) (d : Nat → Block) : Prop where
  head : (d s.start).word 0 = 0
  home : (∀ i < s.n.toNat, d (s.block i) = s.disk (s.block i)) ∨ ∀ i < s.n.toNat, d (s.block i) = s.buf (s.block i)
  other : ∀ b, ¬ InLog s b → (∀ i < s.n.toNat, s.block i ≠ b) → d b = s.disk b

/-- The header is empty, and outside the log the disk is as `new` says. -/
structure Quiet (s : Dev) (new d : Nat → Block) : Prop where
  head : (d s.start).word 0 = 0
  home : ∀ b, ¬ InLog s b → d b = new b

/-- The header and the log hold the whole transaction, and some of it may have been installed. -/
structure Committed (s : Dev) (d : Nat → Block) : Prop where
  head : ∀ k ≤ s.n.toNat, (d s.start).word k = s.head k
  copies : ∀ i < s.n.toNat, d (s.start + i + 1) = s.buf (s.block i)
  home : ∀ b, ¬ InLog s b → d b = s.disk b ∨ d b = s.buf b

/-- The disks that a transaction and its recoveries can leave. -/
inductive Recoverable (s : Dev) (d : Nat → Block) : Prop
  | before : Quiet s s.disk d → Recoverable s d
  | committed : Committed s d → Recoverable s d
  | after : Quiet s s.buf d → Recoverable s d

/-- The kernel that commits or recovers the transaction of `s`, with the buffers of the log written. -/
structure Running (s t : Dev) : Prop where
  start : t.start = s.start
  n : t.n = s.n
  block : ∀ i < s.n.toNat, t.block i = s.block i
  synced : ∀ b, InLog s b → t.buf b = t.disk b

section
variable (h : Ready s)
include h

theorem Ready.lt (i : Nat) (hi : i < s.n.toNat) : i < LOGSIZE ∧ InLog s (s.start + i + 1) ∧ s.start + i + 1 < FSSIZE := by
  have hsize := h.lt_size
  have hlog := h.le_logsize
  have hfits := h.fits
  refine ⟨by omega, ⟨by omega, by omega⟩, by omega⟩

theorem Ready.start_inLog : InLog s s.start ∧ s.start < FSSIZE := by
  have hsize := h.lt_size
  have hn := h.nonneg
  have hfits := h.fits
  exact ⟨⟨Nat.le_refl _, by omega⟩, by omega⟩

theorem Ready.head_lt {k : Nat} (hk : k ≤ s.n.toNat) : s.head k < 2 ^ 32 := by
  cases k with
  | zero =>
    simp only [Dev.head]
    omega
  | succ i =>
    have hlt := (h.home i (by omega)).1
    simp only [Dev.head, FSSIZE] at hlt ⊢
    omega

omit h in
theorem Running.head_eq (hr : Running s t) {k : Nat} (hk : k ≤ s.n.toNat) : t.head k = s.head k := by
  cases k with
  | zero => simp only [Dev.head, hr.n]
  | succ i => exact hr.block i (by omega)

omit h in
@[grind =] theorem Dev.wrote_disk {b' : Nat} : (t.wrote b data).disk b' = if b' = b then data else t.disk b' :=
  update_apply ..

omit h in
@[grind =] theorem Dev.wrote_buf {b' : Nat} : (t.wrote b data).buf b' = if b' = b then data else t.buf b' :=
  update_apply ..

omit h in
/-- A block write of a running kernel. -/
theorem Running.wrote (hr : Running s t) (b : Nat) (data : Block) : Running s (t.wrote b data) := by
  obtain ⟨hstart, hn, hblock, hsynced⟩ := hr
  exact ⟨hstart, hn, hblock, by grind⟩

omit h in
/-- A write to the log that does not touch the header. -/
theorem Quiet.wrote_log {new : Nat → Block} (hq : Quiet s new t.disk) (hb : InLog s b) (hne : s.start ≠ b) :
    Quiet s new (t.wrote b data).disk := by
  obtain ⟨hhead, hhome⟩ := hq
  constructor <;> grind

/-- The loop of `write_log`: the header stays empty. -/
theorem write_log_safe (hr : Running s t) (hbuf : ∀ b, ¬ InLog s b → t.buf b = s.buf b) (hq : Quiet s s.disk t.disk) :
    Safe (fun e t => e = .off ∧ Recoverable s t.disk) write_log t fun _ t => Running s t ∧ Quiet s s.disk t.disk ∧
      ∀ i < s.n.toNat, t.disk (s.start + i + 1) = s.buf (s.block i) := by
  unfold write_log
  refine Safe.bind_run rfl ?_
  rw [hr.n, hr.start]
  refine (Safe.forM_range (I := fun i t => Running s t ∧ Quiet s s.disk t.disk ∧
    (∀ b, ¬ InLog s b → t.buf b = s.buf b) ∧ ∀ j < i, t.disk (s.start + j + 1) = s.buf (s.block j))
    ⟨hr, hq, hbuf, fun j hj => by omega⟩ ?_).imp fun _ t ht => ⟨ht.1, ht.2.1, ht.2.2.2⟩
  rintro i hi t ⟨hr, hq, hbuf, hlog⟩
  obtain ⟨hi', hin, hlt⟩ := h.lt i hi
  have hu : u32 (s.start + i + 1) = s.start + i + 1 := Nat.mod_eq_of_lt (by simp only [FSSIZE] at hlt; omega)
  rw [hu]
  refine Safe.bind_run (bread_run hlt) (Safe.bind_run (lhBlock_run hi') ?_)
  rw [hr.block i hi]
  refine Safe.bind_run (bread_run (h.home i hi).1) ?_
  rw [hbuf _ (h.home i hi).2]
  refine bwrite_safe (fun _ => ⟨rfl, .before hq⟩) fun _ => ⟨hr.wrote _ _, hq.wrote_log hin (by omega), ?_, ?_⟩ <;> grind

/-- The header written by `write_head` in a running kernel. -/
theorem write_head_safe {C : Stop → Dev → Prop} {Q : Unit → Dev → Prop} (hstart : t.start = s.start) (hn : t.n ≤ LOGSIZE)
    (hoff : t.power = 0 → C .off t)
    (hdone : 0 < t.power → Q () (t.wrote s.start ((t.buf s.start).setWords (t.n.toNat + 1) t.head))) :
    Safe C write_head t Q := by
  unfold write_head
  refine Safe.bind_run rfl ?_
  rw [hstart]
  refine Safe.bind_run (bread_run h.start_inLog.2) ?_
  rw [if_pos hn]
  exact bwrite_safe hoff hdone

/-- The write that commits. -/
theorem Running.commits (hr : Running s t) (hq : Quiet s s.disk t.disk)
    (hlog : ∀ i < s.n.toNat, t.disk (s.start + i + 1) = s.buf (s.block i)) (data : Block) :
    Committed s (t.wrote s.start (data.setWords (t.n.toNat + 1) t.head)).disk where
  head k hk := by
    have hle := h.le_logsize
    have hhead := hr.head_eq hk
    rw [Dev.wrote_disk, if_pos rfl, Block.word_setWords data (by rw [hr.n]; omega) (by rw [hr.n]; omega)
      (by rw [hhead]; exact h.head_lt hk), hhead]
  copies i hi := by grind
  home b hb := .inl (by grind [h.start_inLog, hq.home b hb])

/-- The loop of `install_trans`. It needs a block write for each block of the transaction. -/
theorem install_trans_safe (hr : Running s t) (hc : Committed s t.disk) :
    Safe (fun e t' => e = .off ∧ Committed s t'.disk ∧ t.power < s.n.toNat) install_trans t fun _ t' => Running s t' ∧
      Committed s t'.disk ∧ (∀ i < s.n.toNat, t'.disk (s.block i) = s.buf (s.block i)) ∧
      t'.power + s.n.toNat = t.power := by
  unfold install_trans
  refine Safe.bind_run rfl ?_
  rw [hr.n, hr.start]
  generalize hp : t.power = p
  refine Safe.forM_range (I := fun i t => Running s t ∧ Committed s t.disk ∧
    (∀ j < i, t.disk (s.block j) = s.buf (s.block j)) ∧ t.power + i = p) ⟨hr, hc, fun j hj => by omega, hp⟩ ?_
  rintro i hi t ⟨hr, hc, hhome, hp⟩
  obtain ⟨hi', hin, hlt⟩ := h.lt i hi
  have hu : u32 (s.start + i + 1) = s.start + i + 1 := Nat.mod_eq_of_lt (by simp only [FSSIZE] at hlt; omega)
  obtain ⟨hblt, hbout⟩ := h.home i hi
  rw [hu]
  refine Safe.bind_run (bread_run hlt) (Safe.bind_run (lhBlock_run hi') ?_)
  rw [hr.block i hi]
  refine Safe.bind_run (bread_run hblt) ?_
  rw [hr.synced _ hin, hc.copies i hi]
  refine bwrite_safe (fun hoff => ⟨rfl, hc, by omega⟩) fun hpos => ⟨hr.wrote _ _, ?_, by grind, ?_⟩
  · have hhead := h.start_inLog.1
    obtain ⟨hword, hcopies, hblocks⟩ := hc
    refine ⟨by grind, fun j hj => ?_, by grind⟩
    have := (h.lt j hj).2.1
    grind
  · simp only [Dev.wrote]
    omega

/-- An empty header is written over any other. -/
theorem quiet_erase {new : Nat → Block} (hhome : ∀ b, ¬ InLog s b → t.disk b = new b) (hn : t.n = 0) (data : Block) :
    Quiet s new (t.wrote s.start (data.setWords (t.n.toNat + 1) t.head)).disk where
  head := by
    have hzero : t.head 0 = 0 := by simp only [Dev.head, hn]; rfl
    rw [Dev.wrote_disk, if_pos rfl, Block.word_setWords data (by rw [hn]; decide) (by omega) (by omega), hzero]
  home b hb := by grind [h.start_inLog]

/-- What follows the installation, in `commit` and in `recover_from_log`. -/
theorem erase_safe (hr : Running s t) (hc : Committed s t.disk)
    (hhome : ∀ i < s.n.toNat, t.disk (s.block i) = s.buf (s.block i)) :
    Safe (fun e t' => e = .off ∧ Committed s t'.disk ∧ t.power = 0)
      (do modify fun t => { t with n := 0 }; write_head) t fun _ t => Quiet s s.buf t.disk := by
  have hnew (b : Nat) (hb : ¬ InLog s b) : t.disk b = s.buf b := by
    by_cases hlisted : ∀ i < s.n.toNat, s.block i ≠ b
    · rw [h.clean b hlisted]
      exact (hc.home b hb).elim id fun hnew => hnew.trans (h.clean b hlisted)
    · simp only [not_forall, not_not] at hlisted
      obtain ⟨i, hi, rfl⟩ := hlisted
      exact hhome i hi
  refine Safe.bind_run (t := { t with n := 0 }) rfl ?_
  exact write_head_safe h hr.start (Int.natCast_nonneg _) (fun hoff => ⟨rfl, hc, hoff⟩) fun _ =>
    quiet_erase (t := { t with n := 0 }) h hnew rfl _

/-- `commit`, stopped anywhere. -/
theorem commit_safe (k : Nat) :
    Safe (fun e t => e = .off ∧ Recoverable s t.disk) commit { s with power := k } fun _ t => Recoverable s t.disk := by
  have hq : Quiet s s.disk s.disk := ⟨h.empty, fun _ _ => rfl⟩
  have hr : Running s { s with power := k } := ⟨rfl, rfl, fun _ _ => rfl, fun b hb =>
    h.clean b fun i hi heq => (h.home i hi).2 (heq ▸ hb)⟩
  unfold commit
  refine Safe.bind_run rfl ?_
  by_cases hn : s.n > 0
  · rw [if_pos hn]
    refine (write_log_safe h hr (fun _ _ => rfl) hq).bind ?_
    rintro - t ⟨hr, hq, hlog⟩
    have hle : t.n ≤ LOGSIZE := by
      rw [hr.n]
      exact h.le_logsize
    refine (write_head_safe h (Q := fun _ t => Running s t ∧ Committed s t.disk) hr.start hle
      (fun _ => ⟨rfl, .before hq⟩) fun _ => ⟨hr.wrote _ _, hr.commits h hq hlog _⟩).bind ?_
    rintro - t ⟨hr, hc⟩
    refine ((install_trans_safe h hr hc).mono (fun e t he => ⟨he.1, .committed he.2.1⟩) fun _ _ h => h).bind ?_
    rintro - t ⟨hr, hc, hhome, -⟩
    exact (erase_safe h hr hc hhome).mono (fun e t he => ⟨he.1, .committed he.2.1⟩) fun _ t hq => .after hq
  · rw [if_neg hn]
    exact .of_ok rfl (.before hq)

/-- Recovery from an empty header writes an empty header. -/
theorem recover_quiet {new : Nat → Block} (hstart : t.start = s.start) (hbuf : t.buf = t.disk) (hq : Quiet s new t.disk) :
    Safe (fun e t' => e = .off ∧ Quiet s new t'.disk ∧ t.power = 0) recover_from_log t fun _ t => Quiet s new t.disk := by
  have hword : toInt ((t.buf s.start).word 0) = 0 := by
    rw [hbuf, hq.head]
    rfl
  have hread : read_head.run t = .ok () { t with n := 0 } := by
    have hbread : (bread t.start).run t = .ok (t.buf s.start) t := by
      rw [hstart]
      exact bread_run h.start_inLog.2
    unfold read_head
    rw [outcome.get_bind, outcome.bind_ok hbread, outcome.modify_bind, hword]
    rfl
  unfold recover_from_log
  refine Safe.bind_run hread (Safe.bind_run (t := { t with n := 0 }) rfl (Safe.bind_run (t := { t with n := 0 }) rfl ?_))
  exact write_head_safe h hstart (Int.natCast_nonneg _) (fun hoff => ⟨rfl, hq, hoff⟩) fun _ =>
    quiet_erase (t := { t with n := 0 }) h hq.home rfl _

/-- `read_head` finds the transaction that the header lists. -/
theorem read_head_committed {C : Stop → Dev → Prop} (hstart : t.start = s.start) (hbuf : t.buf = t.disk) (hc : Committed s t.disk) :
    Safe C read_head t fun _ t' => Running s t' ∧ t'.disk = t.disk ∧ t'.power = t.power := by
  have hn : toInt ((t.buf s.start).word 0) = s.n := by
    have hle := h.le_logsize
    have hnonneg := h.nonneg
    rw [hbuf, hc.head 0 (Nat.zero_le _), toInt, Dev.head]
    simp only [LOGSIZE, MAXOPBLOCKS] at hle
    rw [if_pos (by omega)]
    omega
  unfold read_head
  refine Safe.bind_run rfl ?_
  rw [hstart]
  refine Safe.bind_run (bread_run h.start_inLog.2) (Safe.bind_run (t := { t with n := s.n }) (by rw [hn]; rfl) ?_)
  rw [hn]
  refine (Safe.forM_range (I := fun i t' => t'.start = s.start ∧ t'.n = s.n ∧ t'.buf = t'.disk ∧ t'.disk = t.disk ∧
    t'.power = t.power ∧ ∀ j < i, t'.block j = s.block j) ⟨hstart, rfl, hbuf, rfl, rfl, fun j hj => by omega⟩ ?_).imp ?_
  · rintro i hi t' ⟨hstart', hn', hbuf', hdisk, hpower, hblock⟩
    rw [if_pos (h.lt i hi).1]
    refine .of_ok (a := ()) rfl ⟨hstart', hn', hbuf', hdisk, hpower, fun j hj => ?_⟩
    show update t'.block i ((t.buf s.start).word (i + 1)) j = s.block j
    rw [update_apply, hbuf, hc.head (i + 1) hi]
    grind [Dev.head]
  · rintro - t' ⟨hstart', hn', hbuf', hdisk, hpower, hblock⟩
    exact ⟨⟨hstart', hn', hblock, fun b _ => by rw [hbuf']⟩, hdisk, hpower⟩

theorem recover_committed (hstart : t.start = s.start) (hbuf : t.buf = t.disk) (hc : Committed s t.disk) :
    Safe (fun e t' => e = .off ∧ Committed s t'.disk ∧ t.power ≤ s.n.toNat) recover_from_log t fun _ t => Quiet s s.buf t.disk := by
  unfold recover_from_log
  refine (read_head_committed h hstart hbuf hc).bind ?_
  rintro - t₁ ⟨hr, hdisk, hpower⟩
  rw [← hdisk] at hc
  refine ((install_trans_safe h hr hc).mono (fun e t he => ⟨he.1, he.2.1, by omega⟩) fun _ _ h => h).bind ?_
  rintro - t₂ ⟨hr₂, hc₂, hhome, hpower₂⟩
  exact (erase_safe h hr₂ hc₂ hhome).mono (fun e t he => ⟨he.1, he.2.1, by omega⟩) fun _ _ h => h

variable (hsuper : ∀ i < s.n.toNat, s.block i ≠ 1)
include hsuper

/-- The super block is not part of the transaction, so recovery finds the log. -/
theorem Recoverable.super {d : Nat → Block} (hd : Recoverable s d) : d 1 = s.disk 1 := by
  cases hd with
  | before hq => exact hq.home 1 h.super
  | committed hc => exact (hc.home 1 h.super).elim id fun hnew => hnew.trans (h.clean 1 hsuper)
  | after hq => exact (hq.home 1 h.super).trans (h.clean 1 hsuper)

/-- Recovery, stopped anywhere, leaves a disk that it can recover; it ends within one block write more
than the transaction has blocks. -/
theorem initlog_safe {d : Nat → Block} (hd : Recoverable s d) (p : Nat) :
    Safe (fun e t => e = .off ∧ Recoverable s t.disk ∧ p ≤ s.n.toNat) initlog (boot d p)
      fun _ t => Quiet s s.disk t.disk ∨ Quiet s s.buf t.disk := by
  unfold initlog
  refine Safe.bind_run (bread_run (by decide)) (Safe.bind_run (a := ()) (t := { boot d p with start := s.start, size := s.size }) ?_ ?_)
  · rw [show (boot d p).buf 1 = s.disk 1 from hd.super h hsuper, h.logstart, h.nlog]
    rfl
  · generalize hboot : { boot d p with start := s.start, size := s.size } = t
    have hstart : t.start = s.start := by rw [← hboot]
    have hbuf : t.buf = t.disk := by rw [← hboot]; rfl
    have hpower : t.power = p := by rw [← hboot]; rfl
    have hdisk : d = t.disk := by rw [← hboot]; rfl
    rw [hdisk] at hd
    cases hd with
    | before hq =>
      exact (recover_quiet h hstart hbuf hq).mono (fun e t he => ⟨he.1, .before he.2.1, by omega⟩) fun _ _ => .inl
    | committed hc =>
      exact (recover_committed h hstart hbuf hc).mono (fun e t he => ⟨he.1, .committed he.2.1, by omega⟩) fun _ _ => .inr
    | after hq =>
      exact (recover_quiet h hstart hbuf hq).mono (fun e t he => ⟨he.1, .after he.2.1, by omega⟩) fun _ _ => .inr

/-- Any number of stopped recoveries. -/
theorem recoveries_recoverable {d : Nat → Block} (hd : Recoverable s d) (ks : List Nat) : Recoverable s (recoveries d ks) := by
  induction ks generalizing d with
  | nil => exact hd
  | cons k ks ih => exact ih (left_of_safe (initlog_safe h hsuper hd k) (fun e t he => he.2.1) fun _ t hq => hq.elim .before .after)

end

/-- The machine stops after `k` block writes of `commit`, and recovery is stopped and started again any number of times.
Then a recovery that has one block write more than the transaction has blocks ends, and any that ends leaves the
transaction done as a whole or not at all. -/
theorem commit_atomic (h : Ready s) (hsuper : ∀ i < s.n.toNat, s.block i ≠ 1) (k : Nat) (ks : List Nat) (p : Nat) :
    Safe (fun e _ => e = .off ∧ p ≤ s.n) initlog (boot (recoveries (left commit { s with power := k }) ks) p)
      fun _ t => Atomic s t.disk := by
  have hleft : Recoverable s (left commit { s with power := k }) :=
    left_of_safe (commit_safe h k) (fun e t he => he.2) fun _ _ h => h
  refine (initlog_safe h hsuper (recoveries_recoverable h hsuper hleft ks) p).mono ?_ ?_
  · rintro e t ⟨rfl, -, hp⟩
    have hn := h.nonneg
    exact ⟨rfl, by omega⟩
  · rintro - t (hq | hq)
    · exact ⟨hq.head, .inl fun i hi => hq.home _ (h.home i hi).2, fun b hb _ => hq.home b hb⟩
    · exact ⟨hq.head, .inr fun i hi => hq.home _ (h.home i hi).2, fun b hb hlisted => (hq.home b hb).trans (h.clean b hlisted)⟩

/-- A disk that is empty but for its super block, with the log of `mkfs` from block `logstart` on. -/
def superBlock (logstart : Nat) : Block :=
  Block.setWords (fun _ => 0) 7 fun
    | 3 => LOGSIZE
    | 4 => logstart
    | _ => 0

def emptyDisk : Nat → Block := update (fun _ _ => 0) 1 (superBlock 2)

/-- The transaction that gives two blocks new contents. -/
def pair (b b' : Nat) (new new' : Block) : Dev where
  disk := emptyDisk
  buf := update (update emptyDisk b new) b' new'
  start := 2
  size := LOGSIZE
  n := 2
  block := fun
    | 0 => b
    | _ => b'
  power := 0

theorem pair_ready {b b' : Nat} (new new' : Block) (hlt : b < b') (hlt' : b' < FSSIZE) (hb : ¬ (2 ≤ b ∧ b < 32))
    (hb' : ¬ (2 ≤ b' ∧ b' < 32)) : Ready (pair b b' new new') where
  logstart := (by decide : (emptyDisk 1).word 4 = 2)
  nlog := (by decide : (emptyDisk 1).word 3 = LOGSIZE)
  super := by simp [InLog, pair]
  fits := (by decide : 2 + LOGSIZE ≤ FSSIZE)
  nonneg := (by decide : (0 : Int) ≤ 2)
  le_logsize := (by decide : (2 : Int) ≤ LOGSIZE)
  lt_size := (by decide : (2 : Int) ≤ (LOGSIZE : Nat) - 1)
  home i (hi : i < 2) := by grind [pair, InLog]
  distinct i (hi : i < 2) j (hj : j < 2) := by grind [pair]
  clean x hx := by
    have hne : x ≠ b := fun h => hx 0 Nat.zero_lt_two h.symm
    have hne' : x ≠ b' := fun h => hx 1 Nat.one_lt_two h.symm
    simp only [pair, update_of_ne hne, update_of_ne hne']
  empty := (by decide : (emptyDisk 2).word 0 = 0)

/-- The power fails while the second block is being installed, and again in the first recovery. -/
theorem commit_atomic_pair :
    Safe (fun e _ => e = .off ∧ (3 : Nat) ≤ (pair 100 200 (fun _ => 1) fun _ => 2).n) initlog
      (boot (recoveries (left commit { pair 100 200 (fun _ => 1) fun _ => 2 with power := 4 }) [1]) 3)
      fun _ t => Atomic (pair 100 200 (fun _ => 1) fun _ => 2) t.disk :=
  commit_atomic (pair_ready _ _ (by decide) (by decide) (by decide) (by decide)) (by decide) 4 [1] 3

/-- A transaction that moves the log with the super block: recovery looks for the header in the new place. -/
theorem commit_super_torn : ∃ (s : Dev) (k p : Nat), Ready s ∧ s.n < p ∧
    ¬ Safe (fun e _ => e = .off ∧ p ≤ s.n) initlog (boot (left commit { s with power := k }) p) fun _ t => Atomic s t.disk := by
  refine ⟨pair 1 100 (superBlock 500) fun _ => 1, 4, 3, pair_ready _ _ (by decide) (by decide) (by decide) (by decide),
    by decide, ?_⟩
  -- the super block is new and the other block is old
  have hrun : (match initlog.run (boot (left commit { pair 1 100 (superBlock 500) fun _ => 1 with power := 4 }) 3) with
      | .ok _ t => (t.disk 1).word 4 == 500 && t.disk 100 0 == 0
      | .error _ _ => false) = true := by
    decide
  unfold Safe
  intro hsafe
  split at hsafe
  · rename_i t hok
    rw [hok] at hrun
    simp only [Bool.and_eq_true, beq_iff_eq] at hrun
    rcases hsafe.home with hold | hnew
    · have hsuper : t.disk 1 = emptyDisk 1 := hold 0 (by decide)
      rw [hsuper] at hrun
      exact absurd hrun.1 (by decide)
    · have hblock : t.disk 100 = fun _ => 1 := hnew 1 (by decide)
      rw [hblock] at hrun
      exact absurd hrun.2 (by decide)
  · exact absurd hsafe.2 (by decide)

end xv6.log.redo
