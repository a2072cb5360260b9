import Mathlib.Algebra.BigOperators.Group.Finset.Basic
import Mathlib.Algebra.Group.Action.Defs
import Mathlib.Algebra.Order.BigOperators.Group.Finset
import Xv6.Log

open Function run

namespace xv6.log

/-- The blocks that an operation in progress has logged. -/
def Pc.logs : Pc → Option (List Nat)
  | .op w | .sized w _ | .traced w _ => some w
  | _ => none

/-- The places of the committing process. -/
def Pc.commits : Pc → Prop
  | .user | .op _ | .sized .. | .traced .. => False
  | _ => True

/-- The block that `log_write` has been called with. -/
def Pc.logging : Pc → Option Nat
  | .sized _ b | .traced _ b => some b
  | _ => none

/-- The places of the committing process at which the log has been emptied. -/
def Pc.clears : Pc → Prop
  | .erase_head | .committed => True
  | _ => False

/-- How many more blocks an operation may log if it logs at most `k`. -/
def Pc.reserve (k : Nat) (pc : Pc) : Nat := k - (pc.logs.getD []).length

variable {P : Type} {s s' : Sys P} {p q : P} {pc : Pc} {ops : Finset P} {w : List Nat} {b k n : Nat}

/-- The operations in progress, each of which logs at most `k` blocks: the log and what is reserved for them are at
most `n` blocks. -/
structure Admitted (k n : Nat) (s : Sys P) (ops : Finset P) : Prop where
  mem : ∀ p, p ∈ ops ↔ (s.pc p).logs.isSome
  outstanding : s.outstanding = ops.card
  reserved : s.block.length + ∑ p ∈ ops, (s.pc p).reserve k ≤ n
  room : ∀ p w b, (s.pc p).logs = some w → (s.pc p).logging = some b → b ∈ w ∨ w.length < k
  held : ∀ p w, (s.pc p).logs = some w → ∀ b ∈ w, b ∈ s.block

/-- At most one process commits, and only when no operation is in progress. -/
structure Commits (s : Sys P) : Prop where
  committing : s.committing = true ↔ ∃ p, (s.pc p).commits
  unique : ∀ p q, (s.pc p).commits → (s.pc q).commits → p = q
  idle : s.committing = true → s.outstanding = 0

/-- The log is empty between a commit and the next operation. -/
structure Cleared (s : Sys P) : Prop where
  commit : ∀ p, (s.pc p).clears → s.block = []
  idle : s.committing = false → s.outstanding = 0 → s.block = []

/-- The invariant of the log. -/
structure Inv (k n : Nat) (s : Sys P) : Prop where
  start : s.start = 2
  size : s.size = LOGSIZE
  admitted : ∃ ops, Admitted k n s ops
  commits : Commits s
  cleared : Cleared s
  nodup : s.block.Nodup
  logged : ∀ b, b ∈ s.block ↔ b ∈ s.logged

theorem Pc.reserve_le (k : Nat) (pc : Pc) : pc.reserve k ≤ k := Nat.sub_le _ _

theorem Pc.commits_of_clears (h : pc.clears) : pc.commits := by
  cases pc <;> simp_all [Pc.clears, Pc.commits]

theorem Pc.not_commits (h : pc.logs = some w) : ¬ pc.commits := by
  cases pc <;> simp_all [Pc.logs, Pc.commits]

theorem Admitted.positive (h : Admitted k n s ops) (hp : (s.pc p).logs = some w) : 0 < s.outstanding := by
  rw [h.outstanding]
  exact_mod_cast Finset.card_pos.2 ⟨p, (h.mem p).2 (by simp [hp])⟩

theorem Inv.not_committing (h : Inv k n s) (hp : (s.pc p).logs = some w) : s.committing = false := by
  obtain ⟨ops, hops⟩ := h.admitted
  have hpos := hops.positive hp
  by_contra hc
  have hidle := h.commits.idle (by simpa using hc)
  omega

theorem Inv.of_started (k n : Nat) (h : Started s) : Inv k n s := by
  rw [h]
  refine ⟨rfl, rfl, ⟨∅, ?_⟩, ?_, ⟨fun _ _ => rfl, fun _ _ => rfl⟩, List.nodup_nil, fun b => Iff.rfl⟩
  · exact ⟨by simp [initlog, Pc.logs], rfl, by simp [initlog], by simp [initlog, Pc.logs], by simp [initlog, Pc.logs]⟩
  · exact ⟨by simp [initlog, Pc.commits], by simp [initlog, Pc.commits], by simp [initlog]⟩

variable [DecidableEq P]

@[simp, grind =] theorem pc_goto : (s.goto p pc).pc q = if q = p then pc else s.pc q := update_apply ..

theorem sum_reserve (hpc : ∀ q, s'.pc q = if q = p then pc else s.pc q) (k : Nat) (hp : p ∈ ops) :
    ∑ q ∈ ops, (s'.pc q).reserve k + (s.pc p).reserve k = ∑ q ∈ ops, (s.pc q).reserve k + pc.reserve k := by
  have hrest : ∑ q ∈ ops.erase p, (s'.pc q).reserve k = ∑ q ∈ ops.erase p, (s.pc q).reserve k :=
    Finset.sum_congr rfl fun q hq => by rw [hpc, if_neg (Finset.ne_of_mem_erase hq)]
  rw [← Finset.add_sum_erase ops _ hp, ← Finset.add_sum_erase ops (fun q => (s.pc q).reserve k) hp, hrest, hpc, if_pos rfl]
  omega

/-- An operation goes on, with blocks added to the log only as its reservation shrinks. -/
theorem Admitted.advance (h : Admitted k n s ops) (hp : (s.pc p).logs.isSome) (hpc : ∀ q, s'.pc q = if q = p then pc else s.pc q)
    (hlogs : pc.logs = some w) (hout : s'.outstanding = s.outstanding)
    (hblock : ∀ b ∈ s.block, b ∈ s'.block) (hroom : ∀ b, pc.logging = some b → b ∈ w ∨ w.length < k)
    (hheld : ∀ b ∈ w, b ∈ s'.block)
    (hreserve : s'.block.length + pc.reserve k ≤ s.block.length + (s.pc p).reserve k) : Admitted k n s' ops := by
  have hmem := (h.mem p).2 hp
  have hsum := sum_reserve hpc k hmem
  obtain ⟨hops, hcount, hold, hrooms, hblocks⟩ := h
  exact ⟨by grind, by rw [hout, hcount], by omega, by grind, by grind⟩

/-- A process outside every operation moves. -/
theorem Admitted.other (h : Admitted k n s ops) (hp : (s.pc p).logs = none) (hpc : ∀ q, s'.pc q = if q = p then pc else s.pc q)
    (hlogs : pc.logs = none) (hout : s'.outstanding = s.outstanding) (hle : s'.block.length ≤ s.block.length)
    (hblock : ops = ∅ ∨ s'.block = s.block) : Admitted k n s' ops := by
  have hmem : p ∉ ops := by simp [h.mem, hp]
  have hsum : ∑ q ∈ ops, (s'.pc q).reserve k = ∑ q ∈ ops, (s.pc q).reserve k :=
    Finset.sum_congr rfl fun q hq => by grind
  obtain ⟨hops, hcount, hold, hrooms, hblocks⟩ := h
  exact ⟨by grind, by rw [hout, hcount], by omega, by grind, by grind⟩

/-- What the test of `begin_op` leaves room for: whenever it admits an operation besides `c` others, and the log is
empty if there are none, there are `k` blocks for each within `n`. -/
def Capacity (k n : Nat) : Prop :=
  ∀ len c, len + (c + 1) * MAXOPBLOCKS ≤ LOGSIZE → (c = 0 → len = 0) → len + (c + 1) * k ≤ n

/-- `begin_op` admits an operation whose reservation fits. -/
theorem Admitted.begin_op (h : Admitted k n s ops) (hcap : Capacity k n) (hclear : Cleared s) (hp : s.pc p = .user)
    (hexec : begin_op s p = some s') :
    Admitted k n s' (insert p ops) ∧ s' = { s with outstanding := s.outstanding + 1 }.goto p (.op []) ∧
      s.committing = false := by
  unfold log.begin_op at hexec
  split_ifs at hexec with hwait
  push Not at hwait
  obtain ⟨hcommit, htest⟩ := hwait
  cases hexec
  have hcommit : s.committing = false := by simpa using hcommit
  have hmem : p ∉ ops := by simp [h.mem, hp, Pc.logs]
  have hfits : s.block.length + (ops.card + 1) * k ≤ n := by
    refine hcap _ _ ?_ fun hzero => ?_
    · rw [h.outstanding] at htest
      exact_mod_cast htest
    · rw [hclear.idle hcommit (by rw [h.outstanding, hzero]; rfl)]
      rfl
  have hsum : ∑ q ∈ insert p ops, (({ s with outstanding := s.outstanding + 1 }.goto p (.op [])).pc q).reserve k ≤
      (insert p ops).card • k := Finset.sum_le_card_nsmul _ _ _ fun q _ => Pc.reserve_le k _
  rw [Finset.card_insert_of_notMem hmem, smul_eq_mul] at hsum
  obtain ⟨hops, hcount, -, hrooms, hblocks⟩ := h
  refine ⟨⟨by grind [Pc.logs], ?_, (Nat.add_le_add_left hsum _).trans hfits, ?_, ?_⟩, rfl, hcommit⟩
  · simp [Sys.goto, Finset.card_insert_of_notMem hmem, hcount]
  · grind [Pc.logging]
  · intro q v hq b hb
    exact hblocks q v (by grind [Pc.logs]) b hb

/-- `end_op` gives up what its operation has not used. -/
theorem Admitted.end_op (h : Admitted k n s ops) (hp : (s.pc p).logs.isSome) (hpc : ∀ q, s'.pc q = if q = p then pc else s.pc q)
    (hlogs : pc.logs = none) (hout : s'.outstanding = s.outstanding - 1) (hblock : s'.block = s.block) :
    Admitted k n s' (ops.erase p) := by
  have hmem := (h.mem p).2 hp
  have hpos := Finset.card_pos.2 ⟨p, hmem⟩
  have hsum : ∑ q ∈ ops.erase p, (s'.pc q).reserve k = ∑ q ∈ ops.erase p, (s.pc q).reserve k :=
    Finset.sum_congr rfl fun q hq => by rw [hpc, if_neg (Finset.ne_of_mem_erase hq)]
  have hle := Finset.add_sum_erase ops (fun q => (s.pc q).reserve k) hmem
  obtain ⟨hops, hcount, hold, hrooms, hblocks⟩ := h
  refine ⟨by grind, ?_, by rw [hblock, hsum]; omega, by grind, by grind⟩
  rw [hout, hcount, Finset.card_erase_of_mem hmem]
  omega

/-- A process moves without becoming, or ceasing to be, the one that commits. -/
theorem Commits.keep (h : Commits s) (hpc : ∀ q, s'.pc q = if q = p then pc else s.pc q) (hsame : pc.commits ↔ (s.pc p).commits)
    (hcommitting : s'.committing = s.committing) (hidle : s.committing = true → s'.outstanding = s.outstanding) :
    Commits s' := by
  have hiff (q : P) : (s'.pc q).commits ↔ (s.pc q).commits := by grind
  obtain ⟨hcommit, hunique, hzero⟩ := h
  refine ⟨?_, by grind, by grind⟩
  rw [hcommitting, hcommit]
  exact exists_congr fun q => (hiff q).symm

theorem Commits.enter (h : Commits s) (hfree : s.committing = false) (hpc : ∀ q, s'.pc q = if q = p then pc else s.pc q)
    (hp : pc.commits) (hcommitting : s'.committing = true) (hidle : s'.outstanding = 0) : Commits s' := by
  have hnone (q : P) : ¬ (s.pc q).commits := fun hq => by simpa [hfree] using h.committing.2 ⟨q, hq⟩
  exact ⟨iff_of_true hcommitting ⟨p, by grind⟩, by grind, fun _ => hidle⟩

theorem Commits.leave (h : Commits s) (hold : (s.pc p).commits) (hpc : ∀ q, s'.pc q = if q = p then pc else s.pc q)
    (hp : ¬ pc.commits) (hcommitting : s'.committing = false) : Commits s' := by
  have hnone (q : P) : ¬ (s'.pc q).commits := by
    have honly := h.unique q p
    grind
  exact ⟨iff_of_false (by simp [hcommitting]) fun ⟨q, hq⟩ => hnone q hq, by grind, by simp [hcommitting]⟩

omit [DecidableEq P] in
/-- Nothing commits, and an operation is in progress. -/
theorem Commits.cleared (h : Commits s) (hfree : s.committing = false) (hpos : 0 < s.outstanding) : Cleared s where
  commit p hp := by simp [h.committing.2 ⟨p, Pc.commits_of_clears hp⟩] at hfree
  idle _ hzero := by omega

/-- A process inside an operation goes on and the log stays as it is. -/
theorem Inv.advance (h : Inv k n s) (hp : (s.pc p).logs = some w) (hlogs : pc.logs = some w)
    (hroom : ∀ b, pc.logging = some b → b ∈ w ∨ w.length < k) : Inv k n (s.goto p pc) := by
  obtain ⟨ops, hops⟩ := h.admitted
  have hcommits : Commits (s.goto p pc) :=
    h.commits.keep (fun _ => pc_goto) (iff_of_false (Pc.not_commits hlogs) (Pc.not_commits hp)) rfl fun _ => rfl
  refine ⟨h.start, h.size, ⟨ops, ?_⟩, hcommits, hcommits.cleared (h.not_committing hp) (hops.positive hp), h.nodup,
    h.logged⟩
  exact hops.advance (by simp [hp]) (fun _ => pc_goto) hlogs rfl (fun _ hb => hb) hroom (hops.held p w hp)
    (by simp [Pc.reserve, hp, hlogs, Sys.goto])

theorem Inv.append (h : Inv k n s) (hp : s.pc p = .traced w b) : Inv k n (log_write.append s p w b) := by
  obtain ⟨ops, hops⟩ := h.admitted
  have hlogs : (s.pc p).logs = some w := by rw [hp]; rfl
  have hroom := hops.room p w b hlogs (by rw [hp]; rfl)
  have hheld := hops.held p w hlogs
  have hblock (c : Nat) : c ∈ (log_write.append s p w b).block ↔ c ∈ s.block ∨ c = b := by
    simp only [log_write.append, Sys.goto]
    grind
  have hcommits : Commits (log_write.append s p w b) :=
    h.commits.keep (fun _ => pc_goto) (iff_of_false (Pc.not_commits (w := w.insert b) rfl) (Pc.not_commits hlogs)) rfl fun _ => rfl
  refine ⟨h.start, h.size, ⟨ops, ?_⟩, hcommits,
    hcommits.cleared (h.not_committing hlogs) (hops.positive hlogs), ?_, fun c => ?_⟩
  · refine hops.advance (by simp [hlogs]) (fun _ => pc_goto) (w := w.insert b) rfl rfl (by grind) (by simp [Pc.logging])
      (by grind [List.mem_insert_iff]) ?_
    -- A block that is new to the log is new to its operation too.
    simp only [log_write.append, Sys.goto, Pc.reserve, hp, Pc.logs, Option.getD_some]
    split_ifs with hb
    · have hle : w.length ≤ (w.insert b).length := (List.sublist_insert b w).length_le
      omega
    · have hbw : b ∉ w := fun hbw => hb (hheld b hbw)
      have hlt := hroom.resolve_left hbw
      rw [List.length_insert_of_not_mem hbw, List.length_append, List.length_singleton]
      omega
  · simp only [log_write.append, Sys.goto]
    split_ifs with hb
    · exact h.nodup
    · exact List.nodup_append_comm.1 (List.nodup_cons.2 ⟨hb, h.nodup⟩)
  · rw [hblock, h.logged]
    simp [log_write.append, Sys.goto]

theorem Inv.end_op (h : Inv k n s) (hp : s.pc p = .op w) : Inv k n (end_op s p) ∧ (end_op s p).panic = s.panic := by
  obtain ⟨ops, hops⟩ := h.admitted
  have hlogs : (s.pc p).logs = some w := by rw [hp]; rfl
  have hpos := hops.positive hlogs
  have hfree := h.not_committing hlogs
  have hquiet := Pc.not_commits hlogs
  have hcleared (q : P) : ¬ (s.pc q).clears := fun hq => by
    simp [h.commits.committing.2 ⟨q, Pc.commits_of_clears hq⟩] at hfree
  simp only [log.end_op, hfree, Bool.false_eq_true, if_false]
  split_ifs with hlast
  · refine ⟨⟨h.start, h.size, ⟨_, hops.end_op (by simp [hlogs]) (fun _ => pc_goto) rfl rfl rfl⟩,
      h.commits.enter hfree (fun _ => pc_goto) trivial rfl hlast, ⟨fun q hq => ?_, by simp [Sys.goto]⟩, h.nodup, h.logged⟩, rfl⟩
    grind [Pc.clears]
  · have hcommits : Commits ({ s with outstanding := s.outstanding - 1 }.goto p .user) :=
      h.commits.keep (fun _ => pc_goto) (iff_of_false (by simp [Pc.commits]) hquiet) rfl fun hc => by simp [hfree] at hc
    have hout : 0 < s.outstanding - 1 := by omega
    rw [Sys.goto] at hcommits ⊢
    exact ⟨⟨h.start, h.size, ⟨_, hops.end_op (by simp [hlogs]) (fun _ => pc_goto) rfl rfl rfl⟩, by simpa [hfree] using hcommits,
      by simpa [hfree] using hcommits.cleared hfree hout, h.nodup, h.logged⟩, rfl⟩

/-- What one action of the committing process changes. -/
theorem commit_cases (hexec : commit s p = some s') :
    (s.pc p).commits ∧ ∃ pc, (∀ q, s'.pc q = if q = p then pc else s.pc q) ∧ pc.logs = none ∧ s'.start = s.start ∧ s'.size = s.size ∧
      s'.outstanding = s.outstanding ∧ s'.panic = s.panic ∧
      (s'.block = s.block ∧ s'.logged = s.logged ∨ s'.block = [] ∧ s'.logged = []) ∧
      (pc.commits ∧ s'.committing = s.committing ∨ ¬ pc.commits ∧ s'.committing = false) ∧
      (pc.clears ∨ ¬ pc.commits → s'.block = [] ∨ (s.pc p).clears ∧ s'.block = s.block) ∧
      (s'.written = s.written ∨ ∃ tail < s.block.length, s'.written = s.written ++ [s.start + tail + 1]) := by
  revert hexec
  fun_cases log.commit s p <;> intro hexec <;> cases hexec
  all_goals
    refine ⟨by grind [Pc.commits], _, fun _ => pc_goto, ?_⟩
    try split_ifs
  all_goals grind [Sys.goto, Pc.commits, Pc.clears, Pc.logs]

theorem Inv.commit (h : Inv k n s) (hexec : commit s p = some s') : Inv k n s' := by
  obtain ⟨hp, pc, hpc, hlogs, hstart, hsize, hout, -, hblock, hcommits, hclears, -⟩ := commit_cases hexec
  obtain ⟨ops, hops⟩ := h.admitted
  have hcommitting := h.commits.committing.2 ⟨p, hp⟩
  have hidle := h.commits.idle hcommitting
  have hempty : ops = ∅ := by
    have hcard := hops.outstanding
    rw [hidle] at hcard
    exact Finset.card_eq_zero.1 (by omega)
  have hnone : (s.pc p).logs = none := by
    cases hq : (s.pc p).logs with
    | none => rfl
    | some w => exact absurd hp (Pc.not_commits hq)
  have hempty' (hpc' : pc.clears ∨ ¬ pc.commits) : s'.block = [] := by
    rcases hclears hpc' with heq | ⟨hold, heq⟩
    · exact heq
    · exact heq.trans (h.cleared.commit p hold)
  refine ⟨hstart.trans h.start, hsize.trans h.size, ⟨ops, ?_⟩, ?_, ⟨fun q hq => ?_, fun hfree _ => ?_⟩, ?_,
    fun b => ?_⟩
  · refine hops.other hnone hpc hlogs hout ?_ (.inl hempty)
    rcases hblock with ⟨heq, _⟩ | ⟨heq, _⟩ <;> simp [heq]
  · rcases hcommits with ⟨hpc', hsame⟩ | ⟨hpc', hfree⟩
    · exact h.commits.keep hpc (iff_of_true hpc' hp) hsame fun _ => hout
    · exact h.commits.leave hp hpc hpc' hfree
  · have honly := h.commits.unique q p
    grind [Pc.commits_of_clears]
  · rcases hcommits with ⟨-, hsame⟩ | ⟨hpc', -⟩
    · simp [hsame, hcommitting] at hfree
    · exact hempty' (.inr hpc')
  · rcases hblock with ⟨heq, _⟩ | ⟨heq, _⟩ <;> simp [heq, h.nodup]
  · rcases hblock with ⟨heq, heq'⟩ | ⟨heq, heq'⟩ <;> simp [heq, heq', h.logged b]

/-- Every action keeps the invariant if operations log at most `k` blocks. The only panic it can lead to is that of
the first test of `log_write`, and only `commit` writes to the log area. -/
theorem Inv.exec {a : Action P} (h : Inv k n s) (hcap : Capacity k n) (hexec : exec s a = some s')
    (hlog : ∀ p b w, a = .log_write p b → s.pc p = .op w → b ∈ w ∨ w.length < k) :
    Inv k n s' ∧ (s'.panic = s.panic ∨ s'.panic = some "too big a transaction" ∧ s.size - 1 ≤ s.block.length) ∧
    (s'.written = s.written ∨ ∃ tail < s.block.length, s'.written = s.written ++ [s.start + tail + 1]) := by
  obtain ⟨ops, hops⟩ := h.admitted
  revert hexec
  fun_cases log.exec s a <;> intro hexec <;> try cases hexec
  case case1 p hp =>
    obtain ⟨hops', rfl, hfree⟩ := hops.begin_op hcap h.cleared hp hexec
    have hcommits : Commits ({ s with outstanding := s.outstanding + 1 }.goto p (.op [])) :=
      h.commits.keep (fun _ => pc_goto) (by simp [hp, Pc.commits]) rfl fun hc => by simp [hfree] at hc
    refine ⟨⟨h.start, h.size, ⟨_, hops'⟩, hcommits, hcommits.cleared hfree ?_, h.nodup, h.logged⟩, .inl rfl, .inl rfl⟩
    simp only [Sys.goto, hops.outstanding]
    omega
  case case3 p b w hpc hroom =>
    unfold log.log_write
    split_ifs with hbig
    · have hsize := h.size
      refine ⟨⟨h.start, h.size, ⟨ops, hops.1, hops.2, hops.3, hops.4, hops.5⟩, ⟨h.commits.1, h.commits.2, h.commits.3⟩,
        ⟨h.cleared.1, h.cleared.2⟩, h.nodup, h.logged⟩, .inr ⟨rfl, ?_⟩, .inl rfl⟩
      rw [hsize] at hbig ⊢
      simp only [LOGSIZE, MAXOPBLOCKS] at hbig ⊢
      omega
    · refine ⟨h.advance (w := w) (by rw [hpc]; rfl) rfl fun c hc => ?_, .inl rfl, .inl rfl⟩
      cases hc
      exact hlog p b w rfl hpc
  case case6 p w b hpc =>
    have hlogs : (s.pc p).logs = some w := by rw [hpc]; rfl
    have hpos := hops.positive hlogs
    unfold log_write.trace
    rw [if_neg (by omega)]
    refine ⟨h.advance hlogs rfl fun c hc => ?_, .inl rfl, .inl rfl⟩
    cases hc
    exact hops.room p w b hlogs (by rw [hpc]; rfl)
  case case8 p w b hpc => exact ⟨h.append hpc, .inl rfl, .inl rfl⟩
  case case10 p w hpc =>
    have hend := h.end_op hpc
    have hfree := h.not_committing (p := p) (w := w) (by rw [hpc]; rfl)
    refine ⟨hend.1, .inl hend.2, ?_⟩
    simp only [log.end_op, hfree, Bool.false_eq_true, if_false]
    split_ifs <;> exact .inl rfl
  case case12 p =>
    obtain ⟨-, pc, -, -, -, -, -, hpanic, -, -, -, hwritten⟩ := commit_cases hexec
    exact ⟨h.commit hexec, .inl hpanic, hwritten⟩

/-- What admission guarantees in every run: the log never holds more than `LOGSIZE` blocks, the blocks logged since the
last commit once each; no other test than the first of `log_write` can fail; and `commit` runs alone. -/
theorem log_bounded {K : Sys P → Action P → Prop} (h : Reachable Started (Step K) s) :
    s.block.length ≤ LOGSIZE ∧ (s.panic = none ∨ s.panic = some "too big a transaction") ∧
    (∀ p, (s.pc p).commits → s.outstanding = 0 ∧ ∀ q, (s.pc q).logs = none) ∧
    s.block.Nodup ∧ ∀ b, b ∈ s.block ↔ b ∈ s.logged := by
  have hcap : Capacity MAXOPBLOCKS LOGSIZE := fun len c h _ => h
  obtain ⟨hi, hpanic⟩ :
      Inv MAXOPBLOCKS LOGSIZE s ∧ (s.panic = none ∨ s.panic = some "too big a transaction") := by
    refine h.inv (I := fun s => Inv MAXOPBLOCKS LOGSIZE s ∧ (s.panic = none ∨ s.panic = some "too big a transaction"))
      (fun s hs => ⟨.of_started _ _ hs, ?_⟩) fun s s' ⟨hi, _⟩ hst => ?_
    · rw [hs]
      exact .inl rfl
    · obtain ⟨a, hpanic, _, hexec⟩ := hst
      obtain ⟨hi', hpanic', _⟩ := hi.exec hcap hexec fun p b w ha hpc => by
        subst ha
        simp only [log.exec, hpc] at hexec
        split_ifs at hexec with hroom
        exact hroom
      exact ⟨hi', hpanic'.imp (fun heq => heq.trans hpanic) fun heq => heq.1⟩
  obtain ⟨ops, hops⟩ := hi.admitted
  have hreserved := hops.reserved
  refine ⟨by omega, hpanic, fun p hp => ?_, hi.nodup, hi.logged⟩
  have hcommitting := hi.commits.committing.2 ⟨p, hp⟩
  refine ⟨hi.commits.idle hcommitting, fun q => ?_⟩
  cases hq : (s.pc q).logs with
  | none => rfl
  | some w => simp [hi.not_committing hq] at hcommitting

/-- An operation logs at most `MAXOPBLOCKS - 1` distinct blocks. -/
def Frugal (s : Sys P) : Action P → Prop
  | .log_write p b => ∀ w, s.pc p = .op w → b ∈ w ∨ w.length < MAXOPBLOCKS - 1
  | _ => True

/-- With one block less for each operation, those that `begin_op` admits together fill `log.size - 2` blocks at most:
a second one is admitted only with ten blocks to spare, and the first finds the log empty. -/
theorem capacity_frugal : Capacity (MAXOPBLOCKS - 1) (LOGSIZE - 2) := by
  intro len c hlen hempty
  simp only [MAXOPBLOCKS, LOGSIZE] at *
  omega

/-- The log fits the log area. -/
structure Fits (s : Sys P) : Prop where
  inv : Inv (MAXOPBLOCKS - 1) (LOGSIZE - 2) s
  panic : s.panic = none
  written : ∀ k ∈ s.written, 2 ≤ k ∧ k < 2 + LOGSIZE

omit [DecidableEq P] in
theorem Fits.of_started (h : Started s) : Fits s := by
  refine ⟨.of_started _ _ h, ?_, ?_⟩ <;> rw [h] <;> simp [initlog]

theorem Fits.step (h : Fits s) (hst : Step Frugal s s') : Fits s' := by
  obtain ⟨a, hpanic, hfrugal, hexec⟩ := hst
  obtain ⟨hi, hpanic', hwritten⟩ := h.inv.exec capacity_frugal hexec fun p b w ha hpc => by
    subst ha
    exact hfrugal w hpc
  have hsize := h.inv.size
  have hlen : s.block.length ≤ LOGSIZE - 2 := by
    obtain ⟨ops, hops⟩ := h.inv.admitted
    exact (Nat.le_add_right _ _).trans hops.reserved
  refine ⟨hi, ?_, ?_⟩
  · rcases hpanic' with heq | ⟨-, hbig⟩
    · exact heq.trans hpanic
    · simp only [hsize, LOGSIZE, MAXOPBLOCKS] at *
      omega
  · rcases hwritten with heq | ⟨tail, htail, heq⟩
    · rw [heq]
      exact h.written
    · intro k hk
      rw [heq, List.mem_append, List.mem_singleton] at hk
      rcases hk with hk | rfl
      · exact h.written k hk
      · have hstart := h.inv.start
        simp only [LOGSIZE, MAXOPBLOCKS] at *
        omega

/-- In every run in which an operation logs at most `MAXOPBLOCKS - 1` distinct blocks nothing panics, `commit` runs
alone, the log holds the blocks logged since the last commit once each, and `write_log` stays inside the log area. -/
theorem log_safe (h : Reachable Started (Step Frugal) s) :
    s.panic = none ∧ (∀ p, (s.pc p).commits → s.outstanding = 0 ∧ ∀ q, (s.pc q).logs = none) ∧
    s.block.Nodup ∧ (∀ b, b ∈ s.block ↔ b ∈ s.logged) ∧ ∀ k ∈ s.written, 2 ≤ k ∧ k < 2 + LOGSIZE := by
  obtain ⟨-, -, halone, hnodup, hlogged⟩ := log_bounded h
  have hfits : Fits s := h.inv (fun s hs => .of_started hs) fun s s' hi hst => hi.step hst
  exact ⟨hfits.panic, halone, hnodup, hlogged, hfits.written⟩

/-- Two operations that overlap log the same block, and the second of them commits. -/
theorem log_safe_shared : ∃ s : Sys Bool, s.pc true = .write_log 1 ∧ s.written = [3] ∧ s.panic = none ∧
    s.block.Nodup ∧ (∀ b, b ∈ s.block ↔ b ∈ s.logged) ∧ ∀ k ∈ s.written, 2 ≤ k ∧ k < 2 + LOGSIZE := by
  have hstart : Reachable Started (Step Frugal) (initlog LOGSIZE : Sys Bool) := .start rfl
  have hbegin := (hstart.next (.exec (.begin_op false) rfl trivial rfl)).next (.exec (.begin_op true) rfl trivial rfl)
  have hfalse := (((hbegin.next (.exec (.log_write false 59) rfl (fun w hw => by cases hw; decide) rfl)).next
    (.exec (.trace false) rfl trivial rfl)).next (.exec (.append false) rfl trivial rfl)).next
    (.exec (.end_op false) rfl trivial rfl)
  have htrue := (((hfalse.next (.exec (.log_write true 59) rfl (fun w hw => by cases hw; decide) rfl)).next
    (.exec (.trace true) rfl trivial rfl)).next (.exec (.append true) rfl trivial rfl)).next
    (.exec (.end_op true) rfl trivial rfl)
  have hcommit := (htrue.next (.exec (.commit true) rfl trivial rfl)).next (.exec (.commit true) rfl trivial rfl)
  have hsafe := log_safe hcommit
  exact ⟨_, rfl, rfl, hsafe.1, hsafe.2.2⟩

/-- An operation logs blocks that are new to the log, as long as there is room. -/
theorem logs_new {l : List Nat} (h : Reachable Started (Step fun _ _ => True) s) (hpanic : s.panic = none)
    (hout : 0 < s.outstanding) (hpc : s.pc p = .op w) (hw : w.length + l.length ≤ MAXOPBLOCKS)
    (hroom : s.block.length + l.length < s.size) (hsize : s.size = LOGSIZE) (hnew : (s.block ++ l).Nodup) :
    ∃ s', Reachable Started (Step fun _ _ => True) s' ∧ s'.panic = none ∧ s'.outstanding = s.outstanding ∧
      s'.size = s.size ∧ s'.block = s.block ++ l ∧ (∀ q, q ≠ p → s'.pc q = s.pc q) ∧
      ∃ w', s'.pc p = .op w' ∧ w'.length ≤ w.length + l.length := by
  induction l generalizing s w with
  | nil => exact ⟨s, h, hpanic, rfl, rfl, by simp, fun _ _ => rfl, w, hpc, by simp⟩
  | cons b l ih =>
    simp only [List.length_cons] at hw hroom
    have hb : b ∉ s.block := fun hb => by
      rw [List.nodup_append] at hnew
      exact hnew.2.2 b hb b (by simp) rfl
    have hlog : log.exec s (.log_write p b) = some (s.goto p (.sized w b)) := by
      simp only [log.exec, hpc, log.log_write]
      rw [if_pos (.inr (by omega)), if_neg]
      simp only [hsize, LOGSIZE, MAXOPBLOCKS] at *
      omega
    have htrace : log.exec (s.goto p (.sized w b)) (.trace p) = some (s.goto p (.traced w b)) := by
      simp [log.exec, log_write.trace, Sys.goto, show ¬ s.outstanding < 1 by omega]
    have happend : log.exec (s.goto p (.traced w b)) (.append p) =
        some ({ s with block := s.block ++ [b], logged := s.logged ++ [b] }.goto p (.op (w.insert b))) := by
      simp [log.exec, log_write.append, Sys.goto, hb]
    have hop := ((h.next (.exec (.log_write p b) hpanic trivial hlog)).next
      (.exec (.trace p) hpanic trivial htrace)).next (.exec (.append p) hpanic trivial happend)
    have hlen : (w.insert b).length ≤ w.length + 1 := by
      rw [List.length_insert]
      split_ifs <;> omega
    obtain ⟨s', hreach, hpanic', hout', hsize', hblock, hother, w', hpc', hw'⟩ := ih (w := w.insert b) hop hpanic hout
      (by simp [Sys.goto]) (by omega) (by simp [Sys.goto]; omega) hsize (by simpa [Sys.goto] using hnew)
    refine ⟨s', hreach, hpanic', hout', hsize', by simpa [Sys.goto] using hblock, fun q hq => ?_, w', hpc', ?_⟩
    · rw [hother q hq]
      simp [Sys.goto, hq]
    · simp only [List.length_cons]
      omega

/-- Three operations are admitted together, and the thirtieth block that they log panics. -/
theorem log_write_panics :
    ∃ s : Sys (Fin 3), Reachable Started (Step fun _ _ => True) s ∧ s.panic = some "too big a transaction" := by
  have hstart : Reachable Started (Step fun _ _ => True) (initlog LOGSIZE : Sys (Fin 3)) := .start rfl
  have hbegin := ((hstart.next (.exec (.begin_op 0) rfl trivial rfl)).next (.exec (.begin_op 1) rfl trivial rfl)).next
    (.exec (.begin_op 2) rfl trivial rfl)
  obtain ⟨s₀, h₀, hpanic₀, hout₀, hsize₀, hblock₀, hother₀, -⟩ :=
    logs_new (p := 0) (l := List.range' 100 10) hbegin rfl (by decide) rfl (by decide) (by decide) rfl (by decide)
  obtain ⟨s₁, h₁, hpanic₁, hout₁, hsize₁, hblock₁, hother₁, -⟩ :=
    logs_new (p := 1) (w := []) (l := List.range' 200 10) h₀ hpanic₀ (by rw [hout₀]; decide) (hother₀ 1 (by decide))
      (by decide) (by rw [hblock₀, hsize₀]; decide) hsize₀ (by rw [hblock₀]; decide)
  obtain ⟨s₂, h₂, hpanic₂, -, hsize₂, hblock₂, -, w, hpc₂, hw⟩ :=
    logs_new (p := 2) (w := []) (l := List.range' 300 9) h₁ hpanic₁ (by rw [hout₁, hout₀]; decide)
      ((hother₁ 2 (by decide)).trans (hother₀ 2 (by decide))) (by decide)
      (by rw [hblock₁, hblock₀, hsize₁, hsize₀]; decide) (hsize₁.trans hsize₀) (by rw [hblock₁, hblock₀]; decide)
  have hfull : s₂.block.length = 29 := by
    rw [hblock₂, hblock₁, hblock₀]
    decide
  have hsize : s₂.size = LOGSIZE := hsize₂.trans (hsize₁.trans hsize₀)
  have hlog : log.exec s₂ (.log_write 2 400) = some { s₂ with panic := some "too big a transaction" } := by
    simp only [log.exec, hpc₂, log.log_write, hfull, hsize]
    rw [if_pos (.inr (Nat.lt_succ_of_le hw)), if_pos (by decide)]
  exact ⟨_, h₂.next (.exec (.log_write 2 400) hpanic₂ trivial hlog), rfl⟩

end xv6.log
