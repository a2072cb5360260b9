import Xv6.Lib.Fifo
import Xv6.Pipe.Wakeup

open Function run fifo

namespace xv6.Pipe

variable {P : Type} {s s' : Sys P} {p q : P} {pc : Pc} {reads : List (Nat × List UInt8)}

/-- The call that leaves the loop of `piperead` at the next action of `p`: how
many bytes it asked for and the ones it returns. -/
def returned (s : Sys P) (p : P) : List (Nat × List UInt8) :=
  match s.pc p with
  | .rFor n got => if got.length < n ∧ ¬ s.pipe.empty then [] else [(n, got)]
  | _ => []

/-- The places in the loop of `piperead`. -/
def Pc.copying : Pc → Prop
  | .rFor .. => True
  | _ => False

theorem Pc.locked_of_copying (h : pc.copying) : pc.locked := by
  cases pc <;> simp_all [Pc.copying, Pc.locked]

theorem returned_of_not_copying (h : ¬ (s.pc p).copying) : returned s p = [] := by
  cases hpc : s.pc p <;> simp_all [returned, Pc.copying]

/-- The invariant that ties the bytes stored and taken to the ring. The bytes
that the calls of `piperead` return are those taken from the pipe, and the
reader in its loop, if any, is the one that took the last ones. -/
structure Channel (s : Sys P) (reads : List (Nat × List UInt8)) : Prop where
  lock : ∀ p, s.lock = some p ↔ (s.pc p).locked
  bytes : ∃ unread, s.stored = s.taken ++ unread ∧
    Queue (2 ^ 32) s.pipe.data s.pipe.nread.toNat s.pipe.nwrite.toNat unread
  got : ∀ p n got, s.pc p = .rFor n got → s.taken = (reads.map Prod.snd).flatten ++ got
  quiet : (∀ p, ¬ (s.pc p).copying) → s.taken = (reads.map Prod.snd).flatten
  ready : ∀ p n, s.pc p = .rFor n [] → ¬ (s.pipe.empty ∧ s.pipe.writeopen)

theorem Channel.of_allocated (h : Allocated s) : Channel s [] := by
  obtain ⟨data, killed, rfl⟩ := h
  refine ⟨fun p => ?_, ⟨[], rfl, Queue.nil (Nat.two_pow_pos 32)⟩, fun p n got hpc => ?_, fun _ => rfl, fun p n hpc => ?_⟩
  · simp [pipealloc, Pc.locked]
  · simp [pipealloc] at hpc
  · simp [pipealloc] at hpc

/-- Whoever holds the lock, nobody else is in the loop of `piperead`. -/
theorem Channel.not_copying (h : Channel s reads) (hp : (s.pc p).locked) (hq : q ≠ p) : ¬ (s.pc q).copying := by
  intro hcopying
  have hlock := (h.lock q).2 (Pc.locked_of_copying hcopying)
  rw [(h.lock p).2 hp] at hlock
  exact hq (Option.some.inj hlock).symm

/-- What is left to check when only `p` may be in the loop of `piperead`. -/
theorem Channel.of_alone (hlock : ∀ p, s.lock = some p ↔ (s.pc p).locked)
    (hbytes : ∃ unread, s.stored = s.taken ++ unread ∧
      Queue (2 ^ 32) s.pipe.data s.pipe.nread.toNat s.pipe.nwrite.toNat unread)
    (halone : ∀ q, (s.pc q).copying → q = p)
    (hgot : ∀ n got, s.pc p = .rFor n got → s.taken = (reads.map Prod.snd).flatten ++ got)
    (hquiet : ¬ (s.pc p).copying → s.taken = (reads.map Prod.snd).flatten)
    (hready : ∀ n, s.pc p = .rFor n [] → ¬ (s.pipe.empty ∧ s.pipe.writeopen)) : Channel s reads := by
  refine ⟨hlock, hbytes, fun q n got hq => ?_, fun hnone => hquiet (hnone p), fun q n hq => ?_⟩
  · obtain rfl := halone q (by rw [hq]; trivial)
    exact hgot n got hq
  · obtain rfl := halone q (by rw [hq]; trivial)
    exact hready n hq

/-- Nothing but the calls that are over has been taken while the holder of the lock is not in the loop. -/
theorem Channel.taken_eq (h : Channel s reads) (hp : (s.pc p).locked) (hnot : ¬ (s.pc p).copying) :
    s.taken = (reads.map Prod.snd).flatten := by
  have hother (q : P) (hq : q ≠ p) := h.not_copying hp hq
  exact h.quiet fun q => by grind

theorem Channel.put (h : Channel s reads) (b : UInt8) (hfull : ¬ s.pipe.full) :
    ∃ unread, s.stored ++ [b] = s.taken ++ unread ∧
      Queue (2 ^ 32) (s.pipe.put b).data s.pipe.nread.toNat (s.pipe.put b).nwrite.toNat unread := by
  obtain ⟨unread, hstored, hqueue⟩ := h.bytes
  refine ⟨unread ++ [b], by rw [hstored, List.append_assoc], ?_⟩
  have hroom : unread.length < PIPESIZE := by
    refine lt_of_le_of_ne hqueue.room fun heq => hfull (UInt32.toNat_inj.1 ?_)
    rw [(hqueue.full_iff s.pipe.nread.toNat_lt (by decide)).2 heq, UInt32.toNat_add]
    rfl
  have hpush := hqueue.push (a := b) (by decide) hroom
  rwa [← show (s.pipe.nwrite + 1).toNat = (s.pipe.nwrite.toNat + 1) % 2 ^ 32 from UInt32.toNat_add ..] at hpush

theorem Channel.get (h : Channel s reads) (hempty : ¬ s.pipe.empty) :
    ∃ unread, s.stored = s.taken ++ [s.pipe.head] ++ unread ∧
      Queue (2 ^ 32) s.pipe.data (s.pipe.nread + 1).toNat s.pipe.nwrite.toNat unread := by
  obtain ⟨unread, hstored, hqueue⟩ := h.bytes
  cases unread with
  | nil => exact absurd (UInt32.toNat_inj.1 ((hqueue.empty_iff s.pipe.nread.toNat_lt (by decide)).2 rfl)) hempty
  | cons b unread =>
    obtain ⟨hb, hpop⟩ := hqueue.pop (by decide)
    refine ⟨unread, ?_, by rwa [UInt32.toNat_add]⟩
    rw [hstored, show s.pipe.head = b from hb, List.append_assoc, List.singleton_append]

variable [DecidableEq P]

/-- The runs of a pipe with the calls of `piperead` that have left their loop, in order. -/
inductive Run : Sys P → List (Nat × List UInt8) → Prop
  | alloc {s : Sys P} : Allocated s → Run s []
  | call {s : Sys P} {reads} (p : P) (pc : Pc) : Run s reads → s.pc p = .user → pc.isCall → Run (s.goto p pc) reads
  | exec {s s' : Sys P} {reads} (p : P) :
    Run s reads → s.chan p = none → exec s p = some s' → Run s' (reads ++ returned s p)
  | kill {s : Sys P} {reads} (p : P) : Run s reads → s.ptable = none → Run (kill s p) reads

/-- An action moves `p` alone, and takes or gives up the lock as its place in the code says. -/
theorem exec_lock (hexec : exec s p = some s') (hlock : s.lock = some p ↔ (s.pc p).locked) :
    ∃ pc, (∀ q, s'.pc q = if q = p then pc else s.pc q) ∧ (s'.lock = some p ↔ pc.locked) ∧
      ∀ q, q ≠ p → (s'.lock = some q ↔ s.lock = some q) := by
  have hother (q : P) (hq : q ≠ p) : some p ≠ some q := fun heq => hq (Option.some.inj heq).symm
  unfold exec acquire wakeup sleep at hexec
  split at hexec <;> rename_i hpc <;> simp only [hpc, Pc.locked, iff_true, iff_false] at hlock <;>
    (try split_ifs at hexec) <;> cases hexec <;>
    exact ⟨_, fun _ => pc_goto, by simp_all [Pc.locked, release, sched, Sys.goto, Sys.wakeup], fun q hq => by
      simp_all [release, sched, Sys.goto, Sys.wakeup]⟩

/-- The actions that concern the bytes of the pipe or the loop of `piperead`. -/
inductive Acts (s : Sys P) (p : P) : Sys P → Prop
  | put {n b addr} : s.pc p = .wWhile n b addr → ¬ s.pipe.full →
    Acts s p ({ s with pipe := s.pipe.put b, stored := s.stored ++ [b] }.goto p (.wFor n addr))
  | enter {n} : s.pc p = .rWhile n → ¬ (s.pipe.empty ∧ s.pipe.writeopen) → Acts s p (s.goto p (.rFor n []))
  | get {n got} : s.pc p = .rFor n got → got.length < n → ¬ s.pipe.empty →
    Acts s p ({ s with
      pipe := { s.pipe with nread := s.pipe.nread + 1 }
      taken := s.taken ++ [s.pipe.head] }.goto p (.rFor n (got ++ [s.pipe.head])))
  | leave {n got} : s.pc p = .rFor n got → ¬ (got.length < n ∧ ¬ s.pipe.empty) → Acts s p (s.goto p (.rDone got))
  | close {writable} : s.pc p = .cSet writable →
    Acts s p ({ s with pipe := s.pipe.close writable }.goto p (.cWakeup writable))
  | other {s' : Sys P} : ¬ (s.pc p).copying → ¬ (s'.pc p).copying → s'.pipe = s.pipe → s'.stored = s.stored →
    s'.taken = s.taken → Acts s p s'

theorem exec_acts (hexec : exec s p = some s') : Acts s p s' := by
  unfold exec acquire wakeup sleep at hexec
  split at hexec
  case h_5 n b addr hpc =>
    split_ifs at hexec with hfull <;> cases hexec
    · exact .other (by simp [hpc, Pc.copying]) (by simp [Sys.goto, Pc.copying]) rfl rfl rfl
    · exact .put hpc hfull
  case h_14 n hpc =>
    split_ifs at hexec with hblocked <;> cases hexec
    · exact .other (by simp [hpc, Pc.copying]) (by simp [Sys.goto, Pc.copying]) rfl rfl rfl
    · exact .enter hpc hblocked
  case h_19 n got hpc =>
    split_ifs at hexec with hmore <;> cases hexec
    · exact .get hpc hmore.1 hmore.2
    · exact .leave hpc hmore
  case h_23 writable hpc =>
    cases hexec
    exact .close hpc
  all_goals
    rename_i hpc
    try split_ifs at hexec
    all_goals
      cases hexec <;>
      exact .other (by simp [hpc, Pc.copying]) (by simp [Sys.goto, Pc.copying, sched, release]) rfl rfl rfl

/-- Every action keeps the invariant; one that leaves the loop of `piperead` adds its call. -/
theorem Channel.exec (h : Channel s reads) (hexec : exec s p = some s') : Channel s' (reads ++ returned s p) := by
  obtain ⟨pc, hpc, hlock, hlocks⟩ := exec_lock hexec (h.lock p)
  have hother (q : P) (hq : q ≠ p) : s'.pc q = s.pc q := by rw [hpc, if_neg hq]
  have hlock' (q : P) : s'.lock = some q ↔ (s'.pc q).locked := by
    have hq := h.lock q
    grind
  -- An action under the lock finds nobody else in the loop.
  have halone (hp : (s.pc p).locked) (q : P) (hq : (s'.pc q).copying) : q = p := by
    by_contra hne
    exact h.not_copying hp hne (hother q hne ▸ hq)
  cases exec_acts hexec with
  | @put n b addr hp hfull =>
    have hnot : ¬ (s.pc p).copying := by simp [hp, Pc.copying]
    have hheld : (s.pc p).locked := by simp [hp, Pc.locked]
    rw [returned_of_not_copying hnot, List.append_nil]
    refine .of_alone hlock' (h.put b hfull) (halone hheld) ?_ (fun _ => h.taken_eq hheld hnot) ?_
    · simp [Sys.goto]
    · simp [Sys.goto]
  | @enter n hp hready =>
    have hnot : ¬ (s.pc p).copying := by simp [hp, Pc.copying]
    have hheld : (s.pc p).locked := by simp [hp, Pc.locked]
    rw [returned_of_not_copying hnot, List.append_nil]
    refine .of_alone hlock' h.bytes (halone hheld) (fun n' got hgot => ?_) (fun _ => h.taken_eq hheld hnot) fun _ _ => hready
    simp only [Sys.goto, update_self, Pc.rFor.injEq] at hgot
    rw [← hgot.2, List.append_nil]
    exact h.taken_eq hheld hnot
  | @get n got hp hmore hempty =>
    have hheld : (s.pc p).locked := by simp [hp, Pc.locked]
    have hnone : returned s p = [] := by simp [returned, hp, hmore, hempty]
    rw [hnone, List.append_nil]
    refine .of_alone hlock' (h.get hempty) (halone hheld) (fun n' got' hgot => ?_) (fun hnot => ?_) fun n' hgot => ?_
    · simp only [Sys.goto, update_self, Pc.rFor.injEq] at hgot
      rw [← hgot.2, ← List.append_assoc, ← h.got p n got hp]
      rfl
    · simp [Sys.goto, Pc.copying] at hnot
    · simp [Sys.goto] at hgot
  | @leave n got hp hdone =>
    have hheld : (s.pc p).locked := by simp [hp, Pc.locked]
    have hcall : returned s p = [(n, got)] := by simp only [returned, hp, if_neg hdone]
    rw [hcall]
    refine .of_alone hlock' h.bytes (halone hheld) ?_ (fun _ => ?_) ?_
    · simp [Sys.goto]
    · simpa [Sys.goto] using h.got p n got hp
    · simp [Sys.goto]
  | @close writable hp =>
    have hnot : ¬ (s.pc p).copying := by simp [hp, Pc.copying]
    have hheld : (s.pc p).locked := by simp [hp, Pc.locked]
    have hbytes : (s.pipe.close writable).data = s.pipe.data ∧ (s.pipe.close writable).nread = s.pipe.nread ∧
        (s.pipe.close writable).nwrite = s.pipe.nwrite := by
      cases writable <;> exact ⟨rfl, rfl, rfl⟩
    rw [returned_of_not_copying hnot, List.append_nil]
    refine .of_alone hlock' ?_ (halone hheld) ?_ (fun _ => h.taken_eq hheld hnot) ?_
    · simp only [Sys.goto, hbytes]
      exact h.bytes
    · simp [Sys.goto]
    · simp [Sys.goto]
  | other hold hnew hpipe hstored htaken =>
    rw [returned_of_not_copying hold, List.append_nil]
    obtain ⟨-, hbytes, hgot, hquiet, hready⟩ := h
    have hloop (q : P) (n : Nat) (got : List UInt8) (hq : s'.pc q = .rFor n got) : s.pc q = .rFor n got := by
      rw [← hq, hother q fun heq => hnew (by rw [← heq, hq]; trivial)]
    refine ⟨hlock', by rw [hpipe, hstored, htaken]; exact hbytes, ?_, fun hnone => ?_, ?_⟩
    · grind
    · rw [htaken]
      exact hquiet fun q => by grind
    · grind

theorem Channel.call (h : Channel s reads) (huser : s.pc p = .user) (hcall : pc.isCall) : Channel (s.goto p pc) reads := by
  have hpc : ¬ pc.locked ∧ ¬ pc.copying := by
    cases pc <;> simp_all [Pc.isCall, Pc.locked, Pc.copying]
  have hp : ¬ (s.pc p).locked ∧ ¬ (s.pc p).copying := by simp [huser, Pc.locked, Pc.copying]
  have hloop (q : P) (n : Nat) (got : List UInt8) (hq : (s.goto p pc).pc q = .rFor n got) : s.pc q = .rFor n got := by
    rw [pc_goto] at hq
    split_ifs at hq with hqp
    · exact absurd (by rw [hq]; trivial) hpc.2
    · exact hq
  obtain ⟨hlock, hbytes, hgot, hquiet, hready⟩ := h
  have hlock' (q : P) : s.lock = some q ↔ ((s.goto p pc).pc q).locked := by grind
  exact ⟨hlock', hbytes, fun q n got hq => hgot q n got (hloop q n got hq), fun hnone => hquiet fun q => by grind,
    fun q n hq => hready q n (hloop q n [] hq)⟩

theorem Run.channel (h : Run s reads) : Channel s reads := by
  induction h with
  | alloc h => exact .of_allocated h
  | call p pc _ huser hcall ih => exact ih.call huser hcall
  | exec p _ _ hexec ih => exact ih.exec hexec
  | kill p _ _ ih => exact ⟨ih.lock, ih.bytes, ih.got, ih.quiet, ih.ready⟩

/-- A pipe is a first-in first-out channel, also when its counters wrap: what the
calls of `piperead` return, in order, is a prefix of what was stored, `nwrite -
nread` is the number of bytes not yet read, and a call for at least one byte
returns none only at the end of the stream. -/
theorem pipe_fifo (h : Run s reads) :
    (reads.map Prod.snd).flatten <+: s.stored ∧ s.taken <+: s.stored ∧
      (s.pipe.nwrite - s.pipe.nread).toNat + s.taken.length = s.stored.length ∧
      (s.pipe.nwrite - s.pipe.nread).toNat ≤ PIPESIZE ∧
      ∀ p n, 0 < n → returned s p = [(n, [])] → s.taken = s.stored ∧ s.pipe.writeopen = false := by
  have hchannel := h.channel
  obtain ⟨unread, hstored, hqueue⟩ := hchannel.bytes
  have hlength : (s.pipe.nwrite - s.pipe.nread).toNat = unread.length := by
    rw [UInt32.toNat_sub]
    exact hqueue.length_eq s.pipe.nread.toNat_lt (by decide)
  have hpre : s.taken <+: s.stored := ⟨unread, hstored.symm⟩
  refine ⟨List.IsPrefix.trans ?_ hpre, hpre, ?_, hlength ▸ hqueue.room, fun p n hn hp => ?_⟩
  · by_cases hquiet : ∀ p, ¬ (s.pc p).copying
    · exact ⟨[], by rw [hchannel.quiet hquiet, List.append_nil]⟩
    · obtain ⟨p, hp⟩ := not_forall_not.1 hquiet
      cases hpc : s.pc p with
      | rFor n got => exact ⟨got, (hchannel.got p n got hpc).symm⟩
      | _ => simp [hpc, Pc.copying] at hp
  · rw [hlength, hstored, List.length_append, Nat.add_comm]
  · cases hpc : s.pc p with
    | rFor m got =>
      simp only [returned, hpc] at hp
      split_ifs at hp with hmore
      simp only [List.cons.injEq, Prod.mk.injEq, and_true] at hp
      obtain ⟨rfl, rfl⟩ := hp
      have hempty : s.pipe.empty := by
        by_contra hempty
        exact hmore ⟨hn, hempty⟩
      have hunread := (hqueue.empty_iff s.pipe.nread.toNat_lt (by decide)).1 (congrArg UInt32.toNat hempty)
      have hclosed := hchannel.ready p m hpc
      refine ⟨by rw [hstored, hunread, List.append_nil], ?_⟩
      simpa [hempty] using hclosed
    | _ => simp [returned, hpc] at hp

/-- `k` actions of `p` in a row. -/
def advance (p : P) : Nat → Sys P × List (Nat × List UInt8) → Option (Sys P × List (Nat × List UInt8))
  | 0, (s, reads) => some (s, reads)
  | k + 1, (s, reads) =>
    if s.chan p = none then (exec s p).bind fun s' => advance p k (s', reads ++ returned s p) else none

theorem Run.advance {k : Nat} {reads' : List (Nat × List UInt8)} (h : Run s reads) (p : P)
    (hgo : advance p k (s, reads) = some (s', reads')) : Run s' reads' := by
  induction k generalizing s reads with
  | zero =>
    cases hgo
    exact h
  | succ k ih =>
    simp only [Pipe.advance] at hgo
    split_ifs at hgo with hchan
    obtain ⟨s₁, hexec, hrest⟩ := Option.bind_eq_some_iff.1 hgo
    exact ih (h.exec p hchan hexec) hrest

/-- Two bytes are written, the write end is closed, and three calls read one byte, one byte and none. -/
theorem pipe_fifo_two_bytes :
    ∃ s : Sys Bool, Run s [(1, [5]), (1, [7])] ∧ [5, 7] <+: s.stored ∧ returned s false = [(1, [])] ∧
      s.taken = s.stored ∧ s.pipe.writeopen = false := by
  have hstart : Run (pipealloc (fun _ => 0) fun _ => false : Sys Bool) [] := .alloc ⟨_, _, rfl⟩
  have hwrite := (hstart.call true (.wAcquire [5, 7]) rfl trivial).advance (k := 8) true rfl
  have hread := (hwrite.call false (.rAcquire 1) rfl trivial).advance (k := 6) false rfl
  have hread' := (hread.call false (.rAcquire 1) rfl trivial).advance (k := 6) false rfl
  have hclose := (hread'.call true (.cAcquire true) rfl trivial).advance (k := 4) true rfl
  have hend := (hclose.call false (.rAcquire 1) rfl trivial).advance (k := 2) false rfl
  obtain ⟨hpre, -, -, -, hzero⟩ := pipe_fifo hend
  exact ⟨_, hend, hpre, rfl, hzero false 1 (by decide) rfl⟩

end xv6.Pipe
