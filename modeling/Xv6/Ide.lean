import Mathlib.Data.Fintype.Card
import Xv6.Bio
import Xv6.Fs.Disk
import Xv6.Lib.Slist

open run slist

namespace xv6.ide

abbrev SECTOR_SIZE : UInt32 := 512
abbrev IDE_CMD_READ : UInt8 := 0x20
abbrev IDE_CMD_WRITE : UInt8 := 0x30
abbrev IDE_CMD_RDMUL : UInt8 := 0xc4
abbrev IDE_CMD_WRMUL : UInt8 := 0xc5

/-- The fields of `struct buf` that the driver reads and writes, `qnext` apart. -/
structure Buf (D : Type) where
  valid : Bool
  dirty : Bool
  dev : UInt32
  blockno : UInt32
  data : D

/-- The registers `0x1f2` to `0x1f7` of the controller when a command starts,
and the data sent with a write. -/
structure Cmd (D : Type) where
  count : UInt8
  sector0 : UInt8
  sector1 : UInt8
  sector2 : UInt8
  device : UInt8
  command : UInt8
  data : Option D

variable {P D : Type}

/-- The drive and the sector that the registers select. -/
def Cmd.address (c : Cmd D) : Bool × Nat :=
  (c.device.toNat.testBit 4,
    c.sector0.toNat + c.sector1.toNat * 2 ^ 8 + c.sector2.toNat * 2 ^ 16 + c.device.toNat % 16 * 2 ^ 24)

/-- The drive and the sector of the block of a buffer. -/
def Buf.address (b : Buf D) : Bool × Nat := (b.dev.toNat.testBit 0, b.blockno.toNat)

/-- What `idestart` sends to the controller. -/
def command (b : Buf D) : Cmd D :=
  let sector_per_block : UInt32 := 512 / SECTOR_SIZE
  let sector := b.blockno * sector_per_block
  let read_cmd := if sector_per_block = 1 then IDE_CMD_READ else IDE_CMD_RDMUL
  let write_cmd := if sector_per_block = 1 then IDE_CMD_WRITE else IDE_CMD_WRMUL
  { count := sector_per_block.toUInt8
    sector0 := (sector &&& 0xff).toUInt8
    sector1 := (sector >>> 8 &&& 0xff).toUInt8
    sector2 := (sector >>> 16 &&& 0xff).toUInt8
    device := ((0xe0 : UInt32) ||| (b.dev &&& 1) <<< 4 ||| sector >>> 24 &&& 0x0f).toUInt8
    command := if b.dirty then write_cmd else read_cmd
    data := if b.dirty then some b.data else none }

/-- An error is a panic. -/
def idestart (b : Buf D) : Except String (Cmd D) :=
  if FSSIZE ≤ b.blockno.toNat then .error "incorrect blockno" else .ok (command b)

/-- A request that `ideintr` has completed: its buffer, whether it was a write,
whether the disk did the command, the buffer as `ideintr` leaves it and what
the disk has in the buffer's block. -/
structure Done (D : Type) where
  buf : Fin NBUF
  write : Bool
  ok : Bool
  after : Buf D
  block : D

/-- The driver, the disks and the callers of `iderw`. `next none` is `idequeue`
and `next (some b)` the `qnext` of buffer `b`, `active` is the command the
controller works on and `lock` the holder of the sleep-lock of a buffer.
`issued` and `done` record the requests in the order they were made and completed. -/
structure Sys (P D : Type) where
  buf : Fin NBUF → Buf D
  next : Option (Fin NBUF) → Option (Fin NBUF)
  active : Option (Cmd D)
  disk : Bool × Nat → D
  lock : Fin NBUF → Option P
  pc : P → Option (Fin NBUF)
  havedisk1 : Bool
  issued : List (Fin NBUF)
  done : List (Done D)

/-- Nothing is queued, and no process is in `iderw`. -/
def Initial (s : Sys P D) : Prop :=
  s.next none = none ∧ s.active = none ∧ (∀ p, s.pc p = none) ∧ s.issued = [] ∧ s.done = []

def Sys.start (s : Sys P D) (b : Fin NBUF) : Except String (Sys P D) :=
  (idestart (s.buf b)).map fun c => { s with active := some c }

def finished (b : Buf D) : Bool := b.valid && !b.dirty

variable [DecidableEq P]

/-- `iderw` of process `p` up to its wait. -/
def iderw (s : Sys P D) (p : P) (b : Fin NBUF) : Except String (Sys P D) :=
  if s.lock b ≠ some p then .error "iderw: buf not locked"
  else if finished (s.buf b) then .error "iderw: nothing to do"
  else if (s.buf b).dev ≠ 0 ∧ s.havedisk1 = false then .error "iderw: ide disk 1 not present"
  else
    let next := Function.update s.next (some b) none
    let next := Function.update next (tail next NBUF none) (some b)
    let s := { s with next := next, pc := Function.update s.pc p (some b), issued := s.issued ++ [b] }
    if s.next none = some b then s.start b else .ok s

/-- The command that is active ends. Only a write that succeeds is sure to be on the disk. -/
def complete (disk : Bool × Nat → D) (c : Cmd D) (ok : Bool) (torn : D) : Bool × Nat → D :=
  match c.data with
  | none => disk
  | some d => Function.update disk c.address (if ok then d else torn)

/-- `ideintr` takes buffer `b` off the queue. `idewait(1)` fails if the disk
reports an error, and `insl` gets the sector that command `c` has read. -/
def Sys.serve (s : Sys P D) (b : Fin NBUF) (c : Cmd D) (ok : Bool) : Sys P D :=
  let buf := s.buf b
  let data := if !buf.dirty && ok then s.disk c.address else buf.data
  let after := { buf with data := data, valid := true, dirty := false }
  { s with
    next := Function.update s.next none (s.next (some b))
    buf := Function.update s.buf b after
    done := s.done ++ [{ buf := b, write := buf.dirty, ok := ok, after := after, block := s.disk buf.address }] }

/-- The interrupt for command `c`. -/
def ideintr (s : Sys P D) (c : Cmd D) (ok : Bool) (torn : D) : Except String (Sys P D) :=
  let s := { s with active := none, disk := complete s.disk c ok torn }
  match s.next none with
  | none => .ok s
  | some b =>
    let s := s.serve b c ok
    match s.next none with
    | none => .ok s
    | some b => s.start b

/-- One step under `idelock`, and the use of the buffers between requests: a
process takes or gives up a buffer's lock, and the fields of a buffer that no
`iderw` works on may be changed. Each command that was started is interrupted once. -/
inductive Step : Sys P D → Sys P D → Prop
  | acquiresleep {s : Sys P D} (p : P) (b : Fin NBUF) : s.lock b = none →
      Step s { s with lock := Function.update s.lock b (some p) }
  | releasesleep {s : Sys P D} (p : P) (b : Fin NBUF) : s.lock b = some p → s.pc p ≠ some b →
      Step s { s with lock := Function.update s.lock b none }
  | change {s : Sys P D} (b : Fin NBUF) (buf : Buf D) : (∀ p, s.pc p ≠ some b) →
      Step s { s with buf := Function.update s.buf b buf }
  | iderw {s s' : Sys P D} (p : P) (b : Fin NBUF) : s.pc p = none → iderw s p b = .ok s' → Step s s'
  | finish {s : Sys P D} (p : P) (b : Fin NBUF) : s.pc p = some b → finished (s.buf b) = true →
      Step s { s with pc := Function.update s.pc p none }
  | ideintr {s s' : Sys P D} (c : Cmd D) (ok : Bool) (torn : D) : s.active = some c →
      ideintr s c ok torn = .ok s' → Step s s'

/-- The command that `idestart` sends is for the block of the buffer. -/
theorem command_address {b : Buf D} (h : b.blockno.toNat < FSSIZE) : (command b).address = b.address := by
  have hlt : b.blockno.toNat < 1000 := h
  have hsector : b.blockno * (512 / SECTOR_SIZE) = b.blockno := by
    rw [show (512 / SECTOR_SIZE : UInt32) = 1 from rfl, UInt32.mul_one]
  have hmask : ∀ n, n &&& 255 = n % 256 := fun n => Nat.and_two_pow_sub_one_eq_mod n 8
  have hhigh : b.blockno >>> 24 &&& 0x0f = 0 := by
    apply UInt32.toNat_inj.1
    have h0 : b.blockno.toNat / 16777216 = 0 := by omega
    simp [Nat.shiftRight_eq_div_pow, h0]
  have hdev : b.dev &&& 1 = 0 ∧ b.dev.toNat.testBit 0 = false ∨ b.dev &&& 1 = 1 ∧ b.dev.toNat.testBit 0 = true := by
    have hand : (b.dev &&& 1).toNat = b.dev.toNat % 2 := by simp [Nat.and_one_is_mod]
    rw [Nat.testBit_zero]
    obtain h0 | h1 := Nat.mod_two_eq_zero_or_one b.dev.toNat
    · exact .inl ⟨UInt32.toNat_inj.1 (hand.trans h0), by simp [h0]⟩
    · exact .inr ⟨UInt32.toNat_inj.1 (hand.trans h1), by simp [h1]⟩
  have hlow : ∀ n < 1000, n % 256 + n / 256 % 256 * 256 + n / 65536 % 256 * 65536 = n := by omega
  obtain ⟨hand, hbit⟩ | ⟨hand, hbit⟩ := hdev
  · simp only [Cmd.address, command, Buf.address, hsector, hhigh, hand, hbit, Prod.mk.injEq]
    exact ⟨rfl, by simpa [Nat.shiftRight_eq_div_pow, hmask] using hlow _ hlt⟩
  · simp only [Cmd.address, command, Buf.address, hsector, hhigh, hand, hbit, Prod.mk.injEq]
    exact ⟨rfl, by simpa [Nat.shiftRight_eq_div_pow, hmask] using hlow _ hlt⟩

/-- What holds in every run, with `q` the queued buffers. The process in
`iderw` holds the lock of its buffer, which is queued until it is finished. -/
structure Inv (s : Sys P D) (q : List (Fin NBUF)) : Prop where
  path : Path s.next none q
  nodup : q.Nodup
  active : s.active = q.head?.map fun b => command (s.buf b)
  small : ∀ b ∈ q.head?, (s.buf b).blockno.toNat < FSSIZE
  caller : ∀ b ∈ q, ∃ p, s.pc p = some b
  lock : ∀ p b, s.pc p = some b → s.lock b = some p
  queued : ∀ p b, s.pc p = some b → (b ∈ q ↔ finished (s.buf b) = false)
  history : s.issued = s.done.map Done.buf ++ q
  read : ∀ e ∈ s.done, e.after.valid = true ∧ (e.write = false → e.ok = true → e.after.data = e.block)

omit [DecidableEq P] in
theorem Initial.inv {s : Sys P D} (h : Initial s) : Inv s [] := by
  obtain ⟨hnext, hactive, hpc, hissued, hdone⟩ := h
  exact ⟨hnext, List.nodup_nil, hactive, by simp, by simp, by simp [hpc], by simp [hpc], by simp [hissued, hdone],
    by simp [hdone]⟩

omit [DecidableEq P] in
theorem start_ok {s s' : Sys P D} {b : Fin NBUF} (hs : s.start b = .ok s') :
    (s.buf b).blockno.toNat < FSSIZE ∧ s' = { s with active := some (command (s.buf b)) } := by
  grind [Sys.start, idestart, Except.map]

/-- What `iderw` does when it does not panic. -/
theorem iderw_ok {s s' : Sys P D} {p : P} {b : Fin NBUF} (hs : iderw s p b = .ok s') :
    s.lock b = some p ∧ finished (s.buf b) = false ∧
      ∃ next, next = Function.update (Function.update s.next (some b) none)
          (tail (Function.update s.next (some b) none) NBUF none) (some b) ∧
        ∃ active, s' =
            { s with next := next, active := active, pc := Function.update s.pc p (some b), issued := s.issued ++ [b] } ∧
          (next none = some b → (s.buf b).blockno.toNat < FSSIZE ∧ active = some (command (s.buf b))) ∧
          (next none ≠ some b → active = s.active) := by
  unfold ide.iderw at hs
  dsimp only at hs
  split_ifs at hs with hlock hfin hdev hhead
  · obtain ⟨hb, rfl⟩ := start_ok hs
    exact ⟨not_not.1 hlock, by simpa using hfin, _, rfl, _, rfl, fun _ => ⟨hb, rfl⟩, fun hne => absurd hhead hne⟩
  · cases hs
    exact ⟨not_not.1 hlock, by simpa using hfin, _, rfl, _, rfl, fun heq => absurd heq hhead, fun _ => rfl⟩

theorem Inv.iderw {s s' : Sys P D} {q : List (Fin NBUF)} (h : Inv s q) {p : P} {b : Fin NBUF}
    (hp : s.pc p = none) (hs : iderw s p b = .ok s') : Inv s' (q ++ [b]) := by
  obtain ⟨hlock, hfin, next, hnext, active, rfl, hstart, hwait⟩ := iderw_ok hs
  have hb : b ∉ q := by
    intro hb
    obtain ⟨p', hp'⟩ := h.caller b hb
    have hpp : p' = p := Option.some.inj ((h.lock p' b hp').symm.trans hlock)
    rw [hpp, hp] at hp'
    cases hp'
  have hpath : Path next none (q ++ [b]) := by
    have hlen : q.length ≤ NBUF := by simpa using h.nodup.length_le_card
    have hq : Path (Function.update s.next (some b) none) none q := by
      refine h.path.congr fun y hy => Function.update_of_ne ?_ _ _
      rintro rfl
      simp [hb] at hy
    rw [hnext]
    exact hq.append (by simpa using h.nodup.map fun _ _ => Option.some.inj) (by simp [hb]) (by simp) hlen
  have hhead := hpath.head_eq
  have hpc (p' : P) : Function.update s.pc p (some b) p' = if p' = p then some b else s.pc p' := Function.update_apply ..
  obtain ⟨-, hnodup, hactive, hsmall, hcaller, hlocks, hqueued, hhistory, hread⟩ := h
  refine ⟨hpath, hnodup.append (List.nodup_singleton b) (by simpa using hb), ?_, ?_, ?_, ?_, ?_, by simp [hhistory], hread⟩
  · cases q <;> grind
  · cases q <;> grind
  all_goals grind

omit [DecidableEq P] in
/-- The head of the queue is served, and the next command is `active`. -/
theorem Inv.serve {s : Sys P D} {q : List (Fin NBUF)} {b : Fin NBUF} (h : Inv s (b :: q)) (ok : Bool)
    (disk : Bool × Nat → D) {s₁ : Sys P D}
    (hs₁ : s₁ = ({ s with active := none, disk := disk } : Sys P D).serve b (command (s.buf b)) ok)
    {active : Option (Cmd D)} (hactive : active = q.head?.map fun b => command (s₁.buf b))
    (hsmall : ∀ b ∈ q.head?, (s₁.buf b).blockno.toNat < FSSIZE) : Inv { s₁ with active := active } q := by
  subst hs₁
  obtain ⟨hbq, hq⟩ := List.nodup_cons.1 h.nodup
  have haddr := command_address (h.small b rfl)
  refine ⟨h.path.pop, hq, hactive, hsmall, fun x hx => h.caller x (List.mem_cons_of_mem _ hx), h.lock, fun p x hx => ?_,
    by simp [Sys.serve, h.history], fun e he => ?_⟩
  · by_cases hxb : x = b
    · simp [hxb, hbq, Sys.serve, finished]
    · simpa [Sys.serve, hxb] using h.queued p x hx
  · have := h.read e
    grind [Sys.serve]

omit [DecidableEq P] in
theorem Inv.ideintr {s s' : Sys P D} {q : List (Fin NBUF)} (h : Inv s q) {c : Cmd D} {ok : Bool} {torn : D}
    (hc : s.active = some c) (hs : ideintr s c ok torn = .ok s') : ∃ q', Inv s' q' := by
  cases q with
  | nil => simp [h.active] at hc
  | cons b q =>
    obtain rfl : command (s.buf b) = c := by simpa [h.active] using hc
    have hhead : s.next none = some b := h.path.1
    have hnext := h.path.pop.head_eq
    unfold ide.ideintr at hs
    simp only [hhead] at hs
    cases q with
    | nil =>
      simp only [Sys.serve, hnext, List.head?_nil, Except.ok.injEq] at hs
      subst hs
      exact ⟨[], h.serve ok (complete s.disk _ ok torn) rfl rfl (by simp)⟩
    | cons a q =>
      simp only [Sys.serve, hnext, List.head?_cons] at hs
      obtain ⟨hsmall, rfl⟩ := start_ok hs
      refine ⟨a :: q, h.serve ok (complete s.disk _ ok torn) rfl rfl ?_⟩
      rintro x ⟨⟩
      exact hsmall

theorem step_inv {s s' : Sys P D} {q : List (Fin NBUF)} (h : Inv s q) (hst : Step s s') : ∃ q', Inv s' q' := by
  cases hst with
  | acquiresleep p b hlock =>
    refine ⟨q, { h with lock := fun p' x hx => ?_ }⟩
    grind [h.lock p' x hx, Function.update_apply]
  | releasesleep p b hlock hpc =>
    refine ⟨q, { h with lock := fun p' x hx => ?_ }⟩
    grind [h.lock p' x hx, Function.update_apply]
  | change b buf hpc =>
    have hb (x : Fin NBUF) (hx : x ∈ q) : Function.update s.buf b buf x = s.buf x := by
      obtain ⟨p, hp⟩ := h.caller x hx
      exact Function.update_of_ne (fun heq : x = b => hpc p (heq ▸ hp)) _ _
    have hhead (x : Fin NBUF) (hx : x ∈ q.head?) := hb x (List.mem_of_head? hx)
    refine ⟨q, { h with active := ?_, small := fun x hx => ?_, queued := fun p x hx => ?_ }⟩
    · rw [h.active]
      cases q with
      | nil => rfl
      | cons a q => simp [hhead a rfl]
    · simpa [hhead x hx] using h.small x hx
    · grind [h.queued p x hx, Function.update_apply]
  | iderw p b hp hs => exact ⟨_, h.iderw hp hs⟩
  | finish p b hp hfin =>
    obtain ⟨hpath, hnodup, hactive, hsmall, hcaller, hlocks, hqueued, hhistory, hread⟩ := h
    have hpc (p' : P) : Function.update s.pc p none p' = if p' = p then none else s.pc p' := Function.update_apply ..
    exact ⟨q, hpath, hnodup, hactive, hsmall, by grind, by grind, by grind, hhistory, hread⟩
  | ideintr c ok torn hc hs => exact h.ideintr hc hs

/-- The queue of the driver in every run, whatever the disk reports. The
requests are completed in the order they were made, each one once; the queue
holds those not completed yet, with no buffer twice; the command that is
active is the one of its head; a process in `iderw` goes on when its request is
completed. Every buffer that a read makes valid holds the bytes of its block,
got by a command that succeeded, iff no read has failed. -/
theorem queue_discipline {s : Sys P D} (h : Reachable Initial Step s) :
    ∃ q, Path s.next none q ∧ q.Nodup ∧ s.issued = s.done.map Done.buf ++ q ∧
      s.active = (q.head?.map fun b => command (s.buf b)) ∧
      (∀ b ∈ q.head?, (command (s.buf b)).address = (s.buf b).address) ∧
      (∀ p b, s.pc p = some b → (b ∈ q ↔ finished (s.buf b) = false)) ∧
      ((∀ e ∈ s.done, e.write = false → e.after.valid = true → e.ok = true ∧ e.after.data = e.block) ↔
        ∀ e ∈ s.done, e.write = false → e.ok = true) := by
  obtain ⟨q, hinv⟩ := h.inv (I := fun s => ∃ q, Inv s q) (fun _ hi => ⟨[], hi.inv⟩)
    (fun _ _ hi hst => hi.elim fun _ hi => step_inv hi hst)
  refine ⟨q, hinv.path, hinv.nodup, hinv.history, hinv.active, fun b hb => command_address (hinv.small b hb),
    hinv.queued, fun hd e he hw => ?_, fun hd e he hw _ => ?_⟩
  · exact (hd e he hw (hinv.read e he).1).1
  · exact ⟨hd e he hw, (hinv.read e he).2 hw (hd e he hw)⟩

/-- Two processes, each with the lock of a buffer that has not been read. The disks hold `true` everywhere. -/
def unread : Sys Bool Bool where
  buf b := { valid := false, dirty := false, dev := 0, blockno := UInt32.ofNat b, data := false }
  next _ := none
  active := none
  disk _ := true
  lock b := some (b == 1)
  pc _ := none
  havedisk1 := false
  issued := []
  done := []

/-- Both processes have queued a read before the disk completes the first one, well or with an error. -/
theorem reachable_read (ok : Bool) : ∃ s : Sys Bool Bool, Reachable Initial Step s ∧ s.done =
    [{ buf := 0, write := false, ok := ok, block := true,
       after := { valid := true, dirty := false, dev := 0, blockno := 0, data := ok } },
     { buf := 1, write := false, ok := true, block := true,
       after := { valid := true, dirty := false, dev := 0, blockno := 1, data := true } }] := by
  have hinit : Reachable Initial Step unread := .start ⟨rfl, rfl, fun _ => rfl, rfl, rfl⟩
  have hqueued := (hinit.next (.iderw false 0 rfl rfl)).next (.iderw true 1 rfl rfl)
  cases ok with
  | false => exact ⟨_, (hqueued.next (.ideintr _ false false rfl rfl)).next (.ideintr _ true false rfl rfl), rfl⟩
  | true => exact ⟨_, (hqueued.next (.ideintr _ true false rfl rfl)).next (.ideintr _ true false rfl rfl), rfl⟩

theorem queue_discipline_read : ∃ s : Sys Bool Bool, Reachable Initial Step s ∧ s.done.map Done.buf = [0, 1] ∧
    ∀ e ∈ s.done, e.write = false ∧ e.ok = true ∧ e.after.data = e.block := by
  obtain ⟨s, h, hdone⟩ := reachable_read true
  obtain ⟨q, -, -, -, -, -, -, hread⟩ := queue_discipline h
  have hall := hread.2 (by simp [hdone])
  have hreads : ∀ e ∈ s.done, e.write = false ∧ e.after.valid = true := by simp [hdone]
  exact ⟨s, h, by simp [hdone], fun e he => ⟨(hreads e he).1, hall e he (hreads e he).1 (hreads e he).2⟩⟩

/-- The disk reports an error for a read: the buffer becomes valid without data from the disk. -/
theorem read_error : ∃ s : Sys Bool Bool, Reachable Initial Step s ∧
    ∃ e ∈ s.done, e.write = false ∧ e.after.valid = true ∧ e.ok = false ∧ e.after.data ≠ e.block := by
  obtain ⟨s, h, hdone⟩ := reachable_read false
  exact ⟨s, h, _, by rw [hdone]; exact List.mem_cons_self, rfl, rfl, rfl, by decide⟩

end xv6.ide
