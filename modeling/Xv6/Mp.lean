import Mathlib.Tactic.SplitIfs
import Xv6.Layout
import Xv6.Lib.Bytes
import Xv6.Lib.Outcome

open bytes outcome

namespace xv6.mp

/-- The types of the entries of a configuration table. -/
abbrev MPPROC : UInt8 := 0x00
abbrev MPBUS : UInt8 := 0x01
abbrev MPIOAPIC : UInt8 := 0x02
abbrev MPIOINTR : UInt8 := 0x03
abbrev MPLINTR : UInt8 := 0x04

/-- `sizeof` of `struct mp`, `struct mpconf`, `struct mpproc` and `struct mpioapic`. -/
abbrev mpSize : Nat := 16
abbrev mpconfSize : Nat := 44
abbrev mpprocSize : Nat := 20
abbrev mpioapicSize : Nat := 8

/-- How a call ends without a result: in a panic, at an address that `kpgdir` does not map, or never. -/
inductive Stop where
  | panic (msg : String)
  | fault
  | hang
  deriving DecidableEq

/-- What `mpinit` reads and sets: memory by kernel virtual address, the variables `ncpu`, `ioapicid`
and `lapic`, the field `apicid` of each entry of `cpus`, what port 0x23 reads and what has been
written to ports. -/
structure State where
  mem : Mem
  ncpu : Nat
  apicid : Fin NCPU → UInt8
  ioapicid : UInt8
  lapic : Nat
  imcr : UInt8
  out : List (Nat × UInt8)

abbrev MpM := EStateM Stop State

/-- The state in which `main` calls `mpinit`. -/
def State.boot (mem : Mem) (imcr : UInt8) : State where
  mem := mem
  ncpu := 0
  apicid _ := 0
  ioapicid := 0
  lapic := 0
  imcr := imcr
  out := []

/-- `*p` for a byte. Nothing is mapped below `KERNBASE` before there is a process. -/
def readByte (p : Nat) : MpM UInt8 := do
  let s ← get
  if KERNBASE ≤ p then return s.mem p else throw .fault

def readShort (p : Nat) : MpM Nat := do
  let lo ← readByte p
  let hi ← readByte (u32 (p + 1))
  return lo.toNat + 2 ^ 8 * hi.toNat

def readWord (p : Nat) : MpM Nat := do
  let lo ← readShort p
  let hi ← readShort (u32 (p + 2))
  return lo + 2 ^ 16 * hi

def outb (port : Nat) (v : UInt8) : MpM Unit := modify fun s => { s with out := s.out ++ [(port, v)] }

def sum (addr len : Nat) : MpM UInt8 := do
  let total ← (List.range len).foldlM (fun acc i => do
    let b ← readByte (u32 (addr + i))
    return acc + b.toNat) 0
  return UInt8.ofNat total

/-- `memcmp` with a string. -/
def memcmp (p : Nat) : List UInt8 → MpM Int
  | [] => return 0
  | c :: cs => do
    let b ← readByte p
    if b ≠ c then
      return b.toNat - c.toNat
    else
      memcmp (u32 (p + 1)) cs

/-- The strings `_MP_` and `PCMP`. -/
def sigMp : List UInt8 := [0x5f, 0x4d, 0x50, 0x5f]
def sigConf : List UInt8 := [0x50, 0x43, 0x4d, 0x50]

def mpsearch1.loop (e : Nat) : Nat → Nat → MpM Nat
  | 0, _ => throw .hang
  | fuel + 1, p => do
    if p < e then
      if (← memcmp p sigMp) = 0 then
        if (← sum p mpSize) = 0 then
          return p
        else
          mpsearch1.loop e fuel (u32 (p + mpSize))
      else
        mpsearch1.loop e fuel (u32 (p + mpSize))
    else
      return 0

/-- Look for an MP structure in the `len` bytes at `a`. -/
def mpsearch1 (a len : Nat) : MpM Nat :=
  let addr := P2V a
  mpsearch1.loop (u32 (addr + len)) (len / mpSize + 1) addr

def mpsearch : MpM Nat := do
  let bda := P2V 0x400
  let p := (← readShort (bda + 0x0E)) * 2 ^ 4
  let mp ← if p ≠ 0 then
      mpsearch1 p 1024
    else do
      let p := (← readShort (bda + 0x13)) * 1024
      mpsearch1 (u32 (p + (2 ^ 32 - 1024))) 1024
  if mp ≠ 0 then
    return mp
  else
    mpsearch1 0xF0000 0x10000

/-- The MP structure and the configuration table, if there is one that `mpinit` can use. -/
def mpconfig : MpM (Option (Nat × Nat)) := do
  let mp ← mpsearch
  if mp = 0 then
    return none
  else
    let physaddr ← readWord (u32 (mp + 4))
    if physaddr = 0 then
      return none
    else
      let conf := P2V physaddr
      if (← memcmp conf sigConf) ≠ 0 then
        return none
      else
        let version ← readByte (u32 (conf + 6))
        if version ≠ 1 ∧ version ≠ 4 then
          return none
        else
          let length ← readShort (u32 (conf + 4))
          if (← sum conf length) ≠ 0 then
            return none
          else
            return some (mp, conf)

def mpinit.loop (e : Nat) : Nat → Nat → Bool → MpM Bool
  | 0, _, _ => throw .hang
  | fuel + 1, p, ismp => do
    if p < e then
      let type ← readByte p
      if type = MPPROC then
        let s ← get
        if h : s.ncpu < NCPU then
          let apicid ← readByte (u32 (p + 1))
          set { s with apicid := Function.update s.apicid ⟨s.ncpu, h⟩ apicid, ncpu := s.ncpu + 1 }
        mpinit.loop e fuel (u32 (p + mpprocSize)) ismp
      else if type = MPIOAPIC then
        let apicno ← readByte (u32 (p + 1))
        modify fun s => { s with ioapicid := apicno }
        mpinit.loop e fuel (u32 (p + mpioapicSize)) ismp
      else if type = MPBUS ∨ type = MPIOINTR ∨ type = MPLINTR then
        mpinit.loop e fuel (u32 (p + 8)) ismp
      else
        -- The `break` leaves the `switch` and not the loop.
        mpinit.loop e fuel p false
    else
      return ismp

/-- `mpinit` behind its loop. -/
def mpinit.finish (mp : Nat) (ismp : Bool) : MpM Unit := do
  if !ismp then
    throw (.panic "Didn't find a suitable machine")
  else
    let imcrp ← readByte (u32 (mp + 12))
    if imcrp ≠ 0 then
      -- Select IMCR and mask external interrupts.
      outb 0x22 0x70
      let s ← get
      outb 0x23 (s.imcr ||| 1)

def mpinit (fuel : Nat) : MpM Unit := do
  match ← mpconfig with
  | none => throw (.panic "Expect to run on an SMP")
  | some (mp, conf) =>
    let lapic ← readWord (u32 (conf + 36))
    modify fun s => { s with lapic := lapic }
    let length ← readShort (u32 (conf + 4))
    let ismp ← mpinit.loop (u32 (conf + length)) fuel (u32 (conf + mpconfSize)) true
    mpinit.finish mp ismp

/-- How far the scan moves behind an entry of a known type. -/
def entrySize (type : UInt8) : Option Nat :=
  if type = MPPROC then some mpprocSize
  else if type = MPIOAPIC then some mpioapicSize
  else if type = MPBUS ∨ type = MPIOINTR ∨ type = MPLINTR then some 8
  else none

/-- `Cursor m stop p q`: from an entry at `p`, one comes to `q` over entries of known types that start
below `stop`. -/
inductive Cursor (m : Mem) (stop : Nat) : Nat → Nat → Prop
  | here {p : Nat} : Cursor m stop p p
  | next {p q n : Nat} : p < stop → entrySize (m p) = some n → Cursor m stop (p + n) q → Cursor m stop p q

/-- Where the entries of the table at `conf` start, and where they end. -/
def entriesStart (conf : Nat) : Nat := conf + mpconfSize
def entriesStop (m : Mem) (conf : Nat) : Nat := conf + load16 m (conf + 4)

/-- The table contains an entry of an unknown type. -/
def HasUnknown (m : Mem) (conf : Nat) : Prop :=
  ∃ q, Cursor m (entriesStop m conf) (entriesStart conf) q ∧ q < entriesStop m conf ∧ entrySize (m q) = none

/-- What one entry of a known type changes. -/
def State.enter (s : State) (p : Nat) : State :=
  if s.mem p = MPPROC then
    if h : s.ncpu < NCPU then
      { s with apicid := Function.update s.apicid ⟨s.ncpu, h⟩ (s.mem (p + 1)), ncpu := s.ncpu + 1 }
    else s
  else if s.mem p = MPIOAPIC then { s with ioapicid := s.mem (p + 1) }
  else s

@[simp] theorem State.enter_mem (s : State) (p : Nat) : (s.enter p).mem = s.mem := by
  unfold State.enter
  split_ifs <;> rfl

theorem State.enter_ncpu_le {s : State} (h : s.ncpu ≤ NCPU) (p : Nat) : (s.enter p).ncpu ≤ NCPU := by
  unfold State.enter
  split_ifs with _ hlt
  · exact hlt
  · exact h
  · exact h
  · exact h

theorem entrySize_pos {type : UInt8} {n : Nat} (h : entrySize type = some n) : 0 < n ∧ n ≤ 20 := by
  unfold entrySize at h
  split_ifs at h <;> obtain rfl := Option.some.inj h <;> decide

theorem Cursor.le {m : Mem} {stop p q : Nat} (h : Cursor m stop p q) : p ≤ q := by
  induction h with
  | here => exact Nat.le_refl _
  | next _ _ _ ih => omega

section
variable {s : State} {p e fuel n : Nat} {ismp : Bool}

theorem readByte_run (h : KERNBASE ≤ p) : (readByte p).run s = .ok (s.mem p) s := by
  unfold readByte
  rw [get_bind, if_pos h]
  rfl

theorem readByte_fault (h : p < KERNBASE) : (readByte p).run s = .error .fault s := by
  unfold readByte
  rw [get_bind, if_neg (by omega)]
  rfl

theorem loop_exit (h : e ≤ p) : (mpinit.loop e (fuel + 1) p ismp).run s = .ok ismp s := by
  rw [mpinit.loop, if_neg (by omega)]
  rfl

/-- The scan reads an entry of a known type and goes on behind it. -/
theorem loop_entry (hp : p < e) (hlo : KERNBASE ≤ p) (he : e < 2 ^ 32) (hsize : entrySize (s.mem p) = some n) :
    (mpinit.loop e (fuel + 1) p ismp).run s = (mpinit.loop e fuel (u32 (p + n)) ismp).run (s.enter p) := by
  have hnext : u32 (p + 1) = p + 1 := Nat.mod_eq_of_lt (by omega)
  have hread : (readByte (u32 (p + 1))).run s = .ok (s.mem (p + 1)) s := by
    rw [hnext]
    exact readByte_run (by omega)
  unfold entrySize at hsize
  rw [mpinit.loop, if_pos hp, bind_ok (readByte_run hlo), State.enter]
  split_ifs at hsize with hproc hioapic hother
  · obtain rfl := Option.some.inj hsize
    rw [if_pos hproc, if_pos hproc, get_bind]
    by_cases hn : s.ncpu < NCPU
    · rw [dif_pos hn, dif_pos hn, bind_ok hread, set_bind]
    · rw [dif_neg hn, dif_neg hn]
  · obtain rfl := Option.some.inj hsize
    rw [if_neg hproc, if_neg hproc, if_pos hioapic, if_pos hioapic, bind_ok hread, modify_bind]
  · obtain rfl := Option.some.inj hsize
    rw [if_neg hproc, if_neg hproc, if_neg hioapic, if_neg hioapic, if_pos hother]

/-- At an entry of an unknown type the scan stays where it is. -/
theorem loop_unknown (hp : p < e) (hlo : KERNBASE ≤ p) (hsize : entrySize (s.mem p) = none) :
    (mpinit.loop e fuel p ismp).run s = .error .hang s := by
  induction fuel generalizing ismp with
  | zero => rfl
  | succ fuel ih =>
    unfold entrySize at hsize
    rw [mpinit.loop, if_pos hp, bind_ok (readByte_run hlo)]
    split_ifs at hsize with hproc hioapic hother
    rw [if_neg hproc, if_neg hioapic, if_neg hother]
    exact ih

/-- An entry of an unknown type behind others of known types. -/
theorem loop_hangs {m : Mem} {q : Nat} (h : Cursor m e p q) (hlo : KERNBASE ≤ p) (hq : q < e) (he : e < 2 ^ 32)
    (hnone : entrySize (m q) = none) (hs : s.mem = m) :
    ∃ s', (mpinit.loop e fuel p ismp).run s = .error .hang s' := by
  induction h generalizing s fuel with
  | here => exact ⟨s, loop_unknown hq hlo (by rwa [hs])⟩
  | @next p q n hp hsize htail ih =>
    cases fuel with
    | zero => exact ⟨s, rfl⟩
    | succ fuel =>
      have hle := htail.le
      have hstay : u32 (p + n) = p + n := Nat.mod_eq_of_lt (by omega)
      rw [loop_entry hp hlo he (by rwa [hs]), hstay]
      exact ih (by omega) hq hnone (by rw [State.enter_mem, hs])

/-- A cursor that has wrapped around is in memory that is not mapped. -/
theorem loop_wrapped {b : Bool} {s' : State} (hp : p < e) (hlo : p < KERNBASE) :
    (mpinit.loop e fuel p ismp).run s ≠ .ok b s' := by
  cases fuel with
  | zero => nofun
  | succ fuel =>
    rw [mpinit.loop, if_pos hp, bind_error (readByte_fault hlo)]
    nofun

variable {m : Mem} {q : Nat}

/-- Over entries of known types that stay in the address space, the scan ends. -/
theorem loop_ends (hlo : KERNBASE ≤ p) (he : e < 2 ^ 32) (hknown : ∀ q, Cursor m e p q → q < e → entrySize (m q) ≠ none)
    (hfits : ∀ q, Cursor m e p q → q < 2 ^ 32) (hs : s.mem = m) (hncpu : s.ncpu ≤ NCPU) :
    ∃ fuel s', (mpinit.loop e fuel p ismp).run s = .ok ismp s' ∧ s'.ncpu ≤ NCPU := by
  induction hk : e - p using Nat.strongRecOn generalizing p s with
  | ind k ih =>
    rcases Nat.lt_or_ge p e with hp | hp
    · obtain ⟨n, hsize⟩ := Option.ne_none_iff_exists'.1 (hknown p .here hp)
      have hpos := (entrySize_pos hsize).1
      have hstay : u32 (p + n) = p + n := Nat.mod_eq_of_lt (hfits _ (.next hp hsize .here))
      obtain ⟨fuel, s', hrun, hn⟩ := ih (e - (p + n)) (by omega) (p := p + n) (s := s.enter p) (by omega)
        (fun q hq => hknown q (.next hp hsize hq)) (fun q hq => hfits q (.next hp hsize hq))
        (by rw [State.enter_mem, hs]) (State.enter_ncpu_le hncpu p) rfl
      refine ⟨fuel + 1, s', ?_, hn⟩
      rw [loop_entry hp hlo he (by rwa [hs]), hstay, hrun]
    · exact ⟨1, s, loop_exit hp, hncpu⟩

/-- A scan that ends has met known types only, and its cursor has stayed in the address space. -/
theorem cursor_of_loop_ok {b : Bool} {s' : State} (h : Cursor m e p q) (hlo : KERNBASE ≤ p) (hp : p < 2 ^ 32)
    (he : e < 2 ^ 32) (hs : s.mem = m) (hrun : (mpinit.loop e fuel p ismp).run s = .ok b s') :
    q < 2 ^ 32 ∧ (q < e → entrySize (m q) ≠ none) := by
  induction h generalizing s fuel with
  | here =>
    refine ⟨hp, fun hlt hnone => ?_⟩
    rw [loop_unknown hlt hlo (by rwa [hs])] at hrun
    cases hrun
  | @next p q n hlt hsize _ ih =>
    cases fuel with
    | zero => cases hrun
    | succ fuel =>
      rw [loop_entry hlt hlo he (by rwa [hs])] at hrun
      rcases Nat.lt_or_ge (p + n) (2 ^ 32) with hstay | hwrap
      · rw [show u32 (p + n) = p + n from Nat.mod_eq_of_lt hstay] at hrun
        exact ih (by omega) hstay (by rw [State.enter_mem, hs]) hrun
      · have hle := (entrySize_pos hsize).2
        have hlow : u32 (p + n) < 20 := by simp only [u32]; omega
        exact absurd hrun (loop_wrapped (by omega) (Nat.lt_trans hlow (by decide)))

end

section
variable {α β : Type} {s t : State} {x : MpM α}

/-- A computation that does not change the state and does not panic. -/
abbrev Reads (x : MpM α) : Prop := Always (fun stop => ∀ msg, stop ≠ .panic msg) Eq x

theorem Reads.eq (h : Reads x) {a : α} (hrun : x.run s = .ok a t) : t = s :=
  ((ensures_of_ok hrun).1 (h.ensures s)).symm

theorem Reads.ne_panic (h : Reads x) {msg : String} : x.run s ≠ .error (.panic msg) t :=
  fun hrun => (ensures_of_error hrun).1 (h.ensures s) msg rfl

theorem readByte_reads (p : Nat) : Reads (readByte p) :=
  Always.get.bind fun _ => .ite (.pure _) (.throw nofun)

theorem readShort_reads (p : Nat) : Reads (readShort p) :=
  (readByte_reads p).bind fun _ => (readByte_reads _).bind fun _ => .pure _

theorem readWord_reads (p : Nat) : Reads (readWord p) :=
  (readShort_reads p).bind fun _ => (readShort_reads _).bind fun _ => .pure _

theorem sum_reads (addr len : Nat) : Reads (sum addr len) := by
  have hfold (l : List Nat) (acc : Nat) :
      Reads (l.foldlM (fun acc i => do let b ← readByte (u32 (addr + i)); return acc + b.toNat) acc) := by
    induction l generalizing acc with
    | nil => exact .pure _
    | cons i l ih => exact ((readByte_reads _).bind fun _ => .pure _).bind fun _ => ih _
  exact (hfold _ _).bind fun _ => .pure _

theorem memcmp_reads (p : Nat) (cs : List UInt8) : Reads (memcmp p cs) := by
  induction cs generalizing p with
  | nil => exact .pure _
  | cons c cs ih => exact (readByte_reads p).bind fun _ => .ite (.pure _) (ih _)

theorem mpsearch1_reads (a len : Nat) : Reads (mpsearch1 a len) := by
  have hloop (e fuel p : Nat) : Reads (mpsearch1.loop e fuel p) := by
    induction fuel generalizing p with
    | zero => exact .throw nofun
    | succ fuel ih =>
      exact .ite ((memcmp_reads p _).bind fun _ =>
        .ite ((sum_reads p _).bind fun _ => .ite (.pure _) (ih _)) (ih _)) (.pure _)
  exact hloop _ _ _

theorem mpsearch_reads : Reads mpsearch :=
  (readShort_reads _).bind fun _ => .ite
    ((mpsearch1_reads _ _).bind fun _ => .ite (.pure _) (mpsearch1_reads _ _))
    ((readShort_reads _).bind fun _ => (mpsearch1_reads _ _).bind fun _ => .ite (.pure _) (mpsearch1_reads _ _))

theorem readByte_eq_ok {p : Nat} {b : UInt8} (h : (readByte p).run s = .ok b t) : KERNBASE ≤ p ∧ b = s.mem p := by
  rcases Nat.lt_or_ge p KERNBASE with hlt | hge
  · rw [readByte_fault hlt] at h
    cases h
  · rw [readByte_run hge] at h
    cases h
    exact ⟨hge, rfl⟩

theorem readShort_run {p : Nat} (hlo : KERNBASE ≤ p) (hhi : p + 1 < 2 ^ 32) :
    (readShort p).run s = .ok (load16 s.mem p) s := by
  have hnext : u32 (p + 1) = p + 1 := Nat.mod_eq_of_lt hhi
  unfold readShort
  rw [bind_ok (readByte_run hlo), hnext, bind_ok (readByte_run (by omega))]
  rfl

theorem readWord_run {p : Nat} (hlo : KERNBASE ≤ p) (hhi : p + 3 < 2 ^ 32) :
    (readWord p).run s = .ok (load32 s.mem p) s := by
  have hnext : u32 (p + 2) = p + 2 := Nat.mod_eq_of_lt (by omega)
  unfold readWord
  rw [bind_ok (readShort_run hlo (by omega)), hnext, bind_ok (readShort_run (by omega) (by omega))]
  have hword : load16 s.mem p + 2 ^ 16 * load16 s.mem (p + 2) = load32 s.mem p := by
    simp only [load16, load32, show p + 2 + 1 = p + 3 from rfl]
    omega
  rw [← hword]
  rfl

/-- `sum` reads every byte of its range. -/
theorem sum_eq_ok {addr len : Nat} {v : UInt8} (h : (sum addr len).run s = .ok v t) :
    ∀ i < len, KERNBASE ≤ u32 (addr + i) := by
  have hfold (l : List Nat) (acc total : Nat) (s : State)
      (h : (l.foldlM (fun acc i => do let b ← readByte (u32 (addr + i)); return acc + b.toNat) acc : MpM Nat).run s = .ok total t) :
      ∀ i ∈ l, KERNBASE ≤ u32 (addr + i) := by
    induction l generalizing acc s with
    | nil => simp
    | cons i l ih =>
      obtain ⟨acc', s₁, hi, hl⟩ := bind_eq_ok_iff.1 h
      obtain ⟨b, s₂, hread, -⟩ := bind_eq_ok_iff.1 hi
      exact List.forall_mem_cons.2 ⟨(readByte_eq_ok hread).1, ih _ _ hl⟩
  obtain ⟨total, s₁, hsum, hpure⟩ := bind_eq_ok_iff.1 h
  cases hpure
  exact fun i hi => hfold _ _ _ _ hsum i (List.mem_range.2 hi)

/-- A check that has not returned `none`. -/
theorem ite_none_eq_ok {c : Prop} [Decidable c] {y : MpM (Option α)} {a : α}
    (h : (if c then pure none else y).run s = .ok (some a) t) : ¬ c ∧ y.run s = .ok (some a) t := by
  split at h
  · cases h
  · exact ⟨‹_›, h⟩

/-- A table that `mpconfig` accepts lies in the address space, behind `KERNBASE`. -/
theorem mpconfig_some {mp conf : Nat} (h : mpconfig.run s = .ok (some (mp, conf)) t) :
    t = s ∧ KERNBASE ≤ conf ∧ conf + 6 < 2 ^ 32 ∧ entriesStop s.mem conf ≤ 2 ^ 32 := by
  obtain ⟨mp', s₁, hsearch, h₁⟩ := bind_eq_ok_iff.1 h
  obtain rfl := mpsearch_reads.eq hsearch
  obtain ⟨physaddr, s₂, hread, h₂⟩ := bind_eq_ok_iff.1 (ite_none_eq_ok h₁).2
  obtain rfl := (readWord_reads _).eq hread
  obtain ⟨c, s₃, hcmp, h₃⟩ := bind_eq_ok_iff.1 (ite_none_eq_ok h₂).2
  obtain rfl := (memcmp_reads _ _).eq hcmp
  obtain ⟨version, s₄, hversion, h₄⟩ := bind_eq_ok_iff.1 (ite_none_eq_ok h₃).2
  obtain rfl := (readByte_reads _).eq hversion
  obtain ⟨length, s₅, hlength, h₅⟩ := bind_eq_ok_iff.1 (ite_none_eq_ok h₄).2
  obtain rfl := (readShort_reads _).eq hlength
  obtain ⟨v, s₆, hsum, h₆⟩ := bind_eq_ok_iff.1 h₅
  obtain rfl := (sum_reads _ _).eq hsum
  cases (ite_none_eq_ok h₆).2
  have hconf : P2V physaddr < 2 ^ 32 := Nat.mod_lt _ (by decide)
  generalize P2V physaddr = conf at *
  obtain ⟨b, s₃, hfirst, -⟩ := bind_eq_ok_iff.1 hcmp
  have hlo : KERNBASE ≤ conf := (readByte_eq_ok hfirst).1
  have hsix : conf + 6 < 2 ^ 32 := by
    have hmapped := (readByte_eq_ok hversion).1
    simp only [u32, KERNBASE] at hmapped
    omega
  refine ⟨rfl, hlo, hsix, ?_⟩
  have hfour : u32 (conf + 4) = conf + 4 := Nat.mod_eq_of_lt (by omega)
  rw [hfour, readShort_run (by omega) (by omega)] at hlength
  obtain rfl : load16 t.mem (conf + 4) = length := by
    cases hlength
    rfl
  -- The byte at address 0, which is not mapped, is not one of those summed up.
  by_contra hwrap
  have hmapped := sum_eq_ok hsum (2 ^ 32 - conf) (by unfold entriesStop at hwrap; omega)
  simp only [u32, KERNBASE] at hmapped
  omega

end

/-- The state in which the scan of the table at `conf` starts. -/
def State.scan (mem : Mem) (imcr : UInt8) (conf : Nat) : State :=
  { State.boot mem imcr with lapic := load32 mem (conf + 36) }

/-- The scan of the table at `conf` comes to its end with at most `NCPU` processors, and `mpinit`
panics if there is an entry of an unknown type. -/
structure ScanOK (mem : Mem) (imcr : UInt8) (conf : Nat) : Prop where
  ends : ∃ fuel ismp s', (mpinit.loop (u32 (entriesStop mem conf)) fuel (u32 (entriesStart conf)) true).run
      (State.scan mem imcr conf) = .ok ismp s' ∧ s'.ncpu ≤ NCPU
  panics : HasUnknown mem conf →
    ∃ fuel s', (mpinit fuel).run (State.boot mem imcr) = .error (.panic "Didn't find a suitable machine") s'

/-- The entries all have a known type, and the cursor stays in the address space. A table that ends
exactly at the top of the address space is not scanned. -/
structure Scannable (mem : Mem) (conf : Nat) : Prop where
  known : ¬ HasUnknown mem conf
  fits : entriesStop mem conf < 2 ^ 32 → ∀ q, Cursor mem (entriesStop mem conf) (entriesStart conf) q → q < 2 ^ 32

section
variable {mem : Mem} {imcr : UInt8} {mp conf : Nat} {t : State}

theorem ScanOK.of_scannable (hlo : KERNBASE ≤ conf) (hle : entriesStop mem conf ≤ 2 ^ 32) (h : Scannable mem conf) :
    ScanOK mem imcr conf := by
  refine ⟨?_, fun hunknown => absurd hunknown h.known⟩
  rcases Nat.lt_or_ge (entriesStop mem conf) (2 ^ 32) with hlt | hge
  · have hfits := h.fits hlt
    have hstop : u32 (entriesStop mem conf) = entriesStop mem conf := Nat.mod_eq_of_lt hlt
    have hstart : u32 (entriesStart conf) = entriesStart conf := Nat.mod_eq_of_lt (hfits _ .here)
    rw [hstop, hstart]
    have hknown (q : Nat) (hq : Cursor mem (entriesStop mem conf) (entriesStart conf) q) (hlt : q < entriesStop mem conf) :
        entrySize (mem q) ≠ none := fun hnone => h.known ⟨q, hq, hlt, hnone⟩
    exact (loop_ends (by unfold entriesStart; omega) hlt hknown hfits rfl (Nat.zero_le _)).imp fun _ h => ⟨true, h⟩
  · have hstop : u32 (entriesStop mem conf) = 0 := by simp only [u32]; omega
    rw [hstop]
    exact ⟨1, true, _, loop_exit (Nat.zero_le _), Nat.zero_le _⟩

/-- A table up to the top of the address space is not scanned, and `mpinit` does not panic. -/
theorem mpinit_skips (hconfig : mpconfig.run (State.boot mem imcr) = .ok (some (mp, conf)) (State.boot mem imcr))
    (hlo : KERNBASE ≤ conf) (hsix : conf + 6 < 2 ^ 32) (hstop : u32 (entriesStop mem conf) = 0) (fuel : Nat) (msg : String) :
    (mpinit fuel).run (State.boot mem imcr) ≠ .error (.panic msg) t := by
  intro hrun
  have hfour : u32 (conf + 4) = conf + 4 := Nat.mod_eq_of_lt (by omega)
  rw [mpinit, bind_ok hconfig] at hrun
  cases hlapic : (readWord (u32 (conf + 36))).run (State.boot mem imcr) with
  | error stop t' =>
    rw [bind_error hlapic] at hrun
    cases hrun
    exact (readWord_reads _).ne_panic hlapic
  | ok lapic t' =>
    obtain rfl := (readWord_reads _).eq hlapic
    rw [bind_ok hlapic, modify_bind, hfour, bind_ok (readShort_run (by omega) (by omega))] at hrun
    change (mpinit.loop (u32 (entriesStop mem conf)) fuel _ true >>= _).run _ = _ at hrun
    rw [hstop] at hrun
    cases fuel with
    | zero => cases hrun
    | succ fuel =>
      rw [bind_ok (loop_exit (Nat.zero_le _)), mpinit.finish, if_neg (by decide)] at hrun
      cases himcrp : (readByte (u32 (mp + 12))).run { State.boot mem imcr with lapic := lapic } with
      | error stop t' =>
        rw [bind_error himcrp] at hrun
        cases hrun
        exact (readByte_reads _).ne_panic himcrp
      | ok imcrp t' =>
        rw [bind_ok himcrp] at hrun
        split at hrun <;> cases hrun

/-- Once the table has been found, `mpinit` is its loop and what follows. -/
theorem mpinit_run (hconfig : mpconfig.run (State.boot mem imcr) = .ok (some (mp, conf)) (State.boot mem imcr))
    (hlo : KERNBASE ≤ conf) (hhi : entriesStart conf ≤ 2 ^ 32) (fuel : Nat) :
    (mpinit fuel).run (State.boot mem imcr) =
      (mpinit.loop (u32 (entriesStop mem conf)) fuel (u32 (entriesStart conf)) true >>= mpinit.finish mp).run
        (State.scan mem imcr conf) := by
  unfold entriesStart mpconfSize at hhi
  have hlapic : u32 (conf + 36) = conf + 36 := Nat.mod_eq_of_lt (by omega)
  have hlength : u32 (conf + 4) = conf + 4 := Nat.mod_eq_of_lt (by omega)
  rw [mpinit, bind_ok hconfig]
  dsimp only
  rw [hlapic, bind_ok (readWord_run (by omega) (by omega)), modify_bind, hlength,
    bind_ok (readShort_run (by omega) (by omega))]
  rfl

/-- With an entry of an unknown type, `mpinit` neither returns nor panics. -/
theorem mpinit_hangs (hconfig : mpconfig.run (State.boot mem imcr) = .ok (some (mp, conf)) t)
    (hunknown : HasUnknown mem conf) (hlt : entriesStop mem conf < 2 ^ 32) (fuel : Nat) :
    ∃ s', (mpinit fuel).run (State.boot mem imcr) = .error .hang s' := by
  obtain ⟨rfl, hlo, -, -⟩ := mpconfig_some hconfig
  obtain ⟨q, hcursor, hq, hnone⟩ := hunknown
  have hle := hcursor.le
  have hstart : u32 (entriesStart conf) = entriesStart conf := Nat.mod_eq_of_lt (by omega)
  have hstop : u32 (entriesStop mem conf) = entriesStop mem conf := Nat.mod_eq_of_lt hlt
  obtain ⟨s', hrun⟩ : ∃ s', (mpinit.loop (entriesStop mem conf) fuel (entriesStart conf) true).run
      (State.scan mem imcr conf) = .error .hang s' :=
    loop_hangs hcursor (by unfold entriesStart; omega) hq hlt hnone rfl
  exact ⟨s', by rw [mpinit_run hconfig hlo (by omega), hstart, hstop, bind_error hrun]⟩

end

/-- A memory with a configuration table at physical address 0x2000, to which the MP structure in the
first KB of the EBDA points. -/
def firmware (conf : List UInt8) : Mem :=
  let mp : List UInt8 := sigMp ++ [0x00, 0x20, 0x00, 0x00, 1, 4, 128, 0, 0, 0, 0, 0]
  blit (blit (blit (fun _ => 0) (P2V 0x40E) [0x00, 0x01]) (P2V 0x1000) mp) (P2V 0x2000) conf

/-- A header with its length and checksum. -/
def header (length checksum : UInt8) : List UInt8 :=
  sigConf ++ [length, 0, 4, checksum] ++ List.replicate 36 0

/-- A table with a processor and an I/O APIC. -/
def smallTable : Mem := firmware (header 72 114 ++ 0 :: 7 :: List.replicate 18 0 ++ [2, 9, 0, 0, 0, 0, 0, 0])

/-- A table whose only entry has type 5. -/
def unknownTable : Mem := firmware (header 45 154 ++ [5])

theorem mpconfig_smallTable : ∃ t, mpconfig.run (State.boot smallTable 0) = .ok (some (P2V 0x1000, P2V 0x2000)) t :=
  ok_of_run' (by decide)

theorem mpconfig_unknownTable :
    ∃ t, mpconfig.run (State.boot unknownTable 0) = .ok (some (P2V 0x1000, P2V 0x2000)) t :=
  ok_of_run' (by decide)

/-- The scan of a configuration table ends as it should exactly on tables without an entry of an
unknown type: at such an entry it stays for ever. -/
theorem mpinit_scan_iff (h : mpconfig.run (State.boot mem imcr) = .ok (some (mp, conf)) t) :
    ScanOK mem imcr conf ↔ Scannable mem conf := by
  obtain ⟨rfl, hlo, hsix, hle⟩ := mpconfig_some h
  change entriesStop mem conf ≤ 2 ^ 32 at hle
  refine ⟨fun hok => ?_, .of_scannable hlo hle⟩
  rcases Nat.lt_or_ge (entriesStop mem conf) (2 ^ 32) with hlt | hge
  · obtain ⟨fuel, ismp, s', hrun, -⟩ := hok.ends
    rw [show u32 (entriesStop mem conf) = entriesStop mem conf from Nat.mod_eq_of_lt hlt] at hrun
    have hstart : entriesStart conf < 2 ^ 32 := by
      by_contra hwrap
      have hlow : u32 (entriesStart conf) < 38 := by
        simp only [u32, entriesStart, mpconfSize] at hwrap ⊢
        omega
      have hbehind : conf ≤ entriesStop mem conf := Nat.le_add_right _ _
      exact loop_wrapped (by simp only [KERNBASE] at hlo; omega) (Nat.lt_trans hlow (by decide)) hrun
    rw [show u32 (entriesStart conf) = entriesStart conf from Nat.mod_eq_of_lt hstart] at hrun
    have hcursor (q : Nat) (hq : Cursor mem (entriesStop mem conf) (entriesStart conf) q) :=
      cursor_of_loop_ok hq (by unfold entriesStart; omega) hstart hlt rfl hrun
    exact ⟨fun ⟨q, hq, hlt, hnone⟩ => (hcursor q hq).2 hlt hnone, fun _ q hq => (hcursor q hq).1⟩
  · have hstop : u32 (entriesStop mem conf) = 0 := by simp only [u32]; omega
    refine ⟨fun hunknown => ?_, fun hlt => absurd hlt (by omega)⟩
    obtain ⟨fuel, s', hpanic⟩ := hok.panics hunknown
    exact mpinit_skips h hlo hsix hstop fuel _ hpanic

/-- A processor and an I/O APIC. -/
theorem mpinit_scan_small : ScanOK smallTable 0 (P2V 0x2000) := by
  obtain ⟨t, hconfig⟩ := mpconfig_smallTable
  have hstop : entriesStop smallTable (P2V 0x2000) = 0x80002048 := by decide
  have hcursor (q : Nat) (h : Cursor smallTable 0x80002048 0x8000202C q) :
      q = 0x8000202C ∨ q = 0x80002040 ∨ q = 0x80002048 := by
    cases h with
    | here => exact .inl rfl
    | next _ hsize h =>
      obtain rfl := Option.some.inj ((by decide : entrySize (smallTable 0x8000202C) = some 20).symm.trans hsize)
      cases h with
      | here => exact .inr (.inl rfl)
      | next _ hsize h =>
        obtain rfl := Option.some.inj ((by decide : entrySize (smallTable 0x80002040) = some 8).symm.trans hsize)
        cases h with
        | here => exact .inr (.inr rfl)
        | next hlt => exact absurd hlt (by decide)
  refine (mpinit_scan_iff hconfig).2 ⟨?_, ?_⟩
  · rintro ⟨q, hq, hlt, hnone⟩
    rw [hstop] at hq hlt
    rcases hcursor q hq with rfl | rfl | rfl
    · exact absurd hnone (by decide)
    · exact absurd hnone (by decide)
    · exact absurd hlt (by decide)
  · intro _ q hq
    rw [hstop] at hq
    rcases hcursor q hq with rfl | rfl | rfl <;> decide

/-- The scan of a table whose only entry has type 5 never ends. -/
theorem mpinit_unknown_stuck :
    (∃ t, mpconfig.run (State.boot unknownTable 0) = .ok (some (P2V 0x1000, P2V 0x2000)) t) ∧
      HasUnknown unknownTable (P2V 0x2000) ∧
      (∀ fuel, ∃ s', (mpinit fuel).run (State.boot unknownTable 0) = .error .hang s') ∧
      ¬ ScanOK unknownTable 0 (P2V 0x2000) := by
  obtain ⟨t, hconfig⟩ := mpconfig_unknownTable
  have hunknown : HasUnknown unknownTable (P2V 0x2000) := ⟨_, .here, by decide, by decide⟩
  have hhangs := mpinit_hangs hconfig hunknown (by decide)
  refine ⟨⟨t, hconfig⟩, hunknown, hhangs, fun hok => ?_⟩
  obtain ⟨fuel, s', hpanic⟩ := hok.panics hunknown
  obtain ⟨s'', hhang⟩ := hhangs fuel
  rw [hhang] at hpanic
  cases hpanic

end xv6.mp
