import Mathlib.Data.List.Induction
import Xv6.Lib.Fifo
import Xv6.Lib.Run

open Function fifo run

namespace xv6.console

abbrev INPUT_BUF : Nat := 128

-- `C('D')`, `C('H')`, `C('P')`, `C('U')`, `'\x7f'`, `'\n'` and `'\r'`
abbrev ctrlD : UInt8 := 4
abbrev ctrlH : UInt8 := 8
abbrev ctrlP : UInt8 := 16
abbrev ctrlU : UInt8 := 21
abbrev del : UInt8 := 0x7f
abbrev newline : UInt8 := 10
abbrev cr : UInt8 := 13

/-- `input`: the ring with its read, write and edit index. -/
structure Input where
  buf : Fin INPUT_BUF → UInt8
  r : UInt32
  w : UInt32
  e : UInt32

/-- `input.buf[k % INPUT_BUF]` -/
def Input.get (i : Input) (k : UInt32) : UInt8 := i.buf (Fin.ofNat INPUT_BUF k.toNat)

/-- The bytes at the indices from `a` up to `b`. -/
def Input.between (i : Input) (a b : UInt32) : List UInt8 :=
  (List.range (b - a).toNat).map fun k => i.get (a + UInt32.ofNat k)

/-- Kill the line: go back to the last newline or to what has been committed. -/
def killLine (i : Input) : Input :=
  if i.e ≠ i.w ∧ i.get (i.e - 1) ≠ newline then killLine { i with e := i.e - 1 } else i
termination_by (i.e - i.w).toNat
decreasing_by
  rename_i h
  have hne : i.e.toNat ≠ i.w.toNat := fun heq => h.1 (UInt32.toNat_inj.1 heq)
  have hone : UInt32.toNat 1 = 1 := rfl
  have he := i.e.toNat_lt
  have hw := i.w.toNat_lt
  simp only [UInt32.toNat_sub, hone]
  omega

/-- What `consoleintr` does with one character `c`, and the bytes that it commits. -/
def consoleintr (i : Input) (c : UInt8) : Input × List UInt8 :=
  if c = ctrlP then
    (i, [])
  else if c = ctrlU then
    (killLine i, [])
  else if c = ctrlH ∨ c = del then
    (if i.e ≠ i.w then { i with e := i.e - 1 } else i, [])
  else if c ≠ 0 ∧ (i.e - i.r).toNat < INPUT_BUF then
    let c := if c = cr then newline else c
    let i := { i with buf := update i.buf (Fin.ofNat INPUT_BUF i.e.toNat) c, e := i.e + 1 }
    if c = newline ∨ c = ctrlD ∨ i.e = i.r + UInt32.ofNat INPUT_BUF then
      ({ i with w := i.e }, i.between i.w i.e)
    else
      (i, [])
  else
    (i, [])

/-- A call of `consoleread` that has returned: the size that was asked for, the result, and the bytes it stands for. -/
structure Call where
  size : Int
  ret : Int
  bytes : List UInt8

/-- The input that a call stands for: its bytes, or a Ctrl-D if it has reported an end of file. -/
def Call.input (c : Call) : List UInt8 := if 0 < c.size ∧ c.ret = 0 then [ctrlD] else c.bytes

/-- Where a process is in `consoleread`: in its loop with `n` bytes of `target` left and the bytes in `dst` stored. -/
inductive Pc where
  | out
  | reading (target n : Nat) (dst : List UInt8)

/-- The bytes that the call in progress has stored. -/
def Pc.dst : Pc → List UInt8
  | .out => []
  | .reading _ _ dst => dst

/-- The console and the processes `P` that read from it. The history says which bytes have been committed, which
process has taken which byte, and what the calls of each process have returned. -/
structure Sys (P : Type) where
  input : Input
  pc : P → Pc
  killed : P → Bool
  committed : List UInt8
  taken : List (P × UInt8)
  returned : P → List Call

variable {P : Type} [DecidableEq P]

def Sys.goto (s : Sys P) (p : P) (pc : Pc) : Sys P := { s with pc := update s.pc p pc }

/-- Process `p` returns from `consoleread`. -/
def Sys.leave (s : Sys P) (p : P) (c : Call) : Sys P :=
  { s with pc := update s.pc p .out, returned := update s.returned p (s.returned p ++ [c]) }

/-- Process `p` takes the next byte. -/
def Sys.take (s : Sys P) (p : P) : Sys P :=
  { s with input := { s.input with r := s.input.r + 1 }, taken := s.taken ++ [(p, s.input.get s.input.r)] }

/-- One turn of the loop of `consoleread`, up to where it goes to sleep or tests `n > 0` again. -/
def consoleread (s : Sys P) (p : P) (target n : Nat) (dst : List UInt8) : Sys P :=
  if n = 0 then
    s.leave p ⟨target, target - n, dst⟩
  else if s.input.r = s.input.w then
    if s.killed p then s.leave p ⟨target, -1, []⟩ else s
  else
    let c := s.input.get s.input.r
    if c = ctrlD then
      if n < target then
        -- The Ctrl-D is pushed back for the next call.
        s.leave p ⟨target, target - n, dst⟩
      else
        (s.take p).leave p ⟨target, target - n, dst⟩
    else if c = newline then
      (s.take p).leave p ⟨target, target - (n - 1 : Nat), dst ++ [c]⟩
    else
      (s.take p).goto p (.reading target (n - 1) (dst ++ [c]))

/-- Steps are taken under the lock of the console: an interrupt delivers a character, a process is killed, calls
`consoleread` for `n` bytes or goes through its loop. -/
inductive Step (s : Sys P) : Sys P → Prop
  | intr (c : UInt8) : Step s { s with input := (consoleintr s.input c).1,
                                       committed := s.committed ++ (consoleintr s.input c).2 }
  | kill (p : P) : Step s { s with killed := update s.killed p true }
  | call (p : P) (n : Int) (hpc : s.pc p = .out) :
      Step s (if 0 < n then s.goto p (.reading n.toNat n.toNat []) else s.leave p ⟨n, 0, []⟩)
  | read (p : P) (target n : Nat) (dst : List UInt8) (hpc : s.pc p = .reading target n dst) :
      Step s (consoleread s p target n dst)

/-- The console after a reset, with nobody reading. -/
def Initial (s : Sys P) : Prop :=
  s.input.r = 0 ∧ s.input.w = 0 ∧ s.input.e = 0 ∧ (∀ p, s.pc p = .out) ∧ s.committed = [] ∧ s.taken = [] ∧
    ∀ p, s.returned p = []

/-! ### The ring -/

/-- The ring holds the bytes that are committed and not yet read, and then those that are being edited. -/
structure Holds (i : Input) (unread edit : List UInt8) : Prop where
  ring : Queue (2 ^ 32) i.buf i.r.toNat i.e.toNat (unread ++ edit)
  w_eq : i.w.toNat = (i.r.toNat + unread.length) % 2 ^ 32

section ring

variable {i : Input} {unread edit : List UInt8} {a : UInt8}

theorem Holds.length_le (h : Holds i unread edit) : unread.length + edit.length ≤ 128 := by
  rw [← List.length_append]
  exact h.ring.room

/-- The offsets of the write and the edit index from the read index. -/
theorem Holds.offsets (h : Holds i unread edit) :
    (i.w - i.r).toNat = unread.length ∧ (i.e - i.r).toNat = unread.length + edit.length := by
  have hlen := h.length_le
  have hr := i.r.toNat_lt
  have hall := h.ring.length_eq hr (by decide)
  rw [List.length_append] at hall
  rw [UInt32.toNat_sub, UInt32.toNat_sub, h.w_eq, hall]
  omega

theorem Holds.edit_eq_nil_iff (h : Holds i unread edit) : i.e = i.w ↔ edit = [] := by
  have hcount := h.ring.count
  have hw := h.w_eq
  have hlen := h.length_le
  rw [List.length_append] at hcount
  rw [← UInt32.toNat_inj, ← List.length_eq_zero_iff]
  omega

theorem Holds.unread_eq_nil_iff (h : Holds i unread edit) : i.r = i.w ↔ unread = [] := by
  have hw := h.w_eq
  have hlen := h.length_le
  have hr := i.r.toNat_lt
  rw [← UInt32.toNat_inj, ← List.length_eq_zero_iff]
  omega

/-- The cell at an index that is `k` beyond the read index. -/
theorem Holds.get_eq (h : Holds i unread edit) {k : Nat} {x : UInt32} (hx : x.toNat = (i.r.toNat + k) % 2 ^ 32)
    (hk : k < (unread ++ edit).length) : i.get x = (unread ++ edit)[k] := by
  have hcell := ofNat_mod (n := INPUT_BUF) (M := 2 ^ 32) (by decide) (i.r.toNat + k) 0
  rw [Input.get, hx]
  rw [Nat.add_zero, Nat.add_zero] at hcell
  rw [hcell]
  exact h.ring.cells k hk

theorem Holds.between_eq (h : Holds i unread edit) : i.between i.r i.w = unread ∧ i.between i.w i.e = edit := by
  obtain ⟨hw, he⟩ := h.offsets
  have hlen := h.length_le
  have hwe : (i.e - i.w).toNat = edit.length := by
    have hcount := h.ring.count
    have hweq := h.w_eq
    rw [List.length_append] at hcount
    have := i.e.toNat_lt
    have := i.w.toNat_lt
    rw [UInt32.toNat_sub]
    omega
  constructor
  · refine List.ext_getElem (by simp [Input.between, hw]) fun k hk hk' => ?_
    have hx : (i.r + UInt32.ofNat k).toNat = (i.r.toNat + k) % 2 ^ 32 := by
      rw [UInt32.toNat_add, UInt32.toNat_ofNat', Nat.add_mod_mod]
    simp only [Input.between, List.getElem_map, List.getElem_range]
    rw [h.get_eq hx (by rw [List.length_append]; omega), List.getElem_append_left hk']
  · refine List.ext_getElem (by simp [Input.between, hwe]) fun k hk hk' => ?_
    have hx : (i.w + UInt32.ofNat k).toNat = (i.r.toNat + (unread.length + k)) % 2 ^ 32 := by
      rw [UInt32.toNat_add, UInt32.toNat_ofNat', Nat.add_mod_mod, h.w_eq, Nat.mod_add_mod, Nat.add_assoc]
    simp only [Input.between, List.getElem_map, List.getElem_range]
    rw [h.get_eq hx (by rw [List.length_append]; omega), List.getElem_append_right (by omega)]
    congr 1
    omega

/-- Erasing the last byte that is being edited. -/
theorem Holds.erase (h : Holds i unread (edit ++ [a])) : Holds { i with e := i.e - 1 } unread edit where
  ring := by
    have hback : i.e.toNat = ((i.e - 1).toNat + 1) % 2 ^ 32 := by
      have hone : UInt32.toNat 1 = 1 := rfl
      have := i.e.toNat_lt
      rw [UInt32.toNat_sub, hone]
      omega
    have hring := h.ring
    rw [hback, ← List.append_assoc] at hring
    exact hring.back (i.e - 1).toNat_lt
  w_eq := h.w_eq

/-- Killing the line leaves some of the bytes that are being edited. -/
theorem Holds.killLine (h : Holds i unread edit) : ∃ edit', Holds (killLine i) unread edit' := by
  induction edit using List.reverseRecOn generalizing i with
  | nil =>
    rw [console.killLine, if_neg fun hcond => hcond.1 (h.edit_eq_nil_iff.2 rfl)]
    exact ⟨[], h⟩
  | append_singleton edit a ih =>
    rw [console.killLine]
    split_ifs
    · exact ih h.erase
    · exact ⟨_, h⟩

theorem Holds.store (h : Holds i unread edit) (hroom : (i.e - i.r).toNat < INPUT_BUF) (c : UInt8) :
    Holds { i with buf := update i.buf (Fin.ofNat INPUT_BUF i.e.toNat) c, e := i.e + 1 } unread (edit ++ [c]) where
  ring := by
    rw [h.offsets.2, ← List.length_append] at hroom
    have hpush := h.ring.push (a := c) (by decide) hroom
    rw [List.append_assoc] at hpush
    rw [UInt32.toNat_add]
    exact hpush
  w_eq := h.w_eq

theorem Holds.commit (h : Holds i unread edit) : Holds { i with w := i.e } (unread ++ edit) [] where
  ring := by
    rw [List.append_nil]
    exact h.ring
  w_eq := h.ring.count

theorem Holds.next (h : Holds i (a :: unread) edit) :
    i.get i.r = a ∧ Holds { i with r := i.r + 1 } unread edit := by
  obtain ⟨hcell, hrest⟩ := h.ring.pop (by decide)
  refine ⟨hcell, ?_, ?_⟩
  · rw [UInt32.toNat_add]
    exact hrest
  · have hone : UInt32.toNat 1 = 1 := rfl
    rw [h.w_eq, UInt32.toNat_add, hone, Nat.mod_add_mod, List.length_cons, Nat.add_assoc, Nat.add_comm 1]

end ring

/-- A character that is typed changes what is being edited, or commits it with the character. -/
theorem Holds.intr {i : Input} {unread edit : List UInt8} (h : Holds i unread edit) (c : UInt8) :
    ∃ edit', Holds (consoleintr i c).1 (unread ++ (consoleintr i c).2) edit' := by
  have hsame : ∃ edit', Holds i (unread ++ []) edit' := ⟨edit, by rwa [List.append_nil]⟩
  fun_cases consoleintr i c with
  | case1 => exact hsame
  | case2 =>
    obtain ⟨edit', hkill⟩ := h.killLine
    exact ⟨edit', by rwa [List.append_nil]⟩
  | case3 =>
    split
    · next he =>
      obtain ⟨edit', a, rfl⟩ := (List.eq_nil_or_concat edit).resolve_left (mt h.edit_eq_nil_iff.2 he)
      rw [List.concat_eq_append] at h
      exact ⟨edit', by rw [List.append_nil]; exact h.erase⟩
    · exact hsame
  | case4 _ _ _ hroom c' =>
    have hstore := h.store hroom.2 c'
    exact ⟨[], by rw [hstore.between_eq.2]; exact hstore.commit⟩
  | case5 _ _ _ hroom c' => exact ⟨_, by rw [List.append_nil]; exact h.store hroom.2 c'⟩
  | case6 => exact hsame

/-! ### Runs -/

section fields

variable {s : Sys P} {p q : P} {c : Call} {pc : Pc}

@[simp, grind =] theorem pc_goto : (s.goto p pc).pc q = if q = p then pc else s.pc q := update_apply ..

@[simp, grind =] theorem returned_goto : (s.goto p pc).returned q = s.returned q := rfl

@[simp, grind =] theorem taken_goto : (s.goto p pc).taken = s.taken := rfl

@[simp, grind =] theorem pc_take : (s.take p).pc q = s.pc q := rfl

@[simp, grind =] theorem returned_take : (s.take p).returned q = s.returned q := rfl

@[simp, grind =] theorem taken_leave : (s.leave p c).taken = s.taken := rfl

@[simp, grind =] theorem pc_leave : (s.leave p c).pc q = if q = p then .out else s.pc q := update_apply ..

@[simp, grind =] theorem returned_leave :
    (s.leave p c).returned q = if q = p then s.returned p ++ [c] else s.returned q := update_apply ..

end fields

/-- The result of a call: -1, or the number of the bytes that it has stored. -/
def Call.OK (c : Call) : Prop := c.ret = -1 ∧ c.bytes = [] ∨ c.ret = c.bytes.length

/-- The bytes taken are the first ones committed, the rest of them are in the ring, and the calls of a process that is
not killed have returned or stored the bytes that it has taken. -/
structure Inv (s : Sys P) : Prop where
  history : ∃ unread edit, Holds s.input unread edit ∧ s.committed = s.taken.map Prod.snd ++ unread
  reading : ∀ p target n dst, s.pc p = .reading target n dst → 0 < target ∧ target = n + dst.length
  returned : ∀ p, s.killed p = false →
    (s.returned p).flatMap Call.input ++ (s.pc p).dst = (s.taken.filter fun t => t.1 = p).map Prod.snd
  result : ∀ p, ∀ c ∈ s.returned p, c.OK

section run

variable {s s' : Sys P} {p : P}

theorem Inv.of_initial (h : Initial s) : Inv s := by
  obtain ⟨hr, hw, he, hpc, hcommitted, htaken, hreturned⟩ := h
  refine ⟨⟨[], [], ⟨?_, ?_⟩, ?_⟩, ?_, ?_, ?_⟩
  · rw [hr, he]
    exact .nil (by decide)
  · rw [hr, hw]
    rfl
  · rw [hcommitted, htaken]
    rfl
  all_goals simp [hpc, htaken, hreturned, Pc.dst]

/-- A call returns what it has stored. -/
theorem Inv.leave (h : Inv s) (c : Call) (hok : c.OK) (hc : s.killed p = false → c.input = (s.pc p).dst) :
    Inv (s.leave p c) := by
  obtain ⟨hhistory, hreading, hreturned, hresult⟩ := h
  refine ⟨hhistory, by grind, fun q hk => ?_, by grind⟩
  have hold := hreturned q hk
  by_cases hq : q = p
  · subst hq
    simpa [Pc.dst, hc hk] using hold
  · simpa [hq] using hold

theorem filter_taken (l : List (P × UInt8)) (p q : P) (c : UInt8) :
    ((l ++ [(p, c)]).filter fun t => t.1 = q).map Prod.snd =
      (l.filter fun t => t.1 = q).map Prod.snd ++ if p = q then [c] else [] := by
  rw [List.filter_append, List.map_append]
  by_cases h : p = q <;> simp [h]

/-- A byte is taken by the call in progress, which stores it or reports it as the end of the file. -/
theorem Inv.take {target n : Nat} {dst : List UInt8} (h : Inv s) (hpc : s.pc p = .reading target n dst)
    (hne : s.input.r ≠ s.input.w) {s' : Sys P} (hinput : s'.input = (s.take p).input)
    (hcommitted : s'.committed = s.committed) (htaken : s'.taken = (s.take p).taken) (hkilled : s'.killed = s.killed)
    (hother : ∀ q, q ≠ p → s'.pc q = s.pc q ∧ s'.returned q = s.returned q)
    (hreading : ∀ target' n' dst', s'.pc p = .reading target' n' dst' → 0 < target' ∧ target' = n' + dst'.length)
    (hp : (s'.returned p).flatMap Call.input ++ (s'.pc p).dst =
      (s.returned p).flatMap Call.input ++ (dst ++ [s.input.get s.input.r]))
    (hresult : ∀ c ∈ s'.returned p, c ∈ s.returned p ∨ c.OK) : Inv s' := by
  obtain ⟨⟨unread, edit, hholds, hhist⟩, hreads, hreturned, hresults⟩ := h
  refine ⟨?_, by grind, fun q hk => ?_, fun q c hc => by by_cases hq : q = p <;> grind⟩
  · cases unread with
    | nil => exact absurd (hholds.unread_eq_nil_iff.2 rfl) hne
    | cons a unread =>
      obtain ⟨hget, hnext⟩ := hholds.next
      refine ⟨unread, edit, hinput ▸ hnext, ?_⟩
      rw [hcommitted, hhist, htaken, Sys.take]
      simp [hget]
  · rw [hkilled] at hk
    have hold := hreturned q hk
    rw [htaken, Sys.take, filter_taken]
    by_cases hqp : q = p
    · subst hqp
      rw [if_pos rfl, ← hold, hp, hpc, Pc.dst, List.append_assoc]
    · rw [if_neg (Ne.symm hqp), List.append_nil, (hother q hqp).1, (hother q hqp).2, hold]

theorem Inv.read {target n : Nat} {dst : List UInt8} (h : Inv s) (hpc : s.pc p = .reading target n dst) :
    Inv (consoleread s p target n dst) := by
  obtain ⟨htarget, hsum⟩ := h.reading p target n dst hpc
  have hdst : (s.pc p).dst = dst := by rw [hpc, Pc.dst]
  have hlen : (target : Int) - n = dst.length := by omega
  fun_cases consoleread s p target n dst with
  | case1 => exact h.leave _ (.inr hlen) fun _ => by grind [Call.input]
  | case2 _ _ hkilled => exact h.leave _ (.inl ⟨rfl, rfl⟩) fun hk => by rw [hkilled] at hk; cases hk
  | case3 => exact h
  | case4 => exact h.leave _ (.inr hlen) fun _ => by grind [Call.input]
  | case5 _ hempty c hD hlt =>
    obtain rfl : dst = [] := List.length_eq_zero_iff.1 (by omega)
    refine h.take hpc hempty rfl rfl rfl rfl ?_ ?_ ?_ ?_
    all_goals grind [Call.input, Call.OK, Pc.dst]
  | case6 _ hempty c hD hnl
  | case7 _ hempty c hD hnl =>
    refine h.take hpc hempty rfl rfl rfl rfl ?_ ?_ ?_ ?_
    all_goals grind [Call.input, Call.OK, Pc.dst]

theorem Inv.step (h : Inv s) (hstep : Step s s') : Inv s' := by
  cases hstep with
  | intr c =>
    obtain ⟨unread, edit, hholds, hhist⟩ := h.history
    obtain ⟨edit', hintr⟩ := hholds.intr c
    exact ⟨⟨_, edit', hintr, by rw [hhist, List.append_assoc]⟩, h.reading, h.returned, h.result⟩
  | kill p =>
    refine ⟨h.history, h.reading, fun q hk => h.returned q ?_, h.result⟩
    grind [update_apply]
  | call p n hpc =>
    split
    · obtain ⟨hhistory, hreading, hreturned, hresult⟩ := h
      refine ⟨hhistory, by grind, fun q hk => ?_, by grind⟩
      have hold := hreturned q hk
      grind [Pc.dst]
    · exact h.leave _ (.inr rfl) fun _ => by grind [Call.input, Pc.dst]
  | read p target n dst hpc => exact h.read hpc

/-- In every state the offsets are in order, the bytes between the read and the write index are those committed and
not yet taken, and a process that is not killed has been given, in order, what it has taken. A call returns
the number of its bytes, or -1 without any. -/
theorem console_discipline (h : Reachable Initial Step s) :
    (s.input.w - s.input.r).toNat ≤ (s.input.e - s.input.r).toNat ∧
    (s.input.e - s.input.r).toNat ≤ INPUT_BUF ∧
    s.committed = s.taken.map Prod.snd ++ s.input.between s.input.r s.input.w ∧
    (∀ p, s.killed p = false →
      (s.returned p).flatMap Call.input ++ (s.pc p).dst = (s.taken.filter fun t => t.1 = p).map Prod.snd) ∧
    ∀ p, ∀ c ∈ s.returned p, c.ret = -1 ∧ c.bytes = [] ∨ c.ret = c.bytes.length := by
  have hinv := h.inv (fun _ => Inv.of_initial) fun _ _ hinv hstep => hinv.step hstep
  obtain ⟨unread, edit, hholds, hhist⟩ := hinv.history
  obtain ⟨hw, he⟩ := hholds.offsets
  have hlen := hholds.length_le
  refine ⟨by omega, show _ ≤ 128 by omega, ?_, hinv.returned, hinv.result⟩
  rw [hholds.between_eq.1, hhist]

end run

/-- A console with one reader at a time. -/
def Sys.reset : Sys Unit where
  input := ⟨fun _ => 0, 0, 0, 0⟩
  pc _ := .out
  killed _ := false
  committed := []
  taken := []
  returned _ := []

/-- After `ab`, a backspace and a Ctrl-D have been typed, two calls return `a` and the end of the file. -/
theorem console_discipline_eof : ∃ s : Sys Unit,
    (s.returned ()).map (fun c => (c.ret, c.bytes)) = [(1, [97]), (0, [])] ∧ s.committed = [97, ctrlD] ∧
      (s.returned ()).flatMap Call.input ++ (s.pc ()).dst = (s.taken.filter fun t => t.1 = ()).map Prod.snd := by
  have h₀ : Reachable Initial Step Sys.reset := .start ⟨rfl, rfl, rfl, fun _ => rfl, rfl, rfl, fun _ => rfl⟩
  have h₁ := h₀.next (.intr 97)
  have h₂ := h₁.next (.intr 98)
  have h₃ := h₂.next (.intr ctrlH)
  have h₄ := h₃.next (.intr ctrlD)
  have h₅ := h₄.next (.call () 9 rfl)
  have h₆ := h₅.next (.read () 9 9 [] rfl)
  have h₇ := h₆.next (.read () 9 8 [97] rfl)
  have h₈ := h₇.next (.call () 9 rfl)
  have h₉ := h₈.next (.read () 9 9 [] rfl)
  exact ⟨_, rfl, rfl, (console_discipline h₉).2.2.2.1 () rfl⟩

end xv6.console
