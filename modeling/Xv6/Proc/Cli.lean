import Mathlib.Logic.Function.Basic
import Xv6.Lib.Run

open run

namespace xv6.cli

/-- The fields of `struct cpu` that `pushcli`, `popcli` and `sched` use, with
the flag `FL_IF` of the processor. The CPU runs its scheduler when `proc` is `none`. -/
structure Cpu (T : Type) where
  ncli : Int
  intena : Bool
  flagIF : Bool
  proc : Option T

variable {C T : Type}

def pushcli (cpu : Cpu T) : Cpu T :=
  let eflags := cpu.flagIF
  let cpu := { cpu with flagIF := false }
  let cpu := if cpu.ncli = 0 then { cpu with intena := eflags } else cpu
  { cpu with ncli := cpu.ncli + 1 }

/-- An error is a panic. -/
def popcli (cpu : Cpu T) : Except String (Cpu T) :=
  if cpu.flagIF then .error "popcli - interruptible"
  else
    let cpu := { cpu with ncli := cpu.ncli - 1 }
    if cpu.ncli < 0 then .error "popcli"
    else if cpu.ncli = 0 ∧ cpu.intena = true then .ok { cpu with flagIF := true }
    else .ok cpu

/-- Where a thread is: it never ran, it runs on a CPU, or it is inside the
`swtch` of `sched`, whose local variable `intena` is kept on its stack. -/
inductive Place (C : Type) where
  | embryo
  | on (c : C)
  | out (intena : Bool)

/-- What has happened to a thread or a scheduler: how many of its `pushcli`
have not been undone, whether interrupts were enabled at the outermost of
them, and whether it made that one itself. A new thread starts inside the
nesting of the scheduler that switched to it. -/
structure Nest where
  depth : Nat
  outer : Bool
  own : Bool

def Nest.push (n : Nest) (enabled : Bool) : Nest :=
  if n.depth = 0 then { depth := 1, outer := enabled, own := true } else { n with depth := n.depth + 1 }

def Nest.pop (n : Nest) : Nest := { n with depth := n.depth - 1 }

/-- The CPUs and threads. `ptable` is the CPU that holds `ptable.lock`; `nest`
is the history of the scheduler of each CPU and of each thread. -/
structure Sys (C T : Type) where
  cpu : C → Cpu T
  place : T → Place C
  ptable : Option C
  nest : C ⊕ T → Nest

/-- The scheduler or the thread that runs on CPU `c`. -/
def Sys.runner (s : Sys C T) (c : C) : C ⊕ T :=
  match (s.cpu c).proc with
  | none => .inl c
  | some t => .inr t

def Sys.running (s : Sys C T) (c : C) : Nest := s.nest (s.runner c)

/-- Every CPU enters `scheduler`, and no process has run yet. -/
def Initial (s : Sys C T) : Prop :=
  (∀ c, (s.cpu c).ncli = 0 ∧ (s.cpu c).proc = none ∧ (s.nest (.inl c)).depth = 0) ∧
    (∀ t, s.place t = .embryo) ∧ s.ptable = none

variable [DecidableEq C] [DecidableEq T]

/-- CPU `c` and the history of what runs there change. -/
def Sys.exec (s : Sys C T) (c : C) (cpu : Cpu T) (n : Nest) : Sys C T :=
  { s with cpu := Function.update s.cpu c cpu, nest := Function.update s.nest (s.runner c) n }

/-- `sched` of thread `t`: `intena` is saved, and `swtch` returns in the scheduler of `c`. -/
def Sys.sched (s : Sys C T) (c : C) (t : T) : Sys C T :=
  { s with
    cpu := Function.update s.cpu c { s.cpu c with proc := none }
    place := Function.update s.place t (.out (s.cpu c).intena)
    nest := Function.update s.nest (.inl c) { s.nest (.inl c) with own := false } }

/-- The scheduler of `c` switches to thread `t`. -/
def Sys.swtch (s : Sys C T) (c : C) (t : T) (cpu : Cpu T) (n : Nest) : Sys C T :=
  { s with
    cpu := Function.update s.cpu c { cpu with proc := some t }
    place := Function.update s.place t (.on c)
    nest := Function.update s.nest (.inr t) n }

/-- `sched` goes on after its `swtch` and restores `intena`, maybe on another CPU. -/
def Sys.resume (s : Sys C T) (c : C) (t : T) (intena : Bool) : Sys C T :=
  s.swtch c t { s.cpu c with intena := intena } (s.nest (.inr t))

/-- A thread that never ran starts in `forkret`, still holding `ptable.lock` from the scheduler. -/
def Sys.forkret (s : Sys C T) (c : C) (t : T) : Sys C T :=
  s.swtch c t (s.cpu c) { s.nest (.inl c) with own := false }

/-- One step of some CPU. `acquire` is a `pushcli` and, for `ptable.lock`, the
`xchg` that takes it; `release` clears the lock before its `popcli`. Outside
every nesting the code may enable and disable interrupts: `sti` in
`scheduler`, the gates of the interrupt table, `iret`. -/
inductive Step : Sys C T → Sys C T → Prop
  | pushcli {s : Sys C T} (c : C) :
      Step s (s.exec c (pushcli (s.cpu c)) ((s.running c).push (s.cpu c).flagIF))
  | popcli {s : Sys C T} (c : C) {cpu : Cpu T} : 0 < (s.running c).depth → popcli (s.cpu c) = .ok cpu →
      Step s (s.exec c cpu (s.running c).pop)
  | xchg {s : Sys C T} (c : C) : 0 < (s.running c).depth → s.ptable = none →
      Step s { s with ptable := some c }
  | unlock {s : Sys C T} (c : C) : 0 < (s.running c).depth → s.ptable = some c →
      Step s { s with ptable := none }
  | flags {s : Sys C T} (c : C) (b : Bool) : (s.running c).depth = 0 →
      Step s (s.exec c { s.cpu c with flagIF := b } (s.running c))
  | sched {s : Sys C T} (c : C) (t : T) : (s.cpu c).proc = some t → s.ptable = some c → (s.cpu c).ncli = 1 →
      (s.cpu c).flagIF = false → Step s (s.sched c t)
  | resume {s : Sys C T} (c : C) (t : T) (intena : Bool) : (s.cpu c).proc = none → s.ptable = some c →
      (s.nest (.inl c)).depth = 1 → s.place t = .out intena → Step s (s.resume c t intena)
  | forkret {s : Sys C T} (c : C) (t : T) : (s.cpu c).proc = none → s.ptable = some c →
      (s.nest (.inl c)).depth = 1 → s.place t = .embryo → Step s (s.forkret c t)

/-- A CPU agrees with the history of what runs there. Inside a nesting
interrupts are off, and `intena` is the state to go back to if the nesting was
begun by the one that is in it. -/
structure Agrees (cpu : Cpu T) (n : Nest) : Prop where
  ncli : cpu.ncli = n.depth
  off : 0 < n.depth → cpu.flagIF = false
  intena : 0 < n.depth → n.own = true → cpu.intena = n.outer

omit [DecidableEq C] [DecidableEq T] in
theorem Agrees.pushcli {cpu : Cpu T} {n : Nest} (h : Agrees cpu n) :
    Agrees (pushcli cpu) (n.push cpu.flagIF) ∧ (cli.pushcli cpu).proc = cpu.proc := by
  obtain ⟨hncli, hoff, hintena⟩ := h
  refine ⟨⟨?_, ?_, ?_⟩, ?_⟩ <;> grind [cli.pushcli, Nest.push]

omit [DecidableEq T] in
/-- `popcli` inside a nesting does not panic. When it ends a nesting of its
own thread, it leaves interrupts as the outermost `pushcli` found them. -/
theorem Agrees.popcli {cpu : Cpu T} {n : Nest} (h : Agrees cpu n) (hd : 0 < n.depth) :
    ∃ cpu', popcli cpu = .ok cpu' ∧ Agrees cpu' n.pop ∧ cpu'.proc = cpu.proc ∧
      (n.depth = 1 → n.own = true → cpu'.flagIF = n.outer) := by
  obtain ⟨hncli, hoff, hintena⟩ := h
  have hpos : ¬ cpu.ncli - 1 < 0 := by omega
  unfold cli.popcli
  simp only [hoff hd, if_neg hpos, Bool.false_eq_true, if_false]
  split_ifs with h1
  all_goals
    refine ⟨_, rfl, ⟨?_, ?_, ?_⟩, rfl, ?_⟩ <;> grind [Nest.pop]

/-- What holds in every run. A scheduler waits in its `swtch` with `ptable.lock`
as its only lock, and so does a thread in the one of `sched`, with its `intena` saved. -/
structure Inv (s : Sys C T) : Prop where
  agrees : ∀ c, Agrees (s.cpu c) (s.running c)
  on : ∀ c t, (s.cpu c).proc = some t ↔ s.place t = .on c
  waiting : ∀ c t, (s.cpu c).proc = some t → (s.nest (.inl c)).depth = 1
  out : ∀ t i, s.place t = .out i → (s.nest (.inr t)).depth = 1 ∧
    ((s.nest (.inr t)).own = true → i = (s.nest (.inr t)).outer)

omit [DecidableEq C] [DecidableEq T] in
theorem Sys.runner_none {s : Sys C T} {c : C} (h : (s.cpu c).proc = none) : s.runner c = .inl c := by
  simp [Sys.runner, h]

omit [DecidableEq C] [DecidableEq T] in
theorem Sys.runner_some {s : Sys C T} {c : C} {t : T} (h : (s.cpu c).proc = some t) : s.runner c = .inr t := by
  simp [Sys.runner, h]

omit [DecidableEq C] [DecidableEq T] in
/-- No two CPUs run the same thread. -/
theorem Inv.runner_inj {s : Sys C T} (h : Inv s) {c c' : C} (hc : s.runner c = s.runner c') : c = c' := by
  have hon := h.on
  grind [Sys.runner]

omit [DecidableEq C] [DecidableEq T] in
theorem initial_inv {s : Sys C T} (h : Initial s) : Inv s := by
  obtain ⟨hcpu, hplace, -⟩ := h
  refine ⟨fun c => ⟨?_, ?_, ?_⟩, ?_, ?_, ?_⟩ <;> grind [Sys.running, Sys.runner]

section fields

variable {s : Sys C T} {c c' : C} {t t' : T} {cpu : Cpu T} {n : Nest} {r : C ⊕ T}

@[grind =] theorem cpu_exec : (s.exec c cpu n).cpu c' = if c' = c then cpu else s.cpu c' := Function.update_apply ..

@[grind =] theorem nest_exec : (s.exec c cpu n).nest r = if r = s.runner c then n else s.nest r :=
  Function.update_apply ..

@[grind =] theorem place_exec : (s.exec c cpu n).place t = s.place t := rfl

@[grind =] theorem cpu_sched : (s.sched c t).cpu c' = if c' = c then { s.cpu c with proc := none } else s.cpu c' :=
  Function.update_apply ..

@[grind =] theorem nest_sched :
    (s.sched c t).nest r = if r = .inl c then { s.nest (.inl c) with own := false } else s.nest r :=
  Function.update_apply ..

@[grind =] theorem place_sched : (s.sched c t).place t' = if t' = t then .out (s.cpu c).intena else s.place t' :=
  Function.update_apply ..

@[grind =] theorem cpu_swtch : (s.swtch c t cpu n).cpu c' = if c' = c then { cpu with proc := some t } else s.cpu c' :=
  Function.update_apply ..

@[grind =] theorem nest_swtch : (s.swtch c t cpu n).nest r = if r = .inr t then n else s.nest r :=
  Function.update_apply ..

@[grind =] theorem place_swtch : (s.swtch c t cpu n).place t' = if t' = t then .on c else s.place t' :=
  Function.update_apply ..

end fields

/-- A CPU goes on in what it runs. -/
theorem Inv.exec {s : Sys C T} (h : Inv s) {c : C} {cpu : Cpu T} {n : Nest} (ha : Agrees cpu n)
    (hproc : cpu.proc = (s.cpu c).proc) : Inv (s.exec c cpu n) := by
  have hinj (c' : C) : s.runner c' = s.runner c → c' = c := h.runner_inj
  obtain ⟨hagrees, hon, hwaiting, hout⟩ := h
  refine ⟨fun c' => ?_, ?_, ?_, ?_⟩
  · have := hagrees c'
    grind [Sys.running, Sys.runner]
  all_goals grind [Sys.runner]

theorem Inv.sched {s : Sys C T} (h : Inv s) {c : C} {t : T} (hproc : (s.cpu c).proc = some t)
    (hncli : (s.cpu c).ncli = 1) (hoff : (s.cpu c).flagIF = false) : Inv (s.sched c t) := by
  have hrun : s.running c = s.nest (.inr t) := congrArg s.nest (Sys.runner_some hproc)
  obtain ⟨hdepth, -, hintena⟩ := hrun ▸ h.agrees c
  have hd : (s.nest (.inr t)).depth = 1 := by omega
  obtain ⟨hagrees, hon, hwaiting, hout⟩ := h
  refine ⟨fun c' => ?_, ?_, ?_, ?_⟩
  · obtain ⟨hncli', hoff', hintena'⟩ := hagrees c'
    constructor <;> grind [Sys.running, Sys.runner]
  all_goals grind

theorem Inv.swtch {s : Sys C T} (h : Inv s) {c : C} {t : T} {cpu : Cpu T} {n : Nest}
    (hproc : (s.cpu c).proc = none) (hd : (s.nest (.inl c)).depth = 1) (hplace : ∀ c', s.place t ≠ .on c')
    (ha : Agrees cpu n) : Inv (s.swtch c t cpu n) := by
  obtain ⟨hagrees, hon, hwaiting, hout⟩ := h
  refine ⟨fun c' => ?_, ?_, ?_, ?_⟩
  · obtain ⟨hncli, hoff, hintena⟩ := ha
    obtain ⟨hncli', hoff', hintena'⟩ := hagrees c'
    constructor <;> grind [Sys.running, Sys.runner]
  all_goals grind

theorem step_inv {s s' : Sys C T} (h : Inv s) (hst : Step s s') : Inv s' := by
  cases hst with
  | pushcli c =>
    obtain ⟨ha, hproc⟩ := (h.agrees c).pushcli
    exact h.exec ha hproc
  | popcli c hd hpop =>
    obtain ⟨cpu', hpop', ha, hproc, -⟩ := (h.agrees c).popcli hd
    obtain rfl : cpu' = _ := Except.ok.inj (hpop'.symm.trans hpop)
    exact h.exec ha hproc
  | xchg c hd hl => exact ⟨h.agrees, h.on, h.waiting, h.out⟩
  | unlock c hd hl => exact ⟨h.agrees, h.on, h.waiting, h.out⟩
  | flags c b hd =>
    have ha : Agrees { s.cpu c with flagIF := b } (s.running c) :=
      ⟨(h.agrees c).ncli, fun h0 => by omega, fun h0 => by omega⟩
    exact h.exec ha rfl
  | sched c t hproc hl hncli hoff => exact h.sched hproc hncli hoff
  | resume c t i hproc hl hd hplace =>
    obtain ⟨hdepth, hi⟩ := h.out t i hplace
    -- the scheduler is one deep as the thread is, so `ncli` is right for both
    have hs : Agrees (s.cpu c) (s.nest (.inl c)) := Sys.runner_none hproc ▸ h.agrees c
    have ha : Agrees { s.cpu c with intena := i } (s.nest (.inr t)) :=
      ⟨by rw [hdepth, ← hd]; exact hs.ncli, fun _ => hs.off (by omega), fun _ => hi⟩
    exact h.swtch hproc hd (by simp [hplace]) ha
  | forkret c t hproc hl hd hplace =>
    have hs : Agrees (s.cpu c) (s.nest (.inl c)) := Sys.runner_none hproc ▸ h.agrees c
    exact h.swtch hproc hd (by simp [hplace]) ⟨hs.ncli, hs.off, by simp⟩

/-- In every run `ncli` of each CPU is the depth of the thread or scheduler
that runs there, and `popcli` inside a nesting does not panic. If it ends a
nesting that its thread began, it leaves interrupts enabled iff they were when
the nesting began, on whichever CPUs the thread has been since. -/
theorem restores_interrupts {s : Sys C T} (h : Reachable Initial Step s) (c : C) :
    (s.cpu c).ncli = (s.running c).depth ∧
      (0 < (s.running c).depth → ∃ cpu, popcli (s.cpu c) = .ok cpu ∧
        ((s.running c).depth = 1 → (s.running c).own = true →
          (cpu.flagIF = true ↔ (s.running c).outer = true))) := by
  have hinv : Inv s := h.inv (fun _ => initial_inv) (fun _ _ => step_inv)
  refine ⟨(hinv.agrees c).ncli, fun hd => ?_⟩
  obtain ⟨cpu, hpop, -, -, hflag⟩ := (hinv.agrees c).popcli hd
  exact ⟨cpu, hpop, fun h1 hown => by rw [hflag h1 hown]⟩

/-- One CPU and two processes. -/
def boot : Sys Unit Bool where
  cpu _ := { ncli := 0, intena := false, flagIF := false, proc := none }
  place _ := .embryo
  ptable := none
  nest _ := { depth := 0, outer := false, own := true }

/-- The scheduler enables interrupts, takes `ptable.lock` and starts process
`false`. A timer interrupt, whose gate turns interrupts off, makes it `yield`. -/
theorem reachable_yield : ∃ s : Sys Unit Bool, Reachable Initial Step s ∧
    s.cpu () = { ncli := 1, intena := false, flagIF := false, proc := none } ∧ s.ptable = some () ∧
    s.place false = .out false ∧ s.place true = .embryo ∧
    s.nest (.inl ()) = { depth := 1, outer := true, own := false } ∧
    s.nest (.inr false) = { depth := 1, outer := false, own := true } := by
  have h0 : Reachable Initial Step boot := .start ⟨fun _ => ⟨rfl, rfl, rfl⟩, fun _ => rfl, rfl⟩
  have h1 := h0.next (.flags () true rfl)
  have h2 := (h1.next (.pushcli ())).next (.xchg () (by decide) rfl)
  have h3 := (h2.next (.forkret () false rfl rfl rfl rfl)).next (.unlock () (by decide) rfl)
  have h4 := h3.next (.popcli () (by decide) rfl)
  have h5 := h4.next (.flags () false rfl)
  have h6 := (h5.next (.pushcli ())).next (.xchg () (by decide) rfl)
  have h7 := h6.next (.sched () false rfl rfl rfl rfl)
  exact ⟨_, h7, rfl, rfl, rfl, rfl, rfl, rfl⟩

theorem restores_interrupts_yield : ∃ s : Sys Unit Bool, Reachable Initial Step s ∧
    (s.running ()).depth = 1 ∧ (s.running ()).own = true ∧ (s.running ()).outer = false ∧
      ∃ cpu, popcli (s.cpu ()) = .ok cpu ∧ cpu.flagIF = false := by
  obtain ⟨s, h, hcpu, hl, hout, -, hn, hf⟩ := reachable_yield
  have hproc : (s.cpu ()).proc = none := by rw [hcpu]
  have hr := h.next (.resume () false false hproc hl (by rw [hn]) hout)
  have hrun : (s.resume () false false).running () = { depth := 1, outer := false, own := true } := by
    simpa [Sys.running, Sys.runner, Sys.resume, Sys.swtch] using hf
  obtain ⟨-, hpop⟩ := restores_interrupts hr ()
  obtain ⟨cpu, hok, hflag⟩ := hpop (by simp [hrun])
  refine ⟨_, hr, by rw [hrun], by rw [hrun], by rw [hrun], cpu, hok, ?_⟩
  simpa [hrun] using hflag

/-- The scheduler goes on with the `intena` of the process that yielded.
Process `true`, started next, ends the nesting that the scheduler began with
interrupts enabled, and its `release` in `forkret` leaves them disabled. -/
theorem forkret_disabled : ∃ s : Sys Unit Bool, Reachable Initial Step s ∧
    (s.cpu ()).proc = some true ∧ (s.running ()).depth = 1 ∧ (s.running ()).outer = true ∧
      ∃ cpu, popcli (s.cpu ()) = .ok cpu ∧ cpu.ncli = 0 ∧ cpu.flagIF = false := by
  obtain ⟨s, h, hcpu, hl, -, hnew, hn, -⟩ := reachable_yield
  have hproc : (s.cpu ()).proc = none := by rw [hcpu]
  have hr := h.next (.forkret () true hproc hl (by rw [hn]) hnew)
  have hrun : (s.forkret () true).running () = { depth := 1, outer := true, own := false } := by
    simp [Sys.running, Sys.runner, Sys.forkret, Sys.swtch, hn]
  have hnow : (s.forkret () true).cpu () = { ncli := 1, intena := false, flagIF := false, proc := some true } := by
    simp [Sys.forkret, Sys.swtch, hcpu]
  have hr' := hr.next (.unlock () (by rw [hrun]; decide) hl)
  refine ⟨_, hr', congrArg Cpu.proc hnow, congrArg Nest.depth hrun, congrArg Nest.outer hrun, ?_⟩
  exact ⟨{ ncli := 0, intena := false, flagIF := false, proc := some true }, congrArg popcli hnow, rfl, rfl⟩

end xv6.cli
