import Xv6.System.Exec
import Xv6.System.HugeExact
import Xv6.System.Reap
import Xv6.System.Stores
import Xv6.Trap

open bytes outcome Function

namespace xv6

/-- What holds between two events: the invariant of the memory, the reference counts of the files,
and every process can use the memory that it has. -/
structure Stable (s : Machine) (g : Ghost) : Prop where
  sound : Sound s g
  counted : Counted s 0
  writable : ∀ p, (s.proc p).state = .RUNNABLE → Writable s p
  rest : ∀ p, (s.proc p).state = .UNUSED ∨ (s.proc p).state = .RUNNABLE ∨ (s.proc p).state = .ZOMBIE

/-- Process `p` is in the kernel, with its own directory loaded. -/
structure Active (p : Fin NPROC) (s : Machine) (g : Ghost) : Prop extends Stable s g where
  run : (s.proc p).state = .RUNNABLE
  cr3 : s.cr3 = V2P (s.proc p).pgdir

/-- The processes that an event of process `p` may change: itself, a slot that it fills and a child
that it reaps. -/
def Touched (s : Machine) (p q : Fin NPROC) : Prop := q = p ∨ (s.proc q).state = .UNUSED ∨ Reapable s p q

/-- A step of process `p` from one such state to the next. -/
structure Ran (p : Fin NPROC) (s : Machine) (g : Ghost) (s' : Machine) (g' : Ghost) : Prop extends
    Kept (Touched s p) s g s' g' where
  stable : Stable s' g'

/-- No string that `fetchstr` accepts is longer than the `exec` of its process can bear. -/
def StringsOK (s : Machine) (p : Fin NPROC) : Prop :=
  ∀ addr n, (fetchstr p addr).run s = .ok (some n) s → n + 4 ≤ 0x2000000

/-- The conditions under which a call does what it is meant to. -/
def Sysno.OK (p : Fin NPROC) (s : Machine) : Sysno → Prop
  | .fork => ∀ L, HugeList s L → L.length = 0 ∨ hugeNeed (s.proc p).hugesz ≤ L.length
  | .wait => ∀ q, Reapable s p q → HugeQuiet s q
  | .exec => HugeQuiet s p ∧ StringsOK s p
  | .sbrk => ∀ n, (argint p 0).run s = .ok (some n) s → SbrkOK s p (toInt n)
  | .shugebrk => ∀ n L, (argint p 0).run s = .ok (some n) s → HugeList s L → ShugebrkOK s p (toInt n) L.length
  | _ => True

/-- The call tears no huge heap down. -/
def Sysno.Frugal (p : Fin NPROC) (s : Machine) : Sysno → Prop
  | .wait => ∀ q, Reapable s p q → (s.proc q).hugesz = 0
  | .exec => (s.proc p).hugesz = 0
  | _ => True

section strings

variable {s : Machine} {g : Ghost} {p : Fin NPROC}

theorem fetchstr_loop (h : Serving p s g) (start fuel : Nat) : ∀ a, start ≤ a → (s.proc p).sz - a < fuel →
    ∃ r, (fetchstr.loop (s.proc p).sz start fuel a).run s = .ok r s ∧ ∀ n, r = some n → start + n < (s.proc p).sz := by
  obtain ⟨d, hd⟩ := (h.sound.proc p).dir h.live
  have hsz := hd.low h.sound.sys
  induction fuel with
  | zero => omega
  | succ fuel ih =>
    intro a hstart hfuel
    unfold fetchstr.loop
    split_ifs with ha
    · obtain ⟨c, hread⟩ := readUserByte_spec h ha
      rw [bind_ok hread]
      split_ifs with hc
      · refine ⟨some (a - start), rfl, fun n hn => ?_⟩
        obtain rfl := Option.some.inj hn
        omega
      · rw [u32, Nat.mod_eq_of_lt (by omega)]
        exact ih (a + 1) (by omega) (by omega)
    · exact ⟨none, rfl, by simp⟩

theorem fetchstr_spec (h : Serving p s g) (addr : Nat) :
    ∃ r, (fetchstr p addr).run s = .ok r s ∧ ∀ n, r = some n → addr + n < (s.proc p).sz := by
  unfold fetchstr
  rw [get_bind]
  split_ifs with hout
  · exact ⟨none, rfl, by simp⟩
  · exact fetchstr_loop h addr _ addr le_rfl (by omega)

theorem readUser_spec (h : Serving p s g) (n : Nat) : ∀ addr, addr + n ≤ (s.proc p).sz →
    ∃ str, str.length = n ∧ (readUser addr n).run s = .ok str s := by
  obtain ⟨d, hd⟩ := (h.sound.proc p).dir h.live
  have hsz := hd.low h.sound.sys
  induction n with
  | zero =>
    intro addr _
    exact ⟨[], rfl, by unfold readUser; rfl⟩
  | succ n ih =>
    intro addr hle
    obtain ⟨c, hread⟩ := readUserByte_spec h (show addr < (s.proc p).sz by omega)
    obtain ⟨str, hlen, hrest⟩ := ih (addr + 1) (by omega)
    refine ⟨c :: str, by rw [List.length_cons, hlen], ?_⟩
    unfold readUser
    rw [bind_ok hread, u32, Nat.mod_eq_of_lt (by omega), bind_ok hrest, EStateM.run_pure]

theorem userString_spec (h : Serving p s g) (hok : StringsOK s p) (addr : Nat) :
    ∃ r, (userString p addr).run s = .ok r s ∧ ∀ str, r = some str → str.length + 4 ≤ 0x2000000 := by
  obtain ⟨r, hfetch, hin⟩ := fetchstr_spec h addr
  unfold userString
  rw [bind_ok hfetch]
  cases r with
  | none => exact ⟨none, rfl, by simp⟩
  | some n =>
    have hin := hin n rfl
    obtain ⟨str, hlen, hread⟩ := readUser_spec h n addr (by omega)
    refine ⟨some str, ?_, fun str' heq => ?_⟩
    · simp only []
      rw [bind_ok hread, EStateM.run_pure]
    · rw [← Option.some.inj heq, hlen]
      exact hok addr n hfetch

theorem sys_exec_args (h : Serving p s g) (hok : StringsOK s p) (uargv left : Nat) : ∀ i,
    ∃ r, (sys_exec.args p uargv left i).run s = .ok r s ∧ ∀ argv, r = some argv → ArgsOK argv := by
  induction left with
  | zero =>
    intro i
    unfold sys_exec.args
    exact ⟨none, rfl, by simp⟩
  | succ left ih =>
    intro i
    obtain ⟨w, hfetch, -⟩ := fetchint_spec h (u32 (uargv + 4 * i))
    unfold sys_exec.args
    rw [bind_ok hfetch]
    cases w with
    | none => exact ⟨none, rfl, by simp⟩
    | some uarg =>
      simp only []
      split_ifs with hz
      · exact ⟨some [], rfl, fun argv heq => Option.some.inj heq ▸ by simp [ArgsOK]⟩
      · obtain ⟨arg, hstr, hlen⟩ := userString_spec h hok uarg
        rw [bind_ok hstr]
        cases arg with
        | none => exact ⟨none, rfl, by simp⟩
        | some arg =>
          obtain ⟨rest, hrest, hargs⟩ := ih (i + 1)
          simp only []
          rw [bind_ok hrest]
          cases rest with
          | none => exact ⟨none, rfl, by simp⟩
          | some rest =>
            refine ⟨some (arg :: rest), rfl, fun argv heq => ?_⟩
            rw [← Option.some.inj heq]
            exact List.forall_mem_cons.2 ⟨hlen arg rfl, hargs rest rfl⟩

end strings

/-- A call returns to its process, having done one step for it, and no huge frame gets lost if `F` holds. -/
def Returns {α : Type} (p : Fin NPROC) (s : Machine) (g : Ghost) (F : Prop) (call : KernelM α) : Prop :=
  ∃ r s' g', call.run s = .ok r s' ∧ Ran p s g s' g' ∧ (s'.proc p).state = .RUNNABLE ∧ (F → Saved g g')

section ran

variable {A : Fin NPROC → Prop} {s s' s'' : Machine} {g g' g'' : Ghost} {p : Fin NPROC} {F : Prop} {α : Type}

theorem Active.live (h : Active p s g) : (s.proc p).state ≠ .UNUSED := by
  rw [h.run]
  simp

theorem Active.serving (h : Active p s g) : Serving p s g := ⟨h.sound, h.live, h.writable p h.run, h.cr3⟩

/-- What is left to check are the processes that the step may have changed. -/
theorem Stable.ran (h : Stable s g) (hk : Kept A s g s' g') (hA : ∀ q, A q → Touched s p q) (hc : Counted s' 0)
    (hw : ∀ q, A q → (s'.proc q).state = .RUNNABLE → Writable s' q)
    (hrest : ∀ q, A q → (s'.proc q).state = .UNUSED ∨ (s'.proc q).state = .RUNNABLE ∨ (s'.proc q).state = .ZOMBIE) :
    Ran p s g s' g' := by
  refine ⟨hk.mono hA, hk.sound, hc, fun q hq => ?_, fun q => ?_⟩
  · by_cases hAq : A q
    · exact hw q hAq hq
    · rw [(hk.slot q hAq).state] at hq
      exact hk.writable h.sound hAq (by rw [hq]; simp) (h.writable q hq)
  · by_cases hAq : A q
    · exact hrest q hAq
    · rw [(hk.slot q hAq).state]
      exact h.rest q

theorem Calm.ran (hcalm : Calm s g s' g') (h : Stable s g) (hc : Counted s' 0) : Ran p s g s' g' :=
  h.ran (A := fun _ => False) hcalm.kept (fun _ => False.elim) hc (fun _ => False.elim) fun _ => False.elim

theorem Ran.calm (hran : Ran p s g s' g') (hcalm : Calm s' g' s'' g'') (hc : Counted s'' 0) : Ran p s g s'' g'' :=
  ⟨hran.toKept.trans hcalm.kept, (hcalm.ran hran.stable hc : Ran p s' g' s'' g'').stable⟩

/-- The record of process `q` changes where it says nothing about memory or files. -/
theorem Stable.record (h : Stable s g) (q : Fin NPROC) {u : Proc} (hslot : SameSlot (s.proc q) u)
    (hofile : u.ofile = (s.proc q).ofile) :
    Calm s g { s with proc := update s.proc q u } g ∧ Counted { s with proc := update s.proc q u } 0 := by
  have hall (q' : Fin NPROC) : SameSlot (s.proc q') (update s.proc q u q') ∧
      (update s.proc q u q').ofile = (s.proc q').ofile := by
    by_cases hq : q' = q
    · rw [hq, update_self]
      exact ⟨hslot, hofile⟩
    · rw [update_of_ne hq]
      exact ⟨.refl _, rfl⟩
  exact ⟨h.sound.reslot rfl fun q' => (hall q').1, h.counted.congr rfl (fun q' => (hall q').2) fun q' hq => by
    rwa [(hall q').1.state] at hq⟩

theorem Adjusted.ran (hadj : Adjusted p s g s' g') (h : Stable s g) (hw : Writable s' p) : Ran p s g s' g' :=
  h.ran hadj.toKept (fun _ hq => .inl hq) (hadj.counted h.counted) (fun q hq _ => hq ▸ hw) fun q _ => by
    rw [(hadj.state q).1]
    exact h.rest q

theorem Returns.of_calm (h : Active p s g) {call : KernelM α} {r : α}
    (hcall : call.run s = .ok r s') (hcalm : Calm s g s' g') (hc : Counted s' 0) : Returns p s g F call :=
  ⟨r, s', g', hcall, hcalm.ran h.toStable hc, (hcalm.slot p).state.trans h.run, fun _ => hcalm.saved⟩

theorem Returns.pure (h : Active p s g) (r : α) :
    Returns p s g F (Pure.pure r : KernelM α) := .of_calm h rfl (.refl h.sound) h.counted

theorem Returns.of_adjusted (h : Active p s g) {call : KernelM α} {r : α}
    (hcall : call.run s = .ok r s') (hadj : Adjusted p s g s' g') (hw : Writable s' p) : Returns p s g F call :=
  ⟨r, s', g', hcall, hadj.ran h.toStable hw, (hadj.state p).1.trans h.run, fun _ => hadj.saved⟩

end ran

section calls

variable {s : Machine} {g : Ghost} {p : Fin NPROC} {F : Prop}

theorem withArg_run (h : Serving p s g) (call : Nat → KernelM Int) :
    (withArg p call).run s = .ok (-1) s ∨
    ∃ n < 2 ^ 32, (argint p 0).run s = .ok (some n) s ∧ (withArg p call).run s = (call n).run s := by
  obtain ⟨r, harg, hlt⟩ := argint_spec h 0
  unfold withArg
  rw [bind_ok harg]
  cases r with
  | none => exact .inl rfl
  | some n => exact .inr ⟨n, hlt n rfl, harg, rfl⟩

theorem withArg_returns (h : Active p s g)
    {call : Nat → KernelM Int}
    (hcall : ∀ n < 2 ^ 32, (argint p 0).run s = .ok (some n) s → Returns p s g F (call n)) :
    Returns p s g F (withArg p call) := by
  rcases withArg_run h.serving call with hnone | ⟨n, hn, harg, hsome⟩
  · exact .of_calm h hnone (.refl h.sound) h.counted
  · obtain ⟨r, s', g', hret, hrest⟩ := hcall n hn harg
    exact ⟨r, s', g', hsome.trans hret, hrest⟩

/-- A new child takes part like the others. -/
theorem Child.ran {s' : Machine} {g' : Ghost} {np : Fin NPROC} (hchild : Child p np s s') (h : Stable s g)
    (hkept : Kept (fun q => (s.proc q).state = .UNUSED) s g s' g') (hc : Counted s' 0) (hw : Writable s' np) :
    Ran p s g s' g' := by
  refine h.ran hkept (fun q hq => .inr (.inl hq)) hc (fun q hq hq' => ?_) fun q hq => ?_
  · by_cases hqn : q = np
    · rw [hqn]
      exact hw
    · rw [hchild.others q hqn, hq] at hq'
      cases hq'
  · by_cases hqn : q = np
    · obtain ⟨d, f, hproc⟩ := hchild.proc
      rw [hqn, hproc]
      exact .inr (.inl rfl)
    · rw [hchild.others q hqn]
      exact h.rest q

theorem fork_returns (h : Active p s g) (hok : Sysno.fork.OK p s) :
    Returns p s g F (fork p) := by
  rcases fork_spec h.sound h.live (h.writable p h.run) h.counted (hok _ h.sound.sys.hchain) with
    ⟨-, s', g', hcall, hkept, hsaved, hc, hstate⟩ | ⟨np, s', g', hnp, hcall, hkept, hsaved, hc, hw, hchild⟩
  · refine ⟨-1, s', g', hcall, h.ran hkept (fun q hq => .inr (.inl hq)) hc (fun q hq hq' => ?_) fun q _ => ?_,
      (hstate p).trans h.run, fun _ => hsaved⟩
    · rw [hstate q, hq] at hq'
      cases hq'
    · rw [hstate q]
      exact h.rest q
  · have hpn : p ≠ np := by
      rintro rfl
      exact h.live hnp
    refine ⟨s.nextpid, s', g', hcall, hchild.ran h.toStable hkept hc hw, ?_, fun _ => hsaved⟩
    rw [hchild.others p hpn, h.run]

theorem exit_stable (h : Stable s g) (hrun : (s.proc p).state = .RUNNABLE) (hinit : p ≠ s.initproc) :
    ∃ s' g', (exit p).run s = .ok () s' ∧ Kept (· = p) s g s' g' ∧ Stable s' g' ∧ Saved g g' := by
  obtain ⟨s', g', hcall, hkept, hsaved, hc, hzombie⟩ := exit_spec h.sound (by rw [hrun]; simp) h.counted hinit
  have hran : Ran p s g s' g' := h.ran hkept (fun _ hq => .inl hq) hc
    (fun q hq hq' => by rw [hq, hzombie] at hq'; cases hq') fun q hq => by rw [hq]; exact .inr (.inr hzombie)
  exact ⟨s', g', hcall, hkept, hran.stable, hsaved⟩

theorem wait_returns (h : Active p s g) (hok : Sysno.wait.OK p s) :
    Returns p s g (Sysno.wait.Frugal p s) (wait p) := by
  rcases wait_spec h.sound h.counted hok with ⟨r, hcall⟩ | ⟨q, s', g', hreap, hcall, hkept, hsaved, hc, hunused⟩
  · exact .of_calm h hcall (.refl h.sound) h.counted
  · have hpq : p ≠ q := by
      rintro rfl
      exact absurd (hreap.2.symm.trans h.run) (by simp)
    refine ⟨_, s', g', hcall, h.ran hkept (fun q' hq => .inr (.inr (hq ▸ hreap))) hc (fun q' hq hq' => ?_) fun q' hq => ?_, ?_,
      fun hz => hsaved (hz q hreap)⟩
    · rw [hq, hunused] at hq'
      cases hq'
    · rw [hq]
      exact .inl hunused
    · rw [(hkept.slot p hpq).state, h.run]

theorem pipe_returns (h : Active p s g) :
    Returns p s g F (sys_pipe p) := by
  obtain ⟨r, s', g', hcall, hkept, hsaved, hc, hserve, hslot⟩ :=
    sys_pipe_spec h.serving (by rw [h.run]; simp) h.counted
  have hstate : (s'.proc p).state = .RUNNABLE := hslot.state.trans h.run
  exact ⟨r, s', g', hcall, h.ran hkept (fun _ hq => .inl hq) hc (fun q hq _ => hq ▸ hserve.writable)
    (fun q hq => .inr (.inl (hq ▸ hstate))), hstate, fun _ => hsaved⟩

/-- No process sleeps between two events, so that `kill` changes no state. -/
theorem kill_returns (h : Active p s g) (pid : Nat) : Returns p s g F (kill pid) := by
  cases hslot : findSlot fun q => decide (u32 (s.proc q).pid = pid) with
  | none =>
    have hcall : (kill pid).run s = .ok (-1) s := by
      unfold kill
      rw [get_bind, hslot]
      rfl
    exact .of_calm h hcall (.refl h.sound) h.counted
  | some q =>
    have hawake : (s.proc q).state ≠ .SLEEPING := by
      rcases h.rest q with hq | hq | hq <;> rw [hq] <;> simp
    obtain ⟨hcalm, hc⟩ := h.record q (u := { s.proc q with killed := true }) ⟨rfl, rfl, rfl, rfl, rfl⟩ rfl
    refine .of_calm h (r := 0) ?_ hcalm hc
    unfold kill
    rw [get_bind, hslot]
    simp only []
    rw [updateProc_bind, EStateM.run_pure]
    simp only [hawake, if_false]

theorem exec_returns (h : Active p s g) (hquiet : HugeQuiet s p)
    {argv : List (List UInt8)} (hargs : ArgsOK argv) (path : List UInt8) (ip : Option Inode) :
    Returns p s g ((s.proc p).hugesz = 0) (exec p path ip argv) := by
  rcases exec_spec h.sound h.live hquiet hargs path ip with
    ⟨s', g', hcall, hs', hidle⟩ | ⟨inode, elf, s', g', -, -, hcall, hkept, hsaved, hw, hdone⟩
  · have hsame : s'.proc = s.proc := by rw [hidle.rest]
    exact .of_calm h hcall (h.sound.calm_idle h.live hidle hs') (h.counted.congr (by rw [hidle.rest])
      (fun q => by rw [hsame]) fun q hq => by rwa [hsame] at hq)
  · have hslot (q : Fin NPROC) : (s'.proc q).state = (s.proc q).state ∧ (s'.proc q).ofile = (s.proc q).ofile := by
      by_cases hq : q = p
      · rw [hq, hdone.proc]
        exact ⟨rfl, rfl⟩
      · rw [hdone.others q hq]
        exact ⟨rfl, rfl⟩
    refine ⟨0, s', g', hcall, h.ran hkept (fun _ hq => .inl hq) (h.counted.congr hdone.file (fun q => (hslot q).2) fun q hq => ?_)
      (fun q hq _ => hq ▸ hw) fun q _ => ?_, (hslot p).1.trans h.run, hsaved⟩
    · rwa [(hslot q).1] at hq
    · rw [(hslot q).1]
      exact h.rest q

theorem sys_exec_returns (h : Active p s g)
    (hok : Sysno.exec.OK p s) (files : Files) : Returns p s g ((s.proc p).hugesz = 0) (sys_exec files p) := by
  have hserve := h.serving
  obtain ⟨hquiet, hstrings⟩ := hok
  have hfail : Returns p s g ((s.proc p).hugesz = 0) (Pure.pure (-1) : KernelM Int) := .pure h (-1)
  obtain ⟨a₀, harg₀, -⟩ := argint_spec hserve 0
  unfold sys_exec Returns
  rw [bind_ok harg₀]
  cases a₀ with
  | none => exact hfail
  | some addr =>
    obtain ⟨path, hpath, -⟩ := userString_spec hserve hstrings addr
    simp only []
    rw [bind_ok hpath]
    cases path with
    | none => exact hfail
    | some path =>
      obtain ⟨a₁, harg₁, -⟩ := argint_spec hserve 1
      simp only []
      rw [bind_ok harg₁]
      cases a₁ with
      | none => exact hfail
      | some uargv =>
        obtain ⟨argv, hfetch, hargs⟩ := sys_exec_args hserve hstrings uargv MAXARG 0
        simp only []
        rw [bind_ok hfetch]
        cases argv with
        | none => exact hfail
        | some argv => exact exec_returns h hquiet (hargs argv rfl) path (files path)

theorem argfd_spec (h : Serving p s g) (n : Nat) :
    ∃ r, (argfd p n).run s = .ok r s ∧ ∀ f, r = some f → ∃ fd, (s.proc p).ofile fd = some f := by
  obtain ⟨a, harg, -⟩ := argint_spec h n
  unfold argfd
  rw [bind_ok harg]
  cases a with
  | none => exact ⟨none, rfl, by simp⟩
  | some fd =>
    simp only []
    rw [get_bind]
    split_ifs with hfd
    · exact ⟨_, rfl, fun f hf => ⟨⟨fd, hfd⟩, hf⟩⟩
    · exact ⟨none, rfl, by simp⟩

theorem sys_dup_returns (h : Active p s g) :
    Returns p s g F (sys_dup p) := by
  obtain ⟨r, harg, hheld⟩ := argfd_spec h.serving 0
  unfold sys_dup Returns
  rw [bind_ok harg]
  cases r with
  | none => exact Returns.pure h (-1)
  | some f =>
    simp only []
    rcases fdalloc_run s p f with hnone | ⟨fd, hfd, hsome⟩
    · rw [bind_ok hnone]
      exact Returns.pure h (-1)
    · obtain ⟨fd', hfd'⟩ := hheld f rfl
      have hpos : 0 < (s.file f).ref := h.counted.exact.pos_of_held (i := (p, fd')) hfd'
      have hopen : (s.proc p).state ≠ .UNUSED ∧ (s.proc p).state ≠ .ZOMBIE := by
        rw [h.run]
        simp
      have hcalm := (h.sound.dup f).trans ((h.sound.dup f).sound.setFile p fd (some f))
      -- Counting first and filling the descriptor after gives the same machine.
      have hdup : (filedup f).run (s.setFile p fd (some f)) = .ok f ((s.dup f).setFile p fd (some f)) := filedup_run hpos
      refine Returns.of_calm h (r := (fd : Int)) ?_ hcalm ((h.counted.dup f).take hopen hfd)
      rw [bind_ok hsome]
      simp only []
      rw [bind_ok hdup, EStateM.run_pure]

theorem toInt_range {n : Nat} (hn : n < 2 ^ 32) : -2 ^ 31 ≤ toInt n ∧ toInt n < 2 ^ 31 := by
  simp only [toInt]
  split_ifs <;> omega

theorem sys_sbrk_returns (h : Active p s g) {n : Int} (hlo : -2 ^ 31 ≤ n)
    (hhi : n < 2 ^ 31) (hok : SbrkOK s p n) : Returns p s g F (sys_sbrk p n) := by
  obtain ⟨r, s', g', hcall, hadj, hw⟩ :=
    growproc_spec h.sound h.live (h.writable p h.run) hlo hhi hok
  refine .of_adjusted h (r := if r < 0 then -1 else ((s.proc p).sz : Int)) ?_ hadj hw
  unfold sys_sbrk
  rw [get_bind, bind_ok hcall]
  split_ifs <;> rfl

theorem sys_shugebrk_returns (h : Active p s g) {n : Int} (hhi : n < 2 ^ 31)
    (hok : ShugebrkOK s p n g.hfree.length) :
    Returns p s g F (sys_shugebrk p n) ∨ ∃ s', (sys_shugebrk p n).run s = .error (.panic "kfree") s' := by
  unfold sys_shugebrk
  rcases growhugeproc_spec h.sound h.live (h.writable p h.run) hhi hok with
    ⟨r, s', g', hcall, hadj, hw⟩ | ⟨s', hpanic⟩
  · refine .inl (.of_adjusted h (r := if r < 0 then -1 else (u32 ((s.proc p).hugesz + HUGE_VA_OFFSET) : Int)) ?_ hadj hw)
    rw [get_bind, bind_ok hcall]
    split_ifs <;> rfl
  · refine .inr ⟨s', ?_⟩
    rw [get_bind, bind_error hpanic]

theorem sys_close_returns (h : Active p s g) (fd : Int) :
    Returns p s g F (sys_close p fd) := by
  obtain ⟨r, s', g', hcall, hcalm, hc⟩ := sys_close_spec h.sound h.counted fd
  exact .of_calm h hcall hcalm hc

theorem sys_procpgdirinfo_returns (h : Active p s g) : Returns p s g F (sys_procpgdirinfo p) := by
  obtain ⟨r, s', hcall, hp⟩ := sys_procpgdirinfo_spec h.serving
  exact .of_adjusted h hcall hp.adjusted hp.writable

/-- How a call can end: it returns, its process ends, or the kernel stops. It stops only in two ways. -/
inductive Ends (p : Fin NPROC) (s : Machine) (g : Ghost) (c : Sysno) (call : KernelM (Option Int)) : Prop
  | back (r : Int) (s' : Machine) (g' : Ghost) : call.run s = .ok (some r) s' → Ran p s g s' g' →
      (s'.proc p).state = .RUNNABLE → (c.Frugal p s → Saved g g') → Ends p s g c call
  | gone (s' : Machine) (g' : Ghost) : call.run s = .ok none s' → Ran p s g s' g' →
      (c.Frugal p s → Saved g g') → Ends p s g c call
  | kfree (s' : Machine) : c = .shugebrk → call.run s = .error (.panic "kfree") s' → Ends p s g c call
  | init (s' : Machine) : p = s.initproc → call.run s = .error (.panic "init exiting") s' → Ends p s g c call

theorem Returns.ends {c : Sysno} {call : KernelM Int} (h : Returns p s g (c.Frugal p s) call) :
    Ends p s g c (do return some (← call)) := by
  obtain ⟨r, s', g', hcall, hran, hstate, hsaved⟩ := h
  refine .back r s' g' ?_ hran hstate hsaved
  rw [bind_ok hcall, EStateM.run_pure]

theorem exit_init (hinit : p = s.initproc) : (exit p).run s = .error (.panic "init exiting") s := by
  unfold exit
  rw [get_bind, if_pos hinit]
  rfl

/-- Every system call keeps what holds between two events. -/
theorem call_ends (h : Active p s g)
    (files : Files) (c : Sysno) (hok : c.OK p s) : Ends p s g c (c.call files p) := by
  cases c with
  | fork => exact (fork_returns h hok).ends
  | exit =>
    by_cases hinit : p = s.initproc
    · exact .init s hinit (bind_error (exit_init hinit))
    · obtain ⟨s', g', hcall, hkept, hstable, hsaved⟩ := exit_stable h.toStable h.run hinit
      exact .gone s' g' (bind_ok hcall) ⟨hkept.mono fun _ hq => .inl hq, hstable⟩ fun _ => hsaved
  | wait =>
    obtain ⟨r, s', g', hcall, hran, hstate, hsaved⟩ := wait_returns h hok
    cases r with
    | none => exact .gone s' g' hcall hran hsaved
    | some r => exact .back r s' g' hcall hran hstate hsaved
  | pipe => exact (pipe_returns h).ends
  | kill => exact (withArg_returns h fun n _ _ => kill_returns h n).ends
  | exec => exact (sys_exec_returns h hok files).ends
  | dup => exact (sys_dup_returns h).ends
  | getpid =>
    exact .back (s.proc p).pid s g rfl ((Calm.refl h.sound).ran h.toStable h.counted) h.run fun _ => (Calm.refl h.sound).saved
  | sbrk =>
    refine (withArg_returns h fun n hn harg => ?_).ends
    exact sys_sbrk_returns h (toInt_range hn).1 (toInt_range hn).2 (hok n harg)
  | close => exact (withArg_returns h fun n _ _ => sys_close_returns h (toInt n)).ends
  | procpgdirinfo => exact (sys_procpgdirinfo_returns h).ends
  | shugebrk =>
    rcases withArg_run h.serving fun n => sys_shugebrk p (toInt n) with hnone | ⟨n, hn, harg, hsome⟩
    · exact .back (-1) s g (bind_ok hnone) ((Calm.refl h.sound).ran h.toStable h.counted) h.run fun _ => (Calm.refl h.sound).saved
    · rcases sys_shugebrk_returns (F := True) h (toInt_range hn).2 (hok n _ harg h.sound.sys.hchain) with
        ⟨r, s', g', hret, hran, hstate, hsaved⟩ | ⟨s', hpanic⟩
      · exact .back r s' g' (bind_ok (hsome.trans hret)) hran hstate fun _ => hsaved trivial
      · exact .kfree s' rfl (bind_error (hsome.trans hpanic))

end calls

end xv6
