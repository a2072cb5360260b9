import Xv6.Exec.Stack

open bytes outcome Function

namespace xv6

/-- The panics by which the kernel would answer a badly formed executable. -/
def loaderPanics : List String :=
  ["loaduvm: addr must be page aligned", "loaduvm: address should exist", "clearpteu", "remap"]

/-- A halt for another reason. -/
def Unrelated (e : Halt) : Prop := ∀ msg ∈ loaderPanics, e ≠ .panic msg

instance : DecidablePred Unrelated := fun e => inferInstanceAs (Decidable (∀ msg ∈ loaderPanics, e ≠ .panic msg))

/-- No condition on the states before and after. -/
def Anyhow (_ _ : Machine) : Prop := True

instance : Std.Refl Anyhow := ⟨fun _ => trivial⟩

instance : IsTrans Machine Anyhow := ⟨fun _ _ _ _ _ => trivial⟩

/-- From no state does a computation end in one of the loader's panics. -/
abbrev Benign {α : Type} (x : KernelM α) : Prop := Always Unrelated Anyhow x

section benign

theorem readWord_benign (p : Nat) : Benign (readWord p) := .bind .get fun _ => .pure _

theorem writeWord_benign (p v : Nat) : Benign (writeWord p v) := .modify fun _ => trivial

theorem memset_benign (p : Nat) (c : UInt8) (n : Nat) : Benign (memset p c n) := .modify fun _ => trivial

theorem writeBytes_benign (p : Nat) (data : List UInt8) : Benign (writeBytes p data) := .modify fun _ => trivial

theorem updateProc_benign (p : Fin NPROC) (f : Proc → Proc) : Benign (updateProc p f) := .modify fun _ => trivial

theorem kfree_benign (v : Nat) : Benign (kfree v) :=
  .bind (.modify fun _ => trivial) fun _ => .ite (.throw (by decide)) (.bind (memset_benign ..) fun _ =>
    .bind .get fun _ => .bind (writeWord_benign ..) fun _ => .modify fun _ => trivial)

theorem khugefree_benign (v : Nat) : Benign (khugefree v) :=
  .bind (.modify fun _ => trivial) fun _ => .ite (.throw (by decide)) (.bind (memset_benign ..) fun _ =>
    .bind .get fun _ => .bind (writeWord_benign ..) fun _ => .modify fun _ => trivial)

theorem walkpgdir_benign (pgdir va : Nat) : Benign (walkpgdir pgdir va false) := by
  unfold walkpgdir
  refine .bind (readWord_benign _) fun _ => .ite (.pure _) ?_
  exact .pure _

theorem dealloc_step_benign (pgdir a : Nat) : Benign (deallocuvm.step pgdir a) := by
  unfold deallocuvm.step
  refine .bind (readWord_benign _) fun _ => .ite ?_ ?_
  · refine .bind (walkpgdir_benign ..) fun _ => .ite (.pure _) (.bind (readWord_benign _) fun _ => .ite (.ite ?_ ?_) (.pure _))
    · exact .bind (.throw (by decide)) fun _ => .pure _
    · exact .bind (khugefree_benign _) fun _ => .bind (writeWord_benign ..) fun _ => .pure _
  · refine .bind (walkpgdir_benign ..) fun _ => .ite (.pure _) (.bind (readWord_benign _) fun _ => .ite (.ite ?_ ?_) (.pure _))
    · exact .bind (.throw (by decide)) fun _ => .pure _
    · exact .bind (kfree_benign _) fun _ => .bind (writeWord_benign ..) fun _ => .pure _

theorem dealloc_loop_benign (pgdir oldsz n : Nat) : ∀ a, Benign (deallocuvm.loop pgdir oldsz n a) := by
  induction n with
  | zero => exact fun a => .throw (by decide)
  | succ n ih => exact fun a => .ite (.bind (dealloc_step_benign ..) fun a' => ih a') (.pure _)

theorem deallocuvm_benign (pgdir oldsz newsz : Nat) : Benign (deallocuvm pgdir oldsz newsz) :=
  .ite (.pure _) (.bind (readWord_benign _) fun _ => .bind (dealloc_loop_benign ..) fun _ => .pure _)

theorem freevm_sweep_benign (pgdir n : Nat) : ∀ i, Benign (freevm.sweep pgdir n i) := by
  induction n with
  | zero => exact fun i => .pure _
  | succ n ih =>
    intro i
    unfold freevm.sweep
    exact .bind (readWord_benign _) fun _ => .ite (.ite (ih _) (.bind (kfree_benign _) fun _ => ih _)) (ih _)

theorem freevm_benign (pgdir : Nat) : Benign (freevm pgdir) :=
  .ite (.throw (by decide)) (.bind (deallocuvm_benign ..) fun _ => .bind (freevm_sweep_benign ..) fun _ => kfree_benign _)

theorem uva2ka_benign (pgdir uva : Nat) : Benign (uva2ka pgdir uva) := by
  unfold uva2ka
  refine .bind (walkpgdir_benign ..) fun pte => ?_
  have htest (e : Nat) : Benign (if !hasFlag e PTE_P then pure 0 else if !hasFlag e PTE_U then pure 0
      else pure (P2V (PTE_ADDR e)) : KernelM Nat) := .ite (.pure _) (.ite (.pure _) (.pure _))
  exact .ite (.bind (.throw (by decide)) htest) (.bind (readWord_benign pte) htest)

theorem copyout_benign (pgdir va : Nat) (buf : List UInt8) : Benign (copyout pgdir va buf) := by
  have hloop (fuel : Nat) : ∀ va buf, Benign (copyout.loop pgdir fuel va buf) := by
    induction fuel with
    | zero => exact fun va buf => .throw (by decide)
    | succ fuel ih =>
      intro va buf
      unfold copyout.loop
      exact .ite (.bind (uva2ka_benign ..) fun _ => .ite (.pure _) (.bind (writeBytes_benign ..) fun _ => ih _ _)) (.pure _)
  exact hloop _ va buf

theorem exec_push_benign (pgdir : Nat) (argv : List (List UInt8)) : ∀ sp ustack, Benign (exec.push pgdir argv sp ustack) := by
  induction argv with
  | nil => exact fun sp ustack => .pure _
  | cons arg rest ih =>
    intro sp ustack
    unfold exec.push
    exact .ite (.pure _) (.bind (copyout_benign ..) fun _ => .ite (.pure _) (ih _ _))

theorem switchuvm_benign (p : Fin NPROC) : Benign (switchuvm p) :=
  .bind .get fun _ => .ite (.throw (by decide)) (.ite (.throw (by decide)) (.modify fun _ => trivial))

end benign

section exec

variable {s₀ s : Machine} {g₀ g : Ghost} {d : Nat} {ip : Inode} {argv : List (List UInt8)}

/-- Building an image from an empty directory never ends in one of the loader's panics. -/
theorem Program.build_benign {c : Nat → UInt8} (h : Program d 0 c s₀ g₀ s g) (phoff phnum : Nat) :
    Fails Unrelated (exec.build (P2V d) ip phoff phnum argv) s := by
  unfold exec.build
  rcases Program.load ip phnum phoff 0 c s g h with ⟨s₁, g₁, sz, hload, -⟩ | ⟨s₁, g₁, sz, c₁, hload, h₁, -⟩
  · rw [fails_bind_ok hload]
    exact .pure _
  rw [fails_bind_ok hload]
  simp only []
  rcases h₁.stacked with ⟨s₂, s₃, g₃, halloc, hclear, -⟩ | ⟨s₂, g₂, halloc, -⟩
  · rw [fails_bind_ok halloc, if_neg (by omega), fails_bind_ok hclear]
    refine .bind ((exec_push_benign _ _ _ _).fails _) fun r t _ => ?_
    cases r with
    | none => exact .pure _
    | some q => exact .bind ((copyout_benign ..).fails _) fun _ _ _ => by split <;> exact .pure _
  · rw [fails_bind_ok halloc, if_pos rfl]
    exact .pure _

/-- No executable, path or argument vector makes `exec` end in one of the loader's panics. -/
theorem exec_benign (hs : Sys s g) (p : Fin NPROC) (path : List UInt8) (ip : Option Inode) (argv : List (List UInt8)) :
    Fails Unrelated (exec p path ip argv) s := by
  unfold exec
  cases ip with
  | none => exact .pure _
  | some ip =>
    simp only []
    cases readi ip 0 sizeofElfhdr with
    | none => exact .pure _
    | some elf =>
      simp only []
      by_cases hlen : elf.length ≠ sizeofElfhdr
      · rw [if_pos hlen]
        exact .pure _
      rw [if_neg hlen]
      by_cases hmagic : field elf 0 4 ≠ ELF_MAGIC
      · rw [if_pos hmagic]
        exact .pure _
      rw [if_neg hmagic]
      rcases setupkvm_spec hs with ⟨d, s₁, g₁, hsetup, hs₁, hnew⟩ | ⟨s₁, g₁, hsetup, -⟩
      swap
      · rw [fails_bind_ok hsetup, if_pos rfl]
        exact .pure _
      rw [fails_bind_ok hsetup, if_neg hnew.frame.ne_zero]
      refine .bind ((hnew.program hs₁).build_benign _ _) fun r t _ => ?_
      rcases r with _ | ⟨sz, sp⟩
      · exact .bind ((freevm_benign _).fails _) fun _ _ _ => .pure _
      · have hget : Benign (get : KernelM Machine) := .get
        exact .bind (hget.fails t) fun _ _ _ => .bind ((updateProc_benign p _).fails _) fun _ _ _ =>
          .bind ((switchuvm_benign p).fails _) fun _ _ _ => .bind ((freevm_benign _).fails _) fun _ _ _ => .pure _

end exec

end xv6
