import Xv6.Kernel.Files
import Xv6.Kernel.Machine

/-!
# File calls keep the invariant

Every call of `kernel/sysfile.c` but `exec`, from a state where nothing is held, ends in such a state again
or in a panic that is not in `unreachable`.

* `FileStep` — what a call leaves behind: the invariant with the address spaces as they were, and no page lost
  between pipes and the free list.
* `syscall_file_spec`s — one for each call.
-/

namespace Xv6

open Prog Function

/-- Panics that no system call runs into. -/
def unreachable : List String :=
  ["uvmunmap: walk", "uvmunmap: not mapped", "uvmunmap: not a leaf", "mappages: remap",
   "uvmcopy: pte should exist", "uvmcopy: page not present", "freewalk: leaf", "uvmclear",
   "loadseg: address should exist", "u2kvmcopy: src pte does not exist", "filedup", "fileclose"]

def Allowed (m : String) : Prop := m ∉ unreachable

instance (m : String) : Decidable (Allowed m) := inferInstanceAs (Decidable (¬ _))

theorem allowed_fs : ∀ m ∈ Fs.panics, Allowed m := by decide

/-- Nothing is held between calls. -/
def noFiles : Fin NFILE → Int := fun _ => 0

variable {K : KernelImage} {k k' : Kernel} {A : Fin NPROC → Option Space} {pg : Fin NPROC → Multiset Nat}
  {B : Multiset Nat} {x : Fin NFILE → Int} {b b' : Books} {i me : Fin NPROC} {f g : Fin NFILE}
  {fd : Fin NOFILE} {ip : Fin NINODE} {P : String → Prop} {H : Prop}

/-- No page is lost between pipes and the free list. -/
def Kernel.Conserves (k k' : Kernel) : Prop :=
  k'.pipes.val + (↑k'.mem.freelist : Multiset Nat) = k.pipes.val + ↑k.mem.freelist

structure FileStep (K : KernelImage) (k : Kernel) (A : Fin NPROC → Option Space) (pg : Fin NPROC → Multiset Nat)
    (B : Multiset Nat) (k' : Kernel) : Prop where
  inv : KInv K k' A pg B noFiles Books.idle
  pages : k.Conserves k'

theorem FileStep.refl (h : KInv K k A pg B noFiles Books.idle) : FileStep K k A pg B k := ⟨h, rfl⟩

theorem KInv.setFs (h : KInv K k A pg B x b) {s : Fs} (hs : Fs.Inv s (b'.above k.names)) :
    KInv K { k with fs := s } A pg B x b' :=
  ⟨h.mem.same rfl fun _ => Proc.SameMem.refl _, h.file.congr rfl rfl fun _ => rfl, hs, h.closed⟩

theorem KInv.setMem (h : KInv K k A pg B x b) {m : Mem} (hm : MemInv K { k with mem := m } A pg (k.pipes.val + B)) :
    KInv K { k with mem := m } A pg B x b :=
  ⟨hm, h.file.congr rfl rfl fun _ => rfl, h.fs, h.closed⟩

/-- The current directory of a process is referenced. -/
theorem Kernel.cwdOk (k : Kernel) (hb : ∀ ip, 0 ≤ b.ref ip) (i : Fin NPROC) :
    Fs.CwdOk (b.above k.names) (k.proc i).cwd := by
  intro ip hip
  have hpos : 0 < tally k.cwds ip := tally_pos.2 ⟨i, hip⟩
  have href : (b.above k.names).ref ip = (k.names ip : Int) + b.ref ip := rfl
  have hn : 0 < k.names ip := by
    unfold Kernel.names
    omega
  have hbi := hb ip
  omega

/-- A file that a descriptor or the call refers to has references. -/
theorem KInv.ref_pos (h : KInv K k A pg B x b) (hx : 0 < x f ∨ 0 ≤ x f ∧ ∃ c, k.slots c = some f) :
    0 < (k.file f).ref := by
  rw [h.file.ref]
  rcases hx with hx | ⟨hx, hc⟩
  · omega
  · have hpos := tally_pos.2 hc
    omega

/-! ## Descriptors -/

theorem Kernel.argfd_spec {n : Int} : wpm (Kernel.argfd i n) (fun r k' => k' = k ∧
    (r = none ∨ ∃ fd f, r = some (fd, f) ∧ (k.proc i).ofile fd = some f)) P H k := by
  unfold Kernel.argfd
  rw [wpm_bind, wpm_readProc]
  split
  · split
    · exact ⟨rfl, Or.inl rfl⟩
    · rename_i f hf
      exact ⟨rfl, Or.inr ⟨_, f, rfl, hf⟩⟩
  · exact ⟨rfl, Or.inl rfl⟩

theorem runnable_open (h : (k.proc i).state = .RUNNABLE) :
    (k.proc i).state ≠ .UNUSED ∧ (k.proc i).state ≠ .ZOMBIE := by
  rw [h]
  decide

theorem Kernel.sysDup_spec (h : KInv K k A pg B noFiles Books.idle) (hrun : (k.proc i).state = .RUNNABLE)
    (n : Int) : wpm (Kernel.sysDup i n) (fun _ k' => FileStep K k A pg B k') Allowed True k := by
  unfold Kernel.sysDup
  refine wpm_seq Kernel.argfd_spec ?_
  rintro r k₁ ⟨rfl, rfl | ⟨fd, f, rfl, hf⟩⟩
  · exact FileStep.refl h
  refine wpm_seq Kernel.fdalloc_spec ?_
  rintro r k₂ (⟨rfl, rfl⟩ | ⟨fd', rfl, hnone, rfl⟩)
  · exact FileStep.refl h
  have h₂ := h.giveFd (f := f) hnone (runnable_open hrun)
  have hpos : 0 < (k₁.file f).ref := h.ref_pos (Or.inr ⟨Int.le_refl 0, (i, fd), hf⟩)
  refine wpm_seq (Kernel.filedup_spec h₂ hpos) ?_
  rintro _ k₃ ⟨h₃, rfl⟩
  rw [bump_bump, show (-1 : Int) + 1 = 0 by decide, bump_zero] at h₃
  refine ⟨h₃, ?_⟩
  unfold Kernel.Conserves
  rw [Kernel.pipes_upd Iff.rfl rfl]
  rfl

theorem Kernel.sysClose_spec (h : KInv K k A pg B noFiles Books.idle) (hrun : (k.proc i).state = .RUNNABLE)
    (n : Int) : wpm (Kernel.sysClose K i n) (fun _ k' => FileStep K k A pg B k') Allowed True k := by
  unfold Kernel.sysClose
  refine wpm_seq Kernel.argfd_spec ?_
  rintro r k₁ ⟨rfl, rfl | ⟨fd, f, rfl, hf⟩⟩
  · exact FileStep.refl h
  have h₂ := h.takeFd hf (runnable_open hrun)
  have hpos := h₂.ref_pos (f := f) (Or.inl (by rw [bump_apply, if_pos rfl]; exact Int.one_pos))
  refine wpm_seq (R := fun _ k' => k' = _) rfl ?_
  rintro _ k₂ rfl
  refine wpm_seq (Kernel.fileclose_spec allowed_fs h₂ hpos) ?_
  rintro _ k₃ ⟨h₃, -, hm, -⟩
  rw [bump_bump, show (1 : Int) + -1 = 0 by decide, bump_zero] at h₃
  exact ⟨h₃, hm.conserve⟩

/-! ## Memory of the calling process -/

/-- **`copyout`** to the caller. -/
theorem Kernel.copyout_spec (h : KInv K k A pg B x b) (hrun : (k.proc i).state = .RUNNABLE) (addr : Nat)
    (bs : List UInt8) : wpm (Kernel.vm (copyout (k.proc i).pagetable addr bs)) (fun _ k' => ∃ m,
      k' = { k with mem := m } ∧ KInv K k' A pg B x b ∧ m.freelist = k.mem.freelist) P H k := by
  obtain ⟨a, ha⟩ := h.mem.used (runnable_open hrun).1
  refine Kernel.wpm_vm.2 (wpm_of_wp (wp_mono (h.mem.copyout ha addr bs) ?_ fun _ h => h))
  rintro r m ⟨hm, hfree, -⟩
  exact ⟨m, rfl, h.setMem hm, hfree⟩

/-! ## `sys_pipe` -/

/-- The call gives back both ends of the pipe that it holds. -/
theorem Kernel.closeBoth_spec {f0 f1 : Fin NFILE} (h : KInv K k A pg B (bump (bump noFiles f0 1) f1 1) Books.idle) :
    wpm (do
      Kernel.fileclose K i f0
      Kernel.fileclose K i f1
      pure (-1 : Int)) (fun _ k' => FileStep K k A pg B k') Allowed True k := by
  have hpos0 : 0 < bump (bump noFiles f0 1) f1 1 f0 := by
    simp only [bump_apply, noFiles, if_true]
    split <;> omega
  refine wpm_seq (Kernel.fileclose_spec allowed_fs h (h.ref_pos (Or.inl hpos0))) ?_
  rintro _ k₁ ⟨h₁, -, hm₁, -⟩
  have hx : bump (bump (bump noFiles f0 1) f1 1) f0 (-1) = bump noFiles f1 1 := by
    rw [bump_comm, bump_bump, show (1 : Int) + -1 = 0 by decide, bump_zero]
  rw [hx] at h₁
  have hpos1 : 0 < bump noFiles f1 1 f1 := by
    rw [bump_apply, if_pos rfl]
    exact Int.one_pos
  refine wpm_seq (Kernel.fileclose_spec allowed_fs h₁ (h₁.ref_pos (Or.inl hpos1))) ?_
  rintro _ k₂ ⟨h₂, -, hm₂, -⟩
  rw [bump_bump, show (1 : Int) + -1 = 0 by decide, bump_zero] at h₂
  exact ⟨h₂, (hm₁.trans hm₂).conserve⟩

/-- `clearFd` takes the reference back. -/
theorem Kernel.clearFd_spec (h : KInv K k A pg B x b) (hrun : (k.proc i).state = .RUNNABLE)
    (hf : (k.proc i).ofile fd = some f) :
    wpm (Kernel.clearFd i fd) (fun _ k' => KInv K k' A pg B (bump x f 1) b ∧ (k'.proc i).state = .RUNNABLE ∧
      k'.mem = k.mem ∧ k'.pipes = k.pipes ∧
      (k'.proc i).ofile = update (k.proc i).ofile fd none) P H k := by
  refine ⟨h.takeFd hf (runnable_open hrun), ?_, rfl, rfl, ?_⟩
  · dsimp only
    rw [Kernel.updProc_eq_put, Kernel.put_proc_self]
    exact hrun
  · dsimp only
    rw [Kernel.updProc_eq_put, Kernel.put_proc_self]

/-- The call gives up the pipe after it has stored both descriptors. -/
theorem Kernel.unwindPipe_spec {f0 f1 : Fin NFILE} {fd0 fd1 : Fin NOFILE}
    (h : KInv K k A pg B noFiles Books.idle) (hrun : (k.proc i).state = .RUNNABLE) (hne : fd1 ≠ fd0)
    (h0 : (k.proc i).ofile fd0 = some f0) (h1 : (k.proc i).ofile fd1 = some f1) :
    wpm (do
      Kernel.clearFd i fd0
      Kernel.clearFd i fd1
      Kernel.fileclose K i f0
      Kernel.fileclose K i f1
      pure (-1 : Int)) (fun _ k' => FileStep K k A pg B k') Allowed True k := by
  refine wpm_seq (Kernel.clearFd_spec h hrun h0) ?_
  rintro _ k₁ ⟨h₁, hrun₁, hm₁, hp₁, hof₁⟩
  have h1' : (k₁.proc i).ofile fd1 = some f1 := by rw [hof₁, update_of_ne hne, h1]
  refine wpm_seq (Kernel.clearFd_spec h₁ hrun₁ h1') ?_
  rintro _ k₂ ⟨h₂, -, hm₂, hp₂, -⟩
  refine wpm_mono (Kernel.closeBoth_spec h₂) ?_
  rintro _ k₃ ⟨h₃, hc⟩
  refine ⟨h₃, hc.trans ?_⟩
  rw [hm₂, hp₂, hm₁, hp₁]

/-- Only user memory has been written. -/
structure Wrote (K : KernelImage) (k : Kernel) (A : Fin NPROC → Option Space) (pg : Fin NPROC → Multiset Nat)
    (B : Multiset Nat) (x : Fin NFILE → Int) (b : Books) (k' : Kernel) : Prop where
  inv : KInv K k' A pg B x b
  proc : k'.proc = k.proc
  pipes : k'.pipes = k.pipes
  free : k'.mem.freelist = k.mem.freelist

theorem Kernel.putFd_spec {kk : Kernel} (h : Wrote K k A pg B x b kk) (hrun : (k.proc i).state = .RUNNABLE)
    (addr : Nat) : wpm (Kernel.putFd i addr fd) (fun _ k' => Wrote K k A pg B x b k') P H kk := by
  unfold Kernel.putFd
  rw [wpm_bind, wpm_readProc]
  refine wpm_mono (Kernel.copyout_spec h.inv (by rw [h.proc]; exact hrun) addr _) ?_
  rintro _ k' ⟨m, rfl, hk', hfree⟩
  exact ⟨hk', h.proc, h.pipes, hfree.trans h.free⟩

/-- Both descriptors are stored in user memory, or the pipe is given up. -/
theorem Kernel.storeFds_spec {f0 f1 : Fin NFILE} {fd0 fd1 : Fin NOFILE}
    (h : KInv K k A pg B noFiles Books.idle) (hrun : (k.proc i).state = .RUNNABLE) (hne : fd1 ≠ fd0)
    (h0 : (k.proc i).ofile fd0 = some f0) (h1 : (k.proc i).ofile fd1 = some f1) (a0 a1 : Nat) :
    wpm (do
      let r0 ← Kernel.putFd i a0 fd0
      let r ← (if r0 < 0 then pure (-1) else Kernel.putFd i a1 fd1)
      if r < 0 then do
        Kernel.clearFd i fd0
        Kernel.clearFd i fd1
        Kernel.fileclose K i f0
        Kernel.fileclose K i f1
        pure (-1)
      else pure (0 : Int)) (fun _ k' => FileStep K k A pg B k') Allowed True k := by
  refine wpm_seq (Kernel.putFd_spec ⟨h, rfl, rfl, rfl⟩ hrun a0) fun r0 k₁ h₁ => ?_
  have hsecond : wpm (if r0 < 0 then pure (-1) else Kernel.putFd i a1 fd1)
      (fun _ k' => Wrote K k A pg B noFiles Books.idle k') Allowed True k₁ := by
    split
    · exact h₁
    · exact Kernel.putFd_spec h₁ hrun a1
  refine wpm_seq hsecond fun r k₂ h₂ => ?_
  have hcons : k₂.pipes.val + (↑k₂.mem.freelist : Multiset Nat) = k.pipes.val + ↑k.mem.freelist := by
    rw [h₂.pipes, h₂.free]
  split
  · refine wpm_mono (Kernel.unwindPipe_spec h₂.inv (by rw [h₂.proc]; exact hrun) hne (by rw [h₂.proc]; exact h0)
      (by rw [h₂.proc]; exact h1)) ?_
    exact fun _ k' h' => ⟨h'.inv, h'.pages.trans hcons⟩
  · exact ⟨h₂.inv, hcons⟩

theorem Kernel.sysPipe_spec (h : KInv K k A pg B noFiles Books.idle) (hrun : (k.proc i).state = .RUNNABLE)
    (fdarray : Nat) : wpm (Kernel.sysPipe K i fdarray) (fun _ k' => FileStep K k A pg B k') Allowed True k := by
  unfold Kernel.sysPipe
  refine wpm_seq (Kernel.pipealloc_spec allowed_fs h) ?_
  rintro r k₁ ⟨hproc, hm, ⟨rfl, h₁⟩ | ⟨f0, f1, rfl, h₁⟩⟩
  · exact ⟨h₁, hm.conserve⟩
  have hrun₁ : (k₁.proc i).state = .RUNNABLE := hproc ▸ hrun
  -- what is left to do conserves the pages of `k₁`
  have hcons : ∀ k', FileStep K k₁ A pg B k' → FileStep K k A pg B k' :=
    fun k' h' => ⟨h'.inv, h'.pages.trans hm.conserve⟩
  dsimp only
  refine wpm_seq Kernel.fdalloc_spec ?_
  rintro r k₂ (⟨rfl, rfl⟩ | ⟨fd0, rfl, hnone0, hk₂⟩)
  · exact wpm_mono (Kernel.closeBoth_spec h₁) fun _ k' h' => hcons k' h'
  have hx : bump (bump (bump noFiles f0 1) f1 1) f0 (-1) = bump noFiles f1 1 := by
    rw [bump_comm, bump_bump, show (1 : Int) + -1 = 0 by decide, bump_zero]
  have h₂ := h₁.giveFd (f := f0) hnone0 (runnable_open hrun₁)
  rw [← hk₂, hx] at h₂
  have hproc₂ : k₂.proc i = { k₁.proc i with ofile := update (k₁.proc i).ofile fd0 (some f0) } := by
    rw [hk₂, Kernel.put_proc_self]
  have hrun₂ : (k₂.proc i).state = .RUNNABLE := by rw [hproc₂]; exact hrun₁
  have hfd0 : (k₂.proc i).ofile fd0 = some f0 := by rw [hproc₂]; exact update_self ..
  have hsame₂ : k₂.mem = k₁.mem ∧ k₂.pipes = k₁.pipes := by rw [hk₂]; exact ⟨rfl, rfl⟩
  refine wpm_seq Kernel.fdalloc_spec ?_
  rintro r k₃ (⟨rfl, rfl⟩ | ⟨fd1, rfl, hnone1, hk₃⟩)
  · refine wpm_seq (Kernel.clearFd_spec h₂ hrun₂ hfd0) ?_
    rintro _ k₄ ⟨h₄, -, hm₄, hp₄, -⟩
    rw [bump_comm] at h₄
    refine wpm_mono (Kernel.closeBoth_spec h₄) fun _ k' h' => hcons k' ⟨h'.inv, h'.pages.trans ?_⟩
    rw [hm₄, hp₄, hsame₂.1, hsame₂.2]
  have h₃ := h₂.giveFd (f := f1) hnone1 (runnable_open hrun₂)
  rw [← hk₃, bump_bump, show (1 : Int) + -1 = 0 by decide, bump_zero] at h₃
  have hne : fd1 ≠ fd0 := by
    rintro rfl
    exact nomatch hnone1.symm.trans hfd0
  have hproc₃ : k₃.proc i = { k₂.proc i with ofile := update (k₂.proc i).ofile fd1 (some f1) } := by
    rw [hk₃, Kernel.put_proc_self]
  have hrun₃ : (k₃.proc i).state = .RUNNABLE := by rw [hproc₃]; exact hrun₂
  have hfd0₃ : (k₃.proc i).ofile fd0 = some f0 := by
    rw [hproc₃]
    exact (update_of_ne hne.symm ..).trans hfd0
  have hfd1₃ : (k₃.proc i).ofile fd1 = some f1 := by rw [hproc₃]; exact update_self ..
  have hsame₃ : k₃.mem = k₁.mem ∧ k₃.pipes = k₁.pipes := by rw [hk₃]; exact hsame₂
  refine wpm_mono (Kernel.storeFds_spec h₃ hrun₃ hne hfd0₃ hfd1₃ fdarray _) fun _ k' h' => ?_
  refine hcons k' ⟨h'.inv, h'.pages.trans ?_⟩
  rw [hsame₃.1, hsame₃.2]

/-! ## Steps of the file system -/

/-- The file system has worked, and the call now holds `b`. -/
def OnFs (K : KernelImage) (k : Kernel) (A : Fin NPROC → Option Space) (pg : Fin NPROC → Multiset Nat)
    (B : Multiset Nat) (x : Fin NFILE → Int) (b : Books) (k' : Kernel) : Prop :=
  ∃ s, k' = { k with fs := s } ∧ KInv K k' A pg B x b

theorem Books.above_found (b : Books) (n : Fin NINODE → Nat) (r : Option (Fin NINODE)) :
    (b.above n).found r = (b.found r).above n := by
  cases r with
  | none => rfl
  | some ip => exact Books.above_addRef 1

section fs

variable {α : Type} {y : Prog Fs α} {β : α → Books} {φ : α → Prop}

/-- An operation that keeps the books. -/
theorem Kernel.onFs_keeps (h : KInv K k A pg B x b) (hy : Fs.Keeps y) :
    wpm (Kernel.fsys y) (fun _ k' => OnFs K k A pg B x b k') Allowed True k :=
  Kernel.wpm_fsys allowed_fs (hy k.fs _ h.fs) fun _ s hs => ⟨s, rfl, h.setFs hs⟩

theorem Kernel.begin_spec (h : KInv K k A pg B x b) :
    wpm (Kernel.fsys Fs.beginOp) (fun _ k' => OnFs K k A pg B x (b.addOps 1) k') Allowed True k :=
  Kernel.wpm_fsys allowed_fs (Fs.beginOp_spec h.fs) fun _ s hs => ⟨s, rfl, h.setFs hs⟩

theorem Kernel.end_spec (h : KInv K k A pg B x (b.addOps 1)) :
    wpm (Kernel.fsys Fs.endOp) (fun _ k' => OnFs K k A pg B x b k') Allowed True k :=
  Kernel.wpm_fsys allowed_fs (Fs.endOp_spec (b := b.above k.names) h.fs)
    fun _ s hs => ⟨s, rfl, h.setFs hs⟩

theorem Kernel.namei_spec (h : KInv K k A pg B x b) (hb : ∀ ip, 0 ≤ b.ref ip) (i : Fin NPROC)
    (path : List UInt8) :
    wpm (Kernel.fsys (Fs.namei (k.proc i).cwd path)) (fun r k' => OnFs K k A pg B x (b.found r) k')
      Allowed True k :=
  Kernel.wpm_fsys allowed_fs (Fs.namei_spec h.fs (k.cwdOk hb i) path)
    fun r s hs => ⟨s, rfl, h.setFs (Books.above_found b k.names r ▸ hs)⟩

theorem Kernel.ilock_spec (h : KInv K k A pg B x b) :
    wpm (Kernel.fsys (Fs.ilock ip)) (fun _ k' => b.locked ip = false ∧ OnFs K k A pg B x (b.lock ip true) k')
      Allowed True k := by
  refine Kernel.wpm_fsys allowed_fs (Fs.ilock_spec h.fs) ?_
  rintro _ s ⟨hl, -, hs⟩
  exact ⟨hl, s, rfl, h.setFs hs⟩

theorem Kernel.iunlock_spec (h : KInv K k A pg B x (b.lock ip true)) (hl : b.locked ip = false) :
    wpm (Kernel.fsys (Fs.iunlock ip)) (fun _ k' => OnFs K k A pg B x b k') Allowed True k :=
  Kernel.wpm_fsys allowed_fs (Fs.iunlock_spec (b := b.above k.names) h.fs hl)
    fun _ s hs => ⟨s, rfl, h.setFs hs⟩

theorem Kernel.iput_spec (h : KInv K k A pg B x (b.addRef ip 1)) :
    wpm (Kernel.fsys (Fs.iput ip)) (fun _ k' => OnFs K k A pg B x b k') Allowed True k := by
  have hfs := h.fs
  rw [← Books.above_addRef] at hfs
  exact Kernel.wpm_fsys allowed_fs (Fs.iput_spec hfs) fun _ s hs => ⟨s, rfl, h.setFs hs⟩

theorem Kernel.iunlockput_spec (h : KInv K k A pg B x ((b.addRef ip 1).lock ip true)) (hl : b.locked ip = false) :
    wpm (Kernel.fsys (Fs.iunlockput ip)) (fun _ k' => OnFs K k A pg B x b k') Allowed True k := by
  have hfs := h.fs
  rw [← Books.above_lock, ← Books.above_addRef] at hfs
  exact Kernel.wpm_fsys allowed_fs (Fs.iunlockput_spec hfs hl)
    fun _ s hs => ⟨s, rfl, h.setFs hs⟩

end fs

theorem FileStep.of_onFs (h : OnFs K k A pg B noFiles Books.idle k') : FileStep K k A pg B k' := by
  obtain ⟨s, rfl, h⟩ := h
  exact ⟨h, rfl⟩

theorem idle_ref (ip : Fin NINODE) : 0 ≤ Books.idle.ref ip := Int.le_refl 0

/-- A call that is one operation of the file system. -/
theorem Kernel.fsCall_spec {y : Prog Fs Int} (h : KInv K k A pg B noFiles Books.idle)
    (hy : wpm y (fun _ s => Fs.Inv s (Books.idle.above k.names)) (· ∈ Fs.panics) True k.fs) :
    wpm (Kernel.fsys y) (fun _ k' => FileStep K k A pg B k') Allowed True k :=
  Kernel.wpm_fsys allowed_fs hy fun _ s hs => FileStep.of_onFs ⟨s, rfl, h.setFs hs⟩

/-! ## Current directories -/

/-- Two ways to count the same references. -/
theorem Books.above_eq {n n' : Fin NINODE → Nat} (h : ∀ jp, (n jp : Int) + b.ref jp = n' jp + b'.ref jp)
    (hl : b.locked = b'.locked) (hh : b.held = b'.held) (ho : b.ops = b'.ops) : b.above n = b'.above n' := by
  unfold Books.above
  rw [hl, hh, ho]
  congr 1
  exact funext h

theorem Kernel.names_setCwd {v : Option (Fin NINODE)} {m : Mem} {p : Proc} (hp : p.cwd = v) (jp : Fin NINODE) :
    (k.put m i p).names jp + (if (k.proc i).cwd = some jp then 1 else 0) =
      k.names jp + if v = some jp then 1 else 0 := by
  have hcwds : (k.put m i p).cwds = update k.cwds i v := by
    funext j
    unfold Kernel.cwds
    by_cases hj : j = i
    · subst hj
      rw [put_proc_self, update_self, hp]
    · rw [put_proc_ne hj, update_of_ne hj]
  have hcount := tally_update k.cwds i v jp
  rw [← hcwds] at hcount
  have hi : (k.put m i p).inodes = k.inodes := rfl
  have hold : k.cwds i = (k.proc i).cwd := rfl
  unfold Kernel.names
  rw [hi]
  rw [hold] at hcount
  omega

/-- The current directory of a process changes, and its reference goes to the call or comes from it. -/
theorem KInv.setCwd {v : Option (Fin NINODE)} (h : KInv K k A pg B x b)
    (hrun : (k.proc i).state ≠ .UNUSED ∧ (k.proc i).state ≠ .ZOMBIE) (hl : b.locked = b'.locked)
    (hh : b.held = b'.held) (ho : b.ops = b'.ops)
    (hb : ∀ jp, b.ref jp + (if (k.proc i).cwd = some jp then 1 else 0) = b'.ref jp + if v = some jp then 1 else 0) :
    KInv K (k.put k.mem i { k.proc i with cwd := v }) A pg B x b' := by
  refine ⟨?_, ?_, ?_, ?_⟩
  · refine h.mem.same rfl fun j => ?_
    by_cases hj : j = i
    · subst hj
      rw [Kernel.put_proc_self]
      exact ⟨Iff.rfl, rfl, rfl, rfl, rfl, rfl, rfl, rfl⟩
    · rw [Kernel.put_proc_ne hj]
      exact Proc.SameMem.refl _
  · refine h.file.congr rfl rfl fun f => ?_
    have hs : (k.put k.mem i { k.proc i with cwd := v }).slots = k.slots := by
      funext c
      obtain ⟨j, fd⟩ := c
      unfold Kernel.slots
      by_cases hj : j = i
      · subst hj
        rw [Kernel.put_proc_self]
      · rw [Kernel.put_proc_ne hj]
    rw [hs]
  · have hn : b.above k.names = b'.above (k.put k.mem i { k.proc i with cwd := v }).names := by
      refine Books.above_eq (fun jp => ?_) hl hh ho
      have h1 := Kernel.names_setCwd (k := k) (i := i) (m := k.mem) (p := { k.proc i with cwd := v }) rfl jp
      have h2 := hb jp
      split_ifs at h1 h2 <;> omega
    exact hn ▸ h.fs
  · intro j hj
    by_cases hji : j = i
    · subst hji
      rw [Kernel.put_proc_self] at hj
      rcases hj with hj | hj
      · exact absurd hj hrun.1
      · exact absurd hj hrun.2
    · rw [Kernel.put_proc_ne hji] at hj ⊢
      exact h.closed j hj

/-! ## `sys_open` -/

/-- The inode to open, locked. -/
theorem Kernel.openInode_spec (h₀ : KInv K k A pg B noFiles (Books.idle.addOps 1)) (path : List UInt8)
    (omode : Nat) :
    wpm (Kernel.openInode i path omode) (fun r k' => match r with
      | none => OnFs K k A pg B noFiles Books.idle k'
      | some ip => OnFs K k A pg B noFiles (((Books.idle.addOps 1).addRef ip 1).lock ip true) k') Allowed True k := by
  unfold Kernel.openInode
  rw [wpm_bind, wpm_readProc]
  split
  · refine wpm_seq (Kernel.wpm_fsys allowed_fs
      (Fs.create_spec h₀.fs (k.cwdOk idle_ref i) path T_FILE 0 0) (Q := fun r k' => ∃ s, k' = { k with fs := s } ∧
        Fs.Opened s ((Books.idle.addOps 1).above k.names) r) fun r s hs => ⟨s, rfl, hs⟩) ?_
    rintro r k₁ ⟨s₁, rfl, hs₁⟩
    cases r with
    | none =>
      refine wpm_seq (Kernel.end_spec (h₀.setFs hs₁)) ?_
      rintro _ k₂ ⟨s₂, rfl, h₂⟩
      exact ⟨s₂, rfl, h₂⟩
    | some ip =>
      refine ⟨s₁, rfl, h₀.setFs ?_⟩
      rw [← Books.above_lock, ← Books.above_addRef]
      exact hs₁.1
  · refine wpm_seq (Kernel.namei_spec h₀ idle_ref i path) ?_
    rintro r k₁ ⟨s₁, rfl, h₁⟩
    cases r with
    | none =>
      refine wpm_seq (Kernel.end_spec h₁) ?_
      rintro _ k₂ ⟨s₂, rfl, h₂⟩
      exact ⟨s₂, rfl, h₂⟩
    | some ip =>
      refine wpm_seq (Kernel.ilock_spec h₁) ?_
      rintro _ k₂ ⟨hl, s₂, rfl, h₂⟩
      rw [wpm_bind, wpm_get]
      split
      · refine wpm_seq (Kernel.iunlockput_spec h₂ hl) ?_
        rintro _ k₃ ⟨s₃, rfl, h₃⟩
        refine wpm_seq (Kernel.end_spec h₃) ?_
        rintro _ k₄ ⟨s₄, rfl, h₄⟩
        exact ⟨s₄, rfl, h₄⟩
      · exact ⟨s₂, rfl, h₂⟩

theorem Kernel.openBad_spec (h₀ : KInv K k A pg B noFiles (((Books.idle.addOps 1).addRef ip 1).lock ip true)) :
    wpm (Kernel.openBad ip) (fun _ k' => FileStep K k A pg B k') Allowed True k := by
  refine wpm_seq (Kernel.iunlockput_spec h₀ rfl) ?_
  rintro _ k₁ ⟨s₁, rfl, h₁⟩
  refine wpm_seq (Kernel.end_spec h₁) ?_
  rintro _ k₂ ⟨s₂, rfl, h₂⟩
  exact FileStep.of_onFs ⟨s₂, rfl, h₂⟩

theorem Kernel.updFile_updFile (F G : File → File) :
    (k.updFile f F).updFile f G = k.updFile f fun y => G (F y) := by
  unfold Kernel.updFile
  dsimp only
  rw [update_self, update_idem]

/-- The file structure of a descriptor that `sys_open` has just allocated is filled in. -/
theorem Kernel.fillFile_spec {c : Prop} [Decidable c] {F G F' : File → File} {rest : Prog Kernel Int}
    {Q : Int → Kernel → Prop}
    (h : KInv K k A pg B x (b.addRef ip 1)) (ht : (k.file f).type = .FD_NONE) (hr : (k.file f).ref ≠ 0)
    (hi : (F' (F (k.file f))).inode = some ip) (hi' : (F' (G (k.file f))).inode = some ip)
    (hp : (F' (F (k.file f))).pipe = (k.file f).pipe) (hp' : (F' (G (k.file f))).pipe = (k.file f).pipe)
    (href : (F' (F (k.file f))).ref = (k.file f).ref) (href' : (F' (G (k.file f))).ref = (k.file f).ref)
    (hrest : ∀ k', KInv K k' A pg B x b → k'.mem = k.mem → k'.pipes = k.pipes → wpm rest Q P H k') :
    wpm (do
      (if c then Kernel.modifyFile f F else Kernel.modifyFile f G)
      Kernel.modifyFile f F'
      rest) Q P H k := by
  have hall : ∀ E : File → File, (F' (E (k.file f))).inode = some ip → (F' (E (k.file f))).pipe = (k.file f).pipe →
      (F' (E (k.file f))).ref = (k.file f).ref →
      KInv K ((k.updFile f E).updFile f F') A pg B x b ∧ ((k.updFile f E).updFile f F').pipes = k.pipes := by
    intro E hi hp href
    rw [Kernel.updFile_updFile]
    refine ⟨h.nameInode ht hr hi hp href, Kernel.pipes_upd ⟨fun hc => ?_, fun hc => nomatch ht.symm.trans hc⟩ hp⟩
    unfold File.inode at hi
    rw [hc] at hi
    cases hi
  rw [wpm_bind]
  split
  · exact hrest _ (hall F hi hp href).1 rfl (hall F hi hp href).2
  · exact hrest _ (hall G hi' hp' href').1 rfl (hall G hi' hp' href').2

/-! ## `fileread`, `filewrite` and `filestat` -/

/-- Reading memory does not change it. -/
theorem kload_same (t va : Nat) (s : Mem) : wpm (kload t va) (fun _ s' => s' = s) (· ∈ Fs.panics) True s := by
  unfold kload
  by_cases hva : va ≥ MAXVA
  · rw [if_pos hva]
    exact Fs.panics_own (by decide)
  · rw [if_neg hva, wpm_bind, wpm_walk_false (Nat.lt_of_not_le hva)]
    split
    · exact Fs.panics_own (by decide)
    · rw [wpm_bind, wpm_gets]
      split
      · rfl
      · exact Fs.panics_own (by decide)

theorem kloadBytes_same (t : Nat) : ∀ n va (s : Mem),
    wpm (kloadBytes t n va) (fun _ s' => s' = s) (· ∈ Fs.panics) True s
  | 0, _, _ => rfl
  | n + 1, va, s => by
    refine wpm_seq (kload_same t va s) ?_
    rintro _ s₁ rfl
    refine wpm_seq (kloadBytes_same t n (va + 1) s₁) ?_
    rintro _ s₂ rfl
    rfl

theorem copyinNew_same (t sz va len : Nat) (s : Mem) :
    wpm (copyinNew t sz va len) (fun _ s' => s' = s) (· ∈ Fs.panics) True s := by
  unfold copyinNew
  split
  · rfl
  · refine wpm_seq (kloadBytes_same t _ _ s) ?_
    rintro _ s₁ rfl
    rfl

theorem Kernel.wpm_fsysVm {α : Type} {y : Prog (Fs × Mem) α} {R : α → Fs × Mem → Prop} {Q : α → Kernel → Prop}
    (hy : wpm y R (· ∈ Fs.panics) True (k.fs, k.mem)) (hQ : ∀ a st, R a st → Q a { k with fs := st.1, mem := st.2 }) :
    wpm (Kernel.fsysVm y) Q Allowed True k :=
  (wpm_zoom ..).2 (wpm_weaken hy hQ allowed_fs)

theorem Wrote.onFs {k₁ k₂ : Kernel} (h : Wrote K k A pg B x b k₁) (h' : OnFs K k₁ A pg B x b' k₂) :
    Wrote K k A pg B x b' k₂ := by
  obtain ⟨s, rfl, h₂⟩ := h'
  exact ⟨h₂, h.proc, h.pipes, h.free⟩

theorem Wrote.fileStep (h : Wrote K k A pg B noFiles Books.idle k') : FileStep K k A pg B k' :=
  ⟨h.inv, by unfold Kernel.Conserves; rw [h.pipes, h.free]⟩

/-- A field such as `off` changes. -/
theorem Wrote.updFile {k₁ : Kernel} (h : Wrote K k A pg B x b k₁) {F : File → File}
    (ht : (F (k₁.file f)).type = (k₁.file f).type) (hp : (F (k₁.file f)).pipe = (k₁.file f).pipe)
    (hw : (F (k₁.file f)).writable = (k₁.file f).writable) (hip : (F (k₁.file f)).ip = (k₁.file f).ip)
    (hr : (F (k₁.file f)).ref = (k₁.file f).ref) : Wrote K k A pg B x b (k₁.updFile f F) := by
  have h' := h.inv.updFile ht hp hw hip (hr ▸ h.inv.file.nonneg f) (fun hz => h.inv.file.free f (hr ▸ hz))
  rw [hr, Int.sub_self, bump_zero] at h'
  exact ⟨h', h.proc, (Kernel.pipes_upd (by rw [ht]) hp).trans h.pipes, h.free⟩

/-- **`readi`** into the memory of the caller. -/
theorem Kernel.readiUser_spec {k₁ : Kernel} (h : Wrote K k A pg B x b k₁) (hrun : (k.proc i).state = .RUNNABLE)
    (ip : Fin NINODE) (addr off n : Nat) :
    wpm (Kernel.fsysVm (Fs.readi (Kernel.copyoutUser (k.proc i).pagetable) ip addr off n))
      (fun _ k' => Wrote K k A pg B x b k') Allowed True k₁ := by
  obtain ⟨a, ha⟩ := h.inv.mem.used (j := i) (by rw [h.proc]; exact (runnable_open hrun).1)
  refine Kernel.wpm_fsysVm (Fs.readi_spec (J := fun m =>
    MemInv K { k₁ with mem := m } A pg (k₁.pipes.val + B) ∧ m.freelist = k₁.mem.freelist) h.inv.fs
    ⟨h.inv.mem, rfl⟩ ?_) ?_
  · rintro o bs m - ⟨hm, hfree⟩
    refine wpm_seq (R := fun _ m' => MemInv K { k₁ with mem := m' } A pg (k₁.pipes.val + B) ∧
      m'.freelist = k₁.mem.freelist) ?_ fun _ _ h' => h'
    have hpt : (k.proc i).pagetable = (({ k₁ with mem := m } : Kernel).proc i).pagetable := by rw [← h.proc]
    rw [hpt]
    refine wpm_mono (wpm_of_wp (hm.copyout ha _ bs)) ?_
    rintro _ m' ⟨hm', hfree', -⟩
    exact ⟨hm', hfree'.trans hfree⟩
  · rintro _ ⟨s, m⟩ ⟨hs, hm, hfree⟩
    exact ⟨(h.inv.setMem hm).setFs hs, h.proc, h.pipes, hfree.trans h.free⟩

/-- **`writei`** from the memory of the caller. -/
theorem Kernel.writeiUser_spec {k₁ : Kernel} (h : Wrote K k A pg B x b k₁) (ip : Fin NINODE)
    (t sz addr off n : Nat) :
    wpm (Kernel.fsysVm (Fs.writei (fun src m => copyinNew t sz src m) ip addr off n))
      (fun _ k' => Wrote K k A pg B x b k') Allowed True k₁ := by
  refine Kernel.wpm_fsysVm (Fs.writei_spec (J := fun m => m = k₁.mem) h.inv.fs rfl ?_) ?_
  · rintro src m t rfl
    exact copyinNew_same _ _ _ _ _
  · rintro _ ⟨s, m⟩ ⟨hs, rfl⟩
    exact ⟨h.inv.setFs hs, h.proc, h.pipes, h.free⟩

theorem Kernel.fileInode_spec : wpm (Kernel.fileInode f) (fun ip k' => k' = k ∧ (k.file f).ip = some ip)
    Allowed H k := by
  unfold Kernel.fileInode
  rw [wpm_bind, wpm_get]
  split
  · exact allowed_fs _ (by decide)
  · rename_i ip hip
    exact ⟨rfl, hip⟩

section calls

variable (h : KInv K k A pg B noFiles Books.idle) (hrun : (k.proc i).state = .RUNNABLE)
include h

theorem Kernel.sysLink_spec (old new : Option (List UInt8)) :
    wpm (Kernel.sysLink i old new) (fun _ k' => FileStep K k A pg B k') Allowed True k := by
  unfold Kernel.sysLink
  rw [wpm_bind, wpm_readProc]
  split
  · exact Kernel.fsCall_spec h (Fs.link_spec h.fs (k.cwdOk idle_ref i) _ _)
  · exact FileStep.refl h

theorem Kernel.sysUnlink_spec (path : Option (List UInt8)) :
    wpm (Kernel.sysUnlink i path) (fun _ k' => FileStep K k A pg B k') Allowed True k := by
  unfold Kernel.sysUnlink
  rw [wpm_bind, wpm_readProc]
  split
  · exact Kernel.fsCall_spec h (Fs.unlink_spec h.fs (k.cwdOk idle_ref i) _)
  · exact FileStep.refl h

theorem Kernel.sysMkdir_spec (path : Option (List UInt8)) :
    wpm (Kernel.sysMkdir i path) (fun _ k' => FileStep K k A pg B k') Allowed True k :=
  Kernel.fsCall_spec h (Fs.mkfile_spec h.fs (k.cwdOk idle_ref i) _ _ _ _)

theorem Kernel.sysMknod_spec (path : Option (List UInt8)) (major minor : Nat) :
    wpm (Kernel.sysMknod i path major minor) (fun _ k' => FileStep K k A pg B k') Allowed True k :=
  Kernel.fsCall_spec h (Fs.mkfile_spec h.fs (k.cwdOk idle_ref i) _ _ _ _)

include hrun

theorem Kernel.sysChdir_spec (path : Option (List UInt8)) :
    wpm (Kernel.sysChdir i path) (fun _ k' => FileStep K k A pg B k') Allowed True k := by
  unfold Kernel.sysChdir
  rw [wpm_bind, wpm_readProc]
  refine wpm_seq (Kernel.begin_spec h) ?_
  rintro _ k₁ ⟨s₁, rfl, h₁⟩
  cases path with
  | none =>
    refine wpm_seq (Kernel.end_spec h₁) ?_
    rintro _ k₂ ⟨s₂, rfl, h₂⟩
    exact FileStep.of_onFs ⟨s₂, rfl, h₂⟩
  | some path =>
    refine wpm_seq (Kernel.namei_spec h₁ idle_ref i path) ?_
    rintro r k₂ ⟨s₂, rfl, h₂⟩
    cases r with
    | none =>
      refine wpm_seq (Kernel.end_spec h₂) ?_
      rintro _ k₃ ⟨s₃, rfl, h₃⟩
      exact FileStep.of_onFs ⟨s₃, rfl, h₃⟩
    | some ip =>
      refine wpm_seq (Kernel.ilock_spec h₂) ?_
      rintro _ k₃ ⟨hl, s₃, rfl, h₃⟩
      rw [wpm_bind, wpm_get]
      split
      · refine wpm_seq (Kernel.iunlockput_spec h₃ hl) ?_
        rintro _ k₄ ⟨s₄, rfl, h₄⟩
        refine wpm_seq (Kernel.end_spec h₄) ?_
        rintro _ k₅ ⟨s₅, rfl, h₅⟩
        exact FileStep.of_onFs ⟨s₅, rfl, h₅⟩
      · refine wpm_seq (Kernel.iunlock_spec h₃ hl) ?_
        rintro _ k₄ ⟨s₄, rfl, h₄⟩
        cases hcwd : (k.proc i).cwd with
        | none => exact allowed_fs _ (by decide)
        | some cwd =>
          -- the reference of the old directory is dropped while `p->cwd` still names it
          have h₅ : KInv K { k with fs := s₄ } A pg B noFiles
              (((((Books.idle.addRef ip 1).addRef cwd (-1)).addOps 1)).addRef cwd 1) := by
            have hb : ((((Books.idle.addRef ip 1).addRef cwd (-1)).addOps 1)).addRef cwd 1 =
                (Books.idle.addOps 1).addRef ip 1 := by
              rw [← Books.addRef_addOps, Books.addRef_addRef, show (-1 : Int) + 1 = 0 by decide, Books.addRef_zero]
              rfl
            rw [hb]
            exact h₄
          refine wpm_seq (Kernel.iput_spec h₅) ?_
          rintro _ k₆ ⟨s₆, rfl, h₆⟩
          refine wpm_seq (Kernel.end_spec h₆) ?_
          rintro _ k₇ ⟨s₇, rfl, h₇⟩
          have h₈ : KInv K (Kernel.put { k with fs := s₇ } k.mem i { k.proc i with cwd := some ip }) A pg B
              noFiles Books.idle := by
            refine h₇.setCwd (runnable_open hrun) rfl rfl rfl fun jp => ?_
            dsimp only
            rw [hcwd, Books.addRef_ref, Books.addRef_ref]
            simp only [Option.some.injEq, eq_comm (a := cwd), eq_comm (a := ip)]
            split_ifs <;> omega
          exact ⟨h₈, rfl⟩

theorem Kernel.sysOpen_spec (path : Option (List UInt8)) (omode : Nat) :
    wpm (Kernel.sysOpen K i path omode) (fun _ k' => FileStep K k A pg B k') Allowed True k := by
  unfold Kernel.sysOpen
  cases path with
  | none => exact FileStep.refl h
  | some path =>
    refine wpm_seq (Kernel.begin_spec h) ?_
    rintro _ k₁ ⟨s₁, rfl, h₁⟩
    refine wpm_seq (Kernel.openInode_spec h₁ path omode) ?_
    intro r k₂ h₂
    cases r with
    | none =>
      obtain ⟨s₂, rfl, h₂⟩ := h₂
      exact FileStep.of_onFs ⟨s₂, rfl, h₂⟩
    | some ip =>
      obtain ⟨s₂, rfl, h₂⟩ := h₂
      rw [wpm_bind, wpm_get]
      dsimp only
      split
      · exact wpm_mono (Kernel.openBad_spec h₂) fun _ k' h' => ⟨h'.inv, h'.pages⟩
      refine wpm_seq Kernel.filealloc_spec ?_
      rintro r k₃ (⟨rfl, rfl⟩ | ⟨f, rfl, hz, hk₃⟩)
      · exact wpm_mono (Kernel.openBad_spec h₂) fun _ k' h' => ⟨h'.inv, h'.pages⟩
      have h₃ := h₂.filealloc hz
      rw [← hk₃] at h₃
      have hf₃ : (k₃.file f).ref = 1 ∧ (k₃.file f).type = .FD_NONE := by
        rw [hk₃, Kernel.file_upd, if_pos rfl]
        exact ⟨rfl, h₂.file.free f hz⟩
      have hproc₃ : k₃.proc = k.proc := by rw [hk₃]; rfl
      have hsame₃ : k₃.mem = k.mem ∧ k₃.pipes = k.pipes := by
        rw [hk₃]
        exact ⟨rfl, Kernel.pipes_upd Iff.rfl rfl⟩
      dsimp only
      refine wpm_seq Kernel.fdalloc_spec ?_
      rintro r k₄ (⟨rfl, rfl⟩ | ⟨fd, rfl, hnone, hk₄⟩)
      · refine wpm_seq (Kernel.fileclose_spec allowed_fs h₃ (by rw [hf₃.1]; decide)) ?_
        rintro _ k₅ ⟨h₅, -, hm₅, -⟩
        rw [bump_bump, show (1 : Int) + -1 = 0 by decide, bump_zero] at h₅
        refine wpm_mono (Kernel.openBad_spec h₅) fun _ k' h' => ⟨h'.inv, h'.pages.trans ?_⟩
        rw [← hsame₃.1, ← hsame₃.2]
        exact hm₅.conserve
      have h₄ := h₃.giveFd (f := f) hnone (runnable_open (by rw [hproc₃]; exact hrun))
      rw [← hk₄, bump_bump, show (1 : Int) + -1 = 0 by decide, bump_zero] at h₄
      have hf₄ : (k₄.file f).ref = 1 ∧ (k₄.file f).type = .FD_NONE := by rw [hk₄]; exact hf₃
      have hsame₄ : k₄.mem = k.mem ∧ k₄.pipes = k.pipes := by rw [hk₄]; exact hsame₃
      have h₄' : KInv K k₄ A pg B noFiles (((Books.idle.addOps 1).lock ip true).addRef ip 1) := h₄
      refine Kernel.fillFile_spec h₄' hf₄.2 (by rw [hf₄.1]; decide) rfl rfl rfl rfl rfl rfl ?_
      intro k₅ h₅ hm₅ hp₅
      refine wpm_seq (R := fun _ k' => OnFs K k₅ A pg B noFiles ((Books.idle.addOps 1).lock ip true) k') ?_ ?_
      · split
        · exact Kernel.onFs_keeps h₅ (Fs.keeps_itrunc ip)
        · exact ⟨k₅.fs, rfl, h₅⟩
      rintro _ k₆ ⟨s₆, rfl, h₆⟩
      refine wpm_seq (Kernel.iunlock_spec h₆ rfl) ?_
      rintro _ k₇ ⟨s₇, rfl, h₇⟩
      refine wpm_seq (Kernel.end_spec h₇) ?_
      rintro _ k₈ ⟨s₈, rfl, h₈⟩
      refine ⟨h₈, ?_⟩
      show k₅.pipes.val + (↑k₅.mem.freelist : Multiset Nat) = _
      rw [hm₅, hp₅, hsame₄.1, hsame₄.2]

theorem Kernel.fileread_spec (f : Fin NFILE) (addr n : Nat) :
    wpm (Kernel.fileread i f addr n) (fun _ k' => FileStep K k A pg B k') Allowed True k := by
  unfold Kernel.fileread
  rw [wpm_bind, wpm_get]
  split
  · exact FileStep.refl h
  split
  · refine wpm_seq Kernel.fileInode_spec ?_
    rintro ip k₁ ⟨rfl, -⟩
    refine wpm_seq (Kernel.ilock_spec h) ?_
    rintro _ k₂ ⟨hl, s₂, rfl, h₂⟩
    rw [wpm_bind, wpm_readProc]
    refine wpm_seq (Kernel.readiUser_spec ⟨h₂, rfl, rfl, rfl⟩ hrun ip addr _ n) fun r k₃ h₃ => ?_
    refine wpm_seq (R := fun _ k' => Wrote K { k₁ with fs := s₂ } A pg B noFiles (Books.idle.lock ip true) k')
      ?_ fun _ k₄ h₄ => ?_
    · split
      · exact h₃.updFile rfl rfl rfl rfl rfl
      · exact h₃
    refine wpm_seq (Kernel.iunlock_spec h₄.inv hl) fun _ k₅ h₅ => ?_
    have h₆ := (h₄.onFs h₅).fileStep
    exact ⟨h₆.inv, h₆.pages⟩
  · split
    · exact FileStep.refl h
    · trivial
  · exact (by decide : Allowed "fileread")
  · trivial

omit h hrun in
/-- Each iteration is an operation of its own. -/
theorem Kernel.filewriteLoop_spec (f : Fin NFILE) (addr n : Nat) : ∀ fuel w k₁,
    Wrote K k A pg B noFiles Books.idle k₁ → wpm (Kernel.filewriteLoop i f addr n fuel w)
      (fun _ k' => Wrote K k A pg B noFiles Books.idle k') Allowed True k₁
  | 0, _, _, h₁ => h₁
  | fuel + 1, w, k₁, h₁ => by
    unfold Kernel.filewriteLoop
    split
    · dsimp only
      refine wpm_seq Kernel.fileInode_spec ?_
      rintro ip k₂ ⟨rfl, -⟩
      refine wpm_seq (Kernel.begin_spec h₁.inv) fun _ k₃ h₃ => ?_
      have h₃ := h₁.onFs h₃
      refine wpm_seq (Kernel.ilock_spec h₃.inv) ?_
      rintro _ k₄ ⟨hl, h₄⟩
      have h₄ := h₃.onFs h₄
      rw [wpm_bind, wpm_readProc, wpm_bind, wpm_get]
      refine wpm_seq (Kernel.writeiUser_spec h₄ ip _ _ _ _ _) fun r k₅ h₅ => ?_
      refine wpm_seq (R := fun _ k' => Wrote K k A pg B noFiles ((Books.idle.addOps 1).lock ip true) k')
        ?_ fun _ k₆ h₆ => ?_
      · split
        · exact h₅.updFile rfl rfl rfl rfl rfl
        · exact h₅
      refine wpm_seq (Kernel.iunlock_spec h₆.inv hl) fun _ k₇ h₇ => ?_
      have h₇ := h₆.onFs h₇
      refine wpm_seq (Kernel.end_spec h₇.inv) fun _ k₈ h₈ => ?_
      have h₈ := h₇.onFs h₈
      split
      · exact h₈
      · exact Kernel.filewriteLoop_spec f addr n fuel _ k₈ h₈
    · exact h₁

omit hrun in
theorem Kernel.filewrite_spec (f : Fin NFILE) (addr n : Nat) :
    wpm (Kernel.filewrite i f addr n) (fun _ k' => FileStep K k A pg B k') Allowed True k := by
  unfold Kernel.filewrite
  rw [wpm_bind, wpm_get]
  split
  · exact FileStep.refl h
  split
  · exact wpm_seq (Kernel.filewriteLoop_spec f addr n n 0 k ⟨h, rfl, rfl, rfl⟩) fun _ k₁ h₁ => h₁.fileStep
  · split
    · exact FileStep.refl h
    · trivial
  · exact (by decide : Allowed "filewrite")
  · trivial

theorem Kernel.statInode_spec (f : Fin NFILE) (addr : Nat) :
    wpm (Kernel.statInode i f addr) (fun _ k' => FileStep K k A pg B k') Allowed True k := by
  unfold Kernel.statInode
  refine wpm_seq Kernel.fileInode_spec ?_
  rintro ip k₁ ⟨rfl, -⟩
  refine wpm_seq (Kernel.ilock_spec h) ?_
  rintro _ k₂ ⟨hl, s₂, rfl, h₂⟩
  rw [wpm_bind, wpm_get]
  refine wpm_seq (Kernel.iunlock_spec h₂ hl) ?_
  rintro _ k₃ ⟨s₃, rfl, h₃⟩
  rw [wpm_bind, wpm_readProc]
  refine wpm_mono (Kernel.copyout_spec h₃ hrun addr _) ?_
  rintro _ k₄ ⟨m, rfl, h₄, hfree⟩
  exact (⟨h₄, rfl, rfl, hfree⟩ : Wrote K k₁ A pg B noFiles Books.idle _).fileStep

theorem Kernel.sysFstat_spec (fd : Int) (addr : Nat) :
    wpm (Kernel.sysFstat i fd addr) (fun _ k' => FileStep K k A pg B k') Allowed True k := by
  unfold Kernel.sysFstat
  refine wpm_seq Kernel.argfd_spec ?_
  rintro r k₁ ⟨rfl, rfl | ⟨fd', f, rfl, -⟩⟩
  · exact FileStep.refl h
  dsimp only
  unfold Kernel.filestat
  rw [wpm_bind, wpm_get]
  split
  all_goals first
    | exact Kernel.statInode_spec h hrun f addr
    | exact FileStep.refl h

theorem Kernel.sysRead_spec (fd : Int) (addr : Nat) (n : Int) :
    wpm (Kernel.sysRead i fd addr n) (fun _ k' => FileStep K k A pg B k') Allowed True k := by
  unfold Kernel.sysRead
  refine wpm_seq Kernel.argfd_spec ?_
  rintro r k₁ ⟨rfl, rfl | ⟨fd', f, rfl, -⟩⟩
  · exact FileStep.refl h
  exact Kernel.fileread_spec h hrun f addr _

omit hrun in
theorem Kernel.sysWrite_spec (fd : Int) (addr : Nat) (n : Int) :
    wpm (Kernel.sysWrite i fd addr n) (fun _ k' => FileStep K k A pg B k') Allowed True k := by
  unfold Kernel.sysWrite
  refine wpm_seq Kernel.argfd_spec ?_
  rintro r k₁ ⟨rfl, rfl | ⟨fd', f, rfl, -⟩⟩
  · exact FileStep.refl h
  exact wpm_seq (Kernel.filewrite_spec h f addr _) fun _ _ h' => h'

/-- User code writes to its own memory. -/
theorem Kernel.store_spec (addr : Nat) (bs : List UInt8) :
    wpm (do
      let p ← Kernel.readProc i
      Kernel.vm (copyout p.pagetable addr bs)) (fun _ k' => FileStep K k A pg B k') Allowed True k := by
  rw [wpm_bind, wpm_readProc]
  refine wpm_mono (Kernel.copyout_spec h hrun addr bs) ?_
  rintro _ k₁ ⟨m, rfl, h₁, hfree⟩
  exact (⟨h₁, rfl, rfl, hfree⟩ : Wrote K k A pg B noFiles Books.idle _).fileStep

end calls

end Xv6
