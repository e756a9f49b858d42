import Xv6.Kernel.Boot
import Xv6.Kernel.Commit

/-!
# Runs of the machine

* `Called` — what a call of a process does to the address spaces, by call and result.
* `syscall_spec` — every call follows `Called`, keeps the invariant of the kernel and runs into none of the
  panics of `unreachable`.
* `Reachable` — the states between calls, from any state at power-on.
* `ReachableBy.spaces` — the rule for what holds of the address spaces in every such state.
-/

namespace Xv6

open Prog Kernel

/-- The size of the image that the file at `path` describes. -/
def Kernel.ImageSize (k : Kernel) (i : Fin NPROC) (path : List UInt8) (sz : Nat) : Prop :=
  ∃ ip s, Fs.Opens k.fs (k.proc i).cwd path ip s ∧
    (s.Solid ip → sz = PGROUNDUP (Segments.size (segments (s.fileByte ip))) + 2 * PGSIZE)

/-- What the call of process `i`, whose address space is `a`, does to the address spaces. -/
inductive Called (K : KernelImage) (k : Kernel) (A : Fin NPROC → Option Space) (i : Fin NPROC) (a : Space) :
    Kernel.Act → Int → (Fin NPROC → Option Space) → Prop where
  | same {act : Kernel.Act} {r : Int} : Called K k A i a act r A
  | fork {r : Int} {j : Fin NPROC} {tf us ks : Nat} {e : Nat → Nat} : A j = none →
      Fresh (fixedEntries K tf us) 0 (npages a.sz) (fun v => PTE_FLAGS (a.user v)) e →
      Called K k A i a .fork r (Function.update A j (some (a.forked K j tf us ks e)))
  | sbrk {n r : Int} {a' : Space} : Space.Sbrk (addSize a.sz n) a a' →
      Called K k A i a (.sbrk n) r (Function.update A i (some a'))
  | exec {path : List UInt8} {argv : List (List UInt8)} {r : Int} {sz : Nat} {e : Nat → Nat} : r ≠ -1 →
      sz ≤ USER_TOP - PGSIZE → UserMap e (fixedEntries K a.trapframe a.usyscall) (npages sz) →
      k.ImageSize i path sz →
      Called K k A i a (.exec (some path) argv true) r (Function.update A i (some (a.replaced e sz)))
  /-- The new image has been freed, but not its shadow. -/
  | execFail {path : List UInt8} {argv : List (List UInt8)} {sz : Nat} {e : Nat → Nat} :
      sz ≤ USER_TOP - PGSIZE → Readable e (npages sz) → k.ImageSize i path sz →
      Called K k A i a (.exec (some path) argv true) (-1) (Function.update A i (some (a.shadow e (npages sz))))
  | reap {addr : Nat} {r : Int} {j : Fin NPROC} : Called K k A i a (.wait addr) r (Function.update A j none)

section calls

variable {K : KernelImage} {k : Kernel} {A : Fin NPROC → Option Space} {pg : Fin NPROC → Multiset Nat}
  {B : Multiset Nat} {x : Fin NFILE → Int} {b : Books} {i : Fin NPROC} {a : Space} {P : String → Prop} {H : Prop}

/-! ## `sys_exec` -/

theorem coe_concat (pages : List Nat) (pa : Nat) : ((pages ++ [pa] : List Nat) : Multiset Nat) = {pa} + ↑pages := by
  rw [← Multiset.coe_add, Multiset.coe_singleton, add_comm]

theorem Kernel.allocArgs_spec : ∀ (n : Nat) (pages : List Nat) (k : Kernel), KInv K k A pg (↑pages + B) x b →
    wpm (allocArgs n pages) (fun r k' => ∃ m, k' = { k with mem := m } ∧ KInv K k' A pg (↑r.2 + B) x b) P H k
  | 0, pages, k, h => ⟨k.mem, rfl, h⟩
  | n + 1, pages, k, h => by
    unfold allocArgs
    refine wpm_seq kalloc_page ?_
    rintro _ k₁ (⟨rfl, rfl⟩ | ⟨pa, m, rfl, rfl, hm⟩)
    · exact ⟨k₁.mem, rfl, h⟩
    have h₁ := h.rest ((hm.add ↑pages).congr (zero_add _) (coe_concat pages pa).symm)
    refine wpm_mono (allocArgs_spec n _ _ h₁) ?_
    rintro r k₂ ⟨m₂, rfl, h₂⟩
    exact ⟨m₂, rfl, h₂⟩

theorem Kernel.freeArgs_spec : ∀ (pages : List Nat) (k : Kernel), KInv K k A pg (↑pages + B) x b →
    wpm (freeArgs K pages) (fun _ k' => KInv K k' A pg B x b) P H k
  | [], k, h => by rwa [Multiset.coe_nil, zero_add] at h
  | pa :: pas, k, h => by
    unfold freeArgs
    rw [wpm_bind, wpm_vm]
    refine wpm_mono (wpm_of_wp (kfree_spec (K := K) (F := ↑pas) ?_)) ?_
    · rw [Multiset.cons_coe]
      exact h.owns_rest
    · rintro _ m ⟨hm, -⟩
      rw [Multiset.cons_coe] at hm
      exact freeArgs_spec pas _ (h.rest hm)

/-- **`sys_exec`** -/
theorem Kernel.sysExec_spec (h : KInv K k A pg B noFiles Books.idle) (ha : A i = some a)
    (path : Option (List UInt8)) (argv : List (List UInt8)) (fetched : Bool) :
    wpm (sysExec K i path argv fetched) (fun r k' => ∃ A' pg', Called K k A i a (.exec path argv fetched) r A' ∧
      KInv K k' A' pg' B noFiles Books.idle) Allowed True k := by
  unfold sysExec
  cases path with
  | none => exact ⟨A, pg, .same, h⟩
  | some path =>
    have h₀ : KInv K k A pg (↑([] : List Nat) + B) noFiles Books.idle := by rwa [Multiset.coe_nil, zero_add]
    refine wpm_seq (allocArgs_spec _ [] k h₀) ?_
    rintro ⟨ok, pages⟩ k₁ ⟨m₁, rfl, h₁⟩
    dsimp only at h₁ ⊢
    split
    · refine wpm_seq (freeArgs_spec pages _ h₁) fun _ k₂ h₂ => ?_
      exact ⟨A, pg, .same, h₂⟩
    · rename_i hok
      have hf : fetched = true := by
        cases fetched
        · simp at hok
        · rfl
      subst hf
      refine wpm_seq (exec_spec h₁ idle_ref ha path argv) ?_
      rintro r k₂ (⟨rfl, h₂ | ⟨hbuilt, h₂⟩⟩ | ⟨rfl, n, k₃, sp, ustack, T, e, hexec⟩)
      · refine wpm_seq (freeArgs_spec pages _ h₂) fun _ k₃ h₃ => ?_
        exact ⟨A, pg, .same, h₃⟩
      · refine wpm_seq (freeArgs_spec pages _ h₂) fun _ k₃ h₃ => ?_
        obtain ⟨ip, s, hopen, hfile⟩ := hbuilt.file
        exact ⟨_, _, .execFail hbuilt.top hbuilt.image.map.low ⟨ip, s, hopen, fun hS => (hfile hS).size⟩, h₃⟩
      · obtain ⟨pg₁, hbuilt⟩ := hexec.built
        obtain ⟨k₄, -, -, hcom⟩ := hexec.push
        obtain ⟨pg₂, h₂⟩ := hcom.inv
        refine wpm_seq (freeArgs_spec pages _ h₂) fun _ k₅ h₅ => ?_
        obtain ⟨ip, s, hopen, hfile⟩ := hbuilt.file
        exact ⟨_, _, .exec (by omega) hbuilt.top hbuilt.image.map ⟨ip, s, hopen, fun hS => (hfile hS).size⟩, h₅⟩

/-! ## System calls -/

/-- **Every call keeps the invariant.** -/
theorem Kernel.syscall_spec (h : KInv K k A pg B noFiles Books.idle) (hrun : (k.proc i).state = .RUNNABLE)
    (ha : A i = some a) (act : Kernel.Act) :
    wpm (syscall K i act) (fun r k' => ∃ A' pg', Called K k A i a act r A' ∧ KInv K k' A' pg' B noFiles Books.idle)
      Allowed True k := by
  -- the calls that leave the address spaces alone
  have hstep : ∀ {act : Kernel.Act} {r : Int} {k' : Kernel}, FileStep K k A pg B k' →
      ∃ A' pg', Called K k A i a act r A' ∧ KInv K k' A' pg' B noFiles Books.idle :=
    fun h' => ⟨A, pg, .same, h'.inv⟩
  cases act with
  | fork =>
    refine wpm_mono (fork_spec h hrun ha) ?_
    rintro r k' (⟨h', -⟩ | ⟨j, tf, us, ks, e, X, hj, hf, h', -⟩)
    · exact ⟨A, pg, .same, h'⟩
    · exact ⟨_, _, .fork (h.mem.vacant hj).1 hf, h'⟩
  | sbrk n =>
    refine wpm_mono (sysSbrk_spec h ha n) ?_
    rintro r k' ⟨a', pg', hs, h'⟩
    exact ⟨_, pg', .sbrk hs, h'⟩
  | exec path argv fetched => exact sysExec_spec h ha path argv fetched
  | exit status =>
    refine wpm_seq (exit_spec h hrun status) fun _ k' h' => ?_
    exact ⟨A, pg, .same, h'.inv⟩
  | wait addr =>
    refine wpm_mono (wait_spec h hrun addr) ?_
    rintro r k' ⟨-, -, ⟨h', -⟩ | ⟨j, -, -, h'⟩⟩
    · exact ⟨A, pg, .same, h'⟩
    · exact ⟨_, _, .reap, h'⟩
  | kill pid =>
    refine wpm_mono (killLoop_spec h pid _) ?_
    rintro r k' ⟨h', -⟩
    exact ⟨A, pg, .same, h'⟩
  | pipe fdarray => exact wpm_mono (sysPipe_spec h hrun fdarray) fun _ _ h' => hstep h'
  | close fd => exact wpm_mono (sysClose_spec h hrun fd) fun _ _ h' => hstep h'
  | dup fd => exact wpm_mono (sysDup_spec h hrun fd) fun _ _ h' => hstep h'
  | «open» path omode => exact wpm_mono (sysOpen_spec h hrun path omode) fun _ _ h' => hstep h'
  | read fd addr n => exact wpm_mono (sysRead_spec h hrun fd addr n) fun _ _ h' => hstep h'
  | write fd addr n => exact wpm_mono (sysWrite_spec h fd addr n) fun _ _ h' => hstep h'
  | fstat fd addr => exact wpm_mono (sysFstat_spec h hrun fd addr) fun _ _ h' => hstep h'
  | link old new => exact wpm_mono (sysLink_spec h old new) fun _ _ h' => hstep h'
  | unlink path => exact wpm_mono (sysUnlink_spec h path) fun _ _ h' => hstep h'
  | mkdir path => exact wpm_mono (sysMkdir_spec h path) fun _ _ h' => hstep h'
  | mknod path major minor => exact wpm_mono (sysMknod_spec h path major minor) fun _ _ h' => hstep h'
  | chdir path => exact wpm_mono (sysChdir_spec h hrun path) fun _ _ h' => hstep h'
  | store addr bs => exact wpm_mono (store_spec h hrun addr bs) fun _ _ h' => hstep h'

end calls

/-! ## Reachable states -/

namespace Kernel

/-- `main` has started the first process. -/
def Booted (K : KernelImage) (k : Kernel) : Prop := ∃ k₀, PowerOn k₀ ∧ boot K k₀ = .ok () k

/-- The states between calls, when every call satisfies `ok` in the state in which it is made. -/
def ReachableBy (K : KernelImage) (ok : Kernel → Fin NPROC × Kernel.Act → Prop) : Kernel → Prop :=
  Transition.Reach (step K) ok (Booted K)

/-- The states between calls. -/
def Reachable (K : KernelImage) : Kernel → Prop := ReachableBy K fun _ _ => True

variable {k : Kernel} {K : KernelImage}

theorem step_eq {k' : Kernel} {i : Fin NPROC} {act : Kernel.Act} (h : step K k (i, act) = some k') :
    (k.proc i).state = .RUNNABLE ∧ ∃ r, syscall K i act k = .ok r k' := by
  unfold step at h
  split at h
  · rename_i hrun
    refine ⟨hrun, ?_⟩
    dsimp only at h
    split at h
    · rename_i r k₁ hk₁
      cases h
      exact ⟨r, hk₁⟩
    · cases h
    · cases h
  · cases h

/-- **Invariants of the address spaces.** -/
theorem ReachableBy.spaces {ok : Kernel → Fin NPROC × Kernel.Act → Prop} {Φ : (Fin NPROC → Option Space) → Prop}
    (h0 : ∀ (j : Fin NPROC) tf us ks e, Fresh (fixedEntries K tf us) 0 1 (fun _ => INIT_PERM) e →
      Φ (Function.update (fun _ => none) j (some (Space.first K j tf us ks e))))
    (hs : ∀ (k k' : Kernel) A A' (i : Fin NPROC) a act r, (∀ (j : Fin NPROC) b, A j = some b → b.WF K j) →
      Φ A → A i = some a → (k.proc i).sz = a.sz → ok k (i, act) → syscall K i act k = .ok r k' →
      Called K k A i a act r A' → Φ A') (h : ReachableBy K ok k) : ∃ A pg B, KInv K k A pg B noFiles Books.idle ∧ Φ A := by
  refine Transition.Reach.invariant (I := fun k => ∃ A pg B, KInv K k A pg B noFiles Books.idle ∧ Φ A) ?_ ?_ h
  · rintro k ⟨k₀, hk₀, hboot⟩
    obtain ⟨B, j, tf, us, ks, e, X, hf, -, hk⟩ := wpm_ok (boot_spec (P := fun _ => True) (H := True) hk₀
      (Or.inr fun _ => trivial)) hboot
    exact ⟨_, _, B, hk, h0 j tf us ks e hf⟩
  · rintro k ⟨i, act⟩ k' ⟨A, pg, B, hk, hΦ⟩ hok hstep
    obtain ⟨hrun, r, hcall⟩ := step_eq hstep
    obtain ⟨a, ha⟩ := hk.mem.used (runnable_open hrun).1
    obtain ⟨-, -, T, KT, hrep, -⟩ := hk.mem.space ha
    obtain ⟨A', pg', hc, hk'⟩ := wpm_ok (syscall_spec hk hrun ha act) hcall
    exact ⟨A', pg', B, hk', hs k k' A A' i a act r (fun j b hb => (hk.mem.space hb).2.1) hΦ ha hrep.sz hok hcall hc⟩

theorem ReachableBy.inv {ok : Kernel → Fin NPROC × Kernel.Act → Prop}
    (h : ReachableBy K ok k) : ∃ A pg B, KInv K k A pg B noFiles Books.idle := by
  obtain ⟨A, pg, B, hk, -⟩ := h.spaces (Φ := fun _ => True) (fun _ _ _ _ _ _ => trivial)
    fun _ _ _ _ _ _ _ _ _ _ _ _ _ _ _ => trivial
  exact ⟨A, pg, B, hk⟩

theorem Reachable.inv (h : Reachable K k) : ∃ A pg B, KInv K k A pg B noFiles Books.idle := ReachableBy.inv h

/-! ## A machine that has booted -/

/-- A kernel at power-on, on an empty disk. -/
def zero : Kernel where
  mem := ⟨fun _ _ => 0, []⟩
  kernelPagetable := 0
  disk := []
  proc := fun _ => Proc.zero
  nextpid := 1
  initproc := none
  fs :=
    { sb := ⟨FSSIZE, 200, 32, 45⟩
      log := Log.init 2 LOGSIZE
      store := fun _ _ => 0
      held := []
      inode := fun _ => ⟨0, 0, 0, false, false, ⟨0, 0, 0, 0, 0, fun _ => 0⟩⟩ }
  file := fun _ => File.zero
  pipe := fun _ => ⟨false, false⟩

theorem zero_powerOn : PowerOn zero :=
  ⟨rfl, fun _ => rfl, rfl, fun _ => rfl, rfl, fun _ _ h => absurd h (Int.lt_irrefl 0)⟩

/-- The small machine after `main`.  It is not meant to be evaluated: `boot` frees all of physical memory, page by
page. -/
@[irreducible] def smallKernel : Kernel := (boot smallImage zero).state

theorem smallImage_boots : BOOT_PAGES ≤ smallImage.pages := by decide +kernel

theorem smallKernel_first : ∃ B, FirstProc smallImage B smallKernel := by
  unfold smallKernel
  exact (boots zero_powerOn smallImage_boots).2

theorem smallKernel_booted : Booted smallImage smallKernel := by
  unfold smallKernel
  exact ⟨zero, zero_powerOn, (boots zero_powerOn smallImage_boots).1⟩

theorem smallKernel_reachable : Reachable smallImage smallKernel := .init smallKernel_booted

end Kernel

end Xv6
