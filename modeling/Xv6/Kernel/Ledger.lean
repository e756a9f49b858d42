import Xv6.Kernel.Memory

/-!
# Who holds what, in every reachable state

* `page_ownership` — every page of physical memory has exactly one role.
* `files_counted` — file structures and pipes live as long as descriptors refer to them.
* `inodes_counted` — between calls no inode is locked, no buffer held and no log operation open, and the
  references to an inode are those of files and current directories.
-/

namespace Xv6

open Prog Kernel

variable {K : KernelImage} {k k' k₀ k₁ k₂ k₃ : Kernel} {A A' : Fin NPROC → Option Space}
  {pg : Fin NPROC → Multiset Nat} {B : Multiset Nat} {x x' : Fin NFILE → Int} {b b' : Books} {i j : Fin NPROC}

/-! ## Pages -/

/-- The pages of a live process: trapframe, `usyscall` page, kernel stack, the pages of both page tables, and user
memory. -/
def Kernel.processPages (k : Kernel) (i : Fin NPROC) : Multiset Nat :=
  if (k.proc i).state = .UNUSED then 0
  else {(k.proc i).trapframe} + {(k.proc i).usyscall} + {(k.proc i).kstack} + k.mem.tables 2 (k.proc i).pagetable +
    k.mem.tables 2 (k.proc i).kpagetable + leafPages (k.userEntry i) 0 (npages (k.proc i).sz)

theorem KInv.processPages (h : KInv K k A pg B x b) (i : Fin NPROC) : k.processPages i = pg i := by
  unfold Kernel.processPages
  split
  · rename_i hu
    exact (h.mem.vacant hu).2.1.symm
  · rename_i hi
    obtain ⟨a, ha⟩ := h.mem.used hi
    obtain ⟨-, hwf, T, KT, hrep, hpg⟩ := h.mem.space ha
    have hleaf : leafPages (k.userEntry i) 0 (npages a.sz) = leafPages a.user 0 (npages a.sz) := by
      refine leafPages_congr fun u _ hu => ?_
      exact hrep.user.entry u (Nat.lt_of_lt_of_le (Nat.lt_trans hu hwf.npages_lt) (by decide))
    rw [hrep.trapframe, hrep.usyscall, hrep.kstack, hrep.user.tables, hrep.kern.tables, hrep.sz, hleaf, hpg]
    rfl

/-- All pages, by role: those of processes, live pipes, the boot-time allocations `B`, and the free pages. -/
def Kernel.roles (k : Kernel) (B : Multiset Nat) : Multiset Nat :=
  ∑ i, k.processPages i + (k.pipes.val + B) + ↑k.mem.freelist

/-- Every page of physical memory after the kernel has exactly one role. -/
structure Accounted (K : KernelImage) (B : Multiset Nat) (k : Kernel) : Prop where
  once : (k.roles B).Nodup
  all : ∀ pa, pa ∈ k.roles B ↔ Managed K pa

theorem KInv.roles (h : KInv K k A pg B x b) : k.roles B = ∑ i, pg i + (k.pipes.val + B) + ↑k.mem.freelist := by
  unfold Kernel.roles
  rw [Finset.sum_congr rfl fun i _ => h.processPages i]

theorem KInv.accounted (h : KInv K k A pg B x b) : Accounted K B k := by
  refine ⟨?_, fun pa => ⟨fun hp => ?_, fun hp => ?_⟩⟩
  · rw [h.roles]
    exact h.mem.owns.nodup
  · rw [h.roles] at hp
    exact h.mem.owns.managed pa hp
  · rw [h.roles]
    exact h.mem.all pa hp

/-- The roles of two states have the same pages. -/
theorem Accounted.roles_eq (h : Accounted K B k) (h' : Accounted K B k') : k'.roles B = k.roles B :=
  (Multiset.Nodup.ext h'.once h.once).2 fun pa => (h'.all pa).trans (h.all pa).symm

/-- No page that a process can write belongs to another. -/
theorem KInv.writable_ne (h : KInv K k A pg B x b) (hi : k.Live i) (hj : k.Live j) (hij : i ≠ j) {v w : Nat}
    (hv : v < vpns) (hw : w < vpns) (hwv : Writable (k.userEntry i v)) (hww : Writable (k.userEntry j w)) :
    PTE2PA (k.userEntry i v) ≠ PTE2PA (k.userEntry j w) := by
  have hmem : ∀ l v, k.Live l → v < vpns → Writable (k.userEntry l v) → PTE2PA (k.userEntry l v) ∈ pg l := by
    intro l v hl hv hw
    obtain ⟨a, ha⟩ := h.mem.used hl
    obtain ⟨-, hwf, T, KT, hrep, hpg⟩ := h.mem.space ha
    have he := (h.placed ha).userEntry hv
    rw [he] at hw ⊢
    rw [hpg, Space.pages_user]
    exact Multiset.mem_add.2 (Or.inl (mem_leafPages.2 ⟨v, Nat.zero_le v, hwf.writable hv hw, rfl⟩))
  intro heq
  have hin := mem_others hij (hmem i v hi hv hwv)
  refine (h.mem.owns_slot j).frame (Multiset.mem_add.2 (Or.inl hin)) (Multiset.mem_add.2 (Or.inl ?_))
  rw [heq]
  exact hmem j w hj hw hww

/-! ## Files and pipes -/

/-- A descriptor of some process refers to the read end (or, for `w`, the write end) of the pipe at `pi`. -/
def Kernel.Refers (k : Kernel) (pi : Nat) (w : Bool) : Prop :=
  ∃ i fd f, (k.proc i).ofile fd = some f ∧ (k.file f).type = .FD_PIPE ∧ (k.file f).pipe = pi ∧
    (k.file f).writable = w

/-- An open file structure has a descriptor. -/
theorem FileInv.slot {f : Fin NFILE} (h : FileInv k noFiles) (hf : (k.file f).type ≠ .FD_NONE) :
    ∃ i fd, (k.proc i).ofile fd = some f := by
  have hpos : 0 < tally k.slots f := by
    by_contra hc
    refine hf (h.free f ?_)
    rw [h.ref f]
    show (tally k.slots f : Int) + 0 = 0
    omega
  obtain ⟨c, hc⟩ := tally_pos.1 hpos
  exact ⟨c.1, c.2, hc⟩

theorem FileInv.mem_pipes (h : FileInv k noFiles) {pi : Nat} : pi ∈ k.pipes ↔ ∃ w, k.Refers pi w := by
  rw [Kernel.mem_pipes]
  constructor
  · rintro ⟨f, hf, rfl⟩
    obtain ⟨i, fd, hs⟩ := h.slot (f := f) (by rw [hf]; decide)
    exact ⟨_, i, fd, f, hs, hf, rfl, rfl⟩
  · rintro ⟨w, i, fd, f, -, hf, hpi, -⟩
    exact ⟨f, hf, hpi⟩

/-- A pipe with a descriptor in another process survives the exit of `j`. -/
theorem ExitStep.pipes (hk : FileInv k noFiles) (hfork : k.Forked j k₁) (hj : (k.proc j).state = .UNUSED)
    (hclosed : (k.proc j).Closed) (h : ExitStep K k₁ A pg B j k₂) : k₂.pipes = k.pipes := by
  have hopen : ∀ f, (k.file f).type = .FD_PIPE → (k₂.file f).type = .FD_PIPE ∧ (k₂.file f).pipe = (k.file f).pipe := by
    intro f hf
    obtain ⟨i, fd, hs⟩ := hk.slot (f := f) (by rw [hf]; decide)
    have hij : i ≠ j := by
      rintro rfl
      rw [hclosed.1 fd] at hs
      cases hs
    obtain ⟨par, hpar⟩ := h.other i hij
    have hs₂ : k₂.slots (i, fd) = some f := by
      show (k₂.proc i).ofile fd = some f
      rw [hpar, hfork.other i hij]
      exact hs
    obtain ⟨h1, h2⟩ := hfork.file f
    rcases h.file f with ⟨h3, h4⟩ | hz
    · exact ⟨h3.trans (h1.trans hf), h4.trans h2⟩
    · have hpos := tally_pos.2 ⟨(i, fd), hs₂⟩
      have href := h.inv.file.ref f
      rw [hz] at href
      have hz' : noFiles f = 0 := rfl
      omega
  ext pi
  rw [Kernel.mem_pipes, Kernel.mem_pipes]
  constructor
  · rintro ⟨f, hf, rfl⟩
    rcases h.file f with ⟨h3, h4⟩ | hz
    · obtain ⟨h1, h2⟩ := hfork.file f
      exact ⟨f, h1.symm.trans (h3.symm.trans hf), (h4.trans h2).symm⟩
    · rw [h.inv.file.free f hz] at hf
      cases hf
  · rintro ⟨f, hf, rfl⟩
    obtain ⟨h1, h2⟩ := hopen f hf
    exact ⟨f, h1, h2⟩

/-- A child that has been forked, has exited and has been waited for leaves the free pages as they were. -/
theorem fork_exit_wait_free (h : KInv K k A pg B noFiles Books.idle) (hi : (k.proc i).state = .RUNNABLE)
    {r r' : Int} (hfork : fork K i k = .ok r k₁) (hj : (k.proc j).state = .UNUSED) (hj₁ : (k₁.proc j).state = .RUNNABLE)
    {status : Int} (hexit : exit K j status k₁ = .ok () k₂) {addr : Nat} (hi₂ : (k₂.proc i).state = .RUNNABLE)
    (hwait : wait K i addr k₂ = .ok r' k₃) (hj₃ : (k₃.proc j).state = .UNUSED) :
    (↑k₃.mem.freelist : Multiset Nat) = ↑k.mem.freelist := by
  obtain ⟨a, ha⟩ := h.mem.used (runnable_open hi).1
  obtain ⟨-, hpg, -⟩ := h.mem.vacant hj
  rcases wpm_ok (fork_spec h hi ha) hfork with ⟨-, hsame⟩ | ⟨l, tf, us, ks, e, X, hl, hf, h₁, hforked⟩
  · have hun := (hsame j).2 hj
    rw [hj₁] at hun
    cases hun
  have hlj : j = l := by
    by_contra hne
    rw [hforked.other j hne, hj] at hj₁
    cases hj₁
  subst hlj
  have hex := wpm_ok (exit_spec h₁ hj₁ status) hexit
  have hlive₂ : (k₂.proc j).state ≠ .UNUSED := (hex.inv.mem.space (Function.update_self ..)).1
  rcases wpm_ok (wait_spec hex.inv hi₂ addr) hwait with ⟨hfile, -, ⟨-, hsame⟩ | ⟨l, -, hother, h₃⟩⟩
  · rw [hsame j] at hj₃
    exact absurd hj₃ hlive₂
  have hlj : j = l := by
    by_contra hne
    rw [hother j hne] at hj₃
    exact hlive₂ hj₃
  subst hlj
  rw [Function.update_idem, Function.update_idem] at h₃
  have hpg' : Function.update pg j 0 = pg := by
    conv_rhs => rw [← Function.update_eq_self j pg, hpg]
  rw [hpg'] at h₃
  have hpipes : k₃.pipes = k.pipes :=
    (Kernel.pipes_congr hfile).trans (hex.pipes h.file hforked hj (h.closed j (Or.inl hj)))
  have hroles := h.accounted.roles_eq h₃.accounted
  rw [h.roles, h₃.roles, hpipes] at hroles
  exact add_left_cancel hroles

/-! ## Results -/

/-- **Physical page ownership.** -/
theorem page_ownership (h₀ : Booted K k₀) : ∃ B, ∀ k,
    Transition.Reach (step K) (fun _ _ => True) (· = k₀) k →
    Accounted K B k ∧
    (∀ i j, k.Live i → k.Live j → i ≠ j → ∀ v w, v < vpns → w < vpns → Writable (k.userEntry i v) →
      Writable (k.userEntry j w) → PTE2PA (k.userEntry i v) ≠ PTE2PA (k.userEntry j w)) ∧
    ∀ i j r k₁ status k₂ addr r' k₃, (k.proc i).state = .RUNNABLE → fork K i k = .ok r k₁ →
      (k.proc j).state = .UNUSED → (k₁.proc j).state = .RUNNABLE → exit K j status k₁ = .ok () k₂ →
      (k₂.proc i).state = .RUNNABLE → wait K i addr k₂ = .ok r' k₃ → (k₃.proc j).state = .UNUSED →
      (↑k₃.mem.freelist : Multiset Nat) = ↑k.mem.freelist := by
  obtain ⟨k₀₀, hpow, hboot⟩ := h₀
  obtain ⟨B, j, tf, us, ks, e, X, -, -, hk₀⟩ := wpm_ok (boot_spec (P := fun _ => True) (H := True) hpow
    (Or.inr fun _ => trivial)) hboot
  refine ⟨B, fun k hk => ?_⟩
  have hinv : ∃ A pg, KInv K k A pg B noFiles Books.idle := by
    refine Transition.Reach.invariant (I := fun k => ∃ A pg, KInv K k A pg B noFiles Books.idle) ?_ ?_ hk
    · rintro k rfl
      exact ⟨_, _, hk₀⟩
    · rintro k ⟨i, act⟩ k' ⟨A, pg, hk⟩ - hstep
      obtain ⟨hrun, r, hcall⟩ := step_eq hstep
      obtain ⟨a, ha⟩ := hk.mem.used (runnable_open hrun).1
      obtain ⟨A', pg', -, hk'⟩ := wpm_ok (syscall_spec hk hrun ha act) hcall
      exact ⟨A', pg', hk'⟩
  obtain ⟨A, pg, hk⟩ := hinv
  refine ⟨hk.accounted, fun i j hi hj hij v w hv hw hwv hww => hk.writable_ne hi hj hij hv hw hwv hww, ?_⟩
  intro i j r k₁ status k₂ addr r' k₃ hi hfork hj hj₁ hexit hi₂ hwait hj₃
  exact fork_exit_wait_free hk hi hfork hj hj₁ hexit hi₂ hwait hj₃

theorem page_ownership_small : Booted smallImage smallKernel ∧ ∃ B, Accounted smallImage B smallKernel := by
  obtain ⟨B, hB⟩ := page_ownership smallKernel_booted
  exact ⟨smallKernel_booted, B, (hB smallKernel (.init rfl)).1⟩

end Xv6
