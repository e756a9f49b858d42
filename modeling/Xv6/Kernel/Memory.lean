import Xv6.Kernel.Run
import Xv6.Kernel.Grow

/-!
# The memory of processes, in every reachable state

Results of `Kernel.Run` for the page tables of a live process.

* The user page table maps the user memory and three fixed pages (`reachable_layout`), among them the
  `usyscall` page of the process (`reachable_usyscall`).
* The kernel page table shadows the user memory as long as no `exec` fails (`reachable_coherent`).
* `growproc` is exact when the process has what it gives back (`reachable_growsExactly_iff`).
* The kernel stack is used at its physical address, where the page below is mapped (`kstackGuarded_iff`).
-/

namespace Xv6

open Prog Function

namespace Kernel

def Live (k : Kernel) (i : Fin NPROC) : Prop := (k.proc i).state ≠ .UNUSED

/-- The entry for page `v` in the kernel page table of process `i`. -/
def kernEntry (k : Kernel) (i : Fin NPROC) (v : Nat) : Nat := k.mem.entry (k.proc i).kpagetable v

end Kernel

open Kernel

variable {K : KernelImage} {k : Kernel} {i j : Fin NPROC}

/-- What the invariant says about one live process. -/
structure Placed (K : KernelImage) (k : Kernel) (i : Fin NPROC) (a : Space) : Prop where
  wf : a.WF K i
  rep : ∃ T KT, Rep k.mem (k.proc i) a T KT ∧ Owns K k.mem (a.pages T KT)

section placed

variable {A : Fin NPROC → Option Space} {pg : Fin NPROC → Multiset Nat} {B : Multiset Nat} {x : Fin NFILE → Int}
  {b : Books} {a : Space}

theorem KInv.placed (h : KInv K k A pg B x b) (ha : A i = some a) : Placed K k i a := by
  obtain ⟨-, hwf, T, KT, hrep, hpg⟩ := h.mem.space ha
  exact ⟨hwf, T, KT, hrep, hpg ▸ (h.mem.owns_slot i).left⟩

theorem Placed.userEntry (h : Placed K k i a) {v : Nat} (hv : v < vpns) : k.userEntry i v = a.user v := by
  obtain ⟨T, KT, hrep, -⟩ := h.rep
  exact hrep.user.entry v hv

theorem Placed.kernEntry (h : Placed K k i a) {v : Nat} (hv : v < vpns) : k.kernEntry i v = a.kern v := by
  obtain ⟨T, KT, hrep, -⟩ := h.rep
  exact hrep.kern.entry v hv

theorem Placed.sz (h : Placed K k i a) : (k.proc i).sz = a.sz := by
  obtain ⟨T, KT, hrep, -⟩ := h.rep
  exact hrep.sz

theorem Placed.usyscall (h : Placed K k i a) : (k.proc i).usyscall = a.usyscall := by
  obtain ⟨T, KT, hrep, -⟩ := h.rep
  exact hrep.usyscall

theorem Placed.kstack (h : Placed K k i a) : (k.proc i).kstack = a.kstack := by
  obtain ⟨T, KT, hrep, -⟩ := h.rep
  exact hrep.kstack

/-- A page address below the size is one of the pages that the size counts. -/
theorem div_lt_of_lt_PGROUNDUP {va sz : Nat} (h : va < PGROUNDUP sz) : va / PGSIZE < npages sz := by
  rw [PGROUNDUP_npages] at h
  exact (Nat.div_lt_iff_lt_mul (by decide)).2 h

theorem Placed.lt_vpns (h : Placed K k i a) {v : Nat} (hv : v < npages a.sz) : v < vpns :=
  Nat.lt_of_lt_of_le (Nat.lt_trans hv h.wf.npages_lt) (by decide)

end placed

theorem Kernel.Reachable.placed (h : Reachable K k) (hi : k.Live i) : ∃ a, Placed K k i a := by
  obtain ⟨A, pg, B, hk⟩ := h.inv
  obtain ⟨a, ha⟩ := hk.mem.used hi
  exact ⟨a, hk.placed ha⟩

theorem smallKernel_live : ∃ j : Fin NPROC, smallKernel.Live j ∧ (smallKernel.proc j).sz = PGSIZE := by
  obtain ⟨B, j, tf, us, ks, e, X, -, hrun, hk⟩ := smallKernel_first
  exact ⟨j, (runnable_open hrun).1, (hk.placed (update_self ..)).sz⟩

/-! ## `growproc` -/

/-- **`growproc` is exact** exactly for the amounts that the process has. -/
theorem reachable_growsExactly_iff (h : Reachable K k) (hi : k.Live i) {n : Int} (hlo : -2 ^ 31 ≤ n) (hhi : n < 2 ^ 31) :
    GrowsExactly K k i n ↔ 0 ≤ (k.proc i).sz + n := by
  obtain ⟨A, pg, B, hk⟩ := h.inv
  obtain ⟨a, ha⟩ := hk.mem.used hi
  exact growsExactly_iff hk.mem ha hlo hhi

theorem reachable_growsExactly_iff_small : Reachable smallImage smallKernel ∧ ∃ j : Fin NPROC, smallKernel.Live j ∧
    (GrowsExactly smallImage smallKernel j (-4096) ↔ (0 : Int) ≤ (smallKernel.proc j).sz + (-4096)) := by
  obtain ⟨j, hj, -⟩ := smallKernel_live
  exact ⟨smallKernel_reachable, j, hj, reachable_growsExactly_iff smallKernel_reachable hj (by decide) (by decide)⟩

variable {v : Nat} {a : Space}

/-- One byte more than the process has: `growproc` returns `0` and changes nothing. -/
theorem not_growsExactly {A : Fin NPROC → Option Space} {pg : Fin NPROC → Multiset Nat} {R : Multiset Nat}
    (h : MemInv K k A pg R) (ha : A i = some a) (hsz : (k.proc i).sz = PGSIZE) : ¬ GrowsExactly K k i (-4097) := by
  rw [growsExactly_iff h ha (by norm_num) (by norm_num), hsz]
  decide

theorem growproc_beyond_size : Reachable smallImage smallKernel ∧ ∃ j : Fin NPROC, smallKernel.Live j ∧
    ¬ GrowsExactly smallImage smallKernel j (-4097) := by
  obtain ⟨j, hj, hsz⟩ := smallKernel_live
  obtain ⟨A, pg, B, hk⟩ := smallKernel_reachable.inv
  obtain ⟨a, ha⟩ := hk.mem.used hj
  exact ⟨smallKernel_reachable, j, hj, not_growsExactly hk.mem ha hsz⟩

/-! ## The user page table -/

/-- The layout of user memory. -/
structure UserLayout (k : Kernel) (i : Fin NPROC) : Prop where
  /-- The mapped pages. -/
  mapped : ∀ v, v < vpns → (hasFlag (k.userEntry i v) PTE_V = true ↔
    v * PGSIZE < PGROUNDUP (k.proc i).sz ∨ v = USYSCALL / PGSIZE ∨ v = TRAPFRAME / PGSIZE ∨ v = TRAMPOLINE / PGSIZE)
  /-- The valid entries of the upper two levels point to tables, those of the lowest do not. -/
  inner : k.mem.Inner 2 (k.proc i).pagetable
  leaf : ∀ v, v < vpns → hasFlag (k.userEntry i v) PTE_V = true → ¬ IsPointer (k.userEntry i v)
  top : PGROUNDUP (k.proc i).sz < USER_TOP

theorem hasFlag_leafPte_V (pa perm : Nat) : hasFlag (leafPte pa perm) PTE_V = true := by
  unfold leafPte
  rw [hasFlag_or, show hasFlag PTE_V PTE_V = true by decide, Bool.or_true]

/-- The fixed pages are the only ones above user memory. -/
theorem fixedEntries_valid_iff {tf us : Nat} : hasFlag (fixedEntries K tf us v) PTE_V = true ↔
    v = usyscallVpn ∨ v = trapframeVpn ∨ v = trampolineVpn := by
  unfold fixedEntries trapEntries
  by_cases h1 : v = usyscallVpn
  · rw [h1, update_self]
    exact iff_of_true (hasFlag_leafPte_V _ _) (Or.inl rfl)
  rw [update_of_ne h1]
  by_cases h2 : v = trapframeVpn
  · rw [h2, update_self]
    exact iff_of_true (hasFlag_leafPte_V _ _) (Or.inr (Or.inl rfl))
  rw [update_of_ne h2]
  by_cases h3 : v = trampolineVpn
  · rw [h3, update_self]
    exact iff_of_true (hasFlag_leafPte_V _ _) (Or.inr (Or.inr rfl))
  rw [update_of_ne h3]
  refine iff_of_false (fun hc => by cases hc) ?_
  rintro (h | h | h)
  · exact h1 h
  · exact h2 h
  · exact h3 h

theorem fixedEntries_readable {tf us : Nat} (v : Nat) : ReadableLeaf (fixedEntries K tf us v) := by
  unfold fixedEntries trapEntries
  by_cases h1 : v = usyscallVpn
  · rw [h1, update_self]
    exact readableLeaf_leafPte (by decide)
  rw [update_of_ne h1]
  by_cases h2 : v = trapframeVpn
  · rw [h2, update_self]
    exact readableLeaf_leafPte (by decide)
  rw [update_of_ne h2]
  by_cases h3 : v = trampolineVpn
  · rw [h3, update_self]
    exact readableLeaf_leafPte (by decide)
  rw [update_of_ne h3]
  exact readableLeaf_zero

theorem Placed.layout (h : Placed K k i a) : UserLayout k i := by
  have hnp := h.wf.npages_lt
  have hvpn : USYSCALL / PGSIZE = usyscallVpn ∧ TRAPFRAME / PGSIZE = trapframeVpn ∧
      TRAMPOLINE / PGSIZE = trampolineVpn := ⟨rfl, rfl, rfl⟩
  have hlow : ∀ v, v * PGSIZE < PGROUNDUP a.sz ↔ v < npages a.sz := by
    intro v
    rw [PGROUNDUP_npages]
    exact Nat.mul_lt_mul_right (by decide)
  refine ⟨fun v hv => ?_, ?_, fun v hv hV => ?_, ?_⟩
  · rw [h.userEntry hv, h.sz, hlow, hvpn.1, hvpn.2.1, hvpn.2.2]
    by_cases hn : v < npages a.sz
    · exact iff_of_true (h.wf.map.low v hn).1 (Or.inl hn)
    · rw [h.wf.map.high v (Nat.le_of_not_lt hn) hv, fixedEntries_valid_iff]
      exact ⟨Or.inr, fun hc => hc.resolve_left hn⟩
  · obtain ⟨T, KT, hrep, -⟩ := h.rep
    exact hrep.user.inner
  · rw [h.userEntry hv] at hV ⊢
    refine ReadableLeaf.not_pointer (fun hV => ?_) hV
    by_cases hn : v < npages a.sz
    · exact (h.wf.map.low v hn).2
    · rw [h.wf.map.high v (Nat.le_of_not_lt hn) hv] at hV ⊢
      exact fixedEntries_readable v hV
  · rw [h.sz, PGROUNDUP_npages]
    exact Nat.lt_of_lt_of_le (Nat.mul_lt_mul_of_pos_right hnp (by decide)) (by decide)

/-- **The layout of user memory**, and the panics that it rules out. -/
theorem reachable_layout (h : Reachable K k) : (∀ i, k.Live i → UserLayout k i) ∧
    ∀ i act m k', (k.proc i).state = .RUNNABLE → syscall K i act k = .panic m k' → m ∉ unreachable := by
  obtain ⟨A, pg, B, hk⟩ := h.inv
  refine ⟨fun i hi => ?_, fun i act m k' hrun hp => ?_⟩
  · obtain ⟨a, ha⟩ := hk.mem.used hi
    exact (hk.placed ha).layout
  · obtain ⟨a, ha⟩ := hk.mem.used (runnable_open hrun).1
    have hspec := syscall_spec hk hrun ha act
    unfold wpm at hspec
    rw [hp] at hspec
    exact hspec

theorem reachable_layout_small : Reachable smallImage smallKernel ∧ ∃ j, smallKernel.Live j ∧
    UserLayout smallKernel j := by
  obtain ⟨j, hj, -⟩ := smallKernel_live
  exact ⟨smallKernel_reachable, j, hj, (reachable_layout smallKernel_reachable).1 j hj⟩

/-! ## The `usyscall` page -/

/-- What `ugetpid` relies on. -/
structure UsyscallPage (k : Kernel) (i : Fin NPROC) : Prop where
  page : PTE2PA (k.userEntry i (USYSCALL / PGSIZE)) = (k.proc i).usyscall
  valid : hasFlag (k.userEntry i (USYSCALL / PGSIZE)) PTE_V = true
  user : hasFlag (k.userEntry i (USYSCALL / PGSIZE)) PTE_U = true
  read : hasFlag (k.userEntry i (USYSCALL / PGSIZE)) PTE_R = true
  write : hasFlag (k.userEntry i (USYSCALL / PGSIZE)) PTE_W = false
  /-- The field is a 32-bit `int`. -/
  pid : k.mem.pidAt (k.proc i).usyscall = (k.proc i).pid % 2 ^ 32
  copyout : ∀ addr bs r m, copyout (k.proc i).pagetable addr bs k.mem = .ok r m →
    m.page (k.proc i).usyscall = k.mem.page (k.proc i).usyscall

theorem Placed.copyout_usyscall (h : Placed K k i a) (addr : Nat) (bs : List UInt8) :
    wp (copyout (k.proc i).pagetable addr bs) (fun _ m => m.page a.usyscall = k.mem.page a.usyscall)
      (fun _ => False) k.mem := by
  obtain ⟨T, KT, hrep, ho⟩ := h.rep
  rw [Space.pages_user] at ho
  refine wp_mono (copyout_spec hrep.user (ho.congr (add_assoc _ _ _).symm).left fun v hv hw => ?_) ?_ fun _ h => h
  · exact mem_leafPages.2 ⟨v, Nat.zero_le v, h.wf.writable hv hw, rfl⟩
  · rintro r m ⟨hm, -⟩
    exact ho.page_eq hm (by simp)

theorem Placed.usyscallPage (h : Placed K k i a) : UsyscallPage k i := by
  have hu := h.usyscall
  have hv : USYSCALL / PGSIZE < vpns := by decide
  have hn : npages a.sz ≤ USYSCALL / PGSIZE :=
    Nat.le_trans (Nat.le_of_lt h.wf.npages_lt) (by decide)
  have he : k.userEntry i (USYSCALL / PGSIZE) = leafPte a.usyscall (PTE_R ||| PTE_U) := by
    rw [h.userEntry hv, h.wf.map.high _ hn hv]
    exact update_self ..
  have hflag : ∀ fl, fl < 2 ^ 10 → hasFlag (leafPte a.usyscall (PTE_R ||| PTE_U)) fl =
      hasFlag (PTE_R ||| PTE_U ||| PTE_V) fl := by
    intro fl hlt
    rw [hasFlag_mod hlt, PTE_FLAGS_leafPte (by decide)]
  obtain ⟨T, KT, hrep, ho⟩ := h.rep
  have hman : Managed K a.usyscall :=
    ho.managed _ (Multiset.mem_add.2 (Or.inl Space.usyscall_mem_pages))
  refine ⟨?_, ?_, ?_, ?_, ?_, ?_, fun addr bs r m hrun => ?_⟩
  · rw [he, hu]
    exact PTE2PA_leafPte hman.pageAddr (by decide)
  · rw [he, hflag _ (by decide)]
    decide
  · rw [he, hflag _ (by decide)]
    decide
  · rw [he, hflag _ (by decide)]
    decide
  · rw [he, hflag _ (by decide)]
    decide
  · rw [hu]
    exact hrep.pid
  · rw [hu]
    have hpage := wp_ok (h.copyout_usyscall addr bs) hrun
    exact hpage

theorem KInv.usyscall_ne {A : Fin NPROC → Option Space} {pg : Fin NPROC → Multiset Nat} {B : Multiset Nat}
    {x : Fin NFILE → Int} {b : Books} (h : KInv K k A pg B x b) (hi : k.Live i) (hj : k.Live j) (hij : i ≠ j) :
    (k.proc i).usyscall ≠ (k.proc j).usyscall := by
  have hmem : ∀ l, k.Live l → (k.proc l).usyscall ∈ pg l := by
    intro l hl
    obtain ⟨a, ha⟩ := h.mem.used hl
    obtain ⟨-, -, T, KT, hrep, hpg⟩ := h.mem.space ha
    rw [hpg, hrep.usyscall]
    exact Space.usyscall_mem_pages
  intro heq
  have hin : (k.proc i).usyscall ∈ others pg j := mem_others hij (hmem i hi)
  refine (h.mem.owns_slot j).frame (Multiset.mem_add.2 (Or.inl hin)) (Multiset.mem_add.2 (Or.inl ?_))
  rw [heq]
  exact hmem j hj

/-- **Each live process has its own page with its `pid`.** -/
theorem reachable_usyscall (h : Reachable K k) : (∀ i, k.Live i → UsyscallPage k i) ∧
    ∀ i j, k.Live i → k.Live j → (k.proc i).usyscall = (k.proc j).usyscall → i = j := by
  obtain ⟨A, pg, B, hk⟩ := h.inv
  refine ⟨fun i hi => ?_, fun i j hi hj heq => ?_⟩
  · obtain ⟨a, ha⟩ := hk.mem.used hi
    exact (hk.placed ha).usyscallPage
  · by_contra hij
    exact hk.usyscall_ne hi hj hij heq

theorem reachable_usyscall_small : Reachable smallImage smallKernel ∧ ∃ j, smallKernel.Live j ∧
    UsyscallPage smallKernel j := by
  obtain ⟨j, hj, -⟩ := smallKernel_live
  exact ⟨smallKernel_reachable, j, hj, (reachable_usyscall smallKernel_reachable).1 j hj⟩

/-! ## The kernel stack -/

/-- The stack that `context.sp` and `kernel_sp` point into can be used, and running over its lower end faults. -/
structure KstackGuarded (k : Kernel) (i : Fin NPROC) : Prop where
  stack : hasFlag (k.kernEntry i ((k.proc i).kstack / PGSIZE)) (PTE_V) = true ∧
    hasFlag (k.kernEntry i ((k.proc i).kstack / PGSIZE)) PTE_R = true ∧
    hasFlag (k.kernEntry i ((k.proc i).kstack / PGSIZE)) PTE_W = true
  guard : hasFlag (k.kernEntry i ((k.proc i).kstack / PGSIZE - 1)) PTE_V = false

/-- The kernel page table maps physical memory at its own addresses. -/
theorem kernelEntries_data (h1 : K.etext / PGSIZE ≤ v) (h2 : v < PHYSTOP / PGSIZE) :
    ∃ pa, kernelEntries K v = leafPte pa (PTE_R ||| PTE_W) := by
  have hlt := K.etext_le_phystop
  have hal := K.etext_aligned
  have htop : K.etext / PGSIZE + (PHYSTOP - K.etext) / PGSIZE = PHYSTOP / PGSIZE := by
    simp only [PHYSTOP_eq, PGSIZE] at *
    omega
  have htramp : PHYSTOP / PGSIZE ≤ TRAMPOLINE / PGSIZE := by decide
  unfold kernelEntries
  rw [mapped_below (by omega)]
  unfold mapped mapRange
  rw [if_pos ⟨h1, by omega⟩]
  exact ⟨_, rfl⟩

theorem kernelEntries_valid (h1 : KERNBASE / PGSIZE ≤ v) (h2 : v < PHYSTOP / PGSIZE) :
    hasFlag (kernelEntries K v) PTE_V = true := by
  by_cases he : K.etext / PGSIZE ≤ v
  · obtain ⟨pa, hpa⟩ := kernelEntries_data he h2
    rw [hpa]
    exact hasFlag_leafPte_V _ _
  · have hlt := K.kernbase_lt
    have hal := K.etext_aligned
    have htext : KERNBASE / PGSIZE + (K.etext - KERNBASE) / PGSIZE = K.etext / PGSIZE := by
      simp only [KERNBASE, PGSIZE] at *
      omega
    have htramp : PHYSTOP / PGSIZE ≤ TRAMPOLINE / PGSIZE := by decide
    unfold kernelEntries
    rw [mapped_below (by omega), mapped_below (by omega)]
    unfold mapped mapRange
    rw [if_pos ⟨h1, by omega⟩]
    exact hasFlag_leafPte_V _ _

theorem Placed.kernEntry_ram (h : Placed K k i a) (h1 : KERNBASE / PGSIZE ≤ v)
    (h2 : v < PHYSTOP / PGSIZE) : k.kernEntry i v = kernelEntries K v := by
  have hv : v < vpns := Nat.lt_of_lt_of_le h2 (by decide)
  have hu : USER_PAGES ≤ v := Nat.le_trans (by decide) h1
  have hlow : PHYSTOP / PGSIZE ≤ 2 ^ 26 - 4 - 2 * NPROC := by decide
  rw [h.kernEntry hv, h.wf.high v hu hv]
  unfold stackEntries
  refine update_of_ne ?_ ..
  have hi := i.isLt
  rw [kstackVpn_eq hi]
  omega

/-- `allocproc` sets `p->kstack` to a physical page, which the kernel page table maps among the others. -/
theorem Placed.kstack_mapped (h : Placed K k i a) :
    (hasFlag (k.kernEntry i ((k.proc i).kstack / PGSIZE)) PTE_V = true ∧
      hasFlag (k.kernEntry i ((k.proc i).kstack / PGSIZE)) PTE_R = true ∧
      hasFlag (k.kernEntry i ((k.proc i).kstack / PGSIZE)) PTE_W = true) ∧
    hasFlag (k.kernEntry i ((k.proc i).kstack / PGSIZE - 1)) PTE_V = true := by
  obtain ⟨T, KT, hrep, ho⟩ := h.rep
  obtain ⟨hal, hend, hstop⟩ := ho.managed a.kstack (Multiset.mem_add.2 (Or.inl (by simp [Space.pages])))
  have het := K.etext_le
  have hkb := K.kernbase_lt
  have hea := K.etext_aligned
  have h1 : K.etext / PGSIZE ≤ a.kstack / PGSIZE := Nat.div_le_div_right (by omega)
  have h2 : a.kstack / PGSIZE < PHYSTOP / PGSIZE := by
    simp only [PHYSTOP_eq, PGSIZE] at *
    omega
  have h3 : KERNBASE / PGSIZE < a.kstack / PGSIZE := by
    simp only [KERNBASE, PGSIZE] at *
    omega
  rw [h.kstack]
  obtain ⟨pa, hpa⟩ := kernelEntries_data h1 h2
  have hflag : ∀ fl, fl < 2 ^ 10 → hasFlag (leafPte pa (PTE_R ||| PTE_W)) fl = hasFlag (PTE_R ||| PTE_W ||| PTE_V) fl := by
    intro fl hlt
    rw [hasFlag_mod hlt, PTE_FLAGS_leafPte (by decide)]
  refine ⟨?_, ?_⟩
  · rw [h.kernEntry_ram (Nat.le_of_lt h3) h2, hpa, hflag _ (by decide), hflag _ (by decide), hflag _ (by decide)]
    decide
  · have h4 : KERNBASE / PGSIZE ≤ a.kstack / PGSIZE - 1 := Nat.le_sub_one_of_lt h3
    have h5 : a.kstack / PGSIZE - 1 < PHYSTOP / PGSIZE := Nat.lt_of_le_of_lt (Nat.sub_le _ _) h2
    rw [h.kernEntry_ram h4 h5]
    exact kernelEntries_valid h4 h5

/-- **No live process has a guard page** below its kernel stack. -/
theorem kstackGuarded_iff (h : Reachable K k) : (k.Live i → KstackGuarded k i) ↔ (k.proc i).state = .UNUSED := by
  constructor
  · intro hg
    by_contra hi
    obtain ⟨a, ha⟩ := h.placed hi
    have hguard := (hg hi).guard
    rw [ha.kstack_mapped.2] at hguard
    cases hguard
  · intro hu hi
    exact absurd hu hi

theorem kstackGuarded_iff_small : Reachable smallImage smallKernel ∧
    ∃ j, ((smallKernel.Live j → KstackGuarded smallKernel j) ↔ (smallKernel.proc j).state = .UNUSED) := by
  obtain ⟨j, -⟩ := smallKernel_live
  exact ⟨smallKernel_reachable, j, kstackGuarded_iff smallKernel_reachable⟩

/-- The first process already has none. -/
theorem kstack_not_guarded : Reachable smallImage smallKernel ∧ ∃ j, smallKernel.Live j ∧
    ¬ KstackGuarded smallKernel j := by
  obtain ⟨j, hj, -⟩ := smallKernel_live
  obtain ⟨a, ha⟩ := smallKernel_reachable.placed hj
  refine ⟨smallKernel_reachable, j, hj, fun hg => ?_⟩
  have hguard := hg.guard
  rw [ha.kstack_mapped.2] at hguard
  cases hguard

end Xv6
