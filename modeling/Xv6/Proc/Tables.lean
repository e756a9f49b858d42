import Xv6.Kernel.Proc

/-!
# The page tables of a process

* `trapEntries`, `fixedEntries` — the entries that `proc_pagetable` and `allocproc` make above the
  user's memory.
* `UserMap` — a user page table: readable pages below `npages sz`, the fixed entries above.
* `procPagetable_spec`, `procFreepagetable_spec` — making and freeing one conserves the pages.
-/

namespace Xv6

open Prog Function

/-- Page numbers of the three fixed pages. -/
def trampolineVpn : Nat := TRAMPOLINE / PGSIZE
def trapframeVpn : Nat := TRAPFRAME / PGSIZE
def usyscallVpn : Nat := USYSCALL / PGSIZE

theorem trampolineVpn_eq : trampolineVpn = 2 ^ 26 - 1 := by decide
theorem trapframeVpn_eq : trapframeVpn = 2 ^ 26 - 2 := by decide
theorem usyscallVpn_eq : usyscallVpn = 2 ^ 26 - 3 := by decide

/-- What `proc_pagetable` maps. -/
def trapEntries (K : KernelImage) (trapframe : Nat) : Nat → Nat :=
  Function.update (Function.update (fun _ => 0) trampolineVpn (leafPte K.trampoline (PTE_R ||| PTE_X)))
    trapframeVpn (leafPte trapframe (PTE_R ||| PTE_W))

/-- With the page that `allocproc` and `exec` map at `USYSCALL`. -/
def fixedEntries (K : KernelImage) (trapframe usyscall : Nat) : Nat → Nat :=
  Function.update (trapEntries K trapframe) usyscallVpn (leafPte usyscall (PTE_R ||| PTE_U))

/-- A user page table with `n` pages of user memory and the entries `f` above them. -/
structure UserMap (e f : Nat → Nat) (n : Nat) : Prop where
  low : ∀ v, v < n → hasFlag (e v) PTE_V = true ∧ hasFlag (e v) PTE_R = true
  high : ∀ v, n ≤ v → v < vpns → e v = f v

theorem UserMap.isLeaf {e f : Nat → Nat} {n v : Nat} (h : UserMap e f n) (hv : v < n) : IsLeaf (e v) :=
  isLeaf_of_read (h.low v hv).1 (h.low v hv).2

section entries

variable {K : KernelImage} {tf us v : Nat}

theorem trapEntries_low (hv : v < trapframeVpn) : trapEntries K tf v = 0 := by
  have h1 : v ≠ trapframeVpn := by omega
  have h2 : v ≠ trampolineVpn := by
    rw [trapframeVpn_eq] at hv
    rw [trampolineVpn_eq]
    omega
  rw [trapEntries, update_of_ne h1, update_of_ne h2]

theorem fixedEntries_low (hv : v < usyscallVpn) : fixedEntries K tf us v = 0 := by
  have h1 : v ≠ usyscallVpn := by omega
  rw [fixedEntries, update_of_ne h1]
  apply trapEntries_low
  rw [usyscallVpn_eq] at hv
  rw [trapframeVpn_eq]
  omega

/-- Unmapping `USYSCALL` gives back what `proc_pagetable` made. -/
theorem fixedEntries_unmap : update (fixedEntries K tf us) usyscallVpn 0 = trapEntries K tf := by
  have h : trapEntries K tf usyscallVpn = 0 := trapEntries_low (by decide)
  rw [fixedEntries, update_idem, ← h, update_eq_self]

/-- Unmapping both pages of `proc_pagetable` leaves nothing. -/
theorem trapEntries_unmap :
    update (update (trapEntries K tf) trampolineVpn 0) trapframeVpn 0 = fun _ => 0 := by
  funext u
  by_cases h1 : u = trapframeVpn
  · rw [h1, update_self]
  · rw [update_of_ne h1]
    by_cases h2 : u = trampolineVpn
    · rw [h2, update_self]
    · rw [update_of_ne h2, trapEntries, update_of_ne h1, update_of_ne h2]

theorem isLeaf_trampoline : IsLeaf (trapEntries K tf trampolineVpn) := by
  have h : trampolineVpn ≠ trapframeVpn := by decide
  rw [trapEntries, update_of_ne h, update_self]
  exact isLeaf_leafPte (by decide) (by decide)

theorem isLeaf_trapframe : IsLeaf (trapEntries K tf trapframeVpn) := by
  rw [trapEntries, update_self]
  exact isLeaf_leafPte (by decide) (by decide)

theorem isLeaf_usyscall : IsLeaf (fixedEntries K tf us usyscallVpn) := by
  rw [fixedEntries, update_self]
  exact isLeaf_leafPte (by decide) (by decide)

end entries

theorem KernelImage.trampoline_pageAddr (K : KernelImage) : PageAddr K.trampoline := by
  have h1 := K.trampoline_eq
  have h2 := K.etext_aligned
  have h3 := K.etext_le
  have h4 := K.end_lt
  rw [PHYSTOP_eq] at h4
  simp only [PGSIZE] at h1 h2
  constructor
  · simp only [PGSIZE]
    omega
  · omega

/-! ## Making and freeing a user page table -/

section tables

variable {K : KernelImage} {s : Mem} {t tf sz : Nat} {T : Multiset Nat} {e : Nat → Nat} {E : Mem → Prop}

theorem npages_zero : npages 0 = 0 := by decide

/-- A page table without valid entries goes back to the allocator. -/
theorem uvmfree_empty_spec (h : PageTable s t T fun _ => 0) (ho : Owns K s T) :
    wp (uvmfree K t 0) (fun _ s' => Moves s T s' 0) E s := by
  have hnone : leafPages (fun _ => 0) 0 (npages 0) + T = T := by
    rw [npages_zero, leafPages_self, zero_add]
  have hfree := uvmfree_spec (E := E) h (ho.congr hnone.symm) (Nat.zero_le _) (fun _ _ _ => by decide)
    (Or.inl fun u hu => by rw [npages_zero] at hu; omega)
  rwa [hnone] at hfree

/-- **`proc_pagetable`** returns a table with the two fixed pages, or gives everything back; five free pages
are enough. -/
theorem procPagetable_spec (htf : PageAddr tf) (ho : Owns K s 0) :
    wp (procPagetable K tf) (fun r s' => (r = none ∧ s.freelist.length < 5 ∧ Moves s 0 s' 0) ∨
      ∃ t T, r = some t ∧ Moves s 0 s' T ∧ PageTable s' t T (trapEntries K tf) ∧
        s.freelist.length ≤ s'.freelist.length + 5) E s := by
  unfold procPagetable
  refine wp_seq uvmcreate_spec ?_
  rintro r s1 (⟨rfl, hnil, rfl⟩ | ⟨t, rs, rfl, hfl, hfl1, hm1, h1⟩)
  · exact Or.inl ⟨rfl, by rw [hnil]; decide, Moves.refl _ _⟩
  have hc1 : s.freelist.length = s1.freelist.length + 1 := by rw [hfl, hfl1, List.length_cons]
  have ho1 := ho.moves hm1
  refine wp_seq (mapPage_spec (by decide) h1 ho1 (by decide) K.trampoline_pageAddr
    (Or.inl ⟨by decide, by decide⟩)) ?_
  rintro r s2 ⟨T2, hm2, hr2, hc2, -⟩
  have hm12 := hm1.trans hm2
  have ho2 := ho.moves hm12
  obtain ⟨rfl, h2, -⟩ | ⟨rfl, h2, -, -, hshort2⟩ := hr2
  · rw [if_neg (by decide)]
    refine wp_seq (mapPage_spec (by decide) h2 ho2 (by decide) htf (Or.inl ⟨by decide, ?_⟩)) ?_
    · have hne : TRAPFRAME / PGSIZE ≠ TRAMPOLINE / PGSIZE := by decide
      rw [update_of_ne hne]
      decide
    rintro r s3 ⟨T3, hm3, hr3, hc3, -⟩
    have hm13 := hm12.trans hm3
    have ho3 := ho.moves hm13
    obtain ⟨rfl, h3, -⟩ | ⟨rfl, h3, -, -, hshort3⟩ := hr3
    · rw [if_neg (by decide)]
      exact Or.inr ⟨t, T3, rfl, hm13, h3, by omega⟩
    · -- the trampoline is unmapped again before the empty table is freed
      rw [if_pos (by decide)]
      refine wp_seq (uvmunmap_one_spec h3 ho3 (by decide) ⟨by decide, ?_⟩) ?_
      · rw [update_self]
        exact isLeaf_leafPte (by decide) (by decide)
      rintro - s4 ⟨hm4, h4⟩
      have hzero : update (update (fun _ => 0) (TRAMPOLINE / PGSIZE)
          (leafPte K.trampoline (PTE_R ||| PTE_X))) (TRAMPOLINE / PGSIZE) 0 = fun _ => 0 := by
        rw [update_idem]
        exact update_eq_self (TRAMPOLINE / PGSIZE) fun _ => 0
      rw [hzero] at h4
      refine wp_seq (uvmfree_empty_spec h4 (ho3.moves hm4)) ?_
      intro _ s5 hm5
      exact Or.inl ⟨rfl, by omega, (hm13.trans hm4).trans hm5⟩
  · rw [if_pos (by decide)]
    refine wp_seq (uvmfree_empty_spec h2 ho2) ?_
    intro _ s3 hm3
    exact Or.inl ⟨rfl, by omega, hm12.trans hm3⟩

/-- **`proc_freepagetable`** gives back the user's pages and the tables. -/
theorem procFreepagetable_spec (h : PageTable s t T e) (hu : UserMap e (trapEntries K tf) (npages sz))
    (hsz : sz ≤ MAXVA) (htop : npages sz ≤ trapframeVpn)
    (ho : Owns K s (leafPages e 0 (npages sz) + T)) :
    wp (procFreepagetable K t sz) (fun _ s' => Moves s (leafPages e 0 (npages sz) + T) s' 0) E s := by
  have hlt : trapframeVpn < vpns ∧ trampolineVpn < vpns ∧ trapframeVpn < trampolineVpn := by decide
  have hne : trapframeVpn ≠ trampolineVpn := by decide
  have htramp : e trampolineVpn = trapEntries K tf trampolineVpn := hu.high _ (by omega) hlt.2.1
  have htrap : e trapframeVpn = trapEntries K tf trapframeVpn := hu.high _ htop hlt.1
  unfold procFreepagetable
  refine wp_seq (uvmunmap_one_spec h ho.right (by decide) ⟨by decide, ?_⟩) ?_
  · exact htramp ▸ isLeaf_trampoline
  rintro - s1 ⟨hm1, h1⟩
  have hm1' := (hm1.add (leafPages e 0 (npages sz))).congr (add_comm _ _) (add_comm _ _)
  have ho1 := ho.moves hm1'
  refine wp_seq (uvmunmap_one_spec h1 ho1.right (by decide) ⟨by decide, ?_⟩) ?_
  · have h2 : TRAPFRAME / PGSIZE ≠ TRAMPOLINE / PGSIZE := by decide
    rw [update_of_ne h2]
    exact htrap ▸ isLeaf_trapframe
  rintro - s2 ⟨hm2, h2⟩
  have hm2' := (hm2.add (leafPages e 0 (npages sz))).congr (add_comm _ _) (add_comm _ _)
  have ho2 := ho1.moves hm2'
  -- below `npages sz` the two unmappings have changed nothing
  have hlow : ∀ u, u < npages sz → update (update e trampolineVpn 0) trapframeVpn 0 u =
      e u := by
    intro u hlow
    rw [update_of_ne (by omega), update_of_ne (by omega)]
  have hpages : leafPages (update (update e trampolineVpn 0) trapframeVpn 0) 0 (npages sz) =
      leafPages e 0 (npages sz) := leafPages_congr fun u _ hlt => hlow u hlt
  refine wp_mono (uvmfree_spec h2 (ho2.congr (by rw [← hpages]; rfl)) hsz ?_ (Or.inl ?_)) ?_ fun _ h => h
  · intro v hv hv'
    have hall : update (update (trapEntries K tf) trampolineVpn 0) trapframeVpn 0 v = 0 :=
      congrFun trapEntries_unmap v
    have hkeep : update (update e trampolineVpn 0) trapframeVpn 0 v = 0 := by
      rw [← hall]
      simp only [update_apply]
      split
      · rfl
      · split
        · rfl
        · exact hu.high v hv hv'
    exact (congrArg (fun w => hasFlag w PTE_V) hkeep).trans (by decide)
  · intro u hlt'
    refine (hlow u hlt').symm ▸ ?_
    exact hu.isLeaf hlt'
  · intro _ s3 hm3
    refine (hm1'.trans hm2').trans (hm3.congr ?_ rfl)
    rw [← hpages]
    rfl

/-! ## The page at `USYSCALL` -/

section usyscall

variable {us n : Nat}

theorem usyscallVpn_mul : USYSCALL / PGSIZE = usyscallVpn := rfl

/-- User memory does not reach `USYSCALL`. -/
theorem update_usyscall_low (hn : n ≤ usyscallVpn) (w : Nat) {v : Nat} (hv : v < n) :
    update e usyscallVpn w v = e v :=
  update_of_ne (Nat.ne_of_lt (Nat.lt_of_lt_of_le hv hn)) _ _

theorem leafPages_usyscall (hn : n ≤ usyscallVpn) (w : Nat) :
    leafPages (update e usyscallVpn w) 0 n = leafPages e 0 n :=
  leafPages_congr fun _ _ hv => update_usyscall_low hn w hv

theorem UserMap.setUsyscall (h : UserMap e (trapEntries K tf) n) (hn : n ≤ usyscallVpn) (us : Nat) :
    UserMap (update e usyscallVpn (leafPte us (PTE_R ||| PTE_U))) (fixedEntries K tf us) n where
  low v hv := by
    rw [update_usyscall_low hn _ hv]
    exact h.low v hv
  high v hv hlt := by
    by_cases hu : v = usyscallVpn
    · rw [hu, fixedEntries, update_self, update_self]
    · rw [fixedEntries, update_of_ne hu, update_of_ne hu]
      exact h.high v hv hlt

theorem UserMap.clearUsyscall (h : UserMap e (fixedEntries K tf us) n) (hn : n ≤ usyscallVpn) :
    UserMap (update e usyscallVpn 0) (trapEntries K tf) n where
  low v hv := by
    rw [update_usyscall_low hn _ hv]
    exact h.low v hv
  high v hv hlt := by
    rw [show trapEntries K tf = _ from fixedEntries_unmap.symm]
    by_cases hu : v = usyscallVpn
    · rw [hu, update_self, update_self]
    · rw [update_of_ne hu, update_of_ne hu]
      exact h.high v hv hlt

/-- The page at `USYSCALL` shares its leaf table with the trapframe, so mapping it needs no page. -/
theorem mapUsyscall_spec (ht : PageTable s t T e) (hmap : UserMap e (trapEntries K tf) n) (hn : n ≤ usyscallVpn)
    (ho : Owns K s T) (hus : PageAddr us) :
    wp (mappages t USYSCALL PGSIZE us (PTE_R ||| PTE_U)) (fun r s' => r = 0 ∧ ∃ T', Moves s T s' T' ∧
      PageTable s' t T' (update e usyscallVpn (leafPte us (PTE_R ||| PTE_U))) ∧
      s.freelist.length ≤ s'.freelist.length + 2) E s := by
  have hzero : e (USYSCALL / PGSIZE) = 0 := by
    rw [usyscallVpn_mul, hmap.high _ hn (by decide)]
    exact trapEntries_low (by decide)
  refine wp_mono (mapPage_spec (by decide) ht ho (by decide) hus
    (Or.inl ⟨by decide, by rw [hzero]; rfl⟩)) ?_ fun _ h => h
  rintro r s' ⟨T', hm', hr, hc', -⟩
  rcases hr with ⟨rfl, ht', -⟩ | ⟨-, -, -, hleaf, -⟩
  · exact ⟨rfl, T', hm', ht', hc'⟩
  · have hne : e trapframeVpn ≠ 0 := by
      intro h0
      have hl := @isLeaf_trapframe K tf
      rw [← hmap.high _ (Nat.le_trans hn (by decide)) (by decide), h0] at hl
      exact absurd hl.1 (by decide)
    obtain ⟨q, hq, -⟩ := ht.slot (by decide) hne
    rw [Mem.leafTable_block (show USYSCALL / PGSIZE / 512 = trapframeVpn / 512 by decide), hq] at hleaf
    cases hleaf

/-- Unmapping `USYSCALL`, as `freeproc` and `exec` do before they free a table. -/
theorem unmapUsyscall_spec (ht : PageTable s t T e) (hmap : UserMap e (fixedEntries K tf us) n)
    (hn : n ≤ usyscallVpn) (ho : Owns K s T) :
    wp (uvmunmap K t USYSCALL 1 false) (fun _ s' => Moves s T s' T ∧
      PageTable s' t T (update e usyscallVpn 0)) E s := by
  have hleaf : IsLeaf (e (USYSCALL / PGSIZE)) := by
    rw [usyscallVpn_mul, hmap.high usyscallVpn hn (by decide)]
    exact isLeaf_usyscall
  exact uvmunmap_one_spec ht ho (by decide) ⟨by decide, hleaf⟩

end usyscall

end tables

end Xv6
