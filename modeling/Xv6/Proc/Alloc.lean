import Xv6.Proc.Slot

/-!
# Making and freeing processes

* `freeproc_spec` — `freeproc` gives back every page of a process, also of one that is half built.
* `allocproc_spec` — `allocproc` fills a vacant slot with an empty address space, or leaves it vacant.

`freeproc` on a slot that was never used frees the virtual address of its stack, and `kfree` panics.
-/

namespace Xv6

open Prog Kernel

/-- A page that may be missing. -/
def optPage (x : Nat) : Multiset Nat := if x = 0 then 0 else {x}

/-- What `freeproc` leaves of a record. -/
def Proc.freed (p : Proc) : Proc :=
  { p with trapframe := 0, pagetable := 0, usyscall := 0, kstack := 0, kpagetable := 0, sz := 0, pid := 0,
           parent := none, name := [], killed := false, xstate := 0, state := .UNUSED }

/-- The entries above user memory: `USYSCALL` is mapped when there is a page for it. -/
def topEntries (K : KernelImage) (tf us : Nat) : Nat → Nat :=
  if us = 0 then trapEntries K tf else fixedEntries K tf us

/-- The user page table of a process, built or not, with the pages behind it. -/
def UserPart (K : KernelImage) (s : Mem) (p : Proc) (U : Multiset Nat) : Prop :=
  p.pagetable = 0 ∧ U = 0 ∨ p.pagetable ≠ 0 ∧ p.sz ≤ USER_TOP - PGSIZE ∧ ∃ T e tf,
    PageTable s p.pagetable T e ∧ UserMap e (topEntries K tf p.usyscall) (npages p.sz) ∧
    U = leafPages e 0 (npages p.sz) + T

/-- The kernel page table of a process, built or not. -/
def KernPart (s : Mem) (p : Proc) (V : Multiset Nat) : Prop :=
  p.kpagetable = 0 ∧ V = 0 ∨ p.kpagetable ≠ 0 ∧ ∃ e, PageTable s p.kpagetable V e ∧
    ∀ v, v < vpns → ReadableLeaf (e v)

section free

variable {K : KernelImage} {s s' : Mem} {p : Proc} {U V G : Multiset Nat} {P : String → Prop} {H : Prop}

theorem UserPart.congr (h : UserPart K s p U) (hU : ∀ a ∈ U, s'.page a = s.page a) : UserPart K s' p U := by
  refine h.imp_right ?_
  rintro ⟨hne, hsz, T, e, tf, ht, hmap, rfl⟩
  exact ⟨hne, hsz, T, e, tf, ht.congr fun a ha => hU a (Multiset.mem_add.2 (Or.inr ha)), hmap, rfl⟩

theorem KernPart.congr (h : KernPart s p V) (hV : ∀ a ∈ V, s'.page a = s.page a) : KernPart s' p V := by
  refine h.imp_right ?_
  rintro ⟨hne, e, ht, hleaf⟩
  exact ⟨hne, e, ht.congr hV, hleaf⟩

/-- `if(x) kfree(x)`. -/
theorem kfree_opt_spec {x : Nat} (ho : Owns K s (optPage x)) :
    wpm (if x ≠ 0 then kfree K x else pure ()) (fun _ s' => Moves s (optPage x) s' 0) P H s := by
  unfold optPage at *
  by_cases hx : x = 0
  · rw [if_neg (by simpa using hx), if_pos hx]
    exact Moves.refl s 0
  · rw [if_neg hx] at ho ⊢
    rw [if_pos hx]
    refine wpm_mono (wpm_of_wp (kfree_spec (F := 0) ho)) ?_
    rintro _ s' ⟨hm, -, -⟩
    exact hm

/-- Both steps of `freeproc` on the user page table. -/
theorem freeUser_spec (h : UserPart K s p U) (ho : Owns K s U) :
    wpm (if p.pagetable ≠ 0 ∧ p.usyscall ≠ 0 then uvmunmap K p.pagetable USYSCALL 1 false else pure ())
      (fun _ s1 => Owns K s1 U ∧ Moves s U s1 U ∧
        wpm (if p.pagetable ≠ 0 then procFreepagetable K p.pagetable p.sz else pure ())
          (fun _ s2 => Moves s1 U s2 0) P H s1) P H s := by
  rcases h with ⟨h0, rfl⟩ | ⟨hne, hsz, T, e, tf, ht, hmap, rfl⟩
  · rw [if_neg fun hc => hc.1 h0, wpm_pure, if_neg (by simpa using h0)]
    exact ⟨ho, Moves.refl _ _, Moves.refl _ _⟩
  have hlt := Space.npages_lt_user hsz
  have htop : npages p.sz ≤ usyscallVpn := Nat.le_trans (Nat.le_of_lt hlt) (by decide)
  have hmax : p.sz ≤ MAXVA := Nat.le_trans hsz (by decide)
  rw [if_pos hne]
  unfold topEntries at hmap
  by_cases hus : p.usyscall = 0
  · rw [if_neg fun hc => hc.2 hus, wpm_pure]
    rw [if_pos hus] at hmap
    refine ⟨ho, Moves.refl _ _, wpm_of_wp (procFreepagetable_spec ht hmap hmax ?_ ho)⟩
    exact Nat.le_trans htop (by decide)
  · rw [if_pos ⟨hne, hus⟩]
    rw [if_neg hus] at hmap
    refine wpm_mono (wpm_of_wp (unmapUsyscall_spec ht hmap htop ho.right)) ?_
    rintro _ s1 ⟨hm1, ht1⟩
    have hm1' : Moves s (leafPages e 0 (npages p.sz) + T) s1 (leafPages e 0 (npages p.sz) + T) :=
      (hm1.add (leafPages e 0 (npages p.sz))).congr (add_comm _ _) (add_comm _ _)
    have hpages := leafPages_usyscall (e := e) htop 0
    refine ⟨ho.moves hm1', hm1', ?_⟩
    have hfree := procFreepagetable_spec (E := fun _ => False) ht1 (hmap.clearUsyscall htop) hmax
      (Nat.le_trans htop (by decide)) (by rw [hpages]; exact ho.moves hm1')
    rw [hpages] at hfree
    exact wpm_of_wp hfree

/-- Both steps of `freeproc` on the kernel page table; `kvmdealloc` does nothing. -/
theorem freeKern_spec (h : KernPart s p V) (ho : Owns K s V) :
    wpm (if p.kpagetable ≠ 0 then procFreeKpagetable K p.kpagetable else pure ())
      (fun _ s' => Moves s V s' 0) P H s := by
  rcases h with ⟨h0, rfl⟩ | ⟨hne, e, ht, hleaf⟩
  · rw [if_neg (by simpa using h0)]
    exact Moves.refl _ _
  · rw [if_pos hne]
    exact wpm_of_wp (procFreeKpagetable_spec ht ho fun v hv hV => (hleaf v hv).not_pointer hV)

theorem kvmdealloc_eq (pagetable oldsz newsz : Nat) : kvmdealloc pagetable oldsz newsz = pure () := by
  unfold kvmdealloc
  split <;> rfl

end free

section freeproc

variable {K : KernelImage} {k : Kernel} {j : Fin NPROC} {m : Mem} {p : Proc} {U V S : Multiset Nat}
  {P : String → Prop} {H : Prop}

/-- `if(p->usyscall){ kfree(p->usyscall); p->usyscall = 0; }`. -/
theorem freeUsyscall_spec {q : Proc} (hq : q.usyscall = p.usyscall) (ho : Owns K m (optPage p.usyscall)) :
    wpm (if p.usyscall ≠ 0 then do
        vm (kfree K p.usyscall)
        modifyProc j fun p => { p with usyscall := 0 }
      else pure ()) (fun _ k' => ∃ m', k' = k.put m' j { q with usyscall := 0 } ∧
        Moves m (optPage p.usyscall) m' 0) P H (k.put m j q) := by
  have hfree := kfree_opt_spec (P := P) (H := H) ho
  by_cases hus : p.usyscall = 0
  · rw [if_neg (by simpa using hus)] at hfree ⊢
    refine ⟨m, ?_, hfree⟩
    rw [show ({ q with usyscall := 0 } : Proc) = q by rw [← hus, ← hq]]
  · rw [if_pos hus] at hfree ⊢
    rw [wpm_bind, wpm_vm_put]
    refine wpm_mono hfree ?_
    intro _ m1 hm1
    rw [wpm_modifyProc_put]
    exact ⟨m1, rfl, hm1⟩

/-- The kernel stack; an address that is no page of the allocator makes `kfree` panic. -/
theorem freeStack_spec (ho : Owns K m S)
    (hS : S = optPage p.kstack ∨ p.kstack ≠ 0 ∧ ¬ Managed K p.kstack ∧ P "kfree") :
    wpm (if p.kstack ≠ 0 then kfree K p.kstack else pure ()) (fun _ m' => Moves m S m' 0) P H m := by
  rcases hS with rfl | ⟨hne, hbad, hP⟩
  · exact kfree_opt_spec ho
  · rw [if_pos hne]
    unfold kfree
    rw [if_pos]
    · exact hP
    · unfold Managed at hbad
      omega

/-- **`freeproc`** gives back everything that the process owns. -/
theorem freeproc_spec (hu : UserPart K m p U) (hk : KernPart m p V)
    (ho : Owns K m (optPage p.trapframe + U + optPage p.usyscall + S + V))
    (hS : S = optPage p.kstack ∨ p.kstack ≠ 0 ∧ ¬ Managed K p.kstack ∧ P "kfree") :
    wpm (freeproc K j) (fun _ k' => ∃ m', k' = k.put m' j p.freed ∧
      Moves m (optPage p.trapframe + U + optPage p.usyscall + S + V) m' 0) P H (k.put m j p) := by
  have ho0 : Owns K m (optPage p.trapframe + (U + (optPage p.usyscall + S))) := ho.left.congr (by abel)
  unfold freeproc
  rw [wpm_bind, wpm_readProc_put, wpm_bind, wpm_vm_ite]
  refine wpm_mono (kfree_opt_spec ho0.left) ?_
  intro _ m1 hm1
  have hm1' := (hm1.add (U + (optPage p.usyscall + S))).congr rfl (zero_add _)
  have hu1 : UserPart K m1 p U := hu.congr fun a ha => ho0.page_eq hm1 (Multiset.mem_add.2 (Or.inl ha))
  have ho1 := ho0.moves hm1'
  rw [wpm_bind, wpm_modifyProc_put, wpm_bind, wpm_vm_ite]
  refine wpm_mono (freeUser_spec hu1 ho1.left) ?_
  rintro _ m2 ⟨-, hm2, hfree2⟩
  rw [wpm_bind, wpm_vm_ite]
  refine wpm_mono hfree2 ?_
  intro _ m3 hm3
  have hm3' := ((hm2.trans hm3).add (optPage p.usyscall + S)).congr rfl (zero_add _)
  have ho3 := ho1.moves hm3'
  rw [wpm_bind, wpm_modifyProc_put, wpm_bind]
  refine wpm_mono (freeUsyscall_spec rfl ho3.left) ?_
  rintro _ _ ⟨m4, rfl, hm4⟩
  have hm4' := (hm4.add S).congr rfl (zero_add _)
  rw [wpm_bind, wpm_vm_ite]
  refine wpm_mono (freeStack_spec (ho3.moves hm4') hS) ?_
  intro _ m5 hm5
  -- nothing so far has touched the kernel page table
  have hall : Moves m (optPage p.trapframe + U + optPage p.usyscall + S) m5 0 :=
    (hm1'.trans (hm3'.trans (hm4'.trans hm5))).congr (by abel) rfl
  have hk5 : KernPart m5 p V := hk.congr fun a ha => ho.page_eq hall ha
  have ho5 : Owns K m5 V := (ho.moves (hall.add V)).congr (zero_add V)
  rw [wpm_bind, wpm_modifyProc_put, wpm_bind, wpm_vm_ite, kvmdealloc_eq, ite_self, wpm_pure, wpm_bind, wpm_vm_ite]
  refine wpm_mono (freeKern_spec hk5 ho5) ?_
  intro _ m6 hm6
  rw [wpm_modifyProc_put]
  exact ⟨m6, rfl, (hall.add V).trans (hm6.congr (zero_add V).symm rfl)⟩

/-- `freeproc(p); release(&p->lock); return 0`. -/
theorem allocFail_spec (hu : UserPart K m p U) (hk : KernPart m p V)
    (ho : Owns K m (optPage p.trapframe + U + optPage p.usyscall + S + V))
    (hS : S = optPage p.kstack ∨ p.kstack ≠ 0 ∧ ¬ Managed K p.kstack ∧ P "kfree") :
    wpm (allocFail K j) (fun r k' => r = none ∧ ∃ m', k' = k.put m' j { p.freed with locked := false } ∧
      Moves m (optPage p.trapframe + U + optPage p.usyscall + S + V) m' 0) P H (k.put m j p) := by
  unfold allocFail
  refine wpm_seq (freeproc_spec hu hk ho hS) ?_
  rintro _ _ ⟨m1, rfl, hm1⟩
  unfold release
  rw [wpm_bind, wpm_modifyProc_put]
  exact ⟨rfl, m1, rfl, hm1⟩

end freeproc

/-! ## `allocproc` -/

theorem kstack_not_managed (K : KernelImage) {i : Nat} (hi : i < NPROC) :
    KSTACK i ≠ 0 ∧ ¬ Managed K (KSTACK i) := by
  have hge : PHYSTOP ≤ KSTACK i := by
    rw [PHYSTOP_eq]
    unfold KSTACK TRAMPOLINE
    simp only [MAXVA, PGSIZE, NPROC] at *
    omega
  constructor
  · intro h0
    rw [h0] at hge
    exact absurd hge (by decide)
  · rintro ⟨-, -, hlt⟩
    omega

theorem optPage_of_ne {x : Nat} (h : x ≠ 0) : optPage x = {x} := if_neg h

theorem optPage_zero : optPage 0 = 0 := rfl

section alloc

variable {K : KernelImage} {k : Kernel} {j : Fin NPROC} {m : Mem} {p : Proc} {T : Multiset Nat}
  {P : String → Prop} {H : Prop} {tf us : Nat}

/-- The stack address of a vacant slot is null, or one that `kfree` refuses. -/
theorem vacant_stack (hks : p.kstack = 0 ∨ p.kstack = KSTACK j) (hP : P "kfree") :
    0 = optPage p.kstack ∨ p.kstack ≠ 0 ∧ ¬ Managed K p.kstack ∧ P "kfree" := by
  rcases hks with h0 | hK
  · rw [h0]
    exact Or.inl rfl
  · obtain ⟨hne, hbad⟩ := kstack_not_managed K j.isLt
    exact Or.inr ⟨by rw [hK]; exact hne, by rw [hK]; exact hbad, hP⟩

theorem kstackVpn_lt (j : Fin NPROC) : trampolineVpn - 512 < kstackVpn j ∧ kstackVpn j < trampolineVpn - 2 := by
  have hj := j.isLt
  rw [kstackVpn_eq hj, trampolineVpn_eq]
  simp only [NPROC] at hj
  omega

/-- Above physical memory only the trampoline is mapped. -/
theorem kernelEntries_high (K : KernelImage) {v : Nat} (hv : PHYSTOP / PGSIZE ≤ v) (hlt : v < trampolineVpn) :
    kernelEntries K v = 0 := by
  have hmid : K.etext / PGSIZE ≤ v := Nat.le_trans (Nat.div_le_div_right (Nat.le_of_lt K.etext_le_phystop)) hv
  have text := K.text_range
  have data := K.data_range
  unfold kernelEntries
  rw [mapped_below hlt, mapped_above (Nat.le_of_eq data.top) hv, mapped_above (Nat.le_of_eq text.top) hmid]
  exact deviceEntries_ram (Nat.le_trans (by decide) hv)

/-- A user page table without user memory. -/
theorem userPart_empty {e : Nat → Nat} (ht : PageTable m p.pagetable T e)
    (he : e = topEntries K tf p.usyscall) (hsz : p.sz = 0) (hne : p.pagetable ≠ 0) : UserPart K m p T := by
  refine Or.inr ⟨hne, by rw [hsz]; exact Nat.zero_le _, T, e, tf, ht, ⟨?_, ?_⟩, ?_⟩
  · intro v hv
    rw [hsz, npages_zero] at hv
    exact absurd hv (Nat.not_lt_zero v)
  · intro v _ _
    rw [he]
  · rw [hsz, npages_zero, leafPages_self, zero_add]

theorem kernPart_none (h : p.kpagetable = 0) : KernPart m p 0 := Or.inl ⟨h, rfl⟩

theorem KSTACK_aligned {i : Nat} (hi : i < NPROC) : KSTACK i % PGSIZE = 0 ∧ KSTACK i + PGSIZE ≤ MAXVA := by
  unfold KSTACK TRAMPOLINE
  simp only [MAXVA, PGSIZE, NPROC] at *
  omega

/-- `kvmmap` of the kernel stack. -/
theorem mapStack_spec {kt pa : Nat} {KT : Multiset Nat} (hkt : PageTable m kt KT (kernelEntries K))
    (ho : Owns K m KT) (hpa : PageAddr pa) (hP : 2 ≤ m.freelist.length ∨ P "kvmmap") :
    wpm (kvmmap kt (KSTACK j) pa PGSIZE (PTE_R ||| PTE_W)) (fun _ m' => ∃ KT', Moves m KT m' KT' ∧
      PageTable m' kt KT' (stackEntries K j pa) ∧ m.freelist.length ≤ m'.freelist.length + 2) P H m := by
  have hal := KSTACK_aligned j.isLt
  have hvpn := kstackVpn_lt j
  have hend : pa + PGSIZE ≤ 2 ^ 64 := by
    obtain ⟨h1, h2⟩ := hpa
    simp only [PGSIZE] at *
    omega
  have hneed : tableNeed m kt (KSTACK j / PGSIZE) (PGSIZE / PGSIZE) ≤ 2 := by
    refine Nat.le_trans tableNeed_le_rangeNeed ?_
    unfold rangeNeed
    rw [Nat.div_self (by decide), Nat.add_sub_cancel, Nat.sub_self]
  refine wpm_mono (kvmmap_spec (by decide) hkt ho hal.1 (by decide) (by decide) hend hal.2 ?_
    (hP.imp_left (Nat.le_trans hneed))) ?_
  · intro u hu hu'
    have huv : u = kstackVpn j := by
      rw [Nat.div_self (by decide)] at hu'
      exact Nat.le_antisymm (Nat.le_of_lt_succ hu') hu
    rw [huv, kernelEntries_high K (Nat.le_trans (by decide) (Nat.le_of_lt hvpn.1)) (by omega)]
    rfl
  · rintro - m' ⟨KT', hm', hkt', hc⟩
    have hcost := Nat.le_trans hc (Nat.add_le_add_left hneed _)
    rw [Nat.div_self (by decide), mapRange_one] at hkt'
    exact ⟨KT', hm', hkt', hcost⟩

/-- Enough pages for the kernel page table and the stack of a process. -/
def KERN_PAGES : Nat := KPT_PAGES + 3

/-- Enough pages for a process without user memory. -/
def PROC_PAGES : Nat := KERN_PAGES + 9

/-- The kernel's half of a new process: its page table and its stack. -/
theorem allocKernel_spec (ht : PageTable m p.pagetable T (fixedEntries K tf us))
    (htf : p.trapframe = tf) (hus : p.usyscall = us) (hsz : p.sz = 0) (hkpt : p.kpagetable = 0)
    (hks : p.kstack = 0 ∨ p.kstack = KSTACK j) (ho : Owns K m ({tf} + T + {us}))
    (hP : KERN_PAGES ≤ m.freelist.length ∨ P "kvmmap" ∧ P "kfree") :
    wpm (allocKernel K j) (fun r k' =>
      (r = none ∧ m.freelist.length < KERN_PAGES ∧
        ∃ m' b, k' = k.put m' j { p.freed with locked := b } ∧ Moves m ({tf} + T + {us}) m' 0) ∨
      ∃ m' kt ks KT, r = some j ∧ k' = k.put m' j { p with kpagetable := kt, kstack := ks } ∧
        Moves m ({tf} + T + {us}) m' ({tf} + {us} + {ks} + T + KT) ∧
        PageTable m' p.pagetable T (fixedEntries K tf us) ∧ PageTable m' kt KT (stackEntries K j ks) ∧
        m'.page us = m.page us ∧ m.freelist.length ≤ m'.freelist.length + KERN_PAGES) P H (k.put m j p) := by
  have hpages : KERN_PAGES = KPT_PAGES + 3 := rfl
  have hmem : ∀ a ∈ ({tf} : Multiset Nat) + T + {us}, Managed K a := fun a ha =>
    ho.managed a (Multiset.mem_add.2 (Or.inl ha))
  have hne_tf : p.trapframe ≠ 0 := htf ▸ (hmem tf (by simp)).ne_zero
  have hne_us : p.usyscall ≠ 0 := hus ▸ (hmem us (by simp)).ne_zero
  have hne_pt : p.pagetable ≠ 0 := (hmem _ (by simp [ht.root_mem])).ne_zero
  have htop : fixedEntries K tf us = topEntries K tf p.usyscall := by
    unfold topEntries
    rw [if_neg hne_us, hus]
  have hopt : ∀ W : Multiset Nat, optPage p.trapframe + T + optPage p.usyscall + 0 + W = {tf} + T + {us} + W := by
    intro W
    rw [optPage_of_ne hne_tf, optPage_of_ne hne_us, htf, hus, add_zero]
  have ho0 : Owns K m (0 + ({tf} + T + {us})) := ho.congr (zero_add _).symm
  unfold allocKernel
  rw [wpm_bind, wpm_vm_put]
  refine wpm_mono (procKpagetableInit_spec ho0.left (hP.imp (fun h => by omega) And.left)) ?_
  rintro r m1 (⟨rfl, hnil, rfl⟩ | ⟨kt, rfl, KT, hm1, hkt, hc1⟩)
  · have hshort : m1.freelist.length < KERN_PAGES := by
      rw [hnil]
      decide
    have hP' := (hP.resolve_left (Nat.not_le.2 hshort)).2
    have ho1 : Owns K m1 (optPage p.trapframe + T + optPage p.usyscall + 0 + 0) := by
      rw [hopt, add_zero]
      exact ho
    refine wpm_mono (allocFail_spec (userPart_empty ht htop hsz hne_pt) (kernPart_none hkpt) ho1
      (vacant_stack hks hP')) ?_
    rintro r k' ⟨rfl, m2, rfl, hm2⟩
    rw [hopt, add_zero] at hm2
    exact Or.inl ⟨rfl, hshort, m2, false, rfl, hm2⟩
  have hpt1 : PageTable m1 p.pagetable T (fixedEntries K tf us) :=
    ht.congr fun a ha => ho0.page_eq hm1 (by simp [ha])
  have ho1 : Owns K m1 (KT + ({tf} + T + {us})) := ho0.moves (hm1.add _)
  have hne_kt : kt ≠ 0 := (ho1.managed kt (by simp [hkt.root_mem])).ne_zero
  rw [wpm_bind, wpm_modifyProc_put, wpm_bind, wpm_vm_put]
  refine wpm_mono (wpm_of_wp kalloc_spec) ?_
  rintro r m2 (⟨rfl, hnil, rfl⟩ | ⟨pa, rs, rfl, hfl, rfl⟩)
  · -- no page for the stack: the lock stays taken
    have hshort : m.freelist.length < KERN_PAGES := by
      rw [hnil, List.length_nil] at hc1
      omega
    have hP' := (hP.resolve_left (Nat.not_le.2 hshort)).2
    have hk : KernPart m2 { p with kpagetable := kt } KT :=
      Or.inr ⟨hne_kt, _, hkt, fun v _ => kernelEntries_readableLeaf K v⟩
    have ho2 : Owns K m2 (optPage p.trapframe + T + optPage p.usyscall + 0 + KT) := by
      rw [hopt, add_comm]
      exact ho1
    have hu : UserPart K m2 { p with kpagetable := kt } T := userPart_empty hpt1 htop hsz hne_pt
    refine wpm_seq (freeproc_spec hu hk ho2 (vacant_stack hks hP')) ?_
    rintro _ _ ⟨m3, rfl, hm3⟩
    refine Or.inl ⟨rfl, hshort, m3, p.locked, rfl, ?_⟩
    have hm1' := hm1.add ({tf} + T + {us})
    refine (hm1'.congr (zero_add _) ?_).trans hm3
    show KT + ({tf} + T + {us}) = optPage p.trapframe + T + optPage p.usyscall + 0 + KT
    rw [hopt, add_comm]
  · have hm2 := kalloc_moves hfl 0 5
    have ho1' : Owns K m1 (0 + (KT + ({tf} + T + {us}))) := ho1.congr (zero_add _).symm
    have hpa : PageAddr pa :=
      (ho1.managed pa (Multiset.mem_add.2 (Or.inr (by rw [hfl]; exact List.mem_cons_self)))).pageAddr
    have hkt2 := hkt.congr fun a ha => ho1'.page_eq hm2 (by simp [ha])
    have hpt2 := hpt1.congr fun a ha => ho1'.page_eq hm2 (by simp [ha])
    have ho2 := (ho1'.moves (hm2.add _)).congr
      (show pa ::ₘ 0 + (KT + ({tf} + T + {us})) = KT + ({pa} + ({tf} + T + {us})) by
        rw [Multiset.cons_zero]; abel)
    rw [wpm_bind, wpm_modifyProc_put, wpm_bind, wpm_vm_put]
    have hlen : m1.freelist.length = rs.length + 1 := by rw [hfl, List.length_cons]
    refine wpm_mono (mapStack_spec hkt2 ho2.left hpa (hP.imp (fun h => ?_) And.left)) ?_
    · show 2 ≤ rs.length
      omega
    rintro _ m3 ⟨KT', hm3, hkt3, hc3⟩
    have hc3 : rs.length ≤ m3.freelist.length + 2 := hc3
    refine Or.inr ⟨m3, kt, pa, KT', rfl, rfl, ?_, ?_, hkt3, ?_, by omega⟩
    · have hm12 : Moves m ({tf} + T + {us}) _ (KT + ({pa} + ({tf} + T + {us}))) :=
        ((hm1.add ({tf} + T + {us})).congr (zero_add _) rfl).trans
          ((hm2.add (KT + ({tf} + T + {us}))).congr (zero_add _) (by rw [Multiset.cons_zero]; abel))
      exact (hm12.trans (hm3.add _)).congr rfl (by abel)
    · exact hpt2.congr fun a ha => ho2.page_eq hm3 (by simp [ha])
    · exact (ho2.page_eq hm3 (by simp)).trans ((ho1'.page_eq hm2 (by simp)).trans (ho0.page_eq hm1 (by simp)))

end alloc

section locks

variable {k : Kernel} {i : Fin NPROC} {P : String → Prop} {H : Prop}

theorem acquire_spec (hH : (k.proc i).locked = false ∨ H) :
    wpm (acquire i) (fun _ k' => (k.proc i).locked = false ∧
      k' = k.put k.mem i { k.proc i with locked := true }) P H k := by
  unfold acquire
  rw [wpm_bind, wpm_readProc]
  split
  · rename_i hl
    rw [wpm_hang]
    refine hH.resolve_left ?_
    rw [hl]
    decide
  · rename_i hl
    exact ⟨Bool.eq_false_iff.2 hl, rfl⟩

/-- Taking and giving back a lock changes nothing. -/
theorem put_unlock (hl : (k.proc i).locked = false) :
    (k.put k.mem i { k.proc i with locked := true }).put k.mem i { k.proc i with locked := false } = k := by
  rw [put_put, show ({ k.proc i with locked := false } : Proc) = k.proc i by rw [← hl], put_self]

theorem release_back (hl : (k.proc i).locked = false) :
    wpm (release i) (fun _ k' => k' = k) P H (k.put k.mem i { k.proc i with locked := true }) := by
  unfold release
  rw [wpm_modifyProc_put, ← put_put]
  exact put_unlock hl

theorem findUnused_spec (is : List (Fin NPROC)) (hH : (∀ i ∈ is, (k.proc i).locked = false) ∨ H) :
    wpm (findUnused is) (fun r k' =>
      (r = none ∧ k' = k ∧ ∀ i ∈ is, (k.proc i).state ≠ .UNUSED) ∨
      ∃ i ∈ is, r = some i ∧ (k.proc i).state = .UNUSED ∧ (k.proc i).locked = false ∧
        k' = k.put k.mem i { k.proc i with locked := true }) P H k := by
  induction is with
  | nil => exact Or.inl ⟨rfl, rfl, fun i hi => absurd hi List.not_mem_nil⟩
  | cons i is ih =>
    have hi : (k.proc i).locked = false ∨ H := hH.imp_left fun h => h i List.mem_cons_self
    unfold findUnused
    refine wpm_seq (acquire_spec hi) ?_
    rintro _ _ ⟨hl, rfl⟩
    rw [wpm_bind, wpm_readProc_put]
    split
    · rename_i hs
      exact Or.inr ⟨i, List.mem_cons_self, rfl, hs, hl, rfl⟩
    · rename_i hs
      refine wpm_seq (release_back hl) ?_
      rintro _ k₁ rfl
      refine wpm_mono (ih (hH.imp_left fun h i hi => h i (List.mem_cons_of_mem _ hi))) ?_
      rintro r k' (⟨rfl, rfl, hnone⟩ | ⟨i', hi', hr⟩)
      · refine Or.inl ⟨rfl, rfl, fun i' hi' => ?_⟩
        rcases List.mem_cons.1 hi' with rfl | hi'
        · exact hs
        · exact hnone i' hi'
      · exact Or.inr ⟨i', List.mem_cons_of_mem _ hi', hr⟩

end locks

section allocproc

variable {K : KernelImage} {k : Kernel} {j : Fin NPROC} {m : Mem} {p : Proc} {P : String → Prop} {H : Prop}

/-- The empty address space of a new process. -/
def Space.empty (K : KernelImage) (i tf us ks : Nat) : Space where
  sz := 0
  user := fixedEntries K tf us
  kern := stackEntries K i ks
  trapframe := tf
  usyscall := us
  kstack := ks

theorem Space.empty_wf (K : KernelImage) (i tf us ks : Nat) : (Space.empty K i tf us ks).WF K i where
  map := ⟨fun v hv => absurd hv (by rw [show npages (Space.empty K i tf us ks).sz = 0 from npages_zero]; omega),
    fun _ _ _ => rfl⟩
  size := Nat.zero_le _
  high _ _ _ := rfl
  leaf v _ := stackEntries_readableLeaf K i ks v

/-- The record of a new process. -/
def Proc.born (p : Proc) (pid tf pt us kt ks : Nat) : Proc :=
  { p with locked := true, pid := pid, state := .USED, trapframe := tf, pagetable := pt, usyscall := us,
           kpagetable := kt, kstack := ks }

/-- `allocproc` has found slot `j` and left it vacant again. -/
def AllocFailed (k : Kernel) (j : Fin NPROC) (k' : Kernel) : Prop :=
  ∃ m' b, k' = { k with nextpid := k.nextpid + 1 }.put m' j { (k.proc j).freed with locked := b } ∧
    Moves k.mem 0 m' 0

/-- `allocproc` has made a process in slot `j`. -/
def Allocated (K : KernelImage) (k : Kernel) (j : Fin NPROC) (k' : Kernel) : Prop :=
  ∃ m' tf pt us kt ks T KT,
    k' = { k with nextpid := k.nextpid + 1 }.put m' j ((k.proc j).born k.nextpid tf pt us kt ks) ∧
    Moves k.mem 0 m' ((Space.empty K j tf us ks).pages T KT) ∧
    PageTable m' pt T (fixedEntries K tf us) ∧ PageTable m' kt KT (stackEntries K j ks) ∧
    m'.pidAt us = k.nextpid % 2 ^ 32

/-- The pages of a process under construction. -/
theorem allocFail_vacant {U F : Multiset Nat} (hu : UserPart K m p U) (hkpt : p.kpagetable = 0)
    (hks : p.kstack = 0 ∨ p.kstack = KSTACK j) (hF : optPage p.trapframe + U + optPage p.usyscall = F)
    (ho : Owns K m F) (hP' : P "kfree") :
    wpm (allocFail K j) (fun r k' => r = none ∧ ∃ m', k' = k.put m' j { p.freed with locked := false } ∧
      Moves m F m' 0) P H (k.put m j p) := by
  have hsum : optPage p.trapframe + U + optPage p.usyscall + 0 + 0 = F := by rw [add_zero, add_zero, hF]
  refine wpm_mono (allocFail_spec hu (kernPart_none hkpt) (ho.congr hsum.symm) (vacant_stack hks hP')) ?_
  rintro r k' ⟨rfl, m', rfl, hm'⟩
  exact ⟨rfl, m', rfl, hm'.congr hsum rfl⟩

theorem setField_moves {s : Mem} {F : Multiset Nat} {pa off n v : Nat} (h : pa ∈ F) :
    Moves s F (s.setField pa off n v) F := page_moves h _

theorem pidAt_setField (s : Mem) (us pid : Nat) : (s.setField us 0 4 pid).pidAt us = pid % 2 ^ 32 := by
  unfold Mem.pidAt Mem.setField
  dsimp only
  rw [Function.update_self, ByteStore.readLE_writeLE _ _ _ _ fun i _ hi => show i < PGSIZE from
    Nat.lt_trans hi (by decide)]
  rfl

/-- The user's half of a new process, from the call of `proc_pagetable` on. -/
theorem allocUser_spec {tf pid : Nat} (hv : Vacant j { p with state := .UNUSED, trapframe := 0 })
    (htf : p.trapframe = tf) (ho : Owns K m {tf})
    (hP : KERN_PAGES + 8 ≤ m.freelist.length ∨ P "kvmmap" ∧ P "kfree") :
    wpm (allocUser K j pid tf)
      (fun r k' => (r = none ∧ m.freelist.length < KERN_PAGES + 8 ∧
          ∃ m' b, k' = k.put m' j { p.freed with locked := b } ∧ Moves m {tf} m' 0) ∨
        ∃ m' pt us kt ks T KT, r = some j ∧
          k' = k.put m' j { p with pagetable := pt, usyscall := us, kpagetable := kt, kstack := ks } ∧
          Moves m {tf} m' ((Space.empty K j tf us ks).pages T KT) ∧
          PageTable m' pt T (fixedEntries K tf us) ∧ PageTable m' kt KT (stackEntries K j ks) ∧
          m'.pidAt us = pid % 2 ^ 32 ∧ m.freelist.length ≤ m'.freelist.length + (KERN_PAGES + 8)) P H
        (k.put m j p) := by
  have hus : p.usyscall = 0 := hv.usyscall
  have hpa : PageAddr tf := (ho.managed tf (by simp)).pageAddr
  have hne_tf : p.trapframe ≠ 0 := htf ▸ (ho.managed tf (by simp)).ne_zero
  have hopt : optPage p.trapframe = {tf} := by rw [optPage_of_ne hne_tf, htf]
  have ho0 : Owns K m (0 + {tf}) := ho.congr (zero_add _).symm
  unfold allocUser
  rw [wpm_bind, wpm_vm_put]
  refine wpm_mono (wpm_of_wp (procPagetable_spec hpa ho0.left)) ?_
  rintro r m1 (⟨rfl, hshort, hm1⟩ | ⟨pt, T, rfl, hm1, hpt, hc1⟩)
  · have hshort : m.freelist.length < KERN_PAGES + 8 := by omega
    have hP' := (hP.resolve_left (Nat.not_le.2 hshort)).2
    have hm1' : Moves m {tf} m1 {tf} := (hm1.add {tf}).congr (zero_add _) (zero_add _)
    rw [wpm_bind, wpm_modifyProc_put]
    refine wpm_mono (allocFail_vacant (Or.inl ⟨rfl, rfl⟩) hv.kpagetable hv.kstack ?_ (ho.moves hm1') hP') ?_
    · show optPage p.trapframe + 0 + optPage p.usyscall = {tf}
      rw [hopt, hus, optPage_zero, add_zero, add_zero]
    · rintro r k' ⟨rfl, m2, rfl, hm2⟩
      exact Or.inl ⟨rfl, hshort, m2, false, rfl, hm1'.trans hm2⟩
  have hm1' : Moves m {tf} m1 ({tf} + T) := (hm1.add {tf}).congr (zero_add _) (add_comm _ _)
  have ho1 : Owns K m1 ({tf} + T) := ho.moves hm1'
  have hne_pt : pt ≠ 0 := (ho1.managed pt (by simp [hpt.root_mem])).ne_zero
  rw [wpm_bind, wpm_modifyProc_put, wpm_bind, wpm_vm_put]
  refine wpm_mono (wpm_of_wp kalloc_spec) ?_
  rintro r m2 (⟨rfl, hnil, rfl⟩ | ⟨us, rs, rfl, hfl, rfl⟩)
  · have hshort : m.freelist.length < KERN_PAGES + 8 := by
      rw [hnil, List.length_nil] at hc1
      omega
    have hP' := (hP.resolve_left (Nat.not_le.2 hshort)).2
    rw [wpm_bind, wpm_modifyProc_put]
    refine wpm_mono (allocFail_vacant (userPart_empty hpt rfl hv.sz hne_pt) hv.kpagetable hv.kstack ?_
      ho1 hP') ?_
    · show optPage p.trapframe + T + optPage 0 = {tf} + T
      rw [hopt, optPage_zero, add_zero]
    · rintro r k' ⟨rfl, m3, rfl, hm3⟩
      exact Or.inl ⟨rfl, hshort, m3, false, rfl, hm1'.trans hm3⟩
  have hlen : m1.freelist.length = rs.length + 1 := by rw [hfl, List.length_cons]
  have hpus : PageAddr us :=
    (ho1.managed us (Multiset.mem_add.2 (Or.inr (by rw [hfl]; exact List.mem_cons_self)))).pageAddr
  rw [wpm_bind, wpm_modifyProc_put, wpm_bind, wpm_vm_put, wpm_modify, wpm_bind, wpm_vm_put]
  have hm3 : Moves m1 0 (Mem.setField { m1.fill us 5 with freelist := rs } us 0 4 pid) {us} :=
    (kalloc_moves hfl 0 5).trans (setField_moves (Multiset.mem_cons_self us 0))
  have hm3' := (hm3.add ({tf} + T)).congr (zero_add _) rfl
  have ho1' : Owns K m1 (0 + ({tf} + T)) := ho1.congr (zero_add _).symm
  have ho3 : Owns K _ ({us} + ({tf} + T)) := ho1.moves hm3'
  have hpt3 := hpt.congr fun a ha => ho1'.page_eq hm3 (by simp [ha])
  have hmap : UserMap (trapEntries K tf) (trapEntries K tf) 0 :=
    ⟨fun v hv => absurd hv (Nat.not_lt_zero v), fun _ _ _ => rfl⟩
  refine wpm_mono (wpm_of_wp (mapUsyscall_spec hpt3 hmap (Nat.zero_le _)
    (ho3.congr (add_left_comm _ _ _)).right.right hpus)) ?_
  rintro r m4 ⟨rfl, T', hm4, hpt4, hc4⟩
  have hc4 : rs.length ≤ m4.freelist.length + 2 := hc4
  have hm4' : Moves _ ({us} + ({tf} + T)) m4 ({tf} + T' + {us}) :=
    (hm4.add ({tf} + {us})).congr (by abel) (by abel)
  rw [if_neg (by decide)]
  refine wpm_mono (allocKernel_spec hpt4 htf rfl hv.sz hv.kpagetable hv.kstack (ho3.moves hm4')
    (hP.imp_left fun h => by omega)) ?_
  have hmoves : Moves m {tf} m4 ({tf} + T' + {us}) := hm1'.trans (hm3'.trans hm4')
  rintro r k' (⟨rfl, hshort, m5, b, rfl, hm5⟩ | ⟨m5, kt, ks, KT, rfl, rfl, hm5, hpt5, hkt5, hus5, hc5⟩)
  · exact Or.inl ⟨rfl, by omega, m5, b, rfl, hmoves.trans hm5⟩
  · have hpage4 : m4.page us = _ := (ho3.congr (by abel : _ = T + ({tf} + {us}))).page_eq hm4 (by simp)
    refine Or.inr ⟨m5, pt, us, kt, ks, T', KT, rfl, rfl, (hmoves.trans hm5).congr rfl ?_, hpt5, hkt5, ?_,
      by omega⟩
    swap
    · rw [Mem.pidAt_congr (hus5.trans hpage4)]
      exact pidAt_setField _ us pid
    show _ = {tf} + {us} + {ks} + T' + KT + leafPages _ 0 (npages 0)
    rw [npages_zero, leafPages_self, add_zero]

/-- **`allocproc`** finds no slot, or gives everything back, or makes a process; it does the last with a free
slot and `PROC_PAGES` free pages. -/
theorem allocproc_spec (ho : Owns K k.mem 0) (hvac : ∀ i, (k.proc i).state = .UNUSED → Vacant i (k.proc i))
    (hP : PROC_PAGES ≤ k.mem.freelist.length ∨ P "kvmmap" ∧ P "kfree") (hH : (∀ i, (k.proc i).locked = false) ∨ H) :
    wpm (allocproc K) (fun r k' => (r = none ∧ k' = k ∧ ∀ i, (k.proc i).state ≠ .UNUSED) ∨
      ∃ j, (k.proc j).state = .UNUSED ∧
        (r = none ∧ k.mem.freelist.length < PROC_PAGES ∧ AllocFailed k j k' ∨ r = some j ∧ Allocated K k j k' ∧
          k.mem.freelist.length ≤ k'.mem.freelist.length + PROC_PAGES)) P H k := by
  have hpages : PROC_PAGES = KERN_PAGES + 9 := rfl
  unfold allocproc
  refine wpm_seq (findUnused_spec _ (hH.imp_left fun h i _ => h i)) ?_
  rintro r k1 (⟨rfl, rfl, hnone⟩ | ⟨j, -, rfl, hun, hl, rfl⟩)
  · exact Or.inl ⟨rfl, rfl, fun i => hnone i (List.mem_finRange i)⟩
  have hv := hvac j hun
  unfold allocpid
  rw [wpm_bind, wpm_bind, wpm_get, wpm_bind, wpm_modify, wpm_pure]
  -- the slot and the memory change from here on, and nothing else
  show wpm _ _ P H ({ k with nextpid := k.nextpid + 1 }.put k.mem j { k.proc j with locked := true })
  rw [wpm_bind, wpm_modifyProc_put, wpm_bind, wpm_vm_put]
  refine wpm_mono (wpm_of_wp kalloc_spec) ?_
  rintro r m1 (⟨rfl, hnil, rfl⟩ | ⟨tf, rs, rfl, hfl, rfl⟩)
  · have hshort : k.mem.freelist.length < PROC_PAGES := by
      rw [hnil]
      decide
    have hP' := (hP.resolve_left (Nat.not_le.2 hshort)).2
    rw [wpm_bind, wpm_modifyProc_put]
    refine wpm_mono (allocFail_vacant (Or.inl ⟨hv.pagetable, rfl⟩) hv.kpagetable hv.kstack ?_ ho hP') ?_
    · show optPage 0 + 0 + optPage (k.proc j).usyscall = 0
      rw [hv.usyscall]
      rfl
    · rintro r k' ⟨rfl, m2, rfl, hm2⟩
      exact Or.inr ⟨j, hun, Or.inl ⟨rfl, hshort, m2, false, rfl, hm2⟩⟩
  have hlen : k.mem.freelist.length = rs.length + 1 := by rw [hfl, List.length_cons]
  have hm1 := kalloc_moves hfl 0 5
  rw [wpm_bind, wpm_modifyProc_put]
  refine wpm_mono (allocUser_spec ?_ rfl (ho.moves hm1) (hP.imp_left fun h => ?_)) ?_
  · exact ⟨rfl, hv.pagetable, hv.kpagetable, rfl, hv.usyscall, hv.sz, hv.kstack⟩
  · show KERN_PAGES + 8 ≤ rs.length
    omega
  · rintro r k' (⟨rfl, hshort, m2, b, rfl, hm2⟩ | ⟨m2, pt, us, kt, ks, T, KT, rfl, rfl, hm2, hpt, hkt, hpid, hc⟩)
    · have hshort : rs.length < KERN_PAGES + 8 := hshort
      exact Or.inr ⟨j, hun, Or.inl ⟨rfl, by omega, m2, b, rfl, hm1.trans hm2⟩⟩
    · have hc : rs.length ≤ m2.freelist.length + (KERN_PAGES + 8) := hc
      refine Or.inr ⟨j, hun, Or.inr ⟨rfl, ⟨m2, tf, pt, us, kt, ks, T, KT, rfl, hm1.trans hm2, hpt, hkt, hpid⟩, ?_⟩⟩
      rw [Kernel.put_mem]
      omega

end allocproc

end Xv6
