import Xv6.Kernel.Calls

/-!
# The life of a process

`growproc`, `fork`, `exit`, `wait` and `kill` keep the invariant of the kernel.

* `growproc_spec` — the address space of the process follows `Space.Sbrk`.
* `fork_spec`, `exit_spec`, `wait_spec` — what happens to the slots of parent and child, by `ForkStep`, `ExitStep`
  and `WaitStep`.
-/

namespace Xv6

open Prog Function

/-- The address space that `fork` makes in slot `j` from `a`. -/
def Space.forked (K : KernelImage) (j : Nat) (a : Space) (tf us ks : Nat) (e : Nat → Nat) : Space where
  sz := a.sz
  user := e
  kern := shadowRange (stackEntries K j ks) e 0 (npages a.sz)
  trapframe := tf
  usyscall := us
  kstack := ks

variable {K : KernelImage} {k k' : Kernel} {A A' : Fin NPROC → Option Space} {pg pg' : Fin NPROC → Multiset Nat}
  {B B' X Y Y' : Multiset Nat} {x : Fin NFILE → Int} {b b' : Books} {i j me : Fin NPROC} {a : Space} {m : Mem} {p : Proc}
  {P : String → Prop} {H : Prop}

/-- Files and the file system stay. -/
theorem KInv.frame (h : KInv K k A pg B x b) (hfile : k'.file = k.file) (hpipe : k'.pipe = k.pipe)
    (hfs : k'.fs = k.fs) (hof : ∀ j, (k'.proc j).ofile = (k.proc j).ofile)
    (hcwd : ∀ j, (k'.proc j).cwd = (k.proc j).cwd)
    (hst : ∀ j, (k'.proc j).state = .UNUSED ∨ (k'.proc j).state = .ZOMBIE → (k.proc j).Closed)
    (hmem : MemInv K k' A' pg' (k.pipes.val + B')) : KInv K k' A' pg' B' x b := by
  refine ⟨?_, ?_, ?_, ?_⟩
  · rw [Kernel.pipes_congr hfile]
    exact hmem
  · refine h.file.congr hfile hpipe fun f => ?_
    have hs : k'.slots = k.slots := by
      funext c
      unfold Kernel.slots
      rw [hof]
    rw [hs]
  · rw [Kernel.names_congr hfile hcwd, hfs]
    exact h.fs
  · intro j hj
    obtain ⟨h1, h2⟩ := hst j hj
    exact ⟨fun fd => by rw [hof]; exact h1 fd, by rw [hcwd]; exact h2⟩

/-- One slot gets another record with the same files; its pages and those of the call change. -/
theorem KInv.exchange (h : KInv K k A pg (Y + B) x b) {oa : Option Space} (hof : p.ofile = (k.proc i).ofile)
    (hcwd : p.cwd = (k.proc i).cwd)
    (hst : p.state = .UNUSED ∨ p.state = .ZOMBIE → (k.proc i).Closed)
    (hm : Moves k.mem (pg i + Y) m (X + Y')) (hslot : SlotOk K m i p oa X) :
    KInv K (k.put m i p) (update A i oa) (update pg i X) (Y' + B) x b := by
  have hcase : ∀ j, (k.put m i p).proc j = if j = i then p else k.proc j := by
    intro j
    by_cases hj : j = i
    · rw [if_pos hj, hj, Kernel.put_proc_self]
    · rw [if_neg hj, Kernel.put_proc_ne hj]
  refine h.frame rfl rfl rfl (fun j => ?_) (fun j => ?_) (fun j hj => ?_) ?_
  · rw [hcase]
    split
    · rename_i hji
      rw [hof, hji]
    · rfl
  · rw [hcase]
    split
    · rename_i hji
      rw [hcwd, hji]
    · rfl
  · rw [hcase] at hj
    split at hj
    · rename_i hji
      exact hji ▸ hst hj
    · exact h.closed j hj
  · refine h.mem.change (add_left_comm _ _ _) (add_left_comm _ _ _) hm (fun j hj => ?_) ?_
    · rw [Kernel.put_proc_ne hj]
      exact Proc.SameMem.refl _
    · rw [Kernel.put_proc_self]
      exact hslot

/-- The same, when the call has no pages of its own. -/
theorem KInv.put (h : KInv K k A pg B x b) {oa : Option Space} (hof : p.ofile = (k.proc i).ofile)
    (hcwd : p.cwd = (k.proc i).cwd)
    (hst : p.state = .UNUSED ∨ p.state = .ZOMBIE → (k.proc i).Closed)
    (hm : Moves k.mem (pg i) m X) (hslot : SlotOk K m i p oa X) :
    KInv K (k.put m i p) (update A i oa) (update pg i X) B x b := by
  rw [← zero_add B] at h ⊢
  exact h.exchange hof hcwd hst (hm.add 0) hslot

/-- A record changes in fields that do not matter to memory and files. -/
theorem KInv.updProc (h : KInv K k A pg B x b) {F : Proc → Proc} (hsame : (k.proc i).SameMem (F (k.proc i)))
    (hof : (F (k.proc i)).ofile = (k.proc i).ofile) (hcwd : (F (k.proc i)).cwd = (k.proc i).cwd)
    (hst : (F (k.proc i)).state = .UNUSED ∨ (F (k.proc i)).state = .ZOMBIE → (k.proc i).Closed) :
    KInv K (k.updProc i F) A pg B x b := by
  have h' := h.put hof hcwd hst (Moves.refl _ _) ((h.mem.slot i).congr hsame fun _ _ => rfl)
  rwa [update_eq_self, update_eq_self] at h'

/-! ## `growproc` -/

/-- The pages of a process, with its user page table in front. -/
theorem Space.pages_table (a : Space) (T KT : Multiset Nat) : a.pages T KT =
    T + (KT + (leafPages a.user 0 (npages a.sz) + ({a.trapframe} + {a.usyscall} + {a.kstack}))) := by
  unfold Space.pages
  abel

/-- User memory is at most physical memory. -/
theorem MemInv.npages_le {R : Multiset Nat} (h : MemInv K k A pg R) (ha : A i = some a) : npages a.sz ≤ 32768 := by
  obtain ⟨-, -, T, KT, -, hpg⟩ := h.space ha
  have ho := (h.owns_slot i).left
  rw [hpg, Space.pages_user] at ho
  have hcard := ho.left.card_le
  rw [leafPages_card] at hcard
  omega

theorem size_le_of_check {sz : Nat} (h : ¬ PGROUNDUP sz ≥ USER_TOP) (hmax : sz ≤ MAXVA) : sz ≤ USER_TOP - PGSIZE := by
  rw [PGROUNDUP_npages, npages_eq hmax] at h
  simp only [USER_TOP, PGSIZE] at *
  omega

variable {s : Mem} {KT T : Multiset Nat}

/-- `uvmalloc` in the address space of a process: the new size, or the old one when the sum has wrapped. -/
theorem Rep.grow_spec {newsz perm : Nat} (hrep : Rep s p a T KT) (hwf : a.WF K i)
    (ho : Owns K s (a.pages T KT)) (hn : npages a.sz ≤ 32768) (hx : perm < 2 ^ 10) {E : Mem → Prop} :
    wp (uvmalloc K p.pagetable p.sz newsz perm) (fun r s' =>
      (∃ T' e, a.sz ≤ r ∧ r ≤ MAXVA ∧ (r = newsz ∨ r = a.sz) ∧ PageTable s' p.pagetable T' e ∧
        PageTable s' p.kpagetable KT a.kern ∧
        Fresh a.user (npages a.sz) (npages r) (fun _ => PTE_R ||| PTE_U ||| perm) e ∧
        Moves s (a.pages T KT) s' ({ a with sz := r, user := e }.pages T' KT) ∧
        s'.page a.usyscall = s.page a.usyscall) ∨
      ∃ T', r = 0 ∧ Rep s' p a T' KT ∧ Moves s (a.pages T KT) s' (a.pages T' KT)) E s := by
  have hold : a.sz ≤ MAXVA := Nat.le_trans hwf.size (by decide)
  rw [hrep.sz]
  by_cases hlt : newsz < a.sz
  · unfold uvmalloc
    rw [if_pos hlt]
    exact Or.inl ⟨T, a.user, Nat.le_refl _, hold, Or.inr rfl, hrep.user, hrep.kern, Fresh.refl _ _ _,
      Moves.refl _ _, rfl⟩
  have hle : a.sz ≤ newsz := Nat.le_of_not_lt hlt
  have hzero : ∀ u, npages a.sz ≤ u → u < 65536 → a.user u = 0 :=
    fun u h1 h2 => hwf.user_eq_zero h1 (Nat.lt_of_lt_of_le h2 (by decide))
  have hpages := Space.pages_table a T KT
  rw [hpages] at ho
  refine wp_mono (uvmalloc_spec hx hrep.user ho.left hle hn hold hzero) ?_ fun _ h => h
  rintro r s' (⟨T', e, rfl, hmax, hm, ht, hfresh, -⟩ | ⟨T', rfl, hm, ht, -⟩)
  · left
    refine ⟨T', e, hle, hmax, Or.inl rfl, ht, ?_, hfresh, ?_, ho.page_eq hm (by simp)⟩
    · exact hrep.kern.congr fun y hy => ho.page_eq hm (Multiset.mem_add.2 (Or.inl hy))
    · have hlow : leafPages e 0 (npages a.sz) = leafPages a.user 0 (npages a.sz) :=
        leafPages_congr fun u _ hu => hfresh.out u (by omega)
      have happ := leafPages_append e (Nat.zero_le (npages a.sz)) (npages_mono hmax hle)
      rw [hpages]
      refine (hm.add _).congr rfl ?_
      unfold Space.pages
      dsimp only
      rw [← happ, hlow]
      abel
  · right
    refine ⟨T', rfl, ⟨ht, ?_, hrep.sz, hrep.trapframe, hrep.usyscall, hrep.kstack, ?_⟩, ?_⟩
    · exact hrep.kern.congr fun y hy => ho.page_eq hm (Multiset.mem_add.2 (Or.inl hy))
    · rw [Mem.pidAt_congr (ho.page_eq hm (by simp)), hrep.pid]
    · rw [hpages, Space.pages_table]
      exact hm.add _

/-- `uvmdealloc` in the address space of a process; nothing happens when the sum has wrapped. -/
theorem Rep.shrink_spec {newsz : Nat} (hrep : Rep s p a T KT) (hwf : a.WF K i)
    (ho : Owns K s (a.pages T KT)) {E : Mem → Prop} :
    wp (uvmdealloc K p.pagetable p.sz newsz) (fun r s' =>
      Rep s' { p with sz := r } (a.shrunk newsz) T KT ∧ Moves s (a.pages T KT) s' ((a.shrunk newsz).pages T KT)) E s := by
  rw [hrep.sz]
  unfold Space.shrunk
  by_cases hge : newsz ≥ a.sz
  · unfold uvmdealloc
    rw [if_pos hge, if_pos hge]
    exact ⟨⟨hrep.user, hrep.kern, rfl, hrep.trapframe, hrep.usyscall, hrep.kstack, hrep.pid⟩, Moves.refl _ _⟩
  rw [if_neg hge]
  have hlt : newsz < a.sz := Nat.lt_of_not_le hge
  have hold : a.sz ≤ MAXVA := Nat.le_trans hwf.size (by decide)
  have hmono := npages_mono hold (Nat.le_of_lt hlt)
  have happ := leafPages_append a.user (Nat.zero_le (npages newsz)) hmono
  have hpages : a.pages T KT = leafPages a.user (npages newsz) (npages a.sz) + T +
      (KT + (leafPages a.user 0 (npages newsz) + ({a.trapframe} + {a.usyscall} + {a.kstack}))) := by
    unfold Space.pages
    rw [← happ]
    abel
  have hlow : leafPages (clearRange a.user (npages newsz) (npages a.sz)) 0 (npages newsz) =
      leafPages a.user 0 (npages newsz) := by
    refine leafPages_congr fun u _ hu => ?_
    unfold clearRange
    rw [if_neg (by omega)]
  rw [hpages] at ho
  refine wp_mono (uvmdealloc_spec hrep.user ho.left hlt hold
    (Or.inl fun u _ hu => hwf.map.isLeaf hu)) ?_ fun _ h => h
  rintro r s' ⟨rfl, hm, ht⟩
  refine ⟨⟨ht, ?_, rfl, hrep.trapframe, hrep.usyscall, hrep.kstack, ?_⟩, ?_⟩
  · exact hrep.kern.congr fun y hy => ho.page_eq hm (Multiset.mem_add.2 (Or.inl hy))
  · exact (Mem.pidAt_congr (ho.page_eq hm (by simp))).trans hrep.pid
  · rw [hpages]
    refine (hm.add _).congr rfl ?_
    unfold Space.pages
    dsimp only
    rw [hlow]
    abel

/-- `u2kvmcopy` in the address space of a process whose user memory has grown to `a.sz`. -/
theorem Rep.shadow_spec {oldsz : Nat} {kern : Nat → Nat} {pt kt : Nat}
    (hu : PageTable s pt T a.user) (hk : PageTable s kt KT kern) (ho : Owns K s (a.pages T KT)) (hle : oldsz ≤ a.sz)
    (hmax : a.sz ≤ MAXVA) (hread : Readable a.user (npages a.sz))
    (hP : 2 * (npages a.sz - npages oldsz) ≤ s.freelist.length ∨ P "u2kvmcopy: pte walk failed") :
    wpm (u2kvmcopy pt kt oldsz a.sz) (fun _ s' => ∃ KT', PageTable s' pt T a.user ∧
      PageTable s' kt KT' (shadowRange kern a.user (npages oldsz) (npages a.sz)) ∧
      Moves s (a.pages T KT) s' (a.pages T KT') ∧ s'.page a.usyscall = s.page a.usyscall) P H s := by
  have hpages : ∀ KT', a.pages T KT' =
      KT' + (T + (leafPages a.user 0 (npages a.sz) + ({a.trapframe} + {a.usyscall} + {a.kstack}))) := by
    intro KT'
    unfold Space.pages
    abel
  rw [hpages] at ho
  have ho' : Owns K s (KT + T) := (ho.congr (add_assoc _ _ _).symm).left
  have hne : ∀ u, npages oldsz ≤ u → u < npages a.sz → a.user u ≠ 0 := by
    intro u _ hlt hz
    have hV := (hread u hlt).1
    rw [hz] at hV
    cases hV
  refine wpm_mono (u2kvmcopy_spec hk hu ho' hle hmax hne hP) ?_
  rintro _ s' ⟨KT', hm, hk', -⟩
  refine ⟨KT', ?_, hk', ?_, ho.page_eq hm (by simp)⟩
  · exact hu.congr fun y hy => ho.page_eq hm (Multiset.mem_add.2 (Or.inl hy))
  · rw [hpages, hpages]
    exact hm.add _

/-- The record of slot `i` gets another size, and its memory follows. -/
theorem KInv.resize (h : KInv K k A pg B x b) (ha : A i = some a) {a' : Space} {T' KT' : Multiset Nat} {sz : Nat}
    (hpg : pg i = a.pages T KT) (hstep : Space.Step K a a') (hrep : Rep m { k.proc i with sz := sz } a' T' KT')
    (hm : Moves k.mem (a.pages T KT) m (a'.pages T' KT')) :
    KInv K (k.put m i { k.proc i with sz := sz }) (update A i (some a'))
      (update pg i (a'.pages T' KT')) B x b := by
  obtain ⟨hst, hwf, -⟩ := h.mem.space ha
  rw [← hpg] at hm
  exact h.put rfl rfl (h.closed i) hm ⟨hst, hstep.wf hwf, T', KT', hrep, rfl⟩

/-- **`growproc`** with a negative amount does not fail. -/
theorem Kernel.growproc_neg_spec (h : KInv K k A pg B x b) (ha : A i = some a) {n : Int} (hn : n < 0) :
    wpm (Kernel.growproc K i n) (fun r k' => r = 0 ∧ k'.fs = k.fs ∧
      ∃ pg', KInv K k' (update A i (some (a.shrunk (Kernel.addSize a.sz n)))) pg' B x b) P H k := by
  obtain ⟨-, hwf, T, KT, hrep, hpg⟩ := h.mem.space ha
  have ho : Owns K k.mem (a.pages T KT) := hpg ▸ (h.mem.owns_slot i).left
  unfold Kernel.growproc
  rw [wpm_bind, Kernel.wpm_readProc, if_neg (by omega), if_pos hn, wpm_bind, kvmdealloc_eq, Kernel.wpm_vm_slot i,
    wpm_pure, wpm_bind, Kernel.wpm_vm_put]
  refine wpm_mono (wpm_of_wp (hrep.shrink_spec hwf ho)) ?_
  rintro r m₁ ⟨hrep₁, hm₁⟩
  rw [hrep.sz] at hrep₁ hm₁
  rw [wpm_bind, Kernel.wpm_modifyProc_put]
  exact ⟨rfl, rfl, _, h.resize ha hpg (Space.sbrk_shrunk a _).step hrep₁ hm₁⟩

/-- **`growproc`** changes the size by what was asked for, or leaves the address space alone. -/
theorem Kernel.growproc_spec (h : KInv K k A pg B x b) (ha : A i = some a)
    (hP : P "u2kvmcopy: pte walk failed") (n : Int) :
    wpm (Kernel.growproc K i n) (fun _ k' => ∃ a' pg', Space.Sbrk (Kernel.addSize a.sz n) a a' ∧
      KInv K k' (update A i (some a')) pg' B x b) P H k := by
  obtain ⟨hst, hwf, T, KT, hrep, hpg⟩ := h.mem.space ha
  have ho : Owns K k.mem (a.pages T KT) := hpg ▸ (h.mem.owns_slot i).left
  have hstay : ∃ a' pg', Space.Sbrk (Kernel.addSize a.sz n) a a' ∧ KInv K k (update A i (some a')) pg' B x b :=
    ⟨a, pg, .same, by rwa [← ha, update_eq_self]⟩
  rcases lt_or_ge n 0 with hneg | hpos
  · refine wpm_mono (Kernel.growproc_neg_spec h ha hneg) ?_
    rintro _ k' ⟨-, -, pg', h'⟩
    exact ⟨_, pg', Space.sbrk_shrunk a _, h'⟩
  -- a failure may leave pages in the page table
  have hfail : ∀ (m : Mem) (T' : Multiset Nat), Rep m (k.proc i) a T' KT → Moves k.mem (a.pages T KT) m (a.pages T' KT) →
      ∃ a' pg', Space.Sbrk (Kernel.addSize a.sz n) a a' ∧
        KInv K (k.put m i (k.proc i)) (update A i (some a')) pg' B x b :=
    fun m T' hr hm => ⟨a, _, .same, @KInv.resize K k A pg B x b i a m KT T h ha a T' KT (k.proc i).sz hpg (.refl a) hr hm⟩
  unfold Kernel.growproc
  rw [wpm_bind, Kernel.wpm_readProc]
  split
  · split
    · exact hstay
    · rename_i hcheck
      rw [wpm_bind, Kernel.wpm_vm_slot i]
      have hx : PTE_W < 2 ^ 10 := by decide
      refine wpm_mono (wpm_of_wp (hrep.grow_spec hwf ho (h.mem.npages_le ha) hx)) ?_
      rintro sz m₁ (⟨T', e, hle, hmax, hr, hu₁, hk₁, hfresh, hm₁, hus₁⟩ | ⟨T', rfl, hrep₁, hm₁⟩)
      · rw [hrep.sz] at hr hcheck
        have hsize : sz ≤ USER_TOP - PGSIZE := by
          rcases hr with rfl | rfl
          · exact size_le_of_check hcheck hmax
          · exact hwf.size
        have hstep := Space.Sbrk.grow hr hle hsize hfresh
        have hread := ((hstep.step (K := K)).wf hwf).map.low
        by_cases hz : sz = 0
        · -- the sum has wrapped to the size of an empty process, which looks like a failure
          subst hz
          have hsz : a.sz = 0 := Nat.le_zero.1 hle
          rw [hsz] at hfresh
          have he : e = a.user := funext fun u => hfresh.out u (by omega)
          subst he
          have ha' : { a with sz := 0, user := a.user } = a := by rw [← hsz]
          rw [ha'] at hm₁
          rw [if_pos rfl]
          exact hfail m₁ T' ⟨hu₁, hk₁, hrep.sz, hrep.trapframe, hrep.usyscall, hrep.kstack,
            (Mem.pidAt_congr hus₁).trans hrep.pid⟩ hm₁
        · rw [if_neg hz, wpm_bind, Kernel.wpm_vm_put]
          have ho₁ := ho.moves hm₁
          rw [hrep.sz]
          refine wpm_mono (Rep.shadow_spec (a := { a with sz := sz, user := e }) hu₁ hk₁ ho₁ hle hmax hread
            (Or.inr hP)) ?_
          rintro _ m₂ ⟨KT', hu₂, hk₂, hm₂, hus₂⟩
          rw [wpm_bind, Kernel.wpm_modifyProc_put]
          exact ⟨_, _, hstep, h.resize ha hpg hstep.step ⟨hu₂, hk₂, rfl, hrep.trapframe, hrep.usyscall, hrep.kstack,
            (Mem.pidAt_congr (hus₂.trans hus₁)).trans hrep.pid⟩ (hm₁.trans hm₂)⟩
      · rw [if_pos rfl]
        exact hfail m₁ T' hrep₁ hm₁
  · rw [if_neg (by omega)]
    exact hstay

/-! ## Freeing a process -/

/-- **`freeproc`** of a complete process. -/
theorem Rep.free_spec (hrep : Rep m p a T KT) (hwf : a.WF K j) (ho : Owns K m (a.pages T KT)) :
    wpm (Kernel.freeproc K j) (fun _ k' => ∃ m', k' = k.put m' j p.freed ∧ Moves m (a.pages T KT) m' 0) P H
      (k.put m j p) := by
  have hman : ∀ y ∈ a.pages T KT, y ≠ 0 :=
    fun y hy => (ho.managed y (Multiset.mem_add.2 (Or.inl hy))).ne_zero
  have htf : a.trapframe ≠ 0 := hman _ (by simp [Space.pages])
  have hus : a.usyscall ≠ 0 := hman _ (by simp [Space.pages])
  have hks : a.kstack ≠ 0 := hman _ (by simp [Space.pages])
  have hpt : p.pagetable ≠ 0 := hman _ (Space.mem_pages_of_table (Or.inl hrep.user.root_mem))
  have hkt : p.kpagetable ≠ 0 := hman _ (Space.mem_pages_of_table (Or.inr hrep.kern.root_mem))
  have hu : UserPart K m p (leafPages a.user 0 (npages a.sz) + T) := by
    refine Or.inr ⟨hpt, hrep.sz ▸ hwf.size, T, a.user, a.trapframe, hrep.user, ?_, by rw [hrep.sz]⟩
    unfold topEntries
    rw [hrep.usyscall, if_neg hus, hrep.sz]
    exact hwf.map
  have hk : KernPart m p KT := Or.inr ⟨hkt, a.kern, hrep.kern, hwf.leaf⟩
  have hpages : a.pages T KT = optPage p.trapframe + (leafPages a.user 0 (npages a.sz) + T) +
      optPage p.usyscall + optPage p.kstack + KT := by
    rw [hrep.trapframe, hrep.usyscall, hrep.kstack, optPage_of_ne htf, optPage_of_ne hus, optPage_of_ne hks]
    unfold Space.pages
    abel
  rw [hpages] at ho ⊢
  exact freeproc_spec hu hk ho (Or.inl rfl)

/-! ## `fork` -/

/-- The image of a child is like one that `exec` has built in an empty address space. -/
theorem Space.forked_wf {tf us ks : Nat} {e : Nat → Nat} (hwf : a.WF K i)
    (hf : Fresh (fixedEntries K tf us) 0 (npages a.sz) (fun v => PTE_FLAGS (a.user v)) e) :
    (a.forked K j tf us ks e).WF K j := by
  have h0 := Space.empty_wf K j tf us ks
  have hread : ∀ u, 0 ≤ u → u < npages a.sz → hasFlag (PTE_FLAGS (a.user u)) PTE_R = true := by
    intro u _ hu
    rw [← hasFlag_mod (by decide)]
    exact (hwf.map.low u hu).2
  have hnone : UserMap (fixedEntries K tf us) (fixedEntries K tf us) 0 :=
    ⟨fun v hv => absurd hv (Nat.not_lt_zero v), fun _ _ _ => rfl⟩
  have hmap := Fresh.userMap hnone (Nat.zero_le _) hread hf
  exact (Space.Step.exec (a := Space.empty K j tf us ks) hwf.size hmap).wf h0

/-- `uvmcopy` to a new process. -/
theorem Rep.fork_spec {T₀ G : Multiset Nat} {t₀ pt kt tf us ks : Nat}
    (h₀ : PageTable s t₀ T₀ a.user) (hwf : a.WF K i) (ht : PageTable s pt T (fixedEntries K tf us))
    (hk : PageTable s kt KT (stackEntries K j ks)) (ho : Owns K s ((Space.empty K j tf us ks).pages T KT + G))
    (hG : T₀ ≤ G) {E : Mem → Prop} :
    wp (uvmcopy K t₀ pt a.sz) (fun r s' => PageTable s' kt KT (stackEntries K j ks) ∧ s'.page us = s.page us ∧ ∃ T',
      ((∃ e, r = 0 ∧ Fresh (fixedEntries K tf us) 0 (npages a.sz) (fun v => PTE_FLAGS (a.user v)) e ∧
          PageTable s' pt T' e ∧
          Moves s ((Space.empty K j tf us ks).pages T KT) s' ((a.forked K j tf us ks e).pages T' KT)) ∨
        r = -1 ∧ PageTable s' pt T' (fixedEntries K tf us) ∧
          Moves s ((Space.empty K j tf us ks).pages T KT) s' ((Space.empty K j tf us ks).pages T' KT))) E s := by
  have hempty : ∀ T, (Space.empty K j tf us ks).pages T KT = T + (KT + ({tf} + {us} + {ks})) := by
    intro T
    unfold Space.pages Space.empty
    dsimp only
    rw [npages_zero, leafPages_self]
    abel
  have hsz : a.sz ≤ MAXVA := Nat.le_trans hwf.size (by decide)
  have hzero : ∀ u, u < npages a.sz → fixedEntries K tf us u = 0 := by
    intro u hu
    have hlt := hwf.npages_lt
    exact fixedEntries_low (Nat.lt_trans (Nat.lt_trans hu hlt) (by decide))
  have ho' : Owns K s (T + T₀) := by
    refine ho.mono ?_
    rw [hempty, add_assoc]
    exact Multiset.add_le_add_left (hG.trans (Multiset.le_add_left _ _))
  rw [hempty] at ho
  refine wp_mono (uvmcopy_spec ht h₀ ho' hsz hzero hwf.map.low) ?_ fun _ h => h
  rintro r s' (⟨T', e, rfl, hm, ht', hf⟩ | ⟨T', rfl, hm, ht'⟩)
  · refine ⟨?_, ho.left.page_eq hm (by simp), T', Or.inl ⟨e, rfl, hf, ht', ?_⟩⟩
    · exact hk.congr fun y hy => ho.left.page_eq hm (Multiset.mem_add.2 (Or.inl hy))
    · rw [hempty]
      refine (hm.add _).congr rfl ?_
      unfold Space.pages Space.forked
      abel
  · refine ⟨?_, ho.left.page_eq hm (by simp), T', Or.inr ⟨rfl, ht', ?_⟩⟩
    · exact hk.congr fun y hy => ho.left.page_eq hm (Multiset.mem_add.2 (Or.inl hy))
    · rw [hempty, hempty]
      exact hm.add _

/-- Writing the trapframe. -/
theorem Rep.write_trapframe (hrep : Rep s p a T KT) (ho : Owns K s (a.pages T KT)) (c : Page) :
    Rep { s with page := update s.page a.trapframe c } p a T KT ∧
      Moves s (a.pages T KT) { s with page := update s.page a.trapframe c } (a.pages T KT) := by
  have hpages : a.pages T KT = {a.trapframe} + (T + (KT + ({a.usyscall} + {a.kstack} +
      leafPages a.user 0 (npages a.sz)))) := by
    unfold Space.pages
    abel
  have hmem : a.trapframe ∈ a.pages T KT := by
    rw [hpages]
    exact Multiset.mem_cons_self _ _
  refine ⟨hrep.congr (.refl p) (fun y hy => ?_) (fun y hy => ?_) ?_, page_moves hmem c⟩
  · exact update_of_ne ((ho.congr hpages).ne (Multiset.mem_add.2 (Or.inl hy))) _ _
  · exact update_of_ne ((ho.congr hpages).ne
      (Multiset.mem_add.2 (Or.inr (Multiset.mem_add.2 (Or.inl hy))))) _ _
  · exact update_of_ne ((ho.congr hpages).ne (by simp)) _ _

/-- Files keep what they are, and only slot `j` gets descriptors. -/
structure Kernel.Dups (k : Kernel) (j : Fin NPROC) (k' : Kernel) : Prop where
  other : ∀ i, i ≠ j → k'.proc i = k.proc i
  self : ∃ of, k'.proc j = { k.proc j with ofile := of }
  file : ∀ f, (k'.file f).type = (k.file f).type ∧ (k'.file f).pipe = (k.file f).pipe

theorem Kernel.Dups.refl (k : Kernel) (j : Fin NPROC) : k.Dups j k :=
  ⟨fun _ _ => rfl, ⟨_, rfl⟩, fun _ => ⟨rfl, rfl⟩⟩

theorem Kernel.Dups.trans {k₁ k₂ k₃ : Kernel} (h : k₁.Dups j k₂) (h' : k₂.Dups j k₃) : k₁.Dups j k₃ where
  other i hi := (h'.other i hi).trans (h.other i hi)
  self := by
    obtain ⟨of, hof⟩ := h.self
    obtain ⟨of', hof'⟩ := h'.self
    exact ⟨of', by rw [hof', hof]⟩
  file f := ⟨(h'.file f).1.trans (h.file f).1, (h'.file f).2.trans (h.file f).2⟩

theorem used_open (h : (k.proc j).state = .USED) :
    (k.proc j).state ≠ .UNUSED ∧ (k.proc j).state ≠ .ZOMBIE := by
  rw [h]
  decide

/-- One descriptor of the parent is given to the child. -/
theorem Kernel.dupFile_spec {fd : Fin NOFILE} {f : Fin NFILE} (h : KInv K k A pg B noFiles b)
    (hf : (k.proc i).ofile fd = some f) (hnone : (k.proc j).ofile fd = none) (hst : (k.proc j).state = .USED) :
    wpm (do
      Kernel.filedup f
      Kernel.modifyProc j fun np => { np with ofile := update np.ofile fd (some f) })
      (fun _ k' => KInv K k' A pg B noFiles b ∧ k.Dups j k' ∧
        (k'.proc j).ofile = update (k.proc j).ofile fd (some f)) P H k := by
  have hpos := h.ref_pos (f := f) (Or.inr ⟨Int.le_refl 0, (i, fd), hf⟩)
  refine wpm_seq (Kernel.filedup_spec h hpos) ?_
  rintro _ k₁ ⟨h₁, rfl⟩
  rw [Kernel.wpm_modifyProc]
  have h₂ := h₁.giveFd (i := j) (f := f) hnone (used_open hst)
  rw [bump_bump, show (1 : Int) + -1 = 0 by decide, bump_zero] at h₂
  refine ⟨h₂, ⟨fun i hi => Kernel.put_proc_ne hi, ⟨_, Kernel.put_proc_self⟩, fun g => ?_⟩, ?_⟩
  · rw [Kernel.put_file, Kernel.file_upd]
    split
    · rename_i hg
      exact hg ▸ ⟨rfl, rfl⟩
    · exact ⟨rfl, rfl⟩
  · rw [Kernel.put_proc_self]
    rfl

/-- The loop of `fork` over the open files. -/
theorem Kernel.dupFiles_spec (hij : i ≠ j) : ∀ (fds : List (Fin NOFILE)) (k : Kernel), fds.Nodup →
    KInv K k A pg B noFiles b → (∀ fd ∈ fds, (k.proc j).ofile fd = none) → (k.proc j).state = .USED →
    wpm (Kernel.dupFiles i j fds) (fun _ k' => KInv K k' A pg B noFiles b ∧ k.Dups j k') P H k
  | [], k, _, h, _, _ => ⟨h, .refl k j⟩
  | fd :: fds, k, hnd, h, hnone, hst => by
    unfold Kernel.dupFiles
    rw [wpm_bind, Kernel.wpm_readProc]
    obtain ⟨hfd, hnd⟩ := List.nodup_cons.1 hnd
    cases hf : (k.proc i).ofile fd with
    | none =>
      refine wpm_seq (R := fun _ k' => k' = k) rfl ?_
      rintro _ k₁ rfl
      exact Kernel.dupFiles_spec hij fds k₁ hnd h (fun g hg => hnone g (List.mem_cons_of_mem _ hg)) hst
    | some f =>
      refine wpm_seq (Kernel.dupFile_spec h hf (hnone fd List.mem_cons_self) hst) ?_
      rintro _ k₁ ⟨h₁, hd, hof⟩
      have hnone₁ : ∀ g ∈ fds, (k₁.proc j).ofile g = none := by
        intro g hg
        rw [hof, update_of_ne fun he : g = fd => hfd (he ▸ hg)]
        exact hnone g (List.mem_cons_of_mem _ hg)
      have hst₁ : (k₁.proc j).state = .USED := by
        obtain ⟨of, hp⟩ := hd.self
        rw [hp]
        exact hst
      refine wpm_mono (Kernel.dupFiles_spec hij fds k₁ hnd h₁ hnone₁ hst₁) ?_
      rintro _ k₂ ⟨h₂, hd₂⟩
      exact ⟨h₂, hd.trans hd₂⟩

theorem Kernel.idup_spec {ip : Fin NINODE} (h : KInv K k A pg B x b) (hb : ∀ ip, 0 ≤ b.ref ip)
    (hip : (k.proc i).cwd = some ip) :
    wpm (Kernel.fsys (Fs.idup ip)) (fun r k' => r = ip ∧ OnFs K k A pg B x (b.addRef ip 1) k') Allowed True k :=
  Kernel.wpm_fsys allowed_fs (Fs.idup_spec h.fs (k.cwdOk hb i ip hip)) fun _ s hs =>
    ⟨hs.1, s, rfl, h.setFs (Books.above_addRef (b := b) (n := k.names) 1 ▸ hs.2)⟩

/-- The reference that the call holds becomes a current directory. -/
theorem KInv.giveCwd {ip : Fin NINODE} (h : KInv K k A pg B x (b.addRef ip 1))
    (hrun : (k.proc i).state ≠ .UNUSED ∧ (k.proc i).state ≠ .ZOMBIE) (hnone : (k.proc i).cwd = none) :
    KInv K (k.put k.mem i { k.proc i with cwd := some ip }) A pg B x b := by
  refine h.setCwd hrun rfl rfl rfl fun jp => ?_
  have hsome : some ip = some jp ↔ jp = ip := by rw [Option.some.injEq, eq_comm]
  rw [hnone, if_neg (by simp), Books.addRef_ref, add_zero]
  simp only [hsome]

/-- The reference of a current directory goes to the call. -/
theorem KInv.takeCwd {ip : Fin NINODE} (h : KInv K k A pg B x b)
    (hrun : (k.proc i).state ≠ .UNUSED ∧ (k.proc i).state ≠ .ZOMBIE) (hip : (k.proc i).cwd = some ip) :
    KInv K (k.put k.mem i { k.proc i with cwd := none }) A pg B x (b.addRef ip 1) := by
  refine h.setCwd hrun rfl rfl rfl fun jp => ?_
  have hsome : some ip = some jp ↔ jp = ip := by rw [Option.some.injEq, eq_comm]
  rw [hip, if_neg (by simp : ¬ (none : Option (Fin NINODE)) = some jp), Books.addRef_ref, add_zero]
  simp only [hsome]

/-- What `fork` does to the rest of the kernel. -/
structure Kernel.Forked (k : Kernel) (j : Fin NPROC) (k' : Kernel) : Prop where
  other : ∀ i, i ≠ j → k'.proc i = k.proc i
  self : (k'.proc j).state = .RUNNABLE
  file : ∀ f, (k'.file f).type = (k.file f).type ∧ (k'.file f).pipe = (k.file f).pipe

/-- The files and the current directory of the child; then it can run. -/
theorem Kernel.forkFiles_spec (hij : i ≠ j) (h : KInv K k A pg B noFiles Books.idle)
    (hst : (k.proc j).state = .USED) (hc : (k.proc j).Closed) (name : List UInt8) (pid : Int) :
    wpm (do
      Kernel.dupFiles i j (List.finRange NOFILE)
      match (k.proc i).cwd with
      | none => panicWith "kerneltrap"
      | some ip => do
        let cwd ← Kernel.fsys (Fs.idup ip)
        Kernel.modifyProc j fun np => { np with cwd := some cwd, name := name }
        Kernel.release j
        Kernel.modifyProc j fun np => { np with parent := some i }
        Kernel.acquire j
        Kernel.modifyProc j fun np => { np with state := .RUNNABLE }
        Kernel.release j
        pure pid) (fun _ k' => KInv K k' A pg B noFiles Books.idle ∧ k.Forked j k') Allowed True k := by
  refine wpm_seq (Kernel.dupFiles_spec hij _ k (List.nodup_finRange _) h (fun fd _ => hc.1 fd) hst) ?_
  rintro _ k₁ ⟨h₁, hd⟩
  cases hip : (k.proc i).cwd with
  | none => exact (by decide : Allowed "kerneltrap")
  | some ip =>
    have hip₁ : (k₁.proc i).cwd = some ip := by rw [hd.other i hij, hip]
    refine wpm_seq (Kernel.idup_spec h₁ idle_ref hip₁) ?_
    rintro _ k₂ ⟨rfl, s, rfl, h₂⟩
    obtain ⟨of, hp⟩ := hd.self
    have hst₁ : (k₁.proc j).state = .USED := by
      rw [hp]
      exact hst
    have hcwd₁ : (k₁.proc j).cwd = none := by
      rw [hp]
      exact hc.2
    have h₃ := h₂.giveCwd (used_open hst₁) hcwd₁
    have h₄ := h₃.updProc (i := j)
      (F := fun q => { q with name := name, parent := some i, state := .RUNNABLE, locked := false })
      ⟨iff_of_false (fun hs => by cases hs) (by rw [Kernel.put_proc_self]; exact (used_open hst₁).1),
        rfl, rfl, rfl, rfl, rfl, rfl, rfl⟩ rfl rfl (by rintro (hs | hs) <;> cases hs)
    rw [Kernel.put_updProc] at h₄
    unfold Kernel.release Kernel.acquire
    rw [wpm_bind, Kernel.wpm_modifyProc, wpm_bind, Kernel.wpm_modifyProc_put, wpm_bind,
      Kernel.wpm_modifyProc_put, wpm_bind, wpm_bind, Kernel.wpm_readProc_put, if_neg (by simp),
      Kernel.wpm_modifyProc_put, wpm_bind, Kernel.wpm_modifyProc_put, wpm_bind, Kernel.wpm_modifyProc_put]
    refine ⟨h₄, fun l hl => (Kernel.put_proc_ne hl).trans (hd.other l hl), ?_, hd.file⟩
    rw [Kernel.put_proc_self]

theorem MemInv.vacant {R : Multiset Nat} (h : MemInv K k A pg R) (hj : (k.proc j).state = .UNUSED) :
    A j = none ∧ pg j = 0 ∧ Vacant j (k.proc j) := by
  have hslot := h.slot j
  cases ha : A j with
  | none =>
    rw [ha] at hslot
    exact ⟨rfl, hslot.2, hslot.1⟩
  | some a =>
    rw [ha] at hslot
    exact absurd hj hslot.1

theorem KInv.setPid (h : KInv K k A pg B x b) (n : Nat) : KInv K { k with nextpid := n } A pg B x b :=
  h.frame rfl rfl rfl (fun _ => rfl) (fun _ => rfl) h.closed (h.mem.same rfl fun _ => .refl _)

/-- `fork` has failed, or it has made a copy of `a` in an unused slot. -/
def ForkStep (K : KernelImage) (k : Kernel) (A : Fin NPROC → Option Space) (pg : Fin NPROC → Multiset Nat)
    (B : Multiset Nat) (a : Space) (k' : Kernel) : Prop :=
  (KInv K k' A pg B noFiles Books.idle ∧ ∀ l, (k'.proc l).state = .UNUSED ↔ (k.proc l).state = .UNUSED) ∨
  ∃ j tf us ks e X, (k.proc j).state = .UNUSED ∧
    Fresh (fixedEntries K tf us) 0 (npages a.sz) (fun v => PTE_FLAGS (a.user v)) e ∧
    KInv K k' (Function.update A j (some (a.forked K j tf us ks e))) (Function.update pg j X) B noFiles Books.idle ∧
    k.Forked j k'

/-- A slot that was unused is unused again. -/
theorem ForkStep.failed (h : KInv K k A pg B noFiles Books.idle) (hj : (k.proc j).state = .UNUSED) {q : Proc}
    (hq : Vacant j q) (hof : q.ofile = (k.proc j).ofile) (hcwd : q.cwd = (k.proc j).cwd) {n : Nat}
    (hm : Moves k.mem 0 m 0) : ForkStep K k A pg B a ({ k with nextpid := n }.put m j q) := by
  obtain ⟨ha, hpg, -⟩ := h.mem.vacant hj
  have h' := (h.setPid n).put (i := j) hof hcwd (fun _ => h.closed j (Or.inl hj))
    (by rw [hpg]; exact hm) (show SlotOk K m j q none 0 from ⟨hq, rfl⟩)
  rw [← ha, ← hpg, update_eq_self, update_eq_self] at h'
  refine Or.inl ⟨h', fun l => ?_⟩
  by_cases hl : l = j
  · subst hl
    rw [Kernel.put_proc_self]
    exact iff_of_true hq.state hj
  · rw [Kernel.put_proc_ne hl]

/-- **`fork`.** -/
theorem Kernel.fork_spec (h : KInv K k A pg B noFiles Books.idle) (hrun : (k.proc i).state = .RUNNABLE)
    (ha : A i = some a) : wpm (Kernel.fork K i) (fun _ k' => ForkStep K k A pg B a k') Allowed True k := by
  obtain ⟨-, hwf, T₀, KT₀, hrep, hpg⟩ := h.mem.space ha
  have ho₀ : Owns K k.mem (0 + (∑ l, pg l + (k.pipes.val + B))) := h.mem.owns.congr (zero_add _).symm
  have hG : T₀ ≤ ∑ l, pg l + (k.pipes.val + B) := by
    have hle : T₀ ≤ pg i := by
      rw [hpg, Space.pages_table]
      exact Multiset.le_add_right _ _
    have hsum := Finset.single_le_sum (f := pg) (fun _ _ => Multiset.zero_le _) (Finset.mem_univ i)
    exact (hle.trans hsum).trans (Multiset.le_add_right _ _)
  unfold Kernel.fork
  refine wpm_seq (allocproc_spec ho₀.left (fun l hl => (h.mem.vacant hl).2.2) (Or.inr (by decide))
    (Or.inr trivial)) ?_
  rintro r k₁ (⟨rfl, rfl, -⟩ | ⟨j, hj, ⟨rfl, -, m', l, rfl, hm⟩ |
    ⟨rfl, ⟨m₁, tf, pt, us, kt, ks, T, KT, rfl, hm₁, ht, hk, hpid⟩, -⟩⟩)
  · exact Or.inl ⟨h, fun _ => Iff.rfl⟩
  · exact ForkStep.failed (q := { (k.proc j).freed with locked := l }) h hj
      ⟨rfl, rfl, rfl, rfl, rfl, rfl, Or.inl rfl⟩ rfl rfl hm
  have hij : i ≠ j := by
    rintro rfl
    rw [hrun] at hj
    cases hj
  dsimp only
  rw [wpm_bind, Kernel.wpm_readProc, Kernel.put_proc_ne hij, wpm_bind, Kernel.wpm_readProc_put, wpm_bind,
    Kernel.wpm_vm_put]
  have ho₁ : Owns K m₁ ((Space.empty K j tf us ks).pages T KT + (∑ l, pg l + (k.pipes.val + B))) :=
    ho₀.moves (hm₁.add _)
  have h₀ : PageTable m₁ (k.proc i).pagetable T₀ a.user :=
    hrep.user.congr fun y hy => ho₀.page_eq hm₁ (Multiset.mem_of_le hG hy)
  dsimp only
  rw [hrep.sz]
  refine wpm_mono (wpm_of_wp (Rep.fork_spec h₀ hwf ht hk ho₁ hG)) ?_
  rintro r m₂ ⟨hk₂, hus₂, T', ⟨e, rfl, hf, ht₂, hm₂⟩ | ⟨rfl, ht₂, hm₂⟩⟩
  · have hwf' : (a.forked K j tf us ks e).WF K j := Space.forked_wf hwf hf
    have ho₂ := ho₁.left.moves hm₂
    rw [if_neg (by decide), wpm_bind, Kernel.wpm_modifyProc_put, wpm_bind, Kernel.wpm_vm_put]
    refine wpm_mono (Rep.shadow_spec (a := a.forked K j tf us ks e) ht₂ hk₂ ho₂ (Nat.zero_le _)
      (Nat.le_trans hwf.size (by decide)) hwf'.map.low (Or.inr (by decide))) ?_
    rintro _ m₃ ⟨KT', ht₃, hk₃, hm₃, hus₃⟩
    rw [npages_zero] at hk₃
    have hrep₃ : Rep m₃ { (k.proc j).born k.nextpid tf pt us kt ks with sz := a.sz } (a.forked K j tf us ks e) T' KT' :=
      ⟨ht₃, hk₃, rfl, rfl, rfl, rfl, (Mem.pidAt_congr (hus₃.trans hus₂)).trans hpid⟩
    have ho₃ := ho₂.moves hm₃
    rw [wpm_bind, Kernel.wpm_vm_put, wpm_modify, wpm_bind, Kernel.wpm_vm_put, wpm_modify]
    obtain ⟨hrep₄, hm₄⟩ := hrep₃.write_trapframe ho₃ fun n =>
      if n.val < TF_SIZE then m₃.page (k.proc i).trapframe n else m₃.page tf n
    obtain ⟨hrep₅, hm₅⟩ := hrep₄.write_trapframe (ho₃.moves hm₄)
      (ByteStore.writeLE ((m₃.copyTrapframe tf (k.proc i).trapframe).page tf) TF_A0 8 0)
    obtain ⟨-, hpgj, -⟩ := h.mem.vacant hj
    have hslot : SlotOk K _ j { (k.proc j).born k.nextpid tf pt us kt ks with sz := a.sz }
        (some (a.forked K j tf us ks e)) _ :=
      ⟨(by decide : ProcState.USED ≠ .UNUSED), hwf', T', KT', hrep₅, rfl⟩
    have h₅ := (h.setPid (k.nextpid + 1)).put
      (p := { (k.proc j).born k.nextpid tf pt us kt ks with sz := a.sz }) rfl rfl
      (by rintro (hs | hs) <;> cases hs)
      (by rw [hpgj]; exact (((hm₁.trans hm₂).trans hm₃).trans hm₄).trans hm₅) hslot
    have hfiles := Kernel.forkFiles_spec hij h₅ (by rw [Kernel.put_proc_self]; rfl)
      (by rw [Kernel.put_proc_self]; exact h.closed j (Or.inl hj)) (Kernel.procName (k.proc i).name) k.nextpid
    rw [Kernel.put_proc_ne hij] at hfiles
    refine wpm_mono hfiles ?_
    rintro _ k' ⟨h₆, hother, hself, hfile⟩
    exact Or.inr ⟨j, tf, us, ks, e, _, hj, hf, h₆,
      fun l hl => (hother l hl).trans (Kernel.put_proc_ne hl), hself, hfile⟩
  · have hrep₂ : Rep m₂ ((k.proc j).born k.nextpid tf pt us kt ks) (Space.empty K j tf us ks) T' KT :=
      ⟨ht₂, hk₂, (h.mem.vacant hj).2.2.sz, rfl, rfl, rfl, (Mem.pidAt_congr hus₂).trans hpid⟩
    rw [if_pos (by decide)]
    refine wpm_seq (hrep₂.free_spec (Space.empty_wf K j tf us ks) (ho₁.left.moves hm₂)) ?_
    rintro _ k₃ ⟨m₃, rfl, hm₃⟩
    unfold Kernel.release
    rw [wpm_bind, Kernel.wpm_modifyProc_put]
    exact ForkStep.failed (q := { ((k.proc j).born k.nextpid tf pt us kt ks).freed with locked := false }) h hj
      ⟨rfl, rfl, rfl, rfl, rfl, rfl, Or.inl rfl⟩ rfl rfl ((hm₁.trans hm₂).trans hm₃)

/-! ## `exit` -/

/-- A file keeps what it is until its last reference is gone. -/
def Kernel.FilesKept (k k' : Kernel) : Prop := ∀ f,
  (k'.file f).type = (k.file f).type ∧ (k'.file f).pipe = (k.file f).pipe ∨ (k'.file f).ref = 0

theorem Kernel.FilesKept.close {k₁ k₂ : Kernel} {f : Fin NFILE} (h : k.FilesKept k₁) (hpos : 0 < (k₁.file f).ref)
    (hc : k₁.Closes f k₂) : k.FilesKept k₂ := by
  obtain ⟨F, hF, hf⟩ := hc
  intro g
  rw [hF, Kernel.file_upd]
  split
  · rename_i hg
    subst hg
    rcases h g with ⟨h1, h2⟩ | hz
    · rw [h1, h2] at hf
      exact hf
    · omega
  · exact h g

/-- Slot `me` has given up descriptors. -/
structure Kernel.Shut (k : Kernel) (me : Fin NPROC) (k' : Kernel) : Prop where
  other : ∀ i, i ≠ me → k'.proc i = k.proc i
  self : ∃ of, k'.proc me = { k.proc me with ofile := of }
  file : k.FilesKept k'
  pages : Moves k.mem k.pipes.val k'.mem k'.pipes.val

theorem Kernel.Shut.refl (k : Kernel) (me : Fin NPROC) : k.Shut me k :=
  ⟨fun _ _ => rfl, ⟨_, rfl⟩, fun _ => Or.inl ⟨rfl, rfl⟩, Moves.refl _ _⟩

theorem Kernel.Shut.runnable (h : k.Shut me k') (hrun : (k.proc me).state = .RUNNABLE) :
    (k'.proc me).state = .RUNNABLE := by
  obtain ⟨of, hself⟩ := h.self
  rw [hself]
  exact hrun

/-- One descriptor is closed. -/
theorem Kernel.closeFile_spec {k₁ : Kernel} {fd : Fin NOFILE} {f : Fin NFILE}
    (h : KInv K k₁ A pg B noFiles b) (hs : k.Shut me k₁) (hf : (k₁.proc me).ofile fd = some f)
    (hrun : (k.proc me).state = .RUNNABLE) :
    wpm (do
      Kernel.fileclose K me f
      Kernel.modifyProc me fun p => { p with ofile := update p.ofile fd none })
      (fun _ k' => KInv K k' A pg B noFiles b ∧ k.Shut me k' ∧
        (k'.proc me).ofile = update (k₁.proc me).ofile fd none) Allowed True k₁ := by
  have hpos := h.ref_pos (f := f) (Or.inr ⟨Int.le_refl 0, (me, fd), hf⟩)
  refine wpm_seq (Kernel.fileclose_spec allowed_fs h hpos) ?_
  rintro _ k₂ ⟨h₂, hproc, hm, hc⟩
  rw [Kernel.wpm_modifyProc]
  have hrun₂ : (k₂.proc me).state = .RUNNABLE := by
    rw [hproc]
    exact hs.runnable hrun
  have h₃ := h₂.takeFd (f := f) (by rw [hproc]; exact hf) (runnable_open hrun₂)
  rw [bump_bump, show (-1 : Int) + 1 = 0 by decide, bump_zero] at h₃
  obtain ⟨of, hself⟩ := hs.self
  refine ⟨h₃, ⟨fun i hi => ?_, ?_, hs.file.close hpos hc, hs.pages.trans hm⟩, ?_⟩
  · rw [Kernel.put_proc_ne hi, hproc, hs.other i hi]
  · exact ⟨_, by rw [Kernel.put_proc_self, hproc, hself]⟩
  · rw [Kernel.put_proc_self, hproc]

/-- The loop of `exit` over the open files. -/
theorem Kernel.closeFiles_spec (hrun : (k.proc me).state = .RUNNABLE) : ∀ (fds : List (Fin NOFILE)) (k₁ : Kernel),
    KInv K k₁ A pg B noFiles b → k.Shut me k₁ →
    wpm (Kernel.closeFiles K me fds) (fun _ k' => KInv K k' A pg B noFiles b ∧ k.Shut me k' ∧
      ∀ g, g ∈ fds ∨ (k₁.proc me).ofile g = none → (k'.proc me).ofile g = none) Allowed True k₁
  | [], k₁, h, hs => ⟨h, hs, fun g hg => hg.resolve_left List.not_mem_nil⟩
  | fd :: fds, k₁, h, hs => by
    unfold Kernel.closeFiles
    rw [wpm_bind, Kernel.wpm_readProc]
    cases hf : (k₁.proc me).ofile fd with
    | none =>
      refine wpm_seq (R := fun _ k' => k' = k₁) rfl ?_
      rintro _ k₂ rfl
      refine wpm_mono (Kernel.closeFiles_spec hrun fds k₂ h hs) ?_
      rintro _ k₃ ⟨h₃, hs₃, hnone⟩
      refine ⟨h₃, hs₃, fun g hg => hnone g ?_⟩
      rcases hg with hg | hg
      · rcases List.mem_cons.1 hg with rfl | hg
        · exact Or.inr hf
        · exact Or.inl hg
      · exact Or.inr hg
    | some f =>
      refine wpm_seq (Kernel.closeFile_spec h hs hf hrun) ?_
      rintro _ k₂ ⟨h₂, hs₂, hof⟩
      refine wpm_mono (Kernel.closeFiles_spec hrun fds k₂ h₂ hs₂) ?_
      rintro _ k₃ ⟨h₃, hs₃, hnone⟩
      refine ⟨h₃, hs₃, fun g hg => hnone g ?_⟩
      rw [hof]
      by_cases he : g = fd
      · subst he
        exact Or.inr (update_self ..)
      · rw [update_of_ne he]
        exact hg.imp_left fun hm => (List.mem_cons.1 hm).resolve_left he

/-- Only parents have changed. -/
def Kernel.Reparented (k k' : Kernel) : Prop :=
  ∃ par : Fin NPROC → Option (Fin NPROC), k' = { k with proc := fun l => { k.proc l with parent := par l } }

theorem Kernel.Reparented.refl (k : Kernel) : k.Reparented k := ⟨fun l => (k.proc l).parent, rfl⟩

theorem Kernel.reparentLoop_spec (me : Fin NPROC) : ∀ (is : List (Fin NPROC)) (k₁ : Kernel), k.Reparented k₁ →
    wpm (Kernel.reparentLoop me is) (fun _ k' => k.Reparented k') P True k₁
  | [], _, h => h
  | i :: is, k₁, h => by
    unfold Kernel.reparentLoop
    rw [wpm_bind, Kernel.wpm_readProc]
    refine wpm_seq (R := fun _ k' => k.Reparented k') ?_ fun _ k₂ h₂ => Kernel.reparentLoop_spec me is k₂ h₂
    split
    · refine wpm_seq (R := fun _ k' => k.Reparented k') ?_ ?_
      · obtain ⟨par, rfl⟩ := h
        have hp : update (fun l => { k.proc l with parent := par l }) i
            { k.proc i with parent := k.initproc } =
              fun l => { k.proc l with parent := update par i k.initproc l } := by
          funext l
          by_cases hl : l = i
          · subst hl
            rw [update_self, update_self]
          · rw [update_of_ne hl, update_of_ne hl]
        exact ⟨_, congrArg (fun pr => { k with proc := pr }) hp⟩
      · intro _ k₂ h₂
        refine wpm_mono Kernel.wakeup_spec ?_
        rintro _ k₃ rfl
        exact h₂
    · exact h

theorem KInv.reparented (h : KInv K k A pg B x b) (hr : k.Reparented k') : KInv K k' A pg B x b := by
  obtain ⟨par, rfl⟩ := hr
  exact h.frame rfl rfl rfl (fun _ => rfl) (fun _ => rfl) h.closed
    (h.mem.same rfl fun _ => ⟨Iff.rfl, rfl, rfl, rfl, rfl, rfl, rfl, rfl⟩)

/-- What `exit` leaves behind. -/
structure ExitStep (K : KernelImage) (k : Kernel) (A : Fin NPROC → Option Space) (pg : Fin NPROC → Multiset Nat)
    (B : Multiset Nat) (me : Fin NPROC) (k' : Kernel) : Prop where
  inv : KInv K k' A pg B noFiles Books.idle
  pages : k.Conserves k'
  file : k.FilesKept k'
  other : ∀ l, l ≠ me → ∃ par, k'.proc l = { k.proc l with parent := par }
  closed : (k'.proc me).Closed

/-- `exit` drops the reference of the current directory before it clears the field. -/
theorem Kernel.iputCwd_spec (h : KInv K k A pg B x Books.idle) :
    wpm (Kernel.iputFile (k.proc me).cwd) (fun _ k' => ∃ s ip, k' = { k with fs := s } ∧
      (k.proc me).cwd = some ip ∧ KInv K k' A pg B x (Books.idle.addRef ip (-1))) Allowed True k := by
  cases hip : (k.proc me).cwd with
  | none => exact (by decide : Allowed "kerneltrap")
  | some ip =>
    have hb : (Books.idle.above k.names) = ((Books.idle.addRef ip (-1)).above k.names).addRef ip 1 := by
      rw [Books.above_addRef, Books.addRef_addRef, show (-1 : Int) + 1 = 0 by decide, Books.addRef_zero]
    refine wpm_mono (Kernel.iputFile_spec allowed_fs (hb ▸ h.fs)) ?_
    rintro _ k₁ ⟨s, rfl, hs⟩
    exact ⟨s, ip, rfl, rfl, h.setFs hs⟩

/-- **`exit`** leaves a zombie without files. -/
theorem Kernel.exit_spec (h : KInv K k A pg B noFiles Books.idle) (hrun : (k.proc me).state = .RUNNABLE)
    (status : Int) : wpm (Kernel.exit K me status) (fun _ k' => ExitStep K k A pg B me k') Allowed True k := by
  unfold Kernel.exit
  rw [wpm_bind, wpm_get]
  split
  · exact (by decide : Allowed "init exiting")
  refine wpm_seq (Kernel.closeFiles_spec hrun _ k h (.refl k me)) ?_
  rintro _ k₁ ⟨h₁, hs, hnone⟩
  have hrun₁ := hs.runnable hrun
  rw [wpm_bind, Kernel.wpm_readProc]
  refine wpm_seq (Kernel.iputCwd_spec h₁) ?_
  rintro _ k₂ ⟨s, ip, rfl, hip, h₂⟩
  rw [wpm_bind, Kernel.wpm_modifyProc]
  have h₃ := h₂.takeCwd (i := me) (runnable_open hrun₁) hip
  rw [Books.addRef_addRef, show (-1 : Int) + 1 = 0 by decide, Books.addRef_zero] at h₃
  refine wpm_seq (Kernel.reparentLoop_spec me _ _ (.refl _)) fun _ k₃ hr => ?_
  refine wpm_seq Kernel.wakeup_spec ?_
  rintro _ k₄ rfl
  have h₄ := h₃.reparented hr
  obtain ⟨par, hk₄⟩ := hr
  have hproc : ∀ l, k₄.proc l = { (k₁.put k₁.mem me { k₁.proc me with cwd := none }).proc l with parent := par l } := by
    intro l
    rw [hk₄]
    rfl
  have hclosed : (k₄.proc me).Closed := by
    rw [hproc, Kernel.put_proc_self]
    exact ⟨fun g => hnone g (Or.inl (List.mem_finRange g)), rfl⟩
  have hne : (k₄.proc me).state ≠ .UNUSED := by
    rw [hproc, Kernel.put_proc_self]
    exact (runnable_open hrun₁).1
  have hfile : k₄.file = k₁.file := by rw [hk₄]; rfl
  have hmem : k₄.mem = k₁.mem := by rw [hk₄]; rfl
  refine wpm_seq (acquire_spec (Or.inr trivial)) ?_
  rintro _ k₅ ⟨-, rfl⟩
  unfold Kernel.release
  rw [wpm_bind, Kernel.wpm_modifyProc_put, Kernel.wpm_modifyProc_put]
  have h₅ := h₄.updProc (i := me) (F := fun p => { p with locked := false, xstate := status, state := .ZOMBIE })
    ⟨iff_of_false (fun hz => by cases hz) hne, rfl, rfl, rfl, rfl, rfl, rfl, rfl⟩ rfl rfl fun _ => hclosed
  refine ⟨h₅, ?_, ?_, fun l hl => ⟨par l, ?_⟩, ?_⟩
  · have hp : (k₄.put k₄.mem me { k₄.proc me with locked := false, xstate := status, state := .ZOMBIE }).pipes =
        k₁.pipes := Kernel.pipes_congr hfile
    unfold Kernel.Conserves
    rw [hp, Kernel.put_mem, hmem]
    exact hs.pages.conserve
  · intro f
    rw [Kernel.put_file, hfile]
    exact hs.file f
  · rw [Kernel.put_proc_ne hl, hproc, Kernel.put_proc_ne hl, hs.other l hl]
  · rw [Kernel.put_proc_self]
    exact hclosed

/-! ## `wait` and `kill` -/

/-- Only locks and flags have changed, or a zombie has been freed. -/
def WaitStep (K : KernelImage) (k : Kernel) (A : Fin NPROC → Option Space) (pg : Fin NPROC → Multiset Nat)
    (B : Multiset Nat) (k' : Kernel) : Prop :=
  k'.file = k.file ∧ (∀ l, (k'.proc l).ofile = (k.proc l).ofile) ∧
  ((KInv K k' A pg B noFiles Books.idle ∧ ∀ l, (k'.proc l).state = (k.proc l).state) ∨
    ∃ j, (k.proc j).state = .ZOMBIE ∧ (∀ l, l ≠ j → (k'.proc l).state = (k.proc l).state) ∧
      KInv K k' (Function.update A j none) (Function.update pg j 0) B noFiles Books.idle)

theorem WaitStep.refl (h : KInv K k A pg B noFiles Books.idle) : WaitStep K k A pg B k :=
  ⟨rfl, fun _ => rfl, Or.inl ⟨h, fun _ => rfl⟩⟩

/-- A record in which only the lock or the flag `killed` differs. -/
theorem KInv.setLock (h : KInv K k A pg B x b) (i : Fin NPROC) (l : Bool) :
    KInv K (k.put k.mem i { k.proc i with locked := l }) A pg B x b :=
  h.updProc (F := fun p => { p with locked := l }) ⟨Iff.rfl, rfl, rfl, rfl, rfl, rfl, rfl, rfl⟩ rfl rfl (h.closed i)

theorem Kernel.put_ofile {q : Proc} (hq : q.ofile = (k.proc j).ofile) (l : Fin NPROC) :
    ((k.put m j q).proc l).ofile = (k.proc l).ofile := by
  by_cases hl : l = j
  · subst hl
    rw [Kernel.put_proc_self, hq]
  · rw [Kernel.put_proc_ne hl]

theorem Kernel.put_state {q : Proc} (hq : q.state = (k.proc j).state) (l : Fin NPROC) :
    ((k.put m j q).proc l).state = (k.proc l).state := by
  by_cases hl : l = j
  · subst hl
    rw [Kernel.put_proc_self, hq]
  · rw [Kernel.put_proc_ne hl]

/-- The parent frees a zombie whose lock it holds. -/
theorem Kernel.reap_spec (h : KInv K (k.put m j { k.proc j with locked := true }) A pg B noFiles Books.idle)
    (hz : (k.proc j).state = .ZOMBIE) (pid : Int) :
    wpm (do
      Kernel.freeproc K j
      Kernel.release j
      pure (some pid, true)) (fun _ k' => WaitStep K k A pg B k') Allowed True
      (k.put m j { k.proc j with locked := true }) := by
  have hne : ((k.put m j { k.proc j with locked := true }).proc j).state ≠ .UNUSED := by
    rw [Kernel.put_proc_self]
    dsimp only
    rw [hz]
    decide
  obtain ⟨a, ha⟩ := h.mem.used hne
  obtain ⟨-, hwf, T, KT, hrep, hpg⟩ := h.mem.space ha
  rw [Kernel.put_proc_self, Kernel.put_mem] at hrep
  have ho : Owns K m (a.pages T KT) := hpg ▸ (h.mem.owns_slot j).left
  refine wpm_seq (hrep.free_spec hwf ho) ?_
  rintro _ k₁ ⟨m', rfl, hm⟩
  unfold Kernel.release
  rw [wpm_bind, Kernel.wpm_modifyProc_put]
  have h' := h.put (i := j) (p := { ({ k.proc j with locked := true } : Proc).freed with locked := false })
    (by rw [Kernel.put_proc_self]; rfl) (by rw [Kernel.put_proc_self]; rfl)
    (fun _ => h.closed j (Or.inr (by rw [Kernel.put_proc_self]; exact hz))) (by rw [hpg]; exact hm)
    (show SlotOk K _ j _ none 0 from ⟨⟨rfl, rfl, rfl, rfl, rfl, rfl, Or.inl rfl⟩, rfl⟩)
  rw [Kernel.put_put] at h'
  exact ⟨rfl, Kernel.put_ofile rfl, Or.inr ⟨j, hz, fun l hl => by rw [Kernel.put_proc_ne hl], h'⟩⟩

/-- The scan of `wait`. -/
theorem Kernel.waitLoop_spec (h : KInv K k A pg B noFiles Books.idle) (hrun : (k.proc me).state = .RUNNABLE)
    (addr : Nat) : ∀ (is : List (Fin NPROC)) (havekids : Bool),
    wpm (Kernel.waitLoop K me addr is havekids) (fun _ k' => WaitStep K k A pg B k') Allowed True k
  | [], _ => WaitStep.refl h
  | i :: is, havekids => by
    unfold Kernel.waitLoop
    rw [wpm_bind, Kernel.wpm_readProc]
    split
    · refine wpm_seq (acquire_spec (Or.inr trivial)) ?_
      rintro _ k₁ ⟨hl, rfl⟩
      split
      · rename_i hz
        have hme : me ≠ i := by
          rintro rfl
          rw [hrun] at hz
          cases hz
        have h₁ := h.setLock i true
        have hrun₁ : ((k.put k.mem i { k.proc i with locked := true }).proc me).state = .RUNNABLE := by
          rw [Kernel.put_proc_ne hme]
          exact hrun
        rw [wpm_bind, Kernel.wpm_readProc]
        refine wpm_seq (R := fun _ k' => ∃ m, k' = k.put m i { k.proc i with locked := true } ∧
          KInv K k' A pg B noFiles Books.idle) ?_ ?_
        · split
          · refine wpm_mono (Kernel.copyout_spec h₁ hrun₁ addr _) ?_
            rintro _ k₂ ⟨m, rfl, h₂, -⟩
            exact ⟨m, rfl, h₂⟩
          · exact ⟨k.mem, rfl, h₁⟩
        · rintro r k₂ ⟨m, rfl, h₂⟩
          split
          · unfold Kernel.release
            rw [wpm_bind, Kernel.wpm_modifyProc_put]
            have h₃ := h₂.setLock i false
            rw [Kernel.put_proc_self, Kernel.put_mem, Kernel.put_put] at h₃
            exact ⟨rfl, Kernel.put_ofile rfl, Or.inl ⟨h₃, Kernel.put_state rfl⟩⟩
          · exact Kernel.reap_spec h₂ hz _
      · refine wpm_seq (release_back hl) fun _ k₂ hk => ?_
        rw [hk]
        exact Kernel.waitLoop_spec h hrun addr is true
    · exact Kernel.waitLoop_spec h hrun addr is havekids

/-- **`wait`.** -/
theorem Kernel.wait_spec (h : KInv K k A pg B noFiles Books.idle) (hrun : (k.proc me).state = .RUNNABLE)
    (addr : Nat) : wpm (Kernel.wait K me addr) (fun _ k' => WaitStep K k A pg B k') Allowed True k := by
  unfold Kernel.wait
  refine wpm_seq (Kernel.waitLoop_spec h hrun addr _ _) ?_
  rintro ⟨r, havekids⟩ k₁ h₁
  cases r with
  | some r => exact h₁
  | none =>
    dsimp only
    rw [wpm_bind, Kernel.wpm_readProc]
    split
    · exact h₁
    · trivial

theorem Kernel.killLoop_spec (h : KInv K k A pg B x b) (pid : Int) : ∀ is : List (Fin NPROC),
    wpm (Kernel.killLoop pid is) (fun _ k' => KInv K k' A pg B x b ∧ k'.mem = k.mem ∧ k'.pipes = k.pipes) P True k
  | [] => ⟨h, rfl, rfl⟩
  | i :: is => by
    unfold Kernel.killLoop
    refine wpm_seq (acquire_spec (Or.inr trivial)) ?_
    rintro _ k₁ ⟨hl, rfl⟩
    rw [wpm_bind, Kernel.wpm_readProc_put]
    split
    · unfold Kernel.release
      rw [wpm_bind, Kernel.wpm_modifyProc_put, wpm_bind, Kernel.wpm_modifyProc_put]
      have hused : (if (k.proc i).state = .SLEEPING then .RUNNABLE else (k.proc i).state) = .UNUSED ↔
          (k.proc i).state = .UNUSED := by
        split
        · rename_i hs
          rw [hs]
          decide
        · rfl
      have hclosed : (if (k.proc i).state = .SLEEPING then .RUNNABLE else (k.proc i).state) = .UNUSED ∨
          (if (k.proc i).state = .SLEEPING then .RUNNABLE else (k.proc i).state) = .ZOMBIE → (k.proc i).Closed := by
        split
        · rintro (hs | hs) <;> cases hs
        · exact h.closed i
      have h₂ := h.updProc (i := i) (F := fun p =>
        { p with killed := true, locked := false,
                 state := if p.state = .SLEEPING then .RUNNABLE else p.state })
        ⟨hused, rfl, rfl, rfl, rfl, rfl, rfl, rfl⟩ rfl rfl hclosed
      exact ⟨h₂, rfl, rfl⟩
    · refine wpm_seq (release_back hl) fun _ k₂ hk => ?_
      rw [hk]
      exact Kernel.killLoop_spec h pid is

theorem Kernel.sysSbrk_spec (h : KInv K k A pg B x b) (ha : A i = some a) (n : Int) :
    wpm (Kernel.sysSbrk K i n) (fun _ k' => ∃ a' pg', Space.Sbrk (Kernel.addSize a.sz n) a a' ∧
      KInv K k' (update A i (some a')) pg' B x b) Allowed H k := by
  unfold Kernel.sysSbrk
  rw [wpm_bind, Kernel.wpm_readProc]
  refine wpm_seq (Kernel.growproc_spec h ha (by decide) n) fun r k' h' => ?_
  split
  · exact h'
  · exact h'

end Xv6
