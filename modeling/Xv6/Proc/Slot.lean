import Xv6.Proc.Space

/-!
# Process slots and the pages they own

* `Kernel.put` — the kernel with another memory and another record in one slot; most of `kernel/proc.c`
  works on these two alone.
* `Rep` — the page tables of a process hold an address space.
* `SlotOk` — a slot is vacant and owns nothing, or it holds an address space and owns its pages.
* `MemInv` — every page that `kfree` accepts is free, or owned by one slot, or in the rest `R`.
-/

namespace Xv6

open Prog Function

namespace Kernel

variable {α : Type} {P : String → Prop} {H : Prop} {k : Kernel} {m : Mem} {i j : Fin NPROC} {p : Proc}

/-- The kernel with the memory `m` and the record `p` in slot `j`. -/
def put (k : Kernel) (m : Mem) (j : Fin NPROC) (p : Proc) : Kernel :=
  { k with mem := m, proc := Function.update k.proc j p }

@[simp] theorem put_mem : (k.put m j p).mem = m := rfl
@[simp] theorem put_file : (k.put m j p).file = k.file := rfl
@[simp] theorem put_pipe : (k.put m j p).pipe = k.pipe := rfl
@[simp] theorem put_fs : (k.put m j p).fs = k.fs := rfl
@[simp] theorem put_proc_self : (k.put m j p).proc j = p := update_self ..

theorem put_proc_ne (h : i ≠ j) : (k.put m j p).proc i = k.proc i := update_of_ne h ..

theorem put_self : k.put k.mem j (k.proc j) = k := by
  unfold put
  rw [update_eq_self]

theorem put_put {m' : Mem} {p' : Proc} : (k.put m j p).put m' j p' = k.put m' j p' := by
  unfold put
  rw [update_idem]

theorem updProc_eq_put {f : Proc → Proc} : k.updProc j f = k.put k.mem j (f (k.proc j)) := rfl

theorem put_updProc {f : Proc → Proc} : (k.put m j p).updProc j f = k.put m j (f p) := by
  rw [updProc_eq_put, put_proc_self, put_put, put_mem]

section rules

variable {x : Prog Mem α} {Q : α → Kernel → Prop}

theorem wpm_vm : wpm (vm x) Q P H k ↔ wpm x (fun a m => Q a { k with mem := m }) P H k.mem := wpm_zoom ..

theorem wpm_vm_put : wpm (vm x) Q P H (k.put m j p) ↔ wpm x (fun a m' => Q a (k.put m' j p)) P H m := wpm_zoom ..

/-- The same, with the slot `i` named. -/
theorem wpm_vm_slot (i : Fin NPROC) :
    wpm (vm x) Q P H k ↔ wpm x (fun a m' => Q a (k.put m' i (k.proc i))) P H k.mem := by
  have h := wpm_vm_put (x := x) (Q := Q) (P := P) (H := H) (k := k) (m := k.mem) (j := i) (p := k.proc i)
  rwa [put_self] at h

theorem wpm_readProc {Q : Proc → Kernel → Prop} : wpm (readProc i) Q P H k ↔ Q (k.proc i) k := Iff.rfl

theorem wpm_readProc_put {Q : Proc → Kernel → Prop} :
    wpm (readProc j) Q P H (k.put m j p) ↔ Q p (k.put m j p) := by
  rw [wpm_readProc, put_proc_self]

theorem wpm_modifyProc {Q : Unit → Kernel → Prop} {f : Proc → Proc} :
    wpm (modifyProc j f) Q P H k ↔ Q () (k.put k.mem j (f (k.proc j))) := Iff.rfl

theorem wpm_modifyProc_put {Q : Unit → Kernel → Prop} {f : Proc → Proc} :
    wpm (modifyProc j f) Q P H (k.put m j p) ↔ Q () (k.put m j (f p)) := by
  rw [wpm_modifyProc, put_proc_self, put_put, put_mem]

/-- A conditional step on the memory. -/
theorem wpm_vm_ite {c : Prop} [Decidable c] {x : Prog Mem Unit} {Q : Unit → Kernel → Prop} :
    wpm (if c then vm x else pure ()) Q P H (k.put m j p) ↔
      wpm (if c then x else pure ()) (fun _ m' => Q () (k.put m' j p)) P H m := by
  split
  · exact wpm_vm_put
  · exact Iff.rfl

end rules

end Kernel

/-! ## Slots -/

/-- The pages of a process, when its tables lie in `T` and `KT`. -/
def Space.pages (a : Space) (T KT : Multiset Nat) : Multiset Nat :=
  {a.trapframe} + {a.usyscall} + {a.kstack} + T + KT + leafPages a.user 0 (npages a.sz)

/-- The `pid` that `ugetpid` reads from the page at `us`. -/
def Mem.pidAt (s : Mem) (us : Nat) : Nat := ByteStore.readLE (s.page us) 0 4

theorem Mem.pidAt_congr {s s' : Mem} {us : Nat} (h : s'.page us = s.page us) : s'.pidAt us = s.pidAt us := by
  unfold Mem.pidAt
  rw [h]

/-- The page tables of `p` hold the address space `a`, and its `usyscall` page holds its `pid`. -/
structure Rep (s : Mem) (p : Proc) (a : Space) (T KT : Multiset Nat) : Prop where
  user : PageTable s p.pagetable T a.user
  kern : PageTable s p.kpagetable KT a.kern
  sz : p.sz = a.sz
  trapframe : p.trapframe = a.trapframe
  usyscall : p.usyscall = a.usyscall
  kstack : p.kstack = a.kstack
  pid : s.pidAt a.usyscall = p.pid % 2 ^ 32

/-- A free slot.  `procinit` sets `kstack` to an address in the kernel's page table; `freeproc` clears it. -/
structure Vacant (i : Nat) (p : Proc) : Prop where
  state : p.state = .UNUSED
  pagetable : p.pagetable = 0
  kpagetable : p.kpagetable = 0
  trapframe : p.trapframe = 0
  usyscall : p.usyscall = 0
  sz : p.sz = 0
  kstack : p.kstack = 0 ∨ p.kstack = KSTACK i

/-- Slot `i` holds the address space `oa` and owns the pages `F`. -/
def SlotOk (K : KernelImage) (s : Mem) (i : Nat) (p : Proc) (oa : Option Space) (F : Multiset Nat) : Prop :=
  match oa with
  | none => Vacant i p ∧ F = 0
  | some a => p.state ≠ .UNUSED ∧ a.WF K i ∧ ∃ T KT, Rep s p a T KT ∧ F = a.pages T KT

/-- The fields that `SlotOk` reads. -/
structure Proc.SameMem (p q : Proc) : Prop where
  state : q.state = .UNUSED ↔ p.state = .UNUSED
  pagetable : q.pagetable = p.pagetable
  kpagetable : q.kpagetable = p.kpagetable
  trapframe : q.trapframe = p.trapframe
  usyscall : q.usyscall = p.usyscall
  sz : q.sz = p.sz
  kstack : q.kstack = p.kstack
  pid : q.pid = p.pid

theorem Proc.SameMem.refl (p : Proc) : p.SameMem p := ⟨Iff.rfl, rfl, rfl, rfl, rfl, rfl, rfl, rfl⟩

variable {K : KernelImage} {s s' : Mem} {i : Nat} {p q : Proc} {a : Space} {oa : Option Space}
  {F F' G T KT : Multiset Nat}

theorem Rep.congr (h : Rep s p a T KT) (hq : p.SameMem q) (hT : ∀ x ∈ T, s'.page x = s.page x)
    (hKT : ∀ x ∈ KT, s'.page x = s.page x) (hus : s'.page a.usyscall = s.page a.usyscall) :
    Rep s' q a T KT where
  user := hq.pagetable ▸ h.user.congr hT
  kern := hq.kpagetable ▸ h.kern.congr hKT
  sz := hq.sz.trans h.sz
  trapframe := hq.trapframe.trans h.trapframe
  usyscall := hq.usyscall.trans h.usyscall
  kstack := hq.kstack.trans h.kstack
  pid := by rw [Mem.pidAt_congr hus, h.pid, hq.pid]

/-- The tables are among the pages. -/
theorem Space.mem_pages_of_table {x : Nat} (hx : x ∈ T ∨ x ∈ KT) : x ∈ a.pages T KT := by
  unfold Space.pages
  simp only [Multiset.mem_add]
  tauto

theorem Space.usyscall_mem_pages : a.usyscall ∈ a.pages T KT := by
  unfold Space.pages
  simp

/-- A slot depends on its own pages only. -/
theorem SlotOk.congr (h : SlotOk K s i p oa F) (hq : p.SameMem q) (hF : ∀ x ∈ F, s'.page x = s.page x) :
    SlotOk K s' i q oa F := by
  cases oa with
  | none =>
    obtain ⟨hv, rfl⟩ := h
    exact ⟨⟨hq.state.2 hv.state, hq.pagetable.trans hv.pagetable, hq.kpagetable.trans hv.kpagetable,
      hq.trapframe.trans hv.trapframe, hq.usyscall.trans hv.usyscall, hq.sz.trans hv.sz,
      hq.kstack.symm ▸ hv.kstack⟩, rfl⟩
  | some a =>
    obtain ⟨hst, hwf, T, KT, hrep, rfl⟩ := h
    refine ⟨fun hs => hst (hq.state.1 hs), hwf, T, KT, ?_, rfl⟩
    exact hrep.congr hq (fun x hx => hF x (Space.mem_pages_of_table (Or.inl hx)))
      (fun x hx => hF x (Space.mem_pages_of_table (Or.inr hx))) (hF _ Space.usyscall_mem_pages)

/-! ## All slots -/

/-- Every page is free, or belongs to one slot, or to the rest `R`. -/
structure MemInv (K : KernelImage) (k : Kernel) (A : Fin NPROC → Option Space)
    (pg : Fin NPROC → Multiset Nat) (R : Multiset Nat) : Prop where
  slot : ∀ i : Fin NPROC, SlotOk K k.mem i (k.proc i) (A i) (pg i)
  owns : Owns K k.mem (∑ i, pg i + R)
  all : ∀ x, Managed K x → x ∈ ∑ i, pg i + R + (↑k.mem.freelist : Multiset Nat)

section inv

variable {k k' : Kernel} {A : Fin NPROC → Option Space} {pg : Fin NPROC → Multiset Nat}
  {R R' : Multiset Nat} {j : Fin NPROC}

/-- The pages of the other slots. -/
def others (pg : Fin NPROC → Multiset Nat) (j : Fin NPROC) : Multiset Nat := ∑ i ∈ Finset.univ.erase j, pg i

theorem sum_eq_others (pg : Fin NPROC → Multiset Nat) (j : Fin NPROC) : ∑ i, pg i = pg j + others pg j :=
  (Finset.add_sum_erase _ pg (Finset.mem_univ j)).symm

theorem others_update (pg : Fin NPROC → Multiset Nat) (j : Fin NPROC) (F : Multiset Nat) :
    others (update pg j F) j = others pg j := by
  refine Finset.sum_congr rfl fun i hi => ?_
  rw [update_of_ne (Finset.ne_of_mem_erase hi)]

theorem mem_others {i : Fin NPROC} {x : Nat} (h : i ≠ j) (hx : x ∈ pg i) : x ∈ others pg j :=
  Multiset.mem_of_le (Finset.single_le_sum (f := pg) (fun _ _ => Multiset.zero_le _)
    (Finset.mem_erase.2 ⟨h, Finset.mem_univ i⟩)) hx

theorem MemInv.owns_slot (h : MemInv K k A pg R) (j : Fin NPROC) :
    Owns K k.mem (pg j + (others pg j + R)) :=
  h.owns.congr (by rw [sum_eq_others pg j, add_assoc])

/-- **One slot and the rest change.** -/
theorem MemInv.change (h : MemInv K k A pg R) (hR : R = F + G) (hR' : R' = F' + G) {X : Multiset Nat}
    (hm : Moves k.mem (pg j + F) k'.mem (X + F')) (hother : ∀ i, i ≠ j → (k.proc i).SameMem (k'.proc i))
    (hslot : SlotOk K k'.mem j (k'.proc j) oa X) :
    MemInv K k' (update A j oa) (update pg j X) R' := by
  have hsum : ∑ i, update pg j X i + R' = X + F' + (others pg j + G) := by
    rw [sum_eq_others _ j, others_update, update_self, hR']
    abel
  have hold : ∑ i, pg i + R = pg j + F + (others pg j + G) := by
    rw [sum_eq_others pg j, hR]
    abel
  have ho : Owns K k.mem (pg j + F + (others pg j + G)) := hold ▸ h.owns
  have hm' := hm.add (others pg j + G)
  refine ⟨?_, ?_, ?_⟩
  · intro i
    by_cases hi : i = j
    · subst hi
      rw [update_self, update_self]
      exact hslot
    · rw [update_of_ne hi, update_of_ne hi]
      refine (h.slot i).congr (hother i hi) ?_
      intro x hx
      exact ho.page_eq hm (Multiset.mem_add.2 (Or.inl (mem_others hi hx)))
  · rw [hsum]
    exact ho.moves hm'
  · intro x hx
    rw [hsum, hm'.conserve, ← hold]
    exact h.all x hx

/-- Only one slot changes. -/
theorem MemInv.update (h : MemInv K k A pg R) {X : Multiset Nat} (hm : Moves k.mem (pg j) k'.mem X)
    (hother : ∀ i, i ≠ j → (k.proc i).SameMem (k'.proc i))
    (hslot : SlotOk K k'.mem j (k'.proc j) oa X) :
    MemInv K k' (update A j oa) (update pg j X) R :=
  h.change (zero_add R).symm (zero_add R).symm ((hm.add 0)) hother hslot

/-- Nothing that matters to the slots changes, but pages of the rest are taken or given back. -/
theorem MemInv.rest (h : MemInv K k A pg R) (hR : R = F + G) (hR' : R' = F' + G)
    (hm : Moves k.mem F k'.mem F') (hsame : ∀ i, (k.proc i).SameMem (k'.proc i)) : MemInv K k' A pg R' := by
  have hsum : ∀ X, ∑ i, pg i + (X + G) = X + (∑ i, pg i + G) := fun X => by abel
  have ho : Owns K k.mem (F + (∑ i, pg i + G)) := (hsum F) ▸ hR ▸ h.owns
  have hm' := hm.add (∑ i, pg i + G)
  refine ⟨?_, ?_, ?_⟩
  · intro i
    refine (h.slot i).congr (hsame i) ?_
    intro x hx
    refine ho.page_eq hm (Multiset.mem_add.2 (Or.inl ?_))
    exact Multiset.mem_of_le (Finset.single_le_sum (f := pg) (fun _ _ => Multiset.zero_le _)
      (Finset.mem_univ i)) hx
  · rw [hR', hsum]
    exact ho.moves hm'
  · intro x hx
    rw [hR', hsum, hm'.conserve, ← hsum F, ← hR]
    exact h.all x hx

/-- The memory and what matters to the slots stay. -/
theorem MemInv.same (h : MemInv K k A pg R) (hmem : k'.mem = k.mem)
    (hsame : ∀ i, (k.proc i).SameMem (k'.proc i)) : MemInv K k' A pg R :=
  h.rest (zero_add R).symm (zero_add R).symm (hmem ▸ Moves.refl k.mem 0) hsame

/-- A slot in use holds an address space. -/
theorem MemInv.used (h : MemInv K k A pg R) (hj : (k.proc j).state ≠ .UNUSED) : ∃ a, A j = some a := by
  cases ha : A j with
  | none =>
    have hs := h.slot j
    rw [ha] at hs
    exact absurd hs.1.state hj
  | some a => exact ⟨a, rfl⟩

theorem MemInv.space (h : MemInv K k A pg R) {a : Space} (ha : A j = some a) :
    (k.proc j).state ≠ .UNUSED ∧ a.WF K j ∧ ∃ T KT, Rep k.mem (k.proc j) a T KT ∧ pg j = a.pages T KT := by
  have hs := h.slot j
  rw [ha] at hs
  exact hs

/-- The pages of a process, with those of user memory in front. -/
theorem Space.pages_user (a : Space) (T KT : Multiset Nat) : a.pages T KT =
    leafPages a.user 0 (npages a.sz) + (T + ({a.trapframe} + {a.usyscall} + {a.kstack} + KT)) := by
  unfold Space.pages
  abel

/-- User code can write to its own memory only. -/
theorem Space.WF.writable {a : Space} (h : a.WF K i) {v : Nat} (hv : v < vpns) (hw : Writable (a.user v)) :
    v < npages a.sz := by
  by_contra hn
  rw [h.map.high v (Nat.le_of_not_lt hn) hv] at hw
  exact fixedEntries_not_writable hw

/-- **`copyout`** to a process writes its user memory only. -/
theorem MemInv.copyout (h : MemInv K k A pg R) {a : Space} (ha : A j = some a) (addr : Nat) (bs : List UInt8)
    {E : Mem → Prop} :
    wp (copyout (k.proc j).pagetable addr bs) (fun r m => MemInv K { k with mem := m } A pg R ∧
      m.freelist = k.mem.freelist ∧ (r = 0 ∨ r = -1)) E k.mem := by
  obtain ⟨hst, hwf, T, KT, hrep, hpg⟩ := h.space ha
  have ho : Owns K k.mem (leafPages a.user 0 (npages a.sz) +
      (T + ({a.trapframe} + {a.usyscall} + {a.kstack} + KT))) := by
    rw [← Space.pages_user, ← hpg]
    exact (h.owns_slot j).left
  have ho' : Owns K k.mem (leafPages a.user 0 (npages a.sz) + T) :=
    (ho.congr (add_assoc _ _ _).symm).left
  have hU : ∀ v, v < vpns → Writable (a.user v) → PTE2PA (a.user v) ∈ leafPages a.user 0 (npages a.sz) :=
    fun v hv hw => mem_leafPages.2 ⟨v, Nat.zero_le v, hwf.writable hv hw, rfl⟩
  refine wp_mono (copyout_spec hrep.user ho' hU) ?_ fun _ h => h
  rintro r m ⟨hm, hfree, hr, -⟩
  refine ⟨?_, hfree, hr⟩
  have hpage : ∀ y ∈ T + ({a.trapframe} + {a.usyscall} + {a.kstack} + KT), m.page y = k.mem.page y :=
    fun y hy => ho.page_eq hm hy
  have hslot : SlotOk K m j (k.proc j) (some a) (pg j) := by
    refine ⟨hst, hwf, T, KT, ?_, hpg⟩
    refine hrep.congr (Proc.SameMem.refl _) (fun y hy => hpage y (Multiset.mem_add.2 (Or.inl hy))) ?_
      (hpage _ (by simp))
    intro y hy
    exact hpage y (Multiset.mem_add.2 (Or.inr (Multiset.mem_add.2 (Or.inr hy))))
  have hmoves : Moves k.mem (pg j) m (pg j) := by
    rw [hpg, Space.pages_user]
    exact hm.add _
  have h' : MemInv K { k with mem := m } _ _ _ := h.update hmoves (fun i _ => Proc.SameMem.refl _) hslot
  rwa [← ha, update_eq_self, update_eq_self] at h'

end inv

end Xv6
