import Xv6.Kernel.Args

/-!
# The new image replaces the old one

* `Image.release_spec` — taking apart an image that has its `usyscall` page mapped.
* `Committed` — what `execCommit` leaves: the process has the new page table, its registers point to the
  arguments, and the pages of the old image are free.
* `exec_spec` — `exec` as a whole, from the two halves of `exec_eq`.
-/

namespace Xv6

open Prog ByteStore Function

/-- A register that the trapframe of process `i` holds. -/
def Kernel.reg (k : Kernel) (i : Fin NPROC) (off : Nat) : Nat := readLE (k.mem.page (k.proc i).trapframe) off 8

section commit

variable {K : KernelImage} {k k₀ k₁ : Kernel} {A : Fin NPROC → Option Space} {pg : Fin NPROC → Multiset Nat}
  {B T : Multiset Nat} {x : Fin NFILE → Int} {b : Books} {i : Fin NPROC} {a : Space} {path : List UInt8}
  {n : NewImage} {e : Nat → Nat} {P : String → Prop} {H : Prop}

theorem Image.release_spec {s : Mem} {pt sz tf us : Nat} (h : Image (fixedEntries K tf us) s pt sz T e)
    (hsz : sz ≤ USER_TOP - PGSIZE) (ho : Owns K s (leafPages e 0 (npages sz) + T)) :
    wpm (uvmunmap K pt USYSCALL 1 false) (fun _ s' => wpm (procFreepagetable K pt sz)
      (fun _ s'' => Moves s (leafPages e 0 (npages sz) + T) s'' 0) P H s') P H s := by
  have hn : npages sz ≤ usyscallVpn := Nat.le_trans (Nat.le_of_lt (Space.npages_lt_user hsz)) (by decide)
  refine wpm_mono (wpm_of_wp (unmapUsyscall_spec h.table h.map hn ho.right)) ?_
  rintro _ s' ⟨hm, ht⟩
  have hm' : Moves s (leafPages e 0 (npages sz) + T) s' (leafPages e 0 (npages sz) + T) :=
    (hm.add _).congr (add_comm _ _) (add_comm _ _)
  have him : Image (trapEntries K tf) s' pt sz T (update e usyscallVpn 0) :=
    ⟨ht, h.map.clearUsyscall hn, h.size⟩
  have hpages := leafPages_usyscall (e := e) hn 0
  have ho' := ho.moves hm'
  rw [← hpages] at ho'
  refine wpm_mono (wpm_of_wp (him.free_spec ho')) ?_
  rintro _ s'' hm''
  rw [hpages] at hm''
  exact hm'.trans hm''

/-- `bad`, once the `usyscall` page has been mapped. -/
theorem Kernel.execBad_spec (h : KInv K k A pg (leafPages e 0 (npages n.sz) + T + B) x b)
    (him : Image (fixedEntries K a.trapframe a.usyscall) k.mem n.pagetable n.sz T e)
    (hsz : n.sz ≤ USER_TOP - PGSIZE) :
    wpm (Kernel.execBad K n.pagetable n.sz true none) (fun r k' => r = -1 ∧ KInv K k' A pg B x b) Allowed True k := by
  unfold Kernel.execBad
  rw [if_pos rfl, wpm_bind, Kernel.wpm_vm]
  refine wpm_mono (him.release_spec hsz h.owns_rest) ?_
  intro _ m hm
  rw [wpm_bind, Kernel.wpm_vm]
  refine wpm_mono hm ?_
  rintro _ m' hm'
  have h' := h.rest hm'
  rw [zero_add] at h'
  exact ⟨rfl, h'⟩

/-- The address space of the process with the new image. -/
def Space.replaced (a : Space) (e : Nat → Nat) (sz : Nat) : Space :=
  { a with sz := sz, user := e, kern := shadowRange a.kern e 0 (npages sz) }

/-- The record of the process with the new image. -/
def Proc.replaced (p : Proc) (path : List UInt8) (n : NewImage) : Proc :=
  { p with name := Kernel.procName (Kernel.baseName path), pagetable := n.pagetable, sz := n.sz }

/-- From `k` on, process `i` has got the image `n`. -/
structure Committed (K : KernelImage) (k : Kernel) (A : Fin NPROC → Option Space) (B : Multiset Nat)
    (x : Fin NFILE → Int) (b : Books) (i : Fin NPROC) (a : Space) (n : NewImage) (sp : Nat) (T : Multiset Nat)
    (e : Nat → Nat) (k' : Kernel) : Prop where
  inv : ∃ pg', KInv K k' (Function.update A i (some (a.replaced e n.sz))) pg' B x b
  table : PageTable k'.mem (k'.proc i).pagetable T e
  size : (k'.proc i).sz = n.sz
  a1 : k'.reg i TF_A1 = sp % 2 ^ 64
  stack : k'.reg i TF_SP = sp % 2 ^ 64
  epc : k'.reg i TF_EPC = n.entry % 2 ^ 64
  kept : ∀ y ∈ leafPages e 0 (npages n.sz), k'.mem.page y = k.mem.page y

/-- The three registers that `exec` sets. -/
def Mem.setRegs (m : Mem) (tf sp entry : Nat) : Mem :=
  ((m.setField tf TF_A1 8 sp).setField tf TF_EPC 8 entry).setField tf TF_SP 8 sp

theorem Mem.setRegs_page (m : Mem) {tf y : Nat} (sp entry : Nat) (hy : y ≠ tf) :
    (m.setRegs tf sp entry).page y = m.page y := by
  unfold Mem.setRegs Mem.setField
  simp only [update_of_ne hy]

theorem Mem.setRegs_moves (m : Mem) {tf : Nat} (sp entry : Nat) {F : Multiset Nat} (h : tf ∈ F) :
    Moves m F (m.setRegs tf sp entry) F :=
  ((setField_moves h).trans (setField_moves h)).trans (setField_moves h)

theorem readLE_writeLE_page (c : Page) {off : Nat} (v : Nat) (h : off + 8 ≤ PGSIZE) :
    readLE (writeLE c off 8 v) off 8 = v % 2 ^ 64 :=
  readLE_writeLE 8 off v c fun j _ hj => show j < PGSIZE by omega

theorem Mem.setRegs_read (m : Mem) (tf sp entry : Nat) :
    readLE ((m.setRegs tf sp entry).page tf) TF_A1 8 = sp % 2 ^ 64 ∧
    readLE ((m.setRegs tf sp entry).page tf) TF_SP 8 = sp % 2 ^ 64 ∧
    readLE ((m.setRegs tf sp entry).page tf) TF_EPC 8 = entry % 2 ^ 64 := by
  unfold Mem.setRegs Mem.setField
  simp only [update_self]
  refine ⟨?_, readLE_writeLE_page _ _ (by decide), ?_⟩
  · rw [readLE_writeLE_disjoint _ _ _ _ _ _ (by decide), readLE_writeLE_disjoint _ _ _ _ _ _ (by decide)]
    exact readLE_writeLE_page _ _ (by decide)
  · rw [readLE_writeLE_disjoint _ _ _ _ _ _ (by decide)]
    exact readLE_writeLE_page _ _ (by decide)

/-- **The image is exchanged.** -/
theorem Kernel.execCommit_spec (ha : A i = some (a.shadow e (npages n.sz)))
    (h : KInv K k A pg (leafPages e 0 (npages n.sz) + T + B) x b)
    (him : Image (fixedEntries K a.trapframe a.usyscall) k.mem n.pagetable n.sz T e)
    (hsz : n.sz ≤ USER_TOP - PGSIZE) (path : List UInt8) (sp argc : Nat) :
    wpm (Kernel.execCommit K i path n.entry n.pagetable n.sz sp argc true) (fun r k' => r = argc ∧
      Committed K k A B x b i a n sp T e k') Allowed True k := by
  obtain ⟨hst, hwf, TT, KT, hrep, hpg⟩ := h.mem.space ha
  have hold : pg i + (leafPages e 0 (npages n.sz) + T) = leafPages a.user 0 (npages a.sz) + TT +
      ({a.trapframe} + ({a.usyscall} + {a.kstack} + KT + (leafPages e 0 (npages n.sz) + T))) := by
    rw [hpg]
    show {a.trapframe} + {a.usyscall} + {a.kstack} + TT + KT + leafPages a.user 0 (npages a.sz) + _ = _
    abel
  have ho := (h.owns_with i).congr hold
  have htf : a.trapframe ∈ leafPages a.user 0 (npages a.sz) + TT +
      ({a.trapframe} + ({a.usyscall} + {a.kstack} + KT + (leafPages e 0 (npages n.sz) + T))) := by simp
  have hus : a.usyscall ≠ 0 := (ho.managed a.usyscall (by simp)).ne_zero
  have hm₁ := k.mem.setRegs_moves sp n.entry htf
  have ho₁ := ho.moves hm₁
  have hpage₁ : ∀ y ∈ leafPages a.user 0 (npages a.sz) + TT + ({a.usyscall} + {a.kstack} + KT +
      (leafPages e 0 (npages n.sz) + T)), (k.mem.setRegs a.trapframe sp n.entry).page y = k.mem.page y := by
    intro y hy
    refine k.mem.setRegs_page sp n.entry ?_
    exact (ho.congr (add_left_comm _ _ _)).ne hy
  have him₁ : Image (fixedEntries K a.trapframe a.usyscall) (k.mem.setRegs a.trapframe sp n.entry)
      (k.proc i).pagetable a.sz TT a.user :=
    ⟨hrep.user.congr fun y hy => hpage₁ y (by simp [hy]), hwf.map, Nat.le_trans hwf.size (by decide)⟩
  unfold Kernel.execCommit
  rw [wpm_bind, Kernel.wpm_readProc, wpm_bind, Kernel.wpm_vm_slot i, wpm_modify, wpm_bind, Kernel.wpm_modifyProc_put]
  change wpm _ _ _ _ (k.put _ i ((k.proc i).replaced path n))
  generalize hq : (k.proc i).replaced path n = q
  rw [wpm_bind, Kernel.wpm_vm_put, wpm_modify, wpm_bind, Kernel.wpm_vm_put, wpm_modify, wpm_bind, hrep.trapframe,
    hrep.usyscall, if_pos ⟨hus, rfl⟩, Kernel.wpm_vm_put]
  change wpm (uvmunmap K (k.proc i).pagetable USYSCALL 1 false) _ _ _ (k.mem.setRegs a.trapframe sp n.entry)
  refine wpm_mono (him₁.release_spec hwf.size ho₁.left) ?_
  intro _ m₂ hm₂
  rw [wpm_bind, Kernel.wpm_vm_put, hrep.sz]
  refine wpm_mono hm₂ ?_
  rintro _ m₃ hm₃
  have hpage₃ : ∀ y ∈ {a.usyscall} + {a.kstack} + KT + (leafPages e 0 (npages n.sz) + T),
      m₃.page y = k.mem.page y := by
    intro y hy
    refine (ho₁.page_eq hm₃ (Multiset.mem_add.2 (Or.inr hy))).trans (hpage₁ y (Multiset.mem_add.2 (Or.inr hy)))
  have htf₃ : m₃.page a.trapframe = (k.mem.setRegs a.trapframe sp n.entry).page a.trapframe :=
    ho₁.page_eq hm₃ (by simp)
  have ht₃ : PageTable m₃ n.pagetable T e := him.table.congr fun y hy => hpage₃ y (by simp [hy])
  have hrep₃ : Rep m₃ q (a.replaced e n.sz) T KT := by
    rw [← hq]
    exact ⟨ht₃, hrep.kern.congr fun y hy => hpage₃ y (by simp [hy]), rfl, hrep.trapframe, hrep.usyscall, hrep.kstack,
      (Mem.pidAt_congr (hpage₃ a.usyscall (by simp))).trans hrep.pid⟩
  have hwf₃ : (a.replaced e n.sz).WF K i :=
    ⟨him.map, hsz, hwf.high, hwf.leaf⟩
  have hnew : {a.trapframe} + ({a.usyscall} + {a.kstack} + KT + (leafPages e 0 (npages n.sz) + T)) =
      (a.replaced e n.sz).pages T KT := by
    show _ = {a.trapframe} + {a.usyscall} + {a.kstack} + T + KT + leafPages e 0 (npages n.sz)
    abel
  have hmoves : Moves k.mem (pg i + (leafPages e 0 (npages n.sz) + T)) m₃ ((a.replaced e n.sz).pages T KT + 0) := by
    rw [hold, ← hnew, add_zero]
    refine hm₁.trans ((hm₃.add _).congr rfl (zero_add _))
  have hslot : SlotOk K m₃ i q (some (a.replaced e n.sz))
      ((a.replaced e n.sz).pages T KT) := ⟨hq ▸ hst, hwf₃, T, KT, hrep₃, rfl⟩
  have h₃ := h.exchange (p := q) (hq ▸ rfl) (hq ▸ rfl) (hq ▸ h.closed i) hmoves hslot
  rw [zero_add] at h₃
  have hproc : (k.put m₃ i q).proc i = q :=
    Kernel.put_proc_self ..
  have hreg : ∀ off, (k.put m₃ i q).reg i off =
      readLE ((k.mem.setRegs a.trapframe sp n.entry).page a.trapframe) off 8 := by
    intro off
    unfold Kernel.reg
    rw [hproc, Kernel.put_mem, hrep₃.trapframe]
    exact congrArg (readLE · off 8) htf₃
  obtain ⟨hr1, hr2, hr3⟩ := k.mem.setRegs_read a.trapframe sp n.entry
  refine ⟨rfl, ⟨_, h₃⟩, ?_, ?_, (hreg _).trans hr1, (hreg _).trans hr2, (hreg _).trans hr3,
    fun y hy => hpage₃ y (by simp [hy])⟩
  · show PageTable m₃ (Kernel.proc _ i).pagetable T e
    rw [hproc]
    exact hrep₃.user
  · show (Kernel.proc _ i).sz = n.sz
    rw [hproc, hrep₃.sz]
    rfl

/-! ## `exec` -/

/-- `exec` has failed: nothing has changed, or the kernel page table of the process has the shadow of an image
that has been freed. -/
inductive ExecFailed (K : KernelImage) (k : Kernel) (A : Fin NPROC → Option Space) (pg : Fin NPROC → Multiset Nat)
    (B : Multiset Nat) (x : Fin NFILE → Int) (b : Books) (i : Fin NPROC) (a : Space) (path : List UInt8)
    (k' : Kernel) : Prop where
  | early : KInv K k' A pg B x b → ExecFailed K k A pg B x b i a path k'
  | late {n : NewImage} {k₁ : Kernel} {pg' : Fin NPROC → Multiset Nat} {T : Multiset Nat} {e : Nat → Nat} :
      Built K k A B x b i a path n pg' T e k₁ →
      KInv K k' (Function.update A i (some (a.shadow e (npages n.sz)))) pg' B x b →
      ExecFailed K k A pg B x b i a path k'

/-- `exec` has succeeded: `k₁` is the state in which the image is complete, `k₂` the one in which its arguments
are. -/
structure Executed (K : KernelImage) (k : Kernel) (A : Fin NPROC → Option Space) (B : Multiset Nat)
    (x : Fin NFILE → Int) (b : Books) (i : Fin NPROC) (a : Space) (path : List UInt8) (argv : List (List UInt8))
    (n : NewImage) (k₁ : Kernel) (sp : Nat) (ustack : List Nat) (T : Multiset Nat) (e : Nat → Nat) (k' : Kernel) :
    Prop where
  build : Kernel.buildImage K i path k = .ok (some n) k₁
  built : ∃ pg, Built K k A B x b i a path n pg T e k₁
  push : ∃ k₂, Pushing k₁ n e k₂ ∧ Passed (k₂.mem.userByte e) n.sz argv sp ustack ∧
    Committed K k₂ A B x b i a n sp T e k'

/-- The arguments and the exchange. -/
theorem Built.execArgs_spec (h : Built K k₀ A B x b i a path n pg T e k₁) (argv : List (List UInt8)) :
    wpm (Kernel.pushImage K i path argv n) (fun r k' =>
      r = -1 ∧ KInv K k' (update A i (some (a.shadow e (npages n.sz)))) pg B x b ∨
      r = argv.length ∧ ∃ k₂ sp ustack, Pushing k₁ n e k₂ ∧ Passed (k₂.mem.userByte e) n.sz argv sp ustack ∧
        Committed K k₂ A B x b i a n sp T e k') Allowed True k₁ := by
  -- every failure frees the image and leaves its shadow
  have hbad : ∀ k, Pushing k₁ n e k → wpm (Kernel.execBad K n.pagetable n.sz true none) (fun r k' =>
      r = -1 ∧ KInv K k' (update A i (some (a.shadow e (npages n.sz)))) pg B x b ∨
      r = argv.length ∧ ∃ k₂ sp ustack, Pushing k₁ n e k₂ ∧ Passed (k₂.mem.userByte e) n.sz argv sp ustack ∧
        Committed K k₂ A B x b i a n sp T e k') Allowed True k := by
    intro k hp
    refine wpm_mono (Kernel.execBad_spec (h.inv_push hp) (h.image_push hp) h.top) ?_
    rintro r k' ⟨rfl, h'⟩
    exact Or.inl ⟨rfl, h'⟩
  have hstart : Pushed k₁ n e [] n.sz [] k₁ :=
    ⟨.refl .., rfl, Nat.sub_le _ _, Nat.le_refl _, Laid.nil _ _ _⟩
  unfold Kernel.pushImage Kernel.execArgs
  rw [h.mapped]
  refine wpm_seq (h.pushArgs_spec rfl argv 0 hstart) ?_
  rintro (_ | ⟨sp, ustack⟩) k hp
  · exact hbad k hp
  dsimp only at hp ⊢
  rw [List.nil_append] at hp
  generalize hsp' : Kernel.pushDown sp ((argv.length + 1) * 8) = sp'
  generalize hbase : n.sz - PGSIZE = base
  split
  · exact hbad k hp.push
  rename_i hlow
  refine wpm_seq (h.array_spec hp hsp'.symm (hbase ▸ Nat.le_of_not_lt hlow)) ?_
  rintro r k₂ ⟨hp₂, hr⟩
  split
  · exact hbad k₂ hp₂
  rename_i hneg
  have ha : update A i (some (a.shadow e (npages n.sz))) i = some (a.shadow e (npages n.sz)) :=
    update_self ..
  refine wpm_mono (Kernel.execCommit_spec ha (h.inv_push hp₂) (h.image_push hp₂) h.top path sp' argv.length) ?_
  rintro r k' ⟨rfl, ⟨pg', hinv⟩, htab, hsz, h1, h2, h3, hkept⟩
  rw [update_idem] at hinv
  exact Or.inr ⟨rfl, k₂, sp', ustack, hp₂, hr.resolve_left hneg, ⟨pg', hinv⟩, htab, hsz, h1, h2, h3, hkept⟩

/-- **`exec`** fails and leaves the image of the process, or succeeds. -/
theorem Kernel.exec_spec (h : KInv K k A pg B x b) (hb : ∀ ip, 0 ≤ b.ref ip) (ha : A i = some a)
    (path : List UInt8) (argv : List (List UInt8)) :
    wpm (Kernel.exec K i path argv) (fun r k' => r = -1 ∧ ExecFailed K k A pg B x b i a path k' ∨
      r = argv.length ∧ ∃ n k₁ sp ustack T e, Executed K k A B x b i a path argv n k₁ sp ustack T e k')
      Allowed True k := by
  rw [← Kernel.exec_eq]
  refine wpm_seq (wpm_run (Kernel.buildImage_spec h hb ha path)) ?_
  rintro (_ | n) k₁ ⟨hbuilt, hrun⟩
  · exact Or.inl ⟨rfl, .early hbuilt⟩
  obtain ⟨pg', T, e, hbuilt⟩ := hbuilt
  refine wpm_mono (hbuilt.execArgs_spec argv) ?_
  rintro r k' (⟨rfl, h'⟩ | ⟨rfl, k₂, sp, ustack, hp, hpass, hcom⟩)
  · exact Or.inl ⟨rfl, .late hbuilt h'⟩
  · exact Or.inr ⟨rfl, n, k₁, sp, ustack, T, e, hrun, ⟨pg', hbuilt⟩, k₂, hp, hpass, hcom⟩

end commit

end Xv6
