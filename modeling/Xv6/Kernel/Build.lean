import Xv6.Kernel.Image

/-!
# The new image, before the arguments

`exec` is cut in two: `buildImage` runs up to the point where the arguments are pushed, `execArgs` from
there on (`exec_eq`).

* `Stacked` — the image has its guard page and its stack, the kernel page table of the process shadows it,
  and the process itself still has its old image.
* `buildStack_spec`, `buildImage_spec` — such an image, or none and everything given back; a process whose
  `exec` fails late keeps the shadow of the image that has been freed.
-/

namespace Xv6

open Prog Function

/-- What `exec` has built when it begins to push the arguments. -/
structure NewImage where
  entry : Nat
  pagetable : Nat
  sz : Nat
  usyscallMapped : Bool

namespace Kernel

variable (K : KernelImage)

/-- The label `bad`. -/
def dropImage {α : Type} (pagetable sz : Nat) (ip : Option (Fin NINODE)) : Prog Kernel (Option α) := do
  let _ ← execBad K pagetable sz false ip
  pure none

def leaveFile {α : Type} (ip : Fin NINODE) : Prog Kernel (Option α) := do
  let _ ← execClose ip
  pure none

/-- Go on with the result of a step that can fail. -/
def orFail {α : Type} (f : α → Prog Kernel Int) : Option α → Prog Kernel Int
  | none => pure (-1)
  | some a => f a

/-- The shadow mappings and the `usyscall` page. -/
def attachImage (i : Fin NPROC) (entry pagetable sz : Nat) : Prog Kernel (Option NewImage) := do
  let p ← readProc i
  vm (kvmdealloc p.kpagetable p.sz 0)
  vm (u2kvmcopy pagetable p.kpagetable 0 sz)
  if p.usyscall ≠ 0 then do
    vm (modify fun s => s.setField p.usyscall 0 4 p.pid)
    let r ← vm (mappages pagetable USYSCALL PGSIZE p.usyscall (PTE_R ||| PTE_U))
    if r < 0 then dropImage K pagetable sz none
    else pure (some ⟨entry, pagetable, sz, true⟩)
  else pure (some ⟨entry, pagetable, sz, false⟩)

/-- `execStack` up to the arguments. -/
def buildStack (i : Fin NPROC) (entry pagetable sz : Nat) : Prog Kernel (Option NewImage) := do
  let sz1 ← vm (uvmalloc K pagetable (PGROUNDUP sz) (PGROUNDUP sz + 2 * PGSIZE) PTE_W)
  if sz1 = 0 then dropImage K pagetable (PGROUNDUP sz) none
  else do
    vm (uvmclear pagetable (sz1 - 2 * PGSIZE))
    if PGROUNDUP sz1 ≥ USER_TOP then dropImage K pagetable sz1 none
    else attachImage K i entry pagetable sz1

/-- `exec` up to the arguments. -/
def buildImage (i : Fin NPROC) (path : List UInt8) : Prog Kernel (Option NewImage) := do
  let p ← readProc i
  fsys Fs.beginOp
  match ← fsys (Fs.namei p.cwd path) with
  | none => do
    fsys Fs.endOp
    pure none
  | some ip => do
    fsys (Fs.ilock ip)
    let (r, bs) ← fsys (Fs.readiKernel ip 0 ELFHDR_SIZE)
    let elf := ElfHdr.parse bs
    if r ≠ ELFHDR_SIZE then leaveFile ip
    else if elf.magic ≠ ELF_MAGIC then leaveFile ip
    else do
      match ← vm (procPagetable K p.trapframe) with
      | none => leaveFile ip
      | some pagetable => do
        let (loaded, sz) ← loadLoop K ip pagetable elf.phnum elf.phoff 0
        if !loaded then dropImage K pagetable sz (some ip)
        else do
          fsys (do
            Fs.iunlockput ip
            Fs.endOp)
          buildStack K i elf.entry pagetable sz

theorem dropImage_bind {α : Type} (pagetable sz : Nat) (ip : Option (Fin NINODE)) (f : α → Prog Kernel Int) :
    dropImage K pagetable sz ip >>= orFail f = execBad K pagetable sz false ip := by
  unfold dropImage execBad
  simp only [Prog.bind_assoc]
  rfl

theorem leaveFile_bind {α : Type} (ip : Fin NINODE) (f : α → Prog Kernel Int) :
    leaveFile ip >>= orFail f = execClose ip := by
  unfold leaveFile execClose
  simp only [Prog.bind_assoc]
  rfl

/-- The arguments, for an image that has been built. -/
def pushImage (i : Fin NPROC) (path : List UInt8) (argv : List (List UInt8)) (n : NewImage) : Prog Kernel Int :=
  execArgs K i path argv n.entry n.pagetable n.sz n.usyscallMapped

theorem execStack_eq (i : Fin NPROC) (path : List UInt8) (argv : List (List UInt8)) (entry pagetable sz : Nat) :
    buildStack K i entry pagetable sz >>= orFail (pushImage K i path argv) =
      execStack K i path argv entry pagetable sz := by
  unfold buildStack execStack attachImage
  rw [Prog.bind_assoc]
  refine bind_congr fun sz1 => ?_
  rw [Prog.ite_bind, dropImage_bind, Prog.bind_assoc]
  refine if_congr Iff.rfl rfl (bind_congr fun _ => ?_)
  rw [Prog.ite_bind, dropImage_bind, Prog.bind_assoc]
  refine if_congr Iff.rfl rfl (bind_congr fun p => ?_)
  rw [Prog.bind_assoc]
  refine bind_congr fun _ => ?_
  rw [Prog.bind_assoc]
  refine bind_congr fun _ => ?_
  rw [Prog.ite_bind, Prog.bind_assoc]
  refine if_congr Iff.rfl (bind_congr fun _ => ?_) (Prog.pure_bind _ _)
  rw [Prog.bind_assoc]
  refine bind_congr fun r => ?_
  rw [Prog.ite_bind, dropImage_bind, Prog.pure_bind]
  rfl

/-- **`exec` in two parts.** -/
theorem exec_eq (i : Fin NPROC) (path : List UInt8) (argv : List (List UInt8)) :
    buildImage K i path >>= orFail (pushImage K i path argv) = exec K i path argv := by
  unfold buildImage exec
  rw [Prog.bind_assoc]
  refine bind_congr fun p => ?_
  rw [Prog.bind_assoc]
  refine bind_congr fun _ => ?_
  rw [Prog.bind_assoc]
  refine bind_congr fun r => ?_
  cases r with
  | none => exact (Prog.bind_assoc _ _ _).trans (bind_congr fun _ => Prog.pure_bind _ _)
  | some ip =>
    refine (Prog.bind_assoc _ _ _).trans (bind_congr fun _ => ?_)
    refine (Prog.bind_assoc _ _ _).trans (bind_congr fun r => ?_)
    obtain ⟨r, bs⟩ := r
    dsimp only
    rw [Prog.ite_bind, Prog.ite_bind, leaveFile_bind, Prog.bind_assoc]
    refine if_congr Iff.rfl rfl (if_congr Iff.rfl rfl (bind_congr fun pt => ?_))
    cases pt with
    | none => exact leaveFile_bind _ _
    | some pagetable =>
      refine (Prog.bind_assoc _ _ _).trans (bind_congr fun l => ?_)
      obtain ⟨loaded, sz⟩ := l
      dsimp only
      rw [Prog.ite_bind, dropImage_bind, Prog.bind_assoc]
      exact if_congr Iff.rfl rfl (bind_congr fun _ => execStack_eq K i path argv _ _ _)

end Kernel


/-! ## The guard page -/

theorem PTE2PA_clearU (w : Nat) : PTE2PA (clearU w) = PTE2PA w := by
  unfold PTE2PA clearU
  rw [Nat.and_div_two_pow, show (2 ^ 64 - 1 - PTE_U) / 2 ^ 10 = 2 ^ 54 - 1 by decide, Nat.and_two_pow_sub_one_eq_mod]
  omega

theorem leafPages_clearU (e : Nat → Nat) (v a b : Nat) :
    leafPages (update e v (clearU (e v))) a b = leafPages e a b := by
  refine Finset.sum_congr rfl fun u _ => ?_
  by_cases h : u = v
  · subst h
    rw [update_self, PTE2PA_clearU]
  · rw [update_of_ne h]

section image

variable {K : KernelImage} {s : Mem} {pt sz : Nat} {T : Multiset Nat} {e f : Nat → Nat}

/-- `uvmclear` of a page of the image. -/
theorem Image.clear_spec (h : Image f s pt sz T e) (ho : Owns K s T) {v : Nat} (hv : v < npages sz) {E : Mem → Prop} :
    wp (uvmclear pt (v * PGSIZE)) (fun _ s' => Moves s T s' T ∧
      Image f s' pt sz T (update e v (clearU (e v)))) E s := by
  have hdiv : v * PGSIZE / PGSIZE = v := Nat.mul_div_cancel _ (by decide)
  have hva : v * PGSIZE < MAXVA :=
    Nat.lt_of_lt_of_le ((Nat.mul_lt_mul_right (by decide)).2 hv) (npages_mul_le h.size)
  have hlow := h.map.low v hv
  have hne : e v ≠ 0 := by
    intro hz
    rw [hz] at hlow
    exact absurd hlow.1 (by decide)
  refine wp_mono (uvmclear_spec h.table ho hva (Or.inl (by rw [hdiv]; exact hne))) ?_ fun _ h => h
  rintro _ s' ⟨hm, -, ht⟩
  rw [hdiv] at ht
  refine ⟨hm, ht, ⟨fun u hu => ?_, fun u hu hlt => ?_⟩, h.size⟩
  · by_cases huv : u = v
    · rw [huv, update_self, hasFlag_clearU (by decide), hasFlag_clearU (by decide)]
      exact hlow
    · rw [update_of_ne huv]
      exact h.map.low u hu
  · rw [update_of_ne (by omega)]
    exact h.map.high u hu hlt

theorem npages_PGROUNDUP (h : sz ≤ MAXVA) : npages (PGROUNDUP sz) = npages sz := by
  have hle : npages sz * PGSIZE ≤ MAXVA := npages_mul_le h
  rw [PGROUNDUP_npages, npages_eq hle]
  simp only [PGSIZE]
  omega

theorem Image.roundUp (h : Image f s pt sz T e) : Image f s pt (PGROUNDUP sz) T e := by
  refine ⟨h.table, ?_, ?_⟩
  · rw [npages_PGROUNDUP h.size]
    exact h.map
  · rw [PGROUNDUP_npages]
    exact npages_mul_le h.size

/-- Taking an image apart. -/
theorem Image.free_spec {tf : Nat} (h : Image (trapEntries K tf) s pt sz T e)
    (ho : Owns K s (leafPages e 0 (npages sz) + T)) {E : Mem → Prop} :
    wp (procFreepagetable K pt sz) (fun _ s' => Moves s (leafPages e 0 (npages sz) + T) s' 0) E s :=
  procFreepagetable_spec h.table h.map h.size (Nat.le_trans (h.npages_le ho) (by decide)) ho

end image

/-! ## Steps on pages that belong to the call -/

section rest

variable {K : KernelImage} {k k' : Kernel} {A : Fin NPROC → Option Space} {pg : Fin NPROC → Multiset Nat}
  {B X X' T : Multiset Nat} {x : Fin NFILE → Int} {b : Books} {i : Fin NPROC} {ip : Fin NINODE} {m : Mem}
  {pt sz tf : Nat} {e : Nat → Nat} {a : Space}

theorem KInv.rest (h : KInv K k A pg (X + B) x b) (hm : Moves k.mem X m X') :
    KInv K { k with mem := m } A pg (X' + B) x b := by
  refine ⟨?_, h.file.congr rfl rfl fun _ => rfl, h.fs, h.closed⟩
  have hR : k.pipes.val + (X + B) = X + (k.pipes.val + B) := by abel
  have hR' : k.pipes.val + (X' + B) = X' + (k.pipes.val + B) := by abel
  exact h.mem.rest hR hR' hm fun _ => .refl _

theorem KInv.owns_rest (h : KInv K k A pg (X + B) x b) : Owns K k.mem X := h.mem.owns.right.right.left

theorem Kernel.put_same (k : Kernel) (m : Mem) (i : Fin NPROC) : k.put m i (k.proc i) = { k with mem := m } := by
  unfold Kernel.put
  rw [update_eq_self]

/-- Memory that belongs to slot `i` changes, but not the record. -/
theorem KInv.slotMem (h : KInv K k A pg B x b) {oa : Option Space} (hm : Moves k.mem (pg i) m X)
    (hslot : SlotOk K m i (k.proc i) oa X) :
    KInv K { k with mem := m } (update A i oa) (update pg i X) B x b := by
  rw [← k.put_same m i]
  exact h.put rfl rfl (h.closed i) hm hslot

/-- The pages of slot `i` and those of the call. -/
theorem KInv.owns_with (h : KInv K k A pg (X + B) x b) (i : Fin NPROC) : Owns K k.mem (pg i + X) := by
  refine (h.mem.owns_slot i).mono (add_le_add (le_refl _) ?_)
  exact ((Multiset.le_add_right X B).trans (Multiset.le_add_left _ _)).trans (Multiset.le_add_left _ _)

/-- The kernel page table of the process gets the entries of the image; the image itself is only read. -/
theorem Kernel.shadowImage_spec {f : Nat → Nat} (h : KInv K k A pg (leafPages e 0 (npages sz) + T + B) x b)
    (him : Image f k.mem pt sz T e) (ha : A i = some a) (hsz : sz ≤ USER_TOP - PGSIZE) :
    wpm (Kernel.vm (u2kvmcopy pt (k.proc i).kpagetable 0 sz)) (fun _ k' => ∃ m pg', k' = { k with mem := m } ∧
      KInv K k' (update A i (some (a.shadow e (npages sz)))) pg' (leafPages e 0 (npages sz) + T + B) x b ∧
      Image f m pt sz T e ∧ ∀ y ∈ leafPages e 0 (npages sz), m.page y = k.mem.page y) Allowed True k := by
  obtain ⟨hst, hwf, TT, KT, hrep, hpg⟩ := h.mem.space ha
  have ho := h.owns_with i
  have hpages : ∀ KT', (a.shadow e (npages sz)).pages TT KT' =
      KT' + (TT + (leafPages a.user 0 (npages a.sz) + ({a.trapframe} + {a.usyscall} + {a.kstack}))) := by
    intro KT'
    show a.pages TT KT' = _
    unfold Space.pages
    abel
  have hold : pg i = (a.shadow e (npages sz)).pages TT KT := hpg
  rw [hold, hpages, add_assoc] at ho
  have hoT : Owns K k.mem (KT + T) := by
    refine ho.mono (add_le_add (le_refl _) ?_)
    exact (Multiset.le_add_left T _).trans (Multiset.le_add_left _ _)
  have hne : ∀ u, npages 0 ≤ u → u < npages sz → e u ≠ 0 := by
    intro u _ hu hz
    have hlow := (him.map.low u hu).1
    rw [hz] at hlow
    exact absurd hlow (by decide)
  rw [Kernel.wpm_vm]
  refine wpm_mono (u2kvmcopy_spec hrep.kern him.table hoT (Nat.zero_le _) him.size hne (Or.inr (by decide))) ?_
  rintro _ m ⟨KT', hm, hk', -⟩
  rw [npages_zero] at hk'
  have hkeep : ∀ y ∈ TT + (leafPages a.user 0 (npages a.sz) + ({a.trapframe} + {a.usyscall} + {a.kstack})) +
      (leafPages e 0 (npages sz) + T), m.page y = k.mem.page y := fun y hy => ho.page_eq hm hy
  have hstep : Space.Step K a (a.shadow e (npages sz)) := .execFail hsz him.map.low
  have hslot : SlotOk K m i (k.proc i) (some (a.shadow e (npages sz))) ((a.shadow e (npages sz)).pages TT KT') :=
    ⟨hst, hstep.wf hwf, TT, KT', ⟨hrep.user.congr fun y hy => hkeep y (by simp [hy]), hk', hrep.sz, hrep.trapframe,
      hrep.usyscall, hrep.kstack, (Mem.pidAt_congr (hkeep a.usyscall (by simp))).trans hrep.pid⟩, rfl⟩
  refine ⟨m, _, rfl, h.slotMem ?_ hslot, ⟨him.table.congr fun y hy => hkeep y (by simp [hy]), him.map, him.size⟩,
    fun y hy => hkeep y (by simp [hy])⟩
  rw [hold, hpages, hpages]
  exact hm.add _

/-- `p->usyscall->pid = p->pid`. -/
theorem KInv.setPidField (h : KInv K k A pg B x b) (ha : A i = some a) :
    KInv K { k with mem := k.mem.setField a.usyscall 0 4 (k.proc i).pid } A pg B x b := by
  obtain ⟨hst, hwf, TT, KT, hrep, hpg⟩ := h.mem.space ha
  have ho : Owns K k.mem ({a.usyscall} + (TT + (KT + ({a.trapframe} + {a.kstack} +
      leafPages a.user 0 (npages a.sz))))) := by
    refine (h.mem.owns_slot i).left.congr ?_
    rw [hpg]
    unfold Space.pages
    abel
  have hpage : ∀ y, y ≠ a.usyscall → (k.mem.setField a.usyscall 0 4 (k.proc i).pid).page y = k.mem.page y :=
    fun y hy => update_of_ne hy ..
  have hrep' : Rep (k.mem.setField a.usyscall 0 4 (k.proc i).pid) (k.proc i) a TT KT :=
    ⟨hrep.user.congr fun y hy => hpage y (ho.ne (by simp [hy])),
      hrep.kern.congr fun y hy => hpage y (ho.ne (by simp [hy])), hrep.sz, hrep.trapframe, hrep.usyscall,
      hrep.kstack, pidAt_setField _ _ _⟩
  have hm : Moves k.mem (pg i) (k.mem.setField a.usyscall 0 4 (k.proc i).pid) (pg i) := by
    rw [hpg]
    exact setField_moves Space.usyscall_mem_pages
  have hslot : SlotOk K _ i (k.proc i) (some a) _ := ⟨hst, hwf, TT, KT, hrep', hpg⟩
  have h' := h.slotMem hm hslot
  rwa [← ha, update_eq_self, update_eq_self] at h'

/-- `bad`: the image is freed, and the file closed if it is still open. -/
theorem Kernel.dropImage_spec {α : Type} (h : KInv K k A pg (leafPages e 0 (npages sz) + T + B) x b)
    (him : Image (trapEntries K tf) k.mem pt sz T e) :
    wpm (Kernel.dropImage K pt sz none) (fun (r : Option α) k' => r = none ∧ k'.proc = k.proc ∧
      KInv K k' A pg B x b) Allowed True k := by
  unfold Kernel.dropImage Kernel.execBad
  rw [wpm_bind, if_neg Bool.false_ne_true, wpm_bind, wpm_pure, wpm_bind, Kernel.wpm_vm]
  refine wpm_mono (wpm_of_wp (him.free_spec h.owns_rest)) ?_
  rintro _ m hm
  have h' := h.rest hm
  rw [zero_add] at h'
  exact ⟨rfl, rfl, h'⟩

/-! ## The stack -/

/-- The image with entries `e` and size `sz` has become one with entries `e'`, a guard page and a stack. -/
structure Stacked (K : KernelImage) (k : Kernel) (A : Fin NPROC → Option Space) (B : Multiset Nat)
    (x : Fin NFILE → Int) (b : Books) (i : Fin NPROC) (a : Space) (sz : Nat) (e : Nat → Nat) (n : NewImage)
    (pg' : Fin NPROC → Multiset Nat) (T' : Multiset Nat) (e' : Nat → Nat) (k' : Kernel) : Prop where
  inv : KInv K k' (Function.update A i (some (a.shadow e' (npages n.sz)))) pg'
    (leafPages e' 0 (npages n.sz) + T' + B) x b
  image : Image (fixedEntries K a.trapframe a.usyscall) k'.mem n.pagetable n.sz T' e'
  proc : k'.proc = k.proc
  mapped : n.usyscallMapped = true
  size : n.sz = PGROUNDUP sz + 2 * PGSIZE
  top : n.sz ≤ USER_TOP - PGSIZE
  low : ∀ v, v < npages sz → e' v = e v
  kept : ∀ y ∈ leafPages e 0 (npages sz), k'.mem.page y = k.mem.page y
  zero : Filled k'.mem e' (npages sz) (npages n.sz) fun _ _ => 0
  guard : hasFlag (e' (npages sz)) PTE_U = false
  stack : Writable (e' (npages sz + 1))

theorem npages_stack {sz1 : Nat} (hsz1 : sz1 = PGROUNDUP sz + 2 * PGSIZE) (hmax : sz1 ≤ MAXVA) :
    npages sz1 = npages sz + 2 ∧ sz1 - 2 * PGSIZE = npages sz * PGSIZE ∧ sz1 ≠ 0 := by
  rw [PGROUNDUP_npages] at hsz1
  rw [npages_eq hmax]
  simp only [PGSIZE] at *
  omega

theorem hasFlag_clearU_U (w : Nat) : hasFlag (clearU w) PTE_U = false := by
  unfold hasFlag clearU
  rw [Nat.land_assoc, show (2 ^ 64 - 1 - PTE_U) &&& PTE_U = 0 by decide, Nat.and_zero]
  rfl

theorem writable_leafPte (pa : Nat) : Writable (leafPte pa (PTE_R ||| PTE_U ||| PTE_W)) := by
  have hflag : ∀ fl, fl < 2 ^ 10 → hasFlag (leafPte pa (PTE_R ||| PTE_U ||| PTE_W)) fl =
      hasFlag (PTE_R ||| PTE_U ||| PTE_W ||| PTE_V) fl := by
    intro fl hlt
    rw [hasFlag_mod hlt, PTE_FLAGS_leafPte (by decide)]
  exact ⟨(hflag _ (by decide)).trans (by decide), (hflag _ (by decide)).trans (by decide),
    (hflag _ (by decide)).trans (by decide)⟩

/-- **The shadow mappings and the `usyscall` page.**  The page table has room for the latter, since it has the
entry of the trapframe. -/
theorem Kernel.attachImage_spec (h : KInv K k A pg (leafPages e 0 (npages sz) + T + B) x b)
    (him : Image (trapEntries K a.trapframe) k.mem pt sz T e) (ha : A i = some a) (hsz : sz ≤ USER_TOP - PGSIZE)
    (entry : Nat) :
    wpm (Kernel.attachImage K i entry pt sz) (fun r k' => r = some ⟨entry, pt, sz, true⟩ ∧ ∃ pg' T' e',
      KInv K k' (update A i (some (a.shadow e' (npages sz)))) pg' (leafPages e' 0 (npages sz) + T' + B) x b ∧
      Image (fixedEntries K a.trapframe a.usyscall) k'.mem pt sz T' e' ∧ k'.proc = k.proc ∧
      (∀ v, v < npages sz → e' v = e v) ∧ ∀ y ∈ leafPages e 0 (npages sz), k'.mem.page y = k.mem.page y)
      Allowed True k := by
  obtain ⟨-, -, TT, KT, hrep, hpg⟩ := h.mem.space ha
  have hmem : a.usyscall ∈ pg i := by
    rw [hpg]
    exact Space.usyscall_mem_pages
  have hman : Managed K a.usyscall := (h.owns_with i).managed _ (by simp [hmem])
  have hn : npages sz ≤ usyscallVpn := Nat.le_trans (Nat.le_of_lt (Space.npages_lt_user hsz)) (by decide)
  unfold Kernel.attachImage
  rw [wpm_bind, Kernel.wpm_readProc, kvmdealloc_eq, wpm_bind, Kernel.wpm_vm, wpm_pure]
  refine wpm_seq (Kernel.shadowImage_spec h him ha hsz) ?_
  rintro _ k₁ ⟨m₁, pg₁, rfl, h₁, him₁, hkept₁⟩
  rw [hrep.usyscall, if_pos hman.ne_zero, wpm_bind, Kernel.wpm_vm, wpm_modify, wpm_bind, Kernel.wpm_vm]
  have ha₁ : update A i (some (a.shadow e (npages sz))) i = some (a.shadow e (npages sz)) :=
    update_self ..
  have h₂ := h₁.setPidField ha₁
  have hmem₁ : a.usyscall ∈ pg₁ i := by
    obtain ⟨-, -, TT₁, KT₁, -, hpg₁⟩ := h₁.mem.space ha₁
    rw [hpg₁]
    exact Space.usyscall_mem_pages (a := a.shadow e (npages sz))
  have hother : ∀ y ∈ leafPages e 0 (npages sz) + T, (m₁.setField a.usyscall 0 4 (k.proc i).pid).page y = m₁.page y := by
    intro y hy
    refine update_of_ne ?_ ..
    rintro rfl
    exact (h₁.owns_with i).frame hy (Multiset.mem_add.2 (Or.inl hmem₁))
  have ht₂ := him₁.table.congr fun y hy => hother y (by simp [hy])
  refine wpm_mono (wpm_of_wp (mapUsyscall_spec ht₂ him₁.map hn h₂.owns_rest.right hman.pageAddr)) ?_
  rintro _ m₃ ⟨rfl, T', hm₃, ht₃, -⟩
  rw [if_neg (by decide)]
  have hlow : ∀ v, v < npages sz →
      update e usyscallVpn (leafPte a.usyscall (PTE_R ||| PTE_U)) v = e v :=
    fun v hv => update_usyscall_low hn _ hv
  have hshadow : a.shadow (update e usyscallVpn (leafPte a.usyscall (PTE_R ||| PTE_U))) (npages sz) =
      a.shadow e (npages sz) := by
    have hrange : shadowRange a.kern (update e usyscallVpn (leafPte a.usyscall (PTE_R ||| PTE_U))) 0
        (npages sz) = shadowRange a.kern e 0 (npages sz) := by
      funext v
      unfold shadowRange
      refine if_ctx_congr Iff.rfl (fun hv => ?_) fun _ => rfl
      rw [hlow v hv.2]
    unfold Space.shadow
    rw [hrange]
  have h₃ := h₂.rest ((hm₃.add _).congr (add_comm _ _) (add_comm _ _))
  refine ⟨rfl, pg₁, T', _, ?_, ⟨ht₃, him₁.map.setUsyscall hn _, him₁.size⟩, rfl, hlow, ?_⟩
  · rw [hshadow, leafPages_usyscall hn]
    exact h₃
  · intro y hy
    have ho₂ := (h₂.owns_rest.congr (add_comm _ _))
    exact (ho₂.page_eq hm₃ hy).trans ((hother y (by simp [hy])).trans (hkept₁ y hy))

/-- **The stack, the shadow mappings and the `usyscall` page.** -/
theorem Kernel.buildStack_spec (h : KInv K k A pg (leafPages e 0 (npages sz) + T + B) x b)
    (him : Image (trapEntries K a.trapframe) k.mem pt sz T e) (ha : A i = some a) (entry : Nat) :
    wpm (Kernel.buildStack K i entry pt sz) (fun r k' => match r with
      | none => KInv K k' A pg B x b
      | some n => n.entry = entry ∧ n.pagetable = pt ∧
        ∃ pg' T' e', Stacked K k A B x b i a sz e n pg' T' e' k') Allowed True k := by
  have hround := him.roundUp
  have hnp := npages_PGROUNDUP him.size
  unfold Kernel.buildStack
  rw [wpm_bind, Kernel.wpm_vm]
  refine wpm_mono (wpm_of_wp (hround.grow_spec (by rw [hnp]; exact h.owns_rest) trapEntries_mem
    (show PTE_W < 2 ^ 10 by decide))) ?_
  rintro sz1 m₁ (⟨T₁, e₁, hsz1, hw⟩ | ⟨rfl, T₁, him₁, hm₁⟩)
  swap
  · -- no page: the image is freed
    rw [if_pos rfl]
    rw [hnp] at hm₁
    have h₁ := h.rest hm₁
    rw [← hnp] at h₁
    refine wpm_mono (Kernel.dropImage_spec h₁ him₁) ?_
    rintro _ k₂ ⟨rfl, -, h₂⟩
    exact h₂
  have hsz1 : sz1 = PGROUNDUP sz + 2 * PGSIZE := hsz1.trans (Nat.max_eq_right (Nat.le_add_right _ _))
  obtain ⟨hpages, hguard, hne⟩ := npages_stack hsz1 hw.image.size
  have hmoves := hw.moves
  rw [hnp] at hmoves
  have h₁ := h.rest hmoves
  rw [if_neg hne, hguard, wpm_bind, Kernel.wpm_vm]
  have hv : npages sz < npages sz1 := by omega
  refine wpm_mono (wpm_of_wp (hw.image.clear_spec h₁.owns_rest.right hv)) ?_
  rintro _ m₂ ⟨hm₂, him₂⟩
  have hleaf := leafPages_clearU e₁ (npages sz) 0 (npages sz1)
  have hguardU : hasFlag (update e₁ (npages sz) (clearU (e₁ (npages sz))) (npages sz)) PTE_U = false := by
    rw [update_self]
    exact hasFlag_clearU_U _
  have hstack : Writable (update e₁ (npages sz) (clearU (e₁ (npages sz))) (npages sz + 1)) := by
    obtain ⟨p, -, hp⟩ := hw.fresh.new (npages sz + 1) (by omega) (by omega)
    rw [update_of_ne (by omega), hp]
    exact writable_leafPte p
  have hlow : ∀ v, v < npages sz → update e₁ (npages sz) (clearU (e₁ (npages sz))) v = e v := by
    intro v hv
    rw [update_of_ne (by omega)]
    exact hw.fresh.out v (by omega)
  have hzero : Filled m₂ (update e₁ (npages sz) (clearU (e₁ (npages sz)))) (npages sz) (npages sz1)
      fun _ _ => 0 := by
    intro u hu1 hu2
    have hpa : PTE2PA (update e₁ (npages sz) (clearU (e₁ (npages sz))) u) = PTE2PA (e₁ u) := by
      by_cases hu : u = npages sz
      · rw [hu, update_self, PTE2PA_clearU]
      · rw [update_of_ne hu]
    rw [hpa, (h₁.owns_rest.congr (add_comm _ _)).page_eq hm₂ (mem_leafPages.2 ⟨u, Nat.zero_le _, hu2, rfl⟩)]
    exact hw.zero u (by omega) hu2
  have hkept : ∀ y ∈ leafPages e 0 (npages sz), m₂.page y = k.mem.page y := by
    intro y hy
    have hy₁ : y ∈ leafPages e₁ 0 (npages sz1) := by
      obtain ⟨u, -, hu, rfl⟩ := mem_leafPages.1 hy
      exact mem_leafPages.2 ⟨u, Nat.zero_le _, by omega, by rw [hw.fresh.out u (by omega)]⟩
    rw [(h₁.owns_rest.congr (add_comm _ _)).page_eq hm₂ hy₁]
    exact hw.kept y (by rw [hnp]; exact hy)
  have h₂ : KInv K { k with mem := m₂ } A pg
      (leafPages (update e₁ (npages sz) (clearU (e₁ (npages sz)))) 0 (npages sz1) + T₁ + B) x b := by
    rw [hleaf]
    exact h₁.rest ((hm₂.add _).congr (add_comm _ _) (add_comm _ _))
  generalize update e₁ (npages sz) (clearU (e₁ (npages sz))) = e₂ at *
  split
  · refine wpm_mono (Kernel.dropImage_spec h₂ him₂) ?_
    rintro _ k₃ ⟨rfl, -, h₃⟩
    exact h₃
  · rename_i hcheck
    have htop := size_le_of_check hcheck him₂.size
    refine wpm_mono (Kernel.attachImage_spec h₂ him₂ ha htop entry) ?_
    rintro _ k₃ ⟨rfl, pg₃, T₃, e₃, h₃, him₃, hproc, hlow₃, hkept₃⟩
    refine ⟨rfl, rfl, pg₃, T₃, e₃, h₃, him₃, hproc, rfl, hsz1, htop, ?_, ?_, ?_, ?_, ?_⟩
    · intro v hv
      rw [hlow₃ v (by omega), hlow v hv]
    · intro y hy
      refine (hkept₃ y ?_).trans (hkept y hy)
      obtain ⟨u, -, hu, rfl⟩ := mem_leafPages.1 hy
      exact mem_leafPages.2 ⟨u, Nat.zero_le _, by omega, by rw [hlow u hu]⟩
    · intro u hu1 hu2
      rw [hlow₃ u hu2, hkept₃ _ (mem_leafPages.2 ⟨u, Nat.zero_le _, hu2, rfl⟩)]
      exact hzero u hu1 hu2
    · rw [hlow₃ _ hv]
      exact hguardU
    · rw [hlow₃ _ (by omega)]
      exact hstack

/-! ## The whole image -/

/-- `begin_op(); ip = namei(path); ilock(ip)` has found the inode `ip`, in the state `s'`. -/
def Fs.Opens (s : Fs) (cwd : Option (Fin NINODE)) (path : List UInt8) (ip : Fin NINODE) (s' : Fs) : Prop :=
  ∃ s₁ s₂, Fs.beginOp s = .ok () s₁ ∧ Fs.namei cwd path s₁ = .ok (some ip) s₂ ∧ Fs.ilock ip s₂ = .ok () s'

/-- The image is the one that the file `g` describes. -/
structure Described (g : Nat → UInt8) (n : NewImage) (e : Nat → Nat) (m : Mem) : Prop where
  entry : n.entry = (elfOf g).entry
  small : Segments.size (segments g) ≤ MAXVA
  size : n.sz = PGROUNDUP (Segments.size (segments g)) + 2 * PGSIZE
  bytes : Holds m e (npages n.sz) (Segments.byteAt g (segments g))
  flags : ∀ v, v * PGSIZE < Segments.size (segments g) →
    PTE_FLAGS (e v) = PTE_R ||| PTE_U ||| Segments.permAt (segments g) v ||| PTE_V

/-- `exec` of process `i` is about to push the arguments. -/
structure Built (K : KernelImage) (k : Kernel) (A : Fin NPROC → Option Space) (B : Multiset Nat)
    (x : Fin NFILE → Int) (b : Books) (i : Fin NPROC) (a : Space) (path : List UInt8) (n : NewImage)
    (pg' : Fin NPROC → Multiset Nat) (T' : Multiset Nat) (e' : Nat → Nat) (k' : Kernel) : Prop where
  inv : KInv K k' (Function.update A i (some (a.shadow e' (npages n.sz)))) pg'
    (leafPages e' 0 (npages n.sz) + T' + B) x b
  image : Image (fixedEntries K a.trapframe a.usyscall) k'.mem n.pagetable n.sz T' e'
  proc : k'.proc = k.proc
  mapped : n.usyscallMapped = true
  top : n.sz ≤ USER_TOP - PGSIZE
  aligned : npages n.sz * PGSIZE = n.sz
  two : 2 ≤ npages n.sz
  guard : hasFlag (e' (npages n.sz - 2)) PTE_U = false
  stack : Writable (e' (npages n.sz - 1))
  file : ∃ ip s, Fs.Opens k.fs (k.proc i).cwd path ip s ∧ (s.Solid ip → Described (s.fileByte ip) n e' k'.mem)

theorem Kernel.fsys_ok {α : Type} {y : Prog Fs α} {r : α} (h : Kernel.fsys y k = .ok r k') :
    y k.fs = .ok r k'.fs := by
  unfold Kernel.fsys zoom at h
  cases hy : y k.fs with
  | ok a s =>
    rw [hy] at h
    cases h
    rfl
  | panic m s | hang s =>
    rw [hy] at h
    cases h

/-- `iunlockput(ip); end_op()`. -/
theorem Kernel.closeOp_spec (h : KInv K k A pg B x (((b.addOps 1).addRef ip 1).lock ip true))
    (hl : b.locked ip = false) :
    wpm (Kernel.fsys (do
      Fs.iunlockput ip
      Fs.endOp)) (fun _ k' => OnFs K k A pg B x b k') Allowed True k := by
  have hfs := h.fs
  rw [← Books.above_lock, ← Books.above_addRef] at hfs
  refine Kernel.wpm_fsys allowed_fs (wpm_seq (Fs.iunlockput_spec hfs hl) fun _ s hs =>
    Fs.endOp_spec (b := b.above k.names) hs) fun _ s hs => ?_
  exact ⟨s, rfl, h.setFs hs⟩

theorem Kernel.leaveFile_spec {α : Type} (h : KInv K k A pg B x (((b.addOps 1).addRef ip 1).lock ip true))
    (hl : b.locked ip = false) :
    wpm (Kernel.leaveFile ip) (fun (r : Option α) k' => r = none ∧ KInv K k' A pg B x b) Allowed True k := by
  unfold Kernel.leaveFile Kernel.execClose
  rw [wpm_bind, wpm_bind]
  refine wpm_mono (Kernel.closeOp_spec h hl) ?_
  rintro _ k' ⟨s, rfl, h'⟩
  exact ⟨rfl, h'⟩

/-- `bad`, while the file is open. -/
theorem Kernel.dropOpen_spec {α : Type}
    (h : KInv K k A pg (leafPages e 0 (npages sz) + T + B) x (((b.addOps 1).addRef ip 1).lock ip true))
    (him : Image (trapEntries K tf) k.mem pt sz T e) (hl : b.locked ip = false) :
    wpm (Kernel.dropImage K pt sz (some ip)) (fun (r : Option α) k' => r = none ∧ KInv K k' A pg B x b) Allowed True
      k := by
  unfold Kernel.dropImage Kernel.execBad
  rw [wpm_bind, if_neg Bool.false_ne_true, wpm_bind, wpm_pure, wpm_bind, Kernel.wpm_vm]
  refine wpm_mono (wpm_of_wp (him.free_spec h.owns_rest)) ?_
  rintro _ m hm
  have h' := h.rest hm
  rw [zero_add] at h'
  dsimp only
  rw [wpm_bind]
  refine wpm_mono (Kernel.closeOp_spec h' hl) ?_
  rintro _ k' ⟨s, rfl, h''⟩
  exact ⟨rfl, h''⟩

theorem Stacked.built {path : List UInt8} {n : NewImage} {pg' : Fin NPROC → Multiset Nat} {T' : Multiset Nat}
    {e' : Nat → Nat} {k₀ : Kernel} {s : Fs} (h : Stacked K k A B x b i a sz e n pg' T' e' k')
    (hmax : sz ≤ MAXVA) (hproc : k.proc = k₀.proc) (hopen : Fs.Opens k₀.fs (k₀.proc i).cwd path ip s)
    (hload : s.Solid ip → n.entry = (elfOf (s.fileByte ip)).entry ∧
      Loaded (s.fileByte ip) (segments (s.fileByte ip)) k.mem e sz) :
    Built K k₀ A B x b i a path n pg' T' e' k' := by
  obtain ⟨hpages, -, -⟩ := npages_stack h.size h.image.size
  have hal : npages n.sz * PGSIZE = n.sz := by
    rw [hpages, h.size, PGROUNDUP_npages, Nat.add_mul]
  have htwo : npages n.sz - 2 = npages sz := by omega
  have hone : npages n.sz - 1 = npages sz + 1 := by omega
  refine ⟨h.inv, h.image, h.proc.trans hproc, h.mapped, h.top, hal, by omega, ?_, ?_, ip, s, hopen, fun hS => ?_⟩
  · rw [htwo]
    exact h.guard
  · rw [hone]
    exact h.stack
  · obtain ⟨hentry, hl⟩ := hload hS
    refine ⟨hentry, hl.size ▸ hmax, by rw [h.size, hl.size], ?_, fun v hv => ?_⟩
    · refine hl.bytes.grow h.low h.kept h.zero fun c hc => ?_
      exact Segments.byteAt_above hl.small (by rw [← hl.size]; exact le_of_npages_le hc hmax)
    · have hv' : v < npages sz := (lt_npages_iff hmax).2 (by rw [hl.size]; exact hv)
      rw [h.low v hv']
      exact hl.flags v hv'

/-- **`exec` up to the arguments.** -/
theorem Kernel.buildImage_spec (h : KInv K k A pg B x b) (hb : ∀ ip, 0 ≤ b.ref ip) (ha : A i = some a)
    (path : List UInt8) :
    wpm (Kernel.buildImage K i path) (fun r k' => match r with
      | none => KInv K k' A pg B x b
      | some n => ∃ pg' T' e', Built K k A B x b i a path n pg' T' e' k') Allowed True k := by
  obtain ⟨-, -, TT, KT, hrep, hpg⟩ := h.mem.space ha
  have htf : Managed K a.trapframe := by
    refine ((h.mem.owns_slot i).left).managed _ (Multiset.mem_add.2 (Or.inl ?_))
    rw [hpg]
    simp [Space.pages]
  unfold Kernel.buildImage
  rw [wpm_bind, Kernel.wpm_readProc]
  refine wpm_seq (wpm_run (Kernel.begin_spec h)) ?_
  rintro _ k₁ ⟨⟨s₁, rfl, h₁⟩, hrun₁⟩
  refine wpm_seq (wpm_run (Kernel.namei_spec h₁ hb i path)) ?_
  rintro r k₂ ⟨⟨s₂, rfl, h₂⟩, hrun₂⟩
  cases r with
  | none =>
    refine wpm_seq (Kernel.end_spec h₂) ?_
    rintro _ k₃ ⟨s₃, rfl, h₃⟩
    exact h₃
  | some ip =>
    refine wpm_seq (wpm_run (Kernel.ilock_spec h₂)) ?_
    rintro _ k₃ ⟨⟨hl, s₃, rfl, h₃⟩, hrun₃⟩
    have hopen : Fs.Opens k.fs (k.proc i).cwd path ip s₃ :=
      ⟨s₁, s₂, Kernel.fsys_ok hrun₁, Kernel.fsys_ok hrun₂, Kernel.fsys_ok hrun₃⟩
    clear hrun₁ hrun₂ hrun₃ h₁ h₂
    have hl : b.locked ip = false := hl
    -- from here on the call owns an image and holds the inode
    have hfail : ∀ (k' : Kernel), Loading { k with fs := s₃ } 0 (((b.addOps 1).addRef ip 1).lock ip true) k' →
        wpm (Kernel.leaveFile ip) (fun (r : Option NewImage) k' => match r with
          | none => KInv K k' A pg B x b
          | some n => ∃ pg' T' e', Built K k A B x b i a path n pg' T' e' k') Allowed True k' := by
      intro k' hk'
      have h' := hk'.inv h₃
      rw [zero_add] at h'
      refine wpm_mono (Kernel.leaveFile_spec h' hl) ?_
      rintro _ k'' ⟨rfl, h''⟩
      exact h''
    refine wpm_seq (Kernel.readHdr_spec h₃ (Loading.refl h₃) 0 ELFHDR_SIZE) ?_
    rintro ⟨r, bs⟩ k₄ ⟨h₄, hm₄, hsolid⟩
    dsimp only at hsolid ⊢
    split
    · exact hfail k₄ h₄
    rename_i hall
    split
    · exact hfail k₄ h₄
    rw [wpm_bind, Kernel.wpm_vm, hrep.trapframe]
    refine wpm_mono (wpm_of_wp (procPagetable_spec htf.pageAddr (h₄.owns h₃))) ?_
    rintro _ m₅ (⟨rfl, -, hm₅⟩ | ⟨pt, T, rfl, hm₅, ht₅, -⟩)
    · exact hfail _ (h₄.setMem hm₅)
    have hempty : leafPages (trapEntries K a.trapframe) 0 (npages 0) = 0 := by
      rw [npages_zero, leafPages_self]
    have h₅ : Loading { k with fs := s₃ } (leafPages (trapEntries K a.trapframe) 0 (npages 0) + T)
        (((b.addOps 1).addRef ip 1).lock ip true) { k₄ with mem := m₅ } := by
      rw [hempty, zero_add]
      exact h₄.setMem hm₅
    have him₅ : Image (trapEntries K a.trapframe) m₅ pt 0 T (trapEntries K a.trapframe) := by
      refine ⟨ht₅, ⟨fun v hv => ?_, fun _ _ _ => rfl⟩, Nat.zero_le _⟩
      rw [npages_zero] at hv
      exact absurd hv (Nat.not_lt_zero v)
    have hU₅ : UserPages (trapEntries K a.trapframe) (npages 0) := by
      intro v hv
      rw [npages_zero] at hv
      exact absurd hv (Nat.not_lt_zero v)
    refine wpm_seq (Kernel.loadLoop_spec h₃ _ h₅ him₅ hU₅) ?_
    rintro ⟨loaded, sz⟩ k₆ ⟨T₆, e₆, h₆, him₆, -, hload⟩
    have hinv₆ := h₆.inv h₃
    dsimp only at h₆ him₆ hload hinv₆ ⊢
    cases loaded with
    | false =>
      refine wpm_mono (Kernel.dropOpen_spec hinv₆ him₆ hl) ?_
      rintro _ k₇ ⟨rfl, h₇⟩
      exact h₇
    | true =>
      rw [if_neg (by decide)]
      refine wpm_seq (Kernel.closeOp_spec hinv₆ hl) ?_
      rintro _ k₇ ⟨s₇, rfl, h₇⟩
      refine wpm_mono (Kernel.buildStack_spec h₇ him₆ ha _) ?_
      intro r k₈ hr
      cases r with
      | none => exact hr
      | some n =>
        obtain ⟨hentry, rfl, pg', T', e', hst⟩ := hr
        refine ⟨pg', T', e', hst.built him₆.size ?_ hopen fun hS => ?_⟩
        · exact h₆.proc
        · obtain ⟨hfs, hbs⟩ := hsolid hS
          have hbytes : bs = bytesAt (s₃.fileByte ip) 0 ELFHDR_SIZE := hbs (Decidable.not_not.1 hall)
          have hS₄ : k₄.fs.Solid ip := by rw [hfs]; exact hS
          have hl := (hload hS₄).2 rfl [] ?_
          · rw [hfs, List.nil_append, hbytes] at hl
            exact ⟨by rw [hentry, hbytes]; rfl, hl⟩
          · refine ⟨rfl, fun _ hph => absurd hph List.not_mem_nil, fun c hc => ?_, fun v hv => ?_⟩
            · rw [npages_zero] at hc
              exact absurd hc (Nat.not_lt_zero _)
            · rw [npages_zero] at hv
              exact absurd hv (Nat.not_lt_zero _)

end rest

end Xv6
