import Xv6.Kernel.Memory

/-!
# The kernel page tables along runs

`u2kvmcopy` adds mappings to the kernel page table of a process; nothing takes them away, since `kvmdealloc`
does nothing.

* `reachable_coherent` — below its size a process finds its memory in both tables, as long as every `exec`
  succeeds.
* `reachable_noDangling` — there is nothing else, as long as no process gives memory back.  After
  `sbrk(-4096)` there is (`dangling_after_sbrk`).
* `reachable_kernelMapped` — the mappings of the kernel stay as long as no process grows into the CLINT.
* `reachable_supervisor` — none of it is for the user.
-/

namespace Xv6

open Prog Kernel Function

variable {K : KernelImage} {k : Kernel} {i : Fin NPROC}

/-! ## Guards -/

/-- A call of `exec` does not fail. -/
def Kernel.ExecSucceeds (K : KernelImage) (k : Kernel) (a : Fin NPROC × Kernel.Act) : Prop :=
  ∀ path argv fetched r k', a.2 = .exec path argv fetched → syscall K a.1 a.2 k = .ok r k' → r ≠ -1

/-- The pages of the image that the file at `path` describes. -/
def Kernel.ImagePages (k : Kernel) (i : Fin NPROC) (path : List UInt8) (n : Nat) : Prop :=
  ∀ ip s, Fs.Opens k.fs (k.proc i).cwd path ip s → s.Solid ip ∧
    npages (PGROUNDUP (Segments.size (segments (s.fileByte ip))) + 2 * PGSIZE) = n

/-- The call leaves the process with at least as many pages as it has. -/
def Kernel.KeepsPages (K : KernelImage) (k : Kernel) (a : Fin NPROC × Kernel.Act) : Prop :=
  ExecSucceeds K k a ∧ (∀ n, a.2 = .sbrk n → npages (k.proc a.1).sz ≤ npages (addSize (k.proc a.1).sz n)) ∧
  ∀ path argv fetched, a.2 = .exec (some path) argv fetched →
    ∃ n, k.ImagePages a.1 path n ∧ npages (k.proc a.1).sz ≤ n

theorem Kernel.ImageSize.pages {path : List UInt8} {sz n : Nat} (h : k.ImageSize i path sz) (hn : k.ImagePages i path n) :
    npages sz = n := by
  obtain ⟨ip, s, hopen, hsz⟩ := h
  obtain ⟨hS, hn⟩ := hn ip s hopen
  rw [hsz hS, hn]

/-! ## Coherence -/

variable {j : Fin NPROC} {ks tf us : Nat} {e : Nat → Nat} {a : Space}

theorem Space.first_coherent
    (hf : Fresh (fixedEntries K tf us) 0 1 (fun _ => INIT_PERM) e) : (Space.first K j tf us ks e).Coherent := by
  have hwf : (Space.first K j tf us ks e).WF K j := Space.first_wf hf
  have hlow : Readable e (npages PGSIZE) := hwf.map.low
  exact Space.coherent_shadowRange hlow rfl rfl (by rw [npages_one]; rfl)

theorem Space.forked_coherent {l : Fin NPROC} (hwf : a.WF K l)
    (hf : Fresh (fixedEntries K tf us) 0 (npages a.sz) (fun v => PTE_FLAGS (a.user v)) e) :
    (a.forked K j tf us ks e).Coherent := by
  have hwf' : (a.forked K j tf us ks e).WF K j := Space.forked_wf hwf hf
  exact Space.coherent_shadowRange hwf'.map.low rfl rfl rfl

/-- A predicate of each address space, when one of them changes. -/
theorem forall_update {A : Fin NPROC → Option Space} {Φ : Fin NPROC → Space → Prop}
    (hA : ∀ l b, A l = some b → Φ l b) (ha : Φ j a) : ∀ l b, update A j (some a) l = some b → Φ l b := by
  intro l b hb
  by_cases hl : l = j
  · subst hl
    rw [update_self] at hb
    cases hb
    exact ha
  · rw [update_of_ne hl] at hb
    exact hA l b hb

theorem forall_update_none {A : Fin NPROC → Option Space} {Φ : Fin NPROC → Space → Prop}
    (hA : ∀ l b, A l = some b → Φ l b) : ∀ l b, update A j none l = some b → Φ l b := by
  intro l b hb
  by_cases hl : l = j
  · subst hl
    rw [update_self] at hb
    cases hb
  · rw [update_of_ne hl] at hb
    exact hA l b hb

/-- **Rule for predicates of single address spaces.** -/
theorem Kernel.ReachableBy.each {ok : Kernel → Fin NPROC × Kernel.Act → Prop} {Φ : Fin NPROC → Space → Prop}
    (hfirst : ∀ (j : Fin NPROC) tf us ks e, Fresh (fixedEntries K tf us) 0 1 (fun _ => INIT_PERM) e →
      Φ j (Space.first K j tf us ks e))
    (hfork : ∀ (j l : Fin NPROC) a tf us ks e, a.WF K l → Φ l a →
      Fresh (fixedEntries K tf us) 0 (npages a.sz) (fun v => PTE_FLAGS (a.user v)) e → Φ j (a.forked K j tf us ks e))
    (hsbrk : ∀ k (j : Fin NPROC) a a' n, a.WF K j → Φ j a → (k.proc j).sz = a.sz → ok k (j, .sbrk n) →
      Space.Sbrk (addSize a.sz n) a a' → Φ j a')
    (hexec : ∀ k (j : Fin NPROC) a path argv sz e, a.WF K j → Φ j a → (k.proc j).sz = a.sz →
      ok k (j, .exec (some path) argv true) → UserMap e (fixedEntries K a.trapframe a.usyscall) (npages sz) →
      k.ImageSize j path sz → Φ j (a.replaced e sz))
    (hfail : ∀ k k' (j : Fin NPROC) a path argv sz e, a.WF K j → Φ j a → (k.proc j).sz = a.sz →
      ok k (j, .exec (some path) argv true) → syscall K j (.exec (some path) argv true) k = .ok (-1) k' →
      k.ImageSize j path sz → Φ j (a.shadow e (npages sz)))
    (h : ReachableBy K ok k) (hi : k.Live i) : ∃ a, Placed K k i a ∧ Φ i a := by
  suffices hall : ∃ A pg B, KInv K k A pg B noFiles Books.idle ∧ ∀ l b, A l = some b → Φ l b by
    obtain ⟨A, pg, B, hk, hA⟩ := hall
    obtain ⟨a, ha⟩ := hk.mem.used hi
    exact ⟨a, hk.placed ha, hA i a ha⟩
  refine h.spaces (Φ := fun A => ∀ l b, A l = some b → Φ l b) ?_ ?_
  · intro j tf us ks e hf
    exact forall_update (fun l b hb => by cases hb) (hfirst j tf us ks e hf)
  · intro k k' A A' j a act r hwf hA ha hsz hok hcall hc
    cases hc with
    | same => exact hA
    | fork _ hf => exact forall_update hA (hfork _ j a _ _ _ _ (hwf j a ha) (hA j a ha) hf)
    | sbrk hs => exact forall_update hA (hsbrk k j a _ _ (hwf j a ha) (hA j a ha) hsz hok hs)
    | exec _ _ hmap hsize =>
      exact forall_update hA (hexec k j a _ _ _ _ (hwf j a ha) (hA j a ha) hsz hok hmap hsize)
    | execFail _ _ hsize =>
      exact forall_update hA (hfail k k' j a _ _ _ _ (hwf j a ha) (hA j a ha) hsz hok hcall hsize)
    | reap => exact forall_update_none hA

theorem ExecSucceeds.absurd {k' : Kernel} {path : List UInt8} {argv : List (List UInt8)}
    (h : ExecSucceeds K k (i, .exec (some path) argv true))
    (hcall : syscall K i (.exec (some path) argv true) k = .ok (-1) k') : False :=
  h _ _ _ _ _ rfl hcall rfl

/-- Coherence of one process, as long as every `exec` succeeds. -/
theorem Kernel.ReachableBy.coherent (h : ReachableBy K (ExecSucceeds K) k) (hi : k.Live i) :
    ∃ a, Placed K k i a ∧ a.Coherent := by
  refine h.each (Φ := fun _ a => a.Coherent) ?_ ?_ ?_ ?_ ?_ hi
  · exact fun j tf us ks e hf => Space.first_coherent hf
  · intro j l a tf us ks e hwf _ hf
    exact Space.forked_coherent hwf hf
  · exact fun k j a a' n hwf ha _ _ hs => hs.coherent hwf ha
  · exact fun k j a path argv sz e _ _ _ _ hmap _ => Space.coherent_shadowRange hmap.low rfl rfl rfl
  · exact fun k k' j a path argv sz e _ _ _ hok hcall _ => (ExecSucceeds.absurd hok hcall).elim

/-- **Shadow coherence below `sz`.** -/
theorem reachable_coherent (h : ReachableBy K (ExecSucceeds K) k) (hi : k.Live i) {va : Nat}
    (hva : va < PGROUNDUP (k.proc i).sz) :
    SameMapping (k.kernEntry i (va / PGSIZE)) (k.userEntry i (va / PGSIZE)) := by
  obtain ⟨a, hp, ha⟩ := h.coherent hi
  rw [hp.sz] at hva
  have hv := div_lt_of_lt_PGROUNDUP hva
  rw [hp.kernEntry (hp.lt_vpns hv), hp.userEntry (hp.lt_vpns hv)]
  exact ha _ hv

theorem reachable_coherent_small : ReachableBy smallImage (ExecSucceeds smallImage) smallKernel ∧
    ∃ j, smallKernel.Live j ∧ 0 < PGROUNDUP (smallKernel.proc j).sz ∧
      SameMapping (smallKernel.kernEntry j (0 / PGSIZE)) (smallKernel.userEntry j (0 / PGSIZE)) := by
  obtain ⟨j, hj, hsz⟩ := smallKernel_live
  have hr : ReachableBy smallImage (ExecSucceeds smallImage) smallKernel := .init smallKernel_booted
  have hva : 0 < PGROUNDUP (smallKernel.proc j).sz := by
    rw [hsz]
    decide
  exact ⟨hr, j, hj, hva, reachable_coherent hr hj hva⟩

/-! ## Dangling mappings -/

/-- The kernel page table of process `i` has no mapping below `USER_TOP` but those of the devices and of pages that
the process has. -/
def Kernel.NoDangling (k : Kernel) (i : Fin NPROC) : Prop :=
  ∀ va, va < USER_TOP → ¬ IsDevice (va / PGSIZE) → hasFlag (k.kernEntry i (va / PGSIZE)) PTE_V = true →
    hasFlag (k.userEntry i (va / PGSIZE)) PTE_V = true ∧
    PTE2PA (k.kernEntry i (va / PGSIZE)) = PTE2PA (k.userEntry i (va / PGSIZE))

/-- Nothing but devices is mapped from the end of user memory to `USER_TOP`. -/
def Space.Tight (a : Space) : Prop :=
  ∀ v, v < USER_PAGES → ¬ IsDevice v → hasFlag (a.kern v) PTE_V = true → v < npages a.sz

theorem stackEntries_low {v : Nat} (hv : v < USER_PAGES) (hd : ¬ IsDevice v) : stackEntries K j ks v = 0 := by
  have hlow : USER_PAGES ≤ 2 ^ 26 - 4 - 2 * NPROC := by decide
  have hj := j.isLt
  unfold stackEntries
  rw [update_of_ne (by rw [kstackVpn_eq hj]; omega)]
  exact kernelEntries_low K hv hd

/-- A kernel page table into which only user memory has been copied. -/
theorem Space.tight_shadowRange (hk : a.kern = shadowRange (stackEntries K j ks) e 0 (npages a.sz)) : a.Tight := by
  intro v hv hd hV
  by_contra hn
  rw [hk] at hV
  unfold shadowRange at hV
  rw [if_neg (by omega), stackEntries_low hv hd] at hV
  cases hV

theorem Space.first_tight : (Space.first K j tf us ks e).Tight := by
  have hk : (Space.first K j tf us ks e).kern =
      shadowRange (stackEntries K j ks) e 0 (npages (Space.first K j tf us ks e).sz) := by
    rw [show (Space.first K j tf us ks e).sz = PGSIZE from rfl, npages_one]
    rfl
  exact Space.tight_shadowRange hk

theorem Space.forked_tight : (a.forked K j tf us ks e).Tight := by
  have hk : (a.forked K j tf us ks e).kern =
      shadowRange (stackEntries K j ks) e 0 (npages (a.forked K j tf us ks e).sz) := rfl
  exact Space.tight_shadowRange hk

/-- More pages are shadowed. -/
theorem Space.Tight.shadow {b : Space} {c d : Nat} (h : a.Tight)
    (hk : b.kern = shadowRange a.kern e c d) (hd : d ≤ npages b.sz) (hn : npages a.sz ≤ npages b.sz) : b.Tight := by
  intro v hv hdev hV
  rw [hk] at hV
  unfold shadowRange at hV
  split at hV
  · rename_i hr
    omega
  · have hlt := h v hv hdev hV
    omega

theorem Space.Sbrk.tight {b : Space} {newsz : Nat} (h : Space.Sbrk newsz a b) (ha : a.Tight)
    (hn : npages a.sz ≤ npages newsz) : b.Tight := by
  cases h with
  | same => exact ha
  | @grow sz e _ hle hsz _ =>
    refine ha.shadow rfl (Nat.le_refl _) (npages_mono ?_ hle)
    exact Nat.le_trans hsz (by decide)
  | shrink _ =>
    intro v hv hd hV
    exact Nat.lt_of_lt_of_le (ha v hv hd hV) hn

/-- **No dangling mappings**, as long as no process gives memory back. -/
theorem reachable_noDangling (h : ReachableBy K (KeepsPages K) k) (hi : k.Live i) : k.NoDangling i := by
  obtain ⟨a, hp, hco, ht⟩ := h.each (Φ := fun _ a => a.Coherent ∧ a.Tight)
    (fun j tf us ks e hf => ⟨Space.first_coherent hf, Space.first_tight⟩)
    (fun j l a tf us ks e hwf _ hf => ⟨Space.forked_coherent hwf hf, Space.forked_tight⟩)
    (fun k j a a' n hwf ha hsz hok hs => ⟨hs.coherent hwf ha.1, hs.tight ha.2 (by
      have hkeep := hok.2.1 n rfl
      rwa [hsz] at hkeep)⟩)
    (fun k j a path argv sz e _ ha hsz hok hmap hsize => ⟨Space.coherent_shadowRange hmap.low rfl rfl rfl, by
      obtain ⟨n, hn, hle⟩ := hok.2.2 path argv true rfl
      rw [hsz, ← hsize.pages hn] at hle
      exact ha.2.shadow rfl (Nat.le_refl _) hle⟩)
    (fun k k' j a path argv sz e _ _ _ hok hcall _ => (ExecSucceeds.absurd hok.1 hcall).elim) hi
  intro va hva hd hV
  have hv : va / PGSIZE < USER_PAGES := Nat.div_lt_of_lt_mul (Nat.lt_of_lt_of_le hva (by decide))
  have hvp : va / PGSIZE < vpns := Nat.lt_of_lt_of_le hv (by decide)
  rw [hp.kernEntry hvp] at hV ⊢
  rw [hp.userEntry hvp]
  have hlt := ht _ hv hd hV
  exact ⟨(hp.wf.map.low _ hlt).1, (hco _ hlt).page⟩

theorem reachable_noDangling_small : ReachableBy smallImage (KeepsPages smallImage) smallKernel ∧
    ∃ j, smallKernel.Live j ∧ smallKernel.NoDangling j := by
  obtain ⟨j, hj, -⟩ := smallKernel_live
  have hr : ReachableBy smallImage (KeepsPages smallImage) smallKernel := .init smallKernel_booted
  exact ⟨hr, j, hj, reachable_noDangling hr hj⟩

section shrink

variable {A : Fin NPROC → Option Space} {pg : Fin NPROC → Multiset Nat} {B : Multiset Nat} {a : Space}

/-- `sbrk` with a negative amount. -/
theorem Kernel.sysSbrk_neg_spec {x : Fin NFILE → Int} {b : Books} {P : String → Prop} {H : Prop}
    (h : KInv K k A pg B x b) (ha : A i = some a) {n : Int} (hn : n < 0) :
    wpm (sysSbrk K i n) (fun r k' => r ≠ -1 ∧
      ∃ pg', KInv K k' (update A i (some (a.shrunk (addSize a.sz n)))) pg' B x b) P H k := by
  unfold sysSbrk
  rw [wpm_bind, wpm_readProc]
  refine wpm_seq (growproc_neg_spec h ha hn) ?_
  rintro r k' ⟨rfl, -, pg', h'⟩
  rw [if_neg (by omega)]
  exact ⟨by omega, pg', h'⟩

theorem Kernel.step_of_ok {k' : Kernel} {act : Kernel.Act} {r : Int} (hrun : (k.proc i).state = .RUNNABLE)
    (h : syscall K i act k = .ok r k') : step K k (i, act) = some k' := by
  unfold step
  rw [if_pos hrun]
  dsimp only
  rw [h]

/-- A process of one page gives it back. -/
theorem sbrk_dangling (h : KInv K k A pg B noFiles Books.idle) (ha : A i = some a) (hco : a.Coherent)
    (hrun : (k.proc i).state = .RUNNABLE) (hsz : a.sz = PGSIZE) :
    ∃ k', step K k (i, .sbrk (-4096)) = some k' ∧ k'.Live i ∧ ¬ k'.NoDangling i := by
  obtain ⟨r, k', hcall, -, pg', h'⟩ := wpm_total (sysSbrk_neg_spec h ha (show (-4096 : Int) < 0 by decide))
  have ha' : update A i (some (a.shrunk (addSize a.sz (-4096)))) i = some (a.shrunk (addSize a.sz (-4096))) :=
    update_self ..
  have hp := h'.placed ha'
  have hnew : addSize a.sz (-4096) = 0 := by
    rw [hsz]
    decide
  have hshrunk : a.shrunk (addSize a.sz (-4096)) = { a with sz := 0, user := clearRange a.user (npages 0) (npages a.sz) } := by
    unfold Space.shrunk
    rw [hnew, hsz, if_neg (by decide)]
  rw [hshrunk] at hp
  have hlive : k'.Live i := (h'.mem.space ha').1
  refine ⟨k', step_of_ok hrun hcall, hlive, fun hnd => ?_⟩
  have h0 : (0 : Nat) < vpns := by decide
  have hdev : ¬ IsDevice 0 := by
    unfold IsDevice
    decide
  have hone : 0 < npages a.sz := by
    rw [hsz]
    decide
  have hV : hasFlag (k'.kernEntry i 0) PTE_V = true := by
    rw [hp.kernEntry h0]
    exact (hco 0 hone).valid
  have huser := (hnd 0 (by decide) hdev hV).1
  rw [Nat.zero_div, hp.userEntry h0] at huser
  have hclear : clearRange a.user (npages 0) (npages a.sz) 0 = 0 := by
    unfold clearRange
    rw [npages_zero, if_pos ⟨Nat.le_refl 0, hone⟩]
  dsimp only at huser
  rw [hclear] at huser
  cases huser

end shrink

/-- The first process of the small machine gives back its only page. -/
theorem dangling_after_sbrk : ∃ k, ReachableBy smallImage (ExecSucceeds smallImage) k ∧
    ∃ j, k.Live j ∧ ¬ k.NoDangling j := by
  obtain ⟨B, j, tf, us, ks, e, X, hf, hrun, hk⟩ := smallKernel_first
  obtain ⟨k', hstep, hlive, hnd⟩ := sbrk_dangling hk (Function.update_self ..) (Space.first_coherent hf) hrun rfl
  have hr : ReachableBy smallImage (ExecSucceeds smallImage) smallKernel := .init smallKernel_booted
  exact ⟨k', hr.step (fun _ _ _ _ _ hc => by cases hc) hstep, j, hlive, hnd⟩

/-! ## The kernel's own mappings -/

/-- The call does not take the process over `b` pages. -/
def Kernel.Within (b : Nat) (k : Kernel) (a : Fin NPROC × Kernel.Act) : Prop :=
  (∀ n, a.2 = .sbrk n → npages (addSize (k.proc a.1).sz n) ≤ b) ∧
  ∀ path argv fetched, a.2 = .exec (some path) argv fetched → ∃ n, k.ImagePages a.1 path n ∧ n ≤ b

/-- User memory lies below page `b`; from there on the kernel page table is as `allocproc` made it. -/
def Space.KernelFrom (K : KernelImage) (b j : Nat) (a : Space) : Prop :=
  npages a.sz ≤ b ∧ ∀ v, b ≤ v → a.kern v = stackEntries K j a.kstack v

theorem Space.KernelFrom.shadow {b j : Nat} {kern : Nat → Nat} {c d : Nat}
    (h : ∀ v, b ≤ v → kern v = stackEntries K j a.kstack v) (hn : npages a.sz ≤ b)
    (hk : a.kern = shadowRange kern e c d) (hd : d ≤ b) : a.KernelFrom K b j := by
  refine ⟨hn, fun v hv => ?_⟩
  rw [hk, shadowRange, if_neg (by omega)]
  exact h v hv

theorem Space.Sbrk.kernelFrom {b j newsz : Nat} {a' : Space} (h : Space.Sbrk newsz a a')
    (ha : a.KernelFrom K b j) (hn : npages newsz ≤ b) : a'.KernelFrom K b j := by
  cases h with
  | same => exact ha
  | @grow sz e hsz _ _ _ =>
    have hb : npages sz ≤ b := by
      rcases hsz with rfl | rfl
      · exact hn
      · exact ha.1
    exact .shadow ha.2 hb rfl hb
  | shrink _ => exact ⟨hn, ha.2⟩

/-- **The kernel stays mapped** as long as no process grows into the addresses of the CLINT: devices, text, data,
trampoline and stack are where `allocproc` mapped them. -/
theorem reachable_kernelMapped (h : ReachableBy K (Within (CLINT / PGSIZE)) k) (hi : k.Live i) {v : Nat} (hv : v < vpns)
    (hV : hasFlag (stackEntries K i (k.proc i).kstack v) PTE_V = true) :
    k.kernEntry i v = stackEntries K i (k.proc i).kstack v := by
  have hone : npages PGSIZE ≤ CLINT / PGSIZE := by decide
  obtain ⟨a, hp, ha⟩ := h.each (Φ := fun j a => a.KernelFrom K (CLINT / PGSIZE) j)
    (fun j tf us ks e _ => .shadow (fun _ _ => rfl) hone rfl hone)
    (fun j l a tf us ks e _ ha _ => .shadow (fun _ _ => rfl) ha.1 rfl ha.1)
    (fun k j a a' n _ ha hsz hok hs => hs.kernelFrom ha (hsz ▸ hok.1 n rfl))
    (fun k j a path argv sz e _ ha _ hok _ hsize => by
      obtain ⟨n, hn, hle⟩ := hok.2 path argv true rfl
      rw [← hsize.pages hn] at hle
      exact .shadow ha.2 hle rfl hle)
    (fun k k' j a path argv sz e _ ha _ hok _ hsize => by
      obtain ⟨n, hn, hle⟩ := hok.2 path argv true rfl
      rw [← hsize.pages hn] at hle
      exact .shadow ha.2 ha.1 rfl hle) hi
  rw [hp.kernEntry hv, ha.2 v ?_, hp.kstack]
  -- nothing of the kernel is mapped below the CLINT
  by_contra hlt
  have hdev : ¬ IsDevice v := by
    simp only [IsDevice, UART0, VIRTIO0, CLINT, PLIC, PGSIZE] at hlt ⊢
    omega
  rw [stackEntries_low (Nat.lt_of_lt_of_le (Nat.lt_of_not_le hlt) (by decide)) hdev] at hV
  cases hV

theorem reachable_kernelMapped_small : ReachableBy smallImage (Within (CLINT / PGSIZE)) smallKernel ∧
    ∃ j, smallKernel.Live j ∧ smallKernel.kernEntry j (UART0 / PGSIZE) = leafPte UART0 (PTE_R ||| PTE_W) := by
  obtain ⟨j, hj, -⟩ := smallKernel_live
  have hr : ReachableBy smallImage (Within (CLINT / PGSIZE)) smallKernel := .init smallKernel_booted
  have huart : stackEntries smallImage j (smallKernel.proc j).kstack (UART0 / PGSIZE) = leafPte UART0 (PTE_R ||| PTE_W) := by
    have hne : UART0 / PGSIZE ≠ kstackVpn j := (Nat.lt_trans (by decide) (kstackVpn_lt j).1).ne
    rw [stackEntries, Function.update_of_ne hne]
    decide
  refine ⟨hr, j, hj, ?_⟩
  rw [reachable_kernelMapped hr hj (by decide) (by rw [huart]; decide), huart]

/-- Nothing in the kernel page table is for the user. -/
def Space.Supervisor (a : Space) : Prop := ∀ v, hasFlag (a.kern v) PTE_U = false

theorem hasFlag_leafPte_U {pa perm : Nat} (hlt : perm < 2 ^ 10) (h : hasFlag (perm ||| PTE_V) PTE_U = false) :
    hasFlag (leafPte pa perm) PTE_U = false := by
  rw [hasFlag_mod (by decide), PTE_FLAGS_leafPte hlt, h]

theorem mapped_supervisor {va pa size perm : Nat} (he : ∀ v, hasFlag (e v) PTE_U = false)
    (hlt : perm < 2 ^ 10) (h : hasFlag (perm ||| PTE_V) PTE_U = false) (v : Nat) :
    hasFlag (mapped e va pa size perm v) PTE_U = false := by
  unfold mapped mapRange
  split
  · exact hasFlag_leafPte_U hlt h
  · exact he v

theorem stackEntries_supervisor (j ks v : Nat) : hasFlag (stackEntries K j ks v) PTE_U = false := by
  by_cases hv : v = kstackVpn j
  · rw [stackEntries, hv, update_self]
    exact hasFlag_leafPte_U (by decide) (by decide)
  · rw [stackEntries, update_of_ne hv]
    unfold kernelEntries deviceEntries
    iterate 7
      refine mapped_supervisor (fun v => ?_) (by decide) (by decide) _
    decide

theorem Space.Supervisor.shadow {kern : Nat → Nat} {c d : Nat}
    (h : ∀ v, hasFlag (kern v) PTE_U = false) (hk : a.kern = shadowRange kern e c d) : a.Supervisor := by
  intro v
  rw [hk, shadowRange]
  split
  · rw [hasFlag_mod (by decide), PTE_FLAGS_shadowPte, hasFlag_clearU_U]
  · exact h v

/-- **No kernel page table has an entry for the user**, whatever was copied into it. -/
theorem reachable_supervisor (h : Reachable K k) (hi : k.Live i) {v : Nat} (hv : v < vpns) :
    hasFlag (k.kernEntry i v) PTE_U = false := by
  obtain ⟨a, hp, ha⟩ := h.each (Φ := fun _ a => a.Supervisor)
    (fun j tf us ks e _ => .shadow (stackEntries_supervisor j ks) rfl)
    (fun j l a tf us ks e _ _ _ => .shadow (stackEntries_supervisor j ks) rfl)
    (fun k j a a' n _ ha _ _ hs => by
      cases hs with
      | same | shrink _ => exact ha
      | grow _ _ _ _ => exact .shadow ha rfl)
    (fun k j a path argv sz e _ ha _ _ _ _ => .shadow ha rfl)
    (fun k k' j a path argv sz e _ ha _ _ _ _ => .shadow ha rfl) hi
  rw [hp.kernEntry hv]
  exact ha v

theorem reachable_supervisor_small : ∃ j, smallKernel.Live j ∧ hasFlag (smallKernel.kernEntry j 0) PTE_U = false := by
  obtain ⟨j, hj, -⟩ := smallKernel_live
  exact ⟨j, hj, reachable_supervisor smallKernel_reachable hj (by decide)⟩

end Xv6
