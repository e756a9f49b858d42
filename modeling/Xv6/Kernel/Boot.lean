import Xv6.Kernel.Life
import Xv6.Vm.Exact

/-!
# Booting

* `PowerOn` — the kernel's data as the loader leaves it.
* `kinit_spec` — every page above the kernel becomes free.
* `kvmmake_spec`, `virtioDiskInit_spec` — what the kernel keeps for itself.
* `userinit_spec` — the first process.
* `boot_spec` — `boot` establishes the invariant, and succeeds when there are `BOOT_PAGES` pages.
-/

namespace Xv6

open Prog Function

variable {K : KernelImage} {s : Mem} {P : String → Prop} {H : Prop}

/-! ## The allocator -/

/-- The pages that `freerange` has freed after `n` iterations. -/
def freedPages (start n : Nat) : List Nat := ((List.range n).map fun i => start + i * PGSIZE).reverse

theorem freedPages_succ (start n : Nat) : freedPages start (n + 1) = (start + n * PGSIZE) :: freedPages start n := by
  unfold freedPages
  rw [List.range_succ, List.map_append, List.reverse_append]
  rfl

theorem mem_freedPages {start n x : Nat} : x ∈ freedPages start n ↔ ∃ i, i < n ∧ start + i * PGSIZE = x := by
  simp [freedPages]

theorem freedPages_nodup (start n : Nat) : (freedPages start n).Nodup := by
  refine List.nodup_reverse.2 (List.Nodup.map (fun i j hij => ?_) List.nodup_range)
  have hmul : i * PGSIZE = j * PGSIZE := Nat.add_left_cancel hij
  exact Nat.eq_of_mul_eq_mul_right (by decide) hmul

/-- The pages of RAM that the kernel does not occupy. -/
def KernelImage.pages (K : KernelImage) : Nat := (PHYSTOP - PGROUNDUP K.endAddr) / PGSIZE

theorem KernelImage.end_rounded (K : KernelImage) : PGROUNDUP K.endAddr = (K.endAddr + 4095) / 4096 * 4096 := by
  have hend := K.end_lt
  rw [PGROUNDUP_npages, npages_eq (Nat.le_trans (Nat.le_of_lt hend) phystop_le.2)]
  rfl

theorem managed_iff {x : Nat} : Managed K x ↔ ∃ i, i < K.pages ∧ PGROUNDUP K.endAddr + i * PGSIZE = x := by
  have hend := K.end_lt
  rw [PHYSTOP_eq] at hend
  unfold Managed KernelImage.pages
  rw [K.end_rounded, PHYSTOP_eq]
  simp only [PGSIZE]
  constructor
  · rintro ⟨h1, h2, h3⟩
    exact ⟨(x - (K.endAddr + 4095) / 4096 * 4096) / 4096, by omega, by omega⟩
  · rintro ⟨i, hi, rfl⟩
    omega

/-- **`kinit`** frees every page above the kernel. -/
theorem kinit_spec (h : s.freelist = []) {E : Mem → Prop} :
    wp (kinit K) (fun _ s' => s'.freelist = freedPages (PGROUNDUP K.endAddr) K.pages) E s := by
  suffices hloop : wp (loop (fun i => kfree K (PGROUNDUP K.endAddr + i * PGSIZE)) 0 K.pages)
      (fun _ s' => s'.freelist = freedPages (PGROUNDUP K.endAddr) (0 + K.pages)) E s by
    rw [Nat.zero_add] at hloop
    exact hloop
  refine wp_loop (fun i (s : Mem) => s.freelist = freedPages (PGROUNDUP K.endAddr) i) K.pages 0 ?_ h
  · intro i s' _ hi hs
    obtain ⟨h1, h2, h3⟩ := (managed_iff (K := K)).2 ⟨i, by omega, rfl⟩
    unfold kfree
    rw [if_neg (by omega), freedPages_succ, ← hs]
    rfl

theorem owns_freedPages (h : s.freelist = freedPages (PGROUNDUP K.endAddr) K.pages) : Owns K s 0 where
  nodup := by
    rw [zero_add, h]
    exact freedPages_nodup _ _
  managed x hx := by
    rw [zero_add, h, Multiset.mem_coe, mem_freedPages] at hx
    exact managed_iff.2 hx

/-! ## The kernel's own pages -/

/-- The entries of the kernel's page table, before the stacks. -/
def bootEntries (K : KernelImage) : Nat → Nat :=
  mapped (mapped (mapped (mapped (mapped (mapped (fun _ => 0) UART0 UART0 PGSIZE (PTE_R ||| PTE_W))
    VIRTIO0 VIRTIO0 PGSIZE (PTE_R ||| PTE_W)) PLIC PLIC 0x400000 (PTE_R ||| PTE_W))
    KERNBASE KERNBASE (K.etext - KERNBASE) (PTE_R ||| PTE_X)) K.etext K.etext (PHYSTOP - K.etext) (PTE_R ||| PTE_W))
    TRAMPOLINE K.trampoline PGSIZE (PTE_R ||| PTE_X)

/-- There is room for the stacks below the trampoline. -/
theorem bootEntries_high (K : KernelImage) {v : Nat} (hv : PHYSTOP / PGSIZE ≤ v) (hlt : v < trampolineVpn) :
    bootEntries K v = 0 := by
  have h1 : UART0 / PGSIZE + PGSIZE / PGSIZE ≤ PHYSTOP / PGSIZE := by decide
  have h2 : VIRTIO0 / PGSIZE + PGSIZE / PGSIZE ≤ PHYSTOP / PGSIZE := by decide
  have h3 : PLIC / PGSIZE + 0x400000 / PGSIZE ≤ PHYSTOP / PGSIZE := by decide
  have text := K.text_range
  have data := K.data_range
  have htext : K.etext / PGSIZE ≤ PHYSTOP / PGSIZE := Nat.div_le_div_right (Nat.le_of_lt K.etext_le_phystop)
  have ht := text.top
  have hd := data.top
  unfold bootEntries
  rw [mapped_of_out (Or.inl hlt), mapped_of_out (by omega), mapped_of_out (by omega), mapped_of_out (by omega),
    mapped_of_out (by omega), mapped_of_out (by omega)]

theorem kstackVpn_inj {i j : Fin NPROC} (h : kstackVpn i = kstackVpn j) : i = j := by
  rw [kstackVpn_eq i.isLt, kstackVpn_eq j.isLt] at h
  have hi := i.isLt
  have hj := j.isLt
  simp only [NPROC] at hi hj
  exact Fin.ext (by omega)

/-- A stack for each process of the list: one page, and two for tables at most. -/
theorem procMapstacks_spec {t : Nat} : ∀ (is : List (Fin NPROC)) {s : Mem} {T S : Multiset Nat} {e : Nat → Nat},
    is.Nodup → Owns K s (T + S) → PageTable s t T e → (∀ i ∈ is, e (kstackVpn i) = 0) →
    (3 * is.length ≤ s.freelist.length ∨ ∀ m, P m) →
    wpm (Kernel.procMapstacks t is) (fun _ s' => ∃ X, Moves s (T + S) s' X ∧
      s.freelist.length ≤ s'.freelist.length + 3 * is.length) P H s
  | [], s, T, S, e, _, _, _, _, _ => ⟨T + S, Moves.refl _ _, Nat.le_refl _⟩
  | i :: is, s, T, S, e, hnd, ho, ht, hz, hP => by
    obtain ⟨hi, hnd⟩ := List.nodup_cons.1 hnd
    rw [List.length_cons] at hP ⊢
    unfold Kernel.procMapstacks
    refine wpm_seq (wpm_of_wp kalloc_spec) ?_
    rintro r s₁ (⟨rfl, hnil, rfl⟩ | ⟨pa, rs, rfl, hfl, rfl⟩)
    · rw [hnil, List.length_nil] at hP
      exact hP.resolve_left (by omega) _
    have hlen : s.freelist.length = rs.length + 1 := by rw [hfl, List.length_cons]
    have hm₁ := (kalloc_moves hfl 0 5).add (T + S)
    rw [zero_add] at hm₁
    have ho₀ : Owns K s (0 + (T + S)) := ho.congr (zero_add _).symm
    have ho₁ : Owns K _ (T + (pa ::ₘ 0 + S)) := (ho.moves hm₁).congr (add_left_comm _ _ _)
    have ht₁ := ht.congr fun y hy => ho₀.page_eq (kalloc_moves hfl 0 5) (by simp [hy])
    have hpa : PageAddr pa :=
      (ho.managed pa (Multiset.mem_add.2 (Or.inr (by rw [hfl]; exact List.mem_cons_self)))).pageAddr
    have hend : pa + PGSIZE ≤ 2 ^ 64 := by
      obtain ⟨h1, h2⟩ := hpa
      simp only [PGSIZE] at *
      omega
    have hal := KSTACK_aligned i.isLt
    have hneed : ∀ x : Mem, tableNeed x t (KSTACK i / PGSIZE) (PGSIZE / PGSIZE) ≤ 2 := by
      intro x
      refine Nat.le_trans tableNeed_le_rangeNeed ?_
      unfold rangeNeed
      rw [Nat.div_self (by decide), Nat.add_sub_cancel, Nat.sub_self]
    refine wpm_seq (kvmmap_spec (by decide) ht₁ ho₁.left hal.1 (by decide) (by decide) hend hal.2 ?_ ?_) ?_
    · intro u hu hu'
      have huv : u = kstackVpn i := by
        rw [Nat.div_self (by decide)] at hu'
        exact Nat.le_antisymm (Nat.le_of_lt_succ hu') hu
      rw [huv, hz i List.mem_cons_self]
      rfl
    · refine hP.imp (fun h => Nat.le_trans (hneed _) ?_) fun h => h _
      show 2 ≤ rs.length
      omega
    rintro _ s₂ ⟨T₂, hm₂, ht₂, hc₂⟩
    have hc₂ : rs.length ≤ s₂.freelist.length + 2 := Nat.le_trans hc₂ (Nat.add_le_add_left (hneed _) _)
    rw [Nat.div_self (by decide), mapRange_one] at ht₂
    have hm₁₂ : Moves s (T + S) s₂ (T₂ + (pa ::ₘ 0 + S)) :=
      (hm₁.congr rfl (add_left_comm _ _ _)).trans (hm₂.add _)
    refine wpm_mono (procMapstacks_spec is hnd (ho.moves hm₁₂) ht₂ (fun j hj => ?_) (hP.imp_left fun h => by omega)) ?_
    · have hne : kstackVpn j ≠ KSTACK i / PGSIZE := fun hc => hi (kstackVpn_inj hc ▸ hj)
      rw [update_of_ne hne]
      exact hz j (List.mem_cons_of_mem _ hj)
    · rintro _ s₃ ⟨X, hm₃, hc₃⟩
      exact ⟨X, hm₁₂.trans hm₃, by omega⟩

/-- Enough pages for the kernel's page table and the stacks. -/
def KVM_PAGES : Nat := 600

/-- **`kvmmake`** keeps the pages it takes. -/
theorem kvmmake_spec (ho : Owns K s 0) (hP : KVM_PAGES ≤ s.freelist.length ∨ ∀ m, P m) :
    wpm (Kernel.kvmmake K) (fun _ s' => ∃ X, Moves s 0 s' X ∧ s.freelist.length ≤ s'.freelist.length + KVM_PAGES)
      P H s := by
  have halign := K.etext_aligned
  have text := K.text_range
  have data := K.data_range
  have hneed : ∀ {c : Nat}, c ≤ KVM_PAGES → c ≤ s.freelist.length ∨ P "kvmmap" :=
    fun hc => hP.imp (Nat.le_trans hc) fun h => h _
  unfold Kernel.kvmmake
  refine wpm_seq (wpm_of_wp kalloc_spec) ?_
  rintro r s₀ (⟨rfl, hnil, rfl⟩ | ⟨t, rs, rfl, hfl, rfl⟩)
  · rw [hnil] at hP
    exact hP.resolve_left (by decide) _
  rw [wpm_bind, wpm_modify]
  have hempty : ∀ i, ((({ s.fill t 5 with freelist := rs } : Mem)).fill t 0).pte t i = 0 := Mem.pte_fill_zero _ t
  have hb₀ : Building s (({ s.fill t 5 with freelist := rs } : Mem).fill t 0) t (fun _ => 0) 1 :=
    ⟨{t}, alloc_moves hfl _, ⟨Radix.tables_empty hempty, Radix.inner_empty hempty, fun v _ => Radix.lookup_empty hempty⟩,
      by rw [hfl, Mem.fill_freelist, List.length_cons]⟩
  refine wpm_seq (hb₀.next ho (by decide) (by decide) (by decide) (by decide) (by decide)
    (by decide) (fun _ _ _ => rfl) (hneed (by decide))) ?_
  intro _ s₁ hb₁
  refine wpm_seq (hb₁.next ho (by decide) (by decide) (by decide) (by decide) (by decide)
    (by decide) (fun u hu _ => mapped_above (by decide) hu) (hneed (by decide))) ?_
  intro _ s₂ hb₂
  refine wpm_seq (hb₂.next ho (by decide) (by decide) (by decide) (by decide) (by decide)
    (by decide) (fun u _ hu => ?_) (hneed (by decide))) ?_
  · exact (mapped_below (Nat.lt_of_lt_of_le hu (by decide))).trans (mapped_below (Nat.lt_of_lt_of_le hu (by decide)))
  intro _ s₃ hb₃
  have hdev : 1 + rangeNeed UART0 PGSIZE + rangeNeed VIRTIO0 PGSIZE + rangeNeed PLIC 0x400000 = 9 := by decide
  rw [hdev] at hb₃
  have hlow : ∀ u, KERNBASE / PGSIZE ≤ u → mapped (mapped (mapped (fun _ => 0) UART0 UART0 PGSIZE (PTE_R ||| PTE_W))
      VIRTIO0 VIRTIO0 PGSIZE (PTE_R ||| PTE_W)) PLIC PLIC 0x400000 (PTE_R ||| PTE_W) u = 0 := fun u hu =>
    (mapped_above (by decide) hu).trans ((mapped_above (by decide) hu).trans (mapped_above (by decide) hu))
  refine wpm_seq (Building.ram KERNBASE K.etext hb₃ ho (by decide) (by decide) text (fun u hu _ => hlow u hu)
    (hneed (by decide))) ?_
  intro _ s₄ hb₄
  have hbase : KERNBASE / PGSIZE ≤ K.etext / PGSIZE := Nat.div_le_div_right (Nat.le_of_lt K.kernbase_lt)
  refine wpm_seq (Building.ram K.etext PHYSTOP hb₄ ho (by decide) halign data (fun u hu _ => ?_)
    (hneed (by decide))) ?_
  · exact (mapped_above (Nat.le_of_eq text.top) hu).trans (hlow u (Nat.le_trans hbase hu))
  intro _ s₅ hb₅
  refine wpm_seq (hb₅.next ho (by decide) (by decide) (by decide) (by decide)
    (Nat.le_trans ?_ phystop_le.1) (by decide) (fun u hu _ => ?_) (hneed (by decide))) ?_
  · exact K.trampoline_eq ▸ Nat.le_of_lt K.etext_le_phystop
  · have htop : PHYSTOP / PGSIZE ≤ u := Nat.le_trans (by decide) hu
    have hmid : K.etext / PGSIZE ≤ u :=
      Nat.le_trans (Nat.div_le_div_right (Nat.le_of_lt K.etext_le_phystop)) htop
    exact (mapped_above (Nat.le_of_eq data.top) htop).trans
      ((mapped_above (Nat.le_of_eq text.top) hmid).trans (hlow u (Nat.le_trans (by decide) hu)))
  rintro _ s₆ ⟨T, hm₆, ht₆, hc₆⟩
  have htramp : 9 + 128 + 128 + rangeNeed TRAMPOLINE PGSIZE ≤ 267 := by decide
  have hstacks : 3 * (List.finRange NPROC).length = 192 := by decide
  have hc₆ : s.freelist.length ≤ s₆.freelist.length + 267 := Nat.le_trans hc₆ (Nat.add_le_add_left htramp _)
  have ho₆ : Owns K s₆ (T + 0) := (ho.moves hm₆).congr (add_zero T).symm
  refine wpm_seq (procMapstacks_spec _ (List.nodup_finRange NPROC) ho₆ ht₆ (fun i _ => ?_) ?_) ?_
  · have hvpn := kstackVpn_lt i
    exact bootEntries_high K (Nat.le_trans (by decide) (Nat.le_of_lt hvpn.1)) (by omega)
  · refine hP.imp_left fun h => ?_
    unfold KVM_PAGES at h
    omega
  · rintro _ s₇ ⟨X, hm₇, hc₇⟩
    rw [add_zero] at hm₇
    refine ⟨X, hm₆.trans hm₇, ?_⟩
    unfold KVM_PAGES
    omega

/-- The three pages of the disk. -/
theorem virtioDiskInit_spec {k : Kernel} (hP : 3 ≤ k.mem.freelist.length ∨ ∀ m, P m) :
    wpm Kernel.virtioDiskInit (fun _ k' => ∃ m X d, k' = { k with mem := m, disk := d } ∧ Moves k.mem 0 m X ∧
      k.mem.freelist.length ≤ m.freelist.length + 3) P H k := by
  unfold Kernel.virtioDiskInit
  rw [wpm_bind, Kernel.wpm_vm]
  refine wpm_mono (wpm_of_wp kalloc_spec) ?_
  intro r₁ m₁ h₁
  rw [wpm_bind, Kernel.wpm_vm]
  refine wpm_mono (wpm_of_wp kalloc_spec) ?_
  intro r₂ m₂ h₂
  rw [wpm_bind, Kernel.wpm_vm]
  refine wpm_mono (wpm_of_wp kalloc_spec) ?_
  intro r₃ m₃ h₃
  dsimp only at h₁ h₂ h₃
  -- a `kalloc` that fails finds the list empty, and then there were less than three pages
  rcases h₁ with ⟨rfl, hnil, rfl⟩ | ⟨p₁, l₁, rfl, hl₁, rfl⟩
  · rw [hnil, List.length_nil] at hP
    exact hP.resolve_left (by omega) _
  rw [hl₁, List.length_cons] at hP
  rcases h₂ with ⟨rfl, hnil, rfl⟩ | ⟨p₂, l₂, rfl, hl₂, rfl⟩
  · have hnil : l₁ = [] := hnil
    rw [hnil, List.length_nil] at hP
    exact hP.resolve_left (by omega) _
  have hl₂ : l₁ = p₂ :: l₂ := hl₂
  rw [hl₂, List.length_cons] at hP
  rcases h₃ with ⟨rfl, hnil, rfl⟩ | ⟨p₃, l₃, rfl, hl₃, rfl⟩
  · have hnil : l₂ = [] := hnil
    rw [hnil, List.length_nil] at hP
    exact hP.resolve_left (by omega) _
  have hl₃ : l₂ = p₃ :: l₃ := hl₃
  dsimp only
  rw [wpm_bind, Kernel.wpm_vm, wpm_modify, wpm_modify]
  refine ⟨_, p₃ ::ₘ p₂ ::ₘ p₁ ::ₘ 0, [p₁, p₂, p₃], rfl, ?_, ?_⟩
  · have hm := ((kalloc_moves hl₁ 0 5).trans (kalloc_moves hl₂ _ 5)).trans (kalloc_moves hl₃ _ 5)
    exact ((hm.trans (page_moves (by simp) _)).trans (page_moves (by simp) _)).trans (page_moves (by simp) _)
  · rw [hl₁, hl₂, hl₃]
    exact Nat.le_refl _

/-! ## The first process -/

/-- The first page of user memory. -/
def INIT_PERM : Nat := PTE_W ||| PTE_R ||| PTE_X ||| PTE_U

/-- **`uvmfirst`** maps the page; when there is no page for a table, the slot is missing. -/
theorem uvmfirst_spec {t : Nat} {T : Multiset Nat} {e : Nat → Nat} {src : List UInt8} (ht : PageTable s t T e)
    (ho : Owns K s T) (hz : e 0 = 0) (hlen : src.length < PGSIZE) (hP : 3 ≤ s.freelist.length ∨ ∀ m, P m) :
    wpm (uvmfirst t src) (fun _ s' => (∃ p T', PageAddr p ∧ Moves s T s' ({p} + T') ∧
      PageTable s' t T' (update e 0 (leafPte p INIT_PERM)) ∧ s.freelist.length ≤ s'.freelist.length + 3) ∨
      (∀ m, P m) ∧ s'.leafTable 2 t 0 = none) P H s := by
  unfold uvmfirst
  rw [if_neg (Nat.not_le.2 hlen)]
  refine wpm_seq (wpm_of_wp kalloc_spec) ?_
  rintro r s₁ (⟨rfl, hnil, rfl⟩ | ⟨p, rs, rfl, hfl, rfl⟩)
  · rw [hnil, List.length_nil] at hP
    exact hP.resolve_left (by omega) _
  have hl : s.freelist.length = rs.length + 1 := by rw [hfl, List.length_cons]
  have hp : PageAddr p :=
    (ho.managed p (Multiset.mem_add.2 (Or.inr (by rw [hfl]; exact List.mem_cons_self)))).pageAddr
  have hm₁ := alloc_moves hfl fun _ => 0
  have ho₀ : Owns K s (0 + T) := ho.congr (zero_add T).symm
  have ho₁ := ho₀.moves (hm₁.add T)
  have ht₁ := ht.congr fun y hy => ho₀.page_eq hm₁ hy
  dsimp only
  rw [wpm_bind, wpm_modify]
  have h0 : (0 : Nat) % PGSIZE = 0 := by decide
  have hmap := mapPage_spec (E := fun _ => False) (show INIT_PERM < 2 ^ 10 by decide) ht₁ ho₁.right h0 hp
    (Or.inl ⟨by decide, by rw [show 0 / PGSIZE = 0 from rfl, hz]; rfl⟩)
  have hown := ho₁.right
  rw [← ht₁.tables] at hown
  refine wpm_seq (wpm_of_wp (wp_mono (wp_and hmap (mapPage_missing hown (by decide))) (fun _ _ h => h)
    fun _ h => h.1)) ?_
  rintro r s₂ ⟨⟨T', hm₂, hr, hc, -⟩, hmiss⟩
  have hc : rs.length ≤ s₂.freelist.length + 2 := hc
  rw [wpm_modify]
  have hm₁₂ : Moves s T s₂ ({p} + T') := by
    refine ((hm₁.add T).congr (zero_add T) (add_comm _ _)).trans ((hm₂.add {p}).congr rfl (add_comm _ _))
  have ho₂ := ho.moves hm₁₂
  rcases hr with ⟨rfl, ht₂, -⟩ | ⟨rfl, ht₂, -, -, hshort⟩
  · refine Or.inl ⟨p, T', hp, hm₁₂.trans (page_moves (by simp) _), ht₂.congr fun y hy => ?_, ?_⟩
    · exact Mem.setBytes_page_ne _ _ _ (ho₂.ne hy)
    · rw [Mem.setBytes_freelist]
      omega
  · have hshort : rs.length < 2 := hshort
    refine Or.inr ⟨hP.resolve_left (by omega), ?_⟩
    rw [Mem.leafTable_congr fun y hy => Mem.setBytes_page_ne _ _ _ (ho₂.ne (ht₂.tables ▸ hy))]
    exact hmiss.resolve_left (by decide)

/-- The address space of the first process. -/
def Space.first (K : KernelImage) (j tf us ks : Nat) (e : Nat → Nat) : Space :=
  { Space.empty K j tf us ks with sz := PGSIZE, user := e, kern := shadowRange (stackEntries K j ks) e 0 1 }

theorem npages_one : npages PGSIZE = 1 := by decide

theorem Space.first_wf {j tf us ks : Nat} {e : Nat → Nat}
    (hf : Fresh (fixedEntries K tf us) 0 1 (fun _ => INIT_PERM) e) : (Space.first K j tf us ks e).WF K j := by
  have hempty := Space.empty_wf K j tf us ks
  have hmap : UserMap e (fixedEntries K tf us) (npages PGSIZE) := by
    rw [npages_one]
    exact Space.Fresh.userMap (n := 0) ⟨fun v hv => absurd hv (Nat.not_lt_zero v), fun _ _ _ => rfl⟩
      (Nat.zero_le 1) (fun _ _ _ => by decide) hf
  refine ⟨hmap, (by decide : PGSIZE ≤ USER_TOP - PGSIZE), hempty.shadowRange_high (by decide), hempty.shadowRange_leaf ?_⟩
  rw [← npages_one]
  exact hmap.low

namespace Fs

/-- `namei("/")` is the root. -/
theorem namei_root (cwd : Option (Fin NINODE)) :
    namei cwd [SLASH] = iget ROOTDEV ROOTINO >>= fun ip => pure (some ip) := by
  unfold namei namex
  rw [Prog.bind_assoc, if_pos (show [SLASH].head? = some SLASH from rfl)]
  rfl

theorem iget_ok {f : Fs} (h : ∀ ip, (f.inode ip).ref = 0) (dev inum : Nat) :
    ∃ ip f', iget dev inum f = .ok ip f' := by
  have hnone : ((List.finRange NINODE).find? fun i =>
      decide ((f.inode i).ref > 0 ∧ (f.inode i).dev = dev ∧ (f.inode i).inum = inum)) = none := by
    rw [List.find?_eq_none]
    intro i _
    rw [h i]
    simp
  have hsome : ((List.finRange NINODE).find? fun i => decide ((f.inode i).ref = 0)) ≠ none := by
    rw [Ne, List.find?_eq_none]
    intro hc
    exact hc ⟨0, by decide⟩ (List.mem_finRange _) (by rw [h]; rfl)
  obtain ⟨ip, hip⟩ := Option.ne_none_iff_exists'.1 hsome
  have htot : wp (iget dev inum) (fun _ _ => True) (fun _ => False) f := by
    unfold iget
    rw [wp_bind, wp_get, hnone, hip]
    trivial
  obtain ⟨ip', f', hrun, -⟩ := wp_total htot
  exact ⟨ip', f', hrun⟩

end Fs

/-- Enough pages for the first process. -/
def INIT_PAGES : Nat := PROC_PAGES + 5

section first

variable {k : Kernel} {B : Multiset Nat} {j : Fin NPROC} {tf us ks : Nat} {e : Nat → Nat}

/-- The first process exists. -/
structure FirstProc (K : KernelImage) (B : Multiset Nat) (k : Kernel) : Prop where
  proc : ∃ (j : Fin NPROC) (tf us ks : Nat) (e : Nat → Nat) (X : Multiset Nat),
    Fresh (fixedEntries K tf us) 0 1 (fun _ => INIT_PERM) e ∧ (k.proc j).state = .RUNNABLE ∧
    KInv K k (Function.update (fun _ => none) j (some (Space.first K j tf us ks e)))
      (Function.update (fun _ => 0) j X) B noFiles Books.idle

/-- `namei("/")`, the current directory, and the state of the new process. -/
theorem rootCwd_spec {A : Fin NPROC → Option Space} {pg : Fin NPROC → Multiset Nat}
    (h : KInv K k A pg B noFiles Books.idle) (hst : (k.proc j).state = .USED) (hcwd : (k.proc j).cwd = none)
    (hfs : ∀ ip, (k.fs.inode ip).ref = 0) :
    wpm (do
      let cwd ← Kernel.fsys (Fs.namei none [Fs.SLASH])
      Kernel.modifyProc j fun p => { p with cwd := cwd, state := .RUNNABLE }
      Kernel.release j) (fun _ k' => KInv K k' A pg B noFiles Books.idle ∧ (k'.proc j).state = .RUNNABLE) P H k := by
  obtain ⟨ip, f, hget⟩ := Fs.iget_ok hfs ROOTDEV ROOTINO
  have hinv := wpm_ok (Fs.iget_spec h.fs ROOTDEV ROOTINO) hget
  rw [Books.above_addRef] at hinv
  have hname : Fs.namei none [Fs.SLASH] k.fs = .ok (some ip) f := by
    rw [Fs.namei_root]
    exact bind_ok.2 ⟨ip, f, hget, rfl⟩
  have hrun : Kernel.fsys (Fs.namei none [Fs.SLASH]) k = .ok (some ip) { k with fs := f } := by
    unfold Kernel.fsys zoom
    rw [hname]
  have h₁ : KInv K { k with fs := f } A pg B noFiles (Books.idle.addRef ip 1) := h.setFs hinv
  generalize hk₁ : ({ k with fs := f } : Kernel) = k₁ at hrun h₁
  have hp₁ : k₁.proc j = k.proc j := by rw [← hk₁]
  rw [← hp₁] at hst hcwd
  have h₂ := h₁.giveCwd (i := j) ⟨by rw [hst]; decide, by rw [hst]; decide⟩ hcwd
  have h₃ := h₂.updProc (i := j) (F := fun p => { p with state := .RUNNABLE, locked := false })
    ⟨iff_of_false (fun hc => by cases hc) ?_, rfl, rfl, rfl, rfl, rfl, rfl, rfl⟩ rfl rfl
    (by rintro (hc | hc) <;> cases hc)
  · rw [Kernel.put_updProc] at h₃
    have hret : ∀ Q : Option (Fin NINODE) → Kernel → Prop, Q (some ip) k₁ →
        wpm (Kernel.fsys (Fs.namei none [Fs.SLASH])) Q P H k := by
      intro Q hQ
      unfold wpm
      rw [hrun]
      exact hQ
    rw [wpm_bind]
    refine hret _ ?_
    rw [wpm_bind, Kernel.wpm_modifyProc, Kernel.release, Kernel.wpm_modifyProc_put]
    refine ⟨h₃, ?_⟩
    rw [Kernel.put_proc_self]
  · rw [Kernel.put_proc_self]
    show (k₁.proc j).state ≠ .UNUSED
    rw [hst]
    decide

/-- Without the page, `u2kvmcopy` panics. -/
theorem u2kvmcopy_missing {m : Mem} {pt kt : Nat} {Q : Unit → Mem → Prop} (h : m.leafTable 2 pt 0 = none)
    (hP : ∀ m, P m) : wpm (u2kvmcopy pt kt 0 PGSIZE) Q P H m := by
  have hone : pagesBetween (PGROUNDUP 0) PGSIZE = 1 := by decide
  unfold u2kvmcopy
  rw [if_neg (by decide), hone]
  unfold loop
  rw [wpm_bind]
  unfold shadowPage
  rw [wpm_bind, wpm_walk_false (by decide), show (PGROUNDUP 0 + 0 * PGSIZE) / PGSIZE = 0 from rfl, h]
  exact hP _

/-- **`userinit`** makes the first process. -/
theorem userinit_spec (h : KInv K k (fun _ => none) (fun _ => 0) B noFiles Books.idle)
    (hfree : ∀ i, (k.proc i).locked = false) (hfs : ∀ ip, (k.fs.inode ip).ref = 0)
    (hP : INIT_PAGES ≤ k.mem.freelist.length ∨ ∀ m, P m) :
    wpm (Kernel.userinit K) (fun _ k' => FirstProc K B k') P H k := by
  have hvac : ∀ i : Fin NPROC, Vacant i (k.proc i) := fun i => (h.mem.slot i).1
  have ho₀ : Owns K k.mem (0 + (∑ i, (fun _ => 0 : Fin NPROC → Multiset Nat) i + (k.pipes.val + B))) :=
    h.mem.owns.congr (zero_add _).symm
  have hpages : INIT_PAGES = PROC_PAGES + 5 := rfl
  unfold Kernel.userinit
  refine wpm_seq (allocproc_spec ho₀.left (fun i _ => hvac i)
    (hP.imp (fun h => by omega) fun h => ⟨h _, h _⟩) (Or.inl hfree)) ?_
  rintro r k₁ (⟨-, -, hfull⟩ | ⟨j, -, ⟨rfl, hshort, -⟩ |
    ⟨rfl, ⟨m₁, tf, pt, us, kt, ks, T, KT, rfl, hm₁, ht₁, hk₁, hpid⟩, hc₁⟩⟩)
  · exact absurd (hvac ⟨0, by decide⟩).state (hfull _)
  · exact hP.resolve_left (by omega) _
  rw [Kernel.put_mem] at hc₁
  dsimp only
  rw [wpm_bind, wpm_modify]
  change wpm _ _ P H (({ k with nextpid := k.nextpid + 1, initproc := some j } : Kernel).put m₁ j _)
  generalize hk₀ : ({ k with nextpid := k.nextpid + 1, initproc := some j } : Kernel) = k₀
  have h₀ : KInv K k₀ (fun _ => none) (fun _ => 0) B noFiles Books.idle := by
    rw [← hk₀]
    exact h.frame rfl rfl rfl (fun _ => rfl) (fun _ => rfl) h.closed (h.mem.same rfl fun _ => .refl _)
  have hmem₀ : k₀.mem = k.mem := by rw [← hk₀]
  have hproc₀ : k₀.proc = k.proc := by rw [← hk₀]
  have hempty : (Space.empty K j tf us ks).pages T KT = T + (KT + ({tf} + {us} + {ks})) := by
    show {tf} + {us} + {ks} + T + KT + leafPages _ 0 (npages 0) = _
    rw [npages_zero, leafPages_self]
    abel
  rw [hempty] at hm₁
  have ho₁ : Owns K m₁ (T + (KT + ({tf} + {us} + {ks}))) := ho₀.left.moves hm₁
  rw [wpm_bind, Kernel.wpm_readProc_put, wpm_bind, Kernel.wpm_vm_put]
  refine wpm_mono (uvmfirst_spec ht₁ ho₁.left (fixedEntries_low (by decide)) (by decide)
    (hP.imp_left fun h => by omega)) ?_
  rintro _ m₂ (⟨p, T', hp, hm₂, ht₂, hc₂⟩ | ⟨hall, hmiss⟩)
  swap
  · rw [wpm_bind, Kernel.wpm_modifyProc_put, wpm_bind, Kernel.wpm_vm_put]
    exact u2kvmcopy_missing hmiss hall
  generalize he : update (fixedEntries K tf us) 0 (leafPte p INIT_PERM) = e at ht₂
  have hf : Fresh (fixedEntries K tf us) 0 1 (fun _ => INIT_PERM) e := by
    rw [← he]
    refine ⟨fun u hu => update_of_ne (by omega) .., fun u _ hu => ⟨p, hp, ?_⟩⟩
    obtain rfl : u = 0 := by omega
    exact update_self ..
  have hwf : (Space.first K j tf us ks e).WF K j := Space.first_wf hf
  have hpage : ∀ KT', (Space.first K j tf us ks e).pages T' KT' = {p} + T' + (KT' + ({tf} + {us} + {ks})) := by
    intro KT'
    have hleaf : leafPages e 0 (npages PGSIZE) = {p} := by
      rw [npages_one, leafPages_top e (Nat.zero_le 0), leafPages_self, ← he, update_self,
        PTE2PA_leafPte hp (by decide)]
      rfl
    show {tf} + {us} + {ks} + T' + KT' + leafPages e 0 (npages PGSIZE) = _
    rw [hleaf]
    abel
  have hm₁₂ := hm₁.trans (hm₂.add (KT + ({tf} + {us} + {ks})))
  have ho₂ := ho₀.left.moves hm₁₂
  have hus₂ : m₂.page us = m₁.page us := ho₁.page_eq hm₂ (by simp)
  have hk₂ := hk₁.congr fun y hy => ho₁.page_eq hm₂ (by simp [hy])
  rw [wpm_bind, Kernel.wpm_modifyProc_put, wpm_bind, Kernel.wpm_vm_put]
  have ho₂' : Owns K m₂ ((Space.first K j tf us ks e).pages T' KT) := ho₂.congr (hpage KT).symm
  refine wpm_mono (Rep.shadow_spec (a := Space.first K j tf us ks e) ht₂ hk₂ ho₂' (show 0 ≤ PGSIZE by decide)
    (by decide : PGSIZE ≤ MAXVA) hwf.map.low (hP.imp (fun h => ?_) fun h => h _)) ?_
  · show 2 * (npages PGSIZE - npages 0) ≤ m₂.freelist.length
    rw [npages_one, npages_zero]
    omega
  rintro _ m₃ ⟨KT', ht₃, hk₃, hm₃, hus₃⟩
  have hk₃ : PageTable m₃ kt KT' (shadowRange (stackEntries K j ks) e (npages 0) (npages PGSIZE)) := hk₃
  rw [npages_zero, npages_one] at hk₃
  generalize hq : ({ (k.proc j).born k.nextpid tf pt us kt ks with sz := PGSIZE } : Proc) = q
  have hrep₃ : Rep m₃ q (Space.first K j tf us ks e) T' KT' := by
    rw [← hq]
    exact ⟨ht₃, hk₃, rfl, rfl, rfl, rfl, (Mem.pidAt_congr (hus₃.trans hus₂)).trans hpid⟩
  have ho₃ := ho₂'.moves hm₃
  have hm₀₃ : Moves k.mem 0 m₃ ((Space.first K j tf us ks e).pages T' KT') :=
    (hm₁₂.congr rfl (hpage KT).symm).trans hm₃
  obtain ⟨hrep₄, hm₄⟩ := hrep₃.write_trapframe ho₃ (ByteStore.writeLE (m₃.page tf) TF_EPC 8 0)
  obtain ⟨hrep₅, hm₅⟩ := hrep₄.write_trapframe (ho₃.moves hm₄)
    (ByteStore.writeLE ((m₃.setField tf TF_EPC 8 0).page tf) TF_SP 8 PGSIZE)
  have hm₀₅ := (hm₀₃.trans hm₄).trans hm₅
  rw [wpm_bind, Kernel.wpm_vm_put, wpm_modify, wpm_bind, Kernel.wpm_vm_put, wpm_modify, wpm_bind,
    Kernel.wpm_modifyProc_put]
  have hslot : SlotOk K ((m₃.setField tf TF_EPC 8 0).setField tf TF_SP 8 PGSIZE) j
      { q with name := "initcode".toUTF8.toList } (some (Space.first K j tf us ks e))
      ((Space.first K j tf us ks e).pages T' KT') := by
    refine ⟨?_, hwf, T', KT', hrep₅.congr ⟨Iff.rfl, rfl, rfl, rfl, rfl, rfl, rfl, rfl⟩ (fun _ _ => rfl) (fun _ _ => rfl)
      rfl, rfl⟩
    rw [← hq]
    exact fun hc => nomatch hc
  have hstq : q.state = .USED := by rw [← hq]; rfl
  have hcl := h.closed j (Or.inl (hvac j).state)
  have h₅ := h₀.put (i := j) (p := { q with name := "initcode".toUTF8.toList }) (by rw [← hq, hproc₀]; rfl)
    (by rw [← hq, hproc₀]; rfl) (fun hc => by rw [hproc₀]; exact hcl) (by rw [hmem₀]; exact hm₀₅) hslot
  refine wpm_mono (rootCwd_spec h₅ ?_ ?_ ?_) ?_
  · rw [Kernel.put_proc_self]
    exact hstq
  · rw [Kernel.put_proc_self]
    show q.cwd = none
    rw [← hq]
    exact hcl.2
  · intro ip
    rw [Kernel.put_fs, ← hk₀]
    exact hfs ip
  · rintro _ k' ⟨hk', hrun⟩
    exact ⟨j, tf, us, ks, e, _, hf, hrun, hk'⟩

end first

/-! ## `boot` -/

/-- The kernel's data as the loader leaves it: all zero, but for `nextpid`.  The file system is idle, on a disk
with any contents. -/
structure PowerOn (k : Kernel) : Prop where
  freelist : k.mem.freelist = []
  proc : ∀ i, k.proc i = Proc.zero
  nextpid : k.nextpid = 1
  file : ∀ f, k.file f = File.zero
  fs : Fs.Inv k.fs Books.idle

theorem tally_eq_zero {α β : Type} [Fintype α] [DecidableEq β] {f : α → Option β} (h : ∀ a, f a = none) (b : β) :
    tally f b = 0 := by
  by_contra hc
  obtain ⟨a, ha⟩ := tally_pos.1 (Nat.pos_of_ne_zero hc)
  rw [h a] at ha
  cases ha

/-- Before the first process. -/
theorem PowerOn.inv {k₀ k : Kernel} {B : Multiset Nat} (h : PowerOn k₀) (hfile : k.file = k₀.file)
    (hfs : k.fs = k₀.fs) (hproc : k.proc = fun i => { k₀.proc i with state := .UNUSED, kstack := KSTACK i })
    (ho : Owns K k.mem B) (hall : ∀ x, Managed K x → x ∈ B + (↑k.mem.freelist : Multiset Nat)) :
    KInv K k (fun _ => none) (fun _ => 0) B noFiles Books.idle := by
  have hp : ∀ i, k.proc i = { Proc.zero with kstack := KSTACK i } := by
    intro i
    rw [hproc]
    dsimp only
    rw [h.proc i]
    rfl
  have hf : ∀ f, k.file f = File.zero := fun f => by rw [hfile, h.file f]
  have hpipes : k.pipes = ∅ := by
    refine Finset.eq_empty_of_forall_notMem fun pi hpi => ?_
    obtain ⟨f, hf', -⟩ := Kernel.mem_pipes.1 hpi
    rw [hf f] at hf'
    cases hf'
  have hslots : ∀ c, k.slots c = none := fun c => by
    unfold Kernel.slots
    rw [hp]
    rfl
  have hnames : ∀ ip, k.names ip = 0 := fun ip => by
    unfold Kernel.names
    rw [tally_eq_zero fun f => by unfold Kernel.inodes; rw [hf f]; rfl,
      tally_eq_zero fun i => by unfold Kernel.cwds; rw [hp i]; rfl]
  have hrest : ∑ i : Fin NPROC, (fun _ => (0 : Multiset Nat)) i + (k.pipes.val + B) = B := by
    rw [hpipes, Finset.empty_val, zero_add, Finset.sum_const_zero, zero_add]
  refine ⟨⟨fun i => ⟨?_, rfl⟩, by rw [hrest]; exact ho, fun x hx => by rw [hrest]; exact hall x hx⟩, ?_, ?_, fun i _ => ?_⟩
  · rw [hp i]
    exact ⟨rfl, rfl, rfl, rfl, rfl, rfl, Or.inr rfl⟩
  · refine ⟨fun f => ?_, fun f => ?_, fun f _ => ?_, fun f hc => ?_, fun f g hc => ?_, fun f hc => ?_⟩
    · rw [tally_eq_zero hslots, hf f]
      rfl
    · rw [hf f]
      exact Int.le_refl 0
    · rw [hf f]
      rfl
    all_goals
      rw [hf f] at hc
      cases hc
  · rw [hfs]
    have hidle : Books.idle.above k.names = Books.idle := by
      unfold Books.above Books.idle
      simp only [hnames, Nat.cast_zero, add_zero]
    rw [hidle]
    exact h.fs
  · rw [hp i]
    exact ⟨fun _ => rfl, rfl⟩

/-- Enough pages to boot. -/
def BOOT_PAGES : Nat := KVM_PAGES + 3 + INIT_PAGES

/-- **`boot`** leaves the first process, or panics for lack of pages. -/
theorem boot_spec {k : Kernel} (h : PowerOn k) (hP : BOOT_PAGES ≤ K.pages ∨ ∀ m, P m) :
    wpm (Kernel.boot K) (fun _ k' => ∃ B, FirstProc K B k') P H k := by
  have hpages : BOOT_PAGES = KVM_PAGES + 3 + INIT_PAGES := rfl
  unfold Kernel.boot
  rw [wpm_bind, Kernel.wpm_vm]
  refine wpm_mono (wpm_of_wp (kinit_spec h.freelist)) ?_
  intro _ m₁ hm₁
  have ho₁ : Owns K m₁ 0 := owns_freedPages hm₁
  have hlen₁ : m₁.freelist.length = K.pages := by rw [hm₁]; simp [freedPages]
  have hall₁ : ∀ x, Managed K x → x ∈ (0 : Multiset Nat) + ↑m₁.freelist := by
    intro x hx
    rw [zero_add, hm₁, Multiset.mem_coe, mem_freedPages]
    exact managed_iff.1 hx
  unfold Kernel.kvminit
  rw [wpm_bind, wpm_bind, Kernel.wpm_vm]
  refine wpm_mono (kvmmake_spec ho₁ (hP.imp_left fun h => ?_)) ?_
  · show KVM_PAGES ≤ m₁.freelist.length
    omega
  rintro pt m₂ ⟨X, hm₂, hc₂⟩
  have hc₂ : m₁.freelist.length ≤ m₂.freelist.length + KVM_PAGES := hc₂
  rw [wpm_modify, wpm_bind]
  unfold Kernel.procinit
  rw [wpm_modify, wpm_bind]
  refine wpm_mono (virtioDiskInit_spec (hP.imp_left fun h => ?_)) ?_
  · show 3 ≤ m₂.freelist.length
    omega
  rintro _ k₃ ⟨m₃, Y, d, rfl, hm₃, hc₃⟩
  have hm₃ : Moves m₂ 0 m₃ Y := hm₃
  have hc₃ : m₂.freelist.length ≤ m₃.freelist.length + 3 := hc₃
  have hm₀₃ : Moves m₁ 0 m₃ (Y + X) := hm₂.trans ((hm₃.add X).congr (zero_add X) rfl)
  have hinv : KInv K _ (fun _ => none) (fun _ => 0) (Y + X) noFiles Books.idle :=
    h.inv (k := { k with mem := m₃, kernelPagetable := pt, disk := d, proc := fun i =>
      { k.proc i with state := .UNUSED, kstack := KSTACK i } }) rfl rfl rfl (ho₁.moves hm₀₃)
      fun x hx => by rw [hm₀₃.conserve]; exact hall₁ x hx
  refine wpm_mono (userinit_spec hinv (fun i => ?_) (fun ip => h.fs.ref ip) (hP.imp_left fun h => ?_)) ?_
  · show (k.proc i).locked = false
    rw [h.proc i]
    rfl
  · show INIT_PAGES ≤ m₃.freelist.length
    omega
  · intro _ k' hk'
    exact ⟨_, hk'⟩

/-- With enough pages the kernel boots. -/
theorem boots {k : Kernel} (h : PowerOn k) (hpages : BOOT_PAGES ≤ K.pages) :
    Kernel.boot K k = .ok () (Kernel.boot K k).state ∧ ∃ B, FirstProc K B (Kernel.boot K k).state := by
  obtain ⟨_, k', hk, hfirst⟩ := wpm_total (boot_spec h (Or.inl hpages))
  rw [hk]
  exact ⟨rfl, hfirst⟩

end Xv6
