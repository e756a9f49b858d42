import Xv6.Proc.Tables

/-!
# The kernel page table of a process

* `kernelEntries` — what `proc_kpagetable_init` maps.
* `Building` — the state between two calls of `kvmmap`.
* `procKpagetableInit_spec` — the table is complete, or there was no page for its root; a `kvmmap`
  that runs out of pages panics, which does not happen with `KPT_PAGES` free ones.
-/

namespace Xv6

open Prog

/-- A valid entry can be read, so it is no pointer to a table. -/
def ReadableLeaf (w : Nat) : Prop := hasFlag w PTE_V = true → hasFlag w PTE_R = true

/-- One of the device ranges that `proc_kpagetable_init` maps. -/
def IsDevice (v : Nat) : Prop :=
  v = UART0 / PGSIZE ∨ v = VIRTIO0 / PGSIZE ∨
    (CLINT / PGSIZE ≤ v ∧ v < CLINT / PGSIZE + 0x10000 / PGSIZE) ∨
    (PLIC / PGSIZE ≤ v ∧ v < PLIC / PGSIZE + 0x400000 / PGSIZE)

/-- The entries after one `kvmmap`. -/
def mapped (e : Nat → Nat) (va pa size perm : Nat) : Nat → Nat :=
  mapRange e (va / PGSIZE) (size / PGSIZE) pa perm

def deviceEntries : Nat → Nat :=
  mapped (mapped (mapped (mapped (fun _ => 0) UART0 UART0 PGSIZE (PTE_R ||| PTE_W))
    VIRTIO0 VIRTIO0 PGSIZE (PTE_R ||| PTE_W)) CLINT CLINT 0x10000 (PTE_R ||| PTE_W))
    PLIC PLIC 0x400000 (PTE_R ||| PTE_W)

def kernelEntries (K : KernelImage) : Nat → Nat :=
  mapped (mapped (mapped deviceEntries KERNBASE KERNBASE (K.etext - KERNBASE) (PTE_R ||| PTE_X))
    K.etext K.etext (PHYSTOP - K.etext) (PTE_R ||| PTE_W)) TRAMPOLINE K.trampoline PGSIZE (PTE_R ||| PTE_X)

section entries

variable {e : Nat → Nat} {va pa size perm v : Nat}

theorem mapped_of_out (h : v < va / PGSIZE ∨ va / PGSIZE + size / PGSIZE ≤ v) :
    mapped e va pa size perm v = e v := if_neg (by omega)

theorem readableLeaf_leafPte (hR : hasFlag perm PTE_R = true) : ReadableLeaf (leafPte pa perm) := by
  intro _
  rw [leafPte, hasFlag_or, hasFlag_or, hR, Bool.or_true, Bool.true_or]

theorem mapped_readableLeaf (he : ∀ u, ReadableLeaf (e u)) (hR : hasFlag perm PTE_R = true) (u : Nat) :
    ReadableLeaf (mapped e va pa size perm u) := by
  unfold mapped mapRange
  split
  · exact readableLeaf_leafPte hR
  · exact he u

theorem ReadableLeaf.not_pointer {w : Nat} (h : ReadableLeaf w) (hV : hasFlag w PTE_V = true) : ¬ IsPointer w := by
  intro hp
  have hR := h hV
  have hsub : hasFlag w (PTE_R ||| PTE_W ||| PTE_X) = true := by
    simp only [hasFlag, bne_iff_ne] at hR ⊢
    intro hz
    apply hR
    rw [Nat.and_or_distrib_left, Nat.and_or_distrib_left, Nat.or_eq_zero_iff, Nat.or_eq_zero_iff] at hz
    exact hz.1.1
  rw [IsPointer, hsub] at hp
  cases hp

end entries

theorem readableLeaf_zero : ReadableLeaf 0 := by
  intro h
  exact absurd h (by decide)

theorem kernelEntries_readableLeaf (K : KernelImage) (u : Nat) : ReadableLeaf (kernelEntries K u) := by
  unfold kernelEntries deviceEntries
  iterate 7
    refine mapped_readableLeaf (fun u => ?_) (by decide) _
  exact readableLeaf_zero

/-- Below `USER_TOP` only the devices are mapped. -/
theorem kernelEntries_low (K : KernelImage) {v : Nat} (hv : v < USER_TOP / PGSIZE) (hd : ¬ IsDevice v) :
    kernelEntries K v = 0 := by
  have hbase : USER_TOP / PGSIZE = KERNBASE / PGSIZE := by decide
  have htext : KERNBASE / PGSIZE ≤ K.etext / PGSIZE := Nat.div_le_div_right (Nat.le_of_lt K.kernbase_lt)
  have htramp : KERNBASE / PGSIZE ≤ TRAMPOLINE / PGSIZE := by decide
  have hone : PGSIZE / PGSIZE = 1 := by decide
  unfold IsDevice at hd
  rw [kernelEntries, mapped_of_out (by omega), mapped_of_out (by omega), mapped_of_out (by omega),
    deviceEntries, mapped_of_out (by omega), mapped_of_out (by omega), mapped_of_out (by omega),
    mapped_of_out (by omega)]

/-! ## `proc_kpagetable_init` -/

section init

variable {K : KernelImage} {s₀ s : Mem} {t b va pa size perm : Nat} {e : Nat → Nat} {P : String → Prop} {H : Prop}

/-- The table under construction since `s₀`; its pages are at most `b`. -/
def Building (s₀ s : Mem) (t : Nat) (e : Nat → Nat) (b : Nat) : Prop :=
  ∃ T, Moves s₀ 0 s T ∧ PageTable s t T e ∧ s₀.freelist.length ≤ s.freelist.length + b

/-- A bound for the tables that a range of pages needs. -/
def rangeNeed (va size : Nat) : Nat :=
  2 * ((va / PGSIZE + size / PGSIZE - 1) / 512 - va / PGSIZE / 512) + 2

theorem tableNeed_le_rangeNeed : tableNeed s t (va / PGSIZE) (size / PGSIZE) ≤ rangeNeed va size := by
  unfold tableNeed rangeNeed
  split
  · omega
  · split <;> omega

/-- **One `kvmmap`** more. -/
theorem Building.next (hb : Building s₀ s t e b) (ho : Owns K s₀ 0) (hperm : perm < 2 ^ 10)
    (hva : va % PGSIZE = 0) (hsize : size % PGSIZE = 0) (hpos : 0 < size)
    (hend : pa + size ≤ 2 ^ 64) (hmax : va + size ≤ MAXVA)
    (hzero : ∀ u, va / PGSIZE ≤ u → u < va / PGSIZE + size / PGSIZE → e u = 0)
    (hP : b + rangeNeed va size ≤ s₀.freelist.length ∨ P "kvmmap") :
    wpm (kvmmap t va pa size perm) (fun _ s' =>
      Building s₀ s' t (mapped e va pa size perm) (b + rangeNeed va size)) P H s := by
  obtain ⟨T, hm, h, hc⟩ := hb
  have hneed : tableNeed s t (va / PGSIZE) (size / PGSIZE) ≤ rangeNeed va size := tableNeed_le_rangeNeed
  refine wpm_mono (kvmmap_spec hperm h (ho.moves hm) hva hsize hpos hend hmax ?_ ?_) ?_
  · intro u hu hu'
    rw [hzero u hu hu']
    decide
  · exact hP.imp_left fun henough => by omega
  · rintro - s' ⟨T', hm', h', hc'⟩
    exact ⟨T', hm.trans hm', h', by omega⟩

/-- Enough pages for the root and the tables below it. -/
def KPT_PAGES : Nat := 269

theorem rangeNeed_ram {a b : Nat} (ha : KERNBASE ≤ a) (hab : a < b) (hb : b ≤ PHYSTOP)
    (hal : a % PGSIZE = 0) (hbl : b % PGSIZE = 0) : rangeNeed a (b - a) ≤ 128 := by
  rw [PHYSTOP_eq] at hb
  simp only [KERNBASE, PGSIZE] at ha hal hbl
  simp only [rangeNeed, PGSIZE]
  omega

theorem KernelImage.etext_le_phystop (K : KernelImage) : K.etext < PHYSTOP :=
  Nat.lt_of_le_of_lt K.etext_le K.end_lt

/-- The ranges do not meet: what is mapped next is still empty. -/
theorem deviceEntries_ram {v : Nat} (hv : KERNBASE / PGSIZE ≤ v) : deviceEntries v = 0 := by
  have h1 : UART0 / PGSIZE + PGSIZE / PGSIZE ≤ KERNBASE / PGSIZE := by decide
  have h2 : VIRTIO0 / PGSIZE + PGSIZE / PGSIZE ≤ KERNBASE / PGSIZE := by decide
  have h3 : CLINT / PGSIZE + 0x10000 / PGSIZE ≤ KERNBASE / PGSIZE := by decide
  have h4 : PLIC / PGSIZE + 0x400000 / PGSIZE ≤ KERNBASE / PGSIZE := by decide
  rw [deviceEntries, mapped_of_out (by omega), mapped_of_out (by omega), mapped_of_out (by omega),
    mapped_of_out (by omega)]

section fresh

variable {u pa perm : Nat} {f : Nat → Nat}

theorem mapped_below (h : u < va / PGSIZE) : mapped f va pa size perm u = f u := mapped_of_out (Or.inl h)

theorem mapped_above {w : Nat} (hw : va / PGSIZE + size / PGSIZE ≤ w) (h : w ≤ u) :
    mapped f va pa size perm u = f u := mapped_of_out (Or.inr (Nat.le_trans hw h))

end fresh

/-- The pages of kernel text and data: sizes, ends and the tables they need. -/
structure RamRange (a b : Nat) : Prop where
  size : (b - a) % PGSIZE = 0
  pos : 0 < b - a
  top : a / PGSIZE + (b - a) / PGSIZE = b / PGSIZE
  stop : a + (b - a) ≤ PHYSTOP
  need : rangeNeed a (b - a) ≤ 128

theorem ramRange {a b : Nat} (ha : KERNBASE ≤ a) (hab : a < b) (hb : b ≤ PHYSTOP)
    (hal : a % PGSIZE = 0) (hbl : b % PGSIZE = 0) : RamRange a b where
  size := by
    simp only [PGSIZE] at hal hbl ⊢
    omega
  pos := by omega
  top := by
    simp only [PGSIZE] at hal hbl ⊢
    omega
  stop := by omega
  need := rangeNeed_ram ha hab hb hal hbl

theorem KernelImage.text_range (K : KernelImage) : RamRange KERNBASE K.etext :=
  ramRange (Nat.le_refl _) K.kernbase_lt (Nat.le_of_lt K.etext_le_phystop) (by decide) K.etext_aligned

theorem KernelImage.data_range (K : KernelImage) : RamRange K.etext PHYSTOP :=
  ramRange (Nat.le_of_lt K.kernbase_lt) K.etext_le_phystop (Nat.le_refl _) K.etext_aligned (by decide)

theorem phystop_le : PHYSTOP ≤ 2 ^ 64 ∧ PHYSTOP ≤ MAXVA := by decide

theorem Building.mono {b' : Nat} (hb : Building s₀ s t e b) (h : b ≤ b') : Building s₀ s t e b' := by
  obtain ⟨T, hm, hT, hc⟩ := hb
  exact ⟨T, hm, hT, Nat.le_trans hc (Nat.add_le_add_left h _)⟩

/-- A range of RAM, mapped to itself. -/
theorem Building.ram (x y : Nat) (hb : Building s₀ s t e b) (ho : Owns K s₀ 0) (hperm : perm < 2 ^ 10)
    (hx : x % PGSIZE = 0) (hr : RamRange x y)
    (hzero : ∀ u, x / PGSIZE ≤ u → u < x / PGSIZE + (y - x) / PGSIZE → e u = 0)
    (hP : b + 128 ≤ s₀.freelist.length ∨ P "kvmmap") :
    wpm (kvmmap t x x (y - x) perm)
      (fun _ s' => Building s₀ s' t (mapped e x x (y - x) perm) (b + 128)) P H s := by
  refine wpm_mono (hb.next ho hperm hx hr.size hr.pos (Nat.le_trans hr.stop phystop_le.1)
    (Nat.le_trans hr.stop phystop_le.2) hzero ?_) ?_
  · exact hP.imp_left fun hlen => Nat.le_trans (Nat.add_le_add_left hr.need b) hlen
  · intro _ s' hb'
    exact hb'.mono (Nat.add_le_add_left hr.need b)

/-- After the four device ranges. -/
theorem Building.devices (hb : Building s₀ s t (mapped (mapped (mapped (mapped (fun _ => 0)
    UART0 UART0 PGSIZE (PTE_R ||| PTE_W)) VIRTIO0 VIRTIO0 PGSIZE (PTE_R ||| PTE_W))
    CLINT CLINT 0x10000 (PTE_R ||| PTE_W)) PLIC PLIC 0x400000 (PTE_R ||| PTE_W))
    (1 + rangeNeed UART0 PGSIZE + rangeNeed VIRTIO0 PGSIZE + rangeNeed CLINT 0x10000 +
      rangeNeed PLIC 0x400000)) : Building s₀ s t deviceEntries 11 := by
  have hneed : 1 + rangeNeed UART0 PGSIZE + rangeNeed VIRTIO0 PGSIZE + rangeNeed CLINT 0x10000 +
      rangeNeed PLIC 0x400000 = 11 := by decide
  rwa [hneed] at hb

/-- **`proc_kpagetable_init`** makes the table, finds no page for its root, or panics in `kvmmap`. -/
theorem procKpagetableInit_spec (ho : Owns K s 0) (hP : KPT_PAGES ≤ s.freelist.length ∨ P "kvmmap") :
    wpm (procKpagetableInit K) (fun r s' => (r = none ∧ s.freelist = [] ∧ s' = s) ∨
      ∃ t, r = some t ∧ Building s s' t (kernelEntries K) KPT_PAGES) P H s := by
  have halign := K.etext_aligned
  have hbase : KERNBASE / PGSIZE ≤ K.etext / PGSIZE := Nat.div_le_div_right (Nat.le_of_lt K.kernbase_lt)
  have text := K.text_range
  have data := K.data_range
  have hneed : ∀ {c : Nat}, c ≤ KPT_PAGES → c ≤ s.freelist.length ∨ P "kvmmap" :=
    fun hc => hP.imp_left (Nat.le_trans hc)
  unfold procKpagetableInit
  refine wpm_seq (wpm_of_wp uvmcreate_spec) ?_
  rintro r s1 (⟨rfl, hnil, rfl⟩ | ⟨t, rs, rfl, hs, hs1, hm1, h1⟩)
  · exact Or.inl ⟨rfl, hnil, rfl⟩
  have hb1 : Building s s1 t (fun _ => 0) 1 := ⟨{t}, hm1, h1, by rw [hs, hs1]; exact Nat.le_refl _⟩
  refine wpm_seq (hb1.next ho (by decide) (by decide) (by decide) (by decide) (by decide)
    (by decide) (fun _ _ _ => rfl) (hneed (by decide))) ?_
  intro _ s2 hb2
  refine wpm_seq (hb2.next ho (by decide) (by decide) (by decide) (by decide) (by decide)
    (by decide) (fun u hu _ => mapped_above (by decide) hu) (hneed (by decide))) ?_
  intro _ s3 hb3
  refine wpm_seq (hb3.next ho (by decide) (by decide) (by decide) (by decide) (by decide)
    (by decide) (fun u _ hu => ?_) (hneed (by decide))) ?_
  · exact (mapped_below (Nat.lt_of_lt_of_le hu (by decide))).trans
      (mapped_below (Nat.lt_of_lt_of_le hu (by decide)))
  intro _ s4 hb4
  refine wpm_seq (hb4.next ho (by decide) (by decide) (by decide) (by decide) (by decide)
    (by decide) (fun u hu hu' => ?_) (hneed (by decide))) ?_
  · exact (mapped_above (by decide) hu).trans ((mapped_below (Nat.lt_of_lt_of_le hu' (by decide))).trans
      (mapped_below (Nat.lt_of_lt_of_le hu' (by decide))))
  intro _ s5 hb5
  have hb5' : Building s s5 t deviceEntries 11 := hb5.devices
  refine wpm_seq (Building.ram KERNBASE K.etext hb5' ho (by decide) (by decide) text
    (fun u hu _ => deviceEntries_ram hu) (hneed (by decide))) ?_
  intro _ s6 hb6
  refine wpm_seq (Building.ram K.etext PHYSTOP hb6 ho (by decide) halign data (fun u hu _ => ?_)
    (hneed (by decide))) ?_
  · exact (mapped_above (Nat.le_of_eq text.top) hu).trans (deviceEntries_ram (Nat.le_trans hbase hu))
  intro _ s7 hb7
  refine wpm_seq (hb7.next ho (by decide) (by decide) (by decide) (by decide)
    (Nat.le_trans ?_ phystop_le.1) (by decide) (fun u hu _ => ?_) (hneed (by decide))) ?_
  · exact K.trampoline_eq ▸ Nat.le_of_lt K.etext_le_phystop
  · have hram : KERNBASE / PGSIZE ≤ u := Nat.le_trans (by decide) hu
    have htop : PHYSTOP / PGSIZE ≤ u := Nat.le_trans (by decide) hu
    have hmid : K.etext / PGSIZE ≤ u :=
      Nat.le_trans (Nat.div_le_div_right (Nat.le_of_lt K.etext_le_phystop)) htop
    exact (mapped_above (Nat.le_of_eq data.top) htop).trans
      ((mapped_above (Nat.le_of_eq text.top) hmid).trans (deviceEntries_ram hram))
  rintro - s8 ⟨T, hm, hT, hc⟩
  exact Or.inr ⟨t, rfl, T, hm, hT, hc⟩

end init

end Xv6
