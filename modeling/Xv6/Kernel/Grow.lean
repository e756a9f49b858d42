import Xv6.Kernel.Life
import Xv6.Vm.Exact

/-!
# `growproc`, exactly

* `Kernel.Grew`, `Kernel.Unchanged` — what `growproc` promises when it returns `0` and when it returns `-1`.
* `Kernel.GrowsExactly` — it does one of the two, or panics because there is no page for a page table.
* `growsExactly_iff` — it does so for an amount that the process has to give back; for a larger negative
  amount the sum wraps, `uvmdealloc` takes it for a growth, and `growproc` returns `0` with the old size.
-/

namespace Xv6

open Prog

variable {K : KernelImage} {k k' : Kernel} {i : Fin NPROC} {a : Space} {T T' KT : Multiset Nat}

/-! ## `uvmalloc` keeps the books -/

theorem Grown.moves {s s' : Mem} {t c d perm : Nat} {e e' : Nat → Nat} (g : Grown K s t T e c d perm s' T' e') :
    Moves s T s' (leafPages e' c d + T') := by
  refine ⟨?_, fun x hx => g.frame x (fun h => hx ?_) fun h => hx ?_⟩
  · rw [g.free]
    nth_rewrite 1 [← tsub_add_cancel_of_le g.linked]
    ac_rfl
  · exact Multiset.mem_add.2 (Or.inl h)
  · exact Multiset.mem_add.2 (Or.inr h)

theorem Refused.moves {s s' : Mem} {t : Nat} {e : Nat → Nat} (r : Refused s t T e s' T') : Moves s T s' T' := by
  refine ⟨?_, fun x hx => r.frame x (fun h => hx ?_) fun h => hx ?_⟩
  · rw [r.free]
    nth_rewrite 1 [← tsub_add_cancel_of_le r.linked]
    ac_rfl
  · exact Multiset.mem_add.2 (Or.inl h)
  · exact Multiset.mem_add.2 (Or.inr h)

/-- Pages that are listed once are mapped once. -/
theorem leafPages_inj {e : Nat → Nat} {c d v w : Nat} (h : (leafPages e c d).Nodup) (hv : c ≤ v ∧ v < d)
    (hw : c ≤ w ∧ w < d) (heq : PTE2PA (e v) = PTE2PA (e w)) : v = w := by
  have hmap : leafPages e c d = (Finset.Ico c d).val.map fun u => PTE2PA (e u) := by
    have hsum := Multiset.sum_map_singleton ((Finset.Ico c d).val.map fun u => PTE2PA (e u))
    rw [Multiset.map_map] at hsum
    exact hsum
  rw [hmap] at h
  exact Multiset.inj_on_of_nodup_map h v (Finset.mem_Ico.2 hv) w (Finset.mem_Ico.2 hw) heq

namespace Kernel

/-- The entry for page `v` in the user page table of process `i`. -/
def userEntry (k : Kernel) (i : Fin NPROC) (v : Nat) : Nat := k.mem.entry (k.proc i).pagetable v

/-- The byte at the user address `va` of process `i`. -/
def userByte (k : Kernel) (i : Fin NPROC) (va : Nat) : UInt8 := k.mem.userByte (k.userEntry i) va

/-- Page `v` of process `i` is mapped in `k'` but was not in `k`. -/
def NewlyMapped (k k' : Kernel) (i : Fin NPROC) (v : Nat) : Prop :=
  v < vpns ∧ hasFlag (k.userEntry i v) PTE_V = false ∧ hasFlag (k'.userEntry i v) PTE_V = true

/-- `growproc(n)` has returned `0`. -/
structure Grew (k : Kernel) (i : Fin NPROC) (n : Int) (k' : Kernel) : Prop where
  size : ((k'.proc i).sz : Int) = (k.proc i).sz + n
  bytes : ∀ va, va < min (k.proc i).sz (k'.proc i).sz → k'.userByte i va = k.userByte i va
  /-- A page in use is not on the free list. -/
  fresh : ∀ v, NewlyMapped k k' i v → PTE2PA (k'.userEntry i v) ∈ k.mem.freelist ∧
    k'.mem.page (PTE2PA (k'.userEntry i v)) = fun _ => 0
  distinct : ∀ v w, NewlyMapped k k' i v → NewlyMapped k k' i w →
    PTE2PA (k'.userEntry i v) = PTE2PA (k'.userEntry i w) → v = w

/-- `growproc(n)` has returned `-1`. -/
structure Unchanged (k : Kernel) (i : Fin NPROC) (k' : Kernel) : Prop where
  size : (k'.proc i).sz = (k.proc i).sz
  entries : ∀ v, v < vpns → k'.userEntry i v = k.userEntry i v
  bytes : ∀ va, va < (k.proc i).sz → k'.userByte i va = k.userByte i va
  /-- What is no longer free has become part of the page table. -/
  free : (↑k.mem.freelist : Multiset Nat) =
    (k'.mem.tables 2 (k'.proc i).pagetable - k.mem.tables 2 (k.proc i).pagetable) + ↑k'.mem.freelist

/-- The only other outcome is a panic for lack of a page for the kernel page table. -/
def GrowsExactly (K : KernelImage) (k : Kernel) (i : Fin NPROC) (n : Int) : Prop :=
  wpm (growproc K i n) (fun r k' => r = 0 ∧ Grew k i n k' ∨ r = -1 ∧ Unchanged k i k')
    (· = "u2kvmcopy: pte walk failed") False k

/-! ## In terms of the address space -/

theorem userEntry_eq (h : PageTable k.mem (k.proc i).pagetable T a.user) {v : Nat} (hv : v < vpns) :
    k.userEntry i v = a.user v := h.entry v hv

/-- A byte of user memory depends on the entry and the page it lies in. -/
theorem userByte_congr {va : Nat} (he : k'.userEntry i (va / PGSIZE) = k.userEntry i (va / PGSIZE))
    (hp : k'.mem.page (PTE2PA (k.userEntry i (va / PGSIZE))) = k.mem.page (PTE2PA (k.userEntry i (va / PGSIZE)))) :
    k'.userByte i va = k.userByte i va := by
  unfold userByte Mem.userByte
  rw [he, hp]

end Kernel

open Kernel

theorem div_lt_npages {va sz : Nat} (h : va < sz) (hmax : sz ≤ MAXVA) : va / PGSIZE < npages sz := by
  rw [npages_eq hmax]
  simp only [PGSIZE]
  omega

theorem npages_le_vpns {sz : Nat} (h : sz ≤ MAXVA) : npages sz ≤ vpns := by
  have hv : MAXVA ≤ vpns * PGSIZE := by decide
  rw [npages_eq h]
  simp only [PGSIZE] at *
  omega

theorem Rep.userTable {s : Mem} {p : Proc} (hrep : Rep s p a T KT) (hwf : a.WF K i) (ho : Owns K s (a.pages T KT)) :
    UserTable K s p.pagetable T a.user (npages a.sz) where
  table := hrep.user
  owns := by
    rw [Space.pages_user] at ho
    exact (ho.congr (add_assoc _ _ _).symm).left
  leaf u hu := hwf.map.isLeaf hu
  unmapped u hu hlt := hwf.user_eq_zero hu ((Nat.lt_div_iff_mul_lt (by decide)).2 (by
    have hal : USYSCALL % PGSIZE = 0 := by decide
    simp only [PGSIZE] at *
    omega))

/-- The bytes below the size, when their entries and pages are the same. -/
theorem userByte_below {s' : Mem} {q : Proc} {e' : Nat → Nat} {sz : Nat}
    (hu : PageTable k.mem (k.proc i).pagetable T a.user) (hu' : PageTable s' q.pagetable T' e')
    (hmax : sz ≤ MAXVA) (he : ∀ v, v < npages sz → e' v = a.user v)
    (hp : ∀ v, v < npages sz → s'.page (PTE2PA (a.user v)) = k.mem.page (PTE2PA (a.user v))) :
    ∀ va, va < sz → (k.put s' i q).userByte i va = k.userByte i va := by
  intro va hva
  have hlt := div_lt_npages hva hmax
  have hv : va / PGSIZE < vpns := Nat.lt_of_lt_of_le hlt (npages_le_vpns hmax)
  have hnew : (k.put s' i q).userEntry i (va / PGSIZE) = a.user (va / PGSIZE) := by
    unfold userEntry
    rw [put_proc_self, put_mem, hu'.entry _ hv, he _ hlt]
  have hold := userEntry_eq hu hv
  refine userByte_congr (hnew.trans hold.symm) ?_
  rw [hold]
  exact hp _ hlt

section spec

variable {n : Int} {A : Fin NPROC → Option Space} {pg : Fin NPROC → Multiset Nat} {R : Multiset Nat}

/-- The pages that `uvmalloc` has added are the ones newly mapped. -/
theorem Grew.of_grown {s : Mem} {r : Nat} {e' : Nat → Nat} (hrep : Rep k.mem (k.proc i) a T KT)
    (hsz : a.sz ≤ MAXVA) (hr : (r : Int) = a.sz + n) {m₁ : Mem}
    (g : Grown K k.mem (k.proc i).pagetable T a.user (npages a.sz) (npages r) (PTE_R ||| PTE_U ||| PTE_W) m₁ T' e')
    (ht : PageTable s (k.proc i).pagetable T' e')
    (hold : ∀ v, v < npages a.sz → s.page (PTE2PA (a.user v)) = k.mem.page (PTE2PA (a.user v)))
    (hnew : ∀ y ∈ leafPages e' (npages a.sz) (npages r), s.page y = m₁.page y)
    (hnd : (leafPages e' (npages a.sz) (npages r)).Nodup) :
    Grew k i n (k.put s i { k.proc i with sz := r }) := by
  have hentry : ∀ v, v < vpns → (k.put s i { k.proc i with sz := r }).userEntry i v = e' v := by
    intro v hv
    unfold userEntry
    rw [put_proc_self, put_mem]
    exact ht.entry v hv
  have hmapped : ∀ v, NewlyMapped k (k.put s i { k.proc i with sz := r }) i v →
      npages a.sz ≤ v ∧ v < npages r := by
    rintro v ⟨hv, hoff, hon⟩
    rw [hentry v hv] at hon
    rw [userEntry_eq hrep.user hv] at hoff
    by_contra hc
    rw [g.added.out v hc, hoff] at hon
    cases hon
  refine ⟨?_, fun va hva => ?_, fun v hv => ?_, fun v w hv hw heq => ?_⟩
  · rw [put_proc_self, hrep.sz]
    exact hr
  · refine userByte_below (q := { k.proc i with sz := r }) hrep.user ht hsz
      (fun v hv => g.added.out v (by omega)) hold va ?_
    rw [hrep.sz] at hva
    exact Nat.lt_of_lt_of_le hva (Nat.min_le_left _ _)
  · obtain ⟨h1, h2⟩ := hmapped v hv
    have hmem : PTE2PA (e' v) ∈ leafPages e' (npages a.sz) (npages r) := mem_leafPages.2 ⟨v, h1, h2, rfl⟩
    rw [hentry v hv.1, put_mem, hnew _ hmem, g.zero v h1 h2]
    refine ⟨?_, rfl⟩
    rw [← Multiset.mem_coe, g.free]
    exact Multiset.mem_add.2 (Or.inl (Multiset.mem_add.2 (Or.inl hmem)))
  · rw [hentry v hv.1, hentry w hw.1] at heq
    exact leafPages_inj hnd (hmapped v hv) (hmapped w hw) heq

/-- A positive amount: the sum does not wrap, and `uvmalloc` does it all or nothing. -/
theorem growsExactly_pos (h : MemInv K k A pg R) (ha : A i = some a) (hn : 0 < n) (hn' : n < 2 ^ 31) :
    GrowsExactly K k i n := by
  obtain ⟨-, hwf, T, KT, hrep, hpg⟩ := h.space ha
  have ho : Owns K k.mem (a.pages T KT) := hpg ▸ (h.owns_slot i).left
  have hut := hrep.userTable hwf ho
  have hsz : a.sz ≤ MAXVA := Nat.le_trans hwf.size (by decide)
  have hsum : (addSize (k.proc i).sz n : Int) = a.sz + n := by
    unfold addSize
    rw [hrep.sz]
    simp only [MAXVA] at hsz
    omega
  have hle : a.sz ≤ addSize (k.proc i).sz n := by omega
  unfold GrowsExactly growproc
  rw [wpm_bind, wpm_readProc, if_pos hn]
  generalize addSize (k.proc i).sz n = newsz at hsum hle ⊢
  split
  · refine Or.inr ⟨rfl, rfl, fun _ _ => rfl, fun _ _ => rfl, ?_⟩
    rw [tsub_self, zero_add]
  · rw [wpm_bind, wpm_vm_slot i, hrep.sz]
    refine wpm_mono (wpm_of_wp (uvmalloc_grown hut (show PTE_W < 2 ^ 10 by decide) hle)) ?_
    rintro r m₁ ⟨T', ⟨rfl, hmax, e', g⟩ | ⟨rfl, hr⟩⟩
    · have hpages := Space.pages_table a T KT
      rw [hpages] at ho
      have hm₁ := g.moves
      have ho₁ : Owns K m₁ (KT + (leafPages e' (npages a.sz) (npages r) + T' +
          (leafPages a.user 0 (npages a.sz) + ({a.trapframe} + {a.usyscall} + {a.kstack})))) := by
        refine (ho.moves (hm₁.add _)).congr ?_
        abel
      have hk₁ : PageTable m₁ (k.proc i).kpagetable KT a.kern :=
        hrep.kern.congr fun y hy => ho.page_eq hm₁ (Multiset.mem_add.2 (Or.inl hy))
      have hne : ∀ u, npages a.sz ≤ u → u < npages r → e' u ≠ 0 := by
        intro u _ hu hz
        have hV := (g.user.leaf u hu).1
        rw [hz] at hV
        cases hV
      have hoT : Owns K m₁ (KT + T') := by
        refine (Owns.left (G := leafPages e' (npages a.sz) (npages r) +
          (leafPages a.user 0 (npages a.sz) + ({a.trapframe} + {a.usyscall} + {a.kstack}))) (ho₁.congr ?_))
        abel
      rw [if_neg (by omega), wpm_bind, wpm_vm_put]
      refine wpm_mono (u2kvmcopy_spec hk₁ g.user.table hoT hle hmax hne (Or.inr rfl)) ?_
      rintro _ m₂ ⟨KT', hm₂, -, -⟩
      rw [wpm_bind, wpm_modifyProc_put]
      -- `u2kvmcopy` touches neither the user page table nor user memory
      have hkeep : ∀ y ∈ leafPages e' (npages a.sz) (npages r) + T' +
          (leafPages a.user 0 (npages a.sz) + ({a.trapframe} + {a.usyscall} + {a.kstack})),
          m₂.page y = m₁.page y := fun y hy => ho₁.page_eq hm₂ hy
      have ht₂ : PageTable m₂ (k.proc i).pagetable T' e' := g.user.table.congr fun y hy =>
        hkeep y (Multiset.mem_add.2 (Or.inl (Multiset.mem_add.2 (Or.inr hy))))
      refine Or.inl ⟨rfl, Grew.of_grown hrep hsz hsum g ht₂ (fun v hv => ?_) (fun y hy => ?_) ?_⟩
      · have hmem : PTE2PA (a.user v) ∈ leafPages a.user 0 (npages a.sz) :=
          mem_leafPages.2 ⟨v, Nat.zero_le _, hv, rfl⟩
        rw [hkeep _ (Multiset.mem_add.2 (Or.inr (Multiset.mem_add.2 (Or.inl hmem))))]
        exact ho.page_eq hm₁ (Multiset.mem_add.2 (Or.inr (Multiset.mem_add.2 (Or.inl hmem))))
      · exact hkeep y (Multiset.mem_add.2 (Or.inl (Multiset.mem_add.2 (Or.inl hy))))
      · exact (Multiset.nodup_add.1 ho₁.right.left.left.nodup).1
    · rw [if_pos rfl]
      have hnot : ∀ v, v < npages a.sz → m₁.page (PTE2PA (a.user v)) = k.mem.page (PTE2PA (a.user v)) := by
        intro v hv
        have hmem := ho.congr (Space.pages_table a T KT) |>.frame (Multiset.mem_add.2 (Or.inr
          (Multiset.mem_add.2 (Or.inl (mem_leafPages.2 ⟨v, Nat.zero_le _, hv, rfl⟩)))))
        exact hr.frame _ (fun h => hmem (Multiset.mem_add.2 (Or.inl h)))
          fun h => hmem (Multiset.mem_add.2 (Or.inr h))
      refine Or.inr ⟨rfl, ?_, fun v hv => ?_, ?_, ?_⟩
      · rw [put_proc_self]
      · unfold userEntry
        rw [put_proc_self, put_mem, hr.table.entry v hv, hrep.user.entry v hv]
      · rw [hrep.sz]
        exact userByte_below hrep.user hr.table hsz (fun _ _ => rfl) hnot
      · rw [put_proc_self, put_mem, hr.table.tables, hrep.user.tables]
        exact hr.free

/-- What `uvmdealloc` does to a size that the sum has not wrapped. -/
theorem growsExactly_neg (h : MemInv K k A pg R) (ha : A i = some a) (hn : n < 0) (hsum : 0 ≤ a.sz + n) :
    GrowsExactly K k i n := by
  obtain ⟨-, hwf, T, KT, hrep, hpg⟩ := h.space ha
  have ho : Owns K k.mem (a.pages T KT) := hpg ▸ (h.owns_slot i).left
  have hsz : a.sz ≤ MAXVA := Nat.le_trans hwf.size (by decide)
  have hnew : (addSize (k.proc i).sz n : Int) = a.sz + n := by
    unfold addSize
    rw [hrep.sz]
    simp only [MAXVA] at hsz
    omega
  unfold GrowsExactly growproc
  rw [wpm_bind, wpm_readProc, if_neg (by omega), if_pos hn, wpm_bind, kvmdealloc_eq, wpm_vm_slot i, wpm_pure,
    wpm_bind, wpm_vm_put, hrep.sz]
  rw [hrep.sz] at hnew
  generalize addSize a.sz n = newsz at hnew ⊢
  have hlt : newsz < a.sz := by omega
  have hmono := npages_mono hsz (Nat.le_of_lt hlt)
  have hpages : a.pages T KT = leafPages a.user (npages newsz) (npages a.sz) + T +
      (leafPages a.user 0 (npages newsz) + (KT + ({a.trapframe} + {a.usyscall} + {a.kstack}))) := by
    unfold Space.pages
    rw [← leafPages_append a.user (Nat.zero_le (npages newsz)) hmono]
    abel
  rw [hpages] at ho
  refine wpm_mono (wpm_of_wp (uvmdealloc_spec hrep.user ho.left hlt hsz
    (Or.inl fun u _ hu => hwf.map.isLeaf hu))) ?_
  rintro r m₁ ⟨rfl, hm, ht⟩
  rw [wpm_bind, wpm_modifyProc_put]
  have hlow : ∀ v, v < npages r → clearRange a.user (npages r) (npages a.sz) v = a.user v := by
    intro v hv
    unfold clearRange
    rw [if_neg (by omega)]
  -- every page that is still mapped was mapped before
  have hnone : ∀ v, ¬ NewlyMapped k (k.put m₁ i { k.proc i with sz := r }) i v := by
    rintro v ⟨hv, hoff, hon⟩
    have hentry : (k.put m₁ i { k.proc i with sz := r }).userEntry i v =
        clearRange a.user (npages r) (npages a.sz) v := by
      unfold userEntry
      rw [put_proc_self, put_mem]
      exact ht.entry v hv
    rw [hentry] at hon
    rw [userEntry_eq hrep.user hv] at hoff
    unfold clearRange at hon
    split at hon
    · cases hon
    · rw [hoff] at hon
      cases hon
  refine Or.inl ⟨rfl, ?_, fun va hva => ?_, fun v hv => absurd hv (hnone v), fun v w hv => absurd hv (hnone v)⟩
  · rw [put_proc_self, hrep.sz]
    exact hnew
  · refine userByte_below (q := { k.proc i with sz := r }) hrep.user ht (Nat.le_trans (Nat.le_of_lt hlt) hsz) hlow
      (fun v hv => ?_) va ?_
    · exact ho.page_eq hm (Multiset.mem_add.2 (Or.inl (mem_leafPages.2 ⟨v, Nat.zero_le _, hv, rfl⟩)))
    · rw [put_proc_self] at hva
      exact Nat.lt_of_lt_of_le hva (Nat.min_le_right _ _)

/-- When the sum has wrapped, `uvmdealloc` sees a new size that is larger than the old one. -/
theorem growproc_wraps (hsz : (k.proc i).sz ≤ MAXVA) (hn' : -2 ^ 31 ≤ n) (hneg : (k.proc i).sz + n < 0) :
    growproc K i n k = .ok 0 (k.put k.mem i (k.proc i)) := by
  have hge : addSize (k.proc i).sz n ≥ (k.proc i).sz := by
    unfold addSize
    simp only [MAXVA] at hsz
    omega
  have hw : wpm (growproc K i n) (fun r k' => r = 0 ∧ k' = k.put k.mem i (k.proc i)) (fun _ => False) False k := by
    unfold growproc
    rw [wpm_bind, wpm_readProc, if_neg (by omega), if_pos (by omega), wpm_bind, kvmdealloc_eq, wpm_vm_slot i,
      wpm_pure, wpm_bind, wpm_vm_put]
    unfold uvmdealloc
    rw [if_pos hge, wpm_pure, wpm_bind, wpm_modifyProc_put]
    exact ⟨rfl, rfl⟩
  unfold wpm at hw
  split at hw
  · rename_i r k' hrun
    obtain ⟨rfl, rfl⟩ := hw
    exact hrun
  · exact hw.elim
  · exact hw.elim

theorem growsExactly_zero : GrowsExactly K k i 0 := by
  refine Or.inl ⟨rfl, (add_zero _).symm, fun _ _ => rfl, fun v hv => ?_, fun v _ hv => ?_⟩
  · exact absurd (hv.2.1.symm.trans hv.2.2) Bool.false_ne_true
  · exact absurd (hv.2.1.symm.trans hv.2.2) Bool.false_ne_true

/-- **`growproc` is exact** for the amounts that do not take more than the process has. -/
theorem growsExactly_iff (h : MemInv K k A pg R) (ha : A i = some a) (hlo : -2 ^ 31 ≤ n) (hhi : n < 2 ^ 31) :
    GrowsExactly K k i n ↔ 0 ≤ (k.proc i).sz + n := by
  obtain ⟨-, hwf, T, KT, hrep, -⟩ := h.space ha
  have hsz : (k.proc i).sz ≤ MAXVA := hrep.sz ▸ Nat.le_trans hwf.size (by decide)
  constructor
  · intro hex
    by_contra hneg
    have hw := wpm_ok hex (growproc_wraps hsz hlo (by omega))
    rcases hw with ⟨-, hg⟩ | ⟨h0, -⟩
    · have hsize := hg.size
      rw [put_proc_self] at hsize
      omega
    · exact absurd h0 (by decide)
  · intro hpos
    rcases lt_trichotomy n 0 with hn | rfl | hn
    · rw [hrep.sz] at hpos
      exact growsExactly_neg h ha hn hpos
    · exact growsExactly_zero
    · exact growsExactly_pos h ha hn hhi

end spec

end Xv6
