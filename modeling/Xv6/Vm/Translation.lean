import Xv6.Lib.Sim
import Xv6.Vm.Free

/-!
# Page tables as finite maps

What `mappages` and `uvmunmap` do to the translations of a page table, and what freeing a page table frees.

* `Mem.translation s t v` — the physical page and the flags of virtual page `v`.
* `WellFormed K s t` — three levels, with page-table pages that are distinct and not on the free list.
* `maps_and_unmaps` — `mappages` and `uvmunmap` as updates of the map; well-formedness is preserved.
* `table_freed` — `proc_free_kpagetable` and `freewalk` free the page-table pages and nothing else.  Here the free
  list may be anything (`Above`): the two functions put pages in front of it and do not look at it.
-/

namespace Xv6

open Prog

variable {K : KernelImage} {s s' : Mem} {t v : Nat} {T : Multiset Nat} {e : Nat → Nat}

/-- The physical page and the flags in an entry. -/
def pteTarget (w : Nat) : Option (Nat × Nat) := if hasFlag w PTE_V then some (PTE2PA w, PTE_FLAGS w) else none

def Mem.translation (s : Mem) (t v : Nat) : Option (Nat × Nat) := pteTarget (s.entry t v)

structure WellFormed (K : KernelImage) (s : Mem) (t : Nat) : Prop where
  inner : s.Inner 2 t
  owns : Owns K s (s.tables 2 t)

theorem WellFormed.pageTable (h : WellFormed K s t) : PageTable s t (s.tables 2 t) (s.entry t) :=
  ⟨rfl, h.inner, fun _ _ => rfl⟩

theorem PageTable.wellFormed (h : PageTable s t T e) (ho : Owns K s T) : WellFormed K s t where
  inner := h.inner
  owns := by rwa [h.tables]

theorem PageTable.translation (h : PageTable s t T e) (hv : v < vpns) : s.translation t v = pteTarget (e v) := by
  rw [Mem.translation, h.entry v hv]

theorem pteTarget_zero : pteTarget 0 = none := by decide

theorem pteTarget_leafPte {pa perm : Nat} (hpa : pa < 2 ^ 64) (hperm : perm < 2 ^ 10) :
    pteTarget (leafPte pa perm) = some (pa / PGSIZE * PGSIZE, perm ||| PTE_V) := by
  have hflags : PTE_FLAGS (leafPte pa perm) = perm ||| PTE_V := PTE_FLAGS_leafPte hperm
  have hV : hasFlag (leafPte pa perm) PTE_V = true := by
    rw [hasFlag_mod (by decide), hflags, hasFlag_or]
    simp [hasFlag, PTE_V]
  have hpa' : PTE2PA (leafPte pa perm) = pa / PGSIZE * PGSIZE := by
    have hlt := or_V_lt hperm
    rw [leafPte, Nat.lor_assoc, or_eq_add hlt, PTE2PA, PA2PTE]
    simp only [PGSIZE]
    omega
  rw [pteTarget, if_pos hV, hflags, hpa']

/-! ## Mapping -/

/-- `mappages(va, size, pa, perm)` went from `s` to `s'` with result `r`. -/
structure MapsRange (K : KernelImage) (s : Mem) (t va size pa perm : Nat) (r : Int) (s' : Mem) : Prop where
  wellFormed : WellFormed K s' t
  result : r = 0 ∨ r = -1
  inside : r = 0 → ∀ i, i < size / PGSIZE →
    s'.translation t (va / PGSIZE + i) = some ((pa / PGSIZE + i) * PGSIZE, perm ||| PTE_V)
  outside : ∀ v, v < vpns → ¬ (va ≤ v * PGSIZE ∧ v * PGSIZE < va + size) → s'.translation t v = s.translation t v

/-- `mappages` panics unless the range is made of pages. -/
theorem mappages_range {va size pa perm : Nat} {r : Int} (h : mappages t va size pa perm s = .ok r s') :
    va % PGSIZE = 0 ∧ size % PGSIZE = 0 ∧ 0 < size := by
  unfold mappages at h
  split at h
  · cases h
  · split at h
    · cases h
    · split at h
      · cases h
      · exact ⟨by omega, by omega, by omega⟩

theorem WellFormed.mappages {va size pa perm : Nat} {r : Int} (h : WellFormed K s t) (hperm : perm < 2 ^ 10)
    (hend : pa + size ≤ 2 ^ 64) (hrun : mappages t va size pa perm s = .ok r s') :
    MapsRange K s t va size pa perm r s' := by
  obtain ⟨hva, hsize, hpos⟩ := mappages_range hrun
  obtain ⟨T', j, hm, hpt, hr, -, -⟩ := wp_ok (mappages_spec (E := fun _ => True) hperm h.pageTable h.owns hva hsize hpos
    hend (Or.inr fun _ => trivial)) hrun
  have hj : j ≤ size / PGSIZE := by
    rcases hr with ⟨-, rfl, -⟩ | ⟨-, hj, -⟩ <;> omega
  refine ⟨hpt.wellFormed (h.owns.moves hm), ?_, fun h0 i hi => ?_, fun v hv hout => ?_⟩
  · rcases hr with ⟨h0, -⟩ | ⟨h1, -⟩
    · exact Or.inl h0
    · exact Or.inr h1
  · rcases hr with ⟨-, rfl, hmax⟩ | ⟨h1, -⟩
    · have hv : va / PGSIZE + i < vpns := by
        have := hmax (by omega)
        simp only [PGSIZE, MAXVA, vpns] at this hi ⊢
        omega
      have hpa : pa + i * PGSIZE < 2 ^ 64 := by
        simp only [PGSIZE] at hi hsize ⊢
        omega
      rw [hpt.translation hv, mapRange, if_pos (by omega), Nat.add_sub_cancel_left, pteTarget_leafPte hpa hperm,
        Nat.add_mul_div_right _ _ PGSIZE_pos]
    · rw [h0] at h1
      cases h1
  · rw [hpt.translation hv, mapRange, if_neg, Mem.translation]
    simp only [PGSIZE] at hva hsize hout hj ⊢
    omega

/-! ## Unmapping -/

/-- The physical pages that `uvmunmap` of `n` pages frees. -/
def targets (s : Mem) (t va n : Nat) (doFree : Bool) : Multiset Nat :=
  releasedPages doFree (s.entry t) (va / PGSIZE) (va / PGSIZE + n)

/-- `uvmunmap(va, n, do_free)` went from `s` to `s'`. -/
structure UnmapsRange (K : KernelImage) (s : Mem) (t va n : Nat) (doFree : Bool) (s' : Mem) : Prop where
  wellFormed : WellFormed K s' t
  inside : ∀ i, i < n → s.translation t (va / PGSIZE + i) ≠ none ∧ s'.translation t (va / PGSIZE + i) = none
  outside : ∀ v, v < vpns → ¬ (va ≤ v * PGSIZE ∧ v * PGSIZE < va + n * PGSIZE) →
    s'.translation t v = s.translation t v
  freed : (↑s'.freelist : Multiset Nat) = targets s t va n doFree + ↑s.freelist

theorem WellFormed.uvmunmap {va n : Nat} {doFree : Bool} (h : WellFormed K s t) (hwrap : va + n * PGSIZE < 2 ^ 64)
    (ho : doFree = true → Owns K s (targets s t va n doFree + s.tables 2 t))
    (hrun : uvmunmap K t va n doFree s = .ok () s') : UnmapsRange K s t va n doFree s' := by
  have hva : va % PGSIZE = 0 := by
    by_contra hne
    rw [Xv6.uvmunmap, if_pos hne] at hrun
    cases hrun
  obtain ⟨a, rfl⟩ : ∃ a, va = a * PGSIZE := ⟨va / PGSIZE, (Nat.div_mul_cancel (Nat.dvd_of_mod_eq_zero hva)).symm⟩
  have hdiv : a * PGSIZE / PGSIZE = a := Nat.mul_div_cancel _ PGSIZE_pos
  have howns : Owns K s (releasedPages doFree (s.entry t) a (a + n) + s.tables 2 t) := by
    cases doFree with
    | false => exact h.owns.congr (zero_add _).symm
    | true =>
      have := ho rfl
      rwa [targets, hdiv] at this
  have hspec := uvmunmap_spec (E := fun _ => True) h.pageTable howns (Nat.le_add_right a n) (by rwa [Nat.add_mul])
    (Or.inr fun _ => trivial)
  rw [Nat.add_sub_cancel_left] at hspec
  obtain ⟨hleaf, hm, hpt⟩ := wp_ok hspec hrun
  refine ⟨hpt.wellFormed (howns.moves hm), fun i hi => ?_, fun v hv hout => ?_, ?_⟩
  · obtain ⟨hmax, hV, -⟩ := hleaf (a + i) (by omega) (by omega)
    have hv : a + i < vpns := by
      simp only [PGSIZE, MAXVA, vpns] at hmax ⊢
      omega
    rw [hdiv, hpt.translation hv, clearRange, if_pos (by omega), Mem.translation, pteTarget, if_pos hV]
    exact ⟨Option.some_ne_none _, pteTarget_zero⟩
  · rw [hpt.translation hv, clearRange, if_neg, Mem.translation]
    simp only [PGSIZE] at hout ⊢
    omega
  · have hc := hm.conserve
    rw [targets, hdiv]
    rw [add_right_comm, add_comm] at hc
    exact add_right_cancel hc

/-- **A page table is a finite map** for `mappages` and `uvmunmap`. -/
theorem maps_and_unmaps (h : WellFormed K s t) :
    (∀ (va size pa perm : Nat) (r : Int) (s' : Mem), perm < 2 ^ 10 → pa + size ≤ 2 ^ 64 →
      mappages t va size pa perm s = .ok r s' → MapsRange K s t va size pa perm r s') ∧
    ∀ (va n : Nat) (doFree : Bool) (s' : Mem), va + n * PGSIZE < 2 ^ 64 →
      (doFree = true → Owns K s (targets s t va n doFree + s.tables 2 t)) →
      uvmunmap K t va n doFree s = .ok () s' → UnmapsRange K s t va n doFree s' := by
  constructor
  · intro va size pa perm r s' hperm hend hrun
    exact h.mappages hperm hend hrun
  · intro va n doFree s' hwrap ho hrun
    exact h.uvmunmap hwrap ho hrun

/-- An empty page table beside the free pages of `fewPages`. -/
def emptyRoot : Nat := 0x8002A000

theorem fewPages_pageTable : PageTable fewPages emptyRoot {emptyRoot} fun _ => 0 := by
  have hempty : ∀ i, fewPages.pte emptyRoot i = 0 := fun i => ByteStore.readLE_zero 8 _
  exact ⟨Radix.tables_empty hempty, Radix.inner_empty hempty, fun _ _ => Radix.lookup_empty hempty⟩

theorem fewPages_owns : Owns smallImage fewPages {emptyRoot} := by
  constructor
  · rw [Multiset.singleton_add, Multiset.cons_coe, Multiset.coe_nodup]
    decide
  · rw [Multiset.singleton_add, Multiset.cons_coe]
    simp only [Multiset.mem_coe]
    decide

theorem maps_and_unmaps_fewPages : ∃ s', mappages emptyRoot 0x5000 (2 * PGSIZE) 0x10000000 PTE_R fewPages = .ok 0 s' ∧
    s'.translation emptyRoot 6 = some (0x10001000, 3) := by
  have hspec : wp (mappages emptyRoot 0x5000 (2 * PGSIZE) 0x10000000 PTE_R) _ (fun _ => False) fewPages :=
    mappages_spec (by decide) fewPages_pageTable fewPages_owns (by decide) (by decide) (by decide) (by decide)
      (Or.inl ⟨by decide, fun _ _ _ => rfl⟩)
  obtain ⟨r, s', hrun, T', j, -, -, hr, -, -⟩ := wp_total hspec
  have hneed : tableNeed fewPages emptyRoot (0x5000 / PGSIZE) (2 * PGSIZE / PGSIZE) ≤ 2 := by
    rw [tableNeed, if_neg (by decide), show 2 * ((0x5000 / PGSIZE + 2 * PGSIZE / PGSIZE - 1) / 512 -
      0x5000 / PGSIZE / 512) = 0 by decide]
    split <;> omega
  rcases hr with ⟨rfl, -⟩ | ⟨-, -, -, hlen⟩
  · have hmaps := (maps_and_unmaps (fewPages_pageTable.wellFormed fewPages_owns)).1 0x5000 (2 * PGSIZE) 0x10000000 PTE_R
      0 s' (by decide) (by decide) hrun
    exact ⟨s', hrun, hmaps.inside rfl 1 (by decide)⟩
  · have hfree : fewPages.freelist.length = 10 := rfl
    omega

/-- With `2 ^ 52` pages the end of the range wraps around: nothing is unmapped, and there is no panic. -/
theorem uvmunmap_wraps : WellFormed smallImage fewPages emptyRoot ∧
    uvmunmap smallImage emptyRoot 0 (2 ^ 52) false fewPages = .ok () fewPages ∧
    fewPages.translation emptyRoot 0 = none := by
  refine ⟨fewPages_pageTable.wellFormed fewPages_owns, ?_, ?_⟩
  · rw [uvmunmap, if_neg (by decide), show pagesBetween 0 ((0 + 2 ^ 52 * PGSIZE) % 2 ^ 64) = 0 by decide]
    rfl
  · rw [fewPages_pageTable.translation (by decide)]
    exact pteTarget_zero

/-! ## Freeing -/

/-- The same memory with `r` at the end of the free list. -/
def Above (r : List Nat) (s s' : Mem) : Prop := s'.page = s.page ∧ s'.freelist = s.freelist ++ r

theorem sim_kfree (r : List Nat) (K : KernelImage) (pa : Nat) : Sim (Above r) (kfree K pa) (kfree K pa) := by
  refine sim_ite (sim_panicWith _) (sim_modify ?_)
  rintro s s' ⟨hp, hf⟩
  exact ⟨by simp [Mem.fill, hp], by simp [hf]⟩

theorem sim_setPte (r : List Nat) (t i w : Nat) :
    Sim (Above r) (modify fun s => s.setPte t i w) (modify fun s => s.setPte t i w) := by
  refine sim_modify ?_
  rintro s s' ⟨hp, hf⟩
  exact ⟨by simp [Mem.setPte, hp], hf⟩

theorem sim_freeTables {r : List Nat} {leaf : Nat → Nat → Prog Mem Unit}
    (hleaf : ∀ t i, Sim (Above r) (leaf t i) (leaf t i)) :
    ∀ n t, Sim (Above r) (freeTables K leaf n t) (freeTables K leaf n t)
  | 0, _ => sim_hang
  | n + 1, t => by
    refine Sim.bind (sim_loop (fun i => ?_) 512 0) fun _ => sim_kfree r K t
    refine Sim.bind (sim_gets fun s s' h => (Mem.pte_of_page (congrFun h.1 t) i).symm) fun pte => ?_
    refine sim_ite (Sim.bind (sim_freeTables hleaf n _) fun _ => sim_setPte r t i 0) ?_
    exact sim_ite (hleaf t i) (sim_pure ())

/-- From `s` to `s'` the pages `T` were freed, each of them once, and nothing else was done. -/
structure Freed (s : Mem) (T : Multiset Nat) (s' : Mem) : Prop where
  freelist : ∃ l : List Nat, (l : Multiset Nat) = T ∧ s'.freelist = l ++ s.freelist
  page : ∀ a, a ∉ T → s'.page a = s.page a

/-- A run with an empty free list, moved over. -/
theorem freed_of_sim {x : Prog Mem Unit} (hsim : Sim (Above s.freelist) x x)
    (hx : wp x (fun _ s' => Moves { s with freelist := [] } T s' 0) (fun _ => False) { s with freelist := [] }) :
    ∃ s', x s = .ok () s' ∧ Freed s T s' := by
  obtain ⟨⟨⟩, s₁, hrun, hm⟩ := wp_total hx
  have hrel := hsim { s with freelist := [] } s ⟨rfl, (List.nil_append _).symm⟩
  rw [hrun] at hrel
  cases hs : x s with
  | ok a s' =>
    rw [hs] at hrel
    cases hrel with
    | ok habove =>
      refine ⟨s', rfl, ⟨s₁.freelist, ?_, habove.2⟩, fun a ha => ?_⟩
      · have hc := hm.conserve
        rwa [zero_add, Multiset.coe_nil, add_zero] at hc
      · rw [habove.1]
        exact hm.frame a (by rwa [Multiset.coe_nil, add_zero])
  | panic m s' | hang s' =>
    rw [hs] at hrel
    cases hrel

/-- **Freeing a page table** whose leaf entries have one of R, W and X: `proc_free_kpagetable` frees the page-table
pages and no other page; so does `freewalk` when no leaf entry is valid, and it panics when one is. -/
theorem table_freed (h : PageTable s t T e) (hnd : T.Nodup) (hmem : ∀ a ∈ T, Managed K a)
    (hleaf : ∀ v, v < vpns → hasFlag (e v) PTE_V = true → hasFlag (e v) (PTE_R ||| PTE_W ||| PTE_X) = true) :
    (∃ s', procFreeKpagetable K t s = .ok () s' ∧ Freed s T s') ∧
    ((∀ v, v < vpns → hasFlag (e v) PTE_V = false) → ∃ s', freewalk K t s = .ok () s' ∧ Freed s T s') ∧
    ((∃ m s', freewalk K t s = .panic m s') ↔ ∃ v, v < vpns ∧ hasFlag (e v) PTE_V = true) := by
  have h₀ : PageTable { s with freelist := [] } t T e := h.congr fun _ _ => rfl
  have ho₀ : Owns K { s with freelist := [] } T := by
    constructor
    · rwa [Multiset.coe_nil, add_zero]
    · rwa [Multiset.coe_nil, add_zero]
  have hl : ∀ v, v < vpns → hasFlag (e v) PTE_V = true → ¬ IsPointer (e v) := by
    intro v hv hV hp
    rw [IsPointer, hleaf v hv hV] at hp
    cases hp
  have hwalk : ∀ r, Sim (Above r) (freewalk K t) (freewalk K t) :=
    fun r => sim_freeTables (fun _ _ => sim_panicWith _) 3 t
  have hnone : (∀ v, v < vpns → hasFlag (e v) PTE_V = false) → ∃ s', freewalk K t s = .ok () s' ∧ Freed s T s' :=
    fun hz => freed_of_sim (hwalk _) (freewalk_spec h₀ ho₀ hz)
  refine ⟨?_, hnone, ?_, ?_⟩
  · have hsim : Sim (Above s.freelist) (procFreeKpagetable K t) (procFreeKpagetable K t) :=
      sim_freeTables (fun t i => sim_setPte _ t i 0) 3 t
    exact freed_of_sim hsim (procFreeKpagetable_spec h₀ ho₀ hl)
  · rintro ⟨m, s', hpanic⟩
    by_contra hno
    obtain ⟨s'', hok, -⟩ := hnone fun v hv => by
      by_contra hV
      exact hno ⟨v, hv, by simpa using hV⟩
    rw [hpanic] at hok
    cases hok
  · rintro ⟨v, hv, hV⟩
    have hspec := freewalk_wpm h₀ ho₀ hl
    have hrel := hwalk s.freelist { s with freelist := [] } s ⟨rfl, (List.nil_append _).symm⟩
    cases hrun : freewalk K t { s with freelist := [] } with
    | ok a s₁ =>
      have hz := (wpm_ok hspec hrun).2 v hv
      rw [hz] at hV
      cases hV
    | hang s₁ =>
      rw [wpm, hrun] at hspec
      exact hspec.elim
    | panic m s₁ =>
      rw [hrun] at hrel
      cases hs : freewalk K t s with
      | panic m' s' => exact ⟨m', s', rfl⟩
      | ok a s' =>
        rw [hs] at hrel
        cases hrel
      | hang s' =>
        rw [hs] at hrel
        cases hrel

/-- The table of `fewPages` with one page mapped. -/
theorem table_freed_mapped : ∃ s, (∃ s', procFreeKpagetable smallImage emptyRoot s = .ok () s') ∧
    ∃ m s', freewalk smallImage emptyRoot s = .panic m s' := by
  have hspec : wp (mappages emptyRoot 0 PGSIZE 0x10000000 PTE_R) _ (fun _ => False) fewPages :=
    mapPage_spec (by decide) fewPages_pageTable fewPages_owns (by decide) ⟨by decide, by decide⟩
      (Or.inl ⟨by decide, rfl⟩)
  obtain ⟨r, s, -, T, hm, hr, -, -⟩ := wp_total hspec
  rcases hr with ⟨-, ht, -⟩ | ⟨-, -, -, -, hlen⟩
  · have ho := fewPages_owns.moves hm
    rw [Nat.zero_div] at ht
    have hV : ∀ v, hasFlag (Function.update (fun _ => 0) 0 (leafPte 0x10000000 PTE_R) v) PTE_V = true →
        v = 0 := by
      intro v hv
      by_contra hne
      rw [Function.update_of_ne hne] at hv
      exact absurd hv (by decide)
    have hfreed := table_freed ht (Multiset.nodup_add.1 ho.nodup).1
      (fun a ha => ho.managed a (Multiset.mem_add.2 (Or.inl ha))) fun v _ hv => by
        rw [hV v hv]
        decide
    obtain ⟨⟨s', hs', -⟩, -, hpanic⟩ := hfreed
    exact ⟨s, ⟨s', hs'⟩, hpanic.2 ⟨0, by decide, by decide⟩⟩
  · exact absurd hlen (by decide)

end Xv6
