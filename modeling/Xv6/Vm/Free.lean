import Xv6.Vm.Alloc

/-!
# Freeing page tables

`freewalk` and `proc_free_kpagetable` run the same recursion; they differ in what they do with leaf
entries.

* `freeTables_spec` — every page-table page goes back to the free list, no other page does.
* `freewalk_spec`, `procFreeKpagetable_spec`, `uvmfree_spec` — the three users.
-/

namespace Xv6

open Prog

variable {K : KernelImage} {s s' : Mem} {t n : Nat} {T : Multiset Nat} {e : Nat → Nat}
  {E : Mem → Prop}

/-- The tables below the entries `i, i + 1, …` of a page-table page of level `n`. -/
def restTables (s : Mem) (t i : Nat) : Nat → Multiset Nat
  | 0 => 0
  | n + 1 => ∑ j ∈ Finset.Ico i 512, Radix.below pteFormat s.pte n (s.pte t j)

theorem tables_eq_rest (s : Mem) (n t : Nat) : s.tables n t = t ::ₘ restTables s t 0 n := by
  cases n with
  | zero => exact Radix.tables_zero
  | succ n =>
    rw [restTables, ← Finset.range_eq_Ico]
    exact Radix.tables_succ

theorem restTables_top (s : Mem) (t n : Nat) : restTables s t 512 n = 0 := by
  cases n with
  | zero => rfl
  | succ n => rw [restTables, Finset.Ico_self, Finset.sum_empty]

theorem restTables_step (s : Mem) (t n : Nat) {i : Nat} (hi : i < 512) : restTables s t i (n + 1) =
    Radix.below pteFormat s.pte n (s.pte t i) + restTables s t (i + 1) (n + 1) :=
  Finset.sum_eq_sum_Ico_succ_bot hi _

theorem restTables_skip (s : Mem) (t n : Nat) {i : Nat} (hi : i < 512)
    (hv : ¬ hasFlag (s.pte t i) PTE_V = true) : restTables s t i n = restTables s t (i + 1) n := by
  cases n with
  | zero => rfl
  | succ n => rw [restTables_step s t n hi, Radix.below_of_not_valid hv, zero_add]

/-- Before entry `i` is visited: the tables of the entries before it are free, the rest is as in the
beginning. -/
structure Freeing (s : Mem) (n t i : Nat) (s' : Mem) : Prop where
  moves : Moves s (s.tables n t) s' (t ::ₘ restTables s t i n)
  entry : ∀ j, i ≤ j → s'.pte t j = s.pte t j
  page : ∀ a ∈ restTables s t i n, s'.page a = s.page a

theorem Freeing.start (s : Mem) (n t : Nat) : Freeing s n t 0 s :=
  ⟨by rw [tables_eq_rest]; exact Moves.refl _ _, fun _ _ => rfl, fun _ _ => rfl⟩

theorem Mem.pte_setPte_ne {i j : Nat} (hi : i < 512) (hj : j ≠ i) :
    (s.setPte t i 0).pte t j = s.pte t j := by
  rw [Mem.pte_setPte hi (by decide)]
  simp [Radix.setEntry, hj]

/-- Entry `i` is cleared. -/
theorem Freeing.clear {i : Nat} (hi : i < 512) (ho : Owns K s (s.tables n t)) {x : Mem}
    (hm : Moves s (s.tables n t) x (t ::ₘ restTables s t (i + 1) n))
    (hentry : ∀ j, i + 1 ≤ j → x.pte t j = s.pte t j)
    (hpage : ∀ a ∈ restTables s t (i + 1) n, x.page a = s.page a) :
    Freeing s n t (i + 1) (x.setPte t i 0) := by
  have hox := ho.moves hm
  rw [← Multiset.singleton_add] at hox
  refine ⟨hm.trans (Mem.setPte_moves (Multiset.mem_cons_self _ _)), fun j hj => ?_, fun a ha => ?_⟩
  · rw [Mem.pte_setPte_ne hi (by omega), hentry j hj]
  · rw [Mem.setPte_page_ne _ _ _ (hox.ne ha), hpage a ha]

/-! ## Leaves below an entry -/

theorem Mem.entryAt_zero {i : Nat} (hi : i < 512) : s.entryAt 0 t i = s.pte t i := by
  rw [Mem.entryAt, Radix.lookup_zero, vpath, Radix.path, Nat.pow_zero, Nat.div_one, Nat.mod_eq_of_lt hi]

theorem Mem.entryAt_slot {i u : Nat} (hi : i < 512) (hu : u < 512 ^ (n + 1)) :
    s.entryAt (n + 1) t (i * 512 ^ (n + 1) + u) =
      if hasFlag (s.pte t i) PTE_V then s.entryAt n (PTE2PA (s.pte t i)) u else 0 :=
  Radix.lookup_slot (f := pteFormat) (m := s.pte) (t := t) hi hu

theorem slot_lt {i u : Nat} (hi : i < 512) (hu : u < 512 ^ n) : i * 512 ^ n + u < 512 ^ (n + 1) :=
  calc i * 512 ^ n + u < i * 512 ^ n + 512 ^ n := by omega
    _ = (i + 1) * 512 ^ n := by ring
    _ ≤ 512 * 512 ^ n := Nat.mul_le_mul_right _ hi
    _ = 512 ^ (n + 1) := by rw [Nat.pow_succ, Nat.mul_comm]

/-- The valid leaf entries below the entries before `i` satisfy `done`. -/
def Seen (done : Nat → Prop) (s : Mem) (n t i : Nat) : Prop :=
  ∀ v, v < i * 512 ^ n → hasFlag (s.entryAt n t v) PTE_V = true → done (s.entryAt n t v)

theorem Seen.step {done : Nat → Prop} {i : Nat} (h : Seen done s n t i)
    (hi : ∀ u, u < 512 ^ n → hasFlag (s.entryAt n t (i * 512 ^ n + u)) PTE_V = true →
      done (s.entryAt n t (i * 512 ^ n + u))) : Seen done s n t (i + 1) := by
  intro v hv hV
  by_cases hlt : v < i * 512 ^ n
  · exact h v hlt hV
  · rw [Nat.add_mul, Nat.one_mul] at hv
    obtain ⟨u, rfl⟩ : ∃ u, v = i * 512 ^ n + u := ⟨v - i * 512 ^ n, by omega⟩
    exact hi u (by omega) hV

section

variable {leaf : Nat → Nat → Prog Mem Unit} {ok done : Nat → Prop} {P : String → Prop} {H : Prop}

/-- The loop over the entries and the final `kfree`. -/
theorem freeTables_of_entries (ho : Owns K s (s.tables n t))
    (hbody : ∀ i x, i < 512 → Freeing s n t i x → Seen done s n t i →
      wpm (freeEntry leaf (freeTables K leaf n) t i) (fun _ x' => Freeing s n t (i + 1) x' ∧ Seen done s n t (i + 1))
        P H x) :
    wpm (freeTables K leaf (n + 1) t) (fun _ s' => Moves s (s.tables n t) s' 0 ∧ Seen done s n t 512) P H s := by
  unfold freeTables
  have hloop : wpm (loop (freeEntry leaf (freeTables K leaf n) t) 0 512) _ P H s :=
    wpm_loop (fun i x => Freeing s n t i x ∧ Seen done s n t i) 512 0
      (fun i x _ hi hx => hbody i x (by omega) hx.1 hx.2)
      ⟨Freeing.start s n t, fun v hv => by rw [Nat.zero_mul] at hv; omega⟩
  refine wpm_seq hloop fun _ s1 h1 => ?_
  obtain ⟨h1, hseen⟩ := h1
  have hm := h1.moves
  rw [Nat.zero_add, restTables_top] at hm
  refine wpm_mono (wpm_of_wp (kfree_spec (F := 0) (ho.moves hm))) ?_
  rintro - s2 ⟨hm2, -, -⟩
  exact ⟨hm.trans hm2, hseen⟩

/-- **Freeing a page table** of level `n`; `done` is what is known of a leaf entry that was passed. -/
theorem freeTables_spec (hok : ∀ w, ok w → hasFlag w PTE_V = true → ¬ IsPointer w)
    (hleaf : ∀ (x : Mem) (t i : Nat), ok (x.pte t i) → hasFlag (x.pte t i) PTE_V = true →
      wpm (leaf t i) (fun _ x' => x' = x.setPte t i 0 ∧ done (x.pte t i)) P H x)
    (hin : s.Inner n t) (hent : ∀ v, v < 512 ^ (n + 1) → ok (s.entryAt n t v))
    (ho : Owns K s (s.tables n t)) :
    wpm (freeTables K leaf (n + 1) t) (fun _ s' => Moves s (s.tables n t) s' 0 ∧ Seen done s n t 512) P H s := by
  induction n generalizing s t with
  | zero =>
    refine freeTables_of_entries ho fun i x hi hx hseen => ?_
    have hentry : ∀ u, u < 512 ^ 0 → s.entryAt 0 t (i * 512 ^ 0 + u) = s.pte t i := by
      intro u hu
      obtain rfl : u = 0 := by simpa using hu
      rw [Nat.pow_zero, Nat.mul_one, Nat.add_zero]
      exact Mem.entryAt_zero hi
    have hi' : ok (s.pte t i) := by
      rw [← Mem.entryAt_zero hi]
      exact hent i (by omega)
    have hxi := hx.entry i (Nat.le_refl _)
    unfold freeEntry
    rw [wpm_bind, wpm_gets, hxi]
    split
    · rename_i hc
      rw [Bool.and_eq_true, Bool.not_eq_true'] at hc
      exact absurd hc.2 (hok _ hi' hc.1)
    · split
      · rename_i hv
        refine wpm_mono (hleaf x t i (by rwa [hxi]) (by rwa [hxi])) ?_
        rintro - x' ⟨rfl, hdone⟩
        refine ⟨Freeing.clear hi ho hx.moves (fun j hj => hx.entry j (by omega)) hx.page, hseen.step fun u hu _ => ?_⟩
        rw [hentry u hu, ← hxi]
        exact hdone
      · rename_i hv
        refine ⟨⟨hx.moves, fun j hj => hx.entry j (by omega), hx.page⟩, hseen.step fun u hu hV => ?_⟩
        rw [hentry u hu] at hV
        exact absurd hV hv
  | succ n ih =>
    refine freeTables_of_entries ho fun i x hi hx hseen => ?_
    have hxi := hx.entry i (Nat.le_refl _)
    unfold freeEntry
    rw [wpm_bind, wpm_gets, hxi]
    split
    · rename_i hc
      rw [Bool.and_eq_true] at hc
      -- the subtree below entry `i` is still as in the beginning
      have hbelow : Radix.below pteFormat s.pte n (s.pte t i) = s.tables n (PTE2PA (s.pte t i)) :=
        Radix.below_of_valid hc.1
      have hstep := restTables_step s t n hi
      rw [hbelow] at hstep
      have hpage : ∀ a ∈ s.tables n (PTE2PA (s.pte t i)), x.page a = s.page a := fun a ha =>
        hx.page a (by rw [hstep]; exact Multiset.mem_add.2 (Or.inl ha))
      have htab := Mem.tables_congr hpage
      have hm := hx.moves
      rw [hstep, ← Multiset.add_cons] at hm
      have hox := ho.moves hm
      have hslot : ∀ u, u < 512 ^ (n + 1) →
          s.entryAt (n + 1) t (i * 512 ^ (n + 1) + u) = x.entryAt n (PTE2PA (s.pte t i)) u := by
        intro u hu
        rw [Mem.entryAt_slot hi hu, if_pos hc.1, Mem.entryAt_congr hpage]
      have hsub := ih (s := x) (t := PTE2PA (s.pte t i))
        ((Mem.inner_congr hpage).2 ((Radix.inner_succ.1 hin) i hi hc.1).2)
        (fun u hu => by
          rw [← hslot u hu]
          exact hent _ (slot_lt hi hu))
        (by rw [htab]; exact hox.left)
      refine wpm_seq hsub ?_
      rintro - y ⟨hy, hdone⟩
      rw [htab] at hy
      have hmy := hm.trans ((hy.add (t ::ₘ restTables s t (i + 1) (n + 1))).congr rfl (zero_add _))
      refine ⟨Freeing.clear hi ho hmy (fun j hj => ?_) fun a ha => ?_, hseen.step fun u hu hV => ?_⟩
      · rw [Mem.pte_of_page (hox.page_eq hy (Multiset.mem_cons_self _ _)), hx.entry j (by omega)]
      · rw [hox.page_eq hy (Multiset.mem_cons_of_mem ha), hx.page a (by
          rw [hstep]; exact Multiset.mem_add.2 (Or.inr ha))]
      · rw [hslot u hu] at hV ⊢
        exact hdone u (by rwa [← Nat.pow_succ']) hV
    · rename_i hc
      rw [Bool.and_eq_true, Bool.not_eq_true'] at hc
      split
      · rename_i hv
        exact absurd ⟨hv, ((Radix.inner_succ.1 hin) i hi hv).1⟩ hc
      · rename_i hv
        have hskip := restTables_skip s t (n + 1) hi hv
        refine ⟨⟨by rw [← hskip]; exact hx.moves, fun j hj => hx.entry j (by omega),
          by rw [← hskip]; exact hx.page⟩, hseen.step fun u hu hV => ?_⟩
        rw [Mem.entryAt_slot hi hu, if_neg hv] at hV
        exact absurd hV (by decide)

theorem vpns_eq : vpns = 512 ^ (2 + 1) := by decide

theorem PageTable.freeTables (leaf : Nat → Nat → Prog Mem Unit) (ok done : Nat → Prop) (h : PageTable s t T e)
    (ho : Owns K s T) (hok : ∀ w, ok w → hasFlag w PTE_V = true → ¬ IsPointer w)
    (hleaf : ∀ (x : Mem) (t i : Nat), ok (x.pte t i) → hasFlag (x.pte t i) PTE_V = true →
      wpm (leaf t i) (fun _ x' => x' = x.setPte t i 0 ∧ done (x.pte t i)) P H x)
    (hent : ∀ v, v < vpns → ok (e v)) :
    wpm (freeTables K leaf 3 t) (fun _ s' => Moves s T s' 0 ∧
      ∀ v, v < vpns → hasFlag (e v) PTE_V = true → done (e v)) P H s := by
  obtain ⟨rfl, hin, he⟩ := h
  refine wpm_mono (freeTables_spec hok hleaf hin (fun v hv => ?_) ho) ?_
  · rw [← vpns_eq] at hv
    have hv' : s.entryAt 2 t v = e v := he v hv
    rw [hv']
    exact hent v hv
  · rintro - s' ⟨hm, hseen⟩
    refine ⟨hm, fun v hv => ?_⟩
    rw [← he v hv]
    exact hseen v hv

end

/-- **`freewalk`** of a page table whose leaf entries look like leaves: it panics at the first of them, and
otherwise there is none. -/
theorem freewalk_wpm (h : PageTable s t T e) (ho : Owns K s T)
    (hl : ∀ v, v < vpns → hasFlag (e v) PTE_V = true → ¬ IsPointer (e v)) :
    wpm (freewalk K t) (fun _ s' => Moves s T s' 0 ∧ ∀ v, v < vpns → hasFlag (e v) PTE_V = false)
      (fun m => m = "freewalk: leaf") False s := by
  refine wpm_mono (h.freeTables _ (fun w => hasFlag w PTE_V = true → ¬ IsPointer w) (fun _ => False) ho
    (fun w h1 h2 => h1 h2) (fun x t i _ _ => rfl) hl) ?_
  rintro - s' ⟨hm, hnone⟩
  exact ⟨hm, fun v hv => Bool.not_eq_true _ ▸ hnone v hv⟩

/-- **`freewalk`** of a page table without mappings. -/
theorem freewalk_spec (h : PageTable s t T e) (ho : Owns K s T)
    (hz : ∀ v, v < vpns → hasFlag (e v) PTE_V = false) :
    wp (freewalk K t) (fun _ s' => Moves s T s' 0) E s := by
  have hbad : ∀ w, hasFlag w PTE_V = false → ¬ hasFlag w PTE_V = true := fun w h1 => by
    rw [h1]
    decide
  have hfree : wpm (freewalk K t) _ (fun _ => False) False s :=
    h.freeTables _ (fun w => hasFlag w PTE_V = false) (fun _ => True) ho (fun w h1 h2 => absurd h2 (hbad w h1))
      (fun x t i h1 h2 => absurd h2 (hbad _ h1)) hz
  exact wp_of_wpm (wpm_mono hfree fun _ _ h => h.1)

/-- **`proc_free_kpagetable`**: the leaf entries must look like leaves, their pages are not freed. -/
theorem procFreeKpagetable_spec (h : PageTable s t T e) (ho : Owns K s T)
    (hl : ∀ v, v < vpns → hasFlag (e v) PTE_V = true → ¬ IsPointer (e v)) :
    wp (procFreeKpagetable K t) (fun _ s' => Moves s T s' 0) E s := by
  have hfree : wpm (procFreeKpagetable K t) _ (fun _ => False) False s :=
    h.freeTables _ (fun w => hasFlag w PTE_V = true → ¬ IsPointer w) (fun _ => True) ho
      (fun w h1 h2 => h1 h2) (fun x t i _ _ => ⟨rfl, trivial⟩) hl
  exact wp_of_wpm (wpm_mono hfree fun _ _ h => h.1)

/-- **`uvmfree`**: the user pages and the page table. -/
theorem uvmfree_spec {sz : Nat} (h : PageTable s t T e) (ho : Owns K s (leafPages e 0 (npages sz) + T))
    (hsz : sz ≤ MAXVA) (hz : ∀ v, npages sz ≤ v → v < vpns → hasFlag (e v) PTE_V = false)
    (hE : (∀ u, u < npages sz → IsLeaf (e u)) ∨ ∀ s', E s') :
    wp (uvmfree K t sz) (fun _ s' => Moves s (leafPages e 0 (npages sz) + T) s' 0) E s := by
  have hmax : npages sz * PGSIZE ≤ MAXVA := by
    rw [npages_eq hsz]
    simp only [PGSIZE, MAXVA] at *
    omega
  have hunmap := uvmunmap_free_spec (E := E) (a := 0) h ho (Nat.zero_le _) hmax
    (hE.imp_left fun hl u _ hu => hl u hu)
  rw [Nat.zero_mul, Nat.sub_zero] at hunmap
  have hclear : wp (if sz > 0 then uvmunmap K t 0 (PGROUNDUP sz / PGSIZE) true else pure ())
      (fun _ s' => Moves s (leafPages e 0 (npages sz) + T) s' T ∧
        PageTable s' t T (clearRange e 0 (npages sz))) E s := by
    split
    · exact hunmap
    · rename_i h0
      obtain rfl : sz = 0 := by omega
      rw [show npages 0 = 0 by decide, leafPages_self, zero_add, clearRange_self]
      exact ⟨Moves.refl _ _, h⟩
  unfold uvmfree
  refine wp_seq hclear ?_
  rintro - s1 ⟨hm, h1⟩
  refine wp_mono (freewalk_spec h1 (ho.moves hm) fun v hv => ?_) (fun _ s2 hm2 => hm.trans hm2) fun _ h => h
  simp only [clearRange]
  split
  · decide
  · exact hz v (by omega) hv

/-- **`uvmcreate`.** -/
theorem uvmcreate_spec :
    wp uvmcreate (fun r s' => (r = none ∧ s.freelist = [] ∧ s' = s) ∨
      ∃ t rs, r = some t ∧ s.freelist = t :: rs ∧ s'.freelist = rs ∧ Moves s 0 s' {t} ∧
        PageTable s' t {t} (fun _ => 0)) E s := by
  unfold uvmcreate
  refine wp_seq kalloc_spec fun r s1 hr => ?_
  obtain ⟨rfl, hnil, rfl⟩ | ⟨p, rs, rfl, hs, rfl⟩ := hr
  · exact Or.inl ⟨rfl, hnil, rfl⟩
  · refine Or.inr ⟨p, rs, rfl, hs, rfl, alloc_moves hs _, ?_⟩
    have hempty : ∀ i, ((({ s.fill p 5 with freelist := rs } : Mem)).fill p 0).pte p i = 0 :=
      Mem.pte_fill_zero _ p
    exact ⟨Radix.tables_empty hempty, Radix.inner_empty hempty, fun v _ => Radix.lookup_empty hempty⟩

end Xv6
