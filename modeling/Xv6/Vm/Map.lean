import Xv6.Vm.Table

/-!
# Mapping and unmapping pages

* `mapRange e v n pa perm` — the entries `e` with the pages `v, …, v + n - 1` mapped to consecutive
  physical pages from `pa`.
* `mappages_spec` — `mappages` maps the range, or runs out of pages part of the way.  `tableNeed`
  bounds the page-table pages it takes.
* `uvmunmap_spec` — unmapping, with and without freeing the pages.
* `uvmalloc_spec`, `uvmdealloc_spec` — growing by fresh pages, all or nothing, and shrinking.
-/

namespace Xv6

open Prog Function

variable {K : KernelImage} {s s' : Mem} {t n v pa perm : Nat} {T T' F : Multiset Nat}
  {e e' : Nat → Nat} {E : Mem → Prop}

/-! ## Leaf entries -/

/-- The entry that `mappages` writes. -/
def leafPte (pa perm : Nat) : Nat := PA2PTE pa ||| perm ||| PTE_V

theorem or_V_lt (hperm : perm < 2 ^ 10) : perm ||| PTE_V < 2 ^ 10 := Nat.or_lt_two_pow hperm (by decide)

theorem leafPte_lt (hpa : pa < 2 ^ 64) (hperm : perm < 2 ^ 10) : leafPte pa perm < 2 ^ 64 := by
  have hV := or_V_lt hperm
  rw [leafPte, Nat.lor_assoc, or_eq_add hV, PA2PTE]
  omega

theorem PTE2PA_leafPte (hpa : PageAddr pa) (hperm : perm < 2 ^ 10) : PTE2PA (leafPte pa perm) = pa := by
  rw [leafPte, Nat.lor_assoc]
  exact PTE2PA_or hpa (or_V_lt hperm)

theorem PTE_FLAGS_leafPte (hperm : perm < 2 ^ 10) : PTE_FLAGS (leafPte pa perm) = perm ||| PTE_V := by
  rw [leafPte, Nat.lor_assoc]
  exact PTE_FLAGS_or (or_V_lt hperm)

def mapRange (e : Nat → Nat) (v n pa perm : Nat) : Nat → Nat := fun u =>
  if v ≤ u ∧ u < v + n then leafPte (pa + (u - v) * PGSIZE) perm else e u

theorem mapRange_zero (e : Nat → Nat) (v pa perm : Nat) : mapRange e v 0 pa perm = e := by
  funext u
  exact if_neg (by omega)

theorem mapRange_one (e : Nat → Nat) (v pa perm : Nat) :
    mapRange e v 1 pa perm = update e v (leafPte pa perm) := by
  funext u
  by_cases h : u = v
  · subst h
    rw [update_self, mapRange, if_pos (by omega), Nat.sub_self, Nat.zero_mul, Nat.add_zero]
  · rw [update_of_ne h, mapRange, if_neg (by omega)]

theorem mapRange_step (e : Nat → Nat) (v n pa perm : Nat) :
    mapRange (update e v (leafPte pa perm)) (v + 1) n (pa + PGSIZE) perm =
      mapRange e v (n + 1) pa perm := by
  funext u
  by_cases h : u = v
  · subst h
    rw [mapRange, if_neg (by omega), update_self, mapRange, if_pos (by omega), Nat.sub_self,
      Nat.zero_mul, Nat.add_zero]
  · simp only [mapRange, update_of_ne h]
    by_cases hr : v + 1 ≤ u ∧ u < v + 1 + n
    · have hpa : pa + PGSIZE + (u - (v + 1)) * PGSIZE = pa + (u - v) * PGSIZE := by
        obtain ⟨k, rfl⟩ : ∃ k, u = v + 1 + k := ⟨u - (v + 1), by omega⟩
        simp only [PGSIZE]
        omega
      rw [if_pos hr, if_pos (by omega), hpa]
    · rw [if_neg hr, if_neg (by omega)]

/-! ## `mappages` -/

/-- How many page-table pages `mappages` may need for `n` pages from page `v`: two for every block
of 512 pages that it enters, none for the first block if its leaf table is there. -/
def tableNeed (s : Mem) (t v n : Nat) : Nat :=
  if n = 0 then 0
  else 2 * ((v + n - 1) / 512 - v / 512) + if s.leafTable 2 t v = none then 2 else 0

/-- `mappages` on `n` pages from page `v` gave `r`. -/
def Mapped (s : Mem) (t : Nat) (T : Multiset Nat) (e : Nat → Nat) (v n pa perm : Nat) (r : Int)
    (s' : Mem) : Prop :=
  ∃ T' j, Moves s T s' T' ∧ PageTable s' t T' (mapRange e v j pa perm) ∧
    (r = 0 ∧ j = n ∧ (0 < n → (v + n) * PGSIZE ≤ MAXVA) ∨
      r = -1 ∧ j < n ∧ s'.freelist = [] ∧ s.freelist.length < tableNeed s t v n) ∧
    s.freelist.length ≤ s'.freelist.length + tableNeed s t v n ∧ s'.freelist.length ≤ s.freelist.length

/-- What `walk` takes for page `v`. -/
theorem Walked.need {r : Option (Nat × Nat)} (hw : Walked s 2 t v r s') :
    s.freelist.length ≤ s'.freelist.length + (if s.leafTable 2 t v = none then 2 else 0) := by
  split
  · exact hw.cost
  · rename_i h
    rw [(hw.present h).1]
    omega

theorem tableNeed_step {q : Nat} (hs : s'.leafTable 2 t v = some q) :
    (if s.leafTable 2 t v = none then 2 else 0) + tableNeed s' t (v + 1) n ≤ tableNeed s t v (n + 1) := by
  by_cases hb : (v + 1) / 512 = v / 512
  · have hl : s'.leafTable 2 t (v + 1) = some q := (Mem.leafTable_block hb).trans hs
    simp only [tableNeed, hl]
    split <;> split <;> simp <;> omega
  · simp only [tableNeed]
    split <;> split <;> simp <;> (try split) <;> omega

variable {a b va : Nat}

theorem mapLoop_spec (hperm : perm < 2 ^ 10) (n : Nat) (h : PageTable s t T e)
    (ho : Owns K s T) (ha : a % PGSIZE = 0) (hend : pa + n * PGSIZE ≤ 2 ^ 64)
    (hE : (a + n * PGSIZE ≤ MAXVA ∧ ∀ u, a / PGSIZE ≤ u → u < a / PGSIZE + n →
      hasFlag (e u) PTE_V = false) ∨ ∀ s', E s') :
    wp (mapLoop t perm n a pa) (fun r s' => Mapped s t T e (a / PGSIZE) n pa perm r s') E s := by
  induction n generalizing s T e a pa with
  | zero =>
    refine ⟨T, 0, Moves.refl _ _, ?_, Or.inl ⟨rfl, rfl, by omega⟩, by omega, Nat.le_refl _⟩
    rwa [mapRange_zero]
  | succ n ih =>
    simp only [PGSIZE] at ha hend
    have hE1 : a + (n + 1) * 4096 ≤ MAXVA ∨ ∀ s', E s' := hE.imp_left And.left
    have hstep : (a + PGSIZE) / PGSIZE = a / PGSIZE + 1 := by simp only [PGSIZE]; omega
    unfold mapLoop
    refine wp_seq (walk_spec (by rwa [h.tables]) (hE1.imp_left fun hE => by omega)) ?_
    rintro r s1 ⟨hva, hw⟩
    have hv : a / PGSIZE < vpns := by simp only [MAXVA, PGSIZE, vpns] at *; omega
    have h1 := hw.pageTable h
    have hm1 := hw.moves
    rw [h.tables] at hm1
    have hneed := hw.need
    have hless := hw.less
    cases r with
    | none =>
      obtain ⟨hnil, hshort⟩ := hw.short rfl
      have habs : s.leafTable 2 t (a / PGSIZE) = none := by
        by_contra hc
        exact (hw.present hc).2 rfl
      have hle : 2 ≤ tableNeed s t (a / PGSIZE) (n + 1) := by
        simp only [tableNeed, habs]
        simp
      refine ⟨_, 0, hm1, by rwa [mapRange_zero], Or.inr ⟨rfl, by omega, hnil, by omega⟩, ?_, hless⟩
      have := hw.cost
      omega
    | some qi =>
      obtain ⟨q, i⟩ := qi
      obtain ⟨hq, rfl⟩ := hw.slot q i rfl
      rw [wp_bind, wp_gets, h1.pte_slot hv hq]
      split
      · rename_i hval
        refine hE.resolve_left (fun hc => ?_) _
        have := hc.2 (a / PGSIZE) (Nat.le_refl _) (by omega)
        rw [this] at hval
        cases hval
      · rw [wp_bind, wp_modify, ← leafPte]
        have ho1 := ho.moves hm1
        have hnd := (Multiset.nodup_add.1 ho1.nodup).1
        have hlt : leafPte pa perm < 2 ^ 64 := leafPte_lt (by omega) hperm
        have h2 := h1.set hnd hv hq hlt
        have hm2 : Moves s1 (s1.tables 2 t) (s1.setPte q (vpath (a / PGSIZE) 0) (leafPte pa perm))
          (s1.tables 2 t) := Mem.setPte_moves (h1.slot_mem hq)
        have hstep' := tableNeed_step (n := n) (s := s)
          ((h1.leaf_set hnd hq hlt (u := a / PGSIZE)).trans hq)
        rw [← hstep] at hstep'
        refine wp_mono (ih h2 (ho1.moves hm2) ?_ ?_ ?_) ?_ fun _ h => h
        · simp only [PGSIZE]; omega
        · simp only [PGSIZE]; omega
        · refine hE.imp_left fun hE => ⟨?_, fun u hu hun => ?_⟩
          · have := hE.1
            simp only [PGSIZE] at this ⊢
            omega
          · rw [hstep] at hu hun
            rw [update_of_ne (by omega)]
            exact hE.2 u (by omega) (by omega)
        · rintro r s3 ⟨T3, j, hm3, h3, hr, hcost, hless3⟩
          rw [Mem.setPte_freelist] at hr hcost hless3
          rw [hstep, mapRange_step] at h3
          refine ⟨T3, j + 1, (hm1.trans hm2).trans hm3, h3, ?_, by omega, by omega⟩
          obtain ⟨rfl, rfl, hmax⟩ | ⟨rfl, hj, hnil, hlen⟩ := hr
          · refine Or.inl ⟨rfl, rfl, fun _ => ?_⟩
            rw [hstep] at hmax
            simp only [PGSIZE, MAXVA] at hmax hva ⊢
            omega
          · exact Or.inr ⟨rfl, by omega, hnil, by omega⟩

theorem mappages_spec {size : Nat} (hperm : perm < 2 ^ 10) (h : PageTable s t T e) (ho : Owns K s T)
    (hva : va % PGSIZE = 0) (hsize : size % PGSIZE = 0) (hpos : 0 < size) (hend : pa + size ≤ 2 ^ 64)
    (hE : (va + size ≤ MAXVA ∧ ∀ u, va / PGSIZE ≤ u → u < va / PGSIZE + size / PGSIZE →
      hasFlag (e u) PTE_V = false) ∨ ∀ s', E s') :
    wp (mappages t va size pa perm)
      (fun r s' => Mapped s t T e (va / PGSIZE) (size / PGSIZE) pa perm r s') E s := by
  have hmul : size / PGSIZE * PGSIZE = size := Nat.div_mul_cancel (Nat.dvd_of_mod_eq_zero hsize)
  unfold mappages
  rw [if_neg (by omega), if_neg (by omega), if_neg (by omega)]
  refine mapLoop_spec hperm (size / PGSIZE) h ho hva ?_ ?_
  · rwa [hmul]
  · rwa [hmul]

/-- `mappages` for one page. -/
theorem mapPage_spec (hperm : perm < 2 ^ 10) (h : PageTable s t T e) (ho : Owns K s T)
    (hva : va % PGSIZE = 0) (hpa : PageAddr pa)
    (hE : (va < MAXVA ∧ hasFlag (e (va / PGSIZE)) PTE_V = false) ∨ ∀ s', E s') :
    wp (mappages t va PGSIZE pa perm) (fun r s' => ∃ T', Moves s T s' T' ∧
      (r = 0 ∧ PageTable s' t T' (update e (va / PGSIZE) (leafPte pa perm)) ∧
          va + PGSIZE ≤ MAXVA ∨
        r = -1 ∧ PageTable s' t T' e ∧ s'.freelist = [] ∧ s.leafTable 2 t (va / PGSIZE) = none ∧
          s.freelist.length < 2) ∧ s.freelist.length ≤ s'.freelist.length + 2 ∧
      s'.freelist.length ≤ s.freelist.length) E s := by
  obtain ⟨hpa1, hpa2⟩ := hpa
  refine wp_mono (mappages_spec (E := E) hperm h ho hva (by decide) (by decide) ?_ ?_) ?_
    fun _ h => h
  · simp only [PGSIZE] at hpa1 ⊢
    omega
  · refine hE.imp_left ?_
    rintro ⟨h1, h2⟩
    refine ⟨?_, fun u hu hu' => ?_⟩
    · simp only [PGSIZE, MAXVA] at *
      omega
    · rw [Nat.div_self (by decide)] at hu'
      rwa [show u = va / PGSIZE by omega]
  · rintro r s' ⟨T', j, hm, hp, hr, hc, hless⟩
    have hneed : tableNeed s t (va / PGSIZE) (PGSIZE / PGSIZE) =
        if s.leafTable 2 t (va / PGSIZE) = none then 2 else 0 := by
      rw [Nat.div_self (by decide), tableNeed, if_neg (by decide), Nat.add_sub_cancel, Nat.sub_self]
      omega
    rw [hneed] at hr hc
    rw [Nat.div_self (by decide)] at hr
    refine ⟨T', hm, ?_, ?_, hless⟩
    · obtain ⟨rfl, rfl, hmax⟩ | ⟨rfl, hj, hnil, hlen⟩ := hr
      · rw [mapRange_one] at hp
        refine Or.inl ⟨rfl, hp, ?_⟩
        simp only [PGSIZE, MAXVA] at *
        omega
      · obtain rfl : j = 0 := by omega
        rw [mapRange_zero] at hp
        split at hlen
        · rename_i hnone
          exact Or.inr ⟨rfl, hp, hnil, hnone, hlen⟩
        · omega
    · split at hc <;> omega

/-- When there was no page for a table, the slot is still missing. -/
theorem mapPage_missing (ho : Owns K s (s.tables 2 t)) (hva : va < MAXVA) :
    wp (mappages t va PGSIZE pa perm) (fun r s' => r = 0 ∨ s'.leafTable 2 t (va / PGSIZE) = none) (fun _ => True)
      s := by
  unfold mappages
  split
  · trivial
  rw [if_neg (by decide), if_neg (by decide), Nat.div_self (by decide)]
  unfold mapLoop
  refine wp_seq (walk_spec ho (Or.inl hva)) ?_
  rintro r s1 ⟨-, hw⟩
  cases r with
  | none => exact Or.inr (hw.missing rfl)
  | some qi =>
    dsimp only
    rw [wp_bind, wp_gets]
    split
    · trivial
    · exact Or.inl rfl

/-- **`kvmmap`** maps the whole range, or panics because there is no page for a table. -/
theorem kvmmap_spec {size : Nat} {P : String → Prop} {H : Prop} (hperm : perm < 2 ^ 10)
    (h : PageTable s t T e) (ho : Owns K s T) (hva : va % PGSIZE = 0) (hsize : size % PGSIZE = 0)
    (hpos : 0 < size) (hend : pa + size ≤ 2 ^ 64) (hmax : va + size ≤ MAXVA)
    (hfresh : ∀ u, va / PGSIZE ≤ u → u < va / PGSIZE + size / PGSIZE → hasFlag (e u) PTE_V = false)
    (hP : tableNeed s t (va / PGSIZE) (size / PGSIZE) ≤ s.freelist.length ∨ P "kvmmap") :
    wpm (kvmmap t va pa size perm) (fun _ s' => ∃ T', Moves s T s' T' ∧
      PageTable s' t T' (mapRange e (va / PGSIZE) (size / PGSIZE) pa perm) ∧
      s.freelist.length ≤ s'.freelist.length + tableNeed s t (va / PGSIZE) (size / PGSIZE)) P H s := by
  unfold kvmmap
  refine wpm_seq (wpm_of_wp (mappages_spec hperm h ho hva hsize hpos hend (Or.inl ⟨hmax, hfresh⟩))) ?_
  rintro r s' ⟨T', j, hm, hp, hr, hc, -⟩
  rcases hr with ⟨rfl, rfl, -⟩ | ⟨rfl, hj, hnil, hlen⟩
  · exact ⟨T', hm, hp, hc⟩
  · rw [if_pos (by decide), wpm_panicWith]
    exact hP.resolve_left (by omega)

/-! ## What is taken off the free list -/

/-- `walk` takes pages off the head of the free list only. -/
theorem walkFrom_suffix (va : Nat) (alloc : Bool) :
    wp (walkFrom va alloc n t) (fun _ s' => s'.freelist <:+ s.freelist) (fun _ => True) s := by
  induction n generalizing s t with
  | zero => exact List.suffix_rfl
  | succ n ih =>
    unfold walkFrom
    rw [wp_bind, wp_gets]
    split
    · exact ih
    · split
      · refine wp_seq kalloc_spec fun r s1 hr => ?_
        obtain ⟨rfl, -, rfl⟩ | ⟨p, rs, rfl, hs, rfl⟩ := hr
        · exact List.suffix_rfl
        · rw [hs]
          exact wp_mono ih (fun _ _ h => h.trans (List.suffix_cons p rs)) fun _ h => h
      · exact List.suffix_rfl

theorem mapLoop_suffix : wp (mapLoop t perm n a pa) (fun _ s' => s'.freelist <:+ s.freelist) (fun _ => True) s := by
  induction n generalizing s a pa with
  | zero => exact List.suffix_rfl
  | succ n ih =>
    have hwalk : wp (walk t a true) (fun _ s' => s'.freelist <:+ s.freelist) (fun _ => True) s := by
      unfold walk
      split
      · trivial
      · exact walkFrom_suffix a true
    unfold mapLoop
    refine wp_seq hwalk fun r s1 h1 => ?_
    cases r with
    | none => exact h1
    | some q =>
      rw [wp_bind, wp_gets]
      split
      · trivial
      · exact wp_mono ih (fun _ _ h => h.trans h1) fun _ h => h

theorem mappages_suffix {size : Nat} :
    wp (mappages t va size pa perm) (fun _ s' => s'.freelist <:+ s.freelist) (fun _ => True) s := by
  unfold mappages
  split
  · trivial
  · split
    · trivial
    · split
      · trivial
      · exact mapLoop_suffix

/-- Code that only takes pages off the free list keeps the ones it owns. -/
theorem Moves.le_of_suffix (hm : Moves s T s' T') (h : s'.freelist <:+ s.freelist) : T ≤ T' := by
  have hle : (↑s'.freelist : Multiset Nat) ≤ ↑s.freelist := Multiset.coe_le.2 h.sublist.subperm
  have hc := hm.conserve
  refine le_of_add_le_add_right (a := (↑s'.freelist : Multiset Nat)) ?_
  rw [hc]
  exact add_le_add_right hle T

/-! ## `uvmunmap` -/

/-- An entry that `uvmunmap` accepts. -/
def IsLeaf (pte : Nat) : Prop := hasFlag pte PTE_V = true ∧ PTE_FLAGS pte ≠ PTE_V

theorem isLeaf_of_read {w : Nat} (hV : hasFlag w PTE_V = true) (hR : hasFlag w PTE_R = true) : IsLeaf w := by
  refine ⟨hV, fun hflags => ?_⟩
  have hR' : hasFlag (PTE_FLAGS w) PTE_R = true := (hasFlag_mod (show PTE_R < 2 ^ 10 by decide)).symm.trans hR
  rw [hflags] at hR'
  exact absurd hR' (by decide)

/-- One page unmapped; `U` is the page it was mapped to when that is freed too. -/
theorem unmapPage_spec {doFree : Bool} {U : Multiset Nat} (h : PageTable s t T e)
    (ho : Owns K s (U + T)) (hU : U = if doFree then {PTE2PA (e (va / PGSIZE))} else 0)
    (hE : (va < MAXVA ∧ IsLeaf (e (va / PGSIZE))) ∨ ∀ s', E s') :
    wp (unmapPage K t va doFree) (fun _ s' => va < MAXVA ∧ IsLeaf (e (va / PGSIZE)) ∧
      Moves s (U + T) s' T ∧ PageTable s' t T (update e (va / PGSIZE) 0)) E s := by
  have key : va < MAXVA → wp (unmapPage K t va doFree) (fun _ s' => va < MAXVA ∧
      IsLeaf (e (va / PGSIZE)) ∧ Moves s (U + T) s' T ∧
      PageTable s' t T (update e (va / PGSIZE) 0)) E s := by
    intro hva
    have hv : va / PGSIZE < vpns := by simp only [MAXVA, PGSIZE, vpns] at *; omega
    have hbad : ¬ IsLeaf (e (va / PGSIZE)) → E s := fun hc => hE.resolve_left (fun h => hc h.2) s
    have hnd := (Multiset.nodup_add.1 ho.right.nodup).1
    unfold unmapPage
    rw [wp_bind, wp_walk_false hva]
    cases hq : s.leafTable 2 t (va / PGSIZE) with
    | none =>
      refine hbad fun hc => ?_
      have h0 : e (va / PGSIZE) = 0 :=
        (h.entry _ hv).symm.trans (Radix.lookup_of_leafTable_none hq)
      rw [h0] at hc
      exact absurd hc.1 (by decide)
    | some q =>
      show wp (gets _ >>= _) _ E s
      rw [wp_bind, wp_gets, h.pte_slot hv hq]
      split
      · rename_i hn
        refine hbad fun hc => ?_
        rw [hc.1] at hn
        cases hn
      · rename_i hn
        have hval : hasFlag (e (va / PGSIZE)) PTE_V = true := by simpa using hn
        split
        · rename_i hfl
          exact hbad fun hc => hc.2 hfl
        · rename_i hfl
          rw [wp_bind]
          cases doFree with
          | false =>
            subst hU
            refine ⟨hva, ⟨hval, hfl⟩, ?_, h.set hnd hv hq (by decide)⟩
            rw [if_neg (by decide), zero_add]
            exact Mem.setPte_moves (h.slot_mem hq)
          | true =>
            subst hU
            rw [if_pos rfl, if_pos rfl] at *
            refine wp_mono (kfree_spec (F := T) (by rwa [← Multiset.singleton_add])) ?_ fun _ h => h
            rintro - s1 ⟨hm, -, hpage⟩
            rw [← Multiset.singleton_add] at hm
            have hT : ∀ a ∈ T, s1.page a = s.page a := fun a ha => hpage a fun hap => by
              have := (Multiset.nodup_add.1 (Multiset.nodup_add.1 ho.nodup).1).2.2
              exact Multiset.disjoint_left.1 this (Multiset.mem_singleton.2 hap) ha
            have hq1 : s1.leafTable 2 t (va / PGSIZE) = some q :=
              (Mem.leafTable_congr (by rwa [h.tables]) _).trans hq
            have h1 := h.congr hT
            exact ⟨hva, ⟨hval, hfl⟩, hm.trans (Mem.setPte_moves (h.slot_mem hq)),
              h1.set hnd hv hq1 (by decide)⟩
  rcases Nat.lt_or_ge va MAXVA with hva | hva
  · exact key hva
  · have hErr := hE.resolve_left (by omega)
    unfold unmapPage walk
    rw [wp_bind, if_pos hva]
    exact hErr s

/-- The entries `e` without those of the pages in `[a, b)`. -/
def clearRange (e : Nat → Nat) (a b : Nat) : Nat → Nat := fun u => if a ≤ u ∧ u < b then 0 else e u

theorem clearRange_self (e : Nat → Nat) (a : Nat) : clearRange e a a = e := by
  funext u
  exact if_neg (by omega)

theorem clearRange_succ (e : Nat → Nat) (h : a ≤ b) : update (clearRange e a b) b 0 = clearRange e a (b + 1) := by
  funext u
  by_cases hu : u = b
  · subst hu
    rw [update_self, clearRange, if_pos (by omega)]
  · rw [update_of_ne hu]
    simp only [clearRange]
    by_cases hr : a ≤ u ∧ u < b
    · rw [if_pos hr, if_pos (by omega)]
    · rw [if_neg hr, if_neg (by omega)]

/-- The physical pages behind the pages `[a, b)`. -/
def leafPages (e : Nat → Nat) (a b : Nat) : Multiset Nat := ∑ u ∈ Finset.Ico a b, {PTE2PA (e u)}

theorem leafPages_self (e : Nat → Nat) (a : Nat) : leafPages e a a = 0 := by
  rw [leafPages, Finset.Ico_self, Finset.sum_empty]

theorem leafPages_top (e : Nat → Nat) (h : a ≤ b) :
    leafPages e a (b + 1) = leafPages e a b + {PTE2PA (e b)} := Finset.sum_Ico_succ_top h _

theorem leafPages_bot (e : Nat → Nat) (h : a < b) :
    leafPages e a b = {PTE2PA (e a)} + leafPages e (a + 1) b := Finset.sum_eq_sum_Ico_succ_bot h _

theorem leafPages_append (e : Nat → Nat) {c : Nat} (h : a ≤ b) (h' : b ≤ c) :
    leafPages e a b + leafPages e b c = leafPages e a c := Finset.sum_Ico_consecutive _ h h'

theorem leafPages_congr (h : ∀ u, a ≤ u → u < b → e' u = e u) : leafPages e' a b = leafPages e a b := by
  refine Finset.sum_congr rfl fun u hu => ?_
  obtain ⟨h1, h2⟩ := Finset.mem_Ico.1 hu
  rw [h u h1 h2]

theorem leafPages_card (e : Nat → Nat) (a b : Nat) : Multiset.card (leafPages e a b) = b - a := by
  rw [leafPages, Multiset.card_sum]
  simp

theorem mem_leafPages {x : Nat} : x ∈ leafPages e a b ↔ ∃ u, a ≤ u ∧ u < b ∧ PTE2PA (e u) = x := by
  simp only [leafPages, Multiset.mem_sum, Finset.mem_Ico, Multiset.mem_singleton]
  constructor
  · rintro ⟨u, ⟨h1, h2⟩, rfl⟩
    exact ⟨u, h1, h2, rfl⟩
  · rintro ⟨u, h1, h2, rfl⟩
    exact ⟨u, ⟨h1, h2⟩, rfl⟩

/-- The pages that `uvmunmap` frees. -/
def releasedPages (doFree : Bool) (e : Nat → Nat) (a b : Nat) : Multiset Nat := if doFree then leafPages e a b else 0

theorem releasedPages_self (doFree : Bool) (e : Nat → Nat) (a : Nat) : releasedPages doFree e a a = 0 := by
  cases doFree with
  | false => rfl
  | true => exact leafPages_self e a

theorem releasedPages_bot (doFree : Bool) (e : Nat → Nat) (h : a < b) :
    releasedPages doFree e a b = (if doFree then {PTE2PA (e a)} else 0) + releasedPages doFree e (a + 1) b := by
  cases doFree with
  | false => rfl
  | true => exact leafPages_bot e h

/-- **`uvmunmap`** of the pages `[a, b)`. -/
theorem uvmunmap_spec {doFree : Bool} (h : PageTable s t T e) (ho : Owns K s (releasedPages doFree e a b + T))
    (hab : a ≤ b) (hwrap : b * PGSIZE < 2 ^ 64)
    (hE : (b * PGSIZE ≤ MAXVA ∧ ∀ u, a ≤ u → u < b → IsLeaf (e u)) ∨ ∀ s', E s') :
    wp (uvmunmap K t (a * PGSIZE) (b - a) doFree) (fun _ s' => (∀ u, a ≤ u → u < b → u * PGSIZE < MAXVA ∧ IsLeaf (e u)) ∧
      Moves s (releasedPages doFree e a b + T) s' T ∧ PageTable s' t T (clearRange e a b)) E s := by
  have hcount : pagesBetween (a * PGSIZE) ((a * PGSIZE + (b - a) * PGSIZE) % 2 ^ 64) = b - a := by
    rw [← Nat.add_mul, show a + (b - a) = b by omega, Nat.mod_eq_of_lt hwrap, pagesBetween]
    simp only [PGSIZE]
    omega
  unfold uvmunmap
  rw [if_neg (by rw [Nat.mul_mod_left]; omega), hcount]
  have hinv : _ → _ → wp (loop (fun j => unmapPage K t (a * PGSIZE + j * PGSIZE) doFree) 0 (b - a)) _ E s :=
    wp_loop (fun j s' => (∀ u, a ≤ u → u < a + j → u * PGSIZE < MAXVA ∧ IsLeaf (e u)) ∧
      Moves s (releasedPages doFree e a b + T) s' (releasedPages doFree e (a + j) b + T) ∧
      PageTable s' t T (clearRange e a (a + j))) (b - a) 0
  replace hinv := hinv ?_ ?_
  · refine wp_mono hinv ?_ fun _ h => h
    rintro - s' ⟨hl, hm, h'⟩
    rw [show a + (0 + (b - a)) = b by omega] at hl hm h'
    rw [releasedPages_self, zero_add] at hm
    exact ⟨hl, hm, h'⟩
  · rintro j s1 - hj ⟨hl, hm, h1⟩
    have hdiv : (a * PGSIZE + j * PGSIZE) / PGSIZE = a + j := by
      rw [← Nat.add_mul, Nat.mul_div_cancel _ (by decide)]
    have hent : clearRange e a (a + j) (a + j) = e (a + j) := if_neg (by omega)
    rw [releasedPages_bot doFree e (show a + j < b by omega), add_assoc] at hm
    generalize hU : (if doFree then {PTE2PA (e (a + j))} else 0 : Multiset Nat) = U at hm
    have hm' := hm.congr rfl (show _ = U + T + releasedPages doFree e (a + j + 1) b by ac_rfl)
    refine wp_mono (unmapPage_spec (U := U) h1 (ho.moves hm').left ?_ ?_) ?_ fun _ h => h
    · rw [hdiv, hent, hU]
    · refine hE.imp_left ?_
      rintro ⟨h1, h2⟩
      refine ⟨?_, ?_⟩
      · simp only [PGSIZE] at h1 ⊢
        omega
      · rw [hdiv, hent]
        exact h2 _ (by omega) (by omega)
    · rintro - s2 ⟨hva, hleaf, hm2, h2⟩
      rw [hdiv, hent] at hleaf
      rw [hdiv, clearRange_succ e (by omega)] at h2
      refine ⟨fun u hu hu' => ?_, hm'.trans ((hm2.add (releasedPages doFree e (a + j + 1) b)).congr rfl (add_comm _ _)),
        h2⟩
      by_cases huj : u = a + j
      · subst huj
        exact ⟨by rwa [Nat.add_mul], hleaf⟩
      · exact hl u hu (by omega)
  · rw [Nat.add_zero, clearRange_self]
    exact ⟨fun u _ hu => by omega, Moves.refl _ _, h⟩

/-- **`uvmunmap` without freeing**, for one page. -/
theorem uvmunmap_one_spec (h : PageTable s t T e) (ho : Owns K s T) (hva : va % PGSIZE = 0)
    (hE : va < MAXVA ∧ IsLeaf (e (va / PGSIZE))) :
    wp (uvmunmap K t va 1 false) (fun _ s' => Moves s T s' T ∧
      PageTable s' t T (update e (va / PGSIZE) 0)) E s := by
  have hmul : va / PGSIZE * PGSIZE = va := Nat.div_mul_cancel (Nat.dvd_of_mod_eq_zero hva)
  have hmax : (va / PGSIZE + 1) * PGSIZE ≤ MAXVA := by
    have := hE.1
    simp only [PGSIZE, MAXVA] at *
    omega
  have ho' : Owns K s (releasedPages false e (va / PGSIZE) (va / PGSIZE + 1) + T) := ho.congr (zero_add T).symm
  have hunmap := uvmunmap_spec (E := E) h ho' (Nat.le_succ _) (Nat.lt_of_le_of_lt hmax (by decide))
    (Or.inl ⟨hmax, fun u hu hu' => by rw [show u = va / PGSIZE by omega]; exact hE.2⟩)
  rw [hmul, Nat.add_sub_cancel_left] at hunmap
  refine wp_mono hunmap ?_ fun _ h => h
  rintro - s' ⟨-, hm, h'⟩
  rw [← clearRange_succ e (Nat.le_refl _), clearRange_self] at h'
  exact ⟨hm.congr (zero_add T) rfl, h'⟩

/-- **`uvmunmap` with freeing**, for the pages `[a, b)`. -/
theorem uvmunmap_free_spec (h : PageTable s t T e) (ho : Owns K s (leafPages e a b + T))
    (hab : a ≤ b) (hmax : b * PGSIZE ≤ MAXVA) (hE : (∀ u, a ≤ u → u < b → IsLeaf (e u)) ∨ ∀ s', E s') :
    wp (uvmunmap K t (a * PGSIZE) (b - a) true) (fun _ s' => Moves s (leafPages e a b + T) s' T ∧
      PageTable s' t T (clearRange e a b)) E s :=
  wp_mono (uvmunmap_spec h ho hab (Nat.lt_of_le_of_lt hmax (by decide))
    (hE.imp_left fun hl => ⟨hmax, hl⟩)) (fun _ _ h => h.2) fun _ h => h

end Xv6
