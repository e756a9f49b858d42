import Xv6.Vm.Map

/-!
# Growing and shrinking user memory

* `uvmdealloc_spec` — the pages between the new and the old size are unmapped and freed.
* `uvmalloc_spec` — fresh pages are mapped up to the new size; when memory runs out, everything
  but page-table pages is given back and no entry has changed.
* `uvmcopy_spec` — the same for a copy of another address space.
* `allocLoop_exact`, `copyLoop_exact` — besides, the contents of the new pages, and that a page that
  became part of the table stays in it.
-/

namespace Xv6

open Prog Function

variable {K : KernelImage} {s s' : Mem} {t n v pa perm : Nat} {T T' F : Multiset Nat}
  {e e' : Nat → Nat} {E : Mem → Prop}

/-- The number of pages of a process of size `sz`. -/
def npages (sz : Nat) : Nat := PGROUNDUP sz / PGSIZE

theorem PGROUNDUP_npages (sz : Nat) : PGROUNDUP sz = npages sz * PGSIZE := by
  rw [npages, PGROUNDUP, Nat.mul_div_cancel _ (by decide)]

theorem npages_eq {sz : Nat} (h : sz ≤ MAXVA) : npages sz = (sz + 4095) / 4096 := by
  rw [npages, PGROUNDUP_eq (by simp only [MAXVA, PGSIZE] at *; omega), Nat.mul_div_cancel _ (by decide)]
  rfl

theorem npages_mul {v : Nat} (h : v * PGSIZE ≤ MAXVA) : npages (v * PGSIZE) = v := by
  rw [npages_eq h]
  simp only [PGSIZE]
  omega

variable {a b p w : Nat}

theorem npages_mono (hb : b ≤ MAXVA) (h : a ≤ b) : npages a ≤ npages b := by
  rw [npages_eq hb, npages_eq (by omega)]
  omega

/-! ## Shrinking -/

theorem uvmdealloc_spec {oldsz newsz : Nat} (h : PageTable s t T e)
    (ho : Owns K s (leafPages e (npages newsz) (npages oldsz) + T)) (hlt : newsz < oldsz)
    (hold : oldsz ≤ MAXVA)
    (hE : (∀ u, npages newsz ≤ u → u < npages oldsz → IsLeaf (e u)) ∨ ∀ s', E s') :
    wp (uvmdealloc K t oldsz newsz) (fun r s' => r = newsz ∧
      Moves s (leafPages e (npages newsz) (npages oldsz) + T) s' T ∧
      PageTable s' t T (clearRange e (npages newsz) (npages oldsz))) E s := by
  have hmono := npages_mono hold (Nat.le_of_lt hlt)
  unfold uvmdealloc
  rw [if_neg (by omega), wp_bind, PGROUNDUP_npages, PGROUNDUP_npages, ← Nat.sub_mul,
    Nat.mul_div_cancel _ (by decide)]
  split
  · refine wp_mono (uvmunmap_free_spec h ho hmono ?_ hE) ?_ fun _ h => h
    · rw [npages_eq hold]
      simp only [MAXVA, PGSIZE] at *
      omega
    · rintro - s' ⟨h1, h2⟩
      exact ⟨rfl, h1, h2⟩
  · rename_i hge
    have heq : npages newsz = npages oldsz := by
      simp only [PGSIZE] at hge
      omega
    rw [heq, leafPages_self, zero_add, clearRange_self]
    exact ⟨rfl, Moves.refl _ _, h⟩

/-! ## Fresh pages -/

/-- Writing an owned page. -/
theorem page_moves (hp : p ∈ F) (b : Page) : Moves s F { s with page := update s.page p b } F where
  conserve := rfl
  frame a ha := update_of_ne (by
    rintro rfl
    exact ha (Multiset.mem_add.2 (Or.inl hp))) _ _

/-- `kalloc` and then writing the page. -/
theorem alloc_moves {rs : List Nat} (hs : s.freelist = p :: rs) (b : Page) :
    Moves s 0 ⟨update (s.fill p 5).page p b, rs⟩ {p} :=
  (kalloc_moves hs 0 5).trans (page_moves (Multiset.mem_cons_self p 0) _)

/-- `e'` maps each page `u` of `[a, b)` with permissions `perm u`, and is `e` elsewhere. -/
structure Fresh (e : Nat → Nat) (a b : Nat) (perm : Nat → Nat) (e' : Nat → Nat) : Prop where
  out : ∀ u, ¬ (a ≤ u ∧ u < b) → e' u = e u
  new : ∀ u, a ≤ u → u < b → ∃ p, PageAddr p ∧ e' u = leafPte p (perm u)

theorem Fresh.refl (e : Nat → Nat) (a : Nat) (perm : Nat → Nat) : Fresh e a a perm e :=
  ⟨fun _ _ => rfl, fun u h1 h2 => by omega⟩

theorem Fresh.step {perm : Nat → Nat} (hp : PageAddr p) (hab : a < b)
    (h : Fresh (update e a (leafPte p (perm a))) (a + 1) b perm e') : Fresh e a b perm e' := by
  refine ⟨fun u hu => ?_, fun u h1 h2 => ?_⟩
  · rw [h.out u (by omega), update_of_ne (by omega)]
  · by_cases hu : u = a
    · subst hu
      exact ⟨p, hp, by rw [h.out u (by omega), update_self]⟩
    · exact h.new u (by omega) h2

theorem leafPages_update (hab : a ≤ b) (hw : PTE2PA w = p) :
    leafPages (update e b w) a (b + 1) = leafPages e a b + {p} := by
  rw [leafPages_top _ hab, update_self, hw,
    leafPages_congr fun u _ hu => update_of_ne (by omega) _ _]

theorem isLeaf_leafPte (hperm : perm < 2 ^ 10) (hR : hasFlag perm PTE_R = true) : IsLeaf (leafPte p perm) := by
  have hfl : PTE_FLAGS (leafPte p perm) = perm ||| PTE_V := PTE_FLAGS_leafPte hperm
  refine ⟨?_, fun hc => ?_⟩
  · rw [hasFlag_mod (by decide), hfl, hasFlag_or, show hasFlag PTE_V PTE_V = true by decide, Bool.or_true]
  · have h1 : hasFlag (perm ||| PTE_V) PTE_R = hasFlag PTE_V PTE_R := by rw [← hfl, hc]
    rw [hasFlag_or, hR] at h1
    exact absurd h1 (by decide)

/-- The entry of a copied page has the flags of the old one. -/
theorem PTE_FLAGS_copy (h : hasFlag w PTE_V = true) : PTE_FLAGS (leafPte p (PTE_FLAGS w)) = PTE_FLAGS w := by
  have hlt : PTE_FLAGS w < 2 ^ 10 := Nat.mod_lt _ (by decide)
  have hodd : PTE_FLAGS w % 2 = 1 := by
    have hV := (hasFlag_mod (show PTE_V < 2 ^ 10 by decide)).symm.trans h
    simp only [hasFlag, PTE_V, Nat.and_one_is_mod, bne_iff_ne] at hV
    omega
  rw [PTE_FLAGS_leafPte hlt, PTE_V]
  refine Nat.eq_of_testBit_eq fun i => ?_
  cases i with
  | zero => simp [hodd]
  | succ i => simp [Nat.testBit_or, show Nat.testBit 1 (i + 1) = false by simp [Nat.testBit_succ]]

theorem IsLeaf.copy (h : IsLeaf w) : IsLeaf (leafPte p (PTE_FLAGS w)) := by
  have hflags : PTE_FLAGS (leafPte p (PTE_FLAGS w)) = PTE_FLAGS w := PTE_FLAGS_copy h.1
  refine ⟨?_, fun hc => h.2 (hflags.symm.trans hc)⟩
  rw [hasFlag_mod (by decide), hflags]
  exact (hasFlag_mod (show PTE_V < 2 ^ 10 by decide)).symm.trans h.1

theorem clearRange_update (hv : a ≤ v) (hz : e v = 0) : clearRange (update e v w) a (v + 1) = clearRange e a v := by
  funext u
  simp only [clearRange]
  by_cases huv : u = v
  · subst huv
    rw [if_pos (by omega), if_neg (by omega), hz]
  · rw [update_of_ne huv]
    by_cases hr : a ≤ u ∧ u < v
    · rw [if_pos hr, if_pos (by omega)]
    · rw [if_neg hr, if_neg (by omega)]

/-- An address space that has been extended by the pages `[a, v)`. -/
structure Growing (K : KernelImage) (s : Mem) (t : Nat) (T : Multiset Nat) (e : Nat → Nat)
    (a v : Nat) : Prop where
  table : PageTable s t T e
  owns : Owns K s (leafPages e a v + T)
  le : a ≤ v
  leaf : ∀ u, a ≤ u → u < v → IsLeaf (e u)

section growing

variable {a p : Nat} {rs : List Nat}

/-- The page `p` comes off the free list, is filled with `b` and is mapped at page `v`. -/
theorem Growing.mapPage (g : Growing K s t T e a v) (hs : s.freelist = p :: rs) (b : Page)
    (hperm : perm < 2 ^ 10) (hL : IsLeaf (leafPte p perm)) (hva : v * PGSIZE < MAXVA) (hz : e v = 0) :
    wp (mappages t (v * PGSIZE) PGSIZE p perm) (fun r s' => PageAddr p ∧ ∃ T', T ≤ T' ∧ s'.page p = b ∧
      (∀ x ∈ leafPages e a v, s'.page x = s.page x) ∧
      (r = 0 ∧ Moves s (leafPages e a v + T) s'
            (leafPages (update e v (leafPte p perm)) a (v + 1) + T') ∧
          Growing K s' t T' (update e v (leafPte p perm)) a (v + 1) ∧ (v + 1) * PGSIZE ≤ MAXVA ∨
        r = -1 ∧ Moves s (leafPages e a v + T) s' (p ::ₘ (leafPages e a v + T')) ∧
          PageTable s' t T' e ∧ rs.length < 2) ∧
      rs.length ≤ s'.freelist.length + 2 ∧ s'.freelist.length ≤ rs.length) E
      ⟨update (s.fill p 5).page p b, rs⟩ := by
  have hdiv : v * PGSIZE / PGSIZE = v := Nat.mul_div_cancel _ (by decide)
  have hm1 := alloc_moves hs b
  have hm1' := (hm1.add (leafPages e a v + T)).congr (zero_add _) rfl
  have ho1 := g.owns.moves hm1'
  have hp : PageAddr p := (ho1.managed p (by simp)).pageAddr
  have h1 := g.table.frame (F := 0) (by rw [zero_add]; exact g.owns.right) hm1
  have hoT := ho1.congr (show _ = T + ({p} + leafPages e a v) by ac_rfl)
  refine wp_mono (wp_and (mapPage_spec hperm h1 hoT.left (Nat.mul_mod_left _ _) hp ?_) mappages_suffix) ?_
    fun _ h => h.1
  · refine Or.inl ⟨hva, ?_⟩
    rw [hdiv, hz]
    decide
  · rintro r s' ⟨⟨T', hm2, hr, hc, hl⟩, hsuf⟩
    rw [hdiv] at hr
    have hm12 : Moves s (leafPages e a v + T) s' (p ::ₘ (leafPages e a v + T')) :=
      (hm1'.congr rfl (by ac_rfl)).trans ((hm2.add ({p} + leafPages e a v)).congr rfl (by
        rw [← Multiset.singleton_add]; ac_rfl))
    have hpage : s'.page p = b := by
      rw [hoT.page_eq hm2 (Multiset.mem_add.2 (Or.inl (Multiset.mem_singleton_self p)))]
      exact update_self ..
    have hold : ∀ x ∈ leafPages e a v, s'.page x = s.page x := by
      intro x hx
      have hxp : x ≠ p := ho1.ne (Multiset.mem_add.2 (Or.inl hx))
      rw [hoT.page_eq hm2 (Multiset.mem_add.2 (Or.inr hx))]
      exact (update_of_ne hxp _ _).trans (Mem.fill_page_ne s 5 hxp)
    refine ⟨hp, T', hm2.le_of_suffix hsuf, hpage, hold, ?_, hc, hl⟩
    obtain ⟨rfl, h2, hmax⟩ | ⟨rfl, h2, -, -, hshort⟩ := hr
    · have hpages := leafPages_update (e := e) g.le (PTE2PA_leafPte hp hperm)
      have hm12' := hm12.congr rfl (show _ = leafPages (update e v (leafPte p perm)) a (v + 1) + T' by
        rw [hpages, ← Multiset.singleton_add]; ac_rfl)
      refine Or.inl ⟨rfl, hm12', ⟨h2, g.owns.moves hm12', by have := g.le; omega, fun u hu1 hu2 => ?_⟩, ?_⟩
      · by_cases huv : u = v
        · subst huv
          rw [update_self]
          exact hL
        · rw [update_of_ne huv]
          exact g.leaf u hu1 (by omega)
      · rwa [Nat.succ_mul]
    · exact Or.inr ⟨rfl, hm12, h2, hshort⟩

/-- The page that could not be mapped is freed. -/
theorem Growing.kfree (h : PageTable s t T e) (ho : Owns K s (p ::ₘ (leafPages e a v + T))) (hle : a ≤ v)
    (hleaf : ∀ u, a ≤ u → u < v → IsLeaf (e u)) :
    wp (kfree K p) (fun _ s' => Moves s (p ::ₘ (leafPages e a v + T)) s' (leafPages e a v + T) ∧
      Growing K s' t T e a v) E s := by
  refine wp_mono (kfree_spec ho) ?_ fun _ h => h
  rintro - s' ⟨hm, -, hpage⟩
  rw [← Multiset.singleton_add] at ho
  exact ⟨hm, h.congr fun x hx => hpage x (ho.ne (Multiset.mem_add.2 (Or.inr hx))),
    (ho.congr (Multiset.singleton_add _ _)).moves hm, hle, hleaf⟩

/-- The added pages are unmapped and freed again. -/
theorem Growing.unmap (g : Growing K s t T e a v) (hmax : v * PGSIZE ≤ MAXVA) :
    wp (uvmunmap K t (a * PGSIZE) (v - a) true) (fun _ s' =>
      Moves s (leafPages e a v + T) s' T ∧ PageTable s' t T (clearRange e a v)) E s :=
  uvmunmap_free_spec g.table g.owns g.le hmax (Or.inl g.leaf)

theorem Growing.dealloc (g : Growing K s t T e a v) (hmax : v * PGSIZE ≤ MAXVA) :
    wp (uvmdealloc K t (v * PGSIZE) (a * PGSIZE)) (fun _ s' =>
      Moves s (leafPages e a v + T) s' T ∧ PageTable s' t T (clearRange e a v)) E s := by
  have hle := g.le
  have h0 : npages (a * PGSIZE) = a := npages_mul (Nat.le_trans (Nat.mul_le_mul_right _ hle) hmax)
  have hv : npages (v * PGSIZE) = v := npages_mul hmax
  rcases Nat.lt_or_ge a v with hlt | hge
  · have hspec : wp (uvmdealloc K t (v * PGSIZE) (a * PGSIZE)) _ E s := uvmdealloc_spec g.table
      (by rw [h0, hv]; exact g.owns) (by simp only [PGSIZE]; omega) hmax
      (by rw [h0, hv]; exact Or.inl g.leaf)
    rw [h0, hv] at hspec
    exact wp_mono hspec (fun _ _ h => h.2) fun _ h => h
  · obtain rfl : a = v := by omega
    unfold uvmdealloc
    rw [if_pos (Nat.le_refl _), leafPages_self, zero_add, clearRange_self]
    exact ⟨Moves.refl _ _, g.table⟩

end growing

/-- The page of each `u` in `[a, b)` has the contents `c u`. -/
def Filled (s : Mem) (e : Nat → Nat) (a b : Nat) (c : Nat → Page) : Prop :=
  ∀ u, a ≤ u → u < b → s.page (PTE2PA (e u)) = c u

/-- One more page filled, the ones before it kept. -/
theorem Filled.snoc {s₁ : Mem} {c : Nat → Page} (h : Filled s e a b c)
    (hw : PTE2PA w = p) (hp : s₁.page p = c b) (hold : ∀ x ∈ leafPages e a b, s₁.page x = s.page x) :
    Filled s₁ (update e b w) a (b + 1) c := by
  intro u hu1 hu2
  by_cases hub : u = b
  · subst hub
    rw [update_self, hw, hp]
  · rw [update_of_ne hub, hold _ (mem_leafPages.2 ⟨u, hu1, by omega, rfl⟩)]
    exact h u hu1 (by omega)

/-- `uvmalloc` at page `v`, after it has mapped the pages `[v0, v)`, all of them zero. -/
theorem allocLoop_exact {xperm v0 newsz : Nat} (hx : xperm < 2 ^ 10) (n : Nat)
    (g : Growing K s t T e v0 v) (hvm : v * PGSIZE ≤ MAXVA)
    (hroom : (v + s.freelist.length) * PGSIZE ≤ MAXVA)
    (hzero : ∀ u, v ≤ u → u < v + n → u < v + s.freelist.length → e u = 0) :
    wp (allocLoop K t (v0 * PGSIZE) newsz xperm n (v * PGSIZE)) (fun r s' => ∃ T', T ≤ T' ∧
      ((∃ e', r = newsz ∧ Moves s (leafPages e v0 v + T) s' (leafPages e' v0 (v + n) + T') ∧
        PageTable s' t T' e' ∧ Fresh e v (v + n) (fun _ => PTE_R ||| PTE_U ||| xperm) e' ∧
        (Filled s e v0 v (fun _ _ => 0) → Filled s' e' v0 (v + n) (fun _ _ => 0)) ∧
        (v + n) * PGSIZE ≤ MAXVA ∧ s.freelist.length ≤ s'.freelist.length + 3 * n) ∨
      (r = 0 ∧ Moves s (leafPages e v0 v + T) s' T' ∧ PageTable s' t T' (clearRange e v0 v) ∧
        s.freelist.length < 3 * n))) E s := by
  have hperm : PTE_R ||| PTE_U ||| xperm < 2 ^ 10 := Nat.or_lt_two_pow (by decide) hx
  have hR : hasFlag (PTE_R ||| PTE_U ||| xperm) PTE_R = true := by rw [hasFlag_or, hasFlag_or]; rfl
  induction n generalizing s T e v with
  | zero => exact ⟨T, le_refl _, Or.inl ⟨e, rfl, Moves.refl _ _, g.table, Fresh.refl _ _ _, id, hvm, by omega⟩⟩
  | succ n ih =>
    unfold allocLoop
    refine wp_seq kalloc_spec fun r s1 hr => ?_
    obtain ⟨rfl, hnil, rfl⟩ | ⟨p, rs, rfl, hs, rfl⟩ := hr
    · refine wp_seq (g.dealloc hvm) ?_
      rintro - s2 ⟨hm, h2⟩
      exact ⟨T, le_refl _, Or.inr ⟨rfl, hm, h2, by rw [hnil]; exact Nat.succ_pos _⟩⟩
    · have hlen : s.freelist.length = rs.length + 1 := by rw [hs]; rfl
      have hz : e v = 0 := hzero v (Nat.le_refl _) (by omega) (by omega)
      have hva : v * PGSIZE < MAXVA := by
        rw [hlen] at hroom
        simp only [PGSIZE] at hroom ⊢
        omega
      rw [wp_bind, wp_modify]
      refine wp_seq (g.mapPage hs (fun _ => 0) hperm (isLeaf_leafPte hperm hR) hva hz) ?_
      rintro r s2 ⟨hp, T1, hT, hpage, hold, ⟨rfl, hm, g2, hmax⟩ | ⟨rfl, hm, h2, hshort⟩, hc, hl⟩
      · have hnext : v * PGSIZE + PGSIZE = (v + 1) * PGSIZE := (Nat.succ_mul v PGSIZE).symm
        rw [if_neg (by decide), hnext]
        refine wp_mono (ih g2 hmax ?_ ?_) ?_ fun _ h => h
        · exact Nat.le_trans (Nat.mul_le_mul_right _ (by omega)) hroom
        · intro u hu1 hu2 hu3
          rw [update_of_ne (by omega)]
          exact hzero u (by omega) (by omega) (by omega)
        · rw [show v + (n + 1) = v + 1 + n by omega]
          rintro r s3 ⟨T3, hT3, ⟨e3, rfl, hm3, h3, hf, hfill, hmax, hc3⟩ | ⟨rfl, hm3, h3, hc3⟩⟩
          · refine ⟨T3, hT.trans hT3, Or.inl ⟨e3, rfl, hm.trans hm3, h3, hf.step hp (by omega),
              fun h => hfill ?_, hmax, by omega⟩⟩
            exact h.snoc (PTE2PA_leafPte hp hperm) hpage hold
          · rw [clearRange_update g.le hz] at h3
            exact ⟨T3, hT.trans hT3, Or.inr ⟨rfl, hm.trans hm3, h3, by omega⟩⟩
      · rw [if_pos (by decide)]
        refine wp_seq (Growing.kfree h2 (g.owns.moves hm) g.le g.leaf) ?_
        rintro - s3 ⟨hm3, g3⟩
        refine wp_seq (g3.dealloc hvm) ?_
        rintro - s4 ⟨hm4, h4⟩
        exact ⟨T1, hT, Or.inr ⟨rfl, (hm.trans hm3).trans hm4, h4, by omega⟩⟩

/-- **`uvmalloc`**: all the pages up to the new size, or none. -/
theorem uvmalloc_spec {xperm oldsz newsz : Nat} (hx : xperm < 2 ^ 10) (h : PageTable s t T e)
    (ho : Owns K s T) (hle : oldsz ≤ newsz) (hold : npages oldsz ≤ 32768) (hold' : oldsz ≤ MAXVA)
    (hzero : ∀ u, npages oldsz ≤ u → u < 65536 → e u = 0) :
    wp (uvmalloc K t oldsz newsz xperm) (fun r s' =>
      (∃ T' e', r = newsz ∧ newsz ≤ MAXVA ∧
        Moves s T s' (leafPages e' (npages oldsz) (npages newsz) + T') ∧ PageTable s' t T' e' ∧
        Fresh e (npages oldsz) (npages newsz) (fun _ => PTE_R ||| PTE_U ||| xperm) e' ∧
        s.freelist.length ≤ s'.freelist.length + 3 * (npages newsz - npages oldsz)) ∨
      (∃ T', r = 0 ∧ Moves s T s' T' ∧ PageTable s' t T' e ∧
        (newsz ≤ MAXVA → s.freelist.length < 3 * (npages newsz - npages oldsz)))) E s := by
  have hfree := ho.card_le
  have hnum : newsz ≤ MAXVA →
      npages oldsz + pagesBetween (npages oldsz * PGSIZE) newsz = npages newsz := by
    intro hm
    rw [npages_eq hm, npages_eq hold', pagesBetween]
    simp only [PGSIZE]
    omega
  unfold uvmalloc
  rw [if_neg (by omega), PGROUNDUP_npages]
  have g : Growing K s t T e (npages oldsz) (npages oldsz) :=
    ⟨h, by rwa [leafPages_self, zero_add], Nat.le_refl _, fun u h1 h2 => by omega⟩
  refine wp_mono (allocLoop_exact hx _ g ?_ ?_ ?_) ?_ fun _ h => h
  · exact Nat.le_trans (Nat.mul_le_mul_right _ hold) (by decide)
  · exact Nat.le_trans (Nat.mul_le_mul_right _ (show _ ≤ 65536 by omega)) (by decide)
  · intro u h1 _ h2
    exact hzero u h1 (by omega)
  · rw [leafPages_self, zero_add, clearRange_self]
    rintro r s' ⟨T', -, ⟨e', rfl, hm, h', hf, -, hmax, hc⟩ | ⟨rfl, hm, h', hc⟩⟩
    · have hmv : r ≤ MAXVA := by
        refine Nat.le_trans ?_ hmax
        rw [pagesBetween]
        simp only [PGSIZE]
        omega
      rw [hnum hmv] at hm hf
      refine Or.inl ⟨T', e', rfl, hmv, hm, h', hf, ?_⟩
      have := hnum hmv
      omega
    · refine Or.inr ⟨T', rfl, hm, h', fun hmv => ?_⟩
      have := hnum hmv
      omega

/-! ## Copying an address space -/

/-- `uvmcopy` at page `i`, after it has copied the pages `[0, i)`: the copies have the contents of the
pages of the old table, if these are not written themselves. -/
theorem copyLoop_exact {t₀ i : Nat} {T₀ : Multiset Nat} {e₀ : Nat → Nat} (n : Nat)
    (g : Growing K s t T e 0 i) (h₀ : PageTable s t₀ T₀ e₀) (ho : Owns K s (leafPages e 0 i + T + T₀))
    (hzero : ∀ u, i ≤ u → u < i + n → e u = 0)
    (hsrc : ∀ u, u < i + n → IsLeaf (e₀ u))
    (hmax : (i + n) * PGSIZE ≤ MAXVA) :
    wp (copyLoop K t₀ t n i) (fun r s' => ∃ T', T ≤ T' ∧
      ((∃ e', r = 0 ∧ Moves s (leafPages e 0 i + T) s' (leafPages e' 0 (i + n) + T') ∧
        PageTable s' t T' e' ∧ Fresh e i (i + n) (fun u => PTE_FLAGS (e₀ u)) e' ∧
        ∀ c : Nat → Page, Filled s e 0 i c → Filled s e₀ i (i + n) c →
          (∀ u, i ≤ u → u < i + n → PTE2PA (e₀ u) ∉ leafPages e 0 i + T + (↑s.freelist : Multiset Nat)) →
          Filled s' e' 0 (i + n) c) ∨
      (r = -1 ∧ Moves s (leafPages e 0 i + T) s' T' ∧ PageTable s' t T' (clearRange e 0 i)))) E s := by
  have hi : i * PGSIZE ≤ MAXVA := Nat.le_trans (Nat.mul_le_mul_right _ (by omega)) hmax
  have hback : ∀ {s1 : Mem} {T1 : Multiset Nat}, Growing K s1 t T1 e 0 i →
      wp (uvmunmap K t 0 i true) (fun _ s' =>
        Moves s1 (leafPages e 0 i + T1) s' T1 ∧ PageTable s' t T1 (clearRange e 0 i)) E s1 := by
    intro s1 T1 g1
    have := g1.unmap (E := E) hi
    rwa [Nat.zero_mul, Nat.sub_zero] at this
  induction n generalizing s T e i with
  | zero => exact ⟨T, le_refl _, Or.inl ⟨e, rfl, Moves.refl _ _, g.table, Fresh.refl _ _ _, fun _ h _ _ => h⟩⟩
  | succ n ih =>
    have hva : i * PGSIZE < MAXVA := by
      simp only [PGSIZE] at hmax ⊢
      omega
    have hvpn : i < vpns := by
      simp only [PGSIZE, MAXVA, vpns] at hva ⊢
      omega
    have hL := hsrc i (by omega)
    have hV := hL.1
    have hne : e₀ i ≠ 0 := by
      intro h0
      rw [h0] at hV
      exact absurd hV (by decide)
    have hperm : PTE_FLAGS (e₀ i) < 2 ^ 10 := Nat.mod_lt _ (by decide)
    have hz : e i = 0 := hzero i (Nat.le_refl _) (by omega)
    obtain ⟨q, hq, hpte⟩ := h₀.slot hvpn hne
    unfold copyLoop
    rw [wp_bind, wp_walk_false hva, Nat.mul_div_cancel _ (by decide), hq]
    show wp (gets _ >>= _) _ E s
    rw [wp_bind, wp_gets, hpte, if_neg (by rw [hV]; decide)]
    refine wp_seq kalloc_spec fun r s1 hr => ?_
    obtain ⟨rfl, hnil, rfl⟩ | ⟨p, rs, rfl, hs, rfl⟩ := hr
    · refine wp_seq (hback g) ?_
      rintro - s2 ⟨hm, h2⟩
      exact ⟨T, le_refl _, Or.inr ⟨rfl, hm, h2⟩⟩
    · rw [wp_bind, wp_modify]
      refine wp_seq (g.mapPage hs ((s.fill p 5).page (PTE2PA (e₀ i))) hperm hL.copy hva hz) ?_
      rintro r s2 ⟨hp, T1, hT, hpage, hold, ⟨rfl, hm, g2, hmax2⟩ | ⟨rfl, hm, h2, hshort⟩, hc, hl⟩
      · have hm₀ := hm.add T₀
        rw [if_neg (by decide)]
        refine wp_mono (ih g2 (h₀.frame ho hm) (ho.moves hm₀) ?_ ?_ ?_ hmax2 ?_) ?_ fun _ h => h
        · intro u hu1 hu2
          rw [update_of_ne (by omega)]
          exact hzero u (by omega) (by omega)
        · intro u hu
          exact hsrc u (by omega)
        · exact Nat.le_trans (Nat.mul_le_mul_right _ (by omega)) hmax
        · intro s1 T1 g1
          have := g1.unmap (E := E) hmax2
          rwa [Nat.zero_mul, Nat.sub_zero] at this
        · rw [show i + (n + 1) = i + 1 + n by omega]
          rintro r s3 ⟨T3, hT3, ⟨e3, rfl, hm3, h3, hf, hfill⟩ | ⟨rfl, hm3, h3⟩⟩
          · refine ⟨T3, hT.trans hT3, Or.inl ⟨e3, rfl, hm.trans hm3, h3, hf.step hp (by omega), ?_⟩⟩
            -- the old table's page is neither the new page nor any page written so far
            intro c hnew hsrc' hout
            have hmem : p ∈ (↑s.freelist : Multiset Nat) := by rw [hs]; exact List.mem_cons_self
            have hpne : PTE2PA (e₀ i) ≠ p := fun h =>
              hout i (Nat.le_refl _) (by omega) (Multiset.mem_add.2 (Or.inr (h ▸ hmem)))
            have hcopy : s2.page p = c i := by
              rw [hpage, Mem.fill_page_ne s 5 hpne]
              exact hsrc' i (Nat.le_refl _) (by omega)
            refine hfill c (hnew.snoc (PTE2PA_leafPte hp hperm) hcopy hold) ?_ ?_
            · intro u hu1 hu2
              rw [hm.frame _ (hout u (by omega) hu2)]
              exact hsrc' u (by omega) hu2
            · intro u hu1 hu2
              rw [hm.conserve]
              exact hout u (by omega) hu2
          · rw [clearRange_update g.le hz] at h3
            exact ⟨T3, hT.trans hT3, Or.inr ⟨rfl, hm.trans hm3, h3⟩⟩
      · rw [if_pos (by decide)]
        refine wp_seq (Growing.kfree h2 (g.owns.moves hm) g.le g.leaf) ?_
        rintro - s3 ⟨hm3, g3⟩
        refine wp_seq (hback g3) ?_
        rintro - s4 ⟨hm4, h4⟩
        exact ⟨T1, hT, Or.inr ⟨rfl, (hm.trans hm3).trans hm4, h4⟩⟩

/-- **`uvmcopy`**: fresh pages with the permissions of the old ones, or none. -/
theorem uvmcopy_spec {t₀ sz : Nat} {T₀ : Multiset Nat} {e₀ : Nat → Nat} (h : PageTable s t T e)
    (h₀ : PageTable s t₀ T₀ e₀) (ho : Owns K s (T + T₀)) (hsz : sz ≤ MAXVA)
    (hzero : ∀ u, u < npages sz → e u = 0)
    (hsrc : ∀ u, u < npages sz → hasFlag (e₀ u) PTE_V = true ∧ hasFlag (e₀ u) PTE_R = true) :
    wp (uvmcopy K t₀ t sz) (fun r s' =>
      (∃ T' e', r = 0 ∧ Moves s T s' (leafPages e' 0 (npages sz) + T') ∧ PageTable s' t T' e' ∧
        Fresh e 0 (npages sz) (fun u => PTE_FLAGS (e₀ u)) e') ∨
      (∃ T', r = -1 ∧ Moves s T s' T' ∧ PageTable s' t T' e)) E s := by
  have hn : pagesBetween 0 sz = npages sz := by
    rw [npages_eq hsz, pagesBetween]
    rfl
  unfold uvmcopy
  rw [hn]
  have g : Growing K s t T e 0 0 :=
    ⟨h, by rw [leafPages_self, zero_add]; exact ho.left, Nat.le_refl _, fun u h1 h2 => by omega⟩
  have hspec := copyLoop_exact (E := E) (npages sz) g h₀ (by rwa [leafPages_self, zero_add])
    (fun u _ hu => hzero u (by omega)) (fun u hu => isLeaf_of_read (hsrc u (by omega)).1 (hsrc u (by omega)).2) (by
      rw [Nat.zero_add, npages_eq hsz]
      simp only [MAXVA, PGSIZE] at *
      omega)
  rw [leafPages_self, zero_add, Nat.zero_add, clearRange_self] at hspec
  refine wp_mono hspec ?_ fun _ h => h
  rintro r s' ⟨T', -, ⟨e', hr, hm, h', hf, -⟩ | ⟨hr, hm, h'⟩⟩
  · exact Or.inl ⟨T', e', hr, hm, h', hf⟩
  · exact Or.inr ⟨T', hr, hm, h'⟩

end Xv6
