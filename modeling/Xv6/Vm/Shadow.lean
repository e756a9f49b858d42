import Xv6.Vm.Free

/-!
# Shadow mappings and copying to user space

* `u2kvmcopy_spec` — the user entries, without `PTE_U`, are written into the kernel page table.
* `uvmclear_spec` — an entry loses `PTE_U`.
* `copyout_spec` — bytes go to writable user pages only, and `-1` means that some page on the way
  is not one.
-/

namespace Xv6

open Prog

variable {K : KernelImage} {s s' : Mem} {t n v : Nat} {T : Multiset Nat} {e : Nat → Nat}
  {E : Mem → Prop}

/-- What `u2kvmcopy` makes of a user entry. -/
def shadowPte (pte : Nat) : Nat := PA2PTE (PTE2PA pte) ||| clearU (PTE_FLAGS pte)

theorem clearU_le (w : Nat) : clearU w ≤ w := Nat.and_le_left

theorem PTE_FLAGS_lt (w : Nat) : PTE_FLAGS w < 2 ^ 10 := Nat.mod_lt _ (by decide)

theorem shadowPte_lt (w : Nat) : shadowPte w < 2 ^ 64 := by
  have h1 : PA2PTE (PTE2PA w) < 2 ^ 64 := by
    unfold PA2PTE PTE2PA
    omega
  exact Nat.or_lt_two_pow h1 (lt_of_le_of_lt (clearU_le _) (lt_trans (PTE_FLAGS_lt w) (by decide)))

/-- The kernel entries `k` with the pages `[a, b)` shadowing `e`. -/
def shadowRange (k e : Nat → Nat) (a b : Nat) : Nat → Nat := fun u =>
  if a ≤ u ∧ u < b then shadowPte (e u) else k u

theorem shadowRange_self (k e : Nat → Nat) (a : Nat) : shadowRange k e a a = k := by
  funext u
  exact if_neg (by omega)

theorem shadowRange_succ (k e : Nat → Nat) {a b : Nat} (h : a ≤ b) :
    Function.update (shadowRange k e a b) b (shadowPte (e b)) = shadowRange k e a (b + 1) := by
  funext u
  by_cases hu : u = b
  · subst hu
    rw [Function.update_self, shadowRange, if_pos (by omega)]
  · rw [Function.update_of_ne hu]
    simp only [shadowRange]
    by_cases hr : a ≤ u ∧ u < b
    · rw [if_pos hr, if_pos (by omega)]
    · rw [if_neg hr, if_neg (by omega)]

section shadow

variable {kt ut : Nat} {Tk Tu : Multiset Nat} {k : Nat → Nat} {P : String → Prop} {H : Prop}

theorem shadowPage_spec {va : Nat} (hk : PageTable s kt Tk k) (hu : PageTable s ut Tu e)
    (ho : Owns K s (Tk + Tu)) (hva : va < MAXVA) (hne : e (va / PGSIZE) ≠ 0)
    (hP : 2 ≤ s.freelist.length ∨ P "u2kvmcopy: pte walk failed") :
    wpm (shadowPage ut kt va) (fun _ s' => ∃ Tk', Moves s Tk s' Tk' ∧
      PageTable s' kt Tk' (Function.update k (va / PGSIZE) (shadowPte (e (va / PGSIZE)))) ∧
      s.freelist.length ≤ s'.freelist.length + 2) P H s := by
  have hv : va / PGSIZE < vpns := by
    simp only [MAXVA, PGSIZE, vpns] at *
    omega
  obtain ⟨q, hq, hpte⟩ := hu.slot hv hne
  unfold shadowPage
  rw [wpm_bind, wpm_walk_false hva, hq]
  refine wpm_seq (wpm_of_wp (walk_spec (by rw [hk.tables]; exact ho.left) (Or.inl hva))) ?_
  rintro r s1 ⟨-, hw⟩
  have h1 := hw.pageTable hk
  have hm1 := hw.moves
  rw [hk.tables] at hm1
  cases r with
  | none =>
    rw [wpm_panicWith]
    refine hP.resolve_left ?_
    have hshort := (hw.short rfl).2
    omega
  | some qi =>
    obtain ⟨q', i⟩ := qi
    obtain ⟨hq', rfl⟩ := hw.slot q' i rfl
    have hpte1 : s1.pte q (vpath (va / PGSIZE) 0) = e (va / PGSIZE) := by
      rw [Mem.pte_of_page (ho.page_eq hm1 (hu.slot_mem hq)), hpte]
    show wpm (gets _ >>= _) _ P H s1
    rw [wpm_bind, wpm_gets, hpte1, wpm_modify]
    have hnd := (Multiset.nodup_add.1 (ho.left.moves hm1).nodup).1
    exact ⟨_, hm1.trans (Mem.setPte_moves (h1.slot_mem hq')), h1.set hnd hv hq' (shadowPte_lt _), hw.cost⟩

/-- **`u2kvmcopy`** shadows the range, or panics because there is no page for a table. -/
theorem u2kvmcopy_spec {oldsz newsz : Nat} (hk : PageTable s kt Tk k) (hu : PageTable s ut Tu e)
    (ho : Owns K s (Tk + Tu)) (hle : oldsz ≤ newsz) (hmax : newsz ≤ MAXVA)
    (hne : ∀ u, npages oldsz ≤ u → u < npages newsz → e u ≠ 0)
    (hP : 2 * (npages newsz - npages oldsz) ≤ s.freelist.length ∨ P "u2kvmcopy: pte walk failed") :
    wpm (u2kvmcopy ut kt oldsz newsz) (fun _ s' => ∃ Tk', Moves s Tk s' Tk' ∧
      PageTable s' kt Tk' (shadowRange k e (npages oldsz) (npages newsz)) ∧
      s.freelist.length ≤ s'.freelist.length + 2 * (npages newsz - npages oldsz)) P H s := by
  have hmono := npages_mono hmax hle
  have hnum : pagesBetween (PGROUNDUP oldsz) newsz = npages newsz - npages oldsz := by
    rw [PGROUNDUP_npages, npages_eq hmax, npages_eq (by omega), pagesBetween]
    simp only [PGSIZE]
    omega
  unfold u2kvmcopy
  rw [if_neg (by omega), hnum, PGROUNDUP_npages]
  have hloop : _ → _ → wpm (loop (fun j => shadowPage ut kt (npages oldsz * PGSIZE + j * PGSIZE)) 0
      (npages newsz - npages oldsz)) _ P H s :=
    wpm_loop (fun j x => ∃ Tk', Moves s Tk x Tk' ∧
      PageTable x kt Tk' (shadowRange k e (npages oldsz) (npages oldsz + j)) ∧
      s.freelist.length ≤ x.freelist.length + 2 * j) (npages newsz - npages oldsz) 0
  replace hloop := hloop ?_ ?_
  · rwa [Nat.zero_add, show npages oldsz + (npages newsz - npages oldsz) = npages newsz by omega] at hloop
  · rintro j x - hj ⟨T1, hm1, h1, hc1⟩
    have hdiv : (npages oldsz * PGSIZE + j * PGSIZE) / PGSIZE = npages oldsz + j := by
      rw [← Nat.add_mul, Nat.mul_div_cancel _ (by decide)]
    refine wpm_mono (shadowPage_spec h1 (hu.frame ho hm1) (ho.moves (hm1.add Tu)) ?_ ?_ ?_) ?_
    · rw [npages_eq hmax, npages_eq (by omega)] at *
      simp only [PGSIZE, MAXVA] at *
      omega
    · rw [hdiv]
      exact hne _ (by omega) (by omega)
    · exact hP.imp_left fun henough => by omega
    · rintro - y ⟨T2, hm2, h2, hc2⟩
      rw [hdiv, shadowRange_succ k e (by omega)] at h2
      exact ⟨T2, hm1.trans hm2, h2, by omega⟩
  · rw [Nat.add_zero, shadowRange_self]
    exact ⟨Tk, Moves.refl _ _, hk, by omega⟩

end shadow

/-- **`uvmclear`.** -/
theorem uvmclear_spec {va : Nat} (h : PageTable s t T e) (ho : Owns K s T) (hva : va < MAXVA)
    (hE : e (va / PGSIZE) ≠ 0 ∨ ∀ s', E s') :
    wp (uvmclear t va) (fun _ s' => Moves s T s' T ∧ s'.freelist = s.freelist ∧
      PageTable s' t T (Function.update e (va / PGSIZE) (clearU (e (va / PGSIZE))))) E s := by
  have hv : va / PGSIZE < vpns := by
    simp only [MAXVA, PGSIZE, vpns] at *
    omega
  unfold uvmclear
  rw [wp_bind, wp_walk_false hva]
  cases hq : s.leafTable 2 t (va / PGSIZE) with
  | none =>
    refine hE.resolve_left (fun hc => hc ?_) s
    exact (h.entry _ hv).symm.trans (Radix.lookup_of_leafTable_none hq)
  | some q =>
    have hnd := (Multiset.nodup_add.1 ho.nodup).1
    have hpte := h.pte_slot hv hq
    have hlt : clearU (e (va / PGSIZE)) < 2 ^ 64 := by
      rw [← hpte]
      exact lt_of_le_of_lt (clearU_le _) (Mem.pte_lt _ _ _)
    show wp (modify _) _ E s
    rw [wp_modify, hpte]
    exact ⟨Mem.setPte_moves (h.slot_mem hq), rfl, h.set hnd hv hq hlt⟩

/-! ## `copyout` -/

/-- An entry that `copyout` writes through. -/
def Writable (pte : Nat) : Prop :=
  hasFlag pte PTE_V = true ∧ hasFlag pte PTE_U = true ∧ hasFlag pte PTE_W = true

theorem PGROUNDDOWN_div (a : Nat) : PGROUNDDOWN a / PGSIZE = a / PGSIZE := Nat.mul_div_cancel _ (by decide)

/-- User code may write at the address `a`. -/
def WritableAt (e : Nat → Nat) (a : Nat) : Prop := a < MAXVA ∧ Writable (e (a / PGSIZE))

theorem WritableAt.vpn {a : Nat} (h : WritableAt e a) : a / PGSIZE < vpns := by
  have := h.1
  simp only [MAXVA, PGSIZE, vpns] at *
  omega

/-- **One iteration of `copyout`**: it stops at an address that user code may not write, and otherwise copies up to the
end of the page. -/
theorem copyoutLoop_step {fuel dstva n : Nat} {src : List UInt8} {Q : Int → Mem → Prop} (h : PageTable s t T e)
    (hne : src ≠ []) (hn : n = min (PGSIZE - dstva % PGSIZE) src.length) (hstop : ¬ WritableAt e dstva → Q (-1) s)
    (hgo : WritableAt e dstva → wp (copyoutLoop t fuel (PGROUNDDOWN dstva + PGSIZE) (src.drop n)) Q E
      (s.setBytes (PTE2PA (e (dstva / PGSIZE))) (dstva % PGSIZE) (src.take n))) :
    wp (copyoutLoop t (fuel + 1) dstva src) Q E s := by
  unfold copyoutLoop
  rw [if_neg hne]
  split
  · rename_i hbig
    refine hstop fun hw => ?_
    have := hw.1
    simp only [PGROUNDDOWN, PGSIZE, MAXVA] at *
    omega
  · rename_i hsmall
    have hva : PGROUNDDOWN dstva < MAXVA := by omega
    have hdst : dstva < MAXVA := by
      simp only [PGROUNDDOWN, PGSIZE, MAXVA] at *
      omega
    have hv : dstva / PGSIZE < vpns := by
      simp only [MAXVA, PGSIZE, vpns] at *
      omega
    rw [wp_bind, wp_walk_false hva, PGROUNDDOWN_div]
    cases hq : s.leafTable 2 t (dstva / PGSIZE) with
    | none =>
      refine hstop fun hw => ?_
      have hval := hw.2.1
      rw [← h.entry _ hv, Mem.entry, Mem.entryAt, Radix.lookup_of_leafTable_none hq] at hval
      exact absurd hval (by decide)
    | some q =>
      show wp (gets _ >>= _) _ _ s
      rw [wp_bind, wp_gets, h.pte_slot hv hq]
      split
      · rename_i hc
        refine hstop fun hw => ?_
        rw [hw.2.1, hw.2.2.1, hw.2.2.2] at hc
        cases hc
      · rename_i hc
        simp only [Bool.or_eq_true, Bool.not_eq_true', not_or, Bool.not_eq_false] at hc
        have hoff : dstva - PGROUNDDOWN dstva = dstva % PGSIZE := by
          simp only [PGROUNDDOWN, PGSIZE]
          omega
        rw [wp_bind, wp_modify, hoff, ← hn]
        exact hgo ⟨hdst, hc.1.1, hc.1.2, hc.2⟩

/-- The rest begins on the next page. -/
theorem copyout_next {dstva len n : Nat} (hva : dstva < MAXVA) (hmax : dstva + len ≤ MAXVA)
    (hn : n = min (PGSIZE - dstva % PGSIZE) len) :
    PGROUNDDOWN dstva + PGSIZE + (len - n) ≤ MAXVA ∧
    ∀ v, (PGROUNDDOWN dstva + PGSIZE) / PGSIZE ≤ v → v * PGSIZE < PGROUNDDOWN dstva + PGSIZE + (len - n) →
      dstva / PGSIZE ≤ v ∧ v * PGSIZE < dstva + len := by
  simp only [PGROUNDDOWN, PGSIZE, MAXVA] at *
  exact ⟨by omega, fun v h1 h2 => by omega⟩

theorem copyoutLoop_spec {U : Multiset Nat} (fuel : Nat) {dstva : Nat} {src : List UInt8}
    (h : PageTable s t T e) (ho : Owns K s (U + T))
    (hU : ∀ v, v < vpns → Writable (e v) → PTE2PA (e v) ∈ U) (hlen : src.length ≤ fuel) :
    wp (copyoutLoop t fuel dstva src) (fun r s' => Moves s U s' U ∧ s'.freelist = s.freelist ∧
      (r = 0 ∨ r = -1) ∧ (dstva + src.length ≤ MAXVA →
        (∀ v, dstva / PGSIZE ≤ v → v * PGSIZE < dstva + src.length → Writable (e v)) → r = 0)) E s := by
  induction fuel generalizing s dstva src with
  | zero => exact ⟨Moves.refl _ _, rfl, Or.inl rfl, fun _ _ => rfl⟩
  | succ fuel ih =>
    by_cases hne : src = []
    · unfold copyoutLoop
      rw [if_pos hne]
      exact ⟨Moves.refl _ _, rfl, Or.inl rfl, fun _ _ => rfl⟩
    have hpos : 0 < src.length := List.length_pos_iff.2 hne
    obtain ⟨n, hn⟩ : ∃ n, n = min (PGSIZE - dstva % PGSIZE) src.length := ⟨_, rfl⟩
    refine copyoutLoop_step h hne hn (fun hnw => ?_) fun hw => ?_
    · refine ⟨Moves.refl _ _, rfl, Or.inr rfl, fun hmax hall => absurd ⟨by omega, hall _ (Nat.le_refl _) ?_⟩ hnw⟩
      simp only [PGSIZE]
      omega
    · have hm := page_moves (s := s) (hU _ hw.vpn hw.2)
      refine wp_mono (ih (h.frame ho (hm _)) (ho.moves ((hm _).add T)) ?_) ?_ fun _ h => h
      · rw [List.length_drop]
        simp only [PGSIZE] at hn
        omega
      · rintro r s' ⟨hm', hfree, hr, hall⟩
        rw [List.length_drop] at hall
        refine ⟨(hm _).trans hm', hfree, hr, fun hmax hwr => ?_⟩
        obtain ⟨h1, h2⟩ := copyout_next hw.1 hmax hn
        exact hall h1 fun v hv1 hv2 => hwr v (h2 v hv1 hv2).1 (h2 v hv1 hv2).2

theorem copyout_spec {U : Multiset Nat} {dstva : Nat} {src : List UInt8}
    (h : PageTable s t T e) (ho : Owns K s (U + T))
    (hU : ∀ v, v < vpns → Writable (e v) → PTE2PA (e v) ∈ U) :
    wp (copyout t dstva src) (fun r s' => Moves s U s' U ∧ s'.freelist = s.freelist ∧
      (r = 0 ∨ r = -1) ∧ (dstva + src.length ≤ MAXVA →
        (∀ v, dstva / PGSIZE ≤ v → v * PGSIZE < dstva + src.length → Writable (e v)) → r = 0)) E s :=
  copyoutLoop_spec src.length h ho hU (Nat.le_refl _)

/-- **`walkaddr`** of a page that is mapped for the user. -/
theorem walkaddr_spec {va : Nat} (h : PageTable s t T e) (hva : va < MAXVA)
    (hV : hasFlag (e (va / PGSIZE)) PTE_V = true) (hU : hasFlag (e (va / PGSIZE)) PTE_U = true) :
    wp (walkaddr t va) (fun r s' => r = PTE2PA (e (va / PGSIZE)) ∧ s' = s) E s := by
  have hv : va / PGSIZE < vpns := by
    simp only [MAXVA, PGSIZE, vpns] at *
    omega
  have hne : e (va / PGSIZE) ≠ 0 := by
    intro hz
    rw [hz] at hV
    cases hV
  obtain ⟨q, hq, -⟩ := h.slot hv hne
  unfold walkaddr
  rw [if_neg (by omega), wp_bind, wp_walk_false hva, hq]
  show wp (gets _ >>= _) _ E s
  rw [wp_bind, wp_gets, h.pte_slot hv hq, hV, hU]
  exact ⟨rfl, rfl⟩

end Xv6
