import Xv6.Vm.Exact

/-!
# The accessed bits: `sys_pgaccess`

`sys_pgaccess` of `kernel/sysproc.c`.  It clears the accessed bit of each page as it goes along, and
returns `-1` at the first page that is not there, or when the mask cannot be stored.

* `pgaccessLoop_spec` — the loop: which pages were scanned, which bits were collected and cleared.
* `sysPgaccess_exact_iff` — the call loses no access exactly when it goes through, or fails before it
  has seen an accessed page.
-/

namespace Xv6

open Prog ByteStore Function

def PTE_A : Nat := 64

/-- `pte & ~PTE_A`. -/
def clearA (pte : Nat) : Nat := pte &&& (2 ^ 64 - 1 - PTE_A)

/-- The virtual address that iteration `i` looks up. -/
def pgaccessVa (base i : Nat) : Nat := (base + i * PGSIZE) % 2 ^ 64

/-- The loop of `sys_pgaccess` from iteration `i`, with `n` iterations to go; `none` when it returns
`-1`, else the bitmask. -/
def pgaccessLoop (pagetable sz base : Nat) : Nat → Nat → Nat → Prog Mem (Option Nat)
  | 0, _, bitmask => pure (some bitmask)
  | n + 1, i, bitmask =>
    if pgaccessVa base i ≥ sz then pure none
    else do
      match ← walk pagetable (pgaccessVa base i) false with
      | none => pure none
      | some (t, j) =>
        let pte ← gets fun s => s.pte t j
        if hasFlag pte PTE_A then do
          modify fun s => s.setPte t j (clearA pte)
          pgaccessLoop pagetable sz base n (i + 1) (bitmask ||| 2 ^ i)
        else pgaccessLoop pagetable sz base n (i + 1) bitmask

/-- `sys_pgaccess` of a process with page table `pagetable` and size `sz`, for the three arguments
that `argaddr` and `argint` fetch. -/
def sysPgaccess (pagetable sz base : Nat) (len : Int) (mask : Nat) : Prog Mem Int :=
  if len > 64 then pure (-1)
  else do
    match ← pgaccessLoop pagetable sz base len.toNat 0 0 with
    | none => pure (-1)
    | some bitmask => do
      let r ← copyout pagetable mask ((List.range 8).map fun b => UInt8.ofNat (bitmask / 256 ^ b))
      if r < 0 then pure (-1) else pure 0

variable {s s' : Mem} {t sz base i n w : Nat} {T : Multiset Nat} {e : Nat → Nat}

/-! ## The accessed bit of an entry -/

theorem hasFlag_two_pow (w i : Nat) : hasFlag w (2 ^ i) = w.testBit i := by
  rw [hasFlag, Nat.and_two_pow]
  cases w.testBit i <;> simp

theorem hasFlag_PTE_A (w : Nat) : hasFlag w PTE_A = w.testBit 6 := hasFlag_two_pow w 6

theorem testBit_clearA (hw : w < 2 ^ 64) (j : Nat) : (clearA w).testBit j = (w.testBit j && j != 6) := by
  have hmask : (2 ^ 64 - 1 - PTE_A).testBit j = (decide (j < 64) && !(2 ^ 6).testBit j) :=
    Nat.testBit_two_pow_sub_succ (show 2 ^ 6 < 2 ^ 64 by decide) j
  rw [clearA, Nat.testBit_and, hmask, Nat.testBit_two_pow]
  by_cases hj : j < 64
  · by_cases h6 : j = 6
    · simp [h6]
    · simp [hj, h6, Ne.symm h6]
  · rw [Nat.testBit_lt_two_pow (Nat.lt_of_lt_of_le hw (Nat.pow_le_pow_right (by omega) (by omega)))]
    simp

theorem clearA_of_not (hw : w < 2 ^ 64) (h : hasFlag w PTE_A = false) : clearA w = w := by
  apply Nat.eq_of_testBit_eq
  intro j
  rw [hasFlag_PTE_A] at h
  rw [testBit_clearA hw]
  by_cases h6 : j = 6
  · simp [h6, h]
  · simp [h6]

theorem hasFlag_clearA_self (hw : w < 2 ^ 64) : hasFlag (clearA w) PTE_A = false := by
  simp [hasFlag_PTE_A, testBit_clearA hw]

theorem hasFlag_clearA (hw : w < 2 ^ 64) (hi : i ≠ 6) : hasFlag (clearA w) (2 ^ i) = hasFlag w (2 ^ i) := by
  simp [hasFlag_two_pow, testBit_clearA hw, hi]

theorem writable_clearA (hw : w < 2 ^ 64) : Writable (clearA w) ↔ Writable w := by
  unfold Writable
  rw [show PTE_V = 2 ^ 0 from rfl, show PTE_U = 2 ^ 4 from rfl, show PTE_W = 2 ^ 2 from rfl,
    hasFlag_clearA hw (by decide), hasFlag_clearA hw (by decide), hasFlag_clearA hw (by decide)]

theorem PTE2PA_clearA (hw : w < 2 ^ 64) : PTE2PA (clearA w) = PTE2PA w := by
  have h : clearA w / 2 ^ 10 = w / 2 ^ 10 := by
    apply Nat.eq_of_testBit_eq
    intro j
    rw [Nat.testBit_div_two_pow, Nat.testBit_div_two_pow, testBit_clearA hw]
    simp
  rw [PTE2PA, PTE2PA, h]

theorem PageTable.entry_lt (h : PageTable s t T e) {v : Nat} (hv : v < vpns) : e v < 2 ^ 64 := by
  by_cases hne : e v = 0
  · simp [hne]
  · obtain ⟨q, -, hq⟩ := h.slot hv hne
    rw [← hq]
    exact s.pte_lt q _

/-! ## The loop -/

/-- The page number of iteration `i`. -/
def pgaccessPage (base i : Nat) : Nat := pgaccessVa base i / PGSIZE

/-- Iteration `i` does not return `-1`. -/
def Scannable (s : Mem) (t sz base i : Nat) : Prop :=
  pgaccessVa base i < sz ∧ s.leafTable 2 t (pgaccessPage base i) ≠ none

/-- The entries after the accessed bits of the first `n` pages have been cleared. -/
def unaccessed (e : Nat → Nat) (base n : Nat) : Nat → Nat := fun v =>
  if ∃ i, i < n ∧ v = pgaccessPage base i then clearA (e v) else e v

/-- The accessed bit of page `i`, as the entries `e` have it. -/
def Accessed (e : Nat → Nat) (base i : Nat) : Bool := hasFlag (e (pgaccessPage base i)) PTE_A

/-- The byte at offset `o` of page `x` belongs to the entry of one of the first `n` pages. -/
def EntryByte (s : Mem) (t base n x o : Nat) : Prop :=
  ∃ i, i < n ∧ s.leafTable 2 t (pgaccessPage base i) = some x ∧ o / 8 = vpath (pgaccessPage base i) 0

/-- What `n` iterations have done, with the bits `w` collected. -/
structure Scanned (s : Mem) (t : Nat) (T : Multiset Nat) (e : Nat → Nat) (base n w : Nat) (s' : Mem) : Prop where
  table : PageTable s' t T (unaccessed e base n)
  bits : ∀ i, w.testBit i = (decide (i < n) && Accessed e base i)
  freelist : s'.freelist = s.freelist
  leaf : ∀ u, s'.leafTable 2 t u = s.leafTable 2 t u
  frame : ∀ x (o : Fin PGSIZE), ¬ EntryByte s t base n x o.val → s'.page x o = s.page x o

/-- The pages of a call are different pages. -/
theorem pgaccessPage_ne {j : Nat} (hij : i < j) (hj : j ≤ 64) : pgaccessPage base i ≠ pgaccessPage base j := by
  simp only [pgaccessPage, pgaccessVa, PGSIZE]
  omega

theorem pgaccessPage_lt (hsz : sz ≤ MAXVA) (h : pgaccessVa base i < sz) : pgaccessPage base i < vpns := by
  simp only [pgaccessPage, PGSIZE, MAXVA, vpns] at *
  omega

theorem unaccessed_zero (e : Nat → Nat) (base : Nat) : unaccessed e base 0 = e := by
  funext v
  simp [unaccessed]

theorem unaccessed_next (hn : n ≤ 64) : unaccessed e base n (pgaccessPage base n) = e (pgaccessPage base n) := by
  apply if_neg
  rintro ⟨i, hi, heq⟩
  exact pgaccessPage_ne hi hn heq.symm

theorem unaccessed_succ (e : Nat → Nat) (base n : Nat) : update (unaccessed e base n) (pgaccessPage base n)
    (clearA (e (pgaccessPage base n))) = unaccessed e base (n + 1) := by
  funext v
  by_cases hv : v = pgaccessPage base n
  · subst hv
    rw [update_self]
    exact (if_pos ⟨n, Nat.lt_succ_self n, rfl⟩).symm
  · rw [update_of_ne hv]
    have hiff : (∃ i, i < n + 1 ∧ v = pgaccessPage base i) ↔ ∃ i, i < n ∧ v = pgaccessPage base i := by
      constructor
      · rintro ⟨i, hi, heq⟩
        have hne : i ≠ n := fun h => hv (h ▸ heq)
        exact ⟨i, by omega, heq⟩
      · rintro ⟨i, hi, heq⟩
        exact ⟨i, by omega, heq⟩
    simp only [unaccessed, hiff]

theorem Scanned.zero (h : PageTable s t T e) : Scanned s t T e base 0 0 s where
  table := by rw [unaccessed_zero]; exact h
  bits i := by simp
  freelist := rfl
  leaf _ := rfl
  frame _ _ _ := rfl

/-- An iteration over a page without the accessed bit. -/
theorem Scanned.skip (h : Scanned s t T e base n w s') (hn : n < 64) (hlt : e (pgaccessPage base n) < 2 ^ 64)
    (hA : Accessed e base n = false) : Scanned s t T e base (n + 1) w s' where
  table := by
    have hnext : unaccessed e base n _ = _ := unaccessed_next (Nat.le_of_lt hn)
    rw [← unaccessed_succ, clearA_of_not hlt hA, ← hnext, update_eq_self]
    exact h.table
  bits i := by
    rw [h.bits]
    by_cases hi : i = n
    · simp [hi, hA]
    · have hiff : i < n + 1 ↔ i < n := by omega
      simp [hiff]
  freelist := h.freelist
  leaf := h.leaf
  frame x o hout := h.frame x o fun ⟨i, hi, hb⟩ => hout ⟨i, by omega, hb⟩

/-- The bytes of an entry. -/
theorem setPte_byte {q j v x : Nat} {o : Fin PGSIZE} (h : ¬ (x = q ∧ o.val / 8 = j)) :
    (s.setPte q j v).page x o = s.page x o := by
  by_cases hx : x = q
  · subst hx
    have ho : o.val < 8 * j ∨ 8 * j + 8 ≤ o.val := by
      have : o.val / 8 ≠ j := fun hj => h ⟨rfl, hj⟩
      omega
    have hb := ByteStore.byte_writeLE_out o.val 8 (8 * j) v (s.page x) ho
    simpa [ByteStore.byte, Mem.setPte] using hb
  · exact congrFun (Mem.setPte_page_ne s j v hx) o

/-- An iteration over an accessed page. -/
theorem Scanned.clear (h : Scanned s t T e base n w s') (hnd : T.Nodup)
    (hv : pgaccessPage base n < vpns) {q : Nat} (hq : s'.leafTable 2 t (pgaccessPage base n) = some q)
    (hA : Accessed e base n = true) : Scanned s t T e base (n + 1) (w ||| 2 ^ n)
      (s'.setPte q (vpath (pgaccessPage base n) 0) (clearA (e (pgaccessPage base n)))) := by
  have hlt : clearA (e (pgaccessPage base n)) < 2 ^ 64 :=
    Nat.lt_of_le_of_lt Nat.and_le_right (by decide)
  constructor
  · rw [← unaccessed_succ]
    exact h.table.set hnd hv hq hlt
  · intro i
    rw [Nat.testBit_or, h.bits, Nat.testBit_two_pow]
    by_cases hi : i = n
    · simp [hi, hA]
    · have hiff : i < n + 1 ↔ i < n := by omega
      simp [hiff, Ne.symm hi]
  · rw [Mem.setPte_freelist, h.freelist]
  · intro u
    rw [h.table.leaf_set hnd hq hlt, h.leaf]
  · intro x o hout
    rw [setPte_byte, h.frame x o]
    · rintro ⟨i, hi, hb⟩
      exact hout ⟨i, by omega, hb⟩
    · rintro ⟨rfl, ho⟩
      rw [h.leaf] at hq
      exact hout ⟨n, Nat.lt_succ_self n, hq, ho⟩

/-- What the loop does from iteration `n` on, with `m` as its last: it stops at the first page that is
not there. -/
def ScanRun (s : Mem) (t : Nat) (T : Multiset Nat) (e : Nat → Nat) (sz base n m : Nat) (r : Option Nat)
    (s' : Mem) : Prop :=
  ∃ k w, n ≤ k ∧ Scanned s t T e base k w s' ∧ (∀ j, n ≤ j → j < k → Scannable s t sz base j) ∧
    (r = some w ∧ k = m ∨ r = none ∧ k < m ∧ ¬ Scannable s t sz base k)

theorem ScanRun.step {m : Nat} {r : Option Nat} (h : Scannable s t sz base n)
    (hrun : ScanRun s t T e sz base (n + 1) m r s') : ScanRun s t T e sz base n m r s' := by
  obtain ⟨k, w, hk, hsc, hall, hr⟩ := hrun
  refine ⟨k, w, by omega, hsc, fun j h1 h2 => ?_, hr⟩
  by_cases hj : j = n
  · exact hj ▸ h
  · exact hall j (by omega) h2

theorem pgaccessLoop_spec (hnd : T.Nodup) (hsz : sz ≤ MAXVA) (h₀ : PageTable s t T e) {s₁ : Mem} (m : Nat)
    (h : Scanned s t T e base n w s₁) (hm : n + m ≤ 64) :
    wp (pgaccessLoop t sz base m n w) (ScanRun s t T e sz base n (n + m)) (fun _ => False) s₁ := by
  induction m generalizing n w s₁ with
  | zero => exact ⟨n, w, Nat.le_refl n, h, fun j h1 h2 => by omega, Or.inl ⟨rfl, rfl⟩⟩
  | succ m ih =>
    have hstop : ¬ Scannable s t sz base n → ScanRun s t T e sz base n (n + (m + 1)) none s₁ := fun hns =>
      ⟨n, w, Nat.le_refl n, h, fun j h1 h2 => by omega, Or.inr ⟨rfl, by omega, hns⟩⟩
    unfold pgaccessLoop
    by_cases hva : pgaccessVa base n ≥ sz
    · rw [if_pos hva]
      exact hstop fun hs => absurd hs.1 (by omega)
    · rw [if_neg hva, wp_bind, wp_walk_false (by omega)]
      have hv := pgaccessPage_lt hsz (Nat.lt_of_not_le hva)
      cases hq : s₁.leafTable 2 t (pgaccessVa base n / PGSIZE) with
      | none =>
        apply hstop
        intro hs
        exact hs.2 ((h.leaf _).symm.trans hq)
      | some q =>
        have hhere : Scannable s t sz base n := by
          refine ⟨by omega, fun hnone => ?_⟩
          rw [← h.leaf, pgaccessPage, hq] at hnone
          cases hnone
        have hpte : s₁.pte q (vpath (pgaccessPage base n) 0) = e (pgaccessPage base n) :=
          (h.table.pte_slot hv hq).trans (unaccessed_next (by omega))
        -- either way one more page has been scanned
        have hnext : ∀ {w' : Nat} {s₂ : Mem}, Scanned s t T e base (n + 1) w' s₂ →
            wp (pgaccessLoop t sz base m (n + 1) w') (ScanRun s t T e sz base n (n + (m + 1)))
              (fun _ => False) s₂ := by
          intro w' s₂ h₂
          have hrun := ih h₂ (by omega)
          rw [show n + 1 + m = n + (m + 1) by omega] at hrun
          exact wp_mono hrun (fun _ _ hr => hr.step hhere) fun _ hf => hf
        show wp (gets _ >>= _) _ _ s₁
        rw [wp_bind, wp_gets, show s₁.pte q (vpath (pgaccessVa base n / PGSIZE) 0) = _ from hpte]
        by_cases hA : hasFlag (e (pgaccessPage base n)) PTE_A = true
        · rw [if_pos hA, wp_bind, wp_modify]
          exact hnext (h.clear hnd hv hq hA)
        · rw [if_neg hA]
          exact hnext (h.skip (by omega) (h₀.entry_lt hv) (Bool.eq_false_iff.2 hA))

/-! ## The call -/

/-- The word at `mask` reports the accesses of the first `n` pages, their accessed bits are clear, and
nothing else has changed. -/
structure Reported (s : Mem) (t : Nat) (T : Multiset Nat) (e : Nat → Nat) (base n mask : Nat) (s' : Mem) :
    Prop where
  table : PageTable s' t T (unaccessed e base n)
  word : ∀ i, i < 64 → (readLE (s'.userByte e) mask 8).testBit i = (decide (i < n) && Accessed e base i)
  freelist : s'.freelist = s.freelist
  frame : ∀ x (o : Fin PGSIZE), ¬ EntryByte s t base n x o.val →
    (∀ j, j < 8 → ¬ (x = PTE2PA (e ((mask + j) / PGSIZE)) ∧ o.val = (mask + j) % PGSIZE)) →
    s'.page x o = s.page x o

/-- Every access that was recorded still is. -/
def AccessesKept (t : Nat) (e : Nat → Nat) (s' : Mem) : Prop :=
  ∀ v, v < vpns → hasFlag (e v) PTE_A = true → hasFlag (s'.entry t v) PTE_A = true

/-- What `pgaccess` is for: `0` with an exact report, or `-1` with every access still recorded. -/
def PgaccessExact (s : Mem) (t : Nat) (T : Multiset Nat) (e : Nat → Nat) (sz base : Nat) (len : Int) (mask : Nat) :
    Prop :=
  wp (sysPgaccess t sz base len mask) (fun r s' =>
    r = 0 ∧ Reported s t T e base len.toNat mask s' ∨ r = -1 ∧ AccessesKept t e s') (fun _ => False) s

/-- The call goes through: all pages are there and the mask can be stored. -/
def PgaccessSucceeds (s : Mem) (t : Nat) (e : Nat → Nat) (sz base : Nat) (len : Int) (mask : Nat) : Prop :=
  (∀ i, i < len.toNat → Scannable s t sz base i) ∧ ∀ j, j < 8 → WritableAt e (mask + j)

/-- No accessed page comes before the first page that is not there. -/
def PgaccessUntouched (s : Mem) (t : Nat) (e : Nat → Nat) (sz base : Nat) (len : Int) : Prop :=
  ∀ i, i < len.toNat → (∀ j, j ≤ i → Scannable s t sz base j) → Accessed e base i = false

theorem writable_unaccessed (h : PageTable s t T e) {v : Nat} (hv : v < vpns) :
    Writable (unaccessed e base n v) ↔ Writable (e v) := by
  unfold unaccessed
  split
  · exact writable_clearA (h.entry_lt hv)
  · exact Iff.rfl

theorem PTE2PA_unaccessed (h : PageTable s t T e) {v : Nat} (hv : v < vpns) :
    PTE2PA (unaccessed e base n v) = PTE2PA (e v) := by
  unfold unaccessed
  split
  · exact PTE2PA_clearA (h.entry_lt hv)
  · rfl

theorem OwnPages.unaccessed (ho : OwnPages T e) (h : PageTable s t T e) : OwnPages T (unaccessed e base n) := by
  constructor
  · intro v w hv hw hwv hww heq
    rw [writable_unaccessed h hv] at hwv
    rw [writable_unaccessed h hw] at hww
    rw [PTE2PA_unaccessed h hv, PTE2PA_unaccessed h hw] at heq
    exact ho.inj v w hv hw hwv hww heq
  · intro v hv hwv
    rw [writable_unaccessed h hv] at hwv
    rw [PTE2PA_unaccessed h hv]
    exact ho.table v hv hwv

theorem writableAt_unaccessed (h : PageTable s t T e) {a : Nat} :
    WritableAt (unaccessed e base n) a ↔ WritableAt e a := by
  constructor
  · rintro ⟨ha, hw⟩
    have hv : a / PGSIZE < vpns := WritableAt.vpn (e := Xv6.unaccessed e base n) ⟨ha, hw⟩
    exact ⟨ha, (writable_unaccessed h hv).1 hw⟩
  · intro hw
    exact ⟨hw.1, (writable_unaccessed h hw.vpn).2 hw.2⟩

/-- The word that `copyout` has stored. -/
theorem CopiedOut.word {s₁ : Mem} {mask : Nat} {e' : Nat → Nat} (h : CopiedOut s₁ e' mask
    ((List.range 8).map fun b => UInt8.ofNat (w / 256 ^ b)) 8 s') (he : ∀ j, j < 8 →
      PTE2PA (e' ((mask + j) / PGSIZE)) = PTE2PA (e ((mask + j) / PGSIZE))) :
    readLE (s'.userByte e) mask 8 = w % 256 ^ 8 := by
  apply readLE_of_bytes
  intro j hj
  have hb := h.bytes j hj
  simp only [Mem.userByte, he j hj] at hb
  rw [Mem.userByte, hb]
  simp [List.getD, hj]

/-- What the call has done when it returns: `k` pages have been scanned. -/
inductive PgaccessRun (s : Mem) (t : Nat) (T : Multiset Nat) (e : Nat → Nat) (sz base : Nat) (len : Int)
    (mask : Nat) (s' : Mem) : Int → Prop
  | done (ok : PgaccessSucceeds s t e sz base len mask) (report : Reported s t T e base len.toNat mask s') :
      PgaccessRun s t T e sz base len mask s' 0
  | failed (k : Nat) (le : k ≤ len.toNat) (fails : ¬ PgaccessSucceeds s t e sz base len mask)
      (scanned : ∀ j, j < k → Scannable s t sz base j)
      (all : ∀ i, i < len.toNat → (∀ j, j ≤ i → Scannable s t sz base j) → i < k)
      (table : PageTable s' t T (unaccessed e base k)) : PgaccessRun s t T e sz base len mask s' (-1)

section call

variable {len : Int} {mask : Nat}

theorem sysPgaccess_spec (h : PageTable s t T e) (hnd : T.Nodup) (ho : OwnPages T e) (hsz : sz ≤ MAXVA)
    (hlen : len ≤ 64) :
    wp (sysPgaccess t sz base len mask) (fun r s' => PgaccessRun s t T e sz base len mask s' r)
      (fun _ => False) s := by
  have hzero : Scanned s t T e base 0 0 s := Scanned.zero h
  have hloop := pgaccessLoop_spec hnd hsz h len.toNat hzero (by omega)
  rw [Nat.zero_add] at hloop
  unfold sysPgaccess
  rw [if_neg (by omega)]
  apply wp_seq hloop
  rintro r s₁ ⟨k, w, -, hsc, hall, ⟨rfl, rfl⟩ | ⟨rfl, hk, hstop⟩⟩
  · have hall' : ∀ i, i < len.toNat → Scannable s t sz base i := fun i hi => hall i (Nat.zero_le i) hi
    apply wp_seq (copyout_exact hsc.table (ho.unaccessed h))
    rintro r s₂ ⟨k, hrun⟩
    have hiff := hrun.eq_zero_iff
    obtain ⟨hout, hr⟩ := hrun
    have htable := hout.pageTable (ho.unaccessed h) hsc.table
    simp only [List.length_map, List.length_range] at hr hiff
    have hwr : (∀ j, j < 8 → WritableAt e (mask + j)) ↔ r = 0 := by
      rw [hiff]
      constructor
      · intro hw a h1 h2
        have hwa := hw (a - mask) (by omega)
        rw [show mask + (a - mask) = a by omega] at hwa
        exact (writableAt_unaccessed h).2 hwa
      · intro hw j hj
        exact (writableAt_unaccessed h).1 (hw (mask + j) (by omega) (by omega))
    obtain ⟨rfl, rfl⟩ | ⟨rfl, -⟩ := hr
    · have hw := hwr.2 rfl
      have hpa : ∀ j, j < 8 → PTE2PA (unaccessed e base len.toNat ((mask + j) / PGSIZE)) =
          PTE2PA (e ((mask + j) / PGSIZE)) := fun j hj => PTE2PA_unaccessed h (hw j hj).vpn
      refine .done ⟨hall', hw⟩ ⟨htable, fun i hi => ?_, hout.freelist.trans hsc.freelist, fun x o h1 h2 => ?_⟩
      · rw [hout.word hpa, show 256 ^ 8 = 2 ^ 64 from rfl, Nat.testBit_mod_two_pow, hsc.bits]
        simp [hi]
      · rw [hout.frame x o fun j hj hb => h2 j hj (by rwa [hpa j hj] at hb)]
        exact hsc.frame x o h1
    · refine .failed len.toNat (Nat.le_refl _) (fun hok => ?_) hall' (fun i hi _ => hi) htable
      exact absurd (hwr.1 hok.2) (by decide)
  · refine .failed k (Nat.le_of_lt hk) (fun hok => hstop (hok.1 k hk)) (fun j hj => hall j (Nat.zero_le j) hj)
      (fun i _ hi => ?_) hsc.table
    by_contra hle
    exact hstop (hi k (by omega))

/-- A failing call that has cleared a bit has lost an access. -/
theorem PgaccessRun.loses {k : Nat} (h : PageTable s t T e) (hsz : sz ≤ MAXVA)
    (ht : PageTable s' t T (unaccessed e base k)) (hs : Scannable s t sz base i) (hi : i < k)
    (hA : Accessed e base i = true) : ¬ AccessesKept t e s' := by
  intro hkept
  have hv := pgaccessPage_lt hsz hs.1
  have hstill := hkept _ hv hA
  rw [ht.entry _ hv, unaccessed, if_pos ⟨i, hi, rfl⟩, hasFlag_clearA_self (h.entry_lt hv)] at hstill
  cases hstill

/-- A failing call that has seen no accessed page has changed no entry. -/
theorem PgaccessRun.keeps {k : Nat} (h : PageTable s t T e) (ht : PageTable s' t T (unaccessed e base k))
    (hA : ∀ j, j < k → Accessed e base j = false) : AccessesKept t e s' := by
  intro v hv hf
  rw [ht.entry v hv, unaccessed]
  split
  · rename_i hex
    obtain ⟨i, hi, rfl⟩ := hex
    rw [clearA_of_not (h.entry_lt hv) (hA i hi)]
    exact hf
  · exact hf

theorem pgaccess_loses (h : PageTable s t T e) (hnd : T.Nodup) (ho : OwnPages T e) (hsz : sz ≤ MAXVA)
    (hlen : len ≤ 64) (hfail : ¬ PgaccessSucceeds s t e sz base len mask)
    (htouch : ¬ PgaccessUntouched s t e sz base len) : ¬ PgaccessExact s t T e sz base len mask := by
  intro hexact
  obtain ⟨r, s', hrun, hpost⟩ := wp_total hexact
  have hspec : wp (sysPgaccess t sz base len mask) (fun r s' => PgaccessRun s t T e sz base len mask s' r) _ s :=
    sysPgaccess_spec h hnd ho hsz hlen
  have hres := wp_ok hspec hrun
  cases hres with
  | done ok => exact hfail ok
  | failed k _ _ _ all table =>
    simp only [PgaccessUntouched, not_forall, Bool.not_eq_false] at htouch
    obtain ⟨i, hi, hsc, hA⟩ := htouch
    obtain ⟨h0, -⟩ | ⟨-, hkept⟩ := hpost
    · cases h0
    · exact PgaccessRun.loses h hsz table (hsc i (Nat.le_refl i)) (all i hi hsc) hA hkept

end call

/-- A page table with one user page, whose accessed bit is set. -/
theorem onePage_accessed : ∃ s T e, PageTable s 0x80020000 T e ∧ T.Nodup ∧ OwnPages T e ∧ Writable (e 0) ∧
    hasFlag (e 0) PTE_A = true := by
  obtain ⟨s, T, e, h, hnd, ho, hw, hzero⟩ := onePage_own
  have hv : 0 < vpns := by decide
  have hlt : e 0 ||| PTE_A < 2 ^ 64 := Nat.or_lt_two_pow (h.entry_lt hv) (by decide)
  have hflag : ∀ fl, hasFlag (e 0) fl = true → hasFlag (e 0 ||| PTE_A) fl = true := by
    intro fl hfl
    simp [hasFlag_or, hfl]
  have hpa : PTE2PA (e 0 ||| PTE_A) = PTE2PA (e 0) := by
    have hdiv : (e 0 ||| PTE_A) / 2 ^ 10 = e 0 / 2 ^ 10 := by
      rw [← Nat.shiftRight_eq_div_pow, ← Nat.shiftRight_eq_div_pow, Nat.shiftRight_or_distrib]
      simp [PTE_A]
    rw [PTE2PA, PTE2PA, hdiv]
  obtain ⟨q, hq, -⟩ := h.slot hv fun h0 => by
    have := hw.1
    rw [h0] at this
    cases this
  have honly : ∀ v, Writable (update e 0 (e 0 ||| PTE_A) v) → v = 0 := by
    intro v hwv
    by_contra hne
    rw [update_of_ne hne, hzero v hne] at hwv
    exact absurd hwv.1 (by decide)
  refine ⟨_, T, _, h.set hnd hv hq hlt, hnd, ⟨?_, ?_⟩, ?_, ?_⟩
  · intro v w _ _ hwv hww _
    rw [honly v hwv, honly w hww]
  · intro v _ hwv hmem
    obtain rfl := honly v hwv
    rw [update_self, hpa] at hmem
    exact ho.table 0 hv hw hmem
  · rw [update_self]
    exact ⟨hflag _ hw.1, hflag _ hw.2.1, hflag _ hw.2.2⟩
  · rw [update_self, hasFlag_or, Bool.or_eq_true]
    exact Or.inr (by decide)

theorem scannable_first {e : Nat → Nat} (h : PageTable s 0x80020000 T e) (hw : Writable (e 0)) :
    Scannable s 0x80020000 4096 0 0 := by
  obtain ⟨q, hq, -⟩ := h.slot (v := 0) (by decide) fun h0 => by
    have := hw.1
    rw [h0] at this
    cases this
  refine ⟨by decide, fun hnone => ?_⟩
  rw [show pgaccessPage 0 0 = 0 from rfl, hq] at hnone
  cases hnone

section exact

variable {len : Int} {mask : Nat}

/-- **`sys_pgaccess` neither misses nor loses an access**, exactly when it goes through, or has not
yet seen an accessed page when it fails. -/
theorem sysPgaccess_exact_iff (h : PageTable s t T e) (hnd : T.Nodup) (ho : OwnPages T e) (hsz : sz ≤ MAXVA) :
    PgaccessExact s t T e sz base len mask ↔
      64 < len ∨ PgaccessSucceeds s t e sz base len mask ∨ PgaccessUntouched s t e sz base len := by
  constructor
  · intro hexact
    by_contra hc
    simp only [not_or, Int.not_lt] at hc
    exact pgaccess_loses h hnd ho hsz hc.1 hc.2.1 hc.2.2 hexact
  · intro hsafe
    by_cases hlen : 64 < len
    · unfold PgaccessExact sysPgaccess
      rw [if_pos hlen]
      refine Or.inr ⟨rfl, fun v hv hf => ?_⟩
      rwa [h.entry v hv]
    · apply wp_mono (sysPgaccess_spec h hnd ho hsz (by omega)) _ fun _ hf => hf
      intro r s' hres
      cases hres with
      | done _ report => exact Or.inl ⟨rfl, report⟩
      | failed k hle fails scanned _ table =>
        obtain hbig | hok | huntouched := hsafe
        · exact absurd hbig hlen
        · exact absurd hok fails
        · refine Or.inr ⟨rfl, PgaccessRun.keeps h table fun j hj => ?_⟩
          exact huntouched j (by omega) fun i hi => scanned i (by omega)

end exact

theorem sysPgaccess_onePage : ∃ s T e, PageTable s 0x80020000 T e ∧ hasFlag (e 0) PTE_A = true ∧
    PgaccessExact s 0x80020000 T e 4096 0 1 8 := by
  obtain ⟨s, T, e, h, hnd, ho, hw, hA⟩ := onePage_accessed
  refine ⟨s, T, e, h, hA, (sysPgaccess_exact_iff h hnd ho (by decide)).2 (Or.inr (Or.inl ⟨?_, ?_⟩))⟩
  · intro i hi
    obtain rfl : i = 0 := Nat.lt_one_iff.1 hi
    exact scannable_first h hw
  · intro j hj
    refine ⟨by simp only [MAXVA]; omega, ?_⟩
    rwa [show (8 + j) / PGSIZE = 0 by simp only [PGSIZE]; omega]

/-- A range that runs one page past the size: the access to its first page is forgotten. -/
theorem sysPgaccess_loses_access : ∃ s T e, PageTable s 0x80020000 T e ∧ T.Nodup ∧ OwnPages T e ∧
    ¬ PgaccessExact s 0x80020000 T e 4096 0 2 8 := by
  obtain ⟨s, T, e, h, hnd, ho, hw, hA⟩ := onePage_accessed
  refine ⟨s, T, e, h, hnd, ho, pgaccess_loses h hnd ho (by decide) (by decide) ?_ ?_⟩
  · intro hok
    exact absurd (hok.1 1 (by decide)).1 (by decide)
  · intro huntouched
    have hfirst := huntouched 0 (by decide) fun j hj => by
      obtain rfl : j = 0 := Nat.le_zero.1 hj
      exact scannable_first h hw
    rw [Accessed, show pgaccessPage 0 0 = 0 from rfl, hA] at hfirst
    cases hfirst

end Xv6
