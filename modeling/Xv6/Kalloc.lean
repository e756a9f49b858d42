import Xv6.Lib.Prog
import Xv6.Lib.ByteStore
import Xv6.Riscv

/-!
# Physical memory and the page allocator

`kernel/kalloc.c`.  Physical memory is a map from page addresses to pages.  The free list is kept
beside it: the `next` pointers live in the free pages, which nothing else may use.

* `KernelImage` — where the linker script puts the kernel.
* `Mem` — the pages and `kmem.freelist`; `kalloc`, `kfree`, `kinit`.
* `Moves s F s' F'` — from `s` to `s'` the pages owned by the running code went from `F` to `F'`:
  what is not in `F'` any more is on the free list, and no other page has changed.
-/

namespace Xv6

open Prog ByteStore Function

/-- The symbols of `kernel/kernel.ld`. -/
structure KernelImage where
  etext : Nat
  endAddr : Nat
  trampoline : Nat
  etext_aligned : etext % PGSIZE = 0
  kernbase_lt : KERNBASE < etext
  etext_le : etext ≤ endAddr
  end_lt : endAddr < PHYSTOP
  trampoline_eq : trampoline + PGSIZE = etext

abbrev Page := Fin PGSIZE → UInt8

structure Mem where
  page : Nat → Page
  freelist : List Nat

namespace Mem

/-- `memset(pa, c, PGSIZE)`. -/
def fill (s : Mem) (pa : Nat) (c : UInt8) : Mem :=
  { s with page := Function.update s.page pa fun _ => c }

/-- Entry `i` of the page-table page at `t`. -/
def pte (s : Mem) (t i : Nat) : Nat := readLE (s.page t) (8 * i) 8

def setPte (s : Mem) (t i w : Nat) : Mem :=
  { s with page := Function.update s.page t (writeLE (s.page t) (8 * i) 8 w) }

/-- The page at `pa` with `bs` copied to offset `off`. -/
def setBytes (s : Mem) (pa off : Nat) (bs : List UInt8) : Mem :=
  { s with page := Function.update s.page pa fun i =>
      if off ≤ i.val then bs.getD (i.val - off) (s.page pa i) else s.page pa i }

def byte (s : Mem) (pa : Nat) : UInt8 :=
  s.page (PGROUNDDOWN pa) ⟨pa % PGSIZE, Nat.mod_lt _ (by decide)⟩

end Mem

/-- The addresses that `kfree` accepts. -/
def Managed (K : KernelImage) (pa : Nat) : Prop := pa % PGSIZE = 0 ∧ K.endAddr ≤ pa ∧ pa < PHYSTOP

instance (K : KernelImage) (pa : Nat) : Decidable (Managed K pa) :=
  inferInstanceAs (Decidable (_ ∧ _ ∧ _))

def kfree (K : KernelImage) (pa : Nat) : Prog Mem Unit :=
  if pa % PGSIZE ≠ 0 ∨ pa < K.endAddr ∨ pa ≥ PHYSTOP then panicWith "kfree"
  else modify fun s => { s.fill pa 1 with freelist := pa :: s.freelist }

/-- `none` is the null pointer. -/
def kalloc : Prog Mem (Option Nat) := do
  let s ← get
  match s.freelist with
  | [] => pure none
  | r :: rs =>
    modify fun s => { s.fill r 5 with freelist := rs }
    pure (some r)

/-- `kfree` every page of `[pa_start, pa_end)`. -/
def freerange (K : KernelImage) (paStart paEnd : Nat) : Prog Mem Unit :=
  loop (fun i => kfree K (PGROUNDUP paStart + i * PGSIZE)) 0 ((paEnd - PGROUNDUP paStart) / PGSIZE)

def kinit (K : KernelImage) : Prog Mem Unit := freerange K K.endAddr PHYSTOP

/-! ## Entries of a page-table page -/

namespace Mem

theorem pte_fill_zero (s : Mem) (t i : Nat) : (s.fill t 0).pte t i = 0 := by
  simp only [pte, fill, update_self]
  exact ByteStore.readLE_zero 8 _

theorem pte_lt (s : Mem) (t i : Nat) : s.pte t i < 2 ^ 64 := by
  have h := readLE_lt (s.page t) 8 (8 * i)
  rwa [show (256 : Nat) ^ 8 = 2 ^ 64 by decide] at h

theorem pte_of_page {s s' : Mem} {t : Nat} (h : s'.page t = s.page t) (i : Nat) :
    s'.pte t i = s.pte t i := by
  simp only [pte, h]

theorem pte_setPte {s : Mem} {t i w : Nat} (hi : i < 512) (hw : w < 2 ^ 64) :
    (s.setPte t i w).pte = Radix.setEntry s.pte t i w := by
  funext a j
  by_cases ha : a = t
  · subst ha
    simp only [pte, setPte, update_self, Radix.setEntry, true_and]
    by_cases hj : j = i
    · subst hj
      rw [if_pos rfl, readLE_writeLE _ _ _ _ fun k _ hk => show k < 4096 by omega]
      exact Nat.mod_eq_of_lt (by omega)
    · rw [if_neg hj, readLE_writeLE_disjoint _ _ _ _ _ _ (by omega)]
  · rw [Radix.setEntry_of_ne ha]
    simp only [pte, setPte, update_of_ne ha]

@[simp] theorem fill_freelist (s : Mem) (pa : Nat) (c : UInt8) : (s.fill pa c).freelist = s.freelist := rfl
@[simp] theorem setPte_freelist (s : Mem) (t i w : Nat) : (s.setPte t i w).freelist = s.freelist := by
  rfl
@[simp] theorem setBytes_freelist (s : Mem) (pa off : Nat) (bs : List UInt8) :
    (s.setBytes pa off bs).freelist = s.freelist := rfl

theorem fill_page_ne (s : Mem) {pa a : Nat} (c : UInt8) (h : a ≠ pa) : (s.fill pa c).page a = s.page a :=
  update_of_ne h _ _
theorem setPte_page_ne (s : Mem) {t a : Nat} (i w : Nat) (h : a ≠ t) :
    (s.setPte t i w).page a = s.page a := update_of_ne h _ _
theorem setBytes_page_ne (s : Mem) {pa a : Nat} (off : Nat) (bs : List UInt8) (h : a ≠ pa) :
    (s.setBytes pa off bs).page a = s.page a := update_of_ne h _ _

end Mem

theorem Managed.pageAddr {K : KernelImage} {pa : Nat} (h : Managed K pa) : PageAddr pa := by
  refine ⟨h.1, lt_of_lt_of_le h.2.2 ?_⟩
  decide

theorem Managed.ne_zero {K : KernelImage} {pa : Nat} (h : Managed K pa) : pa ≠ 0 := by
  obtain ⟨-, h2, -⟩ := h
  have := K.etext_le
  have := K.kernbase_lt
  simp only [KERNBASE] at this
  omega

/-! ## Ownership of pages -/

/-- The code owns the pages `F`: they are not on the free list, and `kfree` accepts them all. -/
structure Owns (K : KernelImage) (s : Mem) (F : Multiset Nat) : Prop where
  nodup : (F + ↑s.freelist).Nodup
  managed : ∀ a ∈ F + ↑s.freelist, Managed K a

/-- From `s` to `s'` the owned pages went from `F` to `F'`, and only pages of `F` or of the free
list were written. -/
structure Moves (s : Mem) (F : Multiset Nat) (s' : Mem) (F' : Multiset Nat) : Prop where
  conserve : F' + (↑s'.freelist : Multiset Nat) = F + ↑s.freelist
  frame : ∀ a, a ∉ F + (↑s.freelist : Multiset Nat) → s'.page a = s.page a

variable {K : KernelImage} {s s' s'' : Mem} {F F' F'' G : Multiset Nat}

theorem Moves.refl (s : Mem) (F : Multiset Nat) : Moves s F s F := ⟨rfl, fun _ _ => rfl⟩

theorem Moves.trans (h : Moves s F s' F') (h' : Moves s' F' s'' F'') : Moves s F s'' F'' where
  conserve := by rw [h'.conserve, h.conserve]
  frame a ha := by rw [h'.frame a (by rw [h.conserve]; exact ha), h.frame a ha]

theorem Owns.moves (ho : Owns K s F) (h : Moves s F s' F') : Owns K s' F' where
  nodup := by rw [h.conserve]; exact ho.nodup
  managed := by rw [h.conserve]; exact ho.managed

/-- **Frame rule.** -/
theorem Moves.add (h : Moves s F s' F') (G : Multiset Nat) : Moves s (F + G) s' (F' + G) where
  conserve := by rw [add_right_comm, h.conserve, add_right_comm]
  frame a ha := by
    refine h.frame a fun hm => ha ?_
    rw [add_right_comm]
    exact Multiset.mem_add.2 (Or.inl hm)

theorem Moves.congr (h : Moves s F s' F') (hF : F = G) {G' : Multiset Nat} (hF' : F' = G') :
    Moves s G s' G' := hF ▸ hF' ▸ h

theorem Owns.congr (ho : Owns K s F) (hF : F = G) : Owns K s G := hF ▸ ho

theorem Owns.left (ho : Owns K s (F + G)) : Owns K s F where
  nodup := by
    have := ho.nodup
    rw [add_right_comm] at this
    exact (Multiset.nodup_add.1 this).1
  managed a ha := ho.managed a (by
    rw [add_right_comm]
    exact Multiset.mem_add.2 (Or.inl ha))

theorem Owns.mono (ho : Owns K s F) (h : G ≤ F) : Owns K s G := by
  obtain ⟨D, rfl⟩ := Multiset.le_iff_exists_add.1 h
  exact ho.left

theorem Owns.right (ho : Owns K s (F + G)) : Owns K s G := by
  rw [add_comm] at ho
  exact ho.left

/-- A page of the frame is not touched by code that owns the rest. -/
theorem Owns.frame (ho : Owns K s (F + G)) {a : Nat} (ha : a ∈ G) :
    a ∉ F + (↑s.freelist : Multiset Nat) := by
  have := ho.nodup
  rw [add_right_comm] at this
  exact fun h => Multiset.disjoint_left.1 (Multiset.nodup_add.1 this).2.2 h ha

theorem Owns.page_eq (ho : Owns K s (F + G)) (h : Moves s F s' F') {a : Nat} (ha : a ∈ G) :
    s'.page a = s.page a := h.frame a (ho.frame ha)

theorem Owns.ne {p : Nat} (ho : Owns K s ({p} + G)) {a : Nat} (ha : a ∈ G) : a ≠ p := by
  rintro rfl
  exact ho.frame ha (Multiset.mem_add.2 (Or.inl (Multiset.mem_singleton_self a)))

/-- Physical memory has 32768 pages. -/
theorem Owns.card_le (ho : Owns K s F) : Multiset.card F + s.freelist.length ≤ 32768 := by
  have hsub : (F + ↑s.freelist).toFinset ⊆ (Finset.range 32768).image fun i => KERNBASE + i * PGSIZE := by
    rw [Finset.subset_iff]
    intro a ha
    obtain ⟨h1, h2, h3⟩ := ho.managed a (Multiset.mem_toFinset.1 ha)
    have h4 := Nat.le_trans K.etext_le h2
    have h5 := K.kernbase_lt
    rw [Finset.mem_image]
    rw [PHYSTOP_eq] at h3
    simp only [PGSIZE, KERNBASE] at h1 h5 ⊢
    exact ⟨(a - 2147483648) / 4096, Finset.mem_range.2 (by omega), by omega⟩
  have hcard := Finset.card_le_card hsub
  rw [Multiset.toFinset_card_of_nodup ho.nodup, Multiset.card_add, Multiset.coe_card] at hcard
  exact hcard.trans (Finset.card_image_le.trans (Finset.card_range _).le)

/-! ## The allocator -/

/-- **`kalloc`** takes the first free page, and fails when there is none. -/
theorem kalloc_spec {E : Mem → Prop} :
    wp kalloc (fun r s' => (r = none ∧ s.freelist = [] ∧ s' = s) ∨
      ∃ p rs, r = some p ∧ s.freelist = p :: rs ∧ s' = { s.fill p 5 with freelist := rs }) E s := by
  unfold kalloc
  rw [wp_bind, wp_get]
  cases hs : s.freelist with
  | nil => exact Or.inl ⟨rfl, rfl, rfl⟩
  | cons r rs => exact Or.inr ⟨r, rs, rfl, rfl, rfl⟩

/-- `kalloc` as a move of one page. -/
theorem kalloc_moves {p : Nat} {rs : List Nat} (hs : s.freelist = p :: rs) (F : Multiset Nat)
    (c : UInt8) : Moves s F { s.fill p c with freelist := rs } (p ::ₘ F) where
  conserve := by
    show p ::ₘ F + (rs : Multiset Nat) = F + ↑s.freelist
    rw [hs, ← Multiset.cons_coe, Multiset.add_cons, Multiset.cons_add]
  frame a ha := by
    refine update_of_ne ?_ _ _
    rintro rfl
    exact ha (Multiset.mem_add.2 (Or.inr (by rw [hs]; exact List.mem_cons_self)))

/-- **`kfree`** of an owned page gives it back. -/
theorem kfree_spec {p : Nat} (ho : Owns K s (p ::ₘ F)) {E : Mem → Prop} :
    wp (kfree K p) (fun _ s' => Moves s (p ::ₘ F) s' F ∧ s'.freelist = p :: s.freelist ∧
      ∀ a, a ≠ p → s'.page a = s.page a) E s := by
  have hm := ho.managed p (Multiset.mem_add.2 (Or.inl (Multiset.mem_cons_self p F)))
  obtain ⟨h1, h2, h3⟩ := hm
  unfold kfree
  rw [if_neg (by omega)]
  refine ⟨⟨?_, fun a ha => ?_⟩, rfl, fun a ha => update_of_ne ha _ _⟩
  · show F + ((p :: s.freelist : List Nat) : Multiset Nat) = p ::ₘ F + ↑s.freelist
    rw [← Multiset.cons_coe, Multiset.add_cons, Multiset.cons_add]
  · refine update_of_ne ?_ _ _
    rintro rfl
    exact ha (Multiset.mem_add.2 (Or.inl (Multiset.mem_cons_self _ F)))

/-! ## A small machine -/

/-- A kernel image of 128 kilobytes. -/
def smallImage : KernelImage where
  etext := 0x80008000
  endAddr := 0x80020000
  trampoline := 0x80007000
  etext_aligned := by decide
  kernbase_lt := by decide
  etext_le := by decide
  end_lt := by decide
  trampoline_eq := by decide

/-- A memory with a few free pages. -/
def fewPages : Mem where
  page := fun _ _ => 0
  freelist := (List.range 10).map fun i => 0x80020000 + i * PGSIZE

end Xv6
