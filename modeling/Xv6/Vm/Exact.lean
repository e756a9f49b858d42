import Xv6.Vm.Shadow

/-!
# `uvmalloc`, `uvmcopy` and `copyout`, exactly

What the three do to a user page table, down to the contents of the pages and the free list.

* `UserTable K s t T e n` — the page table at `t` maps exactly the user pages `[0, n)`, each to a page of
  its own; above them only the pages from `USYSCALL` on may be mapped.
* `uvmalloc_all_or_nothing` — all the pages, zeroed, or no change but for page-table pages that stay linked;
  `uvmdealloc` afterwards takes it all back.
* `uvmcopy_duplicates` — the same for a copy of an address space.
* `copyout_confined` — `copyout` succeeds exactly when user code may write the whole range; otherwise it
  stops at a page boundary, and in no case is a byte outside the range written.
-/

namespace Xv6

open Prog

variable {K : KernelImage} {s s' : Mem} {t : Nat} {T T' : Multiset Nat} {e e' : Nat → Nat}

structure UserTable (K : KernelImage) (s : Mem) (t : Nat) (T : Multiset Nat) (e : Nat → Nat) (n : Nat) :
    Prop where
  table : PageTable s t T e
  owns : Owns K s (leafPages e 0 n + T)
  leaf : ∀ u, u < n → IsLeaf (e u)
  unmapped : ∀ u, n ≤ u → u * PGSIZE < USYSCALL → e u = 0

variable {src : List UInt8} {dstva k n : Nat}

/-- Every user page is a page of its own, so there are at most as many as there is memory. -/
theorem UserTable.le_pages (h : UserTable K s t T e n) : n + Multiset.card T + s.freelist.length ≤ 32768 := by
  have hcard := h.owns.card_le
  rw [Multiset.card_add, leafPages_card, Nat.sub_zero] at hcard
  exact hcard

theorem UserTable.unmapped_low {u : Nat} (h : UserTable K s t T e n) (hn : n ≤ u) (hu : u < 65536) : e u = 0 := by
  refine h.unmapped u hn (lt_of_le_of_lt (Nat.mul_le_mul_right PGSIZE (Nat.le_of_lt hu)) ?_)
  decide

/-! ## `uvmalloc` -/

/-- `uvmalloc` has added the pages `[a, b)` with permissions `perm`. -/
structure Grown (K : KernelImage) (s : Mem) (t : Nat) (T : Multiset Nat) (e : Nat → Nat) (a b perm : Nat)
    (s' : Mem) (T' : Multiset Nat) (e' : Nat → Nat) : Prop where
  user : UserTable K s' t T' e' b
  added : Fresh e a b (fun _ => perm) e'
  zero : Filled s' e' a b (fun _ _ => 0)
  linked : T ≤ T'
  /-- The new pages and the new page-table pages were free before. -/
  free : (↑s.freelist : Multiset Nat) = leafPages e' a b + (T' - T) + ↑s'.freelist
  frame : ∀ x, x ∉ T → x ∉ s.freelist → s'.page x = s.page x

/-- `uvmalloc` has given back everything but page-table pages, which are part of the tree. -/
structure Refused (s : Mem) (t : Nat) (T : Multiset Nat) (e : Nat → Nat) (s' : Mem) (T' : Multiset Nat) :
    Prop where
  table : PageTable s' t T' e
  linked : T ≤ T'
  free : (↑s.freelist : Multiset Nat) = (T' - T) + ↑s'.freelist
  frame : ∀ x, x ∉ T → x ∉ s.freelist → s'.page x = s.page x

/-- What has moved, once the table has only grown. -/
theorem Moves.free_eq {X : Multiset Nat} (hm : Moves s T s' (X + T')) (hT : T ≤ T') :
    (↑s.freelist : Multiset Nat) = X + (T' - T) + ↑s'.freelist := by
  have hc := hm.conserve
  have hT' : T' - T + T = T' := tsub_add_cancel_of_le hT
  have hsum : X + (T' - T) + ↑s'.freelist + T = ↑s.freelist + T := by
    rw [add_comm (↑s.freelist : Multiset Nat) T, ← hc]
    nth_rewrite 2 [← hT']
    ac_rfl
  exact (add_right_cancel hsum).symm

theorem Moves.page_eq (hm : Moves s T s' T') {x : Nat} (hT : x ∉ T) (hf : x ∉ s.freelist) :
    s'.page x = s.page x :=
  hm.frame x fun h => (Multiset.mem_add.1 h).elim hT hf

/-- An extended address space. -/
theorem UserTable.extend {a b perm : Nat} (h : UserTable K s t T e a) (hab : a ≤ b)
    (hperm : perm < 2 ^ 10) (hR : hasFlag perm PTE_R = true) (hm : Moves s T s' (leafPages e' a b + T'))
    (ht : PageTable s' t T' e') (hf : Fresh e a b (fun _ => perm) e') : UserTable K s' t T' e' b := by
  have hlow : leafPages e' 0 a = leafPages e 0 a :=
    leafPages_congr fun u _ hu => hf.out u (by omega)
  have hpages : leafPages e' 0 b = leafPages e 0 a + leafPages e' a b := by
    rw [← leafPages_append e' (Nat.zero_le a) hab, hlow]
  refine ⟨ht, ?_, fun u hu => ?_, fun u hu hlt => ?_⟩
  · have ho := h.owns.moves ((hm.add (leafPages e 0 a)).congr (add_comm _ _) rfl)
    exact ho.congr (by rw [hpages]; ac_rfl)
  · rcases Nat.lt_or_ge u a with hua | hua
    · rw [hf.out u (by omega)]
      exact h.leaf u hua
    · obtain ⟨p, -, hp⟩ := hf.new u hua hu
      rw [hp]
      exact isLeaf_leafPte hperm hR
  · rw [hf.out u (by omega)]
    exact h.unmapped u (by omega) hlt

section alloc

variable {oldsz newsz xperm : Nat}

/-- The number of pages that `uvmalloc` asks for, when the new size is one it can reach. -/
theorem pagesBetween_npages (hle : oldsz ≤ newsz) (hmax : newsz ≤ MAXVA) :
    npages oldsz + pagesBetween (npages oldsz * PGSIZE) newsz = npages newsz := by
  rw [npages_eq hmax, npages_eq (hle.trans hmax), pagesBetween]
  simp only [PGSIZE]
  omega

theorem uvmalloc_grown (h : UserTable K s t T e (npages oldsz)) (hx : xperm < 2 ^ 10) (hle : oldsz ≤ newsz) :
    wp (uvmalloc K t oldsz newsz xperm) (fun r s' => ∃ T',
      (r = newsz ∧ newsz ≤ MAXVA ∧ ∃ e',
        Grown K s t T e (npages oldsz) (npages newsz) (PTE_R ||| PTE_U ||| xperm) s' T' e') ∨
      (r = 0 ∧ Refused s t T e s' T')) (fun _ => False) s := by
  have hperm : PTE_R ||| PTE_U ||| xperm < 2 ^ 10 := Nat.or_lt_two_pow (by decide) hx
  have hR : hasFlag (PTE_R ||| PTE_U ||| xperm) PTE_R = true := by rw [hasFlag_or, hasFlag_or]; rfl
  have hcard := h.le_pages
  unfold uvmalloc
  rw [if_neg (by omega), PGROUNDUP_npages]
  have g : Growing K s t T e (npages oldsz) (npages oldsz) :=
    ⟨h.table, by rw [leafPages_self, zero_add]; exact h.owns.right, Nat.le_refl _, fun u h1 h2 => by omega⟩
  refine wp_mono (allocLoop_exact hx _ g ?_ ?_ ?_) ?_ fun _ h => h
  · exact Nat.le_trans (Nat.mul_le_mul_right _ (show _ ≤ 32768 by omega)) (by decide)
  · exact Nat.le_trans (Nat.mul_le_mul_right _ (show _ ≤ 65536 by omega)) (by decide)
  · intro u h1 _ h2
    exact h.unmapped_low h1 (by omega)
  · rw [leafPages_self, zero_add, clearRange_self]
    rintro r s' ⟨T', hT, ⟨e', rfl, hm, ht, hf, hfill, hmax, -⟩ | ⟨rfl, hm, ht, -⟩⟩
    · have hreach : r ≤ MAXVA := by
        refine Nat.le_trans ?_ hmax
        rw [pagesBetween]
        simp only [PGSIZE]
        omega
      have hnum := pagesBetween_npages hle hreach
      rw [hnum] at hm hf hfill
      have hab : npages oldsz ≤ npages r := npages_mono hreach hle
      refine ⟨T', Or.inl ⟨rfl, hreach, e', h.extend hab hperm hR hm ht hf, hf, hfill fun u h1 h2 => by omega,
        hT, hm.free_eq hT, fun x => hm.page_eq⟩⟩
    · refine ⟨T', Or.inr ⟨rfl, ht, hT, ?_, fun x => hm.page_eq⟩⟩
      have hm' := hm.congr rfl (zero_add T').symm
      rw [hm'.free_eq hT, zero_add]

/-- The pages that `uvmalloc` has added are taken away again. -/
theorem Grown.dealloc {perm : Nat} (h : UserTable K s t T e (npages oldsz)) (hle : oldsz ≤ newsz)
    (hmax : newsz ≤ MAXVA) (g : Grown K s t T e (npages oldsz) (npages newsz) perm s' T' e') :
    wp (uvmdealloc K t newsz oldsz) (fun r s'' => r = oldsz ∧ PageTable s'' t T' e ∧
      (↑s''.freelist : Multiset Nat) = leafPages e' (npages oldsz) (npages newsz) + ↑s'.freelist ∧
      ∀ x, x ∉ T' → x ∉ leafPages e' (npages oldsz) (npages newsz) → x ∉ s'.freelist →
        s''.page x = s'.page x) (fun _ => False) s' := by
  have hab : npages oldsz ≤ npages newsz := npages_mono hmax hle
  have hcard := g.user.le_pages
  have hback : clearRange e' (npages oldsz) (npages newsz) = e := by
    funext u
    simp only [clearRange]
    split
    · rename_i hu
      exact (h.unmapped_low hu.1 (by omega)).symm
    · rename_i hu
      exact g.added.out u hu
  have howns : Owns K s' (leafPages e' (npages oldsz) (npages newsz) + T') := by
    have ho := g.user.owns
    rw [← leafPages_append e' (Nat.zero_le _) hab] at ho
    exact (ho.congr (add_assoc _ _ _)).right
  rcases Nat.lt_or_ge oldsz newsz with hlt | hge
  · refine wp_mono (uvmdealloc_spec g.user.table howns hlt hmax (Or.inl fun u _ hu => g.user.leaf u hu)) ?_
      fun _ h => h
    rintro r s'' ⟨rfl, hm, ht⟩
    rw [hback] at ht
    refine ⟨rfl, ht, ?_, fun x h1 h2 h3 => hm.page_eq (fun hx => (Multiset.mem_add.1 hx).elim h2 h1) h3⟩
    have hc := hm.conserve
    rw [add_right_comm, add_comm T'] at hc
    exact add_right_cancel hc
  · obtain rfl : oldsz = newsz := by omega
    unfold uvmdealloc
    rw [if_pos (Nat.le_refl _), leafPages_self, zero_add]
    rw [clearRange_self] at hback
    exact ⟨rfl, hback ▸ g.user.table, rfl, fun _ _ _ _ => rfl⟩

end alloc

/-- An empty page table at the first page after the kernel. -/
def emptyTable : Mem where
  page := fun _ _ => 0
  freelist := (List.range 9).map fun i => 0x80021000 + i * PGSIZE

theorem emptyTable_owns : Owns smallImage emptyTable {0x80020000} where
  nodup := by
    show (((0x80020000 :: emptyTable.freelist : List Nat) : Multiset Nat)).Nodup
    rw [Multiset.coe_nodup]
    decide
  managed := by
    intro a ha
    have hmem : a ∈ (0x80020000 :: emptyTable.freelist : List Nat) := ha
    have hall : ∀ x ∈ (0x80020000 :: emptyTable.freelist : List Nat), Managed smallImage x := by decide
    exact hall a hmem

theorem emptyTable_user : UserTable smallImage emptyTable 0x80020000 {0x80020000} (fun _ => 0) 0 := by
  have hempty : ∀ i, emptyTable.pte 0x80020000 i = 0 := fun i => ByteStore.readLE_zero 8 (8 * i)
  refine ⟨⟨Radix.tables_empty hempty, Radix.inner_empty hempty, fun v _ => Radix.lookup_empty hempty⟩, ?_,
    fun u hu => by omega, fun u _ _ => rfl⟩
  rw [leafPages_self, zero_add]
  exact emptyTable_owns

/-- `uvmcopy` has given the child a copy of the first `n` pages of the parent. -/
structure Copied (s : Mem) (e₀ : Nat → Nat) (t : Nat) (T : Multiset Nat) (e : Nat → Nat) (n : Nat) (s' : Mem)
    (T' : Multiset Nat) (e' : Nat → Nat) : Prop where
  child : PageTable s' t T' e'
  flags : ∀ u, u < n → PTE_FLAGS (e' u) = PTE_FLAGS (e₀ u)
  other : ∀ u, n ≤ u → e' u = e u
  bytes : ∀ u, u < n → s'.page (PTE2PA (e' u)) = s.page (PTE2PA (e₀ u))
  distinct : (leafPages e' 0 n).Nodup
  linked : T ≤ T'
  /-- The copies and the new page-table pages were free before. -/
  free : (↑s.freelist : Multiset Nat) = leafPages e' 0 n + (T' - T) + ↑s'.freelist

/-- **`uvmcopy` duplicates an address space or leaves nothing.**  `U₀` are the pages of the parent. -/
theorem uvmcopy_duplicates {t₀ sz : Nat} {T₀ U₀ : Multiset Nat} {e₀ : Nat → Nat} (h : PageTable s t T e)
    (h₀ : PageTable s t₀ T₀ e₀) (ho : Owns K s (T + (T₀ + U₀)))
    (hparent : ∀ u, u < pagesBetween 0 sz → u * PGSIZE < MAXVA ∧ IsLeaf (e₀ u) ∧ PTE2PA (e₀ u) ∈ U₀)
    (hchild : ∀ u, u < pagesBetween 0 sz → e u = 0) :
    wp (uvmcopy K t₀ t sz) (fun r s' => ∃ T',
      (r = 0 ∧ (∃ e', Copied s e₀ t T e (pagesBetween 0 sz) s' T' e') ∨ r = -1 ∧ Refused s t T e s' T') ∧
      PageTable s' t₀ T₀ e₀ ∧ ∀ x, x ∉ T → x ∉ s.freelist → s'.page x = s.page x) (fun _ => False) s := by
  have hmax : pagesBetween 0 sz * PGSIZE ≤ MAXVA := by
    rcases Nat.eq_zero_or_pos (pagesBetween 0 sz) with h0 | hpos
    · rw [h0, Nat.zero_mul]
      exact Nat.zero_le _
    · have := (hparent (pagesBetween 0 sz - 1) (by omega)).1
      simp only [PGSIZE, MAXVA] at this ⊢
      omega
  have g : Growing K s t T e 0 0 :=
    ⟨h, by rw [leafPages_self, zero_add]; exact ho.left, Nat.le_refl _, fun u h1 h2 => by omega⟩
  have hspec := copyLoop_exact (E := fun _ => False) (pagesBetween 0 sz) g h₀
    (by rw [leafPages_self, zero_add]; exact (ho.congr (add_assoc _ _ _).symm).left)
    (fun u _ hu => hchild u (by omega)) (fun u hu => (hparent u (by omega)).2.1)
    (by rw [Nat.zero_add]; exact hmax)
  rw [leafPages_self, zero_add, Nat.zero_add, clearRange_self] at hspec
  unfold uvmcopy
  refine wp_mono hspec ?_ fun _ h => h
  -- the parent's pages are neither the child's tables nor free
  have hout : ∀ x ∈ T₀ + U₀, x ∉ T + (↑s.freelist : Multiset Nat) := fun x hx => ho.frame hx
  rintro r s' ⟨T', hT, ⟨e', rfl, hm, ht, hf, hfill⟩ | ⟨rfl, hm, ht⟩⟩
  · have hflags : ∀ u, u < pagesBetween 0 sz → PTE_FLAGS (e' u) = PTE_FLAGS (e₀ u) := by
      intro u hu
      obtain ⟨p, -, hp⟩ := hf.new u (Nat.zero_le _) hu
      rw [hp]
      exact PTE_FLAGS_copy (hparent u hu).2.1.1
    have hbytes : Filled s' e' 0 (pagesBetween 0 sz) (fun u => s.page (PTE2PA (e₀ u))) := by
      refine hfill _ (fun u h1 h2 => by omega) (fun u _ _ => rfl) fun u _ hu => ?_
      exact hout _ (Multiset.mem_add.2 (Or.inr (hparent u hu).2.2))
    refine ⟨T', Or.inl ⟨rfl, e', ht, hflags, fun u hu => hf.out u (by omega), fun u hu => hbytes u (Nat.zero_le _) hu,
      ?_, hT, hm.free_eq hT⟩, ?_, fun x => hm.page_eq⟩
    · exact (Multiset.nodup_add.1 (Multiset.nodup_add.1 (ho.left.moves hm).nodup).1).1
    · exact h₀.congr fun x hx => hm.frame x (hout x (Multiset.mem_add.2 (Or.inl hx)))
  · refine ⟨T', Or.inr ⟨rfl, ht, hT, ?_, fun x => hm.page_eq⟩, ?_, fun x => hm.page_eq⟩
    · have hm' := hm.congr rfl (zero_add T').symm
      rw [hm'.free_eq hT, zero_add]
    · exact h₀.congr fun x hx => hm.frame x (hout x (Multiset.mem_add.2 (Or.inl hx)))

/-- A page table with one user page, and an empty one. -/
theorem onePage : ∃ s T₀ e₀ t, PageTable s 0x80020000 T₀ e₀ ∧ PageTable s t {t} (fun _ => 0) ∧
    Owns smallImage s ({t} + (T₀ + leafPages e₀ 0 1)) ∧ Writable (e₀ 0) ∧ IsLeaf (e₀ 0) ∧
    ∀ u, u ≠ 0 → e₀ u = 0 := by
  have hn : npages 4096 = 1 ∧ npages 0 = 0 := by decide
  have hlen : emptyTable.freelist.length = 9 := by decide
  have hgrown := @uvmalloc_grown smallImage emptyTable _ _ _ 0 4096 PTE_W emptyTable_user (by decide) (by decide)
  have hcost := uvmalloc_spec (E := fun _ => False) (show PTE_W < 2 ^ 10 by decide) emptyTable_user.table
    emptyTable_owns (show 0 ≤ 4096 by decide) (by decide) (by decide) fun u _ _ => rfl
  rw [hn.1, hn.2, hlen] at hcost
  obtain ⟨r, s₁, hok, ⟨T₀, hr⟩, hcost⟩ := wp_total (wp_mono (wp_and hgrown hcost) (fun _ _ h => h) fun _ h => h.1)
  obtain ⟨-, hmax, e₀, g⟩ | ⟨h0, -⟩ := hr
  · have hfree : s₁.freelist ≠ [] := by
      intro hnil
      rcases hcost with ⟨-, -, -, -, -, -, -, hc⟩ | ⟨-, -, -, -, hc⟩
      · rw [hnil, List.length_nil] at hc
        omega
      · have := hc hmax
        omega
    have ho := g.user.owns
    obtain ⟨p, -, hp⟩ := g.added.new 0 (by decide) (by decide)
    have hflags : ∀ fl, fl < 2 ^ 10 → hasFlag (e₀ 0) fl = hasFlag (PTE_R ||| PTE_U ||| PTE_W ||| PTE_V) fl := by
      intro fl hfl
      rw [hasFlag_mod hfl, hp, PTE_FLAGS_leafPte (by decide)]
    obtain ⟨r₂, s₂, hok₂, ⟨-, hnil, -⟩ | ⟨t, rs, -, -, -, hm, ht⟩⟩ :=
      wp_total (s := s₁) (uvmcreate_spec (E := fun _ => False))
    · exact absurd hnil hfree
    · have hm' := (hm.add (leafPages e₀ 0 1 + T₀)).congr (zero_add _) rfl
      refine ⟨s₂, T₀, e₀, t, ?_, ht, (ho.moves hm').congr (by ac_rfl), ?_, g.user.leaf 0 (by decide), ?_⟩
      · exact g.user.table.frame (F := 0) (by rw [zero_add]; exact ho.right) hm
      · exact ⟨(hflags _ (by decide)).trans (by decide), (hflags _ (by decide)).trans (by decide),
          (hflags _ (by decide)).trans (by decide)⟩
      · intro u hu
        refine g.added.out u fun hc => hu ?_
        rw [hn.1] at hc
        omega
  · rcases hcost with ⟨-, -, hr0, -⟩ | ⟨-, -, -, -, hc⟩
    · rw [h0] at hr0
      cases hr0
    · have := hc (by decide)
      omega

theorem uvmcopy_onePage : ∃ s T₀ e₀ t, IsLeaf (e₀ 0) ∧ PageTable s 0x80020000 T₀ e₀ ∧
    wp (uvmcopy smallImage 0x80020000 t 100) (fun r s' => ∃ T',
      (r = 0 ∧ (∃ e', Copied s e₀ t {t} (fun _ => 0) 1 s' T' e') ∨ r = -1 ∧ Refused s t {t} (fun _ => 0) s' T') ∧
      PageTable s' 0x80020000 T₀ e₀ ∧ ∀ x, x ∉ ({t} : Multiset Nat) → x ∉ s.freelist → s'.page x = s.page x)
      (fun _ => False) s := by
  obtain ⟨s, T₀, e₀, t, h₀, ht, ho, -, hleaf, -⟩ := onePage
  refine ⟨s, T₀, e₀, t, hleaf, h₀, ?_⟩
  refine @uvmcopy_duplicates smallImage s t {t} (fun _ => 0) 0x80020000 100 T₀ (leafPages e₀ 0 1) e₀ ht h₀ ho
    (fun u hu => ?_) fun u _ => rfl
  obtain rfl : u = 0 := by
    have h1 : pagesBetween 0 100 = 1 := by decide
    omega
  exact ⟨by decide, hleaf, mem_leafPages.2 ⟨0, Nat.le_refl _, by decide, rfl⟩⟩

/-! ## `copyout` -/

/-- The byte at the user address `a`. -/
def Mem.userByte (s : Mem) (e : Nat → Nat) (a : Nat) : UInt8 :=
  s.page (PTE2PA (e (a / PGSIZE))) ⟨a % PGSIZE, Nat.mod_lt a PGSIZE_pos⟩

/-- The pages that user code may write are pairwise distinct and not pages of the table. -/
structure OwnPages (T : Multiset Nat) (e : Nat → Nat) : Prop where
  inj : ∀ v w, v < vpns → w < vpns → Writable (e v) → Writable (e w) → PTE2PA (e v) = PTE2PA (e w) → v = w
  table : ∀ v, v < vpns → Writable (e v) → PTE2PA (e v) ∉ T

/-- The first `k` bytes of `src` have been written at `dstva`, and nothing else. -/
structure CopiedOut (s : Mem) (e : Nat → Nat) (dstva : Nat) (src : List UInt8) (k : Nat) (s' : Mem) : Prop where
  freelist : s'.freelist = s.freelist
  writable : ∀ i, i < k → WritableAt e (dstva + i)
  bytes : ∀ i, i < k → s'.userByte e (dstva + i) = src.getD i 0
  frame : ∀ x (o : Fin PGSIZE), (∀ i, i < k → ¬ (x = PTE2PA (e ((dstva + i) / PGSIZE)) ∧
    o.val = (dstva + i) % PGSIZE)) → s'.page x o = s.page x o

theorem CopiedOut.zero (s : Mem) (e : Nat → Nat) (dstva : Nat) (src : List UInt8) : CopiedOut s e dstva src 0 s :=
  ⟨rfl, fun i hi => by omega, fun i hi => by omega, fun _ _ _ => rfl⟩

theorem writableAt_page {a b : Nat} (h : WritableAt e a) (hab : b / PGSIZE = a / PGSIZE) : WritableAt e b := by
  refine ⟨?_, by rw [hab]; exact h.2⟩
  have := h.1
  simp only [MAXVA, PGSIZE] at *
  omega

/-- One `memmove` of `copyout`: `n` bytes on one page. -/
theorem CopiedOut.setBytes (hw : WritableAt e dstva) (hn : n ≤ src.length) (hpage : dstva % PGSIZE + n ≤ PGSIZE) :
    CopiedOut s e dstva src n (s.setBytes (PTE2PA (e (dstva / PGSIZE))) (dstva % PGSIZE) (src.take n)) := by
  have hdiv : ∀ i, i < n → (dstva + i) / PGSIZE = dstva / PGSIZE ∧ (dstva + i) % PGSIZE = dstva % PGSIZE + i := by
    intro i hi
    simp only [PGSIZE] at *
    omega
  refine ⟨rfl, fun i hi => writableAt_page hw (hdiv i hi).1, fun i hi => ?_, fun x o hout => ?_⟩
  · simp only [Mem.userByte, Mem.setBytes, (hdiv i hi).1, (hdiv i hi).2, Function.update_self]
    rw [if_pos (by omega), Nat.add_sub_cancel_left, List.getD_eq_getElem _ _ (by rw [List.length_take]; omega),
      List.getElem_take, List.getD_eq_getElem _ _ (by omega)]
  · by_cases hx : x = PTE2PA (e (dstva / PGSIZE))
    · subst hx
      simp only [Mem.setBytes, Function.update_self]
      by_cases ho : dstva % PGSIZE ≤ o.val
      · rw [if_pos ho, List.getD_eq_default]
        rw [List.length_take]
        by_contra hlt
        have hi : o.val - dstva % PGSIZE < n := by omega
        refine hout _ hi ⟨by rw [(hdiv _ hi).1], ?_⟩
        rw [(hdiv _ hi).2]
        omega
      · rw [if_neg ho]
    · exact congrFun (Mem.setBytes_page_ne s _ _ hx) o

/-- Bytes written up to the end of a page, and then from the next page on. -/
theorem CopiedOut.append {s₁ : Mem} (ho : OwnPages T e)
    (h₁ : CopiedOut s e dstva src n s₁) (h₂ : CopiedOut s₁ e (dstva + n) (src.drop n) k s')
    (hend : 0 < k → ∀ i, i < n → (dstva + i) / PGSIZE < (dstva + n) / PGSIZE) :
    CopiedOut s e dstva src (n + k) s' := by
  refine ⟨h₂.freelist.trans h₁.freelist, fun i hi => ?_, fun i hi => ?_, fun x o hout => ?_⟩
  · rcases Nat.lt_or_ge i n with hin | hin
    · exact h₁.writable i hin
    · have := h₂.writable (i - n) (by omega)
      rwa [show dstva + n + (i - n) = dstva + i by omega] at this
  · rcases Nat.lt_or_ge i n with hin | hin
    · rw [← h₁.bytes i hin]
      -- the later pages are other pages
      refine h₂.frame _ _ fun j hj => ?_
      rintro ⟨hpa, -⟩
      have hw₁ := h₁.writable i hin
      have hw₂ := h₂.writable j hj
      have hv := ho.inj _ _ hw₁.vpn hw₂.vpn hw₁.2 hw₂.2 hpa
      have hlt := hend (by omega) i hin
      have hmono : (dstva + n) / PGSIZE ≤ (dstva + n + j) / PGSIZE := Nat.div_le_div_right (by omega)
      omega
    · have := h₂.bytes (i - n) (by omega)
      rw [show dstva + n + (i - n) = dstva + i by omega] at this
      rw [this, List.getD_eq_getElem?_getD, List.getD_eq_getElem?_getD, List.getElem?_drop,
        show n + (i - n) = i by omega]
  · rw [h₂.frame x o fun j hj => ?_, h₁.frame x o fun i hi => hout i (by omega)]
    have := hout (n + j) (by omega)
    rwa [← Nat.add_assoc] at this

/-- How far `copyout` gets. -/
structure CopyoutRun (s : Mem) (e : Nat → Nat) (dstva : Nat) (src : List UInt8) (r : Int) (k : Nat) (s' : Mem) :
    Prop where
  wrote : CopiedOut s e dstva src k s'
  result : r = 0 ∧ k = src.length ∨
    r = -1 ∧ k < src.length ∧ (k = 0 ∨ (dstva + k) % PGSIZE = 0) ∧ ¬ WritableAt e (dstva + k)

/-- One iteration of `copyout`, and the rest of the loop from the next page on. -/
theorem CopiedOut.continue {s₁ : Mem} {r : Int} (ho : OwnPages T e)
    (h₁ : CopiedOut s e dstva src (min (PGSIZE - dstva % PGSIZE) src.length) s₁)
    (h₂ : CopyoutRun s₁ e (PGROUNDDOWN dstva + PGSIZE)
      (src.drop (min (PGSIZE - dstva % PGSIZE) src.length)) r k s') :
    CopyoutRun s e dstva src r (min (PGSIZE - dstva % PGSIZE) src.length + k) s' := by
  obtain ⟨hwrote, hres⟩ := h₂
  rw [List.length_drop] at hres
  have hmod : dstva % PGSIZE < PGSIZE := Nat.mod_lt _ (by decide)
  rcases Nat.lt_or_ge (PGSIZE - dstva % PGSIZE) src.length with hlt | hge
  · rw [Nat.min_eq_left (Nat.le_of_lt hlt)] at h₁ hwrote hres ⊢
    have hnext : PGROUNDDOWN dstva + PGSIZE = dstva + (PGSIZE - dstva % PGSIZE) := by
      simp only [PGROUNDDOWN, PGSIZE]
      omega
    rw [hnext] at hwrote hres
    refine ⟨h₁.append ho hwrote fun _ i hi => ?_, ?_⟩
    · simp only [PGSIZE] at *
      omega
    · rw [← Nat.add_assoc]
      obtain ⟨hr, hk⟩ | ⟨hr, hk, hend, hstop⟩ := hres
      · exact Or.inl ⟨hr, by omega⟩
      · refine Or.inr ⟨hr, by omega, Or.inr ?_, hstop⟩
        rcases hend with rfl | hend
        · simp only [PGSIZE] at *
          omega
        · exact hend
  · -- the last page
    rw [Nat.min_eq_right hge] at h₁ hwrote hres ⊢
    obtain rfl : k = 0 := by omega
    have hsame : CopiedOut s e dstva src (src.length + 0) s' :=
      h₁.append ho ⟨hwrote.freelist, fun i hi => by omega, fun i hi => by omega, fun x o _ =>
        hwrote.frame x o fun i hi => by omega⟩ fun h => by omega
    exact ⟨hsame, Or.inl ⟨by omega, by omega⟩⟩

theorem copyoutLoop_exact (fuel : Nat) (h : PageTable s t T e) (ho : OwnPages T e) (hlen : src.length ≤ fuel) :
    wp (copyoutLoop t fuel dstva src) (fun r s' => ∃ k, CopyoutRun s e dstva src r k s') (fun _ => False) s := by
  induction fuel generalizing s dstva src with
  | zero => exact ⟨0, CopiedOut.zero _ _ _ _, Or.inl ⟨rfl, by omega⟩⟩
  | succ fuel ih =>
    by_cases hne : src = []
    · subst hne
      exact ⟨0, CopiedOut.zero _ _ _ _, Or.inl ⟨rfl, rfl⟩⟩
    have hpos : 0 < src.length := List.length_pos_iff.2 hne
    refine copyoutLoop_step h hne rfl (fun hnw => ⟨0, CopiedOut.zero _ _ _ _, Or.inr ⟨rfl, hpos, Or.inl rfl, hnw⟩⟩)
      fun hw => ?_
    have hmod : dstva % PGSIZE < PGSIZE := Nat.mod_lt _ (by decide)
    have hfst : CopiedOut s e dstva src (min (PGSIZE - dstva % PGSIZE) src.length) _ :=
      CopiedOut.setBytes hw (by omega) (by omega)
    have htab : PageTable (s.setBytes (PTE2PA (e (dstva / PGSIZE))) (dstva % PGSIZE)
        (src.take (min (PGSIZE - dstva % PGSIZE) src.length))) t T e :=
      h.congr fun a ha => Mem.setBytes_page_ne s _ _ fun hap => ho.table _ hw.vpn hw.2 (hap ▸ ha)
    refine wp_mono (ih htab (by rw [List.length_drop]; omega)) ?_ fun _ h => h
    rintro r s' ⟨k, hrun⟩
    exact ⟨_, hfst.continue ho hrun⟩

theorem copyout_exact (h : PageTable s t T e) (ho : OwnPages T e) :
    wp (copyout t dstva src) (fun r s' => ∃ k, CopyoutRun s e dstva src r k s') (fun _ => False) s :=
  copyoutLoop_exact src.length h ho (Nat.le_refl _)

/-- Bytes copied out to user memory leave the page table alone. -/
theorem CopiedOut.pageTable (h : CopiedOut s e dstva src k s')
    (ho : OwnPages T e) (ht : PageTable s t T e) : PageTable s' t T e := by
  apply ht.congr
  intro x hx
  funext o
  apply h.frame
  rintro i hi ⟨rfl, -⟩
  have hw := h.writable i hi
  exact ho.table _ hw.vpn hw.2 hx

/-- One more byte after those written so far. -/
theorem CopiedOut.snoc {s₁ : Mem} (ho : OwnPages T e)
    (h₁ : CopiedOut s e dstva src n s₁) (h₂ : CopiedOut s₁ e (dstva + n) [src.getD n 0] 1 s') :
    CopiedOut s e dstva src (n + 1) s' := by
  have hlast : ∀ i, i < n + 1 → i < n ∨ i = n := fun i hi => by omega
  have hw₂ := h₂.writable 0 Nat.one_pos
  constructor
  · exact h₂.freelist.trans h₁.freelist
  · intro i hi
    obtain hin | rfl := hlast i hi
    · exact h₁.writable i hin
    · exact hw₂
  · intro i hi
    obtain hin | rfl := hlast i hi
    · rw [← h₁.bytes i hin]
      apply h₂.frame
      rintro j hj ⟨hpa, hoff⟩
      obtain rfl : j = 0 := Nat.lt_one_iff.1 hj
      -- the same byte of the same page is the same address
      have hw₁ := h₁.writable i hin
      have hv := ho.inj _ _ hw₁.vpn hw₂.vpn hw₁.2 hw₂.2 hpa
      simp only [PGSIZE] at hv hoff
      omega
    · exact h₂.bytes 0 Nat.one_pos
  · intro x o hout
    rw [h₂.frame x o, h₁.frame x o]
    · exact fun i hi => hout i (by omega)
    · intro j hj
      obtain rfl : j = 0 := Nat.lt_one_iff.1 hj
      exact hout n (Nat.lt_succ_self n)

theorem CopyoutRun.eq_zero_iff {r : Int} (h : CopyoutRun s e dstva src r k s') :
    r = 0 ↔ ∀ a, dstva ≤ a → a < dstva + src.length → WritableAt e a := by
  obtain ⟨hw, ⟨rfl, rfl⟩ | ⟨rfl, hk, -, hstop⟩⟩ := h
  · refine ⟨fun _ a h1 h2 => ?_, fun _ => rfl⟩
    have := hw.writable (a - dstva) (by omega)
    rwa [show dstva + (a - dstva) = a by omega] at this
  · refine ⟨fun h0 => absurd h0 (by decide), fun hall => ?_⟩
    exact absurd (hall (dstva + k) (by omega) (by omega)) hstop

/-- **`copyout` is exact and confined.** -/
theorem copyout_confined {dstva : Nat} {src : List UInt8} (h : PageTable s t T e) (ho : OwnPages T e) :
    wp (copyout t dstva src) (fun r s' => (r = 0 ∨ r = -1) ∧
      (r = 0 ↔ ∀ a, dstva ≤ a → a < dstva + src.length → WritableAt e a) ∧
      (r = 0 → ∀ i, i < src.length → s'.userByte e (dstva + i) = src.getD i 0) ∧
      (r = -1 → ∃ k, k < src.length ∧ (k = 0 ∨ (dstva + k) % PGSIZE = 0) ∧ CopiedOut s e dstva src k s') ∧
      s'.freelist = s.freelist ∧
      ∀ x (o : Fin PGSIZE), (∀ a, dstva ≤ a → a < dstva + src.length →
        ¬ (x = PTE2PA (e (a / PGSIZE)) ∧ o.val = a % PGSIZE)) → s'.page x o = s.page x o)
      (fun _ => False) s := by
  refine wp_mono (copyout_exact h ho) ?_ fun _ h => h
  rintro r s' ⟨k, hrun⟩
  have hiff := hrun.eq_zero_iff
  obtain ⟨hw, hres⟩ := hrun
  have hk : k ≤ src.length := by omega
  refine ⟨by omega, hiff, fun h0 i hi => ?_, fun h1 => ?_, hw.freelist, fun x o hout => ?_⟩
  · obtain ⟨-, rfl⟩ | ⟨rfl, -⟩ := hres
    · exact hw.bytes i hi
    · exact absurd h0 (by decide)
  · obtain ⟨rfl, -⟩ | ⟨-, hlt, hend, -⟩ := hres
    · exact absurd h1 (by decide)
    · exact ⟨k, hlt, hend, hw⟩
  · exact hw.frame x o fun i hi => hout (dstva + i) (by omega) (by omega)

theorem onePage_own : ∃ s T e, PageTable s 0x80020000 T e ∧ T.Nodup ∧ OwnPages T e ∧ Writable (e 0) ∧
    ∀ u, u ≠ 0 → e u = 0 := by
  obtain ⟨s, T, e, t, h, -, ho, hw, -, hzero⟩ := onePage
  have honly : ∀ v, Writable (e v) → v = 0 := by
    intro v hv
    by_contra hne
    have hval := hv.1
    rw [hzero v hne] at hval
    exact absurd hval (by decide)
  have hnd := Multiset.nodup_add.1 (Multiset.nodup_add.1 ho.right.nodup).1
  refine ⟨s, T, e, h, hnd.1, ⟨fun v w _ _ hv hw _ => ?_, fun v _ hv hmem => ?_⟩, hw, hzero⟩
  · rw [honly v hv, honly w hw]
  · obtain rfl := honly v hv
    exact Multiset.disjoint_left.1 hnd.2.2 hmem (mem_leafPages.2 ⟨0, Nat.le_refl _, by decide, rfl⟩)

theorem copyout_onePage : ∃ s T₀ e₀, Writable (e₀ 0) ∧ PageTable s 0x80020000 T₀ e₀ ∧
    wp (copyout 0x80020000 4090 [1, 2, 3, 4, 5, 6, 7, 8]) (fun r s' => (r = 0 ∨ r = -1) ∧
      (r = 0 ↔ ∀ a, 4090 ≤ a → a < 4090 + 8 → WritableAt e₀ a) ∧
      (r = 0 → ∀ i, i < 8 → s'.userByte e₀ (4090 + i) = [1, 2, 3, 4, 5, 6, 7, 8].getD i 0) ∧
      (r = -1 → ∃ k, k < 8 ∧ (k = 0 ∨ (4090 + k) % PGSIZE = 0) ∧ CopiedOut s e₀ 4090 [1, 2, 3, 4, 5, 6, 7, 8] k s') ∧
      s'.freelist = s.freelist ∧
      ∀ x (o : Fin PGSIZE), (∀ a, 4090 ≤ a → a < 4090 + 8 →
        ¬ (x = PTE2PA (e₀ (a / PGSIZE)) ∧ o.val = a % PGSIZE)) → s'.page x o = s.page x o)
      (fun _ => False) s := by
  obtain ⟨s, T₀, e₀, h₀, -, ho, hw, -⟩ := onePage_own
  exact ⟨s, T₀, e₀, hw, h₀, copyout_confined h₀ ho⟩

end Xv6
