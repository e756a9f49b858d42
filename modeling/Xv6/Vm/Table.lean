import Xv6.Vm

/-!
# What a page table maps, and `walk`

The pages that make up a page table and the leaf entry of every virtual page number, read off
memory by `Radix`.

* `PageTable s t T e` — the page table at `t` consists of the pages `T` and has the leaf entry `e v`
  at page number `v`.
* `walk_spec` — `walk` with allocation adds empty page-table pages only: no entry changes.
* `PageTable.set` — writing the entry that `walk` returned changes that entry only.
-/

namespace Xv6

open Prog

/-- The number of leaf entries of a page table. -/
def vpns : Nat := 2 ^ 27

abbrev vpath (v : Nat) : Nat → Nat := Radix.path 512 v

theorem vpath_lt (v l : Nat) : vpath v l < 512 := Radix.path_lt (by decide) v l

theorem PX_eq (l va : Nat) : PX l va = vpath (va / PGSIZE) l := by
  have h : (2 : Nat) ^ (PGSHIFT + 9 * l) = PGSIZE * 512 ^ l := by
    rw [Nat.pow_add, Nat.pow_mul]
    rfl
  simp only [PX, Radix.path, h, Nat.div_div_eq_div_mul]

/-- An entry that points to a page-table page has none of the permission bits. -/
def IsPointer (pte : Nat) : Prop := hasFlag pte (PTE_R ||| PTE_W ||| PTE_X) = false

namespace Mem

def tables (s : Mem) (n t : Nat) : Multiset Nat := Radix.tables pteFormat s.pte n t

def entryAt (s : Mem) (n t v : Nat) : Nat := Radix.lookup pteFormat s.pte (vpath v) n t

def leafTable (s : Mem) (n t v : Nat) : Option Nat := Radix.leafTable pteFormat s.pte (vpath v) n t

def Inner (s : Mem) (n t : Nat) : Prop := Radix.Inner pteFormat IsPointer s.pte n t

/-- The leaf entry for page number `v`. -/
def entry (s : Mem) (t v : Nat) : Nat := s.entryAt 2 t v

end Mem

structure PageTable (s : Mem) (t : Nat) (T : Multiset Nat) (e : Nat → Nat) : Prop where
  tables : s.tables 2 t = T
  inner : s.Inner 2 t
  entry : ∀ v, v < vpns → s.entry t v = e v

variable {K : KernelImage} {s s' : Mem} {t n v : Nat} {T T' F : Multiset Nat} {e e' : Nat → Nat}

/-! ## Pages outside the table do not matter -/

theorem Mem.tables_congr (h : ∀ a ∈ s.tables n t, s'.page a = s.page a) :
    s'.tables n t = s.tables n t :=
  Radix.tables_congr fun a ha i => Mem.pte_of_page (h a ha) i

theorem Mem.entryAt_congr (h : ∀ a ∈ s.tables n t, s'.page a = s.page a) (v : Nat) :
    s'.entryAt n t v = s.entryAt n t v :=
  Radix.lookup_congr (vpath_lt v) fun a ha i => Mem.pte_of_page (h a ha) i

theorem Mem.leafTable_congr (h : ∀ a ∈ s.tables n t, s'.page a = s.page a) (v : Nat) :
    s'.leafTable n t v = s.leafTable n t v :=
  Radix.leafTable_congr (vpath_lt v) fun a ha i => Mem.pte_of_page (h a ha) i

theorem Mem.inner_congr (h : ∀ a ∈ s.tables n t, s'.page a = s.page a) :
    s'.Inner n t ↔ s.Inner n t :=
  Radix.inner_congr fun a ha i => Mem.pte_of_page (h a ha) i

theorem PageTable.congr (h : PageTable s t T e) (hp : ∀ a ∈ T, s'.page a = s.page a) :
    PageTable s' t T e := by
  obtain ⟨rfl, h2, h3⟩ := h
  exact ⟨Mem.tables_congr hp, (Mem.inner_congr hp).2 h2,
    fun v hv => (Mem.entryAt_congr hp v).trans (h3 v hv)⟩

/-- Code that owns other pages leaves the page table alone. -/
theorem PageTable.frame (h : PageTable s t T e) (ho : Owns K s (F + T)) {F' : Multiset Nat}
    (hm : Moves s F s' F') : PageTable s' t T e :=
  h.congr fun _ ha => ho.page_eq hm ha

theorem Mem.self_mem_tables (s : Mem) (n t : Nat) : t ∈ s.tables n t := Radix.self_mem_tables n t

theorem PageTable.root_mem (h : PageTable s t T e) : t ∈ T := by
  rw [← h.tables]
  exact s.self_mem_tables 2 t

/-! ## `walk` -/

/-- What `walk` does from a page-table page `t` of level `n`, on the way to page number `v`. -/
structure Walked (s : Mem) (n t v : Nat) (r : Option (Nat × Nat)) (s' : Mem) : Prop where
  moves : Moves s (s.tables n t) s' (s'.tables n t)
  entry : ∀ u, s'.entryAt n t u = s.entryAt n t u
  inner : s.Inner n t → s'.Inner n t
  leaf : ∀ u q, s.leafTable n t u = some q → s'.leafTable n t u = some q
  slot : ∀ q i, r = some (q, i) → s'.leafTable n t v = some q ∧ i = vpath v 0
  short : r = none → s'.freelist = [] ∧ s.freelist.length < n
  cost : s.freelist.length ≤ s'.freelist.length + n
  less : s'.freelist.length ≤ s.freelist.length
  present : s.leafTable n t v ≠ none → s' = s ∧ r ≠ none
  missing : r = none → s'.leafTable n t v = none

theorem Walked.zero (s : Mem) (t v : Nat) : Walked s 0 t v (some (t, vpath v 0)) s where
  moves := Moves.refl _ _
  entry _ := rfl
  inner h := h
  leaf _ _ h := h
  slot q i h := by cases h; exact ⟨Radix.leafTable_zero, rfl⟩
  short h := by cases h
  cost := by omega
  less := Nat.le_refl _
  present _ := ⟨rfl, by intro h; cases h⟩
  missing h := by cases h

section step

variable {i w : Nat} {r : Option (Nat × Nat)}

/-- The tables below entry `i` and the rest. -/
theorem Mem.tables_split (hi : i < 512) : ∃ G, (s.tables (n + 1) t =
    Radix.below pteFormat s.pte n (s.pte t i) + (t ::ₘ G)) ∧
    ∀ s' : Mem, ∀ F : Multiset Nat, Radix.Descend pteFormat s.pte s'.pte n t i F →
      s'.tables (n + 1) t = Radix.below pteFormat s'.pte n (s'.pte t i) + (t ::ₘ G) := by
  refine ⟨∑ j ∈ (Finset.range 512).erase i, Radix.below pteFormat s.pte n (s.pte t j), ?_, ?_⟩
  · rw [Multiset.add_cons]
    exact Radix.tables_split hi
  · intro s' F hd
    rw [Multiset.add_cons]
    exact hd.tables

/-- A change below entry `i`, in pages that `x` owns. -/
theorem Moves.descend {x x' : Multiset Nat} (ho : Owns K s (s.tables (n + 1) t)) (hi : i < 512)
    (hm : Moves s x s' x') (hx : x ≤ Radix.below pteFormat s.pte n (s.pte t i)) :
    Radix.Descend pteFormat s.pte s'.pte n t i ↑s.freelist := by
  have hnd : (Radix.tables pteFormat s.pte (n + 1) t + ↑s.freelist).Nodup := ho.nodup
  have hsplit := Radix.nodup_split (f := pteFormat) hi hnd
  have hsub : ∀ a, a ∉ Radix.below pteFormat s.pte n (s.pte t i) + (↑s.freelist : Multiset Nat) →
      s'.page a = s.page a := by
    intro a ha
    refine hm.frame a fun h => ha ?_
    rw [Multiset.mem_add] at h ⊢
    exact h.imp (Multiset.mem_of_le hx) id
  exact ⟨hi, hnd, fun j _ => Mem.pte_of_page (hsub t hsplit.2.1) j,
    fun a _ ha j => Mem.pte_of_page (hsub a ha) j⟩

/-- `walk` into the page-table page that entry `i` points to. -/
theorem Walked.down {v : Nat} (ho : Owns K s (s.tables (n + 1) t))
    (hv : hasFlag (s.pte t (vpath v (n + 1))) PTE_V = true)
    (h : Walked s n (PTE2PA (s.pte t (vpath v (n + 1)))) v r s') : Walked s (n + 1) t v r s' := by
  have hi := vpath_lt v (n + 1)
  have hbelow : Radix.below pteFormat s.pte n (s.pte t (vpath v (n + 1))) =
      s.tables n (PTE2PA (s.pte t (vpath v (n + 1)))) := Radix.below_of_valid hv
  have hd := Moves.descend ho hi h.moves hbelow.ge
  have hsame : s'.pte t (vpath v (n + 1)) = s.pte t (vpath v (n + 1)) := by
    have hnd : (Radix.tables pteFormat s.pte (n + 1) t + ↑s.freelist).Nodup := ho.nodup
    have ht := (Radix.nodup_split (f := pteFormat) hi hnd).2.1
    rw [hbelow] at ht
    exact Mem.pte_of_page (h.moves.frame t ht) _
  obtain ⟨G, hG, hG'⟩ := Mem.tables_split (s := s) (n := n) (t := t) hi
  have hbelow' : Radix.below pteFormat s'.pte n (s'.pte t (vpath v (n + 1))) =
      s'.tables n (PTE2PA (s.pte t (vpath v (n + 1)))) := by
    rw [hsame]
    exact Radix.below_of_valid hv
  refine ⟨?_, fun u => ?_, fun hin => ?_, fun u q hq => ?_, fun q i hr => ?_, fun hr => ?_, ?_, ?_, fun hl => ?_,
    fun hr => ?_⟩
  · refine (h.moves.add (t ::ₘ G)).congr ?_ ?_
    · rw [hG, hbelow]
    · rw [hG' s' _ hd, hbelow']
  · show Radix.lookup _ _ _ _ _ = Radix.lookup _ _ _ _ _
    rw [hd.lookup (vpath_lt u), hsame]
    split
    · rename_i hu
      rw [Radix.lookup_succ, hu]
      split
      · exact h.entry u
      · rfl
    · rfl
  · refine hd.inner hin fun _ => ?_
    rw [hsame]
    obtain ⟨h1, h2⟩ := (Radix.inner_succ.1 hin) _ hi hv
    exact ⟨h1, h.inner h2⟩
  · have hq' : Radix.leafTable pteFormat s.pte (vpath u) (n + 1) t = some q := hq
    show Radix.leafTable _ _ _ _ _ = _
    rw [hd.leafTable (vpath_lt u), hsame]
    split
    · rename_i hu
      rw [Radix.leafTable_succ, hu] at hq'
      split
      · rename_i hv'
        rw [if_pos hv'] at hq'
        exact h.leaf u q hq'
      · rename_i hv'
        exact absurd hv hv'
    · exact hq'
  · obtain ⟨h1, h2⟩ := h.slot q i hr
    refine ⟨?_, h2⟩
    show Radix.leafTable _ _ _ _ _ = _
    rw [Radix.leafTable_succ, hsame]
    exact (if_pos hv).trans h1
  · obtain ⟨h1, h2⟩ := h.short hr
    exact ⟨h1, by omega⟩
  · have := h.cost
    omega
  · exact h.less
  · refine h.present fun hn => hl ?_
    show Radix.leafTable _ _ _ _ _ = _
    rw [Radix.leafTable_succ]
    exact (if_pos hv).trans hn
  · show Radix.leafTable _ _ _ _ _ = _
    rw [Radix.leafTable_succ, hsame]
    exact (if_pos hv).trans (h.missing hr)

/-- `walk` finds no page for the page-table page it needs. -/
theorem Walked.out {v : Nat} (hv : ¬ hasFlag (s.pte t (vpath v (n + 1))) PTE_V = true)
    (hs : s.freelist = []) : Walked s (n + 1) t v none s where
  moves := Moves.refl _ _
  entry _ := rfl
  inner h := h
  leaf _ _ h := h
  slot q i h := by cases h
  short _ := ⟨hs, by rw [hs]; exact Nat.succ_pos n⟩
  cost := by omega
  less := Nat.le_refl _
  present h := by
    refine absurd ?_ h
    show Radix.leafTable _ _ _ _ _ = _
    rw [Radix.leafTable_succ]
    exact if_neg hv
  missing _ := by
    show Radix.leafTable _ _ _ _ _ = _
    rw [Radix.leafTable_succ]
    exact if_neg hv

/-- The page `p`, taken off the free list and cleared, as the page-table page of entry `i`. -/
def linked (s : Mem) (t i p : Nat) (rs : List Nat) : Mem :=
  (({ s.fill p 5 with freelist := rs } : Mem).fill p 0).setPte t i (PA2PTE p ||| PTE_V)

variable {rs : List Nat} {p : Nat}

theorem linked_page {a : Nat} (hp : a ≠ p) (ht : a ≠ t) : (linked s t i p rs).page a = s.page a := by
  unfold linked
  rw [Mem.setPte_page_ne _ _ _ ht, Mem.fill_page_ne _ _ hp]
  exact Mem.fill_page_ne s 5 hp

theorem linked_pte (hi : i < 512) (hp : PageAddr p) : (linked s t i p rs).pte = Radix.setEntry
      (({ s.fill p 5 with freelist := rs } : Mem).fill p 0).pte t i (PA2PTE p ||| PTE_V) := by
  unfold linked
  exact Mem.pte_setPte hi (pte_lt hp (by decide))

theorem linked_pte_table (hi : i < 512) (hp : PageAddr p) (hpt : t ≠ p)
    (j : Nat) : (linked s t i p rs).pte t j = if j = i then PA2PTE p ||| PTE_V else s.pte t j := by
  have h : (({ s.fill p 5 with freelist := rs } : Mem).fill p 0).page t = s.page t :=
    (Mem.fill_page_ne _ _ hpt).trans (Mem.fill_page_ne s 5 hpt)
  rw [linked_pte hi hp]
  simp only [Radix.setEntry, true_and, Mem.pte_of_page h]

theorem linked_pte_new (hi : i < 512) (hp : PageAddr p) (hpt : t ≠ p)
    (j : Nat) : (linked s t i p rs).pte p j = 0 := by
  rw [linked_pte hi hp, Radix.setEntry_of_ne hpt.symm]
  exact Mem.pte_fill_zero _ p j

/-- The page that `kalloc` would return is not the page-table page at hand. -/
theorem head_free (ho : Owns K s (s.tables (n + 1) t))
    (hs : s.freelist = p :: rs) : PageAddr p ∧ t ≠ p ∧ p ∈ (↑s.freelist : Multiset Nat) := by
  have hpm : p ∈ (↑s.freelist : Multiset Nat) := by rw [hs]; exact List.mem_cons_self
  refine ⟨(ho.managed p (Multiset.mem_add.2 (Or.inr hpm))).pageAddr, ?_, hpm⟩
  rintro rfl
  exact Multiset.disjoint_left.1 (Multiset.nodup_add.1 ho.nodup).2.2 (s.self_mem_tables _ _) hpm

theorem linked_moves (hs : s.freelist = p :: rs) :
    Moves s (s.tables (n + 1) t) (linked s t i p rs) ({p} + s.tables (n + 1) t) := by
  have hpm : p ∈ (↑s.freelist : Multiset Nat) := by rw [hs]; exact List.mem_cons_self
  refine ⟨?_, fun a ha => linked_page ?_ ?_⟩
  · show {p} + s.tables (n + 1) t + (rs : Multiset Nat) = _
    rw [hs, ← Multiset.cons_coe, Multiset.add_cons, Multiset.singleton_add, Multiset.cons_add]
  · rintro rfl; exact ha (Multiset.mem_add.2 (Or.inr hpm))
  · rintro rfl; exact ha (Multiset.mem_add.2 (Or.inl (s.self_mem_tables _ _)))

theorem linked_tables (ho : Owns K s (s.tables (n + 1) t))
    (hi : i < 512) (hs : s.freelist = p :: rs) : (linked s t i p rs).tables n p = {p} := by
  obtain ⟨hp, hpt, -⟩ := head_free ho hs
  exact Radix.tables_empty (linked_pte_new hi hp hpt)

theorem Walked.link {v : Nat} (ho : Owns K s (s.tables (n + 1) t))
    (hv : ¬ hasFlag (s.pte t (vpath v (n + 1))) PTE_V = true) (hs : s.freelist = p :: rs)
    (h : Walked (linked s t (vpath v (n + 1)) p rs) n p v r s') : Walked s (n + 1) t v r s' := by
  have hi := vpath_lt v (n + 1)
  have hv' : ¬ pteFormat.valid (s.pte t (vpath v (n + 1))) = true := hv
  obtain ⟨hp, hpt, hpm⟩ := head_free ho hs
  have hnil : Radix.below pteFormat s.pte n (s.pte t (vpath v (n + 1))) = 0 := Radix.below_of_not_valid hv
  obtain ⟨G, hG, hG'⟩ := Mem.tables_split (s := s) (n := n) (t := t) hi
  rw [hnil, zero_add] at hG
  have hempty : ∀ j, (linked s t (vpath v (n + 1)) p rs).pte p j = 0 := linked_pte_new hi hp hpt
  have htab := linked_tables ho hi hs
  -- linking takes `p` off the free list and writes `p` and `t` only
  have hlink := linked_moves (i := vpath v (n + 1)) (n := n) (t := t) hs
  have ho3 := ho.moves hlink
  have hmv := h.moves
  rw [htab] at hmv
  have hframe : ∀ a ∈ s.tables (n + 1) t, s'.page a = (linked s t (vpath v (n + 1)) p rs).page a :=
    fun a ha => ho3.page_eq hmv ha
  have hpte : ∀ j, s'.pte t j = if j = vpath v (n + 1) then PA2PTE p ||| PTE_V else s.pte t j := by
    intro j
    rw [Mem.pte_of_page (hframe t (s.self_mem_tables _ _)), linked_pte_table hi hp hpt]
  have hnew : s'.pte t (vpath v (n + 1)) = PA2PTE p ||| PTE_V := by rw [hpte, if_pos rfl]
  have hval : pteFormat.valid (s'.pte t (vpath v (n + 1))) = true := by
    rw [hnew]
    exact (hasFlag_mod (by decide)).trans (by rw [PTE_FLAGS_or (by decide)]; decide)
  have hchild : pteFormat.child (s'.pte t (vpath v (n + 1))) = p := by
    rw [hnew]
    exact PTE2PA_or hp (by decide)
  have hd : Radix.Descend pteFormat s.pte s'.pte n t (vpath v (n + 1)) ↑s.freelist := by
    refine ⟨hi, ho.nodup, fun j hj => by rw [hpte, if_neg hj], fun a hat ha j => Mem.pte_of_page ?_ j⟩
    rw [hnil, zero_add] at ha
    have hap : a ≠ p := by rintro rfl; exact ha hpm
    rw [hmv.frame a ?_, linked_page hap hat]
    show a ∉ ({p} : Multiset Nat) + (rs : Multiset Nat)
    rw [Multiset.singleton_add, Multiset.cons_coe, ← hs]
    exact ha
  have htab' : s'.tables (n + 1) t = s'.tables n p + s.tables (n + 1) t := by
    rw [hG' s' _ hd, hG, Radix.below_of_valid hval, hchild]
    rfl
  refine ⟨?_, fun u => ?_, fun hin => ?_, fun u q hq => ?_, fun q i hr => ?_, fun hr => ?_, ?_, ?_, fun hl => ?_,
    fun hr => ?_⟩
  · rw [htab']
    exact hlink.trans (hmv.add _)
  · show Radix.lookup _ _ _ _ _ = Radix.lookup _ _ _ _ _
    rw [hd.lookup (vpath_lt u)]
    split
    · rename_i hu
      rw [hchild, Radix.lookup_succ, hu, if_neg hv']
      exact (h.entry u).trans (Radix.lookup_empty hempty)
    · rfl
  · refine hd.inner hin fun _ => ⟨?_, ?_⟩
    · rw [hnew]
      exact (hasFlag_mod (by decide)).trans (by rw [PTE_FLAGS_or (by decide)]; decide)
    · rw [hchild]
      exact h.inner (Radix.inner_empty hempty)
  · have hq' : Radix.leafTable pteFormat s.pte (vpath u) (n + 1) t = some q := hq
    show Radix.leafTable _ _ _ _ _ = _
    rw [hd.leafTable (vpath_lt u)]
    split
    · rename_i hu
      rw [Radix.leafTable_succ, hu, if_neg hv'] at hq'
      cases hq'
    · exact hq'
  · obtain ⟨h1, h2⟩ := h.slot q i hr
    refine ⟨?_, h2⟩
    show Radix.leafTable _ _ _ _ _ = _
    rw [Radix.leafTable_succ, if_pos hval, hchild]
    exact h1
  · obtain ⟨h1, h2⟩ := h.short hr
    refine ⟨h1, ?_⟩
    have h3 : rs.length < n := h2
    rw [hs, List.length_cons]
    omega
  · have h1 : rs.length ≤ s'.freelist.length + n := h.cost
    rw [hs, List.length_cons]
    omega
  · have h1 : s'.freelist.length ≤ rs.length := h.less
    rw [hs, List.length_cons]
    omega
  · refine absurd ?_ hl
    show Radix.leafTable _ _ _ _ _ = _
    rw [Radix.leafTable_succ]
    exact if_neg hv
  · show Radix.leafTable _ _ _ _ _ = _
    rw [Radix.leafTable_succ, if_pos hval, hchild]
    exact h.missing hr

end step

/-- **`walk` with allocation.** -/
theorem walkFrom_spec (va : Nat) {E : Mem → Prop} (ho : Owns K s (s.tables n t)) :
    wp (walkFrom va true n t) (fun r s' => Walked s n t (va / PGSIZE) r s') E s := by
  induction n generalizing s t with
  | zero =>
    unfold walkFrom
    rw [PX_eq]
    exact Walked.zero s t _
  | succ n ih =>
    unfold walkFrom
    rw [wp_bind, wp_gets, PX_eq]
    split
    · rename_i hv
      refine wp_mono (ih ?_) (fun r s' h => Walked.down ho hv h) fun _ h => h
      obtain ⟨G, hG, -⟩ := Mem.tables_split (s := s) (n := n) (t := t) (vpath_lt (va / PGSIZE) (n + 1))
      rw [Radix.below_of_valid hv] at hG
      rw [hG] at ho
      exact ho.left
    · rename_i hv
      rw [if_pos rfl]
      refine wp_seq kalloc_spec fun r s1 hr => ?_
      obtain ⟨rfl, hnil, rfl⟩ | ⟨p, rs, rfl, hs, rfl⟩ := hr
      · exact Walked.out hv hnil
      · have hi := vpath_lt (va / PGSIZE) (n + 1)
        refine wp_mono (ih (s := linked s t (vpath (va / PGSIZE) (n + 1)) p rs) ?_)
          (fun r s' h => Walked.link ho hv hs h) fun _ h => h
        rw [linked_tables ho hi hs]
        exact (ho.moves (linked_moves hs)).left

variable {q va : Nat}

theorem walk_spec (ho : Owns K s (s.tables 2 t)) {E : Mem → Prop} (hE : va < MAXVA ∨ ∀ s', E s') :
    wp (walk t va true) (fun r s' => va < MAXVA ∧ Walked s 2 t (va / PGSIZE) r s') E s := by
  unfold walk
  split
  · rename_i h
    exact hE.resolve_left (by omega) _
  · rename_i h
    exact wp_mono (walkFrom_spec va ho) (fun r s' hw => ⟨by omega, hw⟩) fun _ h => h

theorem Walked.pageTable {r : Option (Nat × Nat)} (hw : Walked s 2 t v r s') (h : PageTable s t T e) :
    PageTable s' t (s'.tables 2 t) e :=
  ⟨rfl, hw.inner h.inner, fun u hu => (hw.entry u).trans (h.entry u hu)⟩

/-- `walk` without allocation reads the tables only. -/
theorem walkFrom_false (va : Nat) : walkFrom va false n t s =
    .ok ((s.leafTable n t (va / PGSIZE)).map fun q => (q, vpath (va / PGSIZE) 0)) s := by
  induction n generalizing t with
  | zero =>
    unfold walkFrom
    rw [PX_eq, Mem.leafTable, Radix.leafTable_zero]
    rfl
  | succ n ih =>
    unfold walkFrom
    show (if hasFlag (s.pte t (PX (n + 1) va)) PTE_V = true then _ else _ : Prog Mem _) s = _
    rw [PX_eq, Mem.leafTable, Radix.leafTable_succ]
    split
    · rename_i hv
      have hv' : pteFormat.valid (s.pte t (vpath (va / PGSIZE) (n + 1))) = true := hv
      rw [ih, if_pos hv']
      rfl
    · rename_i hv
      have hv' : ¬ pteFormat.valid (s.pte t (vpath (va / PGSIZE) (n + 1))) = true := hv
      rw [if_neg hv', if_neg (by decide)]
      rfl

theorem walk_false (hva : va < MAXVA) : walk t va false s =
    .ok ((s.leafTable 2 t (va / PGSIZE)).map fun q => (q, vpath (va / PGSIZE) 0)) s := by
  unfold walk
  rw [if_neg (by omega), walkFrom_false]

theorem wp_walk_false (hva : va < MAXVA) {Q : Option (Nat × Nat) → Mem → Prop}
    {E : Mem → Prop} : wp (walk t va false) Q E s ↔
      Q ((s.leafTable 2 t (va / PGSIZE)).map fun q => (q, vpath (va / PGSIZE) 0)) s := by
  simp only [wp, walk_false hva]

theorem wpm_walk_false (hva : va < MAXVA) {Q : Option (Nat × Nat) → Mem → Prop}
    {P : String → Prop} {H : Prop} : wpm (walk t va false) Q P H s ↔
      Q ((s.leafTable 2 t (va / PGSIZE)).map fun q => (q, vpath (va / PGSIZE) 0)) s := by
  simp only [wpm, walk_false hva]

/-! ## Reading and writing an entry -/

theorem PageTable.pte_slot (h : PageTable s t T e) (hv : v < vpns)
    (hq : s.leafTable 2 t v = some q) : s.pte q (vpath v 0) = e v :=
  (Radix.lookup_of_leafTable hq).symm.trans (h.entry v hv)

/-- A nonzero entry lies in a page-table page that `walk` finds. -/
theorem PageTable.slot (h : PageTable s t T e) (hv : v < vpns) (hne : e v ≠ 0) :
    ∃ q, s.leafTable 2 t v = some q ∧ s.pte q (vpath v 0) = e v := by
  cases hq : s.leafTable 2 t v with
  | none => exact absurd ((h.entry v hv).symm.trans (Radix.lookup_of_leafTable_none hq)) hne
  | some q => exact ⟨q, rfl, h.pte_slot hv hq⟩

theorem PageTable.slot_mem (h : PageTable s t T e) (hq : s.leafTable 2 t v = some q) : q ∈ T := by
  rw [← h.tables]
  exact Radix.leafTable_mem (vpath_lt v) hq

theorem Mem.setPte_moves {i w : Nat} (hq : q ∈ T) : Moves s T (s.setPte q i w) T where
  conserve := rfl
  frame a ha := Mem.setPte_page_ne _ _ _ (by
    rintro rfl
    exact ha (Multiset.mem_add.2 (Or.inl hq)))

/-- **Writing the entry for page `v`.** -/
theorem PageTable.set (h : PageTable s t T e) (hnd : T.Nodup) (hv : v < vpns) {w : Nat}
    (hq : s.leafTable 2 t v = some q) (hw : w < 2 ^ 64) :
    PageTable (s.setPte q (vpath v 0) w) t T (Function.update e v w) := by
  have hpte : (s.setPte q (vpath v 0) w).pte = Radix.setEntry s.pte q (vpath v 0) w :=
    Mem.pte_setPte (vpath_lt v 0) hw
  have hnd' : (Radix.tables pteFormat s.pte 2 t).Nodup := by
    have h1 := h.tables
    rw [Mem.tables] at h1
    rwa [h1]
  refine ⟨?_, ?_, fun u hu => ?_⟩
  · rw [← h.tables, Mem.tables, hpte]
    exact Radix.tables_setLeaf (vpath_lt v) hnd' hq
  · rw [Mem.Inner, hpte]
    exact Radix.inner_setLeaf (vpath_lt v) hnd' hq h.inner
  · rw [Mem.entry, Mem.entryAt, hpte, Radix.lookup_setLeaf (vpath_lt v) (vpath_lt u) hnd' hq]
    by_cases huv : u = v
    · subst huv
      rw [if_pos fun _ _ => rfl, Function.update_self]
    · rw [if_neg fun he => huv (Radix.path_inj 2 hv hu he), Function.update_of_ne huv]
      exact h.entry u hu

theorem PageTable.leaf_set (h : PageTable s t T e) (hnd : T.Nodup) {w u : Nat}
    (hq : s.leafTable 2 t v = some q) (hw : w < 2 ^ 64) :
    (s.setPte q (vpath v 0) w).leafTable 2 t u = s.leafTable 2 t u := by
  have hnd' : (Radix.tables pteFormat s.pte 2 t).Nodup := by
    have h1 := h.tables
    rw [Mem.tables] at h1
    rwa [h1]
  rw [Mem.leafTable, Mem.pte_setPte (vpath_lt v 0) hw]
  exact Radix.leafTable_setLeaf (vpath_lt v) (vpath_lt u) hnd' hq

/-- Pages of one block of 512 share their leaf table. -/
theorem Mem.leafTable_block {u : Nat} (h : u / 512 = v / 512) : s.leafTable 2 t u = s.leafTable 2 t v := by
  refine Radix.leafTable_px fun l hl _ => ?_
  obtain ⟨k, rfl⟩ : ∃ k, l = k + 1 := ⟨l - 1, by omega⟩
  rw [vpath, vpath, Radix.path_succ, Radix.path_succ, h]

end Xv6
