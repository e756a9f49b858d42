import Xv6.Lib.Chain
import Xv6.Umalloc.Defs

/-!
# `free` keeps the free list

* `HeapOk base h F L` — the free list is `base` and the blocks `F` in the order of their addresses, no two of
  them touch, and `F` with the live blocks `L` tiles the memory from `sbrk`.
* `freeLoop_finds` — from any block of the list the search ends at the one before `bp`.
* `joinUp_spec`, `joinDown_spec` — the two joins.
* `free_returns` — the block is in the list, perhaps as a part of a larger one.
-/

namespace Xv6

open Prog

namespace Umalloc

structure Block where
  addr : Nat
  size : Nat
  deriving DecidableEq, Repr

def Block.seg (b : Block) : Seg := ⟨b.addr, b.addr + HEADER * b.size⟩

/-- The links of the free list. -/
def Heap.next (h : Heap) (p : Nat) : Nat := (h.hdr p).ptr

/-- The addresses of blocks. -/
def addrs (F : List Block) : List Nat := F.map Block.addr

/-- In the order of addresses, with live memory between any two. -/
def Sorted (F : List Block) : Prop := F.Pairwise fun a b => a.seg.hi < b.seg.lo

structure HeapOk (base : Nat) (h : Heap) (F L : List Block) : Prop where
  linked : Linked h.next base (addrs F) base
  freep : h.freep ∈ base :: addrs F
  base_size : (h.hdr base).size = 0
  size : ∀ b ∈ F ++ L, (h.hdr b.addr).size = b.size
  sorted : Sorted F
  tiles : Tiles ((F ++ L).map Block.seg) h.core
  core : ∀ r ∈ h.core, base + HEADER ≤ r.lo ∧ r.hi ≤ USER_TOP

variable {base bp p : Nat} {h h' : Heap} {F F₁ F₂ L L' : List Block} {b : Block}

/-! ## Blocks -/

theorem Block.seg_hi (b : Block) : b.seg.hi = b.addr + HEADER * b.size := rfl

theorem Block.seg_lo (b : Block) : b.seg.lo = b.addr := rfl

theorem HeapOk.pos (h : HeapOk base h' F L) (hb : b ∈ F ++ L) : 0 < b.size := by
  have hpos := h.tiles.pos b.seg (List.mem_map.2 ⟨b, hb, rfl⟩)
  rw [Block.seg_lo, Block.seg_hi, HEADER] at hpos
  omega

/-- All blocks lie above `base`. -/
theorem HeapOk.above (h : HeapOk base h' F L) (hb : b ∈ F ++ L) :
    base + HEADER ≤ b.addr ∧ b.seg.hi ≤ USER_TOP :=
  h.tiles.bounds h.core b.seg (List.mem_map.2 ⟨b, hb, rfl⟩)

theorem Sorted.addr_lt (hs : Sorted F) : F.Pairwise fun a b => a.addr < b.addr := by
  refine List.Pairwise.imp (fun {a b} hab => ?_) hs
  rw [Block.seg_lo, Block.seg_hi] at hab
  omega

theorem HeapOk.addrs_nodup (h : HeapOk base h' F L) : (base :: addrs F).Nodup := by
  refine List.nodup_cons.2 ⟨fun hmem => ?_, ?_⟩
  · obtain ⟨b, hb, heq⟩ := List.mem_map.1 hmem
    have := (h.above (List.mem_append.2 (Or.inl hb))).1
    rw [HEADER] at this
    omega
  · exact List.pairwise_map.2 (h.sorted.addr_lt.imp fun hab => Nat.ne_of_lt hab)

/-- The blocks before and after an address that none of them has. -/
theorem split_at (hs : F.Pairwise fun a b => a.addr < b.addr) (hne : ∀ c ∈ F, c.addr ≠ bp) :
    ∃ F₁ F₂, F = F₁ ++ F₂ ∧ (∀ c ∈ F₁, c.addr < bp) ∧ ∀ c ∈ F₂, bp < c.addr := by
  induction F with
  | nil => exact ⟨[], [], rfl, by simp, by simp⟩
  | cons a F ih =>
    obtain ⟨ha, hF⟩ := List.pairwise_cons.1 hs
    rcases Nat.lt_or_gt_of_ne (hne a List.mem_cons_self) with hlt | hgt
    · obtain ⟨F₁, F₂, rfl, h1, h2⟩ := ih hF fun c hc => hne c (List.mem_cons_of_mem a hc)
      refine ⟨a :: F₁, F₂, rfl, fun c hc => ?_, h2⟩
      rcases List.mem_cons.1 hc with rfl | hc
      · exact hlt
      · exact h1 c hc
    · refine ⟨[], a :: F, rfl, by simp, fun c hc => ?_⟩
      rcases List.mem_cons.1 hc with rfl | hc
      · exact hgt
      · exact Nat.lt_trans hgt (ha c hc)

/-! ## The search of `free` -/

/-- The two ways in which the loop ends. -/
def Stops (h : Heap) (bp p : Nat) : Prop :=
  (bp > p ∧ bp < h.next p) ∨ (p ≥ h.next p ∧ (bp > p ∨ bp < h.next p))

/-- One iteration. -/
theorem freeLoop_succ (n : Nat) : freeLoop bp (n + 1) p h =
    if bp > p ∧ bp < h.next p then .ok p h
    else if p ≥ h.next p ∧ (bp > p ∨ bp < h.next p) then .ok p h
    else freeLoop bp n (h.next p) h := by
  unfold Heap.next
  show (ite _ _ (ite _ _ _) : Prog Heap Nat) h = _
  split
  · rfl
  · split <;> rfl

theorem freeLoop_stops (hs : Stops h bp p) : Returns (fun n => freeLoop bp n p) h p h := by
  refine ⟨1, fun fuel hn => ?_⟩
  obtain ⟨n, rfl⟩ : ∃ n, fuel = n + 1 := ⟨fuel - 1, by omega⟩
  dsimp only
  rw [freeLoop_succ]
  rcases hs with h1 | h2
  · rw [if_pos h1]
  · rw [if_pos h2, ite_self]

theorem freeLoop_next (hs : ¬ Stops h bp p) {q : Nat} (hr : Returns (fun n => freeLoop bp n (h.next p)) h q h) :
    Returns (fun n => freeLoop bp n p) h q h := by
  obtain ⟨n, hn⟩ := hr
  refine ⟨n + 1, fun fuel hle => ?_⟩
  obtain ⟨k, rfl⟩ : ∃ k, fuel = k + 1 := ⟨fuel - 1, by omega⟩
  dsimp only
  rw [freeLoop_succ, if_neg fun h1 => hs (Or.inl h1), if_neg fun h2 => hs (Or.inr h2)]
  exact hn k (by omega)

variable {a c : Block} {A : List Block} {l : List Nat} {rs : List Seg}

/-- The search passes over cells where it does not end. -/
theorem freeLoop_walk {x e q : Nat} (hl : Linked h.next x l e) (hs : ∀ c ∈ x :: l, ¬ Stops h bp c)
    (hr : Returns (fun n => freeLoop bp n e) h q h) : Returns (fun n => freeLoop bp n x) h q h := by
  induction l generalizing x with
  | nil =>
    refine freeLoop_next (hs x List.mem_cons_self) ?_
    rw [show h.next x = e from hl]
    exact hr
  | cons y l ih =>
    refine freeLoop_next (hs x List.mem_cons_self) ?_
    rw [hl.1]
    exact ih hl.2 fun c hc => hs c (List.mem_cons_of_mem x hc)

/-- A part of the list below `bp`. -/
theorem not_stops_below {x e : Nat} (hl : Linked h.next x l e)
    (hs : (x :: (l ++ [e])).Pairwise (· < ·)) (he : e < bp) : ∀ c ∈ x :: l, ¬ Stops h bp c := by
  induction l generalizing x with
  | nil =>
    intro c hc
    rw [List.mem_singleton.1 hc]
    have hx : x < e := (List.pairwise_cons.1 hs).1 e (by simp)
    have hnext : h.next x = e := hl
    unfold Stops
    omega
  | cons y l ih =>
    intro c hc
    obtain ⟨hx, hs'⟩ := List.pairwise_cons.1 hs
    rcases List.mem_cons.1 hc with rfl | hc
    · have hxy : c < y := hx y (by simp)
      have hye : y < e := (List.pairwise_cons.1 hs').1 e (by simp)
      have hnext : h.next c = y := hl.1
      unfold Stops
      omega
    · exact ih hl.2 hs' c hc

/-- A part of the list above `bp`, up to `base`. -/
theorem not_stops_above {x : Nat} (hl : Linked h.next x l base)
    (hs : (x :: l).Pairwise (· < ·)) (hx : bp < x) (hb : base < bp) : ∀ c ∈ x :: l, ¬ Stops h bp c := by
  induction l generalizing x with
  | nil =>
    intro c hc
    rw [List.mem_singleton.1 hc]
    have hnext : h.next x = base := hl
    unfold Stops
    omega
  | cons y l ih =>
    intro c hc
    obtain ⟨hxy, hs'⟩ := List.pairwise_cons.1 hs
    have hlt : x < y := hxy y (by simp)
    rcases List.mem_cons.1 hc with rfl | hc
    · have hnext : h.next c = y := hl.1
      unfold Stops
      omega
    · exact ih hl.2 hs' (by omega) c hc

/-- The block of the list before `bp`. -/
def pred (base : Nat) (F₁ : List Block) : Nat := (addrs F₁).getLastD base

theorem pred_mem (base : Nat) (F₁ : List Block) : pred base F₁ ∈ base :: addrs F₁ := List.getLastD_mem_cons

theorem addrs_append (F₁ F₂ : List Block) : addrs (F₁ ++ F₂) = addrs F₁ ++ addrs F₂ := List.map_append

theorem HeapOk.addrs_sorted (hok : HeapOk base h F L) : (base :: addrs F).Pairwise (· < ·) := by
  refine List.pairwise_cons.2 ⟨fun x hx => ?_, List.pairwise_map.2 hok.sorted.addr_lt⟩
  obtain ⟨c, hc, rfl⟩ := List.mem_map.1 hx
  have := (hok.above (List.mem_append.2 (Or.inl hc))).1
  rw [HEADER] at this
  omega

/-- **The search ends at the block before `bp`.** -/
theorem freeLoop_finds (hlinked : Linked h.next base (addrs F₁ ++ addrs F₂) base)
    (hfreep : h.freep ∈ base :: (addrs F₁ ++ addrs F₂)) (hsort : (base :: (addrs F₁ ++ addrs F₂)).Pairwise (· < ·))
    (hb : base < bp) (h1 : ∀ c ∈ F₁, c.addr < bp) (h2 : ∀ c ∈ F₂, bp < c.addr) :
    Returns (fun n => freeLoop bp n h.freep) h (pred base F₁) h := by
  have hbelow : ∀ x ∈ base :: addrs F₁, x < bp := by
    intro x hx
    rcases List.mem_cons.1 hx with rfl | hx
    · exact hb
    · obtain ⟨c, hc, rfl⟩ := List.mem_map.1 hx
      exact h1 c hc
  have habove : ∀ x ∈ addrs F₂, bp < x := by
    intro x hx
    obtain ⟨c, hc, rfl⟩ := List.mem_map.1 hx
    exact h2 c hc
  -- at the predecessor the search ends
  have hstop : Stops h bp (pred base F₁) := by
    have hnext : h.next (pred base F₁) = (addrs F₂).headD base := hlinked.append_right.head
    have hlt := hbelow _ (pred_mem base F₁)
    cases hF : addrs F₂ with
    | nil =>
      rw [hF] at hnext
      have hge : base ≤ pred base F₁ := by
        rcases List.mem_cons.1 (pred_mem base F₁) with heq | hmem
        · exact heq.ge
        · exact Nat.le_of_lt ((List.pairwise_cons.1 hsort).1 _ (List.mem_append.2 (Or.inl hmem)))
      exact Or.inr ⟨hnext ▸ hge, Or.inl hlt⟩
    | cons y l =>
      rw [hF] at hnext
      exact Or.inl ⟨hlt, hnext ▸ habove y (hF ▸ List.mem_cons_self)⟩
  -- from a block below `bp`
  have hfrom : ∀ x ∈ base :: addrs F₁, Returns (fun n => freeLoop bp n x) h (pred base F₁) h := by
    intro x hx
    obtain ⟨l₁, l₂, hl, rfl⟩ := List.exists_getLastD hx
    rcases List.eq_nil_or_concat' l₂ with rfl | ⟨l₂, y, rfl⟩
    · have heq : pred base F₁ = l₁.getLastD base := by rw [pred, hl, List.append_nil]
      rw [← heq]
      exact freeLoop_stops hstop
    · have hy : pred base F₁ = y := by rw [pred, hl, ← List.append_assoc, List.getLastD_concat]
      have hpart : Linked h.next (l₁.getLastD base) l₂ y := by
        rw [hl, List.append_assoc] at hlinked
        have := hlinked.append_right
        rw [List.append_assoc] at this
        exact (Linked.append_iff.1 this).1
      have hsub : (l₁.getLastD base :: (l₂ ++ [y])).Sublist (base :: addrs F₁) := by
        rw [hl]
        rcases List.eq_nil_or_concat' l₁ with rfl | ⟨l₁, z, rfl⟩
        · exact List.Sublist.refl _
        · rw [List.getLastD_concat, List.append_assoc]
          exact ((List.sublist_append_right l₁ _).cons base)
      refine freeLoop_walk hpart (not_stops_below hpart ?_ ?_) ?_
      · exact (hsort.sublist (List.sublist_append_left (base :: addrs F₁) (addrs F₂))).sublist hsub
      · rw [← hy]
        exact hbelow _ (pred_mem base F₁)
      · rw [← hy]
        exact freeLoop_stops hstop
  rcases List.mem_cons.1 hfreep with heq | hmem
  · exact hfrom _ (heq ▸ List.mem_cons_self)
  · rcases List.mem_append.1 hmem with hmem | hmem
    · exact hfrom _ (List.mem_cons_of_mem _ hmem)
    · -- from a block above `bp`: first around to `base`
      obtain ⟨l₁, l₂, hl⟩ := List.append_of_mem hmem
      have hpart : Linked h.next h.freep l₂ base := by
        have := hlinked.append_right
        rw [hl] at this
        exact (Linked.append_iff.1 this).2
      have hsub : (h.freep :: l₂).Sublist (base :: (addrs F₁ ++ addrs F₂)) := by
        rw [hl, ← List.append_assoc]
        exact (List.sublist_append_right _ _).cons base
      exact freeLoop_walk hpart (not_stops_above hpart (hsort.sublist hsub) (habove _ hmem) hb)
        (hfrom base List.mem_cons_self)

/-! ## The joins -/

/-- Another order of the blocks. -/
theorem tiles_perm {B : List Block} (h : Tiles (A.map Block.seg) rs) (hp : A.Perm B) :
    Tiles (B.map Block.seg) rs := h.perm (hp.map _)

/-- Two blocks that touch are one block. -/
theorem tiles_merge (h : Tiles ((a :: c :: A).map Block.seg) rs)
    (hac : a.seg.hi = c.addr) : Tiles ((⟨a.addr, a.size + c.size⟩ :: A : List Block).map Block.seg) rs := by
  have hm := h.merge hac
  have hseg : Block.seg ⟨a.addr, a.size + c.size⟩ = ⟨a.seg.lo, c.seg.hi⟩ := by
    have hhi : a.addr + HEADER * (a.size + c.size) = c.addr + HEADER * c.size := by
      rw [Block.seg_hi] at hac
      rw [← hac, Nat.mul_add, Nat.add_assoc]
    show Seg.mk a.addr (a.addr + HEADER * (a.size + c.size)) = ⟨a.addr, c.addr + HEADER * c.size⟩
    rw [hhi]
  rw [List.map_cons, hseg]
  exact hm

/-- Blocks below `USER_TOP` have sizes that fit 32 bits. -/
theorem HeapOk.size_lt (hcore : ∀ r ∈ h.core, base + HEADER ≤ r.lo ∧ r.hi ≤ USER_TOP)
    (ht : Tiles (A.map Block.seg) h.core) (hb : b ∈ A) : b.size < 2 ^ 32 := by
  have hhi := (ht.bounds hcore b.seg (List.mem_map.2 ⟨b, hb, rfl⟩)).2
  rw [Block.seg_hi] at hhi
  simp only [HEADER, USER_TOP] at hhi
  omega

theorem apart_of_lt (h : a.seg.Apart c.seg) (hc : 0 < c.size) (hlt : a.addr < c.addr) : a.seg.hi ≤ c.addr := by
  unfold Seg.Apart at h
  simp only [Block.seg, HEADER] at h ⊢
  omega

theorem joinUp_eq : joinUp h bp p =
    if bp + HEADER * (h.hdr bp).size = h.next p then
      h.set bp ⟨h.next (h.next p), ((h.hdr bp).size + (h.hdr (h.next p)).size) % 2 ^ 32⟩
    else h.set bp ⟨h.next p, (h.hdr bp).size⟩ := rfl

theorem joinDown_eq : joinDown h bp p =
    if p + HEADER * (h.hdr p).size = bp then
      h.set p ⟨h.next bp, ((h.hdr p).size + (h.hdr bp).size) % 2 ^ 32⟩
    else h.set p ⟨bp, (h.hdr p).size⟩ := rfl

/-- The first `if` of `free`: the block `m` at `bp` stands before the blocks `G`. -/
theorem joinUp_spec (hok : HeapOk base h (F₁ ++ F₂) (b :: L)) (h2 : ∀ c ∈ F₂, b.addr < c.addr)
    (hp : h.next p = (addrs F₂).headD base) :
    ∃ m D G, F₂ = D ++ G ∧ m.addr = b.addr ∧ b.size ≤ m.size ∧
      joinUp h b.addr p = h.set b.addr ⟨(addrs G).headD base, m.size⟩ ∧ (∀ c ∈ G, m.seg.hi < c.addr) ∧
      Tiles ((m :: (F₁ ++ G ++ L)).map Block.seg) h.core := by
  have hbmem : b ∈ F₁ ++ F₂ ++ b :: L := by simp
  have hbsize := hok.size b hbmem
  have hstay : ∀ q, b.seg.hi ≠ h.next p → h.next p = q →
      joinUp h b.addr p = h.set b.addr ⟨q, b.size⟩ := by
    rintro q hne rfl
    rw [Block.seg_hi] at hne
    rw [joinUp_eq, hbsize, if_neg hne]
  have htiles := tiles_perm hok.tiles (B := b :: (F₁ ++ F₂ ++ L)) List.perm_middle
  cases F₂ with
  | nil =>
    refine ⟨b, [], [], rfl, rfl, Nat.le_refl _, hstay _ ?_ hp, by simp, htiles⟩
    have habove := (hok.above hbmem).1
    rw [hp, Block.seg_hi]
    simp only [addrs, List.map_nil, List.headD_nil, HEADER] at habove ⊢
    omega
  | cons f F₃ =>
    have hnext : h.next p = f.addr := hp
    have hfmem : f ∈ F₁ ++ f :: F₃ ++ b :: L := by simp
    have hsorted := (List.pairwise_cons.1 (List.pairwise_append.1 hok.sorted).2.1).1
    by_cases hjoin : b.seg.hi = f.addr
    · have htiles' := tiles_merge (a := b) (c := f) (A := F₁ ++ F₃ ++ L) (tiles_perm htiles (by
        rw [List.append_assoc, List.append_assoc]
        exact List.Perm.cons b List.perm_middle)) hjoin
      have hlt := HeapOk.size_lt hok.core htiles' (b := ⟨b.addr, b.size + f.size⟩) (by simp)
      have hfnext : h.next f.addr = (addrs F₃).headD base := by
        have hl := hok.linked
        rw [addrs_append] at hl
        exact (Linked.append_iff.1 hl).2.head
      refine ⟨⟨b.addr, b.size + f.size⟩, [f], F₃, rfl, rfl, Nat.le_add_right _ _, ?_, fun c hc => ?_, htiles'⟩
      · rw [Block.seg_hi] at hjoin
        rw [joinUp_eq, hbsize, hnext, if_pos hjoin, hok.size f hfmem, hfnext, Nat.mod_eq_of_lt hlt]
      · have hc' := hsorted c hc
        rw [Block.seg_hi] at hjoin hc' ⊢
        rw [Block.seg_lo] at hc'
        simp only [HEADER] at *
        omega
    · have hapart : ∀ c ∈ f :: F₃, b.seg.hi ≤ c.addr := by
        intro c hc
        have hmem : c ∈ F₁ ++ f :: F₃ ++ L := by
          simp only [List.mem_append]
          exact Or.inl (Or.inr hc)
        have hap := (List.pairwise_cons.1 htiles.apart).1 c.seg (List.mem_map.2 ⟨c, hmem, rfl⟩)
        refine apart_of_lt hap (hok.pos (L := b :: L) ?_) (h2 c hc)
        simp only [List.mem_append]
        exact Or.inl (Or.inr hc)
      refine ⟨b, [], f :: F₃, rfl, rfl, Nat.le_refl _, hstay _ (hnext ▸ hjoin) hp, fun c hc => ?_, htiles⟩
      have hf := hapart f List.mem_cons_self
      rcases List.mem_cons.1 hc with rfl | hc
      · exact lt_of_le_of_ne hf hjoin
      · have := hsorted c hc
        rw [Block.seg_lo, Block.seg_hi] at this
        omega

theorem addr_ne_of_apart (h : a.seg.Apart c.seg) (ha : 0 < a.size) (hc : 0 < c.size) : a.addr ≠ c.addr := by
  unfold Seg.Apart at h
  simp only [Block.seg, HEADER] at h
  omega

theorem tiles_pos (h : Tiles (A.map Block.seg) rs) (hc : c ∈ A) : 0 < c.size := by
  have hpos := h.pos c.seg (List.mem_map.2 ⟨c, hc, rfl⟩)
  rw [Block.seg_lo, Block.seg_hi, HEADER] at hpos
  omega

/-- The first block of a tiling starts where no other does. -/
theorem tiles_head_ne (h : Tiles ((a :: A).map Block.seg) rs) (hc : c ∈ A) : c.addr ≠ a.addr := by
  have hap := (List.pairwise_cons.1 h.apart).1 c.seg (List.mem_map.2 ⟨c, hc, rfl⟩)
  exact (addr_ne_of_apart hap (tiles_pos h List.mem_cons_self) (tiles_pos h (List.mem_cons_of_mem a hc))).symm

@[simp] theorem Heap.set_hdr_self (h : Heap) (p : Nat) (x : Header) : (h.set p x).hdr p = x := Function.update_self ..

theorem Heap.set_hdr_ne (h : Heap) {p q : Nat} (x : Header) (hne : q ≠ p) : (h.set p x).hdr q = h.hdr q :=
  Function.update_of_ne hne ..

/-- The blocks of `D` and `b` make room for the cells `l`. -/
theorem HeapOk.relink {D G F' : List Block} (hok : HeapOk base h (F₁ ++ (D ++ G)) (b :: L))
    (h1 : ∀ c ∈ F₁, c.addr < b.addr) (hG : ∀ c ∈ G, b.addr < c.addr)
    (hother : ∀ z, z ≠ b.addr → z ≠ pred base F₁ → h'.hdr z = h.hdr z) (hfreep : h'.freep = pred base F₁)
    (hcore : h'.core = h.core) (haddrs : addrs F' = addrs F₁ ++ (l ++ addrs G))
    (hl : Linked h'.next (pred base F₁) l ((addrs G).headD base)) (hbase : (h'.hdr base).size = 0)
    (hsize : ∀ c ∈ F' ++ L, (h'.hdr c.addr).size = c.size) (hsorted : Sorted F')
    (ht : Tiles ((F' ++ L).map Block.seg) h.core) : HeapOk base h' F' L := by
  have hlow : ∀ z ∈ base :: addrs F₁, z < b.addr := by
    intro z hz
    rcases List.mem_cons.1 hz with rfl | hz
    · have := (hok.above (b := b) (by simp)).1
      rw [HEADER] at this
      omega
    · obtain ⟨c, hc, rfl⟩ := List.mem_map.1 hz
      exact h1 c hc
  have hp := hlow _ (pred_mem base F₁)
  have hlinked := hok.linked
  have hnd := hok.addrs_nodup
  simp only [addrs_append] at hlinked hnd
  refine ⟨?_, ?_, hbase, hsize, hsorted, hcore ▸ ht, hcore ▸ hok.core⟩
  · rw [haddrs]
    refine hlinked.splice ?_ (fun z hz hne => ?_) (fun z hz => ?_) hl
    · exact hnd.sublist (List.sublist_append_left (base :: addrs F₁) _)
    · exact congrArg Header.ptr (hother z (Nat.ne_of_lt (hlow z hz)) hne)
    · obtain ⟨c, hc, rfl⟩ := List.mem_map.1 hz
      have hgt := hG c hc
      exact congrArg Header.ptr (hother _ (Nat.ne_of_gt hgt) (by omega))
  · rw [haddrs, hfreep, ← List.cons_append]
    exact List.mem_append.2 (Or.inl (pred_mem base F₁))

/-- The blocks before an address, and a block there, and blocks after it. -/
theorem sorted_insert {m : Block} {D G : List Block} (hs : Sorted (F₁ ++ (D ++ G)))
    (h1 : ∀ c ∈ F₁, c.seg.hi < m.addr) (hG : ∀ c ∈ G, m.seg.hi < c.addr) : Sorted (F₁ ++ m :: G) := by
  obtain ⟨hF, hDG, hcross⟩ := List.pairwise_append.1 hs
  refine List.pairwise_append.2 ⟨hF, List.pairwise_cons.2 ⟨hG, (List.pairwise_append.1 hDG).2.1⟩, fun c hc d hd => ?_⟩
  rcases List.mem_cons.1 hd with rfl | hd
  · exact h1 c hc
  · exact hcross c hc d (List.mem_append.2 (Or.inr hd))

theorem pred_concat (F₀ : List Block) (g : Block) : pred base (F₀ ++ [g]) = g.addr := by
  unfold pred
  rw [addrs_append]
  exact List.getLastD_concat

section join

variable {m g : Block} {D G F₀ : List Block}

theorem HeapOk.base_lt (hok : HeapOk base h F L) (hb : b ∈ F ++ L) : base < b.addr := by
  have := (hok.above hb).1
  rw [HEADER] at this
  omega

/-- The block before `bp` has grown over it. -/
theorem HeapOk.join_below (hok : HeapOk base h (F₀ ++ [g] ++ (D ++ G)) (b :: L))
    (h1 : ∀ c ∈ F₀ ++ [g], c.addr < b.addr) (hm : m.addr = b.addr) (hG : ∀ c ∈ G, m.seg.hi < c.addr)
    (ht : Tiles ((m :: (F₀ ++ [g] ++ G ++ L)).map Block.seg) h.core) (hjoin : g.seg.hi = b.addr)
    (hg : h'.hdr g.addr = ⟨(addrs G).headD base, g.size + m.size⟩)
    (hother : ∀ z, z ≠ b.addr → z ≠ g.addr → h'.hdr z = h.hdr z) (hfreep : h'.freep = g.addr)
    (hcore : h'.core = h.core) : HeapOk base h' (F₀ ++ ⟨g.addr, g.size + m.size⟩ :: G) L := by
  have hGlt : ∀ c ∈ G, b.addr < c.addr := by
    intro c hc
    have := hG c hc
    rw [Block.seg_hi] at this
    omega
  have hperm : (m :: (F₀ ++ [g] ++ G ++ L)).Perm (g :: m :: (F₀ ++ G ++ L)) := by
    simp only [List.append_assoc, List.singleton_append]
    exact (List.Perm.cons m List.perm_middle).trans (List.Perm.swap g m _)
  have ht₁ := tiles_perm ht hperm
  have ht₂ := tiles_merge ht₁ (hjoin.trans hm.symm)
  -- no other block starts at `bp` or at the block before it
  have hkeep : ∀ c ∈ F₀ ++ G ++ L, h'.hdr c.addr = h.hdr c.addr := by
    intro c hc
    refine hother c.addr ?_ (tiles_head_ne ht₁ (List.mem_cons_of_mem m hc))
    exact hm ▸ tiles_head_ne (tiles_perm ht₁ (List.Perm.swap m g _)) (List.mem_cons_of_mem g hc)
  refine hok.relink (l := []) h1 hGlt (by rw [pred_concat]; exact hother) (by rw [pred_concat]; exact hfreep) hcore
    (by simp [addrs]) ?_ ?_ (fun c hc => ?_) ?_ ?_
  · rw [pred_concat]
    exact congrArg Header.ptr hg
  · rw [hother base (Nat.ne_of_lt (hok.base_lt (by simp))) (Nat.ne_of_lt (hok.base_lt (by simp)))]
    exact hok.base_size
  · by_cases hcg : c = ⟨g.addr, g.size + m.size⟩
    · rw [hcg, hg]
    · have hmem : c ∈ F₀ ++ G ++ L := by
        simp only [List.append_assoc, List.mem_append, List.cons_append, List.mem_cons] at hc ⊢
        tauto
      rw [hkeep c hmem]
      refine hok.size c ?_
      simp only [List.append_assoc, List.mem_append, List.mem_cons] at hmem ⊢
      tauto
  · rw [List.append_assoc] at hok
    refine sorted_insert (D := g :: D) hok.sorted (fun c hc => ?_) fun c hc => ?_
    · exact (List.pairwise_append.1 hok.sorted).2.2 c hc g (by simp)
    · have := hG c hc
      simp only [Block.seg_hi, HEADER] at this hjoin ⊢
      omega
  · refine tiles_perm ht₂ ?_
    rw [List.append_assoc, List.append_assoc]
    exact List.perm_middle.symm

/-- The block before `bp` points to it. -/
theorem HeapOk.link_in (hok : HeapOk base h (F₁ ++ (D ++ G)) (b :: L)) (h1 : ∀ c ∈ F₁, c.seg.hi < b.addr)
    (hm : m.addr = b.addr) (hG : ∀ c ∈ G, m.seg.hi < c.addr)
    (ht : Tiles ((m :: (F₁ ++ G ++ L)).map Block.seg) h.core)
    (hb : h'.hdr b.addr = ⟨(addrs G).headD base, m.size⟩)
    (hp : h'.hdr (pred base F₁) = ⟨b.addr, (h.hdr (pred base F₁)).size⟩)
    (hother : ∀ z, z ≠ b.addr → z ≠ pred base F₁ → h'.hdr z = h.hdr z) (hfreep : h'.freep = pred base F₁)
    (hcore : h'.core = h.core) : HeapOk base h' (F₁ ++ m :: G) L := by
  have hGlt : ∀ c ∈ G, b.addr < c.addr := by
    intro c hc
    have := hG c hc
    rw [Block.seg_hi] at this
    omega
  have hlow : ∀ c ∈ F₁, c.addr < b.addr := by
    intro c hc
    have := h1 c hc
    rw [Block.seg_hi] at this
    omega
  have hsize : ∀ z, z ≠ b.addr → (h'.hdr z).size = (h.hdr z).size := by
    intro z hz
    by_cases hzp : z = pred base F₁
    · rw [hzp, hp]
    · rw [hother z hz hzp]
  refine hok.relink (l := [b.addr]) hlow hGlt hother hfreep hcore ?_ ?_ ?_ (fun c hc => ?_) ?_ ?_
  · simp [addrs, hm]
  · exact ⟨congrArg Header.ptr hp, congrArg Header.ptr hb⟩
  · rw [hsize base (Nat.ne_of_lt (hok.base_lt (by simp)))]
    exact hok.base_size
  · by_cases hcm : c = m
    · rw [hcm, hm, hb]
    · have hmem : c ∈ F₁ ++ G ++ L := by
        simp only [List.append_assoc, List.mem_append, List.cons_append, List.mem_cons] at hc ⊢
        tauto
      rw [hsize c.addr (hm ▸ tiles_head_ne ht hmem)]
      refine hok.size c ?_
      simp only [List.append_assoc, List.mem_append, List.mem_cons] at hmem ⊢
      tauto
  · exact sorted_insert hok.sorted (fun c hc => hm ▸ h1 c hc) hG
  · refine tiles_perm ht ?_
    rw [List.append_assoc, List.append_assoc]
    exact List.perm_middle.symm

/-- The second `if` of `free`. -/
theorem joinDown_spec (hok : HeapOk base h (F₁ ++ (D ++ G)) (b :: L)) (h1 : ∀ c ∈ F₁, c.addr < b.addr)
    (hm : m.addr = b.addr) (hG : ∀ c ∈ G, m.seg.hi < c.addr)
    (ht : Tiles ((m :: (F₁ ++ G ++ L)).map Block.seg) h.core) :
    ∃ F', HeapOk base { joinDown (h.set b.addr ⟨(addrs G).headD base, m.size⟩) b.addr (pred base F₁) with
      freep := pred base F₁ } F' L ∧ ∃ f ∈ F', m.size ≤ f.size := by
  have hp : pred base F₁ ≠ b.addr := by
    rcases List.mem_cons.1 (pred_mem base F₁) with heq | hmem
    · rw [heq]
      exact Nat.ne_of_lt (hok.base_lt (by simp))
    · obtain ⟨c, hc, heq⟩ := List.mem_map.1 hmem
      rw [← heq]
      exact Nat.ne_of_lt (h1 c hc)
  have hset : (h.set b.addr ⟨(addrs G).headD base, m.size⟩).hdr (pred base F₁) = h.hdr (pred base F₁) :=
    Heap.set_hdr_ne _ _ hp
  rw [joinDown_eq, hset, Heap.next, Heap.set_hdr_self]
  by_cases hjoin : pred base F₁ + HEADER * (h.hdr (pred base F₁)).size = b.addr
  · rw [if_pos hjoin]
    rcases List.eq_nil_or_concat' F₁ with rfl | ⟨F₀, g, rfl⟩
    · have hz : pred base [] = base := rfl
      rw [hz, hok.base_size, Nat.mul_zero] at hjoin
      exact absurd hjoin (Nat.ne_of_lt (hok.base_lt (by simp)))
    · rw [pred_concat, hok.size g (by simp)] at hjoin ⊢
      rw [pred_concat] at hp
      have hperm : (m :: (F₀ ++ [g] ++ G ++ L)).Perm (g :: m :: (F₀ ++ G ++ L)) := by
        simp only [List.append_assoc, List.singleton_append]
        exact (List.Perm.cons m List.perm_middle).trans (List.Perm.swap g m _)
      have hlt := HeapOk.size_lt hok.core (tiles_merge (tiles_perm ht hperm) (hjoin.trans hm.symm))
        (b := ⟨g.addr, g.size + m.size⟩) List.mem_cons_self
      dsimp only at hlt ⊢
      rw [Nat.mod_eq_of_lt hlt]
      refine ⟨F₀ ++ ⟨g.addr, g.size + m.size⟩ :: G, ?_, _, List.mem_append.2 (Or.inr List.mem_cons_self),
        Nat.le_add_left _ _⟩
      exact hok.join_below h1 hm hG ht hjoin (Heap.set_hdr_self ..)
        (fun z hz1 hz2 => (Heap.set_hdr_ne _ _ hz2).trans (Heap.set_hdr_ne _ _ hz1)) rfl rfl
  · rw [if_neg hjoin]
    refine ⟨F₁ ++ m :: G, hok.link_in (fun c hc => ?_) hm hG ht ?_ (Heap.set_hdr_self ..)
      (fun z hz1 hz2 => (Heap.set_hdr_ne _ _ hz2).trans (Heap.set_hdr_ne _ _ hz1)) rfl rfl,
      m, List.mem_append.2 (Or.inr List.mem_cons_self), Nat.le_refl _⟩
    · -- the last block before `bp` does not touch it, the others lie lower
      rcases List.eq_nil_or_concat' F₁ with rfl | ⟨F₀, g, rfl⟩
      · cases hc
      · rw [pred_concat, hok.size g (by simp)] at hjoin
        have hap := (List.pairwise_cons.1 ht.apart).1 g.seg (List.mem_map.2 ⟨g, by simp, rfl⟩)
        have hle := apart_of_lt hap.symm (tiles_pos ht List.mem_cons_self) (hm ▸ h1 g (by simp))
        rw [hm] at hle
        have hg : g.seg.hi < b.addr := lt_of_le_of_ne hle hjoin
        rcases List.mem_append.1 hc with hc | hc
        · have hs := (List.pairwise_append.1 (List.pairwise_append.1 hok.sorted).1).2.2 c hc g (by simp)
          rw [Block.seg_hi] at hg
          rw [Block.seg_lo] at hs
          omega
        · rw [List.mem_singleton.1 hc]
          exact hg
    · exact (Heap.set_hdr_ne _ _ hp.symm).trans (Heap.set_hdr_self ..)

end join

/-- `free` after its search. -/
theorem free_run (hfind : Returns (fun n => freeLoop bp n h.freep) h p h) :
    Returns (fun n => free n (bp + HEADER)) h () { joinDown (joinUp h bp p) bp p with freep := p } := by
  obtain ⟨n, hn⟩ := hfind
  refine ⟨n, fun fuel hfuel => ?_⟩
  have hrun := hn fuel hfuel
  dsimp only
  unfold free
  rw [Nat.add_sub_cancel]
  exact bind_ok.2 ⟨h, h, rfl, bind_ok.2 ⟨p, h, hrun, rfl⟩⟩

/-- **`free` puts a live block into the free list**, joined with the blocks that it touches. -/
theorem free_returns (hok : HeapOk base h F (b :: L)) :
    ∃ h' F', Returns (fun n => free n (b.addr + HEADER)) h () h' ∧ HeapOk base h' F' L ∧ h'.core = h.core ∧
      ∃ f ∈ F', b.size ≤ f.size := by
  have hne : ∀ c ∈ F, c.addr ≠ b.addr := fun c hc =>
    tiles_head_ne (tiles_perm hok.tiles List.perm_middle) (List.mem_append.2 (Or.inl hc))
  obtain ⟨F₁, F₂, rfl, h1, h2⟩ := split_at hok.sorted.addr_lt hne
  have hl := hok.linked
  have hfreep := hok.freep
  have hsort := hok.addrs_sorted
  rw [addrs_append] at hl hfreep hsort
  have hfind := freeLoop_finds hl hfreep hsort (hok.base_lt (by simp)) h1 h2
  have hnext : h.next (pred base F₁) = (addrs F₂).headD base := hl.append_right.head
  obtain ⟨m, D, G, rfl, hm, hle, hup, hG, ht⟩ := joinUp_spec hok h2 hnext
  obtain ⟨F', hok', f, hf, hmf⟩ := joinDown_spec hok h1 hm hG ht
  refine ⟨_, F', ?_, hok', ?_, f, hf, hle.trans hmf⟩
  · rw [← hup]
    exact free_run hfind
  · rw [joinDown_eq]
    split <;> rfl

end Umalloc

end Xv6
