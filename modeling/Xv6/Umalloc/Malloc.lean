import Xv6.Umalloc.Free

/-!
# `malloc` keeps the free list

* `take_spec` — the block found is taken out of the list, or cut in two.
* `mallocLoop_fits` — from any block of the list the search finds one that is large enough, if there is one.
* `mallocLoop_asks` — otherwise it comes back to `freep` and calls `morecore`.
* `malloc_returns` — a null pointer, or a block of the size asked for.
-/

namespace Xv6

open Prog

namespace Umalloc

variable {base bp p prevp nunits : Nat} {h h' : Heap} {F F₁ F₂ L : List Block} {b : Block} {answer : Option Nat}

/-! ## Taking a block -/

theorem tiles_split {A : List Block} {rs : List Seg} (h : Tiles ((b :: A).map Block.seg) rs) {n : Nat} (hpos : 0 < n)
    (hlt : n < b.size) : Tiles ((⟨b.addr, b.size - n⟩ :: ⟨b.addr + HEADER * (b.size - n), n⟩ :: A : List Block).map
      Block.seg) rs := by
  have hs := h.split (m := b.addr + HEADER * (b.size - n)) (show b.addr < _ by simp only [HEADER]; omega)
    (show _ < b.addr + HEADER * b.size by simp only [HEADER]; omega)
  have hend : b.addr + HEADER * (b.size - n) + HEADER * n = b.addr + HEADER * b.size := by
    simp only [HEADER]
    omega
  have hseg : Block.seg ⟨b.addr + HEADER * (b.size - n), n⟩ = ⟨b.addr + HEADER * (b.size - n), b.seg.hi⟩ := by
    show Seg.mk _ _ = Seg.mk _ _
    rw [hend]
    rfl
  rw [List.map_cons, List.map_cons, hseg]
  exact hs

theorem sorted_shrink (hs : Sorted (F₁ ++ b :: F₂)) {n : Nat} (hn : n ≤ b.size) :
    Sorted (F₁ ++ ⟨b.addr, n⟩ :: F₂) := by
  obtain ⟨h1, h2, h3⟩ := List.pairwise_append.1 hs
  obtain ⟨hb, h2'⟩ := List.pairwise_cons.1 h2
  refine List.pairwise_append.2 ⟨h1, List.pairwise_cons.2 ⟨fun c hc => ?_, h2'⟩, fun c hc d hd => ?_⟩
  · have := hb c hc
    simp only [Block.seg, HEADER] at this ⊢
    omega
  · rcases List.mem_cons.1 hd with rfl | hd
    · exact h3 c hc b List.mem_cons_self
    · exact h3 c hc d (List.mem_cons_of_mem b hd)

/-- A block of exactly the size asked for leaves the list. -/
theorem take_whole (hok : HeapOk base h (F₁ ++ b :: F₂) L)
    (hp : h'.hdr (pred base F₁) = ⟨h.next b.addr, (h.hdr (pred base F₁)).size⟩)
    (hother : ∀ z, z ≠ pred base F₁ → h'.hdr z = h.hdr z) (hfreep : h'.freep = pred base F₁)
    (hcore : h'.core = h.core) : HeapOk base h' (F₁ ++ F₂) (b :: L) := by
  have hsize : ∀ z, (h'.hdr z).size = (h.hdr z).size := by
    intro z
    by_cases hz : z = pred base F₁
    · rw [hz, hp]
    · rw [hother z hz]
  have hl := hok.linked
  have hnd := hok.addrs_nodup
  rw [addrs_append] at hl hnd
  have hperm : (F₁ ++ b :: F₂ ++ L).Perm (F₁ ++ F₂ ++ b :: L) := by
    simp only [List.append_assoc, List.cons_append]
    exact List.Perm.append_left F₁ List.perm_middle.symm
  -- the list without `b` has other cells than `b`
  have hcell : ∀ z ∈ addrs F₂, z ≠ pred base F₁ := by
    intro z hz heq
    have hdis := (List.nodup_append.1 (List.cons_append ▸ hnd : (base :: addrs F₁ ++ addrs (b :: F₂)).Nodup)).2.2
    exact hdis _ (pred_mem base F₁) z (List.mem_cons_of_mem _ hz) heq.symm
  refine ⟨?_, ?_, ?_, fun c hc => ?_, ?_, hcore ▸ tiles_perm hok.tiles hperm, hcore ▸ hok.core⟩
  · rw [addrs_append]
    have hl' : Linked h.next base (addrs F₁ ++ ([b.addr] ++ addrs F₂)) base := hl
    refine hl'.splice (l := []) ?_ (fun z _ hne => ?_) (fun z hz => ?_) ?_
    · exact hnd.sublist (List.sublist_append_left (base :: addrs F₁) _)
    · exact congrArg Header.ptr (hother z hne)
    · exact congrArg Header.ptr (hother z (hcell z hz))
    · have hb : h.next b.addr = (addrs F₂).headD base := (Linked.append_iff.1 hl).2.head
      have hp' : h'.next (pred base F₁) = h.next b.addr := by rw [Heap.next, hp]
      exact hp'.trans hb
  · rw [hfreep, addrs_append, ← List.cons_append]
    exact List.mem_append.2 (Or.inl (pred_mem base F₁))
  · rw [hsize]
    exact hok.base_size
  · rw [hsize]
    exact hok.size c (hperm.mem_iff.2 hc)
  · exact List.Pairwise.sublist (List.Sublist.append (List.Sublist.refl F₁) (List.sublist_cons_self b F₂)) hok.sorted

/-- Of a larger block the end is cut off. -/
theorem take_tail (hok : HeapOk base h (F₁ ++ b :: F₂) L) (hpos : 0 < nunits) (hlt : nunits < b.size)
    (hb : h'.hdr b.addr = ⟨h.next b.addr, b.size - nunits⟩)
    (hq : ∃ q, h'.hdr (b.addr + HEADER * (b.size - nunits)) = ⟨q, nunits⟩)
    (hother : ∀ z, z ≠ b.addr → z ≠ b.addr + HEADER * (b.size - nunits) → h'.hdr z = h.hdr z)
    (hfreep : h'.freep = pred base F₁) (hcore : h'.core = h.core) :
    HeapOk base h' (F₁ ++ ⟨b.addr, b.size - nunits⟩ :: F₂) (⟨b.addr + HEADER * (b.size - nunits), nunits⟩ :: L) := by
  have hperm : (F₁ ++ b :: F₂ ++ L).Perm (b :: (F₁ ++ F₂ ++ L)) := by
    simp only [List.append_assoc, List.cons_append]
    exact List.perm_middle
  have ht := tiles_split (tiles_perm hok.tiles hperm) hpos hlt
  have hkeep : ∀ c ∈ F₁ ++ F₂ ++ L, h'.hdr c.addr = h.hdr c.addr := by
    intro c hc
    have h1 : c.addr ≠ (⟨b.addr, b.size - nunits⟩ : Block).addr := tiles_head_ne ht (List.mem_cons_of_mem _ hc)
    have h2 : c.addr ≠ (⟨b.addr + HEADER * (b.size - nunits), nunits⟩ : Block).addr :=
      tiles_head_ne (tiles_perm ht (List.Perm.swap _ _ _)) (List.mem_cons_of_mem _ hc)
    exact hother c.addr h1 h2
  have haddrs : addrs (F₁ ++ ⟨b.addr, b.size - nunits⟩ :: F₂) = addrs (F₁ ++ b :: F₂) := by simp [addrs]
  have hbase := hok.base_lt (b := b) (by simp)
  have hcell : ∀ z ∈ base :: addrs (F₁ ++ b :: F₂), h'.next z = h.next z := by
    intro z hz
    rcases List.mem_cons.1 hz with rfl | hz
    · exact congrArg Header.ptr (hother z (Nat.ne_of_lt hbase) (by omega))
    · obtain ⟨c, hc, rfl⟩ := List.mem_map.1 hz
      by_cases hcb : c = b
      · rw [hcb, Heap.next, hb]
      · refine congrArg Header.ptr (hkeep c ?_)
        simp only [List.mem_append, List.mem_cons] at hc ⊢
        tauto
  refine ⟨?_, ?_, ?_, fun c hc => ?_, sorted_shrink hok.sorted (Nat.sub_le _ _), hcore ▸ tiles_perm ht ?_,
    hcore ▸ hok.core⟩
  · rw [haddrs]
    exact hok.linked.congr hcell
  · rw [haddrs, hfreep, addrs_append, ← List.cons_append]
    exact List.mem_append.2 (Or.inl (pred_mem base F₁))
  · rw [hother base (Nat.ne_of_lt hbase) (by omega)]
    exact hok.base_size
  · by_cases h1 : c = ⟨b.addr, b.size - nunits⟩
    · rw [h1, hb]
    · by_cases h2 : c = ⟨b.addr + HEADER * (b.size - nunits), nunits⟩
      · obtain ⟨q, hq⟩ := hq
        rw [h2, hq]
      · have hmem : c ∈ F₁ ++ F₂ ++ L := by
          simp only [List.mem_append, List.mem_cons] at hc ⊢
          tauto
        rw [hkeep c hmem]
        exact hok.size c (hperm.mem_iff.2 (List.mem_cons_of_mem b hmem))
  · simp only [List.append_assoc, List.cons_append]
    refine List.Perm.trans ?_ List.perm_middle.symm
    refine List.Perm.cons _ ?_
    rw [← List.append_assoc, ← List.append_assoc]
    exact List.perm_middle.symm

/-- **Taking `nunits` out of a block of the list.** -/
theorem take_spec (hok : HeapOk base h (F₁ ++ b :: F₂) L) (hpos : 0 < nunits) (hle : nunits ≤ b.size) :
    (∃ F', HeapOk base (take h nunits (pred base F₁) b.addr).2 F'
      (⟨(take h nunits (pred base F₁) b.addr).1, nunits⟩ :: L)) ∧
    (take h nunits (pred base F₁) b.addr).2.core = h.core := by
  have hsize : (h.hdr b.addr).size = b.size := hok.size b (by simp)
  unfold take
  rw [hsize]
  split
  · rename_i heq
    refine ⟨⟨F₁ ++ F₂, ?_⟩, rfl⟩
    have hb : (⟨b.addr, nunits⟩ : Block) = b := by rw [← heq]
    rw [hb]
    exact take_whole hok (Heap.set_hdr_self ..) (fun z hz => Heap.set_hdr_ne _ _ hz) rfl rfl
  · rename_i hne
    have hlt : nunits < b.size := by omega
    have hq : b.addr ≠ b.addr + HEADER * (b.size - nunits) := by
      simp only [HEADER]
      omega
    refine ⟨⟨F₁ ++ ⟨b.addr, b.size - nunits⟩ :: F₂, ?_⟩, rfl⟩
    refine take_tail hok hpos hlt ?_ ⟨_, Heap.set_hdr_self ..⟩ (fun z hz1 hz2 => ?_) rfl rfl
    · exact (Heap.set_hdr_ne _ _ hq).trans (Heap.set_hdr_self ..)
    · exact (Heap.set_hdr_ne _ _ hz2).trans (Heap.set_hdr_ne _ _ hz1)

/-! ## The search of `malloc` -/

/-- What follows a call of `morecore`. -/
def afterMorecore (answer : Option Nat) (nunits n : Nat) : Prog Heap Nat := do
  let q ← morecore n answer nunits
  if q = 0 then pure 0
  else do
    let h ← get
    mallocLoop answer nunits n q (h.hdr q).ptr

/-- One iteration. -/
theorem mallocLoop_succ (n : Nat) : mallocLoop answer nunits (n + 1) prevp p h =
    if (h.hdr p).size ≥ nunits then .ok ((take h nunits prevp p).1 + HEADER) (take h nunits prevp p).2
    else if p = h.freep then afterMorecore answer nunits n h
    else mallocLoop answer nunits n p (h.next p) h := by
  unfold Heap.next
  show (ite _ _ (ite _ _ _) : Prog Heap Nat) h = _
  split
  · rfl
  · split <;> rfl

theorem mallocLoop_take (hfit : (h.hdr p).size ≥ nunits) :
    Returns (fun n => mallocLoop answer nunits n prevp p) h ((take h nunits prevp p).1 + HEADER)
      (take h nunits prevp p).2 := by
  refine ⟨1, fun fuel hn => ?_⟩
  obtain ⟨n, rfl⟩ : ∃ n, fuel = n + 1 := ⟨fuel - 1, by omega⟩
  dsimp only
  rw [mallocLoop_succ, if_pos hfit]

/-- The search goes on over this block. -/
def Passed (h : Heap) (nunits c : Nat) : Prop := (h.hdr c).size < nunits ∧ c ≠ h.freep

/-- The search passes over blocks that are too small. -/
theorem mallocLoop_walk {l : List Nat} {e a : Nat} (hl : Linked h.next prevp l e)
    (hs : ∀ c ∈ l, Passed h nunits c)
    (hr : Returns (fun n => mallocLoop answer nunits n (l.getLastD prevp) e) h a h') :
    Returns (fun n => mallocLoop answer nunits n prevp (h.next prevp)) h a h' := by
  induction l generalizing prevp with
  | nil =>
    rw [show h.next prevp = e from hl]
    exact hr
  | cons y l ih =>
    obtain ⟨hsize, hne⟩ := hs y List.mem_cons_self
    rw [List.getLastD_cons] at hr
    obtain ⟨n, hn⟩ := ih hl.2 (fun c hc => hs c (List.mem_cons_of_mem y hc)) hr
    rw [hl.1]
    refine ⟨n + 1, fun fuel hle => ?_⟩
    obtain ⟨k, rfl⟩ : ∃ k, fuel = k + 1 := ⟨fuel - 1, by omega⟩
    dsimp only
    rw [mallocLoop_succ, if_neg (by omega), if_neg hne]
    exact hn k (by omega)

/-- The first block of a list that is large enough. -/
theorem first_fit {A : List Block} (hfit : ∃ c ∈ A, nunits ≤ c.size) :
    ∃ A₁ c A₂, A = A₁ ++ c :: A₂ ∧ nunits ≤ c.size ∧ ∀ d ∈ A₁, d.size < nunits := by
  induction A with
  | nil => simp at hfit
  | cons a A ih =>
    by_cases ha : nunits ≤ a.size
    · exact ⟨[], a, A, rfl, ha, by simp⟩
    · have hrest : ∃ c ∈ A, nunits ≤ c.size := by
        obtain ⟨c, hc, hle⟩ := hfit
        rcases List.mem_cons.1 hc with rfl | hc
        · exact absurd hle ha
        · exact ⟨c, hc, hle⟩
      obtain ⟨A₁, c, A₂, rfl, hle, hsmall⟩ := ih hrest
      refine ⟨a :: A₁, c, A₂, rfl, hle, fun d hd => ?_⟩
      rcases List.mem_cons.1 hd with rfl | hd
      · omega
      · exact hsmall d hd

/-- The list from `freep` on, and the part before. -/
theorem HeapOk.split_freep (hok : HeapOk base h F L) : ∃ A B, F = A ++ B ∧ h.freep = pred base A := by
  obtain ⟨l₁, l₂, hl, hfreep⟩ := List.exists_getLastD hok.freep
  obtain ⟨A, B, rfl, rfl, rfl⟩ := List.map_eq_append_iff.1 hl
  exact ⟨A, B, rfl, hfreep⟩

theorem getLastD_append (x : Nat) (l₁ l₂ : List Nat) : (l₁ ++ l₂).getLastD x = l₂.getLastD (l₁.getLastD x) := by
  rcases List.eq_nil_or_concat' l₂ with rfl | ⟨l₂, y, rfl⟩
  · rw [List.append_nil]
    rfl
  · rw [← List.append_assoc, List.getLastD_concat, List.getLastD_concat]

theorem pred_append (A B : List Block) : pred base (A ++ B) = (addrs B).getLastD (pred base A) := by
  unfold pred
  rw [addrs_append, getLastD_append]

/-- No other block has the address of `freep`. -/
theorem HeapOk.ne_freep {A B : List Block} (hok : HeapOk base h (A ++ B) L) (hfreep : h.freep = pred base A)
    {c : Block} (hc : c ∈ B) : c.addr ≠ h.freep := by
  intro heq
  have hnd := hok.addrs_nodup
  rw [addrs_append, ← List.cons_append] at hnd
  refine (List.nodup_append.1 hnd).2.2 _ (pred_mem base A) c.addr (List.mem_map.2 ⟨c, hc, rfl⟩) ?_
  rw [heq, hfreep]

/-- `freep` is a block, when blocks are left before it. -/
theorem HeapOk.freep_ne {A₁ A₂ B : List Block} (hok : HeapOk base h (A₁ ++ b :: A₂ ++ B) L)
    (hfreep : h.freep = pred base (A₁ ++ b :: A₂)) : base ≠ h.freep ∧ ∀ c ∈ A₁, c.addr ≠ h.freep := by
  have hmem : h.freep ∈ addrs (b :: A₂) := by
    rw [hfreep, pred_append]
    show (b.addr :: addrs A₂).getLastD _ ∈ _
    rw [List.getLastD_cons]
    exact List.getLastD_mem_cons
  have hnd := hok.addrs_nodup
  simp only [addrs_append] at hnd
  constructor
  · rintro heq
    exact (List.nodup_cons.1 hnd).1 (heq ▸ List.mem_append.2 (Or.inl (List.mem_append.2 (Or.inr hmem))))
  · intro c hc heq
    exact (List.nodup_append.1 (List.nodup_append.1 (List.nodup_cons.1 hnd).2).1).2.2 c.addr
      (List.mem_map.2 ⟨c, hc, rfl⟩) _ hmem heq

/-- The chain from `freep` over `base`. -/
theorem HeapOk.around {A₁ A₂ B : List Block} (hok : HeapOk base h (A₁ ++ b :: A₂ ++ B) L)
    (hfreep : h.freep = pred base (A₁ ++ b :: A₂)) :
    Linked h.next h.freep (addrs B ++ base :: addrs A₁) b.addr := by
  have hl := hok.linked
  rw [addrs_append] at hl
  refine Linked.append_iff.2 ⟨?_, ?_⟩
  · rw [hfreep]
    exact hl.append_right
  · rw [addrs_append, List.append_assoc] at hl
    exact (Linked.append_iff.1 hl).1

/-- From `freep` the search passes over blocks until one is large enough. -/
theorem HeapOk.search_fits (hok : HeapOk base h F L) (hpos : 0 < nunits) (hfit : ∃ c ∈ F, nunits ≤ c.size) :
    ∃ F₁ b F₂ l, F = F₁ ++ b :: F₂ ∧ nunits ≤ b.size ∧ Linked h.next h.freep l b.addr ∧
      (∀ c ∈ l, Passed h nunits c) ∧ l.getLastD h.freep = pred base F₁ := by
  obtain ⟨A, B, rfl, hfreep⟩ := hok.split_freep
  have hsize : ∀ c ∈ A ++ B, (h.hdr c.addr).size = c.size := fun c hc => hok.size c (List.mem_append.2 (Or.inl hc))
  by_cases hB : ∃ c ∈ B, nunits ≤ c.size
  · obtain ⟨B₁, b, B₂, rfl, hle, hsmall⟩ := first_fit hB
    have hl := hok.linked
    rw [addrs_append, addrs_append] at hl
    have hpart : Linked h.next h.freep (addrs B₁) b.addr := by
      rw [hfreep]
      exact (Linked.append_iff.1 hl.append_right).1
    refine ⟨A ++ B₁, b, B₂, addrs B₁, by simp, hle, hpart, fun z hz => ?_, ?_⟩
    · obtain ⟨c, hc, rfl⟩ := List.mem_map.1 hz
      refine ⟨?_, hok.ne_freep hfreep (List.mem_append.2 (Or.inl hc))⟩
      rw [hsize c (by simp [hc])]
      exact hsmall c hc
    · rw [hfreep, ← pred_append]
  · have hA : ∃ c ∈ A, nunits ≤ c.size := by
      obtain ⟨c, hc, hle⟩ := hfit
      rcases List.mem_append.1 hc with hc | hc
      · exact ⟨c, hc, hle⟩
      · exact absurd ⟨c, hc, hle⟩ hB
    obtain ⟨A₁, b, A₂, rfl, hle, hsmall⟩ := first_fit hA
    obtain ⟨hbase, hne⟩ := hok.freep_ne hfreep
    refine ⟨A₁, b, A₂ ++ B, addrs B ++ base :: addrs A₁, by simp, hle, hok.around hfreep, fun z hz => ?_, ?_⟩
    · rcases List.mem_append.1 hz with hz | hz
      · obtain ⟨c, hc, rfl⟩ := List.mem_map.1 hz
        refine ⟨?_, hok.ne_freep hfreep hc⟩
        rw [hsize c (by simp [hc])]
        exact Nat.lt_of_not_le fun hle' => hB ⟨c, hc, hle'⟩
      · rcases List.mem_cons.1 hz with rfl | hz
        · refine ⟨?_, hbase⟩
          rw [hok.base_size]
          exact hpos
        · obtain ⟨c, hc, rfl⟩ := List.mem_map.1 hz
          refine ⟨?_, hne c hc⟩
          rw [hsize c (by simp [hc])]
          exact hsmall c hc
    · rw [getLastD_append, List.getLastD_cons]
      rfl

/-- From `freep` the search passes over all blocks and comes back to `freep`. -/
theorem HeapOk.search_asks (hok : HeapOk base h F L) (hpos : 0 < nunits) (hsmall : ∀ c ∈ F, c.size < nunits) :
    (h.hdr h.freep).size < nunits ∧ ∃ l, Linked h.next h.freep l h.freep ∧ ∀ c ∈ l, Passed h nunits c := by
  obtain ⟨A, B, rfl, hfreep⟩ := hok.split_freep
  have hsize : ∀ c ∈ A ++ B, (h.hdr c.addr).size < nunits := by
    intro c hc
    rw [hok.size c (List.mem_append.2 (Or.inl hc))]
    exact hsmall c hc
  have hB : ∀ z ∈ addrs B, Passed h nunits z := by
    intro z hz
    obtain ⟨c, hc, rfl⟩ := List.mem_map.1 hz
    exact ⟨hsize c (by simp [hc]), hok.ne_freep hfreep hc⟩
  rcases List.eq_nil_or_concat' A with rfl | ⟨A₀, g, rfl⟩
  · have hbase : h.freep = base := hfreep
    have hl : Linked h.next h.freep (addrs B) h.freep := by
      rw [hbase]
      exact hok.linked
    refine ⟨?_, addrs B, hl, hB⟩
    rw [hbase, hok.base_size]
    exact hpos
  · have hg : h.freep = g.addr := hfreep.trans (pred_concat A₀ g)
    obtain ⟨hbase, hne⟩ := hok.freep_ne hfreep
    have hl := hok.around hfreep
    rw [← hg] at hl
    refine ⟨?_, addrs B ++ base :: addrs A₀, hl, fun z hz => ?_⟩
    · rw [hg]
      exact hsize g (by simp)
    · rcases List.mem_append.1 hz with hz | hz
      · exact hB z hz
      · rcases List.mem_cons.1 hz with rfl | hz
        · refine ⟨?_, hbase⟩
          rw [hok.base_size]
          exact hpos
        · obtain ⟨c, hc, rfl⟩ := List.mem_map.1 hz
          exact ⟨hsize c (by simp [hc]), hne c hc⟩

theorem mallocLoop_fits (answer : Option Nat) (hok : HeapOk base h F L) (hpos : 0 < nunits) (hfit : ∃ c ∈ F, nunits ≤ c.size) :
    ∃ F₁ b F₂, F = F₁ ++ b :: F₂ ∧ nunits ≤ b.size ∧
      Returns (fun n => mallocLoop answer nunits n h.freep (h.next h.freep)) h
        ((take h nunits (pred base F₁) b.addr).1 + HEADER) (take h nunits (pred base F₁) b.addr).2 := by
  obtain ⟨F₁, b, F₂, l, rfl, hle, hl, hpass, hlast⟩ := hok.search_fits hpos hfit
  refine ⟨F₁, b, F₂, rfl, hle, mallocLoop_walk hl hpass ?_⟩
  rw [hlast]
  apply mallocLoop_take
  rw [hok.size b (by simp)]
  exact hle

theorem mallocLoop_asks (hok : HeapOk base h F L) (hpos : 0 < nunits) (hsmall : ∀ c ∈ F, c.size < nunits) {a : Nat}
    (hr : Returns (fun n => afterMorecore answer nunits n) h a h') :
    Returns (fun n => mallocLoop answer nunits n h.freep (h.next h.freep)) h a h' := by
  obtain ⟨hlt, l, hl, hpass⟩ := hok.search_asks hpos hsmall
  refine mallocLoop_walk hl hpass ?_
  obtain ⟨n, hn⟩ := hr
  refine ⟨n + 1, fun fuel hle => ?_⟩
  obtain ⟨k, rfl⟩ : ∃ k, fuel = k + 1 := ⟨fuel - 1, by omega⟩
  dsimp only
  rw [mallocLoop_succ, if_neg (by omega), if_pos rfl]
  exact hn k (by omega)

/-! ## `morecore` -/

/-- The heap with the new memory, before it is freed. -/
def grown (h : Heap) (p nu : Nat) : Heap :=
  { h with core := ⟨p, p + coreUnits nu * HEADER⟩ :: h.core }.setSize p (coreUnits nu)

theorem le_coreUnits (nu : Nat) : nu ≤ coreUnits nu ∧ 4096 ≤ coreUnits nu := by
  unfold coreUnits
  split <;> omega

theorem grown_ok (hok : HeapOk base h F L) {q nu : Nat}
    (hgood : GoodAnswer base h (coreUnits nu * HEADER) (some q)) :
    HeapOk base (grown h q nu) F (⟨q, coreUnits nu⟩ :: L) := by
  obtain ⟨hlo, habove, hhi⟩ := hgood
  obtain ⟨-, hcu⟩ := le_coreUnits nu
  -- all blocks end below the new memory
  have hbelow : ∀ c ∈ F ++ L, c.addr < q := by
    intro c hc
    have hpos := hok.pos hc
    have hle := (hok.tiles.bounds (fun r hr => ⟨Nat.zero_le _, habove r hr⟩) c.seg (List.mem_map.2 ⟨c, hc, rfl⟩)).2
    rw [Block.seg_hi, HEADER] at hle
    omega
  have hbase : base < q := by
    rw [HEADER] at hlo
    omega
  have hkeep : ∀ z, z ≠ q → (grown h q nu).hdr z = h.hdr z := fun z hz => Heap.set_hdr_ne _ _ hz
  have hnext : ∀ z, (grown h q nu).next z = h.next z := by
    intro z
    by_cases hz : z = q
    · rw [hz]
      unfold Heap.next grown Heap.setSize
      rw [Heap.set_hdr_self]
    · exact congrArg Header.ptr (hkeep z hz)
  refine ⟨hok.linked.congr fun z _ => hnext z, hok.freep, ?_, fun c hc => ?_, hok.sorted, ?_, fun r hr => ?_⟩
  · rw [hkeep base (Nat.ne_of_lt hbase)]
    exact hok.base_size
  · by_cases hcq : c = ⟨q, coreUnits nu⟩
    · rw [hcq]
      exact congrArg Header.size (Heap.set_hdr_self ..)
    · have hmem : c ∈ F ++ L := by
        simp only [List.mem_append, List.mem_cons] at hc ⊢
        tauto
      rw [hkeep c.addr (Nat.ne_of_lt (hbelow c hmem))]
      exact hok.size c hmem
  · have hadd := hok.tiles.add (r := ⟨q, q + coreUnits nu * HEADER⟩) (by simp only [HEADER]; omega) habove
    rw [Nat.mul_comm] at hadd
    have hcore : (grown h q nu).core = ⟨q, q + HEADER * coreUnits nu⟩ :: h.core := by
      rw [Nat.mul_comm]
      rfl
    rw [hcore]
    exact tiles_perm (A := ⟨q, coreUnits nu⟩ :: (F ++ L)) hadd List.perm_middle.symm
  · rcases List.mem_cons.1 hr with rfl | hr
    · exact ⟨hlo, hhi⟩
    · exact hok.core r hr

/-- **`morecore`** leaves a block that is large enough in the list. -/
theorem morecore_returns (hok : HeapOk base h F L) {q nu : Nat}
    (hgood : GoodAnswer base h (coreUnits nu * HEADER) (some q)) :
    ∃ h' F', Returns (fun n => morecore n (some q) nu) h h'.freep h' ∧ HeapOk base h' F' L ∧
      ∃ f ∈ F', nu ≤ f.size := by
  obtain ⟨h', F', ⟨n, hn⟩, hok', -, f, hf, hle⟩ := free_returns (grown_ok hok hgood)
  refine ⟨h', F', ⟨n, fun fuel hfuel => ?_⟩, hok', f, hf, (le_coreUnits nu).1.trans hle⟩
  have hrun := hn fuel hfuel
  dsimp only
  unfold morecore sbrk
  refine bind_ok.2 ⟨some q, { h with core := ⟨q, q + coreUnits nu * HEADER⟩ :: h.core }, rfl, ?_⟩
  exact bind_ok.2 ⟨(), grown h q nu, rfl, bind_ok.2 ⟨(), h', hrun, rfl⟩⟩

/-! ## `malloc` -/

theorem HeapOk.freep_pos (hok : HeapOk base h F L) (hb : 0 < base) : h.freep ≠ 0 := by
  rcases List.mem_cons.1 hok.freep with heq | hmem
  · omega
  · obtain ⟨c, hc, heq⟩ := List.mem_map.1 hmem
    have := hok.base_lt (List.mem_append.2 (Or.inl hc))
    omega

/-- The loop of `malloc`, from `freep` on. -/
theorem mallocLoop_returns (hok : HeapOk base h F L) (hb : 0 < base) (hpos : 0 < nunits)
    (hgood : GoodAnswer base h (coreUnits nunits * HEADER) answer) :
    ∃ ap h', Returns (fun n => mallocLoop answer nunits n h.freep (h.next h.freep)) h ap h' ∧
      ((ap = 0 ∧ h' = h) ∨ ∃ F' q, ap = q + HEADER ∧ HeapOk base h' F' (⟨q, nunits⟩ :: L)) := by
  by_cases hfit : ∃ c ∈ F, nunits ≤ c.size
  · obtain ⟨F₁, b, F₂, rfl, hle, hr⟩ := mallocLoop_fits answer hok hpos hfit
    obtain ⟨⟨F', hok'⟩, -⟩ := take_spec hok hpos hle
    exact ⟨_, _, hr, Or.inr ⟨F', _, rfl, hok'⟩⟩
  · have hsmall : ∀ c ∈ F, c.size < nunits := fun c hc => Nat.lt_of_not_le fun hle => hfit ⟨c, hc, hle⟩
    cases answer with
    | none =>
      refine ⟨0, h, mallocLoop_asks hok hpos hsmall ⟨0, fun fuel _ => rfl⟩, Or.inl ⟨rfl, rfl⟩⟩
    | some q =>
      obtain ⟨h₁, F₁, ⟨n₁, hn₁⟩, hok₁, hfit₁⟩ := morecore_returns hok hgood
      obtain ⟨F₂, b, F₃, rfl, hle, n₂, hn₂⟩ := mallocLoop_fits (some q) hok₁ hpos hfit₁
      obtain ⟨⟨F', hok'⟩, -⟩ := take_spec hok₁ hpos hle
      refine ⟨_, _, mallocLoop_asks hok hpos hsmall ⟨max n₁ n₂, fun fuel hfuel => ?_⟩, Or.inr ⟨F', _, rfl, hok'⟩⟩
      have hrun := hn₂ fuel (by omega)
      dsimp only
      unfold afterMorecore
      refine bind_ok.2 ⟨h₁.freep, h₁, hn₁ fuel (by omega), ?_⟩
      rw [if_neg (hok₁.freep_pos hb)]
      exact bind_ok.2 ⟨h₁, h₁, rfl, hrun⟩

/-- The list before the first call. -/
def initial (base : Nat) (h : Heap) : Heap := { h.set base ⟨base, 0⟩ with freep := base }

theorem initial_ok (hcore : h.core = []) : HeapOk base (initial base h) [] [] where
  linked := congrArg Header.ptr (Heap.set_hdr_self ..)
  freep := List.mem_cons_self
  base_size := congrArg Header.size (Heap.set_hdr_self ..)
  size := by simp
  sorted := List.Pairwise.nil
  tiles := by
    rw [show (initial base h).core = h.core from rfl, hcore]
    exact Tiles.nil
  core := by
    rw [show (initial base h).core = h.core from rfl, hcore]
    simp

theorem unitsOf_small {nbytes : Nat} (hsmall : SmallRequest nbytes) :
    0 < unitsOf nbytes ∧ nbytes + HEADER ≤ HEADER * unitsOf nbytes := by
  unfold SmallRequest at hsmall
  unfold unitsOf
  simp only [HEADER] at *
  omega

/-- **`malloc`** returns a null pointer or a block of the size asked for. -/
theorem malloc_returns (hok : HeapOk base h F L) (hb : 0 < base) {nbytes : Nat} (hsmall : SmallRequest nbytes)
    (hgood : GoodAnswer base h (coreUnits (unitsOf nbytes) * HEADER) answer) :
    ∃ ap h', Returns (fun n => malloc base n answer nbytes) h ap h' ∧
      ((ap = 0 ∧ h' = h) ∨ ∃ F' q, ap = q + HEADER ∧ HeapOk base h' F' (⟨q, unitsOf nbytes⟩ :: L)) := by
  obtain ⟨ap, h', ⟨n, hn⟩, hres⟩ := mallocLoop_returns hok hb (unitsOf_small hsmall).1 hgood
  refine ⟨ap, h', ⟨n, fun fuel hfuel => ?_⟩, hres⟩
  have hrun := hn fuel hfuel
  dsimp only
  unfold malloc
  refine bind_ok.2 ⟨h, h, rfl, ?_⟩
  rw [if_neg (hok.freep_pos hb)]
  exact hrun

/-- The first call. -/
theorem malloc_first (hfreep : h.freep = 0) (hcore : h.core = []) (hb : 0 < base) {nbytes : Nat}
    (hsmall : SmallRequest nbytes) (hgood : GoodAnswer base h (coreUnits (unitsOf nbytes) * HEADER) answer) :
    ∃ ap h', Returns (fun n => malloc base n answer nbytes) h ap h' ∧
      ((ap = 0 ∧ h' = initial base h) ∨
        ∃ F' q, ap = q + HEADER ∧ HeapOk base h' F' [⟨q, unitsOf nbytes⟩]) := by
  have hgood' : GoodAnswer base (initial base h) (coreUnits (unitsOf nbytes) * HEADER) answer := hgood
  obtain ⟨ap, h', ⟨n, hn⟩, hres⟩ := mallocLoop_returns (initial_ok hcore) hb (unitsOf_small hsmall).1 hgood'
  refine ⟨ap, h', ⟨n, fun fuel hfuel => ?_⟩, hres⟩
  have hrun := hn fuel hfuel
  dsimp only
  unfold malloc
  refine bind_ok.2 ⟨h, h, rfl, ?_⟩
  rw [if_pos hfreep]
  exact hrun

end Umalloc

end Xv6
