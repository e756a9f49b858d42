import Xv6.Umalloc.Malloc

/-!
# Every program keeps the heap in order

* `WorldOk base w` — the heap is in order, with a live block behind every pointer that the program holds, and
  the block has room for what was asked for.
* `Step.ok` — every call and every write of the program keeps it.
* `umalloc_invariant` — in every state that a program can get to; and every call returns.
-/

namespace Xv6

open Prog

namespace Umalloc

variable {base : Nat} {h h' : Heap} {F L L' : List Block} {w w' : World}

/-- The block behind a pointer. -/
def liveBlock (h : Heap) (x : Nat × Nat) : Block := ⟨x.1 - HEADER, (h.hdr (x.1 - HEADER)).size⟩

structure WorldOk (base : Nat) (w : World) : Prop where
  heap : ∃ F, HeapOk base w.heap F (w.live.map (liveBlock w.heap))
  /-- A pointer points behind a header, and there is room for the bytes asked for. -/
  room : ∀ x ∈ w.live, HEADER ≤ x.1 ∧ x.2 + HEADER ≤ HEADER * (liveBlock w.heap x).size

/-! ## Changes that do not matter -/

theorem HeapOk.perm (hok : HeapOk base h F L) (hp : L.Perm L') : HeapOk base h F L' where
  linked := hok.linked
  freep := hok.freep
  base_size := hok.base_size
  size b hb := hok.size b ((hp.append_left F).mem_iff.2 hb)
  sorted := hok.sorted
  tiles := tiles_perm hok.tiles (hp.append_left F)
  core := hok.core

/-- A write that hits no header. -/
theorem HeapOk.congr (hok : HeapOk base h F L) (hbase : h'.hdr base = h.hdr base)
    (hkeep : ∀ b ∈ F ++ L, h'.hdr b.addr = h.hdr b.addr) (hfreep : h'.freep = h.freep) (hcore : h'.core = h.core) :
    HeapOk base h' F L where
  linked := by
    refine hok.linked.congr fun z hz => ?_
    rcases List.mem_cons.1 hz with rfl | hz
    · exact congrArg Header.ptr hbase
    · obtain ⟨b, hb, rfl⟩ := List.mem_map.1 hz
      exact congrArg Header.ptr (hkeep b (List.mem_append.2 (Or.inl hb)))
  freep := hfreep ▸ hok.freep
  base_size := hbase ▸ hok.base_size
  size b hb := hkeep b hb ▸ hok.size b hb
  sorted := hok.sorted
  tiles := hcore ▸ hok.tiles
  core := hcore ▸ hok.core

/-- The live blocks have the sizes that their headers say. -/
theorem HeapOk.liveBlock_eq {live : List (Nat × Nat)} (hok : HeapOk base h' F (live.map (liveBlock h))) :
    live.map (liveBlock h') = live.map (liveBlock h) := by
  refine List.map_congr_left fun x hx => ?_
  have hsize := hok.size (liveBlock h x) (List.mem_append.2 (Or.inr (List.mem_map.2 ⟨x, hx, rfl⟩)))
  exact congrArg (Block.mk (x.1 - HEADER)) hsize

/-- The world after a call that keeps the live blocks. -/
theorem WorldOk.of_live {live : List (Nat × Nat)} (hok : HeapOk base h' F (live.map (liveBlock h)))
    (hroom : ∀ x ∈ live, HEADER ≤ x.1 ∧ x.2 + HEADER ≤ HEADER * (liveBlock h x).size) :
    WorldOk base ⟨h', live⟩ := by
  have heq := hok.liveBlock_eq
  refine ⟨⟨F, heq ▸ hok⟩, fun x hx => ?_⟩
  have hx' : liveBlock h' x = liveBlock h x := List.map_inj_left.1 heq x hx
  rw [hx']
  exact hroom x hx

/-- The world after `malloc` has returned a block. -/
theorem WorldOk.of_malloc {live : List (Nat × Nat)} {q nbytes : Nat} (hsmall : SmallRequest nbytes)
    (hok : HeapOk base h' F (⟨q, unitsOf nbytes⟩ :: live.map (liveBlock h)))
    (hroom : ∀ x ∈ live, HEADER ≤ x.1 ∧ x.2 + HEADER ≤ HEADER * (liveBlock h x).size) :
    WorldOk base ⟨h', (q + HEADER, nbytes) :: live⟩ := by
  have hq : (h'.hdr q).size = unitsOf nbytes := hok.size ⟨q, unitsOf nbytes⟩ (by simp)
  have hnew : liveBlock h' (q + HEADER, nbytes) = ⟨q, unitsOf nbytes⟩ := by
    unfold liveBlock
    rw [Nat.add_sub_cancel, hq]
  have hold : ∀ x ∈ live, liveBlock h' x = liveBlock h x := by
    intro x hx
    have hmem : liveBlock h x ∈ live.map (liveBlock h) := List.mem_map.2 ⟨x, hx, rfl⟩
    exact congrArg (Block.mk (x.1 - HEADER)) (hok.size (liveBlock h x) (by simp [hmem]))
  refine ⟨⟨F, ?_⟩, fun x hx => ?_⟩
  · rw [List.map_cons, hnew, List.map_congr_left hold]
    exact hok
  · rcases List.mem_cons.1 hx with rfl | hx
    · rw [hnew]
      exact ⟨Nat.le_add_left _ _, (unitsOf_small hsmall).2⟩
    · rw [hold x hx]
      exact hroom x hx

/-! ## Steps -/

theorem Returns.unique {α : Type} {x : Nat → Prog Heap α} {a a' : α} {h'' : Heap} (h₁ : Returns x h a h')
    (h₂ : Returns x h a' h'') : a = a' ∧ h' = h'' := by
  obtain ⟨n, hn⟩ := h₁
  obtain ⟨n', hn'⟩ := h₂
  have heq := (hn (max n n') (by omega)).symm.trans (hn' (max n n') (by omega))
  cases heq
  exact ⟨rfl, rfl⟩

/-- `free` of a live pointer returns. -/
theorem WorldOk.free (hw : WorldOk base w) {ap nbytes : Nat} (hx : (ap, nbytes) ∈ w.live) :
    ∃ h', Returns (fun n => Umalloc.free n ap) w.heap () h' ∧ WorldOk base ⟨h', w.live.erase (ap, nbytes)⟩ := by
  obtain ⟨F, hok⟩ := hw.heap
  have hperm := List.perm_cons_erase hx
  have hok' := hok.perm (hperm.map (liveBlock w.heap))
  rw [List.map_cons] at hok'
  obtain ⟨h', F', hr, hfree, -, -⟩ := free_returns hok'
  have hap : (liveBlock w.heap (ap, nbytes)).addr + HEADER = ap := Nat.sub_add_cancel (hw.room _ hx).1
  rw [hap] at hr
  exact ⟨h', hr, WorldOk.of_live hfree fun x hx => hw.room x (List.mem_of_mem_erase hx)⟩

/-- `malloc` returns. -/
theorem WorldOk.malloc (hw : WorldOk base w) (hb : 0 < base) {nbytes : Nat} {answer : Option Nat}
    (hsmall : SmallRequest nbytes) (hgood : GoodAnswer base w.heap (coreUnits (unitsOf nbytes) * HEADER) answer) :
    ∃ ap h', Returns (fun n => Umalloc.malloc base n answer nbytes) w.heap ap h' ∧
      WorldOk base ⟨h', if ap = 0 then w.live else (ap, nbytes) :: w.live⟩ := by
  obtain ⟨F, hok⟩ := hw.heap
  obtain ⟨ap, h', hr, ⟨rfl, rfl⟩ | ⟨F', q, rfl, hok'⟩⟩ := malloc_returns hok hb hsmall hgood
  · exact ⟨0, w.heap, hr, hw⟩
  · refine ⟨q + HEADER, h', hr, ?_⟩
    rw [if_neg (by simp only [HEADER]; omega)]
    exact WorldOk.of_malloc hsmall hok' hw.room

theorem Start.malloc (hw : Start w) (hb : 0 < base) {nbytes : Nat} {answer : Option Nat}
    (hsmall : SmallRequest nbytes) (hgood : GoodAnswer base w.heap (coreUnits (unitsOf nbytes) * HEADER) answer) :
    ∃ ap h', Returns (fun n => Umalloc.malloc base n answer nbytes) w.heap ap h' ∧
      WorldOk base ⟨h', if ap = 0 then w.live else (ap, nbytes) :: w.live⟩ := by
  obtain ⟨hfreep, hcore, hlive⟩ := hw
  rw [hlive]
  obtain ⟨ap, h', hr, ⟨rfl, rfl⟩ | ⟨F', q, rfl, hok'⟩⟩ := malloc_first hfreep hcore hb hsmall hgood
  · exact ⟨0, _, hr, ⟨[], initial_ok hcore⟩, by simp⟩
  · refine ⟨q + HEADER, h', hr, ?_⟩
    rw [if_neg (by simp only [HEADER]; omega)]
    exact WorldOk.of_malloc (h := w.heap) hsmall hok' (by simp)

/-- A write into a live block hits no header. -/
theorem WorldOk.store (hw : WorldOk base w) {a ap nbytes : Nat} {x : Header} (hx : (ap, nbytes) ∈ w.live)
    (hlo : ap ≤ a) (hhi : a < (blockOf w.heap ap).hi) : WorldOk base { w with heap := w.heap.set a x } := by
  obtain ⟨F, hok⟩ := hw.heap
  have hperm := (List.perm_cons_erase hx).map (liveBlock w.heap)
  rw [List.map_cons] at hperm
  have ht := tiles_perm hok.tiles ((hperm.append_left F).trans List.perm_middle)
  have hap := (hw.room _ hx).1
  have hhead : ∀ b ∈ F ++ w.live.map (liveBlock w.heap), b.addr ≠ a := by
    intro b hb heq
    rcases List.mem_cons.1 (((hperm.append_left F).trans List.perm_middle).mem_iff.1 hb) with rfl | hb
    · simp only [liveBlock, HEADER] at heq hap
      omega
    · -- the header of another block lies outside of this one
      have hapart := (List.pairwise_cons.1 ht.apart).1 b.seg (List.mem_map.2 ⟨b, hb, rfl⟩)
      have hpos := tiles_pos ht (List.mem_cons_of_mem _ hb)
      unfold Seg.Apart at hapart
      simp only [Block.seg, liveBlock, blockOf, HEADER] at hapart hhi hap
      omega
  have hbase : base ≠ a := by
    have := hok.base_lt (b := liveBlock w.heap (ap, nbytes))
      (List.mem_append.2 (Or.inr (List.mem_map.2 ⟨_, hx, rfl⟩)))
    simp only [liveBlock] at this
    omega
  have hok' : HeapOk base (w.heap.set a x) F (w.live.map (liveBlock w.heap)) :=
    hok.congr (Heap.set_hdr_ne _ _ hbase) (fun b hb => Heap.set_hdr_ne _ _ (hhead b hb)) rfl rfl
  exact WorldOk.of_live hok' hw.room

/-- **One step.** -/
theorem Step.ok (hb : 0 < base) (hs : Step base w w') (hw : Start w ∨ WorldOk base w) : WorldOk base w' := by
  cases hs with
  | malloc hsmall hgood hr =>
    have hres := hw.elim (fun h => h.malloc hb hsmall hgood) (fun h => h.malloc hb hsmall hgood)
    obtain ⟨ap, h', hr', hok⟩ := hres
    obtain ⟨rfl, rfl⟩ := hr.unique hr'
    exact hok
  | free hx hr =>
    rcases hw with hw | hw
    · rw [hw.2.2] at hx
      cases hx
    · obtain ⟨h', hr', hok⟩ := hw.free hx
      obtain ⟨-, rfl⟩ := hr.unique hr'
      exact hok
  | store hx hlo hhi =>
    rcases hw with hw | hw
    · rw [hw.2.2] at hx
      cases hx
    · exact hw.store hx hlo hhi

theorem Reachable.ok (hb : 0 < base) (h : Reachable base w) : Start w ∨ WorldOk base w := by
  obtain ⟨w₀, hstart, hrun⟩ := h
  induction hrun with
  | refl => exact Or.inl hstart
  | tail _ hs ih => exact Or.inr (hs.ok hb ih)

/-- **The heap of every program is in order**, and every call returns. -/
theorem umalloc_invariant (hb : 0 < base) (h : Reachable base w) :
    (Start w ∨ WorldOk base w) ∧
    (∀ nbytes answer, SmallRequest nbytes →
      GoodAnswer base w.heap (coreUnits (unitsOf nbytes) * HEADER) answer →
      ∃ ap h', Returns (fun n => Umalloc.malloc base n answer nbytes) w.heap ap h') ∧
    ∀ ap nbytes, (ap, nbytes) ∈ w.live → ∃ h', Returns (fun n => Umalloc.free n ap) w.heap () h' := by
  have hw := h.ok hb
  refine ⟨hw, fun nbytes answer hsmall hgood => ?_, fun ap nbytes hx => ?_⟩
  · obtain ⟨ap, h', hr, -⟩ := hw.elim (fun h => h.malloc hb hsmall hgood) (fun h => h.malloc hb hsmall hgood)
    exact ⟨ap, h', hr⟩
  · rcases hw with hw | hw
    · rw [hw.2.2] at hx
      cases hx
    · obtain ⟨h', hr, -⟩ := hw.free hx
      exact ⟨h', hr⟩

/-- A program that calls `malloc(100)` first. -/
theorem umalloc_invariant_hundred : ∃ w, Start w ∧ Reachable 0x1000 w ∧
    ∃ ap h', Returns (fun n => Umalloc.malloc 0x1000 n (some 0x4000) 100) w.heap ap h' := by
  have hstart : Start ⟨⟨fun _ => ⟨0, 0⟩, 0, []⟩, []⟩ := ⟨rfl, rfl, rfl⟩
  have hreach : Reachable 0x1000 ⟨⟨fun _ => ⟨0, 0⟩, 0, []⟩, []⟩ := ⟨_, hstart, .refl⟩
  refine ⟨_, hstart, hreach, (umalloc_invariant (by decide) hreach).2.1 100 (some 0x4000) ?_ ?_⟩
  · unfold SmallRequest
    decide
  · exact ⟨by decide, by simp, by decide⟩

end Umalloc

end Xv6
