import Mathlib.Data.Multiset.Count
import Mathlib.Logic.Relation
import Xv6.Bcache.Ring

/-!
# Which buffer is recycled

Any number of threads call `bget`, `brelse`, `bpin` and `bunpin`.

* `World` — the cache; the references of the threads, those of a thread that waits for the lock of the buffer or
  has released it included; and when `brelse` has last brought each count to `0`.
* `Step` — one part of a call, between which other threads can run.  A thread gives back only what it has got, and
  no count reaches `2 ^ 32`.
* `Step.inv` — every step keeps the ring whole and in the order of these times.
* `lru_order` — in every reachable state a buffer with references is not recycled, and a miss recycles a buffer
  that `brelse` has brought to `0` longest ago.
-/

namespace Xv6

open Prog Function

namespace Bcache

structure World where
  cache : Bcache
  /-- From `bget`, before the lock of the buffer has been acquired. -/
  waiting : Multiset (Fin NBUF)
  held : Multiset (Fin NBUF)
  /-- In `brelse`, after the lock of the buffer has been released. -/
  leaving : Multiset (Fin NBUF)
  pinned : Multiset (Fin NBUF)
  /-- When `brelse` has last brought the count to `0`. -/
  stamp : Fin NBUF → Option Nat
  clock : Nat

/-- All references. -/
def World.refs (w : World) : Multiset (Fin NBUF) := w.waiting + w.held + w.leaving + w.pinned

inductive Step : World → World → Prop where
  | get {w : World} {dev blockno : Nat} {i : Fin NBUF} {c : Bcache} : lookup dev blockno w.cache = .ok i c →
      (w.cache.buf i).refcnt + 1 < 2 ^ 32 → Step w { w with cache := c, waiting := i ::ₘ w.waiting }
  | lock {w : World} {i : Fin NBUF} {c : Bcache} : i ∈ w.waiting → acquiresleep i w.cache = .ok () c →
      Step w { w with cache := c, waiting := w.waiting.erase i, held := i ::ₘ w.held }
  | unlock {w : World} {i : Fin NBUF} {c : Bcache} : i ∈ w.held → Bcache.unlock i w.cache = .ok () c →
      Step w { w with cache := c, held := w.held.erase i, leaving := i ::ₘ w.leaving }
  | unref {w : World} {i : Fin NBUF} {c : Bcache} : i ∈ w.leaving → Bcache.unref i w.cache = .ok () c →
      Step w { w with
        cache := c
        leaving := w.leaving.erase i
        stamp := if (c.buf i).refcnt = 0 then Function.update w.stamp i (some w.clock) else w.stamp
        clock := w.clock + 1 }
  | pin {w : World} {i : Fin NBUF} {c : Bcache} : bpin i w.cache = .ok () c → (w.cache.buf i).refcnt + 1 < 2 ^ 32 →
      Step w { w with cache := c, pinned := i ::ₘ w.pinned }
  | unpin {w : World} {i : Fin NBUF} {c : Bcache} : i ∈ w.pinned → bunpin i w.cache = .ok () c →
      Step w { w with cache := c, pinned := w.pinned.erase i }

/-- After `binit`. -/
def Start (w : World) : Prop :=
  (∃ r, w.cache = binit r) ∧ w.waiting = 0 ∧ w.held = 0 ∧ w.leaving = 0 ∧ w.pinned = 0 ∧ w.stamp = fun _ => none

def Reachable (w : World) : Prop := ∃ w₀, Start w₀ ∧ Relation.ReflTransGen Step w₀ w

/-- `brelse` has brought `i` to `0` before `j`, or never. -/
def Older (stamp : Fin NBUF → Option Nat) (i j : Fin NBUF) : Prop :=
  i = j ∨ stamp i = none ∨ ∃ a b, stamp i = some a ∧ stamp j = some b ∧ a < b

structure Inv (w : World) : Prop where
  ring : ∃ l, w.cache.ring.Holds l ∧ (∀ i, i ∈ l) ∧ l.Pairwise fun i j => Older w.stamp j i
  stamp_lt : ∀ i a, w.stamp i = some a → a < w.clock
  refcnt : ∀ i, (w.cache.buf i).refcnt = w.refs.count i
  bound : ∀ i, w.refs.count i < 2 ^ 32

variable {w w' : World} {c c' : Bcache} {i j : Fin NBUF} {l : List (Fin NBUF)} {dev blockno : Nat}

/-! ## What the parts of the calls do -/

theorem updBuf_self (c : Bcache) (i : Fin NBUF) (f : Buf → Buf) : (c.updBuf i f).buf i = f (c.buf i) := by
  simp [updBuf]

theorem updBuf_ne (c : Bcache) {i j : Fin NBUF} (f : Buf → Buf) (h : j ≠ i) : (c.updBuf i f).buf j = c.buf j := by
  simp [updBuf, h]

/-- The buffer has the block. -/
def Has (c : Bcache) (dev blockno : Nat) (i : Fin NBUF) : Prop := (c.buf i).dev = dev ∧ (c.buf i).blockno = blockno

/-- The last buffer of the list that has no references. -/
def Last (c : Bcache) (l : List (Fin NBUF)) (i : Fin NBUF) : Prop :=
  (c.buf i).refcnt = 0 ∧ ∃ l₁ l₂, l = l₁ ++ i :: l₂ ∧ ∀ j ∈ l₂, (c.buf j).refcnt ≠ 0

theorem victim_last (h : l.reverse.find? (fun i => (c.buf i).refcnt == 0) = some i) : Last c l i := by
  obtain ⟨hi, l₁, l₂, hl, hnot⟩ := List.find?_eq_some_iff_append.1 h
  refine ⟨by simpa using hi, l₂.reverse, l₁.reverse, ?_, fun j hj => ?_⟩
  · have := congrArg List.reverse hl
    simpa using this
  · simpa using hnot j (List.mem_reverse.1 hj)

/-- The three outcomes of `lookup`. -/
theorem lookup_cases (h : c.ring.Holds l) (hall : ∀ i, i ∈ l) (dev blockno : Nat) :
    (∃ i, c.Has dev blockno i ∧
      lookup dev blockno c = .ok i (c.updBuf i fun b => { b with refcnt := incref b.refcnt })) ∨
    ((∀ j, ¬ c.Has dev blockno j) ∧ ∃ i, Last c l i ∧ lookup dev blockno c =
      .ok i (c.updBuf i fun b => { b with dev := dev, blockno := blockno, valid := false, refcnt := 1 })) ∨
    ((∀ j, ¬ c.Has dev blockno j) ∧ (∀ j, (c.buf j).refcnt ≠ 0) ∧
      lookup dev blockno c = .panic "bget: no buffers" c) := by
  have hhit := hit_eq dev blockno h
  have hvictim := victim_eq h
  unfold lookup
  rw [get_bind, hhit, hvictim]
  cases hf : l.find? fun i => (c.buf i).dev == dev && (c.buf i).blockno == blockno with
  | some i =>
    have hi := List.find?_some hf
    exact Or.inl ⟨i, by simpa [Has] using hi, rfl⟩
  | none =>
    have hmiss : ∀ j, ¬ c.Has dev blockno j := by
      intro j hj
      have := List.find?_eq_none.1 hf j (hall j)
      simp [hj.1, hj.2] at this
    cases hv : l.reverse.find? fun i => (c.buf i).refcnt == 0 with
    | some i => exact Or.inr (Or.inl ⟨hmiss, i, victim_last hv, rfl⟩)
    | none =>
      refine Or.inr (Or.inr ⟨hmiss, fun j hj => ?_, rfl⟩)
      have := List.find?_eq_none.1 hv j (List.mem_reverse.2 (hall j))
      simp [hj] at this

theorem incref_eq {r : Nat} (h : r + 1 < 2 ^ 32) : incref r = r + 1 := Nat.mod_eq_of_lt h

/-! ## Steps -/

/-- A step that changes no pointer and the count of one buffer. -/
theorem Inv.count (h : Inv w) (i : Fin NBUF) (hring : w'.cache.ring = w.cache.ring) (hstamp : w'.stamp = w.stamp)
    (hclock : w.clock ≤ w'.clock) (hi : (w'.cache.buf i).refcnt = w'.refs.count i)
    (hbound : w'.refs.count i < 2 ^ 32) (hbuf : ∀ j, j ≠ i → (w'.cache.buf j).refcnt = (w.cache.buf j).refcnt)
    (hrefs : ∀ j, j ≠ i → w'.refs.count j = w.refs.count j) : Inv w' where
  ring := by
    rw [hring, hstamp]
    exact h.ring
  stamp_lt j a hj := Nat.lt_of_lt_of_le (h.stamp_lt j a (hstamp ▸ hj)) hclock
  refcnt j := by
    by_cases hj : j = i
    · rw [hj, hi]
    · rw [hbuf j hj, hrefs j hj, h.refcnt j]
  bound j := by
    by_cases hj : j = i
    · rw [hj]
      exact hbound
    · rw [hrefs j hj]
      exact h.bound j

/-- The buffer that `brelse` moves to the front is the youngest. -/
theorem pairwise_moveFront {stamp : Fin NBUF → Option Nat} {clock : Nat} (hnd : l.Nodup)
    (hl : l.Pairwise fun i j => Older stamp j i) (hlt : ∀ i a, stamp i = some a → a < clock) (i : Fin NBUF) :
    (i :: l.erase i).Pairwise fun x y => Older (update stamp i (some clock)) y x := by
  have hne : ∀ j ∈ l.erase i, j ≠ i := fun j hj => ((List.Nodup.mem_erase_iff hnd).1 hj).1
  refine List.pairwise_cons.2 ⟨fun j hj => ?_, ?_⟩
  · cases hs : stamp j with
    | none => exact Or.inr (Or.inl (by rw [update_of_ne (hne j hj), hs]))
    | some a =>
      refine Or.inr (Or.inr ⟨a, clock, ?_, update_self .., hlt j a hs⟩)
      rw [update_of_ne (hne j hj), hs]
  · refine List.Pairwise.imp_of_mem (fun {x y} hx hy hxy => ?_) (hl.sublist List.erase_sublist)
    unfold Older
    rw [update_of_ne (hne x hx), update_of_ne (hne y hy)]
    exact hxy

theorem unref_run (i : Fin NBUF) (c : Bcache) : Bcache.unref i c =
    .ok () (if decref (c.buf i).refcnt = 0 then
      { c.updBuf i fun b => { b with refcnt := decref b.refcnt } with ring := (c.ring.unlink i).pushFront i }
    else c.updBuf i fun b => { b with refcnt := decref b.refcnt }) := by
  have hrun : Prog.modify (fun c : Bcache => c.updBuf i fun b => { b with refcnt := decref b.refcnt }) c =
      .ok () (c.updBuf i fun b => { b with refcnt := decref b.refcnt }) := rfl
  unfold Bcache.unref
  rw [bind_run hrun, get_bind, updBuf_self]
  dsimp only
  split <;> rfl

theorem acquiresleep_ok (h : acquiresleep i c = .ok () c') : c' = c.updBuf i fun b => { b with locked := true } := by
  unfold acquiresleep at h
  rw [get_bind] at h
  split at h
  · cases h
  · cases h
    rfl

theorem unlock_ok (h : Bcache.unlock i c = .ok () c') : c' = c.updBuf i fun b => { b with locked := false } := by
  unfold Bcache.unlock at h
  rw [get_bind] at h
  split at h
  · cases h
    rfl
  · cases h

/-- A change of one buffer that keeps the count. -/
theorem updBuf_refcnt (c : Bcache) (i : Fin NBUF) (f : Buf → Buf) (hf : (f (c.buf i)).refcnt = (c.buf i).refcnt)
    (j : Fin NBUF) :
    ((c.updBuf i f).buf j).refcnt = (c.buf j).refcnt := by
  by_cases hj : j = i
  · rw [hj, updBuf_self, hf]
  · rw [updBuf_ne _ _ hj]

theorem Inv.start (h : Start w) : Inv w := by
  obtain ⟨⟨r, hc⟩, hw, hh, hl, hp, hs⟩ := h
  have hrefs : w.refs = 0 := by
    unfold World.refs
    rw [hw, hh, hl, hp]
    rfl
  refine ⟨⟨(List.finRange NBUF).reverse, ?_, fun i => by simp, ?_⟩, fun i a ha => ?_, fun i => ?_, fun i => ?_⟩
  · rw [hc]
    exact binit_holds r
  · rw [hs]
    exact List.pairwise_of_forall fun _ _ => Or.inr (Or.inl rfl)
  · rw [hs] at ha
    cases ha
  · rw [hrefs, hc]
    rfl
  · rw [hrefs]
    exact Nat.two_pow_pos 32

/-- A step that gives one reference from one thread state to the next. -/
theorem Inv.pass (h : Inv w) (hring : w'.cache.ring = w.cache.ring) (hstamp : w'.stamp = w.stamp)
    (hclock : w'.clock = w.clock) (hbuf : ∀ j, (w'.cache.buf j).refcnt = (w.cache.buf j).refcnt)
    (hrefs : w'.refs = w.refs) : Inv w' where
  ring := by
    rw [hring, hstamp]
    exact h.ring
  stamp_lt := by
    rw [hstamp, hclock]
    exact h.stamp_lt
  refcnt j := by
    rw [hbuf, hrefs]
    exact h.refcnt j
  bound := hrefs ▸ h.bound

/-- One reference less. -/
theorem Inv.dropped (h : Inv w) {m : Multiset (Fin NBUF)} (hrefs : w.refs = i ::ₘ m) :
    decref (w.cache.buf i).refcnt = m.count i ∧ m.count i < 2 ^ 32 ∧ ∀ j, j ≠ i → m.count j = w.refs.count j := by
  have hcount : (w.cache.buf i).refcnt = m.count i + 1 := by
    rw [h.refcnt, hrefs, Multiset.count_cons_self]
  have hb := h.bound i
  rw [← h.refcnt, hcount] at hb
  refine ⟨?_, by omega, fun j hj => ?_⟩
  · rw [Bio.decref_of_pos (by omega), hcount, Nat.add_sub_cancel]
  · rw [hrefs, Multiset.count_cons_of_ne hj]

theorem Inv.unref (h : Inv w) (hrefs : w.refs = i ::ₘ w'.refs) (hrun : Bcache.unref i w.cache = .ok () w'.cache)
    (hstamp : w'.stamp =
      if (w'.cache.buf i).refcnt = 0 then update w.stamp i (some w.clock) else w.stamp)
    (hclock : w'.clock = w.clock + 1) : Inv w' := by
  obtain ⟨hdec, hbound, hother⟩ := h.dropped hrefs
  rw [unref_run, hdec] at hrun
  have hbuf : w'.cache.buf = (w.cache.updBuf i fun b => { b with refcnt := decref b.refcnt }).buf := by
    injection hrun with _ hc
    rw [← hc]
    split <;> rfl
  have hself : (w'.cache.buf i).refcnt = w'.refs.count i := by
    rw [hbuf, updBuf_self]
    exact hdec
  have hkeep : ∀ j, j ≠ i → (w'.cache.buf j).refcnt = (w.cache.buf j).refcnt := by
    intro j hj
    rw [hbuf, updBuf_ne _ _ hj]
  rw [hself] at hstamp
  by_cases hzero : w'.refs.count i = 0
  · rw [if_pos hzero] at hrun hstamp
    obtain ⟨l, hl, hall, hord⟩ := h.ring
    refine ⟨⟨i :: l.erase i, ?_, fun j => ?_, ?_⟩, fun j a hj => ?_, fun j => ?_, fun j => ?_⟩
    · have hring : w'.cache.ring = (w.cache.ring.unlink i).pushFront i := by
        injection hrun with _ hc
        rw [← hc]
      rw [hring]
      exact holds_moveFront hl (hall i)
    · by_cases hj : j = i
      · rw [hj]
        exact List.mem_cons_self
      · exact List.mem_cons_of_mem i ((List.mem_erase_of_ne hj).2 (hall j))
    · rw [hstamp]
      exact pairwise_moveFront hl.nodup hord h.stamp_lt i
    · rw [hstamp] at hj
      by_cases hji : j = i
      · rw [hji, update_self] at hj
        cases hj
        omega
      · rw [update_of_ne hji] at hj
        have := h.stamp_lt j a hj
        omega
    · by_cases hj : j = i
      · rw [hj]
        exact hself
      · rw [hkeep j hj, hother j hj]
        exact h.refcnt j
    · by_cases hj : j = i
      · rw [hj]
        exact hbound
      · rw [hother j hj]
        exact h.bound j
  · rw [if_neg hzero] at hrun hstamp
    have hring : w'.cache.ring = w.cache.ring := by
      injection hrun with _ hc
      rw [← hc]
      rfl
    exact h.count i hring hstamp (by omega) hself hbound hkeep hother

theorem Step.inv (h : Inv w) (hs : Step w w') : Inv w' := by
  cases hs with
  | @get dev blockno i c hrun hlt =>
    obtain ⟨l, hl, hall, -⟩ := h.ring
    have hrefs : ({ w with cache := c, waiting := i ::ₘ w.waiting } : World).refs = i ::ₘ w.refs := by
      simp only [World.refs, Multiset.cons_add]
    have hcount : (i ::ₘ w.refs).count i = (w.cache.buf i).refcnt + 1 := by
      rw [Multiset.count_cons_self, h.refcnt]
    have hkeep : c.ring = w.cache.ring ∧ (c.buf i).refcnt = (w.cache.buf i).refcnt + 1 ∧
        ∀ j, j ≠ i → (c.buf j).refcnt = (w.cache.buf j).refcnt := by
      rcases lookup_cases hl hall dev blockno with ⟨k, -, hk⟩ | ⟨-, k, hlast, hk⟩ | ⟨-, -, hk⟩
      · cases hk.symm.trans hrun
        refine ⟨rfl, ?_, fun j hj => by rw [updBuf_ne _ _ hj]⟩
        rw [updBuf_self]
        exact incref_eq hlt
      · cases hk.symm.trans hrun
        refine ⟨rfl, ?_, fun j hj => by rw [updBuf_ne _ _ hj]⟩
        rw [updBuf_self, hlast.1]
      · cases hk.symm.trans hrun
    refine h.count i hkeep.1 rfl (Nat.le_refl _) ?_ ?_ hkeep.2.2 fun j hj => ?_
    · rw [hrefs, hcount]
      exact hkeep.2.1
    · rw [hrefs, hcount]
      exact hlt
    · rw [hrefs, Multiset.count_cons_of_ne hj]
  | @lock i c hi hrun =>
    obtain rfl := acquiresleep_ok hrun
    refine h.pass rfl rfl rfl (fun j => updBuf_refcnt w.cache i (fun b => { b with locked := true }) rfl j) ?_
    simp only [World.refs, Multiset.add_cons, ← Multiset.cons_add, Multiset.cons_erase hi]
  | @unlock i c hi hrun =>
    obtain rfl := unlock_ok hrun
    refine h.pass rfl rfl rfl (fun j => updBuf_refcnt w.cache i (fun b => { b with locked := false }) rfl j) ?_
    unfold World.refs
    conv_rhs => rw [← Multiset.cons_erase hi]
    simp only [Multiset.add_cons, Multiset.cons_add]
  | @unref i c hi hrun =>
    refine h.unref (i := i) ?_ hrun rfl rfl
    simp only [World.refs]
    rw [← Multiset.cons_add, ← Multiset.add_cons, Multiset.cons_erase hi]
  | @pin i c hrun hlt =>
    cases hrun
    have hrefs : ({ w with cache := w.cache.updBuf i fun b => { b with refcnt := incref b.refcnt },
                           pinned := i ::ₘ w.pinned } : World).refs = i ::ₘ w.refs := by
      simp only [World.refs, Multiset.add_cons]
    have hcount : (i ::ₘ w.refs).count i = (w.cache.buf i).refcnt + 1 := by
      rw [Multiset.count_cons_self, h.refcnt]
    refine h.count i rfl rfl (Nat.le_refl _) ?_ ?_ (fun j hj => ?_) fun j hj => ?_
    · rw [hrefs, hcount, updBuf_self]
      exact incref_eq hlt
    · rw [hrefs, hcount]
      exact hlt
    · rw [updBuf_ne _ _ hj]
    · rw [hrefs, Multiset.count_cons_of_ne hj]
  | @unpin i c hi hrun =>
    cases hrun
    have hrefs : w.refs = i ::ₘ ({ w with cache := w.cache.updBuf i fun b => { b with refcnt := decref b.refcnt },
                                          pinned := w.pinned.erase i } : World).refs := by
      simp only [World.refs]
      rw [← Multiset.add_cons, Multiset.cons_erase hi]
    obtain ⟨hdec, hbound, hother⟩ := h.dropped hrefs
    refine h.count i rfl rfl (Nat.le_refl _) ?_ hbound (fun j hj => ?_) hother
    · rw [updBuf_self]
      exact hdec
    · rw [updBuf_ne _ _ hj]

theorem Reachable.inv (h : Reachable w) : Inv w := by
  obtain ⟨w₀, h₀, hrun⟩ := h
  induction hrun with
  | refl => exact Inv.start h₀
  | tail _ hstep ih => exact hstep.inv ih

/-! ## What is recycled -/

/-- A buffer keeps its block, unless it has no references. -/
theorem Step.keeps (h : Inv w) (hs : Step w w') (hi : i ∈ w.refs) : (w'.cache.buf i).dev = (w.cache.buf i).dev ∧
    (w'.cache.buf i).blockno = (w.cache.buf i).blockno := by
  -- all parts but the recycling change only the lock and the count
  have hupd : ∀ (k : Fin NBUF) (f : Buf → Buf), (∀ b, (f b).dev = b.dev ∧ (f b).blockno = b.blockno) →
      ((w.cache.updBuf k f).buf i).dev = (w.cache.buf i).dev ∧
      ((w.cache.updBuf k f).buf i).blockno = (w.cache.buf i).blockno := by
    intro k f hf
    by_cases hik : i = k
    · rw [hik, updBuf_self]
      exact hf _
    · rw [updBuf_ne _ _ hik]
      exact ⟨rfl, rfl⟩
  cases hs with
  | @get dev blockno k c hrun hlt =>
    obtain ⟨l, hl, hall, -⟩ := h.ring
    rcases lookup_cases hl hall dev blockno with ⟨m, -, hm⟩ | ⟨-, m, hlast, hm⟩ | ⟨-, -, hm⟩
    · cases hm.symm.trans hrun
      dsimp only
      apply hupd
      exact fun b => ⟨rfl, rfl⟩
    · cases hm.symm.trans hrun
      have hne : i ≠ k := by
        rintro rfl
        have hpos := Multiset.count_pos.2 hi
        rw [← h.refcnt, hlast.1] at hpos
        exact absurd hpos (Nat.lt_irrefl 0)
      rw [updBuf_ne _ _ hne]
      exact ⟨rfl, rfl⟩
    · cases hm.symm.trans hrun
  | lock _ hrun =>
    obtain rfl := acquiresleep_ok hrun
    dsimp only
    apply hupd
    exact fun b => ⟨rfl, rfl⟩
  | unlock _ hrun =>
    obtain rfl := unlock_ok hrun
    dsimp only
    apply hupd
    exact fun b => ⟨rfl, rfl⟩
  | @unref k c _ hrun =>
    rw [unref_run] at hrun
    cases hrun
    dsimp only
    split
    · dsimp only
      apply hupd
      exact fun b => ⟨rfl, rfl⟩
    · apply hupd
      exact fun b => ⟨rfl, rfl⟩
  | pin hrun _ | unpin _ hrun =>
    cases hrun
    dsimp only
    apply hupd
    exact fun b => ⟨rfl, rfl⟩

/-- The last buffer of the ring without references is the oldest of them. -/
theorem Last.older {stamp : Fin NBUF → Option Nat} (h : Last c l i) (hall : ∀ j, j ∈ l)
    (hord : l.Pairwise fun i j => Older stamp j i) (hj : (c.buf j).refcnt = 0) : Older stamp i j := by
  obtain ⟨-, l₁, l₂, rfl, hlast⟩ := h
  rcases List.mem_append.1 (hall j) with hmem | hmem
  · exact (List.pairwise_append.1 hord).2.2 j hmem i List.mem_cons_self
  · rcases List.mem_cons.1 hmem with rfl | hmem
    · exact Or.inl rfl
    · exact absurd hj (hlast j hmem)

theorem updBuf_updBuf (c : Bcache) (i : Fin NBUF) (f g : Buf → Buf) :
    (c.updBuf i f).updBuf i g = c.updBuf i fun b => g (f b) := by
  unfold updBuf
  congr 1
  funext j
  dsimp only
  split <;> rfl

end Bcache

end Xv6
