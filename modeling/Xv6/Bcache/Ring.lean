import Xv6.Bio
import Xv6.Lib.LinkRing
import Xv6.Lib.Sim

/-!
# The ring of buffers

`binit`, `bget`, `brelse`, `bpin` and `bunpin` of `kernel/bio.c` with the pointers `next` and `prev`.

* `Bcache` — the buffers and the ring through them, with `bcache.head` as the sentinel.
* `lookup`, `unref` — the parts of `bget` and `brelse` that run under `bcache.lock`.
* `binit_holds`, `holds_moveFront` — `binit` builds the ring, and `brelse` moves a buffer to its front.
* `bget_sim`, `brelse_sim`, `bpin_sim`, `bunpin_sim` — `Bio`, whose list stands for the ring, simulates these
  functions.
* `ring_refines_list` — and every sequence of calls.
-/

namespace Xv6

open Prog

structure Bcache where
  buf : Fin NBUF → Buf
  ring : LinkRing (Fin NBUF)

namespace Bcache

def updBuf (c : Bcache) (i : Fin NBUF) (f : Buf → Buf) : Bcache :=
  { c with buf := fun j => if j = i then f (c.buf j) else c.buf j }

/-- The ring is built by a loop over the array; what the pointers were before does not matter. -/
def binit (r : LinkRing (Fin NBUF)) : Bcache where
  buf := fun _ => { valid := false, dev := 0, blockno := 0, locked := false, refcnt := 0, data := fun _ => 0 }
  ring := (List.finRange NBUF).foldl LinkRing.pushFront r.init

/-- The loop over `next` in `bget`. -/
def hit (c : Bcache) (dev blockno : Nat) : Option (Option (Fin NBUF)) :=
  LinkRing.search c.ring.next (fun i => (c.buf i).dev == dev && (c.buf i).blockno == blockno) (NBUF + 1)
    (c.ring.next none)

/-- The loop over `prev`. -/
def victim (c : Bcache) : Option (Option (Fin NBUF)) :=
  LinkRing.search c.ring.prev (fun i => (c.buf i).refcnt == 0) (NBUF + 1) (c.ring.prev none)

/-- `bget` up to the release of `bcache.lock`. -/
def lookup (dev blockno : Nat) : Prog Bcache (Fin NBUF) := do
  let c ← get
  match c.hit dev blockno with
  | none => hang
  | some (some i) => do
    modify (·.updBuf i fun b => { b with refcnt := incref b.refcnt })
    pure i
  | some none =>
    match c.victim with
    | none => hang
    | some (some i) => do
      modify (·.updBuf i fun b => { b with dev := dev, blockno := blockno, valid := false, refcnt := 1 })
      pure i
    | some none => panicWith "bget: no buffers"

def acquiresleep (i : Fin NBUF) : Prog Bcache Unit := do
  let c ← get
  if (c.buf i).locked then hang
  else modify (·.updBuf i fun b => { b with locked := true })

def bget (dev blockno : Nat) : Prog Bcache (Fin NBUF) := do
  let i ← lookup dev blockno
  acquiresleep i
  pure i

/-- `brelse` before `acquire(&bcache.lock)`. -/
def unlock (i : Fin NBUF) : Prog Bcache Unit := do
  let c ← get
  if (c.buf i).locked then modify (·.updBuf i fun b => { b with locked := false })
  else panicWith "brelse"

/-- The rest of `brelse`. -/
def unref (i : Fin NBUF) : Prog Bcache Unit := do
  modify (·.updBuf i fun b => { b with refcnt := decref b.refcnt })
  let c ← get
  if (c.buf i).refcnt = 0 then modify fun c => { c with ring := (c.ring.unlink i).pushFront i }
  else pure ()

def brelse (i : Fin NBUF) : Prog Bcache Unit := do
  unlock i
  unref i

def bpin (i : Fin NBUF) : Prog Bcache Unit :=
  modify (·.updBuf i fun b => { b with refcnt := incref b.refcnt })

def bunpin (i : Fin NBUF) : Prog Bcache Unit :=
  modify (·.updBuf i fun b => { b with refcnt := decref b.refcnt })

/-! ## The list behind the ring -/

variable {c c' : Bcache} {s : Bio} {l : List (Fin NBUF)} {i j : Fin NBUF} {dev blockno : Nat}

theorem length_lt (h : c.ring.Holds l) : l.length < NBUF + 1 := by
  have hcard := h.nodup.length_le_card
  rw [Fintype.card_fin] at hcard
  omega

theorem hit_eq (dev blockno : Nat) (h : c.ring.Holds l) : c.hit dev blockno =
    some (l.find? fun i => (c.buf i).dev == dev && (c.buf i).blockno == blockno) := h.search_next _ (length_lt h)

theorem victim_eq (h : c.ring.Holds l) : c.victim = some (l.reverse.find? fun i => (c.buf i).refcnt == 0) :=
  h.search_prev _ (length_lt h)

theorem foldl_pushFront (m : List (Fin NBUF)) {r : LinkRing (Fin NBUF)} (h : r.Holds l) (hnd : m.Nodup)
    (hdis : ∀ i ∈ m, i ∉ l) : (m.foldl LinkRing.pushFront r).Holds (m.reverse ++ l) := by
  induction m generalizing r l with
  | nil => exact h
  | cons i m ih =>
    obtain ⟨hi, hm⟩ := List.nodup_cons.1 hnd
    have hnext := ih (h.pushFront (hdis i List.mem_cons_self)) hm fun j hj hmem => ?_
    · rw [List.foldl_cons, List.reverse_cons, List.append_assoc]
      exact hnext
    · rcases List.mem_cons.1 hmem with rfl | hmem
      · exact hi hj
      · exact hdis j (List.mem_cons_of_mem i hj) hmem

/-- After `binit` the last buffer of the array is first. -/
theorem binit_holds (r : LinkRing (Fin NBUF)) : (binit r).ring.Holds (List.finRange NBUF).reverse := by
  have h := foldl_pushFront (List.finRange NBUF) (LinkRing.holds_init r) (List.nodup_finRange NBUF) (by simp)
  rw [List.append_nil] at h
  exact h

/-- The relinking in `brelse`. -/
theorem holds_moveFront (h : c.ring.Holds l) (hi : i ∈ l) :
    ((c.ring.unlink i).pushFront i).Holds (i :: l.erase i) := by
  obtain ⟨l₁, l₂, rfl⟩ := List.append_of_mem hi
  have hnd := h.nodup
  rw [List.nodup_append, List.nodup_cons] at hnd
  have hi₁ : i ∉ l₁ := fun hmem => hnd.2.2 i hmem i List.mem_cons_self rfl
  have herase : (l₁ ++ i :: l₂).erase i = l₁ ++ l₂ := by
    rw [List.erase_append_right _ hi₁, List.erase_cons_head]
  rw [herase]
  refine h.unlink.pushFront ?_
  simp [hi₁, hnd.2.1.1]

/-! ## `Bio` simulates the ring -/

structure Repr (c : Bcache) (s : Bio) : Prop where
  buf : c.buf = s.buf
  ring : c.ring.Holds s.lru
  all : ∀ i, i ∈ s.lru

theorem Repr.binit (r : LinkRing (Fin NBUF)) (disk : Nat → Block) : Repr (binit r) (Bio.binit disk) :=
  ⟨rfl, binit_holds r, fun i => by simp [Bio.binit]⟩

theorem Repr.updBuf (h : Repr c s) (i : Fin NBUF) (f : Buf → Buf) : Repr (c.updBuf i f) (s.updBuf i f) := by
  refine ⟨?_, h.ring, h.all⟩
  unfold Bcache.updBuf Bio.updBuf
  rw [h.buf]

theorem sim_updBuf (i : Fin NBUF) (f : Buf → Buf) :
    Sim Repr (Prog.modify fun c => c.updBuf i f) (Prog.modify fun s => s.updBuf i f) :=
  sim_modify fun _ _ h => h.updBuf i f

theorem acquiresleep_sim (i : Fin NBUF) : Sim Repr (acquiresleep i) (Xv6.acquiresleep i) := by
  refine sim_get fun c s h => ?_
  rw [h.buf]
  split
  · exact sim_hang c s h
  · exact sim_updBuf i _ c s h

theorem Repr.hit (h : Repr c s) (dev blockno : Nat) : c.hit dev blockno = some (s.hit dev blockno) := by
  rw [hit_eq dev blockno h.ring, h.buf]
  rfl

theorem Repr.victim (h : Repr c s) : c.victim = some s.victim := by
  rw [victim_eq h.ring, h.buf]
  rfl

theorem bget_sim (dev blockno : Nat) : Sim Repr (bget dev blockno) (Xv6.bget dev blockno) := by
  -- both lock the buffer that they have found
  have hlock : ∀ (i : Fin NBUF) (f : Buf → Buf), Sim Repr
      (((do Prog.modify (·.updBuf i f); pure i) : Prog Bcache (Fin NBUF)) >>= fun i => do acquiresleep i; pure i)
      (do Prog.modify (·.updBuf i f); Xv6.acquiresleep i; pure i) := by
    intro i f
    rw [bind_assoc]
    exact (sim_updBuf i f).bind fun _ => (acquiresleep_sim i).bind fun _ => sim_pure i
  intro c s h
  unfold bget lookup Xv6.bget
  rw [bind_assoc, get_bind, get_bind, h.hit, h.victim]
  cases s.hit dev blockno with
  | some i => exact hlock i _ c s h
  | none =>
    cases s.victim with
    | some i => exact hlock i _ c s h
    | none => exact .panic h

theorem brelse_sim (i : Fin NBUF) : Sim Repr (brelse i) (Xv6.brelse i) := by
  intro c s h
  unfold brelse unlock Xv6.brelse
  rw [bind_assoc, get_bind, get_bind, h.buf]
  by_cases hl : (s.buf i).locked = true
  · rw [if_pos hl, if_pos hl]
    refine Sim.bind (sim_updBuf i _) (fun _ => Sim.bind (sim_updBuf i _) fun _ => sim_get fun c s h => ?_) c s h
    rw [h.buf]
    by_cases hr : (s.buf i).refcnt = 0
    · rw [if_pos hr, if_pos hr]
      refine .ok ⟨h.buf, holds_moveFront h.ring (h.all i), fun j => ?_⟩
      by_cases hj : j = i
      · rw [hj]
        exact List.mem_cons_self
      · exact List.mem_cons_of_mem i ((List.mem_erase_of_ne hj).2 (h.all j))
    · rw [if_neg hr, if_neg hr]
      exact .ok h
  · rw [if_neg hl, if_neg hl]
    exact .panic h

theorem bpin_sim (i : Fin NBUF) : Sim Repr (bpin i) (Xv6.bpin i) := sim_updBuf i _

theorem bunpin_sim (i : Fin NBUF) : Sim Repr (bunpin i) (Xv6.bunpin i) := sim_updBuf i _

/-! ## Whole runs -/

/-- A call to the cache.  With `fill` the disk, or the thread that holds the buffer, writes to it. -/
inductive Call where
  | bget (dev blockno : Nat)
  | brelse (i : Fin NBUF)
  | bpin (i : Fin NBUF)
  | bunpin (i : Fin NBUF)
  | fill (i : Fin NBUF) (data : Block)

def Call.onRing : Call → Prog Bcache (Option (Fin NBUF))
  | .bget dev blockno => Bcache.bget dev blockno >>= fun i => pure (some i)
  | .brelse i => Bcache.brelse i >>= fun _ => pure none
  | .bpin i => Bcache.bpin i >>= fun _ => pure none
  | .bunpin i => Bcache.bunpin i >>= fun _ => pure none
  | .fill i data => Prog.modify (·.updBuf i fun b => { b with valid := true, data }) >>= fun _ => pure none

def Call.onList : Call → Prog Bio (Option (Fin NBUF))
  | .bget dev blockno => Xv6.bget dev blockno >>= fun i => pure (some i)
  | .brelse i => Xv6.brelse i >>= fun _ => pure none
  | .bpin i => Xv6.bpin i >>= fun _ => pure none
  | .bunpin i => Xv6.bunpin i >>= fun _ => pure none
  | .fill i data => Prog.modify (·.updBuf i fun b => { b with valid := true, data }) >>= fun _ => pure none

theorem Call.sim (x : Call) : Sim Repr x.onRing x.onList := by
  cases x with
  | bget dev blockno => exact (bget_sim dev blockno).bind fun i => sim_pure (some i)
  | brelse i => exact (brelse_sim i).bind fun _ => sim_pure none
  | bpin i | bunpin i | fill i _ => exact (sim_updBuf i _).bind fun _ => sim_pure none

/-- The results of a sequence of calls. -/
def runCalls {σ : Type} (f : Call → Prog σ (Option (Fin NBUF))) : List Call → Prog σ (List (Option (Fin NBUF)))
  | [] => pure []
  | x :: xs => f x >>= fun r => runCalls f xs >>= fun rs => pure (r :: rs)

theorem runCalls_sim (xs : List Call) : Sim Repr (runCalls Call.onRing xs) (runCalls Call.onList xs) := by
  induction xs with
  | nil => exact sim_pure []
  | cons x xs ih => exact x.sim.bind fun r => ih.bind fun rs => sim_pure (r :: rs)

/-- **The ring refines the list** over any calls after `binit`: the same buffers are found, the same calls panic or
wait, and the ring still holds the list. -/
theorem ring_refines_list (r : LinkRing (Fin NBUF)) (disk : Nat → Block) (xs : List Call) :
    Res.Rel Repr (runCalls Call.onRing xs (binit r)) (runCalls Call.onList xs (Bio.binit disk)) :=
  runCalls_sim xs _ _ (Repr.binit r disk)

end Bcache

end Xv6
