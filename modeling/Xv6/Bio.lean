import Xv6.Param
import Xv6.Lib.Prog
import Xv6.Lib.ByteStore

/-!
# The buffer cache

`kernel/bio.c` over a disk of single-block writes.

* `Bio.lru` is the ring of buffers read from `bcache.head.next` on, most recently used first.
* `Bio.writes` records every block that `virtio_disk_rw` has written; the code has no such list.
* `acquiresleep` on a buffer that is already locked waits for ever: there is one thread here.
* `Cached s store pins dirty` — the cache and the disk present the block store `store`: a clean
  buffer holds the stored contents, `pins` are the blocks whose disk copy may be out of date, and
  a buffer is `dirty` while its holder has changed it without handing it on.
-/

namespace Xv6

open Function

/-- The contents of a disk block. -/
abbrev Block := Fin BSIZE → UInt8

/-- `struct buf`; the position in the LRU list is kept in `Bio.lru`. -/
structure Buf where
  valid : Bool
  dev : Nat
  blockno : Nat
  locked : Bool
  refcnt : Nat
  data : Block

/-- `bcache`, and the disk behind it. -/
structure Bio where
  buf : Fin NBUF → Buf
  lru : List (Fin NBUF)
  disk : Nat → Block
  writes : List (Nat × Block)

namespace Bio

/-- After `binit`: the last buffer of the array is first in the list. -/
def binit (disk : Nat → Block) : Bio :=
  { buf := fun _ =>
      { valid := false, dev := 0, blockno := 0, locked := false, refcnt := 0, data := fun _ => 0 }
    lru := (List.finRange NBUF).reverse
    disk := disk
    writes := [] }

def updBuf (s : Bio) (i : Fin NBUF) (f : Buf → Buf) : Bio :=
  { s with buf := fun j => if j = i then f (s.buf j) else s.buf j }

/-- The first loop of `bget`: is the block already cached? -/
def hit (s : Bio) (dev blockno : Nat) : Option (Fin NBUF) :=
  s.lru.find? fun i => (s.buf i).dev == dev && (s.buf i).blockno == blockno

/-- The second loop of `bget`: the least recently used buffer that is not in use. -/
def victim (s : Bio) : Option (Fin NBUF) :=
  s.lru.reverse.find? fun i => (s.buf i).refcnt == 0

end Bio

open Prog

/-- `b->refcnt++` and `b->refcnt--` on a `uint`. -/
def incref (r : Nat) : Nat := (r + 1) % 2 ^ 32

def decref (r : Nat) : Nat := if r = 0 then 2 ^ 32 - 1 else r - 1

def acquiresleep (i : Fin NBUF) : Prog Bio Unit := do
  let s ← get
  if (s.buf i).locked then hang
  else modify (·.updBuf i fun b => { b with locked := true })

def releasesleep (i : Fin NBUF) : Prog Bio Unit :=
  modify (·.updBuf i fun b => { b with locked := false })

/-- Look through the buffer cache for the block; if not found, allocate a buffer.  In either case
return a locked buffer. -/
def bget (dev blockno : Nat) : Prog Bio (Fin NBUF) := do
  let s ← get
  match s.hit dev blockno with
  | some i =>
    modify (·.updBuf i fun b => { b with refcnt := incref b.refcnt })
    acquiresleep i
    pure i
  | none =>
    match s.victim with
    | some i =>
      modify (·.updBuf i fun b =>
        { b with dev := dev, blockno := blockno, valid := false, refcnt := 1 })
      acquiresleep i
      pure i
    | none => panicWith "bget: no buffers"

/-- `virtio_disk_rw(b, 0)` and `virtio_disk_rw(b, 1)`. -/
def diskRead (i : Fin NBUF) : Prog Bio Unit :=
  modify fun s => s.updBuf i fun b => { b with data := s.disk b.blockno }

def diskWrite (i : Fin NBUF) : Prog Bio Unit :=
  modify fun s =>
    { s with
      disk := Function.update s.disk (s.buf i).blockno (s.buf i).data
      writes := s.writes ++ [((s.buf i).blockno, (s.buf i).data)] }

/-- Return a locked buffer with the contents of the indicated block. -/
def bread (dev blockno : Nat) : Prog Bio (Fin NBUF) := do
  let i ← bget dev blockno
  let s ← get
  if (s.buf i).valid then pure i
  else
    diskRead i
    modify (·.updBuf i fun b => { b with valid := true })
    pure i

def bwrite (i : Fin NBUF) : Prog Bio Unit := do
  let s ← get
  if (s.buf i).locked then diskWrite i else panicWith "bwrite"

/-- Release a locked buffer; move it to the head of the list when nobody uses it. -/
def brelse (i : Fin NBUF) : Prog Bio Unit := do
  let s ← get
  if (s.buf i).locked then
    releasesleep i
    modify (·.updBuf i fun b => { b with refcnt := decref b.refcnt })
    let s ← get
    if (s.buf i).refcnt = 0 then modify fun s => { s with lru := i :: s.lru.erase i }
    else pure ()
  else panicWith "brelse"

def bpin (i : Fin NBUF) : Prog Bio Unit :=
  modify (·.updBuf i fun b => { b with refcnt := incref b.refcnt })

def bunpin (i : Fin NBUF) : Prog Bio Unit :=
  modify (·.updBuf i fun b => { b with refcnt := decref b.refcnt })

/-- The holder of a buffer replaces its contents (`memmove` into `b->data`). -/
def setData (i : Fin NBUF) (d : Block) : Prog Bio Unit :=
  modify (·.updBuf i fun b => { b with data := d })

/-! ## The invariant -/

namespace Bio

/-- Buffer `i` holds block `b` of the root device. -/
def Holds (s : Bio) (i : Fin NBUF) (b : Nat) : Prop :=
  (s.buf i).dev = ROOTDEV ∧ (s.buf i).blockno = b

instance (s : Bio) (i : Fin NBUF) (b : Nat) : Decidable (s.Holds i b) :=
  inferInstanceAs (Decidable (_ ∧ _))

/-- Buffer `i` is the cached copy of a pinned block. -/
def Pinned (s : Bio) (pins : List Nat) (i : Fin NBUF) : Prop :=
  (s.buf i).dev = ROOTDEV ∧ (s.buf i).blockno ∈ pins

instance (s : Bio) (pins : List Nat) (i : Fin NBUF) : Decidable (s.Pinned pins i) :=
  inferInstanceAs (Decidable (_ ∧ _))

structure Cached (s : Bio) (store : Nat → Block) (pins : List Nat) (dirty : Fin NBUF → Bool) :
    Prop where
  lruNodup : s.lru.Nodup
  lruAll : ∀ i, i ∈ s.lru
  uniq : ∀ i j b, s.Holds i b → s.Holds j b → i = j
  refcnt : ∀ i, (s.buf i).refcnt =
    (if (s.buf i).locked then 1 else 0) + (if s.Pinned pins i then 1 else 0)
  locked : ∀ i, (s.buf i).locked = true → (s.buf i).dev = ROOTDEV ∧ (s.buf i).valid = true
  pinned : ∀ b ∈ pins, ∃ i, s.Holds i b ∧ (s.buf i).valid = true
  data : ∀ i, (s.buf i).dev = ROOTDEV → (s.buf i).valid = true → dirty i = false →
    (s.buf i).data = store (s.buf i).blockno
  dirty : ∀ i, dirty i = true → (s.buf i).locked = true
  disk : ∀ b, b ∉ pins → s.disk b = store b

@[simp] theorem updBuf_self (s : Bio) (i : Fin NBUF) (f : Buf → Buf) :
    (s.updBuf i f).buf i = f (s.buf i) := by simp [updBuf]

variable {i : Fin NBUF} {b : Nat}

theorem updBuf_ne (s : Bio) {j : Fin NBUF} (f : Buf → Buf) (h : j ≠ i) :
    (s.updBuf i f).buf j = s.buf j := by simp [updBuf, h]

@[simp] theorem updBuf_disk (s : Bio) (i : Fin NBUF) (f : Buf → Buf) :
    (s.updBuf i f).disk = s.disk := rfl
@[simp] theorem updBuf_writes (s : Bio) (i : Fin NBUF) (f : Buf → Buf) :
    (s.updBuf i f).writes = s.writes := rfl

theorem updBuf_updBuf (s : Bio) (i : Fin NBUF) (f g : Buf → Buf) :
    (s.updBuf i f).updBuf i g = s.updBuf i (g ∘ f) := by
  simp only [updBuf]
  congr 1
  funext j
  split <;> rfl

variable {s : Bio} {store : Nat → Block} {pins : List Nat} {dirty : Fin NBUF → Bool}

/-- A buffer that nobody holds and that is not pinned. -/
theorem Cached.free_of_refcnt (h : Cached s store pins dirty)
    (hr : (s.buf i).refcnt = 0) : (s.buf i).locked = false ∧ ¬ s.Pinned pins i := by
  have := h.refcnt i
  rw [hr] at this
  constructor
  · cases hl : (s.buf i).locked with
    | false => rfl
    | true => rw [if_pos hl] at this; omega
  · intro hp
    rw [if_pos hp] at this; omega

theorem hit_some {dev : Nat} (h : s.hit dev b = some i) : (s.buf i).dev = dev ∧ (s.buf i).blockno = b := by
  have := List.find?_some h
  simpa using this

theorem Cached.hit_none (hc : Cached s store pins dirty) (h : s.hit ROOTDEV b = none)
    (i : Fin NBUF) : ¬ s.Holds i b := by
  have := List.find?_eq_none.1 h i (hc.lruAll i)
  simpa [Holds] using this

theorem victim_some (h : s.victim = some i) : (s.buf i).refcnt = 0 := by
  have := List.find?_some h
  simpa using this

theorem Cached.victim_none (hc : Cached s store pins dirty) (h : s.victim = none) (i : Fin NBUF) :
    (s.buf i).refcnt ≠ 0 := by
  have := List.find?_eq_none.1 h i (by simpa using hc.lruAll i)
  simpa using this

/-- A cold cache presents the disk. -/
theorem binit_cached (d : Nat → Block) : Cached (binit d) d [] (fun _ => false) where
  lruNodup := by
    show (List.finRange NBUF).reverse.Nodup
    rw [List.nodup_reverse]
    exact List.nodup_finRange NBUF
  lruAll := fun i => by
    show i ∈ (List.finRange NBUF).reverse
    rw [List.mem_reverse]
    exact List.mem_finRange i
  uniq := fun _ _ _ h _ => absurd h.1 (by simp [binit, ROOTDEV])
  refcnt := fun _ => by simp [binit, Pinned]
  locked := fun _ h => by simp [binit] at h
  pinned := fun _ h => by simp at h
  data := fun _ h _ _ => absurd h (by simp [binit, ROOTDEV])
  dirty := fun _ h => by simp at h
  disk := fun _ _ => rfl

/-! ## One specification for each operation -/

/-- Changing a buffer that is in use keeps the rest of the invariant: it is enough to look at the
new buffer. -/
theorem Cached.updBuf (h : Cached s store pins dirty) {f : Buf → Buf}
    {store' : Nat → Block} {pins' : List Nat} {dirty' : Fin NBUF → Bool}
    (huniq : ∀ j b, j ≠ i → (f (s.buf i)).dev = ROOTDEV → (f (s.buf i)).blockno = b →
      ¬ s.Holds j b)
    (href : (f (s.buf i)).refcnt = (if (f (s.buf i)).locked then 1 else 0) +
      (if (f (s.buf i)).dev = ROOTDEV ∧ (f (s.buf i)).blockno ∈ pins' then 1 else 0))
    (hlock : (f (s.buf i)).locked = true →
      (f (s.buf i)).dev = ROOTDEV ∧ (f (s.buf i)).valid = true)
    (hdata : (f (s.buf i)).dev = ROOTDEV → (f (s.buf i)).valid = true → dirty' i = false →
      (f (s.buf i)).data = store' (f (s.buf i)).blockno)
    (hdirty : dirty' i = true → (f (s.buf i)).locked = true)
    (hpins : ∀ j, j ≠ i → (s.buf j).dev = ROOTDEV →
      ((s.buf j).blockno ∈ pins' ↔ (s.buf j).blockno ∈ pins))
    (hpinned : ∀ b ∈ pins', (∃ j, j ≠ i ∧ s.Holds j b ∧ (s.buf j).valid = true) ∨
      ((f (s.buf i)).dev = ROOTDEV ∧ (f (s.buf i)).blockno = b ∧ (f (s.buf i)).valid = true))
    (hstore : ∀ j, j ≠ i → (s.buf j).dev = ROOTDEV →
      store' (s.buf j).blockno = store (s.buf j).blockno)
    (hdirty' : ∀ j, j ≠ i → dirty' j = dirty j)
    (hdisk : ∀ b, b ∉ pins' → s.disk b = store' b) :
    Cached (s.updBuf i f) store' pins' dirty' where
  lruNodup := h.lruNodup
  lruAll := h.lruAll
  uniq := by
    intro j k b hj hk
    by_cases hji : j = i
    · by_cases hki : k = i
      · rw [hji, hki]
      · subst hji
        simp only [Holds, updBuf_self, updBuf_ne _ _ hki] at hj hk
        exact absurd hk (huniq k b hki hj.1 hj.2)
    · by_cases hki : k = i
      · subst hki
        simp only [Holds, updBuf_self, updBuf_ne _ _ hji] at hj hk
        exact absurd hj (huniq j b hji hk.1 hk.2)
      · simp only [Holds, updBuf_ne _ _ hji, updBuf_ne _ _ hki] at hj hk
        exact h.uniq j k b hj hk
  refcnt := by
    intro j
    by_cases hji : j = i
    · subst hji
      simp only [Pinned, updBuf_self]
      exact href
    · rw [updBuf_ne _ _ hji, h.refcnt j]
      simp only [Pinned, updBuf_ne _ _ hji]
      by_cases hd : (s.buf j).dev = ROOTDEV
      · simp only [hd, true_and, hpins j hji hd]
      · simp only [hd, false_and]
  locked := by
    intro j
    by_cases hji : j = i
    · subst hji; rw [updBuf_self]; exact hlock
    · rw [updBuf_ne _ _ hji]; exact h.locked j
  pinned := by
    intro b hb
    rcases hpinned b hb with ⟨j, hji, hj, hv⟩ | ⟨hd, hbn, hv⟩
    · exact ⟨j, by simp only [Holds, updBuf_ne _ _ hji]; exact hj, by rw [updBuf_ne _ _ hji]; exact hv⟩
    · exact ⟨i, by simp only [Holds, updBuf_self]; exact ⟨hd, hbn⟩, by rw [updBuf_self]; exact hv⟩
  data := by
    intro j
    by_cases hji : j = i
    · subst hji; rw [updBuf_self]; exact hdata
    · rw [updBuf_ne _ _ hji]
      intro hd hv hdj
      rw [hstore j hji hd]
      exact h.data j hd hv (by rw [← hdirty' j hji]; exact hdj)
  dirty := by
    intro j
    by_cases hji : j = i
    · subst hji; rw [updBuf_self]; exact hdirty
    · rw [updBuf_ne _ _ hji, hdirty' j hji]; exact h.dirty j
  disk := hdisk

/-- What `bread` of block `b` gives: buffer `i`, locked, with the stored contents. -/
structure Read (s s' : Bio) (store : Nat → Block) (pins : List Nat) (dirty : Fin NBUF → Bool)
    (b : Nat) (i : Fin NBUF) : Prop where
  cached : Cached s' store pins dirty
  holds : s'.Holds i b
  locked : (s'.buf i).locked = true
  data : (s'.buf i).data = store b
  fresh : (s.buf i).locked = false
  kept : s.Holds i b ∨ ¬ s.Pinned pins i
  others : ∀ j, j ≠ i → s'.buf j = s.buf j
  disk : s'.disk = s.disk
  writes : s'.writes = s.writes

theorem Read.clean {s' : Bio} (hc : Cached s store pins dirty)
    (h : Read s s' store pins dirty b i) : dirty i = false := by
  cases hd : dirty i with
  | false => rfl
  | true =>
    have := hc.dirty i hd
    rw [h.fresh] at this; cases this

/-- The final state of `bread` when buffer `i` was found or recycled for block `b`. -/
theorem Cached.read (hc : Cached s store pins dirty) {f : Buf → Buf}
    (hfree : (s.buf i).locked = false) (hother : ∀ j, j ≠ i → ¬ s.Holds j b)
    (hvic : s.Holds i b ∨ ¬ s.Pinned pins i)
    (hpin : b ∈ pins → s.Holds i b) (hdev : (f (s.buf i)).dev = ROOTDEV)
    (hblk : (f (s.buf i)).blockno = b) (hval : (f (s.buf i)).valid = true)
    (hlck : (f (s.buf i)).locked = true) (hdat : (f (s.buf i)).data = store b)
    (href : (f (s.buf i)).refcnt = 1 + if b ∈ pins then 1 else 0) :
    Read s (s.updBuf i f) store pins dirty b i := by
  have hclean : dirty i = false := by
    cases hd : dirty i with
    | false => rfl
    | true =>
      have := hc.dirty i hd
      rw [hfree] at this; cases this
  have hcached : Cached (s.updBuf i f) store pins dirty := by
    refine hc.updBuf ?_ ?_ ?_ ?_ ?_ (fun _ _ _ => Iff.rfl) ?_ (fun _ _ _ => rfl) (fun _ _ => rfl) hc.disk
    · intro j c hji _ hb
      rw [hblk] at hb; subst hb
      exact hother j hji
    · rw [href, hlck, hdev, hblk]; simp
    · intro _; exact ⟨hdev, hval⟩
    · intro _ _ _; rw [hdat, hblk]
    · intro hd; rw [hclean] at hd; cases hd
    · intro c hcp
      obtain ⟨j, hj, hv⟩ := hc.pinned c hcp
      by_cases hji : j = i
      · subst hji
        right
        -- a pinned buffer is only ever taken for its own block
        rcases hvic with hh | hnp
        · exact ⟨hdev, by rw [hblk, ← hh.2]; exact hj.2, hval⟩
        · exact absurd ⟨hj.1, by rw [hj.2]; exact hcp⟩ hnp
      · exact Or.inl ⟨j, hji, hj, hv⟩
  exact
    { cached := hcached
      holds := by simp only [Holds, updBuf_self]; exact ⟨hdev, hblk⟩
      locked := by rw [updBuf_self]; exact hlck
      data := by rw [updBuf_self]; exact hdat
      fresh := hfree
      kept := hvic
      others := fun j hji => updBuf_ne _ _ hji
      disk := rfl
      writes := rfl }

theorem decref_of_pos {r : Nat} (h : 0 < r) : decref r = r - 1 :=
  if_neg (Nat.ne_of_gt h)

/-- `bget` of block `b` neither waits nor panics: nobody holds the block, and there is a buffer
to recycle. -/
def Room (s : Bio) (b : Nat) : Prop :=
  (∀ i, s.Holds i b → (s.buf i).locked = false) ∧ ∃ i, (s.buf i).refcnt = 0

/-- **`bread` returns the stored contents**, whatever it has to evict; on a panic or a wait the
disk is untouched. -/
theorem Cached.bread_spec (hc : Cached s store pins dirty) (b : Nat) {E : Bio → Prop}
    (hE : s.Room b ∨ ∀ s', s'.disk = s.disk → E s') :
    wp (bread ROOTDEV b) (fun i s' => Read s s' store pins dirty b i) E s := by
  unfold bread bget acquiresleep diskRead
  simp only [wp_bind, wp_get]
  cases hh : s.hit ROOTDEV b with
  | some i =>
    simp only [wp_bind, wp_modify, wp_get, updBuf_self, wp_ite]
    obtain ⟨hd, hb⟩ := hit_some hh
    have hother : ∀ j, j ≠ i → ¬ s.Holds j b := fun j hji hj => hji (hc.uniq j i b hj ⟨hd, hb⟩)
    split
    · rename_i hl
      rcases hE with hroom | hE
      · have := hroom.1 i ⟨hd, hb⟩
        rw [hl] at this; cases this
      · exact hE _ rfl
    · rename_i hl
      have hl : (s.buf i).locked = false := by simpa using hl
      have href : incref (s.buf i).refcnt = 1 + if b ∈ pins then 1 else 0 := by
        have hr := hc.refcnt i
        rw [hl] at hr
        simp only [Pinned, hd, hb, true_and, Bool.false_eq_true, if_false, Nat.zero_add] at hr
        rw [hr]
        split <;> rfl
      simp only [wp_pure, updBuf_updBuf, updBuf_self, Function.comp_apply]
      split
      · rename_i hv
        refine hc.read hl hother (Or.inl ⟨hd, hb⟩) (fun _ => ⟨hd, hb⟩) hd hb hv rfl ?_ href
        show (s.buf i).data = store b
        have hcl : dirty i = false := by
          cases hdi : dirty i with
          | false => rfl
          | true => have := hc.dirty i hdi; rw [hl] at this; cases this
        rw [hc.data i hd hv hcl, hb]
      · rename_i hv
        have hnp : b ∉ pins := by
          intro hbp
          obtain ⟨j, hj, hjv⟩ := hc.pinned b hbp
          have := hc.uniq j i b hj ⟨hd, hb⟩
          subst this
          exact hv hjv
        refine hc.read hl hother (Or.inl ⟨hd, hb⟩) (fun _ => ⟨hd, hb⟩) hd hb rfl rfl ?_ href
        show s.disk (s.buf i).blockno = store b
        rw [hb]; exact hc.disk b hnp
  | none =>
    have hmiss := hc.hit_none hh
    have hnp : b ∉ pins := by
      intro hbp
      obtain ⟨j, hj, _⟩ := hc.pinned b hbp
      exact hmiss j hj
    cases hv : s.victim with
    | none =>
      rcases hE with hroom | hE
      · obtain ⟨i, hi⟩ := hroom.2
        exact absurd hi (hc.victim_none hv i)
      · exact hE _ rfl
    | some i =>
      simp only [wp_bind, wp_modify, wp_get, updBuf_self, wp_ite]
      obtain ⟨hl, hpin⟩ := hc.free_of_refcnt (victim_some hv)
      rw [if_neg (by rw [hl]; simp)]
      simp only [wp_pure, updBuf_updBuf, updBuf_self, Function.comp_apply, Bool.false_eq_true,
        if_false]
      refine hc.read hl (fun j _ => hmiss j) (Or.inr hpin) (fun h => absurd h hnp) rfl rfl rfl rfl ?_ ?_
      · exact hc.disk b hnp
      · show 1 = _
        rw [if_neg hnp]

/-- The holder of a buffer changes it. -/
theorem Cached.setData_spec (hc : Cached s store pins dirty) (hl : (s.buf i).locked = true) (d : Block) :
    Cached (s.updBuf i fun b => { b with data := d }) store pins
      (update dirty i true) := by
  obtain ⟨hd, hv⟩ := hc.locked i hl
  refine hc.updBuf ?_ ?_ (fun _ => ⟨hd, hv⟩) ?_ (fun _ => hl) (fun _ _ _ => Iff.rfl) ?_
    (fun _ _ _ => rfl) ?_ hc.disk
  · intro j b hji _ hb hj
    exact hji (hc.uniq j i b hj ⟨hd, hb⟩)
  · exact hc.refcnt i
  · intro _ _ h
    rw [update_self] at h; cases h
  · intro b hb
    obtain ⟨j, hj, hjv⟩ := hc.pinned b hb
    by_cases hji : j = i
    · subst hji; exact Or.inr ⟨hj.1, hj.2, hjv⟩
    · exact Or.inl ⟨j, hji, hj, hjv⟩
  · intro j hji; rw [update_of_ne hji]

/-- What the holder of a buffer has written becomes the contents of its block. -/
theorem Cached.publish (hc : Cached s store pins dirty) {disk : Nat → Block}
    {writes : List (Nat × Block)} (hl : (s.buf i).locked = true) (hb : s.Holds i b)
    (hdisk : ∀ n, n ∉ pins → disk n = update store b (s.buf i).data n) :
    Cached { s with disk, writes } (update store b (s.buf i).data) pins (update dirty i false) := by
  obtain ⟨hd, hbn⟩ := hb
  refine ⟨hc.lruNodup, hc.lruAll, hc.uniq, hc.refcnt, hc.locked, hc.pinned, ?_, ?_, hdisk⟩
  · intro j hjd hjv hjdirty
    by_cases hji : j = i
    · subst hji; show (s.buf j).data = _; rw [hbn, update_self]
    · have hne : (s.buf j).blockno ≠ b := fun h => hji (hc.uniq j i b ⟨hjd, h⟩ ⟨hd, hbn⟩)
      show (s.buf j).data = _
      rw [update_of_ne hne]
      exact hc.data j hjd hjv (by rwa [update_of_ne hji] at hjdirty)
  · intro j hj
    by_cases hji : j = i
    · subst hji; exact hl
    · exact hc.dirty j (by rwa [update_of_ne hji] at hj)

/-- The holder of a buffer writes it through to the disk. -/
theorem Cached.diskWrite_spec (hc : Cached s store pins dirty) (hl : (s.buf i).locked = true) (hb : s.Holds i b) :
    Cached { s with
      disk := update s.disk (s.buf i).blockno (s.buf i).data
      writes := s.writes ++ [((s.buf i).blockno, (s.buf i).data)] }
      (update store b (s.buf i).data) pins
      (update dirty i false) := by
  refine hc.publish hl hb fun n hn => ?_
  rw [hb.2]
  by_cases hnb : n = b
  · subst hnb; simp only [update_self]
  · simp only [update_of_ne hnb]
    exact hc.disk n hn

/-- The holder of a clean buffer changes it and writes it to the disk. -/
theorem Cached.put_spec (hc : Cached s store pins dirty) (d : Block)
    {E : Bio → Prop} (hl : (s.buf i).locked = true) (hb : s.Holds i b) (hdi : dirty i = false) :
    wp (setData i d >>= fun _ => bwrite i) (fun _ s' =>
      Cached s' (update store b d) pins dirty ∧ s'.disk = update s.disk b d ∧
      s'.writes = s.writes ++ [(b, d)] ∧
      ∀ j, s'.buf j = if j = i then { s.buf j with data := d } else s.buf j) E s := by
  have hset := hc.setData_spec hl d
  have hb' : (s.updBuf i fun b => { b with data := d }).Holds i b := by
    simpa [Holds] using hb
  have hwr := hset.diskWrite_spec (by simpa using hl) hb'
  unfold bwrite setData diskWrite
  simp only [wp_bind, wp_modify, wp_get, updBuf_self, wp_ite, if_pos hl]
  have hclean : update dirty i false = dirty := update_eq_self_iff.2 hdi.symm
  simp only [updBuf_self, update_idem, hclean] at hwr
  refine ⟨hwr, ?_, ?_, fun j => rfl⟩
  · simp only [updBuf_disk, hb.2]
  · simp only [updBuf_writes, hb.2]

/-- `bpin` of a held buffer by `log_write`: what it holds is now the stored contents. -/
theorem Cached.pin_spec (hc : Cached s store pins dirty)
    (hl : (s.buf i).locked = true) (hb : s.Holds i b) (hnp : b ∉ pins) :
    Cached (s.updBuf i fun c => { c with refcnt := incref c.refcnt })
      (update store b (s.buf i).data) (pins ++ [b])
      (update dirty i false) := by
  obtain ⟨hd, hbn⟩ := hb
  have hv := (hc.locked i hl).2
  have hne : ∀ j, j ≠ i → (s.buf j).dev = ROOTDEV → (s.buf j).blockno ≠ b :=
    fun j hji hjd h => hji (hc.uniq j i b ⟨hjd, h⟩ ⟨hd, hbn⟩)
  refine hc.updBuf ?_ ?_ (fun _ => ⟨hd, hv⟩) ?_ (fun _ => hl) ?_ ?_ ?_ ?_ ?_
  · intro j c hji _ hc' hj
    exact hji (hc.uniq j i c hj ⟨hd, hc'⟩)
  · have hr := hc.refcnt i
    rw [if_pos hl, if_neg (by simp only [Pinned, hbn]; exact fun h => hnp h.2)] at hr
    simp only [hr, hl, hd, hbn]
    simp [incref]
  · intro _ _ _
    show (s.buf i).data = update store b _ (s.buf i).blockno
    rw [hbn, update_self]
  · intro j hji hjd
    simp [hne j hji hjd]
  · intro c hcp
    rcases List.mem_append.1 hcp with hcp | hcp
    · obtain ⟨j, hj, hjv⟩ := hc.pinned c hcp
      by_cases hji : j = i
      · subst hji; exact Or.inr ⟨hj.1, hj.2, hjv⟩
      · exact Or.inl ⟨j, hji, hj, hjv⟩
    · have : c = b := by simpa using hcp
      subst this
      exact Or.inr ⟨hd, hbn, hv⟩
  · intro j hji hjd
    rw [update_of_ne (hne j hji hjd)]
  · intro j hji; rw [update_of_ne hji]
  · intro n hn
    simp only [List.mem_append, List.mem_singleton, not_or] at hn
    rw [update_of_ne hn.2]
    exact hc.disk n hn.1

/-- `log_write` of a block that is already pinned only refreshes the stored contents. -/
theorem Cached.absorb_spec (hc : Cached s store pins dirty)
    (hl : (s.buf i).locked = true) (hb : s.Holds i b) (hp : b ∈ pins) :
    Cached s (update store b (s.buf i).data) pins
      (update dirty i false) :=
  hc.publish hl hb fun n hn => by
    rw [update_of_ne (by rintro rfl; exact hn hp)]
    exact hc.disk n hn

/-- `bunpin` of a held buffer whose block has reached the disk. -/
theorem Cached.unpin_spec (hc : Cached s store pins dirty)
    (hl : (s.buf i).locked = true) (hb : s.Holds i b) (hp : b ∈ pins) (hnd : pins.Nodup)
    (hdisk : s.disk b = store b) :
    Cached (s.updBuf i fun c => { c with refcnt := decref c.refcnt }) store (pins.erase b) dirty := by
  obtain ⟨hd, hbn⟩ := hb
  have hv := (hc.locked i hl).2
  refine hc.updBuf ?_ ?_ (fun _ => ⟨hd, hv⟩) ?_ (fun _ => hl) ?_ ?_ (fun _ _ _ => rfl)
    (fun _ _ => rfl) ?_
  · intro j c hji _ hc' hj
    exact hji (hc.uniq j i c hj ⟨hd, hc'⟩)
  · have hr := hc.refcnt i
    rw [if_pos hl, if_pos (show s.Pinned pins i from ⟨hd, by rw [hbn]; exact hp⟩)] at hr
    have : ¬ b ∈ pins.erase b := hnd.not_mem_erase
    simp only [hr, hl, hd, hbn, this]
    decide
  · intro h1 h2 h3; exact hc.data i h1 h2 h3
  · intro j hji hjd
    have hne : (s.buf j).blockno ≠ b := fun h => hji (hc.uniq j i b ⟨hjd, h⟩ ⟨hd, hbn⟩)
    exact List.mem_erase_of_ne hne
  · intro c hcp
    obtain ⟨j, hj, hjv⟩ := hc.pinned c (List.mem_of_mem_erase hcp)
    by_cases hji : j = i
    · subst hji; exact Or.inr ⟨hj.1, hj.2, hjv⟩
    · exact Or.inl ⟨j, hji, hj, hjv⟩
  · intro n hn
    by_cases hnb : n = b
    · subst hnb; exact hdisk
    · refine hc.disk n fun h => hn ?_
      exact (List.mem_erase_of_ne hnb).2 h

/-- `brelse` of a clean held buffer. -/
theorem Cached.brelse_spec (hc : Cached s store pins dirty) {E : Bio → Prop}
    (hl : (s.buf i).locked = true) (hdi : dirty i = false) :
    wp (brelse i) (fun _ s' => Cached s' store pins dirty ∧ s'.disk = s.disk ∧ s'.writes = s.writes ∧
      (s'.buf i).locked = false ∧ (∀ b, s'.Holds i b ↔ s.Holds i b) ∧
      ∀ j, j ≠ i → s'.buf j = s.buf j) E s := by
  unfold brelse releasesleep
  simp only [wp_bind, wp_get, wp_ite]
  rw [if_pos hl]
  obtain ⟨hd, hv⟩ := hc.locked i hl
  have hr := hc.refcnt i
  rw [if_pos hl] at hr
  have hdec : decref (s.buf i).refcnt = if s.Pinned pins i then 1 else 0 := by
    rw [decref_of_pos (by omega), hr]; omega
  have hc' : Cached (s.updBuf i fun b => { b with locked := false, refcnt := decref b.refcnt })
      store pins dirty := by
    refine hc.updBuf ?_ ?_ (fun h => by cases h) ?_ (fun h => by rw [hdi] at h; cases h)
      (fun _ _ _ => Iff.rfl) ?_ (fun _ _ _ => rfl) (fun _ _ => rfl) hc.disk
    · intro j b hji _ hb hj
      exact hji (hc.uniq j i b hj ⟨hd, hb⟩)
    · show decref (s.buf i).refcnt = _
      rw [hdec]
      simp only [Bool.false_eq_true, if_false, Nat.zero_add]
      by_cases hp : s.Pinned pins i
      · rw [if_pos hp]; exact (if_pos hp).symm
      · rw [if_neg hp]; exact (if_neg hp).symm
    · intro h1 h2 h3; exact hc.data i h1 h2 h3
    · intro b hb
      obtain ⟨j, hj, hjv⟩ := hc.pinned b hb
      by_cases hji : j = i
      · subst hji; exact Or.inr ⟨hj.1, hj.2, hjv⟩
      · exact Or.inl ⟨j, hji, hj, hjv⟩
  simp only [wp_modify, updBuf_updBuf, updBuf_self, Function.comp_def]
  by_cases h0 : decref (s.buf i).refcnt = 0
  · rw [if_pos h0]
    refine ⟨⟨?_, ?_, hc'.uniq, hc'.refcnt, hc'.locked, hc'.pinned, hc'.data, hc'.dirty, hc'.disk⟩,
      rfl, rfl, ?_, fun b => ?_, fun j hji => updBuf_ne _ _ hji⟩
    · refine List.nodup_cons.2 ⟨?_, ?_⟩
      · exact fun h => (hc.lruNodup.mem_erase_iff.1 h).1 rfl
      · exact hc.lruNodup.erase i
    · intro j
      by_cases hji : j = i
      · subst hji; exact List.mem_cons_self
      · exact List.mem_cons_of_mem _ ((List.mem_erase_of_ne hji).2 (hc.lruAll j))
    · simp
    · simp [Holds]
  · rw [if_neg h0]
    refine ⟨hc', rfl, rfl, ?_, fun b => ?_, fun j hji => updBuf_ne _ _ hji⟩
    · simp
    · simp [Holds]

end Bio

end Xv6
