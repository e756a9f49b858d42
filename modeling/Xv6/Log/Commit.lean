import Xv6.Lib.RedoLog
import Xv6.Log.Header
import Xv6.Bio

/-!
# The on-disk log: commit and recovery

The functions of `kernel/log.c` that write the disk.  The global `log` is a parameter; a function
that changes it returns the new one.

* `decodeHead` / `fillHead` — the header block: `n` in the first word, the home block numbers in
  the words after it.
* `writeLogBlock`, `installBlock` — one pass of the loops of `write_log` and `install_trans`.
* `recoverFromLog`, `initlog`, `commit`.

Principal results: a specification of each of the single-block writes (`writeLogBlock_spec`,
`installBlock_spec`, `writeHead_spec`) and of the whole of recovery on a cold cache
(`recoverFromLog_spec`).
-/

namespace Xv6

open Prog ByteStore Function

/-! ## The header block -/

/-- An `int` read from a 32-bit word. -/
def int32 (w : Nat) : Int := if w < 2 ^ 31 then w else (w : Int) - 2 ^ 32

/-- The `n` block numbers that `read_head` takes from the header block; a negative `n` lists
none. -/
@[irreducible] def decodeHead (d : Block) : List Nat :=
  (List.range (int32 (readLE d 0 4)).toNat).map fun i => readLE d (4 * (i + 1)) 4

/-- The loop of `write_head`. -/
def fillBlocks : List Nat → Nat → Block → Block
  | [], _, d => d
  | b :: bs, i, d => fillBlocks bs (i + 1) (writeLE d (4 * (i + 1)) 4 b)

/-- What `write_head` leaves in the header block; the rest of the block is kept. -/
@[irreducible] def fillHead (lh : List Nat) (d : Block) : Block := fillBlocks lh 0 (writeLE d 0 4 lh.length)

theorem readLE_fillBlocks_before : ∀ (lh : List Nat) (i off : Nat) (d : Block),
    off + 4 ≤ 4 * (i + 1) → readLE (fillBlocks lh i d) off 4 = readLE d off 4
  | [], _, _, _, _ => rfl
  | b :: bs, i, off, d, h => by
    simp only [fillBlocks]
    rw [readLE_fillBlocks_before bs (i + 1) off _ (by omega),
      readLE_writeLE_disjoint _ _ _ _ _ _ (by omega)]

theorem readLE_fillBlocks : ∀ (lh : List Nat) (i : Nat) (d : Block) (j : Nat) (hj : j < lh.length),
    i + lh.length ≤ LOGSIZE → readLE (fillBlocks lh i d) (4 * (i + j + 1)) 4 = lh[j] % 2 ^ 32
  | b :: bs, i, d, 0, _, h => by
    simp only [fillBlocks, List.getElem_cons_zero, Nat.add_zero]
    simp only [List.length_cons, LOGSIZE, MAXOPBLOCKS] at h
    rw [readLE_fillBlocks_before bs (i + 1) _ _ (by omega),
      readLE_writeLE _ _ _ _ fun k _ hk => show k < 1024 by omega, show 256 ^ 4 = 2 ^ 32 by decide]
  | b :: bs, i, d, j + 1, hj, h => by
    simp only [fillBlocks, List.getElem_cons_succ]
    simp only [List.length_cons] at hj h
    rw [show i + (j + 1) + 1 = i + 1 + j + 1 by omega]
    exact readLE_fillBlocks bs (i + 1) _ j (by omega) (by omega)

/-- **Reading back the header** that `write_head` wrote. -/
theorem decodeHead_fillHead {lh : List Nat} (hlen : lh.length ≤ LOGSIZE)
    (hb : ∀ b ∈ lh, b < 2 ^ 32) (d : Block) : decodeHead (fillHead lh d) = lh := by
  have hL : LOGSIZE = 30 := rfl
  have hn : readLE (fillHead lh d) 0 4 = lh.length := by
    unfold fillHead
    rw [readLE_fillBlocks_before lh 0 0 _ (by omega),
      readLE_writeLE _ _ _ _ fun k _ hk => show k < 1024 by omega]
    exact Nat.mod_eq_of_lt (by omega)
  have hi : (int32 lh.length).toNat = lh.length := by
    unfold int32
    rw [if_pos (by omega)]
    rfl
  unfold decodeHead
  rw [hn, hi]
  apply List.ext_getElem (by simp)
  intro j h1 h2
  simp only [List.getElem_map, List.getElem_range]
  have := readLE_fillBlocks lh 0 (writeLE d 0 4 lh.length) j h2 (by omega)
  rw [Nat.zero_add] at this
  rw [fillHead, this, Nat.mod_eq_of_lt (hb _ (List.getElem_mem h2))]

/-! ## The functions -/

/-- One pass of the loop of `write_log`. -/
def writeLogBlock (l : Log) (tail : Nat) : Prog Bio Unit := do
  let dst ← bread l.dev (l.start + tail + 1)
  let src ← bread l.dev (l.lh.getD tail 0)
  let s ← get
  setData dst (s.buf src).data
  bwrite dst
  brelse src
  brelse dst

/-- Copy modified blocks from cache to log. -/
def writeLog (l : Log) : Prog Bio Unit := loop (writeLogBlock l) 0 l.lh.length

/-- One pass of the loop of `install_trans`. -/
def installBlock (l : Log) (recovering : Bool) (tail : Nat) : Prog Bio Unit := do
  let lbuf ← bread l.dev (l.start + tail + 1)
  let dbuf ← bread l.dev (l.lh.getD tail 0)
  let s ← get
  setData dbuf (s.buf lbuf).data
  bwrite dbuf
  (if recovering then pure () else bunpin dbuf)
  brelse lbuf
  brelse dbuf

/-- Copy committed blocks from log to their home location. -/
def installTrans (l : Log) (recovering : Bool) : Prog Bio Unit :=
  loop (installBlock l recovering) 0 l.lh.length

/-- Read the log header from disk into the in-memory log header. -/
def readHead (l : Log) : Prog Bio Log := do
  let i ← bread l.dev l.start
  let s ← get
  brelse i
  pure { l with lh := decodeHead (s.buf i).data }

/-- Write the in-memory log header to disk. -/
def writeHead (l : Log) : Prog Bio Unit := do
  let i ← bread l.dev l.start
  let s ← get
  setData i (fillHead l.lh (s.buf i).data)
  bwrite i
  brelse i

def recoverFromLog (l : Log) : Prog Bio Log := do
  let l ← readHead l
  installTrans l true
  let l := { l with lh := [] }
  writeHead l
  pure l

/-- The part of `struct superblock` that `initlog` reads. -/
structure LogSuper where
  logstart : Nat
  nlog : Nat

def initlog (dev : Nat) (sb : LogSuper) : Prog Bio Log :=
  if 4 * (LOGSIZE + 1) ≥ BSIZE then panicWith "initlog: too big logheader"
  else recoverFromLog
    { start := sb.logstart, size := sb.nlog, outstanding := 0, committing := false, dev := dev,
      lh := [] }

def commit (l : Log) : Prog Bio Log :=
  if 0 < l.lh.length then do
    writeLog l
    writeHead l
    installTrans l false
    let l := { l with lh := [] }
    writeHead l
    pure l
  else pure l

/-! ## Two buffers at a time -/

namespace Bio

variable {s : Bio} {store : Nat → Block} {pins : List Nat} {dirty : Fin NBUF → Bool}

/-- Nothing is pinned and no buffer is held. -/
def Quiet (s : Bio) (pins : List Nat) : Prop := pins = [] ∧ ∀ j, (s.buf j).locked = false

theorem Cached.room (hc : Cached s store [] dirty) {i : Fin NBUF} {b : Nat}
    (h : ∀ j, (s.buf j).locked = true → j = i) (hb : (s.buf i).locked = true → ¬ s.Holds i b) :
    s.Room b := by
  constructor
  · intro j hj
    cases hl : (s.buf j).locked with
    | false => rfl
    | true =>
      have := h j hl
      subst this
      exact absurd hj (hb hl)
  · -- with at most one of the buffers held, one of the first two is not in use
    have hne : ∃ j : Fin NBUF, j ≠ i := by
      by_cases hi : i = ⟨0, by decide⟩
      · exact ⟨⟨1, by decide⟩, by rw [hi]; decide⟩
      · exact ⟨⟨0, by decide⟩, Ne.symm hi⟩
    obtain ⟨j, hj⟩ := hne
    have hl : ¬ (s.buf j).locked = true := fun hl => hj (h j hl)
    refine ⟨j, ?_⟩
    rw [hc.refcnt j, if_neg hl, if_neg (by simp [Pinned])]

/-- The state after `bread` of two different blocks. -/
structure ReadTwo (s s' : Bio) (store : Nat → Block) (pins : List Nat) (dirty : Fin NBUF → Bool)
    (a b : Nat) (i j : Fin NBUF) : Prop where
  cached : Cached s' store pins dirty
  ne : i ≠ j
  holds₁ : s'.Holds i a
  holds₂ : s'.Holds j b
  locked₁ : (s'.buf i).locked = true
  locked₂ : (s'.buf j).locked = true
  data₁ : (s'.buf i).data = store a
  data₂ : (s'.buf j).data = store b
  clean₁ : dirty i = false
  clean₂ : dirty j = false
  fresh₁ : (s.buf i).locked = false
  fresh₂ : (s.buf j).locked = false
  others : ∀ k, k ≠ i → k ≠ j → s'.buf k = s.buf k
  disk : s'.disk = s.disk
  writes : s'.writes = s.writes

theorem Cached.bread_two (hc : Cached s store pins dirty) {a b : Nat} (hab : a ≠ b) {α : Type}
    {Q : α → Bio → Prop} {E : Bio → Prop} (hE : s.Quiet pins ∨ ∀ s', s'.disk = s.disk → E s')
    {f : Fin NBUF → Fin NBUF → Prog Bio α}
    (hf : ∀ i j s', ReadTwo s s' store pins dirty a b i j → wp (f i j) Q E s') :
    wp (do let i ← bread ROOTDEV a; let j ← bread ROOTDEV b; f i j) Q E s := by
  refine wp_seq (hc.bread_spec a ?_) fun i s₁ h₁ => wp_seq (h₁.cached.bread_spec b ?_)
    fun j s₂ h₂ => hf i j s₂ ?_
  · rcases hE with ⟨rfl, hq⟩ | hE
    · refine Or.inl (hc.room (i := ⟨0, by decide⟩) ?_ ?_)
      · intro j hj; rw [hq j] at hj; cases hj
      · intro hj; rw [hq] at hj; cases hj
    · exact Or.inr hE
  · rcases hE with ⟨rfl, hq⟩ | hE
    · refine Or.inl (h₁.cached.room (i := i) ?_ ?_)
      · intro j hj
        by_cases hji : j = i
        · exact hji
        · rw [h₁.others j hji, hq j] at hj; cases hj
      · rintro - ⟨-, hb⟩
        exact hab (by rw [← h₁.holds.2, hb])
    · exact Or.inr fun s' hs' => hE s' (by rw [hs', h₁.disk])
  · have hij : i ≠ j := by
      rintro rfl
      have := h₂.fresh
      rw [h₁.locked] at this; cases this
    have hi : s₂.buf i = s₁.buf i := h₂.others i hij
    refine ⟨h₂.cached, hij, ?_, h₂.holds, ?_, h₂.locked, ?_, h₂.data, h₁.clean hc, h₂.clean h₁.cached,
      h₁.fresh, ?_, ?_, by rw [h₂.disk, h₁.disk], by rw [h₂.writes, h₁.writes]⟩
    · simp only [Holds, hi]; exact h₁.holds
    · rw [hi]; exact h₁.locked
    · rw [hi]; exact h₁.data
    · rw [← h₁.others j hij.symm]; exact h₂.fresh
    · intro k hki hkj
      rw [h₂.others k hkj, h₁.others k hki]

theorem Cached.brelse_two (hc : Cached s store pins dirty) {i j : Fin NBUF} (hij : i ≠ j)
    {E : Bio → Prop} (hi : (s.buf i).locked = true) (hj : (s.buf j).locked = true)
    (hdi : dirty i = false) (hdj : dirty j = false) :
    wp (do brelse i; brelse j) (fun _ s' => Cached s' store pins dirty ∧ s'.disk = s.disk ∧
      s'.writes = s.writes ∧ (s'.buf i).locked = false ∧ (s'.buf j).locked = false ∧
      ∀ k, k ≠ i → k ≠ j → s'.buf k = s.buf k) E s := by
  refine wp_seq (hc.brelse_spec hi hdi) fun _ s₁ h₁ => ?_
  obtain ⟨hc₁, hd₁, hw₁, hl₁, -, ho₁⟩ := h₁
  have hj₁ : (s₁.buf j).locked = true := by rw [ho₁ j hij.symm]; exact hj
  refine wp_mono (hc₁.brelse_spec hj₁ hdj) ?_ fun _ h => h
  rintro - s₂ ⟨hc₂, hd₂, hw₂, hl₂, -, ho₂⟩
  refine ⟨hc₂, by rw [hd₂, hd₁], by rw [hw₂, hw₁], ?_, hl₂, ?_⟩
  · rw [ho₂ i hij]; exact hl₁
  · intro k hki hkj
    rw [ho₂ k hkj, ho₁ k hki]

/-- Copying into a held buffer, writing it to the disk, and going on. -/
theorem Cached.put_seq (hc : Cached s store pins dirty) {i : Fin NBUF} {b : Nat} (d : Block)
    {α : Type} {Q : α → Bio → Prop} {E : Bio → Prop} (hl : (s.buf i).locked = true)
    (hb : s.Holds i b) (hdi : dirty i = false) {f : Prog Bio α}
    (hf : ∀ s', Cached s' (update store b d) pins dirty →
      s'.disk = update s.disk b d → s'.writes = s.writes ++ [(b, d)] →
      (∀ j, s'.buf j = if j = i then { s.buf j with data := d } else s.buf j) → wp f Q E s') :
    wp (do setData i d; bwrite i; f) Q E s := by
  have h : wp (setData i d >>= fun _ => bwrite i) (fun _ s' => wp f Q E s') E s :=
    wp_mono (hc.put_spec d hl hb hdi) (fun _ s' h => hf s' h.1 h.2.1 h.2.2.1 h.2.2.2) fun _ h => h
  simpa only [wp_bind] using h

end Bio

open Bio

section specs

variable {s : Bio} {store : Nat → Block} {pins : List Nat} {dirty : Fin NBUF → Bool} {l : Log}
  {tail a b : Nat} {E : Bio → Prop}

/-- What a single-block write leaves: block `b` has contents `v`, on the disk as well, and whoever
held a buffer still holds it. -/
structure Put (s s' : Bio) (store : Nat → Block) (pins : List Nat) (dirty : Fin NBUF → Bool)
    (b : Nat) (v : Block) : Prop where
  cached : Cached s' (Function.update store b v) pins dirty
  disk : s'.disk = Function.update s.disk b v
  writes : s'.writes = s.writes ++ [(b, v)]
  kept : ∀ k, (s.buf k).locked = true → s'.buf k = s.buf k
  free : ∀ k, (s.buf k).locked = false → (s'.buf k).locked = false

theorem kept_of_two {s₁ s' : Bio} {i j : Fin NBUF} (h : ReadTwo s s₁ store pins dirty a b i j)
    (ho : ∀ k, k ≠ i → k ≠ j → s'.buf k = s.buf k) :
    ∀ k, (s.buf k).locked = true → s'.buf k = s.buf k := by
  intro k hk
  refine ho k ?_ ?_
  · rintro rfl; rw [h.fresh₁] at hk; cases hk
  · rintro rfl; rw [h.fresh₂] at hk; cases hk

theorem free_of_two {s' : Bio} {i j : Fin NBUF} (hi : (s'.buf i).locked = false)
    (hj : (s'.buf j).locked = false) (ho : ∀ k, k ≠ i → k ≠ j → s'.buf k = s.buf k) :
    ∀ k, (s.buf k).locked = false → (s'.buf k).locked = false := by
  intro k hk
  by_cases hki : k = i
  · rw [hki, hi]
  · by_cases hkj : k = j
    · rw [hkj, hj]
    · rw [ho k hki hkj, hk]

/-- **One pass of `write_log`** copies the cached block to its log slot. -/
theorem writeLogBlock_spec (hc : Cached s store pins dirty) (hdev : l.dev = ROOTDEV)
    (ha : l.start + tail + 1 = a) (hb : l.lh.getD tail 0 = b) (hab : a ≠ b)
    (hE : s.Quiet pins ∨ ∀ s', s'.disk = s.disk → E s') :
    wp (writeLogBlock l tail) (fun _ s' => Put s s' store pins dirty a (store b)) E s := by
  unfold writeLogBlock
  rw [hdev, ha, hb]
  refine hc.bread_two hab hE fun i j s₁ h => ?_
  rw [wp_bind, wp_get, h.data₂]
  refine h.cached.put_seq _ h.locked₁ h.holds₁ h.clean₁ fun s₂ hc₂ hd₂ hw₂ hb₂ => ?_
  have hi : (s₂.buf i).locked = true := by rw [hb₂, if_pos rfl]; exact h.locked₁
  have hj : (s₂.buf j).locked = true := by rw [hb₂, if_neg h.ne.symm]; exact h.locked₂
  refine wp_mono (hc₂.brelse_two h.ne.symm hj hi h.clean₂ h.clean₁) ?_ fun _ h => h
  rintro - s₃ ⟨hc₃, hd₃, hw₃, hlj, hli, ho⟩
  have hk : ∀ k, k ≠ i → k ≠ j → s₃.buf k = s.buf k := fun k hki hkj => by
    rw [ho k hkj hki, hb₂, if_neg hki, h.others k hki hkj]
  exact ⟨hc₃, by rw [hd₃, hd₂, h.disk], by rw [hw₃, hw₂, h.writes], kept_of_two h hk,
    free_of_two hli hlj hk⟩

/-- **One pass of `install_trans`** copies a log slot to its home block and, after a commit, unpins
the buffer. -/
theorem installBlock_spec (hc : Cached s store pins dirty) (hdev : l.dev = ROOTDEV)
    {recovering : Bool} (hp : recovering = false → b ∈ pins ∧ pins.Nodup)
    (ha : l.start + tail + 1 = a) (hb : l.lh.getD tail 0 = b) (hab : a ≠ b)
    (hE : s.Quiet pins ∨ ∀ s', s'.disk = s.disk → E s') :
    wp (installBlock l recovering tail) (fun _ s' =>
      Put s s' store (if recovering then pins else pins.erase b) dirty b (store a)) E s := by
  unfold installBlock
  rw [hdev, ha, hb]
  refine hc.bread_two hab hE fun i j s₁ h => ?_
  rw [wp_bind, wp_get, h.data₁]
  refine h.cached.put_seq _ h.locked₂ h.holds₂ h.clean₂ fun s₂ hc₂ hd₂ hw₂ hb₂ => ?_
  have hi : (s₂.buf i).locked = true := by rw [hb₂, if_neg h.ne]; exact h.locked₁
  have hj : (s₂.buf j).locked = true := by rw [hb₂, if_pos rfl]; exact h.locked₂
  -- with or without the unpinning, at most the buffer that was written changes
  have hunpin : wp (if recovering then pure () else bunpin j) (fun _ s₃ =>
      Cached s₃ (update store b (store a)) (if recovering then pins else pins.erase b) dirty ∧
      s₃.disk = s₂.disk ∧ s₃.writes = s₂.writes ∧
      (s₃.buf j).locked = true ∧ ∀ k, k ≠ j → s₃.buf k = s₂.buf k) E s₂ := by
    cases recovering with
    | true => exact ⟨hc₂, rfl, rfl, hj, fun _ _ => rfl⟩
    | false =>
      obtain ⟨hbp, hnd⟩ := hp rfl
      have hh : s₂.Holds j b := by
        simp only [Holds, hb₂, if_pos]; exact h.holds₂
      refine ⟨hc₂.unpin_spec hj hh hbp hnd ?_, rfl, rfl, ?_, fun k hkj => updBuf_ne _ _ hkj⟩
      · rw [hd₂, update_self, update_self]
      · rw [updBuf_self]; exact hj
  refine wp_seq hunpin ?_
  rintro - s₃ ⟨hc₃, hd₃, hw₃, hj₃, hl₃⟩
  refine wp_mono (hc₃.brelse_two h.ne (by rw [hl₃ i h.ne, hi]) hj₃ h.clean₁ h.clean₂) ?_ fun _ h => h
  rintro - s₄ ⟨hc₄, hd₄, hw₄, hli, hlj, ho⟩
  have hk : ∀ k, k ≠ i → k ≠ j → s₄.buf k = s.buf k := fun k hki hkj => by
    rw [ho k hki hkj, hl₃ k hkj, hb₂, if_neg hkj, h.others k hki hkj]
  exact ⟨hc₄, by rw [hd₄, hd₃, hd₂, h.disk], by rw [hw₄, hw₃, hw₂, h.writes], kept_of_two h hk,
    free_of_two hli hlj hk⟩

theorem Bio.Cached.bread_seq (hc : Cached s store pins dirty) (b : Nat) {α : Type}
    {Q : α → Bio → Prop} (hE : s.Quiet pins ∨ ∀ s', s'.disk = s.disk → E s')
    {f : Fin NBUF → Prog Bio α} (hf : ∀ i s', Read s s' store pins dirty b i → wp (f i) Q E s') :
    wp (bread ROOTDEV b >>= f) Q E s := by
  refine wp_seq (hc.bread_spec b ?_) hf
  rcases hE with ⟨rfl, hq⟩ | hE
  · refine Or.inl (hc.room (i := ⟨0, by decide⟩) ?_ ?_)
    · intro j hj; rw [hq j] at hj; cases hj
    · intro hj; rw [hq] at hj; cases hj
  · exact Or.inr hE

/-- **`write_head`** is a single-block write of the header. -/
theorem writeHead_spec (hc : Cached s store pins dirty) (hdev : l.dev = ROOTDEV)
    (hE : s.Quiet pins ∨ ∀ s', s'.disk = s.disk → E s') :
    wp (writeHead l) (fun _ s' =>
      Put s s' store pins dirty l.start (fillHead l.lh (store l.start))) E s := by
  unfold writeHead
  rw [hdev]
  refine hc.bread_seq _ hE fun i s₁ h => ?_
  rw [wp_bind, wp_get, h.data]
  refine h.cached.put_seq _ h.locked h.holds (h.clean hc) fun s₂ hc₂ hd₂ hw₂ hb₂ => ?_
  have hi : (s₂.buf i).locked = true := by rw [hb₂, if_pos rfl]; exact h.locked
  refine wp_mono (hc₂.brelse_spec hi (h.clean hc)) ?_ fun _ h => h
  rintro - s₃ ⟨hc₃, hd₃, hw₃, hli, -, ho⟩
  have hk : ∀ k, k ≠ i → s₃.buf k = s.buf k := fun k hki => by
    rw [ho k hki, hb₂, if_neg hki, h.others k hki]
  refine ⟨hc₃, by rw [hd₃, hd₂, h.disk], by rw [hw₃, hw₂, h.writes], fun k hl => hk k ?_, fun k hl => ?_⟩
  · rintro rfl; rw [h.fresh] at hl; cases hl
  · by_cases hki : k = i
    · rw [hki, hli]
    · rw [hk k hki, hl]

/-- `read_head` takes the list from the header block and changes nothing else. -/
theorem readHead_spec (hc : Cached s store pins dirty) (hdev : l.dev = ROOTDEV)
    (hE : s.Quiet pins ∨ ∀ s', s'.disk = s.disk → E s') :
    wp (readHead l) (fun l' s' => l' = { l with lh := decodeHead (store l.start) } ∧
      Cached s' store pins dirty ∧ s'.disk = s.disk ∧ s'.writes = s.writes ∧
      ∀ k, (s'.buf k).locked = (s.buf k).locked) E s := by
  unfold readHead
  rw [hdev]
  refine hc.bread_seq _ hE fun i s₁ h => ?_
  rw [wp_bind, wp_get, h.data]
  refine wp_seq (h.cached.brelse_spec h.locked (h.clean hc)) ?_
  rintro - s₂ ⟨hc₂, hd₂, hw₂, hli, -, ho⟩
  refine ⟨rfl, hc₂, by rw [hd₂, h.disk], by rw [hw₂, h.writes], fun k => ?_⟩
  by_cases hki : k = i
  · subst hki; rw [hli, h.fresh]
  · rw [ho k hki, h.others k hki]

end specs

/-! ## Recovery on a cold cache -/

open RedoLog

/-- The log of `size` blocks that starts at block `start`. -/
def logGeometry (start size : Nat) : Geometry Nat Block where
  header := start
  slot i := start + i + 1
  cap := size - 1
  entries := decodeHead
  slot_inj i j _ _ h := by omega
  slot_ne i _ := by omega

@[simp] theorem logGeometry_header (start size : Nat) : (logGeometry start size).header = start := rfl
@[simp] theorem logGeometry_slot (start size i : Nat) :
    (logGeometry start size).slot i = start + i + 1 := rfl
@[simp] theorem logGeometry_cap (start size : Nat) : (logGeometry start size).cap = size - 1 := rfl
@[simp] theorem logGeometry_logged (start size : Nat) (d : Nat → Block) :
    (logGeometry start size).logged d = decodeHead (d start) := rfl

/-- The header with which recovery and `commit` erase the transaction. -/
theorem decodeHead_erased (d : Block) : decodeHead (fillHead [] d) = [] :=
  decodeHead_fillHead (Nat.zero_le _) (by simp) d

/-- All writes of `recover_from_log`: the installs, then the empty header. -/
def recoveryWrites (g : Geometry Nat Block) (d : Nat → Block) : List (Nat × Block) :=
  g.replay d ++ [(g.header, fillHead [] (d g.header))]

/-- The disk after all of them: everything installed, then the header erased. -/
theorem applyWrites_recoveryWrites (g : Geometry Nat Block) (d : Nat → Block) :
    applyWrites d (recoveryWrites g d) =
      update (g.installed d (g.logged d).length) g.header (fillHead [] (d g.header)) := by
  rw [recoveryWrites, applyWrites_append, Geometry.installed,
    List.take_of_length_le (by rw [Geometry.length_replay])]
  rfl

theorem logged_recovered (start size : Nat) (d : Nat → Block) :
    (logGeometry start size).logged
      (applyWrites d (recoveryWrites (logGeometry start size) d)) = [] := by
  rw [applyWrites_recoveryWrites, logGeometry_logged, logGeometry_header, update_self]
  exact decodeHead_erased _

section recovery

variable {l : Log} {size : Nat} {d : Nat → Block} {s : Bio}

/-- The state of a recovery that has made the first `k` installs. -/
structure Recovering (l : Log) (size : Nat) (d : Nat → Block) (k : Nat) (s : Bio) : Prop where
  cached : Cached s s.disk [] (fun _ => false)
  idle : ∀ j, (s.buf j).locked = false
  disk : s.disk = (logGeometry l.start size).installed d k
  writes : s.writes = ((logGeometry l.start size).replay d).take k

theorem installBlock_recovering (hdev : l.dev = ROOTDEV) (hs : (logGeometry l.start size).Sane d)
    {j : Nat} (hj : j < (decodeHead (d l.start)).length) (h : Recovering l size d j s) :
    wp (installBlock { l with lh := decodeHead (d l.start) } true j)
      (fun _ s' => Recovering l size d (j + 1) s') (fun _ => False) s := by
  have hcap : j < (logGeometry l.start size).cap := Nat.lt_of_lt_of_le hj hs.room
  have hslot : s.disk (l.start + j + 1) = d (l.start + j + 1) := by
    rw [h.disk]
    exact Geometry.installed_slot hs hcap j
  have hget : (decodeHead (d l.start)).getD j 0 = (decodeHead (d l.start))[j] :=
    by rw [List.getD_eq_getElem?_getD, List.getElem?_eq_getElem hj, Option.getD_some]
  have hne : l.start + j + 1 ≠ (decodeHead (d l.start))[j] := hs.slot_ne_getElem hj hcap
  refine wp_mono (@installBlock_spec s s.disk [] (fun _ => false) { l with lh := decodeHead (d l.start) }
    j _ _ _ h.cached hdev true (by simp) rfl hget hne (Or.inl ⟨rfl, h.idle⟩)) ?_ fun _ h => h
  rintro - s' hp
  have hd' : s'.disk = (logGeometry l.start size).installed d (j + 1) := by
    rw [hp.disk, hslot, h.disk, Geometry.installed_succ (by simpa using hj)]
    simp only [logGeometry_logged, logGeometry_slot]
  refine ⟨?_, fun k => hp.free k (h.idle k), hd', ?_⟩
  · have := hp.cached
    rwa [← hp.disk] at this
  · rw [hp.writes, hslot, h.writes, Geometry.replay_getElem (by simpa using hj)]
    simp only [logGeometry_logged, logGeometry_slot]

/-- **Recovery returns**, after exactly the writes `recoveryWrites`. -/
theorem recoverFromLog_spec (hdev : l.dev = ROOTDEV) (hs : (logGeometry l.start size).Sane d) :
    wp (recoverFromLog l) (fun l' s' => l' = { l with lh := [] } ∧
      Cached s' s'.disk [] (fun _ => false) ∧ (∀ k, (s'.buf k).locked = false) ∧
      s'.writes = recoveryWrites (logGeometry l.start size) d ∧
      s'.disk = applyWrites d s'.writes) (fun _ => False) (Bio.binit d) := by
  unfold recoverFromLog
  refine wp_seq (readHead_spec (Bio.binit_cached d) hdev (Or.inl ⟨rfl, fun _ => rfl⟩)) ?_
  rintro l₁ s₁ ⟨rfl, hc₁, hd₁, hw₁, hl₁⟩
  have h0 : Recovering l size d 0 s₁ := by
    have hd : s₁.disk = d := hd₁
    exact ⟨by rw [hd]; exact hc₁, fun j => hl₁ j, hd, hw₁⟩
  refine wp_seq (wp_loop (Recovering l size d) (decodeHead (d l.start)).length 0
    (fun j s' _ hj h => installBlock_recovering hdev hs (by omega) h) h0) ?_
  rintro - s₂ h₂
  rw [Nat.zero_add] at h₂
  have hall : ((logGeometry l.start size).replay d).take (decodeHead (d l.start)).length =
      (logGeometry l.start size).replay d := List.take_of_length_le (by rw [Geometry.length_replay]; rfl)
  have hhd : s₂.disk l.start = d l.start := by
    rw [h₂.disk]
    exact Geometry.installed_header hs _
  refine wp_seq (writeHead_spec (l := { l with lh := [] }) h₂.cached hdev (Or.inl ⟨rfl, h₂.idle⟩)) ?_
  rintro - s₃ hp
  have hw : s₃.writes = recoveryWrites (logGeometry l.start size) d := by
    rw [hp.writes, h₂.writes, hall, hhd]
    rfl
  refine ⟨rfl, ?_, fun k => hp.free k (h₂.idle k), hw, ?_⟩
  · have := hp.cached
    rwa [← hp.disk] at this
  · rw [hw, recoveryWrites, applyWrites_append, hp.disk, hhd, h₂.disk, Geometry.installed, hall]
    rfl

end recovery

end Xv6
