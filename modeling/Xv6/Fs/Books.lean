import Xv6.Kernel.Sysfile

/-!
# What a call of the file system holds

* `panics` — the messages of the file system: whatever state it starts from, none of its operations panics
  with the message of another part of the kernel.
* `Books` — the references and sleep-locks of the inode table, the buffers held and the operations of
  the log that have not ended.
* `Fs.Inv s b` — `s` has the books `b`, and no two entries of the inode table are the same inode.
* `Keeps x` — an operation that returns leaves the books as they were; each `bread` is paired with a
  `brelse`.
* `namei_spec`, `create_spec`, `link_spec`, … — what the rest returns, referenced or locked; on a failure
  exit everything has been given back.
-/

namespace Xv6

open Prog Function

structure Books where
  ref : Fin NINODE → Int
  locked : Fin NINODE → Bool
  held : List Nat
  ops : Int

namespace Books

variable (b : Books) (ip : Fin NINODE)

/-- `n` more references to `ip`. -/
def addRef (n : Int) : Books := { b with ref := Function.update b.ref ip (b.ref ip + n) }

def lock (v : Bool) : Books := { b with locked := Function.update b.locked ip v }

def hold (bno : Nat) : Books := { b with held := bno :: b.held }

def drop (bno : Nat) : Books := { b with held := b.held.erase bno }

def addOps (n : Int) : Books := { b with ops := b.ops + n }

@[simp] theorem drop_hold (bno : Nat) : (b.hold bno).drop bno = b := by
  simp [hold, drop]

@[simp] theorem addOps_addOps (m n : Int) : (b.addOps m).addOps n = b.addOps (m + n) := by
  simp [addOps, add_assoc]

@[simp] theorem addOps_zero : b.addOps 0 = b := by
  simp [addOps]

@[simp] theorem addRef_addRef (m n : Int) : (b.addRef ip m).addRef ip n = b.addRef ip (m + n) := by
  simp [addRef, add_assoc]

@[simp] theorem addRef_zero : b.addRef ip 0 = b := by
  simp [addRef]

theorem addRef_comm (jp : Fin NINODE) (m n : Int) :
    (b.addRef ip m).addRef jp n = (b.addRef jp n).addRef ip m := by
  by_cases h : jp = ip
  · subst h
    rw [addRef_addRef, addRef_addRef, add_comm]
  · simp only [addRef, update_of_ne h, update_of_ne (Ne.symm h)]
    rw [update_comm h]

@[simp] theorem lock_lock (v w : Bool) : (b.lock ip v).lock ip w = b.lock ip w := by
  simp [lock]

theorem lock_same {v : Bool} (h : b.locked ip = v) : b.lock ip v = b := by
  unfold lock
  rw [← h, update_eq_self]

@[simp] theorem addRef_locked (n : Int) : (b.addRef ip n).locked = b.locked := rfl
@[simp] theorem lock_locked_self (v : Bool) : (b.lock ip v).locked ip = v := update_self ..
@[simp] theorem addRef_ref_self (n : Int) : (b.addRef ip n).ref ip = b.ref ip + n := update_self ..

theorem addRef_ref (n : Int) (jp : Fin NINODE) :
    (b.addRef ip n).ref jp = b.ref jp + if jp = ip then n else 0 := by
  by_cases h : jp = ip
  · subst h
    rw [addRef_ref_self, if_pos rfl]
  · rw [if_neg h, Int.add_zero]
    exact update_of_ne h ..

theorem addRef_ref_ne {jp : Fin NINODE} (n : Int) (h : jp ≠ ip) : (b.addRef ip n).ref jp = b.ref jp :=
  update_of_ne h ..

theorem lock_comm {jp : Fin NINODE} (h : jp ≠ ip) (v w : Bool) :
    (b.lock ip v).lock jp w = (b.lock jp w).lock ip v := by
  unfold lock
  dsimp only
  rw [update_comm h]

theorem lock_addRef (jp : Fin NINODE) (v : Bool) (n : Int) :
    (b.lock ip v).addRef jp n = (b.addRef jp n).lock ip v := rfl

theorem addRef_addOps (m n : Int) : (b.addRef ip m).addOps n = (b.addOps n).addRef ip m := rfl

/-- With the inode that an operation may have returned. -/
def found : Option (Fin NINODE) → Books
  | none => b
  | some ip => b.addRef ip 1

end Books

namespace Fs

/-- The messages of `kernel/fs.c`, `kernel/log.c` and of the file-system calls; a null pointer is a kernel
trap. -/
def panics : List String :=
  ["log.committing", "too big a transaction", "log_write outside of trans", "brelse", "freeing free block",
   "iget: no inodes", "ilock", "ilock: no type", "iunlock", "bmap: out of range", "dirlookup not DIR",
   "dirlookup read", "dirlink read", "kerneltrap", "isdirempty: readi", "unlink: nlink < 1", "unlink: writei"]

theorem panics_own {α σ : Type} {Q : α → σ → Prop} {m : String} {s : σ} (h : m ∈ panics) :
    wpm (panicWith m) Q (· ∈ panics) True s := h

def books (s : Fs) : Books where
  ref ip := (s.inode ip).ref
  locked ip := (s.inode ip).locked
  held := s.held
  ops := s.log.outstanding

/-- At most one entry of the inode table for each inode. -/
def Uniq (s : Fs) : Prop := ∀ i j, 0 < (s.inode i).ref → 0 < (s.inode j).ref →
  (s.inode i).dev = (s.inode j).dev → (s.inode i).inum = (s.inode j).inum → i = j

structure Inv (s : Fs) (b : Books) : Prop where
  books : s.books = b
  uniq : s.Uniq

variable {s : Fs} {b : Books} {ip : Fin NINODE} {α β τ : Type}

theorem Inv.ref (h : Inv s b) (ip : Fin NINODE) : (s.inode ip).ref = b.ref ip := h.books ▸ rfl
theorem Inv.locked (h : Inv s b) (ip : Fin NINODE) : (s.inode ip).locked = b.locked ip := h.books ▸ rfl

/-- The identities and references of the table stay. -/
theorem Inv.congr {s' : Fs} {b' : Books} (h : Inv s b) (hb : s'.books = b')
    (hi : ∀ i, (s'.inode i).ref = (s.inode i).ref ∧ (s'.inode i).dev = (s.inode i).dev ∧
      (s'.inode i).inum = (s.inode i).inum) : Inv s' b' := by
  refine ⟨hb, ?_⟩
  intro i j
  obtain ⟨hir, hid, hin⟩ := hi i
  obtain ⟨hjr, hjd, hjn⟩ := hi j
  rw [hir, hid, hin, hjr, hjd, hjn]
  exact h.uniq i j

/-! ## Operations on the table -/

@[simp] theorem updInode_self (f : Inode → Inode) : (s.updInode ip f).inode ip = f (s.inode ip) :=
  update_self ..

theorem updInode_ne {jp : Fin NINODE} (f : Inode → Inode) (h : jp ≠ ip) :
    (s.updInode ip f).inode jp = s.inode jp := update_of_ne h ..

/-- The lock and the contents of an entry change. -/
theorem Inv.setLock (h : Inv s b) {f : Inode → Inode} {v : Bool} (hr : (f (s.inode ip)).ref = (s.inode ip).ref)
    (hd : (f (s.inode ip)).dev = (s.inode ip).dev) (hn : (f (s.inode ip)).inum = (s.inode ip).inum)
    (hl : (f (s.inode ip)).locked = v) : Inv (s.updInode ip f) (b.lock ip v) := by
  have hid : ∀ i, ((s.updInode ip f).inode i).ref = (s.inode i).ref ∧
      ((s.updInode ip f).inode i).dev = (s.inode i).dev ∧
      ((s.updInode ip f).inode i).inum = (s.inode i).inum := by
    intro i
    by_cases hi : i = ip
    · subst hi
      rw [updInode_self]
      exact ⟨hr, hd, hn⟩
    · rw [updInode_ne _ hi]
      exact ⟨rfl, rfl, rfl⟩
  refine h.congr ?_ hid
  rw [← h.books]
  unfold Fs.books Books.lock
  simp only [Books.mk.injEq]
  refine ⟨funext fun i => (hid i).1, funext fun i => ?_, rfl, rfl⟩
  by_cases hi : i = ip
  · subst hi
    rw [updInode_self, update_self, hl]
  · rw [updInode_ne _ hi, update_of_ne hi]

/-- Only the contents of an entry change. -/
theorem Inv.contents (h : Inv s b) {f : Inode → Inode} (hf : ∀ i, (f i).ref = i.ref ∧ (f i).dev = i.dev ∧
    (f i).inum = i.inum ∧ (f i).locked = i.locked) : Inv (s.updInode ip f) b := by
  obtain ⟨hr, hd, hn, hl⟩ := hf (s.inode ip)
  have h' := h.setLock hr hd hn hl
  rwa [b.lock_same ip (h.locked ip).symm] at h'

theorem books_setRef {f : Inode → Inode} {n : Int} (hr : (f (s.inode ip)).ref = (s.inode ip).ref + n)
    (hl : (f (s.inode ip)).locked = (s.inode ip).locked) :
    (s.updInode ip f).books = s.books.addRef ip n := by
  unfold Fs.books Books.addRef
  simp only [Books.mk.injEq]
  refine ⟨funext fun i => ?_, funext fun i => ?_, rfl, rfl⟩
  · by_cases hi : i = ip
    · subst hi
      rw [updInode_self, update_self, hr]
    · rw [updInode_ne _ hi, update_of_ne hi]
  · by_cases hi : i = ip
    · subst hi
      rw [updInode_self, hl]
    · rw [updInode_ne _ hi]

/-- A reference is dropped, or added to an entry that has one. -/
theorem Inv.addRef (h : Inv s b) {n : Int} (hn : n ≤ 0 ∨ 0 < b.ref ip) :
    Inv (s.updInode ip fun i => { i with ref := i.ref + n }) (b.addRef ip n) := by
  refine ⟨(books_setRef rfl rfl).trans (by rw [h.books]), ?_⟩
  have hcase : ∀ i, 0 < ((s.updInode ip fun i => { i with ref := i.ref + n }).inode i).ref →
      0 < (s.inode i).ref ∧
      ((s.updInode ip fun i => { i with ref := i.ref + n }).inode i).dev = (s.inode i).dev ∧
      ((s.updInode ip fun i => { i with ref := i.ref + n }).inode i).inum = (s.inode i).inum := by
    intro i
    by_cases hi : i = ip
    · subst hi
      rw [updInode_self]
      intro hpos
      dsimp only at hpos
      refine ⟨?_, rfl, rfl⟩
      rcases hn with hn | hn
      · omega
      · rw [h.ref]
        exact hn
    · rw [updInode_ne _ hi]
      exact fun hpos => ⟨hpos, rfl, rfl⟩
  intro i j hri hrj
  obtain ⟨hi, hid, hin⟩ := hcase i hri
  obtain ⟨hj, hjd, hjn⟩ := hcase j hrj
  rw [hid, hjd, hin, hjn]
  exact h.uniq i j hi hj

/-- An entry without references becomes an inode that no other entry is. -/
theorem Inv.fresh (h : Inv s b) {dev inum : Nat} (hz : (s.inode ip).ref = 0)
    (hnew : ∀ i, ¬ (0 < (s.inode i).ref ∧ (s.inode i).dev = dev ∧ (s.inode i).inum = inum)) :
    Inv (s.updInode ip fun i => { i with dev := dev, inum := inum, ref := 1, valid := false })
      (b.addRef ip 1) := by
  have hone : (1 : Int) = (s.inode ip).ref + 1 := by rw [hz, zero_add]
  refine ⟨(books_setRef hone rfl).trans (by rw [h.books]), ?_⟩
  intro i j
  by_cases hi : i = ip
  · by_cases hj : j = ip
    · exact fun _ _ _ _ => hi.trans hj.symm
    · subst hi
      rw [updInode_self, updInode_ne _ hj]
      intro _ hr hd hn
      exact absurd ⟨hr, hd.symm, hn.symm⟩ (hnew j)
  · by_cases hj : j = ip
    · subst hj
      rw [updInode_self, updInode_ne _ hi]
      intro hr _ hd hn
      exact absurd ⟨hr, hd, hn⟩ (hnew i)
    · rw [updInode_ne _ hi, updInode_ne _ hj]
      exact h.uniq i j

/-! ## Operations that keep the books -/

/-- An operation that has the same books when it returns. -/
def Keeps (x : Prog Fs α) : Prop := ∀ s b, Inv s b → wpm x (fun _ s' => Inv s' b) (· ∈ panics) True s

theorem keeps_pure (a : α) : Keeps (pure a) := fun _ _ h => h
theorem keeps_get : Keeps get := fun _ _ h => h
theorem keeps_panicWith {m : String} (h : m ∈ panics) : Keeps (panicWith m : Prog Fs α) := fun _ _ _ => h

theorem keeps_bind {x : Prog Fs α} {y : α → Prog Fs β} (hx : Keeps x) (hy : ∀ a, Keeps (y a)) :
    Keeps (x >>= y) :=
  fun s b h => wpm_seq (hx s b h) fun a s' h' => hy a s' b h'

theorem keeps_ite {c : Prop} [Decidable c] {x y : Prog Fs α} (hx : Keeps x) (hy : Keeps y) :
    Keeps (if c then x else y) := by
  split
  · exact hx
  · exact hy

theorem keeps_loop {body : Nat → Prog Fs Unit} (h : ∀ i, Keeps (body i)) : ∀ n i, Keeps (loop body i n)
  | 0, _ => keeps_pure ()
  | n + 1, i => keeps_bind (h i) fun _ => keeps_loop h n (i + 1)

theorem keeps_modifyD (ip : Fin NINODE) (f : Dinode → Dinode) : Keeps (modifyD ip f) :=
  fun _ _ h => h.contents fun _ => ⟨rfl, rfl, rfl, rfl⟩

theorem bread_spec (h : Inv s b) (bno : Nat) :
    wpm (bread bno) (fun _ s' => Inv s' (b.hold bno)) (· ∈ panics) True s := by
  unfold bread
  rw [wpm_bind, wpm_get]
  split
  · trivial
  · refine h.congr ?_ fun i => ⟨rfl, rfl, rfl⟩
    rw [← h.books]
    rfl

theorem brelse_spec {bno : Nat} (h : Inv s (b.hold bno)) :
    wpm (brelse bno) (fun _ s' => Inv s' b) (· ∈ panics) True s := by
  unfold brelse
  rw [wpm_bind, wpm_get]
  split
  · refine h.congr ?_ fun i => ⟨rfl, rfl, rfl⟩
    rw [← Books.drop_hold b bno, ← h.books]
    rfl
  · exact panics_own (by decide)

/-- A buffer is read, used and released. -/
theorem keeps_bread {bno : Nat} {x : Block → Prog Fs α} {y : Block → α → Prog Fs β} (hx : ∀ d, Keeps (x d))
    (hy : ∀ d a, Keeps (y d a)) :
    Keeps (do
      let d ← bread bno
      let a ← x d
      brelse bno
      y d a) := by
  intro s b h
  refine wpm_seq (bread_spec h bno) fun d s₁ h₁ => wpm_seq (hx d s₁ _ h₁) fun a s₂ h₂ => ?_
  exact wpm_seq (brelse_spec h₂) fun _ s₃ h₃ => hy d a s₃ b h₃

theorem keeps_buffer {bno : Nat} {x : Block → Prog Fs Unit} (hx : ∀ d, Keeps (x d)) :
    Keeps (do
      let d ← bread bno
      x d
      brelse bno) := by
  intro s b h
  refine wpm_seq (bread_spec h bno) fun d s₁ h₁ => wpm_seq (hx d s₁ _ h₁) fun _ s₂ h₂ => ?_
  exact brelse_spec h₂

theorem keeps_logWrite (bno : Nat) (d : Block) : Keeps (logWrite bno d) := by
  intro s b h
  unfold logWrite
  rw [wpm_bind, wpm_get]
  split
  · rename_i m hm
    rcases Log.logWrite_error hm with ⟨rfl, -⟩ | ⟨rfl, -⟩
    · exact panics_own (by decide)
    · exact panics_own (by decide)
  · rename_i l new hl
    refine h.congr ?_ fun i => ⟨rfl, rfl, rfl⟩
    have hout : l.outstanding = s.log.outstanding := by
      obtain ⟨-, -, -, ⟨-, -, rfl⟩ | ⟨-, -, rfl⟩⟩ := Log.logWrite_ok hl <;> rfl
    rw [← h.books]
    unfold Fs.books
    rw [hout]

theorem keeps_bzero (bno : Nat) : Keeps (bzero bno) :=
  keeps_buffer fun _ => keeps_logWrite bno _

theorem keeps_ballocLoop : ∀ n bno, Keeps (ballocLoop n bno)
  | 0, _ => keeps_pure _
  | n + 1, bno => by
    refine keeps_bind keeps_get fun s₀ => ?_
    intro s b h
    refine wpm_seq (bread_spec h _) fun d s₁ h₁ => ?_
    split
    · refine wpm_seq (keeps_logWrite _ _ s₁ _ h₁) fun _ s₂ h₂ => wpm_seq (brelse_spec h₂) fun _ s₃ h₃ => ?_
      exact wpm_seq (keeps_bzero bno s₃ b h₃) fun _ s₄ h₄ => h₄
    · exact wpm_seq (brelse_spec h₁) fun _ s₂ h₂ => keeps_ballocLoop n (bno + 1) s₂ b h₂

theorem keeps_balloc : Keeps balloc := keeps_bind keeps_get fun s => keeps_ballocLoop s.sb.size 0

theorem keeps_bfree (bno : Nat) : Keeps (bfree bno) := by
  refine keeps_bind keeps_get fun s₀ => ?_
  intro s b h
  refine wpm_seq (bread_spec h _) fun d s₁ h₁ => ?_
  split
  · exact panics_own (by decide)
  · exact wpm_seq (keeps_logWrite _ _ s₁ _ h₁) fun _ s₂ h₂ => brelse_spec h₂

theorem keeps_iupdate (ip : Fin NINODE) : Keeps (iupdate ip) :=
  keeps_bind keeps_get fun _ => keeps_buffer fun _ => keeps_logWrite _ _

theorem keeps_allocAddr (ip : Fin NINODE) (i : Nat) : Keeps (do
    let addr ← balloc
    if addr = 0 then pure 0
    else do
      modifyD ip fun d => { d with addrs := update d.addrs i addr }
      pure addr) :=
  keeps_bind keeps_balloc fun _ => keeps_ite (keeps_pure 0)
    (keeps_bind (keeps_modifyD ip _) fun _ => keeps_pure _)

theorem keeps_bmap (ip : Fin NINODE) (bn : Nat) : Keeps (bmap ip bn) := by
  refine keeps_bind keeps_get fun s => keeps_ite (keeps_ite (keeps_allocAddr ip bn) (keeps_pure _))
    (keeps_ite (keeps_bind (keeps_ite (keeps_allocAddr ip NDIRECT) (keeps_pure _)) fun ind =>
      keeps_ite (keeps_pure 0) (keeps_bread (fun d => keeps_ite ?_ (keeps_pure _)) fun _ a => keeps_pure a))
      (keeps_panicWith (by decide)))
  exact keeps_bind keeps_balloc fun _ =>
    keeps_bind (keeps_ite (keeps_logWrite _ _) (keeps_pure ())) fun _ => keeps_pure _

theorem keeps_itrunc (ip : Fin NINODE) : Keeps (itrunc ip) := by
  refine keeps_bind (keeps_loop (fun i => ?_) NDIRECT 0) fun _ => keeps_bind keeps_get fun s =>
    keeps_bind (keeps_ite ?_ (keeps_pure ())) fun _ => keeps_bind (keeps_modifyD ip _) fun _ => keeps_iupdate ip
  · exact keeps_bind keeps_get fun _ => keeps_ite
      (keeps_bind (keeps_bfree _) fun _ => keeps_modifyD ip _) (keeps_pure ())
  · refine keeps_bread (fun d => keeps_loop (fun j => keeps_ite (keeps_bfree _) (keeps_pure ())) NINDIRECT 0)
      fun d _ => ?_
    exact keeps_bind (keeps_bfree _) fun _ => keeps_modifyD ip _

/-! ## References and locks -/

theorem beginOp_spec (h : Inv s b) : wpm beginOp (fun _ s' => Inv s' (b.addOps 1)) (· ∈ panics) True s := by
  unfold beginOp
  rw [wpm_bind, wpm_get]
  split
  · trivial
  · rename_i l hl
    obtain ⟨-, -, rfl⟩ := Log.beginOp_some hl
    refine h.congr ?_ fun i => ⟨rfl, rfl, rfl⟩
    rw [← h.books]
    rfl

theorem endOp_spec (h : Inv s (b.addOps 1)) : wpm endOp (fun _ s' => Inv s' b) (· ∈ panics) True s := by
  unfold endOp
  rw [wpm_bind, wpm_get]
  split
  · rename_i m hm
    have hmsg : m = "log.committing" := by
      unfold Log.endOp at hm
      dsimp only at hm
      split at hm
      · cases hm
        rfl
      · split at hm <;> cases hm
    subst hmsg
    exact panics_own (by decide)
  · rename_i l c hl
    have hout : l.outstanding = s.log.outstanding + -1 := by
      rcases (Log.endOp_ok hl).2 with ⟨hone, -, rfl⟩ | ⟨-, -, rfl⟩
      · rw [hone]
        rfl
      · rfl
    have hb : b = s.books.addOps (-1) := by
      rw [h.books, Books.addOps_addOps]
      exact b.addOps_zero.symm
    split
    all_goals
      refine h.congr ?_ fun i => ⟨rfl, rfl, rfl⟩
      rw [hb]
      unfold Fs.books Books.addOps
      dsimp only [Log.endCommit]
      rw [hout]

theorem iget_spec (h : Inv s b) (dev inum : Nat) :
    wpm (iget dev inum) (fun ip s' => Inv s' (b.addRef ip 1)) (· ∈ panics) True s := by
  unfold iget
  rw [wpm_bind, wpm_get]
  split
  · rename_i ip hip
    have hfound := List.find?_some hip
    simp only [decide_eq_true_eq] at hfound
    exact h.addRef (Or.inr (h.ref ip ▸ hfound.1))
  · rename_i hnone
    split
    · exact panics_own (by decide)
    · rename_i ip hip
      have hzero := List.find?_some hip
      simp only [decide_eq_true_eq] at hzero
      refine h.fresh hzero ?_
      intro i hi
      exact List.find?_eq_none.1 hnone i (List.mem_finRange i) (decide_eq_true hi)

theorem ialloc_spec (h : Inv s b) (dev type : Nat) :
    wpm (ialloc dev type) (fun r s' => Inv s' (b.found r)) (· ∈ panics) True s := by
  have hloop : ∀ n inum s, Inv s b →
      wpm (iallocLoop dev type n inum) (fun r s' => Inv s' (b.found r)) (· ∈ panics) True s := by
    intro n
    induction n with
    | zero => exact fun _ _ h => h
    | succ n ih =>
      intro inum s h
      refine wpm_seq (keeps_get s b h) fun s₀ s₁ h₁ => wpm_seq (bread_spec h₁ _) fun d s₂ h₂ => ?_
      split
      · refine wpm_seq (keeps_logWrite _ _ s₂ _ h₂) fun _ s₃ h₃ => wpm_seq (brelse_spec h₃) fun _ s₄ h₄ => ?_
        exact wpm_seq (iget_spec h₄ dev inum) fun ip s₅ h₅ => h₅
      · exact wpm_seq (brelse_spec h₂) fun _ s₃ h₃ => ih (inum + 1) s₃ h₃
  exact wpm_seq (keeps_get s b h) fun s₀ s₁ h₁ => hloop _ 1 s₁ h₁

theorem idup_spec (h : Inv s b) (hpos : 0 < b.ref ip) :
    wpm (idup ip) (fun r s' => r = ip ∧ Inv s' (b.addRef ip 1)) (· ∈ panics) True s :=
  ⟨rfl, h.addRef (Or.inr hpos)⟩

theorem acquiresleep_spec (h : Inv s b) :
    wpm (acquiresleep ip) (fun _ s' => b.locked ip = false ∧ Inv s' (b.lock ip true)) (· ∈ panics) True s := by
  unfold acquiresleep
  rw [wpm_bind, wpm_get]
  split
  · trivial
  · rename_i hl
    exact ⟨h.locked ip ▸ eq_false_of_ne_true hl, h.setLock rfl rfl rfl rfl⟩

/-- `ilock` needs a reference, and takes a lock that is free. -/
theorem ilock_spec (h : Inv s b) :
    wpm (ilock ip) (fun _ s' => b.locked ip = false ∧ 0 < b.ref ip ∧ Inv s' (b.lock ip true))
      (· ∈ panics) True s := by
  unfold ilock
  rw [wpm_bind, wpm_get]
  split
  · exact panics_own (by decide)
  · rename_i hr
    have hpos : 0 < b.ref ip := by
      rw [← h.ref]
      omega
    refine wpm_seq (acquiresleep_spec h) ?_
    rintro _ s₁ ⟨hl, h₁⟩
    refine wpm_seq (keeps_get s₁ _ h₁) fun s₂ s₃ h₂ => ?_
    dsimp only
    split
    · exact ⟨hl, hpos, h₂⟩
    · refine wpm_seq (bread_spec h₂ _) fun d s₄ h₄ => ?_
      refine wpm_seq (R := fun _ s' => Inv s' _) (h₄.contents fun _ => ⟨rfl, rfl, rfl, rfl⟩) fun _ s₅ h₅ => ?_
      refine wpm_seq (brelse_spec h₅) fun _ s₆ h₆ => ?_
      refine wpm_seq (R := fun _ s' => Inv s' _) (h₆.contents fun _ => ⟨rfl, rfl, rfl, rfl⟩) fun _ s₇ h₇ => ?_
      split
      · exact panics_own (by decide)
      · exact ⟨hl, hpos, h₇⟩

theorem iunlock_spec (h : Inv s (b.lock ip true)) (hl : b.locked ip = false) :
    wpm (iunlock ip) (fun _ s' => Inv s' b) (· ∈ panics) True s := by
  unfold iunlock
  rw [wpm_bind, wpm_get]
  split
  · exact panics_own (by decide)
  · have h₁ : Inv (s.updInode ip fun i => { i with locked := false }) ((b.lock ip true).lock ip false) :=
      h.setLock rfl rfl rfl rfl
    rw [Books.lock_lock, b.lock_same ip hl] at h₁
    exact h₁

/-- The last reference to an unlinked inode frees it, under its lock. -/
theorem iput_spec (h : Inv s (b.addRef ip 1)) : wpm (iput ip) (fun _ s' => Inv s' b) (· ∈ panics) True s := by
  refine wpm_seq (keeps_get s _ h) fun s₀ s₁ h₁ => ?_
  refine wpm_seq (R := fun _ s' => Inv s' (b.addRef ip 1)) ?_ fun _ s₂ h₂ => ?_
  · split
    · refine wpm_seq (acquiresleep_spec h₁) ?_
      rintro _ s₂ ⟨hl, h₂⟩
      refine wpm_seq (keeps_itrunc ip s₂ _ h₂) fun _ s₃ h₃ => ?_
      refine wpm_seq (keeps_modifyD ip _ s₃ _ h₃) fun _ s₄ h₄ => ?_
      refine wpm_seq (keeps_iupdate ip s₄ _ h₄) fun _ s₅ h₅ => ?_
      have h₆ : Inv (s₅.updInode ip fun i => { i with valid := false, locked := false })
          (((b.addRef ip 1).lock ip true).lock ip false) := h₅.setLock rfl rfl rfl rfl
      rw [Books.lock_lock, Books.lock_same _ ip hl] at h₆
      exact h₆
    · exact h₁
  · have h₃ : Inv (s₂.updInode ip fun i => { i with ref := i.ref + -1 }) ((b.addRef ip 1).addRef ip (-1)) :=
      h₂.addRef (Or.inl (by decide))
    rw [Books.addRef_addRef] at h₃
    exact b.addRef_zero ip ▸ h₃

theorem iunlockput_spec (h : Inv s ((b.addRef ip 1).lock ip true)) (hl : b.locked ip = false) :
    wpm (iunlockput ip) (fun _ s' => Inv s' b) (· ∈ panics) True s :=
  wpm_seq (iunlock_spec h hl) fun _ _ h₁ => iput_spec h₁

/-! ## Inode contents and directories -/

section contents

variable {J : τ → Prop} {t : τ}

theorem wpm_fsPart {x : Prog Fs α} {Q : α → Fs × τ → Prop} {P : String → Prop} {H : Prop} :
    wpm (fsPart x) Q P H (s, t) ↔ wpm x (fun a s' => Q a (s', t)) P H s := wpm_zoom ..

theorem wpm_outPart {x : Prog τ α} {Q : α → Fs × τ → Prop} {P : String → Prop} {H : Prop} :
    wpm (outPart x) Q P H (s, t) ↔ wpm x (fun a t' => Q a (s, t')) P H t := wpm_zoom ..

theorem blockBytes_length (d : Block) (off m : Nat) : (blockBytes d off m).length = m := by
  simp [blockBytes]

/-- `readi` copies to offsets below `n` only. -/
theorem readLoop_spec {copy : Nat → List UInt8 → Prog τ Bool} {n dst : Nat}
    (hcopy : ∀ o bs t, o + bs.length ≤ n → J t → wpm (copy (dst + o) bs) (fun _ t' => J t') (· ∈ panics) True t) :
    ∀ fuel off tot s t, Inv s b → J t →
      wpm (readLoop copy ip n fuel (dst + tot) off tot) (fun _ st => Inv st.1 b ∧ J st.2) (· ∈ panics) True (s, t)
  | 0, _, _, _, _, h, hJ => ⟨h, hJ⟩
  | fuel + 1, off, tot, s, t, h, hJ => by
    unfold readLoop
    split
    · rename_i htot
      refine (wpm_bind ..).2 (wpm_fsPart.2 (wpm_mono (keeps_bmap ip _ s b h) (fun addr s₁ h₁ => ?_)))
      split
      · exact ⟨h₁, hJ⟩
      · refine (wpm_bind ..).2 (wpm_fsPart.2 (wpm_mono (bread_spec h₁ _) (fun d s₂ h₂ => ?_)))
        have hm : tot + (blockBytes d (off % BSIZE) (min (n - tot) (BSIZE - off % BSIZE))).length ≤ n := by
          rw [blockBytes_length]
          omega
        refine (wpm_bind ..).2 (wpm_outPart.2 (wpm_mono (hcopy tot _ t hm hJ) (fun ok t' hJ' => ?_)))
        refine (wpm_bind ..).2 (wpm_fsPart.2 (wpm_mono (brelse_spec h₂) (fun _ s₃ h₃ => ?_)))
        split
        · have hloop := readLoop_spec hcopy fuel (off + min (n - tot) (BSIZE - off % BSIZE))
            (tot + min (n - tot) (BSIZE - off % BSIZE)) s₃ t' h₃ hJ'
          rwa [← Nat.add_assoc] at hloop
        · exact ⟨h₃, hJ'⟩
    · exact ⟨h, hJ⟩

theorem readi_spec {copy : Nat → List UInt8 → Prog τ Bool} {dst off n : Nat} (h : Inv s b) (hJ : J t)
    (hcopy : ∀ o bs t, o + bs.length ≤ n → J t → wpm (copy (dst + o) bs) (fun _ t' => J t') (· ∈ panics) True t) :
    wpm (readi copy ip dst off n) (fun _ st => Inv st.1 b ∧ J st.2) (· ∈ panics) True (s, t) := by
  unfold readi
  rw [wpm_bind, wpm_get]
  dsimp only
  split
  · exact ⟨h, hJ⟩
  · rename_i hoff
    refine readLoop_spec ?_ _ off 0 s t h hJ
    intro o bs t' ho
    refine hcopy o bs t' (Nat.le_trans ho ?_)
    split <;> omega

theorem writeLoop_spec {fetch : Nat → Nat → Prog τ (Option (List UInt8))}
    (hfetch : ∀ a m t, J t → wpm (fetch a m) (fun _ t' => J t') (· ∈ panics) True t) (n : Nat) :
    ∀ fuel src off tot s t, Inv s b → J t →
      wpm (writeLoop fetch ip n fuel src off tot) (fun _ st => Inv st.1 b ∧ J st.2) (· ∈ panics) True (s, t)
  | 0, _, _, _, _, _, h, hJ => ⟨h, hJ⟩
  | fuel + 1, src, off, tot, s, t, h, hJ => by
    unfold writeLoop
    split
    · refine (wpm_bind ..).2 (wpm_fsPart.2 (wpm_mono (keeps_bmap ip _ s b h) (fun addr s₁ h₁ => ?_)))
      split
      · exact ⟨h₁, hJ⟩
      · refine (wpm_bind ..).2 (wpm_fsPart.2 (wpm_mono (bread_spec h₁ _) (fun d s₂ h₂ => ?_)))
        refine (wpm_bind ..).2 (wpm_outPart.2 (wpm_mono (hfetch src _ t hJ) (fun r t' hJ' => ?_)))
        cases r with
        | none =>
          exact (wpm_bind ..).2 (wpm_fsPart.2 (wpm_mono (brelse_spec h₂) (fun _ s₃ h₃ => ⟨h₃, hJ'⟩)))
        | some bs =>
          refine (wpm_bind ..).2 (wpm_fsPart.2 (wpm_mono (keeps_logWrite _ _ s₂ _ h₂) (fun _ s₃ h₃ => ?_)))
          refine (wpm_bind ..).2 (wpm_fsPart.2 (wpm_mono (brelse_spec h₃) (fun _ s₄ h₄ => ?_)))
          exact writeLoop_spec hfetch n fuel _ _ _ s₄ t' h₄ hJ'
    · exact ⟨h, hJ⟩

theorem writei_spec {fetch : Nat → Nat → Prog τ (Option (List UInt8))} {src off n : Nat} (h : Inv s b)
    (hJ : J t) (hfetch : ∀ a m t, J t → wpm (fetch a m) (fun _ t' => J t') (· ∈ panics) True t) :
    wpm (writei fetch ip src off n) (fun _ st => Inv st.1 b ∧ J st.2) (· ∈ panics) True (s, t) := by
  unfold writei
  rw [wpm_bind, wpm_get]
  dsimp only
  split
  · exact ⟨h, hJ⟩
  · split
    · exact ⟨h, hJ⟩
    · refine wpm_seq (writeLoop_spec hfetch n _ _ _ _ s t h hJ) ?_
      rintro ⟨tot, off'⟩ ⟨s₁, t₁⟩ ⟨h₁, hJ₁⟩
      have hupd : Keeps (do
          let s ← get
          (if off' > (s.inode ip).d.size then modifyD ip fun d => { d with size := off' } else pure ())
          iupdate ip) :=
        keeps_bind keeps_get fun _ => keeps_bind (keeps_ite (keeps_modifyD ip _) (keeps_pure ())) fun _ =>
          keeps_iupdate ip
      exact (wpm_bind ..).2 (wpm_fsPart.2 (wpm_mono (hupd s₁ b h₁) (fun _ s₂ h₂ => ⟨h₂, hJ₁⟩)))

end contents

theorem keeps_readiKernel (ip : Fin NINODE) (off n : Nat) : Keeps (readiKernel ip off n) := by
  intro s b h
  refine (wpm_withLocal _).2 (wpm_mono (readi_spec (J := fun _ => True) h trivial ?_) (fun _ _ h' => h'.1))
  intros
  trivial

theorem keeps_writeiKernel (ip : Fin NINODE) (bs : List UInt8) (off : Nat) : Keeps (writeiKernel ip bs off) := by
  intro s b h
  refine wpm_seq (R := fun _ s' => Inv s' b) ?_ fun _ s₁ h₁ => h₁
  refine (wpm_withLocal _).2 (wpm_mono (writei_spec (J := fun _ => True) h trivial ?_) (fun _ _ h' => h'.1))
  intros
  trivial

theorem keeps_lookupLoop (dp : Fin NINODE) (name : List UInt8) : ∀ fuel off, Keeps (lookupLoop dp name fuel off)
  | 0, _ => keeps_pure _
  | fuel + 1, off => keeps_bind keeps_get fun _ => keeps_ite
      (keeps_bind (keeps_readiKernel dp off 16) fun _ => keeps_ite (keeps_panicWith (by decide))
        (keeps_ite (keeps_pure _) (keeps_lookupLoop dp name fuel _)))
      (keeps_pure _)

theorem keeps_emptyLoop (dp : Fin NINODE) : ∀ fuel off, Keeps (emptyLoop dp fuel off)
  | 0, _ => keeps_pure _
  | fuel + 1, off => keeps_bind keeps_get fun _ => keeps_ite
      (keeps_bind (keeps_readiKernel dp off 16) fun _ => keeps_ite (keeps_panicWith (by decide))
        (keeps_ite (keeps_pure _) (keeps_emptyLoop dp fuel _)))
      (keeps_pure _)

theorem keeps_isdirempty (dp : Fin NINODE) : Keeps (isdirempty dp) := by
  have hloop : ∀ fuel off, Keeps (isdiremptyLoop dp fuel off) := by
    intro fuel
    induction fuel with
    | zero => exact fun _ => keeps_pure _
    | succ fuel ih =>
      exact fun off => keeps_bind keeps_get fun _ => keeps_ite
        (keeps_bind (keeps_readiKernel dp off 16) fun _ => keeps_ite (keeps_panicWith (by decide))
          (keeps_ite (keeps_pure _) (ih _)))
        (keeps_pure _)
  exact keeps_bind keeps_get fun _ => hloop _ _

theorem dirlookup_spec (h : Inv s b) (dp : Fin NINODE) (name : List UInt8) :
    wpm (dirlookup dp name) (fun r s' => Inv s' (b.found (r.map Prod.fst))) (· ∈ panics) True s := by
  unfold dirlookup
  rw [wpm_bind, wpm_get]
  split
  · exact panics_own (by decide)
  · refine wpm_seq (keeps_lookupLoop dp name _ _ s b h) fun r s₁ h₁ => ?_
    cases r with
    | none => exact h₁
    | some found => exact wpm_seq (iget_spec h₁ _ _) fun ip s₂ h₂ => h₂

theorem keeps_dirlink (dp : Fin NINODE) (name : List UInt8) (inum : Nat) : Keeps (dirlink dp name inum) := by
  intro s b h
  refine wpm_seq (dirlookup_spec h dp name) fun r s₁ h₁ => ?_
  cases r with
  | some found =>
    exact wpm_seq (iput_spec h₁) fun _ s₂ h₂ => h₂
  | none =>
    have hrest : Keeps (do
        let s ← get
        let off ← emptyLoop dp (s.inode dp).d.size 0
        let r ← writeiKernel dp (direntBytes inum name) off
        if r ≠ 16 then pure (-1) else pure (0 : Int)) :=
      keeps_bind keeps_get fun _ => keeps_bind (keeps_emptyLoop dp _ _) fun _ =>
        keeps_bind (keeps_writeiKernel dp _ _) fun _ => keeps_ite (keeps_pure _) (keeps_pure _)
    exact hrest s₁ b h₁

/-! ## Paths and calls -/

/-- `namex` holds one reference all along. -/
theorem namexLoop_spec (nameiparent : Bool) : ∀ fuel ip path name s, Inv s (b.addRef ip 1) →
    wpm (namexLoop nameiparent fuel ip path name) (fun r s' => Inv s' (b.found (r.map Prod.fst)))
      (· ∈ panics) True s
  | 0, _, _, _, _, _ => trivial
  | fuel + 1, ip, path, name, s, h => by
    unfold namexLoop
    split
    · split
      · exact wpm_seq (iput_spec h) fun _ s₁ h₁ => h₁
      · exact h
    · refine wpm_seq (ilock_spec h) ?_
      rintro _ s₁ ⟨hl, -, h₁⟩
      rw [Books.addRef_locked] at hl
      refine wpm_seq (keeps_get s₁ _ h₁) fun s₂ s₃ h₃ => ?_
      split
      · exact wpm_seq (iunlockput_spec h₃ hl) fun _ s₄ h₄ => h₄
      · split
        · exact wpm_seq (iunlock_spec h₃ hl) fun _ s₄ h₄ => h₄
        · refine wpm_seq (dirlookup_spec h₃ ip _) fun r s₄ h₄ => ?_
          cases r with
          | none => exact wpm_seq (iunlockput_spec h₄ hl) fun _ s₅ h₅ => h₅
          | some found =>
            have h₅ : Inv s₄ (((b.addRef found.1 1).addRef ip 1).lock ip true) := by
              rw [Books.addRef_comm]
              exact h₄
            exact wpm_seq (iunlockput_spec h₅ hl) fun _ s₅ h₆ =>
              namexLoop_spec nameiparent fuel found.1 _ _ s₅ h₆

/-- The current directory is one of the references counted in `b`. -/
def CwdOk (b : Books) (cwd : Option (Fin NINODE)) : Prop := ∀ ip, cwd = some ip → 0 < b.ref ip

variable {cwd : Option (Fin NINODE)}

theorem namex_spec (h : Inv s b) (hcwd : CwdOk b cwd) (path : List UInt8) (nameiparent : Bool) :
    wpm (namex cwd path nameiparent) (fun r s' => Inv s' (b.found (r.map Prod.fst))) (· ∈ panics) True s := by
  refine wpm_seq (R := fun ip s' => Inv s' (b.addRef ip 1)) ?_ fun ip s₁ h₁ =>
    namexLoop_spec nameiparent _ ip path [] s₁ h₁
  split
  · exact iget_spec h _ _
  · cases cwd with
    | none => exact panics_own (by decide)
    | some ip => exact h.addRef (Or.inr (hcwd ip rfl))

theorem namei_spec (h : Inv s b) (hcwd : CwdOk b cwd) (path : List UInt8) :
    wpm (namei cwd path) (fun r s' => Inv s' (b.found r)) (· ∈ panics) True s := by
  refine wpm_seq (namex_spec h hcwd path false) fun r s₁ h₁ => ?_
  cases r with
  | none | some found => exact h₁

theorem nameiparent_spec (h : Inv s b) (hcwd : CwdOk b cwd) (path : List UInt8) :
    wpm (nameiparent cwd path) (fun r s' => Inv s' (b.found (r.map Prod.fst))) (· ∈ panics) True s :=
  namex_spec h hcwd path true

theorem CwdOk.addRef (h : CwdOk b cwd) (ip : Fin NINODE) : CwdOk (b.addRef ip 1) cwd := by
  intro jp hjp
  have hpos := h jp hjp
  by_cases hj : jp = ip
  · subst hj
    rw [Books.addRef_ref_self]
    omega
  · rwa [Books.addRef_ref_ne _ _ _ hj]

/-- With the inode that an operation may have returned, locked. -/
def Opened (s : Fs) (b : Books) : Option (Fin NINODE) → Prop
  | none => Inv s b
  | some ip => Inv s ((b.addRef ip 1).lock ip true) ∧ b.locked ip = false

/-- Two locked inodes in the other order. -/
theorem Inv.swap {dp : Fin NINODE} (h : Inv s ((((b.addRef dp 1).lock dp true).addRef ip 1).lock ip true))
    (hl : ((b.addRef dp 1).lock dp true).locked ip = false) :
    Inv s ((((b.addRef ip 1).lock ip true).addRef dp 1).lock dp true) ∧ b.locked ip = false ∧
      ((b.addRef ip 1).lock ip true).locked dp = ((b.addRef dp 1)).locked dp := by
  have hne : ip ≠ dp := by
    rintro rfl
    rw [Books.lock_locked_self] at hl
    cases hl
  refine ⟨?_, ?_, update_of_ne hne.symm ..⟩
  · rw [Books.lock_addRef, Books.lock_comm _ _ hne.symm, Books.addRef_comm, ← Books.lock_addRef]
    exact h
  · rw [← hl]
    exact (update_of_ne hne ..).symm

/-- **`create`** returns its inode locked. -/
theorem create_spec (h : Inv s b) (hcwd : CwdOk b cwd) (path : List UInt8) (type major minor : Nat) :
    wpm (create cwd path type major minor) (fun r s' => Opened s' b r) (· ∈ panics) True s := by
  refine wpm_seq (nameiparent_spec h hcwd path) fun r s₁ h₁ => ?_
  cases r with
  | none => exact h₁
  | some found =>
    obtain ⟨dp, name⟩ := found
    refine wpm_seq (ilock_spec h₁) ?_
    rintro _ s₂ ⟨hdp, -, h₂⟩
    refine wpm_seq (dirlookup_spec h₂ dp name) fun r s₃ h₃ => ?_
    cases r with
    | some found =>
      obtain ⟨ip, off⟩ := found
      have h₄ : Inv s₃ (((b.addRef ip 1).addRef dp 1).lock dp true) := by
        rw [Books.addRef_comm]
        exact h₃
      refine wpm_seq (iunlockput_spec h₄ hdp) fun _ s₅ h₅ => wpm_seq (ilock_spec h₅) ?_
      rintro _ s₆ ⟨hip, -, h₆⟩
      refine wpm_seq (keeps_get s₆ _ h₆) fun s₇ s₈ h₈ => ?_
      split
      · exact ⟨h₈, hip⟩
      · exact wpm_seq (iunlockput_spec h₈ hip) fun _ s₉ h₉ => h₉
    | none =>
      refine wpm_seq (keeps_get s₃ _ h₃) fun s₄ s₅ h₅ => wpm_seq (ialloc_spec h₅ _ type) fun r s₆ h₆ => ?_
      cases r with
      | none => exact wpm_seq (iunlockput_spec h₆ hdp) fun _ s₇ h₇ => h₇
      | some ip =>
        refine wpm_seq (ilock_spec h₆) ?_
        rintro _ s₇ ⟨hip, -, h₇⟩
        refine wpm_seq (keeps_modifyD ip _ s₇ _ h₇) fun _ s₈ h₈ => ?_
        refine wpm_seq (keeps_iupdate ip s₈ _ h₈) fun _ s₉ h₉ => wpm_seq (keeps_get s₉ _ h₉) fun s' s₁₀ h₁₀ => ?_
        have hdots : Keeps (if type = T_DIR then do
            let r ← dirlink ip [46] (s'.inode ip).inum
            if r < 0 then pure false
            else do
              let r ← dirlink ip [46, 46] (s'.inode dp).inum
              pure (decide (r ≥ 0))
          else pure true) :=
          keeps_ite (keeps_bind (keeps_dirlink ip _ _) fun _ => keeps_ite (keeps_pure _)
            (keeps_bind (keeps_dirlink ip _ _) fun _ => keeps_pure _)) (keeps_pure _)
        refine wpm_seq (hdots s₁₀ _ h₁₀) fun dots s₁₁ h₁₁ => ?_
        have hlink : Keeps (if dots = true then do
            let r ← dirlink dp name (s'.inode ip).inum
            pure (decide (r ≥ 0))
          else pure false) :=
          keeps_ite (keeps_bind (keeps_dirlink dp _ _) fun _ => keeps_pure _) (keeps_pure _)
        refine wpm_seq (hlink s₁₁ _ h₁₁) fun linked s₁₂ h₁₂ => ?_
        split
        · have hparent : Keeps (if type = T_DIR then do
              modifyD dp fun d => { d with nlink := (d.nlink + 1) % 2 ^ 16 }
              iupdate dp
            else pure ()) :=
            keeps_ite (keeps_bind (keeps_modifyD dp _) fun _ => keeps_iupdate dp) (keeps_pure ())
          refine wpm_seq (hparent s₁₂ _ h₁₂) fun _ s₁₃ h₁₃ => ?_
          obtain ⟨h₁₄, hip', hdp'⟩ := h₁₃.swap hip
          exact wpm_seq (iunlockput_spec h₁₄ (hdp'.trans hdp)) fun _ s₁₅ h₁₅ => ⟨h₁₅, hip'⟩
        · refine wpm_seq (keeps_modifyD ip _ s₁₂ _ h₁₂) fun _ s₁₃ h₁₃ => ?_
          refine wpm_seq (keeps_iupdate ip s₁₃ _ h₁₃) fun _ s₁₄ h₁₄ => ?_
          refine wpm_seq (iunlockput_spec h₁₄ hip) fun _ s₁₅ h₁₅ => ?_
          exact wpm_seq (iunlockput_spec h₁₅ hdp) fun _ s₁₆ h₁₆ => h₁₆

theorem link_spec (h : Inv s b) (hcwd : CwdOk b cwd) (old new : List UInt8) :
    wpm (link cwd old new) (fun _ s' => Inv s' b) (· ∈ panics) True s := by
  refine wpm_seq (beginOp_spec h) fun _ s₁ h₁ => wpm_seq (namei_spec h₁ hcwd old) fun r s₂ h₂ => ?_
  cases r with
  | none => exact wpm_seq (endOp_spec h₂) fun _ s₃ h₃ => h₃
  | some ip =>
    refine wpm_seq (ilock_spec h₂) ?_
    rintro _ s₃ ⟨hip, -, h₃⟩
    refine wpm_seq (keeps_get s₃ _ h₃) fun s₄ s₅ h₅ => ?_
    split
    · exact wpm_seq (iunlockput_spec h₅ hip) fun _ s₆ h₆ => wpm_seq (endOp_spec h₆) fun _ s₇ h₇ => h₇
    · refine wpm_seq (keeps_modifyD ip _ s₅ _ h₅) fun _ s₆ h₆ => ?_
      refine wpm_seq (keeps_iupdate ip s₆ _ h₆) fun _ s₇ h₇ => wpm_seq (iunlock_spec h₇ hip) fun _ s₈ h₈ => ?_
      refine wpm_seq (R := fun _ s' => Inv s' ((b.addOps 1).addRef ip 1)) ?_ fun done s₉ h₉ => ?_
      · have hcwd' : CwdOk ((b.addOps 1).addRef ip 1) cwd := CwdOk.addRef hcwd ip
        refine wpm_seq (nameiparent_spec h₈ hcwd' new) fun r s₉ h₉ => ?_
        cases r with
        | none => exact h₉
        | some found =>
          obtain ⟨dp, name⟩ := found
          refine wpm_seq (ilock_spec h₉) ?_
          rintro _ s₁₀ ⟨hdp, -, h₁₀⟩
          refine wpm_seq (keeps_get s₁₀ _ h₁₀) fun s' s₁₁ h₁₁ => ?_
          have hlink : Keeps (if (s'.inode dp).dev ≠ (s'.inode ip).dev then pure false
            else do
              let r ← dirlink dp name (s'.inode ip).inum
              pure (decide (r ≥ 0))) :=
            keeps_ite (keeps_pure _) (keeps_bind (keeps_dirlink dp _ _) fun _ => keeps_pure _)
          refine wpm_seq (hlink s₁₁ _ h₁₁) fun ok s₁₂ h₁₂ => ?_
          exact wpm_seq (iunlockput_spec h₁₂ hdp) fun _ s₁₃ h₁₃ => h₁₃
      · split
        · exact wpm_seq (iput_spec h₉) fun _ s₁₀ h₁₀ => wpm_seq (endOp_spec h₁₀) fun _ s₁₁ h₁₁ => h₁₁
        · refine wpm_seq (ilock_spec h₉) ?_
          rintro _ s₁₀ ⟨hip', -, h₁₀⟩
          refine wpm_seq (keeps_modifyD ip _ s₁₀ _ h₁₀) fun _ s₁₁ h₁₁ => ?_
          refine wpm_seq (keeps_iupdate ip s₁₁ _ h₁₁) fun _ s₁₂ h₁₂ => ?_
          refine wpm_seq (iunlockput_spec h₁₂ hip') fun _ s₁₃ h₁₃ => ?_
          exact wpm_seq (endOp_spec h₁₃) fun _ s₁₄ h₁₄ => h₁₄

theorem unlinkBad_spec {dp : Fin NINODE} (h : Inv s (((b.addOps 1).addRef dp 1).lock dp true))
    (hdp : b.locked dp = false) : wpm (unlinkBad dp) (fun _ s' => Inv s' b) (· ∈ panics) True s :=
  wpm_seq (iunlockput_spec h hdp) fun _ _ h₁ => wpm_seq (endOp_spec h₁) fun _ _ h₂ => h₂

theorem unlink_spec (h : Inv s b) (hcwd : CwdOk b cwd) (path : List UInt8) :
    wpm (unlink cwd path) (fun _ s' => Inv s' b) (· ∈ panics) True s := by
  refine wpm_seq (beginOp_spec h) fun _ s₁ h₁ => wpm_seq (nameiparent_spec h₁ hcwd path) fun r s₂ h₂ => ?_
  cases r with
  | none => exact wpm_seq (endOp_spec h₂) fun _ s₃ h₃ => h₃
  | some found =>
    obtain ⟨dp, name⟩ := found
    refine wpm_seq (ilock_spec h₂) ?_
    rintro _ s₃ ⟨hdp, -, h₃⟩
    split
    · exact unlinkBad_spec h₃ hdp
    · refine wpm_seq (dirlookup_spec h₃ dp name) fun r s₄ h₄ => ?_
      cases r with
      | none => exact unlinkBad_spec h₄ hdp
      | some found =>
        obtain ⟨ip, off⟩ := found
        refine wpm_seq (ilock_spec h₄) ?_
        rintro _ s₅ ⟨hip, -, h₅⟩
        refine wpm_seq (keeps_get s₅ _ h₅) fun s' s₆ h₆ => ?_
        split
        · exact panics_own (by decide)
        · have hkeep : Keeps (if (s'.inode ip).d.type = T_DIR then do
              let empty ← isdirempty ip
              pure !empty
            else pure false) :=
            keeps_ite (keeps_bind (keeps_isdirempty ip) fun _ => keeps_pure _) (keeps_pure _)
          refine wpm_seq (hkeep s₆ _ h₆) fun keep s₇ h₇ => ?_
          split
          · exact wpm_seq (iunlockput_spec h₇ hip) fun _ s₈ h₈ => unlinkBad_spec h₈ hdp
          · refine wpm_seq (keeps_writeiKernel dp _ _ s₇ _ h₇) fun r s₈ h₈ => ?_
            split
            · exact panics_own (by decide)
            · have hparent : Keeps (if (s'.inode ip).d.type = T_DIR then do
                  modifyD dp fun d => { d with nlink := (d.nlink + 2 ^ 16 - 1) % 2 ^ 16 }
                  iupdate dp
                else pure ()) :=
                keeps_ite (keeps_bind (keeps_modifyD dp _) fun _ => keeps_iupdate dp) (keeps_pure ())
              refine wpm_seq (hparent s₈ _ h₈) fun _ s₉ h₉ => ?_
              obtain ⟨h₁₀, hip', hdp'⟩ := h₉.swap hip
              refine wpm_seq (iunlockput_spec h₁₀ (hdp'.trans hdp)) fun _ s₁₁ h₁₁ => ?_
              refine wpm_seq (keeps_modifyD ip _ s₁₁ _ h₁₁) fun _ s₁₂ h₁₂ => ?_
              refine wpm_seq (keeps_iupdate ip s₁₂ _ h₁₂) fun _ s₁₃ h₁₃ => ?_
              refine wpm_seq (iunlockput_spec h₁₃ hip') fun _ s₁₄ h₁₄ => ?_
              exact wpm_seq (endOp_spec h₁₄) fun _ s₁₅ h₁₅ => h₁₅

/-- `sys_mkdir` and `sys_mknod`. -/
theorem mkfile_spec (h : Inv s b) (hcwd : CwdOk b cwd) (path : Option (List UInt8)) (type major minor : Nat) :
    wpm (mkfile cwd path type major minor) (fun _ s' => Inv s' b) (· ∈ panics) True s := by
  refine wpm_seq (beginOp_spec h) fun _ s₁ h₁ => ?_
  cases path with
  | none => exact wpm_seq (endOp_spec h₁) fun _ s₂ h₂ => h₂
  | some path =>
    refine wpm_seq (create_spec h₁ hcwd path type major minor) fun r s₂ h₂ => ?_
    cases r with
    | none => exact wpm_seq (endOp_spec h₂) fun _ s₃ h₃ => h₃
    | some ip =>
      refine wpm_seq (iunlockput_spec h₂.1 h₂.2) fun _ s₃ h₃ => ?_
      exact wpm_seq (endOp_spec h₃) fun _ s₄ h₄ => h₄

end Fs

end Xv6
