import Xv6.Fs.Books

/-!
# The bytes of a file

* `Fs.blockOf`, `Fs.fileByte` — the block and the byte at an offset, as the block map of the inode has them.
* `Fs.Solid` — the file has no holes.
* `readi_solid` — `readi` from such a file copies its bytes in order and changes nothing in the file system.
-/

namespace Xv6

open Prog ByteStore

/-- The `n` bytes from `off` on. -/
def bytesAt (f : Nat → UInt8) (off n : Nat) : List UInt8 := (List.range n).map fun i => f (off + i)

@[simp] theorem bytesAt_length (f : Nat → UInt8) (off n : Nat) : (bytesAt f off n).length = n := by
  simp [bytesAt]

theorem bytesAt_append (f : Nat → UInt8) (off m n : Nat) :
    bytesAt f off m ++ bytesAt f (off + m) n = bytesAt f off (m + n) := by
  unfold bytesAt
  rw [List.range_add, List.map_append, List.map_map]
  congr 1
  refine List.map_congr_left fun i _ => ?_
  rw [Function.comp_apply, Nat.add_assoc]

theorem bytesAt_getD (f : Nat → UInt8) (off : Nat) {n i : Nat} (h : i < n) (x : UInt8) :
    (bytesAt f off n).getD i x = f (off + i) := by
  simp [bytesAt, List.getD, List.getElem?_range h]

namespace Fs

/-- What `bmap` returns when there is nothing to allocate; `0` in a hole. -/
def blockOf (s : Fs) (ip : Fin NINODE) (bn : Nat) : Nat :=
  if bn < NDIRECT then (s.inode ip).d.addrs bn
  else if (s.inode ip).d.addrs NDIRECT = 0 then 0
  else readLE (s.store ((s.inode ip).d.addrs NDIRECT)) (4 * (bn - NDIRECT)) 4

def fileByte (s : Fs) (ip : Fin NINODE) (off : Nat) : UInt8 :=
  byte (s.store (s.blockOf ip (off / BSIZE))) (off % BSIZE)

structure Solid (s : Fs) (ip : Fin NINODE) : Prop where
  size : (s.inode ip).d.size < 2 ^ 32
  block : ∀ off, off < (s.inode ip).d.size → off / BSIZE < MAXFILE → s.blockOf ip (off / BSIZE) ≠ 0

/-- The number of bytes that `readi` finds. -/
def readCount (s : Fs) (ip : Fin NINODE) (off n : Nat) : Nat :=
  if off > (s.inode ip).d.size ∨ (off + n) % 2 ^ 32 < off then 0
  else if off + n > (s.inode ip).d.size then (s.inode ip).d.size - off else n

variable {s : Fs} {ip : Fin NINODE} {τ : Type} {t : τ}

theorem readCount_le (s : Fs) (ip : Fin NINODE) (off n : Nat) : s.readCount ip off n ≤ n := by
  unfold readCount
  split
  · exact Nat.zero_le _
  · split <;> omega

/-- All that was asked for is below the size. -/
theorem le_size_of_readCount {off n : Nat} (h : s.readCount ip off n = n) (hn : 0 < n) :
    off + n ≤ (s.inode ip).d.size := by
  unfold readCount at h
  split at h
  · omega
  · split at h <;> omega

/-! ## Reading blocks -/

theorem bread_exact (bno : Nat) :
    wpm (bread bno) (fun d s' => d = s.store bno ∧ s' = { s with held := bno :: s.held }) (· ∈ panics) True s := by
  unfold bread
  rw [wpm_bind, wpm_get]
  split
  · trivial
  · exact ⟨rfl, rfl⟩

theorem brelse_exact (bno : Nat) :
    wpm (brelse bno) (fun _ s' => s' = s) (· ∈ panics) True { s with held := bno :: s.held } := by
  unfold brelse
  rw [wpm_bind, wpm_get]
  split
  · rw [wpm_modify, List.erase_cons_head]
  · exact panics_own (by decide)

/-- A block that is there is found and nothing is allocated. -/
theorem bmap_solid {bn : Nat} (h : bn < MAXFILE → s.blockOf ip bn ≠ 0) :
    wpm (bmap ip bn) (fun r s' => r = s.blockOf ip bn ∧ s' = s ∧ r ≠ 0) (· ∈ panics) True s := by
  unfold bmap
  rw [wpm_bind, wpm_get]
  split
  · rename_i hdir
    have hne := h (Nat.lt_of_lt_of_le hdir (by decide))
    have heq : s.blockOf ip bn = (s.inode ip).d.addrs bn := by
      unfold blockOf
      rw [if_pos hdir]
    rw [heq] at hne ⊢
    rw [if_neg hne]
    exact ⟨rfl, rfl, hne⟩
  · rename_i hdir
    split
    · rename_i hind
      have hne := h (show bn < NDIRECT + NINDIRECT by omega)
      have hroot : (s.inode ip).d.addrs NDIRECT ≠ 0 := by
        intro hz
        unfold blockOf at hne
        rw [if_neg hdir, if_pos hz] at hne
        exact hne rfl
      have heq : s.blockOf ip bn = readLE (s.store ((s.inode ip).d.addrs NDIRECT)) (4 * (bn - NDIRECT)) 4 := by
        unfold blockOf
        rw [if_neg hdir, if_neg hroot]
      rw [heq] at hne ⊢
      rw [if_neg hroot, wpm_bind, wpm_pure, if_neg hroot]
      refine wpm_seq (bread_exact _) ?_
      rintro _ _ ⟨rfl, rfl⟩
      rw [if_neg hne, wpm_bind, wpm_pure]
      refine wpm_seq (brelse_exact _) ?_
      rintro _ _ rfl
      exact ⟨rfl, rfl, hne⟩
    · exact panics_own (by decide)

theorem blockBytes_eq {off m : Nat} (h : off % BSIZE + m ≤ BSIZE) :
    blockBytes (s.store (s.blockOf ip (off / BSIZE))) (off % BSIZE) m = bytesAt (s.fileByte ip) off m := by
  refine List.map_congr_left fun i hi => ?_
  have him := List.mem_range.1 hi
  unfold fileByte
  have hdiv : (off + i) / BSIZE = off / BSIZE := by
    simp only [BSIZE] at *
    omega
  have hmod : (off + i) % BSIZE = off % BSIZE + i := by
    simp only [BSIZE] at *
    omega
  rw [hdiv, hmod]

/-! ## `readi` -/

section readi

variable {copy : Nat → List UInt8 → Prog τ Bool} {J : Nat → τ → Prop} {dst off : Nat}

/-- The loop, when `tot` bytes have been copied; `J` says what the copies have done so far. -/
theorem readLoop_solid {n : Nat} (hs : ∀ o, o < n → (off + o) / BSIZE < MAXFILE → s.blockOf ip ((off + o) / BSIZE) ≠ 0)
    (hcopy : ∀ o bs t, o + bs.length ≤ n → bs = bytesAt (s.fileByte ip) (off + o) bs.length → J o t →
      wpm (copy (dst + o) bs) (fun ok t' => ok = true ∧ J (o + bs.length) t') (· ∈ panics) True t) :
    ∀ fuel tot t, n ≤ tot + fuel → tot ≤ n → J tot t →
      wpm (readLoop copy ip n fuel (dst + tot) (off + tot) tot)
        (fun r st => r = n ∧ st.1 = s ∧ J n st.2) (· ∈ panics) True (s, t)
  | 0, tot, t, hfuel, htot, hJ => by
    obtain rfl : tot = n := by omega
    exact ⟨rfl, rfl, hJ⟩
  | fuel + 1, tot, t, hfuel, htot, hJ => by
    unfold readLoop
    split
    · rename_i hlt
      refine (wpm_bind ..).2 (wpm_fsPart.2 (wpm_mono (bmap_solid (hs tot hlt)) ?_))
      rintro _ s₁ ⟨rfl, hs₁, hne⟩
      rw [hs₁, if_neg hne]
      refine (wpm_bind ..).2 (wpm_fsPart.2 (wpm_mono (bread_exact _) ?_))
      rintro _ _ ⟨rfl, rfl⟩
      have hB : 0 < BSIZE - (off + tot) % BSIZE := Nat.sub_pos_of_lt (Nat.mod_lt _ (by decide))
      have hm : (off + tot) % BSIZE + min (n - tot) (BSIZE - (off + tot) % BSIZE) ≤ BSIZE := by omega
      dsimp only
      rw [blockBytes_eq hm]
      have hpos : 0 < min (n - tot) (BSIZE - (off + tot) % BSIZE) := by omega
      have hle : tot + min (n - tot) (BSIZE - (off + tot) % BSIZE) ≤ n := by omega
      generalize min (n - tot) (BSIZE - (off + tot) % BSIZE) = m at hpos hle ⊢
      have hc := hcopy tot (bytesAt (s.fileByte ip) (off + tot) m) t (by rw [bytesAt_length]; exact hle)
        (by rw [bytesAt_length]) hJ
      rw [bytesAt_length] at hc
      refine (wpm_bind ..).2 (wpm_outPart.2 (wpm_mono hc ?_))
      rintro _ t' ⟨rfl, hJ'⟩
      refine (wpm_bind ..).2 (wpm_fsPart.2 (wpm_mono (brelse_exact _) ?_))
      rintro _ s₃ hs₃
      rw [hs₃, if_pos rfl, Nat.add_assoc, Nat.add_assoc]
      exact readLoop_solid hs hcopy fuel (tot + m) t' (by omega) hle hJ'
    · rename_i hge
      obtain rfl : tot = n := by omega
      exact ⟨rfl, rfl, hJ⟩

theorem readi_solid {n : Nat} (hs : s.Solid ip) (hJ : J 0 t)
    (hcopy : ∀ o bs t, o + bs.length ≤ s.readCount ip off n →
      bs = bytesAt (s.fileByte ip) (off + o) bs.length → J o t →
      wpm (copy (dst + o) bs) (fun ok t' => ok = true ∧ J (o + bs.length) t') (· ∈ panics) True t) :
    wpm (readi copy ip dst off n) (fun r st => r = s.readCount ip off n ∧ st.1 = s ∧
      J (s.readCount ip off n) st.2) (· ∈ panics) True (s, t) := by
  unfold readi
  rw [wpm_bind, wpm_get]
  dsimp only
  unfold readCount at hcopy ⊢
  split
  · exact ⟨rfl, rfl, hJ⟩
  · rename_i hoff
    rw [if_neg hoff] at hcopy
    refine readLoop_solid (fun o ho hmax => hs.block _ ?_ hmax) hcopy _ 0 t (by omega) (Nat.zero_le _) hJ
    split at ho <;> omega

/-- `readi` into a kernel buffer. -/
theorem readiKernel_solid {n : Nat} (hs : s.Solid ip) :
    wpm (readiKernel ip off n) (fun r s' => s' = s ∧ r.1 = s.readCount ip off n ∧
      r.2 = bytesAt (s.fileByte ip) off (s.readCount ip off n)) (· ∈ panics) True s := by
  refine (wpm_withLocal _).2 (wpm_mono (readi_solid (J := fun m buf => buf = bytesAt (s.fileByte ip) off m) hs rfl ?_)
    (fun r st h => ⟨h.2.1, h.1, h.2.2⟩))
  rintro o bs buf - hbs rfl
  refine ⟨rfl, ?_⟩
  rw [← bytesAt_append, ← hbs]

end readi

end Fs

end Xv6
