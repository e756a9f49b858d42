import Mathlib

/-!
# `memmove`

The two `memmove` functions: the kernel's (`kernel/string.c`) and the one of the user library
(`user/ulib.c`).  A pointer is a natural number below `2 ^ 64`, and pointer arithmetic wraps.

* `copyUp`, `copyDown` — the loops `*d++ = *s++` and `*--d = *--s`.
* `copied` — the memory with `n` bytes copied from `src` to `dst`, all read before any is written.
* `copyUp_eq_copied`, `copyDown_eq_copied` — each loop does that when it runs away from the overlap.
-/

namespace Xv6

open Function

/-- `while(n-- > 0) *d++ = *s++;` -/
def copyUp : Nat → Nat → Nat → (Nat → UInt8) → Nat → UInt8
  | 0, _, _, m => m
  | n + 1, d, s, m => copyUp n ((d + 1) % 2 ^ 64) ((s + 1) % 2 ^ 64) (Function.update m d (m s))

/-- `while(n-- > 0) *--d = *--s;` -/
def copyDown : Nat → Nat → Nat → (Nat → UInt8) → Nat → UInt8
  | 0, _, _, m => m
  | n + 1, d, s, m =>
    let d := (d + (2 ^ 64 - 1)) % 2 ^ 64
    let s := (s + (2 ^ 64 - 1)) % 2 ^ 64
    copyDown n d s (Function.update m d (m s))

/-- The kernel's `memmove`; `n` is a `uint`.  The result is the pointer and the memory. -/
def memmove (m : Nat → UInt8) (dst src n : Nat) : Nat × (Nat → UInt8) :=
  if n = 0 then (dst, m)
  else if src < dst ∧ (src + n) % 2 ^ 64 > dst then
    (dst, copyDown n ((dst + n) % 2 ^ 64) ((src + n) % 2 ^ 64) m)
  else (dst, copyUp n dst src m)

/-- The `memmove` of the user library; `n` is an `int`. -/
def ulibMemmove (m : Nat → UInt8) (dst src : Nat) (n : Int) : Nat × (Nat → UInt8) :=
  if src > dst then (dst, copyUp n.toNat dst src m)
  else (dst, copyDown n.toNat ((dst + n) % 2 ^ 64).toNat ((src + n) % 2 ^ 64).toNat m)

/-- The `n` bytes at `dst` are those that were at `src`; every other byte is as before. -/
def copied (m : Nat → UInt8) (dst src n : Nat) (a : Nat) : UInt8 :=
  if dst ≤ a ∧ a < dst + n then m (src + (a - dst)) else m a

variable {m : Nat → UInt8} {n d s : Nat}

theorem copied_zero (m : Nat → UInt8) (d s : Nat) : copied m d s 0 = m := by
  funext a
  exact if_neg (by omega)

theorem copied_at {i : Nat} (h : i < n) : copied m d s n (d + i) = m (s + i) := by
  rw [copied, if_pos (by omega), Nat.add_sub_cancel_left]

theorem copied_other {a : Nat} (h : a < d ∨ d + n ≤ a) : copied m d s n a = m a := if_neg (by omega)

/-! ## One iteration -/

/-- The first byte has been copied, and the rest lies above it. -/
theorem copied_first (h : d ≤ s ∨ s + (n + 1) ≤ d) :
    copied (update m d (m s)) (d + 1) (s + 1) n = copied m d s (n + 1) := by
  funext a
  unfold copied
  by_cases hin : d + 1 ≤ a ∧ a < d + 1 + n
  · have hne : s + 1 + (a - (d + 1)) ≠ d := by omega
    rw [if_pos hin, if_pos (by omega), update_of_ne hne]
    congr 1
    omega
  · rw [if_neg hin]
    by_cases ha : a = d
    · rw [ha, update_self, if_pos (by omega), Nat.sub_self, Nat.add_zero]
    · rw [update_of_ne ha, if_neg (by omega)]

/-- The last byte has been copied, and the rest lies below it. -/
theorem copied_last (h : s ≤ d ∨ d + (n + 1) ≤ s) :
    copied (update m (d + n) (m (s + n))) d s n = copied m d s (n + 1) := by
  funext a
  unfold copied
  by_cases hin : d ≤ a ∧ a < d + n
  · have hne : s + (a - d) ≠ d + n := by omega
    rw [if_pos hin, if_pos (by omega), update_of_ne hne]
  · rw [if_neg hin]
    by_cases ha : a = d + n
    · rw [ha, update_self, if_pos (by omega), Nat.add_sub_cancel_left]
    · rw [update_of_ne ha, if_neg (by omega)]

/-! ## The loops -/

/-- **The upward loop**, when the source does not start below the destination or ends before it. -/
theorem copyUp_eq_copied : ∀ n d s (m : Nat → UInt8), d + n ≤ 2 ^ 64 → s + n ≤ 2 ^ 64 →
    d ≤ s ∨ s + n ≤ d → copyUp n d s m = copied m d s n
  | 0, d, s, m, _, _, _ => (copied_zero m d s).symm
  | 1, d, s, m, _, _, h => by
    rw [← copied_first h, copied_zero]
    rfl
  | n + 2, d, s, m, hd, hs, h => by
    have hd' : (d + 1) % 2 ^ 64 = d + 1 := Nat.mod_eq_of_lt (by omega)
    have hs' : (s + 1) % 2 ^ 64 = s + 1 := Nat.mod_eq_of_lt (by omega)
    rw [copyUp, hd', hs', copyUp_eq_copied (n + 1) (d + 1) (s + 1) _ (by omega) (by omega) (by omega)]
    exact copied_first h

/-- **The downward loop**, when the source does not start above the destination or starts after it. -/
theorem copyDown_eq_copied (n d s : Nat) (m : Nat → UInt8) (hd : d + n ≤ 2 ^ 64) (hs : s + n ≤ 2 ^ 64)
    (h : s ≤ d ∨ d + n ≤ s) :
    copyDown n ((d + n) % 2 ^ 64) ((s + n) % 2 ^ 64) m = copied m d s n := by
  induction n generalizing m with
  | zero => exact (copied_zero m d s).symm
  | succ n ih =>
    have hd' : ((d + (n + 1)) % 2 ^ 64 + (2 ^ 64 - 1)) % 2 ^ 64 = d + n := by omega
    have hs' : ((s + (n + 1)) % 2 ^ 64 + (2 ^ 64 - 1)) % 2 ^ 64 = s + n := by omega
    have hrest := ih (update m (d + n) (m (s + n))) (by omega) (by omega) (by omega)
    rw [Nat.mod_eq_of_lt (show d + n < 2 ^ 64 by omega), Nat.mod_eq_of_lt (show s + n < 2 ^ 64 by omega)] at hrest
    rw [copyDown, hd', hs', hrest]
    exact copied_last h

/-! ## The functions -/

theorem memmove_eq_copied (hd : d + n ≤ 2 ^ 64) (hs : s + n ≤ 2 ^ 64) :
    memmove m d s n = (d, copied m d s n) := by
  unfold memmove
  split
  · rename_i h0
    rw [h0, copied_zero]
  · rename_i h0
    split
    · rename_i hover
      rw [copyDown_eq_copied n d s m hd hs (by omega)]
    · rename_i hover
      -- a source below the destination ends below `2 ^ 64`, so the comparison is not fooled by wrapping
      have hdir : d ≤ s ∨ s + n ≤ d := by omega
      rw [copyUp_eq_copied n d s m hd hs hdir]

theorem ulibMemmove_eq_copied {n : Int} (hd : d + n.toNat ≤ 2 ^ 64) (hs : s + n.toNat ≤ 2 ^ 64) :
    ulibMemmove m d s n = (d, copied m d s n.toNat) := by
  unfold ulibMemmove
  split
  · rename_i hlt
    rw [copyUp_eq_copied _ d s m hd hs (by omega)]
  · rename_i hge
    by_cases hn : n ≤ 0
    · rw [Int.toNat_of_nonpos hn, copied_zero]
      rfl
    · have hdn : ((d + n) % 2 ^ 64).toNat = (d + n.toNat) % 2 ^ 64 := by omega
      have hsn : ((s + n) % 2 ^ 64).toNat = (s + n.toNat) % 2 ^ 64 := by omega
      rw [hdn, hsn, copyDown_eq_copied _ d s m hd hs (by omega)]

/-- What a move has done: the `n` bytes at `dst` are those that were at `src`, and no other byte has
changed. -/
structure Moved (m : Nat → UInt8) (dst src n : Nat) (m' : Nat → UInt8) : Prop where
  bytes : ∀ i, i < n → m' (dst + i) = m (src + i)
  other : ∀ a, a < dst ∨ dst + n ≤ a → m' a = m a

theorem moved_copied (m : Nat → UInt8) (d s n : Nat) : Moved m d s n (copied m d s n) :=
  ⟨fun _ => copied_at, fun _ => copied_other⟩

/-- **Both functions tolerate overlap.** -/
theorem memmove_tolerates_overlap (m : Nat → UInt8) (dst src : Nat) :
    (∀ n, n < 2 ^ 32 → dst + n ≤ 2 ^ 64 → src + n ≤ 2 ^ 64 →
      (memmove m dst src n).1 = dst ∧ Moved m dst src n (memmove m dst src n).2) ∧
    (∀ n : Int, -2 ^ 31 ≤ n → n < 2 ^ 31 → dst + n.toNat ≤ 2 ^ 64 → src + n.toNat ≤ 2 ^ 64 →
      (ulibMemmove m dst src n).1 = dst ∧ Moved m dst src n.toNat (ulibMemmove m dst src n).2) := by
  constructor
  · intro n _ hd hs
    rw [memmove_eq_copied hd hs]
    exact ⟨rfl, moved_copied m dst src n⟩
  · intro n _ _ hd hs
    rw [ulibMemmove_eq_copied hd hs]
    exact ⟨rfl, moved_copied m dst src n.toNat⟩

/-- Four bytes moved up by two, and four bytes moved down by two. -/
theorem memmove_tolerates_overlap_of_two :
    Moved UInt8.ofNat 10 8 4 (memmove UInt8.ofNat 10 8 4).2 ∧
      Moved UInt8.ofNat 8 10 4 (ulibMemmove UInt8.ofNat 8 10 4).2 :=
  ⟨((memmove_tolerates_overlap UInt8.ofNat 10 8).1 4 (by decide) (by decide) (by decide)).2,
    ((memmove_tolerates_overlap UInt8.ofNat 8 10).2 4 (by decide) (by decide) (by decide) (by decide)).2⟩

end Xv6
