import Xv6.Lib.Prog
import Xv6.Riscv

/-!
# The loads and stores of `copyin` and `copyinstr`

`kernel/vmcopyin.c`, `memmove` and `strlen` of `kernel/string.c`, and `fetchaddr` and `fetchstr` of
`kernel/syscall.c`, one byte at a time.  `Access` is the memory as the kernel addresses it, with every
load and store recorded.  An `int` is an integer that wraps around at `2 ^ 32`; where it is compared with
a `uint64` or added to one it is converted first (`u64`).

* `Touches s s' P dst n` — all loads are from addresses with `P`, and at most `n` bytes are stored, all of
  them in `[dst, dst + n)`.
* `StaysInside`, `copyin_stays_inside` — the four functions, for every argument.
-/

namespace Xv6

open Prog Function

structure Access where
  mem : Nat → UInt8
  loads : List Nat
  stores : List Nat

/-- The conversion of an `int` to `uint64`. -/
def u64 (n : Int) : Nat := (n % 2 ^ 64).toNat

namespace Access

def load (a : Nat) : Prog Access UInt8 := fun s => .ok (s.mem a) { s with loads := a :: s.loads }

def store (a : Nat) (c : UInt8) : Prog Access Unit :=
  modify fun s => { s with mem := Function.update s.mem a c, stores := a :: s.stores }

/-- `while(n-- > 0) *d++ = *s++`. -/
def moveUp : Nat → Nat → Nat → Prog Access Unit
  | 0, _, _ => pure ()
  | n + 1, d, s => do
    let c ← load s
    store d c
    moveUp n (d + 1) (s + 1)

/-- `while(n-- > 0) *--d = *--s`, with `d` and `s` behind the last byte. -/
def moveDown : Nat → Nat → Nat → Prog Access Unit
  | 0, _, _ => pure ()
  | n + 1, d, s => do
    let c ← load (s - 1)
    store (d - 1) c
    moveDown n (d - 1) (s - 1)

/-- The length is a `uint`. -/
def memmove (dst src n : Nat) : Prog Access Unit :=
  if n % 2 ^ 32 = 0 then pure ()
  else if src < dst ∧ src + n % 2 ^ 32 > dst then moveDown (n % 2 ^ 32) (dst + n % 2 ^ 32) (src + n % 2 ^ 32)
  else moveUp (n % 2 ^ 32) dst src

/-- `copyin_new` for a process of size `sz`. -/
def copyinNew (sz dst srcva len : Nat) : Prog Access Int :=
  if srcva ≥ sz ∨ (srcva + len) % 2 ^ 64 > sz ∨ (srcva + len) % 2 ^ 64 < srcva then pure (-1)
  else do
    memmove dst srcva len
    pure 0

/-- The loop of `copyinstr_new`; the source has no bound on the iterations. -/
def copyinstrLoop (sz dst srcva max : Nat) : Nat → Int → Prog Access Int
  | 0, _ => hang
  | fuel + 1, n =>
    if u64 n < max then
      if (srcva + u64 n) % 2 ^ 64 ≥ sz then pure (-1)
      else do
        let c ← load (srcva + u64 n)
        store (dst + u64 n) c
        if c = 0 then pure 0
        else copyinstrLoop sz dst srcva max fuel (Int.bmod (n + 1) (2 ^ 32))
    else pure (-1)

def copyinstrNew (sz dst srcva max : Nat) : Prog Access Int :=
  if srcva ≥ sz then pure (-1) else copyinstrLoop sz dst srcva max (2 ^ 64) 0

def strlenLoop (s : Nat) : Nat → Int → Prog Access Int
  | 0, _ => hang
  | fuel + 1, n => do
    let c ← load (s + u64 n)
    if c = 0 then pure n else strlenLoop s fuel (Int.bmod (n + 1) (2 ^ 32))

def strlen (s : Nat) : Prog Access Int := strlenLoop s (2 ^ 64) 0

def fetchaddr (sz addr ip : Nat) : Prog Access Int :=
  if addr ≥ sz ∨ (addr + 8) % 2 ^ 64 > sz then pure (-1)
  else do
    let r ← copyinNew sz ip addr 8
    if r ≠ 0 then pure (-1) else pure 0

/-- `max` is an `int`, and `copyinstr` takes a `uint64`. -/
def fetchstr (sz addr buf : Nat) (max : Int) : Prog Access Int := do
  let r ← copyinstrNew sz buf addr (u64 max)
  if r < 0 then pure (-1) else strlen buf

/-! ## What a run touches -/

structure Touches (s s' : Access) (P : Nat → Prop) (dst n : Nat) : Prop where
  loads : ∃ L, s'.loads = L ++ s.loads ∧ ∀ a ∈ L, P a
  stores : ∃ S, s'.stores = S ++ s.stores ∧ S.length ≤ n ∧ ∀ a ∈ S, dst ≤ a ∧ a < dst + n
  frame : ∀ a, ¬ (dst ≤ a ∧ a < dst + n) → s'.mem a = s.mem a

variable {s s' s'' : Access} {P Q : Nat → Prop} {sz dst srcva len max n m : Nat}

variable {a k : Nat}

theorem wp_load {R : UInt8 → Access → Prop} {E : Access → Prop} :
    wp (load a) R E s ↔ R (s.mem a) { s with loads := a :: s.loads } := Iff.rfl

theorem wp_store {c : UInt8} {R : Unit → Access → Prop} {E : Access → Prop} :
    wp (store a c) R E s ↔ R () { s with mem := update s.mem a c, stores := a :: s.stores } := Iff.rfl

theorem Touches.refl (s : Access) (P : Nat → Prop) (dst n : Nat) : Touches s s P dst n :=
  ⟨⟨[], rfl, fun _ h => nomatch h⟩, ⟨[], rfl, Nat.zero_le _, fun _ h => nomatch h⟩, fun _ _ => rfl⟩

theorem Touches.mono (h : Touches s s' P dst n) (hP : ∀ a, P a → Q a) (hn : n ≤ m) : Touches s s' Q dst m := by
  obtain ⟨⟨L, hL, hLP⟩, ⟨S, hS, hlen, hSd⟩, hframe⟩ := h
  refine ⟨⟨L, hL, fun a ha => hP a (hLP a ha)⟩, ⟨S, hS, by omega, fun a ha => ?_⟩, fun a ha => hframe a ?_⟩
  · have := hSd a ha
    omega
  · intro hc
    exact ha (by omega)

/-- One byte loaded and stored, then the bytes after it. -/
theorem Touches.byte {c : UInt8} (ha : P a)
    (h : Touches { mem := update s.mem dst c, loads := a :: s.loads, stores := dst :: s.stores } s'
      P (dst + 1) n) : Touches s s' P dst (n + 1) := by
  obtain ⟨⟨L, hL, hLP⟩, ⟨S, hS, hlen, hSd⟩, hframe⟩ := h
  refine ⟨⟨L ++ [a], by simp [hL], fun x hx => ?_⟩, ⟨S ++ [dst], by simp [hS], by simp; omega, fun x hx => ?_⟩,
    fun x hx => ?_⟩
  · rcases List.mem_append.1 hx with hx | hx
    · exact hLP x hx
    · exact List.mem_singleton.1 hx ▸ ha
  · rcases List.mem_append.1 hx with hx | hx
    · have := hSd x hx
      omega
    · have := List.mem_singleton.1 hx
      omega
  · rw [hframe x (by omega)]
    exact update_of_ne (by omega) _ _

/-! ## `memmove` and `copyin_new` -/

/-- The copy is exact when the destination is above the source. -/
theorem moveUp_spec (n : Nat) {d : Nat} (hda : a + n ≤ d) :
    wp (moveUp n d a) (fun _ s' => Touches s s' (fun x => a ≤ x ∧ x < a + n) d n ∧
      ∀ i, i < n → s'.mem (d + i) = s.mem (a + i)) (fun _ => False) s := by
  induction n generalizing s d a with
  | zero => exact ⟨Touches.refl _ _ _ _, fun i hi => by omega⟩
  | succ n ih =>
    unfold moveUp
    rw [wp_bind, wp_load, wp_bind, wp_store]
    refine wp_mono (ih (d := d + 1) (a := a + 1) (by omega)) ?_ fun _ h => h
    rintro - s' ⟨ht, hmem⟩
    refine ⟨Touches.byte ⟨Nat.le_refl _, by omega⟩ (ht.mono (fun x hx => by omega) (Nat.le_refl _)), fun i hi => ?_⟩
    cases i with
    | zero =>
      rw [ht.frame _ (by omega)]
      exact update_self ..
    | succ i =>
      have := hmem i (by omega)
      rw [show d + (i + 1) = d + 1 + i by omega, this, show a + (i + 1) = a + 1 + i by omega]
      exact update_of_ne (by omega) _ _

theorem memmove_spec (hn : n < 2 ^ 32) (hda : a + n ≤ dst) :
    wp (memmove dst a n) (fun _ s' => Touches s s' (fun x => a ≤ x ∧ x < a + n) dst n ∧
      ∀ i, i < n → s'.mem (dst + i) = s.mem (a + i)) (fun _ => False) s := by
  unfold memmove
  rw [Nat.mod_eq_of_lt hn]
  split
  · rename_i h0
    subst h0
    exact ⟨Touches.refl _ _ _ _, fun i hi => by omega⟩
  · rw [if_neg (by omega)]
    exact moveUp_spec n hda

/-- The checks of `copyin_new` are those of the sum without wrap-around. -/
theorem copyinNew_bounds (hsrc : srcva < 2 ^ 64) (hlen : len < 2 ^ 64) (hsz : sz < 2 ^ 31) :
    (srcva ≥ sz ∨ (srcva + len) % 2 ^ 64 > sz ∨ (srcva + len) % 2 ^ 64 < srcva) ↔
      ¬ (srcva < sz ∧ srcva + len ≤ sz) := by
  omega

theorem copyinNew_spec (hsz : sz < 2 ^ 31) (hdst : KERNBASE ≤ dst) (hsrc : srcva < 2 ^ 64) (hlen : len < 2 ^ 64) :
    wp (copyinNew sz dst srcva len) (fun r s' => (r = 0 ∨ r = -1) ∧
      Touches s s' (fun a => srcva ≤ a ∧ a < sz) dst len ∧ (0 < len → (r = 0 ↔ srcva + len ≤ sz)) ∧
      (r = 0 → ∀ i, i < len → s'.mem (dst + i) = s.mem (srcva + i))) (fun _ => False) s := by
  unfold copyinNew
  by_cases h : srcva < sz ∧ srcva + len ≤ sz
  · rw [if_neg (by rw [copyinNew_bounds hsrc hlen hsz, not_not]; exact h)]
    simp only [KERNBASE] at hdst
    refine wp_seq (memmove_spec (by omega) (by omega)) ?_
    rintro - s' ⟨ht, hmem⟩
    exact ⟨Or.inl rfl, ht.mono (fun a ha => by omega) (Nat.le_refl _), fun _ => ⟨fun _ => h.2, fun _ => rfl⟩,
      fun _ => hmem⟩
  · rw [if_pos ((copyinNew_bounds hsrc hlen hsz).2 h)]
    refine ⟨Or.inr rfl, Touches.refl _ _ _ _, fun hpos => ⟨fun h0 => absurd h0 (by decide), fun hle => ?_⟩,
      fun h0 => absurd h0 (by decide)⟩
    exact absurd ⟨by omega, hle⟩ h

theorem fetchaddr_spec {addr ip : Nat} (hsz : sz < 2 ^ 31) (hip : KERNBASE ≤ ip) (haddr : addr < 2 ^ 64) :
    wp (fetchaddr sz addr ip) (fun r s' => (r = 0 ∨ r = -1) ∧
      Touches s s' (fun a => addr ≤ a ∧ a < sz) ip 8 ∧ (r = 0 ↔ addr + 8 ≤ sz) ∧
      (r = 0 → ∀ i, i < 8 → s'.mem (ip + i) = s.mem (addr + i))) (fun _ => False) s := by
  unfold fetchaddr
  split
  · rename_i hc
    refine ⟨Or.inr rfl, Touches.refl _ _ _ _, ⟨fun h0 => absurd h0 (by decide), fun hle => ?_⟩,
      fun h0 => absurd h0 (by decide)⟩
    omega
  · refine wp_seq (copyinNew_spec hsz hip haddr (by decide)) ?_
    rintro r s' ⟨hr, ht, hiff, hmem⟩
    have hiff' := hiff (by decide)
    split
    · rename_i hne
      have hgt : ¬ addr + 8 ≤ sz := fun hle => hne (hiff'.2 hle)
      exact ⟨Or.inr rfl, ht, ⟨fun h0 => absurd h0 (by decide), fun hle => absurd hle hgt⟩,
        fun h0 => absurd h0 (by decide)⟩
    · rename_i heq
      have h0 : r = 0 := not_not.1 heq
      exact ⟨Or.inl rfl, ht, ⟨fun _ => hiff'.1 h0, fun _ => rfl⟩, fun _ => hmem h0⟩

/-! ## `copyinstr_new` and `fetchstr` -/

/-- The first NUL at or after `a` is at index `k`. -/
def FirstNul (mem : Nat → UInt8) (a k : Nat) : Prop := mem (a + k) = 0 ∧ ∀ i, i < k → mem (a + i) ≠ 0

theorem FirstNul.unique {mem : Nat → UInt8} {j : Nat} (hk : FirstNul mem a k) (hj : FirstNul mem a j) : k = j := by
  rcases Nat.lt_trichotomy k j with h | h | h
  · exact absurd hk.1 (hj.2 k h)
  · exact h
  · exact absurd hj.1 (hk.2 j h)

theorem u64_ofNat (hk : k < 2 ^ 64) : u64 k = k := by
  unfold u64
  omega

/-- An index below `2 ^ 31 - 1` does not wrap around. -/
theorem bmod_succ (hk : k + 1 < 2 ^ 31) : Int.bmod ((k : Int) + 1) (2 ^ 32) = ((k + 1 : Nat) : Int) := by
  rw [Int.bmod_def]
  omega

/-- What is stored above the process does not change its strings. -/
theorem FirstNul.congr {mem mem' : Nat → UInt8} (h : ∀ x, x < sz → mem' x = mem x) (hk : a + k < sz) :
    FirstNul mem' a k ↔ FirstNul mem a k := by
  unfold FirstNul
  rw [h _ hk]
  refine and_congr_right fun _ => forall₂_congr fun i hi => ?_
  rw [h _ (by omega)]

/-- The run of `copyinstr_new` from index `n` on. -/
structure StringCopy (s : Access) (sz dst srcva max n : Nat) (r : Int) (s' : Access) : Prop where
  result : r = 0 ∨ r = -1
  touches : Touches s s' (fun a => srcva ≤ a ∧ a < sz) (dst + n) (max - n)
  found : r = 0 ↔ ∃ k, FirstNul s.mem srcva k ∧ k < max ∧ srcva + k < sz
  bytes : ∀ k, FirstNul s.mem srcva k → srcva + k < sz → r = 0 →
    ∀ i, n ≤ i → i ≤ k → s'.mem (dst + i) = s.mem (srcva + i)

theorem copyinstrLoop_spec (hsz : sz < 2 ^ 31) (hdst : KERNBASE ≤ dst) (fuel : Nat) {n : Nat}
    (hn : ∀ i, i < n → s.mem (srcva + i) ≠ 0) (hle : srcva + n ≤ sz) (hfuel : sz < fuel + srcva + n) :
    wp (copyinstrLoop sz dst srcva max fuel n) (fun r s' => StringCopy s sz dst srcva max n r s')
      (fun _ => False) s := by
  simp only [KERNBASE] at hdst
  induction fuel generalizing s n with
  | zero => omega
  | succ fuel ih =>
    -- no NUL that counts comes before index `n`
    have hafter : ∀ k, FirstNul s.mem srcva k → n ≤ k := fun k hk => by
      by_contra hlt
      exact hn k (by omega) hk.1
    have hstop : (∀ k, FirstNul s.mem srcva k → k < max → ¬ srcva + k < sz) →
        StringCopy s sz dst srcva max n (-1) s := fun hno =>
      ⟨Or.inr rfl, Touches.refl _ _ _ _, ⟨fun h0 => absurd h0 (by decide), fun ⟨k, h1, h2, h3⟩ =>
        absurd h3 (hno k h1 h2)⟩, fun _ _ _ h0 => absurd h0 (by decide)⟩
    unfold copyinstrLoop
    rw [u64_ofNat (by omega)]
    split
    · rename_i hmax
      rw [Nat.mod_eq_of_lt (by omega)]
      split
      · refine hstop fun k hk _ => ?_
        have := hafter k hk
        omega
      · rename_i hlt
        rw [wp_bind, wp_load, wp_bind, wp_store, wp_ite]
        have hsame : ∀ x, x < sz → update s.mem (dst + n) (s.mem (srcva + n)) x = s.mem x :=
          fun x hx => update_of_ne (by omega) _ _
        have hlen : max - n = max - (n + 1) + 1 := by omega
        split
        · rename_i hnul
          have hfirst : FirstNul s.mem srcva n := ⟨hnul, hn⟩
          refine ⟨Or.inl rfl, ?_, ⟨fun _ => ⟨n, hfirst, hmax, by omega⟩, fun _ => rfl⟩, fun k hk _ _ i h1 h2 => ?_⟩
          · rw [hlen]
            exact Touches.byte ⟨by omega, by omega⟩ (Touches.refl _ _ _ _)
          · obtain rfl := hk.unique hfirst
            obtain rfl : i = k := by omega
            exact update_self ..
        · rename_i hchar
          rw [bmod_succ (by omega)]
          refine wp_mono (ih ?_ (by omega) (by omega)) ?_ fun _ h => h
          · intro i hi
            show update s.mem (dst + n) (s.mem (srcva + n)) (srcva + i) ≠ 0
            rw [hsame _ (by omega)]
            by_cases hin : i = n
            · rw [hin]
              exact hchar
            · exact hn i (by omega)
          · rintro r s' ⟨hr, ht, hfound, hbytes⟩
            refine ⟨hr, ?_, ?_, fun k hk hks h0 i h1 h2 => ?_⟩
            · rw [hlen]
              exact Touches.byte ⟨by omega, by omega⟩ ht
            · rw [hfound]
              refine exists_congr fun k => and_congr_left fun hk => ?_
              exact FirstNul.congr hsame hk.2
            · by_cases hin : i = n
              · subst hin
                rw [ht.frame _ (by omega)]
                exact update_self ..
              · rw [hbytes k ((FirstNul.congr hsame hks).2 hk) hks h0 i (by omega) h2]
                exact hsame _ (by omega)
    · refine hstop fun k hk hkm => ?_
      have := hafter k hk
      omega

theorem copyinstrNew_spec (hsz : sz < 2 ^ 31) (hdst : KERNBASE ≤ dst) :
    wp (copyinstrNew sz dst srcva max) (fun r s' => StringCopy s sz dst srcva max 0 r s') (fun _ => False) s := by
  unfold copyinstrNew
  split
  · refine ⟨Or.inr rfl, Touches.refl _ _ _ _, ⟨fun h0 => absurd h0 (by decide), fun ⟨k, _, _, h3⟩ => ?_⟩,
      fun _ _ _ h0 => absurd h0 (by decide)⟩
    omega
  · exact copyinstrLoop_spec hsz hdst (2 ^ 64) (n := 0) (fun i hi => by omega) (by omega) (by omega)

/-- `strlen` of a string whose first NUL is at `k`. -/
theorem strlenLoop_spec (hk : FirstNul s.mem a k) (hsmall : k < 2 ^ 31) (fuel : Nat) {n : Nat}
    (hn : n ≤ k) (hfuel : k < fuel + n) :
    wp (strlenLoop a fuel n) (fun r s' => r = k ∧ s'.mem = s.mem ∧ s'.stores = s.stores ∧
      ∃ L, s'.loads = L ++ s.loads ∧ ∀ x ∈ L, a ≤ x ∧ x ≤ a + k) (fun _ => False) s := by
  induction fuel generalizing s n with
  | zero => omega
  | succ fuel ih =>
    unfold strlenLoop
    rw [u64_ofNat (by omega), wp_bind, wp_load, wp_ite]
    split
    · rename_i hnul
      have hnk : n = k := by
        by_contra hne
        exact hk.2 n (by omega) hnul
      refine ⟨by rw [hnk], rfl, rfl, [a + n], rfl, fun x hx => ?_⟩
      have := List.mem_singleton.1 hx
      omega
    · rename_i hchar
      have hne : n ≠ k := fun h => hchar (h ▸ hk.1)
      rw [bmod_succ (by omega)]
      refine wp_mono (ih (s := { s with loads := (a + n) :: s.loads }) hk (by omega) (by omega)) ?_ fun _ h => h
      rintro r s' ⟨hr, hmem, hst, L, hL, hLa⟩
      refine ⟨hr, hmem, hst, L ++ [a + n], by simp [hL], fun x hx => ?_⟩
      rcases List.mem_append.1 hx with hx | hx
      · exact hLa x hx
      · have := List.mem_singleton.1 hx
        omega

/-- `fetchstr` returns the length of the string, or `-1`. -/
theorem fetchstr_spec {addr buf : Nat} {max : Int} (hsz : sz < 2 ^ 31) (hbuf : KERNBASE ≤ buf) :
    wp (fetchstr sz addr buf max) (fun r s' =>
      Touches s s' (fun a => addr ≤ a ∧ a < sz ∨ buf ≤ a ∧ a < buf + u64 max) buf (u64 max) ∧
      (∀ k, FirstNul s.mem addr k → k < u64 max → addr + k < sz →
        r = k ∧ ∀ i, i ≤ k → s'.mem (buf + i) = s.mem (addr + i)) ∧
      ((¬ ∃ k, FirstNul s.mem addr k ∧ k < u64 max ∧ addr + k < sz) → r = -1)) (fun _ => False) s := by
  unfold fetchstr
  refine wp_seq (copyinstrNew_spec hsz hbuf) ?_
  rintro r s₁ ⟨hr, ht, hfound, hbytes⟩
  by_cases h0 : r = 0
  · subst h0
    rw [if_neg (by decide)]
    obtain ⟨k, hk, hkm, hks⟩ := hfound.1 rfl
    have hcopy : ∀ i, i ≤ k → s₁.mem (buf + i) = s.mem (addr + i) := fun i hi =>
      hbytes k hk hks rfl i (Nat.zero_le _) hi
    have hnul : FirstNul s₁.mem buf k := by
      refine ⟨by rw [hcopy k (Nat.le_refl _)]; exact hk.1, fun i hi => ?_⟩
      rw [hcopy i (by omega)]
      exact hk.2 i hi
    refine wp_mono (strlenLoop_spec hnul (by omega) (2 ^ 64) (n := 0) (Nat.zero_le _) (by omega)) ?_ fun _ h => h
    rintro r s' ⟨rfl, hmem, hst, L, hL, hLa⟩
    obtain ⟨⟨L₁, hL₁, hP⟩, ⟨S, hS, hlen, hSd⟩, hframe⟩ := ht
    refine ⟨⟨⟨L ++ L₁, by rw [hL, hL₁, List.append_assoc], fun a ha => ?_⟩, ⟨S, by rw [hst, hS], hlen, hSd⟩,
      fun a ha => by rw [hmem, hframe a ha]⟩, fun j hj _ _ => ?_, fun hno => absurd ⟨k, hk, hkm, hks⟩ hno⟩
    · rcases List.mem_append.1 ha with ha | ha
      · have := hLa a ha
        exact Or.inr (by omega)
      · exact Or.inl (hP a ha)
    · obtain rfl := hj.unique hk
      exact ⟨rfl, fun i hi => by rw [hmem, hcopy i hi]⟩
  · have hr1 : r = -1 := hr.resolve_left h0
    subst hr1
    rw [if_pos (by decide)]
    refine ⟨ht.mono (fun a ha => Or.inl ha) (Nat.le_refl _), fun k hk hkm hks => ?_, fun _ => rfl⟩
    exact absurd (hfound.2 ⟨k, hk, hkm, hks⟩) (by decide)

/-- What the four functions load, store and return for the user address `srcva`. -/
structure StaysInside (s : Access) (sz dst srcva : Nat) : Prop where
  copyin : ∀ len, len < 2 ^ 64 → wp (copyinNew sz dst srcva len) (fun r s' => (r = 0 ∨ r = -1) ∧
    Touches s s' (fun a => srcva ≤ a ∧ a < sz) dst len ∧ (0 < len → (r = 0 ↔ srcva + len ≤ sz)) ∧
    (r = 0 → ∀ i, i < len → s'.mem (dst + i) = s.mem (srcva + i))) (fun _ => False) s
  copyinstr : ∀ max, max < 2 ^ 64 → wp (copyinstrNew sz dst srcva max) (fun r s' => (r = 0 ∨ r = -1) ∧
    Touches s s' (fun a => srcva ≤ a ∧ a < sz) dst max ∧
    (r = 0 ↔ ∃ k, FirstNul s.mem srcva k ∧ k < max ∧ srcva + k < sz) ∧
    (r = 0 → ∀ k, FirstNul s.mem srcva k → ∀ i, i ≤ k → s'.mem (dst + i) = s.mem (srcva + i)))
    (fun _ => False) s
  addr : wp (fetchaddr sz srcva dst) (fun r s' => (r = 0 ∨ r = -1) ∧
    Touches s s' (fun a => srcva ≤ a ∧ a < sz) dst 8 ∧ (r = 0 ↔ srcva + 8 ≤ sz) ∧
    (r = 0 → ∀ i, i < 8 → s'.mem (dst + i) = s.mem (srcva + i))) (fun _ => False) s
  /-- `strlen` reads the copy. -/
  str : ∀ max : Int, wp (fetchstr sz srcva dst max) (fun r s' =>
    Touches s s' (fun a => srcva ≤ a ∧ a < sz ∨ dst ≤ a ∧ a < dst + u64 max) dst (u64 max) ∧
    (∀ k, FirstNul s.mem srcva k → k < u64 max → srcva + k < sz →
      r = k ∧ ∀ i, i ≤ k → s'.mem (dst + i) = s.mem (srcva + i)) ∧
    ((¬ ∃ k, FirstNul s.mem srcva k ∧ k < u64 max ∧ srcva + k < sz) → r = -1)) (fun _ => False) s

/-- **`copyin` and `copyinstr` stay inside the process.** -/
theorem copyin_stays_inside (hsz : sz < 2 ^ 31) (hdst : KERNBASE ≤ dst) (hsrc : srcva < 2 ^ 64) (s : Access) :
    StaysInside s sz dst srcva := by
  refine ⟨fun len hlen => copyinNew_spec hsz hdst hsrc hlen, fun max _ => ?_, fetchaddr_spec hsz hdst hsrc,
    fun max => fetchstr_spec hsz hdst⟩
  refine wp_mono (copyinstrNew_spec hsz hdst) ?_ fun _ h => h
  rintro r s' ⟨hr, ht, hfound, hbytes⟩
  refine ⟨hr, ht, hfound, fun h0 k hk i hi => ?_⟩
  obtain ⟨j, hj, -, hjs⟩ := hfound.1 h0
  obtain rfl := hk.unique hj
  exact hbytes k hk hjs h0 i (Nat.zero_le _) hi

/-- A process of two pages whose memory is all `'a'` but for a NUL in its last byte. -/
def lastByteNul : Access := ⟨fun a => if a = 8191 then 0 else 97, [], []⟩

theorem copyin_stays_inside_lastByteNul :
    FirstNul lastByteNul.mem 8000 191 ∧ StaysInside lastByteNul 8192 KERNBASE 8000 := by
  refine ⟨⟨rfl, fun i hi => ?_⟩, copyin_stays_inside (by decide) (Nat.le_refl _) (by decide) lastByteNul⟩
  simp only [lastByteNul]
  rw [if_neg (by omega)]
  decide

end Access

end Xv6
