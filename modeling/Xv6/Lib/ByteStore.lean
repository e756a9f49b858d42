import Mathlib

/-!
# Little-endian fields of byte stores

A `ByteStore` has bytes at natural-number offsets, `valid` where a write takes effect.

* `readLE s off k` / `writeLE s off k v` — the `k`-byte little-endian number at `off`.
* `readLE_writeLE` — reading back what was written, modulo `256 ^ k`.
* `readLE_writeLE_disjoint` — a write leaves the fields next to it alone.
* `readLE_of_bytes` — the number whose bytes are stored.
-/

class ByteStore (S : Type) where
  valid : Nat → Prop
  byte : S → Nat → UInt8
  setByte : S → Nat → UInt8 → S
  byte_setByte_self : ∀ (s : S) (i : Nat) (v : UInt8), valid i → byte (setByte s i v) i = v
  byte_setByte_ne : ∀ (s : S) (i j : Nat) (v : UInt8), j ≠ i → byte (setByte s i v) j = byte s j

namespace ByteStore

variable {S : Type} [ByteStore S]

def readLE (s : S) (off : Nat) : Nat → Nat
  | 0 => 0
  | k + 1 => (byte s off).toNat + 256 * readLE s (off + 1) k

def writeLE (s : S) (off : Nat) : Nat → Nat → S
  | 0, _ => s
  | k + 1, v => writeLE (setByte s off (UInt8.ofNat v)) (off + 1) k (v / 256)

theorem readLE_congr {T : Type} [ByteStore T] (s : S) (t : T) : ∀ (k off : Nat),
    (∀ i, off ≤ i → i < off + k → byte s i = byte t i) → readLE s off k = readLE t off k
  | 0, _, _ => rfl
  | k + 1, off, h => by
    simp only [readLE]
    rw [h off (Nat.le_refl _) (by omega),
      readLE_congr s t k (off + 1) fun i h1 h2 => h i (by omega) (by omega)]

theorem readLE_lt (s : S) : ∀ (k off : Nat), readLE s off k < 256 ^ k
  | 0, _ => by simp [readLE]
  | k + 1, off => by
    have h1 := readLE_lt s k (off + 1)
    have h2 : (byte s off).toNat < 256 := (byte s off).toNat_lt
    simp only [readLE, Nat.pow_succ]
    omega

theorem byte_writeLE_out (j : Nat) : ∀ (k off v : Nat) (s : S), j < off ∨ off + k ≤ j →
    byte (writeLE s off k v) j = byte s j
  | 0, _, _, _, _ => rfl
  | k + 1, off, v, s, h => by
    simp only [writeLE]
    rw [byte_writeLE_out j k (off + 1) (v / 256) _ (by omega), byte_setByte_ne _ _ _ _ (by omega)]

theorem readLE_writeLE : ∀ (k off v : Nat) (s : S),
    (∀ i, off ≤ i → i < off + k → valid (S := S) i) → readLE (writeLE s off k v) off k = v % 256 ^ k
  | 0, _, v, _, _ => by simp [readLE, Nat.mod_one]
  | k + 1, off, v, s, h => by
    simp only [writeLE, readLE]
    rw [byte_writeLE_out off k (off + 1) _ _ (by omega),
      byte_setByte_self _ _ _ (h off (Nat.le_refl _) (by omega)),
      readLE_writeLE k (off + 1) (v / 256) _ fun i h1 h2 => h i (by omega) (by omega)]
    simp only [UInt8.toNat_ofNat']
    rw [show (256 : Nat) ^ (k + 1) = 256 * 256 ^ k by rw [Nat.pow_succ, Nat.mul_comm], Nat.mod_mul]

theorem readLE_writeLE_disjoint (s : S) (off k v off' k' : Nat)
    (h : off' + k' ≤ off ∨ off + k ≤ off') :
    readLE (writeLE s off k v) off' k' = readLE s off' k' :=
  readLE_congr _ _ k' off' fun i h1 h2 => byte_writeLE_out i k off v s (by omega)

end ByteStore

/-- A byte array of fixed length; writes past its end are lost and reads there give `0`. -/
instance {n : Nat} : ByteStore (Fin n → UInt8) where
  valid i := i < n
  byte b i := if h : i < n then b ⟨i, h⟩ else 0
  setByte b i v := fun j => if j.val = i then v else b j
  byte_setByte_self b i v h := by
    have : i < n := h
    simp [this]
  byte_setByte_ne b i j v h := by simp [h]

/-- An unbounded memory. -/
instance : ByteStore (Nat → UInt8) where
  valid _ := True
  byte m i := m i
  setByte m i v := fun j => if j = i then v else m j
  byte_setByte_self m i v _ := by simp
  byte_setByte_ne m i j v h := by simp [h]

theorem ByteStore.readLE_zero {n : Nat} : ∀ (k off : Nat), readLE (fun _ => 0 : Fin n → UInt8) off k = 0
  | 0, _ => rfl
  | k + 1, off => by
    rw [readLE, readLE_zero k (off + 1)]
    simp [byte]

/-- The bytes of a number, lowest first, give it back. -/
theorem ByteStore.readLE_of_bytes {c : Nat → UInt8} : ∀ (n a w : Nat),
    (∀ j, j < n → c (a + j) = UInt8.ofNat (w / 256 ^ j)) → readLE c a n = w % 256 ^ n
  | 0, _, w, _ => by simp [readLE, Nat.mod_one]
  | n + 1, a, w, h => by
    have hfirst := h 0 (Nat.succ_pos n)
    have hrest := readLE_of_bytes n (a + 1) (w / 256) fun j hj => by
      have := h (j + 1) (Nat.succ_lt_succ hj)
      rw [Nat.pow_succ, Nat.mul_comm, ← Nat.div_div_eq_div_mul] at this
      rwa [show a + 1 + j = a + (j + 1) by omega]
    unfold readLE
    rw [hrest]
    have hb : byte c a = UInt8.ofNat w := by
      have hz := hfirst
      rw [Nat.pow_zero, Nat.div_one] at hz
      exact hz
    rw [hb, UInt8.toNat_ofNat', Nat.pow_succ 256 n, Nat.mul_comm (256 ^ n) 256, Nat.mod_mul]
