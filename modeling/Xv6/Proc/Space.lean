import Xv6.Proc.KernelTable

/-!
# Address spaces

What the two page tables of a process say, without the tables themselves.

* `Space` — the size of a process, the leaf entries of its user page table and of its kernel page table.
* `Space.WF` — the layout: user memory from 0 to `sz`, the three fixed pages, and the kernel's own entries
  from `USER_TOP` on.
* `Space.Step` — everything that `growproc` and `exec` can do to an address space.
* `Space.Step.wf` — the layout is kept.
* `Space.Sbrk` — the part of it that `growproc` does, for a given sum of the old size and the amount.
* `Space.Coherent` — the kernel page table shadows the user page table below `sz`.
-/

namespace Xv6

open Function

/-! ## Entries of the kernel page table -/

def kstackVpn (i : Nat) : Nat := KSTACK i / PGSIZE

theorem kstackVpn_eq {i : Nat} (hi : i < NPROC) : kstackVpn i = 2 ^ 26 - 4 - 2 * i := by
  unfold kstackVpn KSTACK TRAMPOLINE
  simp only [MAXVA, PGSIZE, NPROC] at *
  omega

/-- What `allocproc` leaves in the kernel page table of process `i`. -/
def stackEntries (K : KernelImage) (i kstack : Nat) : Nat → Nat :=
  Function.update (kernelEntries K) (kstackVpn i) (leafPte kstack (PTE_R ||| PTE_W))

theorem stackEntries_readableLeaf (K : KernelImage) (i kstack u : Nat) :
    ReadableLeaf (stackEntries K i kstack u) := by
  unfold stackEntries
  by_cases hu : u = kstackVpn i
  · rw [hu, update_self]
    exact readableLeaf_leafPte (by decide)
  · rw [update_of_ne hu]
    exact kernelEntries_readableLeaf K u

/-- The flags that `clearU` leaves alone. -/
theorem hasFlag_clearU {w fl : Nat} (h : fl &&& (2 ^ 64 - 1 - PTE_U) = fl) :
    hasFlag (clearU w) fl = hasFlag w fl := by
  unfold hasFlag clearU
  rw [Nat.and_assoc, Nat.and_comm (2 ^ 64 - 1 - PTE_U) fl, h]

theorem PTE_FLAGS_shadowPte (w : Nat) : PTE_FLAGS (shadowPte w) = clearU (PTE_FLAGS w) := by
  unfold shadowPte
  exact PTE_FLAGS_or (Nat.lt_of_le_of_lt (clearU_le _) (PTE_FLAGS_lt w))

theorem hasFlag_shadowPte {w fl : Nat} (hlt : fl < 2 ^ 10) (h : fl &&& (2 ^ 64 - 1 - PTE_U) = fl) :
    hasFlag (shadowPte w) fl = hasFlag w fl := by
  rw [hasFlag_mod hlt, PTE_FLAGS_shadowPte, hasFlag_clearU h, ← hasFlag_mod hlt]

theorem PTE2PA_shadowPte (w : Nat) : PTE2PA (shadowPte w) = PTE2PA w := by
  unfold shadowPte
  rw [or_eq_add (Nat.lt_of_le_of_lt (clearU_le _) (PTE_FLAGS_lt w))]
  have hflags : clearU (PTE_FLAGS w) < 2 ^ 10 := Nat.lt_of_le_of_lt (clearU_le _) (PTE_FLAGS_lt w)
  generalize clearU (PTE_FLAGS w) = f at hflags
  unfold PTE2PA PA2PTE
  omega

/-- A shadow entry maps the same page with the same permissions, but not for the user. -/
theorem sameMapping_shadowPte {w : Nat} (hV : hasFlag w PTE_V = true) : SameMapping (shadowPte w) w where
  valid := (hasFlag_shadowPte (by decide) (by decide)).trans hV
  page := PTE2PA_shadowPte w
  read := hasFlag_shadowPte (by decide) (by decide)
  write := hasFlag_shadowPte (by decide) (by decide)
  exec := hasFlag_shadowPte (by decide) (by decide)
  user := by
    rw [hasFlag_mod (by decide), PTE_FLAGS_shadowPte]
    unfold hasFlag clearU
    rw [Nat.and_assoc, show (2 ^ 64 - 1 - PTE_U) &&& PTE_U = 0 by decide, Nat.and_zero]
    rfl

/-- The first `n` entries can be read. -/
def Readable (e : Nat → Nat) (n : Nat) : Prop :=
  ∀ v, v < n → hasFlag (e v) PTE_V = true ∧ hasFlag (e v) PTE_R = true

theorem Readable.shadow_leaf {e : Nat → Nat} {n v : Nat} (h : Readable e n) (hv : v < n) :
    ReadableLeaf (shadowPte (e v)) :=
  fun _ => (hasFlag_shadowPte (by decide) (by decide)).trans (h v hv).2

theorem not_writable_leafPte {pa perm : Nat} (hperm : perm < 2 ^ 10)
    (h : hasFlag (perm ||| PTE_V) PTE_U = false ∨ hasFlag (perm ||| PTE_V) PTE_W = false) :
    ¬ Writable (leafPte pa perm) := by
  rintro ⟨-, hU, hW⟩
  rw [hasFlag_mod (by decide), PTE_FLAGS_leafPte hperm] at hU hW
  rcases h with h | h
  · exact nomatch h.symm.trans hU
  · exact nomatch h.symm.trans hW

/-- None of the fixed pages can be written by the user. -/
theorem fixedEntries_not_writable {K : KernelImage} {tf us v : Nat} :
    ¬ Writable (fixedEntries K tf us v) := by
  unfold fixedEntries trapEntries
  by_cases h1 : v = usyscallVpn
  · rw [h1, update_self]
    exact not_writable_leafPte (by decide) (by decide)
  · rw [update_of_ne h1]
    by_cases h2 : v = trapframeVpn
    · rw [h2, update_self]
      exact not_writable_leafPte (by decide) (by decide)
    · rw [update_of_ne h2]
      by_cases h3 : v = trampolineVpn
      · rw [h3, update_self]
        exact not_writable_leafPte (by decide) (by decide)
      · rw [update_of_ne h3]
        exact fun h => nomatch h.1

/-! ## Address spaces -/

/-- The number of pages below `USER_TOP`. -/
def USER_PAGES : Nat := USER_TOP / PGSIZE

structure Space where
  sz : Nat
  user : Nat → Nat
  kern : Nat → Nat
  trapframe : Nat
  usyscall : Nat
  kstack : Nat

namespace Space

/-- The layout of the address space of process `i`. -/
structure WF (K : KernelImage) (i : Nat) (a : Space) : Prop where
  map : UserMap a.user (fixedEntries K a.trapframe a.usyscall) (npages a.sz)
  size : a.sz ≤ USER_TOP - PGSIZE
  high : ∀ v, USER_PAGES ≤ v → v < vpns → a.kern v = stackEntries K i a.kstack v
  leaf : ∀ v, v < vpns → ReadableLeaf (a.kern v)

/-- The kernel page table with `e` shadowed on the first `n` pages. -/
def shadow (a : Space) (e : Nat → Nat) (n : Nat) : Space := { a with kern := shadowRange a.kern e 0 n }

/-- What one call can do to an address space. -/
inductive Step (K : KernelImage) : Space → Space → Prop where
  | refl (a : Space) : Step K a a
  /-- `growproc` with a positive amount. -/
  | grow {a : Space} {sz : Nat} {e : Nat → Nat} : a.sz ≤ sz → sz ≤ USER_TOP - PGSIZE →
      Fresh a.user (npages a.sz) (npages sz) (fun _ => PTE_R ||| PTE_U ||| PTE_W) e →
      Step K a { a with sz := sz, user := e, kern := shadowRange a.kern e (npages a.sz) (npages sz) }
  /-- `growproc` with a negative amount. -/
  | shrink {a : Space} {sz : Nat} : sz ≤ a.sz →
      Step K a { a with sz := sz, user := clearRange a.user (npages sz) (npages a.sz) }
  /-- `exec` that succeeds. -/
  | exec {a : Space} {sz : Nat} {e : Nat → Nat} : sz ≤ USER_TOP - PGSIZE →
      UserMap e (fixedEntries K a.trapframe a.usyscall) (npages sz) →
      Step K a { a with sz := sz, user := e, kern := shadowRange a.kern e 0 (npages sz) }
  /-- `exec` that fails after it has shadowed the new image. -/
  | execFail {a : Space} {sz : Nat} {e : Nat → Nat} : sz ≤ USER_TOP - PGSIZE → Readable e (npages sz) →
      Step K a (a.shadow e (npages sz))

variable {K : KernelImage} {i : Nat} {a b : Space}

theorem npages_lt_user {sz : Nat} (h : sz ≤ USER_TOP - PGSIZE) : npages sz < USER_PAGES := by
  have hmax : sz ≤ MAXVA := Nat.le_trans h (by decide)
  rw [npages_eq hmax]
  simp only [USER_PAGES, USER_TOP, PGSIZE] at *
  omega

theorem WF.npages_lt (h : a.WF K i) : npages a.sz < USER_PAGES := npages_lt_user h.size

/-- Below the fixed pages there is nothing but user memory. -/
theorem WF.user_eq_zero (h : a.WF K i) {v : Nat} (hv : npages a.sz ≤ v) (hlt : v < usyscallVpn) :
    a.user v = 0 := by
  have hvp : v < vpns := Nat.lt_of_lt_of_le hlt (by decide)
  rw [h.map.high v hv hvp]
  exact fixedEntries_low hlt

/-- The shadowed range stays below `USER_TOP` and holds readable entries. -/
theorem WF.shadowRange_high (h : a.WF K i) {e : Nat → Nat} {n m : Nat} (hm : m ≤ USER_PAGES) (v : Nat)
    (hv : USER_PAGES ≤ v) (hlt : v < vpns) : shadowRange a.kern e n m v = stackEntries K i a.kstack v := by
  unfold shadowRange
  rw [if_neg (by omega)]
  exact h.high v hv hlt

theorem WF.shadowRange_leaf (h : a.WF K i) {e : Nat → Nat} {n m : Nat} (he : Readable e m) (v : Nat)
    (hlt : v < vpns) : ReadableLeaf (shadowRange a.kern e n m v) := by
  unfold shadowRange
  split
  · rename_i hv
    exact he.shadow_leaf hv.2
  · exact h.leaf v hlt

theorem Fresh.userMap {e e' f : Nat → Nat} {n m : Nat} {perm : Nat → Nat} (h : UserMap e f n) (hnm : n ≤ m)
    (hperm : ∀ u, n ≤ u → u < m → hasFlag (perm u) PTE_R = true) (hf : Fresh e n m perm e') :
    UserMap e' f m where
  low v hv := by
    by_cases hlow : v < n
    · rw [hf.out v (by omega)]
      exact h.low v hlow
    · obtain ⟨p, -, hp⟩ := hf.new v (by omega) hv
      rw [hp]
      constructor
      · unfold leafPte
        rw [hasFlag_or]
        simp [show hasFlag PTE_V PTE_V = true by decide]
      · unfold leafPte
        rw [hasFlag_or, hasFlag_or, hperm v (by omega) hv]
        simp
  high v hv hlt := by
    rw [hf.out v (by omega)]
    exact h.high v (by omega) hlt

/-- **The layout is kept.** -/
theorem Step.wf (h : Step K a b) (ha : a.WF K i) : b.WF K i := by
  cases h with
  | refl => exact ha
  | @grow sz e hle hsz hfresh =>
    have hn : npages a.sz ≤ npages sz := npages_mono (Nat.le_trans hsz (by decide)) hle
    have hmap : UserMap e _ (npages sz) := Fresh.userMap ha.map hn (fun _ _ _ => by decide) hfresh
    have hlt := npages_lt_user hsz
    exact ⟨hmap, hsz, ha.shadowRange_high (Nat.le_of_lt hlt), ha.shadowRange_leaf hmap.low⟩
  | @shrink sz hle =>
    have hmax : a.sz ≤ MAXVA := Nat.le_trans ha.size (by decide)
    have hn : npages sz ≤ npages a.sz := npages_mono hmax hle
    have hlt := ha.npages_lt
    refine ⟨⟨?_, ?_⟩, Nat.le_trans hle ha.size, ha.high, ha.leaf⟩
    · intro v hv
      dsimp only [clearRange] at hv ⊢
      rw [if_neg (by omega)]
      exact ha.map.low v (Nat.lt_of_lt_of_le hv hn)
    · intro v hv hvp
      dsimp only [clearRange] at hv ⊢
      split
      · rename_i hr
        have hlow : v < usyscallVpn := Nat.lt_trans hr.2 (Nat.lt_of_lt_of_le hlt (by decide))
        exact (fixedEntries_low hlow).symm
      · rename_i hr
        exact ha.map.high v (by omega) hvp
  | @exec sz e hsz hmap =>
    have hlt := npages_lt_user hsz
    exact ⟨hmap, hsz, ha.shadowRange_high (Nat.le_of_lt hlt), ha.shadowRange_leaf hmap.low⟩
  | @execFail sz e hsz hread =>
    have hlt := npages_lt_user hsz
    exact ⟨ha.map, ha.size, ha.shadowRange_high (Nat.le_of_lt hlt), ha.shadowRange_leaf hread⟩

/-- What `growproc` does when the sum of the old size and the amount is `newsz`. -/
inductive Sbrk (newsz : Nat) (a : Space) : Space → Prop where
  | same : Sbrk newsz a a
  | grow {sz : Nat} {e : Nat → Nat} : sz = newsz ∨ sz = a.sz → a.sz ≤ sz → sz ≤ USER_TOP - PGSIZE →
      Fresh a.user (npages a.sz) (npages sz) (fun _ => PTE_R ||| PTE_U ||| PTE_W) e →
      Sbrk newsz a { a with sz := sz, user := e, kern := shadowRange a.kern e (npages a.sz) (npages sz) }
  | shrink : newsz ≤ a.sz → Sbrk newsz a { a with sz := newsz, user := clearRange a.user (npages newsz) (npages a.sz) }

/-- `uvmdealloc` to `newsz`. -/
def shrunk (a : Space) (newsz : Nat) : Space :=
  if newsz ≥ a.sz then a else { a with sz := newsz, user := clearRange a.user (npages newsz) (npages a.sz) }

theorem sbrk_shrunk (a : Space) (newsz : Nat) : Sbrk newsz a (a.shrunk newsz) := by
  unfold shrunk
  split
  · exact .same
  · rename_i h
    exact .shrink (Nat.le_of_not_le h)

theorem Sbrk.step {newsz : Nat} (h : Sbrk newsz a b) : Step K a b := by
  cases h with
  | same => exact .refl a
  | grow _ hle hsz hfresh => exact .grow hle hsz hfresh
  | shrink hle => exact .shrink hle

/-- Each page of user memory has its shadow. -/
def Coherent (a : Space) : Prop := ∀ v, v < npages a.sz → SameMapping (a.kern v) (a.user v)

/-- Shadowing a whole image makes the tables coherent. -/
theorem coherent_shadowRange {sz : Nat} {e kern : Nat → Nat} (he : Readable e (npages sz))
    (ha : a.sz = sz) (hu : a.user = e) (hk : a.kern = shadowRange kern e 0 (npages sz)) : a.Coherent := by
  intro v hv
  rw [ha] at hv
  rw [hu, hk]
  unfold shadowRange
  rw [if_pos ⟨Nat.zero_le v, hv⟩]
  exact sameMapping_shadowPte (he v hv).1

theorem Sbrk.coherent {newsz : Nat} (h : Sbrk newsz a b) (hwf : a.WF K i) (ha : a.Coherent) : b.Coherent := by
  have hb : b.WF K i := (h.step (K := K)).wf hwf
  cases h with
  | same => exact ha
  | @grow sz e _ hle hsz hfresh =>
    intro v hv
    show SameMapping (shadowRange a.kern e (npages a.sz) (npages sz) v) (e v)
    unfold shadowRange
    split
    · exact sameMapping_shadowPte (hb.map.low v hv).1
    · rename_i hout
      have hv' : v < npages a.sz := by
        have hv : v < npages sz := hv
        omega
      rw [hfresh.out v hout]
      exact ha v hv'
  | shrink hle =>
    intro v hv
    have hv : v < npages newsz := hv
    have hv' : v < npages a.sz :=
      Nat.lt_of_lt_of_le hv (npages_mono (Nat.le_trans hwf.size (by decide)) hle)
    show SameMapping (a.kern v) (clearRange a.user (npages newsz) (npages a.sz) v)
    unfold clearRange
    rw [if_neg (by omega)]
    exact ha v hv'

end Space

end Xv6
