import Xv6.Proc.Basic
import Xv6.Vmcopyin

/-!
# `copyin` and `copyinstr` against the user page table

`copyin_new` and `copyinstr_new` compare with `p->sz` and then load through the kernel page table.
`walkaddr` and `copyout` ask for `PTE_V` and `PTE_U` in the user page table instead.

* `Coherent.copyin` — with coherent shadow mappings `copyin` succeeds exactly on the ranges below
  `p->sz`, whatever the `PTE_U` bits are.
* `Coherent.copyinstr` — the string that `copyinstr` returns.
* `copyin_access` — the run through the page table against the one byte by byte.
* `copyin_agrees_iff` — the two checks agree exactly when no page without `PTE_U` lies in the range.
-/

namespace Xv6

open Prog

/-- `copyin(pagetable, dst, srcva, len)` in process `p`: the page table it is given is not used. -/
def copyin (p : Proc) (_pagetable srcva len : Nat) : Prog Mem (Option (List UInt8)) :=
  copyinNew p.kpagetable p.sz srcva len

def copyinstr (p : Proc) (_pagetable srcva max : Nat) : Prog Mem (Option (List UInt8)) :=
  copyinstrNew p.kpagetable p.sz srcva max

/-- The byte that user code reads at `va`. -/
def userByte (s : Mem) (p : Proc) (va : Nat) : UInt8 :=
  s.byte (PTE2PA (s.entry p.pagetable (va / PGSIZE)) + va % PGSIZE)

/-- The `n` bytes that user code reads from `va` on. -/
def userBytes (s : Mem) (p : Proc) : Nat → Nat → List UInt8
  | 0, _ => []
  | n + 1, va => userByte s p va :: userBytes s p n (va + 1)

/-- The check of `walkaddr` and `copyout`. -/
def UserMapped (s : Mem) (p : Proc) (v : Nat) : Prop :=
  hasFlag (s.entry p.pagetable v) PTE_V = true ∧ hasFlag (s.entry p.pagetable v) PTE_U = true

/-- `[va, va + n)` lies below `p->sz`, on pages that user code may read. -/
def UserRange (s : Mem) (p : Proc) (va n : Nat) : Prop :=
  va + n ≤ p.sz ∧ ∀ a, va ≤ a → a < va + n → UserMapped s p (a / PGSIZE)

variable {s s' : Mem} {p : Proc}

/-! ## Loads -/

theorem Coherent.page_lt (h : Coherent s p) {va : Nat} (hva : va < p.sz) :
    va / PGSIZE < npages p.sz ∧ va < MAXVA := by
  have hmax : p.sz ≤ MAXVA := Nat.le_trans (Nat.le_of_lt h.size) (by decide)
  rw [npages_eq hmax]
  simp only [PGSIZE]
  omega

/-- Below `p->sz` the kernel reads what user code would read. -/
theorem Coherent.kload (h : Coherent s p) {va : Nat} (hva : va < p.sz) :
    kload p.kpagetable va s = .ok (userByte s p va) s := by
  obtain ⟨hv, hmax⟩ := h.page_lt hva
  have hsh := h.shadow _ hv
  have hent : s.entry p.kpagetable (va / PGSIZE) ≠ 0 := by
    intro h0
    have := hsh.valid
    rw [h0] at this
    exact absurd this (by decide)
  have hlt : ¬ va ≥ MAXVA := by omega
  cases hq : s.leafTable 2 p.kpagetable (va / PGSIZE) with
  | none => exact absurd (Radix.lookup_of_leafTable_none hq) hent
  | some q =>
    have hpte : s.pte q (vpath (va / PGSIZE) 0) = s.entry p.kpagetable (va / PGSIZE) :=
      (Radix.lookup_of_leafTable hq).symm
    have hread := hsh.read.trans (h.mapped _ hv).2
    have hload : wp (Xv6.kload p.kpagetable va) (fun b s' => b = userByte s p va ∧ s' = s)
        (fun _ => False) s := by
      unfold Xv6.kload
      rw [if_neg hlt, wp_bind, wp_walk_false hmax, hq]
      show wp (gets _ >>= _) _ _ s
      rw [wp_bind, wp_gets, hpte, hsh.valid, hread, hsh.user, if_pos (by decide), hsh.page]
      exact ⟨rfl, rfl⟩
    obtain ⟨b, s', hrun, rfl, rfl⟩ := wp_total hload
    exact hrun

theorem Coherent.kloadBytes (h : Coherent s p) : ∀ (n va : Nat), va + n ≤ p.sz →
    kloadBytes p.kpagetable n va s = .ok (userBytes s p n va) s
  | 0, _, _ => rfl
  | n + 1, va, hn => by
    have h1 := h.kload (show va < p.sz by omega)
    have h2 := h.kloadBytes n (va + 1) (by omega)
    unfold Xv6.kloadBytes
    exact bind_ok.2 ⟨_, s, h1, bind_ok.2 ⟨_, s, h2, rfl⟩⟩

/-! ## `copyin` -/

/-- `copyin` succeeds on the ranges below `p->sz`, and only there. -/
theorem Coherent.copyin (h : Coherent s p) {srcva len : Nat} (hsrc : srcva < 2 ^ 64) (hlen : len < 2 ^ 64)
    (hpos : 0 < len) : copyin p p.pagetable srcva len s =
      .ok (if srcva + len ≤ p.sz then some (userBytes s p len srcva) else none) s := by
  have hsz : p.sz < 2 ^ 31 := h.size
  unfold Xv6.copyin copyinNew
  by_cases hr : srcva + len ≤ p.sz
  · rw [if_pos hr, if_neg (by omega), Nat.mod_eq_of_lt (show len < 2 ^ 32 by omega)]
    exact bind_ok.2 ⟨_, s, h.kloadBytes len srcva hr, rfl⟩
  · rw [if_neg hr, if_pos (by omega)]
    rfl

/-! ## `copyinstr` -/

/-- The bytes from `srcva + n` up to the first NUL, if that comes within `fuel` bytes and below
`p->sz`. -/
def userString (s : Mem) (p : Proc) (srcva : Nat) : Nat → Nat → Option (List UInt8)
  | 0, _ => none
  | fuel + 1, n =>
    if srcva + n ≥ p.sz then none
    else if userByte s p (srcva + n) = 0 then some [userByte s p (srcva + n)]
    else (userString s p srcva fuel (n + 1)).map (userByte s p (srcva + n) :: ·)

theorem Coherent.copyinstrLoop (h : Coherent s p) {srcva : Nat} (fuel n : Nat)
    (hn : srcva + n ≤ p.sz) :
    copyinstrLoop p.kpagetable p.sz srcva fuel n s = .ok (userString s p srcva fuel n) s := by
  induction fuel generalizing n with
  | zero => rfl
  | succ fuel ih =>
    have hsz : p.sz < 2 ^ 31 := h.size
    have hmod : (srcva + n) % 2 ^ 64 = srcva + n := Nat.mod_eq_of_lt (by omega)
    unfold Xv6.copyinstrLoop userString
    rw [hmod]
    by_cases hend : srcva + n ≥ p.sz
    · rw [if_pos hend, if_pos hend]
      rfl
    · rw [if_neg hend, if_neg hend]
      refine bind_ok.2 ⟨_, s, h.kload (by omega), ?_⟩
      by_cases hc : userByte s p (srcva + n) = 0
      · rw [if_pos hc, if_pos hc]
        rfl
      · rw [if_neg hc, if_neg hc]
        refine bind_ok.2 ⟨_, s, ih (n + 1) (by omega), ?_⟩
        cases userString s p srcva fuel (n + 1) <;> rfl

theorem Coherent.copyinstr (h : Coherent s p) (srcva max : Nat) :
    copyinstr p p.pagetable srcva max s =
      .ok (if srcva < p.sz then userString s p srcva max 0 else none) s := by
  unfold Xv6.copyinstr copyinstrNew
  by_cases hs : srcva < p.sz
  · rw [if_neg (by omega), if_pos hs]
    exact h.copyinstrLoop max 0 (by omega)
  · rw [if_pos (by omega), if_neg hs]
    rfl

/-- The first NUL at or after `srcva + n`, within `fuel` bytes and below `p->sz`. -/
def NulAt (s : Mem) (p : Proc) (srcva fuel n m : Nat) : Prop :=
  n ≤ m ∧ m < n + fuel ∧ srcva + m < p.sz ∧ userByte s p (srcva + m) = 0 ∧
    ∀ k, n ≤ k → k < m → userByte s p (srcva + k) ≠ 0

/-- `userString` finds the string that ends at the first NUL. -/
theorem userString_eq_some {srcva fuel n : Nat} {cs : List UInt8} :
    userString s p srcva fuel n = some cs ↔
      ∃ m, NulAt s p srcva fuel n m ∧ cs = userBytes s p (m + 1 - n) (srcva + n) := by
  induction fuel generalizing n cs with
  | zero =>
    simp only [userString, reduceCtorEq, false_iff]
    rintro ⟨m, ⟨h1, h2, -⟩, -⟩
    omega
  | succ fuel ih =>
    unfold userString
    by_cases hend : srcva + n ≥ p.sz
    · rw [if_pos hend]
      simp only [reduceCtorEq, false_iff]
      rintro ⟨m, ⟨h1, -, h3, -⟩, -⟩
      omega
    · rw [if_neg hend]
      by_cases hc : userByte s p (srcva + n) = 0
      · rw [if_pos hc]
        constructor
        · rintro h
          cases h
          refine ⟨n, ⟨Nat.le_refl _, by omega, by omega, hc, fun k h1 h2 => by omega⟩, ?_⟩
          rw [show n + 1 - n = 1 by omega]
          rfl
        · rintro ⟨m, ⟨h1, -, -, -, h5⟩, rfl⟩
          obtain rfl : m = n := by
            by_contra hne
            exact h5 n (Nat.le_refl _) (by omega) hc
          rw [show m + 1 - m = 1 by omega]
          rfl
      · rw [if_neg hc]
        constructor
        · intro h
          obtain ⟨ds, hds, rfl⟩ := Option.map_eq_some_iff.1 h
          obtain ⟨m, ⟨h1, h2, h3, h4, h5⟩, rfl⟩ := ih.1 hds
          refine ⟨m, ⟨by omega, by omega, h3, h4, fun k hk1 hk2 => ?_⟩, ?_⟩
          · by_cases hkn : k = n
            · rw [hkn]; exact hc
            · exact h5 k (by omega) hk2
          · rw [show m + 1 - n = (m + 1 - (n + 1)) + 1 by omega]
            rfl
        · rintro ⟨m, ⟨h1, h2, h3, h4, h5⟩, rfl⟩
          have hne : m ≠ n := by rintro rfl; exact hc h4
          refine Option.map_eq_some_iff.2 ⟨_, ih.2 ⟨m, ⟨by omega, by omega, h3, h4, fun k hk1 hk2 =>
            h5 k (by omega) hk2⟩, rfl⟩, ?_⟩
          rw [show m + 1 - n = (m + 1 - (n + 1)) + 1 by omega]
          rfl

/-! ## The two checks compared -/

/-- What `copyin` promises: success exactly on the ranges that `copyout` would accept for reading,
with the bytes that user code reads there. -/
def CopyinAgrees (s : Mem) (p : Proc) (srcva len : Nat) : Prop :=
  ((∃ bs s', copyin p p.pagetable srcva len s = .ok (some bs) s') ↔ UserRange s p srcva len) ∧
    ∀ bs s', copyin p p.pagetable srcva len s = .ok (some bs) s' → bs = userBytes s p len srcva

/-- What `copyinstr` promises: the string up to its NUL lies on pages that user code may read. -/
def CopyinstrAgrees (s : Mem) (p : Proc) (srcva max : Nat) : Prop :=
  ∀ cs s', copyinstr p p.pagetable srcva max s = .ok (some cs) s' →
    ∃ m, NulAt s p srcva max 0 m ∧ cs = userBytes s p (m + 1) srcva ∧ UserRange s p srcva (m + 1)

theorem Coherent.copyin_agrees (h : Coherent s p) {srcva len : Nat} (hsrc : srcva < 2 ^ 64)
    (hlen : len < 2 ^ 64) (hpos : 0 < len) : CopyinAgrees s p srcva len ↔
      (srcva + len ≤ p.sz → ∀ a, srcva ≤ a → a < srcva + len →
        hasFlag (s.entry p.pagetable (a / PGSIZE)) PTE_U = true) := by
  unfold CopyinAgrees
  rw [h.copyin hsrc hlen hpos]
  constructor
  · rintro ⟨h1, -⟩ hr a ha1 ha2
    exact ((h1.1 ⟨_, s, by rw [if_pos hr]⟩).2 a ha1 ha2).2
  · intro hall
    refine ⟨⟨?_, ?_⟩, ?_⟩
    · rintro ⟨bs, s', hok⟩
      by_cases hr : srcva + len ≤ p.sz
      · exact ⟨hr, fun a ha1 ha2 =>
          ⟨(h.mapped _ (h.page_lt (by omega)).1).1, hall hr a ha1 ha2⟩⟩
      · rw [if_neg hr] at hok
        cases hok
    · rintro ⟨hr, -⟩
      exact ⟨_, s, by rw [if_pos hr]⟩
    · intro bs s' hok
      by_cases hr : srcva + len ≤ p.sz
      · rw [if_pos hr] at hok
        cases hok
        rfl
      · rw [if_neg hr] at hok
        cases hok

theorem Coherent.copyinstr_agrees (h : Coherent s p) (srcva max : Nat) : CopyinstrAgrees s p srcva max ↔
    ∀ m, NulAt s p srcva max 0 m → ∀ a, srcva ≤ a → a ≤ srcva + m →
      hasFlag (s.entry p.pagetable (a / PGSIZE)) PTE_U = true := by
  unfold CopyinstrAgrees
  rw [h.copyinstr]
  constructor
  · intro hall m hm a ha1 ha2
    have hs : userString s p srcva max 0 = some (userBytes s p (m + 1) srcva) :=
      userString_eq_some.2 ⟨m, hm, rfl⟩
    have hlt : srcva < p.sz := by have := hm.2.2.1; omega
    obtain ⟨m', hm', heq, hr⟩ := hall _ s (by rw [if_pos hlt, hs])
    have hmm : m' = m := by
      by_contra hne
      rcases Nat.lt_or_gt_of_ne hne with hlt | hgt
      · exact hm.2.2.2.2 m' (Nat.zero_le _) hlt hm'.2.2.2.1
      · exact hm'.2.2.2.2 m (Nat.zero_le _) hgt hm.2.2.2.1
    subst hmm
    exact (hr.2 a ha1 (by omega)).2
  · intro hall cs s' hok
    by_cases hlt : srcva < p.sz
    · rw [if_pos hlt] at hok
      injection hok with hcs
      obtain ⟨m, hm, rfl⟩ := userString_eq_some.1 hcs
      have hend := hm.2.2.1
      exact ⟨m, hm, rfl, by omega, fun a ha1 ha2 =>
        ⟨(h.mapped _ (h.page_lt (by omega)).1).1, hall m hm a ha1 (by omega)⟩⟩
    · rw [if_neg hlt] at hok
      cases hok

/-- **Agreement with the user page table.**  `copyin` and `copyinstr` agree with the check of
`walkaddr` and `copyout` exactly when no page without `PTE_U` lies in a range below `p->sz` that they
are asked to read. -/
theorem copyin_agrees_iff (h : Coherent s p) (srcva len max : Nat) (hsrc : srcva < 2 ^ 64)
    (hlen : len < 2 ^ 64) (hpos : 0 < len) :
    (CopyinAgrees s p srcva len ↔ (srcva + len ≤ p.sz → ∀ a, srcva ≤ a → a < srcva + len →
        hasFlag (s.entry p.pagetable (a / PGSIZE)) PTE_U = true)) ∧
    (CopyinstrAgrees s p srcva max ↔ ∀ m, NulAt s p srcva max 0 m → ∀ a, srcva ≤ a → a ≤ srcva + m →
        hasFlag (s.entry p.pagetable (a / PGSIZE)) PTE_U = true) :=
  ⟨h.copyin_agrees hsrc hlen hpos, h.copyinstr_agrees srcva max⟩

/-! ## The stack guard page -/

/-- The stack of a new image as `exec` builds it, for a program without segments: a guard page, a
stack page, and their shadow. -/
def stackOnly : Prog Mem Proc := do
  match ← uvmcreate, ← uvmcreate with
  | some pagetable, some kpagetable => do
    let sz ← uvmalloc smallImage pagetable 0 (2 * PGSIZE) PTE_W
    uvmclear pagetable (sz - 2 * PGSIZE)
    u2kvmcopy pagetable kpagetable 0 sz
    pure { Proc.zero with pagetable := pagetable, kpagetable := kpagetable, sz := sz }
  | _, _ => hang

def stackOnlyRun : Option (Proc × Mem) :=
  match stackOnly fewPages with
  | .ok p s => some (p, s)
  | _ => none

/-- The guard page, page 0, is mapped but not for the user; the stack page is. -/
theorem stackOnly_pages : (stackOnlyRun.map fun ps => (ps.1.sz,
    ps.2.entry ps.1.pagetable 0, ps.2.entry ps.1.pagetable 1,
    ps.2.entry ps.1.kpagetable 0, ps.2.entry ps.1.kpagetable 1)) =
    some (2 * PGSIZE, leafPte 0x80022000 (PTE_R ||| PTE_W), leafPte 0x80025000 (PTE_R ||| PTE_W ||| PTE_U),
      leafPte 0x80022000 (PTE_R ||| PTE_W), leafPte 0x80025000 (PTE_R ||| PTE_W)) := by
  decide +kernel

theorem stackOnly_coherent : ∃ p s, stackOnlyRun = some (p, s) ∧ Coherent s p ∧ p.sz = 2 * PGSIZE ∧
    hasFlag (s.entry p.pagetable 0) PTE_U = false ∧ hasFlag (s.entry p.pagetable 1) PTE_U = true := by
  obtain ⟨⟨p, s⟩, hrun, heq⟩ := Option.map_eq_some_iff.1 stackOnly_pages
  simp only [Prod.mk.injEq] at heq
  obtain ⟨hsz, h0, h1, hk0, hk1⟩ := heq
  have hn : npages p.sz = 2 := by rw [hsz]; decide
  refine ⟨p, s, hrun, ⟨by rw [hsz]; decide, fun v hv => ?_, fun v hv => ?_⟩, hsz,
    by rw [h0]; decide, by rw [h1]; decide⟩
  · rw [hn] at hv
    obtain rfl | rfl : v = 0 ∨ v = 1 := by omega
    · rw [h0]; decide
    · rw [h1]; decide
  · rw [hn] at hv
    obtain rfl | rfl : v = 0 ∨ v = 1 := by omega
    · rw [h0, hk0]; constructor <;> decide
    · rw [h1, hk1]; constructor <;> decide

/-- On the guard page `copyin` succeeds although user code may not read there. -/
theorem copyin_reads_guard_page : ∃ p s, stackOnlyRun = some (p, s) ∧ Coherent s p ∧
    (∃ bs, copyin p p.pagetable 0 1 s = .ok (some bs) s) ∧ ¬ UserRange s p 0 1 ∧
    ¬ CopyinAgrees s p 0 1 := by
  obtain ⟨p, s, hrun, hc, hsz, hU, -⟩ := stackOnly_coherent
  have hle : 0 + 1 ≤ p.sz := by rw [hsz]; decide
  have hbad : ¬ UserRange s p 0 1 := by
    rintro ⟨-, h⟩
    have := (h 0 (Nat.le_refl _) (by decide)).2
    rw [Nat.zero_div, hU] at this
    cases this
  have hok : copyin p p.pagetable 0 1 s = .ok (some (userBytes s p 1 0)) s := by
    rw [hc.copyin (by decide) (by decide) (by decide), if_pos hle]
  exact ⟨p, s, hrun, hc, ⟨_, hok⟩, hbad, fun ha => hbad (ha.1.1 ⟨_, s, hok⟩)⟩

/-- On the stack page they agree. -/
theorem copyin_agrees_stack_page : ∃ p s, stackOnlyRun = some (p, s) ∧
    CopyinAgrees s p PGSIZE 16 ∧ CopyinstrAgrees s p PGSIZE 16 := by
  obtain ⟨p, s, hrun, hc, hsz, -, hU⟩ := stackOnly_coherent
  have h := copyin_agrees_iff hc PGSIZE 16 16 (by decide) (by decide) (by decide)
  refine ⟨p, s, hrun, h.1.2 fun _ a ha1 ha2 => ?_, h.2.2 fun m hm a ha1 ha2 => ?_⟩
  · rw [show a / PGSIZE = 1 by simp only [PGSIZE] at *; omega]
    exact hU
  · have := hm.2.1
    rw [show a / PGSIZE = 1 by simp only [PGSIZE] at *; omega]
    exact hU

/-! ## Loads -/

theorem userBytes_eq (s : Mem) (p : Proc) : ∀ n va,
    userBytes s p n va = (List.range n).map fun i => userByte s p (va + i)
  | 0, _ => rfl
  | n + 1, va => by
    rw [userBytes, userBytes_eq s p n (va + 1), List.range_succ_eq_map, List.map_cons, List.map_map]
    refine congrArg _ (List.map_congr_left fun i _ => ?_)
    rw [Function.comp_apply, Nat.add_assoc, Nat.add_comm 1]

/-- On a coherent process the loads of `copyin_new` see the user's bytes, so the run through the page
table is the run of `Access.copyinNew`. -/
theorem copyin_access (h : Coherent s p) {srcva len dst : Nat} (hsrc : srcva < 2 ^ 64)
    (hlen : len < 2 ^ 64) (hpos : 0 < len) (hdst : KERNBASE ≤ dst) {a : Access}
    (ha : ∀ x, x < p.sz → a.mem x = userByte s p x) :
    ∃ r a', Access.copyinNew p.sz dst srcva len a = .ok r a' ∧ copyin p p.pagetable srcva len s =
      .ok (if r = 0 then some ((List.range len).map fun i => a'.mem (dst + i)) else none) s := by
  obtain ⟨r, a', hrun, -, -, hiff, hbytes⟩ :=
    wp_total (Access.copyinNew_spec (s := a) (lt_of_lt_of_le h.size (by decide)) hdst hsrc hlen)
  refine ⟨r, a', hrun, ?_⟩
  rw [h.copyin hsrc hlen hpos]
  by_cases h0 : r = 0
  · have hle := (hiff hpos).1 h0
    rw [if_pos h0, if_pos hle, userBytes_eq]
    refine congrArg (fun bs => Res.ok (some bs) s) (List.map_congr_left fun i hi => ?_)
    have hi' := List.mem_range.1 hi
    rw [hbytes h0 i hi', ha _ (by omega)]
  · have hgt : ¬ srcva + len ≤ p.sz := fun hle => h0 ((hiff hpos).2 hle)
    rw [if_neg h0, if_neg hgt]

theorem copyin_access_stack_page : ∃ p s, ∃ r : Int, ∃ a', stackOnlyRun = some (p, s) ∧ copyin p p.pagetable PGSIZE 16 s =
    .ok (if r = 0 then some ((List.range 16).map fun i => Access.mem a' (KERNBASE + i)) else none) s := by
  obtain ⟨p, s, hrun, hc, -⟩ := stackOnly_coherent
  have ha : ∀ x, x < p.sz → (Access.mk (userByte s p) [] []).mem x = userByte s p x := fun _ _ => rfl
  obtain ⟨r, a', -, hcopy⟩ := copyin_access hc (show PGSIZE < 2 ^ 64 by decide)
    (show 16 < 2 ^ 64 by decide) (by decide) (Nat.le_refl KERNBASE) ha
  exact ⟨p, s, r, a', hrun, hcopy⟩

end Xv6
