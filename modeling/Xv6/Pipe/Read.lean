import Xv6.Pipe.Fifo
import Xv6.Vm.Exact

/-!
# What `piperead` takes and what it delivers

`piperead` of `kernel/pipe.c` with the `copyout` of `kernel/vm.c`, on the memory of the reader and the
pipe.  The first loop sleeps; what the pipe looks like when `sleep` returns is up to the others, so the
model is given one pipe for every `sleep`, together with what `killed` says before it.  From the end of
that loop on the reader holds `pi->lock`.

* `pipereadLoop_spec` — the copy loop: it stops at the count, at the end of the pipe, or at a byte that
  `copyout` refuses, which has then been taken out of the pipe.
* `piperead_exact_iff` — what is taken is what is delivered, exactly when `copyout` refuses no byte.
-/

namespace Xv6

open Prog

/-- How the first loop ends. -/
inductive PipeWait where
  /-- The reader is still in `sleep`. -/
  | asleep
  | killed (pi : PipeData)
  | ready (pi : PipeData)

/-- The loop `while(pi->nread == pi->nwrite && pi->writeopen)`. -/
def pipeWait (pi : PipeData) : List (Bool × PipeData) → PipeWait
  | [] => if pi.nread = pi.nwrite ∧ pi.writeopen then .asleep else .ready pi
  | (killed, pi') :: world =>
    if pi.nread = pi.nwrite ∧ pi.writeopen then
      if killed then .killed pi else pipeWait pi' world
    else .ready pi

/-- The loop over `i`, with `n` iterations to go. -/
def pipereadLoop (pagetable addr : Nat) : Nat → Nat → Prog (Mem × PipeData) Nat
  | 0, i => pure i
  | n + 1, i => do
    let pi ← gets Prod.snd
    if pi.nread = pi.nwrite then pure i
    else do
      modify fun s => (s.1, pi.advance)
      let r ← zoom Prod.fst (fun m s => (m, s.2)) (copyout pagetable ((addr + i) % 2 ^ 64) [pi.front])
      if r = -1 then pure i else pipereadLoop pagetable addr n (i + 1)

def piperead (pagetable addr : Nat) (n : Int) (world : List (Bool × PipeData)) : Prog (Mem × PipeData) Int := do
  let s ← get
  match pipeWait s.2 world with
  | .asleep => hang
  | .killed pi => do
    modify fun s => (s.1, pi)
    pure (-1)
  | .ready pi => do
    modify fun s => (s.1, pi)
    let i ← pipereadLoop pagetable addr n.toNat 0
    pure i

/-! ## The pipe from the reader's side -/

/-- The counters are `uint`s. -/
structure PipeData.Bounded (pi : PipeData) : Prop where
  nread : pi.nread < 2 ^ 32
  nwrite : pi.nwrite < 2 ^ 32

/-- `k` bytes further on. -/
def PipeData.skip (pi : PipeData) (k : Nat) : PipeData := { pi with nread := (pi.nread + k) % 2 ^ 32 }

variable {pi : PipeData}

theorem PipeData.Bounded.skip (h : pi.Bounded) (k : Nat) : (pi.skip k).Bounded :=
  ⟨Nat.mod_lt _ (by decide), h.nwrite⟩

theorem PipeData.skip_zero (h : pi.Bounded) : pi.skip 0 = pi := by
  rw [PipeData.skip, Nat.add_zero, Nat.mod_eq_of_lt h.nread]

theorem PipeData.advance_skip (pi : PipeData) (k : Nat) : (pi.skip k).advance = pi.skip (k + 1) := by
  simp [PipeData.skip, PipeData.advance, Nat.add_assoc]

theorem PipeData.ring_eq_nil_iff (h : pi.Bounded) : pi.ring = [] ↔ pi.nread = pi.nwrite :=
  Ring.contents_eq_nil_iff h.nread h.nwrite

theorem PipeData.ring_cons (h : pi.Bounded) (hne : pi.nread ≠ pi.nwrite) :
    pi.ring = pi.front :: pi.advance.ring := by
  unfold PipeData.ring PipeData.front PipeData.advance
  rw [Ring.contents_cons h.nread h.nwrite hne, Nat.mod_eq_of_lt h.nread]

theorem PipeData.ring_length_lt (pi : PipeData) : pi.ring.length < 2 ^ 32 := by
  unfold PipeData.ring
  rw [Ring.contents_length]
  exact Nat.mod_lt _ (by decide)

/-- Skipping bytes drops them. -/
theorem PipeData.ring_skip (h : pi.Bounded) : ∀ {k : Nat}, k ≤ pi.ring.length → (pi.skip k).ring = pi.ring.drop k
  | 0, _ => by rw [PipeData.skip_zero h, List.drop_zero]
  | k + 1, hk => by
    have ih := PipeData.ring_skip h (Nat.le_of_succ_le hk)
    have hne : (pi.skip k).nread ≠ (pi.skip k).nwrite := by
      rw [Ne, ← PipeData.ring_eq_nil_iff (h.skip k), ih, List.drop_eq_nil_iff]
      omega
    rw [PipeData.ring_cons (h.skip k) hne, PipeData.advance_skip, List.drop_eq_getElem_cons hk] at ih
    exact (List.cons.inj ih).2

theorem PipeData.skip_empty_iff (h : pi.Bounded) {k : Nat} (hk : k ≤ pi.ring.length) :
    (pi.skip k).nread = (pi.skip k).nwrite ↔ k = pi.ring.length := by
  rw [← PipeData.ring_eq_nil_iff (h.skip k), PipeData.ring_skip h hk, List.drop_eq_nil_iff]
  omega

theorem PipeData.front_skip (h : pi.Bounded) {k : Nat} (hk : k < pi.ring.length) :
    (pi.skip k).front = pi.ring.getD k 0 := by
  have hne : (pi.skip k).nread ≠ (pi.skip k).nwrite := by
    rw [Ne, PipeData.skip_empty_iff h (Nat.le_of_lt hk)]
    omega
  have hcons := PipeData.ring_cons (h.skip k) hne
  rw [PipeData.ring_skip h (Nat.le_of_lt hk), List.drop_eq_getElem_cons hk] at hcons
  rw [← (List.cons.inj hcons).1]
  simp [List.getD, hk]

theorem pipeWait_bounded : ∀ {world : List (Bool × PipeData)} {pi pi₀ : PipeData}, pi.Bounded →
    (∀ w ∈ world, w.2.Bounded) → pipeWait pi world = .ready pi₀ → pi₀.Bounded
  | [], pi, pi₀, h, _, hw => by
    unfold pipeWait at hw
    split at hw
    · cases hw
    · cases hw
      exact h
  | (killed, pi') :: world, pi, pi₀, h, hall, hw => by
    unfold pipeWait at hw
    split at hw
    · split at hw
      · cases hw
      · exact pipeWait_bounded (hall _ List.mem_cons_self) (fun w hmem => hall w (List.mem_cons_of_mem _ hmem)) hw
    · cases hw
      exact h

/-! ## The copy loop -/

/-- `i` bytes of the pipe have been stored at `addr`, and `taken` have been taken out of the pipe. -/
structure Delivered (s : Mem) (e : Nat → Nat) (addr : Nat) (pi : PipeData) (i taken : Nat) (s' : Mem × PipeData) :
    Prop where
  le : i ≤ pi.ring.length
  stored : CopiedOut s e addr pi.ring i s'.1
  pipe : s'.2 = pi.skip taken

/-- How the copy loop ends, with `i` bytes copied. -/
inductive ReadRun (s : Mem) (e : Nat → Nat) (addr n : Nat) (pi : PipeData) (i : Nat) (s' : Mem × PipeData) : Prop
  | done (end_ : i = min n pi.ring.length) (run : Delivered s e addr pi i i s')
  | refused (lt : i < min n pi.ring.length) (bad : ¬ WritableAt e (addr + i)) (run : Delivered s e addr pi i (i + 1) s')

section loop

variable {s : Mem} {t addr : Nat} {T : Multiset Nat} {e : Nat → Nat}

/-- No address wraps around before `copyout` has refused it. -/
theorem CopiedOut.addr_mod {s₁ : Mem} {i : Nat} {src : List UInt8} (h : CopiedOut s e addr src i s₁)
    (haddr : addr < 2 ^ 64) (hi : i < 2 ^ 32) : (addr + i) % 2 ^ 64 = addr + i := by
  cases i with
  | zero => exact Nat.mod_eq_of_lt haddr
  | succ i =>
    have hfirst := (h.writable 0 (Nat.succ_pos i)).1
    simp only [MAXVA] at hfirst
    omega

theorem pipereadLoop_spec (ht : PageTable s t T e) (ho : OwnPages T e) (haddr : addr < 2 ^ 64) (hpi : pi.Bounded)
    {n : Nat} (m : Nat) {i : Nat} {s₁ : Mem × PipeData} (hn : i + m = n) (h : Delivered s e addr pi i i s₁) :
    wp (pipereadLoop t addr m i) (fun i s' => ReadRun s e addr n pi i s') (fun _ => False) s₁ := by
  induction m generalizing i s₁ with
  | zero =>
    have := h.le
    exact .done (by omega) h
  | succ m ih =>
    obtain ⟨s₁, pi₁⟩ := s₁
    obtain ⟨hle, hout, hpipe⟩ := h
    obtain rfl : pi₁ = pi.skip i := hpipe
    unfold pipereadLoop
    rw [wp_bind, wp_gets]
    by_cases hempty : (pi.skip i).nread = (pi.skip i).nwrite
    · rw [if_pos hempty]
      rw [PipeData.skip_empty_iff hpi hle] at hempty
      exact .done (by omega) ⟨hle, hout, rfl⟩
    · rw [if_neg hempty, wp_bind, wp_modify, wp_bind, wp_zoom]
      rw [PipeData.skip_empty_iff hpi hle] at hempty
      have hlt : i < pi.ring.length := by omega
      have hadd := hout.addr_mod haddr (Nat.lt_trans hlt pi.ring_length_lt)
      rw [hadd, PipeData.front_skip hpi hlt, PipeData.advance_skip]
      apply wp_mono (copyout_exact (hout.pageTable ho ht) ho) _ fun _ hf => hf
      rintro r s₂ ⟨k, hcopy, ⟨rfl, rfl⟩ | ⟨rfl, hk, -, hbad⟩⟩
      · rw [if_neg (by decide)]
        exact ih (by omega) ⟨hlt, hout.snoc ho hcopy, rfl⟩
      · obtain rfl : k = 0 := Nat.lt_one_iff.1 hk
        rw [if_pos rfl]
        refine .refused (by omega) hbad ⟨hle, ?_, rfl⟩
        -- `copyout` has written nothing
        have hsame : s₂ = s₁ := by
          have hpage : s₂.page = s₁.page := by
            funext x o
            exact hcopy.frame x o fun j hj => absurd hj (Nat.not_lt_zero j)
          cases s₁
          cases s₂
          simp only [Mem.mk.injEq]
          exact ⟨hpage, hcopy.freelist⟩
        exact hsame ▸ hout

end loop

/-! ## The call -/

section call

variable {s : Mem} {t addr : Nat} {n : Int} {T : Multiset Nat} {e : Nat → Nat} {world : List (Bool × PipeData)}

/-- A read of a pipe that is ready returns a count `i`, has stored `i` bytes and taken `i` bytes; only
such a read returns a count. -/
def PipereadExact (s : Mem) (t : Nat) (e : Nat → Nat) (addr : Nat) (n : Int) (pi : PipeData)
    (world : List (Bool × PipeData)) : Prop :=
  (∀ pi₀, pipeWait pi world = .ready pi₀ → ∃ (i : Nat) (s' : Mem × PipeData),
    piperead t addr n world (s, pi) = .ok i s' ∧ Delivered s e addr pi₀ i i s') ∧
  ∀ r s', piperead t addr n world (s, pi) = .ok r s' → 0 ≤ r → ∃ pi₀, pipeWait pi world = .ready pi₀

/-- A reader that finds the pipe ready returns. -/
theorem piperead_ready {pi₀ : PipeData} (hw : pipeWait pi world = .ready pi₀) (ht : PageTable s t T e)
    (ho : OwnPages T e) (haddr : addr < 2 ^ 64) (hpi : pi₀.Bounded) : ∃ (i : Nat) (s' : Mem × PipeData),
    piperead t addr n world (s, pi) = .ok i s' ∧ ReadRun s e addr n.toNat pi₀ i s' := by
  have hstart : Delivered s e addr pi₀ 0 0 (s, pi₀) :=
    ⟨Nat.zero_le _, CopiedOut.zero s e addr _, (PipeData.skip_zero hpi).symm⟩
  have hrun : wp (piperead t addr n world) (fun r s' => ∃ i : Nat, r = i ∧ ReadRun s e addr n.toNat pi₀ i s')
      (fun _ => False) (s, pi) := by
    unfold piperead
    rw [wp_bind, wp_get, hw, wp_bind, wp_modify]
    apply wp_seq (pipereadLoop_spec ht ho haddr hpi n.toNat (Nat.zero_add _) hstart)
    intro i s' hread
    exact ⟨i, rfl, hread⟩
  obtain ⟨r, s', hok, i, rfl, hread⟩ := wp_total hrun
  exact ⟨i, s', hok, hread⟩

theorem piperead_count {r : Int} {s' : Mem × PipeData} (hrun : piperead t addr n world (s, pi) = .ok r s')
    (hr : 0 ≤ r) : ∃ pi₀, pipeWait pi world = .ready pi₀ := by
  unfold piperead at hrun
  rw [bind_ok] at hrun
  obtain ⟨_, _, hget, hrun⟩ := hrun
  cases hget
  cases hw : pipeWait pi world with
  | asleep =>
    rw [hw] at hrun
    cases hrun
  | killed pi₀ =>
    rw [hw] at hrun
    cases hrun
    exact absurd hr (by decide)
  | ready pi₀ => exact ⟨pi₀, rfl⟩

/-- A byte that `copyout` refuses is in neither place. -/
theorem piperead_loses {pi₀ : PipeData} (hw : pipeWait pi world = .ready pi₀) (ht : PageTable s t T e)
    (ho : OwnPages T e) (haddr : addr < 2 ^ 64) (hpi : pi₀.Bounded) {i : Nat} (hi : i < n.toNat)
    (hring : i < pi₀.ring.length) (hbad : ¬ WritableAt e (addr + i)) : ¬ PipereadExact s t e addr n pi world := by
  intro hexact
  obtain ⟨j, s', hrun, hdel⟩ := hexact.1 pi₀ hw
  obtain ⟨k, s'', hrun', hread⟩ := piperead_ready hw ht ho haddr hpi
  rw [hrun] at hrun'
  obtain ⟨hjk, rfl⟩ := (Res.ok.injEq .. ▸ hrun' : (j : Int) = k ∧ s' = s'')
  obtain rfl : j = k := Int.ofNat.inj hjk
  cases hread with
  | done hend run => exact hbad (run.stored.writable i (by omega))
  | refused lt _ run =>
    have hpipe : pi₀.skip j = pi₀.skip (j + 1) := hdel.pipe.symm.trans run.pipe
    have hcount : (pi₀.nread + j) % 2 ^ 32 = (pi₀.nread + (j + 1)) % 2 ^ 32 := congrArg PipeData.nread hpipe
    omega

/-- **`piperead` consumes only what it delivers**, exactly when every byte that it comes to has a
writable place at the user's address. -/
theorem piperead_exact_iff (ht : PageTable s t T e) (ho : OwnPages T e) (haddr : addr < 2 ^ 64) (hpi : pi.Bounded)
    (hworld : ∀ w ∈ world, w.2.Bounded) : PipereadExact s t e addr n pi world ↔
      ∀ pi₀, pipeWait pi world = .ready pi₀ → ∀ i, i < n.toNat → i < pi₀.ring.length → WritableAt e (addr + i) := by
  constructor
  · intro hexact pi₀ hw i hi hring
    by_contra hbad
    exact piperead_loses hw ht ho haddr (pipeWait_bounded hpi hworld hw) hi hring hbad hexact
  · intro hall
    refine ⟨fun pi₀ hw => ?_, fun r s' hrun hr => piperead_count hrun hr⟩
    obtain ⟨i, s', hrun, hread⟩ := piperead_ready hw ht ho haddr (pipeWait_bounded hpi hworld hw)
    refine ⟨i, s', hrun, ?_⟩
    cases hread with
    | done _ run => exact run
    | refused lt bad _ => exact absurd (hall pi₀ hw i (by omega) (by omega)) bad

end call

/-- A pipe with one byte in it. -/
def onePipe : PipeData where
  readopen := true
  writeopen := true
  data := fun _ => 7
  nread := 0
  nwrite := 1

theorem onePipe_bounded : onePipe.Bounded := ⟨by decide, by decide⟩

theorem piperead_onePage : ∃ s T e, PageTable s 0x80020000 T e ∧ Writable (e 0) ∧
    PipereadExact s 0x80020000 e 100 1 onePipe [] := by
  obtain ⟨s, T, e, h, -, ho, hw, -⟩ := onePage_own
  refine ⟨s, T, e, h, hw, ?_⟩
  apply (piperead_exact_iff h ho (by decide) onePipe_bounded (by simp)).2
  intro pi₀ hready i hi _
  obtain rfl : i = 0 := Nat.lt_one_iff.1 hi
  exact ⟨by decide, hw⟩

/-- A read into an address that is not mapped returns 0, and the byte is gone. -/
theorem piperead_loses_byte : ∃ s T e, PageTable s 0x80020000 T e ∧ OwnPages T e ∧
    ¬ PipereadExact s 0x80020000 e 4096 1 onePipe [] := by
  obtain ⟨s, T, e, h, -, ho, -, hzero⟩ := onePage_own
  have hready : pipeWait onePipe [] = .ready onePipe := rfl
  refine ⟨s, T, e, h, ho, ?_⟩
  apply piperead_loses hready h ho (by decide) onePipe_bounded (i := 0) (by decide) (by decide)
  intro hw
  have hV : hasFlag (e 1) PTE_V = true := hw.2.1
  rw [hzero 1 (by decide)] at hV
  cases hV

end Xv6
