import Xv6.Sched.Threads

/-!
# Page tables and stacks of the CPUs

* `CpuRegs` — the page table in `satp` and the stack of a CPU by where it is.
* `Regs` — the registers of every CPU, and the pages of every process.
* `cpu_registers` — a process is on one CPU at most, a CPU that runs it has its kernel page table, and no CPU
  uses the page table or the stack that `freeproc` frees.

The pages that `freeproc` frees when `allocproc` or `fork` fails are fresh from `kalloc`.
-/

namespace Xv6.Sched

open Function

variable {κ : Type}

def CpuRegs (s : Sys κ) (c : κ) : Mode → Prop
  | .scan _ => s.satp c = .kernel ∧ s.stack c = .boot
  | .chosen _ => s.satp c = .kernel ∧ s.stack c = .boot
  | .loaded i => s.satp c = .table (s.kpagetable i) ∧ s.stack c = .boot
  | .run i =>
    (s.base i ≠ .user → s.satp c = .table (s.kpagetable i) ∧ s.stack c = .page (s.kstack i)) ∧
    (s.base i = .user → s.satp c = .user i ∧ s.stack c = .user ∧
      s.kernelSatp i = .table (s.kpagetable i) ∧ s.kernelSp i = .page (s.kstack i))
  | .back i => s.satp c = .table (s.kpagetable i) ∧ s.stack c = .boot
  | .left _ => s.satp c = .kernel ∧ s.stack c = .boot

structure Regs (N : Nat) (s : Sys κ) : Prop where
  cpu : ∀ c, CpuRegs s c (s.mode c)
  user : ∀ i, s.base i = .user → s.top i = .run
  /-- A process that does not run has its stack in `p->context`. -/
  saved : ∀ i, s.state i ≠ .UNUSED → (∀ c, s.mode c ≠ .run i) → s.contextSp i = .page (s.kstack i)
  table : ∀ i, s.state i ≠ .UNUSED → s.kpagetable i ≠ none
  stack : ∀ i, s.state i ≠ .UNUSED → s.kstack i ≠ none
  tableInj : ∀ i j, s.kpagetable i = s.kpagetable j → s.kpagetable i ≠ none → i = j
  stackInj : ∀ i j, s.kstack i = s.kstack j → s.kstack i ≠ none → i = j
  slots : ∀ i, N ≤ i → s.kpagetable i = none ∧ s.kstack i = none

/-- The fields that `Regs` reads, the calls of the processes apart. -/
structure SameRegs (s s' : Sys κ) : Prop where
  mode : s'.mode = s.mode
  satp : s'.satp = s.satp
  stack : s'.stack = s.stack
  kpagetable : s'.kpagetable = s.kpagetable
  kstack : s'.kstack = s.kstack
  contextSp : s'.contextSp = s.contextSp
  kernelSatp : s'.kernelSatp = s.kernelSatp
  kernelSp : s'.kernelSp = s.kernelSp

structure SameProcs (s s' : Sys κ) : Prop where
  base : s'.base = s.base
  top : s'.top = s.top
  kpagetable : s'.kpagetable = s.kpagetable
  kstack : s'.kstack = s.kstack
  contextSp : s'.contextSp = s.contextSp
  kernelSatp : s'.kernelSatp = s.kernelSatp
  kernelSp : s'.kernelSp = s.kernelSp

theorem Regs.frame {N : Nat} {s s' : Sys κ} (h : Regs N s) (hr : SameRegs s s')
    (hbase : ∀ i, s'.base i = .user ↔ s.base i = .user) (htop : ∀ i, s.base i = .user → s'.top i = s.top i)
    (hst : ∀ i, s'.state i ≠ .UNUSED → s.state i ≠ .UNUSED) : Regs N s' where
  cpu c := by
    have hc := h.cpu c
    rw [hr.mode]
    cases hm : s.mode c with
    | run i =>
      rw [hm] at hc
      simpa only [CpuRegs, hr.satp, hr.stack, hr.kpagetable, hr.kstack, hr.kernelSatp, hr.kernelSp, ne_eq, hbase i] using hc
    | _ =>
      rw [hm] at hc
      simpa only [CpuRegs, hr.satp, hr.stack, hr.kpagetable] using hc
  user i hi := (htop i ((hbase i).1 hi)).trans (h.user i ((hbase i).1 hi))
  saved i hi hm := by
    rw [hr.contextSp, hr.kstack]
    rw [hr.mode] at hm
    exact h.saved i (hst i hi) hm
  table i hi := by
    rw [hr.kpagetable]
    exact h.table i (hst i hi)
  stack i hi := by
    rw [hr.kstack]
    exact h.stack i (hst i hi)
  tableInj := by
    rw [hr.kpagetable]
    exact h.tableInj
  stackInj := by
    rw [hr.kstack]
    exact h.stackInj
  slots := by
    rw [hr.kpagetable, hr.kstack]
    exact h.slots

/-- A step of CPU `c` that changes its registers. -/
theorem Regs.cpuStep {N : Nat} {s s' : Sys κ} {c : κ} (h : Regs N s) (hkpt : s'.kpagetable = s.kpagetable)
    (hkst : s'.kstack = s.kstack)
    (hc : ∀ c', c' ≠ c → s'.mode c' = s.mode c' ∧ s'.satp c' = s.satp c' ∧ s'.stack c' = s.stack c')
    (hi : ∀ c' i, c' ≠ c → s.mode c' = .run i → (s'.base i = .user ↔ s.base i = .user) ∧
      s'.kernelSatp i = s.kernelSatp i ∧ s'.kernelSp i = s.kernelSp i)
    (hcpu : CpuRegs s' c (s'.mode c)) (huser : ∀ i, s'.base i = .user → s'.top i = .run)
    (hsaved : ∀ i, s'.state i ≠ .UNUSED → (∀ c, s'.mode c ≠ .run i) → s'.contextSp i = .page (s.kstack i))
    (hst : ∀ i, s'.state i ≠ .UNUSED → s.state i ≠ .UNUSED) : Regs N s' where
  cpu c' := by
    by_cases hcc : c' = c
    · exact hcc ▸ hcpu
    · obtain ⟨hm', hsatp, hstack⟩ := hc c' hcc
      have hold := h.cpu c'
      rw [hm']
      cases hm : s.mode c' with
      | run i =>
        obtain ⟨hb, hks, hksp⟩ := hi c' i hcc hm
        rw [hm] at hold
        simpa only [CpuRegs, hsatp, hstack, hkpt, hkst, hks, hksp, ne_eq, hb] using hold
      | _ =>
        rw [hm] at hold
        simpa only [CpuRegs, hsatp, hstack, hkpt] using hold
  user := huser
  saved i hi' hm := by
    rw [hkst]
    exact hsaved i hi' hm
  table i hi' := by
    rw [hkpt]
    exact h.table i (hst i hi')
  stack i hi' := by
    rw [hkst]
    exact h.stack i (hst i hi')
  tableInj := by
    rw [hkpt]
    exact h.tableInj
  stackInj := by
    rw [hkst]
    exact h.stackInj
  slots := by
    rw [hkpt, hkst]
    exact h.slots

theorem inj_update {f : Nat → Option Nat} {j : Nat} {a : Option Nat} (h : ∀ i k, f i = f k → f i ≠ none → i = k)
    (ha : a = none ∨ ∀ i, f i ≠ a) (i k : Nat) (heq : update f j a i = update f j a k)
    (hne : update f j a i ≠ none) : i = k := by
  by_cases hi : i = j <;> by_cases hk : k = j
  · rw [hi, hk]
  · subst hi
    rw [update_self, update_of_ne hk] at heq
    rw [update_self] at hne
    exact absurd heq.symm (ha.resolve_left hne k)
  · subst hk
    rw [update_self, update_of_ne hi] at heq
    rw [update_of_ne hi] at hne
    exact absurd heq (ha.resolve_left (heq ▸ hne) i)
  · rw [update_of_ne hi, update_of_ne hk] at heq
    rw [update_of_ne hi] at hne
    exact h i k heq hne

/-- A slot that is on no CPU gets the pages `a` and `b`, or loses its pages. -/
theorem Regs.renew {N : Nat} {s s' : Sys κ} {j : Nat} {a b : Option Nat} (h : Regs N s) (hj : j < N)
    (hoff : ∀ c, (s.mode c).slot ≠ some j) (hmode : s'.mode = s.mode) (hsatp : s'.satp = s.satp)
    (hstack : s'.stack = s.stack) (hkpt : s'.kpagetable = update s.kpagetable j a)
    (hkst : s'.kstack = update s.kstack j b) (ha : a = none ∨ ∀ i, s.kpagetable i ≠ a)
    (hb : b = none ∨ ∀ i, s.kstack i ≠ b)
    (hk : ∀ k, k ≠ j → s'.contextSp k = s.contextSp k ∧ s'.kernelSatp k = s.kernelSatp k ∧
      s'.kernelSp k = s.kernelSp k ∧ (s'.base k = .user ↔ s.base k = .user) ∧ s'.top k = s.top k ∧
      (s'.state k ≠ .UNUSED → s.state k ≠ .UNUSED))
    (hbase : s'.base j ≠ .user)
    (hst : s'.state j ≠ .UNUSED → a ≠ none ∧ b ≠ none ∧ s'.contextSp j = .page b) : Regs N s' where
  cpu c := by
    have hold := h.cpu c
    have hslot := hoff c
    rw [hmode]
    cases hm : s.mode c with
    | run i | loaded i | back i =>
      rw [hm] at hold hslot
      have hij : i ≠ j := fun heq => hslot (by rw [heq]; rfl)
      obtain ⟨-, hks, hksp, hu, -⟩ := hk i hij
      simpa only [CpuRegs, hsatp, hstack, hkpt, hkst, hks, hksp, ne_eq, hu, update_of_ne hij] using hold
    | _ =>
      rw [hm] at hold
      simpa only [CpuRegs, hsatp, hstack] using hold
  user i hi := by
    have hij : i ≠ j := by
      rintro rfl
      exact hbase hi
    obtain ⟨-, -, -, hu, ht, -⟩ := hk i hij
    exact ht.trans (h.user i (hu.1 hi))
  saved i hi hm := by
    rw [hkst]
    by_cases hij : i = j
    · subst hij
      rw [update_self]
      exact (hst hi).2.2
    · rw [update_of_ne hij, (hk i hij).1]
      rw [hmode] at hm
      exact h.saved i ((hk i hij).2.2.2.2.2 hi) hm
  table i hi := by
    rw [hkpt]
    by_cases hij : i = j
    · subst hij
      rw [update_self]
      exact (hst hi).1
    · rw [update_of_ne hij]
      exact h.table i ((hk i hij).2.2.2.2.2 hi)
  stack i hi := by
    rw [hkst]
    by_cases hij : i = j
    · subst hij
      rw [update_self]
      exact (hst hi).2.1
    · rw [update_of_ne hij]
      exact h.stack i ((hk i hij).2.2.2.2.2 hi)
  tableInj := by
    rw [hkpt]
    exact inj_update h.tableInj ha
  stackInj := by
    rw [hkst]
    exact inj_update h.stackInj hb
  slots i hi := by
    rw [hkpt, hkst, update_of_ne (by omega), update_of_ne (by omega)]
    exact h.slots i hi

/-! ## Steps -/

section steps

variable [DecidableEq κ] {N : Nat} {s : Sys κ} {c : κ} {i : Nat}

omit [DecidableEq κ] in
theorem ne_unused_update {f : Nat → ProcState} {j : Nat} {st st' : ProcState} (hj : f j = st') (hst' : st' ≠ .UNUSED)
    (k : Nat) (h : update f j st k ≠ .UNUSED) : f k ≠ .UNUSED := by
  by_cases hk : k = j
  · rw [hk, hj]
    exact hst'
  · rwa [update_of_ne hk] at h

omit [DecidableEq κ] in
theorem user_update {f : Nat → Base} {b b' : Base} (hf : f i = b) (hb : b ≠ .user) (hb' : b' ≠ .user) (k : Nat) :
    update f i b' k = .user ↔ f k = .user := by
  by_cases hk : k = i
  · subst hk
    rw [update_self, hf]
    exact iff_of_false hb' hb
  · rw [update_of_ne hk]

omit [DecidableEq κ] in
/-- A process that is not in user space goes on. -/
theorem Regs.goOn {s' : Sys κ} {b' : Base} {t' : Top} (h : Regs N s) (hb : s.base i ≠ .user) (hr : SameRegs s s')
    (hbase : s'.base = update s.base i b') (hb' : b' ≠ .user) (htop : s'.top = update s.top i t')
    (hst : ∀ k, s'.state k ≠ .UNUSED → s.state k ≠ .UNUSED) : Regs N s' := by
  refine h.frame hr (fun k => ?_) (fun k hk => ?_) hst
  · rw [hbase]
    exact user_update rfl hb hb' k
  · rw [htop, update_of_ne]
    rintro rfl
    exact hb hk

/-- CPU `c` moves in its scheduler, or from there to a process. -/
theorem Regs.setMode {s' : Sys κ} {m m' : Mode} (h : Regs N s) (hp : SameProcs s s') (hm : s.mode c = m)
    (hne : ∀ k, m ≠ .run k) (hmode : s'.mode = update s.mode c m')
    (hregs : ∀ c', c' ≠ c → s'.satp c' = s.satp c' ∧ s'.stack c' = s.stack c') (hcpu : CpuRegs s' c m')
    (hst : ∀ k, s'.state k ≠ .UNUSED → s.state k ≠ .UNUSED) : Regs N s' := by
  refine h.cpuStep (c := c) hp.kpagetable hp.kstack (fun c' hc => ⟨?_, hregs c' hc⟩) (fun c' k _ _ => ?_) ?_ ?_
    (fun k hk hm' => ?_) hst
  · rw [hmode, update_of_ne hc]
  · rw [hp.base, hp.kernelSatp, hp.kernelSp]
    exact ⟨.rfl, rfl, rfl⟩
  · rwa [hmode, update_self]
  · rw [hp.base, hp.top]
    exact h.user
  · rw [hp.contextSp]
    refine h.saved k (hst k hk) fun c' hc' => ?_
    by_cases hcc : c' = c
    · subst hcc
      exact hne k (hm.symm.trans hc')
    · refine hm' c' ?_
      rw [hmode, update_of_ne hcc]
      exact hc'

theorem regs_sched {a : SchedAct} (hs : SysInv s) (h : Regs N s) (he : a.enabled N s c) : Regs N (a.next N s c) := by
  have hcpu := h.cpu c
  cases a with
  | skip i | leave i =>
    rw [he.1] at hcpu
    exact h.setMode ⟨rfl, rfl, rfl, rfl, rfl, rfl, rfl⟩ he.1 (by simp) rfl (fun _ _ => ⟨rfl, rfl⟩) hcpu fun _ hk => hk
  | choose i =>
    rw [he.1] at hcpu
    exact h.setMode ⟨rfl, rfl, rfl, rfl, rfl, rfl, rfl⟩ he.1 (by simp) rfl (fun _ _ => ⟨rfl, rfl⟩) hcpu
      (ne_unused_update he.2.2.2.2 (by decide))
  | load i =>
    have hm : s.mode c = .chosen i := he
    rw [hm] at hcpu
    exact h.setMode ⟨rfl, rfl, rfl, rfl, rfl, rfl, rfl⟩ hm (by simp) rfl
      (fun _ hc => ⟨update_of_ne hc _ _, rfl⟩) ⟨update_self .., hcpu.2⟩ fun _ hk => hk
  | switch i =>
    have hm : s.mode c = .loaded i := he
    rw [hm] at hcpu
    have hok := hs.core.cpu c
    rw [Core.CpuOk, show s.core.mode c = .loaded i from he] at hok
    refine h.setMode ⟨rfl, rfl, rfl, rfl, rfl, rfl, rfl⟩ hm (by simp) rfl
      (fun _ hc => ⟨rfl, update_of_ne hc _ _⟩) ⟨fun _ => ⟨hcpu.1, ?_⟩, fun hu => ?_⟩ fun _ hk => hk
    · show update s.stack c _ c = _
      rw [update_self]
      refine h.saved i (by rw [show s.state i = _ from hok.2]; decide) fun c' hc' => ?_
      have hcc : c' = c := hs.core.uniq c' c i (by show (s.mode c').slot = _; rw [hc']; rfl)
        (by show (s.mode c).slot = _; rw [hm]; rfl)
      rw [hcc, hm] at hc'
      cases hc'
    · have hp : (s.top i).parked = true := hok.1.parked
      rw [h.user i hu] at hp
      cases hp
  | kvminithart i =>
    have hm : s.mode c = .back i := he
    rw [hm] at hcpu
    exact h.setMode ⟨rfl, rfl, rfl, rfl, rfl, rfl, rfl⟩ hm (by simp) rfl
      (fun _ hc => ⟨update_of_ne hc _ _, rfl⟩) ⟨update_self .., hcpu.2⟩ fun _ hk => hk

theorem regs_irq {a : IrqAct} (h : Regs N s) (he : a.enabled N s c) : Regs N (a.next s c) := by
  cases a with
  | rouse ch j =>
    exact h.frame ⟨rfl, rfl, rfl, rfl, rfl, rfl, rfl, rfl⟩ (fun _ => .rfl) (fun _ _ => rfl)
      (ne_unused_update he.2.2.2.2.1 (by decide))
  | _ => exact { h with }

theorem regs_thread {a : ThreadAct} (hs : SysInv s) (h : Regs N s) (he : a.enabled N s c i) : Regs N (a.next s c i) := by
  have hcpu := h.cpu c
  -- a process that is not where user space is entered stays where it is
  have same : ∀ {s' : Sys κ} {t t' : Top}, s.top i = t → t ≠ .run → SameRegs s s' → s'.base = s.base →
      s'.top = update s.top i t' → (∀ k, s'.state k ≠ .UNUSED → s.state k ≠ .UNUSED) → Regs N s' := by
    intro s' t t' ht hne hr hb htop hst
    have hbi : s.base i ≠ .user := fun hu => hne (ht.symm.trans (h.user i hu))
    exact h.goOn hbi hr (hb.trans (update_eq_self ..).symm) hbi htop hst
  have hgen : (s.base i).generic = true → s.base i ≠ .user := by
    intro hg hu
    rw [hu] at hg
    cases hg
  have apart : ∀ {c' k}, c' ≠ c → s.mode c = .run i → s.mode c' = .run k → k ≠ i := by
    rintro c' k hc hm hm' rfl
    exact hc (hs.uniq hm' hm)
  cases a with
  | trap =>
    have hbase : (ThreadAct.trap.next s c i).base = update s.base i .kernel := rfl
    rw [he.1] at hcpu
    obtain ⟨-, -, hks, hksp⟩ := hcpu.2 he.2.2.1
    refine h.cpuStep (c := c) rfl rfl (fun c' hc => ⟨rfl, update_of_ne hc _ _, update_of_ne hc _ _⟩)
      (fun c' k hc hk => ⟨?_, rfl, rfl⟩) ?_ (fun k hk => ?_) h.saved fun _ hk => hk
    · rw [hbase, update_of_ne (apart hc he.1 hk)]
    · show CpuRegs _ c (s.mode c)
      rw [he.1]
      refine ⟨fun _ => ⟨(update_self ..).trans hks, (update_self ..).trans hksp⟩, fun hu => ?_⟩
      rw [hbase, update_self] at hu
      cases hu
    · have hki : k ≠ i := by
        rintro rfl
        rw [hbase, update_self] at hk
        cases hk
      rw [hbase, update_of_ne hki] at hk
      exact h.user k hk
  | usertrapret =>
    have hbase : (ThreadAct.usertrapret.next s c i).base = update s.base i .user := rfl
    rw [he.1] at hcpu
    obtain ⟨hsatp, hstack⟩ := hcpu.1 (by simp [he.2.2.1])
    refine h.cpuStep (c := c) rfl rfl (fun c' hc => ⟨rfl, update_of_ne hc _ _, update_of_ne hc _ _⟩)
      (fun c' k hc hk => ?_) ?_ (fun k hk => ?_) h.saved fun _ hk => hk
    · have hki := apart hc he.1 hk
      rw [hbase, update_of_ne hki]
      exact ⟨.rfl, update_of_ne hki _ _, update_of_ne hki _ _⟩
    · show CpuRegs _ c (s.mode c)
      rw [he.1]
      refine ⟨fun hu => absurd (update_self ..) hu, fun _ => ⟨update_self .., update_self .., ?_, ?_⟩⟩
      · exact (update_self ..).trans hsatp
      · exact update_self ..
    · by_cases hki : k = i
      · rw [hki]
        exact he.2.2.2
      · rw [hbase, update_of_ne hki] at hk
        exact h.user k hk
  | acquire n | release n | setFile fd f | chdir d | setkilled => exact { h with }
  | wakeup n =>
    exact h.goOn (hgen he.2) ⟨rfl, rfl, rfl, rfl, rfl, rfl, rfl, rfl⟩ (update_eq_self ..).symm (hgen he.2) rfl
      fun _ hk => hk
  | pass ch j | drop ch lk | rise ch lk | regain ch lk | resume t | forkret =>
    exact same he.1.2.2.2 (by simp) ⟨rfl, rfl, rfl, rfl, rfl, rfl, rfl, rfl⟩ rfl rfl fun _ hk => hk
  | rouse ch j =>
    exact same he.1.2.2.2 (by simp) ⟨rfl, rfl, rfl, rfl, rfl, rfl, rfl, rfl⟩ rfl rfl
      (ne_unused_update he.2.2.2.2.1 (by decide))
  | done ch => exact same he.2.2.2 (by simp) ⟨rfl, rfl, rfl, rfl, rfl, rfl, rfl, rfl⟩ rfl rfl fun _ hk => hk
  | sleep n m =>
    exact h.goOn (hgen he.2.1) ⟨rfl, rfl, rfl, rfl, rfl, rfl, rfl, rfl⟩ (update_eq_self ..).symm (hgen he.2.1) rfl
      fun _ hk => hk
  | doze ch lk =>
    have hst : s.state i = .RUNNING := (hs.core.at_runOk he.at).1
    exact same he.2.2.2 (by simp) ⟨rfl, rfl, rfl, rfl, rfl, rfl, rfl, rfl⟩ rfl rfl (ne_unused_update hst (by decide))
  | swtch t =>
    have hbi : s.base i ≠ .user := fun hu => by
      have ht := h.user i hu
      rw [he.1.2.2.2] at ht
      cases ht
    rw [he.1.1] at hcpu
    obtain ⟨hsatp, hstack⟩ := hcpu.1 hbi
    refine h.cpuStep (c := c) rfl rfl (fun c' hc => ⟨update_of_ne hc _ _, rfl, update_of_ne hc _ _⟩)
      (fun _ _ _ _ => ⟨.rfl, rfl, rfl⟩) ?_ (fun k hk => ?_) (fun k hk hm => ?_) fun _ hk => hk
    · show CpuRegs _ c (update s.mode c _ c)
      rw [update_self]
      exact ⟨hsatp, update_self ..⟩
    · show update s.top i t k = .run
      rw [update_of_ne]
      · exact h.user k hk
      · rintro rfl
        exact hbi hk
    · show update s.contextSp i _ k = _
      by_cases hki : k = i
      · rw [hki, update_self, hstack]
      · rw [update_of_ne hki]
        refine h.saved k hk fun c' hc' => ?_
        by_cases hcc : c' = c
        · rw [hcc, he.1.1] at hc'
          cases hc'
          exact hki rfl
        · exact hm c' ((update_of_ne hcc _ _).trans hc')
  | yield t =>
    have hst : s.state i = .RUNNING := hs.core.running_of_preemptible he.1.at he.2.1
    exact h.goOn he.2.2.1 ⟨rfl, rfl, rfl, rfl, rfl, rfl, rfl, rfl⟩ (update_eq_self ..).symm he.2.2.1 rfl
      (ne_unused_update hst (by decide))

omit [DecidableEq κ] in
theorem Regs.runs {s' : Sys κ} {b b' : Base} {t : Top} (h : Regs N s) (hr : s.Runs c i b t) (hb : b ≠ .user)
    (hb' : b' ≠ .user) (hsame : SameRegs s s') (hbase : s'.base = update s.base i b') (htop : s'.top = s.top)
    (hst : ∀ k, s'.state k ≠ .UNUSED → s.state k ≠ .UNUSED) : Regs N s' :=
  h.goOn (by rwa [hr.2.2.1]) hsame hbase hb' (htop.trans (update_eq_self ..).symm) hst

omit [DecidableEq κ] in
theorem regs_kill {a : KillAct} (h : Regs N s) (he : a.enabled N s c i) : Regs N (a.next s i) := by
  cases a with
  | call pid | fail pid =>
    exact h.runs he (by simp) (by simp) ⟨rfl, rfl, rfl, rfl, rfl, rfl, rfl, rfl⟩ rfl rfl fun _ hk => hk
  | miss pid j => exact h.runs he.1 (by simp) (by simp) ⟨rfl, rfl, rfl, rfl, rfl, rfl, rfl, rfl⟩ rfl rfl fun _ hk => hk
  | hit pid j =>
    rw [KillAct.next, Sys.killSlot_eq]
    refine h.runs he.1 (by simp) (by simp) ⟨rfl, rfl, rfl, rfl, rfl, rfl, rfl, rfl⟩ rfl rfl fun k hk => ?_
    have hk' : (if s.state j = .SLEEPING then update s.state j .RUNNABLE else s.state) k ≠ .UNUSED := hk
    split at hk'
    · rename_i hst
      exact ne_unused_update hst (by decide) k hk'
    · exact hk'

theorem regs_exit {a : ExitAct} (hs : SysInv s) (h : Regs N s) (he : a.enabled N s c i) : Regs N (a.next s c i) := by
  cases a with
  | call st | close st fd | lock st | keep st j =>
    exact h.runs he.1 (by simp) (by simp) ⟨rfl, rfl, rfl, rfl, rfl, rfl, rfl, rfl⟩ rfl rfl fun _ hk => hk
  | closed st | iput st =>
    exact h.runs he (by simp) (by simp) ⟨rfl, rfl, rfl, rfl, rfl, rfl, rfl, rfl⟩ rfl rfl fun _ hk => hk
  | give st j => exact h.goOn (by simp [he.1.2.2.1]) ⟨rfl, rfl, rfl, rfl, rfl, rfl, rfl, rfl⟩ rfl (by simp) rfl fun _ hk => hk
  | given st => exact h.goOn (by simp [he.2.2.1]) ⟨rfl, rfl, rfl, rfl, rfl, rfl, rfl, rfl⟩ rfl (by simp) rfl fun _ hk => hk
  | zombie st =>
    have hst : s.state i = .RUNNING := (hs.core.at_runOk he.1.at).1
    exact h.goOn (by simp [he.1.2.2.1]) ⟨rfl, rfl, rfl, rfl, rfl, rfl, rfl, rfl⟩ rfl (by simp) rfl (ne_unused_update hst (by decide))

omit [DecidableEq κ] in
theorem FreshPages.fresh {a b : Nat} (h : Regs N s) (hf : s.FreshPages N a b) (k : Nat) :
    s.kpagetable k ≠ some a ∧ s.kstack k ≠ some b := by
  by_cases hk : k < N
  · exact hf k hk
  · obtain ⟨hkpt, hkst⟩ := h.slots k (not_lt.1 hk)
    rw [hkpt, hkst]
    simp

omit [DecidableEq κ] in
/-- A process frees slot `j`, which is on no CPU. -/
theorem Regs.freeproc {s' : Sys κ} {b : Base} {j : Nat} (hs : SysInv s) (h : Regs N s) (hr : s.Runs c i b .run)
    (hb : b ≠ .user) (hj : j < N) (hl : s.lock (.proc j) = none) (hst : s.state j = .UNUSED ∨ s.state j = .ZOMBIE)
    (hbase : s'.base = update s.base i .kernel ∨
      s'.base = update (update s.base j .kernel) i .kernel)
    (htop : ∀ k, k ≠ j → s'.top k = s.top k) (hmode : s'.mode = s.mode) (hsatp : s'.satp = s.satp)
    (hstack : s'.stack = s.stack) (hkpt : s'.kpagetable = update s.kpagetable j none)
    (hkst : s'.kstack = update s.kstack j none) (hsp : ∀ k, k ≠ j → s'.contextSp k = s.contextSp k)
    (hks : s'.kernelSatp = s.kernelSatp) (hksp : s'.kernelSp = s.kernelSp)
    (hstate : s'.state = update s.state j .UNUSED) : Regs N s' := by
  obtain ⟨hoff, hpark⟩ := hs.core.off_of_free hl (by
    show s.state j ≠ _
    rcases hst with hst | hst <;> simp [hst])
  have hnot : s.base j ≠ .user := by
    intro hu
    have hp : (s.top j).parked = true := hpark
    rw [h.user j hu] at hp
    cases hp
  have hij : i ≠ j := by
    rintro rfl
    exact hoff c hr.at.slot
  have hbase' : ∀ k, s'.base k = .user ↔ s.base k = .user := by
    intro k
    rcases hbase with hbase | hbase
    · rw [hbase]
      exact user_update hr.2.2.1 hb (by simp) k
    · rw [hbase, user_update ((update_of_ne hij _ _).trans hr.2.2.1) hb (by simp) k]
      exact user_update rfl hnot (by simp) k
  refine h.renew (a := none) (b := none) hj hoff hmode hsatp hstack hkpt hkst (Or.inl rfl) (Or.inl rfl)
    (fun k hk => ⟨hsp k hk, by rw [hks], by rw [hksp], hbase' k, htop k hk, ?_⟩) (fun hu => hnot ((hbase' j).1 hu)) ?_
  · rw [hstate, update_of_ne hk]
    exact id
  · rw [hstate, update_self]
    exact fun hne => absurd rfl hne

theorem regs_wait {a : WaitAct} (hs : SysInv s) (h : Regs N s) (he : a.enabled N s c i) : Regs N (a.next s c i) := by
  cases a with
  | call | other j hk | alive j hk | bad j hk | childless | killed | notKilled =>
    exact h.runs he.1 (by simp) (by simp) ⟨rfl, rfl, rfl, rfl, rfl, rfl, rfl, rfl⟩ rfl rfl fun _ hk => hk
  | reap j hk =>
    exact h.freeproc hs he.1 (by simp) he.2.1 he.2.2.2.1 (Or.inr he.2.2.2.2.1) (Or.inl rfl) (fun _ _ => rfl) rfl rfl rfl
      rfl rfl (fun _ _ => rfl) rfl rfl rfl
  | sleep => exact h.goOn (by simp [he.1.2.2.1]) ⟨rfl, rfl, rfl, rfl, rfl, rfl, rfl, rfl⟩ rfl (by simp) rfl fun _ hk => hk

theorem regs_fork {a : ForkAct} (hs : SysInv s) (h : Regs N s) (he : a.enabled N s c i) : Regs N (a.next s c i) := by
  cases a with
  | call | full => exact h.runs he (by simp) (by simp) ⟨rfl, rfl, rfl, rfl, rfl, rfl, rfl, rfl⟩ rfl rfl fun _ hk => hk
  | used j | link j =>
    exact h.runs he.1 (by simp) (by simp) ⟨rfl, rfl, rfl, rfl, rfl, rfl, rfl, rfl⟩ rfl rfl fun _ hk => hk
  | fail j | leak j =>
    exact h.freeproc hs he.1 (by simp) he.2.1 he.2.2.1 (Or.inl he.2.2.2) (Or.inl rfl) (fun _ _ => rfl) rfl rfl rfl
      rfl rfl (fun _ _ => rfl) rfl rfl rfl
  | nomem j a b =>
    exact h.freeproc hs he.1 (by simp) he.2.1 he.2.2.1 (Or.inl he.2.2.2.1) (Or.inr rfl)
      (fun k hk => update_of_ne hk _ _) rfl rfl rfl (update_idem ..) (update_idem ..)
      (fun k hk => update_of_ne hk _ _) rfl rfl (update_idem ..)
  | copy j a b =>
    obtain ⟨hr, hj, hl, hst, hf⟩ := he
    have hoff := (hs.core.off_of_free hl (by show s.state j ≠ _; simp [hst])).1
    have hij : i ≠ j := by
      rintro rfl
      exact hoff c hr.at.slot
    have hi : update s.base j .kernel i = .alloc j := (update_of_ne hij _ _).trans hr.2.2.1
    refine h.renew (j := j) (a := some a) (b := some b) hj hoff rfl rfl rfl rfl rfl
      (Or.inr fun k => (FreshPages.fresh h hf k).1) (Or.inr fun k => (FreshPages.fresh h hf k).2)
      (fun k hk => ⟨update_of_ne hk _ _, update_of_ne hk _ _, update_of_ne hk _ _, ?_,
        update_of_ne hk _ _, ?_⟩) ?_ (fun _ => ⟨by simp, by simp, update_self ..⟩)
    · refine (user_update hi (by simp) (by simp) k).trans ?_
      rw [update_of_ne hk]
    · show update s.state j .USED k ≠ .UNUSED → _
      rw [update_of_ne hk]
      exact id
    · rw [ne_eq, show (ForkAct.copy j a b).next s c i = _ from rfl]
      intro hu
      have hu' := (user_update hi (by simp) (by simp) j).1 hu
      rw [update_self] at hu'
      cases hu'
  | start j =>
    have hused := hs.child.used i j (by rw [he.1.2.2.1]; rfl)
    exact h.runs he.1 (by simp) (by simp) ⟨rfl, rfl, rfl, rfl, rfl, rfl, rfl, rfl⟩ rfl rfl (ne_unused_update hused (by decide))

/-- **One step keeps the registers.** -/
theorem Regs.step {a : Act κ} (hs : SysInv s) (h : Regs N s) (he : a.enabled N s) : Regs N (a.next N s) := by
  cases a with
  | sched c a => exact regs_sched hs h he
  | irq c a => exact regs_irq h he
  | thread c i a => exact regs_thread hs h he
  | kill c i a => exact regs_kill h he
  | fork c i a => exact regs_fork hs h he
  | exit c i a => exact regs_exit hs h he
  | wait c i a => exact regs_wait hs h he

omit [DecidableEq κ] in
theorem Regs.of_init (h : Init N s) : Regs N s := by
  obtain ⟨a, b, ha, hb, hsp⟩ := h.table
  have hrest : ∀ i, i ≠ initproc → s.state i = .UNUSED ∧ s.kpagetable i = none ∧ s.kstack i = none := fun i hi =>
    ⟨(h.unused i hi).1, (h.unused i hi).2.2.2.2⟩
  have hinit : ∀ i, s.state i ≠ .UNUSED → i = initproc := fun i hi => by
    by_contra hne
    exact hi (hrest i hne).1
  refine ⟨fun c => ?_, fun i hi => ?_, fun i hi _ => ?_, fun i hi => ?_, fun i hi => ?_, fun i j heq hne => ?_,
    fun i j heq hne => ?_, fun i hi => ?_⟩
  · obtain ⟨⟨k, hk⟩, -, -, hsatp, hstack, -⟩ := h.cpus c
    rw [hk]
    exact ⟨hsatp, hstack⟩
  · rw [(h.at_rest i).2.2] at hi
    cases hi
  · rw [hinit i hi, hsp, hb]
  · simp [hinit i hi, ha]
  · simp [hinit i hi, hb]
  · have hi : i = initproc := by_contra fun hi => hne (hrest i hi).2.1
    have hj : j = initproc := by_contra fun hj => hne (heq.trans (hrest j hj).2.1)
    rw [hi, hj]
  · have hi : i = initproc := by_contra fun hi => hne (hrest i hi).2.2
    have hj : j = initproc := by_contra fun hj => hne (heq.trans (hrest j hj).2.2)
    rw [hi, hj]
  · have hpos := h.slots
    exact (hrest i (by rw [initproc]; omega)).2

theorem regs_of_reach (h : Reachable N s) : Regs N s := by
  refine (h.invariant (I := fun s => SysInv s ∧ Regs N s) (fun s hi => ⟨.of_init hi, .of_init hi⟩) ?_).2
  intro s a s' hI _ hs
  obtain ⟨he, rfl⟩ := step_eq_some.1 hs
  exact ⟨hI.1.step he, hI.2.step hI.1 he⟩

omit [DecidableEq κ] in
/-- A page table and a stack that no process on a CPU has. -/
theorem Regs.unused {a b : Option Nat} (h : Regs N s) (c : κ)
    (hne : ∀ k, (s.mode c).slot = some k → s.kpagetable k ≠ a ∧ s.kstack k ≠ b) :
    s.satp c ≠ .table a ∧ s.stack c ≠ .page b := by
  have hcpu := h.cpu c
  cases hm : s.mode c with
  | scan k | chosen k | left k =>
    rw [hm] at hcpu
    rw [hcpu.1, hcpu.2]
    simp
  | loaded k | back k =>
    rw [hm] at hcpu
    obtain ⟨hkpt, -⟩ := hne k (by rw [hm]; rfl)
    rw [hcpu.1, hcpu.2]
    simpa using hkpt
  | run k =>
    rw [hm] at hcpu
    obtain ⟨hkpt, hkst⟩ := hne k (by rw [hm]; rfl)
    by_cases hu : s.base k = .user
    · obtain ⟨hsatp, hstack, -⟩ := hcpu.2 hu
      rw [hsatp, hstack]
      simp
    · obtain ⟨hsatp, hstack⟩ := hcpu.1 hu
      rw [hsatp, hstack]
      simpa using ⟨hkpt, hkst⟩

/-- **One CPU per process, and no CPU on freed pages.**  The pages that `freeproc` frees are those of a
`ZOMBIE` that `wait` has found, or, when `allocproc` or `fork` fails, pages fresh from `kalloc`. -/
theorem cpu_registers (h : Reachable N s) :
    (∀ c c' i, s.cproc c = some i → s.cproc c' = some i → c = c') ∧
    (∀ c i, s.mode c = .run i → s.cproc c = some i ∧ (s.base i ≠ .user → s.satp c = .table (s.kpagetable i))) ∧
    (∀ c, (∀ i, s.mode c ≠ .run i) → (∀ i, s.lock (.proc i) ≠ some c) → s.satp c = .kernel) ∧
    (∀ c i j k, (WaitAct.reap j k).enabled N s c i →
      ∀ c', s.satp c' ≠ .table (s.kpagetable j) ∧ s.stack c' ≠ .page (s.kstack j)) ∧
    (∀ a b, s.FreshPages N a b → ∀ c, s.satp c ≠ .table (some a) ∧ s.stack c ≠ .page (some b)) := by
  have hs := inv_of_reach h
  have hr := regs_of_reach h
  refine ⟨fun c c' i hc hc' => ?_, fun c i hm => ?_, fun c hm hl => ?_, fun c i j k he c' => ?_, fun a b hf c => ?_⟩
  · rw [hs.cproc] at hc hc'
    exact hs.core.uniq c c' i hc hc'
  · have hcpu := hr.cpu c
    rw [hm] at hcpu
    exact ⟨by rw [hs.cproc, hm]; rfl, fun hu => (hcpu.1 hu).1⟩
  · have hcpu := hr.cpu c
    have hok := hs.core.cpu c
    cases hmode : s.mode c with
    | scan k | chosen k | left k =>
      rw [hmode] at hcpu
      exact hcpu.1
    | loaded k | back k =>
      rw [Core.CpuOk, show s.core.mode c = _ from hmode] at hok
      exact absurd hok.1.lock (hl k)
    | run k => exact absurd hmode (hm k)
  · obtain ⟨-, -, -, hl, hst, -⟩ := he
    have hne : s.state j ≠ .UNUSED := by simp [hst]
    have hoff := (hs.core.off_of_free hl (by show s.state j ≠ _; simp [hst])).1
    refine hr.unused c' fun k hk => ?_
    have hkj : j ≠ k := by
      rintro rfl
      exact hoff c' hk
    exact ⟨fun heq => hkj (hr.tableInj j k heq.symm (hr.table j hne)),
      fun heq => hkj (hr.stackInj j k heq.symm (hr.stack j hne))⟩
  · exact hr.unused c fun k _ => FreshPages.fresh hr hf k

end steps

/-- The CPU of the first process when `wait` frees the child. -/
theorem childRun_ends :
    ((Transition.runActs (step 2) (boot Unit) childRun).map fun s =>
      (decide ((WaitAct.reap 1 false).enabled 2 s () 0), s.mode (), s.kpagetable 0, s.kpagetable 1, s.kstack 1)) =
      some (true, .run 0, some 0, some 2, some 3) := by
  decide +kernel

theorem cpu_registers_reap :
    ∃ s, Transition.runActs (step 2) (boot Unit) childRun = some s ∧ (WaitAct.reap 1 false).enabled 2 s () 0 ∧
      s.cproc () = some 0 ∧ s.satp () ≠ .table (some 2) ∧ s.stack () ≠ .page (some 3) := by
  obtain ⟨s, hs, heq⟩ := Option.map_eq_some_iff.1 childRun_ends
  simp only [Prod.mk.injEq, decide_eq_true_eq] at heq
  obtain ⟨he, hm, -, hkpt, hkst⟩ := heq
  obtain ⟨-, hrun, -, hreap, -⟩ := cpu_registers (.of_run (by decide) hs)
  rw [← hkpt, ← hkst]
  exact ⟨s, hs, he, (hrun () 0 hm).1, hreap () 0 1 false he ()⟩

end Xv6.Sched
