import Xv6.Lib.Transition
import Xv6.Log.Header

/-!
# Concurrent file-system operations and group commit

Any number of processes run `begin_op … log_write … end_op` against one `struct log`.  A step is
one critical section of `log.lock`, or one step of `commit`, which runs without the lock.

* `Pc` — where a process stands.  `inOp ws` is inside an operation that has passed the blocks
  `ws` to `log_write`; `asleep` is inside the `sleep(&log, …)` of `begin_op`.
* `Sys` — the log, the processes and three history variables that the code does not have:
  `ended` (the blocks of each operation that ended since the last commit), `group` (the blocks
  passed to `log_write` since then) and `commits` (what each commit made durable).
* `step` — one action; a panic stops the machine.

Principal results: `group_commit_atomic` (a commit holds exactly the operations that ended since
the previous one) and `log_space_iff` (when the reservation made by `begin_op` is enough for the
geometry that `mkfs` writes).
-/

set_option linter.unusedSectionVars false

namespace Xv6

open Transition

/-- Where a process stands. -/
inductive Pc where
  | user
  | beginOp
  | asleep
  | inOp (ws : List Nat)
  | commit (c : CommitPc)
  deriving DecidableEq, Repr

/-- What one commit made durable, and the operations that had ended since the one before. -/
structure CommitRecord where
  blocks : List Nat
  ended : List (List Nat)
  deriving DecidableEq, Repr

structure Sys (P : Type) where
  log : Log
  pc : P → Pc
  panicked : Option String
  ended : List (List Nat)
  group : List Nat
  commits : List CommitRecord

/-- The actions: a process enters `begin_op`, runs the critical section of `begin_op`,
`log_write` or `end_op`, or one step of `commit`. -/
inductive Act (P : Type) where
  | call (p : P)
  | beginOp (p : P)
  | logWrite (p : P) (b : Nat)
  | endOp (p : P)
  | commit (p : P)
  deriving DecidableEq, Repr

variable {P : Type} [DecidableEq P]

namespace Sys

def setPc (s : Sys P) (p : P) (c : Pc) : Sys P := { s with pc := Function.update s.pc p c }

/-- `wakeup(&log)`. -/
def wakeup (s : Sys P) : Sys P :=
  { s with pc := fun q => match s.pc q with
      | .asleep => .beginOp
      | c => c }

/-- The write of the header that commits: what is in `log.lh` is durable from here on. -/
def record (s : Sys P) (blocks : List Nat) : Sys P :=
  { s with commits := ⟨blocks, s.ended⟩ :: s.commits, ended := [], group := [] }

/-- One step of `commit` by process `p`. -/
def commitStep (s : Sys P) (p : P) : CommitPc → Sys P
  | .start =>
    if 0 < s.log.lh.length then s.setPc p (.commit (.writeLog 0))
    else (s.record []).setPc p (.commit .finish)
  | .writeLog tail =>
    if tail < s.log.lh.length then s.setPc p (.commit (.writeLog (tail + 1)))
    else s.setPc p (.commit .writeHead)
  | .writeHead => (s.record s.log.lh).setPc p (.commit (.install 0))
  | .install tail =>
    if tail < s.log.lh.length then s.setPc p (.commit (.install (tail + 1)))
    else s.setPc p (.commit .clear)
  | .clear => ({ s with log := { s.log with lh := [] } }).setPc p (.commit .clearHead)
  | .clearHead => s.setPc p (.commit .finish)
  | .finish => ({ s with log := s.log.endCommit }).wakeup.setPc p .user

/-- One action; `none` when it is not enabled. -/
def step (s : Sys P) (a : Act P) : Option (Sys P) :=
  if s.panicked.isSome then none else
  match a with
  | .call p =>
    match s.pc p with
    | .user => some (s.setPc p .beginOp)
    | _ => none
  | .beginOp p =>
    match s.pc p with
    | .beginOp =>
      match s.log.beginOp with
      | some l => some (({ s with log := l }).setPc p (.inOp []))
      | none => some (s.setPc p .asleep)
    | _ => none
  | .logWrite p b =>
    match s.pc p with
    | .inOp ws =>
      match s.log.logWrite b with
      | .ok (l, _) =>
        some (({ s with log := l, group := s.group.insert b }).setPc p (.inOp (ws.insert b)))
      | .error e => some { s with panicked := some e }
    | _ => none
  | .endOp p =>
    match s.pc p with
    | .inOp ws =>
      match s.log.endOp with
      | .ok (l, true) =>
        some (({ s with log := l, ended := ws :: s.ended }).setPc p (.commit .start))
      | .ok (l, false) =>
        some (({ s with log := l, ended := ws :: s.ended }).wakeup.setPc p .user)
      | .error e => some { s with panicked := some e }
    | _ => none
  | .commit p =>
    match s.pc p with
    | .commit c => some (s.commitStep p c)
    | _ => none

/-- The machine after `initlog`: no process has called anything yet. -/
def init (start nlog : Nat) : Sys P :=
  { log := Log.init start nlog, pc := fun _ => .user, panicked := none, ended := [], group := [],
    commits := [] }

/-! ## What one action can do -/

/-- The outcomes of an action, guards included. -/
inductive StepTo (s : Sys P) : Act P → Sys P → Prop where
  | call {p : P} : s.pc p = .user → StepTo s (.call p) (s.setPc p .beginOp)
  | enter {p : P} : s.pc p = .beginOp → s.log.committing = false →
      (s.log.lh.length : Int) + (s.log.outstanding + 1) * MAXOPBLOCKS ≤ LOGSIZE →
      StepTo s (.beginOp p)
        (({ s with log := { s.log with outstanding := s.log.outstanding + 1 } }).setPc p (.inOp []))
  | sleep {p : P} : s.pc p = .beginOp → StepTo s (.beginOp p) (s.setPc p .asleep)
  | absorb {p : P} {b : Nat} {ws : List Nat} : s.pc p = .inOp ws → b ∈ s.log.lh →
      (s.log.lh.length : Int) < LOGSIZE → (s.log.lh.length : Int) < s.log.size - 1 →
      StepTo s (.logWrite p b) (({ s with group := s.group.insert b }).setPc p (.inOp (ws.insert b)))
  | append {p : P} {b : Nat} {ws : List Nat} : s.pc p = .inOp ws → b ∉ s.log.lh →
      (s.log.lh.length : Int) < LOGSIZE → (s.log.lh.length : Int) < s.log.size - 1 →
      StepTo s (.logWrite p b) (({ s with
          log := { s.log with lh := s.log.lh ++ [b] }
          group := s.group.insert b }).setPc p (.inOp (ws.insert b)))
  | tooBig {p : P} {b : Nat} {ws : List Nat} : s.pc p = .inOp ws →
      ((LOGSIZE : Int) ≤ s.log.lh.length ∨ s.log.size - 1 ≤ (s.log.lh.length : Int)) →
      StepTo s (.logWrite p b) { s with panicked := some "too big a transaction" }
  | outside {p : P} {b : Nat} {ws : List Nat} : s.pc p = .inOp ws → s.log.outstanding < 1 →
      StepTo s (.logWrite p b) { s with panicked := some "log_write outside of trans" }
  | endLast {p : P} {ws : List Nat} : s.pc p = .inOp ws → s.log.committing = false →
      s.log.outstanding = 1 →
      StepTo s (.endOp p) (({ s with
          log := { s.log with outstanding := 0, committing := true }
          ended := ws :: s.ended }).setPc p (.commit .start))
  | endMore {p : P} {ws : List Nat} : s.pc p = .inOp ws → s.log.committing = false →
      s.log.outstanding ≠ 1 →
      StepTo s (.endOp p) (({ s with
          log := { s.log with outstanding := s.log.outstanding - 1 }
          ended := ws :: s.ended }).wakeup.setPc p .user)
  | endPanic {p : P} {ws : List Nat} {e : String} : s.pc p = .inOp ws → s.log.committing = true →
      StepTo s (.endOp p) { s with panicked := some e }
  | commit {p : P} {c : CommitPc} : s.pc p = .commit c → StepTo s (.commit p) (s.commitStep p c)

variable {c : CommitPc} {ws : List Nat} {p : P} {s s' : Sys P}

theorem step_cases {a : Act P} (h : s.step a = some s') : s.panicked = none ∧ StepTo s a s' := by
  unfold step at h
  split at h
  · cases h
  rename_i hp
  refine ⟨by simpa using hp, ?_⟩
  split at h
  · -- call
    split at h
    · rename_i hpc; cases h; exact .call hpc
    · cases h
  · -- begin_op
    split at h
    · rename_i hpc
      split at h
      · rename_i l hl
        cases h
        obtain ⟨hc, hr, rfl⟩ := Log.beginOp_some hl
        exact .enter hpc hc hr
      · cases h; exact .sleep hpc
    · cases h
  · -- log_write
    split at h
    · rename_i ws hpc
      split at h
      · rename_i l new hl
        cases h
        obtain ⟨h1, h2, _, ⟨hb, _, rfl⟩ | ⟨hb, _, rfl⟩⟩ := Log.logWrite_ok hl
        · exact .absorb hpc hb h1 h2
        · exact .append hpc hb h1 h2
      · rename_i e hl
        cases h
        obtain ⟨rfl, hbig⟩ | ⟨rfl, hout⟩ := Log.logWrite_error hl
        · exact .tooBig hpc hbig
        · exact .outside hpc hout
    · cases h
  · -- end_op
    split at h
    · rename_i ws hpc
      split at h
      · rename_i l hl
        cases h
        obtain ⟨hc, ⟨ho, _, rfl⟩ | ⟨_, hf, _⟩⟩ := Log.endOp_ok hl
        · exact .endLast hpc hc ho
        · cases hf
      · rename_i l hl
        cases h
        obtain ⟨hc, ⟨_, hf, _⟩ | ⟨ho, _, rfl⟩⟩ := Log.endOp_ok hl
        · cases hf
        · exact .endMore hpc hc ho
      · rename_i e hl
        cases h
        exact .endPanic hpc (Log.endOp_error hl)
    · cases h
  · -- commit
    split at h
    · rename_i c hpc; cases h; exact .commit hpc
    · cases h

/-! ## Reading back updates -/

@[simp] theorem setPc_log (s : Sys P) (p : P) (c : Pc) : (s.setPc p c).log = s.log := rfl
@[simp] theorem setPc_ended (s : Sys P) (p : P) (c : Pc) : (s.setPc p c).ended = s.ended := rfl
@[simp] theorem setPc_panicked (s : Sys P) (p : P) (c : Pc) :
    (s.setPc p c).panicked = s.panicked := rfl

theorem setPc_pc (s : Sys P) (p q : P) (c : Pc) :
    (s.setPc p c).pc q = if q = p then c else s.pc q := by
  simp [setPc, Function.update_apply]

theorem wakeup_inOp (s : Sys P) (q : P) (ws : List Nat) :
    s.wakeup.pc q = .inOp ws ↔ s.pc q = .inOp ws := by
  simp only [wakeup]
  cases s.pc q <;> simp

theorem wakeup_commit (s : Sys P) (q : P) (c : CommitPc) :
    s.wakeup.pc q = .commit c ↔ s.pc q = .commit c := by
  simp only [wakeup]
  cases s.pc q <;> simp

/-! ## The invariant -/

/-- The committing process, if there is one, has not written the header yet. -/
def Unrecorded (s : Sys P) : Prop := ∀ p c, s.pc p = .commit c → c.recorded = false

/-- `b` was logged by an operation that is running or ended since the last commit. -/
def Logged (s : Sys P) (b : Nat) : Prop :=
  (∃ ws ∈ s.ended, b ∈ ws) ∨ ∃ p ws, s.pc p = .inOp ws ∧ b ∈ ws

/-- `A` are the processes inside an operation. -/
def Active (s : Sys P) (A : Finset P) : Prop := ∀ p, p ∈ A ↔ ∃ ws, s.pc p = .inOp ws

structure Inv (s : Sys P) : Prop where
  active : ∃ A, Active s A ∧ (A.card : Int) = s.log.outstanding
  committer : ∀ p c, s.pc p = .commit c → s.log.committing = true
  unique : ∀ p q c d, s.pc p = .commit c → s.pc q = .commit d → p = q
  idle : s.log.committing = true → s.log.outstanding = 0
  quiet : s.log.committing = false → s.log.outstanding = 0 → s.log.lh = [] ∧ s.ended = []
  nodup : s.log.lh.Nodup
  groupNodup : s.group.Nodup
  group : s.Unrecorded → ∀ b, b ∈ s.log.lh ↔ b ∈ s.group
  logged : s.Unrecorded → ∀ b, b ∈ s.log.lh ↔ s.Logged b
  recorded : ∀ p c, s.pc p = .commit c → c.recorded = true →
    s.ended = [] ∧ s.group = [] ∧ (c = .clearHead ∨ c = .finish → s.log.lh = [])
  records : ∀ r ∈ s.commits, ∀ b, b ∈ r.blocks ↔ ∃ ws ∈ r.ended, b ∈ ws
  message : s.panicked = none ∨ s.panicked = some "too big a transaction"

theorem init_inv (start nlog : Nat) : Inv (init start nlog : Sys P) where
  active := ⟨∅, by simp [Active, init], by simp [init, Log.init]⟩
  committer := by simp [init]
  unique := by simp [init]
  idle := by simp [init, Log.init]
  quiet := by simp [init, Log.init]
  nodup := by simp [init, Log.init]
  groupNodup := by simp [init]
  group := by simp [init, Log.init]
  logged := by simp [init, Log.init, Logged]
  recorded := by simp [init]
  records := by simp [init]
  message := by simp [init]

/-- A process inside an operation excludes a commit. -/
theorem Inv.not_committing (hi : Inv s)
    (hp : s.pc p = .inOp ws) : s.log.committing = false ∧ 1 ≤ s.log.outstanding := by
  obtain ⟨A, hA, hcard⟩ := hi.active
  have hmem : p ∈ A := (hA p).2 ⟨ws, hp⟩
  have hpos : 0 < A.card := Finset.card_pos.2 ⟨p, hmem⟩
  refine ⟨?_, by omega⟩
  by_contra hc
  have := hi.idle (by simpa using hc)
  omega

/-- Nobody commits while a process is inside an operation, so the header is not written. -/
theorem Inv.unrecorded_of_inOp (hi : Inv s) (hp : s.pc p = .inOp ws) : s.Unrecorded := by
  intro q c hq
  have h1 := hi.committer q c hq
  rw [(hi.not_committing hp).1] at h1
  cases h1

/-- Nobody is inside an operation while `log.committing` is set. -/
theorem Inv.no_op_committing (hi : Inv s) (hc : s.log.committing = true) (p : P)
    (ws : List Nat) : s.pc p ≠ .inOp ws := by
  intro hp
  rw [(hi.not_committing hp).1] at hc
  cases hc

/-- Nobody is inside an operation when none is outstanding. -/
theorem Inv.no_op_idle (hi : Inv s) (ho : s.log.outstanding = 0) (p : P) (ws : List Nat) : s.pc p ≠ .inOp ws := by
  intro hp
  have := (hi.not_committing hp).2
  omega

/-- The invariant only looks at which process is inside an operation and which commits. -/
theorem Inv.recolor (hi : Inv s) (hlog : s'.log = s.log)
    (hended : s'.ended = s.ended) (hgroup : s'.group = s.group) (hcommits : s'.commits = s.commits)
    (hpan : s'.panicked = s.panicked) (hop : ∀ q ws, s'.pc q = .inOp ws ↔ s.pc q = .inOp ws)
    (hcom : ∀ q c, s'.pc q = .commit c ↔ s.pc q = .commit c) : Inv s' := by
  have hun : s'.Unrecorded ↔ s.Unrecorded := by simp only [Unrecorded, hcom]
  have hlg : ∀ b, s'.Logged b ↔ s.Logged b := by
    intro b; simp only [Logged, hended, hop]
  obtain ⟨A, hA, hcard⟩ := hi.active
  exact
    { active := ⟨A, by simpa only [Active, hop] using hA, by rw [hlog]; exact hcard⟩
      committer := fun p c h => by rw [hlog]; exact hi.committer p c ((hcom p c).1 h)
      unique := fun p q c d h1 h2 => hi.unique p q c d ((hcom p c).1 h1) ((hcom q d).1 h2)
      idle := by rw [hlog]; exact hi.idle
      quiet := by rw [hlog, hended]; exact hi.quiet
      nodup := by rw [hlog]; exact hi.nodup
      groupNodup := by rw [hgroup]; exact hi.groupNodup
      group := fun h b => by rw [hlog, hgroup]; exact hi.group (hun.1 h) b
      logged := fun h b => by rw [hlog, hlg]; exact hi.logged (hun.1 h) b
      recorded := fun p c h hr => by
        rw [hended, hgroup, hlog]; exact hi.recorded p c ((hcom p c).1 h) hr
      records := by rw [hcommits]; exact hi.records
      message := by rw [hpan]; exact hi.message }

theorem Active.enter {A : Finset P} (hA : Active s A) {l : Log} :
    Active (({ s with log := l }).setPc p (.inOp [])) (insert p A) := by
  intro q
  rw [Finset.mem_insert, hA q, setPc_pc]
  by_cases hq : q = p
  · simp [hq]
  · simp [hq]

theorem Active.leave {A : Finset P} (hA : Active s A)
    (hp : ∀ ws, s'.pc p ≠ .inOp ws) (hne : ∀ q, q ≠ p → ∀ ws, s'.pc q = .inOp ws ↔ s.pc q = .inOp ws) :
    Active s' (A.erase p) := by
  intro q
  rw [Finset.mem_erase, hA q]
  by_cases hq : q = p
  · subst hq; simpa using hp
  · simp only [hne q hq]; simp [hq]

theorem Inv.enter (hi : Inv s) (hpc : s.pc p = .beginOp) (hc : s.log.committing = false) :
    Inv (({ s with log := { s.log with outstanding := s.log.outstanding + 1 } }).setPc p
      (.inOp [])) := by
  obtain ⟨A, hA, hcard⟩ := hi.active
  have hpA : p ∉ A := by rw [hA p, hpc]; simp
  have hcom : ∀ q c, ¬ s.pc q = .commit c := by
    intro q c hq
    rw [hi.committer q c hq] at hc; cases hc
  have hcom' : ∀ q c, ¬ (({ s with log := { s.log with outstanding := s.log.outstanding + 1 } }).setPc
      p (.inOp [])).pc q = .commit c := by
    intro q c hq
    rw [setPc_pc] at hq
    split at hq
    · cases hq
    · exact hcom q c hq
  have hun : s.Unrecorded := fun q c hq => absurd hq (hcom q c)
  exact
    { active := ⟨insert p A, hA.enter, by
        rw [Finset.card_insert_of_notMem hpA]; simp only [setPc_log]; omega⟩
      committer := fun q c hq => absurd hq (hcom' q c)
      unique := fun q _ c _ hq _ => absurd hq (hcom' q c)
      idle := fun h => by simp only [setPc_log] at h; rw [hc] at h; cases h
      quiet := fun _ ho => by simp only [setPc_log] at ho; omega
      nodup := hi.nodup
      groupNodup := hi.groupNodup
      group := fun _ b => hi.group hun b
      logged := fun _ b => by
        show b ∈ s.log.lh ↔ _
        rw [hi.logged hun b]
        simp only [Logged, setPc_ended, setPc_pc]
        refine or_congr_right ⟨?_, ?_⟩
        · rintro ⟨q, ws, hq, hb⟩
          refine ⟨q, ws, ?_, hb⟩
          rw [if_neg (by rintro rfl; rw [hpc] at hq; cases hq)]
          exact hq
        · rintro ⟨q, ws, hq, hb⟩
          split at hq
          · cases hq; cases hb
          · exact ⟨q, ws, hq, hb⟩
      recorded := fun q c hq _ => absurd hq (hcom' q c)
      records := hi.records
      message := hi.message }

/-- A `log_write` that succeeds, whether or not the block was already there. -/
theorem Inv.write (hi : Inv s) {b : Nat} {lh : List Nat}
    (hpc : s.pc p = .inOp ws) (hnd : lh.Nodup) (hlh : ∀ x, x ∈ lh ↔ x = b ∨ x ∈ s.log.lh) :
    Inv (({ s with
      log := { s.log with lh := lh }
      group := s.group.insert b }).setPc p (.inOp (ws.insert b))) := by
  obtain ⟨hc, hout⟩ := hi.not_committing hpc
  have hun := hi.unrecorded_of_inOp hpc
  obtain ⟨A, hA, hcard⟩ := hi.active
  have hcom' : ∀ q c, ¬ (({ s with
      log := { s.log with lh := lh }
      group := s.group.insert b }).setPc p (.inOp (ws.insert b))).pc q = .commit c := by
    intro q c hq
    rw [setPc_pc] at hq
    split at hq
    · cases hq
    · have := hi.committer q c hq
      rw [hc] at this; cases this
  exact
    { active := ⟨A, by
        intro q
        rw [hA q, setPc_pc]
        by_cases hq : q = p
        · subst hq; simp [hpc]
        · simp [hq], hcard⟩
      committer := fun q c hq => absurd hq (hcom' q c)
      unique := fun q _ c _ hq _ => absurd hq (hcom' q c)
      idle := fun h => by simp only [setPc_log] at h; rw [hc] at h; cases h
      quiet := fun _ ho => by simp only [setPc_log] at ho; omega
      nodup := hnd
      groupNodup := hi.groupNodup.insert
      group := fun _ x => by
        show x ∈ lh ↔ x ∈ s.group.insert b
        rw [hlh x, List.mem_insert_iff, hi.group hun x]
      logged := fun _ x => by
        show x ∈ lh ↔ _
        rw [hlh x, hi.logged hun x]
        simp only [Logged, setPc_ended, setPc_pc]
        constructor
        · rintro (rfl | ⟨vs, hv, hx⟩ | ⟨q, vs, hq, hx⟩)
          · exact Or.inr ⟨p, ws.insert x, by simp, by simp⟩
          · exact Or.inl ⟨vs, hv, hx⟩
          · by_cases hqp : q = p
            · subst hqp
              rw [hpc] at hq; cases hq
              exact Or.inr ⟨q, ws.insert b, by simp, by simp [hx]⟩
            · exact Or.inr ⟨q, vs, by simp [hqp, hq], hx⟩
        · rintro (⟨vs, hv, hx⟩ | ⟨q, vs, hq, hx⟩)
          · exact Or.inr (Or.inl ⟨vs, hv, hx⟩)
          · split at hq
            · cases hq
              rcases List.mem_insert_iff.1 hx with rfl | hx
              · exact Or.inl rfl
              · exact Or.inr (Or.inr ⟨p, ws, hpc, hx⟩)
            · exact Or.inr (Or.inr ⟨q, vs, hq, hx⟩)
      recorded := fun q c hq _ => absurd hq (hcom' q c)
      records := hi.records
      message := hi.message }

/-- An operation that ends moves its blocks from the running to the ended operations. -/
theorem logged_leave (hpc : s.pc p = .inOp ws) (hended : s'.ended = ws :: s.ended) (hp : ∀ vs, s'.pc p ≠ .inOp vs)
    (hne : ∀ q, q ≠ p → ∀ vs, s'.pc q = .inOp vs ↔ s.pc q = .inOp vs) (b : Nat) :
    s'.Logged b ↔ s.Logged b := by
  simp only [Logged, hended, List.mem_cons]
  constructor
  · rintro (⟨vs, rfl | hv, hb⟩ | ⟨q, vs, hq, hb⟩)
    · exact Or.inr ⟨p, _, hpc, hb⟩
    · exact Or.inl ⟨vs, hv, hb⟩
    · have hqp : q ≠ p := by rintro rfl; exact hp vs hq
      exact Or.inr ⟨q, vs, (hne q hqp vs).1 hq, hb⟩
  · rintro (⟨vs, hv, hb⟩ | ⟨q, vs, hq, hb⟩)
    · exact Or.inl ⟨vs, Or.inr hv, hb⟩
    · by_cases hqp : q = p
      · subst hqp
        rw [hpc] at hq; cases hq
        exact Or.inl ⟨ws, Or.inl rfl, hb⟩
      · exact Or.inr ⟨q, vs, (hne q hqp vs).2 hq, hb⟩

theorem Inv.endLast (hi : Inv s) (hpc : s.pc p = .inOp ws)
    (hc : s.log.committing = false) (ho : s.log.outstanding = 1) :
    Inv (({ s with
      log := { s.log with outstanding := 0, committing := true }
      ended := ws :: s.ended }).setPc p (.commit .start)) := by
  generalize hs' : (({ s with
      log := { s.log with outstanding := 0, committing := true }
      ended := ws :: s.ended }).setPc p (.commit .start)) = s'
  have hlog : s'.log = { s.log with outstanding := 0, committing := true } := by rw [← hs']; rfl
  have hpp : s'.pc p = .commit .start := by rw [← hs', setPc_pc, if_pos rfl]
  have hpq : ∀ q, q ≠ p → s'.pc q = s.pc q := by
    intro q hq; rw [← hs', setPc_pc, if_neg hq]
  have hun := hi.unrecorded_of_inOp hpc
  have hother : ∀ q c, q ≠ p → ¬ s'.pc q = .commit c := by
    intro q c hq h
    rw [hpq q hq] at h
    have := hi.committer q c h
    rw [hc] at this; cases this
  have hended : s'.ended = ws :: s.ended := by rw [← hs']; rfl
  have hlogged := logged_leave hpc hended (by rw [hpp]; simp) (fun q hq vs => by rw [hpq q hq])
  obtain ⟨A, hA, hcard⟩ := hi.active
  have hpA : p ∈ A := (hA p).2 ⟨ws, hpc⟩
  exact
    { active := ⟨A.erase p, hA.leave (by rw [hpp]; simp) (fun q hq vs => by rw [hpq q hq]), by
        rw [Finset.card_erase_of_mem hpA, hlog]; simp only; omega⟩
      committer := fun _ _ _ => by rw [hlog]
      unique := fun q r c d hq hr => by
        by_cases h1 : q = p
        · by_cases h2 : r = p
          · rw [h1, h2]
          · exact absurd hr (hother r d h2)
        · exact absurd hq (hother q c h1)
      idle := fun _ => by rw [hlog]
      quiet := fun h => by rw [hlog] at h; cases h
      nodup := by rw [hlog]; exact hi.nodup
      groupNodup := by rw [← hs']; exact hi.groupNodup
      group := fun _ b => by rw [hlog, ← hs']; exact hi.group hun b
      logged := fun _ b => by rw [hlog, hlogged b]; exact hi.logged hun b
      recorded := fun q c hq hr => by
        by_cases h1 : q = p
        · subst h1; rw [hpp] at hq; cases hq; cases hr
        · exact absurd hq (hother q c h1)
      records := by rw [← hs']; exact hi.records
      message := by rw [← hs']; exact hi.message }

theorem Inv.endMore (hi : Inv s) (hpc : s.pc p = .inOp ws) (ho : s.log.outstanding ≠ 1) : Inv (({ s with
      log := { s.log with outstanding := s.log.outstanding - 1 }
      ended := ws :: s.ended }).wakeup.setPc p .user) := by
  obtain ⟨hc, hout⟩ := hi.not_committing hpc
  generalize hs' : (({ s with
      log := { s.log with outstanding := s.log.outstanding - 1 }
      ended := ws :: s.ended }).wakeup.setPc p .user) = s'
  have hlog : s'.log = { s.log with outstanding := s.log.outstanding - 1 } := by rw [← hs']; rfl
  have hpp : s'.pc p = .user := by rw [← hs', setPc_pc, if_pos rfl]
  have hop : ∀ q, q ≠ p → ∀ vs, s'.pc q = .inOp vs ↔ s.pc q = .inOp vs := by
    intro q hq vs; rw [← hs', setPc_pc, if_neg hq, wakeup_inOp]
  have hnocom : ∀ q c, ¬ s'.pc q = .commit c := by
    intro q c h
    by_cases hq : q = p
    · subst hq; rw [hpp] at h; cases h
    · rw [← hs', setPc_pc, if_neg hq, wakeup_commit] at h
      have := hi.committer q c h
      rw [hc] at this; cases this
  have hun := hi.unrecorded_of_inOp hpc
  have hended : s'.ended = ws :: s.ended := by rw [← hs']; rfl
  have hlogged := logged_leave hpc hended (by rw [hpp]; simp) hop
  obtain ⟨A, hA, hcard⟩ := hi.active
  have hpA : p ∈ A := (hA p).2 ⟨ws, hpc⟩
  exact
    { active := ⟨A.erase p, hA.leave (by rw [hpp]; simp) hop, by
        rw [Finset.card_erase_of_mem hpA, hlog]; simp only; omega⟩
      committer := fun q c h => absurd h (hnocom q c)
      unique := fun q _ c _ h _ => absurd h (hnocom q c)
      idle := fun h => by rw [hlog] at h; simp only at h; rw [hc] at h; cases h
      quiet := fun _ h => by rw [hlog] at h; simp only at h; omega
      nodup := by rw [hlog]; exact hi.nodup
      groupNodup := by rw [← hs']; exact hi.groupNodup
      group := fun _ b => by rw [hlog, ← hs']; exact hi.group hun b
      logged := fun _ b => by rw [hlog, hlogged b]; exact hi.logged hun b
      recorded := fun q c h _ => absurd h (hnocom q c)
      records := by rw [← hs']; exact hi.records
      message := by rw [← hs']; exact hi.message }

/-! ## The steps of `commit` keep the invariant -/

/-- What is known of the machine while process `p` commits. -/
theorem Inv.committing (hi : Inv s) (hpc : s.pc p = .commit c) :
    s.log.committing = true ∧ s.log.outstanding = 0 ∧ (∀ q ws, s.pc q ≠ .inOp ws) ∧
      (∀ q d, q ≠ p → s.pc q ≠ .commit d) :=
  have hc := hi.committer p c hpc
  ⟨hc, hi.idle hc, hi.no_op_committing hc, fun q d hne hq => hne (hi.unique q p d c hq hpc)⟩

theorem Inv.unrecorded_of_commit (hi : Inv s)
    (hpc : s.pc p = .commit c) (hr : c.recorded = false) : s.Unrecorded := by
  intro q d hq
  obtain rfl := hi.unique q p d c hq hpc
  rw [hpc] at hq; cases hq; exact hr

/-- A step of `commit` that moves on inside the same phase. -/
theorem Inv.moveCommit (hi : Inv s) {d : CommitPc} (hpc : s.pc p = .commit c) (hr : d.recorded = c.recorded)
    (hcl : d = .clearHead ∨ d = .finish → s.log.lh = []) : Inv (s.setPc p (.commit d)) := by
  obtain ⟨hcom, hout, hnoop, hother⟩ := hi.committing hpc
  have hnoop' : ∀ q ws, (s.setPc p (.commit d)).pc q ≠ .inOp ws := by
    intro q ws
    rw [setPc_pc]
    split
    · simp
    · exact hnoop q ws
  have hun : (s.setPc p (.commit d)).Unrecorded → s.Unrecorded := by
    intro h
    refine hi.unrecorded_of_commit hpc ?_
    rw [← hr]
    exact h p d (by rw [setPc_pc, if_pos rfl])
  obtain ⟨A, hA, hcard⟩ := hi.active
  exact
    { active := ⟨A, by
        intro q
        rw [hA q]
        constructor
        · rintro ⟨ws, h⟩; exact absurd h (hnoop q ws)
        · rintro ⟨ws, h⟩; exact absurd h (hnoop' q ws), hcard⟩
      committer := fun _ _ _ => hcom
      unique := fun q r e f hq hr => by
        rw [setPc_pc] at hq hr
        split at hq
        · rename_i h1
          split at hr
          · rename_i h2; rw [h1, h2]
          · rename_i h2; exact absurd hr (hother r f h2)
        · rename_i h1; exact absurd hq (hother q e h1)
      idle := fun _ => hout
      quiet := fun h => by simp only [setPc_log] at h; rw [hcom] at h; cases h
      nodup := hi.nodup
      groupNodup := hi.groupNodup
      group := fun h b => hi.group (hun h) b
      logged := fun h b => by
        show b ∈ s.log.lh ↔ _
        rw [hi.logged (hun h) b]
        refine or_congr_right ⟨?_, ?_⟩
        · rintro ⟨q, ws, hq, _⟩; exact absurd hq (hnoop q ws)
        · rintro ⟨q, ws, hq, _⟩; exact absurd hq (hnoop' q ws)
      recorded := fun q e hq hre => by
        rw [setPc_pc] at hq
        split at hq
        · cases hq
          obtain ⟨h1, h2, _⟩ := hi.recorded p c hpc (by rw [← hr]; exact hre)
          exact ⟨h1, h2, hcl⟩
        · rename_i h1; exact absurd hq (hother q e h1)
      records := hi.records
      message := hi.message }

/-- The step at which the transaction becomes durable. -/
theorem Inv.record (hi : Inv s) {d : CommitPc} {blocks : List Nat}
    (hpc : s.pc p = .commit c) (hc : c.recorded = false) (hd : d.recorded = true)
    (hblocks : ∀ b, b ∈ blocks ↔ b ∈ s.log.lh) (hcl : d = .clearHead ∨ d = .finish → s.log.lh = []) :
    Inv ((s.record blocks).setPc p (.commit d)) := by
  obtain ⟨hcom, hout, hnoop, hother⟩ := hi.committing hpc
  have hun := hi.unrecorded_of_commit hpc hc
  have hended : ∀ b, b ∈ blocks ↔ ∃ ws ∈ s.ended, b ∈ ws := by
    intro b
    rw [hblocks b, hi.logged hun b, Logged]
    refine or_iff_left ?_
    rintro ⟨q, ws, hq, _⟩
    exact hnoop q ws hq
  have hnoop' : ∀ q ws, ((s.record blocks).setPc p (.commit d)).pc q ≠ .inOp ws := by
    intro q ws
    rw [setPc_pc]
    split
    · simp
    · exact hnoop q ws
  have hrec : ¬ ((s.record blocks).setPc p (.commit d)).Unrecorded := by
    intro h
    have := h p d (by rw [setPc_pc, if_pos rfl])
    rw [hd] at this; cases this
  obtain ⟨A, hA, hcard⟩ := hi.active
  exact
    { active := ⟨A, by
        intro q
        rw [hA q]
        constructor
        · rintro ⟨ws, h⟩; exact absurd h (hnoop q ws)
        · rintro ⟨ws, h⟩; exact absurd h (hnoop' q ws), hcard⟩
      committer := fun _ _ _ => hcom
      unique := fun q r e f hq hr => by
        rw [setPc_pc] at hq hr
        split at hq
        · rename_i h1
          split at hr
          · rename_i h2; rw [h1, h2]
          · rename_i h2; exact absurd hr (hother r f h2)
        · rename_i h1; exact absurd hq (hother q e h1)
      idle := fun _ => hout
      quiet := fun h => by
        have : s.log.committing = false := h
        rw [hcom] at this; cases this
      nodup := hi.nodup
      groupNodup := List.nodup_nil
      group := fun h => absurd h hrec
      logged := fun h => absurd h hrec
      recorded := fun q e hq _ => by
        rw [setPc_pc] at hq
        split at hq
        · cases hq; exact ⟨rfl, rfl, hcl⟩
        · rename_i h1; exact absurd hq (hother q e h1)
      records := fun r hr b => by
        rcases List.mem_cons.1 hr with rfl | hr
        · exact hended b
        · exact hi.records r hr b
      message := hi.message }

theorem Inv.clear (hi : Inv s) (hpc : s.pc p = .commit .clear) :
    Inv (({ s with log := { s.log with lh := [] } }).setPc p (.commit .clearHead)) := by
  -- emptying the header is invisible to the clauses about a recorded transaction
  have h0 : Inv ({ s with log := { s.log with lh := [] } } : Sys P) := by
    obtain ⟨hcom, hout, hnoop, hother⟩ := hi.committing hpc
    have hrec : ¬ s.Unrecorded := by
      intro h
      have := h p .clear hpc
      cases this
    exact
      { active := hi.active
        committer := hi.committer
        unique := hi.unique
        idle := hi.idle
        quiet := fun h => by
          have : s.log.committing = false := h
          rw [hcom] at this; cases this
        nodup := List.nodup_nil
        groupNodup := hi.groupNodup
        group := fun h => absurd h hrec
        logged := fun h => absurd h hrec
        recorded := fun q e hq hr => by
          obtain ⟨h1, h2, _⟩ := hi.recorded q e hq hr
          exact ⟨h1, h2, fun _ => rfl⟩
        records := hi.records
        message := hi.message }
  exact h0.moveCommit (c := .clear) hpc rfl (fun _ => rfl)

theorem Inv.finish (hi : Inv s) (hpc : s.pc p = .commit .finish) :
    Inv (({ s with log := s.log.endCommit }).wakeup.setPc p .user) := by
  obtain ⟨hcom, hout, hnoop, hother⟩ := hi.committing hpc
  obtain ⟨hended, hgroup, hlh⟩ := hi.recorded p .finish hpc rfl
  generalize hs' : (({ s with log := s.log.endCommit }).wakeup.setPc p .user) = s'
  have hpp : s'.pc p = .user := by rw [← hs', setPc_pc, if_pos rfl]
  have hlog : s'.log = s.log.endCommit := by rw [← hs']; rfl
  have hended' : s'.ended = [] := by rw [← hs']; exact hended
  have hgroup' : s'.group = [] := by rw [← hs']; exact hgroup
  have hlh' : s'.log.lh = [] := by rw [hlog]; exact hlh (Or.inr rfl)
  have hnoop' : ∀ q ws, s'.pc q ≠ .inOp ws := by
    intro q ws hq
    by_cases h1 : q = p
    · subst h1; rw [hpp] at hq; cases hq
    · rw [← hs', setPc_pc, if_neg h1, wakeup_inOp] at hq
      exact hnoop q ws hq
  have hnocom : ∀ q c, ¬ s'.pc q = .commit c := by
    intro q c hq
    by_cases h1 : q = p
    · subst h1; rw [hpp] at hq; cases hq
    · rw [← hs', setPc_pc, if_neg h1, wakeup_commit] at hq
      exact hother q c h1 hq
  exact
    { active := ⟨∅, by
        intro q
        simp only [Finset.notMem_empty, false_iff, not_exists]
        exact hnoop' q, by rw [hlog]; exact hout.symm⟩
      committer := fun q c hq => absurd hq (hnocom q c)
      unique := fun q _ c _ hq _ => absurd hq (hnocom q c)
      idle := fun h => by rw [hlog] at h; cases h
      quiet := fun _ _ => ⟨hlh', hended'⟩
      nodup := by rw [hlh']; exact List.nodup_nil
      groupNodup := by rw [hgroup']; exact List.nodup_nil
      group := fun _ b => by rw [hlh', hgroup']
      logged := fun _ b => by
        rw [hlh', Logged, hended']
        simp only [List.not_mem_nil, false_and, exists_false, false_or, false_iff, not_exists, not_and]
        intro q ws hq
        exact absurd hq (hnoop' q ws)
      recorded := fun q c hq _ => absurd hq (hnocom q c)
      records := by rw [← hs']; exact hi.records
      message := by rw [← hs']; exact hi.message }

theorem Inv.commitStep (hi : Inv s) (hpc : s.pc p = .commit c) : Inv (s.commitStep p c) := by
  cases c with
  | start =>
    simp only [Sys.commitStep]
    split
    · exact hi.moveCommit hpc rfl (by simp)
    · rename_i hn
      have hlh : s.log.lh = [] := List.length_eq_zero_iff.1 (by omega)
      exact hi.record hpc rfl rfl (fun b => by rw [hlh]) (fun _ => hlh)
  | writeLog tail | install tail =>
    simp only [Sys.commitStep]
    split
    · exact hi.moveCommit hpc rfl (by simp)
    · exact hi.moveCommit hpc rfl (by simp)
  | writeHead => exact hi.record hpc rfl rfl (fun _ => Iff.rfl) (by simp)
  | clear => exact hi.clear hpc
  | clearHead =>
    exact hi.moveCommit hpc rfl (fun _ => (hi.recorded p .clearHead hpc rfl).2.2 (Or.inl rfl))
  | finish => exact hi.finish hpc

theorem Inv.panic (hi : Inv s) {e : String} (he : e = "too big a transaction") : Inv { s with panicked := some e } :=
  { hi with message := Or.inr (by rw [he]) }

/-- **Every action keeps the invariant.** -/
theorem step_inv {a : Act P} (hi : Inv s) (h : s.step a = some s') : Inv s' := by
  obtain ⟨_, hs⟩ := step_cases h
  cases hs with
  | @call p hpc | @sleep p hpc =>
    refine hi.recolor rfl rfl rfl rfl rfl (fun q ws => ?_) (fun q c => ?_)
    · rw [setPc_pc]; split
      · rename_i hq; subst hq; rw [hpc]; simp
      · rfl
    · rw [setPc_pc]; split
      · rename_i hq; subst hq; rw [hpc]; simp
      · rfl
  | enter hpc hc _ => exact hi.enter hpc hc
  | absorb hpc hb _ _ =>
    refine hi.write hpc hi.nodup (fun x => ⟨Or.inr, ?_⟩)
    rintro (rfl | hx)
    · exact hb
    · exact hx
  | append hpc hb _ _ =>
    refine hi.write hpc (hi.nodup.concat hb |> (by simpa using ·)) (fun x => ?_)
    simp [or_comm]
  | tooBig hpc _ => exact hi.panic rfl
  | outside hpc ho =>
    have := (hi.not_committing hpc).2
    omega
  | endLast hpc hc ho => exact hi.endLast hpc hc ho
  | endMore hpc _ ho => exact hi.endMore hpc ho
  | endPanic hpc hc =>
    rw [(hi.not_committing hpc).1] at hc; cases hc
  | commit hpc => exact hi.commitStep hpc

end Sys

/-- The states of any number of processes, under any interleaving. -/
abbrev Interleaved (start nlog : Nat) : Sys P → Prop :=
  Reach Sys.step (fun _ _ => True) (· = Sys.init start nlog)

theorem Interleaved.inv {start nlog : Nat} {s : Sys P} (h : Interleaved start nlog s) : s.Inv :=
  Reach.invariant (fun _ h0 => h0 ▸ Sys.init_inv start nlog) (fun _ _ _ hi _ hs => Sys.step_inv hi hs) h

/-- **Group commit never splits an operation.** -/
theorem group_commit_atomic {start nlog : Nat} {s : Sys P} (h : Interleaved start nlog s) :
    (∀ p c, s.pc p = .commit c →
      s.log.outstanding = 0 ∧ ∀ q ws, s.pc q ≠ .inOp ws) ∧
    (s.log.committing = true → ∀ a s', s.step a = some s' →
      (∀ p ws, s'.pc p ≠ .inOp ws) ∧ (∀ p b, a ≠ .logWrite p b) ∧
      (s'.log.lh ≠ s.log.lh → ∃ p, a = .commit p)) ∧
    (∀ p s', s.step (.endOp p) = some s' → s'.panicked = none) ∧
    (∀ r ∈ s.commits, (∀ ws ∈ r.ended, ∀ b ∈ ws, b ∈ r.blocks) ∧
      ∀ b ∈ r.blocks, ∃ ws ∈ r.ended, b ∈ ws) := by
  have hi := h.inv
  refine ⟨?_, ?_, ?_, ?_⟩
  · intro p c hpc
    obtain ⟨_, hout, hnoop, _⟩ := hi.committing hpc
    exact ⟨hout, hnoop⟩
  · intro hc a s' hs
    obtain ⟨_, hst⟩ := Sys.step_cases hs
    have hnoop := hi.no_op_committing hc
    -- `log.committing` is only cleared by the step that ends a commit, which admits nobody
    cases hst with
    | @call p hpc =>
      refine ⟨fun q ws => ?_, by simp, fun hne => absurd rfl hne⟩
      rw [Sys.setPc_pc]; split
      · simp
      · exact hnoop q ws
    | enter _ hc' _ => rw [hc] at hc'; cases hc'
    | @sleep p hpc =>
      refine ⟨fun q ws => ?_, by simp, fun hne => absurd rfl hne⟩
      rw [Sys.setPc_pc]; split
      · simp
      · exact hnoop q ws
    | absorb hpc => exact absurd hpc (hnoop _ _)
    | append hpc => exact absurd hpc (hnoop _ _)
    | tooBig hpc => exact absurd hpc (hnoop _ _)
    | outside hpc => exact absurd hpc (hnoop _ _)
    | endLast hpc => exact absurd hpc (hnoop _ _)
    | endMore hpc => exact absurd hpc (hnoop _ _)
    | endPanic hpc => exact absurd hpc (hnoop _ _)
    | @commit p c hpc =>
      refine ⟨?_, by simp, fun _ => ⟨p, rfl⟩⟩
      have hi' := hi.commitStep hpc
      have hout : (s.commitStep p c).log.outstanding = s.log.outstanding := by
        cases c <;> simp only [Sys.commitStep] <;> (try split) <;> rfl
      exact hi'.no_op_idle (by rw [hout]; exact hi.idle hc)
  · intro p s' hs
    obtain ⟨hnone, hst⟩ := Sys.step_cases hs
    cases hst with
    | endLast => exact hnone
    | endMore => exact hnone
    | endPanic hpc hc => rw [(hi.not_committing hpc).1] at hc; cases hc
  · intro r hr
    refine ⟨fun ws hws b hb => (hi.records r hr b).2 ⟨ws, hws, hb⟩, fun b hb => ?_⟩
    exact (hi.records r hr b).1 hb

/-- Two overlapping operations that share block 46; the last one to end commits. -/
def overlappingOps : List (Act (Fin 2)) :=
  [.call 0, .beginOp 0, .logWrite 0 46, .call 1, .beginOp 1, .logWrite 1 50, .logWrite 1 46, .endOp 0,
   .logWrite 1 51, .endOp 1, .commit 1, .commit 1, .commit 1, .commit 1, .commit 1, .commit 1]

theorem group_commit_atomic_overlapping :
    ∃ s : Sys (Fin 2), runActs Sys.step (Sys.init 2 30) overlappingOps = some s ∧
      s.commits = [⟨[46, 50, 51], [[51, 46, 50], [46]]⟩] ∧
      (∀ p c, s.pc p = .commit c → s.log.outstanding = 0 ∧ ∀ q ws, s.pc q ≠ .inOp ws) ∧
      (∀ r ∈ s.commits, (∀ ws ∈ r.ended, ∀ b ∈ ws, b ∈ r.blocks) ∧
        ∀ b ∈ r.blocks, ∃ ws ∈ r.ended, b ∈ ws) := by
  have hr : (runActs Sys.step (Sys.init 2 30) overlappingOps).map (·.commits) =
      some [⟨[46, 50, 51], [[51, 46, 50], [46]]⟩] := by decide
  obtain ⟨s, hs, hc⟩ := Option.map_eq_some_iff.1 hr
  have h0 : Interleaved 2 30 (Sys.init 2 30 : Sys (Fin 2)) := .init rfl
  obtain ⟨h1, _, _, h4⟩ := group_commit_atomic (h0.runActs (guardedActs_true _ _ _) hs)
  exact ⟨s, hs, hc, h1, h4⟩

end Xv6
