import Xv6.Log.GroupCommit

/-!
# Is the log space reserved by `begin_op` enough?

`begin_op` admits operations in units of `MAXOPBLOCKS` against `LOGSIZE`, and `log_write` panics
once `log.size - 1` blocks are logged.  `mkfs` writes `nlog = LOGSIZE` with the header block
included, so the log holds one block less than is reserved.

* `withinQuota q` — every operation logs at most `q` distinct blocks.
* `room` — a `log_write` finds fewer than `LOGSIZE - 1` blocks logged since the last commit.
* `Safe` — `log_write` has not panicked and `write_log` stays inside the log area.
* `log_space_iff` — under `withinQuota MAXOPBLOCKS`, a run is safe exactly when every `log_write`
  has `room`; operations of at most `MAXOPBLOCKS - 1` blocks always have.
* `log_space_three_full_ops` — three operations of `MAXOPBLOCKS` blocks each reach the panic.
-/

set_option linter.unusedSectionVars false

namespace Xv6

open Transition

variable {P : Type} [DecidableEq P]

/-- The operation that runs the action has logged at most `q` distinct blocks after it. -/
def withinQuota (q : Nat) (s : Sys P) : Act P → Prop
  | .logWrite p b => ∀ ws, s.pc p = .inOp ws → (ws.insert b).length ≤ q
  | _ => True

/-- Fewer than `LOGSIZE - 1` distinct blocks were logged since the last commit. -/
def room (s : Sys P) : Act P → Prop
  | .logWrite _ _ => s.group.length < LOGSIZE - 1
  | _ => True

/-- No panic in `log_write`, and every block that `write_log` writes is in the log area. -/
def Safe (s : Sys P) : Prop :=
  s.panicked ≠ some "too big a transaction" ∧
  ∀ p tail, s.pc p = .commit (.writeLog tail) → tail < s.log.lh.length →
    s.log.start ≤ s.log.start + tail + 1 ∧ (s.log.start + tail + 1 : Int) < s.log.start + s.log.size

/-- The header never outgrows the log area. -/
structure Fits (s : Sys P) : Prop where
  size : s.log.size = LOGSIZE
  length : s.log.lh.length ≤ LOGSIZE - 1

variable {a : Act P} {p : P} {s s' : Sys P}

theorem step_fits (hf : Fits s) (h : s.step a = some s') : Fits s' := by
  obtain ⟨_, hs⟩ := Sys.step_cases h
  have h1 := hf.size
  have h2 := hf.length
  cases hs with
  | append _ _ _ hlt =>
    refine ⟨h1, ?_⟩
    simp only [Sys.setPc_log, List.length_append, List.length_singleton]
    simp only [LOGSIZE, MAXOPBLOCKS] at *
    omega
  | @commit p c hpc =>
    cases c with
    | clear => exact ⟨h1, by simp [Sys.commitStep]⟩
    | start | writeLog tail | install tail => simp only [Sys.commitStep]; split <;> exact ⟨h1, h2⟩
    | writeHead | clearHead | finish => exact ⟨h1, h2⟩
  | call | enter | sleep | absorb | tooBig | outside | endLast | endMore | endPanic => exact ⟨h1, h2⟩

theorem Fits.safe (hf : Fits s) (hp : s.panicked ≠ some "too big a transaction") : Safe s := by
  refine ⟨hp, fun p tail _ ht => ⟨by omega, ?_⟩⟩
  have h1 := hf.size
  have h2 := hf.length
  rw [h1]
  simp only [LOGSIZE, MAXOPBLOCKS] at *
  omega

/-- Before the header is written, the blocks of the transaction are those in `log.lh`. -/
theorem Sys.Inv.group_length (hi : s.Inv) (hu : s.Unrecorded) : s.group.length = s.log.lh.length := by
  have hp : s.group.Perm s.log.lh :=
    (List.perm_ext_iff_of_nodup hi.groupNodup hi.nodup).2 fun b => (hi.group hu b).symm
  exact hp.length_eq

/-- A `log_write` panics for lack of space exactly when there is no `room`. -/
theorem tooBig_iff (hi : s.Inv) (hf : Fits s) (h : s.step a = some s') :
    s'.panicked = some "too big a transaction" ↔ ¬ room s a := by
  obtain ⟨hnone, hs⟩ := Sys.step_cases h
  have h1 := hf.size
  cases hs with
  | call | enter | sleep | endLast => simp [room, hnone]
  | absorb hpc _ _ hlt | append hpc _ _ hlt =>
    have := hi.group_length (hi.unrecorded_of_inOp hpc)
    simp only [Sys.setPc_panicked, hnone, room, LOGSIZE, MAXOPBLOCKS] at *
    simp; omega
  | tooBig hpc hge =>
    have := hi.group_length (hi.unrecorded_of_inOp hpc)
    simp only [room, LOGSIZE, MAXOPBLOCKS] at *
    simp; omega
  | outside hpc ho =>
    have := (hi.not_committing hpc).2
    omega
  | endMore => simp [room, hnone, Sys.wakeup]
  | endPanic hpc hc => rw [(hi.not_committing hpc).1] at hc; cases hc
  | @commit p c hpc =>
    have : (s.commitStep p c).panicked = s.panicked := by
      cases c <;> simp only [Sys.commitStep] <;> (try split) <;> rfl
    simp [room, this, hnone]

/-- A run is safe exactly when every `log_write` on its way has room. -/
theorem safe_run_iff (acts : List (Act P)) (s : Sys P) (hi : s.Inv) (hf : Fits s) (hs : Safe s)
    (hr : (runActs Sys.step s acts).isSome) :
    Along Sys.step Safe s acts ↔ GuardedActs Sys.step room s acts := by
  induction acts generalizing s with
  | nil => simp [Along, GuardedActs, hs]
  | cons a as ih =>
    simp only [Along, GuardedActs]
    simp only [runActs] at hr
    cases h1 : s.step a with
    | none => rw [h1] at hr; cases hr
    | some s1 =>
      rw [h1] at hr
      have hi1 := Sys.step_inv hi h1
      have hf1 := step_fits hf h1
      have hbig := tooBig_iff hi hf h1
      have huniq : ∀ s', some s1 = some s' → s' = s1 := by
        intro s' h'; cases h'; rfl
      by_cases hroom : room s a
      · have hs1 : Safe s1 := hf1.safe (fun h => (hbig.1 h) hroom)
        have ih := ih s1 hi1 hf1 hs1 hr
        constructor
        · rintro ⟨_, h⟩
          exact ⟨hroom, fun s' h' => by rw [huniq s' h']; exact ih.1 (h s1 rfl)⟩
        · rintro ⟨_, h⟩
          exact ⟨hs, fun s' h' => by rw [huniq s' h']; exact ih.2 (h s1 rfl)⟩
      · constructor
        · rintro ⟨_, h⟩
          -- without room the next state has panicked, and `Along` asks it to be safe
          have hal := h s1 rfl
          have hs1 : Safe s1 := by
            cases as with
            | nil => exact hal
            | cons b bs => exact hal.1
          exact absurd (hbig.2 hroom) hs1.1
        · rintro ⟨h, _⟩
          exact absurd h hroom

/-! ## Operations of at most `MAXOPBLOCKS - 1` blocks -/

/-- The number of distinct blocks the operation of a process has logged. -/
def Pc.logged : Pc → Nat
  | .inOp ws => ws.length
  | _ => 0

/-- With a quota of `MAXOPBLOCKS - 1`, the header plus what the running operations may still add
stays below the capacity of the log. -/
def Reserved (s : Sys P) : Prop :=
  ∃ A, Sys.Active s A ∧
    s.log.lh.length + ∑ p ∈ A, (MAXOPBLOCKS - 1 - (s.pc p).logged) ≤ LOGSIZE - 2

theorem Reserved.length_lt (hr : Reserved s) : s.log.lh.length < LOGSIZE - 1 := by
  obtain ⟨A, _, h⟩ := hr
  have : 2 < LOGSIZE := by decide
  omega

theorem Reserved.recolor (hr : Reserved s) (hlh : s'.log.lh.length ≤ s.log.lh.length)
    (hop : ∀ q ws, s'.pc q = .inOp ws ↔ s.pc q = .inOp ws) : Reserved s' := by
  obtain ⟨A, hA, h⟩ := hr
  refine ⟨A, by simpa only [Sys.Active, hop] using hA, ?_⟩
  have hsum : ∑ p ∈ A, (MAXOPBLOCKS - 1 - (s'.pc p).logged) =
      ∑ p ∈ A, (MAXOPBLOCKS - 1 - (s.pc p).logged) := by
    refine Finset.sum_congr rfl fun p hp => ?_
    obtain ⟨ws, hws⟩ := (hA p).1 hp
    rw [hws, (hop p ws).2 hws]
  omega

theorem Reserved.enter (hi : s.Inv) (hpc : s.pc p = .beginOp) (hc : s.log.committing = false)
    (hadm : (s.log.lh.length : Int) + (s.log.outstanding + 1) * MAXOPBLOCKS ≤ LOGSIZE) :
    Reserved (({ s with log := { s.log with outstanding := s.log.outstanding + 1 } }).setPc p
      (.inOp [])) := by
  obtain ⟨A, hA, hcard⟩ := hi.active
  have hpA : p ∉ A := by rw [hA p, hpc]; simp
  refine ⟨insert p A, hA.enter, ?_⟩
  -- every running operation may still add at most `MAXOPBLOCKS - 1` blocks
  have hsum : ∑ q ∈ insert p A, (MAXOPBLOCKS - 1 -
      ((({ s with log := { s.log with outstanding := s.log.outstanding + 1 } } : Sys P).setPc p
        (.inOp [])).pc q).logged) ≤ (insert p A).card * (MAXOPBLOCKS - 1) := by
    rw [← smul_eq_mul]
    exact Finset.sum_le_card_nsmul _ _ _ fun q _ => by omega
  rw [Finset.card_insert_of_notMem hpA] at hsum
  have hq : s.log.outstanding = 0 → s.log.lh.length = 0 := fun h0 => by
    rw [(hi.quiet hc h0).1]; rfl
  simp only [Sys.setPc_log, LOGSIZE, MAXOPBLOCKS] at *
  by_cases h0 : s.log.outstanding = 0
  · have := hq h0
    omega
  · omega

theorem Reserved.write (hr : Reserved s) {b : Nat} {ws lh : List Nat}
    (hpc : s.pc p = .inOp ws) (hlen : lh.length ≤ s.log.lh.length + 1)
    (hold : b ∈ ws → lh.length ≤ s.log.lh.length) (hquota : (ws.insert b).length ≤ MAXOPBLOCKS - 1) :
    Reserved (({ s with
      log := { s.log with lh := lh }
      group := s.group.insert b }).setPc p (.inOp (ws.insert b))) := by
  obtain ⟨A, hA, h⟩ := hr
  have hpA : p ∈ A := (hA p).2 ⟨ws, hpc⟩
  refine ⟨A, ?_, ?_⟩
  · intro q
    rw [hA q, Sys.setPc_pc]
    by_cases hq : q = p
    · subst hq; simp [hpc]
    · simp [hq]
  · rw [← Finset.add_sum_erase A _ hpA] at h ⊢
    have hrest : ∑ q ∈ A.erase p, (MAXOPBLOCKS - 1 - ((({ s with
        log := { s.log with lh := lh }
        group := s.group.insert b } : Sys P).setPc p (.inOp (ws.insert b))).pc q).logged) =
        ∑ q ∈ A.erase p, (MAXOPBLOCKS - 1 - (s.pc q).logged) := by
      refine Finset.sum_congr rfl fun q hq => ?_
      rw [Sys.setPc_pc, if_neg (Finset.ne_of_mem_erase hq)]
    rw [hrest]
    simp only [Sys.setPc_log, Sys.setPc_pc, if_pos, hpc, Pc.logged] at *
    by_cases hb : b ∈ ws
    · rw [List.insert_of_mem hb] at *
      have := hold hb
      omega
    · rw [List.insert_of_not_mem hb, List.length_cons] at *
      omega

theorem Reserved.leave (hr : Reserved s) (hlh : s'.log.lh = s.log.lh) (hp : ∀ ws, s'.pc p ≠ .inOp ws)
    (hne : ∀ q, q ≠ p → ∀ ws, s'.pc q = .inOp ws ↔ s.pc q = .inOp ws) : Reserved s' := by
  obtain ⟨A, hA, h⟩ := hr
  refine ⟨A.erase p, hA.leave hp hne, ?_⟩
  have hsum : ∑ q ∈ A.erase p, (MAXOPBLOCKS - 1 - (s'.pc q).logged) =
      ∑ q ∈ A.erase p, (MAXOPBLOCKS - 1 - (s.pc q).logged) := by
    refine Finset.sum_congr rfl fun q hq => ?_
    obtain ⟨hqp, hqA⟩ := Finset.mem_erase.1 hq
    obtain ⟨ws, hws⟩ := (hA q).1 hqA
    rw [hws, (hne q hqp ws).2 hws]
  have hle : ∑ q ∈ A.erase p, (MAXOPBLOCKS - 1 - (s.pc q).logged) ≤
      ∑ q ∈ A, (MAXOPBLOCKS - 1 - (s.pc q).logged) :=
    Finset.sum_le_sum_of_subset (Finset.erase_subset _ _)
  rw [hlh]
  omega

/-- Nobody is inside an operation during a commit, so its steps only shrink the header. -/
theorem Reserved.commitStep (hi : s.Inv) (hr : Reserved s) {c : CommitPc}
    (hpc : s.pc p = .commit c) : Reserved (s.commitStep p c) := by
  obtain ⟨hcom, hout, hnoop, _⟩ := hi.committing hpc
  have hout' : (s.commitStep p c).log.outstanding = 0 := by
    rw [← hout]
    cases c <;> simp only [Sys.commitStep] <;> (try split) <;> rfl
  have hnoop' := (hi.commitStep hpc).no_op_idle hout'
  refine hr.recolor ?_ fun q ws => ⟨fun h => absurd h (hnoop' q ws), fun h => absurd h (hnoop q ws)⟩
  cases c with
  | clear => simp [Sys.commitStep]
  | start | writeLog tail | install tail => simp only [Sys.commitStep]; split <;> exact Nat.le_refl _
  | writeHead | clearHead | finish => exact Nat.le_refl _

theorem step_reserved (hi : s.Inv) (hr : Reserved s)
    (hq : withinQuota (MAXOPBLOCKS - 1) s a) (h : s.step a = some s') : Reserved s' := by
  obtain ⟨_, hs⟩ := Sys.step_cases h
  cases hs with
  | @call p hpc | @sleep p hpc =>
    refine hr.recolor (Nat.le_refl _) fun q ws => ?_
    rw [Sys.setPc_pc]; split
    · rename_i hq; subst hq; rw [hpc]; simp
    · rfl
  | enter hpc hc hadm => exact Reserved.enter hi hpc hc hadm
  | absorb hpc hb _ _ => exact hr.write hpc (Nat.le_succ _) (fun _ => Nat.le_refl _) (hq _ hpc)
  | append hpc hb _ _ =>
    refine hr.write hpc (by simp) (fun hbws => ?_) (hq _ hpc)
    -- a block this operation has logged before is in the header
    exact absurd ((hi.logged (hi.unrecorded_of_inOp hpc) _).2 (Or.inr ⟨_, _, hpc, hbws⟩)) hb
  | tooBig | outside | endPanic => exact hr
  | @endLast p ws hpc _ _ =>
    refine hr.leave (p := p) rfl (by simp [Sys.setPc_pc]) fun q hqp vs => ?_
    rw [Sys.setPc_pc, if_neg hqp]
  | @endMore p ws hpc _ _ =>
    refine hr.leave (p := p) rfl (by simp [Sys.setPc_pc]) fun q hqp vs => ?_
    rw [Sys.setPc_pc, if_neg hqp, Sys.wakeup_inOp]
  | commit hpc => exact Reserved.commitStep hi hr hpc

theorem room_of_reserved (hi : s.Inv) (hr : Reserved s) (h : s.step a = some s') : room s a := by
  obtain ⟨_, hs⟩ := Sys.step_cases h
  have hlt := hr.length_lt
  cases hs with
  | absorb hpc | append hpc | tooBig hpc | outside hpc =>
    show _ < _; rw [hi.group_length (hi.unrecorded_of_inOp hpc)]; exact hlt
  | call => trivial
  | enter => trivial
  | sleep => trivial
  | endLast => trivial
  | endMore => trivial
  | endPanic => trivial
  | commit => trivial

theorem room_run_of_quota : ∀ (acts : List (Act P)) (s : Sys P), s.Inv → Reserved s →
    GuardedActs Sys.step (withinQuota (MAXOPBLOCKS - 1)) s acts →
    (runActs Sys.step s acts).isSome → GuardedActs Sys.step room s acts
  | [], _, _, _, _, _ => trivial
  | a :: as, s, hi, hr, hq, hrun => by
    simp only [runActs] at hrun
    split at hrun
    · rename_i s1 h1
      refine ⟨room_of_reserved hi hr h1, fun s' h' => ?_⟩
      rw [h1] at h'; cases h'
      exact room_run_of_quota as s1 (Sys.step_inv hi h1) (step_reserved hi hr hq.1 h1) (hq.2 s1 h1) hrun
    · cases hrun

/-- The log area that `mkfs` lays out: `nlog = LOGSIZE` blocks, the header included. -/
abbrev mkfsLog (start : Nat) : Sys P := Sys.init start LOGSIZE

theorem mkfsLog_fits (start : Nat) : Fits (mkfsLog start : Sys P) :=
  ⟨rfl, by simp [Sys.init, Log.init]⟩

theorem mkfsLog_safe (start : Nat) : Safe (mkfsLog start : Sys P) :=
  (mkfsLog_fits start).safe (by simp [Sys.init])

theorem mkfsLog_reserved (start : Nat) : Reserved (mkfsLog start : Sys P) :=
  ⟨∅, by simp [Sys.Active, Sys.init], by simp [Sys.init, Log.init]⟩

/-- **The reservation is enough exactly when every `log_write` still has room.**  Operations that
stay one block below `MAXOPBLOCKS` always have it. -/
theorem log_space_iff (start : Nat) (acts : List (Act P))
    (hrun : (runActs Sys.step (mkfsLog start) acts).isSome) :
    (Along Sys.step Safe (mkfsLog start) acts ↔ GuardedActs Sys.step room (mkfsLog start) acts) ∧
    (GuardedActs Sys.step (withinQuota (MAXOPBLOCKS - 1)) (mkfsLog start) acts →
      Along Sys.step Safe (mkfsLog start) acts) := by
  have hiff := safe_run_iff acts (mkfsLog start) (Sys.init_inv start LOGSIZE) (mkfsLog_fits start)
    (mkfsLog_safe start) hrun
  refine ⟨hiff, fun hq => hiff.2 ?_⟩
  exact room_run_of_quota acts _ (Sys.init_inv start LOGSIZE) (mkfsLog_reserved start) hq hrun

/-- Two operations log three blocks each and commit together. -/
def twoSmallOps : List (Act Bool) :=
  [.call false, .beginOp false, .call true, .beginOp true] ++
    [46, 50, 51].map (Act.logWrite false) ++ [46, 60, 61].map (Act.logWrite true) ++
    [.endOp false, .endOp true] ++ List.replicate 6 (Act.commit true)

theorem log_space_two_small_ops :
    Along Sys.step Safe (mkfsLog 2 : Sys Bool) twoSmallOps ↔
      GuardedActs Sys.step room (mkfsLog 2 : Sys Bool) twoSmallOps :=
  (log_space_iff 2 twoSmallOps (by decide)).1

/-- Three operations are admitted together and log ten blocks of their own each. -/
def threeFullOps : List (Act (Fin 3)) :=
  [0, 1, 2].map Act.call ++ [0, 1, 2].map Act.beginOp ++
    (List.range 10).map (fun i => Act.logWrite 0 (50 + i)) ++
    (List.range 10).map (fun i => Act.logWrite 1 (60 + i)) ++
    (List.range 10).map (fun i => Act.logWrite 2 (70 + i))

/-- The guard `withinQuota MAXOPBLOCKS` as a computation. -/
def quotaRun (s : Sys (Fin 3)) : List (Act (Fin 3)) → Bool
  | [] => true
  | .logWrite p b :: as =>
    (match s.pc p with
      | .inOp ws => decide ((ws.insert b).length ≤ MAXOPBLOCKS)
      | _ => true) &&
    (match s.step (.logWrite p b) with
      | some s' => quotaRun s' as
      | none => true)
  | a :: as =>
    match s.step a with
    | some s' => quotaRun s' as
    | none => true

theorem quotaRun_guarded : ∀ (acts : List (Act (Fin 3))) (s : Sys (Fin 3)), quotaRun s acts = true →
    GuardedActs Sys.step (withinQuota MAXOPBLOCKS) s acts
  | [], _, _ => trivial
  | .logWrite p b :: as, s, h => by
    simp only [quotaRun, Bool.and_eq_true] at h
    refine ⟨fun ws hws => ?_, fun s' hs' => ?_⟩
    · have := h.1; rw [hws] at this; simpa using this
    · have := h.2; rw [hs'] at this; exact quotaRun_guarded as s' this
  | .call p :: as, s, h => ⟨trivial, fun s' hs' => by
    simp only [quotaRun, hs'] at h; exact quotaRun_guarded as s' h⟩
  | .beginOp p :: as, s, h => ⟨trivial, fun s' hs' => by
    simp only [quotaRun, hs'] at h; exact quotaRun_guarded as s' h⟩
  | .endOp p :: as, s, h => ⟨trivial, fun s' hs' => by
    simp only [quotaRun, hs'] at h; exact quotaRun_guarded as s' h⟩
  | .commit p :: as, s, h => ⟨trivial, fun s' hs' => by
    simp only [quotaRun, hs'] at h; exact quotaRun_guarded as s' h⟩

/-- **Three full operations reach the panic**, although each stays within `MAXOPBLOCKS`. -/
theorem log_space_three_full_ops :
    GuardedActs Sys.step (withinQuota MAXOPBLOCKS) (mkfsLog 2 : Sys (Fin 3)) threeFullOps ∧
      ∃ s, runActs Sys.step (mkfsLog 2) threeFullOps = some s ∧
        s.panicked = some "too big a transaction" := by
  refine ⟨quotaRun_guarded _ _ (by decide), ?_⟩
  have h : (runActs Sys.step (mkfsLog 2 : Sys (Fin 3)) threeFullOps).map (·.panicked) =
      some (some "too big a transaction") := by decide
  obtain ⟨s, hs, hp⟩ := Option.map_eq_some_iff.1 h
  exact ⟨s, hs, hp⟩

end Xv6
