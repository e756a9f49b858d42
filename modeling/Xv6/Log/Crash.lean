import Xv6.Log.Transactions

/-!
# Crashes during a commit

A crash leaves the disk as it is between two block writes.  The next boot starts with a cold cache
and runs `recover_from_log`, which may be cut short the same way, any number of times.

* `bootLog` — `struct log` when `initlog` calls `recover_from_log`.
* `CutRecovery` — the disks that a recovery may leave when it is cut after some of its writes.
* `Progress` — how far the disk is, relative to the state in which `commit` was called.

Principal result: `crash_atomic`.
-/

namespace Xv6

open Prog Bio RedoLog Transition

/-- `struct log` when `initlog` calls `recover_from_log`. -/
def bootLog (sb : LogSuper) : Log :=
  { start := sb.logstart, size := sb.nlog, outstanding := 0, committing := false, dev := ROOTDEV,
    lh := [] }

/-- A recovery from the disk `d` that is cut after `k` of its block writes leaves the disk `d'`. -/
def CutRecovery (sb : LogSuper) (d d' : Nat → Block) : Prop :=
  ∃ k, d' = applyWrites d ((recoverFromLog (bootLog sb) (Bio.binit d)).state.writes.take k)

section recovery

variable {sb : LogSuper} {d d' : Nat → Block} {b : Nat}

/-- A recovery that runs to its end leaves the view of the log on the home blocks. -/
theorem recovered_home (hs : (logGeometry sb.logstart sb.nlog).Sane d)
    (hb : (logGeometry sb.logstart sb.nlog).Home b) :
    applyWrites d (recoveryWrites (logGeometry sb.logstart sb.nlog) d) b =
      (logGeometry sb.logstart sb.nlog).view d b := by
  rw [applyWrites_recoveryWrites, Function.update_of_ne hb.1, ← (Geometry.installed_all hs).view,
    Geometry.view_installed hs]

/-- One that is cut leaves the view as it was. -/
theorem view_cut (hs : (logGeometry sb.logstart sb.nlog).Sane d) (k : Nat) :
    (logGeometry sb.logstart sb.nlog).Sane
      (applyWrites d ((recoveryWrites (logGeometry sb.logstart sb.nlog) d).take k)) ∧
    ∀ b, (logGeometry sb.logstart sb.nlog).Home b →
      (logGeometry sb.logstart sb.nlog).view
        (applyWrites d ((recoveryWrites (logGeometry sb.logstart sb.nlog) d).take k)) b =
      (logGeometry sb.logstart sb.nlog).view d b := by
  by_cases hk : k ≤ ((logGeometry sb.logstart sb.nlog).replay d).length
  · -- only installs were made
    rw [recoveryWrites, List.take_append_of_le_length hk]
    refine ⟨?_, fun b _ => Geometry.view_installed hs k⟩
    have := Geometry.logged_installed hs k
    rw [Geometry.installed] at this
    rw [Geometry.Sane, this]
    exact hs
  · have hlen : (recoveryWrites (logGeometry sb.logstart sb.nlog) d).length ≤ k := by
      simp only [recoveryWrites, List.length_append, List.length_singleton]
      omega
    rw [List.take_of_length_le hlen]
    have hnil := logged_recovered sb.logstart sb.nlog d
    refine ⟨by rw [Geometry.Sane, hnil]; exact Geometry.listed_nil, fun b hb => ?_⟩
    rw [Geometry.view_of_logged_nil hnil, recovered_home hs hb]

theorem recoverFromLog_total (hs : (logGeometry sb.logstart sb.nlog).Sane d) :
    ∃ s', recoverFromLog (bootLog sb) (Bio.binit d) = .ok (bootLog sb) s' ∧
      s'.writes = recoveryWrites (logGeometry sb.logstart sb.nlog) d ∧
      s'.disk = applyWrites d s'.writes := by
  obtain ⟨l', s', hr, rfl, -, -, hw, hd⟩ := wp_total (recoverFromLog_spec (l := bootLog sb) rfl hs)
  exact ⟨s', hr, hw, hd⟩

/-- Cut recoveries, one after the other, keep the view. -/
theorem view_cuts (hs : (logGeometry sb.logstart sb.nlog).Sane d)
    (h : Relation.ReflTransGen (CutRecovery sb) d d') :
    (logGeometry sb.logstart sb.nlog).Sane d' ∧
    ∀ b, (logGeometry sb.logstart sb.nlog).Home b →
      (logGeometry sb.logstart sb.nlog).view d' b = (logGeometry sb.logstart sb.nlog).view d b := by
  induction h with
  | refl => exact ⟨hs, fun _ _ => rfl⟩
  | tail _ hcut ih =>
    obtain ⟨hs₁, hv₁⟩ := ih
    obtain ⟨k, rfl⟩ := hcut
    obtain ⟨s', hr, hw, -⟩ := recoverFromLog_total hs₁
    rw [hr]
    simp only [Res.state, hw]
    obtain ⟨hs₂, hv₂⟩ := view_cut hs₁ k
    exact ⟨hs₂, fun b hb => by rw [hv₂ b hb, hv₁ b hb]⟩

end recovery

namespace Trans

variable {sb : LogSuper} {D : Nat → Block} {s₀ s s' : Trans}

/-- `commit` has not written the header yet. -/
def early (s : Trans) : Bool :=
  match s.pc with
  | some .start | some (.writeLog _) | some .writeHead => true
  | _ => false

/-- How far the disk is, when `commit` was called in the state `s₀`: up to the first `write_head`
the home blocks are those of `s₀`; from then on the log holds what `s₀` had stored. -/
structure Progress (sb : LogSuper) (s₀ s : Trans) : Prop where
  stored : s.stored = s₀.stored
  before : s.early = true → s.log.lh = s₀.log.lh ∧
    ∀ b, (logGeometry sb.logstart sb.nlog).Home b → s.bio.disk b = s₀.bio.disk b
  after : s.early = false → ∀ b, (logGeometry sb.logstart sb.nlog).Home b →
    (logGeometry sb.logstart sb.nlog).view s.bio.disk b = s₀.flat b

/-- While `commit` runs, the other threads can only read. -/
theorem Inv.step_other (hi : s.Inv sb D) (hpc : s.pc ≠ none) {a : Op} (ha : a ≠ .commit)
    (h : s.step a = some s') :
    s'.bio.disk = s.bio.disk ∧ s'.log = s.log ∧ s'.pc = s.pc ∧ s'.stored = s.stored := by
  obtain ⟨hcom, hout⟩ := hi.busy hpc
  cases a with
  | commit => exact absurd rfl ha
  | beginOp => simp [step, Log.beginOp, hcom] at h
  | bread b =>
    simp only [step] at h
    split at h
    · split at h <;> cases h
      rename_i i bio hr
      have := wp_ok (hi.cached.bread_spec b (E := fun _ => True) (Or.inr fun _ _ => trivial)) hr
      exact ⟨this.disk, rfl, rfl, rfl⟩
    · cases h
  | modify i d | endOp => simp [step, hout] at h
  | logWrite i =>
    simp only [step] at h
    split at h
    · split at h <;> cases h
      rename_i hl
      obtain ⟨-, -, ho, -⟩ := Log.logWrite_ok hl
      omega
    · cases h
  | brelse i =>
    simp only [step] at h
    split at h
    · cases h
    · split at h <;> cases h
      rename_i hr
      refine ⟨?_, rfl, rfl, rfl⟩
      have : wp (brelse i) (fun _ t => t.disk = s.bio.disk) (fun _ => True) s.bio := by
        unfold brelse releasesleep
        simp only [wp_bind, wp_get, wp_ite, wp_modify, wp_panicWith]
        split
        · split <;> rfl
        · trivial
      have hd := wp_ok this hr
      exact hd

/-- The first `write_head` of `commit` makes the stored contents of the whole transaction the
recoverable ones. -/
theorem Inv.view_head (hi : s.Inv sb D) (hpc : s.pc = some .writeHead) {v : Block}
    (hv : decodeHead v = s.log.lh) {b : Nat} (hb : (logGeometry sb.logstart sb.nlog).Home b) :
    (logGeometry sb.logstart sb.nlog).view (Function.update s.bio.disk sb.logstart v) b =
      s.flat b := by
  have hl : (logGeometry sb.logstart sb.nlog).Listed
      ((logGeometry sb.logstart sb.nlog).entries v) := by
    show (logGeometry sb.logstart sb.nlog).Listed (decodeHead v)
    rw [hv]; exact hi.listed
  have hview := Geometry.view_header (d := s.bio.disk) hl hb
  rw [logGeometry_header] at hview
  rw [hview]
  show (if b ∈ decodeHead v then s.bio.disk (sb.logstart + (decodeHead v).idxOf b + 1)
    else s.bio.disk b) = _
  rw [hv]
  split
  · rename_i hmem
    have hlt := List.idxOf_lt_length_of_mem hmem
    exact hi.slots _ (by simp only [copied, hpc]; exact hlt) b
      (by rw [List.getElem?_eq_getElem hlt, List.getElem_idxOf hlt])
  · rename_i hmem
    have := hi.cached.disk b
    simp only [pins, hpc] at this
    exact this hmem

theorem Progress.commit (hi : s.Inv sb D) (hp : Progress sb s₀ s) (h : CommitTo s s') :
    Progress sb s₀ s' := by
  have hheader := hi.header
  cases h with
  | begin hpc _ | copied hpc _ =>
    exact ⟨hp.stored, fun _ => hp.before (by simp [early, hpc]), fun h => by cases h⟩
  | nothing hpc hnil =>
    obtain ⟨-, hdisk⟩ := hp.before (by simp [early, hpc])
    simp only [headerOk, hpc] at hheader
    refine ⟨hp.stored, (by intro h; cases h), fun _ b hb => ?_⟩
    have hpin := hi.cached.disk b (by simp [pins, hpc, hnil])
    show (logGeometry sb.logstart sb.nlog).view s.bio.disk b = _
    rw [Geometry.view_of_logged_nil hheader, hpin, flat, flat, hp.stored, hdisk b hb]
  | @slot tail b bio hpc hb hput =>
    obtain ⟨hlh, hdisk⟩ := hp.before (by simp [early, hpc])
    obtain ⟨hlt, -⟩ := List.getElem?_eq_some_iff.1 hb
    refine ⟨hp.stored, fun _ => ⟨hlh, fun c hc => ?_⟩, fun h => by cases h⟩
    show bio.disk c = _
    have hne : c ≠ s.log.start + tail + 1 := by
      rw [hi.start]
      exact hc.2 tail (Nat.lt_of_lt_of_le hlt hi.listed.room)
    rw [hput.disk, Function.update_of_ne hne, hdisk c hc]
  | @head bio hpc hput =>
    obtain ⟨hlh, hdisk⟩ := hp.before (by simp [early, hpc])
    refine ⟨hp.stored, (by intro h; cases h), fun _ b hb => ?_⟩
    show (logGeometry sb.logstart sb.nlog).view bio.disk b = _
    rw [hput.disk, hi.start, hi.view_head hpc
      (decodeHead_fillHead hi.room (fun b hb => (hi.logged b hb).2) _) hb, flat, flat, hp.stored,
      hdisk b hb]
  | @install tail b bio hpc hb hput =>
    have hview := hp.after (by simp [early, hpc])
    simp only [headerOk, hpc] at hheader
    obtain ⟨hlt, hbt⟩ := List.getElem?_eq_some_iff.1 hb
    have hcap : tail < sb.nlog - 1 := Nat.lt_of_lt_of_le hlt hi.listed.room
    refine ⟨hp.stored, (by intro h; cases h), fun _ c hc => ?_⟩
    show (logGeometry sb.logstart sb.nlog).view bio.disk c = _
    have hs : (logGeometry sb.logstart sb.nlog).Sane s.bio.disk := by
      rw [Geometry.Sane, hheader]; exact hi.listed
    have hlt' : tail < ((logGeometry sb.logstart sb.nlog).logged s.bio.disk).length := by
      rw [hheader]; exact hlt
    have hinst := Geometry.view_install (a := c) hs hlt'
    simp only [hheader, hbt, logGeometry_slot] at hinst
    rw [hput.disk, hi.start, flat_of_none (hi.slot_not_stored hcap), hinst, hview c hc]
  | installed hpc _ | clear hpc =>
    exact ⟨hp.stored, (by intro h; cases h), fun _ => hp.after (by simp [early, hpc])⟩
  | @erase bio hpc hput =>
    have hview := hp.after (by simp [early, hpc])
    simp only [headerOk, hpc] at hheader
    refine ⟨hp.stored, (by intro h; cases h), fun _ c hc => ?_⟩
    show (logGeometry sb.logstart sb.nlog).view bio.disk c = _
    have hclear := Geometry.view_clear (v := fillHead s.log.lh (s.flat sb.logstart)) hheader.2.1
      (by show decodeHead _ = []; rw [hheader.2.2]; exact decodeHead_erased _) hc
    rw [logGeometry_header] at hclear
    rw [hput.disk, hi.start, hclear, hview c hc]

theorem Progress.step (hi : s.Inv sb D) (hp : Progress sb s₀ s) (hpc : s.pc ≠ none) {a : Op}
    (h : s.step a = some s') : Progress sb s₀ s' := by
  by_cases ha : a = .commit
  · subst ha
    rcases hi.step_commit h with hc | ⟨hfin, rfl⟩
    · exact hp.commit hi hc
    · exact ⟨hp.stored, (by intro h; cases h), fun _ => hp.after (by simp [early, hfin])⟩
  · obtain ⟨hd, hl, hpc', hst⟩ := hi.step_other hpc ha h
    have he : s'.early = s.early := by simp only [early, hpc']
    refine ⟨by rw [hst, hp.stored], fun h => ?_, fun h => ?_⟩
    · rw [hl, hd]; exact hp.before (he ▸ h)
    · rw [hd]; exact hp.after (he ▸ h)

/-- The states from `s₀` on in which the `commit` that was called in `s₀` is under way, up to the
one in which it has just returned. -/
def Committing (s₀ : Trans) : Trans → Prop := Reach Trans.step (fun s _ => s.pc ≠ none) (· = s₀)

theorem Committing.progress (hn : 0 < sb.nlog) (hi : s₀.Inv sb D) (hpc : s₀.pc = some .start)
    (h : Committing s₀ s) : s.Inv sb D ∧ Progress sb s₀ s := by
  refine Reach.invariant (I := fun s => s.Inv sb D ∧ Progress sb s₀ s) ?_ ?_ h
  · rintro _ rfl
    exact ⟨hi, rfl, fun _ => ⟨rfl, fun _ _ => rfl⟩, fun h => by simp [early, hpc] at h⟩
  · intro t a t' ⟨hit, hpt⟩ hguard hstep
    exact ⟨step_inv hn hit hstep, hpt.step hit hguard hstep⟩

/-- The header on the disk is always one that recovery can use. -/
theorem Inv.sane (hi : s.Inv sb D) : (logGeometry sb.logstart sb.nlog).Sane s.bio.disk := by
  have hheader := hi.header
  rw [Geometry.Sane]
  unfold headerOk at hheader
  split at hheader
  · rw [hheader]; exact hi.listed
  · rw [hheader]; exact hi.listed
  · exact hheader.1
  · rw [hheader]; exact Geometry.listed_nil

/-- The home blocks of `d` are those of the disk on which `commit` was called. -/
def Unchanged (sb : LogSuper) (s₀ : Trans) (d : Nat → Block) : Prop :=
  ∀ b, (b < sb.logstart ∨ sb.logstart + sb.nlog ≤ b) → d b = s₀.bio.disk b

/-- The home blocks of `d` are those of that disk with every block of the transaction replaced by
its logged contents. -/
def Replaced (sb : LogSuper) (s₀ : Trans) (d : Nat → Block) : Prop :=
  ∀ b, (b < sb.logstart ∨ sb.logstart + sb.nlog ≤ b) →
    (b ∈ s₀.log.lh → s₀.stored b = some (d b)) ∧ (b ∉ s₀.log.lh → d b = s₀.bio.disk b)

theorem replaced_of_flat (hn : 0 < sb.nlog) (hi : s₀.Inv sb D) (hpc : s₀.pc = some .start)
    {d : Nat → Block} (h : ∀ b, (logGeometry sb.logstart sb.nlog).Home b → d b = s₀.flat b) :
    Replaced sb s₀ d := by
  intro b hb
  rw [h b ((home_iff hn).2 hb)]
  constructor
  · intro hmem
    obtain ⟨v, hv⟩ := Option.ne_none_iff_exists'.1 (hi.logged b hmem).1
    rw [flat, hv, Option.getD_some]
  · intro hmem
    have := hi.cached.disk b
    simp only [pins, hpc] at this
    exact (this hmem).symm

/-- **Crash atomicity.**  Let `commit` be called in any reachable state `s₀`, and let the machine
crash in any state `s` on the way of that commit.  Whatever recoveries are cut short after that, a
recovery that runs to its end returns, empties the header on the disk, and leaves every home block
as it was or every block of the transaction replaced; the latter once the header was written. -/
theorem crash_atomic (hn : 0 < sb.nlog) {d₀ : Nat → Block}
    (hd₀ : (logGeometry sb.logstart sb.nlog).Sane d₀) {t₀ : Trans} (hboot : boot sb d₀ = some t₀)
    (h₀ : Reachable t₀ s₀) (hpc : s₀.pc = some .start) (hrun : Committing s₀ s) {d : Nat → Block}
    (hcut : Relation.ReflTransGen (CutRecovery sb) s.bio.disk d) :
    ∃ s', recoverFromLog (bootLog sb) (Bio.binit d) = .ok (bootLog sb) s' ∧
      decodeHead (s'.disk sb.logstart) = [] ∧
      (Unchanged sb s₀ s'.disk ∨ Replaced sb s₀ s'.disk) ∧
      (s.early = false → Replaced sb s₀ s'.disk) := by
  have hi₀ := h₀.inv hn hd₀ hboot
  obtain ⟨hi, hp⟩ := hrun.progress hn hi₀ hpc
  obtain ⟨hsane, hview⟩ := view_cuts hi.sane hcut
  obtain ⟨s', hr, hw, hd⟩ := recoverFromLog_total hsane
  rw [hw] at hd
  have hhome : ∀ b, (logGeometry sb.logstart sb.nlog).Home b →
      s'.disk b = (logGeometry sb.logstart sb.nlog).view s.bio.disk b := fun b hb => by
    rw [hd, recovered_home hsane hb, hview b hb]
  have hnil : decodeHead (s'.disk sb.logstart) = [] := by
    rw [hd]
    exact logged_recovered _ _ d
  have hafter : s.early = false → Replaced sb s₀ s'.disk := fun he =>
    replaced_of_flat hn hi₀ hpc fun b hb => by rw [hhome b hb, hp.after he b hb]
  refine ⟨s', hr, hnil, ?_, hafter⟩
  cases he : s.early with
  | false => exact Or.inr (hafter he)
  | true =>
    left
    intro b hb
    have hbh := (home_iff hn).2 hb
    have hlogged : (logGeometry sb.logstart sb.nlog).logged s.bio.disk = [] := by
      have hheader := hi.header
      unfold early at he
      unfold headerOk at hheader
      split at he
      · rename_i hs; rw [hs] at hheader; exact hheader
      · rename_i hs; rw [hs] at hheader; exact hheader
      · rename_i hs; rw [hs] at hheader; exact hheader
      · cases he
    rw [hhome b hbh, Geometry.view_of_logged_nil hlogged, (hp.before he).2 b hbh]

/-- A commit of block 40, up to the point where the header is on the disk. -/
def oneCommit : List Op := [.commit, .commit, .commit, .commit]

theorem oneCommit_run : ((boot ⟨2, 30⟩ fun _ _ => 0).bind fun t₀ =>
    (runActs step t₀ (oneWrite ++ [.endOp])).bind fun s₀ =>
      (runActs step s₀ oneCommit).map fun s => (s₀.log.lh, s₀.pc, s.early, s.pc)) =
      some ([40], some .start, false, some (.install 0)) := by
  decide +kernel

/-- A crash there, before block 40 has been installed, and one more during the recovery. -/
theorem crash_atomic_oneCommit :
    ∃ t₀ s₀ s s' d, boot ⟨2, 30⟩ (fun _ _ => 0) = some t₀ ∧ Reachable t₀ s₀ ∧ Committing s₀ s ∧
      s₀.log.lh = [40] ∧ s.pc = some (.install 0) ∧ CutRecovery ⟨2, 30⟩ s.bio.disk d ∧
      recoverFromLog (bootLog ⟨2, 30⟩) (Bio.binit d) = .ok (bootLog ⟨2, 30⟩) s' ∧
      Replaced ⟨2, 30⟩ s₀ s'.disk := by
  obtain ⟨t₀, hboot, h⟩ := Option.bind_eq_some_iff.1 oneCommit_run
  obtain ⟨s₀, hrun₀, h⟩ := Option.bind_eq_some_iff.1 h
  obtain ⟨s, hrun, hs⟩ := Option.map_eq_some_iff.1 h
  simp only [Prod.mk.injEq] at hs
  obtain ⟨hlh, hpc, he, hpcs⟩ := hs
  have h₀ : Reachable t₀ s₀ := by
    have h1 : Reachable t₀ t₀ := .init rfl
    exact h1.runActs (guardedActs_true step t₀ _) hrun₀
  have hguard : GuardedActs step (fun s _ => s.pc ≠ none) s₀ oneCommit := by
    refine guardedActs_of_enabled (fun s a s' ha hstep hnone => ?_) hrun
    have : a = .commit := by simpa [oneCommit] using ha
    subst this
    simp [step, hnone] at hstep
  have hc : Committing s₀ s := by
    have h1 : Committing s₀ s₀ := .init rfl
    exact h1.runActs hguard hrun
  have hcut : CutRecovery ⟨2, 30⟩ s.bio.disk
      (applyWrites s.bio.disk
        ((recoverFromLog (bootLog ⟨2, 30⟩) (Bio.binit s.bio.disk)).state.writes.take 1)) := ⟨1, rfl⟩
  obtain ⟨s', hr, -, -, hnew⟩ := crash_atomic (by decide) (logGeometry_sane_zero 2 30) hboot
    h₀ hpc hc (.single hcut)
  exact ⟨t₀, s₀, s, s', _, hboot, h₀, hc, hlh, hpcs, hcut, hr, hnew he⟩

end Trans

end Xv6
