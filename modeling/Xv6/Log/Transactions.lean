import Xv6.Lib.Transition
import Xv6.Log.Commit

/-!
# Transactions over the buffer cache

The buffer cache and the log together, driven by any sequence of `begin_op`, `bread`, changes to
held buffers, `log_write`, `brelse` and `end_op`; `commit` advances by one disk write at a time, so
that other threads may hold and read buffers while it runs.

* `Trans` — the cache, the log, where `commit` stands, and two history variables that the code
  does not have: `stored` (what `log_write` last stored in a block) and `dirty` (the holder has
  changed the buffer since it was read or logged).
* `step` — one action.  A panic or a wait is `none`.  A caller changes a buffer only inside a
  transaction and outside the log area, and hands it to `log_write` before `brelse` and `end_op`.
* `flat` — the block store that all this implements.

Principal results: `cache_refines_flat_store` and, over crashes, `crash_atomic`.
-/

namespace Xv6

open Prog Bio RedoLog Transition Function

/-- One step of `commit` on the log `l`. -/
def commitStep (l : Log) : CommitPc → Prog Bio (Log × CommitPc)
  | .start => pure (l, if 0 < l.lh.length then .writeLog 0 else .finish)
  | .writeLog tail =>
    if tail < l.lh.length then do
      writeLogBlock l tail
      pure (l, .writeLog (tail + 1))
    else pure (l, .writeHead)
  | .writeHead => do
    writeHead l
    pure (l, .install 0)
  | .install tail =>
    if tail < l.lh.length then do
      installBlock l false tail
      pure (l, .install (tail + 1))
    else pure (l, .clear)
  | .clear => pure ({ l with lh := [] }, .clearHead)
  | .clearHead => do
    writeHead l
    pure (l, .finish)
  | .finish => pure (l, .finish)

/-- The steps of `commit` in a row. -/
def CommitSteps (l : Log) (x y : CommitPc × Bio) : Prop :=
  Relation.ReflTransGen (fun x y => commitStep l x.1 x.2 = .ok (l, y.1) y.2) x y

theorem CommitSteps.cons {l : Log} {c c' : CommitPc} {s s' : Bio} {y : CommitPc × Bio}
    (h : commitStep l c s = .ok (l, c') s') (ht : CommitSteps l (c', s') y) :
    CommitSteps l (c, s) y :=
  Relation.ReflTransGen.head (b := (c', s')) h ht

theorem CommitSteps.loop {l : Log} {c : Nat → CommitPc} {body : Nat → Prog Bio Unit} {n : Nat}
    (hstep : ∀ t s s', t < n → body t s = .ok () s' → commitStep l (c t) s = .ok (l, c (t + 1)) s') :
    ∀ (k i : Nat) (s s' : Bio), i + k ≤ n → loop body i k s = .ok () s' →
      CommitSteps l (c i, s) (c (i + k), s')
  | 0, _, _, _, _, h => by cases h; exact .refl
  | k + 1, i, s, s', hk, h => by
    obtain ⟨_, s₁, h₁, h₂⟩ := bind_ok.1 h
    have := CommitSteps.loop hstep k (i + 1) s₁ s' (by omega) h₂
    rw [show i + 1 + k = i + (k + 1) by omega] at this
    exact .cons (hstep i s s₁ (by omega) h₁) this

/-- **The steps are those of `commit`**: a `commit` that returns goes from `start` to `clear` with
the log it was given, and from `clearHead` to `finish` with the empty one. -/
theorem commit_steps {l l' : Log} {s s' : Bio} (h : commit l s = .ok l' s') :
    (l.lh = [] ∧ l' = l ∧ CommitSteps l (.start, s) (.finish, s')) ∨
    (l' = { l with lh := [] } ∧ ∃ s₁, CommitSteps l (.start, s) (.clear, s₁) ∧
      commitStep l .clear s₁ = .ok (l', .clearHead) s₁ ∧
      CommitSteps l' (.clearHead, s₁) (.finish, s')) := by
  unfold commit at h
  split at h
  · rename_i hn
    obtain ⟨_, s₁, h₁, h⟩ := bind_ok.1 h
    obtain ⟨_, s₂, h₂, h⟩ := bind_ok.1 h
    obtain ⟨_, s₃, h₃, h⟩ := bind_ok.1 h
    obtain ⟨_, s₄, h₄, h⟩ := bind_ok.1 h
    cases h
    right
    refine ⟨rfl, s₃, ?_, rfl, ?_⟩
    · have hw : CommitSteps l (.writeLog 0, s) (.writeLog (0 + l.lh.length), s₁) :=
        CommitSteps.loop (c := .writeLog) (n := l.lh.length) (fun t s s' ht hb => by
          simp only [commitStep, if_pos ht]
          exact bind_ok.2 ⟨_, _, hb, rfl⟩) _ _ _ _ (by omega) h₁
      have hi : CommitSteps l (.install 0, s₂) (.install (0 + l.lh.length), s₃) :=
        CommitSteps.loop (c := .install) (n := l.lh.length) (fun t s s' ht hb => by
          simp only [commitStep, if_pos ht]
          exact bind_ok.2 ⟨_, _, hb, rfl⟩) _ _ _ _ (by omega) h₃
      have hstart : commitStep l .start s = .ok (l, .writeLog 0) s := by
        simp only [commitStep, if_pos hn]; rfl
      have hcopied : commitStep l (.writeLog (0 + l.lh.length)) s₁ = .ok (l, .writeHead) s₁ := by
        simp only [commitStep, Nat.zero_add, Nat.lt_irrefl, if_false]; rfl
      have hhead : commitStep l .writeHead s₁ = .ok (l, .install 0) s₂ :=
        bind_ok.2 ⟨_, _, h₂, rfl⟩
      have hdone : commitStep l (.install (0 + l.lh.length)) s₃ = .ok (l, .clear) s₃ := by
        simp only [commitStep, Nat.zero_add, Nat.lt_irrefl, if_false]; rfl
      have hend : CommitSteps l (.install (0 + l.lh.length), s₃) (.clear, s₃) := .cons hdone .refl
      exact .cons hstart (hw.trans (CommitSteps.cons hcopied (.cons hhead (hi.trans hend))))
    · exact .cons (bind_ok.2 ⟨_, _, h₄, rfl⟩) .refl
  · rename_i hn
    cases h
    have hnil : l.lh = [] := List.length_eq_zero_iff.1 (by omega)
    refine Or.inl ⟨hnil, rfl, .cons ?_ .refl⟩
    simp only [commitStep, if_neg hn]; rfl

theorem commit_steps_one : ∃ l' s' s₁,
    CommitSteps { Log.init 2 30 with lh := [40] } (.start, Bio.binit fun _ _ => 0) (.clear, s₁) ∧
    CommitSteps l' (.clearHead, s₁) (.finish, s') := by
  have hrun : ∃ l' s', commit { Log.init 2 30 with lh := [40] } (Bio.binit fun _ _ => 0) = .ok l' s' := ⟨_, _, rfl⟩
  obtain ⟨l', s', h⟩ := hrun
  rcases commit_steps h with ⟨hnil, -⟩ | ⟨-, s₁, h₁, -, h₂⟩
  · cases hnil
  · exact ⟨l', s', s₁, h₁, h₂⟩

structure Trans where
  bio : Bio
  log : Log
  pc : Option CommitPc
  stored : Nat → Option Block
  dirty : Fin NBUF → Bool

inductive Op where
  | beginOp
  | bread (b : Nat)
  | modify (i : Fin NBUF) (d : Block)
  | logWrite (i : Fin NBUF)
  | brelse (i : Fin NBUF)
  | endOp
  | commit

namespace Trans

/-- The block lies in `[log.start, log.start + log.size)`. -/
def inLog (s : Trans) (b : Nat) : Bool :=
  decide (s.log.start ≤ b ∧ (b : Int) < s.log.start + s.log.size)

/-- The current thread may change buffer `i`: it holds it, and its block is a home block. -/
def mayWrite (s : Trans) (i : Fin NBUF) : Bool :=
  (s.bio.buf i).locked && !s.inLog (s.bio.buf i).blockno

def noDirty (s : Trans) : Bool := (List.finRange NBUF).all fun i => !s.dirty i

/-- One action; `none` when it is not enabled, panics or waits. -/
def step (s : Trans) : Op → Option Trans
  | .beginOp => s.log.beginOp.map fun l => { s with log := l }
  | .bread b =>
    if b < 2 ^ 32 then
      match bread ROOTDEV b s.bio with
      | .ok _ bio => some { s with bio := bio }
      | _ => none
    else none
  | .modify i d =>
    if s.mayWrite i ∧ 1 ≤ s.log.outstanding then
      some { s with
        bio := s.bio.updBuf i fun b => { b with data := d }
        dirty := Function.update s.dirty i true }
    else none
  | .logWrite i =>
    if s.mayWrite i then
      match s.log.logWrite (s.bio.buf i).blockno with
      | .error _ => none
      | .ok (l, new) => some
        { s with
          bio := if new then s.bio.updBuf i fun b => { b with refcnt := incref b.refcnt } else s.bio
          log := l
          stored := Function.update s.stored (s.bio.buf i).blockno (some (s.bio.buf i).data)
          dirty := Function.update s.dirty i false }
    else none
  | .brelse i =>
    if s.dirty i then none else
    match brelse i s.bio with
    | .ok _ bio => some { s with bio := bio }
    | _ => none
  | .endOp =>
    if 1 ≤ s.log.outstanding ∧ (s.log.outstanding = 1 → s.noDirty) then
      match s.log.endOp with
      | .error _ => none
      | .ok (l, doCommit) =>
        some { s with log := l, pc := if doCommit then some .start else s.pc }
    else none
  | .commit =>
    match s.pc with
    | none => none
    | some .finish => some { s with log := s.log.endCommit, pc := none }
    | some c =>
      match commitStep s.log c s.bio with
      | .ok (l, c') bio => some { s with bio := bio, log := l, pc := some c' }
      | _ => none

/-- The state when `initlog` has run on the disk `d`. -/
def boot (sb : LogSuper) (d : Nat → Block) : Option Trans :=
  match initlog ROOTDEV sb (Bio.binit d) with
  | .ok l bio => some
    { bio := bio, log := l, pc := none, stored := fun _ => none, dirty := fun _ => false }
  | _ => none

/-- The contents of a block: what `log_write` stored there last, else what is on the disk. -/
def flat (s : Trans) (b : Nat) : Block := (s.stored b).getD (s.bio.disk b)

/-- The blocks that are pinned: those of the header, less those that `install_trans` has done. -/
def pins (s : Trans) : List Nat :=
  match s.pc with
  | some (.install tail) => s.log.lh.drop tail
  | some .clear => []
  | _ => s.log.lh

/-- How many log slots hold their block. -/
def copied (s : Trans) : Nat :=
  match s.pc with
  | some (.writeLog tail) => tail
  | some .writeHead | some (.install _) | some .clear => s.log.lh.length
  | _ => 0

/-! ## The invariant -/

variable (sb : LogSuper) (D : Nat → Block)

/-- What the header on the disk lists. -/
def headerOk (s : Trans) : Prop :=
  match s.pc with
  | some (.install _) | some .clear => (logGeometry sb.logstart sb.nlog).logged s.bio.disk = s.log.lh
  | some .clearHead => (logGeometry sb.logstart sb.nlog).Sane s.bio.disk ∧
      (logGeometry sb.logstart sb.nlog).Installed s.bio.disk ∧ s.log.lh = []
  | _ => (logGeometry sb.logstart sb.nlog).logged s.bio.disk = []

structure Inv (s : Trans) : Prop where
  start : s.log.start = sb.logstart
  size : s.log.size = sb.nlog
  dev : s.log.dev = ROOTDEV
  cached : Cached s.bio s.flat s.pins s.dirty
  uint : ∀ i, (s.bio.buf i).locked = true → (s.bio.buf i).blockno < 2 ^ 32
  listed : (logGeometry sb.logstart sb.nlog).Listed s.log.lh
  room : s.log.lh.length ≤ LOGSIZE
  logged : ∀ b ∈ s.log.lh, s.stored b ≠ none ∧ b < 2 ^ 32
  home : ∀ b, s.stored b ≠ none → (logGeometry sb.logstart sb.nlog).Home b
  idle : s.pc = none → s.log.committing = false
  busy : s.pc ≠ none → s.log.committing = true ∧ s.log.outstanding = 0
  clean : ∀ i, s.dirty i = true → 1 ≤ s.log.outstanding
  slots : ∀ i, i < s.copied → ∀ b, s.log.lh[i]? = some b →
    s.bio.disk (sb.logstart + i + 1) = s.flat b
  header : s.headerOk sb
  original : ∀ b, (logGeometry sb.logstart sb.nlog).Home b → s.stored b = none → s.bio.disk b = D b

variable {bio : Bio} {v : Block} {i : Fin NBUF} {l : Log} {a b : Nat} {d : Nat → Block}

theorem home_iff {start size : Nat} (h : 0 < size) :
    (logGeometry start size).Home b ↔ b < start ∨ start + size ≤ b := by
  constructor
  · rintro ⟨h1, h2⟩
    simp only [logGeometry_header, logGeometry_cap, logGeometry_slot] at h1 h2
    by_cases hb : b < start
    · exact Or.inl hb
    · right
      by_cases hb2 : start + size ≤ b
      · exact hb2
      · exact absurd (by omega) (h2 (b - start - 1) (by omega))
  · intro hb
    refine ⟨by simp only [logGeometry_header]; omega, fun i hi => ?_⟩
    simp only [logGeometry_cap, logGeometry_slot] at hi ⊢
    omega

variable {sb D} {s s' : Trans}

theorem Inv.mayWrite (hi : s.Inv sb D) (hn : 0 < sb.nlog) (h : s.mayWrite i = true) : (s.bio.buf i).locked = true ∧
      (logGeometry sb.logstart sb.nlog).Home (s.bio.buf i).blockno := by
  simp only [Trans.mayWrite, inLog, Bool.and_eq_true, Bool.not_eq_true', decide_eq_false_iff_not,
    hi.start, hi.size] at h
  exact ⟨h.1, (home_iff hn).2 (by omega)⟩

theorem flat_of_none (h : s.stored b = none) : s.flat b = s.bio.disk b := by
  simp [flat, h]

/-- While no transaction is being committed, `log_write` may run. -/
theorem Inv.pc_none (hi : s.Inv sb D) (h : 1 ≤ s.log.outstanding) : s.pc = none := by
  cases hp : s.pc with
  | none => rfl
  | some c =>
    have := (hi.busy (by rw [hp]; simp)).2
    omega

/-! ## One step -/

theorem inv_beginOp (hi : s.Inv sb D) (h : s.log.beginOp = some l) : Inv sb D { s with log := l } := by
  obtain ⟨hc, -, rfl⟩ := Log.beginOp_some h
  have hpc : s.pc = none := by
    cases hp : s.pc with
    | none => rfl
    | some c =>
      have := (hi.busy (by rw [hp]; simp)).1
      rw [hc] at this; cases this
  refine { hi with idle := fun _ => hc, busy := fun h => absurd hpc h, clean := fun i hd => ?_ }
  have := hi.clean i hd
  show 1 ≤ s.log.outstanding + 1
  omega

theorem inv_bread (hi : s.Inv sb D) (hb : b < 2 ^ 32)
    (h : bread ROOTDEV b s.bio = .ok i bio) : Inv sb D { s with bio := bio } := by
  have hr := wp_ok (hi.cached.bread_spec b (E := fun _ => True) (Or.inr fun _ _ => trivial)) h
  have hflat : ({ s with bio := bio } : Trans).flat = s.flat := by
    funext c; simp only [flat, hr.disk]
  refine { hi with cached := ?_, uint := fun j hj => ?_, slots := ?_, header := ?_, original := ?_ }
  · rw [hflat]; exact hr.cached
  · by_cases hji : j = i
    · subst hji
      show (bio.buf j).blockno < _
      rw [hr.holds.2]; exact hb
    · simp only [hr.others j hji] at hj ⊢
      exact hi.uint j hj
  · rw [hflat]
    simp only [hr.disk]
    exact hi.slots
  · simp only [headerOk, hr.disk]
    exact hi.header
  · simp only [hr.disk]
    exact hi.original

theorem inv_modify (hi : s.Inv sb D) (hn : 0 < sb.nlog) (d : Block)
    (h : s.mayWrite i = true ∧ 1 ≤ s.log.outstanding) :
    Inv sb D { s with
      bio := s.bio.updBuf i fun b => { b with data := d }
      dirty := update s.dirty i true } := by
  obtain ⟨hl, -⟩ := hi.mayWrite hn h.1
  refine { hi with cached := hi.cached.setData_spec hl d, uint := fun j hj => ?_, clean := fun _ _ => h.2 }
  by_cases hji : j = i
  · subst hji
    simp only [updBuf_self] at hj ⊢
    exact hi.uint j hj
  · simp only [updBuf_ne _ _ hji] at hj ⊢
    exact hi.uint j hj

theorem inv_brelse (hi : s.Inv sb D) (hd : s.dirty i = false) {u : Unit}
    (h : brelse i s.bio = .ok u bio) : Inv sb D { s with bio := bio } := by
  have hl : (s.bio.buf i).locked = true := by
    cases hl : (s.bio.buf i).locked with
    | true => rfl
    | false =>
      have : wp (brelse i) (fun _ _ => False) (fun _ => True) s.bio := by
        unfold brelse
        simp [wp_bind, hl]
      exact (wp_ok this h).elim
  obtain ⟨hc, hdisk, -, hli, -, ho⟩ := wp_ok (hi.cached.brelse_spec (E := fun _ => True) hl hd) h
  have hflat : ({ s with bio := bio } : Trans).flat = s.flat := by
    funext c; simp only [flat, hdisk]
  refine { hi with cached := ?_, uint := fun j hj => ?_, slots := ?_, header := ?_, original := ?_ }
  · rw [hflat]; exact hc
  · by_cases hji : j = i
    · subst hji
      have hj : (bio.buf j).locked = true := hj
      rw [hli] at hj; cases hj
    · simp only [ho j hji] at hj ⊢
      exact hi.uint j hj
  · rw [hflat]
    simp only [hdisk]
    exact hi.slots
  · simp only [headerOk, hdisk]
    exact hi.header
  · simp only [hdisk]
    exact hi.original

theorem flat_logWrite {d : Block} {dirty : Fin NBUF → Bool} (hb : bio.disk = s.bio.disk) :
    ({ s with bio := bio, log := l, stored := update s.stored b (some d),
              dirty := dirty } : Trans).flat = update s.flat b d := by
  funext c
  by_cases hc : c = b
  · subst hc; simp [flat]
  · simp [flat, hb, update_of_ne hc]

/-- The state after `log_write` of block `b` with contents `d`, whether or not it is absorbed. -/
theorem Inv.logged_write (hi : s.Inv sb D) (hout : 1 ≤ s.log.outstanding) {d : Block}
    (hhome : (logGeometry sb.logstart sb.nlog).Home b) (hdisk : bio.disk = s.bio.disk)
    {lh : List Nat} {dirty : Fin NBUF → Bool} (hc : Cached bio (update s.flat b d) lh dirty)
    (huint : ∀ i, (bio.buf i).locked = true → (bio.buf i).blockno < 2 ^ 32)
    (hlisted : (logGeometry sb.logstart sb.nlog).Listed lh) (hroom : lh.length ≤ LOGSIZE)
    (hlh : ∀ c ∈ lh, c ∈ s.log.lh ∨ c = b ∧ b < 2 ^ 32) :
    Inv sb D { s with
      bio := bio, log := { s.log with lh := lh }, stored := update s.stored b (some d),
      dirty := dirty } := by
  have hpc : s.pc = none := hi.pc_none hout
  have hstored : ∀ c, c = b ∨ update s.stored b (some d) c = s.stored c := fun c => by
    by_cases hcb : c = b
    · exact Or.inl hcb
    · exact Or.inr (update_of_ne hcb _ _)
  refine
    { start := hi.start
      size := hi.size
      dev := hi.dev
      cached := ?_
      uint := huint
      listed := hlisted
      room := hroom
      logged := fun c hcl => ?_
      home := fun c hcs => ?_
      idle := fun _ => hi.idle hpc
      busy := fun h => absurd hpc h
      clean := fun _ _ => hout
      slots := fun j hj => absurd hj (by simp [copied, hpc])
      header := ?_
      original := fun c hch hcs => ?_ }
  · rw [flat_logWrite hdisk]
    simpa only [pins, hpc] using hc
  · rcases hlh c hcl with hcl | ⟨rfl, hlt⟩
    · refine ⟨?_, (hi.logged c hcl).2⟩
      rcases hstored c with rfl | he
      · simp
      · show update s.stored b (some d) c ≠ none
        rw [he]; exact (hi.logged c hcl).1
    · exact ⟨by simp, hlt⟩
  · rcases hstored c with rfl | he
    · exact hhome
    · exact hi.home c (by rw [← he]; exact hcs)
  · have := hi.header
    simp only [headerOk, hpc] at this ⊢
    rw [hdisk]; exact this
  · rcases hstored c with rfl | he
    · simp at hcs
    · show bio.disk c = D c
      rw [hdisk]
      exact hi.original c hch (by rw [← he]; exact hcs)

theorem inv_logWrite (hi : s.Inv sb D) (hn : 0 < sb.nlog) (hw : s.mayWrite i = true) {new : Bool} (h : s.log.logWrite (s.bio.buf i).blockno = .ok (l, new)) :
    Inv sb D { s with
      bio := if new then s.bio.updBuf i fun b => { b with refcnt := incref b.refcnt } else s.bio
      log := l
      stored := update s.stored (s.bio.buf i).blockno (some (s.bio.buf i).data)
      dirty := update s.dirty i false } := by
  obtain ⟨hl, hhome⟩ := hi.mayWrite hn hw
  have hholds : s.bio.Holds i (s.bio.buf i).blockno := ⟨(hi.cached.locked i hl).1, rfl⟩
  obtain ⟨hr1, hr2, hout, hcase⟩ := Log.logWrite_ok h
  have hcached : Cached s.bio s.flat s.log.lh s.dirty := by
    have := hi.cached
    simpa only [pins, hi.pc_none hout] using this
  have hgeo := hi.size
  rcases hcase with ⟨hmem, rfl, rfl⟩ | ⟨hmem, rfl, rfl⟩
  · -- absorption: the block is already in the header
    exact hi.logged_write hout hhome rfl (hcached.absorb_spec hl hholds hmem) hi.uint hi.listed hi.room
      fun c hc => Or.inl hc
  · refine hi.logged_write hout hhome (by simp) (hcached.pin_spec hl hholds hmem) (fun j hj => ?_)
      ⟨?_, ?_, ?_⟩ ?_ ?_
    · by_cases hji : j = i
      · subst hji; simpa using hi.uint j hl
      · rw [if_pos rfl, updBuf_ne _ _ hji] at hj ⊢
        exact hi.uint j hj
    · refine List.nodup_append.2 ⟨hi.listed.nodup, by simp, ?_⟩
      rintro a ha b hb rfl
      simp only [List.mem_singleton] at hb
      subst hb
      exact hmem ha
    · simp only [List.length_append, List.length_singleton, logGeometry_cap]
      omega
    · intro b hb
      rcases List.mem_append.1 hb with hb | hb
      · exact hi.listed.home b hb
      · simp only [List.mem_singleton] at hb
        subst hb; exact hhome
    · simp only [List.length_append, List.length_singleton]
      omega
    · intro b hb
      rcases List.mem_append.1 hb with hb | hb
      · exact Or.inl hb
      · simp only [List.mem_singleton] at hb
        exact Or.inr ⟨hb, hi.uint i hl⟩

theorem inv_endOp (hi : s.Inv sb D) (hg : 1 ≤ s.log.outstanding ∧ (s.log.outstanding = 1 → s.noDirty = true)) {c : Bool} (h : s.log.endOp = .ok (l, c)) :
    Inv sb D { s with log := l, pc := if c then some .start else s.pc } := by
  have hpc : s.pc = none := hi.pc_none hg.1
  obtain ⟨hcom, hcase⟩ := Log.endOp_ok h
  have hhdr : (logGeometry sb.logstart sb.nlog).logged s.bio.disk = [] := by
    have := hi.header
    simpa only [headerOk, hpc] using this
  have hcached : Cached s.bio s.flat s.log.lh s.dirty := by
    have := hi.cached
    simpa only [pins, hpc] using this
  rcases hcase with ⟨ho, rfl, rfl⟩ | ⟨ho, rfl, rfl⟩
  · refine { hi with
      cached := hcached
      idle := fun h => by cases h
      busy := fun _ => ⟨rfl, rfl⟩
      clean := fun i hd => ?_
      slots := fun j hj => absurd hj (by simp [copied])
      header := hhdr }
    have := hg.2 ho
    simp only [noDirty, List.all_eq_true, List.mem_finRange, forall_const, Bool.not_eq_true'] at this
    have hd : s.dirty i = true := hd
    rw [this i] at hd; cases hd
  · simp only [Bool.false_eq_true, if_false]
    refine { hi with
      idle := fun _ => hcom
      busy := fun h => absurd hpc h
      clean := fun i hd => ?_ }
    show 1 ≤ s.log.outstanding - 1
    have := hg.1
    omega

/-! ## One step of `commit` -/

/-- Everything that a step of `commit` can do. -/
inductive CommitTo (s : Trans) : Trans → Prop where
  | begin (hpc : s.pc = some .start) (hn : 0 < s.log.lh.length) :
      CommitTo s { s with pc := some (.writeLog 0) }
  | nothing (hpc : s.pc = some .start) (hn : s.log.lh = []) :
      CommitTo s { s with pc := some .finish }
  | slot {tail b : Nat} {bio : Bio} (hpc : s.pc = some (.writeLog tail))
      (hb : s.log.lh[tail]? = some b)
      (hp : Put s.bio bio s.flat s.pins s.dirty (s.log.start + tail + 1) (s.flat b)) :
      CommitTo s { s with bio := bio, pc := some (.writeLog (tail + 1)) }
  | copied {tail : Nat} (hpc : s.pc = some (.writeLog tail)) (hn : s.log.lh.length ≤ tail) :
      CommitTo s { s with pc := some .writeHead }
  | head {bio : Bio} (hpc : s.pc = some .writeHead)
      (hp : Put s.bio bio s.flat s.pins s.dirty s.log.start
        (fillHead s.log.lh (s.flat s.log.start))) :
      CommitTo s { s with bio := bio, pc := some (.install 0) }
  | install {tail b : Nat} {bio : Bio} (hpc : s.pc = some (.install tail))
      (hb : s.log.lh[tail]? = some b)
      (hp : Put s.bio bio s.flat (s.pins.erase b) s.dirty b (s.flat (s.log.start + tail + 1))) :
      CommitTo s { s with bio := bio, pc := some (.install (tail + 1)) }
  | installed {tail : Nat} (hpc : s.pc = some (.install tail)) (hn : s.log.lh.length ≤ tail) :
      CommitTo s { s with pc := some .clear }
  | clear (hpc : s.pc = some .clear) :
      CommitTo s { s with log := { s.log with lh := [] }, pc := some .clearHead }
  | erase {bio : Bio} (hpc : s.pc = some .clearHead)
      (hp : Put s.bio bio s.flat s.pins s.dirty s.log.start
        (fillHead s.log.lh (s.flat s.log.start))) :
      CommitTo s { s with bio := bio, pc := some .finish }

/-- The log slots are not home blocks. -/
theorem Inv.slot_ne (hi : s.Inv sb D) {tail : Nat} (hb : s.log.lh[tail]? = some b) : s.log.start + tail + 1 ≠ b := by
  obtain ⟨hlt, rfl⟩ := List.getElem?_eq_some_iff.1 hb
  rw [hi.start]
  exact hi.listed.slot_ne_getElem hlt (Nat.lt_of_lt_of_le hlt hi.listed.room)

theorem Inv.commit_cases (hi : s.Inv sb D) {c c' : CommitPc}
    (hpc : s.pc = some c) (hc : c ≠ .finish) (h : commitStep s.log c s.bio = .ok (l, c') bio) :
    CommitTo s { s with bio := bio, log := l, pc := some c' } := by
  have hE : s.bio.Quiet s.pins ∨ ∀ s', s'.disk = s.bio.disk → (fun _ : Bio => True) s' :=
    Or.inr fun _ _ => trivial
  cases c with
  | start =>
    cases h
    split
    · rename_i hn; exact .begin hpc hn
    · rename_i hn; exact .nothing hpc (List.length_eq_zero_iff.1 (by omega))
  | writeLog tail =>
    simp only [commitStep] at h
    split at h
    · rename_i hlt
      have hget : s.log.lh.getD tail 0 = s.log.lh[tail] := by
        rw [List.getD_eq_getElem?_getD, List.getElem?_eq_getElem hlt, Option.getD_some]
      have hb : s.log.lh[tail]? = some s.log.lh[tail] := List.getElem?_eq_getElem hlt
      obtain ⟨_, _, hw, hr⟩ := bind_ok.1 h
      cases hr
      have hp := wp_ok (writeLogBlock_spec hi.cached hi.dev rfl hget (hi.slot_ne hb) hE) hw
      exact .slot hpc hb hp
    · cases h
      exact .copied hpc (by omega)
  | writeHead =>
    obtain ⟨_, _, hw, hr⟩ := bind_ok.1 h
    cases hr
    have hp := wp_ok (writeHead_spec hi.cached hi.dev hE) hw
    exact .head hpc hp
  | install tail =>
    simp only [commitStep] at h
    split at h
    · rename_i hlt
      have hget : s.log.lh.getD tail 0 = s.log.lh[tail] := by
        rw [List.getD_eq_getElem?_getD, List.getElem?_eq_getElem hlt, Option.getD_some]
      have hb : s.log.lh[tail]? = some s.log.lh[tail] := List.getElem?_eq_getElem hlt
      have hpin : s.log.lh[tail] ∈ s.pins ∧ s.pins.Nodup := by
        simp only [pins, hpc]
        refine ⟨?_, hi.listed.nodup.sublist (List.drop_sublist _ _)⟩
        rw [List.drop_eq_getElem_cons hlt]
        exact List.mem_cons_self
      obtain ⟨_, _, hw, hr⟩ := bind_ok.1 h
      cases hr
      have hpin' : false = false → s.log.lh[tail] ∈ s.pins ∧ s.pins.Nodup := fun _ => hpin
      have hp := wp_ok (installBlock_spec hi.cached hi.dev hpin' rfl hget (hi.slot_ne hb) hE) hw
      exact .install hpc hb hp
    · cases h
      exact .installed hpc (by omega)
  | clear => cases h; exact .clear hpc
  | clearHead =>
    obtain ⟨_, _, hw, hr⟩ := bind_ok.1 h
    cases hr
    have hp := wp_ok (writeHead_spec hi.cached hi.dev hE) hw
    exact .erase hpc hp
  | finish => exact absurd rfl hc

theorem Inv.slot_not_stored (hi : s.Inv sb D) {i : Nat} (h : i < sb.nlog - 1) :
    s.stored (sb.logstart + i + 1) = none := by
  cases hs : s.stored (sb.logstart + i + 1) with
  | none => rfl
  | some d => exact absurd rfl ((hi.home (sb.logstart + i + 1) (by rw [hs]; simp)).2 i h)

theorem Inv.start_not_stored (hi : s.Inv sb D) : s.stored sb.logstart = none := by
  cases hs : s.stored sb.logstart with
  | none => rfl
  | some d => exact absurd rfl (hi.home sb.logstart (by rw [hs]; simp)).1

/-- A write to the log area is a write to the flat store. -/
theorem flat_put_log {p : Option CommitPc} (ha : s.stored a = none) (hd : bio.disk = update s.bio.disk a v) :
    ({ s with bio := bio, pc := p } : Trans).flat = update s.flat a v := by
  funext c
  by_cases hc : c = a
  · subst hc; simp [flat, ha, hd]
  · simp [flat, hd, update_of_ne hc]

/-- The slots of the first `k` blocks, when the block at address `a` changes. -/
theorem Inv.slots_of_disk (hi : s.Inv sb D) {k : Nat}
    {store : Nat → Block} (hk : k ≤ s.copied) (hd : d = update s.bio.disk a v)
    (ha : ∀ i, i < k → a ≠ sb.logstart + i + 1) (hst : ∀ b ∈ s.log.lh, store b = s.flat b) :
    ∀ i, i < k → ∀ b, s.log.lh[i]? = some b → d (sb.logstart + i + 1) = store b := by
  intro i hik b hb
  rw [hd, update_of_ne (ha i hik).symm, hi.slots i (by omega) b hb,
    hst b (List.mem_of_getElem? hb)]

/-- What a single-block write keeps of the invariant. -/
theorem Inv.put_uint (hi : s.Inv sb D) {store : Nat → Block} {ps : List Nat} (hp : Put s.bio bio store ps s.dirty b v) :
    ∀ i, (bio.buf i).locked = true → (bio.buf i).blockno < 2 ^ 32 := by
  intro i hl
  cases hs : (s.bio.buf i).locked with
  | true => rw [hp.kept i hs]; exact hi.uint i hs
  | false => rw [hp.free i hs] at hl; cases hl

theorem Inv.put_original (hi : s.Inv sb D) (hd : d = update s.bio.disk a v)
    (ha : ∀ c, (logGeometry sb.logstart sb.nlog).Home c → s.stored c = none → c ≠ a) :
    ∀ c, (logGeometry sb.logstart sb.nlog).Home c → s.stored c = none → d c = D c := by
  intro c hch hcs
  rw [hd, update_of_ne (ha c hch hcs)]
  exact hi.original c hch hcs

theorem Inv.logged_ne (hi : s.Inv sb D) (ha : s.stored a = none) : ∀ b ∈ s.log.lh, b ≠ a := by
  rintro b hb rfl
  exact (hi.logged b hb).1 ha

theorem inv_commit (hi : s.Inv sb D) (h : CommitTo s s') : Inv sb D s' := by
  have hcached := hi.cached
  have hheader := hi.header
  have hslots := hi.slots
  cases h with
  | begin hpc hn | nothing hpc hn =>
    simp only [pins, hpc] at hcached
    simp only [headerOk, hpc] at hheader
    exact { hi with
      cached := hcached
      idle := fun h => by cases h
      busy := fun _ => hi.busy (by rw [hpc]; simp)
      slots := fun j hj => absurd hj (by simp [copied])
      header := hheader }
  | @slot tail b bio hpc hb hp =>
    obtain ⟨hlt, -⟩ := List.getElem?_eq_some_iff.1 hb
    have hcap : tail < sb.nlog - 1 := Nat.lt_of_lt_of_le hlt hi.listed.room
    have ha := hi.slot_not_stored hcap
    rw [hi.start] at hp
    have hflat := flat_put_log (p := some (.writeLog (tail + 1))) ha hp.disk
    have hne := hi.logged_ne ha
    have hpc' := hp.cached
    simp only [pins, hpc] at hpc'
    simp only [headerOk, hpc] at hheader
    have hst : ∀ c ∈ s.log.lh, update s.flat (sb.logstart + tail + 1) (s.flat b) c = s.flat c :=
      fun c hc => update_of_ne (hne c hc) _ _
    refine { hi with
      cached := by rw [hflat]; exact hpc'
      uint := hi.put_uint hp
      idle := fun h => by cases h
      busy := fun _ => hi.busy (by rw [hpc]; simp)
      slots := fun j hj c hc => ?_
      header := ?_
      original := hi.put_original hp.disk fun c hch _ => hch.2 tail hcap }
    · rw [hflat]
      by_cases hjt : j = tail
      · subst hjt
        have hcb : c = b := by
          have hc : s.log.lh[j]? = some c := hc
          rw [hb] at hc; exact (Option.some.inj hc).symm
        rw [hcb, hst b (List.mem_of_getElem? hb)]
        show bio.disk _ = _
        rw [hp.disk, update_self]
      · have hj' : j < tail := by
          simp only [copied] at hj
          omega
        exact hi.slots_of_disk (k := tail) (by simp only [copied, hpc, Nat.le_refl]) hp.disk
          (fun i hi => by omega) hst j hj' c hc
    · show (logGeometry sb.logstart sb.nlog).logged bio.disk = []
      rw [hp.disk, Geometry.logged_update (by simp only [logGeometry_header]; omega)]
      exact hheader
  | @copied tail hpc hn =>
    simp only [pins, hpc] at hcached
    simp only [headerOk, hpc] at hheader
    refine { hi with
      cached := hcached
      idle := fun h => by cases h
      busy := fun _ => hi.busy (by rw [hpc]; simp)
      slots := fun j hj => hslots j ?_
      header := hheader }
    simp only [Trans.copied] at hj
    simp only [Trans.copied, hpc]
    omega
  | @head bio hpc hp =>
    have ha := hi.start_not_stored
    rw [hi.start] at hp
    have hflat := flat_put_log (p := some (.install 0)) ha hp.disk
    have hne := hi.logged_ne ha
    have hpc' := hp.cached
    simp only [pins, hpc] at hpc'
    refine { hi with
      cached := by rw [hflat]; exact hpc'
      uint := hi.put_uint hp
      idle := fun h => by cases h
      busy := fun _ => hi.busy (by rw [hpc]; simp)
      slots := ?_
      header := ?_
      original := hi.put_original hp.disk fun c hch _ => hch.1 }
    · rw [hflat]
      exact hi.slots_of_disk (k := s.log.lh.length) (by simp only [Trans.copied, hpc, Nat.le_refl])
        hp.disk (fun i _ => by omega) (fun c hc => update_of_ne (hne c hc) _ _)
    · show (logGeometry sb.logstart sb.nlog).logged bio.disk = s.log.lh
      rw [hp.disk, logGeometry_logged, update_self]
      exact decodeHead_fillHead hi.room (fun b hb => (hi.logged b hb).2) _
  | @install tail b bio hpc hb hp =>
    obtain ⟨hlt, hbt⟩ := List.getElem?_eq_some_iff.1 hb
    have hcap : tail < sb.nlog - 1 := Nat.lt_of_lt_of_le hlt hi.listed.room
    have hmem : b ∈ s.log.lh := List.mem_of_getElem? hb
    have hhome := hi.listed.home b hmem
    -- the log slot holds what the home block is to hold
    have hcopy : s.flat (s.log.start + tail + 1) = s.flat b := by
      rw [hi.start, flat_of_none (hi.slot_not_stored hcap)]
      exact hslots tail (by simp only [Trans.copied, hpc]; exact hlt) b hb
    rw [hcopy] at hp
    have hflat : ({ s with bio := bio, pc := some (.install (tail + 1)) } : Trans).flat = s.flat := by
      funext c
      by_cases hcb : c = b
      · subst hcb
        obtain ⟨v, hv⟩ := Option.ne_none_iff_exists'.1 (hi.logged c hmem).1
        simp [flat, hv]
      · simp [flat, hp.disk, update_of_ne hcb]
    have hpc' := hp.cached
    have herase : (s.log.lh.drop tail).erase b = s.log.lh.drop (tail + 1) := by
      rw [List.drop_eq_getElem_cons hlt, hbt, List.erase_cons_head]
    simp only [pins, hpc, herase, update_eq_self] at hpc'
    simp only [headerOk, hpc] at hheader
    refine { hi with
      cached := by rw [hflat]; exact hpc'
      uint := hi.put_uint hp
      idle := fun h => by cases h
      busy := fun _ => hi.busy (by rw [hpc]; simp)
      slots := ?_
      header := ?_
      original := hi.put_original hp.disk fun c _ hcs hcb => (hi.logged b hmem).1 (hcb ▸ hcs) }
    · rw [hflat]
      exact hi.slots_of_disk (k := s.log.lh.length) (by simp only [Trans.copied, hpc, Nat.le_refl])
        hp.disk (fun i hi' => hhome.2 i (Nat.lt_of_lt_of_le hi' hi.listed.room)) (fun _ _ => rfl)
    · show (logGeometry sb.logstart sb.nlog).logged bio.disk = s.log.lh
      rw [hp.disk, Geometry.logged_update hhome.1]
      exact hheader
  | @installed tail hpc hn =>
    simp only [pins, hpc, List.drop_of_length_le hn] at hcached
    simp only [headerOk, hpc] at hheader
    refine { hi with
      cached := hcached
      idle := fun h => by cases h
      busy := fun _ => hi.busy (by rw [hpc]; simp)
      slots := fun j hj => hslots j ?_
      header := hheader }
    simpa only [Trans.copied, hpc] using hj
  | clear hpc =>
    simp only [pins, hpc] at hcached
    simp only [headerOk, hpc] at hheader
    have hlisted := hi.listed
    refine { hi with
      cached := hcached
      listed := Geometry.listed_nil
      room := Nat.zero_le _
      logged := fun b hb => by cases hb
      idle := fun h => by cases h
      busy := fun _ => hi.busy (by rw [hpc]; simp)
      slots := fun j hj => absurd hj (by simp [Trans.copied])
      header := ⟨by rw [Geometry.Sane, hheader]; exact hlisted, ?_, rfl⟩ }
    intro b hb
    rw [hheader] at hb ⊢
    have hlt := List.idxOf_lt_length_of_mem hb
    have hs := hslots (s.log.lh.idxOf b) (by simp only [Trans.copied, hpc]; exact hlt) b
      (by rw [List.getElem?_eq_getElem hlt, List.getElem_idxOf hlt])
    rw [logGeometry_slot, hs]
    exact hcached.disk b (by simp)
  | @erase bio hpc hp =>
    have ha := hi.start_not_stored
    rw [hi.start] at hp
    have hflat := flat_put_log (p := some .finish) ha hp.disk
    have hpc' := hp.cached
    simp only [pins, hpc] at hpc'
    simp only [headerOk, hpc] at hheader
    refine { hi with
      cached := by rw [hflat]; exact hpc'
      uint := hi.put_uint hp
      idle := fun h => by cases h
      busy := fun _ => hi.busy (by rw [hpc]; simp)
      slots := fun j hj => absurd hj (by simp [Trans.copied])
      header := ?_
      original := hi.put_original hp.disk fun c hch _ => hch.1 }
    · show (logGeometry sb.logstart sb.nlog).logged bio.disk = []
      rw [hp.disk, logGeometry_logged, update_self, hheader.2.2]
      exact decodeHead_erased _

/-! ## Whole runs -/

theorem inv_finish (hi : s.Inv sb D) (hpc : s.pc = some .finish) :
    Inv sb D { s with log := s.log.endCommit, pc := none } := by
  have hcached := hi.cached
  have hheader := hi.header
  simp only [pins, hpc] at hcached
  simp only [headerOk, hpc] at hheader
  exact { hi with
    cached := hcached
    idle := fun _ => rfl
    busy := fun h => absurd rfl h
    slots := fun j hj => absurd hj (by simp [copied])
    header := hheader }

/-- A commit step of the machine, as a case of `CommitTo` or as the return from `commit`. -/
theorem Inv.step_commit (hi : s.Inv sb D) (h : s.step .commit = some s') :
    CommitTo s s' ∨ (s.pc = some .finish ∧ s' = { s with log := s.log.endCommit, pc := none }) := by
  simp only [step] at h
  split at h
  · cases h
  · rename_i hpc; cases h; exact Or.inr ⟨hpc, rfl⟩
  · rename_i c hfin hpc
    split at h
    · rename_i hc
      cases h
      exact Or.inl (hi.commit_cases hpc (fun he => hfin he) hc)
    · cases h

theorem step_inv (hn : 0 < sb.nlog) (hi : s.Inv sb D) {a : Op} (h : s.step a = some s') :
    s'.Inv sb D := by
  cases a with
  | beginOp =>
    simp only [step, Option.map_eq_some_iff] at h
    obtain ⟨l, hl, rfl⟩ := h
    exact inv_beginOp hi hl
  | bread b =>
    simp only [step] at h
    split at h
    · rename_i hb
      split at h
      · rename_i hr; cases h; exact inv_bread hi hb hr
      · cases h
    · cases h
  | modify i d =>
    simp only [step] at h
    split at h
    · rename_i hg; cases h; exact inv_modify hi hn d hg
    · cases h
  | logWrite i =>
    simp only [step] at h
    split at h
    · rename_i hw
      split at h
      · cases h
      · rename_i hl; cases h; exact inv_logWrite hi hn hw hl
    · cases h
  | brelse i =>
    simp only [step] at h
    split at h
    · cases h
    · rename_i hd
      split at h
      · rename_i hr; cases h; exact inv_brelse hi (by simpa using hd) hr
      · cases h
  | endOp =>
    simp only [step] at h
    split at h
    · rename_i hg
      split at h
      · cases h
      · rename_i he; cases h; exact inv_endOp hi hg he
    · cases h
  | commit =>
    rcases hi.step_commit h with hc | ⟨hpc, rfl⟩
    · exact inv_commit hi hc
    · exact inv_finish hi hpc

/-- `initlog` establishes the invariant. -/
theorem boot_inv (hd : (logGeometry sb.logstart sb.nlog).Sane d) (h : boot sb d = some s) : s.Inv sb s.bio.disk := by
  unfold boot at h
  split at h <;> cases h
  rename_i l bio hinit
  unfold initlog at hinit
  rw [if_neg (by decide)] at hinit
  obtain ⟨rfl, hc, hidle, hw, hdisk⟩ := wp_ok (recoverFromLog_spec rfl hd) hinit
  refine
    { start := rfl
      size := rfl
      dev := rfl
      cached := hc
      uint := fun i hl => ?_
      listed := Geometry.listed_nil
      room := Nat.zero_le _
      logged := fun b hb => by cases hb
      home := fun b hb => absurd rfl hb
      idle := fun _ => rfl
      busy := fun h => absurd rfl h
      clean := fun i hd => by cases hd
      slots := fun j hj => absurd hj (by simp [copied])
      header := ?_
      original := fun _ _ _ => rfl }
  · have hl : (bio.buf i).locked = true := hl
    rw [hidle i] at hl; cases hl
  · show (logGeometry sb.logstart sb.nlog).logged bio.disk = []
    rw [hdisk, hw]
    exact logged_recovered _ _ d

/-- The states of a machine booted in `s₀`. -/
def Reachable (s₀ : Trans) : Trans → Prop := Reach step (fun _ _ => True) (· = s₀)

theorem Reachable.inv (hn : 0 < sb.nlog)
    (hd : (logGeometry sb.logstart sb.nlog).Sane d) {s₀ : Trans} (h0 : boot sb d = some s₀)
    (h : Reachable s₀ s) : s.Inv sb s₀.bio.disk :=
  Reach.invariant (fun _ he => by subst he; exact boot_inv hd h0)
    (fun _ _ _ hi _ hs => step_inv hn hi hs) h

/-- **The cache and the log refine a flat block store.**  In every state that any sequence of
transactions reaches:

* at most one buffer in use holds a given block;
* a block of the header that `install_trans` has not reached yet has exactly one buffer, its
  reference count is one more than its holders, and `bget` does not choose it for another block;
* `bread` returns what `log_write` last stored in the block, and what was on the disk at boot if
  nothing was. -/
theorem cache_refines_flat_store (hn : 0 < sb.nlog) {d : Nat → Block}
    (hd : (logGeometry sb.logstart sb.nlog).Sane d) {s₀ : Trans} (h0 : boot sb d = some s₀)
    (h : Reachable s₀ s) :
    (∀ i j b, 0 < (s.bio.buf i).refcnt → 0 < (s.bio.buf j).refcnt → s.bio.Holds i b →
      s.bio.Holds j b → i = j) ∧
    (∀ b ∈ s.pins, ∃ i, s.bio.Holds i b ∧ (∀ j, s.bio.Holds j b → j = i) ∧
      (s.bio.buf i).refcnt = (if (s.bio.buf i).locked then 1 else 0) + 1 ∧ s.bio.victim ≠ some i) ∧
    (∀ i, s.bio.Pinned s.pins i ∨ (s.bio.buf i).refcnt = if (s.bio.buf i).locked then 1 else 0) ∧
    (∀ b i bio, bread ROOTDEV b s.bio = .ok i bio →
      (∀ v, s.stored b = some v → (bio.buf i).data = v) ∧
      (s.stored b = none → (bio.buf i).data = s.bio.disk b) ∧
      (s.stored b = none → (b < sb.logstart ∨ sb.logstart + sb.nlog ≤ b) →
        (bio.buf i).data = s₀.bio.disk b)) := by
  have hi := h.inv hn hd h0
  have hc := hi.cached
  refine ⟨fun i j b _ _ h1 h2 => hc.uniq i j b h1 h2, fun b hb => ?_, fun i => ?_, fun b i bio hr => ?_⟩
  · obtain ⟨i, hh, -⟩ := hc.pinned b hb
    have hp : s.bio.Pinned s.pins i := ⟨hh.1, by rw [hh.2]; exact hb⟩
    have hr := hc.refcnt i
    rw [if_pos hp] at hr
    refine ⟨i, hh, fun j hj => hc.uniq j i b hj hh, hr, fun hv => ?_⟩
    have := victim_some hv
    omega
  · have hr := hc.refcnt i
    by_cases hp : s.bio.Pinned s.pins i
    · exact Or.inl hp
    · rw [if_neg hp] at hr
      exact Or.inr hr
  · have hdata := (wp_ok (hc.bread_spec b (E := fun _ => True) (Or.inr fun _ _ => trivial)) hr).data
    refine ⟨fun v hv => ?_, fun hs => ?_, fun hs hb => ?_⟩
    · rw [hdata]; simp [flat, hv]
    · rw [hdata, flat_of_none hs]
    · rw [hdata, flat_of_none hs]
      exact hi.original b ((home_iff hn).2 hb) hs

/-- One operation that changes block 40 and has not ended yet, on the geometry of `mkfs`. -/
def oneWrite : List Op :=
  [.beginOp, .bread 40, .modify ⟨1, by decide⟩ (fun _ => 7), .logWrite ⟨1, by decide⟩,
    .brelse ⟨1, by decide⟩]

theorem oneWrite_run : ((boot ⟨2, 30⟩ fun _ _ => 0).bind fun s₀ =>
    (runActs step s₀ oneWrite).map fun s => (s.log.lh, s.pins, (s.stored 40).isSome)) =
      some ([40], [40], true) := by
  decide +kernel

theorem logGeometry_sane_zero (start size : Nat) :
    (logGeometry start size).Sane fun _ _ => 0 := by
  have : (logGeometry start size).logged (fun _ _ => 0) = [] := by
    rw [logGeometry_logged]
    decide +kernel
  rw [Geometry.Sane, this]
  exact Geometry.listed_nil

/-- Block 40 is pinned in the cache after that run, and stays there until it is installed. -/
theorem cache_refines_flat_store_oneWrite :
    ∃ s₀ s, boot ⟨2, 30⟩ (fun _ _ => 0) = some s₀ ∧ Reachable s₀ s ∧ s.pins = [40] ∧
      ∃ i, s.bio.Holds i 40 ∧ (s.bio.buf i).refcnt = (if (s.bio.buf i).locked then 1 else 0) + 1 := by
  obtain ⟨s₀, h0, hs⟩ := Option.bind_eq_some_iff.1 oneWrite_run
  obtain ⟨s, hrun, hl⟩ := Option.map_eq_some_iff.1 hs
  have hreach : Reachable s₀ s := by
    have h1 : Reachable s₀ s₀ := .init rfl
    exact h1.runActs (guardedActs_true step s₀ oneWrite) hrun
  have hpins : s.pins = [40] := by
    simp only [Prod.mk.injEq] at hl
    exact hl.2.1
  obtain ⟨-, hp, -⟩ := cache_refines_flat_store (by decide) (logGeometry_sane_zero 2 30) h0
    hreach
  obtain ⟨i, hi, -, hr, -⟩ := hp 40 (by rw [hpins]; simp)
  exact ⟨s₀, s, h0, hreach, hpins, i, hi, hr⟩

end Trans

end Xv6
