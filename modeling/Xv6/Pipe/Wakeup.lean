import Xv6.Pipe

/-!
# Wakeups on a pipe

* `NoLostWakeup` — while `pi->lock` is free, every sleeper still sees what it went to sleep for.
* `Inv` — the invariant: a sleeper that no longer sees it is owed a `wakeup` by the process that holds
  the lock.
* `NoSilentExit` — the one exit that breaks it: `pipewrite` returns `-1` on `killed(pr)` without a
  `wakeup(&pi->nread)`, although it may have put bytes into the pipe.
* `pipe_wakeup_iff` — a run loses no wakeup exactly when it takes no such exit with bytes in the pipe
  and a reader asleep.
-/

namespace Xv6

namespace PipeSys

variable {n : Nat}

/-- What a sleeper waits for has not happened. -/
def Seen : Chan → PipeData → Prop
  | .nread, pi => pi.nread = pi.nwrite ∧ pi.writeopen = true
  | .nwrite, pi => pi.Full ∧ pi.readopen = true

/-- While `pi->lock` is free no sleeper has missed a wakeup. -/
def NoLostWakeup (s : Sys n) : Prop :=
  s.lock = none → ∀ chan q, (s.thread q).pc.asleep chan = true → Seen chan s.pi

/-- `pipewrite` does not give up because of `killed(pr)` while there are bytes in the pipe and a reader
is asleep. -/
def NoSilentExit (s : Sys n) : Act n → Prop
  | .run p => ∀ i, (s.thread p).pc = .wLoop i → i < (s.thread p).len → (s.thread p).killed = true →
      ∀ q, (s.thread q).pc = .rAsleep → s.pi.nread = s.pi.nwrite
  | _ => True

/-! ## The invariant -/

/-- Between `acquire(&pi->lock)` and `release(&pi->lock)`. -/
def Pc.critical : Pc n → Bool
  | .wLoop _ | .wBody _ | .rLoop | .rSleep | .rCopy _ | .wake _ _ _ => true
  | _ => false

/-- The holder of the lock will still look at sleeper `q`. -/
def Owes : Chan → Fin n → Pc n → Prop
  | .nread, _, .wLoop _ => True
  | .nread, _, .wBody _ => True
  | .nwrite, _, .rCopy _ => True
  | chan, q, .wake chan' rest _ => chan = chan' ∧ q ∈ rest
  | _, _, _ => False

/-- What the holder of the lock has tested. -/
def Knows : Pc n → PipeData → Prop
  | .wBody _, pi => pi.readopen = true
  | .wake _ _ (.wSleep _), pi => Seen .nwrite pi
  | .rSleep, pi => Seen .nread pi
  | _, _ => True

structure Inv (s : Sys n) : Prop where
  crit : ∀ p, (s.thread p).pc.critical = true ↔ s.lock = some p
  knows : ∀ p, Knows (s.thread p).pc s.pi
  reading : ∀ p, (s.thread p).pc.inRead = true → s.rd = true
  writing : ∀ p, (s.thread p).pc.inWrite = true → s.wr = true
  rdOpen : s.rd = true → s.pi.readopen = true
  wrOpen : s.wr = true → s.pi.writeopen = true
  closing : ∀ p w, (s.thread p).pc = .cEnter w → (if w then s.wr else s.rd) = false
  asleep : ∀ chan q, (s.thread q).pc.asleep chan = true →
    Seen chan s.pi ∨ ∃ p, s.lock = some p ∧ Owes chan q (s.thread p).pc

section

variable {s s' : Sys n} {p q : Fin n}

variable {chan : Chan} {pc : Pc n}

theorem knows_of_not_critical (h : pc.critical = false) (pi : PipeData) : Knows pc pi := by
  cases pc <;> trivial

theorem asleep_not_critical (h : pc.asleep chan = true) : pc.critical = false := by
  cases chan <;> cases pc <;> first | rfl | cases h

theorem Inv.noLostWakeup (h : Inv s) : NoLostWakeup s := by
  intro hl chan q hq
  obtain hseen | ⟨p, hp, -⟩ := h.asleep chan q hq
  · exact hseen
  · rw [hl] at hp
    cases hp

/-- Nobody else holds the lock. -/
theorem Inv.not_critical (h : Inv s) (hp : s.lock = none ∨ s.lock = some p) (hq : q ≠ p) :
    (s.thread q).pc.critical = false := by
  rw [← Bool.not_eq_true, h.crit q]
  obtain hp | hp := hp
  · rw [hp]
    exact fun h => nomatch h
  · rw [hp]
    exact fun h => hq (Option.some.inj h).symm

/-- A sleeper, seen by the process that holds or takes the lock. -/
theorem Inv.sleeper (h : Inv s) (hp : s.lock = none ∨ s.lock = some p)
    (hq : (s.thread q).pc.asleep chan = true) : Seen chan s.pi ∨ Owes chan q (s.thread p).pc := by
  obtain hseen | ⟨p', hp', howes⟩ := h.asleep chan q hq
  · exact Or.inl hseen
  · obtain hp | hp := hp
    · rw [hp] at hp'
      cases hp'
    · rw [hp] at hp'
      cases hp'
      exact Or.inr howes

/-- **A step of the process that holds or takes the lock.** -/
theorem Inv.own (h : Inv s) (hp : s.lock = none ∨ s.lock = some p)
    (hother : ∀ q, q ≠ p → s'.thread q = s.thread q)
    (hlock : s'.lock = if (s'.thread p).pc.critical then some p else none)
    (hknows : Knows (s'.thread p).pc s'.pi) (hends : s'.rd = s.rd ∧ s'.wr = s.wr)
    (hread : (s'.thread p).pc.inRead = true → (s.thread p).pc.inRead = true)
    (hwrite : (s'.thread p).pc.inWrite = true → (s.thread p).pc.inWrite = true)
    (hopen : (s.rd = true → s'.pi.readopen = true) ∧ (s.wr = true → s'.pi.writeopen = true))
    (hclose : ∀ w, (s'.thread p).pc ≠ .cEnter w)
    (hself : ∀ chan, (s'.thread p).pc.asleep chan = true → Seen chan s'.pi)
    (hasleep : ∀ chan q, (s.thread q).pc.asleep chan = true →
      Seen chan s.pi ∨ Owes chan q (s.thread p).pc →
      Seen chan s'.pi ∨ (s'.thread p).pc.critical = true ∧ Owes chan q (s'.thread p).pc) : Inv s' where
  crit q := by
    by_cases hq : q = p
    · subst hq
      rw [hlock]
      cases (s'.thread q).pc.critical <;> simp
    · rw [hother q hq, h.not_critical hp hq, hlock]
      constructor
      · exact fun h => nomatch h
      · intro hs
        split at hs
        · exact absurd (Option.some.inj hs).symm hq
        · cases hs
  knows q := by
    by_cases hq : q = p
    · subst hq
      exact hknows
    · rw [hother q hq]
      exact knows_of_not_critical (h.not_critical hp hq) _
  reading q hin := by
    rw [hends.1]
    by_cases hq : q = p
    · subst hq
      exact h.reading q (hread hin)
    · exact h.reading q (hother q hq ▸ hin)
  writing q hin := by
    rw [hends.2]
    by_cases hq : q = p
    · subst hq
      exact h.writing q (hwrite hin)
    · exact h.writing q (hother q hq ▸ hin)
  rdOpen hrd := hopen.1 (hends.1 ▸ hrd)
  wrOpen hwr := hopen.2 (hends.2 ▸ hwr)
  closing q w hpc := by
    rw [hends.1, hends.2]
    by_cases hq : q = p
    · subst hq
      exact absurd hpc (hclose w)
    · exact h.closing q w (hother q hq ▸ hpc)
  asleep chan q hpc := by
    by_cases hq : q = p
    · subst hq
      exact Or.inl (hself chan hpc)
    · rw [hother q hq] at hpc
      obtain hseen | ⟨hcrit, howes⟩ := hasleep chan q hpc (h.sleeper hp hpc)
      · exact Or.inl hseen
      · exact Or.inr ⟨p, by rw [hlock, hcrit]; rfl, howes⟩

/-- **A step outside the lock**: a call starts, or a sleeper is woken. -/
theorem Inv.outside (h : Inv s) (hother : ∀ q, q ≠ p → s'.thread q = s.thread q)
    (hcrit : (s.thread p).pc.critical = false) (hcrit' : (s'.thread p).pc.critical = false)
    (hpi : s'.pi = s.pi) (hlock : s'.lock = s.lock)
    (hread : ∀ q, (s'.thread q).pc.inRead = true → s'.rd = true)
    (hwrite : ∀ q, (s'.thread q).pc.inWrite = true → s'.wr = true)
    (hends : (s'.rd = true → s.rd = true) ∧ (s'.wr = true → s.wr = true))
    (hclose : ∀ w, (s'.thread p).pc = .cEnter w → (if w then s'.wr else s'.rd) = false)
    (hself : ∀ chan, (s'.thread p).pc.asleep chan = false) : Inv s' where
  crit q := by
    rw [hlock, ← h.crit q]
    by_cases hq : q = p
    · subst hq
      rw [hcrit, hcrit']
    · rw [hother q hq]
  knows q := by
    rw [hpi]
    by_cases hq : q = p
    · subst hq
      exact knows_of_not_critical hcrit' _
    · rw [hother q hq]
      exact h.knows q
  reading := hread
  writing := hwrite
  rdOpen hrd := hpi ▸ h.rdOpen (hends.1 hrd)
  wrOpen hwr := hpi ▸ h.wrOpen (hends.2 hwr)
  closing q w hpc := by
    by_cases hq : q = p
    · subst hq
      exact hclose w hpc
    · have hold := h.closing q w (hother q hq ▸ hpc)
      cases w with
      | true => exact Bool.eq_false_iff.2 fun hw => absurd (hends.2 hw) (by simpa using hold)
      | false => exact Bool.eq_false_iff.2 fun hr => absurd (hends.1 hr) (by simpa using hold)
  asleep chan q hpc := by
    by_cases hq : q = p
    · subst hq
      rw [hself chan] at hpc
      cases hpc
    · rw [hother q hq] at hpc
      rw [hpi, hlock]
      obtain hseen | ⟨p', hp', howes⟩ := h.asleep chan q hpc
      · exact Or.inl hseen
      · refine Or.inr ⟨p', hp', ?_⟩
        have hne : p' ≠ p := by
          rintro rfl
          rw [(h.crit p').2 hp'] at hcrit
          cases hcrit
        rwa [hother p' hne]

/-! ## Every step keeps the invariant -/

/-- Waking one process. -/
theorem Inv.awaken (h : Inv s) (f : Thread n → Thread n) (hf : ∀ t, (f t).pc = t.pc.awake) :
    Inv (s.upd q f) := by
  have hpc : ((s.upd q f).thread q).pc = (s.thread q).pc.awake := by rw [upd_thread_self, hf]
  have hin : ((s.upd q f).thread q).pc.inRead = (s.thread q).pc.inRead ∧
      ((s.upd q f).thread q).pc.inWrite = (s.thread q).pc.inWrite := by
    rw [hpc]
    cases (s.thread q).pc <;> exact ⟨rfl, rfl⟩
  have hread : ∀ r, ((s.upd q f).thread r).pc.inRead = true → s.rd = true := by
    intro r hr
    by_cases hne : r = q
    · subst hne
      exact h.reading r (hin.1 ▸ hr)
    · exact h.reading r (upd_thread_ne f hne ▸ hr)
  have hwrite : ∀ r, ((s.upd q f).thread r).pc.inWrite = true → s.wr = true := by
    intro r hr
    by_cases hne : r = q
    · subst hne
      exact h.writing r (hin.2 ▸ hr)
    · exact h.writing r (upd_thread_ne f hne ▸ hr)
  cases hcrit : (s.thread q).pc.critical with
  | false =>
    refine h.outside (fun r hr => upd_thread_ne f hr) hcrit ?_ rfl rfl hread hwrite ⟨id, id⟩ ?_ ?_
    · rw [hpc]
      revert hcrit
      cases (s.thread q).pc <;> exact fun h => h
    · intro w hw
      refine h.closing q w ?_
      rw [hpc] at hw
      revert hw
      cases (s.thread q).pc <;> first | exact fun h => h | exact fun h => nomatch h
    · intro chan
      rw [hpc]
      cases (s.thread q).pc <;> cases chan <;> rfl
  | true =>
    -- a process that holds the lock is not asleep, so only its flags change
    have hsame : ((s.upd q f).thread q).pc = (s.thread q).pc := by
      rw [hpc]
      revert hcrit
      cases (s.thread q).pc <;> first | exact fun _ => rfl | exact fun h => nomatch h
    have hall : ∀ r, ((s.upd q f).thread r).pc = (s.thread r).pc := by
      intro r
      by_cases hne : r = q
      · subst hne
        exact hsame
      · rw [upd_thread_ne f hne]
    exact ⟨fun r => hall r ▸ h.crit r, fun r => hall r ▸ h.knows r, hread, hwrite, h.rdOpen, h.wrOpen,
      fun r w hw => h.closing r w (hall r ▸ hw), fun chan r hr => by
        obtain hseen | ⟨r', hr', howes⟩ := h.asleep chan r (hall r ▸ hr)
        · exact Or.inl hseen
        · exact Or.inr ⟨r', hr', (hall r').symm ▸ howes⟩⟩

theorem Inv.wakeOne (h : Inv s) (chan : Chan) : Inv (s.wakeOne chan q) := by
  unfold Sys.wakeOne
  split
  · have hf : Inv (s.upd q fun t => { t with pc := t.pc.awake }) := h.awaken _ fun _ => rfl
    exact hf
  · exact h

/-- After `wakeup` has looked at it, a process does not sleep on the channel. -/
theorem wakeOne_awake (chan : Chan) : ((s.wakeOne chan q).thread q).pc.asleep chan = false := by
  unfold Sys.wakeOne
  split
  · rename_i hq
    unfold Sys.goto
    rw [upd_thread_self]
    revert hq
    cases (s.thread q).pc <;> cases chan <;> exact fun _ => rfl
  · rename_i hq
    exact Bool.eq_false_iff.2 hq

/-- The lock is held where the program counter says so. -/
theorem Inv.holder (h : Inv s) (hc : (s.thread p).pc.critical = true) : s.lock = none ∨ s.lock = some p :=
  Or.inr ((h.crit p).1 hc)

theorem Owes.wake_all {chan' : Chan} {after : After} (h : chan = chan') :
    Owes chan q (.wake chan' (List.finRange n) after) := by
  cases chan <;> exact ⟨h, List.mem_finRange q⟩

/-- The holder goes on without touching the pipe. -/
theorem Inv.stay (h : Inv s) {pc' : Pc n} (hpc : (s.thread p).pc = pc) (hc : pc.critical = true)
    (hc' : pc'.critical = true) (hknows : Knows pc' s.pi)
    (hin : (pc'.inRead = true → pc.inRead = true) ∧ (pc'.inWrite = true → pc.inWrite = true))
    (hasleep : ∀ chan q, (s.thread q).pc.asleep chan = true → Seen chan s.pi ∨ Owes chan q pc →
      Seen chan s.pi ∨ Owes chan q pc') : Inv (s.goto p pc') := by
  subst hpc
  have hpc' : ((s.goto p pc').thread p).pc = pc' := goto_pc pc'
  refine h.own (h.holder hc) (fun q hq => goto_ne pc' hq) ?_ ?_ ⟨rfl, rfl⟩ ?_ ?_ ⟨h.rdOpen, h.wrOpen⟩ ?_ ?_ ?_
  · rw [hpc', hc']
    exact (h.crit p).1 hc
  · rw [hpc']
    exact hknows
  · rw [hpc']
    exact hin.1
  · rw [hpc']
    exact hin.2
  · rw [hpc']
    rintro w rfl
    cases hc'
  · intro chan hq
    rw [hpc'] at hq
    rw [asleep_not_critical hq] at hc'
    cases hc'
  · intro chan q hq hold
    rw [hpc']
    exact (hasleep chan q hq hold).imp_right fun howes => ⟨hc', howes⟩

/-- The holder gives the lock back; whoever still sleeps sees what it waits for. -/
theorem Inv.leave (h : Inv s) (hc : (s.thread p).pc.critical = true) (hother : ∀ q, q ≠ p → s'.thread q = s.thread q)
    (hpi : s'.pi = s.pi) (hlock : s'.lock = none) (hends : s'.rd = s.rd ∧ s'.wr = s.wr)
    {pc' : Pc n} (hpc' : (s'.thread p).pc = pc') (hc' : pc'.critical = false) (hclose : ∀ w, pc' ≠ .cEnter w)
    (hin : (pc'.inRead = true → (s.thread p).pc.inRead = true) ∧
      (pc'.inWrite = true → (s.thread p).pc.inWrite = true))
    (hself : ∀ chan, pc'.asleep chan = true → Seen chan s.pi)
    (hasleep : ∀ chan q, (s.thread q).pc.asleep chan = true → Owes chan q (s.thread p).pc → Seen chan s.pi) :
    Inv s' := by
  refine h.own (h.holder hc) hother ?_ ?_ hends ?_ ?_ ?_ ?_ ?_ ?_
  · rw [hpc', hc', hlock]
    rfl
  · rw [hpc']
    exact knows_of_not_critical hc' _
  · rw [hpc']
    exact hin.1
  · rw [hpc']
    exact hin.2
  · rw [hpi]
    exact ⟨h.rdOpen, h.wrOpen⟩
  · rw [hpc']
    exact hclose
  · rw [hpc', hpi]
    exact hself
  · intro chan q hq hold
    rw [hpi]
    exact Or.inl (hold.elim id (hasleep chan q hq))

/-- `acquire(&pi->lock)` by a process that then stands in the loop of its call. -/
theorem Inv.enter (h : Inv s) {pc' : Pc n} (hpc : (s.thread p).pc = pc) (hl : s.lock = none)
    (hc' : pc'.critical = true) (hknows : Knows pc' s.pi)
    (hin : (pc'.inRead = true → pc.inRead = true) ∧ (pc'.inWrite = true → pc.inWrite = true))
    (hnone : ∀ chan q, ¬ Owes chan q pc) : Inv { s.goto p pc' with lock := some p } := by
  subst hpc
  have hpc' : ((s.goto p pc').thread p).pc = pc' := goto_pc pc'
  refine h.own (Or.inl hl) (fun q hq => goto_ne pc' hq) ?_ ?_ ⟨rfl, rfl⟩ ?_ ?_ ⟨h.rdOpen, h.wrOpen⟩ ?_ ?_ ?_
  · show some p = if ((s.goto p pc').thread p).pc.critical then some p else none
    rw [hpc', hc']
    rfl
  · show Knows ((s.goto p pc').thread p).pc s.pi
    rw [hpc']
    exact hknows
  · show ((s.goto p pc').thread p).pc.inRead = true → _
    rw [hpc']
    exact hin.1
  · show ((s.goto p pc').thread p).pc.inWrite = true → _
    rw [hpc']
    exact hin.2
  · show ∀ w, ((s.goto p pc').thread p).pc ≠ .cEnter w
    rw [hpc']
    rintro w rfl
    cases hc'
  · intro chan hq
    have hq' : pc'.asleep chan = true := hpc' ▸ hq
    rw [asleep_not_critical hq'] at hc'
    cases hc'
  · intro chan q hq hold
    exact Or.inl (hold.elim id fun howes => absurd howes (hnone chan q))

/-- A byte goes into the ring: sleeping readers are owed a wakeup, a sleeping writer would contradict
the test for a full ring. -/
theorem Inv.put (h : Inv s) {i : Nat} {ch : UInt8} (hpc : (s.thread p).pc = .wBody i) (hroom : ¬ s.pi.Full) :
    Inv (s.put p i ch) := by
  have hc : (s.thread p).pc.critical = true := by rw [hpc]; rfl
  have hpc' : ((s.put p i ch).thread p).pc = .wLoop (i + 1) := goto_pc _
  refine h.own (h.holder hc) (fun q hq => goto_ne _ hq) ?_ ?_ ⟨rfl, rfl⟩ ?_ ?_ ⟨h.rdOpen, h.wrOpen⟩ ?_ ?_ ?_
  · rw [hpc']
    exact (h.crit p).1 hc
  · rw [hpc']
    trivial
  · rw [hpc']
    exact fun hin => nomatch hin
  · rw [hpc, hpc']
    exact id
  · rw [hpc']
    exact fun w hw => nomatch hw
  · rw [hpc']
    exact fun chan hq => by cases chan <;> cases hq
  · rw [hpc, hpc']
    intro chan q _ hold
    cases chan with
    | nread => exact Or.inr ⟨rfl, trivial⟩
    | nwrite =>
      rcases hold with hseen | howes
      · exact absurd hseen.1 hroom
      · exact howes.elim

/-- A byte leaves the ring: the other way round. -/
theorem Inv.take (h : Inv s) {i : Nat} (hpc : (s.thread p).pc = .rCopy i) (hne : s.pi.nread ≠ s.pi.nwrite) :
    Inv (s.take p i) := by
  have hc : (s.thread p).pc.critical = true := by rw [hpc]; rfl
  have hstep : ∀ (s' : Sys n) (pc' : Pc n), (s'.thread p).pc = pc' →
      (∀ q, q ≠ p → s'.thread q = s.thread q) → s'.lock = s.lock → s'.rd = s.rd ∧ s'.wr = s.wr →
      s'.pi = s.pi.advance → pc'.critical = true → pc'.inWrite = false →
      (∀ q, Owes .nwrite q pc') → Knows pc' s'.pi → Inv s' := by
    intro s' pc' hpc' hother hlock hends hpi hc' hnw howes hknows
    subst hpc'
    refine h.own (h.holder hc) hother ?_ hknows hends ?_ ?_ ?_ ?_ ?_ ?_
    · rw [hlock, hc']
      exact (h.crit p).1 hc
    · rw [hpc]
      exact fun _ => rfl
    · rw [hnw]
      exact fun hin => nomatch hin
    · rw [hpi]
      exact ⟨h.rdOpen, h.wrOpen⟩
    · intro w hw
      rw [hw] at hc'
      cases hc'
    · intro chan hq
      rw [asleep_not_critical hq] at hc'
      cases hc'
    · intro chan q _ hold
      rw [hpc] at hold
      cases chan with
      | nwrite => exact Or.inr ⟨hc', howes q⟩
      | nread =>
        rcases hold with hseen | hold
        · exact absurd hseen.1 hne
        · exact hold.elim
  unfold Sys.take
  split
  · exact hstep _ _ (goto_pc _) (fun q hq => goto_ne _ hq) rfl ⟨rfl, rfl⟩ rfl rfl rfl (fun _ => trivial) trivial
  · exact hstep _ _ (goto_pc _) (fun q hq => goto_ne _ hq) rfl ⟨rfl, rfl⟩ rfl rfl rfl
      (fun _ => Owes.wake_all rfl) trivial

/-- `pipeclose` clears a flag; the processes that wait for the other end are owed a wakeup. -/
theorem Inv.close (h : Inv s) {w : Bool} (hpc : (s.thread p).pc = .cEnter w) (hl : s.lock = none) :
    Inv { s.goto p (.wake (if w then .nread else .nwrite) (List.finRange n) .cRet) with
      lock := some p, pi := s.pi.close w } := by
  have hpc' := goto_pc (s := s) (p := p) (.wake (if w then .nread else .nwrite) (List.finRange n) .cRet)
  have hclosed := h.closing p w hpc
  refine h.own (Or.inl hl) (fun q hq => goto_ne _ hq) ?_ ?_ ⟨rfl, rfl⟩ ?_ ?_ ?_ ?_ ?_ ?_
  all_goals dsimp only
  · rw [hpc']
    rfl
  · rw [hpc']
    trivial
  · rw [hpc']
    exact fun hin => nomatch hin
  · rw [hpc']
    exact fun hin => nomatch hin
  · cases w with
    | true => exact ⟨h.rdOpen, fun hw => absurd (hw.symm.trans hclosed) (by decide)⟩
    | false => exact ⟨fun hr => absurd (hr.symm.trans hclosed) (by decide), h.wrOpen⟩
  · rw [hpc']
    exact fun w hw => nomatch hw
  · rw [hpc']
    exact fun chan hq => by cases chan <;> cases hq
  · rw [hpc, hpc']
    intro chan q _ hold
    have hseen : Seen chan s.pi := hold.elim id fun howes => by cases chan <;> exact howes.elim
    cases w <;> cases chan
    · exact Or.inl hseen
    · exact Or.inr ⟨rfl, Owes.wake_all rfl⟩
    · exact Or.inr ⟨rfl, Owes.wake_all rfl⟩
    · exact Or.inl hseen

/-- `wakeup` looks at one process more. -/
theorem Inv.scan (h : Inv s) {rest : List (Fin n)} {after : After}
    (hpc : (s.thread p).pc = .wake chan (q :: rest) after) :
    Inv ((s.wakeOne chan q).goto p (.wake chan rest after)) := by
  have hpc₁ : ((s.wakeOne chan q).thread p).pc = .wake chan (q :: rest) after := by
    rw [wakeOne_holder hpc, hpc]
  have hknows := (h.wakeOne chan (q := q)).knows p
  rw [hpc₁] at hknows
  refine (h.wakeOne chan (q := q)).stay hpc₁ rfl rfl ?_ ⟨?_, ?_⟩ ?_
  · cases after <;> exact hknows
  · cases after <;> exact id
  · cases after <;> exact id
  · intro chan' q' hq' hold
    refine hold.imp_right ?_
    intro howes
    have hmem : chan' = chan ∧ q' ∈ q :: rest := by cases chan' <;> exact howes
    obtain ⟨rfl, hmem⟩ := hmem
    rcases List.mem_cons.1 hmem with rfl | hrest
    · rw [wakeOne_awake] at hq'
      cases hq'
    · cases chan' <;> exact ⟨rfl, hrest⟩

/-- The end of a `wakeup`: nobody is owed anything any more. -/
theorem Inv.woken (h : Inv s) {after : After} (hpc : (s.thread p).pc = .wake chan [] after) :
    Inv (s.afterWake p after) := by
  have hc : (s.thread p).pc.critical = true := by rw [hpc]; rfl
  have hnone : ∀ chan' q, (s.thread q).pc.asleep chan' = true → Owes chan' q (s.thread p).pc →
      Seen chan' s.pi := by
    intro chan' q _ howes
    rw [hpc] at howes
    cases chan' <;> exact absurd howes.2 List.not_mem_nil
  have hret : ∀ s' : Sys n, (s'.thread p).pc = .idle → (∀ q, q ≠ p → s'.thread q = s.thread q) →
      s'.pi = s.pi → s'.lock = none → s'.rd = s.rd ∧ s'.wr = s.wr → Inv s' := by
    intro s' hidle hother hpi hlock hends
    refine h.leave hc hother hpi hlock hends hidle rfl (fun w hw => nomatch hw) ⟨?_, ?_⟩ ?_ hnone
    · exact fun hin => nomatch hin
    · exact fun hin => nomatch hin
    · exact fun chan hq => by cases chan <;> cases hq
  cases after with
  | wSleep i =>
    have hknows := h.knows p
    rw [hpc] at hknows
    refine h.leave hc (fun q hq => goto_ne _ hq) rfl rfl ⟨rfl, rfl⟩ (goto_pc _) rfl (fun w hw => nomatch hw)
      ⟨?_, ?_⟩ ?_ hnone
    · exact fun hin => nomatch hin
    · rw [hpc]
      exact fun _ => rfl
    · intro chan hq
      cases chan with
      | nread => cases hq
      | nwrite => exact hknows
  | wRet i | rRet i => exact hret _ (ret_pc i) (fun q hq => ret_ne i hq) rfl rfl ⟨rfl, rfl⟩
  | cRet => exact hret _ (ret_pc 0) (fun q hq => ret_ne 0 hq) rfl rfl ⟨rfl, rfl⟩

/-- `pipewrite` gives up.  A writer whose reader has closed finds no reader asleep; a killed one is
trusted not to leave bytes behind for a sleeper. -/
theorem Inv.gone (h : Inv s) {i : Nat} (hpc : (s.thread p).pc = .wLoop i)
    (hgone : s.pi.readopen = false ∨ ∀ q, (s.thread q).pc = .rAsleep → s.pi.nread = s.pi.nwrite) (r : Int) :
    Inv (s.retWrite p i r) := by
  have hc : (s.thread p).pc.critical = true := by rw [hpc]; rfl
  refine h.leave hc (fun q hq => ret_ne r hq) rfl rfl ⟨rfl, rfl⟩ (ret_pc r) rfl (fun w hw => nomatch hw)
    ⟨?_, ?_⟩ ?_ ?_
  · exact fun hin => nomatch hin
  · exact fun hin => nomatch hin
  · exact fun chan hq => by cases chan <;> cases hq
  · intro chan q hq howes
    rw [hpc] at howes
    cases chan with
    | nwrite => exact howes.elim
    | nread =>
      have hreader : (s.thread q).pc = .rAsleep := by
        revert hq
        cases (s.thread q).pc <;> first | exact fun _ => rfl | exact fun hq => nomatch hq
      have hwriting : (s.thread p).pc.inWrite = true := by rw [hpc]; rfl
      have hreading : (s.thread q).pc.inRead = true := by rw [hreader]; rfl
      rcases hgone with hro | hempty
      · rw [h.rdOpen (h.reading q hreading)] at hro
        cases hro
      · exact ⟨hempty q hreader, h.wrOpen (h.writing p hwriting)⟩

/-- **Every step of a process keeps the invariant**, when it is not the silent exit of `pipewrite`. -/
theorem Inv.ran (h : Inv s) (hok : NoSilentExit s (.run p)) (hran : Ran s p s') : Inv s' := by
  cases hran with
  | wEnter hpc hl =>
    refine h.enter hpc hl rfl trivial ⟨?_, fun _ => rfl⟩ ?_
    · exact fun hin => nomatch hin
    · intro chan q howes
      cases chan <;> exact howes
  | rEnter hpc hl =>
    refine h.enter hpc hl rfl trivial ⟨fun _ => rfl, ?_⟩ ?_
    · exact fun hin => nomatch hin
    · intro chan q howes
      cases chan <;> exact howes
  | cEnter hpc hl => exact h.close hpc hl
  | wGone hpc hi hgone => exact h.gone hpc (hgone.imp_right fun hk => hok _ hpc hi hk) _
  | wPut hpc hroom hch => exact h.put hpc hroom
  | rTake hpc hi hne => exact h.take hpc hne
  | scan hpc => exact h.scan hpc
  | woken hpc => exact h.woken hpc
  | wGo hpc hro =>
    refine h.stay hpc rfl rfl hro ⟨(fun hin => nomatch hin), fun _ => rfl⟩ ?_
    intro chan q _ hold
    cases chan <;> exact hold
  | wEnd hpc | wFault hpc =>
    refine h.stay hpc rfl rfl trivial ⟨(fun hin => nomatch hin), fun _ => rfl⟩ ?_
    intro chan q _ hold
    cases chan with
    | nread => exact Or.inr (Owes.wake_all rfl)
    | nwrite => exact Or.inl (hold.elim id fun howes => howes.elim)
  | wFull hpc hfull =>
    have hro := h.knows p
    rw [hpc] at hro
    refine h.stay hpc rfl rfl ⟨hfull, hro⟩ ⟨(fun hin => nomatch hin), fun _ => rfl⟩ ?_
    intro chan q _ hold
    cases chan with
    | nread => exact Or.inr (Owes.wake_all rfl)
    | nwrite => exact Or.inl (hold.elim id fun howes => howes.elim)
  | rWait hpc hempty hwo =>
    refine h.stay hpc rfl rfl ⟨hempty, hwo⟩ ⟨fun _ => rfl, fun hin => nomatch hin⟩ ?_
    intro chan q _ hold
    cases chan <;> exact Or.inl (hold.elim id fun howes => howes.elim)
  | rGo hpc =>
    refine h.stay hpc rfl rfl trivial ⟨fun _ => rfl, fun hin => nomatch hin⟩ ?_
    intro chan q _ hold
    cases chan <;> exact Or.inl (hold.elim id fun howes => howes.elim)
  | rEnd hpc =>
    refine h.stay hpc rfl rfl trivial ⟨fun _ => rfl, fun hin => nomatch hin⟩ ?_
    intro chan q _ hold
    cases chan with
    | nread => exact Or.inl (hold.elim id fun howes => howes.elim)
    | nwrite => exact Or.inr (Owes.wake_all rfl)
  | rKilled hpc =>
    refine h.leave (by rw [hpc]; rfl) (fun q hq => ret_ne _ hq) rfl rfl ⟨rfl, rfl⟩
      (ret_pc _) rfl (fun w hw => nomatch hw)
      ⟨(fun hin => nomatch hin), fun hin => nomatch hin⟩ (fun chan hq => by cases chan <;> cases hq) ?_
    intro chan q _ howes
    rw [hpc] at howes
    cases chan <;> exact howes.elim
  | rSleep hpc =>
    have hknows := h.knows p
    rw [hpc] at hknows
    refine h.leave (by rw [hpc]; rfl) (fun q hq => goto_ne _ hq) rfl rfl ⟨rfl, rfl⟩ (goto_pc _) rfl
      (fun w hw => nomatch hw) ⟨?_, fun hin => nomatch hin⟩ ?_ ?_
    · rw [hpc]
      exact fun _ => rfl
    · intro chan hq
      cases chan with
      | nread => exact hknows
      | nwrite => cases hq
    · intro chan q _ howes
      rw [hpc] at howes
      cases chan <;> exact howes.elim

/-- A call starts: `p` leaves `idle` for a place before the lock. -/
theorem Inv.call (h : Inv s) (hidle : (s.thread p).pc = .idle) (f : Thread n → Thread n)
    (hf : (f (s.thread p)).pc = pc) (hc : pc.critical = false) (hawake : ∀ chan, pc.asleep chan = false)
    (hrd : pc.inRead = true → s.rd = true) (hwr : pc.inWrite = true → s.wr = true)
    (hclose : ∀ w, pc ≠ .cEnter w) : Inv (s.upd p f) := by
  have hpc : ((s.upd p f).thread p).pc = pc := by rw [upd_thread_self, hf]
  refine h.outside (fun q hq => upd_thread_ne f hq) (by rw [hidle]; rfl) (by rw [hpc, hc]) rfl rfl ?_ ?_
    ⟨id, id⟩ ?_ ?_
  · intro q hq
    by_cases hne : q = p
    · subst hne
      exact hrd (hpc ▸ hq)
    · exact h.reading q (upd_thread_ne f hne ▸ hq)
  · intro q hq
    by_cases hne : q = p
    · subst hne
      exact hwr (hpc ▸ hq)
    · exact h.writing q (upd_thread_ne f hne ▸ hq)
  · intro w hw
    exact absurd (hpc ▸ hw) (hclose w)
  · intro chan
    rw [hpc]
    exact hawake chan

/-- The last descriptor of an end is closed while nobody is in a call on that end. -/
theorem Inv.lastClose (h : Inv s) (hidle : (s.thread p).pc = .idle) {w : Bool}
    (hnone : ∀ q, (if w then (s.thread q).pc.inWrite else (s.thread q).pc.inRead) = false) :
    Inv { s.goto p (.cEnter w) with wr := !w && s.wr, rd := w && s.rd } := by
  have hpc : ((s.goto p (.cEnter w)).thread p).pc = .cEnter w := goto_pc _
  have hin : ∀ q, (((s.goto p (.cEnter w)).thread q).pc.inRead = true → (s.thread q).pc.inRead = true) ∧
      (((s.goto p (.cEnter w)).thread q).pc.inWrite = true → (s.thread q).pc.inWrite = true) := by
    intro q
    by_cases hne : q = p
    · subst hne
      rw [hpc]
      exact ⟨(fun hin => nomatch hin), fun hin => nomatch hin⟩
    · rw [goto_ne _ hne]
      exact ⟨id, id⟩
  refine h.outside (fun q hq => goto_ne _ hq) (by rw [hidle]; rfl) ?_ rfl rfl ?_ ?_ ⟨?_, ?_⟩ ?_ ?_
  all_goals dsimp only
  · rw [hpc]
    rfl
  · intro q hq
    cases w with
    | true => exact h.reading q ((hin q).1 hq)
    | false => exact absurd ((hin q).1 hq) (by simpa using hnone q)
  · intro q hq
    cases w with
    | true => exact absurd ((hin q).2 hq) (by simpa using hnone q)
    | false => exact h.writing q ((hin q).2 hq)
  · cases w <;> simp
  · cases w <;> simp
  · intro w' hw'
    rw [hpc] at hw'
    cases hw'
    cases w <;> rfl
  · intro chan
    rw [hpc]
    cases chan <;> rfl

/-- **One action keeps the invariant.** -/
theorem Inv.step (h : Inv s) {a : Act n} (hok : NoSilentExit s a) (hs : step s a = some s') : Inv s' := by
  cases a with
  | run p => exact h.ran hok (run_cases hs)
  | kill p =>
    cases hs
    exact h.awaken _ fun _ => rfl
  | write p src len =>
    dsimp only [PipeSys.step] at hs
    split at hs
    · rename_i hcan
      cases hs
      exact h.call hcan.1 _ rfl rfl (fun chan => by cases chan <;> rfl) (fun hin => nomatch hin)
        (fun _ => hcan.2) fun w hw => nomatch hw
    · cases hs
  | read p dst len =>
    dsimp only [PipeSys.step] at hs
    split at hs
    · rename_i hcan
      cases hs
      exact h.call hcan.1 _ rfl rfl (fun chan => by cases chan <;> rfl) (fun _ => hcan.2)
        (fun hin => nomatch hin) fun w hw => nomatch hw
    · cases hs
  | close p w =>
    cases w with
    | true =>
      dsimp only [PipeSys.step] at hs
      split at hs
      · rename_i hcan
        cases hs
        exact h.lastClose hcan.1 (w := true) hcan.2.2
      · cases hs
    | false =>
      dsimp only [PipeSys.step] at hs
      split at hs
      · rename_i hcan
        cases hs
        exact h.lastClose hcan.1 (w := false) hcan.2.2
      · cases hs

theorem Init.inv (h : Init s) : Inv s where
  crit p := by
    rw [h.idle p, h.lock]
    exact ⟨(fun hc => nomatch hc), fun hl => nomatch hl⟩
  knows p := by
    rw [h.idle p]
    trivial
  reading p hin := by
    rw [h.idle p] at hin
    cases hin
  writing p hin := by
    rw [h.idle p] at hin
    cases hin
  rdOpen _ := h.readopen
  wrOpen _ := h.writeopen
  closing p w hpc := by
    rw [h.idle p] at hpc
    cases hpc
  asleep chan q hq := by
    rw [h.idle q] at hq
    cases chan <;> cases hq

/-! ## Whole runs -/

/-- The silent exit leaves a reader asleep over bytes with the lock free. -/
theorem silentExit_lost {a : Act n} (hbad : ¬ NoSilentExit s a) :
    ∃ s', PipeSys.step s a = some s' ∧ ¬ NoLostWakeup s' := by
  cases a with
  | write | read | close | kill => exact absurd trivial hbad
  | run p =>
    simp only [NoSilentExit, not_forall] at hbad
    obtain ⟨i, hpc, hi, hkilled, q, hq, hne⟩ := hbad
    have hqp : q ≠ p := by
      rintro rfl
      rw [hpc] at hq
      cases hq
    refine ⟨s.retWrite p i (-1), ?_, ?_⟩
    · show s.run p = _
      unfold Sys.run
      rw [hpc]
      dsimp only
      rw [if_pos hi, hkilled, Bool.or_true, if_pos rfl]
    · intro hlost
      refine hne (hlost rfl .nread q ?_).1
      have hthread : (s.retWrite p i (-1)).thread q = s.thread q := ret_ne _ hqp
      rw [hthread, hq]
      rfl

/-- **No wakeup is lost on a pipe exactly on the runs without a silent exit.** -/
theorem pipe_wakeup_iff (h : Init s) (acts : List (Act n)) :
    Transition.Along PipeSys.step NoLostWakeup s acts ↔
      Transition.GuardedActs PipeSys.step NoSilentExit s acts :=
  Transition.along_iff_guardedActs (fun _ hinv => hinv.noLostWakeup) (fun _ _ _ hinv hok hs => hinv.step hok hs)
    (fun _ _ _ hbad => silentExit_lost hbad) acts h.inv

end

/-- The reader sleeps in `piperead`; the writer writes the first of two bytes, is killed and leaves. -/
def silentExit (reader writer : Fin n) : List (Act n) :=
  [.read reader (fun _ => true) 1, .run reader, .run reader, .run reader,
    .write writer (fun _ => some 7) 2, .run writer, .run writer, .run writer, .kill writer, .run writer]

theorem silentExit_end :
    (Transition.runActs step (Sys.fresh 2 0) (silentExit 0 1)).map
      (fun s => (s.lock, (s.thread 0).pc, s.pi.nread, s.pi.nwrite, (s.thread 1).ret)) =
    some (none, .rAsleep, 0, 1, -1) := by
  decide

/-- **A lost wakeup**: the writer has returned `-1`, the lock is free, a byte is in the pipe and the reader
is asleep. -/
theorem silentExit_loses_wakeup :
    Init (Sys.fresh 2 0) ∧ ∃ s, Transition.runActs step (Sys.fresh 2 0) (silentExit 0 1) = some s ∧
      (s.thread 0).pc = .rAsleep ∧ s.pi.nread = 0 ∧ s.pi.nwrite = 1 ∧ (s.thread 1).ret = -1 ∧
      ¬ NoLostWakeup s := by
  obtain ⟨s, hs, hend⟩ := Option.map_eq_some_iff.1 silentExit_end
  simp only [Prod.mk.injEq] at hend
  obtain ⟨hlock, hpc, hr, hw, hret⟩ := hend
  refine ⟨fresh_init (by decide), s, hs, hpc, hr, hw, hret, ?_⟩
  intro hlost
  have hseen := hlost hlock .nread 0 (by rw [hpc]; rfl)
  exact absurd (hr.symm.trans (hseen.1.trans hw)) (by decide)

/-- A reader that is killed on its way in and a writer that only waits for the lock lose nothing. -/
theorem pipe_wakeup_iff_killed_reader :
    Init (Sys.fresh 2 0) ∧
      Transition.Along step NoLostWakeup (Sys.fresh 2 0)
        [.read 0 (fun _ => true) 1, .run 0, .kill 0, .write 1 (fun _ => some 7) 2, .run 0] := by
  refine ⟨fresh_init (by decide), (pipe_wakeup_iff (fresh_init (by decide)) _).2 ?_⟩
  refine ⟨trivial, fun s₁ h₁ => ?_⟩
  cases h₁
  refine ⟨(fun i hpc => nomatch hpc), fun s₂ h₂ => ?_⟩
  cases h₂
  refine ⟨trivial, fun s₃ h₃ => ?_⟩
  cases h₃
  refine ⟨trivial, fun s₄ h₄ => ?_⟩
  cases h₄
  exact ⟨(fun i hpc => nomatch hpc), fun _ _ => trivial⟩

end PipeSys

end Xv6
