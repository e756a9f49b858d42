import Xv6.Pipe

/-!
# A pipe is a queue

* `ring` — the bytes in the pipe, from `nread` to `nwrite`.
* `progress` — the bytes that the current `pipewrite` of a process has put into the pipe.
* `ValidReads` — `piperead` is given a buffer that can be written.
* `pipe_fifo` — in every state that is reached, whatever the counters started at, what the readers have got
  and what is in the ring are together what the writers have put in, and each writer's bytes are in its order.
-/

namespace Xv6

/-- The bytes in the pipe. -/
def PipeData.ring (pi : PipeData) : List UInt8 := Ring.contents PIPESIZE (2 ^ 32) pi.data pi.nread pi.nwrite

namespace PipeSys

variable {n : Nat}

/-- `i` in `pipewrite`. -/
def Pc.count : Pc n → Nat
  | .wEnter i | .wLoop i | .wBody i | .wAsleep i => i
  | .wake _ _ (.wSleep i) | .wake _ _ (.wRet i) => i
  | _ => 0

def Thread.progress (t : Thread n) : List UInt8 := t.sent t.pc.count

/-- The buffer of `piperead` is valid. -/
def ValidReads (_ : Sys n) : Act n → Prop
  | .read _ dst len => ∀ i < len, dst i = true
  | _ => True

/-- The invariant of the queue. -/
structure Fifo (s : Sys n) : Prop where
  queue : ∃ q, Ring.Holds PIPESIZE (2 ^ 32) s.pi.data s.pi.nread s.pi.nwrite q ∧
    s.accepted.map Prod.snd = s.delivered.map Prod.snd ++ q
  own : ∀ p, (s.accepted.filter fun b => b.1 = p).map Prod.snd = s.written p ++ (s.thread p).progress
  buffer : ∀ p, (s.thread p).pc.inRead = true → ∀ i < (s.thread p).len, (s.thread p).dst i = true

section

variable {s s' : Sys n} {p q : Fin n}

theorem pipesize_lt : PIPESIZE < 2 ^ 32 := by decide

theorem pipesize_dvd : PIPESIZE ∣ 2 ^ 32 := by decide

theorem Thread.sent_succ {t : Thread n} {i : Nat} {ch : UInt8} (h : t.src i = some ch) :
    t.sent (i + 1) = t.sent i ++ [ch] := by
  unfold Thread.sent
  rw [List.range_succ, List.filterMap_append, List.filterMap_cons_some h, List.filterMap_nil]

/-- One thread changes, and nothing of the queue. -/
theorem Fifo.upd (h : Fifo s) (f : Thread n → Thread n)
    (hprogress : (f (s.thread p)).progress = (s.thread p).progress)
    (hbuffer : (f (s.thread p)).pc.inRead = true → ∀ i < (f (s.thread p)).len, (f (s.thread p)).dst i = true) :
    Fifo (s.upd p f) where
  queue := h.queue
  own q := by
    by_cases hq : q = p
    · subst hq
      rw [upd_thread_self, hprogress]
      exact h.own q
    · rw [upd_thread_ne f hq]
      exact h.own q
  buffer q := by
    by_cases hq : q = p
    · subst hq
      rw [upd_thread_self]
      exact hbuffer
    · rw [upd_thread_ne f hq]
      exact h.buffer q

theorem Fifo.buffer_goto (h : Fifo s) (pc : Pc n) (hin : pc.inRead = true → (s.thread p).pc.inRead = true)
    (q : Fin n) (hread : ((s.goto p pc).thread q).pc.inRead = true) :
    ∀ i < ((s.goto p pc).thread q).len, ((s.goto p pc).thread q).dst i = true := by
  revert hread
  by_cases hq : q = p
  · subst hq
    unfold Sys.goto
    rw [upd_thread_self]
    exact fun hread => h.buffer q (hin hread)
  · rw [goto_ne pc hq]
    exact h.buffer q

/-- A process goes on in the same call. -/
theorem Fifo.goto (h : Fifo s) {pc pc' : Pc n} (hpc : (s.thread p).pc = pc) (hcount : pc'.count = pc.count)
    (hin : pc'.inRead = true → pc.inRead = true) : Fifo (s.goto p pc') := by
  subst hpc
  refine h.upd _ ?_ fun hread => h.buffer p (hin hread)
  show (s.thread p).sent pc'.count = _
  rw [hcount]
  rfl

/-- A call other than `pipewrite` returns. -/
theorem Fifo.ret (h : Fifo s) (hcount : (s.thread p).pc.count = 0) (r : Int) : Fifo (s.ret p r) := by
  have hupd : Fifo (s.upd p fun t => { t with pc := .idle, ret := r }) := by
    refine h.upd _ ?_ (fun hread => nomatch hread)
    unfold Thread.progress
    rw [hcount]
    rfl
  exact ⟨hupd.queue, hupd.own, hupd.buffer⟩

/-- `pipewrite` returns: its bytes join those of the calls before it. -/
theorem Fifo.retWrite (h : Fifo s) {i : Nat} (hcount : (s.thread p).pc.count = i) (r : Int) :
    Fifo (s.retWrite p i r) where
  queue := h.queue
  own q := by
    have hown := h.own q
    rw [retWrite_thread, retWrite_written]
    by_cases hq : q = p
    · subst hq
      unfold Thread.progress at hown
      rw [hcount] at hown
      rw [Function.update_self, ret_self, ← hown]
      exact (List.append_nil _).symm
    · rw [Function.update_of_ne hq, ret_ne _ hq]
      exact hown
  buffer q := by
    rw [retWrite_thread]
    by_cases hq : q = p
    · subst hq
      rw [ret_self]
      exact fun hread => nomatch hread
    · rw [ret_ne _ hq]
      exact h.buffer q

/-- A byte is put into the ring. -/
theorem Fifo.put (h : Fifo s) {i : Nat} {ch : UInt8} (hpc : (s.thread p).pc = .wBody i) (hroom : ¬ s.pi.Full)
    (hch : (s.thread p).src i = some ch) : Fifo (s.put p i ch) where
  queue := by
    obtain ⟨q, hring, hbytes⟩ := h.queue
    have hlen : q.length < PIPESIZE := by
      refine Nat.lt_of_le_of_ne hring.length_le ?_
      intro hfull
      exact hroom ((hring.full_iff pipesize_lt).2 hfull)
    refine ⟨q ++ [ch], hring.push pipesize_dvd hlen ch, ?_⟩
    show (s.accepted ++ [(p, ch)]).map Prod.snd = s.delivered.map Prod.snd ++ (q ++ [ch])
    rw [List.map_append, hbytes, List.append_assoc]
    rfl
  own q := by
    have hown := h.own q
    show ((s.accepted ++ [(p, ch)]).filter fun b => b.1 = q).map Prod.snd =
      s.written q ++ ((s.goto p (.wLoop (i + 1))).thread q).progress
    rw [List.filter_append, List.map_append, hown]
    by_cases hq : q = p
    · subst hq
      have hprogress : (s.thread q).progress = (s.thread q).sent i := by
        unfold Thread.progress
        rw [hpc]
        rfl
      have hprogress' : ((s.goto q (.wLoop (i + 1))).thread q).progress = (s.thread q).sent (i + 1) := by
        unfold Sys.goto
        rw [upd_thread_self]
        rfl
      rw [hprogress, hprogress', Thread.sent_succ hch, List.append_assoc, List.filter_cons_of_pos (by simp)]
      rfl
    · rw [goto_ne _ hq, List.filter_cons_of_neg (by simpa using fun h => hq h.symm)]
      exact List.append_nil _
  buffer := h.buffer_goto (.wLoop (i + 1)) fun hread => nomatch hread

/-- A byte leaves the ring for a valid buffer. -/
theorem Fifo.take (h : Fifo s) {i : Nat} (hpc : (s.thread p).pc = .rCopy i) (hi : i < (s.thread p).len)
    (hne : s.pi.nread ≠ s.pi.nwrite) : Fifo (s.take p i) := by
  have hin : (s.thread p).pc.inRead = true := by rw [hpc]; rfl
  unfold Sys.take
  rw [if_pos (h.buffer p hin i hi)]
  refine ⟨?_, ?_, h.buffer_goto (.rCopy (i + 1)) fun _ => hin⟩
  · obtain ⟨q, hring, hbytes⟩ := h.queue
    obtain ⟨x, q', rfl⟩ := hring.exists_cons pipesize_lt hne
    obtain ⟨hfront, hrest⟩ := hring.pop pipesize_dvd
    refine ⟨q', hrest, ?_⟩
    show s.accepted.map Prod.snd = (s.delivered ++ [(p, s.pi.data (s.pi.nread % PIPESIZE))]).map Prod.snd ++ q'
    rw [hbytes, hfront, List.map_append, List.append_assoc]
    rfl
  · have hgoto : Fifo (s.goto p (.rCopy (i + 1))) := h.goto hpc rfl fun _ => rfl
    exact hgoto.own

theorem awake_count (pc : Pc n) : pc.awake.count = pc.count := by
  cases pc <;> rfl

theorem awake_inRead (pc : Pc n) : pc.awake.inRead = pc.inRead := by
  cases pc <;> rfl

theorem Fifo.wakeOne (h : Fifo s) (chan : Chan) : Fifo (s.wakeOne chan q) := by
  unfold Sys.wakeOne
  split
  · exact h.goto rfl (awake_count _) fun hread => (awake_inRead _).symm.trans hread
  · exact h

/-- The end of a `wakeup`. -/
theorem Fifo.woken (h : Fifo s) {chan : Chan} {rest : List (Fin n)} {after : After}
    (hpc : (s.thread p).pc = .wake chan rest after) : Fifo (s.afterWake p after) := by
  cases after with
  | wSleep i =>
    have hgoto : Fifo (s.goto p (.wAsleep i)) := h.goto hpc rfl fun hread => nomatch hread
    exact ⟨hgoto.queue, hgoto.own, hgoto.buffer⟩
  | wRet i => exact h.retWrite (by rw [hpc]; rfl) i
  | rRet i => exact h.ret (by rw [hpc]; rfl) i
  | cRet => exact h.ret (by rw [hpc]; rfl) 0

/-- **Every step of a process keeps the queue.** -/
theorem Fifo.ran (h : Fifo s) (hran : Ran s p s') : Fifo s' := by
  cases hran with
  | wEnter hpc _ =>
    have hgoto : Fifo (s.goto p (.wLoop _)) := h.goto hpc rfl fun hread => nomatch hread
    exact ⟨hgoto.queue, hgoto.own, hgoto.buffer⟩
  | rEnter hpc _ =>
    have hgoto : Fifo (s.goto p .rLoop) := h.goto hpc rfl fun _ => rfl
    exact ⟨hgoto.queue, hgoto.own, hgoto.buffer⟩
  | @cEnter w hpc _ =>
    have hgoto : Fifo (s.goto p (.wake (if w then .nread else .nwrite) (List.finRange n) .cRet)) :=
      h.goto hpc rfl fun hread => nomatch hread
    refine ⟨?_, hgoto.own, hgoto.buffer⟩
    -- only a flag of the pipe changes
    cases w <;> exact hgoto.queue
  | rSleep hpc =>
    have hgoto : Fifo (s.goto p .rAsleep) := h.goto hpc rfl fun _ => rfl
    exact ⟨hgoto.queue, hgoto.own, hgoto.buffer⟩
  | wGone hpc _ _ => exact h.retWrite (by rw [hpc]; rfl) (-1)
  | wPut hpc hroom hch => exact h.put hpc hroom hch
  | rTake hpc hi hne => exact h.take hpc hi hne
  | rKilled hpc => exact h.ret (by rw [hpc]; rfl) (-1)
  | woken hpc => exact h.woken hpc
  | @scan chan q rest after hpc =>
    have hpc' : ((s.wakeOne chan q).thread p).pc = .wake chan (q :: rest) after := by
      rw [wakeOne_holder hpc, hpc]
    refine (h.wakeOne chan).goto hpc' ?_ ?_
    · cases after <;> rfl
    · cases after <;> exact id
  | wGo hpc _ | wEnd hpc | wFull hpc _ | wFault hpc => exact h.goto hpc rfl fun hread => nomatch hread
  | rWait hpc _ _ | rGo hpc | rEnd hpc => exact h.goto hpc rfl fun _ => rfl

/-- **One action keeps the queue.** -/
theorem Fifo.step (h : Fifo s) {a : Act n} (hok : ValidReads s a) (hs : step s a = some s') : Fifo s' := by
  cases a with
  | run p => exact h.ran (run_cases hs)
  | kill p =>
    cases hs
    refine h.upd _ ?_ ?_
    · show (s.thread p).sent (s.thread p).pc.awake.count = _
      rw [awake_count]
      rfl
    · intro hread
      exact h.buffer p ((awake_inRead _).symm.trans hread)
  | write p src len =>
    dsimp only [PipeSys.step] at hs
    split at hs
    · rename_i hcan
      cases hs
      refine h.upd _ ?_ (fun hread => nomatch hread)
      unfold Thread.progress
      rw [hcan.1]
      rfl
    · cases hs
  | read p dst len =>
    dsimp only [PipeSys.step] at hs
    split at hs
    · rename_i hcan
      cases hs
      refine h.upd _ ?_ (fun _ => hok)
      unfold Thread.progress
      rw [hcan.1]
      rfl
    · cases hs
  | close p w =>
    have hgoto : (s.thread p).pc = .idle → Fifo (s.goto p (.cEnter w)) :=
      fun hidle => h.goto hidle rfl fun hread => nomatch hread
    cases w <;>
    · dsimp only [PipeSys.step] at hs
      split at hs
      · rename_i hcan
        cases hs
        exact ⟨(hgoto hcan.1).queue, (hgoto hcan.1).own, (hgoto hcan.1).buffer⟩
      · cases hs

theorem Init.fifo (h : Init s) : Fifo s where
  queue := by
    refine ⟨[], ?_, by rw [h.accepted, h.delivered]; rfl⟩
    rw [← h.counters]
    exact Ring.Holds.nil h.nread_lt
  own p := by
    unfold Thread.progress
    rw [h.accepted, h.written, h.idle]
    rfl
  buffer p hread := by
    rw [h.idle] at hread
    cases hread

/-- **A pipe is a queue.** -/
theorem pipe_fifo (h : Transition.Reach PipeSys.step ValidReads Init s) :
    s.accepted.map Prod.snd = s.delivered.map Prod.snd ++ s.pi.ring ∧
    s.delivered.map Prod.snd <+: s.accepted.map Prod.snd ∧
    s.pi.ring.length ≤ PIPESIZE ∧
    ∀ p, (s.accepted.filter fun b => b.1 = p).map Prod.snd = s.written p ++ (s.thread p).progress := by
  have hfifo : Fifo s :=
    h.invariant (fun s hinit => hinit.fifo) fun s a s' hs hok hstep => hs.step hok hstep
  obtain ⟨q, hring, hbytes⟩ := hfifo.queue
  have hq : s.pi.ring = q := hring.contents_eq pipesize_lt pipesize_dvd
  rw [hq]
  refine ⟨hbytes, ?_, hring.length_le, hfifo.own⟩
  rw [hbytes]
  exact List.prefix_append _ _

end

/-- Two bytes are written while `nwrite` wraps, and one of them is read. -/
def wrapRun (writer reader : Fin n) : List (Act n) :=
  [.write writer (fun i => [7, 8][i]?) 2] ++ List.replicate 5 (.run writer) ++
    [.read reader (fun _ => true) 1] ++ List.replicate 4 (.run writer) ++ List.replicate 4 (.run reader)

theorem wrapRun_end :
    (Transition.runActs step (Sys.fresh 2 (2 ^ 32 - 1)) (wrapRun 0 1)).map
      (fun s => (s.pi.nread, s.pi.nwrite, s.delivered, s.pi.ring)) = some (0, 1, [(1, 7)], [8]) := by
  decide +kernel

/-- The queue across the wrap. -/
theorem pipe_fifo_wraps :
    ∃ s, Transition.runActs step (Sys.fresh 2 (2 ^ 32 - 1)) (wrapRun 0 1) = some s ∧
      s.pi.nread = 0 ∧ s.pi.nwrite = 1 ∧ s.accepted.map Prod.snd = [7, 8] ∧ s.pi.ring.length ≤ PIPESIZE := by
  obtain ⟨s, hs, hend⟩ := Option.map_eq_some_iff.1 wrapRun_end
  simp only [Prod.mk.injEq] at hend
  obtain ⟨hr, hw, hdelivered, hring⟩ := hend
  have hguard : Transition.GuardedActs step ValidReads (Sys.fresh 2 (2 ^ 32 - 1)) (wrapRun 0 1) := by
    refine Transition.guardedActs_of_enabled ?_ hs
    intro s a s' ha _
    cases a with
    | read p dst len =>
      simp only [wrapRun, List.mem_append, List.mem_singleton, List.mem_replicate, reduceCtorEq, and_false,
        false_or, or_false, Act.read.injEq] at ha
      obtain ⟨_, rfl, _⟩ := ha
      exact fun _ _ => rfl
    | write | close | kill | run => trivial
  have hreach := (Transition.Reach.init (fresh_init (by decide))).runActs hguard hs
  obtain ⟨hbytes, -, hlen, -⟩ := pipe_fifo hreach
  refine ⟨s, hs, hr, hw, ?_, hlen⟩
  rw [hbytes, hdelivered, hring]
  rfl

end PipeSys

end Xv6
