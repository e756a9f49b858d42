import Xv6.Param

/-!
# The in-memory log and its critical sections

`struct log` of `kernel/log.c` and the parts of `begin_op`, `log_write` and `end_op` that run
while `log.lock` is held.

* `Log.lh` is the list `block[0], …, block[n-1]` of the in-memory header; `n` is its length.
* `beginOp` — `none` when the caller has to sleep on `&log`.
* `logWrite` — log absorption; the Boolean says that the block is new and is to be pinned.
* `endOp` — the Boolean is `do_commit`.
* `endCommit` — the second critical section of `end_op`.

`CommitPc` says where `commit` stands; its two loops advance one block at a time.

A panic is an `Except.error` that carries the source's message.
-/

namespace Xv6

/-- Where `commit` stands. -/
inductive CommitPc where
  | start
  | writeLog (tail : Nat)
  | writeHead
  | install (tail : Nat)
  | clear
  | clearHead
  | finish
  deriving DecidableEq, Repr

/-- The header on disk already lists the transaction (or there was nothing to write). -/
def CommitPc.recorded : CommitPc → Bool
  | .start | .writeLog _ | .writeHead => false
  | .install _ | .clear | .clearHead | .finish => true

/-- `struct log` without its spin lock. -/
structure Log where
  start : Nat
  size : Int
  outstanding : Int
  committing : Bool
  dev : Nat
  lh : List Nat
  deriving DecidableEq, Repr

namespace Log

/-- The log as `initlog` leaves it, once `recover_from_log` has emptied the header. -/
def init (start nlog : Nat) : Log :=
  { start := start, size := nlog, outstanding := 0, committing := false, dev := ROOTDEV, lh := [] }

/-- One pass of the loop of `begin_op`. -/
def beginOp (l : Log) : Option Log :=
  if l.committing then none
  else if (l.lh.length : Int) + (l.outstanding + 1) * MAXOPBLOCKS > LOGSIZE then none
  else some { l with outstanding := l.outstanding + 1 }

/-- The first index of `blockno` in the header, `n` if it is not there. -/
def absorbIndex (lh : List Nat) (blockno : Nat) : Nat := lh.findIdx (· == blockno)

/-- `log_write(b)` on a buffer of block `blockno`. -/
def logWrite (l : Log) (blockno : Nat) : Except String (Log × Bool) :=
  if (l.lh.length : Int) ≥ LOGSIZE ∨ (l.lh.length : Int) ≥ l.size - 1 then
    .error "too big a transaction"
  else if l.outstanding < 1 then .error "log_write outside of trans"
  else
    let i := absorbIndex l.lh blockno
    if i = l.lh.length then .ok ({ l with lh := l.lh ++ [blockno] }, true)
    else .ok ({ l with lh := l.lh.set i blockno }, false)

/-- The first critical section of `end_op`. -/
def endOp (l : Log) : Except String (Log × Bool) :=
  let l := { l with outstanding := l.outstanding - 1 }
  if l.committing then .error "log.committing"
  else if l.outstanding = 0 then .ok ({ l with committing := true }, true)
  else .ok (l, false)

/-- The second critical section of `end_op`, after `commit` has returned. -/
def endCommit (l : Log) : Log := { l with committing := false }

/-! ## What each critical section can do -/

theorem beginOp_some {l l' : Log} (h : l.beginOp = some l') :
    l.committing = false ∧ (l.lh.length : Int) + (l.outstanding + 1) * MAXOPBLOCKS ≤ LOGSIZE ∧
      l' = { l with outstanding := l.outstanding + 1 } := by
  unfold beginOp at h
  split at h
  · cases h
  · rename_i hc
    split at h
    · cases h
    · rename_i hr
      cases h
      exact ⟨by simpa using hc, by omega, rfl⟩

theorem absorbIndex_of_not_mem {lh : List Nat} {b : Nat} (h : b ∉ lh) :
    absorbIndex lh b = lh.length := by
  unfold absorbIndex
  rw [List.findIdx_eq_length]
  intro x hx
  simp only [beq_eq_false_iff_ne]
  intro he
  exact h (he ▸ hx)

theorem absorbIndex_lt {lh : List Nat} {b : Nat} (h : b ∈ lh) : absorbIndex lh b < lh.length := by
  unfold absorbIndex
  rw [List.findIdx_lt_length]
  exact ⟨b, h, by simp⟩

theorem getElem_absorbIndex {lh : List Nat} {b : Nat} (h : absorbIndex lh b < lh.length) :
    lh[absorbIndex lh b] = b :=
  eq_of_beq (List.findIdx_getElem (p := (· == b)) (w := h))

theorem logWrite_ok {l l' : Log} {b : Nat} {new : Bool} (h : l.logWrite b = .ok (l', new)) :
    (l.lh.length : Int) < LOGSIZE ∧ (l.lh.length : Int) < l.size - 1 ∧ 1 ≤ l.outstanding ∧
      ((b ∈ l.lh ∧ new = false ∧ l' = l) ∨
       (b ∉ l.lh ∧ new = true ∧ l' = { l with lh := l.lh ++ [b] })) := by
  unfold logWrite at h
  split at h
  · cases h
  · rename_i hsz
    split at h
    · cases h
    · rename_i hout
      refine ⟨by omega, by omega, by omega, ?_⟩
      by_cases hb : b ∈ l.lh
      · left
        have hlt := absorbIndex_lt hb
        rw [if_neg (by omega)] at h
        cases h
        refine ⟨hb, rfl, ?_⟩
        have : l.lh.set (absorbIndex l.lh b) b = l.lh := by
          apply List.ext_getElem (by simp)
          intro i h1 h2
          rw [List.getElem_set]
          split
          · rename_i he; subst he; exact (getElem_absorbIndex hlt).symm
          · rfl
        rw [this]
      · right
        rw [if_pos (absorbIndex_of_not_mem hb)] at h
        cases h
        exact ⟨hb, rfl, rfl⟩

theorem logWrite_error {l : Log} {b : Nat} {e : String} (h : l.logWrite b = .error e) :
    (e = "too big a transaction" ∧
      ((LOGSIZE : Int) ≤ l.lh.length ∨ l.size - 1 ≤ (l.lh.length : Int))) ∨
    (e = "log_write outside of trans" ∧ l.outstanding < 1) := by
  unfold logWrite at h
  split at h
  · rename_i hsz
    cases h
    exact Or.inl ⟨rfl, by omega⟩
  · split at h
    · rename_i hout
      cases h
      exact Or.inr ⟨rfl, hout⟩
    · simp only at h
      split at h <;> cases h

theorem endOp_ok {l l' : Log} {c : Bool} (h : l.endOp = .ok (l', c)) :
    l.committing = false ∧
      ((l.outstanding = 1 ∧ c = true ∧ l' = { l with outstanding := 0, committing := true }) ∨
       (l.outstanding ≠ 1 ∧ c = false ∧ l' = { l with outstanding := l.outstanding - 1 })) := by
  unfold endOp at h
  simp only at h
  split at h
  · cases h
  · rename_i hc
    refine ⟨by simpa using hc, ?_⟩
    split at h
    · rename_i ho
      cases h
      refine Or.inl ⟨by omega, rfl, ?_⟩
      rw [show l.outstanding - 1 = 0 from ho]
    · rename_i ho
      cases h
      exact Or.inr ⟨by omega, rfl, rfl⟩

theorem endOp_error {l : Log} {e : String} (h : l.endOp = .error e) : l.committing = true := by
  unfold endOp at h
  simp only at h
  split at h
  · rename_i hc; exact hc
  · split at h <;> cases h

end Log

end Xv6
