import Xv6.Lib.Ring
import Xv6.Lib.Transition

/-!
# Console input

`consoleintr` and `consoleread` of `kernel/console.c`.  The echo to the UART is left out.

* `Cons` — the ring with its three indices, which run freely modulo `2 ^ 32`.
* `ConsoleSys` — the console with any number of readers.  One step is one section under `cons.lock`:
  an input character, or a reader from where it takes the lock to where it sleeps or returns.  A reader
  that sleeps may go on at any time, since it tests `cons.r == cons.w` again.
* `LineSys` — what the console is for: a queue of committed bytes and a line that is being edited.
* `console_refines` — every run of the console is a run of the line discipline with the same results.
-/

namespace Xv6

def INPUT_BUF_SIZE : Nat := 128

/-- `C('D')`, `C('H')`, `C('P')`, `C('U')` and the delete key. -/
def CTRL_D : UInt8 := 4
def CTRL_H : UInt8 := 8
def CTRL_P : UInt8 := 16
def CTRL_U : UInt8 := 21
def DEL : UInt8 := 127
def LF : UInt8 := 10
def CR : UInt8 := 13

/-- `a - b` for `uint`. -/
def usub (a b : Nat) : Nat := (a + (2 ^ 32 - b)) % 2 ^ 32

structure Cons where
  buf : Nat → UInt8
  r : Nat
  w : Nat
  e : Nat

namespace Cons

/-- The loop of `C('U')`; it ends at the latest when `e` has come back to `w`. -/
def killLine : Nat → Cons → Cons
  | 0, s => s
  | n + 1, s =>
    if s.e ≠ s.w ∧ s.buf (usub s.e 1 % INPUT_BUF_SIZE) ≠ LF then killLine n { s with e := usub s.e 1 } else s

/-- The character is stored, and the line is committed when it is complete or the ring is full. -/
def store (s : Cons) (c : UInt8) : Cons :=
  let s := { s with buf := Function.update s.buf (s.e % INPUT_BUF_SIZE) c, e := (s.e + 1) % 2 ^ 32 }
  if c = LF ∨ c = CTRL_D ∨ usub s.e s.r = INPUT_BUF_SIZE then { s with w := s.e } else s

def consoleintr (s : Cons) (c : UInt8) : Cons :=
  if c = CTRL_P then s
  else if c = CTRL_U then killLine (usub s.e s.w) s
  else if c = CTRL_H ∨ c = DEL then
    if s.e ≠ s.w then { s with e := usub s.e 1 } else s
  else if c ≠ 0 ∧ usub s.e s.r < INPUT_BUF_SIZE then s.store (if c = CR then LF else c)
  else s

end Cons

/-- How a section of `consoleread` ends. -/
inductive ReadEnd where
  /-- `sleep(&cons.r, &cons.lock)` with `n` bytes to go. -/
  | sleep (n : Nat)
  /-- `return target - n`. -/
  | ret (n : Nat)
  deriving DecidableEq

/-- The loop of `consoleread`, from where `cons.lock` is taken or `sleep` returns.  `n` bytes are still
wanted of `target`; `out` is what this section has copied.  The Boolean says that a `C('D')` was consumed. -/
def Cons.readLoop (target : Nat) : Nat → Cons → List UInt8 → Cons × List UInt8 × Bool × ReadEnd
  | 0, s, out => (s, out, false, .ret 0)
  | n + 1, s, out =>
    if s.r = s.w then (s, out, false, .sleep (n + 1))
    else
      let c := s.buf (s.r % INPUT_BUF_SIZE)
      let s := { s with r := (s.r + 1) % 2 ^ 32 }
      if c = CTRL_D then
        if n + 1 < target then ({ s with r := usub s.r 1 }, out, false, .ret (n + 1))
        else (s, out, true, .ret (n + 1))
      else if c = LF then (s, out ++ [c], false, .ret n)
      else readLoop target n s (out ++ [c])

/-- A call of `consoleread` that sleeps: it wants `n` more bytes of `target`, and has copied `out`. -/
structure Pending where
  target : Nat
  n : Nat
  out : List UInt8
  deriving DecidableEq

/-- What a call of `consoleread` returned; `none` is the result `-1` of a killed process. -/
structure Result (ι : Type) where
  reader : ι
  target : Nat
  out : List UInt8
  ret : Option Nat

inductive ConsoleAct (ι : Type) where
  | intr (c : UInt8)
  | read (p : ι) (n : Nat)
  /-- `sleep` returns. -/
  | resume (p : ι)
  /-- `sleep` returns to a process that has been killed. -/
  | killed (p : ι)

/-- What the readers have seen. -/
structure Readers (ι : Type) where
  pending : ι → Option Pending
  results : List (Result ι)

section readers

variable {ι : Type} [DecidableEq ι]

/-- A section of the call `pd` of reader `p` has copied `out`. -/
def Readers.copied (rs : Readers ι) (p : ι) (pd : Pending) (out : List UInt8) : ReadEnd → Readers ι
  | .sleep n => { rs with pending := Function.update rs.pending p (some ⟨pd.target, n, pd.out ++ out⟩) }
  | .ret n =>
    { pending := Function.update rs.pending p none
      results := rs.results ++ [⟨p, pd.target, pd.out ++ out, some (pd.target - n)⟩] }

/-- `return -1`. -/
def Readers.kill (rs : Readers ι) (p : ι) (pd : Pending) : Readers ι where
  pending := Function.update rs.pending p none
  results := rs.results ++ [⟨p, pd.target, pd.out, none⟩]

end readers

structure ConsoleSys (ι : Type) where
  cons : Cons
  readers : Readers ι

namespace ConsoleSys

variable {ι : Type} [DecidableEq ι]

def readSection (s : ConsoleSys ι) (p : ι) (pd : Pending) : ConsoleSys ι :=
  let (cons, out, _, fin) := s.cons.readLoop pd.target pd.n []
  { cons := cons, readers := s.readers.copied p pd out fin }

def step (s : ConsoleSys ι) : ConsoleAct ι → Option (ConsoleSys ι)
  | .intr c => some { s with cons := s.cons.consoleintr c }
  | .read p n =>
    match s.readers.pending p with
    | none => if 0 < n then some (s.readSection p ⟨n, n, []⟩) else none
    | some _ => none
  | .resume p => (s.readers.pending p).map fun pd => s.readSection p pd
  | .killed p =>
    match s.readers.pending p with
    | none => none
    | some pd => if s.cons.r = s.cons.w then some { s with readers := s.readers.kill p pd } else none

/-- `cons` starts as zeros. -/
def init : ConsoleSys ι where
  cons := ⟨fun _ => 0, 0, 0, 0⟩
  readers := ⟨fun _ => none, []⟩

end ConsoleSys

/-! ## The line discipline -/

/-- Bytes before the first end of line or end of file. -/
def plain (q : List UInt8) : List UInt8 := q.takeWhile fun c => c ≠ LF ∧ c ≠ CTRL_D

/-- What a call that wants `n` more bytes gets from the queue `q`: the bytes, the rest of the queue, whether a
`C('D')` was consumed, and how the section ends.  `first` says that the call has not got anything so far. -/
def deliver (n : Nat) (first : Bool) (q : List UInt8) : List UInt8 × List UInt8 × Bool × ReadEnd :=
  let k := (plain q).length
  if n ≤ k then (q.take n, q.drop n, false, .ret 0)
  else
    match q.drop k with
    | [] => (q, [], false, .sleep (n - k))
    | c :: rest =>
      if c = LF then (q.take (k + 1), rest, false, .ret (n - (k + 1)))
      else if first ∧ k = 0 then ([], rest, true, .ret n)
      else (q.take k, c :: rest, false, .ret (n - k))

structure LineSys (ι : Type) where
  /-- Committed bytes, and the line that is being edited. -/
  queue : List UInt8
  line : List UInt8
  readers : Readers ι
  /-- Everything that has been committed, and what each section of a reader has taken. -/
  committed : List UInt8
  taken : List (ι × List UInt8 × Bool)

namespace LineSys

variable {ι : Type}

/-- The line goes to the end of the queue. -/
def commit (s : LineSys ι) : LineSys ι :=
  { s with queue := s.queue ++ s.line, line := [], committed := s.committed ++ s.line }

/-- The line with one more character, committed when it is complete or nothing more fits. -/
def append (s : LineSys ι) (c : UInt8) : LineSys ι :=
  let s := { s with line := s.line ++ [c] }
  if c = LF ∨ c = CTRL_D ∨ s.queue.length + s.line.length = INPUT_BUF_SIZE then s.commit else s

def input (s : LineSys ι) (c : UInt8) : LineSys ι :=
  if c = CTRL_P then s
  else if c = CTRL_U then { s with line := [] }
  else if c = CTRL_H ∨ c = DEL then { s with line := s.line.dropLast }
  else if c ≠ 0 ∧ s.queue.length + s.line.length < INPUT_BUF_SIZE then s.append (if c = CR then LF else c)
  else s

variable [DecidableEq ι]

def readSection (s : LineSys ι) (p : ι) (pd : Pending) : LineSys ι :=
  let (out, rest, eof, fin) := deliver pd.n pd.out.isEmpty s.queue
  { s with queue := rest, readers := s.readers.copied p pd out fin, taken := s.taken ++ [(p, out, eof)] }

def step (s : LineSys ι) : ConsoleAct ι → Option (LineSys ι)
  | .intr c => some (s.input c)
  | .read p n =>
    match s.readers.pending p with
    | none => if 0 < n then some (s.readSection p ⟨n, n, []⟩) else none
    | some _ => none
  | .resume p => (s.readers.pending p).map fun pd => s.readSection p pd
  | .killed p =>
    match s.readers.pending p with
    | none => none
    | some pd => if s.queue = [] then some { s with readers := s.readers.kill p pd } else none

def init : LineSys ι := ⟨[], [], ⟨fun _ => none, []⟩, [], []⟩

/-- The bytes that the sections of readers have removed from the queue, in order. -/
def removed (s : LineSys ι) : List UInt8 :=
  s.taken.flatMap fun t => t.2.1 ++ if t.2.2 then [CTRL_D] else []

end LineSys

/-! ## What a reader gets -/

theorem plain_cons_of_plain {c : UInt8} (hLF : c ≠ LF) (hD : c ≠ CTRL_D) (q : List UInt8) :
    plain (c :: q) = c :: plain q := by
  simp [plain, hLF, hD]

theorem plain_LF (q : List UInt8) : plain (LF :: q) = [] := by
  simp [plain]

theorem plain_CTRL_D (q : List UInt8) : plain (CTRL_D :: q) = [] := by
  simp [plain]

@[simp]
theorem deliver_zero (first : Bool) (q : List UInt8) : deliver 0 first q = ([], q, false, .ret 0) := by
  simp [deliver]

@[simp]
theorem deliver_nil (n : Nat) (first : Bool) : deliver (n + 1) first [] = ([], [], false, .sleep (n + 1)) := by
  simp [deliver, plain]

theorem deliver_LF (n : Nat) (first : Bool) (q : List UInt8) :
    deliver (n + 1) first (LF :: q) = ([LF], q, false, .ret n) := by
  simp [deliver, plain_LF]

theorem deliver_CTRL_D (n : Nat) (first : Bool) (q : List UInt8) :
    deliver (n + 1) first (CTRL_D :: q) =
      if first then ([], q, true, .ret (n + 1)) else ([], CTRL_D :: q, false, .ret (n + 1)) := by
  have hne : CTRL_D ≠ LF := by decide
  simp [deliver, plain_CTRL_D, hne]

/-- A plain character is delivered, and the call goes on with what it has got. -/
theorem deliver_plain (n : Nat) (first : Bool) {c : UInt8} (hLF : c ≠ LF) (hD : c ≠ CTRL_D) (q : List UInt8) :
    deliver (n + 1) first (c :: q) = (c :: (deliver n false q).1, (deliver n false q).2) := by
  simp only [deliver, plain_cons_of_plain hLF hD, List.length_cons, Nat.add_le_add_iff_right, List.take_succ_cons,
    List.drop_succ_cons, Nat.add_sub_add_right, Nat.add_eq_zero_iff, Nat.one_ne_zero, and_false, if_false,
    Bool.false_eq_true, false_and]
  split
  · rfl
  · split
    · rfl
    · split <;> rfl

/-- What is delivered and what is left make up the queue, and the remaining count is right. -/
theorem deliver_split (n : Nat) (first : Bool) (q : List UInt8) :
    q = (deliver n first q).1 ++ (if (deliver n first q).2.2.1 then [CTRL_D] else []) ++ (deliver n first q).2.1 := by
  induction n generalizing first q with
  | zero => simp
  | succ n ih =>
    cases q with
    | nil => simp
    | cons c q =>
      by_cases hLF : c = LF
      · subst hLF
        simp [deliver_LF]
      · by_cases hD : c = CTRL_D
        · subst hD
          cases first <;> simp [deliver_CTRL_D]
        · rw [deliver_plain n first hLF hD]
          simpa using ih false q

/-- The bytes a section still wants are those it wanted less those it got. -/
def ReadEnd.left : ReadEnd → Nat
  | .sleep n => n
  | .ret n => n

theorem deliver_left (n : Nat) (first : Bool) (q : List UInt8) :
    (deliver n first q).1.length + (deliver n first q).2.2.2.left = n := by
  induction n generalizing first q with
  | zero => simp [ReadEnd.left]
  | succ n ih =>
    cases q with
    | nil => simp [ReadEnd.left]
    | cons c q =>
      by_cases hLF : c = LF
      · subst hLF
        simp [deliver_LF, ReadEnd.left, Nat.add_comm]
      · by_cases hD : c = CTRL_D
        · subst hD
          cases first <;> simp [deliver_CTRL_D, ReadEnd.left]
        · rw [deliver_plain n first hLF hD]
          have hrest := ih false q
          simp only [List.length_cons]
          omega

/-! ## The ring holds the queue and the line -/

/-- The queue `q` and the line `l` in the ring: `r` to `w`, and `w` to `e`. -/
structure Cons.Holds (s : Cons) (q l : List UInt8) : Prop where
  ring : Ring.Holds INPUT_BUF_SIZE (2 ^ 32) s.buf s.r s.e (q ++ l)
  commit : s.w = (s.r + q.length) % 2 ^ 32

theorem INPUT_BUF_SIZE_lt : INPUT_BUF_SIZE < 2 ^ 32 := by decide

theorem INPUT_BUF_SIZE_dvd : INPUT_BUF_SIZE ∣ 2 ^ 32 := by decide

namespace Cons.Holds

variable {s : Cons} {q l : List UInt8}

/-- The committed part of the ring. -/
theorem queue (h : s.Holds q l) : Ring.Holds INPUT_BUF_SIZE (2 ^ 32) s.buf s.r s.w q where
  length_le := by
    have hlen := h.ring.length_le
    rw [List.length_append] at hlen
    omega
  read_lt := h.ring.read_lt
  write_eq := h.commit
  cell j hj := by
    have hcell := h.ring.cell j (by rw [List.length_append]; omega)
    rwa [List.getElem?_append_left hj] at hcell

/-- The edited part of the ring. -/
theorem editing (h : s.Holds q l) : Ring.Holds INPUT_BUF_SIZE (2 ^ 32) s.buf s.w s.e l where
  length_le := by
    have hlen := h.ring.length_le
    rw [List.length_append] at hlen
    omega
  read_lt := by
    rw [h.commit]
    exact Nat.mod_lt _ (by decide)
  write_eq := by
    rw [h.ring.write_eq, h.commit, List.length_append, Nat.mod_add_mod, Nat.add_assoc]
  cell j hj := by
    have hcell := h.ring.cell (q.length + j) (by rw [List.length_append]; omega)
    rw [List.getElem?_append_right (Nat.le_add_right _ _), Nat.add_sub_cancel_left] at hcell
    rw [hcell, h.commit, Nat.add_mod (_ % 2 ^ 32) j, Nat.mod_mod_of_dvd _ INPUT_BUF_SIZE_dvd, ← Nat.add_mod,
      Nat.add_assoc]

theorem length_le (h : s.Holds q l) : q.length + l.length ≤ INPUT_BUF_SIZE := by
  have hlen := h.ring.length_le
  rwa [List.length_append] at hlen

theorem usub_e_r (h : s.Holds q l) : usub s.e s.r = q.length + l.length := by
  rw [← List.length_append]
  exact h.ring.count_eq INPUT_BUF_SIZE_lt

theorem usub_e_w (h : s.Holds q l) : usub s.e s.w = l.length :=
  h.editing.count_eq INPUT_BUF_SIZE_lt

theorem r_eq_w (h : s.Holds q l) : s.r = s.w ↔ q = [] :=
  h.queue.empty_iff INPUT_BUF_SIZE_lt

theorem e_eq_w (h : s.Holds q l) : s.e = s.w ↔ l = [] := by
  rw [← h.editing.empty_iff INPUT_BUF_SIZE_lt, eq_comm]

/-- `cons.e--` takes back the last character of the line. -/
theorem erase {c : UInt8} (h : s.Holds q (l ++ [c])) :
    s.buf (usub s.e 1 % INPUT_BUF_SIZE) = c ∧ Cons.Holds { s with e := usub s.e 1 } q l := by
  have hring := h.ring
  rw [← List.append_assoc] at hring
  obtain ⟨hlast, hback⟩ := hring.unpush INPUT_BUF_SIZE_dvd
  exact ⟨hlast, hback, h.commit⟩

/-- `C('U')` clears the line: it holds no end of line at which the loop would stop. -/
theorem killLine (h : s.Holds q l) (hl : LF ∉ l) : (s.killLine l.length).Holds q [] := by
  induction l using List.reverseRecOn generalizing s with
  | nil => exact h
  | append_singleton l c ih =>
    obtain ⟨hlast, hback⟩ := h.erase
    have hgo : s.e ≠ s.w ∧ s.buf (usub s.e 1 % INPUT_BUF_SIZE) ≠ LF := by
      rw [Ne, h.e_eq_w, hlast]
      exact ⟨by simp, fun hc => hl (by simp [hc])⟩
    rw [List.length_append, List.length_singleton, Cons.killLine, if_pos hgo]
    exact ih hback fun hmem => hl (List.mem_append_left _ hmem)

theorem backspace (h : s.Holds q l) :
    (if s.e ≠ s.w then { s with e := usub s.e 1 } else s : Cons).Holds q l.dropLast := by
  rcases List.eq_nil_or_concat l with rfl | ⟨l', c, rfl⟩
  · rw [if_neg (not_not.2 (h.e_eq_w.2 rfl))]
    exact h
  · rw [List.concat_eq_append] at h ⊢
    rw [if_pos (by rw [Ne, h.e_eq_w]; simp), List.dropLast_concat]
    exact h.erase.2

/-- A character is stored at the end of the line. -/
theorem store (h : s.Holds q l) (hroom : q.length + l.length < INPUT_BUF_SIZE) (c : UInt8) :
    if c = LF ∨ c = CTRL_D ∨ q.length + (l ++ [c]).length = INPUT_BUF_SIZE then (s.store c).Holds (q ++ (l ++ [c])) []
    else (s.store c).Holds q (l ++ [c]) := by
  have hring := h.ring.push INPUT_BUF_SIZE_dvd (by rwa [List.length_append]) c
  rw [List.append_assoc] at hring
  have hstored : Cons.Holds { s with buf := Function.update s.buf (s.e % INPUT_BUF_SIZE) c
                                     e := (s.e + 1) % 2 ^ 32 } q (l ++ [c]) := ⟨hring, h.commit⟩
  have hcount := hstored.usub_e_r
  simp only [Cons.store, hcount]
  split
  · exact ⟨by rwa [List.append_nil], hring.write_eq⟩
  · exact hstored

/-- `cons.r++` takes the oldest byte of the queue. -/
theorem pop {c : UInt8} (h : s.Holds (c :: q) l) :
    s.buf (s.r % INPUT_BUF_SIZE) = c ∧ Cons.Holds { s with r := (s.r + 1) % 2 ^ 32 } q l := by
  obtain ⟨hfirst, hring⟩ := h.ring.pop INPUT_BUF_SIZE_dvd
  refine ⟨hfirst, hring, ?_⟩
  rw [h.commit, List.length_cons, Nat.mod_add_mod]
  congr 1
  omega

/-- `cons.r--` after `cons.r++`. -/
theorem usub_succ (h : s.Holds q l) : usub ((s.r + 1) % 2 ^ 32) 1 = s.r := by
  have hr := h.ring.read_lt
  unfold usub
  omega

/-- **The loop of `consoleread`** delivers what the queue has for the call. -/
theorem readLoop {target n : Nat} (h : s.Holds q l) (hn : n ≤ target) (out : List UInt8) :
    ∃ s', s.readLoop target n out =
        (s', out ++ (deliver n (n == target) q).1, (deliver n (n == target) q).2.2) ∧
      s'.Holds (deliver n (n == target) q).2.1 l := by
  induction n generalizing s q out with
  | zero =>
    refine ⟨s, ?_, ?_⟩
    · simp [Cons.readLoop]
    · simpa using h
  | succ n ih =>
    cases q with
    | nil =>
      refine ⟨s, ?_, ?_⟩
      · simp [Cons.readLoop, h.r_eq_w.2 rfl]
      · simpa using h
    | cons c q =>
      obtain ⟨hfirst, hpop⟩ := h.pop
      have hne : ¬ s.r = s.w := by
        rw [h.r_eq_w]
        simp
      rw [Cons.readLoop, if_neg hne, hfirst]
      by_cases hD : c = CTRL_D
      · subst hD
        rw [deliver_CTRL_D]
        by_cases hmore : n + 1 < target
        · -- the end of file is put back
          have hnot : (n + 1 == target) = false := by simpa using Nat.ne_of_lt hmore
          simp only [if_true, if_pos hmore, hnot, h.usub_succ, Bool.false_eq_true, if_false, List.append_nil]
          exact ⟨s, rfl, h⟩
        · have heq : (n + 1 == target) = true := by
            rw [beq_iff_eq]
            omega
          simp only [if_true, if_neg hmore, heq, List.append_nil]
          exact ⟨_, rfl, hpop⟩
      · by_cases hLF : c = LF
        · subst hLF
          rw [deliver_LF]
          simp only [if_neg hD, if_true]
          exact ⟨_, rfl, hpop⟩
        · rw [deliver_plain n _ hLF hD]
          simp only [if_neg hD, if_neg hLF]
          obtain ⟨s', hrun, hs'⟩ := ih hpop (by omega) (out ++ [c])
          have hnot : (n == target) = false := by
            rw [beq_eq_false_iff_ne]
            omega
          rw [hnot] at hrun hs'
          exact ⟨s', by rw [hrun, List.append_assoc]; rfl, hs'⟩

end Cons.Holds

/-! ## Refinement -/

section refinement

variable {ι : Type}

/-- The console state `s` and the line discipline `a` agree. -/
structure Refines (s : ConsoleSys ι) (a : LineSys ι) : Prop where
  ring : s.cons.Holds a.queue a.line
  readers : s.readers = a.readers
  /-- The line is not complete. -/
  open_line : LF ∉ a.line
  /-- A call that sleeps wants the rest of its bytes. -/
  wanted : ∀ p pd, a.readers.pending p = some pd → pd.out.length + pd.n = pd.target

/-- Every committed byte has been removed by exactly one section, in order, or is still in the queue. -/
def LineSys.Conserved (a : LineSys ι) : Prop := a.committed = a.removed ++ a.queue

theorem refines_init : Refines (ConsoleSys.init : ConsoleSys ι) LineSys.init where
  ring := ⟨.nil (by decide : 0 < 2 ^ 32), rfl⟩
  readers := rfl
  open_line := by simp [LineSys.init]
  wanted p pd h := by simp [LineSys.init] at h

variable {s : ConsoleSys ι} {a : LineSys ι}

theorem Refines.append (h : Refines s a) {c : UInt8} (hroom : a.queue.length + a.line.length < INPUT_BUF_SIZE) :
    Refines { s with cons := s.cons.store c } (a.append c) := by
  have hstore := h.ring.store hroom c
  unfold LineSys.append
  by_cases hcommit : c = LF ∨ c = CTRL_D ∨ a.queue.length + (a.line ++ [c]).length = INPUT_BUF_SIZE
  · rw [if_pos hcommit] at hstore
    rw [if_pos hcommit]
    exact ⟨hstore, h.readers, by simp [LineSys.commit], h.wanted⟩
  · rw [if_neg hcommit] at hstore
    rw [if_neg hcommit]
    refine ⟨hstore, h.readers, fun hmem => ?_, h.wanted⟩
    rcases List.mem_append.1 hmem with hold | hnew
    · exact h.open_line hold
    · exact hcommit (Or.inl (List.mem_singleton.1 hnew).symm)

theorem Refines.input (h : Refines s a) (c : UInt8) :
    Refines { s with cons := s.cons.consoleintr c } (a.input c) := by
  unfold Cons.consoleintr LineSys.input
  rw [h.ring.usub_e_r, h.ring.usub_e_w]
  by_cases hP : c = CTRL_P
  · rw [if_pos hP, if_pos hP]
    exact h
  rw [if_neg hP, if_neg hP]
  by_cases hU : c = CTRL_U
  · rw [if_pos hU, if_pos hU]
    exact ⟨h.ring.killLine h.open_line, h.readers, by simp, h.wanted⟩
  rw [if_neg hU, if_neg hU]
  by_cases hH : c = CTRL_H ∨ c = DEL
  · rw [if_pos hH, if_pos hH]
    exact ⟨h.ring.backspace, h.readers, fun hmem => h.open_line (List.mem_of_mem_dropLast hmem), h.wanted⟩
  rw [if_neg hH, if_neg hH]
  by_cases hroom : c ≠ 0 ∧ a.queue.length + a.line.length < INPUT_BUF_SIZE
  · rw [if_pos hroom, if_pos hroom]
    exact h.append hroom.2
  · rw [if_neg hroom, if_neg hroom]
    exact h

theorem LineSys.Conserved.input (h : a.Conserved) (c : UInt8) : (a.input c).Conserved := by
  have happend : ∀ c, (a.append c).Conserved := by
    intro c
    simp only [LineSys.append]
    split
    · exact (congrArg (· ++ (a.line ++ [c])) h).trans (List.append_assoc _ _ _)
    · exact h
  unfold LineSys.input
  split_ifs
  · exact h
  · exact h
  · exact h
  · exact happend LF
  · exact happend c
  · exact h

variable [DecidableEq ι]

theorem LineSys.Conserved.readSection (h : a.Conserved) (p : ι) (pd : Pending) : (a.readSection p pd).Conserved := by
  have hsplit := deliver_split pd.n pd.out.isEmpty a.queue
  unfold LineSys.Conserved at h ⊢
  simp only [LineSys.readSection, LineSys.removed, List.flatMap_append, List.flatMap_cons, List.flatMap_nil,
    List.append_nil, List.append_assoc] at hsplit ⊢
  rw [← hsplit]
  exact h

/-- A section leaves the other calls alone, and the own call wants what it has not got. -/
theorem wanted_copied {rs : Readers ι} {p : ι} {pd : Pending} {out : List UInt8} {fin : ReadEnd}
    (h : ∀ p pd, rs.pending p = some pd → pd.out.length + pd.n = pd.target)
    (hpd : pd.out.length + pd.n = pd.target) (hout : out.length + fin.left = pd.n) (p' : ι) (pd' : Pending)
    (h' : (rs.copied p pd out fin).pending p' = some pd') : pd'.out.length + pd'.n = pd'.target := by
  by_cases hp : p' = p
  · subst hp
    cases fin with
    | sleep n =>
      simp only [Readers.copied, Function.update_self, Option.some.injEq] at h'
      subst h'
      simp only [ReadEnd.left] at hout
      simp only [List.length_append]
      omega
    | ret n => simp [Readers.copied] at h'
  · cases fin with
    | sleep n | ret n =>
      simp only [Readers.copied, Function.update_of_ne hp] at h'
      exact h p' pd' h'

theorem Refines.readSection (h : Refines s a) {p : ι} {pd : Pending}
    (hpd : pd.out.length + pd.n = pd.target) : Refines (s.readSection p pd) (a.readSection p pd) := by
  obtain ⟨cons', hrun, hcons⟩ := h.ring.readLoop (show pd.n ≤ pd.target by omega) []
  have hfirst : (pd.n == pd.target) = pd.out.isEmpty := by
    rw [Bool.eq_iff_iff, beq_iff_eq, List.isEmpty_iff, ← List.length_eq_zero_iff]
    omega
  rw [hfirst] at hrun hcons
  unfold ConsoleSys.readSection LineSys.readSection
  rw [hrun]
  exact ⟨hcons, by rw [h.readers]; rfl, h.open_line,
    wanted_copied h.wanted hpd (deliver_left pd.n pd.out.isEmpty a.queue)⟩

/-- **One step** of the console is the same step of the line discipline. -/
theorem Refines.step {s' : ConsoleSys ι} {act : ConsoleAct ι} (h : Refines s a)
    (hc : a.Conserved) (hs : s.step act = some s') :
    ∃ a', a.step act = some a' ∧ Refines s' a' ∧ a'.Conserved := by
  cases act with
  | intr c =>
    cases hs
    exact ⟨_, rfl, h.input c, hc.input c⟩
  | read p n =>
    simp only [ConsoleSys.step, LineSys.step, h.readers] at hs ⊢
    split at hs
    · split at hs
      · rename_i hn
        cases hs
        rw [if_pos hn]
        exact ⟨_, rfl, h.readSection (Nat.zero_add n), hc.readSection p _⟩
      · cases hs
    · cases hs
  | resume p =>
    simp only [ConsoleSys.step, LineSys.step, h.readers, Option.map_eq_some_iff] at hs ⊢
    obtain ⟨pd, hpd, rfl⟩ := hs
    exact ⟨_, ⟨pd, hpd, rfl⟩, h.readSection (h.wanted p pd hpd), hc.readSection p pd⟩
  | killed p =>
    simp only [ConsoleSys.step, LineSys.step, h.readers] at hs ⊢
    split at hs
    · cases hs
    · rename_i pd hpd
      split at hs
      · rename_i hempty
        cases hs
        simp only [if_pos (h.ring.r_eq_w.1 hempty)]
        refine ⟨_, rfl, ⟨h.ring, rfl, h.open_line, fun p' pd' h' => ?_⟩, hc⟩
        by_cases hp : p' = p
        · subst hp
          simp [Readers.kill] at h'
        · simp only [Readers.kill, Function.update_of_ne hp] at h'
          exact h.wanted p' pd' h'
      · cases hs

open Transition in
theorem Refines.runActs {s' : ConsoleSys ι} {acts : List (ConsoleAct ι)} (h : Refines s a)
    (hc : a.Conserved) (hrun : runActs ConsoleSys.step s acts = some s') :
    ∃ a', runActs LineSys.step a acts = some a' ∧ Refines s' a' ∧ a'.Conserved := by
  induction acts generalizing s a with
  | nil =>
    cases hrun
    exact ⟨a, rfl, h, hc⟩
  | cons act acts ih =>
    simp only [Transition.runActs] at hrun ⊢
    split at hrun
    · rename_i s₁ hs₁
      obtain ⟨a₁, ha₁, h₁, hc₁⟩ := h.step hc hs₁
      rw [ha₁]
      exact ih h₁ hc₁ hrun
    · cases hrun

open Transition in
/-- **The console refines the line discipline.**  Every run of `consoleintr` and of any number of calls of
`consoleread`, in any interleaving, is a run of the line discipline: the ring holds the queue and the line,
which never exceed the buffer, the readers have seen the same, and every committed byte was removed exactly
once, in order, or is still there. -/
theorem console_refines {s : ConsoleSys ι} (acts : List (ConsoleAct ι))
    (hrun : runActs ConsoleSys.step ConsoleSys.init acts = some s) :
    ∃ a, runActs LineSys.step LineSys.init acts = some a ∧ s.cons.Holds a.queue a.line ∧
      a.queue.length + a.line.length ≤ INPUT_BUF_SIZE ∧ s.readers = a.readers ∧ a.Conserved := by
  obtain ⟨a, ha, h, hc⟩ := refines_init.runActs rfl hrun
  exact ⟨a, ha, h.ring, h.ring.length_le, h.readers, hc⟩

open Transition in
/-- A line that is edited while a reader waits for it. -/
theorem console_refines_line :
    ∃ s, ∃ a : LineSys Unit, runActs ConsoleSys.step (ConsoleSys.init : ConsoleSys Unit)
        [.read () 5, .intr 97, .intr 98, .intr CTRL_H, .intr CR, .resume ()] = some s ∧
      s.readers.results = [⟨(), 5, [97, LF], some 2⟩] ∧ s.cons.Holds a.queue a.line ∧ a.committed = [97, LF] ∧
      a.Conserved := by
  obtain ⟨a, ha, hholds, -, -, hc⟩ := console_refines (ι := Unit)
    [.read () 5, .intr 97, .intr 98, .intr CTRL_H, .intr CR, .resume ()] rfl
  cases ha
  exact ⟨_, _, rfl, rfl, hholds, rfl, hc⟩

end refinement

end Xv6
