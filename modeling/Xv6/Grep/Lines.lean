import Xv6.Grep.Match
import Xv6.Lib.Prog
import Xv6.Memmove

/-!
# The loop of `grep`

`grep` of `user/grep.c` over an input that arrives in pieces.  A pointer into `buf` is its offset; an access
outside the 1024 bytes is a panic.

* `Sys` — the buffer, what `read` has not delivered yet, and what has been written.
* `read` — delivers at least one byte and at most as many as it was asked for, `chunk i` at the `i`-th call if
  that is possible.
* `strchr_run`, `cstring_run` — searches in the buffer.
* `lineLoop_run` — the inner loop handles the complete lines in the buffer.
* `grepLoop_run` — the outer loop keeps the beginning of an incomplete line at the front of the buffer.
-/

namespace Xv6.Grep

open Prog Function

def LF : UInt8 := 10
def SIZE : Nat := 1024

structure Sys where
  buf : Nat → UInt8
  input : List UInt8
  /-- How often `read` has been called. -/
  reads : Nat
  out : List UInt8

def load (i : Nat) : Prog Sys UInt8 := do
  let s ← get
  if i < SIZE then pure (s.buf i) else panicWith "load outside buf"

def store (i : Nat) (v : UInt8) : Prog Sys Unit :=
  if i < SIZE then modify fun s => { s with buf := Function.update s.buf i v } else panicWith "store outside buf"

/-- How many bytes the next `read` of at most `n` delivers. -/
def delivered (chunk : Nat → Nat) (s : Sys) (n : Nat) : Nat :=
  if n = 0 ∨ s.input = [] then 0 else max 1 (min (chunk s.reads) (min n s.input.length))

/-- The next `k` bytes of the input have been copied to offset `dst`. -/
def deliver (s : Sys) (dst k : Nat) : Sys :=
  { s with
    buf := fun i => if dst ≤ i ∧ i < dst + k then s.input.getD (i - dst) 0 else s.buf i
    input := s.input.drop k
    reads := s.reads + 1 }

/-- `read(fd, buf+dst, n)`. -/
def read (chunk : Nat → Nat) (dst n : Nat) : Prog Sys Nat := do
  let s ← get
  if dst + n ≤ SIZE then do
    modify fun s => deliver s dst (delivered chunk s n)
    pure (delivered chunk s n)
  else panicWith "read outside buf"

/-- `write(1, buf+p, n)`. -/
def write (p n : Nat) : Prog Sys Unit :=
  if p + n ≤ SIZE then modify fun s => { s with out := s.out ++ (List.range n).map fun i => s.buf (p + i) }
  else panicWith "write outside buf"

/-- `strchr(s, c)`; a string in the buffer has fewer than `fuel` characters. -/
def strchr : Nat → Nat → UInt8 → Prog Sys (Option Nat)
  | 0, _, _ => hang
  | fuel + 1, p, c => do
    let x ← load p
    if x = 0 then pure none
    else if x = c then pure (some p)
    else strchr fuel (p + 1) c

/-- The characters from `p` to the NUL, which `match` may look at. -/
def cstring : Nat → Nat → Prog Sys (List UInt8)
  | 0, _ => hang
  | fuel + 1, p => do
    let x ← load p
    if x = 0 then pure []
    else do
      let rest ← cstring fuel (p + 1)
      pure (x :: rest)

/-- The inner loop from `p`; it returns `p`. -/
def lineLoop (pattern : List UInt8) : Nat → Nat → Prog Sys Nat
  | 0, _ => hang
  | fuel + 1, p => do
    match ← strchr (SIZE + 1) p LF with
    | none => pure p
    | some q => do
      store q 0
      let text ← cstring (SIZE + 1) p
      (if grepMatch pattern text then do
        store q LF
        write p (q + 1 - p)
      else pure ())
      lineLoop pattern fuel (q + 1)

/-- `memmove(buf, p, m)`. -/
def moveDown (p m : Nat) : Prog Sys Unit :=
  if p + m ≤ SIZE then modify fun s => { s with buf := (ulibMemmove s.buf 0 p m).2 }
  else panicWith "memmove outside buf"

/-- The outer loop, with `m` bytes in the buffer. -/
def grepLoop (chunk : Nat → Nat) (pattern : List UInt8) : Nat → Nat → Prog Sys Unit
  | 0, _ => hang
  | fuel + 1, m => do
    let n ← read chunk m (SIZE - m - 1)
    if n > 0 then do
      let m := m + n
      store m 0
      let p ← lineLoop pattern (SIZE + 1) 0
      let m ← (if m > 0 then do
        moveDown p (m - p)
        pure (m - p)
      else pure m)
      grepLoop chunk pattern fuel m
    else pure ()

def grep (chunk : Nat → Nat) (pattern : List UInt8) : Prog Sys Unit := do
  let s ← get
  grepLoop chunk pattern (s.input.length + 1) 0

/-- Lines with their LFs. -/
def text (ls : List (List UInt8)) : List UInt8 := ls.flatMap fun l => l ++ [LF]

/-! ## Lines -/

theorem text_nil : text [] = [] := rfl
theorem text_cons (l : List UInt8) (ls : List (List UInt8)) : text (l :: ls) = l ++ LF :: text ls := by
  simp [text]
theorem text_append (ls ls' : List (List UInt8)) : text (ls ++ ls') = text ls ++ text ls' := by
  simp [text]

/-- The first LF cuts a string in one way. -/
theorem append_LF_inj {u u' v v' : List UInt8} (hu : LF ∉ u) (hu' : LF ∉ u') (h : u ++ LF :: v = u' ++ LF :: v') :
    u = u' ∧ v = v' := by
  induction u generalizing u' with
  | nil =>
    cases u' with
    | nil => exact ⟨rfl, (List.cons_eq_cons.1 h).2⟩
    | cons x u' =>
      obtain ⟨rfl, -⟩ := List.cons_eq_cons.1 h
      exact absurd List.mem_cons_self hu'
  | cons x u ih =>
    cases u' with
    | nil =>
      obtain ⟨rfl, -⟩ := List.cons_eq_cons.1 h
      exact absurd List.mem_cons_self hu
    | cons y u' =>
      obtain ⟨rfl, htail⟩ := List.cons_eq_cons.1 h
      obtain ⟨rfl, rfl⟩ := ih (fun hm => hu (List.mem_cons_of_mem _ hm)) (fun hm => hu' (List.mem_cons_of_mem _ hm)) htail
      exact ⟨rfl, rfl⟩

/-- Complete lines at the beginning of a stream are its first lines. -/
theorem text_cancel {ls rest : List (List UInt8)} {z : List UInt8} (hls : ∀ l ∈ ls, LF ∉ l)
    (hrest : ∀ l ∈ rest, LF ∉ l) (h : text ls ++ z = text rest) : ∃ rest', rest = ls ++ rest' ∧ z = text rest' := by
  induction ls generalizing rest with
  | nil => exact ⟨rest, rfl, h⟩
  | cons l ls ih =>
    cases rest with
    | nil => simp [text_cons, text_nil] at h
    | cons r rest =>
      simp only [text_cons, List.append_assoc, List.cons_append] at h
      obtain ⟨rfl, htail⟩ := append_LF_inj (hls l List.mem_cons_self) (hrest r List.mem_cons_self) h
      obtain ⟨rest', rfl, hz⟩ := ih (fun l hl => hls l (List.mem_cons_of_mem _ hl))
        (fun l hl => hrest l (List.mem_cons_of_mem _ hl)) htail
      exact ⟨rest', rfl, hz⟩

/-- A beginning of a stream without an LF is the beginning of its first line. -/
theorem length_le_of_prefix {rest : List (List UInt8)} {w z : List UInt8} {n : Nat} (hlen : ∀ l ∈ rest, l.length ≤ n)
    (hw : LF ∉ w) (h : w ++ z = text rest) : w.length ≤ n := by
  cases rest with
  | nil =>
    obtain ⟨rfl, -⟩ := List.append_eq_nil_iff.1 h
    exact Nat.zero_le n
  | cons l rest =>
    by_contra hlong
    have hll := hlen l List.mem_cons_self
    have hget : (w ++ z)[l.length]? = some LF := by
      rw [h, text_cons]
      simp
    rw [List.getElem?_append_left (by omega)] at hget
    exact hw (List.mem_of_getElem? hget)

/-! ## Searches in the buffer -/

/-- The bytes from `p` on are `x`. -/
def Stored (buf : Nat → UInt8) (p : Nat) (x : List UInt8) : Prop := ∀ i, i < x.length → buf (p + i) = x.getD i 0

variable {s : Sys} {buf : Nat → UInt8} {p m fuel : Nat} {c t : UInt8} {u v x : List UInt8} {chunk : Nat → Nat}
  {pattern : List UInt8}

theorem stored_cons : Stored buf p (t :: x) ↔ buf p = t ∧ Stored buf (p + 1) x := by
  constructor
  · intro h
    refine ⟨h 0 (by simp), fun i hi => ?_⟩
    have := h (i + 1) (by simpa using hi)
    rwa [List.getD_cons_succ, ← Nat.add_assoc, Nat.add_right_comm] at this
  · rintro ⟨h0, h⟩ i hi
    cases i with
    | zero => exact h0
    | succ i =>
      rw [List.getD_cons_succ, ← Nat.add_assoc, Nat.add_right_comm]
      exact h i (by simpa using hi)

theorem stored_append : Stored buf p (u ++ v) ↔ Stored buf p u ∧ Stored buf (p + u.length) v := by
  induction u generalizing p with
  | nil => simp [Stored]
  | cons t u ih => rw [List.cons_append, stored_cons, stored_cons, ih, List.length_cons, and_assoc,
      show p + 1 + u.length = p + (u.length + 1) by omega]

theorem Stored.congr {buf' : Nat → UInt8} (h : Stored buf p x)
    (heq : ∀ i, p ≤ i → i < p + x.length → buf' i = buf i) : Stored buf' p x := by
  intro i hi
  rw [heq _ (by omega) (by omega), h i hi]

theorem Stored.map_range (h : Stored buf p x) : ((List.range x.length).map fun i => buf (p + i)) = x := by
  apply List.ext_getElem
  · simp
  · intro i h1 h2
    rw [List.getElem_map, List.getElem_range, h i h2]
    simp [h2]

theorem load_run (h : p < SIZE) : load p s = .ok (s.buf p) s := by
  rw [load, get_bind, if_pos h]
  rfl

theorem store_run (h : p < SIZE) : store p c s = .ok () { s with buf := update s.buf p c } := by
  rw [store, if_pos h]
  rfl

/-- The search stops at the first `c` or at the NUL. -/
theorem strchr_run : ∀ (u : List UInt8) (p fuel : Nat), Stored s.buf p u → 0 ∉ u → c ∉ u →
    s.buf (p + u.length) = 0 ∨ s.buf (p + u.length) = c → p + u.length < SIZE → u.length < fuel →
    strchr fuel p c s = .ok (if s.buf (p + u.length) = 0 then none else some (p + u.length)) s
  | _, p, 0, _, _, _, _, _, hf => absurd hf (Nat.not_lt_zero _)
  | [], p, fuel + 1, _, _, _, hat, hlt, _ => by
    simp only [List.length_nil, Nat.add_zero] at hat hlt ⊢
    rw [strchr, bind_run (load_run hlt)]
    by_cases h0 : s.buf p = 0
    · rw [if_pos h0, if_pos h0]
      rfl
    · rw [if_neg h0, if_neg h0, if_pos (hat.resolve_left h0)]
      rfl
  | x :: u, p, fuel + 1, hst, h0, hcu, hat, hlt, hf => by
    obtain ⟨hx, hst'⟩ := stored_cons.1 hst
    rw [List.length_cons, show p + (u.length + 1) = p + 1 + u.length by omega] at hat hlt ⊢
    rw [List.length_cons] at hf
    have hx0 : x ≠ 0 := fun h => h0 (h ▸ List.mem_cons_self)
    have hxc : x ≠ c := fun h => hcu (h ▸ List.mem_cons_self)
    rw [strchr, bind_run (load_run (by omega)), hx, if_neg hx0, if_neg hxc]
    exact strchr_run u (p + 1) fuel hst' (fun h => h0 (List.mem_cons_of_mem _ h))
      (fun h => hcu (List.mem_cons_of_mem _ h)) hat hlt (by omega)

theorem cstring_run : ∀ (u : List UInt8) (p fuel : Nat), Stored s.buf p u → 0 ∉ u →
    s.buf (p + u.length) = 0 → p + u.length < SIZE → u.length < fuel → cstring fuel p s = .ok u s
  | _, p, 0, _, _, _, _, hf => absurd hf (Nat.not_lt_zero _)
  | [], p, fuel + 1, _, _, hat, hlt, _ => by
    rw [List.length_nil, Nat.add_zero] at hat hlt
    rw [cstring, bind_run (load_run hlt), if_pos hat]
    rfl
  | x :: u, p, fuel + 1, hst, h0, hat, hlt, hf => by
    obtain ⟨hx, hst'⟩ := stored_cons.1 hst
    rw [List.length_cons, show p + (u.length + 1) = p + 1 + u.length by omega] at hat hlt
    rw [List.length_cons] at hf
    have hx0 : x ≠ 0 := fun h => h0 (h ▸ List.mem_cons_self)
    have hrest := cstring_run u (p + 1) fuel hst' (fun h => h0 (List.mem_cons_of_mem _ h)) hat hlt (by omega)
    rw [cstring, bind_run (load_run (by omega)), hx, if_neg hx0, bind_run hrest]
    rfl

/-! ## The inner loop -/

/-- The buffer holds `x` from `p` to `m`, and a NUL at `m`. -/
structure Filled (s : Sys) (p m : Nat) (x : List UInt8) : Prop where
  stored : Stored s.buf p x
  stop : p + x.length = m
  room : m < SIZE
  nul : s.buf m = 0
  chars : 0 ∉ x

/-- Only the buffer up to `q` and the output differ. -/
structure Handled (s : Sys) (out : List UInt8) (s' : Sys) : Prop where
  input : s'.input = s.input
  reads : s'.reads = s.reads
  out : s'.out = s.out ++ out

/-- One complete line: it is written if it matches. -/
theorem line_run (h : Filled s p m (u ++ LF :: v)) :
    ∃ s', (do
      store (p + u.length) 0
      let text ← cstring (SIZE + 1) p
      if grepMatch pattern text then do
        store (p + u.length) LF
        write p (p + u.length + 1 - p)
      else pure ()) s = .ok () s' ∧
      Filled s' (p + u.length + 1) m v ∧ Handled s (if grepMatch pattern u then u ++ [LF] else []) s' := by
  obtain ⟨hst, hstop, hroom, hnul, hchars⟩ := h
  obtain ⟨hstu, hstv⟩ := stored_append.1 hst
  obtain ⟨hat, hstv⟩ := stored_cons.1 hstv
  rw [List.length_append, List.length_cons] at hstop
  have hq : p + u.length < SIZE := by omega
  have hu0 : 0 ∉ u := fun hm => hchars (List.mem_append_left _ hm)
  have hv0 : 0 ∉ v := fun hm => hchars (List.mem_append_right _ (List.mem_cons_of_mem _ hm))
  -- the LF is overwritten by a NUL
  have hcut : Stored (update s.buf (p + u.length) 0) p u :=
    hstu.congr fun i _ hi => update_of_ne (by omega) ..
  have hrest : ∀ c, Stored (update s.buf (p + u.length) c) (p + u.length + 1) v :=
    fun c => hstv.congr fun i hi _ => update_of_ne (by omega) ..
  have hm : p + u.length ≠ m := by omega
  have hcstr := cstring_run (s := { s with buf := update s.buf (p + u.length) 0 }) u p (SIZE + 1) hcut hu0
    (update_self ..) hq (by omega)
  rw [bind_run (store_run hq), bind_run hcstr]
  by_cases hmatch : grepMatch pattern u = true
  · rw [if_pos hmatch, if_pos hmatch, bind_run (store_run hq), write, if_pos (by omega)]
    refine ⟨_, rfl, ⟨?_, by omega, hroom, ?_, hv0⟩, rfl, rfl, ?_⟩
    · dsimp only
      rw [update_idem]
      exact hrest LF
    · dsimp only
      rw [update_idem, update_of_ne hm.symm, hnul]
    · -- the LF is back when the line is written
      have hline : Stored (update (update s.buf (p + u.length) 0) (p + u.length) LF) p (u ++ [LF]) := by
        rw [update_idem, stored_append, stored_cons]
        refine ⟨hstu.congr fun i _ hi => update_of_ne (by omega) .., update_self .., ?_⟩
        exact fun i hi => absurd hi (Nat.not_lt_zero _)
      have hlen : p + u.length + 1 - p = (u ++ [LF]).length := by
        rw [List.length_append, List.length_singleton]
        omega
      dsimp only
      rw [hlen, hline.map_range]
  · rw [if_neg hmatch, if_neg hmatch]
    refine ⟨_, rfl, ⟨hrest 0, by omega, hroom, ?_, hv0⟩, rfl, rfl, (List.append_nil _).symm⟩
    dsimp only
    rw [update_of_ne hm.symm, hnul]

theorem Handled.trans {s' s'' : Sys} {a b : List UInt8} (h : Handled s a s') (h' : Handled s' b s'') :
    Handled s (a ++ b) s'' :=
  ⟨h'.input.trans h.input, h'.reads.trans h.reads, by rw [h'.out, h.out, List.append_assoc]⟩

/-- The lines that match. -/
def matching (pattern : List UInt8) (ls : List (List UInt8)) : List UInt8 := text (ls.filter (grepMatch pattern))

theorem matching_cons (l : List UInt8) (ls : List (List UInt8)) :
    matching pattern (l :: ls) = (if grepMatch pattern l then l ++ [LF] else []) ++ matching pattern ls := by
  unfold matching
  by_cases h : grepMatch pattern l = true
  · simp [h, text_cons]
  · simp [h]

/-- A string has an LF, with nothing but other characters before the first one, or none. -/
theorem exists_first_LF (x : List UInt8) : LF ∉ x ∨ ∃ u v, x = u ++ LF :: v ∧ LF ∉ u := by
  by_cases h : LF ∈ x
  · exact Or.inr (List.eq_append_cons_of_mem h)
  · exact Or.inl h

/-- **The inner loop** handles the complete lines and leaves what comes after the last LF. -/
theorem lineLoop_run (pattern : List UInt8) : ∀ (fuel p : Nat) (x : List UInt8) (s : Sys), Filled s p m x → x.length < fuel →
    ∃ p' y s' ls, lineLoop pattern fuel p s = .ok p' s' ∧ Filled s' p' m y ∧ LF ∉ y ∧ x = text ls ++ y ∧
      (∀ l ∈ ls, LF ∉ l) ∧ Handled s (matching pattern ls) s'
  | 0, _, _, _, _, hf => absurd hf (Nat.not_lt_zero _)
  | fuel + 1, p, x, s, h, hf => by
    have hlen : x.length < SIZE := by
      have := h.stop
      have := h.room
      omega
    obtain hno | ⟨u, v, rfl, hu⟩ := exists_first_LF x
    · have hnul : s.buf (p + x.length) = 0 := by
        rw [h.stop]
        exact h.nul
      have hlt : p + x.length < SIZE := by
        rw [h.stop]
        exact h.room
      have hstr := strchr_run x p (SIZE + 1) h.stored h.chars hno (Or.inl hnul) hlt (by omega)
      rw [if_pos hnul] at hstr
      refine ⟨p, x, s, [], ?_, h, hno, rfl, fun _ hl => (nomatch hl), rfl, rfl, (List.append_nil _).symm⟩
      rw [lineLoop, bind_run hstr]
      rfl
    · obtain ⟨hstu, hstv⟩ := stored_append.1 h.stored
      have hat : s.buf (p + u.length) = LF := (stored_cons.1 hstv).1
      have hu0 : 0 ∉ u := fun hm => h.chars (List.mem_append_left _ hm)
      have hstop := h.stop
      have hroom := h.room
      rw [List.length_append, List.length_cons] at hstop hf hlen
      have hstr := strchr_run u p (SIZE + 1) hstu hu0 hu (Or.inr hat) (by omega) (by omega)
      rw [if_neg (by rw [hat]; decide)] at hstr
      obtain ⟨s₁, hrun, hfill, hdone⟩ := line_run h
      obtain ⟨p', y, s', ls, hloop, hfill', hy, hv, hls, hdone'⟩ := lineLoop_run pattern fuel _ v s₁ hfill (by omega)
      refine ⟨p', y, s', u :: ls, ?_, hfill', hy, ?_, ?_, ?_⟩
      · have hsplit : lineLoop pattern (fuel + 1) p s = ((do
            store (p + u.length) 0
            let text ← cstring (SIZE + 1) p
            if grepMatch pattern text then do
              store (p + u.length) LF
              write p (p + u.length + 1 - p)
            else pure ()) >>= fun _ => lineLoop pattern fuel (p + u.length + 1)) s := by
          rw [lineLoop, bind_run hstr]
          simp only [Prog.bind_assoc]
        rw [hsplit, bind_run hrun, hloop]
      · rw [hv, text_cons, List.append_assoc, List.cons_append]
      · intro l hl
        obtain rfl | hl := List.mem_cons.1 hl
        · exact hu
        · exact hls l hl
      · rw [matching_cons]
        exact hdone.trans hdone'

/-! ## The outer loop -/

/-- A line of the input. -/
structure GoodLine (l : List UInt8) : Prop where
  noLF : LF ∉ l
  noNUL : 0 ∉ l
  short : l.length ≤ 1022

theorem text_noNUL {ls : List (List UInt8)} (h : ∀ l ∈ ls, GoodLine l) : 0 ∉ text ls := by
  intro hmem
  obtain ⟨l, hl, hx⟩ := List.mem_flatMap.1 hmem
  obtain hx | hx := List.mem_append.1 hx
  · exact (h l hl).noNUL hx
  · exact absurd (List.mem_singleton.1 hx) (by decide)

theorem read_eq {n : Nat} (h : p + n ≤ SIZE) :
    read chunk p n s = .ok (delivered chunk s n) (deliver s p (delivered chunk s n)) := by
  rw [read, get_bind, if_pos h]
  rfl

/-- `read` puts a piece of the input, not empty if there is some left, behind the `m` bytes in the buffer. -/
theorem read_run (chunk : Nat → Nat) (hm : m < 1023) (hin : s.input ≠ []) :
    ∃ k s', read chunk m (SIZE - m - 1) s = .ok k s' ∧ 0 < k ∧ m + k < SIZE ∧ k ≤ s.input.length ∧
      s'.input = s.input.drop k ∧ s'.out = s.out ∧ (∀ i, i < m → s'.buf i = s.buf i) ∧
      Stored s'.buf m (s.input.take k) := by
  have hsize : SIZE = 1024 := rfl
  have hpos : 0 < s.input.length := List.length_pos_of_ne_nil hin
  have hk : delivered chunk s (SIZE - m - 1) =
      max 1 (min (chunk s.reads) (min (SIZE - m - 1) s.input.length)) := if_neg (by
    rintro (h | h)
    · omega
    · exact hin h)
  refine ⟨_, _, read_eq (by omega), ?_, ?_, ?_, rfl, rfl, fun i hi => ?_, fun i hi => ?_⟩
  · omega
  · omega
  · omega
  · exact if_neg (by omega)
  · rw [List.length_take] at hi
    have hin : m ≤ m + i ∧ m + i < m + delivered chunk s (SIZE - m - 1) := by omega
    refine (if_pos hin).trans ?_
    rw [Nat.add_sub_cancel_left]
    simp [List.getD, List.getElem?_take_of_lt (show i < delivered chunk s (SIZE - m - 1) by omega)]

theorem read_end (chunk : Nat → Nat) (hm : m < 1023) (hin : s.input = []) :
    ∃ s', read chunk m (SIZE - m - 1) s = .ok 0 s' ∧ s'.input = [] ∧ s'.out = s.out := by
  have hsize : SIZE = 1024 := rfl
  have hk : delivered chunk s (SIZE - m - 1) = 0 := if_pos (Or.inr hin)
  have hrun := show read chunk m (SIZE - m - 1) s = _ from read_eq (by omega)
  rw [hk] at hrun
  exact ⟨_, hrun, hin, rfl⟩

/-- `memmove` brings the incomplete line to the front. -/
theorem moveDown_run (h : Filled s p m x) :
    ∃ s', moveDown p (m - p) s = .ok () s' ∧ Stored s'.buf 0 x ∧ s'.input = s.input ∧ s'.out = s.out := by
  have hstop := h.stop
  have hroom := h.room
  have hsize : SIZE = 1024 := rfl
  have hlen : m - p = x.length := by omega
  rw [hlen, moveDown, if_pos (by omega)]
  refine ⟨_, rfl, ?_, rfl, rfl⟩
  have hmove : ulibMemmove s.buf 0 p (x.length : Nat) = (0, copied s.buf 0 p x.length) := by
    apply ulibMemmove_eq_copied
    · rw [Int.toNat_natCast]
      omega
    · rw [Int.toNat_natCast]
      omega
  intro i hi
  show (ulibMemmove s.buf 0 p (x.length : Nat)).2 (0 + i) = _
  rw [hmove]
  show copied s.buf 0 p x.length (0 + i) = _
  rw [copied_at hi, h.stored i hi]

/-- Between two reads: the buffer begins with `w`, which has no LF, and `w` and what is still to come are the
lines `rest`. -/
structure Pending (s : Sys) (w : List UInt8) (rest : List (List UInt8)) : Prop where
  stored : Stored s.buf 0 w
  noLF : LF ∉ w
  stream : w ++ s.input = text rest
  good : ∀ l ∈ rest, GoodLine l

theorem Pending.short {w : List UInt8} {rest : List (List UInt8)} (h : Pending s w rest) : w.length < 1023 := by
  have := length_le_of_prefix (fun l hl => (h.good l hl).short) h.noLF h.stream
  omega

/-- One iteration: a piece is read, the complete lines are handled, the rest is moved to the front. -/
theorem Pending.step {w : List UInt8} {rest : List (List UInt8)} (chunk : Nat → Nat) (pattern : List UInt8)
    (h : Pending s w rest) (hin : s.input ≠ []) :
    ∃ w' s' ls rest', grepLoop chunk pattern (fuel + 1) w.length s = grepLoop chunk pattern fuel w'.length s' ∧
      rest = ls ++ rest' ∧ Pending s' w' rest' ∧ s'.out = s.out ++ matching pattern ls ∧
      s'.input.length < s.input.length := by
  obtain ⟨k, s₁, hread, hk0, hroom, hkle, hinput, hout, hbuf, hpiece⟩ := read_run chunk h.short hin
  -- the buffer holds `w` and the piece
  have hw : Stored s₁.buf 0 w := h.stored.congr fun i _ hi => hbuf i (by omega)
  have hx : Stored s₁.buf 0 (w ++ s.input.take k) := by
    refine stored_append.2 ⟨hw, ?_⟩
    rw [Nat.zero_add]
    exact hpiece
  have hlen : (w ++ s.input.take k).length = w.length + k := by
    rw [List.length_append, List.length_take, Nat.min_eq_left hkle]
  have hstream : w ++ s.input.take k ++ s₁.input = text rest := by
    rw [hinput, List.append_assoc, List.take_append_drop, h.stream]
  have hfill : Filled { s₁ with buf := update s₁.buf (w.length + k) 0 } 0 (w.length + k)
      (w ++ s.input.take k) := by
    refine ⟨hx.congr fun i _ hi => update_of_ne (by omega) .., by omega, hroom, update_self .., ?_⟩
    intro hmem
    refine text_noNUL h.good ?_
    rw [← hstream]
    exact List.mem_append_left _ hmem
  obtain ⟨p, y, s₂, ls, hlines, hfill', hy, hsplit, hls, hdone⟩ :=
    lineLoop_run pattern (SIZE + 1) 0 _ _ hfill (by omega)
  -- the lines handled are the first ones of the stream
  have hrest : text ls ++ (y ++ s₁.input) = text rest := by
    rw [← List.append_assoc, ← hsplit, hstream]
  obtain ⟨rest', rfl, hy'⟩ := text_cancel hls (fun l hl => (h.good l hl).noLF) hrest
  obtain ⟨s₃, hmove, hfront, hin₃, hout₃⟩ := moveDown_run hfill'
  have hylen : w.length + k - p = y.length := by
    have := hfill'.stop
    omega
  refine ⟨y, s₃, ls, rest', ?_, rfl, ⟨hfront, hy, ?_, fun l hl => h.good l (List.mem_append_right _ hl)⟩, ?_, ?_⟩
  · rw [grepLoop, bind_run hread, if_pos hk0, bind_run (store_run hroom), bind_run hlines, if_pos (by omega), Prog.bind_assoc, bind_run hmove, hylen]
    rfl
  · rw [hin₃, hdone.input]
    exact hy'
  · rw [hout₃, hdone.out]
    exact congrArg (· ++ _) hout
  · have hdrop : s₃.input.length = s.input.length - k := by
      rw [hin₃, hdone.input]
      exact (congrArg List.length hinput).trans List.length_drop
    omega

/-- **The outer loop** writes the lines that match. -/
theorem grepLoop_run (chunk : Nat → Nat) (pattern : List UInt8) : ∀ (fuel : Nat) (w : List UInt8) (rest : List (List UInt8)) (s : Sys), Pending s w rest →
    s.input.length < fuel → ∃ s', grepLoop chunk pattern fuel w.length s = .ok () s' ∧ s'.input = [] ∧
      s'.out = s.out ++ matching pattern rest
  | 0, _, _, _, _, hf => absurd hf (Nat.not_lt_zero _)
  | fuel + 1, w, rest, s, h, hf => by
    by_cases hin : s.input = []
    · -- without an LF there is no line left
      have hnone : rest = [] := by
        have hstream := h.stream
        rw [hin, List.append_nil] at hstream
        cases rest with
        | nil => rfl
        | cons l rest =>
          refine absurd ?_ h.noLF
          rw [hstream, text_cons]
          exact List.mem_append_right _ List.mem_cons_self
      obtain ⟨s', hread, hin', hout⟩ := read_end chunk h.short hin
      refine ⟨s', ?_, hin', ?_⟩
      · rw [grepLoop, bind_run hread, if_neg (Nat.lt_irrefl 0)]
        rfl
      · rw [hout, hnone]
        exact (List.append_nil _).symm
    · obtain ⟨w', s₁, ls, rest', hstep, rfl, hpend, hout, hless⟩ := h.step chunk pattern hin
      obtain ⟨s', hrun, hin', hout'⟩ := grepLoop_run chunk pattern fuel w' rest' s₁ hpend (by omega)
      refine ⟨s', hstep.trans hrun, hin', ?_⟩
      rw [hout', hout, List.append_assoc]
      congr 1
      rw [matching, matching, matching, List.filter_append, text_append]

/-- **`grep`** writes exactly the lines that match, however the input arrives. -/
theorem grep_writes_matching (chunk : Nat → Nat) (pattern : List UInt8) (lines : List (List UInt8))
    (h : ∀ l ∈ lines, LF ∉ l ∧ 0 ∉ l ∧ l.length ≤ 1022) (buf : Nat → UInt8) :
    ∃ s', grep chunk pattern ⟨buf, text lines, 0, []⟩ = .ok () s' ∧ s'.input = [] ∧
      s'.out = text (lines.filter (grepMatch pattern)) := by
  have hpend : Pending ⟨buf, text lines, 0, []⟩ [] lines :=
    ⟨fun i hi => absurd hi (Nat.not_lt_zero _), by simp, rfl, fun l hl => ⟨(h l hl).1, (h l hl).2.1, (h l hl).2.2⟩⟩
  obtain ⟨s', hrun, hin, hout⟩ := grepLoop_run chunk pattern _ [] lines _ hpend
    (Nat.lt_succ_self _)
  exact ⟨s', hrun, hin, hout⟩

/-- Two lines in pieces of three bytes. -/
theorem grep_two_lines : ∃ s', grep (fun _ => 3) [98] ⟨fun _ => 0, text [[97, 98], [99]], 0, []⟩ = .ok () s' ∧
    s'.input = [] ∧ s'.out = [97, 98, 10] := by
  obtain ⟨s', hrun, hin, hout⟩ := grep_writes_matching (fun _ => 3) [98] [[97, 98], [99]] (by decide) fun _ => 0
  refine ⟨s', hrun, hin, hout.trans ?_⟩
  simp [text, LF, grepMatch, matchLoop, matchhere, CARET, DOLLAR, DOT]

end Xv6.Grep
