import Xv6.Sh.Parser

/-!
# The strings that `nulterminate` leaves

`nulterminate` runs after the whole tree has been built, on the arrays of `struct execcmd` and on the line buffer.

* `ExecCmd` — `argv` and `eargv` with their `MAXARGS` slots, as the loop of `parseexec` fills them.
* `nulProg` — `nulterminate` on these arrays, where a read beyond an array or a write outside the buffer is a panic.
* `nulProg_run` — it does not panic, and writes the NULs of `nulterminate`.
* `parsecmd_isolates_tokens` — after it each word of the tree is the string that its pointer points to.
-/

namespace Xv6

open Prog

namespace Sh

variable {line buf : List UInt8} {ws : List Span}

/-! ## The arrays -/

/-- The arrays of `struct execcmd`; `none` is the null pointer. -/
structure ExecCmd where
  argv : List (Option Nat)
  eargv : List (Option Nat)

/-- `execcmd` clears the structure. -/
def execcmd : ExecCmd := ⟨List.replicate MAXARGS none, List.replicate MAXARGS none⟩

/-- `argv[i] = q; eargv[i] = eq`. -/
def ExecCmd.put (e : ExecCmd) (i : Nat) (q eq : Option Nat) : ExecCmd := ⟨e.argv.set i q, e.eargv.set i eq⟩

/-- The assignments of `parseexec` for these words, from `argc` on. -/
def ExecCmd.fill : List Span → Nat → ExecCmd → ExecCmd
  | [], argc, e => e.put argc none none
  | w :: ws, argc, e => fill ws (argc + 1) (e.put argc (some w.q) (some w.eq))

/-- The arrays of a simple command. -/
def arrays (ws : List Span) : ExecCmd := ExecCmd.fill ws 0 execcmd

/-- One array with entries up to `argc` and null pointers from there on. -/
def slots (ptrs : List Nat) : List (Option Nat) :=
  ptrs.map some ++ List.replicate (MAXARGS - ptrs.length) none

theorem set_slots (ptrs : List Nat) (h : ptrs.length < MAXARGS) (p : Nat) :
    (slots ptrs).set ptrs.length (some p) = slots (ptrs ++ [p]) := by
  obtain ⟨k, hk⟩ : ∃ k, MAXARGS - ptrs.length = k + 1 := ⟨MAXARGS - ptrs.length - 1, by omega⟩
  have hk' : MAXARGS - (ptrs ++ [p]).length = k := by
    rw [List.length_append, List.length_singleton]
    omega
  unfold slots
  rw [hk, hk', List.replicate_succ, List.set_append_right _ _ (by simp)]
  simp

theorem set_slots_none (ptrs : List Nat) : (slots ptrs).set ptrs.length none = slots ptrs := by
  unfold slots
  rw [List.set_append_right _ _ (by simp), List.length_map, Nat.sub_self]
  cases MAXARGS - ptrs.length with
  | zero => rfl
  | succ k => simp [List.replicate_succ]

theorem fill_slots (done : List Span) (h : (done ++ ws).length < MAXARGS) :
    ExecCmd.fill ws done.length ⟨slots (done.map Span.q), slots (done.map Span.eq)⟩ =
      ⟨slots ((done ++ ws).map Span.q), slots ((done ++ ws).map Span.eq)⟩ := by
  induction ws generalizing done with
  | nil =>
    have h1 := set_slots_none (done.map Span.q)
    have h2 := set_slots_none (done.map Span.eq)
    rw [List.length_map] at h1 h2
    simp only [ExecCmd.fill, ExecCmd.put, h1, h2, List.append_nil]
  | cons w ws ih =>
    have hlen : done.length < MAXARGS := by
      rw [List.length_append] at h
      omega
    have h1 := set_slots (done.map Span.q) (by rw [List.length_map]; exact hlen) w.q
    have h2 := set_slots (done.map Span.eq) (by rw [List.length_map]; exact hlen) w.eq
    rw [List.length_map] at h1 h2
    have hih := ih (done ++ [w]) (by rw [List.append_assoc]; exact h)
    simp only [List.map_append, List.map_cons, List.map_nil, List.length_append, List.length_singleton,
      List.append_assoc, List.singleton_append] at hih
    simp only [ExecCmd.fill, ExecCmd.put, h1, h2, List.map_append, List.map_cons]
    exact hih

/-- **A null pointer follows the words**, within the `MAXARGS` slots. -/
theorem arrays_eq (h : ws.length < MAXARGS) : arrays ws = ⟨slots (ws.map Span.q), slots (ws.map Span.eq)⟩ :=
  fill_slots [] h

/-! ## The writes -/

/-- `*p = 0` in the line buffer. -/
def store (p : Nat) : Prog (List UInt8) Unit := do
  let buf ← get
  if p < buf.length then modify fun buf => buf.set p 0 else panicWith "write outside the line buffer"

/-- `for(i=0; ecmd->argv[i]; i++) *ecmd->eargv[i] = 0`, over the slots that are left. -/
def nulLoop : List (Option Nat) → List (Option Nat) → Prog (List UInt8) Unit
  | none :: _, _ => pure ()
  | some _ :: argv, some p :: eargv => do
    store p
    nulLoop argv eargv
  | _, _ => panicWith "read beyond argv"

/-- `nulterminate` on the arrays. -/
def nulProg : Cmd Span → Prog (List UInt8) Unit
  | .exec ws => nulLoop (arrays ws).argv (arrays ws).eargv
  | .redir cmd file _ _ => do
    nulProg cmd
    store file.eq
  | .pipe left right => do
    nulProg left
    nulProg right
  | .list left right => do
    nulProg left
    nulProg right
  | .back cmd => nulProg cmd

/-- All simple commands satisfy `p`. -/
def Cmd.Execs {W : Type} (p : List W → Prop) : Cmd W → Prop
  | .exec argv => p argv
  | .redir cmd _ _ _ => cmd.Execs p
  | .pipe left right => left.Execs p ∧ right.Execs p
  | .list left right => left.Execs p ∧ right.Execs p
  | .back cmd => cmd.Execs p

theorem store_run {p : Nat} (h : p < buf.length) : store p buf = .ok () (buf.set p 0) := by
  unfold store
  rw [get_bind, if_pos h]
  rfl

theorem nulLoop_run (h : ∀ w ∈ ws, w.eq < buf.length) (k : Nat) (hk : 0 < k) :
    nulLoop (ws.map (fun w => some w.q) ++ List.replicate k none) (ws.map (fun w => some w.eq) ++ List.replicate k none)
      buf = .ok () (ws.foldl (fun buf w => buf.set w.eq 0) buf) := by
  induction ws generalizing buf with
  | nil =>
    obtain ⟨k, rfl⟩ : ∃ j, k = j + 1 := ⟨k - 1, by omega⟩
    rfl
  | cons w ws ih =>
    have hrest : ∀ v ∈ ws, v.eq < (buf.set w.eq 0).length := by
      intro v hv
      rw [List.length_set]
      exact h v (List.mem_cons_of_mem w hv)
    have hrun := ih hrest
    exact (bind_run (store_run (h w List.mem_cons_self))).trans hrun

theorem nulterminate_length (c : Cmd Span) (buf : List UInt8) : (nulterminate c buf).length = buf.length := by
  induction c generalizing buf with
  | exec ws =>
    have hfold : ∀ ws : List Span, ∀ buf : List UInt8,
        (ws.foldl (fun buf w => buf.set w.eq 0) buf).length = buf.length := by
      intro ws
      induction ws with
      | nil => exact fun _ => rfl
      | cons w ws ih => exact fun buf => (ih _).trans List.length_set
    exact hfold ws buf
  | redir c file mode fd ih => rw [nulterminate, List.length_set, ih]
  | pipe l r ihl ihr | list l r ihl ihr => rw [nulterminate, ihr, ihl]
  | back c ih => exact ih buf

/-- **The writes stay inside**, and are those of `nulterminate`. -/
theorem nulProg_run {c : Cmd Span} (hargs : c.Execs fun ws => ws.length < MAXARGS)
    (hends : c.All fun w => w.eq < buf.length) : nulProg c buf = .ok () (nulterminate c buf) := by
  induction c generalizing buf with
  | exec ws =>
    have hlen : ws.length < MAXARGS := hargs
    unfold nulProg
    rw [arrays_eq hlen]
    unfold slots
    rw [List.map_map, List.map_map, List.length_map, List.length_map]
    exact nulLoop_run hends (MAXARGS - ws.length) (by omega)
  | redir c file mode fd ih =>
    have hfile : file.eq < (nulterminate c buf).length := by
      rw [nulterminate_length]
      exact hends.2
    exact (bind_run (ih hargs hends.1)).trans (store_run hfile)
  | pipe l r ihl ihr | list l r ihl ihr =>
    have hr : r.All fun w => w.eq < (nulterminate l buf).length := by
      rw [nulterminate_length]
      exact hends.2
    exact (bind_run (ihl hargs.1 hends.1)).trans (ihr hargs.2 hr)
  | back c ih => exact ih hargs hends

/-! ## The result of `parsecmd` -/

/-- The text of a token. -/
def tokenText (line : List UInt8) (w : Span) : List UInt8 := (line.drop w.q).take (w.eq - w.q)

/-- `gettoken` returns this word, when it is called where the word starts. -/
def IsToken (line : List UInt8) (w : Span) : Prop := ∃ s', gettoken line w.q = .ok ⟨WORD, w⟩ s'

theorem WordSpan.isToken {w : Span} (h : WordSpan line w) (h0 : 0 ∉ line) : IsToken line w := by
  obtain ⟨c, cs, hl, hw⟩ := h.first
  have hc0 : c ≠ 0 := fun h => h0 (h ▸ List.mem_of_mem_drop (hl ▸ List.mem_cons_self))
  have hskip : scan line isSpace w.q = w.q := by
    unfold scan
    rw [hl, List.takeWhile_cons_of_neg (by rw [isSpace_of_isWord hw]; decide)]
    rfl
  have htok := tokenAt_word hl hw hc0
  rw [← h.last] at htok
  refine ⟨scan line isSpace w.eq, ?_⟩
  unfold gettoken
  rw [get_bind]
  simp only [hskip, htok]
  rfl

theorem WordSpan.text {w : Span} (h : WordSpan line w) : tokenText line w = wordAt line w.q := by
  unfold tokenText
  rw [h.length, Nat.add_sub_cancel_left]
  exact List.prefix_iff_eq_take.1 (List.takeWhile_prefix _) |>.symm

/-- What `parsecmd` leaves for `runcmd`. -/
structure Isolated (line : List UInt8) (cmd : Cmd Span) (buf : List UInt8) : Prop where
  /-- Each word of the tree is a token, and its pointer points to the text of the token. -/
  words : cmd.All fun w => IsToken line w ∧ cstring buf w.q = tokenText line w
  /-- The pointers of each simple command are followed by a null pointer in the array. -/
  argv : cmd.Execs fun ws => ws.length < MAXARGS ∧ (arrays ws).argv.length = MAXARGS ∧
    (arrays ws).argv = ws.map (fun w => some w.q) ++ none :: List.replicate (MAXARGS - ws.length - 1) none
  /-- The buffer is the line with its terminator, and no write is outside. -/
  writes : nulProg cmd (line ++ [0]) = .ok () buf

/-- The simple commands of a tree of the grammar are short. -/
theorem Printable.execs {t : Tree} (h : Printable t) : t.Execs fun ws => ws.length < MAXARGS := by
  induction h with
  | exec _ hlen => exact hlen
  | redir _ _ _ ih | back _ ih => exact ih
  | pipe _ _ ihl ihr | list _ _ ihl ihr => exact ⟨ihl, ihr⟩

theorem Cmd.Execs.of_map {W W' : Type} {f : W → W'} {c : Cmd W} (h : (c.map f).Execs fun ws => ws.length < MAXARGS) :
    c.Execs fun ws => ws.length < MAXARGS := by
  induction c with
  | exec ws =>
    have hlen : (ws.map f).length < MAXARGS := h
    rw [List.length_map] at hlen
    exact hlen
  | redir c file mode fd ih | back c ih => exact ih h
  | pipe l r ihl ihr | list l r ihl ihr => exact ⟨ihl h.1, ihr h.2⟩

theorem Cmd.Execs.mono {W : Type} {p p' : List W → Prop} {c : Cmd W} (h : c.Execs p) (hp : ∀ ws, p ws → p' ws) :
    c.Execs p' := by
  induction c with
  | exec ws => exact hp ws h
  | redir c file mode fd ih | back c ih => exact ih h
  | pipe l r ihl ihr | list l r ihl ihr => exact ⟨ihl h.1, ihr h.2⟩

theorem arrays_argv (h : ws.length < MAXARGS) : (arrays ws).argv.length = MAXARGS ∧
    (arrays ws).argv = ws.map (fun w => some w.q) ++ none :: List.replicate (MAXARGS - ws.length - 1) none := by
  have heq : (arrays ws).argv = ws.map (fun w => some w.q) ++ List.replicate (MAXARGS - ws.length) none := by
    rw [arrays_eq h]
    unfold slots
    rw [List.map_map, List.length_map]
    rfl
  constructor
  · rw [heq, List.length_append, List.length_map, List.length_replicate]
    omega
  · obtain ⟨k, hk⟩ : ∃ k, MAXARGS - ws.length = k + 1 := ⟨MAXARGS - ws.length - 1, by omega⟩
    rw [heq, hk, List.replicate_succ, Nat.add_sub_cancel]

theorem Cmd.All.of_map_eq {W W' : Type} {f g : W → W'} {c : Cmd W} (h : c.map f = c.map g) :
    c.All fun w => f w = g w := by
  induction c with
  | exec ws =>
    have hws : ws.map f = ws.map g := by injection h
    exact List.map_inj_left.1 hws
  | redir c file mode fd ih =>
    injection h with h1 h2
    exact ⟨ih h1, h2⟩
  | pipe l r ihl ihr | list l r ihl ihr =>
    injection h with h1 h2
    exact ⟨ihl h1, ihr h2⟩
  | back c ih =>
    injection h with h1
    exact ih h1

/-- **Every token is isolated**, for every line that `parsecmd` accepts. -/
theorem parsecmd_isolates_tokens (h0 : 0 ∉ line) {fuel : Nat} (hf : 4 * line.length + 3 < fuel) {s₀ s' : Nat}
    {cmd : Cmd Span} (hrun : parsecmd line fuel s₀ = .ok (cmd, buf) s') : Isolated line cmd buf := by
  obtain ⟨hd, hall, hbuf⟩ := wpm_ok (parsecmd_sound h0 hf s₀) hrun
  dsimp only at hd hall hbuf
  have hargs := (hd.printable (lex_words h0)).execs.of_map
  have hends : cmd.All fun w => w.eq < (line ++ [0]).length := by
    refine hall.mono fun w hw => ?_
    have hle := hw.eq_le
    rw [List.length_append, List.length_singleton]
    omega
  have hwords := Cmd.All.of_map_eq (nulterminate_words h0 hall)
  refine ⟨(hall.and hwords).mono fun w hw => ⟨hw.1.isToken h0, ?_⟩, hargs.mono fun ws h => ⟨h, arrays_argv h⟩, ?_⟩
  · rw [hbuf, hw.1.text]
    exact hw.2
  · rw [hbuf]
    exact nulProg_run hargs hends

/-- `a>b`, where the end of `a` is the operator. -/
theorem parsecmd_isolates_tokens_redir : 0 ∉ [97, GT, 98] ∧
    Isolated [97, GT, 98] (.redir (.exec [⟨0, 1⟩]) ⟨2, 3⟩ (O_WRONLY ||| O_CREATE ||| O_TRUNC) 1) [97, 0, 98, 0] := by
  have h0 : 0 ∉ [97, GT, 98] := by decide
  have hrun : parsecmd [97, GT, 98] 20 0 =
      .ok (.redir (.exec [⟨0, 1⟩]) ⟨2, 3⟩ (O_WRONLY ||| O_CREATE ||| O_TRUNC) 1, [97, 0, 98, 0]) 3 := rfl
  exact ⟨h0, parsecmd_isolates_tokens h0 (by decide) hrun⟩

end Sh

end Xv6
