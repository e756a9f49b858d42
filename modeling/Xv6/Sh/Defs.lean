import Xv6.Lib.Prog
import Xv6.Param

/-!
# The parser of the shell

`gettoken`, `peek` and the functions from `parsecmd` to `nulterminate` of `user/sh.c`.

* The line is the list of its bytes without the final NUL, so that `es` is its length; the state of a
  program is the cursor `*ps`.
* `Cmd W` — the command tree, with words of type `W`.  The parser builds a `Cmd Span`: a word is the pair of
  its start and end in the line, as in the source.
* Loops and recursive calls take fuel, and `hang` stands for a run that needs more.

The heap and the stack of the shell are not bounded, and what is printed before a panic is left out.
-/

namespace Xv6

open Prog

namespace Sh

def LT : UInt8 := 60
def GT : UInt8 := 62
def BAR : UInt8 := 124
def AMP : UInt8 := 38
def SEMI : UInt8 := 59
def LPAREN : UInt8 := 40
def RPAREN : UInt8 := 41

/-- What `gettoken` returns for `>>`. -/
def PLUS : UInt8 := 43

/-- What `gettoken` returns for a word: `'a'`. -/
def WORD : UInt8 := 97

/-- Space, `\t`, `\r`, `\n` and `\v`. -/
def whitespace : List UInt8 := [32, 9, 13, 10, 11]

def symbols : List UInt8 := [LT, BAR, GT, AMP, SEMI, LPAREN, RPAREN]

def MAXARGS : Nat := 10

def isSpace (c : UInt8) : Bool := whitespace.contains c

/-- A byte that goes on a word. -/
def isWord (c : UInt8) : Bool := !whitespace.contains c && !symbols.contains c

/-- The start and the end of a word in the line. -/
structure Span where
  q : Nat
  eq : Nat
  deriving DecidableEq, Repr

/-- `struct cmd`.  The array `argv` is the list of its entries before the null pointer. -/
inductive Cmd (W : Type) where
  | exec (argv : List W)
  | redir (cmd : Cmd W) (file : W) (mode fd : Nat)
  | pipe (left right : Cmd W)
  | list (left right : Cmd W)
  | back (cmd : Cmd W)
  deriving DecidableEq, Repr

/-- `argv[argc] = w` in the simple command below the redirections. -/
def Cmd.pushArg {W : Type} (w : W) : Cmd W → Cmd W
  | .exec argv => .exec (argv ++ [w])
  | .redir cmd file mode fd => .redir (cmd.pushArg w) file mode fd
  | c => c

variable (line : List UInt8)

/-! ## Tokens -/

/-- `while(s < es && p(*s)) s++`. -/
def scan (p : UInt8 → Bool) (s : Nat) : Nat := s + ((line.drop s).takeWhile p).length

/-- What `gettoken` returns, with `*q` and `*eq`. -/
structure Tok where
  ret : UInt8
  span : Span

/-- The `switch` of `gettoken` at `s`: the code of the token, and its end. -/
def tokenAt (s : Nat) : UInt8 × Nat :=
  let c := line.getD s 0
  if c = 0 then (c, s)
  else if c = BAR ∨ c = LPAREN ∨ c = RPAREN ∨ c = SEMI ∨ c = AMP ∨ c = LT then (c, s + 1)
  else if c = GT then if line.getD (s + 1) 0 = GT then (PLUS, s + 2) else (c, s + 1)
  else (WORD, scan line isWord s)

def gettoken : Prog Nat Tok := do
  let s ← get
  let q := scan line isSpace s
  let (ret, eq) := tokenAt line q
  modify fun _ => scan line isSpace eq
  pure ⟨ret, q, eq⟩

def peek (toks : List UInt8) : Prog Nat Bool := do
  modify fun s => scan line isSpace s
  let s ← get
  let c := line.getD s 0
  pure (c != 0 && toks.contains c)

/-! ## Commands -/

/-- The `switch` of `parseredirs`. -/
def redircmd (tok : UInt8) (cmd : Cmd Span) (file : Span) : Cmd Span :=
  if tok = LT then .redir cmd file O_RDONLY 0
  else if tok = GT then .redir cmd file (O_WRONLY ||| O_CREATE ||| O_TRUNC) 1
  else if tok = PLUS then .redir cmd file (O_WRONLY ||| O_CREATE) 1
  else cmd

def parseredirs : Nat → Cmd Span → Prog Nat (Cmd Span)
  | 0, _ => hang
  | n + 1, cmd => do
    if ← peek line [LT, GT] then do
      let tok ← gettoken line
      let file ← gettoken line
      if file.ret ≠ WORD then panicWith "missing file for redirection"
      else parseredirs n (redircmd tok.ret cmd file.span)
    else pure cmd

/-- The loop of `parseexec`. -/
def argLoop : Nat → Nat → Cmd Span → Prog Nat (Cmd Span)
  | 0, _, _ => hang
  | n + 1, argc, ret => do
    if ← peek line [BAR, RPAREN, AMP, SEMI] then pure ret
    else do
      let tok ← gettoken line
      if tok.ret = 0 then pure ret
      else if tok.ret ≠ WORD then panicWith "syntax"
      else if argc + 1 ≥ MAXARGS then panicWith "too many args"
      else do
        let ret ← parseredirs line n (ret.pushArg tok.span)
        argLoop n (argc + 1) ret

/-- The loop of `parseline`. -/
def backLoop : Nat → Cmd Span → Prog Nat (Cmd Span)
  | 0, _ => hang
  | n + 1, cmd => do
    if ← peek line [AMP] then do
      let _ ← gettoken line
      backLoop n (.back cmd)
    else pure cmd

mutual

def parseline : Nat → Prog Nat (Cmd Span)
  | 0 => hang
  | n + 1 => do
    let cmd ← parsepipe n
    let cmd ← backLoop line n cmd
    if ← peek line [SEMI] then do
      let _ ← gettoken line
      let right ← parseline n
      pure (.list cmd right)
    else pure cmd

def parsepipe : Nat → Prog Nat (Cmd Span)
  | 0 => hang
  | n + 1 => do
    let cmd ← parseexec n
    if ← peek line [BAR] then do
      let _ ← gettoken line
      let right ← parsepipe n
      pure (.pipe cmd right)
    else pure cmd

def parseblock : Nat → Prog Nat (Cmd Span)
  | 0 => hang
  | n + 1 => do
    if !(← peek line [LPAREN]) then panicWith "parseblock"
    else do
      let _ ← gettoken line
      let cmd ← parseline n
      if !(← peek line [RPAREN]) then panicWith "syntax - missing )"
      else do
        let _ ← gettoken line
        parseredirs line n cmd

def parseexec : Nat → Prog Nat (Cmd Span)
  | 0 => hang
  | n + 1 => do
    if ← peek line [LPAREN] then parseblock n
    else do
      let ret ← parseredirs line n (.exec [])
      argLoop line n 0 ret

end

/-- The NULs that `nulterminate` writes into the buffer. -/
def nulterminate : Cmd Span → List UInt8 → List UInt8
  | .exec argv, buf => argv.foldl (fun buf w => buf.set w.eq 0) buf
  | .redir cmd file _ _, buf => (nulterminate cmd buf).set file.eq 0
  | .pipe left right, buf => nulterminate right (nulterminate left buf)
  | .list left right, buf => nulterminate right (nulterminate left buf)
  | .back cmd, buf => nulterminate cmd buf

/-- The tree, and the buffer that its words point into. -/
def parsecmd (fuel : Nat) : Prog Nat (Cmd Span × List UInt8) := do
  modify fun _ => 0
  let cmd ← parseline line fuel
  let _ ← peek line []
  let s ← get
  if s ≠ line.length then panicWith "syntax"
  else pure (cmd, nulterminate cmd (line ++ [0]))

/-- The string at `q` in a buffer. -/
def cstring (buf : List UInt8) (q : Nat) : List UInt8 := (buf.drop q).takeWhile (· ≠ 0)

/-- The tree with the strings that `runcmd` sees. -/
def Cmd.map {W W' : Type} (f : W → W') : Cmd W → Cmd W'
  | .exec argv => .exec (argv.map f)
  | .redir cmd file mode fd => .redir (cmd.map f) (f file) mode fd
  | .pipe left right => .pipe (left.map f) (right.map f)
  | .list left right => .list (left.map f) (right.map f)
  | .back cmd => .back (cmd.map f)

end Sh

end Xv6
