import Xv6.Sh.Defs

/-!
# The grammar of the shell

* `lex` — the token sequence of a line: maximal munch, with whitespace between tokens.
* `Derives` — the grammar, with the tree of each derivation:

      line  ::= pipe '&'* [';' line]
      pipe  ::= exec ['|' pipe]
      exec  ::= '(' line ')' redir* | redir* (word redir*)*      (fewer than MAXARGS words)
      redir ::= ('<' | '>' | '>>') word

* `print` — a tree as a line again, with parentheses around every command that has parts.
* `derives_print` — the tokens of the printed line derive the tree.
-/

namespace Xv6

namespace Sh

/-! ## Tokens -/

inductive Token where
  | lt
  | gt
  | gtgt
  | bar
  | amp
  | semi
  | lparen
  | rparen
  | word (w : List UInt8)
  deriving DecidableEq, Repr

/-- The token that a symbol other than `>` is. -/
def symbolToken (c : UInt8) : Option Token :=
  if c = LT then some .lt
  else if c = BAR then some .bar
  else if c = AMP then some .amp
  else if c = SEMI then some .semi
  else if c = LPAREN then some .lparen
  else if c = RPAREN then some .rparen
  else none

/-- The first token of a line that starts with neither space nor NUL, and the rest. -/
def firstToken (c : UInt8) (cs : List UInt8) : Token × List UInt8 :=
  if c = GT then
    match cs with
    | [] => (.gt, [])
    | d :: ds => if d = GT then (.gtgt, ds) else (.gt, d :: ds)
  else
    match symbolToken c with
    | some t => (t, cs)
    | none => (.word (c :: cs.takeWhile isWord), cs.dropWhile isWord)

/-- What the first token can be. -/
inductive FirstToken (c : UInt8) (cs : List UInt8) : Token → List UInt8 → Prop where
  | gtgt {ds : List UInt8} : c = GT → cs = GT :: ds → FirstToken c cs .gtgt ds
  | gt : c = GT → cs.head? ≠ some GT → FirstToken c cs .gt cs
  | symbol {t : Token} : symbolToken c = some t → FirstToken c cs t cs
  | word : isWord c = true → FirstToken c cs (.word (c :: cs.takeWhile isWord)) (cs.dropWhile isWord)

variable {c : UInt8}

theorem isWord_of_none (hsp : isSpace c = false) (hgt : c ≠ GT) (h : symbolToken c = none) : isWord c = true := by
  unfold isSpace at hsp
  unfold isWord
  rw [hsp]
  unfold symbolToken at h
  repeat' split at h
  all_goals simp_all [symbols]

theorem firstToken_spec (hsp : isSpace c = false) (cs : List UInt8) :
    FirstToken c cs (firstToken c cs).1 (firstToken c cs).2 := by
  unfold firstToken
  split
  · rename_i hc
    cases cs with
    | nil => exact .gt hc (by simp)
    | cons d ds =>
      dsimp only
      split
      · rename_i hd
        exact .gtgt hc (by rw [hd])
      · rename_i hd
        exact .gt hc (by simpa using hd)
  · rename_i hc
    split
    · rename_i t ht
      exact .symbol ht
    · rename_i ht
      exact .word (isWord_of_none hsp hc ht)

theorem symbolToken_ne_word (c : UInt8) (w : List UInt8) : symbolToken c ≠ some (.word w) := by
  unfold symbolToken
  repeat' split
  all_goals simp

theorem firstToken_length (c : UInt8) (cs : List UInt8) : (firstToken c cs).2.length ≤ cs.length := by
  unfold firstToken
  split
  · cases cs with
    | nil => exact Nat.le_refl _
    | cons d ds =>
      dsimp only
      split
      · exact Nat.le_succ _
      · exact Nat.le_refl _
  · split
    · exact Nat.le_refl _
    · exact List.length_dropWhile_le _ _

def lex : List UInt8 → List Token
  | [] => []
  | c :: cs => if isSpace c then lex cs else (firstToken c cs).1 :: lex (firstToken c cs).2
termination_by l => l.length
decreasing_by
  · simp only [List.length_cons]
    omega
  · have := firstToken_length c cs
    simp only [List.length_cons]
    omega

theorem lex_nil : lex [] = [] := by rw [lex]

theorem lex_space (h : isSpace c = true) (cs : List UInt8) : lex (c :: cs) = lex cs := by
  rw [lex, if_pos h]

theorem lex_cons (h : isSpace c = false) (cs : List UInt8) :
    lex (c :: cs) = (firstToken c cs).1 :: lex (firstToken c cs).2 := by
  rw [lex, if_neg (by rw [h]; exact Bool.false_ne_true)]

theorem lex_dropWhile (l : List UInt8) : lex (l.dropWhile isSpace) = lex l := by
  induction l with
  | nil => rfl
  | cons c cs ih =>
    by_cases hc : isSpace c = true
    · rw [List.dropWhile_cons_of_pos hc, ih, lex_space hc]
    · rw [List.dropWhile_cons_of_neg hc]

/-- There are no more tokens than bytes. -/
theorem lex_length (l : List UInt8) : (lex l).length ≤ l.length := by
  fun_induction lex l with
  | case1 => exact Nat.le_refl _
  | case2 c cs _ ih => exact Nat.le_succ_of_le ih
  | case3 c cs _ ih =>
    have := firstToken_length c cs
    simp only [List.length_cons]
    omega

/-! ## The grammar -/

/-- A command tree whose words are strings. -/
abbrev Tree : Type := Cmd (List UInt8)

/-- The token of a redirection, with its mode and its descriptor. -/
inductive RedirOp : Token → Nat → Nat → Prop where
  | read : RedirOp .lt O_RDONLY 0
  | write : RedirOp .gt (O_WRONLY ||| O_CREATE ||| O_TRUNC) 1
  | append : RedirOp .gtgt (O_WRONLY ||| O_CREATE) 1

/-- `redir*`, each around the command built so far. -/
inductive Redirs : List Token → Tree → Tree → Prop where
  | nil (c : Tree) : Redirs [] c c
  | cons {t : Token} {mode fd : Nat} {w : List UInt8} {ts : List Token} {c c' : Tree} : RedirOp t mode fd →
      Redirs ts (.redir c w mode fd) c' → Redirs (t :: .word w :: ts) c c'

/-- `(word redir*)*`, each word added to the simple command. -/
inductive Args : List Token → Tree → Tree → Prop where
  | nil (c : Tree) : Args [] c c
  | cons {w : List UInt8} {ts ts' : List Token} {c c' c'' : Tree} : Redirs ts (c.pushArg w) c' → Args ts' c' c'' →
      Args (.word w :: ts ++ ts') c c''

/-- The number of words of the simple command below the redirections. -/
def Cmd.argc {W : Type} : Cmd W → Nat
  | .exec argv => argv.length
  | .redir cmd _ _ _ => cmd.argc
  | _ => 0

/-- `n` times in the background. -/
def backs {W : Type} : Nat → Cmd W → Cmd W
  | 0, c => c
  | n + 1, c => backs n (.back c)

inductive Nonterminal where
  | line
  | pipe
  | exec
  deriving DecidableEq

inductive Derives : Nonterminal → List Token → Tree → Prop where
  | line {ts : List Token} {c : Tree} (n : Nat) : Derives .pipe ts c →
      Derives .line (ts ++ List.replicate n .amp) (backs n c)
  | list {ts ts' : List Token} {c c' : Tree} (n : Nat) : Derives .pipe ts c → Derives .line ts' c' →
      Derives .line (ts ++ List.replicate n .amp ++ .semi :: ts') (.list (backs n c) c')
  | exec {ts : List Token} {c : Tree} : Derives .exec ts c → Derives .pipe ts c
  | pipe {ts ts' : List Token} {c c' : Tree} : Derives .exec ts c → Derives .pipe ts' c' →
      Derives .pipe (ts ++ .bar :: ts') (.pipe c c')
  | block {ts ts' : List Token} {c c' : Tree} : Derives .line ts c → Redirs ts' c c' →
      Derives .exec (.lparen :: ts ++ .rparen :: ts') c'
  | simple {ts ts' : List Token} {c c' : Tree} : Redirs ts (.exec []) c → Args ts' c c' → c'.argc < MAXARGS →
      Derives .exec (ts ++ ts') c'

/-! ## Words -/

/-- A string that `gettoken` can return as a word. -/
structure IsWordText (w : List UInt8) : Prop where
  ne_nil : w ≠ []
  chars : ∀ c ∈ w, isWord c = true
  no_nul : 0 ∉ w

/-- The words of a line without NUL. -/
theorem lex_words {l : List UInt8} (h0 : 0 ∉ l) : ∀ w, Token.word w ∈ lex l → IsWordText w := by
  fun_induction lex l with
  | case1 => simp
  | case2 c cs _ ih => exact ih fun h => h0 (List.mem_cons_of_mem c h)
  | case3 c cs hsp ih =>
    have hc0 : c ≠ 0 := fun h => h0 (h ▸ List.mem_cons_self)
    have hcs : 0 ∉ cs := fun h => h0 (List.mem_cons_of_mem c h)
    have hfirst := firstToken_spec (Bool.eq_false_iff.2 hsp) cs
    revert ih hfirst
    generalize (firstToken c cs).1 = t
    generalize (firstToken c cs).2 = rest
    intro ih hfirst w hw
    cases hfirst with
    | gtgt _ hds =>
      rcases List.mem_cons.1 hw with h | h
      · cases h
      · exact ih (fun hx => hcs (hds ▸ List.mem_cons_of_mem _ hx)) w h
    | gt _ _ =>
      rcases List.mem_cons.1 hw with h | h
      · cases h
      · exact ih hcs w h
    | symbol ht =>
      rcases List.mem_cons.1 hw with h | h
      · exact absurd (h ▸ ht) (symbolToken_ne_word c w)
      · exact ih hcs w h
    | word hc =>
      rcases List.mem_cons.1 hw with h | h
      · cases h
        refine ⟨by simp, fun x hx => ?_, fun hx => ?_⟩
        · rcases List.mem_cons.1 hx with rfl | hx
          · exact hc
          · exact List.mem_takeWhile_imp hx
        · rcases List.mem_cons.1 hx with hx | hx
          · exact hc0 hx.symm
          · exact hcs ((List.takeWhile_prefix _).subset hx)
      · exact ih (fun hx => hcs ((List.dropWhile_suffix _).subset hx)) w h

/-! ## Printing -/

def SPACE : UInt8 := 32

/-- The symbol of a redirection. -/
def redirText (mode fd : Nat) : List UInt8 :=
  if fd = 0 then [LT] else if mode &&& O_TRUNC = 0 then [GT, GT] else [GT]

/-- A command in parentheses. -/
def parens (l : List UInt8) : List UInt8 := LPAREN :: l ++ [RPAREN]

def print : Tree → List UInt8
  | .exec argv => argv.flatMap fun w => w ++ [SPACE]
  | .redir cmd file mode fd => parens (print cmd) ++ (redirText mode fd ++ file)
  | .pipe left right => parens (print left) ++ (BAR :: parens (print right))
  | .list left right => parens (print left) ++ (SEMI :: parens (print right))
  | .back cmd => parens (print cmd) ++ [AMP]

/-- The trees of the grammar. -/
inductive Printable : Tree → Prop where
  | exec {argv : List (List UInt8)} : (∀ w ∈ argv, IsWordText w) → argv.length < MAXARGS → Printable (.exec argv)
  | redir {cmd : Tree} {file : List UInt8} {t : Token} {mode fd : Nat} : Printable cmd → IsWordText file →
      RedirOp t mode fd → Printable (.redir cmd file mode fd)
  | pipe {left right : Tree} : Printable left → Printable right → Printable (.pipe left right)
  | list {left right : Tree} : Printable left → Printable right → Printable (.list left right)
  | back {cmd : Tree} : Printable cmd → Printable (.back cmd)

/-- What follows does not go on a word. -/
def Ends (rest : List UInt8) : Prop := ∀ c, rest.head? = some c → isWord c = false

theorem isSpace_of_isWord (h : isWord c = true) : isSpace c = false := by
  unfold isWord at h
  unfold isSpace
  simp only [Bool.and_eq_true, Bool.not_eq_true'] at h
  exact h.1

theorem symbolToken_of_isWord (h : isWord c = true) : symbolToken c = none ∧ c ≠ GT := by
  unfold isWord at h
  simp only [Bool.and_eq_true, Bool.not_eq_true', symbols, List.contains_cons, List.contains_nil, Bool.or_false,
    Bool.or_eq_false_iff, beq_eq_false_iff_ne] at h
  obtain ⟨-, h1, h2, h3, h4, h5, h6, h7⟩ := h
  unfold symbolToken
  rw [if_neg h1, if_neg h2, if_neg h4, if_neg h5, if_neg h6, if_neg h7]
  exact ⟨rfl, h3⟩

theorem lex_word {w rest : List UInt8} (hw : IsWordText w) (hr : Ends rest) :
    lex (w ++ rest) = .word w :: lex rest := by
  obtain ⟨c, cs, rfl⟩ := List.exists_cons_of_ne_nil hw.ne_nil
  have hc := hw.chars c List.mem_cons_self
  obtain ⟨hsym, hgt⟩ := symbolToken_of_isWord hc
  have hcs : ∀ x ∈ cs, isWord x = true := fun x hx => hw.chars x (List.mem_cons_of_mem c hx)
  have hstop : rest.takeWhile isWord = [] ∧ rest.dropWhile isWord = rest := by
    cases rest with
    | nil => exact ⟨rfl, rfl⟩
    | cons d ds =>
      have hd := hr d rfl
      exact ⟨List.takeWhile_cons_of_neg (by simp [hd]), List.dropWhile_cons_of_neg (by simp [hd])⟩
  rw [List.cons_append, lex_cons (isSpace_of_isWord hc)]
  unfold firstToken
  rw [if_neg hgt, hsym]
  dsimp only
  rw [List.takeWhile_append_of_pos hcs, List.dropWhile_append_of_pos hcs, hstop.1, hstop.2, List.append_nil]

/-- A symbol is a token by itself. -/
theorem lex_symbol {t : Token} (h : symbolToken c = some t) (hsp : isSpace c = false) (hgt : c ≠ GT)
    (rest : List UInt8) : lex (c :: rest) = t :: lex rest := by
  rw [lex_cons hsp]
  unfold firstToken
  rw [if_neg hgt, h]

theorem lex_redir {t : Token} {mode fd : Nat} (h : RedirOp t mode fd) {w : List UInt8} (hw : IsWordText w)
    {rest : List UInt8} (hr : Ends rest) :
    lex (redirText mode fd ++ (w ++ rest)) = t :: .word w :: lex rest := by
  rw [← lex_word hw hr]
  cases h with
  | read => exact lex_symbol rfl rfl (by decide) _
  | write =>
    obtain ⟨c, cs, rfl⟩ := List.exists_cons_of_ne_nil hw.ne_nil
    have hgt := (symbolToken_of_isWord (hw.chars c List.mem_cons_self)).2
    show lex (GT :: c :: (cs ++ rest)) = _
    rw [lex_cons rfl]
    unfold firstToken
    rw [if_pos rfl]
    dsimp only
    rw [if_neg hgt]
    rfl
  | append =>
    show lex (GT :: GT :: (w ++ rest)) = _
    rw [lex_cons rfl]
    rfl

theorem lex_args {argv : List (List UInt8)} (h : ∀ w ∈ argv, IsWordText w) (rest : List UInt8) :
    lex (argv.flatMap (fun w => w ++ [SPACE]) ++ rest) = argv.map Token.word ++ lex rest := by
  induction argv with
  | nil => rfl
  | cons w ws ih =>
    have hends : Ends (SPACE :: (ws.flatMap (fun w => w ++ [SPACE]) ++ rest)) := by
      intro c hc
      cases hc
      rfl
    rw [List.flatMap_cons, List.append_assoc, List.append_assoc, List.singleton_append,
      lex_word (h w List.mem_cons_self) hends, lex_space rfl, ih fun x hx => h x (List.mem_cons_of_mem w hx)]
    rfl

/-- Words alone make a simple command. -/
theorem args_words (ws argv : List (List UInt8)) :
    Args (ws.map Token.word) (.exec argv) (.exec (argv ++ ws)) := by
  induction ws generalizing argv with
  | nil =>
    rw [List.append_nil]
    exact .nil _
  | cons w ws ih =>
    have h := ih (argv ++ [w])
    rw [List.append_assoc] at h
    exact .cons (.nil _) h

variable {ts : List Token} {t : Tree}

/-- A line in parentheses can stand where a simple command can. -/
theorem Derives.parens {c : Tree} (h : Derives .line ts c) :
    Derives .exec (.lparen :: ts ++ [.rparen]) c := .block h (.nil c)

theorem ends_symbol (h : isWord c = false) (l : List UInt8) : Ends (c :: l) := by
  intro d hd
  cases hd
  exact h

theorem lex_parens {l : List UInt8} (h : ∀ rest, Ends rest → lex (l ++ rest) = ts ++ lex rest)
    (rest : List UInt8) : lex (parens l ++ rest) = .lparen :: ts ++ [.rparen] ++ lex rest := by
  unfold Sh.parens
  rw [List.cons_append, List.cons_append, lex_symbol rfl rfl (by decide), List.append_assoc, List.singleton_append,
    h _ (ends_symbol rfl _), lex_symbol rfl rfl (by decide)]
  simp

theorem print_no_nul (h : Printable t) : 0 ∉ print t := by
  have hparens : ∀ l : List UInt8, 0 ∉ l → 0 ∉ Sh.parens l := by
    intro l hl
    simp [Sh.parens, hl, LPAREN, RPAREN]
  induction h with
  | exec hargv _ =>
    intro h0
    obtain ⟨w, hw, hmem⟩ := List.mem_flatMap.1 h0
    rcases List.mem_append.1 hmem with h | h
    · exact (hargv w hw).no_nul h
    · simp [SPACE] at h
  | @redir cmd file t mode fd _ hfile hop ih =>
    have hop0 : 0 ∉ redirText mode fd := by cases hop <;> decide
    simp [print, hparens _ ih, hop0, hfile.no_nul]
  | pipe _ _ ihl ihr => simp [print, hparens _ ihl, hparens _ ihr, BAR]
  | list _ _ ihl ihr => simp [print, hparens _ ihl, hparens _ ihr, SEMI]
  | back _ ih => simp [print, hparens _ ih, AMP]

/-! ## The trees of the grammar can be printed -/

/-- A simple command with good words, of any number. -/
inductive GoodWords : Tree → Prop where
  | exec {argv : List (List UInt8)} : (∀ w ∈ argv, IsWordText w) → GoodWords (.exec argv)
  | redir {cmd : Tree} {file : List UInt8} {t : Token} {mode fd : Nat} : GoodWords cmd → IsWordText file →
      RedirOp t mode fd → GoodWords (.redir cmd file mode fd)

theorem GoodWords.printable (h : GoodWords t) (hargc : t.argc < MAXARGS) : Printable t := by
  induction h with
  | exec h => exact .exec h hargc
  | redir _ hfile hop ih => exact .redir (ih hargc) hfile hop

theorem GoodWords.pushArg (h : GoodWords t) {w : List UInt8} (hw : IsWordText w) : GoodWords (t.pushArg w) := by
  induction h with
  | exec h =>
    refine .exec fun x hx => ?_
    rcases List.mem_append.1 hx with hx | hx
    · exact h x hx
    · rw [List.mem_singleton.1 hx]
      exact hw
  | redir _ hfile hop ih => exact .redir ih hfile hop

/-- A property of commands that every redirection keeps. -/
theorem Redirs.keeps {P : Tree → Prop} {c c' : Tree} (h : Redirs ts c c')
    (hP : ∀ {c t mode fd w}, P c → RedirOp t mode fd → Token.word w ∈ ts → P (.redir c w mode fd)) (hc : P c) :
    P c' := by
  induction h with
  | nil => exact hc
  | cons hop _ ih =>
    exact ih (fun h1 h2 h3 => hP h1 h2 (List.mem_cons_of_mem _ (List.mem_cons_of_mem _ h3)))
      (hP hc hop (List.mem_cons_of_mem _ List.mem_cons_self))

theorem Args.goodWords {c c' : Tree} (h : Args ts c c')
    (hw : ∀ w, Token.word w ∈ ts → IsWordText w) (hc : GoodWords c) : GoodWords c' := by
  induction h with
  | nil => exact hc
  | cons hr _ ih =>
    refine ih (fun w h => hw w (List.mem_append.2 (Or.inr h))) (hr.keeps (fun h1 h2 h3 => ?_) ?_)
    · exact .redir h1 (hw _ (List.mem_append.2 (Or.inl (List.mem_cons_of_mem _ h3)))) h2
    · exact hc.pushArg (hw _ (List.mem_append.2 (Or.inl List.mem_cons_self)))

theorem printable_backs (h : Printable t) (n : Nat) : Printable (backs n t) := by
  induction n generalizing t with
  | zero => exact h
  | succ n ih => exact ih (.back h)

theorem Derives.printable {nt : Nonterminal} (h : Derives nt ts t)
    (hw : ∀ w, Token.word w ∈ ts → IsWordText w) : Printable t := by
  induction h with
  | line n _ ih => exact printable_backs (ih fun w h => hw w (by simp [h])) n
  | list n _ _ ih ih' =>
    exact .list (printable_backs (ih fun w h => hw w (by simp [h])) n) (ih' fun w h => hw w (by simp [h]))
  | exec _ ih => exact ih hw
  | pipe _ _ ih ih' => exact .pipe (ih fun w h => hw w (by simp [h])) (ih' fun w h => hw w (by simp [h]))
  | block _ hr ih =>
    exact hr.keeps (fun h1 h2 h3 => .redir h1 (hw _ (by simp [h3])) h2) (ih fun w h => hw w (by simp [h]))
  | simple hr ha hargc =>
    refine (ha.goodWords (fun w h => hw w (by simp [h])) ?_).printable hargc
    exact hr.keeps (fun h1 h2 h3 => .redir h1 (hw _ (by simp [h3])) h2) (.exec (by simp))

/-- **The tokens of a printed tree derive it.** -/
theorem derives_print (h : Printable t) : ∃ ts, Derives .line ts t ∧
    ∀ rest, Ends rest → lex (print t ++ rest) = ts ++ lex rest := by
  induction h with
  | @exec argv hargv hlen =>
    refine ⟨argv.map Token.word ++ List.replicate 0 .amp, .line 0 (.exec (.simple (.nil _) ?_ ?_)),
      fun rest _ => ?_⟩
    · exact args_words argv []
    · exact hlen
    · rw [List.replicate_zero, List.append_nil]
      exact lex_args hargv rest
  | @redir cmd file t mode fd _ hfile hop ih =>
    obtain ⟨ts, hd, hl⟩ := ih
    refine ⟨_, Derives.line 0 (.exec (.block hd (.cons hop (.nil _)))), fun rest hr => ?_⟩
    rw [print, List.append_assoc, List.append_assoc, lex_parens hl, lex_redir hop hfile hr]
    simp
  | @pipe left right _ _ ihl ihr =>
    obtain ⟨ts, hd, hl⟩ := ihl
    obtain ⟨ts', hd', hl'⟩ := ihr
    refine ⟨_, Derives.line 0 (.pipe hd.parens (.exec hd'.parens)), fun rest _ => ?_⟩
    rw [print, List.append_assoc, List.cons_append, lex_parens hl, lex_symbol (c := BAR) rfl rfl (by decide),
      lex_parens hl']
    simp
  | @list left right _ _ ihl ihr =>
    obtain ⟨ts, hd, hl⟩ := ihl
    obtain ⟨ts', hd', hl'⟩ := ihr
    refine ⟨_, Derives.list 0 (.exec hd.parens) (.line 0 (.exec hd'.parens)), fun rest _ => ?_⟩
    rw [print, List.append_assoc, List.cons_append, lex_parens hl, lex_symbol (c := SEMI) rfl rfl (by decide),
      lex_parens hl']
    simp
  | @back cmd _ ih =>
    obtain ⟨ts, hd, hl⟩ := ih
    refine ⟨_, Derives.line 1 (.exec hd.parens), fun rest _ => ?_⟩
    rw [print, List.append_assoc, lex_parens hl, List.singleton_append, lex_symbol (c := AMP) rfl rfl (by decide)]
    simp

end Sh

end Xv6
