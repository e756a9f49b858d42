import Xv6.Sh.Grammar

/-!
# `gettoken` and `peek`

* `At line s ts` — from the cursor `s` on, the line has the tokens `ts`.
* `peek_spec`, `gettoken_cons`, `gettoken_nil` — one step of the lexer.
* `starts_amp`, … — what the answer of `peek` says about the next token.
-/

namespace Xv6

open Prog

namespace Sh

variable {line : List UInt8} {s : Nat} {ts : List Token} {P : String → Prop} {H : Prop}

/-! ## The lexer -/

structure At (line : List UInt8) (s : Nat) (ts : List Token) : Prop where
  le : s ≤ line.length
  toks : lex (line.drop s) = ts

theorem drop_scan (p : UInt8 → Bool) : line.drop (scan line p s) = (line.drop s).dropWhile p := by
  have happ := List.takeWhile_append_dropWhile (p := p) (l := line.drop s)
  unfold scan
  rw [← List.drop_drop]
  nth_rewrite 2 [← happ]
  exact List.drop_left

theorem scan_le (p : UInt8 → Bool) (h : s ≤ line.length) : scan line p s ≤ line.length := by
  have := (List.takeWhile_prefix p (l := line.drop s)).length_le
  rw [List.length_drop] at this
  unfold scan
  omega

variable {t : Token} {c : UInt8}

theorem getD_of_drop {l : List UInt8} {cs : List UInt8} (h : l.drop s = c :: cs) : l.getD s 0 = c := by
  have hget : l[s]? = some c := by
    rw [← List.head?_drop, h]
    rfl
  rw [List.getD_eq_getElem?_getD, hget]
  rfl

theorem getD_of_drop_nil {l : List UInt8} (h : l.drop s = []) : l.getD s 0 = 0 := by
  have hget : l[s]? = none := by
    rw [← List.head?_drop, h]
    rfl
  rw [List.getD_eq_getElem?_getD, hget]
  rfl

theorem drop_succ {cs : List UInt8} (h : line.drop s = c :: cs) : line.drop (s + 1) = cs := by
  rw [← List.drop_drop, h]
  rfl

theorem At.skip (h : At line s ts) : At line (scan line isSpace s) ts :=
  ⟨scan_le _ h.le, by rw [drop_scan, lex_dropWhile]; exact h.toks⟩

/-- After the spaces there is the end of the line or the first token. -/
theorem At.head (h : At line s ts) : (line.drop (scan line isSpace s) = [] ∧ ts = []) ∨
    ∃ c cs t rest, line.drop (scan line isSpace s) = c :: cs ∧ isSpace c = false ∧ FirstToken c cs t rest ∧
      ts = t :: lex rest := by
  have hskip := h.skip
  have hd : line.drop (scan line isSpace s) = (line.drop s).dropWhile isSpace := drop_scan isSpace
  cases hl : line.drop (scan line isSpace s) with
  | nil =>
    left
    refine ⟨rfl, ?_⟩
    rw [← hskip.toks, hl, lex_nil]
  | cons c cs =>
    right
    have hsp : isSpace c = false := by
      have hhead : ((line.drop s).dropWhile isSpace).head? = some c := by
        rw [← hd, hl]
        rfl
      have hnot := List.head?_dropWhile_not isSpace (line.drop s)
      rw [hhead] at hnot
      simpa using hnot
    refine ⟨c, cs, _, _, rfl, hsp, firstToken_spec hsp cs, ?_⟩
    rw [← hskip.toks, hl, lex_cons hsp]

/-- The byte that `peek` compares. -/
def Token.first : Token → Option UInt8
  | .lt => some LT
  | .gt => some GT
  | .gtgt => some GT
  | .bar => some BAR
  | .amp => some AMP
  | .semi => some SEMI
  | .lparen => some LPAREN
  | .rparen => some RPAREN
  | .word _ => none

/-- The next token starts with one of the bytes. -/
def starts (set : List UInt8) : List Token → Bool
  | [] => false
  | t :: _ => match t.first with
    | some c => set.contains c
    | none => false

theorem first_of_symbolToken (h : symbolToken c = some t) : t.first = some c := by
  unfold symbolToken at h
  repeat' split at h
  all_goals cases h
  all_goals subst_vars
  all_goals rfl

theorem peek_spec (h : At line s ts) (h0 : 0 ∉ line) {set : List UInt8} (hset : set.all symbols.contains = true) :
    wpm (peek line set) (fun b s' => b = starts set ts ∧ At line s' ts ∧ (s' = line.length ↔ ts = [])) P H s := by
  unfold peek
  rw [wpm_bind, wpm_modify, wpm_bind, wpm_get, wpm_pure]
  have hskip := h.skip
  refine ⟨?_, hskip, ?_⟩
  · rcases h.head with ⟨hnil, rfl⟩ | ⟨c, cs, t, rest, hl, hsp, hfirst, rfl⟩
    · rw [getD_of_drop_nil hnil]
      rfl
    · rw [getD_of_drop hl]
      have hc : c ∈ line := List.mem_of_mem_drop (hl ▸ List.mem_cons_self)
      have hne : (c != 0) = true := bne_iff_ne.2 fun h => h0 (h ▸ hc)
      rw [hne, Bool.true_and]
      unfold starts
      cases hfirst with
      | gtgt hgt _ | gt hgt _ => rw [hgt]; rfl
      | symbol ht => dsimp only; rw [first_of_symbolToken ht]
      | word hw =>
        have hnot : c ∉ symbols := by
          unfold isWord at hw
          simp only [Bool.and_eq_true, Bool.not_eq_true'] at hw
          intro hmem
          rw [List.contains_iff_mem.2 hmem] at hw
          exact Bool.noConfusion hw.2
        show set.contains c = false
        rw [← Bool.not_eq_true, List.contains_iff_mem]
        exact fun hmem => hnot (List.contains_iff_mem.1 (List.all_eq_true.1 hset c hmem))
  · constructor
    · intro heq
      rw [← hskip.toks, heq, List.drop_length, lex_nil]
    · rintro rfl
      rcases h.head with ⟨hnil, -⟩ | ⟨_, _, _, _, _, _, _, hts⟩
      · have := List.drop_eq_nil_iff.1 hnil
        exact Nat.le_antisymm hskip.le this
      · cases hts

/-- What `gettoken` returns. -/
def Token.code : Token → UInt8
  | .lt => LT
  | .gt => GT
  | .gtgt => PLUS
  | .bar => BAR
  | .amp => AMP
  | .semi => SEMI
  | .lparen => LPAREN
  | .rparen => RPAREN
  | .word _ => WORD

theorem code_of_symbolToken (h : symbolToken c = some t) :
    t.code = c ∧ (c = BAR ∨ c = LPAREN ∨ c = RPAREN ∨ c = SEMI ∨ c = AMP ∨ c = LT) := by
  unfold symbolToken at h
  repeat' split at h
  all_goals cases h
  all_goals subst_vars
  all_goals exact ⟨rfl, by decide⟩

/-- The word that starts at `q`. -/
def wordAt (line : List UInt8) (q : Nat) : List UInt8 := (line.drop q).takeWhile isWord

/-- A word of the line, from its first byte to its last. -/
structure WordSpan (line : List UInt8) (w : Span) : Prop where
  first : ∃ c cs, line.drop w.q = c :: cs ∧ isWord c = true
  last : w.eq = scan line isWord w.q

theorem wpm_gettoken {Q : Tok → Nat → Prop} : wpm (gettoken line) Q P H s ↔
    Q ⟨(tokenAt line (scan line isSpace s)).1, scan line isSpace s, (tokenAt line (scan line isSpace s)).2⟩
      (scan line isSpace (tokenAt line (scan line isSpace s)).2) := Iff.rfl

theorem gettoken_nil (h : At line s []) :
    wpm (gettoken line) (fun t s' => t.ret = 0 ∧ At line s' []) P H s := by
  rw [wpm_gettoken]
  rcases h.head with ⟨hnil, -⟩ | ⟨_, _, _, _, _, _, _, hts⟩
  · have htok : tokenAt line (scan line isSpace s) = (0, scan line isSpace s) := by
      unfold tokenAt
      rw [getD_of_drop_nil hnil]
      rfl
    rw [htok]
    exact ⟨rfl, h.skip.skip⟩
  · cases hts

/-- The cursor after a token. -/
theorem At.after {e : Nat} {rest : List UInt8} (hle : e ≤ line.length) (h : line.drop e = rest) :
    At line (scan line isSpace e) (lex rest) := by
  refine At.skip ⟨hle, ?_⟩
  rw [h]

theorem tokenAt_word {q : Nat} {cs : List UInt8} (hl : line.drop q = c :: cs) (hw : isWord c = true)
    (hc0 : c ≠ 0) : tokenAt line q = (WORD, scan line isWord q) := by
  obtain ⟨hsym, hgt⟩ := symbolToken_of_isWord hw
  have hnot : ¬ (c = BAR ∨ c = LPAREN ∨ c = RPAREN ∨ c = SEMI ∨ c = AMP ∨ c = LT) := by
    rintro (rfl | rfl | rfl | rfl | rfl | rfl)
    all_goals exact absurd hw (by decide)
  unfold tokenAt
  rw [getD_of_drop hl]
  simp only [if_neg hc0, if_neg hnot, if_neg hgt]

theorem gettoken_cons (h : At line s (t :: ts)) (h0 : 0 ∉ line) :
    wpm (gettoken line) (fun tok s' => tok.ret = t.code ∧ At line s' ts ∧
      ∀ w, t = .word w → WordSpan line tok.span ∧ wordAt line tok.span.q = w) P H s := by
  rw [wpm_gettoken]
  have hskip := h.skip
  rcases h.head with ⟨-, hts⟩ | ⟨c, cs, t', rest, hl, hsp, hfirst, hts⟩
  · cases hts
  cases hts
  generalize scan line isSpace s = q at hskip hl
  have hlen : q + 1 ≤ line.length := by
    have := congrArg List.length hl
    rw [List.length_drop, List.length_cons] at this
    omega
  have hc0 : c ≠ 0 := fun h => h0 (h ▸ List.mem_of_mem_drop (hl ▸ List.mem_cons_self))
  have hget := getD_of_drop hl
  have hnext := drop_succ hl
  suffices htok : ∃ e, tokenAt line q = (t.code, e) ∧ e ≤ line.length ∧ line.drop e = rest ∧
      ∀ w, t = .word w → WordSpan line ⟨q, e⟩ ∧ wordAt line q = w by
    obtain ⟨e, htok, hle, hrest, hword⟩ := htok
    rw [htok]
    exact ⟨rfl, At.after hle hrest, hword⟩
  cases hfirst with
  | @gtgt ds hgt hds =>
    have hget' : line.getD (q + 1) 0 = GT := getD_of_drop (hnext.trans hds)
    refine ⟨q + 2, ?_, ?_, drop_succ (hnext.trans hds), fun w hw => by cases hw⟩
    · unfold tokenAt
      rw [hget, hgt, hget']
      rfl
    · have := congrArg List.length (hnext.trans hds)
      rw [List.length_drop, List.length_cons] at this
      omega
  | gt hgt hne =>
    have hget' : line.getD (q + 1) 0 ≠ GT := by
      rw [List.getD_eq_getElem?_getD, ← List.head?_drop, hnext]
      cases cs with
      | nil => decide
      | cons d ds => simpa using hne
    refine ⟨q + 1, ?_, hlen, hnext, fun w hw => by cases hw⟩
    unfold tokenAt
    rw [hget, hgt]
    simp only [if_neg hget']
    rfl
  | symbol ht =>
    refine ⟨q + 1, ?_, hlen, hnext, fun w hw => absurd (hw ▸ ht) (symbolToken_ne_word c w)⟩
    obtain ⟨hcode, hone⟩ := code_of_symbolToken ht
    unfold tokenAt
    rw [hget]
    simp only [if_neg hc0, if_pos hone, hcode]
  | word hw =>
    refine ⟨scan line isWord q, tokenAt_word hl hw hc0, scan_le _ hskip.le, ?_, ?_⟩
    · rw [drop_scan, hl, List.dropWhile_cons_of_pos hw]
    · intro w heq
      cases heq
      refine ⟨⟨⟨c, cs, hl, hw⟩, rfl⟩, ?_⟩
      unfold wordAt
      rw [hl, List.takeWhile_cons_of_pos hw]

/-! ## Which token is next -/

theorem starts_cons (h : t.first = some c) (huniq : ∀ t' : Token, t'.first = some c → t' = t) :
    starts [c] ts = true ↔ ∃ ts', ts = t :: ts' := by
  constructor
  · intro hs
    cases ts with
    | nil => cases hs
    | cons t' ts' =>
      refine ⟨ts', ?_⟩
      cases hf : t'.first with
      | none => simp [starts, hf] at hs
      | some d =>
        have hd : d = c := by simpa [starts, hf] using hs
        rw [huniq t' (hd ▸ hf)]
  · rintro ⟨ts', rfl⟩
    simp [starts, h]

theorem starts_amp : starts [AMP] ts = true ↔ ∃ ts', ts = .amp :: ts' :=
  starts_cons rfl fun t h => by cases t <;> first | rfl | exact absurd h (by simp [Token.first]; try decide)

theorem starts_semi : starts [SEMI] ts = true ↔ ∃ ts', ts = .semi :: ts' :=
  starts_cons rfl fun t h => by cases t <;> first | rfl | exact absurd h (by simp [Token.first]; try decide)

theorem starts_bar : starts [BAR] ts = true ↔ ∃ ts', ts = .bar :: ts' :=
  starts_cons rfl fun t h => by cases t <;> first | rfl | exact absurd h (by simp [Token.first]; try decide)

theorem starts_lparen : starts [LPAREN] ts = true ↔ ∃ ts', ts = .lparen :: ts' :=
  starts_cons rfl fun t h => by cases t <;> first | rfl | exact absurd h (by simp [Token.first]; try decide)

theorem starts_rparen : starts [RPAREN] ts = true ↔ ∃ ts', ts = .rparen :: ts' :=
  starts_cons rfl fun t h => by cases t <;> first | rfl | exact absurd h (by simp [Token.first]; try decide)

/-- A redirection is next. -/
theorem starts_redir : starts [LT, GT] ts = true ↔ ∃ t ts' mode fd, ts = t :: ts' ∧ RedirOp t mode fd := by
  constructor
  · intro h
    cases ts with
    | nil => cases h
    | cons t ts' =>
      cases t with
      | lt => exact ⟨_, ts', _, _, rfl, .read⟩
      | gt => exact ⟨_, ts', _, _, rfl, .write⟩
      | gtgt => exact ⟨_, ts', _, _, rfl, .append⟩
      | _ => cases h
  · rintro ⟨t, ts', mode, fd, rfl, hop⟩
    cases hop <;> rfl

theorem eq_word_of_code (h : t.code = WORD) : ∃ w, t = .word w := by
  cases t with
  | word w => exact ⟨w, rfl⟩
  | _ => exact absurd h (by decide)

theorem code_ne_zero (t : Token) : t.code ≠ 0 := by
  cases t with
  | word w => exact (by decide : WORD ≠ 0)
  | _ => decide

theorem redircmd_eq {mode fd : Nat} (h : RedirOp t mode fd) (c : Cmd Span) (w : Span) :
    redircmd t.code c w = .redir c w mode fd := by
  cases h <;> rfl

end Sh

end Xv6
