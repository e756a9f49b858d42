import Xv6.Sh.Lexer

/-!
# The parser accepts exactly the grammar

* `run_sound` — what a parsing function has consumed derives the tree it returns; it panics with one of the
  four messages otherwise, and the fuel suffices.
* `run_complete` — it does not panic on a derivation that is followed by a token that can follow.
* `nulterminate_words` — the NULs end each word and hit no other.
* `parsecmd_accepts_grammar` — the whole parser, and printing.
-/

namespace Xv6

open Prog

namespace Sh

variable {line : List UInt8} {s : Nat} {ts : List Token} {P : String → Prop} {H : Prop}

/-! ## Trees -/

/-- The tree with the words of the line. -/
def txt (line : List UInt8) : Cmd Span → Tree := Cmd.map fun w => wordAt line w.q

/-- All words satisfy `p`. -/
def Cmd.All {W : Type} (p : W → Prop) : Cmd W → Prop
  | .exec argv => ∀ w ∈ argv, p w
  | .redir cmd file _ _ => cmd.All p ∧ p file
  | .pipe left right => left.All p ∧ right.All p
  | .list left right => left.All p ∧ right.All p
  | .back cmd => cmd.All p

/-- A simple command, perhaps with redirections. -/
def Cmd.Simple {W : Type} : Cmd W → Prop
  | .exec _ => True
  | .redir cmd _ _ _ => cmd.Simple
  | _ => False

variable {rest : List Token} {t t' : Tree} {W W' : Type}

theorem Cmd.map_pushArg (f : W → W') (w : W) (c : Cmd W) : (c.pushArg w).map f = (c.map f).pushArg (f w) := by
  induction c with
  | exec argv => simp [Cmd.pushArg, Cmd.map]
  | redir c file mode fd ih => simp only [Cmd.pushArg, Cmd.map, ih]
  | pipe | list | back => rfl

theorem Cmd.argc_map (f : W → W') (c : Cmd W) : (c.map f).argc = c.argc := by
  induction c with
  | exec argv => exact List.length_map f
  | redir c file mode fd ih => exact ih
  | pipe | list | back => rfl

theorem Cmd.Simple.argc_pushArg {c : Cmd W} (h : c.Simple) (w : W) : (c.pushArg w).argc = c.argc + 1 := by
  induction c with
  | exec argv => simp [Cmd.pushArg, Cmd.argc]
  | redir c file mode fd ih => exact ih h
  | pipe | list | back => exact h.elim

theorem Redirs.argc_eq (h : Redirs ts t t') : t'.argc = t.argc := by
  induction h with
  | nil => rfl
  | cons _ _ ih => exact ih

theorem Cmd.argc_le_pushArg (c : Cmd W) (w : W) : c.argc ≤ (c.pushArg w).argc := by
  induction c with
  | exec argv => simp [Cmd.pushArg, Cmd.argc]
  | redir c file mode fd ih => exact ih
  | pipe | list | back => exact Nat.le_refl _

theorem Args.argc_le (h : Args ts t t') : t.argc ≤ t'.argc := by
  induction h with
  | nil => exact Nat.le_refl _
  | cons hr _ ih => exact (Cmd.argc_le_pushArg _ _).trans (hr.argc_eq ▸ ih)

theorem Cmd.simple_map (f : W → W') (c : Cmd W) : (c.map f).Simple ↔ c.Simple := by
  induction c with
  | exec argv | pipe | list | back => exact Iff.rfl
  | redir c file mode fd ih => exact ih

theorem Cmd.Simple.pushArg {c : Cmd W} (h : c.Simple) (w : W) : (c.pushArg w).Simple := by
  induction c with
  | exec argv => trivial
  | redir c file mode fd ih => exact ih h
  | pipe | list | back => exact h.elim

theorem Cmd.All.pushArg {p : W → Prop} {c : Cmd W} (h : c.All p) {w : W} (hw : p w) : (c.pushArg w).All p := by
  induction c with
  | exec argv =>
    intro x hx
    rcases List.mem_append.1 hx with hx | hx
    · exact h x hx
    · rw [List.mem_singleton.1 hx]
      exact hw
  | redir c file mode fd ih => exact ⟨ih h.1, h.2⟩
  | pipe | list | back => exact h

theorem txt_backs (k : Nat) (c : Cmd Span) : txt line (backs k c) = backs k (txt line c) := by
  induction k generalizing c with
  | zero => rfl
  | succ k ih => exact ih (.back c)

theorem Cmd.All.backs {p : W → Prop} {c : Cmd W} (h : c.All p) (k : Nat) : (Sh.backs k c).All p := by
  induction k generalizing c with
  | zero => exact h
  | succ k ih => exact ih (c := .back c) h

/-! ## Soundness -/

/-- The messages of a line that is not accepted. -/
def IsSyntax (m : String) : Prop :=
  m = "syntax" ∨ m = "syntax - missing )" ∨ m = "missing file for redirection" ∨ m = "too many args"

theorem parseredirs_sound (h0 : 0 ∉ line) : ∀ (n : Nat) {c : Cmd Span} {s : Nat} {ts : List Token},
    At line s ts → ts.length < n →
    wpm (parseredirs line n c) (fun c' s' => ∃ ts₁ ts₂, ts = ts₁ ++ ts₂ ∧ At line s' ts₂ ∧
      Redirs ts₁ (txt line c) (txt line c') ∧ (c.All (WordSpan line) → c'.All (WordSpan line)) ∧
      (c.Simple → c'.Simple ∧ c'.argc = c.argc)) IsSyntax False s
  | 0, _, _, _, _, hn => absurd hn (Nat.not_lt_zero _)
  | n + 1, c, s, ts, h, hn => by
    unfold parseredirs
    refine wpm_seq (peek_spec h h0 rfl) ?_
    rintro b s₁ ⟨rfl, h₁, -⟩
    split
    · rename_i hb
      obtain ⟨t, ts', mode, fd, rfl, hop⟩ := starts_redir.1 hb
      refine wpm_seq (gettoken_cons h₁ h0) ?_
      rintro tok s₂ ⟨hret, h₂, -⟩
      cases ts' with
      | nil =>
        refine wpm_seq (gettoken_nil h₂) ?_
        rintro file s₃ ⟨hfile, -⟩
        rw [hfile, if_pos (by decide)]
        exact Or.inr (Or.inr (Or.inl rfl))
      | cons k ts' =>
        refine wpm_seq (gettoken_cons h₂ h0) ?_
        rintro file s₃ ⟨hfile, h₃, hword⟩
        split
        · exact Or.inr (Or.inr (Or.inl rfl))
        · rename_i hcode
          rw [hfile, Decidable.not_not] at hcode
          obtain ⟨w, rfl⟩ := eq_word_of_code hcode
          obtain ⟨hspan, hw⟩ := hword w rfl
          rw [hret, redircmd_eq hop]
          simp only [List.length_cons] at hn
          refine wpm_mono (parseredirs_sound h0 n h₃ (by omega)) ?_
          rintro c' s' ⟨ts₁, ts₂, rfl, h', hredirs, hall, hsimple⟩
          refine ⟨t :: .word w :: ts₁, ts₂, rfl, h', .cons hop ?_, fun hc => hall ⟨hc, hspan⟩, hsimple⟩
          rw [← hw]
          exact hredirs
    · exact ⟨[], ts, rfl, h₁, .nil _, fun hc => hc, fun hc => ⟨hc, rfl⟩⟩

theorem argLoop_sound (h0 : 0 ∉ line) : ∀ (n : Nat) {c : Cmd Span} {s : Nat} {ts : List Token},
    At line s ts → ts.length < n → c.Simple → c.argc < MAXARGS →
    wpm (argLoop line n c.argc c) (fun c' s' => ∃ ts₁ ts₂, ts = ts₁ ++ ts₂ ∧ At line s' ts₂ ∧
      Args ts₁ (txt line c) (txt line c') ∧ c'.argc < MAXARGS ∧
      (c.All (WordSpan line) → c'.All (WordSpan line))) IsSyntax False s
  | 0, _, _, _, _, hn, _, _ => absurd hn (Nat.not_lt_zero _)
  | n + 1, c, s, ts, h, hn, hsimple, hargc => by
    unfold argLoop
    refine wpm_seq (peek_spec h h0 rfl) ?_
    rintro b s₁ ⟨rfl, h₁, -⟩
    have hstop : ∀ {s'}, At line s' ts → ∃ ts₁ ts₂, ts = ts₁ ++ ts₂ ∧ At line s' ts₂ ∧
        Args ts₁ (txt line c) (txt line c) ∧ c.argc < MAXARGS ∧ (c.All (WordSpan line) → c.All (WordSpan line)) :=
      fun h => ⟨[], ts, rfl, h, .nil _, hargc, fun hc => hc⟩
    split
    · exact hstop h₁
    · cases ts with
      | nil =>
        refine wpm_seq (gettoken_nil h₁) ?_
        rintro tok s₂ ⟨hret, h₂⟩
        rw [if_pos hret]
        exact hstop h₂
      | cons t ts' =>
        refine wpm_seq (gettoken_cons h₁ h0) ?_
        rintro tok s₂ ⟨hret, h₂, hword⟩
        rw [if_neg (by rw [hret]; exact code_ne_zero t)]
        split
        · exact Or.inl rfl
        · rename_i hcode
          rw [hret, Decidable.not_not] at hcode
          obtain ⟨w, rfl⟩ := eq_word_of_code hcode
          obtain ⟨hspan, hw⟩ := hword w rfl
          simp only [List.length_cons] at hn
          split
          · exact Or.inr (Or.inr (Or.inr rfl))
          · rename_i hmax
            refine wpm_seq (parseredirs_sound h0 n h₂ (by omega)) ?_
            rintro c₁ s₃ ⟨ts₁, ts₂, rfl, h₃, hredirs, hall, hs⟩
            obtain ⟨hsimple₁, hargc₁⟩ := hs (hsimple.pushArg _)
            rw [hsimple.argc_pushArg] at hargc₁
            rw [List.length_append] at hn
            rw [← hargc₁]
            refine wpm_mono (argLoop_sound h0 n h₃ (by omega) hsimple₁ (by omega)) ?_
            rintro c' s' ⟨ts₃, ts₄, rfl, h', hargs, hlt, hall'⟩
            have hpush : txt line (c.pushArg tok.span) = (txt line c).pushArg w := by
              rw [← hw]
              exact Cmd.map_pushArg _ _ _
            rw [hpush] at hredirs
            exact ⟨.word w :: ts₁ ++ ts₃, ts₄, by simp, h', .cons hredirs hargs, hlt,
              fun hc => hall' (hall (hc.pushArg hspan))⟩

theorem backLoop_sound (h0 : 0 ∉ line) : ∀ (n : Nat) {c : Cmd Span} {s : Nat} {ts : List Token},
    At line s ts → ts.length < n →
    wpm (backLoop line n c) (fun c' s' => ∃ k ts', ts = List.replicate k .amp ++ ts' ∧ At line s' ts' ∧
      c' = backs k c) IsSyntax False s
  | 0, _, _, _, _, hn => absurd hn (Nat.not_lt_zero _)
  | n + 1, c, s, ts, h, hn => by
    unfold backLoop
    refine wpm_seq (peek_spec h h0 rfl) ?_
    rintro b s₁ ⟨rfl, h₁, -⟩
    split
    · rename_i hb
      obtain ⟨ts', rfl⟩ := starts_amp.1 hb
      refine wpm_seq (gettoken_cons h₁ h0) ?_
      rintro tok s₂ ⟨-, h₂, -⟩
      simp only [List.length_cons] at hn
      refine wpm_mono (backLoop_sound h0 n h₂ (by omega)) ?_
      rintro c' s' ⟨k, ts'', rfl, h', rfl⟩
      exact ⟨k + 1, ts'', rfl, h', rfl⟩
    · exact ⟨0, ts, rfl, h₁, rfl⟩

/-- The function of the source for each nonterminal. -/
def run (line : List UInt8) : Nonterminal → Nat → Prog Nat (Cmd Span)
  | .line => parseline line
  | .pipe => parsepipe line
  | .exec => parseexec line

/-- `k` tokens need more fuel than this: four nested calls for each `(`. -/
def need : Nonterminal → Nat → Nat
  | .line, k => 4 * k + 3
  | .pipe, k => 4 * k + 2
  | .exec, k => 4 * k + 1

/-- What has been consumed derives the tree. -/
def Parsed (line : List UInt8) (nt : Nonterminal) (ts : List Token) (c : Cmd Span) (s : Nat) : Prop :=
  ∃ ts₁ ts₂, ts = ts₁ ++ ts₂ ∧ At line s ts₂ ∧ Derives nt ts₁ (txt line c) ∧ c.All (WordSpan line)

theorem run_sound (h0 : 0 ∉ line) (n : Nat) : ∀ (nt : Nonterminal) {s : Nat} {ts : List Token}, At line s ts →
    need nt ts.length < n → wpm (run line nt n) (Parsed line nt ts) IsSyntax False s := by
  induction n using Nat.strong_induction_on with
  | _ n ih =>
  intro nt s ts h hn
  cases n with
  | zero => exact absurd hn (Nat.not_lt_zero _)
  | succ n =>
  cases nt with
  | line =>
    simp only [need] at hn
    show wpm (parseline line (n + 1)) _ _ _ _
    unfold parseline
    refine wpm_seq (ih n (Nat.lt_succ_self n) .pipe h (by simp only [need]; omega)) ?_
    rintro c s₁ ⟨ts₁, ts₂, rfl, h₁, hd₁, hall₁⟩
    rw [List.length_append] at hn
    refine wpm_seq (backLoop_sound h0 n h₁ (by omega)) ?_
    rintro _ s₂ ⟨k, ts₃, rfl, h₂, rfl⟩
    refine wpm_seq (peek_spec h₂ h0 rfl) ?_
    rintro b s₃ ⟨rfl, h₃, -⟩
    split
    · rename_i hb
      obtain ⟨ts', rfl⟩ := starts_semi.1 hb
      refine wpm_seq (gettoken_cons h₃ h0) ?_
      rintro tok s₄ ⟨-, h₄, -⟩
      simp only [List.length_append, List.length_cons] at hn
      refine wpm_seq (ih n (Nat.lt_succ_self n) .line h₄ (by simp only [need]; omega)) ?_
      rintro c' s' ⟨ts₄, ts₅, rfl, h', hd', hall'⟩
      refine ⟨ts₁ ++ List.replicate k .amp ++ .semi :: ts₄, ts₅, by simp, h', ?_, hall₁.backs k, hall'⟩
      have hlist : txt line (.list (backs k c) c') = .list (backs k (txt line c)) (txt line c') := by
        rw [← txt_backs]
        rfl
      rw [hlist]
      exact .list k hd₁ hd'
    · refine ⟨ts₁ ++ List.replicate k .amp, ts₃, by simp, h₃, ?_, hall₁.backs k⟩
      rw [txt_backs]
      exact .line k hd₁
  | pipe =>
    simp only [need] at hn
    show wpm (parsepipe line (n + 1)) _ _ _ _
    unfold parsepipe
    refine wpm_seq (ih n (Nat.lt_succ_self n) .exec h (by simp only [need]; omega)) ?_
    rintro c s₁ ⟨ts₁, ts₂, rfl, h₁, hd₁, hall₁⟩
    rw [List.length_append] at hn
    refine wpm_seq (peek_spec h₁ h0 rfl) ?_
    rintro b s₂ ⟨rfl, h₂, -⟩
    split
    · rename_i hb
      obtain ⟨ts', rfl⟩ := starts_bar.1 hb
      refine wpm_seq (gettoken_cons h₂ h0) ?_
      rintro tok s₃ ⟨-, h₃, -⟩
      simp only [List.length_cons] at hn
      refine wpm_seq (ih n (Nat.lt_succ_self n) .pipe h₃ (by simp only [need]; omega)) ?_
      rintro c' s' ⟨ts₄, ts₅, rfl, h', hd', hall'⟩
      exact ⟨ts₁ ++ .bar :: ts₄, ts₅, by simp, h', .pipe hd₁ hd', hall₁, hall'⟩
    · exact ⟨ts₁, ts₂, rfl, h₂, .exec hd₁, hall₁⟩
  | exec =>
    simp only [need] at hn
    show wpm (parseexec line (n + 1)) _ _ _ _
    unfold parseexec
    refine wpm_seq (peek_spec h h0 rfl) ?_
    rintro b s₁ ⟨rfl, h₁, -⟩
    split
    · rename_i hb
      cases n with
      | zero => omega
      | succ n =>
      unfold parseblock
      refine wpm_seq (peek_spec h₁ h0 rfl) ?_
      rintro b s₂ ⟨rfl, h₂, -⟩
      rw [hb]
      obtain ⟨ts', rfl⟩ := starts_lparen.1 hb
      rw [if_neg (by decide)]
      refine wpm_seq (gettoken_cons h₂ h0) ?_
      rintro tok s₃ ⟨-, h₃, -⟩
      simp only [List.length_cons] at hn
      refine wpm_seq (ih n (by omega) .line h₃ (by simp only [need]; omega)) ?_
      rintro c s₄ ⟨ts₁, ts₂, rfl, h₄, hd, hall⟩
      refine wpm_seq (peek_spec h₄ h0 rfl) ?_
      rintro b s₅ ⟨rfl, h₅, -⟩
      split
      · exact Or.inr (Or.inl rfl)
      · rename_i hb'
        obtain ⟨ts₃, rfl⟩ := starts_rparen.1 (by simpa using hb')
        refine wpm_seq (gettoken_cons h₅ h0) ?_
        rintro tok s₆ ⟨-, h₆, -⟩
        simp only [List.length_append, List.length_cons] at hn
        refine wpm_mono (parseredirs_sound h0 n h₆ (by omega)) ?_
        rintro c' s' ⟨ts₄, ts₅, rfl, h', hredirs, hall', -⟩
        exact ⟨.lparen :: ts₁ ++ .rparen :: ts₄, ts₅, by simp, h', .block hd hredirs, hall' hall⟩
    · refine wpm_seq (parseredirs_sound h0 n h₁ (by omega)) ?_
      rintro c s₂ ⟨ts₁, ts₂, rfl, h₂, hredirs, hall, hs⟩
      obtain ⟨hsimple, hargc⟩ := hs trivial
      rw [List.length_append] at hn
      have hzero : c.argc = 0 := hargc
      have hargs := argLoop_sound h0 n h₂ (by omega) hsimple (by rw [hzero]; decide)
      rw [hzero] at hargs
      refine wpm_mono hargs ?_
      rintro c' s' ⟨ts₃, ts₄, rfl, h', ha, hlt, hall'⟩
      refine ⟨ts₁ ++ ts₃, ts₄, by simp, h', .simple hredirs ha ?_, hall' (hall (by simp [Cmd.All]))⟩
      unfold txt
      rw [Cmd.argc_map]
      exact hlt

/-! ## Completeness -/

/-- The tokens that can follow a nonterminal. -/
def Follow : Nonterminal → List Token → Prop
  | _, [] => True
  | .line, t :: _ => t = .rparen
  | .pipe, t :: _ => t = .rparen ∨ t = .semi ∨ t = .amp
  | .exec, t :: _ => t = .rparen ∨ t = .semi ∨ t = .amp ∨ t = .bar

theorem Follow.not_redir (h : Follow .exec rest) : starts [LT, GT] rest = false := by
  cases rest with
  | nil => rfl
  | cons k rest => rcases h with rfl | rfl | rfl | rfl <;> rfl

theorem Follow.pipe (h : Follow .line rest) : Follow .pipe rest := by
  cases rest with
  | nil => trivial
  | cons k rest => exact Or.inl h

theorem Follow.exec (h : Follow .pipe rest) : Follow .exec rest := by
  cases rest with
  | nil => trivial
  | cons k rest => exact h.imp_right (Or.imp_right Or.inl)

theorem Follow.amps (h : Follow .pipe rest) (k : Nat) : Follow .pipe (List.replicate k .amp ++ rest) := by
  cases k with
  | zero => exact h
  | succ k => exact Or.inr (Or.inr rfl)

theorem Follow.not_amp (h : Follow .line rest) : starts [AMP] rest = false := by
  cases rest with
  | nil => rfl
  | cons k rest => cases h; rfl

theorem Follow.not_semi (h : Follow .line rest) : starts [SEMI] rest = false := by
  cases rest with
  | nil => rfl
  | cons k rest => cases h; rfl

theorem Follow.not_bar (h : Follow .pipe rest) : starts [BAR] rest = false := by
  cases rest with
  | nil => rfl
  | cons k rest => rcases h with rfl | rfl | rfl <;> rfl

theorem Follow.not_lparen (h : Follow .exec rest) : starts [LPAREN] rest = false := by
  cases rest with
  | nil => rfl
  | cons k rest => rcases h with rfl | rfl | rfl | rfl <;> rfl

/-- After a redirection of a simple command there is a word, or the command ends. -/
theorem Args.not_redir (h : Args ts t t') (hrest : Follow .exec rest) : starts [LT, GT] (ts ++ rest) = false := by
  cases h with
  | nil => exact hrest.not_redir
  | cons => rfl

theorem parseredirs_complete (h0 : 0 ∉ line) (hr : Redirs ts t t') :
    ∀ {n : Nat} {c : Cmd Span} {s : Nat} {rest : List Token}, At line s (ts ++ rest) → txt line c = t →
    starts [LT, GT] rest = false → (ts ++ rest).length < n →
    wpm (parseredirs line n c) (fun c' s' => At line s' rest ∧ txt line c' = t') (fun _ => False) False s := by
  induction hr with
  | nil t =>
    intro n c s rest h hc hrest hn
    cases n with
    | zero => exact absurd hn (Nat.not_lt_zero _)
    | succ n =>
    unfold parseredirs
    refine wpm_seq (peek_spec h h0 rfl) ?_
    rintro b s₁ ⟨rfl, h₁, -⟩
    rw [List.nil_append] at h₁ ⊢
    rw [hrest, if_neg Bool.false_ne_true]
    exact ⟨h₁, hc⟩
  | @cons k mode fd w ts t t' hop _ ih =>
    intro n c s rest h hc hrest hn
    cases n with
    | zero => exact absurd hn (Nat.not_lt_zero _)
    | succ n =>
    unfold parseredirs
    refine wpm_seq (peek_spec h h0 rfl) ?_
    rintro b s₁ ⟨rfl, h₁, -⟩
    have hb : starts [LT, GT] (k :: .word w :: ts ++ rest) = true := starts_redir.2 ⟨k, _, mode, fd, rfl, hop⟩
    rw [hb, if_pos rfl]
    refine wpm_seq (gettoken_cons h₁ h0) ?_
    rintro tok s₂ ⟨hret, h₂, -⟩
    refine wpm_seq (gettoken_cons h₂ h0) ?_
    rintro file s₃ ⟨hfile, h₃, hword⟩
    rw [if_neg (by rw [hfile]; simp [Token.code]), hret, redircmd_eq hop]
    simp only [List.cons_append, List.length_cons] at hn
    refine ih h₃ ?_ hrest (by omega)
    have hw := (hword w rfl).2
    show Cmd.redir (txt line c) (wordAt line file.span.q) mode fd = _
    rw [hc, hw]

theorem argLoop_complete (h0 : 0 ∉ line) (ha : Args ts t t') :
    ∀ {n : Nat} {c : Cmd Span} {s : Nat} {rest : List Token}, At line s (ts ++ rest) → txt line c = t →
    c.Simple → t'.argc < MAXARGS → Follow .exec rest → (ts ++ rest).length < n →
    wpm (argLoop line n c.argc c) (fun c' s' => At line s' rest ∧ txt line c' = t') (fun _ => False) False s := by
  induction ha with
  | nil t =>
    intro n c s rest h hc _ _ hfollow hn
    cases n with
    | zero => exact absurd hn (Nat.not_lt_zero _)
    | succ n =>
    unfold argLoop
    refine wpm_seq (peek_spec h h0 rfl) ?_
    rintro b s₁ ⟨rfl, h₁, -⟩
    rw [List.nil_append] at h₁ ⊢
    cases rest with
    | nil =>
      rw [if_neg (by decide)]
      refine wpm_seq (gettoken_nil h₁) ?_
      rintro tok s₂ ⟨hret, h₂⟩
      rw [if_pos hret]
      exact ⟨h₂, hc⟩
    | cons k rest =>
      have hstop : starts [BAR, RPAREN, AMP, SEMI] (k :: rest) = true := by
        rcases hfollow with rfl | rfl | rfl | rfl <;> rfl
      rw [hstop, if_pos rfl]
      exact ⟨h₁, hc⟩
  | @cons w ts ts' t t₁ t' hr ha ih =>
    intro n c s rest h hc hsimple hargc hfollow hn
    cases n with
    | zero => exact absurd hn (Nat.not_lt_zero _)
    | succ n =>
    unfold argLoop
    refine wpm_seq (peek_spec h h0 rfl) ?_
    rintro b s₁ ⟨rfl, h₁, -⟩
    have hb : starts [BAR, RPAREN, AMP, SEMI] (.word w :: ts ++ ts' ++ rest) = false := rfl
    rw [hb, if_neg Bool.false_ne_true]
    refine wpm_seq (gettoken_cons h₁ h0) ?_
    rintro tok s₂ ⟨hret, h₂, hword⟩
    have hw := (hword w rfl).2
    have hpush : txt line (c.pushArg tok.span) = t.pushArg w := by
      rw [← hw, ← hc]
      exact Cmd.map_pushArg _ _ _
    -- the words that are still to come only add to `argc`
    have hlt : c.argc + 1 < MAXARGS := by
      have hle := hr.argc_eq ▸ ha.argc_le
      rw [← hpush, txt, Cmd.argc_map, hsimple.argc_pushArg] at hle
      omega
    rw [hret, if_neg (code_ne_zero _), if_neg (by simp [Token.code]), if_neg (by omega)]
    simp only [List.cons_append, List.length_cons, List.append_assoc] at hn
    have h₂' : At line s₂ (ts ++ (ts' ++ rest)) := by
      rw [← List.append_assoc]
      exact h₂
    have hstop : starts [LT, GT] (ts' ++ rest) = false := ha.not_redir hfollow
    refine wpm_seq (parseredirs_complete h0 hr h₂' hpush hstop (by omega)) ?_
    rintro c₁ s₃ ⟨h₃, hc₁⟩
    have hsimple₁ : c₁.Simple := by
      have hpushed : (txt line (c.pushArg tok.span)).Simple := (Cmd.simple_map _ _).2 (hsimple.pushArg _)
      rw [hpush] at hpushed
      have := hr.keeps (P := Cmd.Simple) (fun h _ _ => h) hpushed
      rw [← hc₁] at this
      exact (Cmd.simple_map _ _).1 this
    have hargc₁ : c₁.argc = c.argc + 1 := by
      have := hr.argc_eq
      rw [← hc₁, ← hpush, txt, Cmd.argc_map, Cmd.argc_map, hsimple.argc_pushArg] at this
      exact this
    rw [← hargc₁]
    rw [List.length_append] at hn
    exact ih h₃ hc₁ hsimple₁ hargc hfollow (by omega)

theorem backLoop_complete (h0 : 0 ∉ line) (hrest : starts [AMP] rest = false) :
    ∀ (k : Nat) {n : Nat} {c : Cmd Span} {s : Nat}, At line s (List.replicate k .amp ++ rest) →
    k + rest.length < n →
    wpm (backLoop line n c) (fun c' s' => At line s' rest ∧ c' = backs k c) (fun _ => False) False s
  | _, 0, _, _, _, hn => absurd hn (Nat.not_lt_zero _)
  | 0, n + 1, c, s, h, hn => by
    unfold backLoop
    refine wpm_seq (peek_spec h h0 rfl) ?_
    rintro b s₁ ⟨rfl, h₁, -⟩
    rw [List.replicate_zero, List.nil_append] at h₁ ⊢
    rw [hrest, if_neg Bool.false_ne_true]
    exact ⟨h₁, rfl⟩
  | k + 1, n + 1, c, s, h, hn => by
    unfold backLoop
    refine wpm_seq (peek_spec h h0 rfl) ?_
    rintro b s₁ ⟨rfl, h₁, -⟩
    have hb : starts [AMP] (List.replicate (k + 1) .amp ++ rest) = true :=
      starts_amp.2 ⟨List.replicate k .amp ++ rest, rfl⟩
    rw [hb, if_pos rfl]
    refine wpm_seq (gettoken_cons h₁ h0) ?_
    rintro tok s₂ ⟨-, h₂, -⟩
    exact backLoop_complete h0 hrest k h₂ (by omega)

/-- **Completeness.** -/
theorem run_complete (h0 : 0 ∉ line) {nt : Nonterminal} (hd : Derives nt ts t) :
    ∀ {n s : Nat} {rest : List Token}, At line s (ts ++ rest) → Follow nt rest →
    need nt (ts ++ rest).length < n →
    wpm (run line nt n) (fun c s' => At line s' rest ∧ txt line c = t) (fun _ => False) False s := by
  induction hd with
  | @line ts t k _ ih =>
    intro n s rest h hfollow hn
    simp only [need, List.append_assoc] at h hn
    cases n with
    | zero => exact absurd hn (Nat.not_lt_zero _)
    | succ n =>
    show wpm (parseline line (n + 1)) _ _ _ _
    unfold parseline
    refine wpm_seq (ih h (hfollow.pipe.amps k) (by simp only [need]; omega)) ?_
    rintro c s₁ ⟨h₁, rfl⟩
    simp only [List.length_append, List.length_replicate] at hn
    refine wpm_seq (backLoop_complete h0 hfollow.not_amp k h₁ (by omega)) ?_
    rintro _ s₂ ⟨h₂, rfl⟩
    refine wpm_seq (peek_spec h₂ h0 rfl) ?_
    rintro b s₃ ⟨rfl, h₃, -⟩
    rw [hfollow.not_semi, if_neg Bool.false_ne_true]
    exact ⟨h₃, txt_backs k c⟩
  | @list ts ts' t t' k _ _ ih ih' =>
    intro n s rest h hfollow hn
    simp only [need, List.append_assoc, List.cons_append] at h hn
    cases n with
    | zero => exact absurd hn (Nat.not_lt_zero _)
    | succ n =>
    show wpm (parseline line (n + 1)) _ _ _ _
    unfold parseline
    have hsemi : Follow .pipe (.semi :: (ts' ++ rest)) := Or.inr (Or.inl rfl)
    refine wpm_seq (ih h (hsemi.amps k) (by simp only [need]; omega)) ?_
    rintro c s₁ ⟨h₁, rfl⟩
    simp only [List.length_append, List.length_replicate, List.length_cons] at hn
    refine wpm_seq (backLoop_complete h0 rfl k h₁ (by simp only [List.length_append, List.length_cons]; omega)) ?_
    rintro _ s₂ ⟨h₂, rfl⟩
    refine wpm_seq (peek_spec h₂ h0 rfl) ?_
    rintro b s₃ ⟨rfl, h₃, -⟩
    rw [starts_semi.2 ⟨_, rfl⟩, if_pos rfl]
    refine wpm_seq (gettoken_cons h₃ h0) ?_
    rintro tok s₄ ⟨-, h₄, -⟩
    refine wpm_seq (ih' (n := n) h₄ hfollow (by simp only [need, List.length_append]; omega)) ?_
    rintro c' s' ⟨h', rfl⟩
    refine ⟨h', ?_⟩
    rw [← txt_backs]
    rfl
  | @exec ts t _ ih =>
    intro n s rest h hfollow hn
    simp only [need] at hn
    cases n with
    | zero => exact absurd hn (Nat.not_lt_zero _)
    | succ n =>
    show wpm (parsepipe line (n + 1)) _ _ _ _
    unfold parsepipe
    refine wpm_seq (ih h hfollow.exec (by simp only [need]; omega)) ?_
    rintro c s₁ ⟨h₁, rfl⟩
    refine wpm_seq (peek_spec h₁ h0 rfl) ?_
    rintro b s₂ ⟨rfl, h₂, -⟩
    rw [hfollow.not_bar, if_neg Bool.false_ne_true]
    exact ⟨h₂, rfl⟩
  | @pipe ts ts' t t' _ _ ih ih' =>
    intro n s rest h hfollow hn
    simp only [need, List.append_assoc, List.cons_append] at h hn
    cases n with
    | zero => exact absurd hn (Nat.not_lt_zero _)
    | succ n =>
    show wpm (parsepipe line (n + 1)) _ _ _ _
    unfold parsepipe
    refine wpm_seq (ih h (Or.inr (Or.inr (Or.inr rfl))) (by simp only [need]; omega)) ?_
    rintro c s₁ ⟨h₁, rfl⟩
    refine wpm_seq (peek_spec h₁ h0 rfl) ?_
    rintro b s₂ ⟨rfl, h₂, -⟩
    rw [starts_bar.2 ⟨_, rfl⟩, if_pos rfl]
    refine wpm_seq (gettoken_cons h₂ h0) ?_
    rintro tok s₃ ⟨-, h₃, -⟩
    simp only [List.length_append, List.length_cons] at hn
    refine wpm_seq (ih' (n := n) h₃ hfollow (by simp only [need, List.length_append]; omega)) ?_
    rintro c' s' ⟨h', rfl⟩
    exact ⟨h', rfl⟩
  | @block ts ts' t t' _ hr ih =>
    intro n s rest h hfollow hn
    simp only [need, List.append_assoc, List.cons_append, List.length_cons] at h hn
    cases n with
    | zero => exact absurd hn (Nat.not_lt_zero _)
    | succ n =>
    cases n with
    | zero => omega
    | succ n =>
    show wpm (parseexec line (n + 2)) _ _ _ _
    unfold parseexec
    refine wpm_seq (peek_spec h h0 rfl) ?_
    rintro b s₁ ⟨rfl, h₁, -⟩
    rw [starts_lparen.2 ⟨_, rfl⟩, if_pos rfl]
    unfold parseblock
    refine wpm_seq (peek_spec h₁ h0 rfl) ?_
    rintro b s₂ ⟨rfl, h₂, -⟩
    rw [starts_lparen.2 ⟨_, rfl⟩, if_neg (by decide)]
    refine wpm_seq (gettoken_cons h₂ h0) ?_
    rintro tok s₃ ⟨-, h₃, -⟩
    refine wpm_seq (ih (n := n) h₃ rfl (by simp only [need]; omega)) ?_
    rintro c s₄ ⟨h₄, hc⟩
    refine wpm_seq (peek_spec h₄ h0 rfl) ?_
    rintro b s₅ ⟨rfl, h₅, -⟩
    rw [starts_rparen.2 ⟨_, rfl⟩, if_neg (by decide)]
    refine wpm_seq (gettoken_cons h₅ h0) ?_
    rintro tok s₆ ⟨-, h₆, -⟩
    simp only [List.length_append, List.length_cons] at hn
    exact parseredirs_complete h0 hr h₆ hc hfollow.not_redir (by rw [List.length_append]; omega)
  | @simple ts ts' t t' hr ha hargc =>
    intro n s rest h hfollow hn
    simp only [need, List.append_assoc] at h hn
    cases n with
    | zero => exact absurd hn (Nat.not_lt_zero _)
    | succ n =>
    show wpm (parseexec line (n + 1)) _ _ _ _
    unfold parseexec
    refine wpm_seq (peek_spec h h0 rfl) ?_
    rintro b s₁ ⟨rfl, h₁, -⟩
    have hb : starts [LPAREN] (ts ++ (ts' ++ rest)) = false := by
      cases hr with
      | nil => cases ha with
        | nil => exact hfollow.not_lparen
        | cons => rfl
      | cons hop => cases hop <;> rfl
    rw [hb, if_neg Bool.false_ne_true]
    refine wpm_seq (parseredirs_complete (c := .exec []) h0 hr h₁ rfl (ha.not_redir hfollow) (by omega)) ?_
    rintro c s₂ ⟨h₂, rfl⟩
    have hsimple : c.Simple := (Cmd.simple_map _ _).1 (hr.keeps (P := Cmd.Simple) (fun h _ _ => h) trivial)
    have hzero : c.argc = 0 := by
      have := hr.argc_eq
      rw [txt, Cmd.argc_map] at this
      exact this
    rw [List.length_append] at hn
    have hargs := argLoop_complete (n := n) h0 ha h₂ rfl hsimple hargc hfollow (by omega)
    rwa [hzero] at hargs

/-! ## The NULs -/

/-- Where `nulterminate` writes. -/
def Cmd.ends : Cmd Span → List Nat
  | .exec argv => argv.map (·.eq)
  | .redir cmd file _ _ => cmd.ends ++ [file.eq]
  | .pipe left right => left.ends ++ right.ends
  | .list left right => left.ends ++ right.ends
  | .back cmd => cmd.ends

/-- The byte at `i` once the positions `E` have been cleared. -/
def cleared (E : List Nat) (buf : List UInt8) (i : Nat) : Option UInt8 :=
  if i ∈ E then buf[i]?.map fun _ => 0 else buf[i]?

theorem cleared_append (E E' : List Nat) (buf buf' : List UInt8) (i : Nat) (h : buf'[i]? = cleared E buf i) :
    cleared E' buf' i = cleared (E ++ E') buf i := by
  unfold cleared at *
  rw [h]
  by_cases h1 : i ∈ E
  · by_cases h2 : i ∈ E'
    · simp only [h1, h2, if_pos, List.mem_append, true_or, Option.map_map]
      rfl
    · simp [h1, h2]
  · simp [h1]

theorem set_get (buf : List UInt8) (e i : Nat) : (buf.set e 0)[i]? = cleared [e] buf i := by
  unfold cleared
  rw [List.getElem?_set]
  by_cases h : e = i
  · subst h
    by_cases hlt : e < buf.length
    · simp [hlt]
    · simp [hlt]
  · have hne : ¬ i = e := fun h' => h h'.symm
    simp [h, hne]

theorem nulterminate_get (c : Cmd Span) (buf : List UInt8) (i : Nat) :
    (nulterminate c buf)[i]? = cleared c.ends buf i := by
  induction c generalizing buf with
  | exec argv =>
    show (argv.foldl (fun buf w => buf.set w.eq 0) buf)[i]? = cleared (argv.map (·.eq)) buf i
    induction argv generalizing buf with
    | nil => rfl
    | cons w ws ih =>
      rw [List.foldl_cons, ih, cleared_append [w.eq] _ _ _ _ (set_get buf w.eq i)]
      rfl
  | redir c file mode fd ih =>
    show ((nulterminate c buf).set file.eq 0)[i]? = _
    rw [set_get, cleared_append _ _ _ _ _ (ih buf)]
    rfl
  | pipe l r ihl ihr | list l r ihl ihr =>
    show (nulterminate r (nulterminate l buf))[i]? = _
    rw [ihr, cleared_append _ _ _ _ _ (ihl buf)]
    rfl
  | back c ih => exact ih buf

theorem cstring_eq {buf w : List UInt8} {q : Nat} (hw : 0 ∉ w) (h : ∀ i, i < w.length → buf[q + i]? = w[i]?)
    (hend : buf[q + w.length]? = some 0) : cstring buf q = w := by
  have htake : (buf.drop q).take w.length = w := by
    refine List.ext_getElem? fun i => ?_
    rw [List.getElem?_take]
    split
    · rename_i hi
      rw [List.getElem?_drop, h i hi]
    · rename_i hi
      rw [List.getElem?_eq_none (by omega)]
  have hdrop : ∃ rest, (buf.drop q).drop w.length = 0 :: rest := by
    have hhead : ((buf.drop q).drop w.length).head? = some 0 := by
      rw [List.head?_drop, List.getElem?_drop]
      exact hend
    exact ⟨_, List.eq_cons_of_mem_head? hhead⟩
  obtain ⟨rest, hrest⟩ := hdrop
  unfold cstring
  rw [← List.take_append_drop w.length (buf.drop q), htake, hrest, List.takeWhile_append_of_pos, List.takeWhile_cons_of_neg,
    List.append_nil]
  · simp
  · intro c hc
    have hne : c ≠ 0 := fun h0 => hw (h0 ▸ hc)
    simpa using hne

/-- The byte after a word does not go on the word. -/
theorem WordSpan.after {w : Span} (h : WordSpan line w) {c : UInt8} (hc : (line.drop w.eq).head? = some c) :
    isWord c = false := by
  rw [h.last, drop_scan] at hc
  have hnot := List.head?_dropWhile_not isWord (line.drop w.q)
  rw [hc] at hnot
  simpa using hnot

theorem WordSpan.eq_le {w : Span} (h : WordSpan line w) : w.eq ≤ line.length := by
  obtain ⟨b, bs, hl, -⟩ := h.first
  have hq : w.q ≤ line.length := by
    by_contra hc
    rw [List.drop_eq_nil_of_le (by omega)] at hl
    cases hl
  rw [h.last]
  exact scan_le _ hq

theorem WordSpan.length {w : Span} (h : WordSpan line w) : w.eq = w.q + (wordAt line w.q).length := h.last

/-- A property of the ends of all words. -/
theorem Cmd.All.ends {p : Nat → Prop} {c : Cmd Span} (h : c.All fun w => p w.eq) : ∀ e ∈ c.ends, p e := by
  induction c with
  | exec argv =>
    intro e he
    obtain ⟨w, hw, rfl⟩ := List.mem_map.1 he
    exact h w hw
  | redir c file mode fd ih =>
    intro e he
    rcases List.mem_append.1 he with he | he
    · exact ih h.1 e he
    · rw [List.mem_singleton.1 he]
      exact h.2
  | pipe l r ihl ihr | list l r ihl ihr =>
    intro e he
    rcases List.mem_append.1 he with he | he
    · exact ihl h.1 e he
    · exact ihr h.2 e he
  | back c ih => exact ih h

theorem Cmd.All.mono {p p' : W → Prop} {c : Cmd W} (h : c.All p) (hp : ∀ w, p w → p' w) : c.All p' := by
  induction c with
  | exec argv => exact fun w hw => hp w (h w hw)
  | redir c file mode fd ih => exact ⟨ih h.1, hp _ h.2⟩
  | pipe l r ihl ihr | list l r ihl ihr => exact ⟨ihl h.1, ihr h.2⟩
  | back c ih => exact ih h

/-- Every word ends where `nulterminate` writes. -/
theorem Cmd.all_ends (c : Cmd Span) {E : List Nat} (hE : c.ends ⊆ E) : c.All fun w => w.eq ∈ E := by
  induction c with
  | exec argv => exact fun w hw => hE (List.mem_map.2 ⟨w, hw, rfl⟩)
  | redir c file mode fd ih =>
    exact ⟨ih fun e he => hE (List.mem_append.2 (Or.inl he)), hE (List.mem_append.2 (Or.inr List.mem_cons_self))⟩
  | pipe l r ihl ihr | list l r ihl ihr =>
    exact ⟨ihl fun e he => hE (List.mem_append.2 (Or.inl he)), ihr fun e he => hE (List.mem_append.2 (Or.inr he))⟩
  | back c ih => exact ih hE

theorem Cmd.All.and {p p' : W → Prop} {c : Cmd W} (h : c.All p) (h' : c.All p') : c.All fun w => p w ∧ p' w := by
  induction c with
  | exec argv => exact fun w hw => ⟨h w hw, h' w hw⟩
  | redir c file mode fd ih => exact ⟨ih h.1 h'.1, h.2, h'.2⟩
  | pipe l r ihl ihr | list l r ihl ihr => exact ⟨ihl h.1 h'.1, ihr h.2 h'.2⟩
  | back c ih => exact ih h h'

theorem Cmd.All.map_congr {f g : W → W'} {c : Cmd W} (h : c.All fun w => f w = g w) : c.map f = c.map g := by
  induction c with
  | exec argv => exact congrArg Cmd.exec (List.map_congr_left h)
  | redir c file mode fd ih =>
    have h2 : f file = g file := h.2
    simp only [Cmd.map, ih h.1, h2]
  | pipe l r ihl ihr | list l r ihl ihr => simp only [Cmd.map, ihl h.1, ihr h.2]
  | back c ih => exact congrArg Cmd.back (ih h)

/-- **The strings of the tree** are the words of the line. -/
theorem nulterminate_words (h0 : 0 ∉ line) {c : Cmd Span} (h : c.All (WordSpan line)) :
    c.map (fun w => cstring (nulterminate c (line ++ [0])) w.q) = txt line c := by
  have hends : ∀ e ∈ c.ends, e ≤ line.length ∧ ∀ b, (line.drop e).head? = some b → isWord b = false :=
    Cmd.All.ends (h.mono fun w hw => ⟨hw.eq_le, fun b => hw.after⟩)
  refine Cmd.All.map_congr ((h.and (Cmd.all_ends c fun _ he => he)).mono ?_)
  rintro w ⟨hw, he⟩
  have hlen := hw.length
  have hpre : wordAt line w.q <+: line.drop w.q := List.takeWhile_prefix _
  have hbytes : ∀ i, i < (wordAt line w.q).length → (line.drop w.q)[i]? = (wordAt line w.q)[i]? := by
    intro i hi
    obtain ⟨rest, hrest⟩ := hpre
    rw [← hrest, List.getElem?_append_left hi]
  have hget : ∀ i, i < (wordAt line w.q).length → (line ++ [0])[w.q + i]? = (wordAt line w.q)[i]? := by
    intro i hi
    have hline := hbytes i hi
    rw [List.getElem?_drop] at hline
    have hlt : w.q + i < line.length := by
      by_contra hc
      rw [List.getElem?_eq_none (by omega), List.getElem?_eq_getElem hi] at hline
      cases hline
    rw [List.getElem?_append_left hlt, hline]
  refine cstring_eq ?_ (fun i hi => ?_) ?_
  · exact fun hmem => h0 (List.mem_of_mem_drop (hpre.subset hmem))
  · -- a byte of a word is not the end of a word
    rw [nulterminate_get, cleared, if_neg, hget i hi]
    intro hmem
    obtain ⟨-, hend⟩ := hends _ hmem
    have hbyte : (line.drop (w.q + i)).head? = some ((wordAt line w.q)[i]) := by
      rw [List.head?_drop, ← List.getElem?_drop, hbytes i hi]
      exact List.getElem?_eq_getElem hi
    have hword : isWord ((wordAt line w.q)[i]) = true := List.mem_takeWhile_imp (List.getElem_mem hi)
    rw [hend _ hbyte] at hword
    cases hword
  · rw [← hlen, nulterminate_get, cleared, if_pos he]
    have hle := (hends _ he).1
    have hsome : ∃ b, (line ++ [0])[w.eq]? = some b :=
      ⟨_, List.getElem?_eq_getElem (by rw [List.length_append, List.length_singleton]; omega)⟩
    obtain ⟨b, hb⟩ := hsome
    rw [hb]
    rfl

/-! ## The whole parser -/

/-- `parsecmd` returns the tree `t`, with the strings that its pointers point to. -/
def Parses (line : List UInt8) (fuel s₀ : Nat) (t : Tree) : Prop :=
  ∃ cmd buf s', parsecmd line fuel s₀ = .ok (cmd, buf) s' ∧ cmd.map (fun w => cstring buf w.q) = t

theorem at_start (line : List UInt8) : At line 0 (lex line) := ⟨Nat.zero_le _, rfl⟩

theorem parsecmd_sound (h0 : 0 ∉ line) {fuel : Nat} (hf : 4 * line.length + 3 < fuel) (s₀ : Nat) :
    wpm (parsecmd line fuel) (fun r _ => Derives .line (lex line) (r.1.map fun w => cstring r.2 w.q) ∧
      r.1.All (WordSpan line) ∧ r.2 = nulterminate r.1 (line ++ [0])) IsSyntax False s₀ := by
  have hlen := lex_length line
  unfold parsecmd
  rw [wpm_bind, wpm_modify]
  refine wpm_seq (run_sound h0 fuel .line (at_start line) (by simp only [need]; omega)) ?_
  rintro c s₁ ⟨ts₁, ts₂, hts, h₁, hd, hall⟩
  refine wpm_seq (peek_spec h₁ h0 rfl) ?_
  rintro b s₂ ⟨-, -, hend⟩
  rw [wpm_bind, wpm_get]
  split
  · exact Or.inl rfl
  · rename_i hs
    obtain rfl := hend.1 (Decidable.not_not.1 hs)
    rw [List.append_nil] at hts
    rw [wpm_pure, nulterminate_words h0 hall, hts]
    exact ⟨hd, hall, rfl⟩

theorem parsecmd_complete (h0 : 0 ∉ line) {fuel : Nat} (hf : 4 * line.length + 3 < fuel) (s₀ : Nat)
    (hd : Derives .line (lex line) t) : Parses line fuel s₀ t := by
  have hlen := lex_length line
  have hneed : need .line (lex line).length < fuel := by
    simp only [need]
    omega
  have hrun : wpm (parsecmd line fuel) (fun r _ => r.1.map (fun w => cstring r.2 w.q) = t) (fun _ => False)
      False s₀ := by
    unfold parsecmd
    rw [wpm_bind, wpm_modify]
    have hstart : At line 0 (lex line ++ []) := by
      rw [List.append_nil]
      exact at_start line
    refine wpm_seq (wpm_and (run_complete h0 hd hstart trivial (by rw [List.append_nil]; exact hneed))
      (run_sound h0 fuel .line (at_start line) hneed)) ?_
    rintro c s₁ ⟨⟨h₁, hc⟩, -, -, -, -, -, hall⟩
    refine wpm_seq (peek_spec h₁ h0 rfl) ?_
    rintro b s₂ ⟨-, -, hend⟩
    rw [wpm_bind, wpm_get, if_neg (by rw [hend.2 rfl]; exact fun h => h rfl), wpm_pure, nulterminate_words h0 hall]
    exact hc
  obtain ⟨⟨cmd, buf⟩, s', hok, ht⟩ := wpm_total hrun
  exact ⟨cmd, buf, s', hok, ht⟩

/-- **The parser accepts exactly the grammar**, returns the tree of the derivation, and reads a printed tree
back. -/
theorem parsecmd_accepts_grammar (h0 : 0 ∉ line) {fuel : Nat} (hf : 4 * line.length + 3 < fuel) (s₀ : Nat) :
    ((∃ t, Parses line fuel s₀ t) ∨ ∃ m s', parsecmd line fuel s₀ = .panic m s' ∧ IsSyntax m) ∧
    (∀ t, Parses line fuel s₀ t ↔ Derives .line (lex line) t) ∧
    ∀ t, Parses line fuel s₀ t → ∀ fuel', 4 * (print t).length + 3 < fuel' → Parses (print t) fuel' s₀ t := by
  have hsound := parsecmd_sound h0 hf s₀
  have hiff : ∀ t, Parses line fuel s₀ t ↔ Derives .line (lex line) t := by
    refine fun t => ⟨?_, parsecmd_complete h0 hf s₀⟩
    rintro ⟨cmd, buf, s', hok, rfl⟩
    have hd := wpm_ok hsound hok
    exact hd.1
  refine ⟨?_, hiff, fun t ht fuel' hf' => ?_⟩
  · cases hrun : parsecmd line fuel s₀ with
    | ok r s' => exact Or.inl ⟨_, r.1, r.2, s', hrun, rfl⟩
    | panic m s' => exact Or.inr ⟨m, s', rfl, wpm_panic hsound hrun⟩
    | hang s' =>
      unfold wpm at hsound
      rw [hrun] at hsound
      exact hsound.elim
  · have hprint := ((hiff t).1 ht).printable (lex_words h0)
    obtain ⟨ts, hd, hl⟩ := derives_print hprint
    have hnil := hl [] fun c hc => by cases hc
    rw [List.append_nil, lex_nil, List.append_nil] at hnil
    refine parsecmd_complete (print_no_nul hprint) hf' s₀ ?_
    rw [hnil]
    exact hd

/-- `a|b`. -/
theorem parsecmd_accepts_grammar_pipe : 0 ∉ [97, BAR, 98] ∧
    Parses [97, BAR, 98] 20 0 (.pipe (.exec [[97]]) (.exec [[98]])) ∧
    Derives .line (lex [97, BAR, 98]) (.pipe (.exec [[97]]) (.exec [[98]])) := by
  have h0 : 0 ∉ [97, BAR, 98] := by decide
  have hparse : Parses [97, BAR, 98] 20 0 (.pipe (.exec [[97]]) (.exec [[98]])) := ⟨_, _, _, rfl, rfl⟩
  exact ⟨h0, hparse, ((parsecmd_accepts_grammar h0 (by decide) 0).2.1 _).1 hparse⟩

end Sh

end Xv6
