/-
The scanner writes the pieces of a text: from code it copies one region whole, and comes back to
code with the layout around it folded. One lemma for each kind of region, and `normalize_eq_render`
for the whole text.
-/
import Pbps.Lexis.Reads

namespace Pbps.Lexis

open List
open Option (map_eq_some_iff)
open Bool (and_eq_true or_eq_true)

variable {lex : Lexicon}

/-! ## Steps -/

variable {before rest text : List Char} {ch close c : Char} {s : Scan} {ctx : Context} {ls : List Lexeme}

theorem run_step {s' : Scan} {k : Nat} (h : step lex before ch rest s = (s', k)) :
    run lex before (ch :: rest) 0 s = run lex (ch :: before) rest k s' := by
  rw [run, h]

theorem run_skip (r : List Char) (s : Scan) : ∀ (cs before : List Char),
    run lex before (cs ++ r) cs.length s = run lex (cs.reverse ++ before) r 0 s
  | [], _ => rfl
  | c :: cs, before => by
    rw [cons_append, length_cons, run, run_skip r s cs (c :: before)]
    simp

theorem run_layout (r : List Char) : ∀ (cs before : List Char) (s : Scan), s.at_ = .code →
    cs.all lex.isDefinitionWhitespace = true →
    run lex before (cs ++ r) 0 s = run lex (cs.reverse ++ before) r 0
      { s with inSpace := s.inSpace || !cs.isEmpty, gapBreaks := s.gapBreaks || cs.any isBreak }
  | [], _, s, _, _ => by simp
  | c :: cs, before, s, hs, hw => by
    simp only [all_cons, and_eq_true] at hw
    have hstep : step lex before c (cs ++ r) s = ({ s with inSpace := true, gapBreaks := s.gapBreaks || isBreak c }, 0) := by
      simp [step, hs, hw.1]
    have ih := run_layout r cs (c :: before) { s with inSpace := true, gapBreaks := s.gapBreaks || isBreak c } hs hw.2
    rw [cons_append, run_step hstep, ih]
    simp [Bool.or_assoc]

/-! ## Quoted regions -/

/-- The scanner opens a plain region again at the closer it has just left it at. -/
def Reopens (lex : Lexicon) (close : Char) : Prop :=
  lex.isDefinitionWhitespace close = false ∧ close ≠ '$' ∧ ∀ before rest,
    codeMode lex (close :: before) close rest false = .quoted close

theorem reopens_quote (hw : lex.isDefinitionWhitespace '\'' = false) : Reopens lex '\'' := by
  refine ⟨hw, by decide, fun before rest => ?_⟩
  simp [codeMode, opensEscapeString]

theorem reopens_closer (law : lex.Lawful) (h : lex.closer close = some close) : Reopens lex close := by
  obtain ⟨h1, h2, h3, h4, h5, -⟩ := law.closer close close h
  refine ⟨h1, h5, fun before rest => ?_⟩
  simp [codeMode, h2, h3, h4, h]

theorem mem_dropLast_cons {a : Char} (h : a ∈ text.dropLast) : a ∈ (c :: text).dropLast := by
  cases text with
  | nil => cases h
  | cons b bs => rw [dropLast_cons_of_ne_nil (by simp)]; exact mem_cons_of_mem _ h

theorem run_quoted (cs before text r : List Char) (s : Scan) (hs : s.inSpace = false) (he : s.escapeContinues = false)
    (h : readQuoted close cs = some (text, r)) (hopen : Reopens lex close ∨ close ∉ text.dropLast) :
    run lex before cs 0 { s with at_ := .quoted close } =
      run lex (text.reverse ++ before) r 0 { s with at_ := .code, out := text.reverse ++ s.out } := by
  have leave : ∀ (c : Char) (before rest : List Char) (s : Scan),
      step lex before c rest { s with at_ := .quoted c } = ({ s with at_ := .code, out := c :: s.out }, 0) := by
    intro c before rest s; simp [step]
  fun_induction readQuoted close cs generalizing before text r s with
  | case1 => cases h
  | case2 => cases h; rw [run_step (leave _ _ _ _)]; simp
  | case3 => cases h
  | case4 cs ih =>
    obtain ⟨text', h', rfl⟩ := read_of_map (close :: close :: ·) h
    have hne : text' ≠ [] := by
      rintro rfl
      cases (readQuoted_split cs h').2
    have hopen : Reopens lex close := by
      rcases hopen with h | h
      · exact h
      · exact absurd (by simp [dropLast_cons_of_ne_nil, hne]) h
    obtain ⟨hw, hdollar, hmode⟩ := hopen
    have again : step lex (close :: before) close cs { s with at_ := .code, out := close :: s.out } =
        ({ s with at_ := .quoted close, out := close :: close :: s.out }, 0) := by
      simp [step, hw, stepCode, hdollar, hmode, openGap, hs, he]
    rw [run_step (leave _ _ _ _), run_step again]
    rw [ih (close :: close :: before) text' r { s with out := close :: close :: s.out } hs he h'
      (Or.inl ⟨hw, hdollar, hmode⟩)]
    simp
  | case5 d cs hd => cases h; rw [run_step (leave _ _ _ _)]; simp
  | case6 c d cs hc ih =>
    obtain ⟨text', h', rfl⟩ := read_of_map (c :: ·) h
    have stay : step lex before c (d :: cs) { s with at_ := .quoted close } =
        ({ s with at_ := .quoted close, out := c :: s.out }, 0) := by
      simp [step, hc]
    rw [run_step stay]
    rw [ih (c :: before) text' r { s with out := c :: s.out } hs he h'
      (hopen.imp_right fun h hm => h (mem_dropLast_cons hm))]
    simp

/-! ## Escape strings -/

theorem run_escape (cs before text r : List Char) (s : Scan) (h : readEscape cs = some (text, r)) :
    run lex before cs 0 { s with at_ := .escape false } = run lex (text.reverse ++ before) r 0
      { s with at_ := .code, out := text.reverse ++ s.out, escapeContinues := true, gapBreaks := false } := by
  fun_induction readEscape cs generalizing before text r s with
  | case1 => cases h
  | case2 =>
    cases h
    have h1 : step lex before '\'' [] { s with at_ := .escape false } =
        ({ s with at_ := .code, out := '\'' :: s.out, escapeContinues := true, gapBreaks := false }, 0) := by
      simp [step]
    rw [run_step h1]
    simp
  | case3 => cases h
  | case4 c d cs hc ih =>
    obtain ⟨text', h', rfl⟩ := read_of_map (c :: d :: ·) h
    have ih := ih (d :: c :: before) text' r { s with out := d :: c :: s.out } h'
    rcases hc with rfl | ⟨rfl, rfl⟩
    · have h1 : step lex before '\\' (d :: cs) { s with at_ := .escape false } =
          ({ s with at_ := .escape true, out := '\\' :: s.out }, 0) := by simp [step]
      have h2 : step lex ('\\' :: before) d cs { s with at_ := .escape true, out := '\\' :: s.out } =
          ({ s with at_ := .escape false, out := d :: '\\' :: s.out }, 0) := by simp [step]
      rw [run_step h1, run_step h2, ih]
      simp
    · have h1 : step lex before '\'' ('\'' :: cs) { s with at_ := .escape false } =
          ({ s with at_ := .escape false, out := '\'' :: '\'' :: s.out }, 1) := by simp [step]
      rw [run_step h1, run, ih]
      simp
  | case5 d cs hc =>
    cases h
    have hd : ¬ d = '\'' := fun h => hc (Or.inr ⟨rfl, h⟩)
    have h1 : step lex before '\'' (d :: cs) { s with at_ := .escape false } =
        ({ s with at_ := .code, out := '\'' :: s.out, escapeContinues := true, gapBreaks := false }, 0) := by
      simp [step, hd]
    rw [run_step h1]
    simp
  | case6 c d cs hc hq ih =>
    obtain ⟨text', h', rfl⟩ := read_of_map (c :: ·) h
    have hb : ¬ c = '\\' := fun h => hc (Or.inl h)
    have h1 : step lex before c (d :: cs) { s with at_ := .escape false } =
        ({ s with at_ := .escape false, out := c :: s.out }, 0) := by simp [step, hb, hq]
    rw [run_step h1, ih (c :: before) text' r { s with out := c :: s.out } h']
    simp

/-! ## Dollar quotes -/

variable {tag cs : List Char} {seen : Nat}

theorem dollar_ends {p q : List Char} :
    (decide (tag.length ≤ p.length + 1) && endsWith (c :: (p ++ q)) tag) = true ↔ tag <:+ p.reverse ++ [c] := by
  rw [← reverse_prefix]
  simp only [and_eq_true, decide_eq_true_eq, endsWith, isPrefixOf_iff_prefix, reverse_append,
    reverse_cons, reverse_nil, nil_append, reverse_reverse, cons_append]
  constructor
  · rintro ⟨hle, hp⟩
    refine prefix_of_prefix_length_le hp (prefix_append (c :: p) q) ?_
    simpa using hle
  · intro hp
    refine ⟨?_, hp.trans (prefix_append (c :: p) q)⟩
    simpa using hp.length_le

theorem run_dollar (r q : List Char) : ∀ (w p before : List Char) (s : Scan), w ≠ [] → s.out = p ++ q →
    tag <:+ p.reverse ++ w → (∀ w', w' <+: w → w' ≠ [] → tag <:+ p.reverse ++ w' → w' = w) →
    run lex before (w ++ r) 0 { s with at_ := .dollar tag p.length } =
      run lex (w.reverse ++ before) r 0 { s with at_ := .code, out := w.reverse ++ s.out }
  | [], _, _, _, hne, _, _, _ => absurd rfl hne
  | [c], p, before, s, _, ho, hend, _ => by
    have h1 : step lex before c r { s with at_ := .dollar tag p.length } = ({ s with at_ := .code, out := c :: s.out }, 0) := by
      simp only [step, ho]
      rw [if_pos (dollar_ends.2 hend)]
    rw [cons_append, nil_append, run_step h1]
    simp
  | c :: d :: w, p, before, s, _, ho, hend, hfirst => by
    have hnot : ¬ tag <:+ p.reverse ++ [c] := fun h => by
      have := hfirst [c] (cons_prefix_cons.2 ⟨rfl, nil_prefix⟩) (by simp) h
      simp at this
    have h1 : step lex before c (d :: w ++ r) { s with at_ := .dollar tag p.length } =
        ({ s with at_ := .dollar tag (p.length + 1), out := c :: s.out }, 0) := by
      simp only [step, ho]
      rw [if_neg fun h => hnot (dollar_ends.1 h)]
    rw [cons_append, run_step h1]
    have ih := run_dollar r q (d :: w) (c :: p) (c :: before) { s with out := c :: s.out } (by simp) (by simp [ho])
      (by simpa using hend) (fun w' hw' hne h => by
        have := hfirst (c :: w') (cons_prefix_cons.2 ⟨rfl, hw'⟩) (by simp) (by simpa using h)
        exact (cons.inj this).2)
    rw [length_cons] at ih
    rw [ih]
    simp

/-! ## Comments -/

def trailing : Bool → List Char → Bool
  | pending, [] => pending
  | _, c :: cs => trailing (isWhitespace c) cs

theorem run_line (r : List Char) : ∀ (body before : List Char) (s : Scan), body.all (!isBreak ·) = true →
    run lex before (body ++ r) 0 { s with at_ := .line } = run lex (body.reverse ++ before) r 0
      { s with at_ := .line, out := (foldSpace s.inSpace body).reverse ++ s.out, inSpace := trailing s.inSpace body }
  | [], _, s, _ => by simp [foldSpace, trailing]
  | c :: body, before, s, hb => by
    simp only [all_cons, and_eq_true, Bool.not_eq_true'] at hb
    rw [cons_append]
    by_cases hw : isWhitespace c = true
    · have h1 : step lex before c (body ++ r) { s with at_ := .line } = ({ s with at_ := .line, inSpace := true }, 0) := by
        simp [step, hb.1, hw]
      rw [run_step h1, run_line r body (c :: before) { s with inSpace := true } (by simpa using hb.2)]
      simp [foldSpace, trailing, hw]
    · have h1 : step lex before c (body ++ r) { s with at_ := .line } =
          ({ s with at_ := .line, out := c :: openCommentGap s, inSpace := false }, 0) := by
        simp [step, hb.1, hw, openCommentGap]
      rw [run_step h1, run_line r body (c :: before) { s with out := c :: openCommentGap s, inSpace := false } (by simpa using hb.2)]
      cases hp : s.inSpace <;> simp [foldSpace, trailing, hw, openCommentGap, hp]

/-- Between two turns in a block comment: a `*` that was just written and is followed by `/` is the
one of an opener, which the scanner knows by how little it has seen since. -/
def BlockState (seen : Nat) (s : Scan) (cs : List Char) : Prop :=
  1 ≤ seen ∧ (s.out.head? = some '*' → s.inSpace = false → cs.head? = some '/' → seen = 1)

theorem step_block {depth : Nat} (hw : isWhitespace ch = false) :
    step lex before ch rest { s with at_ := .block depth seen } =
      ({ s with out := ch :: openCommentGap s, inSpace := false,
                at_ := blockMode (ch :: openCommentGap s) ch rest depth seen }, 0) := by
  simp [step, hw, openCommentGap]

theorem BlockState.not_ends (hb : BlockState seen s ('/' :: cs)) :
    ¬ (2 ≤ seen ∧ endsWith ('/' :: openCommentGap s) ['*', '/'] = true) := by
  rintro ⟨hle, hend⟩
  simp only [endsWith, reverse_cons, reverse_nil, nil_append, cons_append,
    isPrefixOf_iff_prefix, cons_prefix_cons, true_and, openCommentGap] at hend
  cases hp : s.inSpace with
  | true => simp [hp, cons_prefix_cons] at hend
  | false =>
    simp only [hp, Bool.false_eq_true, if_false] at hend
    obtain ⟨t, ht⟩ := hend
    have := hb.2 (by rw [← ht]; rfl) hp rfl
    omega

theorem foldSpace_cons {p : Bool} (hw : isWhitespace c = false) (s : Scan) (hp : s.inSpace = p) :
    (foldSpace p (c :: cs)).reverse ++ s.out = (foldSpace false cs).reverse ++ c :: openCommentGap s := by
  subst hp
  cases h : s.inSpace <;> simp [foldSpace, hw, openCommentGap, h]

/-- A block comment, from any depth, is written with its layout folded. -/
theorem run_block (depth : Nat) (cs before text r : List Char) (seen : Nat) (s : Scan)
    (h : readBlock depth cs = some (text, r)) (hb : BlockState seen s cs) :
    run lex before cs 0 { s with at_ := .block (depth + 1) seen } = run lex (text.reverse ++ before) r 0
      { s with at_ := .code, out := (foldSpace s.inSpace text).reverse ++ s.out, inSpace := false } := by
  -- a closer is read in two turns
  have close : ∀ (depth seen : Nat) (before cs : List Char) (s : Scan), 1 ≤ seen →
      run lex before ('*' :: '/' :: cs) 0 { s with at_ := .block (depth + 1) seen } =
        run lex ('/' :: '*' :: before) cs 0
          { s with at_ := if depth = 0 then .code else .block depth 2, out := '/' :: '*' :: openCommentGap s, inSpace := false } := by
    intro depth seen before cs s hseen
    have h1 : step lex before '*' ('/' :: cs) { s with at_ := .block (depth + 1) seen } =
        ({ s with at_ := .block (depth + 1) (seen + 1), out := '*' :: openCommentGap s, inSpace := false }, 0) := by
      rw [step_block isWhitespace_star]
      simp [blockMode]
    have h2 : step lex ('*' :: before) '/' cs
        { s with at_ := .block (depth + 1) (seen + 1), out := '*' :: openCommentGap s, inSpace := false } =
        ({ s with at_ := if depth = 0 then .code else .block depth 2, out := '/' :: '*' :: openCommentGap s,
                  inSpace := false }, 0) := by
      have hle : 2 ≤ seen + 1 := by omega
      simp [step, openCommentGap, blockMode, hle, endsWith]
    rw [run_step h1, run_step h2]
  fun_induction readBlock depth cs generalizing before text r seen s with
  | case1 => cases h
  | case2 => cases h
  | case3 c d cs hc =>
    obtain ⟨rfl, rfl⟩ := hc
    cases h
    rw [close 0 seen before cs s hb.1, foldSpace_cons isWhitespace_star s rfl]
    simp [foldSpace]
  | case4 c d cs hc depth ih =>
    obtain ⟨rfl, rfl⟩ := hc
    obtain ⟨text', h', rfl⟩ := read_of_map ('*' :: '/' :: ·) h
    rw [close (depth + 1) seen before cs s hb.1, foldSpace_cons isWhitespace_star s rfl]
    have ih := ih ('/' :: '*' :: before) text' r 2 { s with out := '/' :: '*' :: openCommentGap s, inSpace := false } h'
      ⟨by omega, by simp⟩
    rw [if_neg (Nat.succ_ne_zero depth), ih]
    simp [foldSpace]
  | case5 depth c d cs h1 h2 ih =>
    obtain ⟨rfl, rfl⟩ := h2
    obtain ⟨text', h', rfl⟩ := read_of_map ('/' :: '*' :: ·) h
    have h1 : step lex before '/' ('*' :: cs) { s with at_ := .block (depth + 1) seen } =
        ({ s with at_ := .block (depth + 2) 0, out := '/' :: openCommentGap s, inSpace := false }, 0) := by
      rw [step_block isWhitespace_slash, blockMode, if_neg fun h => hb.not_ends h.2]
      simp
    have h2 : step lex ('/' :: before) '*' cs
        { s with at_ := .block (depth + 2) 0, out := '/' :: openCommentGap s, inSpace := false } =
        ({ s with at_ := .block (depth + 2) 1, out := '*' :: '/' :: openCommentGap s, inSpace := false }, 0) := by
      simp [step, openCommentGap, blockMode]
    have ih := ih ('*' :: '/' :: before) text' r 1 { s with out := '*' :: '/' :: openCommentGap s, inSpace := false } h'
      ⟨by omega, by simp⟩
    rw [run_step h1, run_step h2, ih, foldSpace_cons isWhitespace_slash s rfl]
    simp [foldSpace]
  | case6 depth c d cs h1 h2 ih =>
    obtain ⟨text', h', rfl⟩ := read_of_map (c :: ·) h
    cases hw : isWhitespace c with
    | true =>
      have hs : step lex before c (d :: cs) { s with at_ := .block (depth + 1) seen } =
          ({ s with at_ := .block (depth + 1) seen, inSpace := true }, 0) := by simp [step, hw]
      rw [run_step hs, ih (c :: before) text' r seen { s with inSpace := true } h' ⟨hb.1, by simp⟩]
      simp [foldSpace, hw]
    | false =>
      have hmode : blockMode (c :: openCommentGap s) c (d :: cs) (depth + 1) seen = .block (depth + 1) (seen + 1) := by
        by_cases hc : c = '/'
        · subst hc
          rw [blockMode, if_neg fun h => hb.not_ends h.2, if_neg]
          rintro ⟨-, h⟩
          exact h2 ⟨rfl, Option.some.inj h⟩
        · simp [blockMode, hc]
      have hs : step lex before c (d :: cs) { s with at_ := .block (depth + 1) seen } =
          ({ s with at_ := .block (depth + 1) (seen + 1), out := c :: openCommentGap s, inSpace := false }, 0) := by
        rw [step_block hw, hmode]
      have ih := ih (c :: before) text' r (seen + 1) { s with out := c :: openCommentGap s, inSpace := false } h'
        ⟨by omega, fun hc _ hd => absurd ⟨Option.some.inj hc, Option.some.inj hd⟩ h1⟩
      rw [run_step hs, ih, foldSpace_cons hw s rfl]
      simp

/-! ## One lexeme -/

/-- The scanner is in code and knows of the text before it what the context says. -/
structure Follows (lex : Lexicon) (before : List Char) (s : Scan) (ctx : Context) : Prop where
  code : s.at_ = .code
  looks : lex.whitespaceIsAscii = true → ctx.ident = continuesIdentifier before ∧ ctx.e = opensEscapeString before
  armed : s.escapeContinues = ctx.armed
  breaks : ctx.armed = true → s.gapBreaks = ctx.broken

def Wrote (l : Lexeme) (rest : List Char) (s s' : Scan) : Prop :=
  match l with
  | .layout _ => s'.out = s.out ∧ s'.inSpace = true
  | .line text =>
    s'.out = (if rest = [] then [] else ['\n']) ++ text.reverse ++ openGap s ∧ (rest ≠ [] → s'.inSpace = false)
  | l => s'.out = l.text.reverse ++ openGap s ∧ s'.inSpace = false

def Lexeme.whole : Lexeme → Bool
  | .quoted close text => closesOnce close text
  | _ => true

theorem looks_of_not_ident (h : continuesIdent c = false) (before : List Char) :
    false = continuesIdentifier (c :: before) ∧ false = opensEscapeString (c :: before) := by
  have he : (c == 'e' || c == 'E') = false := by
    by_contra hc
    simp only [Bool.not_eq_false, or_eq_true, beq_iff_eq] at hc
    rcases hc with rfl | rfl <;> exact absurd h (by decide)
  simp [continuesIdentifier, opensEscapeString, h, he]

theorem looks_of_getLast (hl : text.getLast? = some c) (h : continuesIdent c = false) (before : List Char) :
    false = continuesIdentifier (text.reverse ++ before) ∧ false = opensEscapeString (text.reverse ++ before) := by
  obtain ⟨ys, rfl⟩ := getLast?_eq_some_iff.1 hl
  rw [reverse_append, append_assoc]
  exact looks_of_not_ident h _

theorem step_code {mode : At} (rest : List Char) (law : lex.Lawful) (hf : Follows lex before s ctx)
    (hmode : codeMode lex before ch rest (s.escapeContinues && s.gapBreaks) = mode) (hw : lex.isDefinitionWhitespace ch = false)
    (hd : lex.dollarQuotedStrings = true → ch = '$' → ctx.ident = false → dollarTag rest = none) : step lex before ch rest s =
      ({ out := ch :: openGap s, inSpace := false, at_ := mode, escapeContinues := mode = .line && s.escapeContinues,
         gapBreaks := mode = .line || s.gapBreaks }, 0) := by
  have htag : (if lex.dollarQuotedStrings && ch == '$' && !continuesIdentifier before then dollarTag rest else none) = none := by
    split
    · rename_i h
      simp only [and_eq_true, beq_iff_eq, Bool.not_eq_true'] at h
      refine hd h.1.1 h.1.2 ?_
      rw [(hf.looks (law.ascii (Or.inl h.1.1))).1]
      exact h.2
    · rfl
  rw [step, hf.code]
  simp only [hw, Bool.false_eq_true, if_false, stepCode, htag, hmode]

theorem Follows.continues (hf : Follows lex before s ctx) (law : lex.Lawful) (he : lex.escapeStrings = true) :
    ((s.escapeContinues && s.gapBreaks || opensEscapeString before) = true) ↔
      ((ctx.armed = true ∧ ctx.broken = true) ∨ ctx.e = true) := by
  rw [← (hf.looks (law.ascii (Or.inr he))).2, hf.armed]
  cases ha : ctx.armed with
  | false => simp
  | true => simp [hf.breaks ha]

theorem run_region (law : lex.Lawful) {o : Char} (hf : Follows lex before s ctx) (hw : lex.isDefinitionWhitespace o = false)
    (hd : o ≠ '$') (hmode : codeMode lex before o (text ++ rest) (s.escapeContinues && s.gapBreaks) = .quoted close)
    (hr : readQuoted close (text ++ rest) = some (text, rest)) (hopen : Reopens lex close ∨ close ∉ text.dropLast)
    (hc : continuesIdent close = false) :
    ∃ before' s', run lex before (o :: (text ++ rest)) 0 s = run lex before' rest 0 s' ∧ Follows lex before' s' {} ∧
      s'.out = (o :: text).reverse ++ openGap s ∧ s'.inSpace = false := by
  have hstep := step_code (text ++ rest) law hf hmode hw fun _ h => absurd h hd
  have hrun := run_quoted (text ++ rest) (o :: before) text rest
    { out := o :: openGap s, inSpace := false, at_ := .code, escapeContinues := false, gapBreaks := s.gapBreaks }
    rfl rfl hr hopen
  refine ⟨_, _, (run_step hstep).trans hrun, ⟨rfl, fun _ => ?_, rfl, fun h => by cases h⟩, by simp, rfl⟩
  exact looks_of_getLast (readQuoted_split _ hr).2 hc (o :: before)

theorem foldSpace_dropWhile {body out : List Char} :
    ((foldSpace false ('-' :: body)).reverse ++ out).dropWhile (· == ' ') = (foldSpace false ('-' :: body)).reverse ++ out := by
  obtain ⟨x, hx, hw⟩ := foldSpace_getLast ('-' :: body) false (by simp [foldSpace])
  obtain ⟨ys, hys⟩ := getLast?_eq_some_iff.1 hx
  have hne : x ≠ ' ' := by
    rintro rfl
    exact absurd hw (by decide)
  rw [hys]
  simp [hne]

/-- The scanner writes one lexeme, layout before it folded, and is in code again. -/
theorem run_lexeme (law : lex.Lawful) {ctx' : Context} {l : Lexeme} (hf : Follows lex before s ctx)
    (h : Reads lex ctx text l ctx' rest) (hn : NoTrail lex text) (hl : l.whole = true) :
    ∃ before' s', run lex before text 0 s = run lex before' rest 0 s' ∧ (rest ≠ [] → Follows lex before' s' ctx') ∧
      Wrote l rest s s' := by
  cases h with
  | layout hne hw hrest =>
    rename_i ws
    have hlast := getLast?_eq_some_getLast hne
    refine ⟨_, _, run_layout rest ws before s hf.code hw, fun _ => ⟨hf.code, fun ha => ?_, hf.armed, fun h => ?_⟩, rfl, ?_⟩
    · exact looks_of_getLast hlast
        (continuesIdent_of_whitespace ha (all_eq_true.1 hw _ (getLast_mem hne))) before
    · simp [hf.breaks h]
    · simp [hne]
  | dollar hd hi ht hr =>
    rename_i tag text
    obtain ⟨-, hend, hfirst⟩ := readDollar_split (by simp) _ hr
    have hlast := text_getLast_of_dollar ht hend
    have hne : text ≠ [] := by
      rintro rfl
      cases hlast
    have hstep : step lex before '$' (tag ++ (text ++ rest)) s =
        ({ s with out := ('$' :: tag).reverse ++ openGap s, inSpace := false, escapeContinues := false,
                  at_ := .dollar ('$' :: tag) 0 }, tag.length) := by
      have hb : continuesIdentifier before = false := by
        rw [← (hf.looks (law.ascii (Or.inl hd))).1, hi]
      rw [step, hf.code]
      simp [not_layout (show isWhitespace '$' = false by decide), stepCode, hd, hb, ht]
    have hrun := @run_dollar lex ('$' :: tag) rest (('$' :: tag).reverse ++ openGap s) text [] (tag.reverse ++ '$' :: before)
      { s with out := ('$' :: tag).reverse ++ openGap s, inSpace := false, escapeContinues := false } hne rfl hend
      fun w hw _ h => hfirst w hw h
    refine ⟨_, _, ((run_step hstep).trans (run_skip _ _ tag _)).trans hrun,
      fun _ => ⟨rfl, fun _ => ?_, rfl, fun h => by cases h⟩, by simp [Lexeme.text], rfl⟩
    obtain ⟨ys, rfl⟩ := getLast?_eq_some_iff.1 hlast
    simp [continuesIdentifier, opensEscapeString, continuesIdent]
  | lineEnd hh hb =>
    rename_i body
    have hmode : codeMode lex before '-' body (s.escapeContinues && s.gapBreaks) = .line := by simp [codeMode, hh]
    have hstep := step_code body law hf hmode (not_layout (by decide)) fun _ h => absurd h (by decide)
    have hrun := @run_line lex [] body ('-' :: before)
      { out := '-' :: openGap s, inSpace := false, at_ := .line, escapeContinues := s.escapeContinues, gapBreaks := true } hb
    rw [append_nil] at hrun
    refine ⟨_, _, (run_step hstep).trans hrun, fun h => absurd rfl h, ?_⟩
    simp [Wrote, foldSpace]
  | lineBreak hh hb hbreak =>
    rename_i body b
    have hmode : codeMode lex before '-' (body ++ b :: rest) (s.escapeContinues && s.gapBreaks) = .line := by
      simp [codeMode, head?_append, hh]
    have hstep := step_code (body ++ b :: rest) law hf hmode (not_layout (by decide)) fun _ h => absurd h (by decide)
    have hrun := @run_line lex (b :: rest) body ('-' :: before)
      { out := '-' :: openGap s, inSpace := false, at_ := .line, escapeContinues := s.escapeContinues, gapBreaks := true } hb
    have hfold : (foldSpace false body).reverse ++ '-' :: openGap s = (foldSpace false ('-' :: body)).reverse ++ openGap s := by
      simp [foldSpace]
    have hend : ∀ (before : List Char) (sp : Bool), step lex before b rest
        { out := (foldSpace false body).reverse ++ '-' :: openGap s, inSpace := sp, at_ := .line,
          escapeContinues := s.escapeContinues, gapBreaks := true } =
        ({ out := '\n' :: ((foldSpace false ('-' :: body)).reverse ++ openGap s), inSpace := false, at_ := .code,
           escapeContinues := s.escapeContinues, gapBreaks := true }, 0) := by
      intro before sp
      simp only [step, hbreak, if_true, hfold]
      rw [foldSpace_dropWhile]
    have hrest : rest ≠ [] := by
      rintro rfl
      have := hn b (by rw [getLast?_append]; rfl)
      rw [isDefinitionWhitespace_of_break hbreak] at this
      cases this
    have hident : continuesIdent b = false := by
      simp only [isBreak, or_eq_true, beq_iff_eq] at hbreak
      rcases hbreak with rfl | rfl <;> decide
    refine ⟨_, _, ((run_step hstep).trans hrun).trans (run_step (hend _ _)),
      fun _ => ⟨rfl, fun _ => looks_of_not_ident hident _, hf.armed, fun _ => rfl⟩, ?_⟩
    simp [Wrote, hrest]
  | block hr =>
    rename_i text
    have hmode : codeMode lex before '/' ('*' :: (text ++ rest)) (s.escapeContinues && s.gapBreaks) = .block 1 0 := by
      simp [codeMode]
    have hstep := step_code ('*' :: (text ++ rest)) law hf hmode (not_layout (by decide)) fun _ h => absurd h (by decide)
    have hstar : ∀ s : Scan, s.inSpace = false → step lex ('/' :: before) '*' (text ++ rest) { s with at_ := .block 1 0 } =
        ({ s with at_ := .block 1 1, out := '*' :: s.out }, 0) := by
      intro s hs
      simp [step, openCommentGap, hs, blockMode]
    have hrun := @run_block lex 0 (text ++ rest) ('*' :: '/' :: before) text rest 1
      { out := '*' :: '/' :: openGap s, inSpace := false, at_ := .code, escapeContinues := false, gapBreaks := s.gapBreaks }
      hr ⟨Nat.le_refl 1, fun _ _ _ => rfl⟩
    have hopened := hstar
      { out := '/' :: openGap s, inSpace := false, at_ := .code, escapeContinues := false, gapBreaks := s.gapBreaks } rfl
    refine ⟨_, _, ((run_step hstep).trans (run_step hopened)).trans hrun,
      fun _ => ⟨rfl, fun _ => ?_, rfl, fun h => by cases h⟩, ?_, rfl⟩
    · obtain ⟨p, hp⟩ := (readBlock_split 0 _ hr).2
      exact looks_of_getLast (c := '/') (by rw [← hp]; simp) (by decide) ('*' :: '/' :: before)
    · simp [Lexeme.text, foldSpace]
  | escape hesc hc hr =>
    rename_i text
    have hmode : codeMode lex before '\'' (text ++ rest) (s.escapeContinues && s.gapBreaks) = .escape false := by
      have := (hf.continues law hesc).2 hc
      simp [codeMode, hesc, this]
    have hstep := step_code (text ++ rest) law hf hmode (not_layout (by decide)) fun _ h => absurd h (by decide)
    have hrun := @run_escape lex (text ++ rest) ('\'' :: before) text rest
      { out := '\'' :: openGap s, inSpace := false, at_ := .code, escapeContinues := false, gapBreaks := s.gapBreaks } hr
    refine ⟨_, _, (run_step hstep).trans hrun, fun _ => ⟨rfl, fun _ => ?_, rfl, fun _ => rfl⟩, by simp [Lexeme.text], rfl⟩
    exact looks_of_getLast (readEscape_split _ hr).2 (by decide) ('\'' :: before)
  | string hplain hr =>
    rename_i text
    have hmode : codeMode lex before '\'' (text ++ rest) (s.escapeContinues && s.gapBreaks) = .quoted '\'' := by
      have : ¬ (lex.escapeStrings = true ∧ (s.escapeContinues && s.gapBreaks || opensEscapeString before) = true) :=
        fun h => hplain h.1 ((hf.continues law h.1).1 h.2)
      rw [← and_eq_true] at this
      simp only [codeMode, this]
      simp
    obtain ⟨before', s', hrun, hf', hout⟩ := run_region law hf (not_layout (by decide)) (by decide) hmode hr
      (Or.inl (reopens_quote (not_layout (by decide)))) (by decide)
    exact ⟨before', s', hrun, fun _ => hf', hout⟩
  | identifier ho hr =>
    rename_i o close text
    obtain ⟨hw, h1, h2, h3, h4, -⟩ := law.opener _ _ ho
    have hmode : codeMode lex before o (text ++ rest) (s.escapeContinues && s.gapBreaks) = .quoted close := by
      simp [codeMode, h1, h2, h3, ho]
    have hopen : Reopens lex close ∨ close ∉ text.dropLast := by
      simp only [Lexeme.whole, closesOnce, head?_cons, tail_cons, or_eq_true, beq_iff_eq, Option.some.injEq,
        Bool.not_eq_true', contains_eq_mem, decide_eq_false_iff_not] at hl
      refine hl.imp_left ?_
      rintro rfl
      exact reopens_closer law ho
    obtain ⟨before', s', hrun, hf', hout⟩ := run_region law hf hw h4 hmode hr hopen (law.closer _ _ ho).2.2.2.2.2
    exact ⟨before', s', hrun, fun _ => hf', hout⟩
  | code hw hd h1 h2 h3 h4 =>
    rename_i c
    have hmode : codeMode lex before c rest (s.escapeContinues && s.gapBreaks) = .code := by
      simp [codeMode, h1, h2, h3, h4]
    have hstep := step_code rest law hf hmode hw hd
    refine ⟨_, _, run_step hstep, fun _ => ⟨rfl, fun ha => ?_, by simp, by simp⟩, rfl, rfl⟩
    simp [continuesIdentifier, opensEscapeString, (hf.looks ha).1]

/-! ## The whole text -/

theorem Lexed.pieces_ne_nil (h : Lexed lex ctx text ls) (hn : NoTrail lex text) (hne : text ≠ []) : ∀ a, pieces a ls ≠ [] := by
  induction h with
  | nil => exact absurd rfl hne
  | cons first others ih =>
    rename_i l _
    intro a
    cases l with
    | layout b =>
      have hrest := ih (hn.suffix first.suffix) (first.layout_rest hn).1 false
      cases a with
      | false => simp [pieces]
      | true => simpa [pieces] using hrest
    | _ => simp [pieces]

theorem Lexed.run_eq (law : lex.Lawful) (h : Lexed lex ctx text ls) (before : List Char) (s : Scan) (a : Bool)
    (hf : text ≠ [] → Follows lex before s ctx) (hn : NoTrail lex text) (hl : ls.all Lexeme.whole = true)
    (hspace : s.inSpace = true → text ≠ [] ∧ ∀ c, text.head? = some c → lex.isDefinitionWhitespace c = false)
    (hout : s.out = [] → ∀ c, text.head? = some c → lex.isDefinitionWhitespace c = false)
    (ha : s.inSpace = false → (a = true ↔ s.out.head? = some '\n')) :
    (run lex before text 0 s).out.reverse = (openGap s).reverse ++ render (pieces a ls) := by
  have still : ∀ s : Scan, s.inSpace = false → openGap s = s.out := by
    intro s hs
    simp [openGap, hs]
  induction h generalizing before s a with
  | nil =>
    have hs : s.inSpace = false := by simpa using hspace
    simp [run, still s hs, pieces, render]
  | cons first others ih =>
    rename_i ctx ctx' text rest l ls
    have htext : text ≠ [] := by
      rintro rfl
      have := first.length_lt
      simp at this
    simp only [all_cons, and_eq_true] at hl
    have hn' := hn.suffix first.suffix
    obtain ⟨before', s', hrun, hf', hw⟩ := run_lexeme law (hf htext) first hn hl.1
    rw [hrun]
    -- a lexeme that is neither layout nor a line comment
    have other : (∀ b, l ≠ .layout b) → s'.out = l.text.reverse ++ openGap s ∧ s'.inSpace = false →
        (run lex before' rest 0 s').out.reverse = (openGap s).reverse ++ (l.text ++ render (pieces false ls)) := by
      rintro hne ⟨ho, hs⟩
      obtain ⟨x, hx, hbreak⟩ := first.text_getLast law hne
      obtain ⟨ys, hys⟩ := getLast?_eq_some_iff.1 hx
      have hx : x ≠ '\n' := by
        rintro rfl
        rw [isDefinitionWhitespace_of_break (by decide)] at hbreak
        cases hbreak
      have := ih before' s' false hf' hn' hl.2 (by simp [hs]) (by simp [ho, hys]) (by simp [ho, hys, hx])
      rw [this, still s' hs, ho]
      simp
    cases l with
    | layout b =>
      obtain ⟨hrest, hhead, d, hd, hdw⟩ := first.layout_rest hn
      obtain ⟨ho, hs⟩ := hw
      have hin : s.inSpace = false := by
        cases hc : s.inSpace with
        | false => rfl
        | true => rw [(hspace hc).2 d hd] at hdw; cases hdw
      have hne : s.out ≠ [] := by
        intro hc
        rw [hout hc d hd] at hdw
        cases hdw
      have := ih before' s' false hf' hn' hl.2 (fun _ => ⟨hrest, hhead⟩) (by simp [ho, hne]) (by simp [hs])
      rw [this, still s hin]
      cases a with
      | true => simp [openGap, hs, ho, (ha hin).1 rfl, pieces]
      | false =>
        have : s.out.head? ≠ some '\n' := fun h => by cases (ha hin).2 h
        simp [openGap, hs, ho, hne, this, pieces, render]
    | line text =>
      obtain ⟨ho, hs⟩ := hw
      by_cases hrest : rest = []
      · subst hrest
        cases others with
        | nil => simp [run, ho, pieces, render]
        | cons first _ => exact absurd first.length_lt (by simp)
      · rw [if_neg hrest] at ho
        have := ih before' s' true hf' hn' hl.2 (by simp [hs hrest]) (by simp [ho]) (by simp [ho])
        rw [this, still s' (hs hrest), ho]
        -- what follows a line comment starts a line
        obtain ⟨p, ps, hps⟩ := exists_cons_of_ne_nil (others.pieces_ne_nil hn' hrest true)
        simp [pieces, hps, render]
    | code c => exact other (by simp) hw
    | quoted close text => exact other (by simp) hw
    | escape text => exact other (by simp) hw
    | dollar text => exact other (by simp) hw
    | block text => exact other (by simp) hw

theorem trim_noTrail (text : List Char) : NoTrail lex (trim lex text) ∧
    ∀ c, (trim lex text).head? = some c → lex.isDefinitionWhitespace c = false := by
  have hfirst : ∀ (cs : List Char) (c : Char), (cs.dropWhile lex.isDefinitionWhitespace).head? = some c →
      lex.isDefinitionWhitespace c = false := by
    intro cs c hc
    have := head?_dropWhile_not lex.isDefinitionWhitespace cs
    rw [hc] at this
    simpa using this
  refine ⟨fun c hc => ?_, fun c hc => ?_⟩
  · rw [trim, getLast?_reverse] at hc
    exact hfirst _ c hc
  · have hsuffix := dropWhile_suffix (p := lex.isDefinitionWhitespace) (l := (text.dropWhile lex.isDefinitionWhitespace).reverse)
    obtain ⟨t, ht⟩ := reverse_prefix.2 hsuffix
    rw [reverse_reverse] at ht
    refine hfirst text c ?_
    rw [← ht, head?_append]
    rw [trim] at hc
    rw [hc]
    rfl

theorem lexed_of_lexemes (h : lexemes lex text = some ls) : Lexed lex {} (trim lex text) ls := lexed_of_lexAll _ {} _ ls h

theorem normalize_eq_render (law : lex.Lawful) (h : lexemes lex text = some ls) (hl : ls.all Lexeme.whole = true) :
    normalize lex text = render (pieces false ls) := by
  obtain ⟨hn, hhead⟩ := @trim_noTrail lex text
  have hf : Follows lex [] {} {} := ⟨rfl, fun _ => ⟨rfl, rfl⟩, rfl, fun h => by cases h⟩
  exact (lexed_of_lexemes h).run_eq law [] {} false (fun _ => hf) hn hl (fun h => by cases h) (fun _ => hhead) (by simp)

end Pbps.Lexis
