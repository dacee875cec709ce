/-
What the comparison form of a definition forgives. Where every region is read to its end, two texts
with one normal form are the same tokens and comments, and a normal form is its own.
-/
import Pbps.Lexis.Reread

namespace Pbps.Lexis

open List

variable {lex : Lexicon}

/-! ## Normal forms -/

theorem NoTrail.append {p r : List Char} (hr : NoTrail lex r) (hne : r ≠ []) : NoTrail lex (p ++ r) := by
  intro c hc
  rw [getLast?_append, getLast?_eq_some_getLast hne] at hc
  exact hr c (by rw [getLast?_eq_some_getLast hne]; exact hc)

variable {text : List Char} {ls : List Lexeme}

theorem Lexed.render_ne_nil (law : lex.Lawful) {ctx : Context} (h : Lexed lex ctx text ls) (hn : NoTrail lex text)
    (hne : text ≠ []) : ∀ a, render (pieces a ls) ≠ [] := by
  induction h with
  | nil => exact absurd rfl hne
  | cons first others ih =>
    rename_i l ls
    intro a
    by_cases hl : ∃ b, l = .layout b
    · obtain ⟨b, rfl⟩ := hl
      have hrest := ih (hn.suffix first.suffix) (first.layout_rest hn).1 false
      cases a with
      | false => simp [pieces, render]
      | true => simpa [pieces] using hrest
    · have hl : ∀ b, l ≠ .layout b := fun b h => hl ⟨b, h⟩
      obtain ⟨c, t, ht, -⟩ := first.text_head law hl
      obtain ⟨r, hr⟩ := render_pieces_cons hl a ls
      simp [hr, ht]

theorem Lexed.render_noTrail (law : lex.Lawful) {ctx : Context} (h : Lexed lex ctx text ls) (hn : NoTrail lex text) :
    ∀ a, NoTrail lex (render (pieces a ls)) := by
  induction h with
  | nil => intro a c hc; cases hc
  | cons first others ih =>
    rename_i ctx ctx' text rest l ls
    intro a
    have hn' := hn.suffix first.suffix
    have ih := ih hn'
    have other : (∀ b, l ≠ .layout b) → NoTrail lex (l.text ++ render (pieces false ls)) := by
      intro hl
      by_cases hr : render (pieces false ls) = []
      · obtain ⟨x, hx, hw⟩ := first.text_getLast law hl
        rw [hr, append_nil]
        intro c hc
        rw [hx] at hc
        cases hc
        exact hw
      · exact (ih false).append hr
    cases l with
    | layout b =>
      have hrest := others.render_ne_nil law hn' (first.layout_rest hn).1 false
      cases a with
      | true => exact ih false
      | false => exact (ih false).append (p := [' ']) hrest
    | line t =>
      by_cases hrest : rest = []
      · subst hrest
        cases others with
        | cons first _ => exact absurd first.length_lt (by simp)
        | nil => simpa [pieces, render, Lexeme.text] using other (by simp)
      · obtain ⟨p, ps, hps⟩ := exists_cons_of_ne_nil (others.pieces_ne_nil hn' hrest true)
        have hne := others.render_ne_nil law hn' hrest true
        have hrender : render (pieces a (.line t :: ls)) = (t ++ ['\n']) ++ render (pieces true ls) := by
          simp only [pieces, hps, render, append_assoc, cons_append, nil_append]
        rw [hrender]
        exact (ih true).append hne
    | code c => exact other (by simp)
    | quoted close t => exact other (by simp)
    | escape t => exact other (by simp)
    | dollar t => exact other (by simp)
    | block t => exact other (by simp)

theorem trim_eq_self (hn : NoTrail lex text) (hhead : ∀ c, text.head? = some c → lex.isDefinitionWhitespace c = false) :
    trim lex text = text := by
  have keep : ∀ cs : List Char, (∀ c, cs.head? = some c → lex.isDefinitionWhitespace c = false) →
      cs.dropWhile lex.isDefinitionWhitespace = cs := by
    intro cs h
    cases cs with
    | nil => rfl
    | cons c cs => simp [h c rfl]
  rw [trim, keep text hhead, keep text.reverse, reverse_reverse]
  intro c hc
  rw [head?_reverse] at hc
  exact hn c hc

theorem whole_of_steady : ∀ (ls : List Lexeme) (st : Option (Bool × Bool)), steady st ls = true → ls.all Lexeme.whole = true
  | [], _, _ => rfl
  | l :: ls, st, h => by
    have ih := whole_of_steady ls
    cases l with
    | escape text =>
      cases st with
      | none => simpa [Lexeme.whole] using ih _ h
      | some p =>
        obtain ⟨lost, kept⟩ := p
        simp only [steady, Bool.and_eq_true] at h
        simpa [Lexeme.whole] using ih _ h.2
    | quoted close text =>
      simp only [steady, Bool.and_eq_true] at h
      simpa [Lexeme.whole, h.1] using ih _ h.2
    | layout b => simpa [Lexeme.whole] using ih _ h
    | line text => simpa [Lexeme.whole] using ih _ h
    | code c => simpa [Lexeme.whole] using ih _ h
    | dollar text => simpa [Lexeme.whole] using ih _ h
    | block text => simpa [Lexeme.whole] using ih _ h

theorem lexemes_normalize (law : lex.Lawful) (h : lexemes lex text = some ls) (hs : steady none ls = true) :
    ∃ ls', lexemes lex (normalize lex text) = some ls' ∧ pieces false ls' = pieces false ls ∧
      normalize lex (normalize lex text) = normalize lex text := by
  have hl := whole_of_steady ls none hs
  have hnorm := normalize_eq_render law h hl
  have hlexed := lexed_of_lexemes h
  obtain ⟨hn, hhead⟩ := @trim_noTrail lex text
  have hrhead : ∀ c, (render (pieces false ls)).head? = some c → lex.isDefinitionWhitespace c = false := by
    intro c hc
    rw [hlexed.render_head law hn] at hc
    obtain ⟨d, hd, rfl⟩ := Option.map_eq_some_iff.1 hc
    simp [hhead d hd]
  obtain ⟨ls', hls', hps, hall⟩ := hlexed.reread law none {} false hn hl hs (.none rfl) (by simp)
  have htrim : trim lex (normalize lex text) = render (pieces false ls) := by
    rw [hnorm]
    exact trim_eq_self (hlexed.render_noTrail law hn false) hrhead
  have hlex : lexemes lex (normalize lex text) = some ls' := by
    rw [lexemes, htrim]
    exact hls'.lexAll_eq law _ (Nat.le_refl _)
  refine ⟨ls', hlex, hps, ?_⟩
  rw [normalize_eq_render law hlex hall, hps, hnorm]

/-! ## The two lexica -/

theorem mssql_lawful : Lexicon.mssql.Lawful := by
  have cases : ∀ o c, Lexicon.mssql.closer o = some c → (o = '[' ∧ c = ']') ∨ (o = '"' ∧ c = '"') := by
    intro o c h
    by_cases h1 : '[' = o
    · subst h1; cases h; exact Or.inl ⟨rfl, rfl⟩
    · by_cases h2 : '"' = o
      · subst h2; cases h; exact Or.inr ⟨rfl, rfl⟩
      · simp [Lexicon.closer, Lexicon.mssql, h1, h2] at h
  refine ⟨fun o c h => ?_, fun o c h => ?_, fun h => ?_⟩
  · rcases cases o c h with ⟨rfl, rfl⟩ | ⟨rfl, rfl⟩ <;> decide
  · rcases cases o c h with ⟨rfl, rfl⟩ | ⟨rfl, rfl⟩ <;> decide
  · rcases h with h | h <;> cases h

theorem pg_lawful : Lexicon.pg.Lawful := by
  have cases : ∀ o c, Lexicon.pg.closer o = some c → o = '"' ∧ c = '"' := by
    intro o c h
    by_cases h1 : '"' = o
    · subst h1; cases h; exact ⟨rfl, rfl⟩
    · simp [Lexicon.closer, Lexicon.pg, h1] at h
  refine ⟨fun o c h => ?_, fun o c h => ?_, fun _ => rfl⟩
  · obtain ⟨rfl, rfl⟩ := cases o c h; decide
  · obtain ⟨rfl, rfl⟩ := cases o c h; decide

/-- Two definitions that are read whole compare equal only when layout is all that tells them apart,
and a comparison form is its own. -/
theorem normalizeDefinition_forgives_layout (lex : Lexicon) (hlex : lex = .mssql ∨ lex = .pg) (isWord : Char → Bool)
    (d₁ d₂ : String) (h₁ : readsWhole lex d₁.toList = true) (h₂ : readsWhole lex d₂.toList = true) :
    (lex.normalizeDefinition d₁ = lex.normalizeDefinition d₂ → tokens lex isWord d₁.toList = tokens lex isWord d₂.toList) ∧
    lex.normalizeDefinition (lex.normalizeDefinition d₁) = lex.normalizeDefinition d₁ := by
  have law : lex.Lawful := by
    rcases hlex with rfl | rfl
    · exact mssql_lawful
    · exact pg_lawful
  obtain ⟨ls₁, hls₁, hs₁⟩ := Option.any_eq_true _ _ |>.1 h₁
  obtain ⟨ls₂, hls₂, hs₂⟩ := Option.any_eq_true _ _ |>.1 h₂
  obtain ⟨ls₁', hn₁, hp₁, hidem⟩ := lexemes_normalize law hls₁ hs₁
  obtain ⟨ls₂', hn₂, hp₂, -⟩ := lexemes_normalize law hls₂ hs₂
  refine ⟨fun heq => ?_, ?_⟩
  · have heq := congrArg String.toList heq
    simp only [Lexicon.normalizeDefinition, String.toList_ofList] at heq
    rw [heq, hn₂] at hn₁
    cases hn₁
    simp only [tokens, hls₁, hls₂, Option.map_some, ← hp₁, hp₂]
  · simp only [Lexicon.normalizeDefinition, String.toList_ofList, hidem]

/-- A doubled closer, a comment and an escape string with layout around them. -/
theorem layout_of_modules_forgiven :
    (Lexicon.mssql.normalizeDefinition "SELECT  \"a\"\"  b\" -- x\n FROM [t]" =
      Lexicon.mssql.normalizeDefinition "SELECT \"a\"\"  b\"\n--  x\nFROM\t[t]" →
      tokens .mssql isAsciiAlphanumeric "SELECT  \"a\"\"  b\" -- x\n FROM [t]".toList =
        tokens .mssql isAsciiAlphanumeric "SELECT \"a\"\"  b\"\n--  x\nFROM\t[t]".toList) ∧
    Lexicon.pg.normalizeDefinition (Lexicon.pg.normalizeDefinition "SELECT  E'\\'  '\n'b' /* c  */ ") =
      Lexicon.pg.normalizeDefinition "SELECT  E'\\'  '\n'b' /* c  */ " :=
  ⟨(normalizeDefinition_forgives_layout .mssql (Or.inl rfl) isAsciiAlphanumeric _ _ (by decide)
    (by decide)).1,
   (normalizeDefinition_forgives_layout .pg (Or.inr rfl) isAsciiAlphanumeric _ "" (by decide)
    (by decide)).2⟩

/-- The scanner leaves a bracketed identifier at the first half of a doubled bracket, and the normal
form of a continued escape string reads its second half as a plain string. -/
theorem normalizeDefinition_folds_data :
    (closed .mssql "SELECT [a]]  b]".toList = true ∧ closed .mssql "SELECT [a]] b]".toList = true ∧
      Lexicon.mssql.normalizeDefinition "SELECT [a]]  b]" = Lexicon.mssql.normalizeDefinition "SELECT [a]] b]" ∧
      tokens .mssql isAsciiAlphanumeric "SELECT [a]]  b]".toList ≠ tokens .mssql isAsciiAlphanumeric "SELECT [a]] b]".toList) ∧
    (closed .pg "SELECT E'a'\n'b\\'  \\'c'".toList = true ∧
      Lexicon.pg.normalizeDefinition (Lexicon.pg.normalizeDefinition "SELECT E'a'\n'b\\'  \\'c'") ≠
        Lexicon.pg.normalizeDefinition "SELECT E'a'\n'b\\'  \\'c'") := by
  decide

end Pbps.Lexis
