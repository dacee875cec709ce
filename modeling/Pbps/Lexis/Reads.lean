/-
One lexeme read off a text, as a relation: what the text is made of where `next` answers, with what
each reader has split off. Both the scanner's run and the reading of a normal form go by its cases.
-/
import Pbps.Lexis.Lexeme
import Mathlib.Data.List.TakeWhile

namespace Pbps.Lexis

open List Bool
open Option (map_eq_some_iff)

/-- What the two lexica have in common that the scanner leans on. -/
structure Lexicon.Lawful (lex : Lexicon) : Prop where
  opener : ∀ o c, lex.closer o = some c →
    lex.isDefinitionWhitespace o = false ∧ o ≠ '-' ∧ o ≠ '/' ∧ o ≠ '\'' ∧ o ≠ '$' ∧ continuesIdent o = false
  closer : ∀ o c, lex.closer o = some c →
    lex.isDefinitionWhitespace c = false ∧ c ≠ '-' ∧ c ≠ '/' ∧ c ≠ '\'' ∧ c ≠ '$' ∧ continuesIdent c = false
  ascii : lex.dollarQuotedStrings = true ∨ lex.escapeStrings = true → lex.whitespaceIsAscii = true

variable {lex : Lexicon}

/-! ## Whitespace -/

theorem isDefinitionWhitespace_of_break {c : Char} (h : isBreak c = true) : lex.isDefinitionWhitespace c = true := by
  simp only [isBreak, or_eq_true, beq_iff_eq] at h
  have : isWhitespace c = true ∧ isAscii c = true := by rcases h with rfl | rfl <;> decide
  simp [Lexicon.isDefinitionWhitespace, this]

theorem isDefinitionWhitespace_space : lex.isDefinitionWhitespace ' ' = true := by
  have : isWhitespace ' ' = true ∧ isAscii ' ' = true := by decide
  simp [Lexicon.isDefinitionWhitespace, this]

@[simp] theorem isWhitespace_star : isWhitespace '*' = false := by decide

@[simp] theorem isWhitespace_slash : isWhitespace '/' = false := by decide

@[simp] theorem isWhitespace_dash : isWhitespace '-' = false := by decide

theorem not_layout {c : Char} (h : isWhitespace c = false) : lex.isDefinitionWhitespace c = false := by
  simp [Lexicon.isDefinitionWhitespace, h]

theorem continuesIdent_of_whitespace (hl : lex.whitespaceIsAscii = true) {c : Char}
    (h : lex.isDefinitionWhitespace c = true) : continuesIdent c = false := by
  simp only [Lexicon.isDefinitionWhitespace, hl, Bool.not_true, Bool.false_or, and_eq_true] at h
  obtain ⟨h1, h2⟩ := h
  simp only [isWhitespace, isAscii, or_eq_true, and_eq_true, decide_eq_true_eq, beq_iff_eq] at h1 h2
  have hn : (9 ≤ c.toNat ∧ c.toNat ≤ 13) ∨ c.toNat = 32 := by omega
  have h3 : ∀ k : Char, 36 ≤ k.toNat → c ≠ k := by
    rintro k hk rfl
    omega
  have h4 : ∀ a b : Char, 36 ≤ a.toNat → (decide (a ≤ c) && decide (c ≤ b)) = false := by
    intro a b ha
    have : ¬ a ≤ c := by
      intro hac
      have : a.toNat ≤ c.toNat := hac
      omega
    simp [this]
  have h5 : isAscii c = true := by simp [isAscii, h2]
  simp only [continuesIdent, isAsciiAlphanumeric, h4 '0' '9' (by decide), h4 'a' 'z' (by decide), h4 'A' 'Z' (by decide),
    Bool.or_false, beq_eq_false_iff_ne.2 (h3 '_' (by decide)), beq_eq_false_iff_ne.2 (h3 '$' (by decide)), h5, Bool.not_true]

def NoTrail (lex : Lexicon) (text : List Char) : Prop := ∀ c, text.getLast? = some c → lex.isDefinitionWhitespace c = false

section

variable {text rest r : List Char} {ctx ctx' : Context} {l : Lexeme}

theorem NoTrail.suffix (h : NoTrail lex text) (hs : rest <:+ text) : NoTrail lex rest := by
  intro c hc
  obtain ⟨p, rfl⟩ := hs
  refine h c ?_
  rw [getLast?_append, hc]
  rfl

theorem foldSpace_getLast : ∀ (cs : List Char) (p : Bool), foldSpace p cs ≠ [] →
    ∃ x, (foldSpace p cs).getLast? = some x ∧ isWhitespace x = false
  | [], _, h => absurd rfl h
  | c :: cs, p, h => by
    unfold foldSpace at h ⊢
    split
    · rename_i hw
      rw [if_pos hw] at h
      exact foldSpace_getLast cs true h
    · rename_i hw
      have key : ∃ x, (c :: foldSpace false cs).getLast? = some x ∧ isWhitespace x = false := by
        by_cases hn : foldSpace false cs = []
        · exact ⟨c, by rw [hn]; rfl, by simpa using hw⟩
        · obtain ⟨x, hx, hxw⟩ := foldSpace_getLast cs false hn
          refine ⟨x, ?_, hxw⟩
          cases hf : foldSpace false cs with
          | nil => exact absurd hf hn
          | cons a as => rw [getLast?_cons_cons, ← hf, hx]
      split
      · obtain ⟨x, hx, hxw⟩ := key
        exact ⟨x, by rw [getLast?_cons_cons, hx], hxw⟩
      · exact key

/-! ## Regions -/

/-- A reader that goes on where a shorter reading left off has only put its own characters before it. -/
theorem read_of_map (f : List Char → List Char) {o : Option (List Char × List Char)}
    (h : o.map (fun p => (f p.1, p.2)) = some (text, r)) : ∃ text', o = some (text', r) ∧ text = f text' := by
  obtain ⟨⟨text', r'⟩, h', heq⟩ := map_eq_some_iff.1 h
  cases heq
  exact ⟨text', h', rfl⟩

theorem getLast?_cons_of {c d : Char} (h : text.getLast? = some d) : (c :: text).getLast? = some d := by
  rw [getLast?_cons, h]
  rfl

theorem readQuoted_split {close : Char} (cs : List Char) (h : readQuoted close cs = some (text, r)) :
    cs = text ++ r ∧ text.getLast? = some close := by
  fun_induction readQuoted close cs generalizing text r with
  | case1 => cases h
  | case2 => cases h; simp_all
  | case3 => cases h
  | case4 cs ih =>
    obtain ⟨text', h', rfl⟩ := read_of_map (_ :: _ :: ·) h
    obtain ⟨h1, h2⟩ := ih h'
    exact ⟨by rw [h1]; rfl, getLast?_cons_of (getLast?_cons_of h2)⟩
  | case5 d cs hd => cases h; simp
  | case6 c d cs hc ih =>
    obtain ⟨text', h', rfl⟩ := read_of_map (c :: ·) h
    obtain ⟨h1, h2⟩ := ih h'
    exact ⟨by rw [h1]; rfl, getLast?_cons_of h2⟩

theorem readEscape_split (cs : List Char) (h : readEscape cs = some (text, r)) :
    cs = text ++ r ∧ text.getLast? = some '\'' := by
  fun_induction readEscape cs generalizing text r with
  | case1 => cases h
  | case2 => cases h; simp
  | case3 => cases h
  | case4 c d cs hc ih =>
    obtain ⟨text', h', rfl⟩ := read_of_map (c :: d :: ·) h
    obtain ⟨h1, h2⟩ := ih h'
    exact ⟨by rw [h1]; rfl, getLast?_cons_of (getLast?_cons_of h2)⟩
  | case5 => cases h; simp
  | case6 c d cs hc hq ih =>
    obtain ⟨text', h', rfl⟩ := read_of_map (c :: ·) h
    obtain ⟨h1, h2⟩ := ih h'
    exact ⟨by rw [h1]; rfl, getLast?_cons_of h2⟩

theorem readDollar_split {tag : List Char} (htag : tag ≠ []) (cs : List Char) (h : readDollar tag cs = some (text, r)) :
    cs = text ++ r ∧ tag <:+ text ∧ ∀ w, w <+: text → tag <:+ w → w = text := by
  fun_induction readDollar tag cs generalizing text r with
  | case1 => cases h
  | case2 c cs hp =>
    cases h
    obtain ⟨r, hr⟩ := isPrefixOf_iff_prefix.1 hp
    refine ⟨?_, suffix_refl _, fun w hw hs => ?_⟩
    · rw [← hr]; simp
    · exact List.IsPrefix.eq_of_length_le hw hs.length_le
  | case3 c cs hp ih =>
    obtain ⟨text', h', rfl⟩ := read_of_map (c :: ·) h
    obtain ⟨h1, h2, h3⟩ := ih h'
    refine ⟨by rw [h1]; rfl, h2.trans (suffix_cons _ _), fun w hw hs => ?_⟩
    cases w with
    | nil => exact absurd (suffix_nil.1 hs) htag
    | cons a w =>
      obtain ⟨rfl, hw'⟩ := cons_prefix_cons.1 hw
      rcases suffix_cons_iff.1 hs with rfl | hs
      · refine absurd ( isPrefixOf_iff_prefix.2 ?_) hp
        rw [h1]
        exact cons_prefix_cons.2 ⟨rfl, hw'.trans (prefix_append _ _)⟩
      · rw [h3 w hw' hs]

theorem readBlock_split (depth : Nat) (cs : List Char) (h : readBlock depth cs = some (text, r)) :
    cs = text ++ r ∧ ['*', '/'] <:+ text := by
  fun_induction readBlock depth cs generalizing text r with
  | case1 => cases h
  | case2 => cases h
  | case3 c d cs hc =>
    obtain ⟨rfl, rfl⟩ := hc
    cases h; exact ⟨rfl, suffix_refl _⟩
  | case4 c d cs hc depth ih =>
    obtain ⟨text', h', rfl⟩ := read_of_map (c :: d :: ·) h
    obtain ⟨h1, h2⟩ := ih h'
    exact ⟨by rw [h1]; rfl, (h2.trans (suffix_cons _ _)).trans (suffix_cons _ _)⟩
  | case5 depth c d cs h1 h2 ih =>
    obtain ⟨text', h', rfl⟩ := read_of_map (c :: d :: ·) h
    obtain ⟨h3, h4⟩ := ih h'
    exact ⟨by rw [h3]; rfl, (h4.trans (suffix_cons _ _)).trans (suffix_cons _ _)⟩
  | case6 depth c d cs h1 h2 ih =>
    obtain ⟨text', h', rfl⟩ := read_of_map (c :: ·) h
    obtain ⟨h3, h4⟩ := ih h'
    exact ⟨by rw [h3]; rfl, h4.trans (suffix_cons _ _)⟩

/-! ## One lexeme -/

/-- What `next` reads. -/
inductive Reads (lex : Lexicon) (ctx : Context) : List Char → Lexeme → Context → List Char → Prop
  | layout {run rest : List Char} (hne : run ≠ []) (hw : run.all lex.isDefinitionWhitespace = true)
      (hrest : ∀ c, rest.head? = some c → lex.isDefinitionWhitespace c = false) :
      Reads lex ctx (run ++ rest) (.layout (run.any isBreak))
        { ctx with ident := false, e := false, broken := ctx.broken || run.any isBreak } rest
  | dollar {tag text rest : List Char} (hd : lex.dollarQuotedStrings = true) (hi : ctx.ident = false)
      (ht : dollarTag (tag ++ (text ++ rest)) = some ('$' :: tag))
      (hr : readDollar ('$' :: tag) (text ++ rest) = some (text, rest)) :
      Reads lex ctx ('$' :: tag ++ (text ++ rest)) (.dollar ('$' :: tag ++ text)) { ident := true } rest
  | lineEnd {body : List Char} (hh : body.head? = some '-') (hb : body.all (!isBreak ·) = true) :
      Reads lex ctx ('-' :: body) (.line (foldSpace false ('-' :: body))) { armed := ctx.armed, broken := true } []
  | lineBreak {body rest : List Char} {b : Char} (hh : body.head? = some '-') (hb : body.all (!isBreak ·) = true)
      (hbreak : isBreak b = true) :
      Reads lex ctx ('-' :: body ++ b :: rest) (.line (foldSpace false ('-' :: body)))
        { armed := ctx.armed, broken := true } rest
  | block {text rest : List Char} (hr : readBlock 0 (text ++ rest) = some (text, rest)) :
      Reads lex ctx ('/' :: '*' :: (text ++ rest)) (.block (foldSpace false ('/' :: '*' :: text))) {} rest
  | escape {text rest : List Char} (hl : lex.escapeStrings = true)
      (hc : (ctx.armed = true ∧ ctx.broken = true) ∨ ctx.e = true) (hr : readEscape (text ++ rest) = some (text, rest)) :
      Reads lex ctx ('\'' :: (text ++ rest)) (.escape ('\'' :: text)) { armed := true } rest
  | string {text rest : List Char}
      (hn : lex.escapeStrings = true → ¬ ((ctx.armed = true ∧ ctx.broken = true) ∨ ctx.e = true))
      (hr : readQuoted '\'' (text ++ rest) = some (text, rest)) :
      Reads lex ctx ('\'' :: (text ++ rest)) (.quoted '\'' ('\'' :: text)) {} rest
  | identifier {o close : Char} {text rest : List Char} (ho : lex.closer o = some close)
      (hr : readQuoted close (text ++ rest) = some (text, rest)) :
      Reads lex ctx (o :: (text ++ rest)) (.quoted close (o :: text)) {} rest
  | code {c : Char} {rest : List Char} (hw : lex.isDefinitionWhitespace c = false)
      (hd : lex.dollarQuotedStrings = true → c = '$' → ctx.ident = false → dollarTag rest = none)
      (h1 : ¬ (c = '-' ∧ rest.head? = some '-')) (h2 : ¬ (c = '/' ∧ rest.head? = some '*')) (h3 : c ≠ '\'')
      (h4 : lex.closer c = none) :
      Reads lex ctx (c :: rest) (.code c) { ident := continuesIdent c, e := (c == 'e' || c == 'E') && !ctx.ident } rest

theorem tagBody_getLast : ∀ (first : Bool) (cs : List Char) {tag : List Char}, tagBody first cs = some tag →
    tag.getLast? = some '$'
  | _, [], _, h => by cases h
  | first, c :: cs, tag, h => by
    unfold tagBody at h
    split at h
    · cases h; rfl
    · split at h
      · cases h
      · obtain ⟨tag', h', rfl⟩ := map_eq_some_iff.1 h
        have := tagBody_getLast false cs h'
        rw [getLast?_cons, this]
        rfl

theorem text_getLast_of_dollar {tag cs : List Char} (ht : dollarTag cs = some ('$' :: tag)) (hend : '$' :: tag <:+ text) :
    text.getLast? = some '$' := by
  obtain ⟨tag', h', heq⟩ := map_eq_some_iff.1 ht
  cases heq
  have hlast := tagBody_getLast true cs h'
  obtain ⟨p, rfl⟩ := hend
  rw [getLast?_append, getLast?_cons, hlast]
  rfl

theorem tagBody_split : ∀ (first : Bool) (cs : List Char) {tag : List Char}, tagBody first cs = some tag →
    ∃ rest, cs = tag ++ rest
  | _, [], _, h => by cases h
  | first, c :: cs, tag, h => by
    unfold tagBody at h
    split at h
    · rename_i hc; cases h; exact ⟨cs, by rw [hc]; rfl⟩
    · split at h
      · cases h
      · obtain ⟨tag', h', rfl⟩ := map_eq_some_iff.1 h
        obtain ⟨rest, hr⟩ := tagBody_split false cs h'
        exact ⟨rest, by rw [hr]; rfl⟩

/-- What `next` answers, by its cases. -/
theorem reads_of_next (h : next lex ctx text = some (l, ctx', rest)) : Reads lex ctx text l ctx' rest := by
  cases text with
  | nil => cases h
  | cons ch cs =>
    rw [next] at h
    split at h
    · rename_i hw
      cases h
      have htake : cs = cs.takeWhile lex.isDefinitionWhitespace ++ cs.dropWhile lex.isDefinitionWhitespace :=
        takeWhile_append_dropWhile.symm
      have hall : (ch :: cs.takeWhile lex.isDefinitionWhitespace).all lex.isDefinitionWhitespace = true := by
        simp only [all_cons, hw, Bool.true_and, all_eq_true]
        exact fun x hx => mem_takeWhile_imp hx
      have hrest : ∀ c, (cs.dropWhile lex.isDefinitionWhitespace).head? = some c → lex.isDefinitionWhitespace c = false := by
        intro c hc
        have := head?_dropWhile_not lex.isDefinitionWhitespace cs
        rw [hc] at this
        simpa using this
      have : Reads lex ctx (ch :: cs.takeWhile lex.isDefinitionWhitespace ++ cs.dropWhile lex.isDefinitionWhitespace) _ _ _ :=
        .layout (cons_ne_nil ch _) hall hrest
      rw [cons_append, ← htake] at this
      simpa using this
    · rename_i hw
      have hw : lex.isDefinitionWhitespace ch = false := by simpa using hw
      split at h
      · rename_i tag htag
        split at htag
        · rename_i hd
          simp only [and_eq_true, beq_iff_eq, not_eq_true'] at hd
          obtain ⟨⟨hd, rfl⟩, hi⟩ := hd
          obtain ⟨body, hbody, rfl⟩ := map_eq_some_iff.1 htag
          obtain ⟨cs', rfl⟩ := tagBody_split true cs hbody
          obtain ⟨⟨text, r⟩, hr, heq⟩ := map_eq_some_iff.1 h
          cases heq
          rw [length_cons, Nat.add_sub_cancel, drop_left] at hr
          obtain ⟨rfl, -⟩ := readDollar_split (by simp) cs' hr
          exact .dollar hd hi htag hr
        · cases htag
      · rename_i htag
        have hd : lex.dollarQuotedStrings = true → ch = '$' → ctx.ident = false → dollarTag cs = none := by
          rintro h1 rfl h2
          simpa [h1, h2] using htag
        split at h
        · rename_i hc
          obtain ⟨rfl, hh⟩ := hc
          cases h
          have htake := (takeWhile_append_dropWhile (p := fun c => !isBreak c) (l := cs)).symm
          have hall : (cs.takeWhile fun c => !isBreak c).all (fun c => !isBreak c) = true :=
            all_eq_true.2 fun x (hx : x ∈ cs.takeWhile fun c => !isBreak c) => by simpa using mem_takeWhile_imp hx
          have hhead : (cs.takeWhile fun c => !isBreak c).head? = some '-' := by
            cases cs with
            | nil => cases hh
            | cons a as => cases hh; rfl
          cases hdrop : cs.dropWhile fun c => !isBreak c with
          | nil =>
            rw [hdrop, append_nil] at htake
            rw [← htake] at hall hhead ⊢
            exact .lineEnd hhead hall
          | cons b r =>
            have hbreak : isBreak b = true := by
              have := head?_dropWhile_not (fun c => !isBreak c) cs
              rw [hdrop] at this
              simpa using this
            have : Reads lex ctx ('-' :: cs.takeWhile (fun c => !isBreak c) ++ b :: r) _ _ r :=
              .lineBreak hhead hall hbreak
            rw [hdrop] at htake
            rw [cons_append, ← htake] at this
            exact this
        · rename_i h1
          split at h
          · rename_i hc
            obtain ⟨rfl, hh⟩ := hc
            obtain ⟨⟨text, r⟩, hr, heq⟩ := map_eq_some_iff.1 h
            cases heq
            cases cs with
            | nil => cases hh
            | cons a as =>
              cases hh
              obtain ⟨has, -⟩ := readBlock_split 0 _ hr
              rw [drop_one, tail_cons] at has hr
              subst has
              exact .block hr
          · rename_i h2
            split at h
            · rename_i hq
              subst hq
              split at h
              · rename_i hl
                simp only [and_eq_true, or_eq_true] at hl
                obtain ⟨⟨text, r⟩, hr, heq⟩ := map_eq_some_iff.1 h
                cases heq
                obtain ⟨rfl, -⟩ := readEscape_split cs hr
                exact .escape hl.1 hl.2 hr
              · rename_i hl
                obtain ⟨⟨text, r⟩, hr, heq⟩ := map_eq_some_iff.1 h
                cases heq
                obtain ⟨rfl, -⟩ := readQuoted_split cs hr
                refine .string (fun he hc => hl ?_) hr
                simp only [and_eq_true, or_eq_true]
                exact ⟨he, hc⟩
            · rename_i h3
              split at h
              · rename_i close ho
                obtain ⟨⟨text, r⟩, hr, heq⟩ := map_eq_some_iff.1 h
                cases heq
                obtain ⟨rfl, -⟩ := readQuoted_split cs hr
                exact .identifier ho hr
              · rename_i ho
                cases h
                exact .code hw hd h1 h2 h3 ho

theorem takeWhile_dropWhile_run {p : Char → Bool} (run rest : List Char) (hw : run.all p = true)
    (hrest : ∀ c, rest.head? = some c → p c = false) : (run ++ rest).takeWhile p = run ∧ (run ++ rest).dropWhile p = rest := by
  have hall : ∀ x ∈ run, p x = true := all_eq_true.1 hw
  rw [takeWhile_append_of_pos hall, dropWhile_append_of_pos hall]
  cases rest with
  | nil => simp
  | cons c rest => simp [hrest c rfl]

theorem next_of_reads (law : lex.Lawful) (h : Reads lex ctx text l ctx' rest) : next lex ctx text = some (l, ctx', rest) := by
  have hquote : lex.isDefinitionWhitespace '\'' = false := not_layout (by decide)
  cases h with
  | layout hne hw hrest =>
    rename_i run
    cases run with
    | nil => exact absurd rfl hne
    | cons c run =>
      simp only [all_cons, and_eq_true] at hw
      obtain ⟨htake, hdrop⟩ := takeWhile_dropWhile_run run rest hw.2 hrest
      rw [cons_append, next, if_pos hw.1, htake, hdrop]
      simp
  | dollar hd hi ht hr =>
    rename_i tag text
    simp [next, not_layout (show isWhitespace '$' = false by decide), hd, hi, ht, hr]
  | lineEnd hh hb =>
    rename_i body
    obtain ⟨htake, hdrop⟩ := takeWhile_dropWhile_run body [] hb (by simp)
    rw [append_nil] at htake hdrop
    simp [next, not_layout isWhitespace_dash, hh, htake, hdrop]
  | lineBreak hh hb hbreak =>
    rename_i body b
    obtain ⟨htake, hdrop⟩ := takeWhile_dropWhile_run body (b :: rest) hb (by simpa using hbreak)
    have hh : (body ++ b :: rest).head? = some '-' := by
      rw [head?_append, hh]
      rfl
    simp [next, not_layout isWhitespace_dash, hh, htake, hdrop]
  | block hr => simp [next, not_layout isWhitespace_slash, hr]
  | escape hl hc hr => simp [next, hquote, hl, hc, hr]
  | string hn hr =>
    have : (lex.escapeStrings && (ctx.armed && ctx.broken || ctx.e)) = false := by
      cases he : lex.escapeStrings with
      | false => rfl
      | true => simpa using hn he
    simp [next, hquote, this, hr]
  | identifier ho hr =>
    obtain ⟨h1, h2, h3, h4, h5, -⟩ := law.opener _ _ ho
    simp [next, h1, h2, h3, h4, h5, ho, hr]
  | code hw hd h1 h2 h3 h4 =>
    rename_i c
    have htag : (if lex.dollarQuotedStrings && c == '$' && !ctx.ident then dollarTag rest else none) = none := by
      split
      · rename_i h
        simp only [and_eq_true, beq_iff_eq, not_eq_true'] at h
        exact hd h.1.1 h.1.2 h.2
      · rfl
    rw [next, hw, if_neg Bool.false_ne_true, htag]
    simp [h1, h2, h3, h4]

/-! ## What a lexeme leaves -/

theorem Reads.suffix (h : Reads lex ctx text l ctx' rest) : rest <:+ text := by
  cases h with
  | layout => exact suffix_append _ _
  | dollar => exact (suffix_append _ _).trans (suffix_append _ _)
  | lineEnd => exact nil_suffix
  | lineBreak => exact (suffix_cons _ _).trans (suffix_append _ _)
  | block => exact ((suffix_append _ _).trans (suffix_cons _ _)).trans (suffix_cons _ _)
  | escape => exact (suffix_append _ _).trans (suffix_cons _ _)
  | string => exact (suffix_append _ _).trans (suffix_cons _ _)
  | identifier => exact (suffix_append _ _).trans (suffix_cons _ _)
  | code => exact suffix_cons _ _

end

def Lexeme.text : Lexeme → List Char
  | .layout _ => []
  | .code c => [c]
  | .quoted _ text | .escape text | .dollar text | .line text | .block text => text

variable {text rest r : List Char} {ctx ctx' : Context} {l : Lexeme}

theorem Reads.text_getLast (law : lex.Lawful) (h : Reads lex ctx text l ctx' rest) (hl : ∀ b, l ≠ .layout b) :
    ∃ x, l.text.getLast? = some x ∧ lex.isDefinitionWhitespace x = false := by
  have comment : ∀ c cs, isWhitespace c = false →
      ∃ x, (foldSpace false (c :: cs)).getLast? = some x ∧ lex.isDefinitionWhitespace x = false := by
    intro c cs hc
    obtain ⟨x, hx, hw⟩ := foldSpace_getLast (c :: cs) false (by simp [foldSpace, hc])
    exact ⟨x, hx, not_layout hw⟩
  cases h with
  | layout => exact absurd rfl (hl _)
  | dollar hd hi ht hr =>
    have hlast := text_getLast_of_dollar ht (readDollar_split (by simp) _ hr).2.1
    exact ⟨'$', by rw [Lexeme.text, getLast?_append, hlast]; rfl, not_layout (by decide)⟩
  | lineEnd => exact comment _ _ (by decide)
  | lineBreak => exact comment _ _ (by decide)
  | block => exact comment _ _ (by decide)
  | escape hesc hc hr => exact ⟨_, getLast?_cons_of (readEscape_split _ hr).2, not_layout (by decide)⟩
  | string hplain hr => exact ⟨_, getLast?_cons_of (readQuoted_split _ hr).2, not_layout (by decide)⟩
  | identifier ho hr => exact ⟨_, getLast?_cons_of (readQuoted_split _ hr).2, (law.closer _ _ ho).1⟩
  | code hw => exact ⟨_, rfl, hw⟩

theorem Reads.layout_rest {b : Bool} (h : Reads lex ctx text (.layout b) ctx' rest) (hn : NoTrail lex text) :
    rest ≠ [] ∧ (∀ c, rest.head? = some c → lex.isDefinitionWhitespace c = false) ∧
      ∃ c, text.head? = some c ∧ lex.isDefinitionWhitespace c = true := by
  cases h with
  | layout hne hw hrest =>
    rename_i run
    refine ⟨?_, hrest, ?_⟩
    · rintro rfl
      rw [append_nil] at hn
      have := hn _ (getLast?_eq_some_getLast hne)
      rw [all_eq_true.1 hw _ (getLast_mem hne)] at this
      cases this
    · cases run with
      | nil => exact absurd rfl hne
      | cons c run => exact ⟨c, rfl, all_eq_true.1 hw c (mem_cons_self ..)⟩

theorem Reads.length_lt (h : Reads lex ctx text l ctx' rest) : rest.length < text.length := by
  cases h with
  | layout hne =>
    have := length_pos_iff.2 hne
    rw [length_append]
    omega
  | dollar => simp only [length_append, length_cons]; omega
  | lineEnd => exact Nat.zero_lt_succ _
  | lineBreak => simp only [length_append, length_cons]; omega
  | block => simp only [length_append, length_cons]; omega
  | escape => simp only [length_append, length_cons]; omega
  | string => simp only [length_append, length_cons]; omega
  | identifier => simp only [length_append, length_cons]; omega
  | code => exact Nat.lt_succ_self _

/-! ## The lexemes of a text -/

/-- A text is read as these lexemes. -/
inductive Lexed (lex : Lexicon) : Context → List Char → List Lexeme → Prop
  | nil {ctx : Context} : Lexed lex ctx [] []
  | cons {ctx ctx' : Context} {text rest : List Char} {l : Lexeme} {ls : List Lexeme}
      (first : Reads lex ctx text l ctx' rest) (others : Lexed lex ctx' rest ls) : Lexed lex ctx text (l :: ls)

theorem lexed_of_lexAll (n : Nat) (ctx : Context) (text : List Char) (ls : List Lexeme) (h : lexAll lex n ctx text = some ls) :
    Lexed lex ctx text ls := by
  induction n generalizing ctx text ls with
  | zero =>
    cases text with
    | nil => cases h; exact .nil
    | cons c cs => cases h
  | succ n ih =>
    cases text with
    | nil => cases h; exact .nil
    | cons c cs =>
      obtain ⟨⟨l, ctx', rest⟩, hnext, h⟩ := Option.bind_eq_some_iff.1 h
      obtain ⟨ls', hls, rfl⟩ := map_eq_some_iff.1 h
      exact .cons (reads_of_next hnext) (ih ctx' rest ls' hls)

theorem Lexed.lexAll_eq (law : lex.Lawful) {ls : List Lexeme} (h : Lexed lex ctx text ls) :
    ∀ n, text.length ≤ n → lexAll lex n ctx text = some ls := by
  induction h with
  | nil => intro n _; cases n <;> rfl
  | cons first others ih =>
    intro n hn
    have hlt := first.length_lt
    have hnext := next_of_reads law first
    rename_i text _ _ _
    cases text with
    | nil => cases hnext
    | cons c cs =>
      cases n with
      | zero => cases hn
      | succ n =>
        have hls := ih n (by omega)
        simp [lexAll, hnext, hls]

end Pbps.Lexis
