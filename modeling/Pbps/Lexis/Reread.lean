/-
A normal form read again: it has the pieces of the text it was written for.
-/
import Pbps.Lexis.Render

namespace Pbps.Lexis

open List Option

variable {lex : Lexicon}

/-! ## A region before something else -/

variable {text r rest : List Char} {c : Char} {ctx ctx' : Context} {l : Lexeme} {ls : List Lexeme}
variable {st : Option (Bool × Bool)}

variable {close : Char} {cs : List Char}

theorem readQuoted_append (cs : List Char) (h : readQuoted close cs = some (text, r)) :
    r.head? ≠ some close ∧ ∀ r' : List Char, r'.head? ≠ some close → readQuoted close (text ++ r') = some (text, r') := by
  fun_induction readQuoted close cs generalizing text r with
  | case1 => cases h
  | case2 =>
    cases h
    refine ⟨by simp, fun r' hr => ?_⟩
    cases r' with
    | nil => simp [readQuoted]
    | cons d r' =>
      have : d ≠ close := fun h => hr (by rw [h]; rfl)
      simp [readQuoted, this]
  | case3 => cases h
  | case4 cs ih =>
    obtain ⟨text', h', rfl⟩ := read_of_map (close :: close :: ·) h
    obtain ⟨h1, h2⟩ := ih h'
    refine ⟨h1, fun r' hr => ?_⟩
    simp [readQuoted, h2 r' hr]
  | case5 d cs hd =>
    cases h
    refine ⟨by simpa using hd, fun r' hr => ?_⟩
    cases r' with
    | nil => simp [readQuoted]
    | cons d r' =>
      have : d ≠ close := fun h => hr (by rw [h]; rfl)
      simp [readQuoted, this]
  | case6 c d cs hc ih =>
    obtain ⟨text', h', rfl⟩ := read_of_map (c :: ·) h
    obtain ⟨h1, h2⟩ := ih h'
    refine ⟨h1, fun r' hr => ?_⟩
    cases text' with
    | nil => cases (readQuoted_split _ h').2
    | cons a text' =>
      have := h2 r' hr
      rw [cons_append] at this
      simp [readQuoted, hc, this]

theorem readEscape_append (cs : List Char) (h : readEscape cs = some (text, r)) :
    r.head? ≠ some '\'' ∧ ∀ r' : List Char, r'.head? ≠ some '\'' → readEscape (text ++ r') = some (text, r') := by
  -- the closing quote before something else
  have last : ∀ r' : List Char, r'.head? ≠ some '\'' → readEscape (['\''] ++ r') = some (['\''], r') := by
    intro r' hr
    cases r' with
    | nil => rfl
    | cons d r' =>
      have : d ≠ '\'' := fun h => hr (by rw [h]; rfl)
      simp [readEscape, this]
  fun_induction readEscape cs generalizing text r with
  | case1 => cases h
  | case2 => cases h; exact ⟨by simp, last⟩
  | case3 => cases h
  | case4 c d cs hc ih =>
    obtain ⟨text', h', rfl⟩ := read_of_map (c :: d :: ·) h
    obtain ⟨h1, h2⟩ := ih h'
    refine ⟨h1, fun r' hr => ?_⟩
    rw [cons_append, cons_append, readEscape, if_pos hc, h2 r' hr]
    rfl
  | case5 d cs hc =>
    cases h
    refine ⟨?_, last⟩
    intro hd
    exact hc (Or.inr ⟨rfl, some.inj hd⟩)
  | case6 c d cs hc hq ih =>
    obtain ⟨text', h', rfl⟩ := read_of_map (c :: ·) h
    obtain ⟨h1, h2⟩ := ih h'
    refine ⟨h1, fun r' hr => ?_⟩
    obtain ⟨hcs, -⟩ := readEscape_split _ h'
    cases text' with
    | nil => cases (readEscape_split _ h').2
    | cons a text' =>
      cases hcs
      have := h2 r' hr
      rw [cons_append] at this
      rw [cons_append, cons_append, readEscape, if_neg hc, if_neg hq, this]
      rfl

theorem readQuoted_cons (hc : c ≠ close) (cs : List Char) :
    readQuoted close (c :: cs) = (readQuoted close cs).map fun p => (c :: p.1, p.2) := by
  cases cs with
  | nil => simp [readQuoted, hc]
  | cons d cs => rw [readQuoted, if_neg hc]

theorem hasEscapedQuote_cons (hc : c ≠ '\\') (cs : List Char) : hasEscapedQuote (c :: cs) = hasEscapedQuote cs := by
  cases cs with
  | nil => rfl
  | cons d cs => rw [hasEscapedQuote, if_neg hc]

theorem readQuoted_of_readEscape (cs : List Char) (h : readEscape cs = some (text, r)) (hq : hasEscapedQuote text = false) :
    readQuoted '\'' cs = some (text, r) := by
  fun_induction readEscape cs generalizing text r with
  | case1 => cases h
  | case2 => cases h; rfl
  | case3 => cases h
  | case4 c d cs hc ih =>
    obtain ⟨text', h', rfl⟩ := read_of_map (c :: d :: ·) h
    rcases hc with rfl | ⟨rfl, rfl⟩
    · simp only [hasEscapedQuote, if_true, Bool.or_eq_false_iff, beq_eq_false_iff_ne] at hq
      rw [readQuoted_cons (by decide), readQuoted_cons hq.1, ih h' hq.2]
      rfl
    · rw [hasEscapedQuote_cons (by decide), hasEscapedQuote_cons (by decide)] at hq
      rw [readQuoted, if_pos rfl, if_pos rfl, ih h' hq]
      rfl
  | case5 d cs hc =>
    cases h
    have hd : d ≠ '\'' := fun h => hc (Or.inr ⟨rfl, h⟩)
    rw [readQuoted, if_pos rfl, if_neg hd]
  | case6 c d cs hc hcq ih =>
    obtain ⟨text', h', rfl⟩ := read_of_map (c :: ·) h
    rw [hasEscapedQuote_cons fun h => hc (Or.inl h)] at hq
    rw [readQuoted_cons hcq, ih h' hq]
    rfl

theorem readDollar_append {tag : List Char} (htag : tag ≠ []) (cs : List Char) (h : readDollar tag cs = some (text, r))
    (r' : List Char) : readDollar tag (text ++ r') = some (text, r') := by
  fun_induction readDollar tag cs generalizing text r with
  | case1 => cases h
  | case2 c cs hp =>
    cases h
    obtain ⟨a, tag', rfl⟩ := exists_cons_of_ne_nil htag
    have hpre := isPrefixOf_iff_prefix.2 (prefix_append (a :: tag') r')
    rw [cons_append] at hpre
    rw [cons_append, readDollar, if_pos hpre, ← cons_append, drop_left]
  | case3 c cs hp ih =>
    obtain ⟨text', h', rfl⟩ := read_of_map (c :: ·) h
    obtain ⟨hcs, hend, -⟩ := readDollar_split htag cs h'
    have hnot : ¬ tag.isPrefixOf (c :: (text' ++ r')) = true := by
      intro hpre
      refine hp ( isPrefixOf_iff_prefix.2 ?_)
      -- the tag is no longer than what is left of the string, so it does not reach beyond it
      have : tag <+: c :: text' :=
        prefix_of_prefix_length_le ( isPrefixOf_iff_prefix.1 hpre) (prefix_append (c :: text') r')
          (by have := hend.length_le; rw [length_cons]; omega)
      rw [hcs]
      exact this.trans (prefix_append (c :: text') _)
    rw [cons_append, readDollar, if_neg hnot, ih h']
    rfl

theorem tagBody_append : ∀ (first : Bool) (cs : List Char) {tag : List Char}, tagBody first cs = some tag →
    ∀ r', tagBody first (tag ++ r') = some tag
  | _, [], _, h, _ => by cases h
  | first, c :: cs, tag, h, r' => by
    unfold tagBody at h
    split at h
    · cases h; simp [tagBody]
    · rename_i hc
      split at h
      · cases h
      · rename_i hi
        obtain ⟨tag', h', rfl⟩ := map_eq_some_iff.1 h
        rw [cons_append, tagBody, if_neg hc, if_neg hi, tagBody_append false cs h' r']
        rfl

/-! ## Comments -/

theorem foldSpace_plain (hw : isWhitespace c = false) (cs : List Char) :
    foldSpace false (c :: cs) = c :: foldSpace false cs := by
  simp [foldSpace, hw]

theorem foldSpace_idem : ∀ (p : Bool) (cs : List Char), foldSpace false (foldSpace p cs) = foldSpace p cs
  | _, [] => rfl
  | p, c :: cs => by
    have hspace : isWhitespace ' ' = true := by decide
    by_cases hw : isWhitespace c = true
    · simpa [foldSpace, hw] using foldSpace_idem true cs
    · have ih := foldSpace_idem false cs
      cases p <;> simp [foldSpace, hw, hspace, ih]

theorem foldSpace_all {q : Char → Bool} (hq : q ' ' = true) : ∀ (p : Bool) (cs : List Char), cs.all q = true →
    (foldSpace p cs).all q = true
  | _, [], _ => rfl
  | p, c :: cs, h => by
    simp only [all_cons, Bool.and_eq_true] at h
    have ht := foldSpace_all hq true cs h.2
    have hf := foldSpace_all hq false cs h.2
    unfold foldSpace
    split
    · exact ht
    · split
      · simp only [all_cons, hq, h.1, hf, Bool.and_self]
      · simp only [all_cons, h.1, hf, Bool.and_self]

theorem foldSpace_head (c : Char) (cs : List Char) {x : Char} (h : (foldSpace false (c :: cs)).head? = some x) :
    x = c ∨ x = ' ' := by
  have pending : ∀ cs : List Char, (foldSpace true cs).head? = some x → x = ' ' := by
    intro cs
    induction cs with
    | nil => simp [foldSpace]
    | cons d cs ih =>
      unfold foldSpace
      split
      · exact ih
      · intro h; exact (some.inj h).symm
  unfold foldSpace at h
  split at h
  · exact Or.inr (pending cs h)
  · exact Or.inl (some.inj h).symm

theorem readBlock_cons {depth : Nat} (h1 : ¬ (c = '*' ∧ cs.head? = some '/')) (h2 : ¬ (c = '/' ∧ cs.head? = some '*')) :
    readBlock depth (c :: cs) = (readBlock depth cs).map fun p => (c :: p.1, p.2) := by
  cases cs with
  | nil => simp [readBlock]
  | cons d cs =>
    have h1 : ¬ (c = '*' ∧ d = '/') := fun h => h1 ⟨h.1, by rw [h.2]; rfl⟩
    have h2 : ¬ (c = '/' ∧ d = '*') := fun h => h2 ⟨h.1, by rw [h.2]; rfl⟩
    rw [readBlock.eq_def]
    simp only [if_neg h1, if_neg h2]

theorem readBlock_fold (depth : Nat) (cs : List Char) (h : readBlock depth cs = some (text, r)) (r' : List Char) :
    ∀ p, readBlock depth (foldSpace p text ++ r') = some (foldSpace p text, r') := by
  -- the space that stands for layout before a comment is part of it
  have lead : ∀ (depth : Nat) (t : List Char) (c : Char), isWhitespace c = false →
      readBlock depth (foldSpace false (c :: t) ++ r') = some (foldSpace false (c :: t), r') →
      ∀ p, readBlock depth (foldSpace p (c :: t) ++ r') = some (foldSpace p (c :: t), r') := by
    intro depth t c hw h p
    cases p with
    | false => exact h
    | true =>
      have hfold : foldSpace true (c :: t) = ' ' :: foldSpace false (c :: t) := by simp [foldSpace, hw]
      rw [hfold, cons_append, readBlock_cons (fun h => absurd h.1 (by decide)) (fun h => absurd h.1 (by decide)), h]
      rfl
  fun_induction readBlock depth cs generalizing text r with
  | case1 => cases h
  | case2 => cases h
  | case3 c d cs hc =>
    cases h
    exact lead 0 ['/'] '*' isWhitespace_star (by simp [foldSpace, readBlock])
  | case4 c d cs hc depth ih =>
    obtain ⟨rfl, rfl⟩ := hc
    obtain ⟨text', h', rfl⟩ := read_of_map ('*' :: '/' :: ·) h
    refine lead (depth + 1) ('/' :: text') '*' isWhitespace_star ?_
    simp [foldSpace, readBlock, ih h' false]
  | case5 depth c d cs h1 h2 ih =>
    obtain ⟨rfl, rfl⟩ := h2
    obtain ⟨text', h', rfl⟩ := read_of_map ('/' :: '*' :: ·) h
    refine lead depth ('*' :: text') '/' isWhitespace_slash ?_
    simp [foldSpace, readBlock, ih h' false]
  | case6 depth c d cs h1 h2 ih =>
    obtain ⟨text', h', rfl⟩ := read_of_map (c :: ·) h
    have ih := ih h'
    cases hw : isWhitespace c with
    | true =>
      intro p
      simpa [foldSpace, hw] using ih true
    | false =>
      refine lead depth text' c hw ?_
      have hhead : ∀ x, (foldSpace false text' ++ r').head? = some x → x = d ∨ x = ' ' := by
        intro x hx
        obtain ⟨u, hu⟩ := (readBlock_split _ _ (ih false)).2
        obtain ⟨hcs, -⟩ := readBlock_split _ _ h'
        cases text' with
        | nil => simp [foldSpace] at hu
        | cons e text' =>
          cases hcs
          refine foldSpace_head d text' ?_
          cases hf : foldSpace false (d :: text') with
          | nil => simp [hf] at hu
          | cons y ys => simpa [hf] using hx
      rw [foldSpace_plain hw, cons_append, readBlock_cons, ih false]
      · rfl
      · rintro ⟨rfl, hx⟩
        rcases hhead _ hx with rfl | h
        · exact h1 ⟨rfl, rfl⟩
        · exact absurd h (by decide)
      · rintro ⟨rfl, hx⟩
        rcases hhead _ hx with rfl | h
        · exact h2 ⟨rfl, rfl⟩
        · exact absurd h (by decide)

/-! ## The start of a normal form -/

theorem Reads.text_head (law : lex.Lawful) (h : Reads lex ctx text l ctx' rest) (hl : ∀ b, l ≠ .layout b) :
    ∃ c t, l.text = c :: t ∧ text.head? = some c ∧ lex.isDefinitionWhitespace c = false := by
  cases h with
  | layout => exact absurd rfl (hl _)
  | dollar => exact ⟨_, _, rfl, rfl, not_layout (by decide)⟩
  | lineEnd => exact ⟨_, _, foldSpace_plain isWhitespace_dash _, rfl, not_layout isWhitespace_dash⟩
  | lineBreak => exact ⟨_, _, foldSpace_plain isWhitespace_dash _, rfl, not_layout isWhitespace_dash⟩
  | block => exact ⟨_, _, foldSpace_plain isWhitespace_slash _, rfl, not_layout isWhitespace_slash⟩
  | escape => exact ⟨_, _, rfl, rfl, not_layout (by decide)⟩
  | string => exact ⟨_, _, rfl, rfl, not_layout (by decide)⟩
  | identifier ho => exact ⟨_, _, rfl, rfl, (law.opener _ _ ho).1⟩
  | code hw => exact ⟨_, _, rfl, rfl, hw⟩

theorem render_pieces_cons (hl : ∀ b, l ≠ .layout b) (a : Bool) (ls : List Lexeme) :
    ∃ r, render (pieces a (l :: ls)) = l.text ++ r := by
  cases l with
  | layout b => exact absurd rfl (hl b)
  | line text =>
    cases hp : pieces true ls with
    | nil => exact ⟨[], by simp [pieces, hp, render, Lexeme.text]⟩
    | cons p ps => exact ⟨_, by simp only [pieces, hp, render, Lexeme.text]; rfl⟩
  | _ => exact ⟨_, rfl⟩

section

variable (law : lex.Lawful) (h : Lexed lex ctx text ls) (hn : NoTrail lex text)
include law h hn

theorem Lexed.render_head :
    (render (pieces false ls)).head? = text.head?.map fun c => if lex.isDefinitionWhitespace c then ' ' else c := by
  cases h with
  | nil => rfl
  | cons first others =>
    rename_i l ls
    by_cases hl : ∃ b, l = .layout b
    · obtain ⟨b, rfl⟩ := hl
      obtain ⟨-, -, c, hc, hw⟩ := first.layout_rest hn
      simp [pieces, render, hc, hw]
    · have hl : ∀ b, l ≠ .layout b := fun b h => hl ⟨b, h⟩
      obtain ⟨c, t, ht, hc, hw⟩ := first.text_head law hl
      obtain ⟨r, hr⟩ := render_pieces_cons hl false ls
      simp [hr, ht, hc, hw]

theorem Lexed.render_head_ne (hc : text.head? ≠ some c) (hspace : c ≠ ' ') : (render (pieces false ls)).head? ≠ some c := by
  rw [h.render_head law hn]
  intro hx
  obtain ⟨d, hd, hdc⟩ := map_eq_some_iff.1 hx
  split at hdc
  · exact hspace hdc.symm
  · exact hc (by rw [hd, hdc])

end

theorem Reads.code_of_continuesIdent (law : lex.Lawful) (hascii : lex.whitespaceIsAscii = true)
    (h : Reads lex ctx (c :: cs) l ctx' rest) (hc : continuesIdent c = true) (hdollar : c ≠ '$') : l = .code c ∧ rest = cs := by
  generalize htext : c :: cs = text at h
  cases h with
  | layout hne hw hrest =>
    rename_i ws
    cases ws with
    | nil => exact absurd rfl hne
    | cons d ws =>
      cases htext
      rw [continuesIdent_of_whitespace hascii (List.all_eq_true.1 hw c (mem_cons_self ..))] at hc
      cases hc
  | dollar => cases htext; exact absurd rfl hdollar
  | lineEnd => cases htext; exact absurd hc (by decide)
  | lineBreak => cases htext; exact absurd hc (by decide)
  | block => cases htext; exact absurd hc (by decide)
  | escape => cases htext; exact absurd hc (by decide)
  | string => cases htext; exact absurd hc (by decide)
  | identifier ho =>
    cases htext
    rw [(law.opener _ _ ho).2.2.2.2.2] at hc
    cases hc
  | code => cases htext; exact ⟨rfl, rfl⟩

theorem Lexed.tagBody_eq_none (law : lex.Lawful) (hascii : lex.whitespaceIsAscii = true) (h : Lexed lex ctx text ls)
    (hn : NoTrail lex text) : ∀ first, tagBody first text = none → tagBody first (render (pieces false ls)) = none := by
  induction h with
  | nil => intro first _; rfl
  | cons first others ih =>
    rename_i ctx ctx' text rest l ls
    intro start hnone
    cases text with
    | nil => exact absurd first.length_lt (by simp)
    | cons c cs =>
      have hhead := (Lexed.cons first others).render_head law hn
      rw [head?_cons, map_some] at hhead
      obtain ⟨r, hr⟩ := head?_eq_some_iff.1 hhead
      rw [hr]
      by_cases hw : lex.isDefinitionWhitespace c = true
      · simp [hw, tagBody, continuesIdent, isAscii, isAsciiAlphanumeric]
      · rw [if_neg hw] at hr ⊢
        rw [tagBody] at hnone ⊢
        split at hnone
        · cases hnone
        · rename_i hdollar
          rw [if_neg hdollar]
          split at hnone
          · rename_i hstop
            rw [if_pos hstop]
          · rename_i hstop
            rw [if_neg hstop]
            simp only [Bool.or_eq_true, Bool.not_eq_true', not_or, Bool.not_eq_false] at hstop
            obtain ⟨rfl, rfl⟩ := first.code_of_continuesIdent law hascii hstop.1 hdollar
            have := ih (hn.suffix first.suffix) false (map_eq_none_iff.1 hnone)
            cases hr
            rw [this]
            rfl

/-! ## The two readings -/

/-- The contexts of a text and of its normal form, with the state of `steady`: after an escape string
the normal form may know less of a line break than the text does. -/
structure Agree (st : Option (Bool × Bool)) (ctx ctx' : Context) : Prop where
  ident : ctx'.ident = ctx.ident
  e : ctx'.e = ctx.e
  idle : st = none → ctx.armed = false ∧ ctx'.armed = false
  chain : ∀ lost kept, st = some (lost, kept) → ctx.armed = true ∧ ctx.e = false ∧ ctx'.armed = !lost ∧
    (lost = false → ctx'.broken = kept) ∧ (kept = true → ctx.broken = true)

theorem Agree.none (h : ctx.armed = false) : Agree none ctx ctx :=
  ⟨rfl, rfl, fun _ => ⟨h, h⟩, fun _ _ h => by cases h⟩

theorem Agree.plain (ha : Agree st ctx ctx') (h : ¬ ((ctx.armed = true ∧ ctx.broken = true) ∨ ctx.e = true)) :
    ¬ ((ctx'.armed = true ∧ ctx'.broken = true) ∨ ctx'.e = true) := by
  rintro (⟨h1, h2⟩ | h1)
  · cases st with
    | none => rw [(ha.idle rfl).2] at h1; cases h1
    | some p =>
      obtain ⟨lost, kept⟩ := p
      obtain ⟨harmed, -, harmed', hbroken', hkept⟩ := ha.chain lost kept rfl
      rw [h1] at harmed'
      have hlost : lost = false := by simpa using harmed'.symm
      rw [hbroken' hlost] at h2
      exact h (Or.inl ⟨harmed, hkept h2⟩)
  · exact h (Or.inr (by rw [← ha.e, h1]))

/-- A lexeme read again before the normal form of what follows it: the same piece, and contexts that
agree again. -/
def Again (lex : Lexicon) (ls : List Lexeme) (ctx' ctx₁ : Context) (l : Lexeme) (r : List Char) : Prop :=
  ∃ l' ctx₁' st', Reads lex ctx' (l.text ++ r) l' ctx₁' r ∧ (∀ a ls', pieces a (l' :: ls') = pieces a (l :: ls')) ∧
    l'.whole = true ∧ steady st' ls = true ∧ Agree st' ctx₁ ctx₁'

theorem Reads.again (law : lex.Lawful) {ctx₁ : Context} (h : Reads lex ctx text l ctx₁ rest) (hls : Lexed lex ctx₁ rest ls)
    (hn : NoTrail lex text) (hl : l.whole = true) (hs : steady st (l :: ls) = true) (ha : Agree st ctx ctx')
    (hlayout : ∀ b, l ≠ .layout b) (hline : ∀ t, l ≠ .line t) : Again lex ls ctx' ctx₁ l (render (pieces false ls)) := by
  have hn' := hn.suffix h.suffix
  cases h with
  | layout => exact absurd rfl (hlayout _)
  | lineEnd => exact absurd rfl (hline _)
  | lineBreak => exact absurd rfl (hline _)
  | dollar hd hi ht hr =>
    rename_i tag text
    obtain ⟨body, hbody, heq⟩ := map_eq_some_iff.1 ht
    cases heq
    have ht' : dollarTag (tag ++ (text ++ render (pieces false ls))) = some ('$' :: tag) := by
      rw [dollarTag, tagBody_append true _ hbody]
      rfl
    have hr' := readDollar_append (by simp) _ hr (render (pieces false ls))
    have hread : Reads lex ctx' _ _ _ _ := .dollar hd (by rw [ha.ident, hi]) ht' hr'
    rw [← append_assoc] at hread
    exact ⟨_, _, none, hread, fun _ _ => rfl, rfl, hs, .none rfl⟩
  | block hr =>
    rename_i text
    have hr' := readBlock_fold 0 _ hr (render (pieces false ls)) false
    have hread : Reads lex ctx' _ _ _ _ := .block hr'
    have htext : foldSpace false ('/' :: '*' :: text) = '/' :: '*' :: foldSpace false text := by
      rw [foldSpace_plain isWhitespace_slash, foldSpace_plain isWhitespace_star]
    rw [← htext, foldSpace_idem] at hread
    refine ⟨_, _, none, ?_, fun _ _ => rfl, rfl, hs, .none rfl⟩
    rw [Lexeme.text, htext]
    exact hread
  | escape hesc hc hr =>
    rename_i text
    obtain ⟨hnext, happ⟩ := readEscape_append _ hr
    have hr' := happ _ (hls.render_head_ne law hn' hnext (by decide))
    have escaped : ((ctx'.armed = true ∧ ctx'.broken = true) ∨ ctx'.e = true) →
        steady (some (false, false)) ls = true →
        Again lex ls ctx' { armed := true } (.escape ('\'' :: text)) (render (pieces false ls)) := by
      intro hc' hs'
      refine ⟨_, _, some (false, false), .escape hesc hc' hr', fun _ _ => rfl, rfl, hs', ⟨rfl, rfl, fun h => (by cases h), ?_⟩⟩
      rintro lost kept ⟨⟩
      exact ⟨rfl, rfl, rfl, fun _ => rfl, fun h => by cases h⟩
    cases st with
    | none =>
      have harmed := (ha.idle rfl).1
      rw [harmed] at hc
      exact escaped (Or.inr (by rw [ha.e]; simpa using hc)) hs
    | some p =>
      obtain ⟨lost, kept⟩ := p
      obtain ⟨harmed, he, harmed', hbroken', -⟩ := ha.chain lost kept rfl
      simp only [steady, Bool.and_eq_true] at hs
      cases hlost : (lost || !kept) with
      | false =>
        rw [hlost] at hs
        simp only [Bool.or_eq_false_iff, Bool.not_eq_false'] at hlost
        obtain ⟨rfl, rfl⟩ := hlost
        exact escaped (Or.inl ⟨harmed', hbroken' rfl⟩) hs.2
      | true =>
        -- the normal form has lost the line break, and reads a plain string
        rw [hlost] at hs
        have hquote : hasEscapedQuote text = false := by simpa using hs.1
        have hplain : ¬ ((ctx'.armed = true ∧ ctx'.broken = true) ∨ ctx'.e = true) := by
          rw [ha.e, he, harmed']
          cases lost with
          | true => simp
          | false =>
            rw [hbroken' rfl]
            simpa using hlost
        have hr'' := readQuoted_of_readEscape _ hr' hquote
        refine ⟨_, _, some (true, false), .string (fun _ => hplain) hr'', fun _ _ => rfl, by simp [Lexeme.whole, closesOnce],
          hs.2, ⟨rfl, rfl, fun h => (by cases h), ?_⟩⟩
        rintro lost kept ⟨⟩
        exact ⟨rfl, rfl, rfl, fun h => (by cases h), fun h => by cases h⟩
  | string hplain hr =>
    rename_i text
    obtain ⟨hnext, happ⟩ := readQuoted_append _ hr
    have hr' := happ _ (hls.render_head_ne law hn' hnext (by decide))
    have hs : steady none ls = true := by
      simp only [steady, Bool.and_eq_true] at hs
      exact hs.2
    exact ⟨_, _, none, .string (fun he => ha.plain (hplain he)) hr', fun _ _ => rfl, hl, hs, .none rfl⟩
  | identifier ho hr =>
    rename_i o close text
    obtain ⟨hnext, happ⟩ := readQuoted_append _ hr
    have hspace : close ≠ ' ' := by
      rintro rfl
      have := (law.closer _ _ ho).1
      rw [isDefinitionWhitespace_space] at this
      cases this
    have hr' := happ _ (hls.render_head_ne law hn' hnext hspace)
    have hs : steady none ls = true := by
      simp only [steady, Bool.and_eq_true] at hs
      exact hs.2
    exact ⟨_, _, none, .identifier ho hr', fun _ _ => rfl, hl, hs, .none rfl⟩
  | code hw hd h3 h4 h5 h6 =>
    rename_i c
    have hread : Reads lex ctx' (c :: render (pieces false ls)) (.code c)
        { ident := continuesIdent c, e := (c == 'e' || c == 'E') && !ctx'.ident } (render (pieces false ls)) := by
      refine .code hw (fun hdollar hc hi => ?_) (fun h => ?_) (fun h => ?_) h5 h6
      · have hnone := hd hdollar hc (by rw [← ha.ident, hi])
        rw [dollarTag, map_eq_none_iff] at hnone ⊢
        exact hls.tagBody_eq_none law (law.ascii (Or.inl hdollar)) hn' true hnone
      · exact hls.render_head_ne law hn' (fun h' => h3 ⟨h.1, h'⟩) (by decide) h.2
      · exact hls.render_head_ne law hn' (fun h' => h4 ⟨h.1, h'⟩) (by decide) h.2
    refine ⟨_, _, none, hread, fun _ _ => rfl, rfl, hs, ⟨rfl, ?_, fun _ => ⟨rfl, rfl⟩, fun _ _ h => by cases h⟩⟩
    simp only [ha.ident]

theorem Lexed.pieces_start (h : Lexed lex ctx text ls) (hhead : ∀ c, text.head? = some c → lex.isDefinitionWhitespace c = false) :
    pieces true ls = pieces false ls := by
  cases h with
  | nil => rfl
  | cons first others =>
    cases first with
    | layout hne hw hrest =>
      rename_i ws
      cases ws with
      | nil => exact absurd rfl hne
      | cons c ws =>
        have := hhead c rfl
        rw [List.all_eq_true.1 hw c (mem_cons_self ..)] at this
        cases this
    | _ => rfl

theorem Agree.layout {ctx₁' : Context} {b : Bool} (ha : Agree st ctx ctx') (hi : ctx₁'.ident = false) (he : ctx₁'.e = false)
    (harmed : ctx₁'.armed = ctx'.armed) (hbroken : ctx₁'.broken = ctx'.broken) :
    Agree st { ctx with ident := false, e := false, broken := ctx.broken || b } ctx₁' := by
  refine ⟨hi, he, fun h => ?_, fun lost kept h => ?_⟩
  · rw [harmed]
    exact ha.idle h
  · obtain ⟨h1, -, h3, h4, h5⟩ := ha.chain lost kept h
    rw [harmed, hbroken]
    exact ⟨h1, rfl, h3, h4, fun hk => by simp [h5 hk]⟩

theorem Agree.line (ha : Agree st ctx ctx') :
    Agree (st.map fun p => (p.1, true)) { armed := ctx.armed, broken := true } { armed := ctx'.armed, broken := true } := by
  refine ⟨rfl, rfl, fun h => ha.idle (map_eq_none_iff.1 h), fun lost kept h => ?_⟩
  obtain ⟨p, hp, heq⟩ := map_eq_some_iff.1 h
  cases heq
  obtain ⟨h1, -, h3, -, -⟩ := ha.chain p.1 p.2 hp
  exact ⟨h1, rfl, h3, fun _ => rfl, fun _ => rfl⟩

/-- The pieces of a text are read back from its normal form. -/
theorem Lexed.reread (law : lex.Lawful) (h : Lexed lex ctx text ls) (st : Option (Bool × Bool)) (ctx' : Context) (a : Bool)
    (hn : NoTrail lex text) (hl : ls.all Lexeme.whole = true) (hs : steady st ls = true) (ha : Agree st ctx ctx')
    (hstart : a = true → ctx.ident = false ∧ ctx.e = false) :
    ∃ ls', Lexed lex ctx' (render (pieces a ls)) ls' ∧ pieces a ls' = pieces a ls ∧ ls'.all Lexeme.whole = true := by
  induction h generalizing st ctx' a with
  | nil => exact ⟨[], .nil, rfl, rfl⟩
  | cons first others ih =>
    rename_i ctx ctx₁ text rest l ls
    simp only [all_cons, Bool.and_eq_true] at hl
    have hn' := hn.suffix first.suffix
    have other : (∀ b, l ≠ .layout b) → (∀ t, l ≠ .line t) → render (pieces a (l :: ls)) = l.text ++ render (pieces false ls) →
        (∀ ls', pieces a (l :: ls') = pieces a [l] ++ pieces false ls') →
        ∃ ls', Lexed lex ctx' (render (pieces a (l :: ls))) ls' ∧ pieces a ls' = pieces a (l :: ls) ∧ ls'.all Lexeme.whole = true := by
      intro h1 h2 hrender hpieces
      obtain ⟨l', ctx₁', st', hread, hpiece, hwhole, hs', ha'⟩ := first.again law others hn hl.1 hs ha h1 h2
      obtain ⟨ls', hls', hps, hall⟩ := ih st' ctx₁' false hn' hl.2 hs' ha' (by simp)
      refine ⟨l' :: ls', ?_, ?_, by simp [hwhole, hall]⟩
      · rw [hrender]
        exact .cons hread hls'
      · rw [hpiece, hpieces ls', hpieces ls, hps]
    cases l with
    | layout b =>
      have hhead : ∀ c, (render (pieces false ls)).head? = some c → lex.isDefinitionWhitespace c = false := by
        intro c hc
        rw [others.render_head law hn'] at hc
        obtain ⟨d, hd, rfl⟩ := map_eq_some_iff.1 hc
        have hdw := (first.layout_rest hn).2.1 d hd
        simp [hdw]
      cases first with
      | layout hne hw hrest =>
        cases a with
        | false =>
          have hread : Reads lex ctx' ([' '] ++ render (pieces false ls)) _ _ _ :=
            .layout (by simp) (by simp [isDefinitionWhitespace_space]) hhead
          have ha' : ∀ b, Agree st { ctx with ident := false, e := false, broken := ctx.broken || b }
              { ctx' with ident := false, e := false, broken := ctx'.broken || [' '].any isBreak } :=
            fun _ => ha.layout rfl rfl rfl (by simp [isBreak])
          obtain ⟨ls', hls', hps, hall⟩ := ih st _ false hn' hl.2 hs (ha' _) (by simp)
          exact ⟨_ :: ls', .cons hread hls', by simp [pieces, hps], by simp [Lexeme.whole, hall]⟩
        | true =>
          -- the line comment before it has taken the layout with it
          obtain ⟨hi, he⟩ := hstart rfl
          obtain ⟨ls', hls', hps, hall⟩ := ih st ctx' false hn' hl.2 hs
            (ha.layout (by rw [ha.ident, hi]) (by rw [ha.e, he]) rfl rfl) (by simp)
          exact ⟨ls', hls', by rw [hls'.pieces_start hhead, hps]; rfl, hall⟩
    | line t =>
      have hbody : ∀ body : List Char, body.head? = some '-' → body.all (!isBreak ·) = true →
          (foldSpace false body).head? = some '-' ∧ (foldSpace false body).all (!isBreak ·) = true ∧
            foldSpace false ('-' :: foldSpace false body) = foldSpace false ('-' :: body) := by
        intro body hh hb
        refine ⟨?_, foldSpace_all (by decide) false body hb, ?_⟩
        · cases body with
          | nil => cases hh
          | cons c body =>
            cases hh
            rw [foldSpace_plain isWhitespace_dash]
            rfl
        · rw [foldSpace_plain isWhitespace_dash, foldSpace_plain isWhitespace_dash, foldSpace_idem]
      cases first with
      | lineEnd hh hb =>
        rename_i body
        obtain ⟨hh', hb', hfold⟩ := hbody body hh hb
        cases others with
        | cons first _ => exact absurd first.length_lt (by simp)
        | nil =>
          have hread : Reads lex ctx' ('-' :: foldSpace false body) _ _ _ := .lineEnd hh' hb'
          rw [hfold, ← foldSpace_plain isWhitespace_dash] at hread
          exact ⟨[_], .cons hread .nil, rfl, rfl⟩
      | lineBreak hh hb hbreak =>
        rename_i body b
        obtain ⟨hh', hb', hfold⟩ := hbody body hh hb
        have hrest : rest ≠ [] := by
          rintro rfl
          have := hn b (by rw [getLast?_append]; rfl)
          rw [isDefinitionWhitespace_of_break hbreak] at this
          cases this
        obtain ⟨p, ps, hps⟩ := exists_cons_of_ne_nil (others.pieces_ne_nil hn' hrest true)
        have hrender : render (pieces a (.line (foldSpace false ('-' :: body)) :: ls)) =
            foldSpace false ('-' :: body) ++ '\n' :: render (pieces true ls) := by
          simp only [pieces, hps, render]
        have hread : Reads lex ctx' ('-' :: foldSpace false body ++ '\n' :: render (pieces true ls)) _ _ _ :=
          .lineBreak hh' hb' (by decide)
        rw [hfold, ← foldSpace_plain isWhitespace_dash, ← hrender] at hread
        obtain ⟨ls', hls', hps', hall⟩ := ih _ _ true hn' hl.2 hs ha.line fun _ => ⟨rfl, rfl⟩
        exact ⟨_ :: ls', .cons hread hls', by simp [pieces, hps'], by simp [Lexeme.whole, hall]⟩
    | code c => exact other (by simp) (by simp) rfl fun _ => rfl
    | quoted close t => exact other (by simp) (by simp) rfl fun _ => rfl
    | escape t => exact other (by simp) (by simp) rfl fun _ => rfl
    | dollar t => exact other (by simp) (by simp) rfl fun _ => rfl
    | block t => exact other (by simp) (by simp) rfl fun _ => rfl

end Pbps.Lexis
