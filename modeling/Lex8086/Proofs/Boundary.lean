import Lex8086.Proofs.Continuation
import Mathlib.Data.List.Infix

namespace Lex8086

open Segment

/-- A symbol that starts with a quote: a quote without its second. -/
def LeavesQuoteOpen (ts : List Token) : Prop :=
  ∃ t ∈ ts, t.category = .symbol ∧ t.value.toList.head?.any isQuote

instance (ts : List Token) : Decidable (LeavesQuoteOpen ts) :=
  inferInstanceAs (Decidable (∃ t ∈ ts, t.category = .symbol ∧ t.value.toList.head?.any isQuote))

def Segment.Closed (g : Segment) : Prop := ∀ q inside, g ≠ .unclosed q inside

theorem not_breaksOff_cons {rest cs : List Char} {d : Char} (hd : isWordChar d = false) :
    ¬BreaksOff rest (d :: cs) := by
  rintro ⟨l, hl, v, c, u, -, hcut, hfront⟩
  obtain ⟨-, -, -, hchars⟩ := exists_cons_of_mem_phraseTails hl
  obtain ⟨rfl, -⟩ := List.cons_prefix_cons.mp hfront
  simp [(hchars c (by simp [hcut])).1] at hd

/-- No phrase ends with a start of a first word: it would have a second dot. -/
theorem not_isSuffix_of_mem_phrases {p h : String} {v : List Char} (hp : p ∈ phrases)
    (hh : h ∈ phraseHeads) (hne : v ≠ []) (hv : v <+: h.toList) : ¬v <:+ p.toList := by
  have hall : ∀ p ∈ phrases, ∀ h ∈ phraseHeads, ∀ v ∈ h.toList.inits,
      v ≠ [] → ¬v <:+ p.toList := by decide
  exact hall p hp h hh v ((List.mem_inits v h.toList).mpr hv) hne

theorem Segment.FitsBefore.eq_word_or_phrase {g : Segment} {rest : List Char} {c : Char}
    (hg : g.FitsBefore rest) (hclosed : g.Closed)
    (hlast : g.text.getLast? = some c) (hc : isWordChar c) :
    (∃ w, g = .word w) ∨ ∃ p, g = .phrase p := by
  obtain ⟨hblank, hsep, hquote⟩ := isWordChar_iff.mp hc
  cases g with
  | blank d =>
    obtain rfl : d = c := by simpa [text] using hlast
    exact absurd (show Text.isWhiteSpace d = true from hg) (by simp [hblank])
  | phrase p => exact .inr ⟨p, rfl⟩
  | separator d =>
    obtain rfl : d = c := by simpa [text] using hlast
    exact absurd (show isSeparator d = true from hg) (by simp [hsep])
  | quoted q inside =>
    rw [text, List.getLast?_concat] at hlast
    obtain rfl := Option.some.inj hlast
    exact absurd hg.1 (by simp [hquote])
  | unclosed q inside => exact absurd rfl (hclosed q inside)
  | word w => exact .inl ⟨w, rfl⟩

theorem Segment.FitsBefore.eq_word_of_isSuffix {g : Segment} {rest : List Char} {h : String}
    (hg : g.FitsBefore rest) (hclosed : g.Closed)
    (hh : h ∈ phraseHeads) (hs : h.toList <:+ g.text ++ rest) :
    h.toList <:+ rest ∨ rest = [] ∧ ∃ w, g = .word w := by
  obtain ⟨cs, hcons, hchars⟩ := exists_cons_of_mem_phraseHeads hh
  obtain ⟨u, hu⟩ := hs
  rcases List.append_eq_append_iff.mp hu with ⟨v, htext, hcut⟩ | ⟨v, -, hrest⟩
  · rcases List.eq_nil_or_concat' v with rfl | ⟨v, c, rfl⟩
    · exact .inl ⟨[], by simpa using hcut⟩
    · -- The segment ends within the first word, so with a character of a word.
      have hc : isWordChar c := by
        have hmem : c ∈ '.' :: cs := by simp [← hcons, hcut]
        rcases List.mem_cons.mp hmem with rfl | hmem
        · decide
        · exact (hchars c hmem).1
      rcases hg.eq_word_or_phrase hclosed (by simp [htext]) hc with ⟨w, rfl⟩ | ⟨p, rfl⟩
      · refine .inr ⟨?_, w, rfl⟩
        cases rest with
        | nil => rfl
        | cons d rest =>
          -- What is left of the first word would go on in the word.
          have htail := congrArg List.tail hcut
          rw [hcons, List.tail_cons, List.tail_append_of_ne_nil (by simp)] at htail
          have hd := hchars d (by simp [htail])
          exact absurd hg.2.2 (not_stops_of_ne hd.1 hd.2)
      · exact absurd ⟨u, htext.symm⟩
          (not_isSuffix_of_mem_phrases hg hh (by simp) ⟨rest, hcut.symm⟩)
  · exact .inl ⟨v, hrest.symm⟩

theorem straddles_text_append_iff {g : Segment} {rest more : List Char} (hg : g.FitsBefore rest)
    (hclosed : g.Closed) (hne : rest ≠ []) :
    Straddles (g.text ++ rest) more ↔ Straddles rest more := by
  constructor
  · rintro ⟨⟨h, hh, hsuffix⟩, htail⟩
    rcases hg.eq_word_of_isSuffix hclosed hh hsuffix with hsuffix | ⟨hnil, -⟩
    · exact ⟨⟨h, hh, hsuffix⟩, htail⟩
    · exact absurd hnil hne
  · rintro ⟨⟨h, hh, hsuffix⟩, htail⟩
    exact ⟨⟨h, hh, List.suffix_append_of_suffix hsuffix⟩, htail⟩

theorem not_straddles_nil (more : List Char) : ¬Straddles [] more := by
  rintro ⟨⟨h, hh, hsuffix⟩, -⟩
  obtain ⟨cs, hcons, -⟩ := exists_cons_of_mem_phraseHeads hh
  simp [hcons] at hsuffix

theorem plain_of_lineTokens_eq_cons {line : Nat} {t : Token} {ts : List Token} {rest : List Char}
    (hne : t.value.toList ≠ []) (hchars : ∀ c ∈ t.value.toList, isWordChar c)
    (hread : lineTokens line (t.value.toList ++ rest) = t :: ts) : Plain t.value.toList rest := by
  have hink : Text.StartsInk t.value.toList := Scan.startsInk_of_plain (plain_nil_right hchars)
  have hfirst : lineTokens line (t.value.toList ++ rest) ++ [] = t :: ts := by
    rwa [List.append_nil]
  obtain ⟨g, hfit, hg, -⟩ := exists_fitsBefore_of_lineTokens hne hink hfirst
  rw [(eq_of_token? hg).1] at hchars ⊢
  exact (hfit.plain hchars).1

theorem lineTokens_text_cons_iff (line : Nat) {g : Segment} {d : Char} {cs : List Char}
    (hg : g.FitsBefore []) (hclosed : g.Closed)
    (hd : isWordChar d = false) :
    lineTokens line (g.text ++ d :: cs) = (g.token? line).toList ++ lineTokens line (d :: cs) ↔
      ¬Straddles g.text (d :: cs) := by
  constructor
  · rintro hread hacross
    obtain ⟨h, hh, hsuffix⟩ := hacross.1
    -- Only a word can have the front of a phrase that lies across at its end.
    have hword : ∃ w, g = .word w := by
      rcases hg.eq_word_of_isSuffix hclosed hh (by simpa using hsuffix) with hsuffix | ⟨-, hword⟩
      · exact absurd ⟨⟨h, hh, hsuffix⟩, hacross.2⟩ (not_straddles_nil _)
      · exact hword
    obtain ⟨w, rfl⟩ := hword
    obtain ⟨hne, hw, -⟩ := hg
    obtain ⟨t, ht⟩ : ∃ t, (Segment.word w).token? line = some t := ⟨_, rfl⟩
    obtain rfl : t.value.toList = w := (eq_of_token? ht).1
    rw [ht] at hread
    have hplain : Plain t.value.toList (d :: cs) := plain_of_lineTokens_eq_cons hne hw.1 hread
    exact (plain_iff_not_straddles hw.1 (stops_of_not_isWordChar hd)).mp hplain hacross
  · intro hno
    apply lineTokens_text_append
    cases g with
    | blank c => exact hg
    | phrase p => exact hg
    | separator c => exact hg
    | quoted q inside => exact hg
    | unclosed q inside => exact absurd rfl (hclosed q inside)
    | word w =>
      obtain ⟨hne, hw, -⟩ := hg
      have hstop : Stops (d :: cs) := stops_of_not_isWordChar hd
      exact ⟨hne, (plain_iff_not_straddles hw.1 hstop).mpr hno, hstop⟩

/-- A text that leaves no quote open is read apart from the character behind it exactly where no
phrase lies across. -/
theorem lineTokens_append_cons_iff (line : Nat) {s : List Char} {d : Char} {cs : List Char}
    (hopen : ¬LeavesQuoteOpen (lineTokens line s)) (hd : isWordChar d = false) :
    lineTokens line (s ++ d :: cs) = lineTokens line s ++ lineTokens line (d :: cs) ↔
      ¬Straddles s (d :: cs) := by
  induction s using segments.induct with
  | case1 => simp [not_straddles_nil]
  | case2 c s ih =>
    obtain ⟨rest, hs, hfit⟩ := first_fitsBefore c s
    rw [hs, List.drop_left] at ih
    rw [hs, lineTokens_text_append line hfit] at hopen ⊢
    generalize first c s = g at hfit hopen ⊢
    have hclosed : g.Closed := by
      rintro q inside rfl
      exact hopen ⟨⟨String.ofList (q :: inside), .symbol, line⟩,
        List.mem_append_left _ (by simp [token?, category?, text]), rfl, by simp [hfit.1]⟩
    have hrest : ¬LeavesQuoteOpen (lineTokens line rest) := by
      rintro ⟨t, ht, hquote⟩
      exact hopen ⟨t, List.mem_append_right _ ht, hquote⟩
    -- A segment with others behind it keeps its place, so all hangs on the last one.
    by_cases hnil : rest = []
    · rw [hnil] at hfit ⊢
      simpa using lineTokens_text_cons_iff line hfit hclosed hd
    · have hlong : g.FitsBefore (rest ++ d :: cs) := by
        rcases hfit.append_or (d :: cs) with hlong | hempty | hbreak
        · exact hlong
        · exact absurd hempty hnil
        · exact absurd hbreak (not_breaksOff_cons hd)
      rw [straddles_text_append_iff hfit hclosed hnil, ← ih hrest, List.append_assoc,
        List.append_assoc, lineTokens_text_append line hlong, List.append_cancel_left_eq]

theorem not_straddles_of_isBlank {s more : List Char} (h : Text.IsBlank more) :
    ¬Straddles s more := by
  rintro ⟨-, l, hl, hfront⟩
  obtain ⟨c, cs, hcons, hchars⟩ := exists_cons_of_mem_phraseTails hl
  have hblank := h c (hfront.subset (by simp [hcons]))
  simp [(isWordChar_iff.mp (hchars c (by simp [hcons])).1).1] at hblank

theorem lineTokens_append_isBlank (line : Nat) {s gap : List Char}
    (hopen : ¬LeavesQuoteOpen (lineTokens line s)) (hgap : Text.IsBlank gap) :
    lineTokens line (s ++ gap) = lineTokens line s := by
  cases gap with
  | nil => rw [List.append_nil]
  | cons d gap =>
    have hd : isWordChar d = false := by simp [isWordChar, hgap d (by simp)]
    have hnone := lineTokens_isBlank_append line hgap []
    rw [List.append_nil, lineTokens_nil] at hnone
    rw [(lineTokens_append_cons_iff line hopen hd).mpr (not_straddles_of_isBlank hgap), hnone,
      List.append_nil]

theorem lineTokens_trim (line : Nat) (s : List Char) :
    lineTokens line (Text.trim s) = lineTokens line (Text.trimEnd s) := by
  have hlead : Text.IsBlank (s.takeWhile Text.isWhiteSpace) :=
    fun c hc => List.mem_takeWhile_imp hc
  have hsplit := List.takeWhile_append_dropWhile (p := Text.isWhiteSpace) (l := s)
  conv_rhs => rw [← hsplit, Text.trimEnd_append]
  rw [Text.trim, Text.trimStart]
  split
  · next hnil => rw [hnil, Text.trimEnd_eq_nil_iff.mpr hlead]
  · exact (lineTokens_isBlank_append line hlead _).symm

/-- Without line feeds and comments a source is one line, read up to the white space at its end. -/
theorem tokenize_of_row {source : String} (hline : '\n' ∉ source.toList)
    (hsemi : ';' ∉ source.toList) :
    tokenize source = lineTokens 1 (Text.trimEnd source.toList) := by
  rw [← lineTokens_trim, tokenize_eq_tokensFrom, tokensFrom, cleanTexts_of_notMem_newline hline,
    dropComment_eq_self hsemi]
  by_cases hnil : Text.trim source.toList = []
  · simp [hnil]
  · simp [hnil]

theorem tokenize_of_row_of_not_leavesQuoteOpen {source : String} (hline : '\n' ∉ source.toList)
    (hsemi : ';' ∉ source.toList) (hopen : ¬LeavesQuoteOpen (tokenize source)) :
    tokenize source = lineTokens 1 source.toList := by
  obtain ⟨gap, hgap, hblank⟩ := Text.exists_trimEnd_append source.toList
  rw [tokenize_of_row hline hsemi] at hopen ⊢
  conv_rhs => rw [← hgap]
  exact (lineTokens_append_isBlank 1 hopen hblank).symm

theorem straddles_trimEnd_iff {s t : List Char} : Straddles s (Text.trimEnd t) ↔ Straddles s t := by
  have hink : ∀ l ∈ phraseTails, Text.EndsInk (' ' :: l.toList) := by decide
  apply and_congr_right'
  apply exists_congr
  intro l
  apply and_congr_right
  intro hl
  exact Text.isPrefix_trimEnd_iff (hink l hl)

theorem tokenize_append_iff {a b : String} {d : Char} {cs : List Char}
    (hline : '\n' ∉ a.toList ++ b.toList) (hsemi : ';' ∉ a.toList ++ b.toList)
    (hopen : ¬LeavesQuoteOpen (tokenize a)) (hb : b.toList = d :: cs)
    (hd : isWordChar d = false) :
    tokenize (a ++ b) = tokenize a ++ tokenize b ↔ ¬Straddles a.toList b.toList := by
  have hab : tokenize (a ++ b) = lineTokens 1 (Text.trimEnd (a.toList ++ b.toList)) := by
    rw [← String.toList_append] at hline hsemi ⊢
    exact tokenize_of_row hline hsemi
  rw [List.mem_append, not_or] at hline hsemi
  rw [hab, tokenize_of_row hline.2 hsemi.2, Text.trimEnd_append, ← straddles_trimEnd_iff]
  split
  · next hnil =>
    rw [hnil, lineTokens_nil, List.append_nil, tokenize_of_row hline.1 hsemi.1, eq_self, true_iff]
    exact not_straddles_of_isBlank Text.isBlank_nil
  · next hne =>
    obtain ⟨e, es, hes⟩ := List.exists_cons_of_ne_nil hne
    obtain rfl : e = d := by
      have hfront := Text.trimEnd_isPrefix b.toList
      rw [hes, hb] at hfront
      exact (List.cons_prefix_cons.mp hfront).1
    have ha := tokenize_of_row_of_not_leavesQuoteOpen hline.1 hsemi.1 hopen
    rw [ha] at hopen ⊢
    rw [hes]
    exact lineTokens_append_cons_iff 1 hopen hd

theorem tokenize_separator_append {b : String} {d : Char} (hline : '\n' ∉ b.toList)
    (hsemi : ';' ∉ b.toList) (hd : isSeparator d) :
    tokenize (String.singleton d ++ b) =
      ⟨String.singleton d, .separator, 1⟩ :: tokenize b := by
  obtain ⟨hdsemi, hdline⟩ := ne_of_isSeparator hd
  have htext : (String.singleton d ++ b).toList = d :: b.toList := by simp
  rw [tokenize_of_row (by simp [hline, hdline.symm]) (by simp [hsemi, hdsemi.symm]), htext,
    tokenize_of_row hline hsemi, Text.trimEnd_cons_of_ink (of_isSeparator hd).1]
  exact lineTokens_text_append 1 (g := .separator d) hd

theorem tokenize_blank_append {b : String} {d : Char} (hline : '\n' ∉ b.toList)
    (hsemi : ';' ∉ b.toList) (hd : Text.isWhiteSpace d) (hdline : d ≠ '\n') :
    tokenize (String.singleton d ++ b) = tokenize b := by
  have hdsemi : d ≠ ';' := by
    rintro rfl
    exact absurd hd (by decide)
  have htext : (String.singleton d ++ b).toList = [d] ++ b.toList := by simp
  have hblank : Text.IsBlank [d] := by simpa using hd
  rw [tokenize_of_row (by simp [hline, hdline.symm]) (by simp [hsemi, hdsemi.symm]), htext,
    tokenize_of_row hline hsemi, Text.trimEnd_append]
  split
  · next hnil => rw [hnil, Text.trimEnd_eq_nil_iff.mpr hblank]
  · exact lineTokens_isBlank_append 1 hblank _

/-- A separator, or white space other than a line feed, parts a line in which no quote is open
before it, so the pieces are read as if each stood alone. Only a space can fail to: it does exactly
where it is the space of a phrase. -/
theorem tokenize_boundary {a b : String} (hline : '\n' ∉ a.toList ++ b.toList)
    (hsemi : ';' ∉ a.toList ++ b.toList) (hopen : ¬LeavesQuoteOpen (tokenize a)) :
    (∀ d, isSeparator d → tokenize (a ++ String.singleton d ++ b) =
        tokenize a ++ [⟨String.singleton d, .separator, 1⟩] ++ tokenize b) ∧
      (∀ d, Text.isWhiteSpace d → d ≠ '\n' → d ≠ ' ' →
        tokenize (a ++ String.singleton d ++ b) = tokenize a ++ tokenize b) ∧
      (tokenize (a ++ " " ++ b) = tokenize a ++ tokenize b ↔
        ¬((∃ h ∈ phraseHeads, h.toList <:+ a.toList) ∧
          ∃ l ∈ phraseTails, l.toList <+: b.toList)) := by
  have hb : '\n' ∉ b.toList := fun h => hline (List.mem_append_right _ h)
  have hb' : ';' ∉ b.toList := fun h => hsemi (List.mem_append_right _ h)
  have hparts : ∀ d, isWordChar d = false → d ≠ '\n' →
      (tokenize (a ++ String.singleton d ++ b) =
        tokenize a ++ tokenize (String.singleton d ++ b) ↔
          ¬Straddles a.toList (d :: b.toList)) := by
    intro d hd hdline
    have hdsemi : d ≠ ';' := by
      rintro rfl
      exact absurd hd (by decide)
    have htext : (String.singleton d ++ b).toList = d :: b.toList := by simp
    rw [String.append_assoc, ← htext]
    refine tokenize_append_iff ?_ ?_ hopen htext hd
    · simpa [hdline.symm] using hline
    · simpa [hdsemi.symm] using hsemi
  have hspace : ∀ d, d ≠ ' ' → ¬Straddles a.toList (d :: b.toList) := by
    rintro d hd ⟨-, l, -, hfront⟩
    exact hd (List.cons_prefix_cons.mp hfront).1.symm
  refine ⟨?_, ?_, ?_⟩
  · intro d hd
    have hne : d ≠ ' ' := by
      rintro rfl
      exact absurd hd (by decide)
    rw [(hparts d (by simp [isWordChar, hd]) (ne_of_isSeparator hd).2).mpr (hspace d hne),
      tokenize_separator_append hb hb' hd, List.append_assoc, List.singleton_append]
  · intro d hd hdline hne
    rw [(hparts d (by simp [isWordChar, hd]) hdline).mpr (hspace d hne),
      tokenize_blank_append hb hb' hd hdline]
  · have hparts := hparts ' ' (by decide) (by decide)
    rw [tokenize_blank_append hb hb' (by decide) (by decide)] at hparts
    refine hparts.trans (not_congr (and_congr_right' ?_))
    simp only [List.cons_prefix_cons, true_and]

/-- A closed quote before the place, and a phrase across its space, but not across a tab. -/
theorem tokenize_boundary_phrase :
    ('\n' ∉ "'a'.CODE".toList ++ "ENDS".toList ∧ ';' ∉ "'a'.CODE".toList ++ "ENDS".toList ∧
        ¬LeavesQuoteOpen (tokenize "'a'.CODE")) ∧
      tokenize ("'a'.CODE" ++ String.singleton '\t' ++ "ENDS") =
        tokenize "'a'.CODE" ++ tokenize "ENDS" ∧
      tokenize ("'a'.CODE" ++ " " ++ "ENDS") ≠ tokenize "'a'.CODE" ++ tokenize "ENDS" := by
  have hline : '\n' ∉ "'a'.CODE".toList ++ "ENDS".toList := by decide
  have hsemi : ';' ∉ "'a'.CODE".toList ++ "ENDS".toList := by decide
  have hopen : ¬LeavesQuoteOpen (tokenize "'a'.CODE") := by
    have hcut : lineTokens 1 "'a'.CODE".toList = _ :=
      lineTokens_of_fit 1 [.quoted '\'' ['a'], .word ".CODE".toList] (by decide) (by decide)
    have htrim : Text.trimEnd "'a'.CODE".toList = "'a'.CODE".toList := by decide
    rw [tokenize_of_row (by decide) (by decide), htrim, hcut]
    decide
  obtain ⟨-, htab, hphrase⟩ := tokenize_boundary hline hsemi hopen
  refine ⟨⟨hline, hsemi, hopen⟩, htab '\t' (by decide) (by decide) (by decide), ?_⟩
  intro h
  exact hphrase.mp h ⟨⟨".CODE", by decide, by decide⟩, "ENDS", by decide, by decide⟩

end Lex8086
