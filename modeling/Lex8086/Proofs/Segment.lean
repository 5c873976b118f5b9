import Lex8086.Proofs.Trim
import Lex8086.Proofs.Word

namespace Lex8086

inductive Segment where
  | blank (c : Char)
  | phrase (p : String)
  | separator (c : Char)
  | quoted (quote : Char) (inside : List Char)
  | unclosed (quote : Char) (inside : List Char)
  | word (w : List Char)
deriving DecidableEq

theorem isWordChar_iff {c : Char} : isWordChar c ↔
    Text.isWhiteSpace c = false ∧ isSeparator c = false ∧ isQuote c = false := by
  simp [isWordChar, and_assoc]

theorem of_isSeparator {c : Char} (h : isSeparator c) :
    Text.isWhiteSpace c = false ∧ isQuote c = false ∧ c ≠ '.' := by
  rcases isSeparator_iff.mp h with rfl | rfl | rfl | rfl <;> decide

theorem of_isQuote {c : Char} (h : isQuote c) :
    Text.isWhiteSpace c = false ∧ isSeparator c = false ∧ c ≠ '.' := by
  rcases isQuote_iff.mp h with rfl | rfl <;> decide

namespace Segment

def text : Segment → List Char
  | blank c => [c]
  | phrase p => p.toList
  | separator c => [c]
  | quoted quote inside => quote :: inside ++ [quote]
  | unclosed quote inside => quote :: inside
  | word w => w

def category? : Segment → Option Category
  | blank _ => none
  | phrase _ => some .pseudoInstruction
  | separator _ => some .separator
  | quoted .. => some .strConstant
  | unclosed .. => some .symbol
  | word w => some (classify (String.ofList w))

def token? (line : Nat) (g : Segment) : Option Token :=
  g.category?.map fun category => ⟨String.ofList g.text, category, line⟩

theorem eq_of_token? {line : Nat} {g : Segment} {t : Token} (h : g.token? line = some t) :
    t.value.toList = g.text ∧ g.category? = some t.category ∧ t.line = line := by
  obtain ⟨category, hcat, rfl⟩ := Option.map_eq_some_iff.mp h
  exact ⟨String.toList_ofList, hcat, rfl⟩

theorem token?_eq_some {g : Segment} {t : Token} (htext : g.text = t.value.toList)
    (hcat : g.category? = some t.category) : g.token? t.line = some t := by
  simp [token?, htext, hcat]

theorem eq_blank_of_token?_eq_none {line : Nat} {g : Segment} (h : g.token? line = none) :
    ∃ c, g = blank c := by
  cases g with
  | blank c => exact ⟨c, rfl⟩
  | _ => simp [token?, category?] at h

theorem token?_phrase (line : Nat) (p : String) :
    (phrase p).token? line = some ⟨p, .pseudoInstruction, line⟩ := by
  simp [token?, category?, text]

def first (c : Char) (cs : List Char) : Segment :=
  if Text.isWhiteSpace c then blank c
  else match phraseAt (c :: cs) with
    | some p => phrase p
    | none =>
      if isSeparator c then separator c
      else if isQuote c then
        if c ∈ cs then quoted c (cs.takeWhile (· != c)) else unclosed c cs
      else word (longestWord (c :: cs))

/-- What a segment asks of itself and of the text behind it. -/
def FitsBefore : Segment → List Char → Prop
  | blank c, _ => Text.isWhiteSpace c
  | phrase p, _ => p ∈ phrases
  | separator c, _ => isSeparator c
  | quoted quote inside, _ => isQuote quote ∧ quote ∉ inside
  | unclosed quote inside, rest => isQuote quote ∧ quote ∉ inside ∧ rest = []
  | word w, rest => w ≠ [] ∧ Plain w rest ∧ Stops rest

instance : (g : Segment) → (rest : List Char) → Decidable (g.FitsBefore rest)
  | blank c, _ => inferInstanceAs (Decidable (Text.isWhiteSpace c = true))
  | phrase p, _ => inferInstanceAs (Decidable (p ∈ phrases))
  | separator c, _ => inferInstanceAs (Decidable (isSeparator c = true))
  | quoted q inside, _ => inferInstanceAs (Decidable (isQuote q = true ∧ q ∉ inside))
  | unclosed q inside, rest =>
    inferInstanceAs (Decidable (isQuote q = true ∧ q ∉ inside ∧ rest = []))
  | word w, rest => inferInstanceAs (Decidable (w ≠ [] ∧ Plain w rest ∧ Stops rest))

theorem text_ne_nil {g : Segment} {rest : List Char} (h : g.FitsBefore rest) : g.text ≠ [] := by
  cases g with
  | blank c => simp [text]
  | phrase p =>
    obtain ⟨cs, hp⟩ := toList_eq_cons_of_mem_phrases h
    simp [text, hp]
  | separator c => simp [text]
  | quoted q inside => simp [text]
  | unclosed q inside => simp [text]
  | word w => exact h.1

theorem FitsBefore.plain {g : Segment} {rest : List Char} (h : g.FitsBefore rest)
    (hchars : ∀ c ∈ g.text, isWordChar c) : Plain g.text rest ∧ Stops rest := by
  cases g with
  | blank c =>
    have hblank : Text.isWhiteSpace c = true := h
    simp [text, isWordChar, hblank] at hchars
  | phrase p => exact absurd (hchars ' ' (space_mem_of_mem_phrases h)) (by decide)
  | separator c =>
    have hsep : isSeparator c = true := h
    simp [text, isWordChar, hsep] at hchars
  | quoted q inside => simp [text, isWordChar, h.1] at hchars
  | unclosed q inside => simp [text, isWordChar, h.1] at hchars
  | word w => exact h.2

theorem takeWhile_ne_append {q : Char} {inside rest : List Char} (h : q ∉ inside) :
    (inside ++ q :: rest).takeWhile (· != q) = inside := by
  rw [List.takeWhile_append_of_pos]
  · simp
  · intro c hc
    have hne : c ≠ q := fun he => h (he ▸ hc)
    simpa using hne

theorem first_fitsBefore (c : Char) (cs : List Char) :
    ∃ rest, c :: cs = (first c cs).text ++ rest ∧ (first c cs).FitsBefore rest := by
  unfold first
  split
  · next hc => exact ⟨cs, rfl, hc⟩
  · next hc =>
    split
    · next p hp =>
      obtain ⟨hmem, rest, hrest⟩ := phraseAt_eq_some_iff.mp hp
      exact ⟨rest, hrest.symm, hmem⟩
    · next hp =>
      split
      · next hsep => exact ⟨cs, rfl, hsep⟩
      · next hsep =>
        split
        · next hq =>
          split
          · next hmem =>
            obtain ⟨inside, after, rfl, hin⟩ := List.eq_append_cons_of_mem hmem
            rw [takeWhile_ne_append hin]
            exact ⟨after, by simp [text], hq, hin⟩
          · next hmem => exact ⟨[], by simp [text], hq, hmem, rfl⟩
        · next hq =>
          -- The first character alone is plain, so the longest word is not empty.
          have hplain : Plain [c] cs := by
            rw [plain_singleton, isWordChar_iff]
            simp [hc, hsep, hq, hp]
          obtain ⟨rest, hs, hw, hstop⟩ := exists_longestWord_append (c :: cs)
          refine ⟨rest, hs, ?_, hw, hstop⟩
          intro hnil
          rw [hnil, List.nil_append] at hs
          rw [← hs] at hstop
          exact hstop hplain

/-- The segment that fits is the first one. -/
theorem first_eq {g : Segment} {c : Char} {cs rest : List Char} (h : g.FitsBefore rest)
    (hs : c :: cs = g.text ++ rest) : first c cs = g := by
  cases g with
  | blank d =>
    obtain ⟨rfl, rfl⟩ := List.cons.inj hs
    exact if_pos h
  | phrase p =>
    obtain ⟨ds, hp⟩ := toList_eq_cons_of_mem_phrases h
    have hat : phraseAt (c :: cs) = some p := hs ▸ phraseAt_append h rest
    have hc : Text.isWhiteSpace c = false := by
      simp only [text, hp, List.cons_append, List.cons.injEq] at hs
      rw [hs.1]
      decide
    simp [first, hc, hat]
  | separator d =>
    obtain ⟨rfl, rfl⟩ := List.cons.inj hs
    obtain ⟨hws, -, hdot⟩ := of_isSeparator h
    have hsep : isSeparator c = true := h
    simp [first, hws, phraseAt_cons_of_ne hdot, hsep]
  | quoted q inside =>
    obtain ⟨hq, hin⟩ := h
    obtain ⟨rfl, rfl⟩ : c = q ∧ cs = inside ++ q :: rest := by simpa [text] using hs
    obtain ⟨hws, hsep, hdot⟩ := of_isQuote hq
    simp [first, hws, phraseAt_cons_of_ne hdot, hsep, hq, takeWhile_ne_append hin]
  | unclosed q inside =>
    obtain ⟨hq, hin, rfl⟩ := h
    obtain ⟨rfl, rfl⟩ : c = q ∧ cs = inside := by simpa [text] using hs
    obtain ⟨hws, hsep, hdot⟩ := of_isQuote hq
    simp [first, hws, phraseAt_cons_of_ne hdot, hsep, hq, hin]
  | word w =>
    obtain ⟨hne, hw, hstop⟩ := h
    have hlong : longestWord (c :: cs) = w := by
      rw [hs]
      exact longestWord_append_eq_iff.mpr ⟨hw, hstop⟩
    obtain ⟨d, w, rfl⟩ := List.exists_cons_of_ne_nil hne
    obtain ⟨rfl, rfl⟩ := List.cons.inj hs
    obtain ⟨hc, hp, -⟩ := plain_cons.mp hw
    obtain ⟨hws, hsep, hq⟩ := isWordChar_iff.mp hc
    rw [List.cons_append] at hp
    simp only [List.append_eq] at hlong
    simp [first, hws, hp, hsep, hq, hlong]

theorem length_text_first_pos (c : Char) (cs : List Char) : 0 < (first c cs).text.length := by
  obtain ⟨rest, -, hfit⟩ := first_fitsBefore c cs
  exact List.length_pos_iff.mpr (text_ne_nil hfit)

end Segment

open Segment

/-- The cut of a text: its first segment, and the cut of what is left behind that. -/
def segments : List Char → List Segment
  | [] => []
  | c :: cs => first c cs :: segments ((c :: cs).drop (first c cs).text.length)
termination_by s => s.length
decreasing_by
  have := length_text_first_pos c cs
  simp only [List.length_drop, List.length_cons]
  omega

@[simp] theorem segments_nil : segments [] = [] := by rw [segments]

theorem segments_text_append {g : Segment} {rest : List Char} (h : g.FitsBefore rest) :
    segments (g.text ++ rest) = g :: segments rest := by
  have hne : g.text ++ rest ≠ [] := List.append_ne_nil_of_left_ne_nil (text_ne_nil h) rest
  obtain ⟨c, cs, hs⟩ := List.exists_cons_of_ne_nil hne
  have hg : first c cs = g := first_eq h hs.symm
  rw [hs, segments, hg, ← hs, List.drop_left]

/-- Every segment fits before the text of those behind it. -/
def Fit : List Segment → Prop
  | [] => True
  | g :: gs => g.FitsBefore (gs.flatMap text) ∧ Fit gs

def decideFit : (gs : List Segment) → Decidable (Fit gs)
  | [] => isTrue trivial
  | g :: gs =>
    have := decideFit gs
    inferInstanceAs (Decidable (g.FitsBefore (gs.flatMap text) ∧ Fit gs))

instance (gs : List Segment) : Decidable (Fit gs) := decideFit gs

@[simp] theorem fit_nil : Fit [] := trivial

@[simp] theorem fit_cons {g : Segment} {gs : List Segment} :
    Fit (g :: gs) ↔ g.FitsBefore (gs.flatMap text) ∧ Fit gs := Iff.rfl

theorem segments_flatMap_text {gs : List Segment} (h : Fit gs) :
    segments (gs.flatMap text) = gs := by
  induction gs with
  | nil => simp
  | cons g gs ih =>
    obtain ⟨hg, hgs⟩ := h
    rw [List.flatMap_cons, segments_text_append hg, ih hgs]

theorem flatMap_text_segments (s : List Char) : (segments s).flatMap text = s := by
  induction s using segments.induct with
  | case1 => simp
  | case2 c cs ih =>
    obtain ⟨rest, hs, -⟩ := first_fitsBefore c cs
    rw [segments, List.flatMap_cons, ih]
    calc
      _ = (first c cs).text ++ rest := by rw [hs, List.drop_left]
      _ = c :: cs := hs.symm

theorem fit_segments (s : List Char) : Fit (segments s) := by
  induction s using segments.induct with
  | case1 => simp
  | case2 c cs ih =>
    obtain ⟨rest, hs, hfit⟩ := first_fitsBefore c cs
    rw [segments, fit_cons, flatMap_text_segments]
    refine ⟨?_, ih⟩
    rwa [hs, List.drop_left]

theorem segments_eq_iff {s : List Char} {gs : List Segment} :
    segments s = gs ↔ Fit gs ∧ gs.flatMap text = s := by
  constructor
  · rintro rfl
    exact ⟨fit_segments s, flatMap_text_segments s⟩
  · rintro ⟨hfit, rfl⟩
    exact segments_flatMap_text hfit

theorem fitsBefore_of_fit_append {before after : List Segment} {g : Segment}
    (h : Fit (before ++ g :: after)) : g.FitsBefore (after.flatMap text) := by
  induction before with
  | nil => exact h.1
  | cons b before ih => exact ih h.2

/-- The tokens of a clean line, read off its cut. -/
def lineTokens (line : Nat) (s : List Char) : List Token := (segments s).filterMap (token? line)

theorem mem_lineTokens {line : Nat} {s : List Char} {t : Token} :
    t ∈ lineTokens line s ↔ ∃ g ∈ segments s, g.token? line = some t := List.mem_filterMap

theorem line_of_mem_lineTokens {line : Nat} {s : List Char} {t : Token}
    (h : t ∈ lineTokens line s) : t.line = line := by
  obtain ⟨g, -, hg⟩ := mem_lineTokens.mp h
  exact (eq_of_token? hg).2.2

@[simp] theorem lineTokens_nil (line : Nat) : lineTokens line [] = [] := by simp [lineTokens]

theorem lineTokens_of_fit (line : Nat) {s : List Char} (gs : List Segment) (h : Fit gs)
    (hs : gs.flatMap text = s) : lineTokens line s = gs.filterMap (token? line) := by
  rw [lineTokens, segments_eq_iff.mpr ⟨h, hs⟩]

theorem lineTokens_text_append (line : Nat) {g : Segment} {rest : List Char}
    (h : g.FitsBefore rest) :
    lineTokens line (g.text ++ rest) = (g.token? line).toList ++ lineTokens line rest := by
  rw [lineTokens, segments_text_append h, List.filterMap_cons]
  cases g.token? line <;> rfl

theorem lineTokens_of_token? {line : Nat} {g : Segment} {rest : List Char} {t : Token}
    (h : g.FitsBefore rest) (ht : g.token? line = some t) :
    lineTokens line (t.value.toList ++ rest) = t :: lineTokens line rest := by
  rw [(eq_of_token? ht).1, lineTokens_text_append line h, ht]
  rfl

theorem lineTokens_isBlank_append (line : Nat) {gap : List Char} (h : Text.IsBlank gap)
    (rest : List Char) : lineTokens line (gap ++ rest) = lineTokens line rest := by
  induction gap with
  | nil => rfl
  | cons c gap ih =>
    obtain ⟨hc, hgap⟩ := Text.isBlank_cons.mp h
    rw [← ih hgap]
    exact lineTokens_text_append line (g := .blank c) hc

theorem exists_fitsBefore_of_lineTokens {line : Nat} {t : Token} {ts more : List Token}
    {rest : List Char} (hne : t.value.toList ≠ [])
    (hink : Text.StartsInk t.value.toList)
    (h : lineTokens line (t.value.toList ++ rest) ++ more = t :: ts) :
    ∃ g : Segment, g.FitsBefore rest ∧ g.token? line = some t ∧
      lineTokens line rest ++ more = ts := by
  obtain ⟨c, v, hv⟩ := List.exists_cons_of_ne_nil hne
  obtain ⟨after, hs, hfit⟩ := first_fitsBefore c (v ++ rest)
  rw [hv, Text.startsInk_cons] at hink
  rw [← List.cons_append, ← hv] at hs
  cases ht : (first c (v ++ rest)).token? line with
  | none =>
    -- A segment without a token is white space, and the value does not start with that.
    obtain ⟨d, hd⟩ := eq_blank_of_token?_eq_none ht
    rw [hd] at hs hfit
    have hc : Text.isWhiteSpace d = true := hfit
    rw [hv] at hs
    obtain ⟨rfl, -⟩ := List.cons.inj hs
    simp [hc] at hink
  | some u =>
    rw [hs, lineTokens_text_append line hfit, ht, Option.toList_some, List.singleton_append,
      List.cons_append] at h
    obtain ⟨rfl, hts⟩ := List.cons.inj h
    rw [← (eq_of_token? ht).1, List.append_cancel_left_eq] at hs
    rw [← hs] at hfit hts
    exact ⟨_, hfit, ht, hts⟩

end Lex8086
