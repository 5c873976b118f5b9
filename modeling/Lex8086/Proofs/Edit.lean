import Lex8086.Analysis
import Lex8086.Proofs.CleanLine
import Mathlib.Logic.Relation

namespace Lex8086

theorem cleanPiece_blank_append {gap : List Char} (h : Text.IsBlank gap) (p : List Char) :
    cleanPiece (gap ++ p) = cleanPiece p := by
  rw [cleanPiece, dropComment_append_of_notMem (semicolon_notMem_of_isBlank h),
    Text.trim_blank_append h, cleanPiece]

theorem cleanPiece_append_blank {gap : List Char} (h : Text.IsBlank gap) (p : List Char) :
    cleanPiece (p ++ gap) = cleanPiece p := by
  by_cases hp : ';' ∈ p
  · rw [cleanPiece, dropComment_append_of_mem hp, cleanPiece]
  · rw [cleanPiece, dropComment_append_of_notMem hp,
      dropComment_eq_self (semicolon_notMem_of_isBlank h), Text.trim_append_blank h, cleanPiece,
      dropComment_eq_self hp]

theorem cleanPiece_append_comment (p text : List Char) :
    cleanPiece (p ++ ';' :: text) = cleanPiece p := by
  by_cases hp : ';' ∈ p
  · rw [cleanPiece, dropComment_append_of_mem hp, cleanPiece]
  · rw [cleanPiece, dropComment_append_semicolon hp, cleanPiece, dropComment_eq_self hp]

/-- Edits inside one piece. -/
inductive Touch : List Char → List Char → Prop
  | indent {gap p : List Char} : Text.IsBlank gap → '\n' ∉ gap → Touch p (gap ++ p)
  | trail {gap p : List Char} : Text.IsBlank gap → '\n' ∉ gap → Touch p (p ++ gap)
  | comment {text p : List Char} : '\n' ∉ text → Touch p (p ++ ';' :: text)
  /-- The text after the first semicolon is another one. -/
  | reword {code old new : List Char} :
      ';' ∉ code → '\n' ∉ new → Touch (code ++ ';' :: old) (code ++ ';' :: new)

theorem Touch.cleanPiece_eq {p q : List Char} (h : Touch p q) : cleanPiece q = cleanPiece p := by
  cases h with
  | indent hgap => exact cleanPiece_blank_append hgap p
  | trail hgap => exact cleanPiece_append_blank hgap p
  | comment => exact cleanPiece_append_comment p _
  | reword => rw [cleanPiece_append_comment, cleanPiece_append_comment]

theorem Touch.newline_notMem {p q : List Char} (h : Touch p q) (hp : '\n' ∉ p) : '\n' ∉ q := by
  cases h <;> simp_all

/-- A piece without code: it is blank, or the first character that is not white space starts a
comment. -/
def Idle (p : List Char) : Prop :=
  '\n' ∉ p ∧ (Text.IsBlank p ∨ ∃ gap text, Text.IsBlank gap ∧ p = gap ++ ';' :: text)

theorem Idle.cleanPiece_eq_nil {p : List Char} (h : Idle p) : cleanPiece p = [] := by
  have hblank : ∀ {gap : List Char}, Text.IsBlank gap → cleanPiece gap = [] :=
    fun hgap => cleanPiece_append_blank hgap []
  rcases h.2 with hp | ⟨gap, text, hgap, rfl⟩
  · exact hblank hp
  · rw [cleanPiece_append_comment, hblank hgap]

def withReturns (s : List Char) : List Char :=
  s.flatMap fun c => if c = '\n' then ['\r', '\n'] else [c]

theorem withReturns_append (s t : List Char) :
    withReturns (s ++ t) = withReturns s ++ withReturns t := List.flatMap_append

theorem withReturns_of_notMem {s : List Char} (h : '\n' ∉ s) : withReturns s = s := by
  have hkeep : ∀ c ∈ s, (if c = '\n' then ['\r', '\n'] else [c]) = [c] := by
    intro c hc
    apply if_neg
    exact fun he => h (he ▸ hc)
  rw [withReturns, List.flatMap_congr hkeep]
  exact List.flatMap_singleton' s

theorem withReturns_append_newline {row : List Char} (h : '\n' ∉ row) (s : List Char) :
    withReturns (row ++ '\n' :: s) = row ++ ['\r'] ++ '\n' :: withReturns s := by
  rw [withReturns_append, withReturns_of_notMem h, List.append_assoc]
  rfl

theorem cleanTexts_withReturns (s : List Char) :
    cleanTexts (String.ofList (withReturns s)) = cleanTexts (String.ofList s) := by
  by_cases h : '\n' ∈ s
  · obtain ⟨row, rest, rfl, hrow⟩ := List.eq_append_cons_of_mem h
    have hreturn : '\n' ∉ row ++ ['\r'] := by simp [hrow]
    have hblank : Text.IsBlank ['\r'] := by decide
    have hclean : Text.trim (dropComment (row ++ ['\r'])) = Text.trim (dropComment row) :=
      cleanPiece_append_blank hblank row
    rw [withReturns_append_newline hrow, cleanTexts_append_newline, cleanTexts_append_newline,
      cleanTexts_of_notMem_newline hreturn, cleanTexts_of_notMem_newline hrow, hclean,
      cleanTexts_withReturns rest]
  · rw [withReturns_of_notMem h]
termination_by s.length

/-- One edit of a source: at one piece, a new piece between two or at an end, or other line ends. -/
inductive Edit (source : String) : String → Prop
  | touch {before after : List (List Char)} {p q : List Char} :
      pieces source = before ++ p :: after → Touch p q →
      Edit source (ofPieces (before ++ q :: after))
  | insert {before after : List (List Char)} {p : List Char} :
      pieces source = before ++ after → Idle p →
      Edit source (ofPieces (before ++ p :: after))
  | returns : Edit source (String.ofList (withReturns source.toList))

theorem cleanTexts_ofPieces_append_cons {before after : List (List Char)} {q : List Char}
    (h : ∀ p ∈ before ++ after, '\n' ∉ p) (hq : '\n' ∉ q) :
    cleanTexts (ofPieces (before ++ q :: after)) =
      ((before ++ q :: after).map cleanPiece).filter (· ≠ []) := by
  apply cleanTexts_ofPieces
  · simp
  · rw [List.forall_mem_append] at h ⊢
    exact ⟨h.1, List.forall_mem_cons.mpr ⟨hq, h.2⟩⟩

theorem Edit.cleanTexts_eq {source edited : String} (h : Edit source edited) :
    cleanTexts edited = cleanTexts source := by
  have hlines : ∀ p ∈ pieces source, '\n' ∉ p := fun p => newline_notMem_of_mem_pieces
  cases h with
  | @touch before after p q hpieces htouch =>
    rw [hpieces] at hlines
    have hq := htouch.newline_notMem (hlines p (by simp))
    have hothers : ∀ r ∈ before ++ after, '\n' ∉ r := by
      intro r hr
      exact hlines r (((List.sublist_cons_self p after).append_left before).subset hr)
    rw [cleanTexts_ofPieces_append_cons hothers hq, cleanTexts_eq_filter_pieces, hpieces]
    simp [htouch.cleanPiece_eq]
  | @insert before after p hpieces hidle =>
    rw [hpieces] at hlines
    rw [cleanTexts_ofPieces_append_cons hlines hidle.1, cleanTexts_eq_filter_pieces, hpieces]
    simp [hidle.cleanPiece_eq_nil]
  | returns => rw [cleanTexts_withReturns, String.ofList_toList]

theorem cleanTexts_eq_of_edits {source edited : String}
    (h : Relation.ReflTransGen Edit source edited) : cleanTexts edited = cleanTexts source := by
  induction h with
  | refl => rfl
  | tail _ hedit ih => rw [hedit.cleanTexts_eq, ih]

/-- An analysis reads nothing but the clean lines. -/
theorem analyze_congr {a b : String} (h : cleanLines a = cleanLines b) :
    analyze a = analyze b := by
  rw [analyze, analyze, h]

/-- Edits of comments, blank pieces and line ends never interfere with the code: the clean lines,
the tokens and the log stay the same, also where a quote is open or a semicolon stands in one. -/
theorem analyze_eq_of_edits {source edited : String}
    (h : Relation.ReflTransGen Edit source edited) :
    cleanLines edited = cleanLines source ∧ tokenize edited = tokenize source ∧
      (analyze edited).events = (analyze source).events := by
  have hlines : cleanLines edited = cleanLines source := by
    rw [cleanLines, cleanLines, cleanTexts_eq_of_edits h]
  have hanalyze := analyze_congr hlines
  exact ⟨hlines, congrArg Output.tokens hanalyze, congrArg Output.events hanalyze⟩

/-- A comment that starts inside a quote is reworded, a remark comes in behind it, white space is
added at the end, and the lines end otherwise. -/
theorem analyze_eq_of_edits_open_quote :
    Relation.ReflTransGen Edit "DB 'a;b'\nRET" "DB 'a; c\r\n ; d\r\nRET\t" ∧
      cleanLines "DB 'a; c\r\n ; d\r\nRET\t" = cleanLines "DB 'a;b'\nRET" ∧
      tokenize "DB 'a; c\r\n ; d\r\nRET\t" = tokenize "DB 'a;b'\nRET" ∧
      (analyze "DB 'a; c\r\n ; d\r\nRET\t").events = (analyze "DB 'a;b'\nRET").events := by
  have hreword : Edit "DB 'a;b'\nRET" "DB 'a; c\nRET" :=
    @Edit.touch _ [] ["RET".toList] _ _ (by decide)
      (@Touch.reword "DB 'a".toList "b'".toList " c".toList (by decide) (by decide))
  have hinsert : Edit "DB 'a; c\nRET" "DB 'a; c\n ; d\nRET" :=
    @Edit.insert _ ["DB 'a; c".toList] ["RET".toList] " ; d".toList (by decide)
      ⟨by decide, .inr ⟨[' '], " d".toList, by decide, by decide⟩⟩
  have htrail : Edit "DB 'a; c\n ; d\nRET" "DB 'a; c\n ; d\nRET\t" :=
    @Edit.touch _ ["DB 'a; c".toList, " ; d".toList] [] "RET".toList _ (by decide)
      (@Touch.trail ['\t'] "RET".toList (by decide) (by decide))
  have hreturns : Edit "DB 'a; c\n ; d\nRET\t" "DB 'a; c\r\n ; d\r\nRET\t" := Edit.returns
  have hedits := (((Relation.ReflTransGen.single hreword).tail hinsert).tail htrail).tail hreturns
  exact ⟨hedits, analyze_eq_of_edits hedits⟩

end Lex8086
