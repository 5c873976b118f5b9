import Lex8086.Proofs.TokenKind
import Lex8086.Report
import Mathlib.Data.List.MinMax

namespace Lex8086

/-- A value that stays on its line and does not run into the padding behind it. -/
def Token.Printable (t : Token) : Prop :=
  '\n' ∉ t.value.toList ∧ t.value.toList.getLast? ≠ some ' '

instance (t : Token) : Decidable t.Printable :=
  inferInstanceAs (Decidable ('\n' ∉ t.value.toList ∧ t.value.toList.getLast? ≠ some ' '))

theorem printable_of_mem_tokenize {source : String} {t : Token} (h : t ∈ tokenize source) :
    t.Printable := by
  have hclean := (regular_of_mem_tokenize h).isClean_value
  refine ⟨hclean.no_newline, fun hlast => ?_⟩
  have hink := hclean.endsInk ' ' hlast
  exact absurd hink (by decide)

theorem Category.ofTag?_tag (c : Category) : ofTag? c.tag = some c := by cases c <;> decide

theorem Category.tag_injective : Function.Injective tag := by
  intro c d h
  apply Option.some.inj
  rw [← ofTag?_tag c, ← ofTag?_tag d, h]

theorem isDigit_of_mem_toString {n : Nat} {c : Char} (h : c ∈ (toString n).toList) :
    c.isDigit := by
  rw [Nat.toString_eq_ofList_toDigits, String.toList_ofList] at h
  exact Nat.isDigit_of_mem_toDigits (by omega) (by omega) h

theorem toList_toString_injective : Function.Injective fun n : Nat => (toString n).toList := by
  intro m n h
  simp only [Nat.toString_eq_ofList_toDigits, String.toList_ofList] at h
  rw [← Nat.ofDigitChars_ten_toDigits (n := m), h, Nat.ofDigitChars_ten_toDigits]

namespace Report

@[simp] theorem toList_alignRight (width : Nat) (s : String) :
    (alignRight width s).toList = s.toList.leftpad width ' ' := String.toList_ofList

@[simp] theorem toList_alignLeft (width : Nat) (s : String) :
    (alignLeft width s).toList = s.toList.rightpad width ' ' := String.toList_ofList

@[simp] theorem toList_dashes (width : Nat) :
    (dashes width).toList = List.replicate width '-' := String.toList_ofList

theorem leftpad_inj {n n' : Nat} {c : Char} {s s' : List Char} (hs : s.head? ≠ some c)
    (hs' : s'.head? ≠ some c) (h : s.leftpad n c = s'.leftpad n' c) : s = s' := by
  have hdrop : ∀ {n : Nat} {s : List Char}, s.head? ≠ some c →
      (s.leftpad n c).dropWhile (· == c) = s := by
    intro n s hs
    rw [List.leftpad, List.dropWhile_append_of_pos (by simp)]
    cases s with
    | nil => rfl
    | cons d s => simpa using hs
  rw [← hdrop hs, h, hdrop hs']

theorem reverse_rightpad (n : Nat) (c : Char) (s : List Char) :
    (s.rightpad n c).reverse = s.reverse.leftpad n c := by
  simp [List.rightpad, List.leftpad]

theorem rightpad_inj {n n' : Nat} {c : Char} {s s' : List Char} (hs : s.getLast? ≠ some c)
    (hs' : s'.getLast? ≠ some c) (h : s.rightpad n c = s'.rightpad n' c) : s = s' := by
  have hrev : s.reverse.leftpad n c = s'.reverse.leftpad n' c := by
    rw [← reverse_rightpad, ← reverse_rightpad, h]
  apply List.reverse_injective
  exact leftpad_inj (by rwa [List.head?_reverse]) (by rwa [List.head?_reverse]) hrev

/-- No cell of the row is wider than its column. -/
structure Row.FitsIn (row : Row) (w : Widths) : Prop where
  ordinal : row.ordinal.length ≤ w.ordinal
  value : row.value.length ≤ w.value
  type : row.type.length ≤ w.type
  line : row.line.length ≤ w.line

theorem length_le_widest (cell : Row → String) {rows : List Row} {row : Row} (h : row ∈ rows) :
    (cell row).length ≤ widest cell rows :=
  List.le_max_of_le' 0 (List.mem_map_of_mem h) (Nat.le_refl _)

theorem fitsIn_widths {rows : List Row} {row : Row} (h : row ∈ rows) :
    row.FitsIn (widths rows) where
  ordinal := length_le_widest Row.ordinal h
  value := length_le_widest Row.value h
  type := length_le_widest Row.type h
  line := length_le_widest Row.line h

theorem length_alignRight {width : Nat} {s : String} (h : s.length ≤ width) :
    (alignRight width s).toList.length = width := by
  rw [toList_alignRight, List.length_leftpad, String.length_toList]
  omega

theorem length_alignLeft {width : Nat} {s : String} (h : s.length ≤ width) :
    (alignLeft width s).toList.length = width := by
  rw [toList_alignLeft, List.length_rightpad, String.length_toList]
  omega

theorem cells_eq_of_rowLine_eq {w : Widths} {row row' : Row} (hfit : row.FitsIn w)
    (hfit' : row'.FitsIn w) (h : rowLine w row = rowLine w row') :
    alignRight w.ordinal row.ordinal = alignRight w.ordinal row'.ordinal ∧
      alignLeft w.value row.value = alignLeft w.value row'.value ∧
      alignLeft w.type row.type = alignLeft w.type row'.type ∧
      alignRight w.line row.line = alignRight w.line row'.line := by
  have hlist := congrArg String.toList h
  simp only [rowLine, String.toList_append, List.append_assoc] at hlist
  obtain ⟨hordinal, hlist⟩ := List.append_inj (List.append_cancel_left hlist)
    (by rw [length_alignRight hfit.ordinal, length_alignRight hfit'.ordinal])
  obtain ⟨hvalue, hlist⟩ := List.append_inj (List.append_cancel_left hlist)
    (by rw [length_alignLeft hfit.value, length_alignLeft hfit'.value])
  obtain ⟨htype, hlist⟩ := List.append_inj (List.append_cancel_left hlist)
    (by rw [length_alignLeft hfit.type, length_alignLeft hfit'.type])
  have hline := List.append_cancel_right (List.append_cancel_left hlist)
  exact ⟨String.toList_inj.mp hordinal, String.toList_inj.mp hvalue, String.toList_inj.mp htype,
    String.toList_inj.mp hline⟩

theorem token_eq_of_rowLine_eq {w : Widths} {n n' : Nat} {t t' : Token}
    (hfit : (Row.ofToken n t).FitsIn w) (hfit' : (Row.ofToken n' t').FitsIn w)
    (ht : t.Printable) (ht' : t'.Printable)
    (h : rowLine w (.ofToken n t) = rowLine w (.ofToken n' t')) : t = t' := by
  obtain ⟨-, hvalue, htype, hline⟩ := cells_eq_of_rowLine_eq hfit hfit' h
  -- No cell has a space on the side of its padding.
  have hdigit : ∀ k : Nat, (toString k).toList.head? ≠ some ' ' := by
    intro k hk
    have hspace := isDigit_of_mem_toString (List.mem_of_mem_head? hk)
    exact absurd hspace (by decide)
  have htag : ∀ c : Category, c.tag.toList.getLast? ≠ some ' ' := by
    intro c
    cases c <;> decide
  replace hvalue := congrArg String.toList hvalue
  replace htype := congrArg String.toList htype
  replace hline := congrArg String.toList hline
  rw [toList_alignLeft, toList_alignLeft] at hvalue htype
  rw [toList_alignRight, toList_alignRight] at hline
  have hv : t.value = t'.value := String.toList_inj.mp (rightpad_inj ht.2 ht'.2 hvalue)
  have hc : t.category = t'.category :=
    Category.tag_injective (String.toList_inj.mp (rightpad_inj (htag _) (htag _) htype))
  have hl : t.line = t'.line :=
    toList_toString_injective (leftpad_inj (hdigit _) (hdigit _) hline)
  cases t
  cases t'
  congr

theorem toList_ruleLine (w : Widths) : (ruleLine w).toList =
    '|' :: List.replicate (w.ordinal + 2) '-' ++ '|' :: List.replicate (w.value + 2) '-' ++
      '|' :: List.replicate (w.type + 2) '-' ++ '|' :: List.replicate (w.line + 2) '-' ++
      ['|'] := by
  have hdashes : ∀ n : Nat,
      List.replicate (n + 2) '-' = '-' :: (List.replicate n '-' ++ ['-']) := by
    intro n
    rw [List.replicate_succ, List.replicate_succ']
  simp [ruleLine, hdashes]

/-- The bars of the rule stand apart from its dashes. -/
theorem splitOn_ruleLine (w : Widths) : (ruleLine w).toList.splitOn '|' =
    [[], List.replicate (w.ordinal + 2) '-', List.replicate (w.value + 2) '-',
      List.replicate (w.type + 2) '-', List.replicate (w.line + 2) '-', []] := by
  have hrule : (ruleLine w).toList = ['|'].intercalate
      [[], List.replicate (w.ordinal + 2) '-', List.replicate (w.value + 2) '-',
        List.replicate (w.type + 2) '-', List.replicate (w.line + 2) '-', []] := by
    simp [toList_ruleLine, List.intercalate_cons_cons]
  rw [hrule]
  apply List.splitOn_intercalate
  · simp
  · simp

theorem ruleLine_injective : Function.Injective ruleLine := by
  rintro ⟨w₀, w₁, w₂, w₃⟩ ⟨v₀, v₁, v₂, v₃⟩ h
  have hsplit := splitOn_ruleLine ⟨w₀, w₁, w₂, w₃⟩
  rw [h, splitOn_ruleLine] at hsplit
  simp only [List.cons.injEq, List.replicate_inj] at hsplit
  congr <;> omega

theorem toList_join_newline (ls : List String) :
    (String.join (ls.map (· ++ "\n"))).toList =
      ['\n'].intercalate (ls.map String.toList ++ [[]]) := by
  rw [String.toList_join]
  induction ls with
  | nil => rfl
  | cons l ls ih =>
    obtain ⟨first, rest, hcons⟩ :=
      List.exists_cons_of_ne_nil (l := ls.map String.toList ++ [[]]) (by simp)
    rw [List.map_cons, List.flatMap_cons, ih, List.map_cons, List.cons_append, hcons,
      List.intercalate_cons_cons, String.toList_append]
    rfl

theorem newline_notMem_rowLine {w : Widths} {row : Row}
    (h : ∀ cell ∈ [row.ordinal, row.value, row.type, row.line], '\n' ∉ cell.toList) :
    '\n' ∉ (rowLine w row).toList := by
  simpa [rowLine, List.leftpad, List.rightpad, List.mem_replicate] using h

theorem newline_notMem_ruleLine (w : Widths) : '\n' ∉ (ruleLine w).toList := by
  simp [ruleLine, List.mem_replicate]

theorem newline_notMem_of_mem_lines {title : String} {tokens : List Token}
    (htitle : '\n' ∉ title.toList) (hvalues : ∀ t ∈ tokens, '\n' ∉ t.value.toList) :
    ∀ l ∈ lines title tokens, '\n' ∉ l.toList := by
  have htag : ∀ c : Category, '\n' ∉ c.tag.toList := by
    intro c
    cases c <;> decide
  have hdigit : ∀ n : Nat, '\n' ∉ (toString n).toList := by
    intro n hn
    exact absurd (isDigit_of_mem_toString hn) (by decide)
  intro l hl
  simp only [lines, List.mem_append, List.mem_cons, List.not_mem_nil, or_false, List.mem_map] at hl
  rcases hl with ((rfl | rfl | rfl) | ⟨row, hrow, rfl⟩) | (rfl | rfl)
  · exact htitle
  · exact newline_notMem_rowLine (by decide)
  · exact newline_notMem_ruleLine _
  · obtain ⟨⟨t, n⟩, ht, rfl⟩ := List.mem_map.mp hrow
    have hvalue := hvalues t (List.fst_mem_of_mem_zipIdx ht)
    apply newline_notMem_rowLine
    simp only [Row.ofToken, List.forall_mem_cons]
    exact ⟨hdigit n, hvalue, htag t.category, hdigit t.line, by simp⟩
  · decide
  · rw [String.toList_append, List.mem_append]
    exact not_or.mpr ⟨by decide, hdigit tokens.length⟩

theorem splitOn_render {title : String} {tokens : List Token} (htitle : '\n' ∉ title.toList)
    (hvalues : ∀ t ∈ tokens, '\n' ∉ t.value.toList) :
    (render title tokens).toList.splitOn '\n' = (lines title tokens).map String.toList ++ [[]] := by
  rw [render, toList_join_newline]
  apply List.splitOn_intercalate
  · intro piece hpiece
    rcases List.mem_append.mp hpiece with hpiece | hpiece
    · obtain ⟨l, hl, rfl⟩ := List.mem_map.mp hpiece
      exact newline_notMem_of_mem_lines htitle hvalues l hl
    · rw [List.mem_singleton.mp hpiece]
      exact List.not_mem_nil
  · simp

theorem lines_eq_of_render_eq {title title' : String} {tokens tokens' : List Token}
    (htitle : '\n' ∉ title.toList) (htitle' : '\n' ∉ title'.toList)
    (hvalues : ∀ t ∈ tokens, '\n' ∉ t.value.toList)
    (hvalues' : ∀ t ∈ tokens', '\n' ∉ t.value.toList)
    (h : render title tokens = render title' tokens') :
    lines title tokens = lines title' tokens' := by
  have hsplit := splitOn_render htitle hvalues
  rw [h, splitOn_render htitle' hvalues', List.append_cancel_right_eq] at hsplit
  have hinj : Function.Injective String.toList := fun _ _ => String.toList_inj.mp
  exact (List.map_injective_iff.mpr hinj hsplit).symm

theorem getElem?_rows {tokens : List Token} {i : Nat} (h : i < tokens.length) :
    (rows tokens)[i]? = some (.ofToken (1 + i) tokens[i]) := by
  simp [rows, h]

theorem fitsIn_widths_of_lt {tokens : List Token} {i : Nat} (h : i < tokens.length) :
    (Row.ofToken (1 + i) tokens[i]).FitsIn (widths (heading :: rows tokens)) :=
  fitsIn_widths (List.mem_cons_of_mem heading (List.mem_of_getElem? (getElem?_rows h)))

theorem eq_of_lines_eq {title title' : String} {tokens tokens' : List Token}
    (hp : ∀ t ∈ tokens, t.Printable) (hp' : ∀ t ∈ tokens', t.Printable)
    (h : lines title tokens = lines title' tokens') : title = title' ∧ tokens = tokens' := by
  simp only [lines, List.cons_append, List.nil_append, List.cons.injEq] at h
  obtain ⟨htitle, -, hrule, hrows⟩ := h
  have hw := ruleLine_injective hrule
  replace hrows := (List.append_inj' hrows rfl).1
  have hlen := congrArg List.length hrows
  simp only [rows, List.length_map, List.length_zipIdx] at hlen
  refine ⟨htitle, List.ext_getElem hlen fun i hi hi' => ?_⟩
  have hline := congrArg (·[i]?) hrows
  simp only [List.getElem?_map, getElem?_rows hi, getElem?_rows hi', Option.map_some,
    Option.some.injEq] at hline
  have hfit' := fitsIn_widths_of_lt hi'
  rw [← hw] at hfit' hline
  exact token_eq_of_rowLine_eq (fitsIn_widths_of_lt hi) hfit' (hp _ (List.getElem_mem hi))
    (hp' _ (List.getElem_mem hi')) hline

/-- The title is what a report starts with, and nothing else in it depends on the title. -/
theorem render_eq_append (title : String) (tokens : List Token) :
    render title tokens = title ++ render "" tokens := by
  apply String.toList_inj.mp
  simp [render, lines, String.toList_join]

theorem render_eq_iff {title title' : String} {tokens tokens' : List Token}
    (htitle : '\n' ∉ title.toList) (htitle' : '\n' ∉ title'.toList)
    (hp : ∀ t ∈ tokens, t.Printable) (hp' : ∀ t ∈ tokens', t.Printable) :
    render title tokens = render title' tokens' ↔ title = title' ∧ tokens = tokens' := by
  constructor
  · intro h
    have hlines := lines_eq_of_render_eq htitle htitle' (fun t ht => (hp t ht).1)
      (fun t ht => (hp' t ht).1) h
    exact eq_of_lines_eq hp hp' hlines
  · rintro ⟨rfl, rfl⟩
    rfl

/-- Reports of printable tokens are alike only under one title and for the same tokens. The tokens
of a source are printable, so two sources have one report exactly where they have the same
tokens. -/
theorem render_loses_nothing :
    (∀ title title' tokens tokens', '\n' ∉ title.toList → '\n' ∉ title'.toList →
      (∀ t ∈ tokens, t.Printable) → (∀ t ∈ tokens', t.Printable) →
      (render title tokens = render title' tokens' ↔ title = title' ∧ tokens = tokens')) ∧
      (∀ source, ∀ t ∈ tokenize source, t.Printable) ∧
      ∀ title source source', render title (tokenize source) = render title (tokenize source') ↔
        tokenize source = tokenize source' := by
  have hp : ∀ source, ∀ t ∈ tokenize source, t.Printable :=
    fun _ _ => printable_of_mem_tokenize
  refine ⟨fun _ _ _ _ => render_eq_iff, hp, ?_⟩
  intro title source source'
  have hbody : render "" (tokenize source) = render "" (tokenize source') ↔
      "" = "" ∧ tokenize source = tokenize source' :=
    render_eq_iff (by decide) (by decide) (hp source) (hp source')
  rw [render_eq_append, render_eq_append title (tokenize source'), String.append_right_inj, hbody]
  exact and_iff_right rfl

/-- A value that looks like the cells behind it. -/
theorem render_loses_nothing_bar_in_value :
    Token.Printable ⟨"a | SYMBOL", .symbol, 1⟩ ∧ Token.Printable ⟨"a", .symbol, 1⟩ ∧
      render "R" [⟨"a | SYMBOL", .symbol, 1⟩] ≠ render "R" [⟨"a", .symbol, 1⟩] := by
  have hbar : Token.Printable ⟨"a | SYMBOL", .symbol, 1⟩ := by decide
  have ha : Token.Printable ⟨"a", .symbol, 1⟩ := by decide
  have hiff := render_loses_nothing.1 "R" "R" [⟨"a | SYMBOL", .symbol, 1⟩] [⟨"a", .symbol, 1⟩]
    (by decide) (by decide) (by simpa using hbar) (by simpa using ha)
  refine ⟨hbar, ha, fun h => ?_⟩
  exact absurd (hiff.mp h).2 (by decide)

end Report

end Lex8086
