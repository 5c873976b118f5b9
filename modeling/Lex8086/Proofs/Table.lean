import Lex8086.Proofs.Report
import Mathlib.Order.Bounds.Defs
import Mathlib.Order.Nat

namespace Lex8086.Report

/-- The length of the longest cell. -/
def IsWidth (w : Nat) (cells : List String) : Prop := IsGreatest {n | n ∈ cells.map String.length} w

/-- The whole cell, behind spaces only, in a column of this width. -/
def IsRightAligned (w : Nat) (cell s : String) : Prop :=
  s.length = w ∧ ∃ n, s.toList = List.replicate n ' ' ++ cell.toList

/-- The whole cell, before spaces only, in a column of this width. -/
def IsLeftAligned (w : Nat) (cell s : String) : Prop :=
  s.length = w ∧ ∃ n, s.toList = cell.toList ++ List.replicate n ' '

def IsRow (w : Widths) (ordinal value type line l : String) : Prop :=
  ∃ a b c d, IsRightAligned w.ordinal ordinal a ∧ IsLeftAligned w.value value b ∧
    IsLeftAligned w.type type c ∧ IsRightAligned w.line line d ∧
    l = "| " ++ a ++ " | " ++ b ++ " | " ++ c ++ " | " ++ d ++ " |"

/-- Bars, and between them nothing but dashes, two more than the column is wide. -/
def IsRule (w : Widths) (l : String) : Prop :=
  l.toList =
    '|' :: List.replicate (w.ordinal + 2) '-' ++ '|' :: List.replicate (w.value + 2) '-' ++
      '|' :: List.replicate (w.type + 2) '-' ++ '|' :: List.replicate (w.line + 2) '-' ++ ['|']

def lineLength (w : Widths) : Nat := w.ordinal + w.value + w.type + w.line + 13

def barColumns (w : Widths) : List Nat :=
  [0, w.ordinal + 3, w.ordinal + w.value + 6, w.ordinal + w.value + w.type + 9,
    w.ordinal + w.value + w.type + w.line + 12]

/-- A table of the tokens. Its rows are numbered from 1. -/
structure IsTable (tokens : List Token) (w : Widths) (header rule : String)
    (body : List String) : Prop where
  ordinal_width : IsWidth w.ordinal ("#" :: (List.range' 1 tokens.length).map toString)
  value_width : IsWidth w.value ("Value" :: tokens.map Token.value)
  type_width : IsWidth w.type ("Type" :: tokens.map fun t => t.category.tag)
  line_width : IsWidth w.line ("Line" :: tokens.map fun t => toString t.line)
  header_isRow : IsRow w "#" "Value" "Type" "Line" header
  rule_isRule : IsRule w rule
  length_body : body.length = tokens.length
  body_isRow : ∀ i (h : i < tokens.length), ∃ l, body[i]? = some l ∧
    IsRow w (toString (i + 1)) tokens[i].value tokens[i].category.tag (toString tokens[i].line) l
  length_eq : ∀ l ∈ header :: rule :: body, l.length = lineLength w
  bars : ∀ l ∈ header :: rule :: body, ∀ k ∈ barColumns w, l.toList[k]? = some '|'

/-- The text is made of these `n` lines, and each ends with the only line feed in it. -/
def HasLines (text : String) (n : Nat) (ls : List String) : Prop :=
  ls.length = n ∧ text = String.join (ls.map (· ++ "\n")) ∧ ∀ l ∈ ls, '\n' ∉ l.toList

/-- Four boxes between bars, two characters wider than the columns. -/
def IsBarred (w : Widths) (l : String) : Prop :=
  ∃ a b c d : List Char, a.length = w.ordinal + 2 ∧ b.length = w.value + 2 ∧
    c.length = w.type + 2 ∧ d.length = w.line + 2 ∧
    l.toList = '|' :: a ++ '|' :: b ++ '|' :: c ++ '|' :: d ++ ['|']

theorem IsBarred.length_eq {w : Widths} {l : String} (h : IsBarred w l) :
    l.length = lineLength w := by
  obtain ⟨a, b, c, d, ha, hb, hc, hd, hl⟩ := h
  rw [← String.length_toList, hl, lineLength]
  simp only [List.length_append, List.length_cons, List.length_nil]
  omega

theorem IsBarred.getElem?_eq {w : Widths} {l : String} (h : IsBarred w l) :
    ∀ k ∈ barColumns w, l.toList[k]? = some '|' := by
  obtain ⟨a, b, c, d, ha, hb, hc, hd, hl⟩ := h
  have hbar {k : Nat} {back : List Char} (front : List Char) (hk : front.length = k)
      (hcut : l.toList = front ++ '|' :: back) : l.toList[k]? = some '|' := by
    rw [hcut, ← hk]
    simp
  simp only [barColumns, List.forall_mem_cons]
  refine ⟨hbar [] rfl (by simpa using hl), hbar ('|' :: a) ?_ (by simpa using hl),
    hbar ('|' :: a ++ '|' :: b) ?_ (by simpa using hl),
    hbar ('|' :: a ++ '|' :: b ++ '|' :: c) ?_ (by simpa using hl),
    hbar ('|' :: a ++ '|' :: b ++ '|' :: c ++ '|' :: d) ?_ hl, by simp⟩ <;>
    simp only [List.length_append, List.length_cons] <;> omega

theorem isRightAligned_alignRight {w : Nat} {cell : String} (h : cell.length ≤ w) :
    IsRightAligned w cell (alignRight w cell) := by
  refine ⟨?_, w - cell.toList.length, toList_alignRight w cell⟩
  rw [← String.length_toList, length_alignRight h]

theorem isLeftAligned_alignLeft {w : Nat} {cell : String} (h : cell.length ≤ w) :
    IsLeftAligned w cell (alignLeft w cell) := by
  refine ⟨?_, w - cell.toList.length, toList_alignLeft w cell⟩
  rw [← String.length_toList, length_alignLeft h]

theorem isRow_rowLine {w : Widths} {row : Row} (h : row.FitsIn w) :
    IsRow w row.ordinal row.value row.type row.line (rowLine w row) :=
  ⟨_, _, _, _, isRightAligned_alignRight h.ordinal, isLeftAligned_alignLeft h.value,
    isLeftAligned_alignLeft h.type, isRightAligned_alignRight h.line, rfl⟩

theorem IsRow.isBarred {w : Widths} {ordinal value type line l : String}
    (h : IsRow w ordinal value type line l) : IsBarred w l := by
  obtain ⟨a, b, c, d, ⟨ha, -⟩, ⟨hb, -⟩, ⟨hc, -⟩, ⟨hd, -⟩, rfl⟩ := h
  refine ⟨' ' :: a.toList ++ [' '], ' ' :: b.toList ++ [' '], ' ' :: c.toList ++ [' '],
    ' ' :: d.toList ++ [' '], ?_, ?_, ?_, ?_, ?_⟩
  · simp [String.length_toList, ha]
  · simp [String.length_toList, hb]
  · simp [String.length_toList, hc]
  · simp [String.length_toList, hd]
  · simp

theorem IsRule.isBarred {w : Widths} {l : String} (h : IsRule w l) : IsBarred w l :=
  ⟨_, _, _, _, List.length_replicate, List.length_replicate, List.length_replicate,
    List.length_replicate, h⟩

theorem isWidth_widest (cell : Row → String) {rows : List Row} (h : rows ≠ []) :
    IsWidth (widest cell rows) (rows.map cell) := by
  have hlengths : (rows.map cell).map String.length = rows.map fun row => (cell row).length := by
    rw [List.map_map]
    rfl
  rw [IsWidth, hlengths]
  have hne : rows.map (fun row => (cell row).length) ≠ [] := by simpa using h
  constructor
  · exact List.maximum_mem (List.foldr_max_of_ne_nil hne).symm
  · intro n hn
    obtain ⟨row, hrow, rfl⟩ := List.mem_map.mp hn
    exact length_le_widest cell hrow

theorem map_ordinal_rows (tokens : List Token) :
    (rows tokens).map Row.ordinal = (List.range' 1 tokens.length).map toString := by
  rw [rows, List.map_map, ← List.zipIdx_map_snd 1 tokens, List.map_map]
  rfl

theorem isWidth_column (cell : Row → String) (cellOf : Token → String)
    (h : ∀ n t, cell (.ofToken n t) = cellOf t) (tokens : List Token) :
    IsWidth (widest cell (heading :: rows tokens)) (cell heading :: tokens.map cellOf) := by
  have hcells : (rows tokens).map cell = tokens.map cellOf := by
    rw [rows, List.map_map]
    conv_rhs => rw [← List.zipIdx_map_fst 1 tokens, List.map_map]
    exact List.map_congr_left fun t _ => h t.2 t.1
  rw [← hcells]
  exact isWidth_widest cell (List.cons_ne_nil _ _)

theorem isTable_of_widths {tokens : List Token} {w : Widths}
    (hw : w = widths (heading :: rows tokens)) :
    IsTable tokens w (rowLine w heading) (ruleLine w) ((rows tokens).map (rowLine w)) := by
  have hrow : ∀ row ∈ heading :: rows tokens,
      IsRow w row.ordinal row.value row.type row.line (rowLine w row) := by
    intro row hmem
    rw [hw]
    exact isRow_rowLine (fitsIn_widths hmem)
  obtain ⟨hheading, hrows⟩ := List.forall_mem_cons.mp hrow
  have hrule : IsRule w (ruleLine w) := toList_ruleLine w
  have hbarred : ∀ l ∈ rowLine w heading :: ruleLine w :: (rows tokens).map (rowLine w),
      IsBarred w l := by
    simp only [List.forall_mem_cons, List.forall_mem_map]
    exact ⟨hheading.isBarred, hrule.isBarred, fun row hmem => (hrows row hmem).isBarred⟩
  constructor
  case ordinal_width =>
    rw [hw, ← map_ordinal_rows]
    exact isWidth_widest Row.ordinal (List.cons_ne_nil heading (rows tokens))
  case value_width =>
    rw [hw]
    exact isWidth_column Row.value Token.value (fun _ _ => rfl) tokens
  case type_width =>
    rw [hw]
    exact isWidth_column Row.type (fun t => t.category.tag) (fun _ _ => rfl) tokens
  case line_width =>
    rw [hw]
    exact isWidth_column Row.line (fun t => toString t.line) (fun _ _ => rfl) tokens
  case header_isRow => exact hheading
  case rule_isRule => exact hrule
  case length_body => simp [rows]
  case body_isRow =>
    intro i h
    have hget := getElem?_rows h
    have hline := hrows (.ofToken (1 + i) tokens[i]) (List.mem_of_getElem? hget)
    rw [Nat.add_comm 1 i] at hget hline
    exact ⟨rowLine w (.ofToken (i + 1) tokens[i]), by rw [List.getElem?_map, hget, Option.map_some],
      hline⟩
  case length_eq => exact fun l hl => (hbarred l hl).length_eq
  case bars => exact fun l hl => (hbarred l hl).getElem?_eq

def IsReport (title : String) (tokens : List Token) (text : String) : Prop :=
  ∃ w header rule body, IsTable tokens w header rule body ∧
    HasLines text (tokens.length + 5) ([title, header, rule] ++ body ++
      ["", "Total tokens found: " ++ toString tokens.length])

theorem isReport_render {title : String} {tokens : List Token} (htitle : '\n' ∉ title.toList)
    (hvalues : ∀ t ∈ tokens, '\n' ∉ t.value.toList) :
    IsReport title tokens (render title tokens) := by
  refine ⟨_, _, _, _, isTable_of_widths rfl, ?_, rfl, newline_notMem_of_mem_lines htitle hvalues⟩
  simp [rows]

/-- Every report without line feeds in its title and its values is a complete table with straight
columns, and the values of a source are such values. -/
theorem render_rectangular :
    (∀ title tokens, '\n' ∉ title.toList → (∀ t ∈ tokens, '\n' ∉ t.value.toList) →
      IsReport title tokens (render title tokens)) ∧
    ∀ title source, '\n' ∉ title.toList →
      IsReport title (tokenize source) (render title (tokenize source)) :=
  ⟨fun _ _ => isReport_render, fun _ _ htitle =>
    isReport_render htitle fun _ ht => (printable_of_mem_tokenize ht).1⟩

/-- A value with a bar and a wide character in it. -/
theorem render_rectangular_bar_in_value :
    IsReport "R" [⟨"caf\u00E9|x", .symbol, 100⟩]
      ("R\n| # | Value  | Type   | Line |\n|---|--------|--------|------|\n" ++
        "| 1 | caf\u00E9|x | SYMBOL |  100 |\n\nTotal tokens found: 1\n") := by
  have htext : render "R" [⟨"caf\u00E9|x", .symbol, 100⟩] =
      "R\n| # | Value  | Type   | Line |\n|---|--------|--------|------|\n" ++
        "| 1 | caf\u00E9|x | SYMBOL |  100 |\n\nTotal tokens found: 1\n" := by decide +kernel
  rw [← htext]
  exact render_rectangular.1 _ _ (by decide) (by decide)

end Lex8086.Report
