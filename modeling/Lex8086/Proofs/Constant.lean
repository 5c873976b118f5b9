import Lex8086.Constant
import Lex8086.Proofs.Ascii
import Mathlib.Data.List.Basic
import Mathlib.Data.List.TakeWhile

namespace Lex8086

namespace Grammar

def Run (is : Char → Bool) (cs : List Char) : Prop := cs ≠ [] ∧ ∀ c ∈ cs, is c

/-- The texts that a grammar describes when nothing commits. -/
def Describes : Grammar → List Char → Prop
  | text s, cs => cs = s.toList
  | one is, cs => ∃ c, is c ∧ cs = [c]
  | oneOrMore is, cs => Run is cs
  | seq first second, cs => ∃ ds es, first.Describes ds ∧ second.Describes es ∧ cs = ds ++ es
  | choice first second, cs => first.Describes cs ∨ second.Describes cs

theorem accepts_iff {g : Grammar} {s : String} : g.accepts s ↔ g.read? s.toList = some [] := by
  simp [accepts]

theorem read?_text {s : String} {cs rest : List Char} :
    (text s).read? cs = some rest ↔ cs = s.toList ++ rest := by
  rw [read?, List.isPrefixOf?_eq_some_iff_append_eq, eq_comm]

theorem read?_seq {first second : Grammar} {cs middle : List Char}
    (h : first.read? cs = some middle) : (seq first second).read? cs = second.read? middle := by
  rw [read?, h, Option.bind_some]

/-- A repetition stops where a character of another kind stands. -/
theorem read?_oneOrMore {is : Char → Bool} {ds rest : List Char} (hds : Run is ds)
    (hrest : ∀ c ∈ rest.head?, is c = false) : (oneOrMore is).read? (ds ++ rest) = some rest := by
  obtain ⟨hne, hall⟩ := hds
  obtain ⟨d, ds, rfl⟩ := List.exists_cons_of_ne_nil hne
  obtain ⟨hd, hall⟩ := List.forall_mem_cons.mp hall
  have hstop : rest.dropWhile is = rest := by
    cases rest with
    | nil => rfl
    | cons c rest => simp [hrest c rfl]
  rw [List.cons_append, read?, if_pos hd, List.dropWhile_append_of_pos hall, hstop]

theorem read?_oneOrMore_all {is : Char → Bool} {ds : List Char} (hds : Run is ds) :
    (oneOrMore is).read? ds = some [] := by
  have hread : (oneOrMore is).read? (ds ++ []) = some [] := read?_oneOrMore hds (by simp)
  rwa [List.append_nil] at hread

theorem describes_of_read? {g : Grammar} {cs rest : List Char} (h : g.read? cs = some rest) :
    ∃ ds, g.Describes ds ∧ cs = ds ++ rest := by
  induction g generalizing cs rest with
  | text s => exact ⟨s.toList, rfl, read?_text.mp h⟩
  | one is =>
    cases cs with
    | nil => simp [read?] at h
    | cons c cs =>
      obtain ⟨hc, rfl⟩ : is c ∧ cs = rest := by simpa [read?] using h
      exact ⟨[c], ⟨c, hc, rfl⟩, rfl⟩
  | oneOrMore is =>
    cases cs with
    | nil => simp [read?] at h
    | cons c cs =>
      obtain ⟨hc, rfl⟩ : is c ∧ cs.dropWhile is = rest := by simpa [read?] using h
      have hall : ∀ d ∈ c :: cs.takeWhile is, is d :=
        List.forall_mem_cons.mpr ⟨hc, fun d hd => List.mem_takeWhile_imp hd⟩
      exact ⟨c :: cs.takeWhile is, ⟨by simp, hall⟩, by simp⟩
  | seq first second ihf ihs =>
    obtain ⟨middle, hfirst, hsecond⟩ := Option.bind_eq_some_iff.mp h
    obtain ⟨ds, hds, rfl⟩ := ihf hfirst
    obtain ⟨es, hes, rfl⟩ := ihs hsecond
    exact ⟨ds ++ es, ⟨ds, es, hds, hes, rfl⟩, by simp⟩
  | choice first second ihf ihs =>
    rcases Option.or_eq_some_iff.mp h with hfirst | ⟨-, hsecond⟩
    · obtain ⟨ds, hds, hcs⟩ := ihf hfirst
      exact ⟨ds, .inl hds, hcs⟩
    · obtain ⟨ds, hds, hcs⟩ := ihs hsecond
      exact ⟨ds, .inr hds, hcs⟩

/-- What a grammar accepts, it describes. -/
theorem describes_of_accepts {g : Grammar} {s : String} (h : g.accepts s) :
    g.Describes s.toList := by
  obtain ⟨ds, hds, hcs⟩ := describes_of_read? (accepts_iff.mp h)
  rwa [hcs, List.append_nil]

end Grammar

open Grammar

theorem toNat_lt_of_isHexDigit {c : Char} (h : isHexDigit c) : c.toNat < 0x80 := by
  simp only [isHexDigit, Char.isDigit, Bool.or_eq_true, Bool.and_eq_true, decide_eq_true_eq,
    Char.le_def, UInt32.le_iff_toNat_le, ge_iff_le] at h
  change c.val.toNat < 0x80
  rcases h with (⟨-, h⟩ | ⟨-, h⟩) | ⟨-, h⟩ <;> exact Nat.lt_of_le_of_lt h (by decide)

theorem toNat_lt_of_isDigit {c : Char} (h : c.isDigit) : c.toNat < 0x80 :=
  toNat_lt_of_isHexDigit (by simp [isHexDigit, h])

theorem read?_digits_letter {is final : Char → Bool} {ds : List Char} {c : Char}
    (hds : Run is ds) (hc : final c) (hnot : is c = false) :
    (seq (oneOrMore is) (one final)).read? (ds ++ [c]) = some [] := by
  have hdigits : (oneOrMore is).read? (ds ++ [c]) = some [c] :=
    read?_oneOrMore hds (by simpa using hnot)
  rw [read?_seq hdigits]
  simp [read?, hc]

theorem describes_hex_iff {cs : List Char} :
    Constant.hex.Describes cs ↔
      (∃ x ds, (x = 'x' ∨ x = 'X') ∧ Run isHexDigit ds ∧ cs = '0' :: x :: ds) ∨
        ∃ ds c, Run isHexDigit ds ∧ (c = 'h' ∨ c = 'H') ∧ cs = ds ++ [c] := by
  constructor
  · rintro (⟨sign, ds, rfl | rfl, hds, hcs⟩ | ⟨ds, last, hds, ⟨c, hc, rfl⟩, hcs⟩)
    · exact .inl ⟨'x', ds, .inl rfl, hds, hcs⟩
    · exact .inl ⟨'X', ds, .inr rfl, hds, hcs⟩
    · exact .inr ⟨ds, c, hds, by simpa using hc, hcs⟩
  · rintro (⟨x, ds, rfl | rfl, hds, hcs⟩ | ⟨ds, c, hds, hc, hcs⟩)
    · exact .inl ⟨['0', 'x'], ds, .inl rfl, hds, hcs⟩
    · exact .inl ⟨['0', 'X'], ds, .inr rfl, hds, hcs⟩
    · exact .inr ⟨ds, [c], hds, ⟨c, by simpa using hc, rfl⟩, hcs⟩

theorem describes_bin_iff {cs : List Char} :
    Constant.bin.Describes cs ↔
      ∃ ds c, Run isBinDigit ds ∧ (c = 'b' ∨ c = 'B') ∧ cs = ds ++ [c] := by
  constructor
  · rintro ⟨ds, last, hds, ⟨c, hc, rfl⟩, hcs⟩
    exact ⟨ds, c, hds, by simpa using hc, hcs⟩
  · rintro ⟨ds, c, hds, hc, hcs⟩
    exact ⟨ds, [c], hds, ⟨c, by simpa using hc, rfl⟩, hcs⟩

theorem isHexConstant_iff_describes {s : String} :
    isHexConstant s ↔ Constant.hex.Describes s.toList := by
  refine ⟨describes_of_accepts, fun h => ?_⟩
  rcases describes_hex_iff.mp h with ⟨x, ds, hx, hds, hs⟩ | ⟨ds, c, hds, hc, hs⟩ <;>
    rw [isHexConstant, accepts_iff, hs, Constant.hex, read?]
  · have hsign : (choice (text "0x") (text "0X")).read? ('0' :: x :: ds) = some ds := by
      rcases hx with rfl | rfl <;> simp [read?, List.isPrefixOf?]
    rw [read?_seq hsign, read?_oneOrMore_all hds, Option.some_or]
  · -- No character is an `x`, so the choice has not gone the other way.
    have hchars : ∀ d ∈ ds ++ [c], isHexDigit d ∨ d = 'h' ∨ d = 'H' := by
      intro d hd
      rcases List.mem_append.mp hd with hd | hd
      · exact .inl (hds.2 d hd)
      · exact .inr (List.mem_singleton.mp hd ▸ hc)
    have hsign : (choice (text "0x") (text "0X")).read? (ds ++ [c]) = none := by
      rw [Option.eq_none_iff_forall_ne_some]
      intro rest hrest
      obtain ⟨sign, rfl | rfl, heq⟩ := describes_of_read? hrest
      · exact absurd (hchars 'x' (by simp [heq])) (by decide)
      · exact absurd (hchars 'X' (by simp [heq])) (by decide)
    have hnot : isHexDigit c = false := by rcases hc with rfl | rfl <;> decide
    rw [read?, hsign, Option.bind_none, Option.none_or,
      read?_digits_letter hds (by simpa using hc) hnot]

theorem isBinConstant_iff_describes {s : String} :
    isBinConstant s ↔ Constant.bin.Describes s.toList := by
  refine ⟨describes_of_accepts, fun h => ?_⟩
  obtain ⟨ds, c, hds, hc, hs⟩ := describes_bin_iff.mp h
  have hnot : isBinDigit c = false := by rcases hc with rfl | rfl <;> decide
  rw [isBinConstant, accepts_iff, hs]
  exact read?_digits_letter hds (by simpa using hc) hnot

theorem isDecConstant_iff_describes {s : String} :
    isDecConstant s ↔ Constant.dec.Describes s.toList := by
  refine ⟨describes_of_accepts, fun h => ?_⟩
  exact accepts_iff.mpr (read?_oneOrMore_all h)

theorem isHexConstant_iff {s : String} :
    isHexConstant s ↔
      (∃ x ds, (x = 'x' ∨ x = 'X') ∧ Run isHexDigit ds ∧ s.toList = '0' :: x :: ds) ∨
        ∃ ds c, Run isHexDigit ds ∧ (c = 'h' ∨ c = 'H') ∧ s.toList = ds ++ [c] :=
  isHexConstant_iff_describes.trans describes_hex_iff

theorem isBinConstant_iff {s : String} :
    isBinConstant s ↔ ∃ ds c, Run isBinDigit ds ∧ (c = 'b' ∨ c = 'B') ∧ s.toList = ds ++ [c] :=
  isBinConstant_iff_describes.trans describes_bin_iff

theorem isDecConstant_iff {s : String} : isDecConstant s ↔ Run Char.isDigit s.toList :=
  isDecConstant_iff_describes

theorem isStrConstant_iff {s : String} :
    isStrConstant s ↔ ∃ q inside, isQuote q ∧ s.toList = q :: inside ++ [q] := by
  rw [isStrConstant]
  cases hs : s.toList with
  | nil => simp
  | cons c rest =>
    simp only [Bool.and_eq_true, beq_iff_eq, List.getLast?_eq_some_iff]
    constructor
    · rintro ⟨hc, inside, rfl⟩
      exact ⟨c, inside, hc, rfl⟩
    · rintro ⟨q, inside, hq, heq⟩
      obtain ⟨rfl, rfl⟩ := List.cons.inj heq
      exact ⟨hq, inside, rfl⟩

def isHexMark (c : Char) : Bool := c == 'x' || c == 'X' || c == 'h' || c == 'H'

def isBinMark (c : Char) : Bool := c == 'b' || c == 'B'

theorem toNat_lt_of_isHexMark {c : Char} (h : isHexMark c) : c.toNat < 0x80 := by
  simp only [isHexMark, Bool.or_eq_true, beq_iff_eq] at h
  rcases h with ((rfl | rfl) | rfl) | rfl <;> decide

theorem isDigit_of_isBinDigit {c : Char} (h : isBinDigit c) : c.isDigit := by
  simp only [isBinDigit, Bool.or_eq_true, beq_iff_eq] at h
  rcases h with rfl | rfl <;> rfl

theorem chars_of_isHexConstant {s : String} (h : isHexConstant s) :
    (∃ c ∈ s.toList, isHexMark c) ∧ ∀ c ∈ s.toList, isHexDigit c ∨ isHexMark c := by
  rcases isHexConstant_iff.mp h with ⟨x, ds, hx, hds, hs⟩ | ⟨ds, c, hds, hc, hs⟩
  · have hmark : isHexMark x := by rcases hx with rfl | rfl <;> rfl
    rw [hs]
    refine ⟨⟨x, by simp, hmark⟩, ?_⟩
    simp only [List.forall_mem_cons]
    exact ⟨.inl rfl, .inr hmark, fun d hd => .inl (hds.2 d hd)⟩
  · have hmark : isHexMark c := by rcases hc with rfl | rfl <;> rfl
    rw [hs]
    refine ⟨⟨c, by simp, hmark⟩, ?_⟩
    simp only [List.forall_mem_append, List.forall_mem_singleton]
    exact ⟨fun d hd => .inl (hds.2 d hd), .inr hmark⟩

theorem chars_of_isBinConstant {s : String} (h : isBinConstant s) :
    (∃ c ∈ s.toList, isBinMark c) ∧ ∀ c ∈ s.toList, isBinDigit c ∨ isBinMark c := by
  obtain ⟨ds, c, hds, hc, hs⟩ := isBinConstant_iff.mp h
  have hmark : isBinMark c := by rcases hc with rfl | rfl <;> rfl
  rw [hs]
  refine ⟨⟨c, by simp, hmark⟩, ?_⟩
  simp only [List.forall_mem_append, List.forall_mem_singleton]
  exact ⟨fun d hd => .inl (hds.2 d hd), .inr hmark⟩

theorem not_of_isHexMark {c : Char} (h : isHexMark c) :
    ¬(isBinDigit c ∨ isBinMark c) ∧ ¬c.isDigit := by
  simp only [isHexMark, Bool.or_eq_true, beq_iff_eq] at h
  rcases h with ((rfl | rfl) | rfl) | rfl <;> decide

theorem not_of_isBinMark {c : Char} (h : isBinMark c) : ¬c.isDigit := by
  simp only [isBinMark, Bool.or_eq_true, beq_iff_eq] at h
  rcases h with rfl | rfl <;> decide

theorem not_of_isQuote {c : Char} (h : isQuote c) :
    ¬(isHexDigit c ∨ isHexMark c) ∧ ¬(isBinDigit c ∨ isBinMark c) ∧ ¬c.isDigit := by
  rcases isQuote_iff.mp h with rfl | rfl <;> decide

theorem not_number_of_quote_mem {s : String} {q : Char} (hq : isQuote q) (hmem : q ∈ s.toList) :
    ¬isHexConstant s ∧ ¬isBinConstant s ∧ ¬isDecConstant s := by
  obtain ⟨hhex, hbin, hdec⟩ := not_of_isQuote hq
  exact ⟨fun h => hhex ((chars_of_isHexConstant h).2 q hmem),
    fun h => hbin ((chars_of_isBinConstant h).2 q hmem),
    fun h => hdec ((isDecConstant_iff.mp h).2 q hmem)⟩

def Among (chars : String) (cs : List Char) : Prop := cs ≠ [] ∧ ∀ c ∈ cs, c ∈ chars.toList

theorem run_iff_among {is : Char → Bool} {chars : String} {cs : List Char}
    (h : ∀ c, is c ↔ c ∈ chars.toList) : Run is cs ↔ Among chars cs := by
  simp only [Run, Among, h]

/-- A test that only ASCII passes is known by the characters that pass it. -/
theorem iff_mem_of_ascii {is : Char → Bool} {chars : String} (hascii : ∀ c, is c → c.toNat < 0x80)
    (hmem : ∀ n < 0x80, is (Char.ofNat n) → Char.ofNat n ∈ chars.toList)
    (hall : chars.toList.all is) (c : Char) : is c ↔ c ∈ chars.toList := by
  constructor
  · intro h
    exact Text.of_forall_ascii (p := fun c => is c → c ∈ chars.toList) hmem (hascii c h) h
  · exact List.all_eq_true.mp hall c

theorem isHexDigit_iff (c : Char) : isHexDigit c ↔ c ∈ "0123456789abcdefABCDEF".toList :=
  iff_mem_of_ascii (fun _ => toNat_lt_of_isHexDigit) (by decide) (by decide) c

theorem isDigit_iff (c : Char) : c.isDigit ↔ c ∈ "0123456789".toList :=
  iff_mem_of_ascii (fun _ => toNat_lt_of_isDigit) (by decide) (by decide) c

theorem isBinDigit_iff (c : Char) : isBinDigit c ↔ c ∈ "01".toList := by
  simp [isBinDigit]

theorem isStrConstant_iff_ends {s : String} :
    isStrConstant s ↔ 2 ≤ s.length ∧
      ∃ q, (q = '\'' ∨ q = '"') ∧ s.toList.head? = some q ∧ s.toList.getLast? = some q := by
  rw [isStrConstant_iff, ← String.length_toList]
  constructor
  · rintro ⟨q, inside, hq, hs⟩
    rw [hs]
    exact ⟨by simp, q, isQuote_iff.mp hq, rfl, List.getLast?_concat⟩
  · rintro ⟨hlength, q, hq, hhead, hlast⟩
    obtain ⟨rest, hs⟩ := List.head?_eq_some_iff.mp hhead
    rw [hs] at hlength hlast
    have hne : rest ≠ [] := by
      rintro rfl
      simp at hlength
    rw [List.getLast?_cons_of_ne_nil hne] at hlast
    obtain ⟨inside, rfl⟩ := List.getLast?_eq_some_iff.mp hlast
    exact ⟨q, inside, isQuote_iff.mpr hq, hs⟩

/-- The texts of each kind of constant. The grammars read and commit, and still take all the texts
that they would describe if nothing committed. -/
theorem isConstant_iff_language (s : String) :
    (isHexConstant s ↔
      (∃ x ds, (x = 'x' ∨ x = 'X') ∧ Among "0123456789abcdefABCDEF" ds ∧
        s.toList = '0' :: x :: ds) ∨
      ∃ ds c, Among "0123456789abcdefABCDEF" ds ∧ (c = 'h' ∨ c = 'H') ∧ s.toList = ds ++ [c]) ∧
    (isBinConstant s ↔ ∃ ds c, Among "01" ds ∧ (c = 'b' ∨ c = 'B') ∧ s.toList = ds ++ [c]) ∧
    (isDecConstant s ↔ Among "0123456789" s.toList) ∧
    (isStrConstant s ↔ 2 ≤ s.length ∧
      ∃ q, (q = '\'' ∨ q = '"') ∧ s.toList.head? = some q ∧ s.toList.getLast? = some q) ∧
    (Constant.hex.accepts s ↔ Constant.hex.Describes s.toList) ∧
    (Constant.bin.accepts s ↔ Constant.bin.Describes s.toList) ∧
    (Constant.dec.accepts s ↔ Constant.dec.Describes s.toList) := by
  refine ⟨?_, ?_, ?_, isStrConstant_iff_ends, isHexConstant_iff_describes,
    isBinConstant_iff_describes, isDecConstant_iff_describes⟩
  · rw [isHexConstant_iff]
    simp only [run_iff_among isHexDigit_iff]
  · rw [isBinConstant_iff]
    simp only [run_iff_among isBinDigit_iff]
  · rw [isDecConstant_iff, run_iff_among isDigit_iff]

end Lex8086
