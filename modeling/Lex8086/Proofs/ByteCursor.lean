import Lex8086.Proofs.Round

namespace Lex8086

namespace Text

/-- The text behind its first `n` bytes. Nothing, where the text is shorter or they end within a
character. -/
def dropBytes? (s : String) (n : Nat) : Option String :=
  if h : (String.Pos.Raw.mk n).IsValid s then some (s.sliceFrom (s.pos ⟨n⟩ h)).copy else none

def takeBytes? (s : String) (n : Nat) : Option String :=
  if h : (String.Pos.Raw.mk n).IsValid s then some (s.sliceTo (s.pos ⟨n⟩ h)).copy else none

def findByte? (s : String) (c : Char) : Option Nat := (s.find? c).map fun p => p.offset.byteIdx

theorem isValid_append (s t : String) : (String.Pos.Raw.mk s.utf8ByteSize).IsValid (s ++ t) :=
  String.Pos.Raw.isValid_iff_exists_append.mpr ⟨s, t, rfl, rfl⟩

theorem utf8ByteSize_ofList (s : List Char) : (String.ofList s).utf8ByteSize = byteLength s := by
  rw [← byteLength_toList, String.toList_ofList]

theorem dropBytes?_ofList (s t : List Char) :
    dropBytes? (String.ofList (s ++ t)) (byteLength s) = some (String.ofList t) := by
  rw [← utf8ByteSize_ofList, String.ofList_append, dropBytes?, dif_pos (isValid_append _ _)]
  exact congrArg some String.Pos.splits_append_rawEndPos.copy_sliceFrom_eq

theorem takeBytes?_ofList (s t : List Char) :
    takeBytes? (String.ofList (s ++ t)) (byteLength s) = some (String.ofList s) := by
  rw [← utf8ByteSize_ofList, String.ofList_append, takeBytes?, dif_pos (isValid_append _ _)]
  exact congrArg some String.Pos.splits_append_rawEndPos.copy_sliceTo_eq

theorem findByte?_eq_splitFirst? (c : Char) (s : List Char) :
    findByte? (String.ofList s) c = (splitFirst? c s).map fun parts => byteLength parts.1 := by
  cases h : splitFirst? c s with
  | none =>
    have hc : c ∉ s := splitFirst?_eq_none h
    rw [findByte?, Option.map_none, Option.map_eq_none_iff, Option.eq_none_iff_forall_ne_some]
    intro p hp
    obtain ⟨t, u, hsplits, -⟩ := String.find?_char_eq_some_iff_splits.mp hp
    have hs := congrArg String.toList hsplits.eq_append
    rw [String.toList_ofList] at hs
    exact hc (by simp [hs])
  | some parts =>
    obtain ⟨before, after⟩ := parts
    obtain ⟨rfl, hc⟩ := splitFirst?_eq_some h
    have hs : String.ofList (before ++ c :: after) =
        String.ofList before ++ (String.singleton c ++ String.ofList after) := by
      apply String.toList_inj.mp
      simp
    have hbefore : c ∉ (String.ofList before).toList := by simpa using hc
    have hfind := String.find?_char_eq_some_iff_splits.mpr
      ⟨String.ofList before, String.ofList after, String.Pos.splits_append_rawEndPos, hbefore⟩
    rw [findByte?, hs, hfind, Option.map_some, Option.map_some, ← utf8ByteSize_ofList]
    rfl

end Text

namespace Scan

structure Cursor where
  offset : Nat
  word : String

def State.cursor (s : State) : Cursor := ⟨s.offset, s.word⟩

def sliceQuoted? (line : Nat) (text rest : String) (place : Cursor) (quote : Char) :
    Option (Output × Cursor) := do
  let behind ← Text.dropBytes? rest 1
  match Text.findByte? behind quote with
  | some stop =>
    let literal ← Text.takeBytes? rest (stop + 2)
    return (flush line place.word ++ emit line literal .strConstant,
      ⟨place.offset + literal.utf8ByteSize, ""⟩)
  | none => return (flush line place.word, ⟨text.utf8ByteSize, rest⟩)

/-- A round that slices all it reads out of the line. Nothing at all, where a slice fails. -/
def sliceStep? (line : Nat) (text : String) (place : Cursor) :
    Option (Option (Output × Cursor)) := do
  let rest ← Text.dropBytes? text place.offset
  match rest.toList with
  | [] => return none
  | c :: cs =>
    match phraseAt (c :: cs) with
    | some phrase =>
      return some (flush line place.word ++ emit line phrase .pseudoInstruction,
        ⟨place.offset + phrase.utf8ByteSize, ""⟩)
    | none =>
      if isQuote c then
        return some (← sliceQuoted? line text rest place c)
      else if isSeparator c then
        let separator ← Text.takeBytes? rest 1
        return some (flush line place.word ++ emit line separator .separator,
          ⟨place.offset + 1, ""⟩)
      else if Text.isWhiteSpace c then
        return some (flush line place.word, ⟨place.offset + c.utf8Size, ""⟩)
      else
        return some (∅, ⟨place.offset + c.utf8Size, place.word.push c⟩)

inductive Reached (line : Nat) (text : String) : Nat → State → Prop
  | start : Reached line text 0 (start text)
  | step {n : Nat} {s next : State} {out : Output} :
    Reached line text n s → step line s = some (out, next) → Reached line text (n + 1) next

/-- The offset counts the bytes of what has been read. -/
def InPlace (text : String) (s : State) : Prop :=
  ∃ before, text.toList = before ++ s.rest ∧ s.offset = Text.byteLength before

theorem exists_taken_of_step {line : Nat} {s next : State} {out : Output}
    (h : step line s = some (out, next)) :
    ∃ taken, taken ≠ [] ∧ s.rest = taken ++ next.rest ∧
      next.offset = s.offset + Text.byteLength taken := by
  obtain ⟨c, cs, hrest, hround⟩ := round_of_step h
  rw [hrest]
  cases hround with
  | grow => exact ⟨[c], by simp, rfl, rfl⟩
  | cut _ hs hg => exact ⟨_, Segment.text_ne_nil hg, hs, rfl⟩
  | fold => exact ⟨c :: cs, by simp, by simp, rfl⟩

theorem offset_lt_of_step {line : Nat} {s next : State} {out : Output}
    (h : step line s = some (out, next)) : s.offset < next.offset := by
  obtain ⟨taken, hne, -, hoffset⟩ := exists_taken_of_step h
  obtain ⟨c, cs, rfl⟩ := List.exists_cons_of_ne_nil hne
  have hpos := c.utf8Size_pos
  rw [Text.byteLength] at hoffset
  omega

theorem inPlace_start (text : String) : InPlace text (start text) := ⟨[], rfl, rfl⟩

theorem InPlace.step {line : Nat} {text : String} {s next : State} {out : Output}
    (h : InPlace text s) (hstep : step line s = some (out, next)) : InPlace text next := by
  obtain ⟨before, htext, hoffset⟩ := h
  obtain ⟨taken, -, hrest, hnext⟩ := exists_taken_of_step hstep
  refine ⟨before ++ taken, ?_, ?_⟩
  · rw [htext, hrest, List.append_assoc]
  · rw [hnext, hoffset, Text.byteLength_append]

theorem InPlace.of_reached {line n : Nat} {text : String} {s : State}
    (h : Reached line text n s) : InPlace text s := by
  induction h with
  | start => exact inPlace_start text
  | step _ hstep ih => exact ih.step hstep

theorem InPlace.dropBytes?_eq {text : String} {s : State} (h : InPlace text s) :
    Text.dropBytes? text s.offset = some (String.ofList s.rest) := by
  obtain ⟨before, htext, hoffset⟩ := h
  have hrest := Text.dropBytes?_ofList before s.rest
  rwa [← htext, ← hoffset, String.ofList_toList] at hrest

theorem InPlace.isValid {text : String} {s : State} (h : InPlace text s) :
    (String.Pos.Raw.mk s.offset).IsValid text := by
  have hrest := h.dropBytes?_eq
  unfold Text.dropBytes? at hrest
  split at hrest
  · assumption
  · cases hrest

theorem InPlace.utf8ByteSize_eq {text : String} {s : State} (h : InPlace text s) :
    text.utf8ByteSize = s.offset + Text.byteLength s.rest := by
  obtain ⟨before, htext, hoffset⟩ := h
  rw [← Text.byteLength_toList, htext, Text.byteLength_append, hoffset]

theorem sliceQuoted?_eq (line : Nat) {text : String} {s : State} {quote : Char} {cs : List Char}
    (hquote : isQuote quote)
    (htext : text.utf8ByteSize = s.offset + Text.byteLength (quote :: cs)) :
    sliceQuoted? line text (String.ofList (quote :: cs)) s.cursor quote =
      some ((readQuoted line s quote cs).1, (readQuoted line s quote cs).2.cursor) := by
  have hone : Text.byteLength [quote] = 1 := utf8Size_of_isQuote hquote
  have hbehind := Text.dropBytes?_ofList [quote] cs
  rw [hone, List.singleton_append] at hbehind
  rw [sliceQuoted?, hbehind, readQuoted]
  simp only [Option.bind_eq_bind, Option.bind_some, Text.findByte?_eq_splitFirst?]
  cases hsplit : Text.splitFirst? quote cs with
  | none => simp [State.cursor, htext]
  | some parts =>
    obtain ⟨inside, after⟩ := parts
    have hcs : quote :: cs = (quote :: inside ++ [quote]) ++ after := by
      simp [(Text.splitFirst?_eq_some hsplit).1]
    have hlength := byteLength_quoted hquote inside
    have hliteral := Text.takeBytes?_ofList (quote :: inside ++ [quote]) after
    rw [hlength, ← hcs] at hliteral
    simp only [Option.map_some, hliteral, Option.bind_some, Text.utf8ByteSize_ofList, hlength,
      State.cursor]
    rfl

/-- Read in bytes, a round is the same round, and none of its slices fails. -/
theorem sliceStep?_eq (line : Nat) {text : String} {s : State} (h : InPlace text s) :
    sliceStep? line text s.cursor = some ((step line s).map fun r => (r.1, r.2.cursor)) := by
  -- The offset stands between two characters, so the slice behind it is the text ahead.
  have hend := h.utf8ByteSize_eq
  simp only [sliceStep?, State.cursor, h.dropBytes?_eq, step, Option.bind_eq_bind, Option.bind_some,
    String.toList_ofList]
  cases hcons : s.rest with
  | nil => rfl
  | cons c cs =>
    rw [hcons] at hend
    simp only [read]
    cases hp : phraseAt (c :: cs) with
    | some p => rfl
    | none =>
      by_cases hq : isQuote c
      · have hquoted := sliceQuoted?_eq line hq hend
        rw [State.cursor] at hquoted
        rw [if_pos hq, if_pos hq, hquoted]
        rfl
      · by_cases hsep : isSeparator c
        · have hone : Text.byteLength [c] = 1 := utf8Size_of_isSeparator hsep
          have hfront := Text.takeBytes?_ofList [c] cs
          rw [hone, List.singleton_append] at hfront
          rw [if_neg hq, if_neg hq, if_pos hsep, if_pos hsep, hfront, String.singleton_eq_ofList]
          rfl
        · by_cases hws : Text.isWhiteSpace c
          · simp [hq, hsep, hws]
          · simp [hq, hsep, hws]

theorem length_le_of_reached {line n : Nat} {text : String} {s : State}
    (h : Reached line text n s) : n + s.rest.length ≤ text.length := by
  induction h with
  | start =>
    have hlength : text.toList.length = text.length := String.length_toList
    change 0 + text.toList.length ≤ text.length
    omega
  | step _ hstep ih =>
    have hlt := length_step_lt hstep
    omega

theorem exists_end_of_reached {line n : Nat} {text : String} {s : State}
    (h : Reached line text n s) : ∃ m last, Reached line text m last ∧ step line last = none := by
  induction s using run.induct line generalizing n with
  | case1 s hnone => exact ⟨n, s, h, hnone⟩
  | case2 s out next hstep ih => exact ih (h.step hstep)

/-- The scan of any text in bytes. At the head of each round the offset is within the text and
between two characters, where the text goes on with what is left to read; the round does all its
slicing without failing, and it moves the offset on. There are no more rounds than characters, and
the rounds come to an end. -/
theorem scan_in_bytes (line : Nat) (text : String) :
    (∀ n s, Reached line text n s →
      s.offset ≤ text.utf8ByteSize ∧ (String.Pos.Raw.mk s.offset).IsValid text ∧
        Text.dropBytes? text s.offset = some (String.ofList s.rest) ∧
        sliceStep? line text s.cursor = some ((step line s).map fun r => (r.1, r.2.cursor)) ∧
        (∀ out next, step line s = some (out, next) → s.offset < next.offset) ∧
        n ≤ text.length) ∧
      ∃ n s, Reached line text n s ∧ step line s = none := by
  refine ⟨?_, exists_end_of_reached .start⟩
  intro n s h
  have hplace := InPlace.of_reached h
  have hvalid := hplace.isValid
  refine ⟨hvalid.le_utf8ByteSize, hvalid, hplace.dropBytes?_eq, sliceStep?_eq line hplace, ?_, ?_⟩
  · intro out next hstep
    exact offset_lt_of_step hstep
  · have hle := length_le_of_reached h
    omega

/-- Characters of one, two and three bytes, before a quote, within it and behind it. -/
theorem scan_in_bytes_wide_characters :
    Reached 1 "é'中',é" 2 ⟨7, "", [',', 'é']⟩ ∧
      (String.Pos.Raw.mk 7).IsValid "é'中',é" ∧
      sliceStep? 1 "é'中',é" ⟨7, ""⟩ = some (some (emit 1 "," .separator, ⟨8, ""⟩)) := by
  have hletter : step 1 (start "é'中',é") = some (∅, ⟨2, "é", "'中',é".toList⟩) := by decide
  have hquoted : step 1 ⟨2, "é", "'中',é".toList⟩ =
      some (flush 1 "é" ++ emit 1 "'中'" .strConstant, ⟨7, "", [',', 'é']⟩) := by decide
  have h : Reached 1 "é'中',é" 2 ⟨7, "", [',', 'é']⟩ := (Reached.start.step hletter).step hquoted
  obtain ⟨-, hvalid, -, hslice, -, -⟩ := (scan_in_bytes 1 "é'中',é").1 2 _ h
  exact ⟨h, hvalid, hslice⟩

end Scan

end Lex8086
