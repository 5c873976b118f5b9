import Lex8086.Proofs.Edit

namespace Lex8086

def numbered (texts : List String) : List CleanLine :=
  texts.mapIdx fun i text => ⟨i + 1, text⟩

/-- One text for each line, with a line feed between neighbours and none at the end. -/
def joinLines (texts : List String) : String := "\n".intercalate texts

def normalForm (source : String) : String := joinLines ((cleanLines source).map CleanLine.text)

theorem map_text_numbered (texts : List String) : (numbered texts).map CleanLine.text = texts := by
  apply List.ext_getElem?
  intro i
  simp [numbered, Function.comp_def]

theorem joinLines_eq_ofPieces (texts : List String) :
    joinLines texts = ofPieces (texts.map String.toList) := by
  apply String.toList_inj.mp
  simp [joinLines, ofPieces]

theorem cleanLines_eq_numbered (source : String) :
    cleanLines source = numbered ((cleanTexts source).map String.ofList) := by
  apply List.ext_getElem?
  intro i
  simp [cleanLines, numbered, Function.comp_def, Nat.add_comm]

theorem cleanLines_eq_numbered_texts (source : String) :
    cleanLines source = numbered ((cleanLines source).map CleanLine.text) := by
  rw [cleanLines_eq_numbered, map_text_numbered]

theorem cleanTexts_joinLines {texts : List String} (h : ∀ t ∈ texts, IsClean t.toList) :
    cleanTexts (joinLines texts) = texts.map String.toList := by
  cases texts with
  -- No text at all still makes one piece, and that is blank.
  | nil => exact cleanTexts_empty
  | cons t ts =>
    have hclean : ∀ p ∈ (t :: ts).map String.toList, IsClean p := List.forall_mem_map.mpr h
    have hkeep : ((t :: ts).map String.toList).map cleanPiece = (t :: ts).map String.toList := by
      rw [List.map_congr_left fun p hp => (hclean p hp).cleanPiece_eq_self, List.map_id']
    rw [joinLines_eq_ofPieces, cleanTexts_ofPieces (by simp) fun p hp => (hclean p hp).no_newline,
      hkeep, List.filter_eq_self]
    intro p hp
    simpa using (hclean p hp).ne_nil

theorem cleanLines_joinLines {texts : List String} (h : ∀ t ∈ texts, IsClean t.toList) :
    cleanLines (joinLines texts) = numbered texts := by
  simp [cleanLines_eq_numbered, cleanTexts_joinLines h]

theorem isClean_of_mem_texts {source t : String}
    (h : t ∈ (cleanLines source).map CleanLine.text) : IsClean t.toList := by
  obtain ⟨line, hline, rfl⟩ := List.mem_map.mp h
  exact isClean_of_mem_cleanLines hline

theorem cleanLines_normalForm (source : String) :
    cleanLines (normalForm source) = cleanLines source := by
  rw [normalForm, cleanLines_joinLines fun t => isClean_of_mem_texts]
  exact (cleanLines_eq_numbered_texts source).symm

/-- The sources in normal form are those that clean texts make. -/
theorem normalForm_eq_self_iff {source : String} :
    normalForm source = source ↔
      ∃ texts, (∀ t ∈ texts, IsClean t.toList) ∧ joinLines texts = source := by
  constructor
  · intro h
    exact ⟨_, fun t => isClean_of_mem_texts, h⟩
  · rintro ⟨texts, hclean, rfl⟩
    rw [normalForm, cleanLines_joinLines hclean, map_text_numbered]

/-- Cleaning is a retraction onto the normal form. Clean lines are clean texts, numbered from 1;
clean texts, a line for each, are cleaned to themselves; so the normal form of a source has the
clean lines, the tokens and the log of the source, and is its own normal form. -/
theorem cleanLines_retraction :
    (∀ source, (∀ line ∈ cleanLines source, IsClean line.text.toList) ∧
      cleanLines source = numbered ((cleanLines source).map CleanLine.text)) ∧
    (∀ texts : List String, (∀ t ∈ texts, IsClean t.toList) →
      cleanLines (joinLines texts) = numbered texts ∧
        normalForm (joinLines texts) = joinLines texts) ∧
    ∀ source, cleanLines (normalForm source) = cleanLines source ∧
      tokenize (normalForm source) = tokenize source ∧
      (analyze (normalForm source)).events = (analyze source).events := by
  refine ⟨fun source => ⟨?_, cleanLines_eq_numbered_texts source⟩, fun texts h => ⟨?_, ?_⟩, ?_⟩
  · intro line hline
    exact isClean_of_mem_cleanLines hline
  · exact cleanLines_joinLines h
  · exact normalForm_eq_self_iff.mpr ⟨texts, h, rfl⟩
  · intro source
    have hlines := cleanLines_normalForm source
    have hanalyze := analyze_congr hlines
    exact ⟨hlines, congrArg Output.tokens hanalyze, congrArg Output.events hanalyze⟩

/-- An open quote, and line breaks that do not end a line: within a text they stay, around it they
are white space. -/
theorem cleanLines_retraction_other_line_breaks :
    (∀ t ∈ ["DB 'a", "b\r\u2028c"], IsClean t.toList) ∧
      cleanLines (joinLines ["DB 'a", "b\r\u2028c"]) = [⟨1, "DB 'a"⟩, ⟨2, "b\r\u2028c"⟩] ∧
      normalForm "DB 'a;'\r\n;\n b\r\u2028c\u0085" = joinLines ["DB 'a", "b\r\u2028c"] ∧
      tokenize (joinLines ["DB 'a", "b\r\u2028c"]) =
        tokenize "DB 'a;'\r\n;\n b\r\u2028c\u0085" := by
  have hclean : ∀ t ∈ ["DB 'a", "b\r\u2028c"], IsClean t.toList := by decide
  have hnormal :
      normalForm "DB 'a;'\r\n;\n b\r\u2028c\u0085" = joinLines ["DB 'a", "b\r\u2028c"] := by
    decide
  refine ⟨hclean, (cleanLines_retraction.2.1 _ hclean).1, hnormal, ?_⟩
  rw [← hnormal]
  exact (cleanLines_retraction.2.2 _).2.1

end Lex8086
