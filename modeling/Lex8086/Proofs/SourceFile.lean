import Lex8086.Proofs.Utf8
import Lex8086.SourceFile

namespace Lex8086

theorem fromUTF8?_eq_some_iff {bytes : ByteArray} {text : String} :
    String.fromUTF8? bytes = some text ↔ bytes = text.toUTF8 := by
  constructor
  · intro h
    unfold String.fromUTF8? at h
    split at h
    · cases h
      rfl
    · cases h
  · intro h
    rw [h, String.fromUTF8?, String.toUTF8_eq_toByteArray, dif_pos text.isValidUTF8]
    rfl

theorem toList_isInfix_append (before s after : String) :
    s.toList <:+: (before ++ s ++ after).toList := by
  refine ⟨before.toList, after.toList, ?_⟩
  rw [String.toList_append, String.toList_append]

theorem SourceError.path_isInfix_message (e : SourceError) :
    e.path.toList <:+: e.message.toList := by
  cases e with
  | notFound path =>
    show path.toList <:+: ("File '" ++ path ++ "' not found").toList
    exact toList_isInfix_append "File '" path "' not found"
  | unreadable path cause =>
    show path.toList <:+: ("Error reading file '" ++ path ++ "': " ++ cause.text).toList
    rw [String.append_assoc]
    exact toList_isInfix_append "Error reading file '" path ("': " ++ cause.text)
  | invalidUtf8 path =>
    show path.toList <:+: ("File '" ++ path ++ "' is not valid UTF-8").toList
    exact toList_isInfix_append "File '" path "' is not valid UTF-8"

/-- What is read is a text exactly when the bytes are its UTF-8. -/
theorem readSource_eq_ok_iff {path : String} {given : Except SystemError ByteArray}
    {text : String} : (readSource path given).1 = .ok text ↔ given = .ok text.toUTF8 := by
  cases given with
  | error e => simp [readSource]
  | ok bytes =>
    rw [Except.ok.injEq, ← fromUTF8?_eq_some_iff, readSource]
    split
    · next hs => simp [hs]
    · next hs => simp [hs]

theorem path_of_readSource_eq_error {path : String} {given : Except SystemError ByteArray}
    {e : SourceError} (h : (readSource path given).1 = .error e) : e.path = path := by
  unfold readSource at h
  split at h
  · split at h
    · cases h
    · cases h
      rfl
  · next e _ =>
    cases h
    split
    · rfl
    · rfl

theorem readSource_toUTF8 (path text : String) :
    readSource path (.ok text.toUTF8) = (.ok text, [.sourceLoaded path text.toUTF8.size]) := by
  rw [readSource, fromUTF8?_eq_some_iff.mpr rfl]

theorem readSource_of_not_wellFormed (path : String) {bytes : ByteArray}
    (h : ¬Utf8.WellFormed bytes) :
    readSource path (.ok bytes) = (.error (.invalidUtf8 path), []) := by
  have hnone : String.fromUTF8? bytes = none := by
    rw [Option.eq_none_iff_forall_ne_some]
    intro text htext
    exact h (Utf8.wellFormed_iff.mpr ⟨text, (fromUTF8?_eq_some_iff.mp htext).symm⟩)
  rw [readSource, hnone]

/-- What reading makes of all that the system can give for a path. Well-formed bytes are read as the
one text that they encode, a byte-order mark included, with their number in the log; any others are
refused without an event. An error of the system is logged, and comes back as a missing file or as
it is. Every error knows the path and shows it. -/
theorem readSource_outcome (path : String) :
    (∀ bytes : ByteArray,
      (∀ text, (readSource path (.ok bytes)).1 = .ok text ↔
        Utf8.WellFormed bytes ∧ text.toUTF8 = bytes) ∧
      (Utf8.WellFormed bytes → (∃! text : String, text.toUTF8 = bytes) ∧
        (readSource path (.ok bytes)).2 = [.sourceLoaded path bytes.size] ∧
        (Event.sourceLoaded path bytes.size).level = .debug) ∧
      (¬Utf8.WellFormed bytes → readSource path (.ok bytes) = (.error (.invalidUtf8 path), []))) ∧
    (∀ e : SystemError,
      ((readSource path (.error e)).1 = .error (.notFound path) ↔ e.notFound = true) ∧
      ((readSource path (.error e)).1 = .error (.unreadable path e) ↔ e.notFound = false) ∧
      (readSource path (.error e)).2 = [.sourceUnreadable path e.text] ∧
      (Event.sourceUnreadable path e.text).level = .warn) ∧
    ∀ given e, (readSource path given).1 = .error e →
      e.path = path ∧ path.toList <:+: e.message.toList := by
  refine ⟨fun bytes => ⟨?_, ?_, readSource_of_not_wellFormed path⟩, fun e => ⟨?_, ?_, rfl, rfl⟩, ?_⟩
  · intro text
    rw [readSource_eq_ok_iff, Except.ok.injEq]
    constructor
    · intro h
      exact ⟨Utf8.wellFormed_iff.mpr ⟨text, h.symm⟩, h.symm⟩
    · rintro ⟨-, h⟩
      exact h.symm
  · intro h
    obtain ⟨text, rfl⟩ := Utf8.wellFormed_iff.mp h
    refine ⟨⟨text, rfl, fun other hother => String.toByteArray_inj.mp hother⟩, ?_, rfl⟩
    rw [readSource_toUTF8]
  · cases h : e.notFound <;> simp [readSource, h]
  · cases h : e.notFound <;> simp [readSource, h]
  · intro given e h
    have hpath := path_of_readSource_eq_error h
    have hshown := e.path_isInfix_message
    rw [hpath] at hshown
    exact ⟨hpath, hshown⟩

/-- A byte-order mark and a letter of two bytes, and a letter spelled with a byte too many. -/
theorem readSource_outcome_byte_order_mark :
    Utf8.WellFormed ⟨#[0xEF, 0xBB, 0xBF, 0xC3, 0xA9]⟩ ∧
      readSource "a" (.ok ⟨#[0xEF, 0xBB, 0xBF, 0xC3, 0xA9]⟩) =
        (.ok "\uFEFFé", [.sourceLoaded "a" 5]) ∧
      ¬Utf8.WellFormed ⟨#[0xC1, 0x81]⟩ ∧
      (readSource "a" (.ok ⟨#[0xC1, 0x81]⟩)).1 = .error (.invalidUtf8 "a") ∧
      "a".toList <:+: (SourceError.invalidUtf8 "a").message.toList := by
  have hwell : Utf8.WellFormed ⟨#[0xEF, 0xBB, 0xBF, 0xC3, 0xA9]⟩ := by decide
  have hnot : ¬Utf8.WellFormed ⟨#[0xC1, 0x81]⟩ := by decide
  have hutf8 : "\uFEFFé".toUTF8 = ⟨#[0xEF, 0xBB, 0xBF, 0xC3, 0xA9]⟩ := by decide
  obtain ⟨hread, hwhole, -⟩ := (readSource_outcome "a").1 ⟨#[0xEF, 0xBB, 0xBF, 0xC3, 0xA9]⟩
  have hrefused := congrArg Prod.fst (((readSource_outcome "a").1 ⟨#[0xC1, 0x81]⟩).2.2 hnot)
  refine ⟨hwell, Prod.ext ((hread _).mpr ⟨hwell, hutf8⟩) (hwhole hwell).2.1, hnot, hrefused, ?_⟩
  exact ((readSource_outcome "a").2.2 _ _ hrefused).2

end Lex8086
