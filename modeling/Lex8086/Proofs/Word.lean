import Lex8086.Proofs.Phrase
import Lex8086.Scan
import Mathlib.Data.Nat.Find
import Mathlib.Tactic.Tauto

namespace Lex8086

def isWordChar (c : Char) : Bool := !(Text.isWhiteSpace c || isSeparator c || isQuote c)

/-- `w` holds word characters only, and with `rest` behind it no phrase starts within it. -/
def Plain (w rest : List Char) : Prop :=
  (∀ c ∈ w, isWordChar c) ∧ ∀ i < w.length, phraseAt ((w ++ rest).drop i) = none

instance (w rest : List Char) : Decidable (Plain w rest) :=
  decidable_of_iff (w.all isWordChar ∧ ∀ i < w.length, phraseAt ((w ++ rest).drop i) = none)
    (by simp [Plain])

/-- No word goes on into `rest`. -/
def Stops : List Char → Prop
  | [] => True
  | c :: cs => ¬Plain [c] cs

instance : (rest : List Char) → Decidable (Stops rest)
  | [] => isTrue trivial
  | c :: cs => inferInstanceAs (Decidable (¬Plain [c] cs))

/-- The longest prefix that is plain before what follows it. -/
def longestWord (s : List Char) : List Char :=
  s.take (Nat.findGreatest (fun n => Plain (s.take n) (s.drop n)) s.length)

@[simp] theorem stops_nil : Stops [] := trivial

@[simp] theorem stops_cons {c : Char} {cs : List Char} : Stops (c :: cs) ↔ ¬Plain [c] cs := Iff.rfl

@[simp] theorem plain_nil (rest : List Char) : Plain [] rest := by simp [Plain]

theorem plain_cons {c : Char} {w rest : List Char} :
    Plain (c :: w) rest ↔
      isWordChar c ∧ phraseAt (c :: w ++ rest) = none ∧ Plain w rest := by
  simp only [Plain, List.mem_cons, forall_eq_or_imp, List.length_cons, Nat.forall_lt_succ_left,
    List.drop_zero, List.cons_append, List.drop_succ_cons]
  tauto

theorem plain_singleton {c : Char} {rest : List Char} :
    Plain [c] rest ↔ isWordChar c ∧ phraseAt (c :: rest) = none := by
  simp [plain_cons]

theorem plain_append {v w rest : List Char} :
    Plain (v ++ w) rest ↔ Plain v (w ++ rest) ∧ Plain w rest := by
  induction v with
  | nil => simp
  | cons c v ih =>
    simp only [List.cons_append, plain_cons, ih, List.append_assoc]
    tauto

theorem stops_of_not_isWordChar {c : Char} {cs : List Char} (h : isWordChar c = false) :
    Stops (c :: cs) := by
  simp [plain_singleton, h]

theorem stops_of_phraseAt {p : String} {s : List Char} (h : phraseAt s = some p) : Stops s := by
  cases s with
  | nil => trivial
  | cons c cs => simp [plain_singleton, h]

theorem not_stops_of_plain {w rest : List Char} (hne : w ≠ []) (h : Plain w rest) :
    ¬Stops (w ++ rest) := by
  obtain ⟨c, v, rfl⟩ := List.exists_cons_of_ne_nil hne
  obtain ⟨hc, hp, -⟩ := plain_cons.mp h
  rw [List.cons_append, stops_cons, not_not, plain_singleton]
  exact ⟨hc, hp⟩

theorem not_stops_of_ne {c : Char} {cs : List Char} (h : isWordChar c) (hdot : c ≠ '.') :
    ¬Stops (c :: cs) := by
  rw [stops_cons, not_not, plain_singleton]
  exact ⟨h, phraseAt_cons_of_ne hdot⟩

theorem Stops.append {s : List Char} (h : Stops s) (hne : s ≠ []) (more : List Char) :
    Stops (s ++ more) := by
  obtain ⟨c, cs, rfl⟩ := List.exists_cons_of_ne_nil hne
  rw [stops_cons, plain_singleton] at h
  by_cases hc : isWordChar c
  · obtain ⟨p, hp⟩ := Option.ne_none_iff_exists'.mp fun hnone => h ⟨hc, hnone⟩
    exact stops_of_phraseAt (phraseAt_append_of_eq_some hp more)
  · exact stops_of_not_isWordChar (by simpa using hc)

theorem exists_cons_of_mem_phraseHeads {h : String} (hh : h ∈ phraseHeads) :
    ∃ cs, h.toList = '.' :: cs ∧ ∀ c ∈ cs, isWordChar c ∧ c ≠ '.' := by
  have hall : ∀ h ∈ phraseHeads, h.toList = '.' :: h.toList.tail ∧
      h.toList.tail.all fun c => isWordChar c ∧ c ≠ '.' := by decide
  obtain ⟨hcons, hchars⟩ := hall h hh
  exact ⟨_, hcons, by simpa using hchars⟩

theorem exists_cons_of_mem_phraseTails {t : String} (h : t ∈ phraseTails) :
    ∃ c cs, t.toList = c :: cs ∧ ∀ d ∈ t.toList, isWordChar d ∧ d ≠ '.' := by
  have hall : ∀ t ∈ phraseTails,
      t.toList ≠ [] ∧ t.toList.all fun d => isWordChar d ∧ d ≠ '.' := by decide
  obtain ⟨hne, hd⟩ := hall t h
  obtain ⟨c, cs, hc⟩ := List.exists_cons_of_ne_nil hne
  exact ⟨c, cs, hc, by simpa using hd⟩

theorem cut_of_mem_phrases {p : String} (hp : p ∈ phrases) {a b : List Char}
    (hcut : p.toList = a ++ b) (hne : a ≠ []) (hspace : ' ' ∉ a) :
    (∃ c cs, b = c :: cs ∧ isWordChar c ∧ c ≠ '.') ∨
      ∃ h ∈ phraseHeads, ∃ t ∈ phraseTails, a = h.toList ∧ b = ' ' :: t.toList := by
  obtain ⟨h, hh, t, ht, rfl⟩ := mem_phrases_iff.mp hp
  obtain ⟨hs, hcons, hchars⟩ := exists_cons_of_mem_phraseHeads hh
  simp only [String.toList_append, List.append_assoc, String.reduceToList,
    List.singleton_append] at hcut
  rcases List.append_eq_append_iff.mp hcut with ⟨v, rfl, hv⟩ | ⟨v, hv, rfl⟩
  · cases v with
    | nil => exact .inr ⟨h, hh, t, ht, by simp, by simpa using hv.symm⟩
    | cons c v =>
      obtain ⟨rfl, -⟩ := List.cons.inj hv
      exact absurd (by simp) hspace
  · cases v with
    | nil => exact .inr ⟨h, hh, t, ht, by simp [hv], by simp⟩
    | cons c v =>
      refine .inl ⟨c, _, rfl, hchars c ?_⟩
      have htail := congrArg List.tail hv
      rw [hcons, List.tail_cons, List.tail_append_of_ne_nil hne] at htail
      simp [htail]

theorem plain_iff {w rest : List Char} :
    Plain w rest ↔ (∀ c ∈ w, isWordChar c) ∧ ∀ p ∈ phrases, ∀ a b,
      p.toList = a ++ b → a ≠ [] → a <:+ w → ¬b <+: rest := by
  constructor
  · rintro ⟨hchars, hplain⟩
    refine ⟨hchars, ?_⟩
    rintro p hp a b hcut hne ⟨v, rfl⟩ ⟨after, rfl⟩
    have hnone := hplain v.length (by simpa using List.length_pos_iff.mpr hne)
    rw [List.append_assoc, List.drop_left, ← List.append_assoc, ← hcut,
      phraseAt_append hp] at hnone
    cases hnone
  · rintro ⟨hchars, hcut⟩
    refine ⟨hchars, ?_⟩
    intro i hi
    rw [phraseAt_eq_none_iff]
    intro p hp hprefix
    rw [List.drop_append_of_le_length (Nat.le_of_lt hi)] at hprefix
    obtain ⟨after, hafter⟩ := hprefix
    have hspace := space_mem_of_mem_phrases hp
    rcases List.append_eq_append_iff.mp hafter with ⟨v, hv, -⟩ | ⟨v, hv, hrest⟩
    · have hmem : ' ' ∈ w := (List.drop_suffix i w).subset (hv ▸ List.mem_append_left v hspace)
      exact absurd (hchars ' ' hmem) (by decide)
    · exact hcut p hp _ v hv (by simpa using hi) (List.drop_suffix i w) ⟨after, hrest.symm⟩

/-- A phrase lies across the place between the texts: its first word in front, its space behind. -/
def Straddles (s rest : List Char) : Prop :=
  (∃ h ∈ phraseHeads, h.toList <:+ s) ∧ ∃ l ∈ phraseTails, ' ' :: l.toList <+: rest

/-- Before a text that no word goes on into, a word is torn only by a phrase that lies across. -/
theorem plain_iff_not_straddles {w rest : List Char} (hw : ∀ c ∈ w, isWordChar c)
    (hstop : Stops rest) : Plain w rest ↔ ¬Straddles w rest := by
  rw [plain_iff, and_iff_right hw]
  constructor
  · rintro hplain ⟨⟨h, hh, hsuffix⟩, l, hl, hfront⟩
    obtain ⟨cs, hcons, -⟩ := exists_cons_of_mem_phraseHeads hh
    have hp : h ++ " " ++ l ∈ phrases := mem_phrases_iff.mpr ⟨h, hh, l, hl, rfl⟩
    exact hplain _ hp h.toList (' ' :: l.toList) (by simp) (by simp [hcons]) hsuffix hfront
  · intro hno p hp a b hcut hne hsuffix hfront
    have hspace : ' ' ∉ a := fun hmem => absurd (hw ' ' (hsuffix.subset hmem)) (by decide)
    rcases cut_of_mem_phrases hp hcut hne hspace with
      ⟨c, cs, rfl, hc, hdot⟩ | ⟨h, hh, l, hl, rfl, rfl⟩
    -- Cut within its first word, the phrase would let the word go on into what is behind it.
    · obtain ⟨after, rfl⟩ := hfront
      exact not_stops_of_ne hc hdot hstop
    · exact hno ⟨⟨h, hh, hsuffix⟩, l, hl, hfront⟩

theorem plain_nil_right {w : List Char} (h : ∀ c ∈ w, isWordChar c) : Plain w [] := by
  rw [plain_iff_not_straddles h stops_nil]
  rintro ⟨-, l, -, hfront⟩
  simp at hfront

/-- Longest match: a plain piece is all of the word exactly where the word stops behind it. -/
theorem longestWord_append_eq_iff {w rest : List Char} :
    longestWord (w ++ rest) = w ↔ Plain w rest ∧ Stops rest := by
  have hlen : longestWord (w ++ rest) = w ↔
      Nat.findGreatest (fun n => Plain ((w ++ rest).take n) ((w ++ rest).drop n))
        (w ++ rest).length = w.length := by
    constructor
    · intro h
      have hl := congrArg List.length h
      rwa [longestWord, List.length_take, Nat.min_eq_left (Nat.findGreatest_le _)] at hl
    · intro h
      rw [longestWord, h, List.take_left]
  rw [hlen, Nat.findGreatest_eq_iff]
  constructor
  · rintro ⟨-, hw, hmax⟩
    have hplain : Plain w rest := by
      cases w with
      | nil => exact plain_nil _
      | cons c w => simpa using hw (by simp)
    refine ⟨hplain, ?_⟩
    cases rest with
    | nil => exact stops_nil
    | cons c cs =>
      intro hc
      -- With the next character the word would be longer than the longest.
      apply hmax (Nat.lt_add_one w.length) (by simp)
      rw [List.take_length_add_append, List.drop_length_add_append, plain_append]
      exact ⟨hplain, hc⟩
  · rintro ⟨hw, hstop⟩
    refine ⟨by simp, fun _ => by simpa using hw, ?_⟩
    intro n hn hle hp
    obtain ⟨m, rfl⟩ := Nat.exists_eq_add_of_lt hn
    cases rest with
    | nil =>
      rw [List.append_nil] at hle
      omega
    | cons c cs =>
      rw [Nat.add_assoc, List.take_length_add_append, List.drop_length_add_append, plain_append,
        List.take_succ_cons, List.drop_succ_cons, plain_cons] at hp
      apply hstop
      rw [plain_singleton]
      rw [List.cons_append, List.take_append_drop] at hp
      exact ⟨hp.2.1, hp.2.2.1⟩

theorem exists_longestWord_append (s : List Char) :
    ∃ rest, s = longestWord s ++ rest ∧ Plain (longestWord s) rest ∧ Stops rest := by
  have hle := Nat.findGreatest_le (P := fun n => Plain (s.take n) (s.drop n)) s.length
  have hs : longestWord s ++ s.drop (longestWord s).length = s := by
    rw [longestWord, List.length_take, Nat.min_eq_left hle, List.take_append_drop]
  refine ⟨s.drop (longestWord s).length, hs.symm, longestWord_append_eq_iff.mp ?_⟩
  rw [hs]

end Lex8086
