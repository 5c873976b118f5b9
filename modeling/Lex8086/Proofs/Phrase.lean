import Lex8086.Vocabulary

namespace Lex8086

def phraseHeads : List String := [".CODE", ".DATA", ".STACK"]

def phraseTails : List String := ["SEGMENT", "ENDS"]

theorem mem_phrases_iff {p : String} :
    p ∈ phrases ↔ ∃ h ∈ phraseHeads, ∃ t ∈ phraseTails, p = h ++ " " ++ t := by
  simp only [phrases, phraseHeads, phraseTails, List.mem_cons, List.not_mem_nil, or_false,
    exists_eq_or_imp, exists_eq_left]
  constructor
  · rintro (rfl | rfl | rfl | rfl | rfl | rfl) <;> decide
  · rintro ((rfl | rfl) | (rfl | rfl) | (rfl | rfl)) <;> decide

theorem eq_of_isPrefix_of_mem_phrases {p q : String} (hp : p ∈ phrases) (hq : q ∈ phrases)
    (h : p.toList <+: q.toList) : p = q := by
  have hall : ∀ p ∈ phrases, ∀ q ∈ phrases, p.toList <+: q.toList → p = q := by decide
  exact hall p hp q hq h

theorem phraseAt_eq_some_iff {s : List Char} {p : String} :
    phraseAt s = some p ↔ p ∈ phrases ∧ p.toList <+: s := by
  constructor
  · intro h
    exact ⟨mem_phrases_of_phraseAt h, isPrefix_of_phraseAt h⟩
  · rintro ⟨hp, hs⟩
    have hsome : (phraseAt s).isSome := by
      rw [phraseAt, List.find?_isSome]
      exact ⟨p, hp, List.isPrefixOf_iff_prefix.mpr hs⟩
    obtain ⟨q, hq⟩ := Option.isSome_iff_exists.mp hsome
    have hqs := isPrefix_of_phraseAt hq
    rcases List.prefix_or_prefix_of_prefix hs hqs with h | h
    · rw [hq, eq_of_isPrefix_of_mem_phrases hp (mem_phrases_of_phraseAt hq) h]
    · rw [hq, eq_of_isPrefix_of_mem_phrases (mem_phrases_of_phraseAt hq) hp h]

theorem phraseAt_eq_none_iff {s : List Char} :
    phraseAt s = none ↔ ∀ p ∈ phrases, ¬p.toList <+: s := by
  rw [Option.eq_none_iff_forall_ne_some]
  constructor
  · intro h p hp hs
    exact h p (phraseAt_eq_some_iff.mpr ⟨hp, hs⟩)
  · intro h p hp
    exact h p (mem_phrases_of_phraseAt hp) (isPrefix_of_phraseAt hp)

theorem toList_eq_cons_of_mem_phrases {p : String} (hp : p ∈ phrases) :
    ∃ cs, p.toList = '.' :: cs := by
  have hall : ∀ p ∈ phrases, p.toList = '.' :: p.toList.tail := by decide
  exact ⟨_, hall p hp⟩

theorem space_mem_of_mem_phrases {p : String} (hp : p ∈ phrases) : ' ' ∈ p.toList := by
  have hall : ∀ p ∈ phrases, ' ' ∈ p.toList := by decide
  exact hall p hp

/-- Every phrase starts with a dot. -/
theorem phraseAt_cons_of_ne {c : Char} {cs : List Char} (h : c ≠ '.') :
    phraseAt (c :: cs) = none := by
  rw [phraseAt_eq_none_iff]
  intro p hp hs
  obtain ⟨ds, hd⟩ := toList_eq_cons_of_mem_phrases hp
  rw [hd, List.cons_prefix_cons] at hs
  exact h hs.1.symm

theorem phraseAt_append {p : String} (hp : p ∈ phrases) (rest : List Char) :
    phraseAt (p.toList ++ rest) = some p :=
  phraseAt_eq_some_iff.mpr ⟨hp, List.prefix_append _ _⟩

theorem phraseAt_append_of_eq_some {s : List Char} {p : String} (h : phraseAt s = some p)
    (more : List Char) : phraseAt (s ++ more) = some p := by
  obtain ⟨hp, hprefix⟩ := phraseAt_eq_some_iff.mp h
  exact phraseAt_eq_some_iff.mpr ⟨hp, hprefix.trans (List.prefix_append _ _)⟩

end Lex8086
