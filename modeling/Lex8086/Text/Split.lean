namespace Lex8086.Text

/-- The text before and the text after the first `c`. -/
def splitFirst? (c : Char) (s : List Char) : Option (List Char × List Char) :=
  match s.dropWhile (· != c) with
  | [] => none
  | _ :: after => some (s.takeWhile (· != c), after)

theorem splitFirst?_eq_some {c : Char} {s before after : List Char}
    (h : splitFirst? c s = some (before, after)) :
    s = before ++ c :: after ∧ c ∉ before := by
  unfold splitFirst? at h
  split at h
  · simp at h
  · next d rest hd =>
    obtain ⟨rfl, rfl⟩ := by simpa using h
    have hne : s.dropWhile (· != c) ≠ [] := by simp [hd]
    have hq : d = c := by simpa [hd] using List.head_dropWhile_not (· != c) hne
    have hall := List.all_takeWhile (p := (· != c)) (l := s)
    refine ⟨?_, fun hm => by simpa using List.all_eq_true.mp hall c hm⟩
    rw [← hq, ← hd, hq, List.takeWhile_append_dropWhile]

theorem splitFirst?_eq_none {c : Char} {s : List Char} (h : splitFirst? c s = none) :
    c ∉ s := by
  unfold splitFirst? at h
  split at h
  · next hd =>
    have hs := List.takeWhile_append_dropWhile (p := (· != c)) (l := s)
    have hall := List.all_takeWhile (p := (· != c)) (l := s)
    rw [hd, List.append_nil] at hs
    rw [hs] at hall
    exact fun hm => by simpa using List.all_eq_true.mp hall c hm
  · simp at h

end Lex8086.Text
