import Lex8086.Text.WhiteSpace
import Mathlib.Data.List.DropRight

namespace Lex8086.Text

/-- No white space at the front. -/
def StartsInk (s : List Char) : Prop := ∀ c ∈ s.head?, isWhiteSpace c = false

def EndsInk (s : List Char) : Prop := ∀ c ∈ s.getLast?, isWhiteSpace c = false

instance (s : List Char) : Decidable (StartsInk s) :=
  decidable_of_iff (s.head?.all fun c => !isWhiteSpace c) (by simp [StartsInk, Option.all_eq_true])

instance (s : List Char) : Decidable (EndsInk s) :=
  decidable_of_iff (s.getLast?.all fun c => !isWhiteSpace c) (by simp [EndsInk, Option.all_eq_true])

def IsBlank (s : List Char) : Prop := ∀ c ∈ s, isWhiteSpace c = true

instance (s : List Char) : Decidable (IsBlank s) :=
  decidable_of_iff (s.all isWhiteSpace) List.all_eq_true

@[simp] theorem startsInk_nil : StartsInk [] := by simp [StartsInk]

@[simp] theorem endsInk_nil : EndsInk [] := by simp [EndsInk]

@[simp] theorem isBlank_nil : IsBlank [] := by simp [IsBlank]

@[simp] theorem startsInk_cons {c : Char} {s : List Char} :
    StartsInk (c :: s) ↔ isWhiteSpace c = false := by simp [StartsInk]

@[simp] theorem isBlank_cons {c : Char} {s : List Char} :
    IsBlank (c :: s) ↔ isWhiteSpace c = true ∧ IsBlank s := by simp [IsBlank]

theorem isBlank_append {s t : List Char} : IsBlank (s ++ t) ↔ IsBlank s ∧ IsBlank t := by
  simp [IsBlank, or_imp, forall_and]

theorem startsInk_append {s t : List Char} (h : s ≠ []) :
    StartsInk (s ++ t) ↔ StartsInk s := by
  rw [StartsInk, StartsInk, List.head?_append_of_ne_nil _ h]

theorem endsInk_append {s t : List Char} (h : t ≠ []) : EndsInk (s ++ t) ↔ EndsInk t := by
  rw [EndsInk, EndsInk, List.getLast?_append_of_ne_nil _ h]

theorem EndsInk.of_suffix {s t : List Char} (h : EndsInk s) (hs : t <:+ s) : EndsInk t := by
  obtain ⟨r, rfl⟩ := hs
  cases t with
  | nil => exact endsInk_nil
  | cons c t => exact (endsInk_append (by simp)).mp h

theorem eq_nil_of_isBlank_of_startsInk {s t : List Char} (hs : IsBlank s)
    (h : StartsInk (s ++ t)) : s = [] := by
  cases s with
  | nil => rfl
  | cons c s => simp_all

theorem eq_nil_of_isBlank_of_endsInk {s t : List Char} (ht : IsBlank t)
    (h : EndsInk (s ++ t)) : t = [] := by
  by_contra hne
  rw [endsInk_append hne, EndsInk, List.getLast?_eq_some_getLast hne] at h
  have hblank := ht _ (List.getLast_mem hne)
  simp_all

theorem blank_append_inj {gap gap' s s' : List Char} (h : gap ++ s = gap' ++ s')
    (hgap : IsBlank gap) (hgap' : IsBlank gap') (hs : StartsInk s) (hs' : StartsInk s') :
    gap = gap' ∧ s = s' := by
  rcases List.append_eq_append_iff.mp h with ⟨more, rfl, rfl⟩ | ⟨more, rfl, rfl⟩
  · obtain rfl := eq_nil_of_isBlank_of_startsInk (isBlank_append.mp hgap').2 hs
    exact ⟨(List.append_nil gap).symm, rfl⟩
  · obtain rfl := eq_nil_of_isBlank_of_startsInk (isBlank_append.mp hgap).2 hs'
    exact ⟨List.append_nil gap', rfl⟩

theorem trimStart_eq_self {s : List Char} (h : StartsInk s) : trimStart s = s := by
  cases s with
  | nil => rfl
  | cons c s => simp_all [trimStart]

theorem trimEnd_eq_self {s : List Char} (h : EndsInk s) : trimEnd s = s := by
  apply List.rdropWhile_eq_self_iff.mpr
  intro hne hlast
  have hink := h _ (List.getLast?_eq_some_getLast hne)
  simp [hlast] at hink

theorem trim_eq_self {s : List Char} (hs : StartsInk s) (he : EndsInk s) : trim s = s := by
  rw [trim, trimStart_eq_self hs, trimEnd_eq_self he]

theorem startsInk_trimStart (s : List Char) : StartsInk (trimStart s) := by
  intro c hc
  have h := List.head?_dropWhile_not isWhiteSpace s
  rw [trimStart] at hc
  simpa [Option.mem_def.mp hc] using h

theorem endsInk_trimEnd (s : List Char) : EndsInk (trimEnd s) := by
  intro c hc
  have hne : trimEnd s ≠ [] := by
    intro h
    simp [h] at hc
  have h : ¬isWhiteSpace ((trimEnd s).getLast hne) := List.rdropWhile_last_not isWhiteSpace s hne
  rw [Option.mem_def, List.getLast?_eq_some_getLast hne, Option.some.injEq] at hc
  rw [← hc]
  simpa using h

theorem trimEnd_isPrefix (s : List Char) : trimEnd s <+: s := List.rdropWhile_prefix isWhiteSpace s

theorem trimEnd_eq_nil_iff {s : List Char} : trimEnd s = [] ↔ IsBlank s :=
  List.rdropWhile_eq_nil_iff

theorem exists_trimEnd_append (s : List Char) : ∃ gap, trimEnd s ++ gap = s ∧ IsBlank gap :=
  ⟨s.rtakeWhile isWhiteSpace, List.rdropWhile_append_rtakeWhile, fun _ => List.mem_rtakeWhile_imp⟩

theorem startsInk_trim (s : List Char) : StartsInk (trim s) := by
  obtain ⟨t, ht⟩ : trim s <+: trimStart s := trimEnd_isPrefix _
  have h := startsInk_trimStart s
  rw [← ht] at h
  by_cases hne : trim s = []
  · rw [hne]
    exact startsInk_nil
  · exact (startsInk_append hne).mp h

theorem endsInk_trim (s : List Char) : EndsInk (trim s) := endsInk_trimEnd _

/-- What is taken away at the end reaches into the first part only when the second is blank. -/
theorem trimEnd_append (s t : List Char) :
    trimEnd (s ++ t) = if trimEnd t = [] then trimEnd s else s ++ trimEnd t := by
  simp only [trimEnd, List.reverse_append, List.dropWhile_append, List.isEmpty_iff,
    List.reverse_eq_nil_iff]
  split
  · rfl
  · simp

theorem trimEnd_cons_of_ink {c : Char} (h : isWhiteSpace c = false) (s : List Char) :
    trimEnd (c :: s) = c :: trimEnd s := by
  have hc : trimEnd [c] = [c] := trimEnd_eq_self (by simpa [EndsInk] using h)
  have hcons := trimEnd_append [c] s
  rw [hc, List.singleton_append, List.singleton_append] at hcons
  rw [hcons]
  split
  · next hnil => rw [hnil]
  · rfl

theorem isPrefix_trimEnd_iff {s t : List Char} (h : EndsInk s) : s <+: trimEnd t ↔ s <+: t := by
  constructor
  · exact fun hprefix => hprefix.trans (trimEnd_isPrefix t)
  · rintro ⟨rest, rfl⟩
    rw [trimEnd_append]
    split
    · simp [trimEnd_eq_self h]
    · exact List.prefix_append s _

theorem trimStart_append (s t : List Char) :
    trimStart (s ++ t) = if trimStart s = [] then trimStart t else trimStart s ++ t := by
  simp [trimStart, List.dropWhile_append]

theorem trimStart_eq_nil_iff {s : List Char} : trimStart s = [] ↔ IsBlank s :=
  List.dropWhile_eq_nil_iff

theorem trim_blank_append {gap : List Char} (h : IsBlank gap) (s : List Char) :
    trim (gap ++ s) = trim s := by
  rw [trim, trim, trimStart_append, if_pos (trimStart_eq_nil_iff.mpr h)]

theorem trim_append_blank {gap : List Char} (h : IsBlank gap) (s : List Char) :
    trim (s ++ gap) = trim s := by
  rw [trim, trim, trimStart_append]
  split
  · next hs => rw [hs, trimStart_eq_nil_iff.mpr h]
  · rw [trimEnd_append, if_pos (trimEnd_eq_nil_iff.mpr h)]

theorem trim_isPrefix_trim_append {s : List Char} (h : trim s ≠ []) (t : List Char) :
    trim s <+: trim (s ++ t) := by
  have hstart : trimStart s ≠ [] := by
    intro hnil
    exact h (by rw [trim, hnil]; rfl)
  rw [trim, trim, trimStart_append, if_neg hstart, trimEnd_append]
  split
  · exact List.prefix_rfl
  · exact (trimEnd_isPrefix _).trans (List.prefix_append _ _)

theorem mem_of_mem_trim {c : Char} {s : List Char} (h : c ∈ trim s) : c ∈ s := by
  have hstart : c ∈ trimStart s := (trimEnd_isPrefix _).subset h
  exact (List.dropWhile_suffix _).subset hstart

end Lex8086.Text
