import Lex8086.Text.UpperCase
import Mathlib.Data.List.Basic

namespace Lex8086.Text

theorem of_forall_ascii {p : Char → Prop} (h : ∀ n < 0x80, p (Char.ofNat n)) {c : Char}
    (hc : c.toNat < 0x80) : p c := by
  rw [← Char.ofNat_toNat c]
  exact h c.toNat hc

theorem toList_upperCase (s : String) : (upperCase s).toList = s.toList.flatMap upperChar :=
  String.toList_ofList

theorem toList_upperCase_of_ascii {s : String} (h : ∀ c ∈ s.toList, c.toNat < 0x80) :
    (upperCase s).toList = s.toList.map Char.toUpper := by
  rw [toList_upperCase, List.map_eq_flatMap]
  exact List.flatMap_congr fun c hc => upperChar_of_lt (h c hc)

theorem toNat_ofNat_of_isValidChar {n : Nat} (h : n.isValidChar) : (Char.ofNat n).toNat = n := by
  have haux : Char.ofNat n = Char.ofNatAux n h := dif_pos h
  rw [haux]
  rfl

theorem upperChar_ne_nil (c : Char) : upperChar c ≠ [] := by
  unfold upperChar
  split
  · exact List.cons_ne_nil _ _
  · split
    · next codes hcodes =>
      obtain ⟨before, after, hsplit, -⟩ := List.lookup_eq_some_iff.mp hcodes
      have hall : ∀ entry ∈ caseExpansions, entry.2 ≠ [] := by decide +kernel
      have hne := hall (c.toNat, codes) (by simp [hsplit])
      simpa using hne
    · split <;> exact List.cons_ne_nil _ _

/-- Code points beyond ASCII with an ASCII letter in their upper-case form. -/
def casedIntoAscii : List Nat :=
  [0x00DF, 0x0131, 0x0149, 0x017F, 0x01F0, 0x1E96, 0x1E97, 0x1E98, 0x1E99, 0x1E9A, 0xFB00, 0xFB01,
   0xFB02, 0xFB03, 0xFB04, 0xFB05, 0xFB06]

theorem of_mem_upperChar {c d : Char} (h : d ∈ upperChar c) (hd : d.toNat < 0x80) :
    c.toNat < 0x80 ∧ d = c.toUpper ∨ c.toNat ∈ casedIntoAscii := by
  unfold upperChar at h
  split at h
  · next hlt => exact .inl ⟨hlt, List.mem_singleton.mp h⟩
  · next hge =>
    split at h
    -- Characters with several in their upper-case form
    · next codes hcodes =>
      obtain ⟨before, after, hsplit, -⟩ := List.lookup_eq_some_iff.mp hcodes
      obtain ⟨code, hcode, rfl⟩ := List.mem_map.mp h
      have hall : ∀ entry ∈ caseExpansions, entry.1 ∈ casedIntoAscii ∨
          ∀ code ∈ entry.2, ¬(Char.ofNat code).toNat < 0x80 := by decide +kernel
      rcases hall (c.toNat, codes) (by simp [hsplit]) with hmem | hnot
      · exact .inr hmem
      · exact absurd hd (hnot code hcode)
    · split at h
      -- Runs of characters that move by a shift: all but two lie beyond ASCII after it too.
      · next run hrun =>
        have hall : ∀ run ∈ caseRuns, run.first = run.last ∧ run.first ∈ casedIntoAscii ∨
            (0x80 ≤ run.first + run.shift ∧ run.last + run.shift < 0xD800 ∨
              0xDFFF < run.first + run.shift ∧ run.last + run.shift < 0x110000) := by
          decide +kernel
        have hcovers := List.find?_some hrun
        simp only [CaseRun.covers, Bool.and_eq_true, decide_eq_true_eq] at hcovers
        rcases hall run (List.mem_of_find?_eq_some hrun) with ⟨hone, hmem⟩ | hfar
        · have hc : c.toNat = run.first := by omega
          exact .inr (hc ▸ hmem)
        · have hvalid : (c.toNat + run.shift).toNat.isValidChar := by
            unfold Nat.isValidChar
            omega
          rw [List.mem_singleton.mp h, toNat_ofNat_of_isValidChar hvalid] at hd
          omega
      · rw [List.mem_singleton.mp h] at hd
        exact absurd hd hge

theorem eq_space_of_mem_upperChar {c : Char} (h : ' ' ∈ upperChar c) : c = ' ' := by
  rcases of_mem_upperChar h (by decide) with ⟨hlt, hupper⟩ | hmem
  · exact of_forall_ascii (p := fun c => ' ' = c.toUpper → c = ' ') (by decide) hlt hupper
  · have hall : ∀ n ∈ casedIntoAscii, ' ' ∉ upperChar (Char.ofNat n) := by decide +kernel
    have hc := hall c.toNat hmem
    rw [Char.ofNat_toNat] at hc
    exact absurd h hc

theorem space_mem_of_space_mem_upperCase {s : String} (h : ' ' ∈ (upperCase s).toList) :
    ' ' ∈ s.toList := by
  rw [toList_upperCase] at h
  obtain ⟨c, hc, hspace⟩ := List.mem_flatMap.mp h
  rwa [← eq_space_of_mem_upperChar hspace]

end Lex8086.Text
