import Lex8086.Workbench
import Mathlib.Data.List.Basic

namespace Lex8086

namespace Command

def names : Command → List String
  | create name _ | createEmpty name => [name]
  | copy name target => [name, target]
  | source name | analyze name | tokens name | take name | report name => [name]

/-- The one name whose lexer may be another one behind the command. -/
def target : Command → String
  | create name _ | createEmpty name => name
  | copy _ target => target
  | source name | analyze name | tokens name | take name | report name => name

def needs? : Command → Option String
  | create .. | createEmpty _ => none
  | copy name _ => some name
  | source name | analyze name | tokens name | take name | report name => some name

def creates? : Command → Option (String × String)
  | create name text => some (name, text)
  | createEmpty name => some (name, "")
  | _ => none

/-- Behind the command the name holds a new lexer, or none. -/
def Replaces (name : String) : Command → Prop
  | create n _ | createEmpty n => n = name
  | copy _ target => target = name
  | take n => n = name
  | source _ | analyze _ | tokens _ | report _ => False

theorem target_eq_of_replaces {c : Command} {name : String} (h : c.Replaces name) :
    c.target = name := by
  cases c <;> simp_all [Replaces, target]

theorem replaces_of_creates? {c : Command} {name source : String}
    (h : c.creates? = some (name, source)) : c.Replaces name := by
  cases c <;> simp_all [creates?, Replaces]

theorem target_mem_names (c : Command) : c.target ∈ c.names := by cases c <;> simp [target, names]

end Command

@[simp] theorem Lexer.default_eq : (default : Lexer) = ofSource "" := rfl

namespace Workbench

theorem step_of_missing {b : Workbench} {c : Command} {name : String}
    (hneeds : c.needs? = some name) (h : b.lexer? name = none) : b.step c = (.noLexer, b) := by
  cases c <;> simp only [Command.needs?, Option.some.injEq, reduceCtorEq] at hneeds <;>
    subst hneeds <;> simp [step, on, h]

theorem step_of_creates? {b : Workbench} {c : Command} {name source : String}
    (h : c.creates? = some (name, source)) : (b.step c).1 = .done := by
  cases c <;> simp_all [Command.creates?, step]

theorem lexer?_step_of_missing {b : Workbench} {c : Command} {n : String}
    (hneeds : c.needs? = some n) (h : b.lexer? n = none) (name : String) :
    ((b.step c).1 = .noLexer ∨ ¬c.Replaces name) ∧
      (b.step c).2.lexer? name =
        (b.lexer? name).map fun l => if c = .analyze name then l.analyze else l := by
  rw [step_of_missing hneeds h]
  refine ⟨.inl rfl, ?_⟩
  by_cases hc : c = .analyze name
  · obtain rfl : name = n := by simpa [hc, Command.needs?] using hneeds
    rw [h, Option.map_none]
  · simp [hc]

/-- All that a step can do to a name: it makes a lexer there, copies one to it, takes the lexer
away, or leaves the one that is there, analysed if it says so. -/
theorem lexer?_step_cases (b : Workbench) (c : Command) (name : String) :
    ((b.step c).1 ≠ .noLexer ∧ c.Replaces name ∧
      ((∃ source, c.creates? = some (name, source) ∧
          (b.step c).2.lexer? name = some (.ofSource source)) ∨
        (∃ origin l, c = .copy origin name ∧ (b.step c).1 = .done ∧ b.lexer? origin = some l ∧
          (b.step c).2.lexer? name = some l) ∨
        (c = .take name ∧ (b.step c).2.lexer? name = none))) ∨
      ((b.step c).1 = .noLexer ∨ ¬c.Replaces name) ∧
        (b.step c).2.lexer? name =
          (b.lexer? name).map fun l => if c = .analyze name then l.analyze else l := by
  cases c with
  | create n text | createEmpty n =>
    by_cases hn : name = n
    · left
      simp [step, hn, Command.creates?, Command.Replaces]
    · right
      simp [step, hn, Command.Replaces, Ne.symm hn]
  | copy n target =>
    cases hl : b.lexer? n with
    | none => exact .inr (lexer?_step_of_missing rfl hl name)
    | some l =>
      by_cases hn : name = target
      · left
        simp [step, on, hl, hn, Command.creates?, Command.Replaces]
      · right
        simp [step, on, hl, hn, Ne.symm hn, Command.Replaces]
  | take n =>
    cases hl : b.lexer? n with
    | none => exact .inr (lexer?_step_of_missing rfl hl name)
    | some l =>
      by_cases hn : name = n
      · left
        simp [step, on, hl, hn, Command.creates?, Command.Replaces]
      · right
        simp [step, on, hl, hn, Ne.symm hn, Command.Replaces]
  | analyze n =>
    right
    cases hl : b.lexer? n with
    | none => exact lexer?_step_of_missing rfl hl name
    | some l =>
      by_cases hn : name = n
      · simp [step, on, hl, hn, Command.Replaces]
      · simp [step, on, hl, hn, Ne.symm hn, Command.Replaces]
  | source n | tokens n | report n =>
    right
    cases hl : b.lexer? n <;> simp [step, on, hl, Command.Replaces]

theorem lexer?_step_of_ne {b : Workbench} {c : Command} {name : String} (h : name ≠ c.target) :
    (b.step c).2.lexer? name = b.lexer? name := by
  have hreplaces : ¬c.Replaces name := fun hr => h (Command.target_eq_of_replaces hr).symm
  have hanalyze : c ≠ .analyze name := by
    rintro rfl
    exact h rfl
  rcases lexer?_step_cases b c name with ⟨-, hr, -⟩ | ⟨-, hnew⟩
  · exact absurd hr hreplaces
  · simpa [hanalyze] using hnew

/-- A step looks at no other names than its own. -/
theorem step_congr {b b' : Workbench} {c : Command}
    (h : ∀ name ∈ c.names, b.lexer? name = b'.lexer? name) :
    (b.step c).1 = (b'.step c).1 ∧
      ∀ name ∈ c.names, (b.step c).2.lexer? name = (b'.step c).2.lexer? name := by
  have hon : ∀ name, name ∈ c.names → c.needs? = some name → b.lexer? name = none →
      (b.step c).1 = (b'.step c).1 ∧
        ∀ name ∈ c.names, (b.step c).2.lexer? name = (b'.step c).2.lexer? name := by
    intro name hname hneeds hnone
    have hnone' : b'.lexer? name = none := by rw [← h name hname, hnone]
    rw [step_of_missing hneeds hnone, step_of_missing hneeds hnone']
    exact ⟨rfl, h⟩
  cases c with
  | create name _ | createEmpty name => simp [step, Command.names]
  | copy name _ | source name | analyze name | tokens name | take name | report name =>
    have hname := h name (by simp [Command.names])
    cases hl : b.lexer? name with
    | none => exact hon name (by simp [Command.names]) rfl hl
    | some l =>
      rw [hl] at hname
      simp [step, on, hl, ← hname, Command.names]

theorem step_comm {b : Workbench} {c d : Command} (h : c.names.Disjoint d.names) :
    (b.step c).1 = ((b.step d).2.step c).1 ∧ (b.step d).1 = ((b.step c).2.step d).1 ∧
      ((b.step c).2.step d).2 = ((b.step d).2.step c).2 := by
  have hd : ∀ n ∈ c.names, (b.step d).2.lexer? n = b.lexer? n := fun n hn =>
    lexer?_step_of_ne fun he => h hn (he ▸ d.target_mem_names)
  have hc : ∀ n ∈ d.names, (b.step c).2.lexer? n = b.lexer? n := fun n hn =>
    lexer?_step_of_ne fun he => h (he ▸ c.target_mem_names) hn
  obtain ⟨hanswer, hsame⟩ := step_congr hd
  obtain ⟨hanswer', hsame'⟩ := step_congr hc
  refine ⟨hanswer.symm, hanswer'.symm, ?_⟩
  ext1
  funext n
  by_cases hnc : n = c.target
  · have hmem : n ∈ c.names := hnc ▸ c.target_mem_names
    have hnd : n ≠ d.target := fun he => h hmem (he ▸ d.target_mem_names)
    rw [lexer?_step_of_ne hnd, hsame n hmem]
  · rw [lexer?_step_of_ne hnc]
    by_cases hnd : n = d.target
    · rw [hsame' n (hnd ▸ d.target_mem_names)]
    · rw [lexer?_step_of_ne hnd, lexer?_step_of_ne hnd, lexer?_step_of_ne hnc]

theorem run_cons (b : Workbench) (c : Command) (cs : List Command) :
    b.run (c :: cs) =
      ((b.step c).1 :: ((b.step c).2.run cs).1, ((b.step c).2.run cs).2) := rfl

theorem run_append (b : Workbench) (cs ds : List Command) :
    b.run (cs ++ ds) =
      ((b.run cs).1 ++ ((b.run cs).2.run ds).1, ((b.run cs).2.run ds).2) := by
  induction cs generalizing b with
  | nil => rfl
  | cons c cs ih => simp only [List.cons_append, run_cons, ih]

theorem length_answers (b : Workbench) (cs : List Command) : (b.run cs).1.length = cs.length := by
  induction cs generalizing b with
  | nil => rfl
  | cons c cs ih => simp only [run_cons, List.length_cons, ih]

theorem lexer?_run_of_ne {b : Workbench} {cs : List Command} {name : String}
    (h : ∀ c ∈ cs, c.target ≠ name) : (b.run cs).2.lexer? name = b.lexer? name := by
  induction cs generalizing b with
  | nil => rfl
  | cons c cs ih =>
    rw [List.forall_mem_cons] at h
    calc
      _ = ((b.step c).2.run cs).2.lexer? name := rfl
      _ = (b.step c).2.lexer? name := ih h.2
      _ = b.lexer? name := lexer?_step_of_ne h.1.symm

theorem run_append_cons_cons (b : Workbench) (before after : List Command) (c d : Command) :
    b.run (before ++ c :: d :: after) =
      ((b.run before).1 ++ ((b.run before).2.step c).1 :: (((b.run before).2.step c).2.step d).1 ::
          ((((b.run before).2.step c).2.step d).2.run after).1,
        ((((b.run before).2.step c).2.step d).2.run after).2) :=
  run_append b before (c :: d :: after)

/-- Neighbours that share no name may change places, and each is answered as before. -/
theorem run_swap (b : Workbench) (before after : List Command) {c d : Command}
    (h : c.names.Disjoint d.names) : ∃ x y more final,
      b.run (before ++ c :: d :: after) = ((b.run before).1 ++ x :: y :: more, final) ∧
        b.run (before ++ d :: c :: after) = ((b.run before).1 ++ y :: x :: more, final) := by
  obtain ⟨hc, hd, hstate⟩ := step_comm (b := (b.run before).2) h
  refine ⟨_, _, _, _, run_append_cons_cons b before after c d, ?_⟩
  rw [run_append_cons_cons, hd, ← hc, ← hstate]

end Workbench

end Lex8086
