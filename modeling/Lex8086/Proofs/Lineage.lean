import Lex8086.Proofs.WorkbenchStep
import Mathlib.Data.List.Induction

namespace Lex8086

abbrev Exchange := Command × Answer

/-- None of these steps replaces the lexer of the name, unless in vain. -/
def Kept (name : String) (exchanges : List Exchange) : Prop :=
  ∀ e ∈ exchanges, e.2 = .noLexer ∨ ¬e.1.Replaces name

def analyzedIn (name : String) (exchanges : List Exchange) : Bool :=
  exchanges.any fun e => e.1 = .analyze name

/-- By these exchanges the name holds a lexer that goes back through copies to one created with this
source; the flag says whether it was analysed, or one that it was copied from before that copy. -/
inductive Descends : List Exchange → String → String → Bool → Prop
  | created {before after : List Exchange} {c : Command} {answer : Answer} {name source : String} :
    c.creates? = some (name, source) → Kept name after →
      Descends (before ++ (c, answer) :: after) name source (analyzedIn name after)
  | copied {before after : List Exchange} {origin name source : String} {analyzed : Bool} :
    Descends before origin source analyzed → Kept name after →
      Descends (before ++ (.copy origin name, .done) :: after) name source
        (analyzed || analyzedIn name after)

theorem kept_concat {name : String} {exchanges : List Exchange} {e : Exchange} :
    Kept name (exchanges ++ [e]) ↔ Kept name exchanges ∧ (e.2 = .noLexer ∨ ¬e.1.Replaces name) := by
  simp [Kept, or_imp, forall_and]

theorem analyzedIn_concat (name : String) (exchanges : List Exchange) (e : Exchange) :
    analyzedIn name (exchanges ++ [e]) = (analyzedIn name exchanges || e.1 = .analyze name) := by
  simp [analyzedIn]

theorem Descends.concat {exchanges : List Exchange} {name source : String} {analyzed : Bool}
    (h : Descends exchanges name source analyzed) {e : Exchange}
    (he : e.2 = .noLexer ∨ ¬e.1.Replaces name) :
    Descends (exchanges ++ [e]) name source (analyzed || e.1 = .analyze name) := by
  cases h with
  | created hc hkept =>
    rw [List.append_assoc, List.cons_append, ← analyzedIn_concat]
    exact .created hc (kept_concat.mpr ⟨hkept, he⟩)
  | copied horigin hkept =>
    rw [List.append_assoc, List.cons_append, Bool.or_assoc, ← analyzedIn_concat]
    exact .copied horigin (kept_concat.mpr ⟨hkept, he⟩)

theorem concat_eq_append_cons {exchanges before after : List Exchange} {e x : Exchange}
    (h : exchanges ++ [e] = before ++ x :: after) :
    (after = [] ∧ exchanges = before ∧ e = x) ∨
      ∃ rest, after = rest ++ [e] ∧ exchanges = before ++ x :: rest := by
  rcases List.eq_nil_or_concat' after with rfl | ⟨rest, y, rfl⟩
  · obtain ⟨rfl, he⟩ := List.append_inj' h rfl
    exact .inl ⟨rfl, rfl, by simpa using he⟩
  · rw [← List.cons_append, ← List.append_assoc] at h
    obtain ⟨rfl, he⟩ := List.append_inj' h rfl
    obtain rfl := by simpa using he
    exact .inr ⟨rest, rfl, rfl⟩

/-- The last step made the lexer, or copied it, or went on with it. -/
theorem descends_concat_iff {exchanges : List Exchange} {c : Command} {answer : Answer}
    {name source : String} {analyzed : Bool} :
    Descends (exchanges ++ [(c, answer)]) name source analyzed ↔
      (c.creates? = some (name, source) ∧ analyzed = false) ∨
      (∃ origin, c = .copy origin name ∧ answer = .done ∧
        Descends exchanges origin source analyzed) ∨
      (answer = .noLexer ∨ ¬c.Replaces name) ∧
        ∃ earlier, Descends exchanges name source earlier ∧
          analyzed = (earlier || c = .analyze name) := by
  constructor
  · intro h
    -- What the descent singles out is the last exchange, or stands in front of it.
    generalize hs : exchanges ++ [(c, answer)] = all at h
    cases h with
    | created hc hkept =>
      rcases concat_eq_append_cons hs with ⟨rfl, -, he⟩ | ⟨rest, rfl, rfl⟩
      · obtain ⟨rfl, -⟩ := Prod.mk.inj he
        exact .inl ⟨hc, rfl⟩
      · obtain ⟨hkept, he⟩ := kept_concat.mp hkept
        exact .inr (.inr ⟨he, _, .created hc hkept, analyzedIn_concat name rest _⟩)
    | copied horigin hkept =>
      rcases concat_eq_append_cons hs with ⟨rfl, rfl, he⟩ | ⟨rest, rfl, rfl⟩
      · obtain ⟨rfl, rfl⟩ := Prod.mk.inj he
        exact .inr (.inl ⟨_, rfl, rfl, by simpa [analyzedIn] using horigin⟩)
      · obtain ⟨hkept, he⟩ := kept_concat.mp hkept
        refine .inr (.inr ⟨he, _, .copied horigin hkept, ?_⟩)
        rw [analyzedIn_concat, Bool.or_assoc]
  · rintro (⟨hc, rfl⟩ | ⟨origin, rfl, rfl, h⟩ | ⟨hkept, earlier, h, rfl⟩)
    · exact .created hc (by simp [Kept])
    · have hkept : Kept name [] := by simp [Kept]
      simpa [analyzedIn] using h.copied hkept
    · exact h.concat hkept

def Lexer.made (source : String) (analyzed : Bool) : Lexer :=
  if analyzed then (ofSource source).analyze else ofSource source

namespace Lexer

@[simp] theorem made_false (source : String) : made source false = ofSource source := rfl

@[simp] theorem made_true (source : String) : made source true = (ofSource source).analyze := rfl

@[simp] theorem source_made (source : String) (analyzed : Bool) :
    (made source analyzed).source = source := by cases analyzed <;> rfl

theorem tokens_made (source : String) (analyzed : Bool) :
    (made source analyzed).tokens = if analyzed then tokenize source else [] := by
  cases analyzed <;> rfl

@[simp] theorem analyze_made (source : String) (analyzed : Bool) :
    (made source analyzed).analyze = made source true := by cases analyzed <;> rfl

end Lexer

namespace Workbench

/-- The lexers are those that the exchanges tell of. -/
def Recorded (exchanges : List Exchange) (b : Workbench) : Prop :=
  ∀ name l, b.lexer? name = some l ↔
    ∃ source analyzed, Descends exchanges name source analyzed ∧ l = .made source analyzed

theorem creates?_ne_of_kept {b : Workbench} {c : Command} {name : String}
    (h : (b.step c).1 = .noLexer ∨ ¬c.Replaces name) (source : String) :
    c.creates? ≠ some (name, source) := by
  intro hc
  rcases h with hanswer | hno
  · rw [step_of_creates? hc] at hanswer
    cases hanswer
  · exact hno (Command.replaces_of_creates? hc)

theorem not_copied_of_kept {b : Workbench} {c : Command} {name : String}
    (h : (b.step c).1 = .noLexer ∨ ¬c.Replaces name) (origin : String) :
    ¬(c = .copy origin name ∧ (b.step c).1 = .done) := by
  rintro ⟨rfl, hdone⟩
  rcases h with hanswer | hno
  · rw [hdone] at hanswer
    cases hanswer
  · exact hno rfl

theorem recorded_step {exchanges : List Exchange} {b : Workbench} (h : b.Recorded exchanges)
    (c : Command) : (b.step c).2.Recorded (exchanges ++ [(c, (b.step c).1)]) := by
  intro name l
  simp only [descends_concat_iff]
  -- Either the step replaces the lexer of the name, or the one that is there goes on.
  rcases lexer?_step_cases b c name with ⟨hanswer, hreplaces, hnew⟩ | ⟨hkept, hnew⟩
  · have hover : ¬((b.step c).1 = .noLexer ∨ ¬c.Replaces name) := by simp [hanswer, hreplaces]
    simp only [hover, false_and, or_false]
    rcases hnew with ⟨source, hc, hnew⟩ | ⟨origin, m, rfl, hdone, hm, hnew⟩ | ⟨rfl, hnew⟩
    · rw [hnew]
      constructor
      · intro hl
        exact ⟨source, false, .inl ⟨hc, rfl⟩, (Option.some.inj hl).symm⟩
      · rintro ⟨source', analyzed, ⟨hc', rfl⟩ | ⟨origin, rfl, -⟩, rfl⟩
        · rw [hc] at hc'
          simp_all
        · cases hc
    · rw [hnew, ← hm, h origin l]
      simp [Command.creates?, hdone]
    · rw [hnew]
      simp [Command.creates?]
  · rw [hnew]
    constructor
    · intro hl
      obtain ⟨old, hold, rfl⟩ := Option.map_eq_some_iff.mp hl
      obtain ⟨source, earlier, hd, rfl⟩ := (h name old).mp hold
      refine ⟨source, earlier || c = .analyze name, .inr (.inr ⟨hkept, earlier, hd, rfl⟩), ?_⟩
      by_cases hc : c = .analyze name <;> simp [hc]
    · rintro ⟨source, analyzed, ⟨hc, -⟩ | ⟨origin, hc, hdone, -⟩ | ⟨-, earlier, hd, rfl⟩, rfl⟩
      · exact absurd hc (creates?_ne_of_kept hkept source)
      · exact absurd ⟨hc, hdone⟩ (not_copied_of_kept hkept origin)
      · rw [(h name _).mpr ⟨source, earlier, hd, rfl⟩]
        by_cases hc : c = .analyze name <;> simp [hc]

def reached (cs : List Command) : Workbench := (empty.run cs).2

def transcript (cs : List Command) : List Exchange := cs.zip (empty.run cs).1

theorem reached_concat (cs : List Command) (c : Command) :
    reached (cs ++ [c]) = ((reached cs).step c).2 := by
  rw [reached, run_append]
  rfl

theorem transcript_concat (cs : List Command) (c : Command) :
    transcript (cs ++ [c]) = transcript cs ++ [(c, ((reached cs).step c).1)] := by
  rw [transcript, run_append, List.zip_append (length_answers empty cs).symm]
  rfl

theorem not_descends_nil {name source : String} {analyzed : Bool} :
    ¬Descends [] name source analyzed := by
  intro h
  generalize hs : ([] : List Exchange) = exchanges at h
  cases h <;> simp at hs

/-- The lexers of a workbench are those that its transcript tells of. -/
theorem recorded_reached (cs : List Command) : (reached cs).Recorded (transcript cs) := by
  induction cs using List.reverseRecOn with
  | nil =>
    intro name l
    simp [reached, transcript, run, empty, not_descends_nil]
  | append_singleton cs c ih =>
    rw [reached_concat, transcript_concat]
    exact recorded_step ih c

theorem reached_append (cs ds : List Command) : reached (cs ++ ds) = ((reached cs).run ds).2 := by
  rw [reached, run_append]
  rfl

/-- A copy and the lexer that it was taken from stay as they are, whatever happens to the other. -/
theorem lexer?_reached_copy {cs : List Command} {origin target : String} {l : Lexer}
    (hne : origin ≠ target) (hl : (reached cs).lexer? origin = some l) (ds : List Command) :
    ((∀ d ∈ ds, d.target ≠ target) →
        (reached (cs ++ .copy origin target :: ds)).lexer? target = some l) ∧
      ((∀ d ∈ ds, d.target ≠ origin) →
        (reached (cs ++ .copy origin target :: ds)).lexer? origin = some l) := by
  have hcopy : (reached cs).step (.copy origin target) = (.done, (reached cs).put target l) := by
    simp [step, on, hl]
  rw [reached_append, run_cons, hcopy]
  constructor
  · intro h
    rw [lexer?_run_of_ne h]
    simp
  · intro h
    rw [lexer?_run_of_ne h]
    simp [hne, hl]

/-- Every lexer of a run holds the source that its line goes back to, and the tokens of that source
if its line was analysed, else none. Commands answer from these. A step changes no lexer but that of
its target, on a missing lexer none at all, and neighbours that share no name may change places. -/
theorem reached_lexers (cs : List Command) :
    (∀ name l, (reached cs).lexer? name = some l ↔
      ∃ analyzed, Descends (transcript cs) name l.source analyzed ∧
        l.tokens = if analyzed then tokenize l.source else []) ∧
      (∀ name l, (reached cs).lexer? name = some l →
        ((reached cs).step (.source name)).1 = .text l.source ∧
          ((reached cs).step (.analyze name)).1 = .tokens (tokenize l.source) ∧
          ((reached cs).step (.tokens name)).1 = .tokens l.tokens ∧
          ((reached cs).step (.take name)).1 = .tokens l.tokens ∧
          ((reached cs).step (.report name)).1 = .text (Report.render name l.tokens)) ∧
      (∀ c name, name ≠ c.target →
        ((reached cs).step c).2.lexer? name = (reached cs).lexer? name) ∧
      (∀ origin target l, origin ≠ target → (reached cs).lexer? origin = some l → ∀ ds,
        ((∀ d ∈ ds, d.target ≠ target) →
            (reached (cs ++ .copy origin target :: ds)).lexer? target = some l) ∧
          ((∀ d ∈ ds, d.target ≠ origin) →
            (reached (cs ++ .copy origin target :: ds)).lexer? origin = some l)) ∧
      (∀ c name, c.needs? = some name → (reached cs).lexer? name = none →
        (reached cs).step c = (.noLexer, reached cs)) ∧
      ∀ c d after, c.names.Disjoint d.names → ∃ x y more final,
        empty.run (cs ++ c :: d :: after) = ((empty.run cs).1 ++ x :: y :: more, final) ∧
          empty.run (cs ++ d :: c :: after) = ((empty.run cs).1 ++ y :: x :: more, final) := by
  refine ⟨?_, ?_, fun c name => lexer?_step_of_ne, fun origin target l => lexer?_reached_copy,
    fun c name => step_of_missing, fun c d after => run_swap empty cs after⟩
  · intro name l
    rw [recorded_reached cs name l]
    constructor
    · rintro ⟨source, analyzed, h, rfl⟩
      exact ⟨analyzed, by rwa [Lexer.source_made], by rw [Lexer.source_made, Lexer.tokens_made]⟩
    · rintro ⟨analyzed, h, htokens⟩
      refine ⟨l.source, analyzed, h, ?_⟩
      obtain ⟨source, tokens⟩ := l
      cases analyzed <;> simp_all [Lexer.ofSource, Lexer.analyze]
  · intro name l hl
    simp [step, on, hl, Lexer.analyze]

/-- A lexer copied before its analysis and once more behind it, and then replaced. -/
theorem reached_lexers_two_copies :
    let cs : List Command := [.create "a" "HLT", .copy "a" "b", .analyze "a", .copy "a" "c",
      .create "a" "POP"]
    (Descends (transcript cs) "b" "HLT" false ∧
        (reached cs).lexer? "b" = some ⟨"HLT", []⟩) ∧
      (Descends (transcript cs) "c" "HLT" true ∧
        (reached cs).lexer? "c" = some ⟨"HLT", tokenize "HLT"⟩) ∧
      ((reached cs).lexer? "d" = none ∧
        (reached cs).step (.tokens "d") = (.noLexer, reached cs)) ∧
      ∃ x y more final,
        empty.run (cs ++ [.copy "b" "e", .take "c"]) =
            ((empty.run cs).1 ++ x :: y :: more, final) ∧
          empty.run (cs ++ [.take "c", .copy "b" "e"]) =
            ((empty.run cs).1 ++ y :: x :: more, final) := by
  intro cs
  obtain ⟨hlexer, -, -, -, hmissing, hswap⟩ := reached_lexers cs
  have hkept : Kept "b" [(.analyze "a", .tokens (tokenize "HLT")), (.copy "a" "c", .done),
      (.create "a" "POP", .done)] := by simp [Kept, Command.Replaces]
  have hkept' : Kept "c" [(.create "a" "POP", .done)] := by simp [Kept, Command.Replaces]
  have hnew : Descends ([] ++ [(.create "a" "HLT", .done)]) "a" "HLT" false :=
    .created rfl (by simp [Kept])
  have hanalyzed : Descends ([] ++ (.create "a" "HLT", .done) :: [(.copy "a" "b", .done),
      (.analyze "a", .tokens (tokenize "HLT"))]) "a" "HLT" true :=
    .created rfl (by simp [Kept, Command.Replaces])
  have hb : Descends (transcript cs) "b" "HLT" false := hnew.copied hkept
  have hc : Descends (transcript cs) "c" "HLT" true := hanalyzed.copied hkept'
  have hd : (reached cs).lexer? "d" = none := rfl
  refine ⟨⟨hb, ?_⟩, ⟨hc, ?_⟩, ⟨hd, ?_⟩, ?_⟩
  · exact (hlexer "b" ⟨"HLT", []⟩).mpr ⟨false, hb, rfl⟩
  · exact (hlexer "c" ⟨"HLT", tokenize "HLT"⟩).mpr ⟨true, hc, rfl⟩
  · exact hmissing (.tokens "d") "d" rfl hd
  · exact hswap (.copy "b" "e") (.take "c") [] (by simp [Command.names])

end Workbench

end Lex8086
