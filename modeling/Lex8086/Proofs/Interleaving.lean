import Lex8086.Background
import Mathlib.Data.List.MinMax
import Mathlib.Data.List.Nodup

namespace Lex8086

namespace Stage

theorem work_eq_zero_iff {s : Stage} : s.work = 0 ↔ s = .finished := by
  cases s with
  | between pending => cases pending <;> simp [work, pendingWork]
  | within line scan pending => simp [work]
  | finished => simp [work]

end Stage

namespace Task

def after (t : Task) : Nat → Task
  | 0 => t
  | n + 1 => t.step.2.after n

theorem work_step_lt {t : Task} (h : t.stage ≠ .finished) :
    t.step.2.stage.work < t.stage.work := by
  unfold step
  split
  · next hs => simp [hs, Stage.work, Stage.pendingWork]
  · next l pending hs =>
    simp only [hs, Stage.work, Stage.pendingWork, Scan.start, String.length_toList]
    omega
  · next line scan pending hs =>
    split
    · next out next hstep =>
      have hlt := Scan.length_step_lt hstep
      simp only [hs, Stage.work]
      omega
    · simp only [hs, Stage.work]
      omega
  · next hs => exact absurd hs h

theorem work_after_le (t : Task) (n : Nat) : (t.after n).stage.work ≤ t.stage.work - n := by
  induction n generalizing t with
  | zero => exact Nat.le_refl _
  | succ n ih =>
    have hafter := ih t.step.2
    by_cases h : t.stage = .finished
    · have hstep : t.step.2 = t := by simp [step, h]
      rw [hstep] at hafter
      rw [after, hstep]
      have hzero : t.stage.work = 0 := Stage.work_eq_zero_iff.mpr h
      omega
    · have hlt := work_step_lt h
      rw [after]
      omega

theorem finished_after {t : Task} {n : Nat} (h : t.stage.work ≤ n) :
    (t.after n).stage = .finished := by
  have hle := work_after_le t n
  exact Stage.work_eq_zero_iff.mp (by omega)

/-- The output of the scans that are left, and the event at the end. -/
def closing (t : Task) (out : Output) : Output :=
  out ++ ⟨[], [.analysisFinished t.lines (t.tokens ++ out.tokens).length]⟩

/-- The output that is still to come. -/
def ahead (t : Task) : Output :=
  match t.stage with
  | .between pending => t.closing (.concat (pending.map scanLine))
  | .within line scan pending => t.closing (Scan.run line scan ++ .concat (pending.map scanLine))
  | .finished => ∅

theorem ahead_start (source : String) : (start source).ahead = analyze source := rfl

theorem closing_append (t : Task) (stage : Stage) (out rest : Output) :
    t.closing (out ++ rest) =
      out ++ closing { t with stage := stage, tokens := t.tokens ++ out.tokens } rest := by
  ext1
  · simp [closing]
  · simp [closing]

/-- The output of one step is the front of what is to come. -/
theorem ahead_step (t : Task) : ∃ tokens, t.step.2.tokens = t.tokens ++ tokens ∧
    t.ahead = ⟨tokens, t.step.1⟩ ++ t.step.2.ahead := by
  obtain ⟨lines, stage, tokens⟩ := t
  match stage with
  | .between [] =>
    refine ⟨[], (List.append_nil tokens).symm, ?_⟩
    ext1
    · rfl
    · simp [ahead, closing, step]
  | .between (l :: pending) => exact ⟨[], (List.append_nil tokens).symm, rfl⟩
  | .within line scan pending =>
    cases hstep : Scan.step line scan with
    | none =>
      refine ⟨(Scan.finish line scan).tokens, by simp only [step, hstep], ?_⟩
      simp only [ahead, step, hstep, Scan.run_of_none hstep]
      exact closing_append _ _ _ _
    | some r =>
      obtain ⟨out, next⟩ := r
      refine ⟨out.tokens, by simp only [step, hstep], ?_⟩
      simp only [ahead, step, hstep, Scan.run_of_step hstep, Output.append_assoc]
      exact closing_append _ _ _ _
  | .finished => exact ⟨[], (List.append_nil tokens).symm, rfl⟩

end Task

namespace Pool

/-- The events of one task, in the order of the shared log. -/
def eventsOf (p : Pool) (i : Nat) : List Event := (p.log.toList.filter (·.1 = i)).map (·.2)

def logs (p : Pool) : List (List Event) := (List.range p.tasks.length).map p.eventsOf

theorem tasks_step (p : Pool) (i j : Nat) :
    (p.step j).tasks[i]? = p.tasks[i]?.map fun t => if i = j then t.step.2 else t := by
  unfold step
  split
  · next h =>
    by_cases hij : i = j
    · simp [hij, h]
    · simp [hij]
  · next t h =>
    by_cases hij : i = j
    · obtain ⟨hlt, rfl⟩ := List.getElem?_eq_some_iff.mp h
      simp [hij, hlt]
    · simp [hij, List.getElem?_set_ne (Ne.symm hij)]

theorem eventsOf_step (p : Pool) (i j : Nat) :
    (p.step j).eventsOf i =
      p.eventsOf i ++ if i = j then (p.tasks[i]?.elim [] fun t => t.step.1) else [] := by
  unfold step
  split
  · next h =>
    by_cases hij : i = j
    · simp [hij, h]
    · simp [hij]
  · next t h =>
    by_cases hij : i = j
    · simp [eventsOf, hij, h, List.filter_map, Function.comp_def]
    · simp [eventsOf, hij, Ne.symm hij, List.filter_map, Function.comp_def]

@[simp] theorem run_nil (p : Pool) : p.run [] = p := rfl

@[simp] theorem run_cons (p : Pool) (j : Nat) (schedule : List Nat) :
    p.run (j :: schedule) = (p.step j).run schedule := rfl

theorem run_append (p : Pool) (first second : List Nat) :
    p.run (first ++ second) = (p.run first).run second := List.foldl_append

/-- Where a task stands hangs on the number of its own turns alone. -/
theorem tasks_run (p : Pool) (schedule : List Nat) (i : Nat) :
    (p.run schedule).tasks[i]? = p.tasks[i]?.map fun t => t.after (schedule.count i) := by
  induction schedule generalizing p with
  | nil => simp [Task.after]
  | cons j schedule ih =>
    rw [run_cons, ih, tasks_step, Option.map_map]
    by_cases hij : i = j
    · subst hij
      simp [Task.after, Function.comp_def]
    · simp [hij, List.count_cons_of_ne (Ne.symm hij), Function.comp_def]

/-- What a task has given out so far, and behind it what it has yet to give. -/
def output? (p : Pool) (i : Nat) : Option Output :=
  p.tasks[i]?.map fun t => ⟨t.tokens, p.eventsOf i⟩ ++ t.ahead

theorem output?_start (sources : List String) (i : Nat) :
    (start sources).output? i = sources[i]?.map analyze := by
  rw [output?, start, List.getElem?_map, Option.map_map]
  rfl

theorem output?_step (p : Pool) (i j : Nat) : (p.step j).output? i = p.output? i := by
  rw [output?, output?, tasks_step, eventsOf_step, Option.map_map]
  cases ht : p.tasks[i]? with
  | none => rfl
  | some t =>
    by_cases hij : i = j
    · -- The step takes from what is to come and adds that to what is given.
      obtain ⟨tokens, htokens, hahead⟩ := Task.ahead_step t
      have hgiven : (⟨t.tokens ++ tokens, p.eventsOf i ++ t.step.1⟩ : Output) =
          ⟨t.tokens, p.eventsOf i⟩ ++ ⟨tokens, t.step.1⟩ := rfl
      simp only [hij, Option.map_some, Function.comp_apply, if_true, Option.elim_some] at *
      rw [htokens, hahead, hgiven, Output.append_assoc]
    · simp [hij]

theorem output?_run (p : Pool) (schedule : List Nat) (i : Nat) :
    (p.run schedule).output? i = p.output? i := by
  induction schedule generalizing p with
  | nil => rfl
  | cons j schedule ih => rw [run_cons, ih, output?_step]

theorem finished_iff {p : Pool} :
    p.finished ↔ ∀ (i : Nat) (t : Task), p.tasks[i]? = some t → t.stage = .finished := by
  simp only [finished, List.all_eq_true, List.mem_iff_getElem?, beq_iff_eq]
  constructor
  · intro h i t ht
    exact h t ⟨i, ht⟩
  · rintro h t ⟨i, ht⟩
    exact h i t ht

theorem output?_of_finished {p : Pool} (h : p.finished) (i : Nat) :
    p.output? i = p.tasks[i]?.map fun t => ⟨t.tokens, p.eventsOf i⟩ := by
  unfold output?
  cases ht : p.tasks[i]? with
  | none => rfl
  | some t =>
    have hahead : t.ahead = ∅ := by simp only [Task.ahead, finished_iff.mp h i t ht]
    rw [Option.map_some, Option.map_some, hahead, Output.append_empty]

theorem getElem?_results {p : Pool} (h : p.finished) (i : Nat) :
    p.results[i]? = (p.output? i).map Output.tokens := by
  rw [output?_of_finished h, results, List.getElem?_map, Option.map_map]
  rfl

theorem getElem?_logs {p : Pool} (h : p.finished) (i : Nat) :
    p.logs[i]? = (p.output? i).map Output.events := by
  rw [output?_of_finished h, logs, List.getElem?_map, Option.map_map]
  by_cases hi : i < p.tasks.length
  · rw [List.getElem?_range hi, List.getElem?_eq_getElem hi]
    rfl
  · rw [List.getElem?_eq_none (by simpa using hi), List.getElem?_eq_none (by simpa using hi)]
    rfl

theorem results_run {sources : List String} {schedule : List Nat}
    (h : ((start sources).run schedule).finished) :
    ((start sources).run schedule).results = sources.map tokenize := by
  apply List.ext_getElem?
  intro i
  rw [getElem?_results h, output?_run, output?_start, Option.map_map, List.getElem?_map]
  rfl

theorem logs_run {sources : List String} {schedule : List Nat}
    (h : ((start sources).run schedule).finished) :
    ((start sources).run schedule).logs = sources.map fun source => (analyze source).events := by
  apply List.ext_getElem?
  intro i
  rw [getElem?_logs h, output?_run, output?_start, Option.map_map, List.getElem?_map]
  rfl

theorem finished_run {p : Pool} {schedule : List Nat}
    (h : ∀ (i : Nat) (t : Task), p.tasks[i]? = some t → t.stage.work ≤ schedule.count i) :
    (p.run schedule).finished := by
  rw [finished_iff]
  intro i t ht
  rw [tasks_run] at ht
  obtain ⟨u, hu, rfl⟩ := Option.map_eq_some_iff.mp ht
  exact Task.finished_after (h i u hu)

theorem count_flatten_replicate (n i : Nat) (turns : List Nat) :
    (List.replicate n turns).flatten.count i = n * turns.count i := by
  induction n with
  | zero => simp
  | succ n ih =>
    rw [List.replicate_succ, List.flatten_cons, List.count_append, ih, Nat.succ_mul, Nat.add_comm]

theorem finished_run_rounds (p : Pool) : (p.run p.rounds).finished := by
  apply finished_run
  intro i t ht
  obtain ⟨hi, rfl⟩ := List.getElem?_eq_some_iff.mp ht
  have hcount : (List.range p.tasks.length).count i = 1 :=
    List.count_eq_one_of_mem List.nodup_range (List.mem_range.mpr hi)
  rw [rounds, count_flatten_replicate, hcount, Nat.mul_one]
  exact List.le_max_of_le' 0 (List.mem_map_of_mem (List.getElem_mem hi)) (Nat.le_refl _)

/-- Analyses started together do not meet. Any order of their steps that ends them all gives each
source its tokens, and its events in their order, as if it had been analyzed alone; and any order
goes on to one that ends them all. -/
theorem run_results_and_logs (sources : List String) (schedule : List Nat) :
    (((start sources).run schedule).finished →
      ((start sources).run schedule).results = sources.map tokenize ∧
        ((start sources).run schedule).logs = sources.map fun source => (analyze source).events) ∧
      ∃ more, ((start sources).run (schedule ++ more)).finished := by
  constructor
  · intro h
    exact ⟨results_run h, logs_run h⟩
  · refine ⟨((start sources).run schedule).rounds, ?_⟩
    rw [run_append]
    exact finished_run_rounds _

/-- Turns that go to and fro between an open quote and a word. -/
theorem run_results_and_logs_two_tasks :
    ((start ["x'", "HLT"]).run [1, 0, 1, 1, 0, 0, 1, 0, 1, 1, 0]).finished ∧
      ((start ["x'", "HLT"]).run [1, 0, 1, 1, 0, 0, 1, 0, 1, 1, 0]).results =
        ["x'", "HLT"].map tokenize ∧
      ((start ["x'", "HLT"]).run [1, 0, 1, 1, 0, 0, 1, 0, 1, 1, 0]).logs =
        ["x'", "HLT"].map fun source => (analyze source).events := by
  have h : ((start ["x'", "HLT"]).run [1, 0, 1, 1, 0, 0, 1, 0, 1, 1, 0]).finished := by
    decide +kernel
  exact ⟨h, (run_results_and_logs _ _).1 h⟩

end Pool

theorem analyzeTogether_eq_map_tokenize (sources : List String) :
    analyzeTogether sources = sources.map tokenize :=
  Pool.results_run (Pool.finished_run_rounds _)

end Lex8086
