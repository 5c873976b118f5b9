import Lex8086.CommandLine
import Lex8086.FileTree
import Lex8086.Proofs.SourceFile

namespace Lex8086.CommandLine

section

variable {worker : Worker (List Token)} {read : String → Except SystemError ByteArray}

theorem report_of_completes (h : worker.Completes) (title source : String) :
    report worker title source = ⟨0, Report.render title (tokenize source), ""⟩ := by
  rw [report, analyzeInBackground_of_completes h]

theorem report_of_error {source : String} {cause : JoinError}
    (h : worker (fun _ => tokenize source) = .error cause) (title : String) :
    report worker title source =
      ⟨1, "", "Error: " ++ ("Analysis task failed: " ++ cause.text) ++ "\n"⟩ := by
  rw [report, analyzeInBackground_of_error h]
  rfl

theorem runOn_of_readSource_ok {path source : String}
    (h : (readSource path (read path)).1 = .ok source) (rest : List String) :
    runOn worker read (path :: rest) =
      report worker ("Lexical Analysis Results for " ++ path) source := by
  rw [runOn, h]

theorem runOn_of_readSource_error {path : String} {e : SourceError}
    (h : (readSource path (read path)).1 = .error e) (rest : List String) :
    runOn worker read (path :: rest) = ⟨1, "", "Error: " ++ e.message ++ "\n"⟩ := by
  rw [runOn, h]
  rfl

theorem runOn_cons_congr {read' : String → Except SystemError ByteArray} {path : String}
    (h : read' path = read path) (rest rest' : List String) :
    runOn worker read' (path :: rest') = runOn worker read (path :: rest) := by
  rw [runOn, runOn, h]

end

/-- If the work comes to its end, a run reports on the tokens of the file that its first argument
names, and without an argument on those of the sample. A file that cannot be read and work that is
given up both end in an error and no report; the error of a file shows its path. Neither other files
nor other arguments make a difference. -/
theorem run_outcome (worker : Worker (List Token))
    (read : String → Except SystemError ByteArray) :
    (worker.Completes →
      runOn worker read [] =
          ⟨0, Report.render "Demo: Lexical Analysis Results" (tokenize sampleProgram), ""⟩ ∧
        ∀ (path : String) (rest : List String) (source : String),
          ((readSource path (read path)).1 = .ok source → runOn worker read (path :: rest) =
            ⟨0, Report.render ("Lexical Analysis Results for " ++ path) (tokenize source), ""⟩) ∧
          (read path = .ok source.toUTF8 → runOn worker read (path :: rest) =
            ⟨0, Report.render ("Lexical Analysis Results for " ++ path) (tokenize source), ""⟩)) ∧
      (∀ (path : String) (rest : List String),
        (∀ e, (readSource path (read path)).1 = .error e →
          runOn worker read (path :: rest) = ⟨1, "", "Error: " ++ e.message ++ "\n"⟩ ∧
            e.path = path ∧ path.toList <:+: e.message.toList) ∧
        ∀ read' rest', read' path = read path →
          runOn worker read' (path :: rest') = runOn worker read (path :: rest)) ∧
      ∀ cause : JoinError,
        (worker (fun _ => tokenize sampleProgram) = .error cause → runOn worker read [] =
          ⟨1, "", "Error: " ++ ("Analysis task failed: " ++ cause.text) ++ "\n"⟩) ∧
        ∀ (path : String) (rest : List String) (source : String),
          (readSource path (read path)).1 = .ok source →
          worker (fun _ => tokenize source) = .error cause → runOn worker read (path :: rest) =
            ⟨1, "", "Error: " ++ ("Analysis task failed: " ++ cause.text) ++ "\n"⟩ := by
  refine ⟨fun hworker => ⟨?_, fun path rest source => ⟨?_, ?_⟩⟩, fun path rest => ⟨?_, ?_⟩,
    fun cause => ⟨?_, ?_⟩⟩
  · exact report_of_completes hworker _ sampleProgram
  · intro h
    rw [runOn_of_readSource_ok h, report_of_completes hworker]
  · intro h
    rw [runOn_of_readSource_ok (readSource_eq_ok_iff.mpr h), report_of_completes hworker]
  · intro e h
    have hpath := path_of_readSource_eq_error h
    have hshown := e.path_isInfix_message
    rw [hpath] at hshown
    exact ⟨runOn_of_readSource_error h rest, hpath, hshown⟩
  · intro read' rest' h
    exact runOn_cons_congr h rest rest'
  · intro h
    exact report_of_error h _
  · intro path rest source hsource h
    rw [runOn_of_readSource_ok hsource, report_of_error h]

/-- A file that is a text and one that is none, the first of them without the second, and work that
is given up. -/
theorem run_outcome_two_files : ∃ files fewer : FileTree,
    run files.read ["a", "b"] =
        ⟨0, Report.render ("Lexical Analysis Results for " ++ "a") (tokenize "HLT"), ""⟩ ∧
      run files.read ["a"] =
        ⟨0, Report.render ("Lexical Analysis Results for " ++ "a") (tokenize "HLT"), ""⟩ ∧
      run files.read ["b", "a"] = ⟨1, "", "Error: File 'b' is not valid UTF-8\n"⟩ ∧
      run fewer.read ["a"] = run files.read ["a", "b"] ∧
      runOn (fun _ => .error ⟨"task 7 was cancelled"⟩) files.read ["a"] =
        ⟨1, "", "Error: Analysis task failed: task 7 was cancelled\n"⟩ := by
  let fewer := FileTree.empty.add "a" (.file "HLT".toUTF8)
  let files := fewer.add "b" (.file ⟨#[0xff]⟩)
  have hread : files.read "a" = .ok "HLT".toUTF8 := rfl
  have hsource : (readSource "a" (files.read "a")).1 = .ok "HLT" := rfl
  have herror : (readSource "b" (files.read "b")).1 = .error (.invalidUtf8 "b") := rfl
  have hfewer : fewer.read "a" = files.read "a" := rfl
  obtain ⟨hended, hpath, -⟩ := run_outcome Worker.inPlace files.read
  obtain ⟨-, hreport⟩ := hended Worker.completes_inPlace
  obtain ⟨-, -, hcancelled⟩ := run_outcome (fun _ => .error ⟨"task 7 was cancelled"⟩) files.read
  refine ⟨files, fewer, ?_, ?_, ?_, ?_, ?_⟩
  · exact (hreport "a" ["b"] "HLT").1 hsource
  · exact (hreport "a" [] "HLT").2 hread
  · exact ((hpath "b" ["a"]).1 _ herror).1
  · exact (hpath "a" ["b"]).2 fewer.read [] hfewer
  · exact (hcancelled _).2 "a" [] "HLT" hsource rfl

end Lex8086.CommandLine
