import Clausal.Builtin.Build
import Clausal.Proofs.ConfigSources
import Clausal.Proofs.LastModel
import Clausal.Proofs.LoadOutcome
import Clausal.Proofs.WrittenText

/-!
# The contract of the program

A report logs first and answers last (`Tells`).  A run whose sources are all readable and accepted
ends in the report of a solve, and every other run ends in an error without an answer.  So the exit
code, the status line and the line of the model agree with what the input means (`run_contract`).
Which command lines and which texts are accepted makes no difference to this.
-/

set_option autoImplicit false

namespace Clausal.CommandLine

/-! ## Reports -/

def Line.answer? : Line → Option String
  | .text written => some written
  | .record _ | .elapsed | .failure _ => none

def Report.answer (report : Report) : List String := report.lines.filterMap Line.answer?

def logTexts (admits : Record → Bool) (time : String) (lines : List Line) : List String :=
  ((lines.filterMap (Line.record? time)).filter admits).map Line.recordText

def IsLog (lines : List Line) : Prop := ∀ line ∈ lines, line.answer? = none

/-- A report with an exit code that logs first and answers last. -/
structure Tells (report : Report) (code : Nat) (answer : List String) : Prop where
  exitCode : report.exitCode = code
  lines : ∃ log, IsLog log ∧ report.lines = log ++ answer.map Line.text

section Tells

variable {report : Report} {code : Nat} {answer : List String} {lines : List Line}

theorem isLog_logLines (log : Array Record) : IsLog (logLines log) := by
  intro line member
  obtain ⟨entry, _, isRecord⟩ := List.mem_map.mp member
  rw [← isRecord]
  rfl

theorem IsLog.append {more : List Line} (isLog : IsLog lines) (moreLog : IsLog more) :
    IsLog (lines ++ more) := by
  intro line member
  rcases List.mem_append.mp member with first | second
  · exact isLog line first
  · exact moreLog line second

theorem Tells.after (tells : Tells report code answer) (isLog : IsLog lines) :
    Tells (report.after lines) code answer := by
  obtain ⟨log, logs, isLines⟩ := tells.lines
  refine ⟨tells.exitCode, lines ++ log, isLog.append logs, ?_⟩
  rw [Report.after, isLines, List.append_assoc]

theorem after_after (report : Report) (first second : List Line) :
    (report.after first).after second = report.after (second ++ first) := by
  rw [Report.after, Report.after, Report.after, List.append_assoc]

theorem Tells.answer_eq (tells : Tells report code answer) : report.answer = answer := by
  obtain ⟨log, isLog, isLines⟩ := tells.lines
  have noneInLog : log.filterMap Line.answer? = [] := List.filterMap_eq_nil_iff.mpr isLog
  rw [Report.answer, isLines, List.filterMap_append, noneInLog, List.nil_append,
    List.filterMap_map]
  exact List.filterMap_some

theorem filterMap_print?_of_isLog (isLog : IsLog lines) (admits : Record → Bool) (time : String) :
    lines.filterMap (Line.print? admits time) = logTexts admits time lines := by
  induction lines with
  | nil => rfl
  | cons line rest inductionHypothesis =>
      have restLog : IsLog rest := fun other member => isLog other (by simp [member])
      obtain ⟨entry, isRecord, isPrint⟩ : ∃ entry, line.record? time = some entry ∧
          line.print? admits time =
            if admits entry then some (Line.recordText entry) else none := by
        cases line with
        | text written => exact absurd (isLog (.text written) (by simp)) (by simp [Line.answer?])
        | record entry => exact ⟨entry, rfl, rfl⟩
        | elapsed => exact ⟨_, rfl, rfl⟩
        | failure cause => exact ⟨_, rfl, rfl⟩
      rw [List.filterMap_cons, isPrint, logTexts, List.filterMap_cons, isRecord, List.filter_cons,
        inductionHypothesis restLog]
      by_cases passes : admits entry
      · rw [if_pos passes, if_pos passes, List.map_cons]
        rfl
      · rw [if_neg passes, if_neg passes]
        rfl

theorem Tells.printed_eq (tells : Tells report code answer) (admits : Record → Bool)
    (time : String) :
    report.printed admits time = logTexts admits time report.lines ++ report.answer := by
  obtain ⟨log, isLog, isLines⟩ := tells.lines
  have noRecord : (answer.map Line.text).filterMap (Line.record? time) = [] := by
    simp [List.filterMap_eq_nil_iff, Line.record?]
  have allPrinted : (answer.map Line.text).filterMap (Line.print? admits time) = answer := by
    rw [List.filterMap_map]
    exact List.filterMap_some
  rw [tells.answer_eq, Report.printed, isLines, List.filterMap_append, allPrinted,
    filterMap_print?_of_isLog isLog, logTexts, logTexts, List.filterMap_append, noRecord,
    List.append_nil]

theorem head?_recordText (entry : Record) : (Line.recordText entry).toList.head? = some 'c' := by
  have start : "c ".toList = ['c', ' '] := by decide
  rw [Line.recordText]
  split <;> simp [toString, start]

theorem head?_of_mem_logTexts {admits : Record → Bool} {time text : String}
    (member : text ∈ logTexts admits time lines) : text.toList.head? = some 'c' := by
  obtain ⟨entry, _, isText⟩ := List.mem_map.mp member
  rw [← isText]
  exact head?_recordText entry

theorem tells_failure (failure : Failure) : Tells (failureReport failure) 1 [] :=
  ⟨rfl, [.failure failure], by simp [IsLog, Line.answer?], rfl⟩

end Tells

/-! ## The report of a solve -/

/-- The line of a model, which is a `v` and then what is written for a clause. -/
def modelLine (model : List Lit) : String :=
  String.ofList (spaced (['v'] :: Dimacs.clauseWords model))

theorem spaced_clauseWords (word : List Char) (lits : List Lit) :
    spaced (word :: Dimacs.clauseWords lits) =
      word ++ lits.flatMap (fun l => ' ' :: l.text) ++ [' ', '0'] := by
  induction lits generalizing word with
  | nil =>
      rw [Dimacs.clauseWords, Numeral.integer_zero, List.flatMap_nil, List.append_nil]
      exact spaced_cons word (List.cons_ne_nil _ _)
  | cons l rest inductionHypothesis =>
      have firstWord : Dimacs.clauseWords (l :: rest) = l.text :: Dimacs.clauseWords rest := rfl
      rw [firstWord, spaced_cons word (List.cons_ne_nil _ _), inductionHypothesis,
        List.flatMap_cons]
      simp only [List.append_assoc, List.cons_append]

theorem modelText_eq (model : List Lit) : modelText model = modelLine model := by
  have start : "v".toList = ['v'] := by decide
  have zero : " 0".toList = [' ', '0'] := by decide
  have eachLit : ∀ l : Lit, (s!" {l}").toList = ' ' :: l.text := by
    intro l
    simp [toString]
  rw [← String.toList_inj, modelText, modelLine, String.toList_ofList, spaced_clauseWords,
    String.toList_append, String.toList_append, String.toList_join, start, zero, List.flatMap_map]
  simp only [eachLit]

inductive Concludes (clauses : List (List Lit)) (procedure : Procedure) (report : Report) : Prop
  | model (model : List Lit) (satisfiable : Satisfiable clauses) (builds : procedure ≠ .resolution)
      (ascending : model.Pairwise fun l k => l.var < k.var)
      (fits : ∀ lits ∈ clauses, Proper lits → ∃ l ∈ lits, l ∈ model)
      (tells : Tells report 10 ["s SATISFIABLE", modelLine model])
  | satisfiable (satisfiable : Satisfiable clauses) (buildsNone : procedure = .resolution)
      (tells : Tells report 10 ["s SATISFIABLE"])
  | unsatisfiable (unsatisfiable : ¬Satisfiable clauses)
      (tells : Tells report 20 ["s UNSATISFIABLE"])

theorem solveReport_concludes (solver : Solver) :
    Concludes solver.formula.clauses solver.config.procedure (solveReport solver) := by
  obtain ⟨⟨sat, found⟩, settled, builds, answered, shows⟩ := Solver.model_solve solver
  have fits := Solver.modelFits_solve solver
  rw [Solver.ModelFits, Solver.formula_solve] at fits
  have logsFirst : ∀ {code answer}, Tells (verdictReport solver.solve.solver sat) code answer →
      Tells (solveReport solver) code answer := by
    intro code answer tells
    simp only [solveReport, answered]
    exact (tells.after (by simp [IsLog, Line.answer?])).after (isLog_logLines _)
  cases sat with
  | false =>
      refine .unsatisfiable (fun satisfiable => ?_) (logsFirst ⟨rfl, [], by simp [IsLog], rfl⟩)
      cases settled.sat_iff.mpr satisfiable
  | true =>
      have satisfiable := settled.sat_iff.mp rfl
      cases found with
      | none =>
          have buildsNone : solver.config.procedure = .resolution := by
            by_contra other
            cases builds.mpr ⟨rfl, other⟩
          refine .satisfiable satisfiable buildsNone (logsFirst ⟨rfl, [], by simp [IsLog], ?_⟩)
          simp only [verdictReport, shows]
          rfl
      | some assignment =>
          obtain ⟨ascending, inClauses⟩ := fits assignment.trueLits shows
          refine .model assignment.trueLits satisfiable (builds.mp rfl).2 ascending inClauses
            (logsFirst ⟨rfl, [], by simp [IsLog], ?_⟩)
          simp only [verdictReport, shows, ← modelText_eq]
          rfl

theorem Concludes.after {clauses : List (List Lit)} {procedure : Procedure} {report : Report}
    (concludes : Concludes clauses procedure report) {lines : List Line} (isLog : IsLog lines) :
    Concludes clauses procedure (report.after lines) := by
  cases concludes with
  | model model satisfiable builds ascending fits tells =>
      exact .model model satisfiable builds ascending fits (tells.after isLog)
  | satisfiable satisfiable buildsNone tells =>
      exact .satisfiable satisfiable buildsNone (tells.after isLog)
  | unsatisfiable unsatisfiable tells => exact .unsatisfiable unsatisfiable (tells.after isLog)

theorem Concludes.exists_tells {clauses : List (List Lit)} {procedure : Procedure} {report : Report}
    (concludes : Concludes clauses procedure report) : ∃ code answer, Tells report code answer := by
  cases concludes with
  | model _ _ _ _ _ tells => exact ⟨_, _, tells⟩
  | satisfiable _ _ tells => exact ⟨_, _, tells⟩
  | unsatisfiable _ tells => exact ⟨_, _, tells⟩

theorem Concludes.exitCode_ne_panic {clauses : List (List Lit)} {procedure : Procedure}
    {report : Report} (concludes : Concludes clauses procedure report) : report.exitCode ≠ 101 := by
  cases concludes with
  | model _ _ _ _ _ tells => simp [tells.exitCode]
  | satisfiable _ _ tells => simp [tells.exitCode]
  | unsatisfiable _ tells => simp [tells.exitCode]

/-- A printed line that starts like the line of a model. -/
def IsModelLine (line : String) : Prop := line.toList.head? = some 'v'

theorem isModelLine_modelLine (model : List Lit) : IsModelLine (modelLine model) := by
  rw [IsModelLine, modelLine, String.toList_ofList,
    head?_spaced (isWord_of_all (List.cons_ne_nil _ _) rfl)]
  rfl

theorem not_isModelLine_sat : ¬IsModelLine "s SATISFIABLE" := by
  unfold IsModelLine
  decide

theorem not_isModelLine_unsat : ¬IsModelLine "s UNSATISFIABLE" := by
  unfold IsModelLine
  decide

structure Agrees (clauses : List (List Lit)) (procedure : Procedure) (report : Report) : Prop where
  sat_code : report.exitCode = 10 ↔ Satisfiable clauses
  sat_line : "s SATISFIABLE" ∈ report.answer ↔ Satisfiable clauses
  unsat_code : report.exitCode = 20 ↔ ¬Satisfiable clauses
  unsat_line : "s UNSATISFIABLE" ∈ report.answer ↔ ¬Satisfiable clauses
  model_line : (∃ line ∈ report.answer, IsModelLine line) ↔
    Satisfiable clauses ∧ (procedure = .dp ∨ procedure = .dpll)
  model : ∀ line ∈ report.answer, IsModelLine line → ∃ model, line = modelLine model ∧
    model.Pairwise (fun l k => l.var < k.var) ∧
    ∀ lits ∈ clauses, Proper lits → ∃ l ∈ lits, l ∈ model

theorem Concludes.agrees {clauses : List (List Lit)} {procedure : Procedure} {report : Report}
    (concludes : Concludes clauses procedure report) : Agrees clauses procedure report := by
  have buildsIff : (procedure = .dp ∨ procedure = .dpll) ↔ procedure ≠ .resolution := by
    cases procedure <;> decide
  cases concludes with
  | model m satisfiable builds ascending fits tells =>
      have isModel := isModelLine_modelLine m
      have notUnsat : "s UNSATISFIABLE" ≠ modelLine m := by
        intro same
        rw [← same] at isModel
        exact not_isModelLine_unsat isModel
      constructor
      case model =>
        intro line member starts
        rw [tells.answer_eq] at member
        rcases List.mem_pair.mp member with isStatus | isLine
        · rw [isStatus] at starts
          exact absurd starts not_isModelLine_sat
        · exact ⟨m, isLine, ascending, fits⟩
      all_goals
        simp [tells.exitCode, tells.answer_eq, satisfiable, buildsIff, builds, isModel, notUnsat]
  | satisfiable satisfiable buildsNone tells =>
      constructor <;>
        simp [tells.exitCode, tells.answer_eq, satisfiable, buildsNone, not_isModelLine_sat]
  | unsatisfiable unsatisfiable tells =>
      constructor <;>
        simp [tells.exitCode, tells.answer_eq, unsatisfiable, not_isModelLine_unsat]

/-! ## Runs -/

section Runs

variable {build : Build} {environment : Environment} {values : Values} {options : List String}

/-- The bytes of the input, which is a file or standard input and can be read to the end. -/
inductive IsInput (environment : Environment) : Option (List UInt8) → List UInt8 → Prop
  | stdin {bytes : List UInt8} (delivers : Dimacs.delivery environment.stdin = (bytes, none)) :
      IsInput environment none bytes
  | file {path bytes : List UInt8} (holds : FileHolds environment path bytes) :
      IsInput environment (some path) bytes

/-- All that a run reads is readable and accepted, and gives a configuration and a formula. -/
structure Accepts (build : Build) (environment : Environment) (values : Values) (config : Config)
    (formula : Formula) : Prop where
  configured : IsConfig build environment values config
  loaded : ∃ bytes, IsInput environment values.input bytes ∧
    Dimacs.parse [.bytes bytes] = .ok formula

/-- A value that is read as a text is none.  The input file comes last, after the configuration. -/
inductive ReadsNoText (build : Build) (environment : Environment) (values : Values) : Prop
  | configOption {value : List UInt8} (given : value ∈ values.configOptions)
      (noText : Utf8.decode? value = none)
  | configFile {path : List UInt8} (given : path ∈ values.configFile)
      (noText : Utf8.decode? path = none)
  | input {path : List UInt8} {config : Config}
      (configured : IsConfig build environment values config) (given : path ∈ values.input)
      (noText : Utf8.decode? path = none)

def solverWith (config : Config) (formula : Formula) : Solver :=
  { Solver.new with config }.addFormula formula

theorem clauses_solverWith (config : Config) (formula : Formula) :
    (solverWith config formula).formula.clauses = formula.clauses :=
  Formula.clauses_append .empty formula

theorem input_eq_none_iff :
    values.input.mapM Utf8.decode? = none ↔ ∃ path ∈ values.input, Utf8.decode? path = none := by
  cases values.input with
  | none => simp
  | some path => simp

theorem isInput_iff {path : Option String} {bytes : List UInt8}
    (isPath : values.input.mapM Utf8.decode? = some path) :
    IsInput environment values.input bytes ↔
      ∃ pieces, (openInput environment path).2 = .ok pieces ∧
        Dimacs.delivery pieces = (bytes, none) := by
  cases given : values.input with
  | none =>
      rw [given] at isPath
      cases isPath
      constructor
      · rintro ⟨delivers⟩
        exact ⟨_, rfl, delivers⟩
      · rintro ⟨pieces, opened, delivers⟩
        cases opened
        exact .stdin delivers
  | some input =>
      rw [given] at isPath
      cases isName : Utf8.decode? input with
      | none => simp [isName] at isPath
      | some name =>
          obtain rfl : some name = path := by simpa [isName] using isPath
          constructor
          · rintro (_ | ⟨other, pieces, isOther, opened, delivers⟩)
            obtain rfl : name = other := Option.some_inj.mp (isName.symm.trans isOther)
            exact ⟨pieces, by simp only [openInput, opened], delivers⟩
          · rintro ⟨pieces, isOpened, delivers⟩
            cases opened : environment.openFile name with
            | error failure =>
                simp only [openInput, opened] at isOpened
                cases isOpened
            | ok others =>
                simp only [openInput, opened, Except.ok.injEq] at isOpened
                exact .file ⟨name, others, isName, opened, isOpened ▸ delivers⟩

theorem isLog_banner : IsLog (banner build) := by
  simp [IsLog, banner, Line.answer?]

theorem isLog_openInput (path : Option String) : IsLog [(openInput environment path).1] := by
  cases path <;> simp [IsLog, openInput, Line.answer?]

theorem loadReport_of_accepted (solver : Solver) {pieces : List Dimacs.Piece} {bytes : List UInt8}
    {formula : Formula} (delivers : Dimacs.delivery pieces = (bytes, none))
    (accepted : Dimacs.parse [.bytes bytes] = .ok formula) :
    ∃ log, IsLog log ∧
      loadReport solver pieces = (solveReport (solver.addFormula formula)).after log := by
  obtain ⟨answered, after⟩ :
      (solver.addDimacs pieces).answer = .ok () ∧
        (solver.addDimacs pieces).solver = solver.addFormula formula := by
    apply addDimacs_of_accepted
    · rw [delivers]
    · rw [delivers]
      exact accepted
  refine ⟨_, isLog_logLines (solver.addDimacs pieces).log, ?_⟩
  simp only [loadReport, answered, after]

theorem loadReport_of_refused (solver : Solver) {pieces : List Dimacs.Piece}
    (refused : ∀ bytes formula, Dimacs.delivery pieces = (bytes, none) →
      Dimacs.parse [.bytes bytes] ≠ .ok formula) :
    Tells (loadReport solver pieces) 1 [] := by
  cases answered : (solver.addDimacs pieces).answer with
  | error error =>
      simp only [loadReport, answered]
      exact (tells_failure _).after (isLog_logLines _)
  | ok done =>
      obtain ⟨arrived, formula, accepted⟩ := accepted_of_addDimacs answered
      exact absurd accepted (refused _ formula (Prod.ext rfl arrived))

theorem AreTexts.decode?_ne_none (areTexts : AreTexts values.configOptions options) :
    ∀ value ∈ values.configOptions, Utf8.decode? value ≠ none := by
  intro value given noText
  have notTexts := mapM_decode?_eq_none_iff.mpr ⟨value, given, noText⟩
  rw [areTexts_iff.mp areTexts] at notTexts
  cases notTexts

theorem not_readsNoText (areTexts : AreTexts values.configOptions options)
    (fileIsText : ∀ path ∈ values.configFile, Utf8.decode? path ≠ none)
    (inputIsText : ∀ config, IsConfig build environment values config →
      ∀ path ∈ values.input, Utf8.decode? path ≠ none) :
    ¬ReadsNoText build environment values := by
  rintro (⟨given, noText⟩ | ⟨given, noText⟩ | ⟨configured, given, noText⟩)
  · exact areTexts.decode?_ne_none _ given noText
  · exact fileIsText _ given noText
  · exact inputIsText _ configured _ given noText

theorem Accepts.readsTexts {config : Config} {formula : Formula}
    (accepts : Accepts build environment values config formula) :
    ¬ReadsNoText build environment values := by
  obtain ⟨options, fileTexts, fromFile, fromOptions, areTexts, isTexts, givesFile, _, _⟩ :=
    accepts.configured
  obtain ⟨bytes, isInput, _⟩ := accepts.loaded
  have fileIsText := isText_of_fileUpdate (fileUpdate_of_fileTexts isTexts givesFile)
  refine not_readsNoText areTexts fileIsText fun _ _ path given noText => ?_
  rw [Option.mem_def] at given
  rw [given] at isInput
  cases isInput with
  | file holds =>
      obtain ⟨name, _, isName, _⟩ := holds
      rw [noText] at isName
      cases isName

theorem runValues_of_accepts (named : values.NameProcedure)
    (areTexts : AreTexts values.configOptions options) {config : Config} {formula : Formula}
    (accepts : Accepts build environment values config formula) :
    ∃ log, IsLog log ∧ runValues build environment values options =
      (solveReport (solverWith config formula)).after log := by
  obtain ⟨update, configured, isConfig⟩ := (isConfig_iff named areTexts).mp accepts.configured
  obtain ⟨bytes, isInput, accepted⟩ := accepts.loaded
  cases isPath : values.input.mapM Utf8.decode? with
  | none =>
      obtain ⟨path, given, noText⟩ := input_eq_none_iff.mp isPath
      exact absurd (.input accepts.configured given noText) accepts.readsTexts
  | some path =>
      obtain ⟨pieces, opened, delivers⟩ := (isInput_iff isPath).mp isInput
      obtain ⟨log, isLog, loaded⟩ :=
        loadReport_of_accepted (Solver.new.configure update) delivers accepted
      refine ⟨[(openInput environment path).1] ++ log, (isLog_openInput path).append isLog, ?_⟩
      simp only [runValues, configured, isPath, inputReport, opened, loaded, after_after]
      rw [solverWith, ← isConfig]
      rfl

/-- How a run ends without an answer: with an error, or with a panic at a value that is no text. -/
inductive Refuses (build : Build) (environment : Environment) (values : Values)
    (report : Report) : Prop
  | failed (readsTexts : ¬ReadsNoText build environment values) (tells : Tells report 1 [])
  | panicked (readsNoText : ReadsNoText build environment values) (tells : Tells report 101 [])

theorem Refuses.after {report : Report} (refuses : Refuses build environment values report)
    {lines : List Line} (isLog : IsLog lines) :
    Refuses build environment values (report.after lines) := by
  cases refuses with
  | failed readsTexts tells => exact .failed readsTexts (tells.after isLog)
  | panicked readsNoText tells => exact .panicked readsNoText (tells.after isLog)

theorem Refuses.exists_tells {report : Report}
    (refuses : Refuses build environment values report) : ∃ code, Tells report code [] := by
  cases refuses with
  | failed _ tells => exact ⟨1, tells⟩
  | panicked _ tells => exact ⟨101, tells⟩

theorem Refuses.answer_eq {report : Report} (refuses : Refuses build environment values report) :
    report.answer = [] := by
  obtain ⟨_, tells⟩ := refuses.exists_tells
  exact tells.answer_eq

theorem Refuses.exitCode_eq_panic_iff {report : Report}
    (refuses : Refuses build environment values report) :
    report.exitCode = 101 ↔ ReadsNoText build environment values := by
  cases refuses with
  | failed readsTexts tells => simp [tells.exitCode, readsTexts]
  | panicked readsNoText tells => simp [tells.exitCode, readsNoText]

theorem Refuses.exitCode_eq {report : Report} (refuses : Refuses build environment values report) :
    report.exitCode = 1 ∨ report.exitCode = 101 := by
  cases refuses with
  | failed _ tells => exact .inl tells.exitCode
  | panicked _ tells => exact .inr tells.exitCode

theorem tells_panic : Tells panicReport 101 [] := ⟨rfl, [], by simp [IsLog], rfl⟩

theorem inputReport_of_refused {update : ConfigUpdate} {path : Option String}
    (isPath : values.input.mapM Utf8.decode? = some path)
    (isConfig : IsConfig build environment values (Config.apply {} update))
    (refused : ∀ config formula, ¬Accepts build environment values config formula) :
    Tells (inputReport environment (Solver.new.configure update) path) 1 [] := by
  cases opened : (openInput environment path).2 with
  | error failure =>
      simp only [inputReport, opened]
      exact (tells_failure failure).after (isLog_openInput path)
  | ok pieces =>
      simp only [inputReport, opened]
      refine Tells.after (loadReport_of_refused _ fun bytes formula delivers accepted => ?_)
        (isLog_openInput path)
      have isInput := (isInput_iff isPath).mpr ⟨pieces, opened, delivers⟩
      exact refused _ formula ⟨isConfig, bytes, isInput, accepted⟩

theorem runValues_of_refused (named : values.NameProcedure)
    (areTexts : AreTexts values.configOptions options)
    (refused : ∀ config formula, ¬Accepts build environment values config formula) :
    Refuses build environment values (runValues build environment values options) := by
  rcases @configEnds build environment values options named areTexts with
    ⟨update, ends, fileIsText, isConfig⟩ | ⟨cause, ends, fileIsText, noConfig⟩ |
    ⟨path, ends, given, noText, _⟩
  · cases isPath : values.input.mapM Utf8.decode? with
    | none =>
        obtain ⟨path, given, noText⟩ := input_eq_none_iff.mp isPath
        simp only [runValues, ends, isPath]
        exact .panicked (.input isConfig given noText) tells_panic
    | some path =>
        simp only [runValues, ends, isPath]
        refine .failed (not_readsNoText areTexts fileIsText fun _ _ input given noText => ?_)
          (inputReport_of_refused isPath isConfig refused)
        rw [input_eq_none_iff.mpr ⟨input, given, noText⟩] at isPath
        cases isPath
  · simp only [runValues, ends]
    refine .failed (not_readsNoText areTexts fileIsText ?_) (tells_failure cause)
    exact fun config configured => absurd configured (noConfig config)
  · simp only [runValues, ends]
    exact .panicked (.configFile given noText) tells_panic

section Run

variable {arguments : List (List UInt8)} (parsed : build.parseArguments arguments = .values values)
  (noHelp : ∀ option ∈ values.configOptions, Utf8.decode? option ≠ some "help")
include parsed noHelp

theorem run_eq_runValues (areTexts : AreTexts values.configOptions options) :
    run build environment arguments =
      (runValues build environment values options).after (banner build) := by
  have notHelp : "help" ∉ options := by
    intro member
    obtain ⟨option, given, isHelp⟩ := areTexts.exists_value member
    exact noHelp option given isHelp
  simp only [run, parsed, areTexts_iff.mp areTexts, List.contains_iff_mem, notHelp, if_false]

variable (documented : build.Documented)
include documented

theorem run_of_accepts {config : Config} {formula : Formula}
    (accepts : Accepts build environment values config formula) :
    ∃ log, IsLog log ∧
      run build environment arguments = (solveReport (solverWith config formula)).after log := by
  obtain ⟨options, _, _, _, areTexts, _⟩ := accepts.configured
  obtain ⟨log, isLog, solves⟩ :=
    runValues_of_accepts (documented arguments values parsed) areTexts accepts
  refine ⟨banner build ++ log, isLog_banner.append isLog, ?_⟩
  rw [run_eq_runValues parsed noHelp areTexts, solves, after_after]

theorem run_of_refused
    (refused : ∀ config formula, ¬Accepts build environment values config formula) :
    Refuses build environment values (run build environment arguments) := by
  cases areTexts : values.configOptions.mapM Utf8.decode? with
  | none =>
      obtain ⟨option, given, noText⟩ := mapM_decode?_eq_none_iff.mp areTexts
      simp only [run, parsed, areTexts]
      exact .panicked (.configOption given noText) tells_panic
  | some options =>
      rw [← areTexts_iff] at areTexts
      rw [run_eq_runValues parsed noHelp areTexts]
      exact (runValues_of_refused (documented arguments values parsed) areTexts refused).after
        isLog_banner

end Run

/-- What holds exactly of the accepted inputs with a property. -/
theorem iff_exists_accepts {statement : Prop} {property : Config → Formula → Prop}
    (onAccepted : ∀ config formula, Accepts build environment values config formula →
      (statement ↔ property config formula))
    (onRefused : (∀ config formula, ¬Accepts build environment values config formula) →
      ¬statement) :
    statement ↔ ∃ config formula, Accepts build environment values config formula ∧
      property config formula := by
  constructor
  · intro holds
    by_contra none
    refine onRefused (fun config formula accepts => none ?_) holds
    exact ⟨config, formula, accepts, (onAccepted config formula accepts).mp holds⟩
  · intro accepted
    obtain ⟨config, formula, accepts, has⟩ := accepted
    exact (onAccepted config formula accepts).mpr has

/-- What a report owes to the environment and the values of a run. -/
structure Contract (build : Build) (environment : Environment) (values : Values)
    (report : Report) : Prop where
  /-- Log records come first, and each of their texts starts as a comment. -/
  printed : ∀ admits time,
    report.printed admits time = logTexts admits time report.lines ++ report.answer ∧
      ∀ text ∈ logTexts admits time report.lines, text.toList.head? = some 'c'
  sat_code : report.exitCode = 10 ↔ ∃ config formula,
    Accepts build environment values config formula ∧ Satisfiable formula.clauses
  sat_line : "s SATISFIABLE" ∈ report.answer ↔ ∃ config formula,
    Accepts build environment values config formula ∧ Satisfiable formula.clauses
  unsat_code : report.exitCode = 20 ↔ ∃ config formula,
    Accepts build environment values config formula ∧ ¬Satisfiable formula.clauses
  unsat_line : "s UNSATISFIABLE" ∈ report.answer ↔ ∃ config formula,
    Accepts build environment values config formula ∧ ¬Satisfiable formula.clauses
  refused : (∀ config formula, ¬Accepts build environment values config formula) →
    report.answer = [] ∧ (¬ReadsNoText build environment values → report.exitCode = 1)
  panics : report.exitCode = 101 ↔ ReadsNoText build environment values
  model_line : (∃ line ∈ report.answer, IsModelLine line) ↔ ∃ config formula,
    Accepts build environment values config formula ∧ Satisfiable formula.clauses ∧
      (config.procedure = .dp ∨ config.procedure = .dpll)
  model : ∀ line ∈ report.answer, IsModelLine line → ∀ config formula,
    Accepts build environment values config formula → ∃ model, line = modelLine model ∧
      model.Pairwise (fun l k => l.var < k.var) ∧
      ∀ lits ∈ formula.clauses, Proper lits → ∃ l ∈ lits, l ∈ model
  /-- The configuration in effect is the one that the sources make. -/
  effective : ∀ config formula, Accepts build environment values config formula →
    ∃ log, IsLog log ∧ report = (solveReport (solverWith config formula)).after log

end Runs

/-- A run with a well-formed command line that does not ask for help keeps the contract. -/
theorem run_contract {build : Build} (documented : build.Documented) (environment : Environment)
    {arguments : List (List UInt8)} {values : Values}
    (parsed : build.parseArguments arguments = .values values)
    (noHelp : ∀ option ∈ values.configOptions, Utf8.decode? option ≠ some "help") :
    Contract build environment values (run build environment arguments) := by
  have refuses := @run_of_refused build environment values arguments parsed noHelp documented
  have concludes : ∀ config formula, Accepts build environment values config formula →
      Concludes formula.clauses config.procedure (run build environment arguments) := by
    intro config formula accepts
    obtain ⟨log, isLog, isReport⟩ := run_of_accepts parsed noHelp documented accepts
    rw [isReport, ← clauses_solverWith config formula]
    exact (solveReport_concludes (solverWith config formula)).after isLog
  have agrees := fun config formula accepts => (concludes config formula accepts).agrees
  have refusedCode : ∀ code, code ≠ 1 → code ≠ 101 →
      (∀ config formula, ¬Accepts build environment values config formula) →
      (run build environment arguments).exitCode ≠ code := by
    intro code notFailed notPanicked none
    rcases (refuses none).exitCode_eq with isCode | isCode <;> rw [isCode] <;> exact Ne.symm ‹_›
  constructor
  case printed =>
    intro admits time
    refine ⟨?_, fun text member => head?_of_mem_logTexts member⟩
    -- The answer comes last in both kinds of reports.
    by_cases accepted : ∃ config formula, Accepts build environment values config formula
    · obtain ⟨config, formula, accepts⟩ := accepted
      obtain ⟨_, _, tells⟩ := (concludes config formula accepts).exists_tells
      exact tells.printed_eq admits time
    · simp only [not_exists] at accepted
      obtain ⟨_, tells⟩ := (refuses accepted).exists_tells
      exact tells.printed_eq admits time
  case sat_code =>
    exact iff_exists_accepts (fun config formula accepts => (agrees _ _ accepts).sat_code)
      (refusedCode 10 (by decide) (by decide))
  case sat_line =>
    refine iff_exists_accepts (fun config formula accepts => (agrees _ _ accepts).sat_line) ?_
    intro none
    simp [(refuses none).answer_eq]
  case unsat_code =>
    exact iff_exists_accepts (fun config formula accepts => (agrees _ _ accepts).unsat_code)
      (refusedCode 20 (by decide) (by decide))
  case unsat_line =>
    refine iff_exists_accepts (fun config formula accepts => (agrees _ _ accepts).unsat_line) ?_
    intro none
    simp [(refuses none).answer_eq]
  case refused =>
    intro none
    refine ⟨(refuses none).answer_eq, fun readsTexts => ?_⟩
    refine (refuses none).exitCode_eq.resolve_right fun panics => ?_
    exact readsTexts ((refuses none).exitCode_eq_panic_iff.mp panics)
  case panics =>
    by_cases accepted : ∃ config formula, Accepts build environment values config formula
    · obtain ⟨config, formula, accepts⟩ := accepted
      exact iff_of_false (concludes config formula accepts).exitCode_ne_panic accepts.readsTexts
    · simp only [not_exists] at accepted
      exact (refuses accepted).exitCode_eq_panic_iff
  case model_line =>
    refine iff_exists_accepts (fun config formula accepts => (agrees _ _ accepts).model_line) ?_
    intro none
    simp [(refuses none).answer_eq]
  case model =>
    intro line member isModel config formula accepts
    exact (agrees config formula accepts).model line member isModel
  case effective =>
    exact fun config formula accepts => run_of_accepts parsed noHelp documented accepts

def withFile (name : String) (content : List UInt8) : Environment where
  logSetting := none
  openFile path := if path = name then .ok [.bytes content] else .error .notFound
  stdin := []

/-- The procedure that is asked for wins over the option before it, so the clause of the file gets a
model. -/
theorem run_contract_procedure_last :
    let environment := withFile "in.cnf" [49, 32, 48, 10]
    let arguments := ["-C", "procedure=\"resolution\"", "--procedure=DP", "in.cnf"].map Utf8.encode
    builtin.Documented ∧ (run builtin environment arguments).exitCode = 10 ∧
      ∃ line ∈ (run builtin environment arguments).answer, IsModelLine line := by
  intro environment arguments
  let option := Utf8.encode "procedure=\"resolution\""
  let values : Values := ⟨some (Utf8.encode "in.cnf"), none, [option], some (Utf8.encode "DP")⟩
  have parsed : builtin.parseArguments arguments = .values values := by decide +kernel
  have noHelp : ∀ option ∈ values.configOptions, Utf8.decode? option ≠ some "help" := by
    decide +kernel
  have contract := run_contract documented_builtin environment parsed noHelp
  have areTexts : AreTexts values.configOptions ["procedure=\"resolution\""] :=
    .cons (by decide +kernel) .nil
  have gives : GivesUpdate builtin "procedure=\"resolution\"" { procedure := some .resolution } := by
    unfold GivesUpdate
    decide +kernel
  have named : procedureNamed? (Utf8.encode "DP") = some .dp := by decide +kernel
  have isConfig : IsConfig builtin environment values ⟨.dp, true, true⟩ := by
    refine ⟨_, [], [], _, areTexts, .noFile, .nil, .cons gives .nil, ?_⟩
    rw [Option.bind_some, named]
    rfl
  have isInput : IsInput environment values.input [49, 32, 48, 10] := by
    refine .file ⟨"in.cnf", [.bytes [49, 32, 48, 10]], by decide +kernel, rfl, ?_⟩
    exact Dimacs.delivery_bytes _
  have isRun : Dimacs.Parser.new.run [[49, 32, 48, 10]] =
      (⟨.ofClauses [[⟨0, by omega⟩]], #[], none, 2, 1, 1, false⟩, .ok ()) := rfl
  have accepts : Accepts builtin environment values ⟨.dp, true, true⟩
      (.ofClauses [[⟨0, by omega⟩]]) :=
    ⟨isConfig, _, isInput, Dimacs.parse_of_run_ok isRun⟩
  have satisfiable : Satisfiable (Formula.ofClauses [[⟨0, by omega⟩]]).clauses := by
    rw [Formula.clauses_ofClauses]
    exact ⟨fun _ => true, by simp [Valuation.Models, Valuation.Satisfies, Lit.Holds, Lit.isPositive]⟩
  exact ⟨documented_builtin, contract.sat_code.mpr ⟨_, _, accepts, satisfiable⟩,
    contract.model_line.mpr ⟨_, _, accepts, satisfiable, .inl rfl⟩⟩

/-- The record that names the input goes over several lines if its path does, and one of them can
look like a model where there is no answer.  A path that is no text makes the program panic. -/
theorem run_unusual_paths :
    let environment := withFile "in.cnf" []
    let lineBreaks := [Utf8.encode "in\nv 1 0\n.cnf"]
    let noText := [[0xFF]]
    (builtin.parseArguments lineBreaks = .values ⟨lineBreaks.head?, none, [], none⟩ ∧
      (run builtin environment lineBreaks).exitCode = 1 ∧
      ∃ before after, before ++ "\nv 1 0\n" ++ after ∈
        (run builtin environment lineBreaks).printed (logFilter builtin environment) "0.000s") ∧
    builtin.parseArguments noText = .values ⟨noText.head?, none, [], none⟩ ∧
      (run builtin environment noText).exitCode = 101 := by
  intro environment lineBreaks noText
  refine ⟨⟨by decide +kernel, by decide +kernel, "c Reading file 'in", ".cnf'", ?_⟩,
    by decide +kernel, by decide +kernel⟩
  decide +kernel

end Clausal.CommandLine
