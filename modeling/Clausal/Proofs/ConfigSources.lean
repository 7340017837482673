import Mathlib.Data.List.Forall2
import Mathlib.Data.List.Induction
import Clausal.CommandLine.Program
import Clausal.Proofs.LoadOutcome

/-!
# The sources of the configuration

The configuration file, the options from left to right and the procedure are merged into one update
of the defaults.  Each option has the value of the last source that sets it (`isConfig_iff`).  If
they cannot be merged, a source is not readable or not accepted, or the path of the file is no text
(`configEnds`).
-/

set_option autoImplicit false

namespace Clausal.CommandLine

section Effective

variable {α : Type} {option : ConfigUpdate → Option α} {default : α}

/-- The value that the last source gives an option, or its default. -/
def lastSet (option : ConfigUpdate → Option α) (default : α) (sources : List ConfigUpdate) : α :=
  (sources.filterMap option).getLast?.getD default

theorem lastSet_append_singleton (sources : List ConfigUpdate) (source : ConfigUpdate) :
    lastSet option default (sources ++ [source]) =
      (option source).getD (lastSet option default sources) := by
  rw [lastSet, lastSet, List.filterMap_append]
  cases isSet : option source with
  | none => simp [isSet]
  | some value => simp [isSet]

end Effective

def effective (sources : List ConfigUpdate) : Config where
  procedure := lastSet ConfigUpdate.procedure .dpll sources
  pureLiterals := lastSet ConfigUpdate.pureLiterals true sources
  checkModel := lastSet ConfigUpdate.checkModel true sources

theorem effective_append_singleton (sources : List ConfigUpdate) (source : ConfigUpdate) :
    effective (sources ++ [source]) = (effective sources).apply source := by
  simp only [effective, lastSet_append_singleton, Config.apply]

theorem apply_foldl_merge (sources : List ConfigUpdate) :
    Config.apply {} (sources.foldl ConfigUpdate.merge {}) = effective sources := by
  induction sources using List.reverseRecOn with
  | nil => rfl
  | append_singleton sources source inductionHypothesis =>
      rw [List.foldl_append, effective_append_singleton, ← inductionHypothesis]
      exact Config.apply_merge {} (sources.foldl ConfigUpdate.merge {}) source

/-! ## Texts -/

def AreTexts (values : List (List UInt8)) (texts : List String) : Prop :=
  List.Forall₂ (fun value text => Utf8.decode? value = some text) values texts

theorem areTexts_iff {values : List (List UInt8)} {texts : List String} :
    AreTexts values texts ↔ values.mapM Utf8.decode? = some texts := by
  rw [AreTexts]
  induction values generalizing texts with
  | nil => simp [eq_comm]
  | cons value rest inductionHypothesis =>
      rw [List.forall₂_cons_left_iff, List.mapM_cons]
      simp only [inductionHypothesis, Option.bind_eq_bind, Option.bind_eq_some_iff, Option.pure_def,
        Option.some_inj]
      constructor
      · rintro ⟨text, others, isText, areTexts, rfl⟩
        exact ⟨text, isText, others, areTexts, rfl⟩
      · rintro ⟨text, isText, others, areTexts, rfl⟩
        exact ⟨text, others, isText, areTexts, rfl⟩

theorem AreTexts.exists_value {values : List (List UInt8)} {texts : List String} {text : String}
    (areTexts : AreTexts values texts) (member : text ∈ texts) :
    ∃ value ∈ values, Utf8.decode? value = some text := by
  induction areTexts with
  | nil => cases member
  | @cons value first rest others isText _ inductionHypothesis =>
      rcases List.mem_cons.mp member with rfl | inOthers
      · exact ⟨value, List.mem_cons_self, isText⟩
      · obtain ⟨found, inRest, isFound⟩ := inductionHypothesis inOthers
        exact ⟨found, List.mem_cons_of_mem _ inRest, isFound⟩

theorem mapM_decode?_eq_none_iff {values : List (List UInt8)} :
    values.mapM Utf8.decode? = none ↔ ∃ value ∈ values, Utf8.decode? value = none := by
  induction values with
  | nil => simp
  | cons value rest inductionHypothesis =>
      rw [List.mapM_cons]
      cases isText : Utf8.decode? value with
      | none => simp [isText]
      | some text =>
          cases areTexts : rest.mapM Utf8.decode? <;>
            simp_all

def GivesUpdate (build : Build) (text : String) (update : ConfigUpdate) : Prop :=
  build.readUpdate text = .ok update

section MergeTexts

variable {build : Build} {texts : List String}

theorem mergeTexts_of_givesUpdate {updates : List ConfigUpdate}
    (gives : List.Forall₂ (GivesUpdate build) texts updates) (update : ConfigUpdate) :
    mergeTexts build update texts = .ok (updates.foldl ConfigUpdate.merge update) := by
  induction gives generalizing update with
  | nil => rfl
  | cons accepted _ inductionHypothesis =>
      rw [GivesUpdate] at accepted
      simp only [mergeTexts, accepted]
      exact inductionHypothesis _

theorem exists_of_mergeTexts {update merged : ConfigUpdate}
    (isMerged : mergeTexts build update texts = .ok merged) :
    ∃ updates, List.Forall₂ (GivesUpdate build) texts updates ∧
      updates.foldl ConfigUpdate.merge update = merged := by
  induction texts generalizing update with
  | nil =>
      cases isMerged
      exact ⟨[], .nil, rfl⟩
  | cons text rest inductionHypothesis =>
      cases accepted : build.readUpdate text with
      | error error =>
          simp only [mergeTexts, accepted] at isMerged
          cases isMerged
      | ok next =>
          simp only [mergeTexts, accepted] at isMerged
          obtain ⟨updates, gives, isFold⟩ := inductionHypothesis isMerged
          exact ⟨next :: updates, .cons accepted gives, isFold⟩

end MergeTexts

/-! ## Files -/

section Files

variable {build : Build} {environment : Environment}

theorem readAll_eq_ok_iff {pieces : List Dimacs.Piece} {bytes : List UInt8} :
    readAll pieces = .ok bytes ↔ Dimacs.delivery pieces = (bytes, none) := by
  have delivers := Dimacs.chunks_delivery pieces
  rw [readAll, Prod.ext_iff, ← delivers.1, ← delivers.2]
  obtain ⟨chunks, ending⟩ := Dimacs.chunks pieces
  cases ending <;> simp

/-- The path is a text, and its file can be opened and read to the end. -/
def FileHolds (environment : Environment) (path bytes : List UInt8) : Prop :=
  ∃ name pieces, Utf8.decode? path = some name ∧ environment.openFile name = .ok pieces ∧
    Dimacs.delivery pieces = (bytes, none)

/-- The texts that a configuration file adds: none without a file, and else its readable text. -/
inductive FileTexts (environment : Environment) : Option (List UInt8) → List String → Prop
  | noFile : FileTexts environment none []
  | file {path bytes : List UInt8} {text : String} (holds : FileHolds environment path bytes)
      (isText : Utf8.decode? bytes = some text) : FileTexts environment (some path) [text]

theorem merge_nothing (update : ConfigUpdate) : ConfigUpdate.merge {} update = update := by
  simp only [ConfigUpdate.merge, Option.or_none]

theorem readConfig_of_holds {name text : String} {pieces : List Dimacs.Piece} {bytes : List UInt8}
    {update : ConfigUpdate} (opened : environment.openFile name = .ok pieces)
    (delivers : Dimacs.delivery pieces = (bytes, none)) (isText : Utf8.decode? bytes = some text)
    (accepted : GivesUpdate build text update) :
    readConfig build environment name = .ok update := by
  rw [GivesUpdate] at accepted
  simp only [readConfig, opened, readAll_eq_ok_iff.mpr delivers, isText, accepted]

theorem exists_of_readConfig {name : String} {update : ConfigUpdate}
    (isUpdate : readConfig build environment name = .ok update) :
    ∃ pieces bytes text, environment.openFile name = .ok pieces ∧
      Dimacs.delivery pieces = (bytes, none) ∧ Utf8.decode? bytes = some text ∧
      GivesUpdate build text update := by
  rw [readConfig] at isUpdate
  split at isUpdate
  · cases isUpdate
  · next pieces opened =>
      split at isUpdate
      · cases isUpdate
      · next bytes isRead =>
          split at isUpdate
          · cases isUpdate
          · next text isText =>
              split at isUpdate
              · cases isUpdate
              · next accepted =>
                  cases isUpdate
                  exact ⟨pieces, bytes, text, opened, readAll_eq_ok_iff.mp isRead, isText, accepted⟩

theorem fileUpdate_of_fileTexts {configFile : Option (List UInt8)} {texts : List String}
    {updates : List ConfigUpdate} (isTexts : FileTexts environment configFile texts)
    (gives : List.Forall₂ (GivesUpdate build) texts updates) :
    fileUpdate build environment configFile = .ok (updates.foldl ConfigUpdate.merge {}) := by
  cases isTexts with
  | noFile =>
      cases gives
      rfl
  | file holds isText =>
      obtain ⟨name, pieces, isName, opened, delivers⟩ := holds
      rcases gives with _ | ⟨accepted, ⟨⟩⟩
      rw [List.foldl_cons, List.foldl_nil, merge_nothing]
      simp only [fileUpdate, isName, readConfig_of_holds opened delivers isText accepted]

theorem exists_of_fileUpdate {configFile : Option (List UInt8)} {update : ConfigUpdate}
    (isUpdate : fileUpdate build environment configFile = .ok update) :
    ∃ texts updates, FileTexts environment configFile texts ∧
      List.Forall₂ (GivesUpdate build) texts updates ∧
      updates.foldl ConfigUpdate.merge {} = update := by
  cases configFile with
  | none =>
      cases isUpdate
      exact ⟨[], [], .noFile, .nil, rfl⟩
  | some path =>
      rw [fileUpdate] at isUpdate
      split at isUpdate
      · cases isUpdate
      · next name isName =>
          split at isUpdate
          · cases isUpdate
          · next accepted =>
              cases isUpdate
              obtain ⟨pieces, bytes, text, opened, delivers, isText, gives⟩ :=
                exists_of_readConfig accepted
              exact ⟨[text], [update], .file ⟨name, pieces, isName, opened, delivers⟩ isText,
                .cons gives .nil, merge_nothing update⟩

theorem isText_of_fileUpdate {configFile : Option (List UInt8)} {update : ConfigUpdate}
    (isUpdate : fileUpdate build environment configFile = .ok update) :
    ∀ path ∈ configFile, Utf8.decode? path ≠ none := by
  intro path given noText
  cases given
  simp only [fileUpdate, noText] at isUpdate
  cases isUpdate

theorem stop_of_fileUpdate {configFile : Option (List UInt8)} {stop : Stop}
    (stops : fileUpdate build environment configFile = .error stop) :
    (∃ path ∈ configFile, Utf8.decode? path = none ∧ stop = .notText) ∨
      (∀ path ∈ configFile, Utf8.decode? path ≠ none) ∧ ∃ cause, stop = .failure cause := by
  cases configFile with
  | none => cases stops
  | some path =>
      rw [fileUpdate] at stops
      split at stops
      · next noText =>
          cases stops
          exact .inl ⟨path, rfl, noText, rfl⟩
      · next name isName =>
          split at stops
          · cases stops
            refine .inr ⟨?_, _, rfl⟩
            rintro _ ⟨⟩ noText
            rw [isName] at noText
            cases noText
          · cases stops

end Files

/-! ## All sources -/

section Sources

variable {build : Build} {environment : Environment} {values : Values} {options : List String}
  {config : Config}

theorem procedureUpdate_eq (named : values.NameProcedure) :
    procedureUpdate values.procedure =
      .ok { procedure := values.procedure.bind procedureNamed? } := by
  rw [Values.NameProcedure] at named
  cases isName : values.procedure with
  | none => rfl
  | some name =>
      obtain ⟨procedure, isProcedure⟩ := Option.isSome_iff_exists.mp (named name isName)
      rw [Option.bind_some, isProcedure]
      obtain ⟨text, isText, isNamed⟩ := Option.bind_eq_some_iff.mp isProcedure
      simp only [procedureUpdate, isText, isNamed]

/-- The sources of the configuration are readable and accepted.  In their order, the file first,
then the options and then the procedure, they make a configuration. -/
def IsConfig (build : Build) (environment : Environment) (values : Values) (config : Config) :
    Prop :=
  ∃ options fileTexts fromFile fromOptions, AreTexts values.configOptions options ∧
    FileTexts environment values.configFile fileTexts ∧
    List.Forall₂ (GivesUpdate build) fileTexts fromFile ∧
    List.Forall₂ (GivesUpdate build) options fromOptions ∧
    config = effective
      (fromFile ++ fromOptions ++ [{ procedure := values.procedure.bind procedureNamed? }])

theorem apply_merged (fromFile fromOptions : List ConfigUpdate) (last : ConfigUpdate) :
    Config.apply {}
        ((fromOptions.foldl ConfigUpdate.merge (fromFile.foldl ConfigUpdate.merge {})).merge last) =
      effective (fromFile ++ fromOptions ++ [last]) := by
  rw [← apply_foldl_merge, List.foldl_append, List.foldl_append]
  rfl

theorem isConfig_iff (named : values.NameProcedure)
    (areTexts : AreTexts values.configOptions options) :
    IsConfig build environment values config ↔
      ∃ update, configUpdate build environment values options = .ok update ∧
        Config.apply {} update = config := by
  constructor
  · rintro ⟨others, fileTexts, fromFile, fromOptions, areOthers, isTexts, givesFile, givesOptions,
      rfl⟩
    have sameTexts : others = options := by
      rw [areTexts_iff] at areTexts areOthers
      exact Option.some_inj.mp (areOthers.symm.trans areTexts)
    subst sameTexts
    rw [← apply_merged]
    simp only [configUpdate, fileUpdate_of_fileTexts isTexts givesFile,
      mergeTexts_of_givesUpdate givesOptions, procedureUpdate_eq named]
    exact ⟨_, rfl, rfl⟩
  · rintro ⟨update, isUpdate, isConfig⟩
    rw [configUpdate, procedureUpdate_eq named] at isUpdate
    split at isUpdate
    · cases isUpdate
    · next fileMerged ofFile =>
        split at isUpdate
        · cases isUpdate
        · next merged ofOptions =>
            obtain ⟨fileTexts, fromFile, isTexts, givesFile, rfl⟩ := exists_of_fileUpdate ofFile
            obtain ⟨fromOptions, givesOptions, rfl⟩ := exists_of_mergeTexts ofOptions
            cases isUpdate
            refine ⟨options, fileTexts, fromFile, fromOptions, areTexts, isTexts, givesFile,
              givesOptions, ?_⟩
            rw [← isConfig, apply_merged]

inductive ConfigEnds (build : Build) (environment : Environment) (values : Values)
    (options : List String) : Prop
  | configured (update : ConfigUpdate)
      (ends : configUpdate build environment values options = .ok update)
      (isText : ∀ path ∈ values.configFile, Utf8.decode? path ≠ none)
      (isConfig : IsConfig build environment values (Config.apply {} update))
  | failed (cause : Failure)
      (ends : configUpdate build environment values options = .error (.failure cause))
      (isText : ∀ path ∈ values.configFile, Utf8.decode? path ≠ none)
      (noConfig : ∀ config, ¬IsConfig build environment values config)
  | panicked (path : List UInt8)
      (ends : configUpdate build environment values options = .error .notText)
      (given : path ∈ values.configFile) (noText : Utf8.decode? path = none)
      (noConfig : ∀ config, ¬IsConfig build environment values config)

theorem configEnds (named : values.NameProcedure)
    (areTexts : AreTexts values.configOptions options) :
    ConfigEnds build environment values options := by
  have noConfig : ∀ {stop}, configUpdate build environment values options = .error stop →
      ∀ config, ¬IsConfig build environment values config := by
    intro stop ends config isConfig
    obtain ⟨update, isUpdate, _⟩ := (isConfig_iff named areTexts).mp isConfig
    rw [ends] at isUpdate
    cases isUpdate
  cases ofFile : fileUpdate build environment values.configFile with
  | error stop =>
      have ends : configUpdate build environment values options = .error stop := by
        simp only [configUpdate, ofFile]
      rcases stop_of_fileUpdate ofFile with ⟨path, given, noText, rfl⟩ | ⟨isText, cause, rfl⟩
      · exact .panicked path ends given noText (noConfig ends)
      · exact .failed cause ends isText (noConfig ends)
  | ok update =>
      have isText := isText_of_fileUpdate ofFile
      cases ofOptions : mergeTexts build update options with
      | error cause =>
          have ends : configUpdate build environment values options = .error (.failure cause) := by
            simp only [configUpdate, ofFile, ofOptions]
          exact .failed cause ends isText (noConfig ends)
      | ok merged =>
          have ends : configUpdate build environment values options = .ok (merged.merge
              { procedure := values.procedure.bind procedureNamed? }) := by
            simp only [configUpdate, ofFile, ofOptions, procedureUpdate_eq named]
          exact .configured _ ends isText ((isConfig_iff named areTexts).mpr ⟨_, ends, rfl⟩)

end Sources

end Clausal.CommandLine
