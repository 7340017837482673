import Mathlib.Data.List.TakeWhile
import Clausal.Builtin.Build

/-!
# Writing settings

Every update of the configuration can be written as a text (`ofText_written`), and every choice of
values, with a procedure that there is, as a command line (`parseArguments_written`).  So the
libraries that come with the program accept a request for all that it can do.
-/

set_option autoImplicit false

namespace Clausal

/-! ## Updates -/

def entryLine (name value : String) : String := name ++ " = " ++ value ++ "\n"

namespace ConfigUpdate

def written (update : ConfigUpdate) : String :=
  let procedure := update.procedure.map fun procedure => "\"" ++ procedure.name ++ "\""
  String.join ((procedure.map (entryLine "procedure")).toList ++
    (update.pureLiterals.map (entryLine "pure_literals" ∘ toString)).toList ++
    (update.checkModel.map (entryLine "check_model" ∘ toString)).toList)

theorem ofText_written (update : ConfigUpdate) : ofText update.written = .ok update := by
  obtain ⟨procedure, pureLiterals, checkModel⟩ := update
  rcases procedure with - | - | - | - <;> rcases pureLiterals with - | - | - <;>
    rcases checkModel with - | - | - <;> decide +kernel

end ConfigUpdate

/-! ## Command lines -/

namespace CommandLine

def Opt.name : Opt → String
  | .config => "config"
  | .configOption => "config-option"
  | .procedure => "procedure"

def Opt.key (opt : Opt) : List UInt8 := Utf8.encode opt.name

/-- An option and its value.  All equals signs before a value in the same argument are dropped, so a
value that starts with one is an argument of its own. -/
def Opt.written (opt : Opt) (value : List UInt8) : List (List UInt8) :=
  if value.head? = some equalsSign then [hyphen :: hyphen :: opt.key, value]
  else [hyphen :: hyphen :: opt.key ++ equalsSign :: value]

def Values.options (values : Values) : List (Opt × List UInt8) :=
  values.configFile.toList.map (.config, ·) ++
    (values.configOptions.map (.configOption, ·) ++ values.procedure.toList.map (.procedure, ·))

def Values.written (values : Values) : List (List UInt8) :=
  (values.options.flatMap fun option => option.1.written option.2) ++
    values.input.toList.flatMap fun path => [[hyphen, hyphen], path]

theorem decode?_key (opt : Opt) : Utf8.decode? opt.key = some opt.name := by
  cases opt <;> decide +kernel

theorem ne_equalsSign_of_mem_key {opt : Opt} {byte : UInt8} (member : byte ∈ opt.key) :
    byte ≠ equalsSign := by
  have noEquals : ∀ byte ∈ opt.key, byte ≠ equalsSign := by cases opt <;> decide +kernel
  exact noEquals byte member

theorem exists_key_eq_cons (opt : Opt) :
    ∃ first rest, opt.key = first :: rest ∧ first ≠ hyphen := by
  have isCons : opt.key = opt.key.head! :: opt.key.tail ∧ opt.key.head! ≠ hyphen := by
    cases opt <;> decide +kernel
  exact ⟨_, _, isCons⟩

namespace Scan

variable {scan : Scan}

/-- A key is read up to its end or up to an equals sign. -/
theorem long_key (scan : Scan) (opt : Opt) {tail : List UInt8}
    (ended : tail.takeWhile (· != equalsSign) = []) :
    scan.long (opt.key ++ tail) =
      .next (if tail = [] then scan.await opt else scan.give opt tail) := by
  have keeps : ∀ byte ∈ opt.key, (byte != equalsSign) = true :=
    fun byte member => bne_iff_ne.mpr (ne_equalsSign_of_mem_key member)
  have isKey : (opt.key ++ tail).takeWhile (· != equalsSign) = opt.key := by
    rw [List.takeWhile_append_of_pos keeps, ended, List.append_nil]
  have isTail : (opt.key ++ tail).dropWhile (· != equalsSign) = tail := by
    have parts := List.takeWhile_append_dropWhile (p := (· != equalsSign)) (l := tail)
    rw [List.dropWhile_append_of_pos keeps]
    rwa [ended, List.nil_append] at parts
  rw [long, isKey, isTail, decode?_key]
  cases opt <;> cases tail <;> rfl

theorem argument_key (anyKind : scan.onlyInputs = false) (opt : Opt) {tail : List UInt8}
    (ended : tail.takeWhile (· != equalsSign) = []) :
    scan.argument (hyphen :: hyphen :: (opt.key ++ tail)) =
      .next (if tail = [] then scan.await opt else scan.give opt tail) := by
  obtain ⟨first, rest, isKey, noHyphen⟩ := exists_key_eq_cons opt
  rw [← scan.long_key opt ended, isKey]
  simp [argument, anyKind, noHyphen]

/-- The scan after an option with a value. -/
def withValue (scan : Scan) (opt : Opt) (value : List UInt8) : Scan :=
  { scan with values := (opt, value) :: scan.values, occurrences := opt :: scan.occurrences }

theorem argument_value {opt : Opt} {value : List UInt8} (anyKind : scan.onlyInputs = false)
    (noneWaits : scan.waiting = none) (startsEqual : value.head? = some equalsSign) :
    (scan.await opt).argument value = .next (scan.withValue opt value) := by
  obtain ⟨rest, rfl⟩ := List.head?_eq_some_iff.mp startsEqual
  simp [argument, await, withValue, anyKind, noneWaits, equalsSign, hyphen]

theorem give_equalsSign {opt : Opt} {value : List UInt8} (noneWaits : scan.waiting = none)
    (startsOther : value.head? ≠ some equalsSign) :
    scan.give opt (equalsSign :: value) = scan.withValue opt value := by
  have isValue : (equalsSign :: value).dropWhile (· == equalsSign) = value := by
    rw [List.dropWhile_cons_of_pos (by rfl)]
    cases value with
    | nil => rfl
    | cons byte rest => exact List.dropWhile_cons_of_neg (by simpa using startsOther)
  simp only [give, isValue, withValue, noneWaits]

theorem arguments_written (anyKind : scan.onlyInputs = false) (noneWaits : scan.waiting = none)
    (opt : Opt) (value : List UInt8) (more : List (List UInt8)) :
    scan.arguments (opt.written value ++ more) = (scan.withValue opt value).arguments more := by
  rw [Opt.written]
  split
  · next startsEqual =>
      have awaits := @argument_key scan anyKind opt [] rfl
      rw [List.append_nil, if_pos rfl] at awaits
      simp only [List.cons_append, List.nil_append, arguments, awaits,
        argument_value anyKind noneWaits startsEqual]
  · next startsOther =>
      have gives := @argument_key scan anyKind opt (equalsSign :: value) rfl
      rw [if_neg (List.cons_ne_nil _ _), give_equalsSign noneWaits startsOther] at gives
      simp only [List.cons_append, List.nil_append, arguments, gives]

theorem arguments_options (anyKind : scan.onlyInputs = false) (noneWaits : scan.waiting = none)
    (options : List (Opt × List UInt8)) (more : List (List UInt8)) :
    scan.arguments ((options.flatMap fun option => option.1.written option.2) ++ more) =
      Scan.arguments { scan with
        values := options.reverse ++ scan.values
        occurrences := (options.map Prod.fst).reverse ++ scan.occurrences } more := by
  induction options generalizing scan with
  | nil => rfl
  | cons option rest inductionHypothesis =>
      rw [List.flatMap_cons, List.append_assoc, arguments_written anyKind noneWaits]
      have later := @inductionHypothesis (scan.withValue option.1 option.2) anyKind noneWaits
      rw [later]
      simp [withValue]

/-- The scan of a command line that was written. -/
def ofOptions (options : List (Opt × List UInt8)) (input : Option (List UInt8)) : Scan where
  input := input
  values := options.reverse
  occurrences := (options.map Prod.fst).reverse
  onlyInputs := input.isSome

theorem arguments_values_written (values : Values) :
    ({} : Scan).arguments values.written = .next (ofOptions values.options values.input) := by
  rw [Values.written, arguments_options rfl rfl]
  cases values.input with
  | none => simp [arguments, ofOptions]
  | some path => simp [arguments, argument, addInput, ofOptions]

variable {options : List (Opt × List UInt8)} {input : Option (List UInt8)}

theorem valuesOf_ofOptions (opt : Opt) : (ofOptions options input).valuesOf opt =
    (options.filter fun option => option.1 == opt).map Prod.snd := by
  simp [valuesOf, ofOptions, List.filter_reverse]

/-- Every option that occurred has its values. -/
theorem count_occurrences (opt : Opt) : (ofOptions options input).occurrences.count opt =
    ((ofOptions options input).valuesOf opt).length := by
  rw [valuesOf_ofOptions, List.length_map, ← List.countP_eq_length_filter, ofOptions,
    List.count_reverse, List.count, List.countP_map]
  rfl

theorem isBare_ofOptions (opt : Opt) : (ofOptions options input).isBare opt = false := by
  rw [isBare, Bool.and_eq_false_iff]
  -- An option that occurred has as many values as occurrences, so at least one.
  by_cases occurs : opt ∈ (ofOptions options input).occurrences
  · refine .inr ?_
    have positive := List.count_pos_iff.mpr occurs
    rw [count_occurrences] at positive
    simpa using List.ne_nil_of_length_pos positive
  · exact .inl (by simpa using occurs)

end Scan

theorem Values.filter_options (values : Values) (opt : Opt) :
    (values.options.filter fun option => option.1 == opt).map Prod.snd = match opt with
      | .config => values.configFile.toList
      | .configOption => values.configOptions
      | .procedure => values.procedure.toList := by
  have others : ∀ {other}, other ≠ opt → ∀ given : List (List UInt8),
      (given.map fun value => (other, value)).filter (fun option => option.1 == opt) = [] := by
    intro other differs given
    simp [List.filter_eq_nil_iff, differs]
  have same : ∀ given : List (List UInt8),
      ((given.map fun value => (opt, value)).filter fun option => option.1 == opt).map Prod.snd =
        given := by
    intro given
    simp [List.filter_map, Function.comp_def]
  rw [options, List.filter_append, List.filter_append, List.map_append, List.map_append]
  cases opt with
  | config => simp [same, others (show Opt.configOption ≠ .config by decide),
      others (show Opt.procedure ≠ .config by decide)]
  | configOption => simp [same, others (show Opt.config ≠ .configOption by decide),
      others (show Opt.procedure ≠ .configOption by decide)]
  | procedure => simp [same, others (show Opt.config ≠ .procedure by decide),
      others (show Opt.configOption ≠ .procedure by decide)]

/-- A procedure can be asked for by its name only, and everything else by any bytes. -/
theorem parseArguments_written (values : Values) :
    parseArguments values.written = .values values ↔ values.NameProcedure := by
  refine ⟨fun parsed name named => isSome_procedureNamed? parsed named, fun named => ?_⟩
  have valuesOf := fun opt =>
    (@Scan.valuesOf_ofOptions values.options values.input opt).trans (values.filter_options opt)
  have atMostOne : ∀ value : Option (List UInt8), value.toList.length ≤ 1 := by
    intro value
    cases value <;> simp
  rw [parseArguments, Scan.arguments_values_written]
  show Scan.finish _ = _
  rw [Scan.finish, if_neg, if_neg, if_neg]
  · simp only [valuesOf, Option.head?_toList]
    rfl
  · simp only [valuesOf, List.any_eq_true, not_exists, not_and, Option.isNone_iff_eq_none]
    intro name given
    exact Option.isSome_iff_ne_none.mp (named name (Option.mem_toList.mp given))
  · have config := atMostOne values.configFile
    have procedure := atMostOne values.procedure
    simp only [Scan.count_occurrences, valuesOf, Bool.or_eq_true, decide_eq_true_eq]
    omega
  · simp [Scan.isBare_ofOptions]

end CommandLine

end Clausal
