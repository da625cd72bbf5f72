/-
# The command line goes before the environment

A setting that the command line gives does not depend on the variable of the environment that stands for it:

| setting | option | variable |
| --- | --- | --- |
| path of the catalog | `--catalog` | `TRIPLEGRAPH_CATALOG` |
| format | `--format` | `TRIPLEGRAPH_FORMAT` |
| semicolon | `--terminate` | `TRIPLEGRAPH_TERMINATE` |

Two environments that differ only in that variable give the same run (`run_eq_of_gives`), with two limits. Settings are
read from the environment before the command line goes on top, and an environment in which one of the variables is not
of its form is refused then, whether the command line gives that setting or not; a run with it fails. And the file `.env`
may give another of the variables a value that refers to the overridden one.
-/

import TripleSql.CommandLine.Run
import TripleSql.Proofs.References
import TripleSql.Proofs.Steps

namespace TripleSql

open Compile (bind_eq_ok_except)

namespace CommandLine

/-- A setting that the command line may give. -/
inductive Setting where
  | catalogPath
  | format
  | terminate
deriving DecidableEq, Repr

/-- The variable of the environment that stands for a setting. -/
def Setting.variableName : Setting → String
  | catalogPath => "TRIPLEGRAPH_CATALOG"
  | format => "TRIPLEGRAPH_FORMAT"
  | terminate => "TRIPLEGRAPH_TERMINATE"

/-- The options give a setting. -/
def Common.gives (c : Common) : Setting → Bool
  | .catalogPath => c.catalog.isSome
  | .format => c.format.isSome
  | .terminate => c.terminate

/-- The files of a run, by their paths. -/
abbrev Files := String → Except File.Fault String

/-- The part of the file `.env` that is read. -/
def Files.dotEnv (files : Files) : String :=
  match files ".env" with
  | .ok content => content
  | .error (.notUtf8 before) => before
  | .error _ => ""

/-- The value that the file `.env` puts behind an environment for a variable. -/
def Files.assigned (files : Files) (env : String → Option String) (name : String) : Option String :=
  (Settings.assignments env (Settings.recordsOf files.dotEnv)).lookup name

/-- The settings of an environment with the file `.env` behind it are refused. -/
def Refused (files : Files) (env : String → Option String) : Prop :=
  (settings (m := Id) env files none).isOk = false

instance (files : Files) (env : String → Option String) : Decidable (Refused files env) :=
  inferInstanceAs (Decidable (_ = _))

/-- Settings that do not come from a file come from the environment with the file `.env` behind it. -/
theorem settings_none (files : Files) (env : String → Option String) :
    settings (m := Id) env files none = Settings.ofEnvironment (Settings.withFile env files.dotEnv) := by
  have hempty : Settings.withFile env "" = env := by
    funext name
    change (env name <|> none) = env name
    cases env name <;> rfl
  -- A file that cannot be read at all assigns nothing, as an empty one does.
  change (match files ".env" with
    | .ok content => Settings.ofEnvironment (Settings.withFile env content)
    | .error (.notUtf8 before) => Settings.ofEnvironment (Settings.withFile env before)
    | .error _ => Settings.ofEnvironment env) = _
  rw [Files.dotEnv]
  split <;> simp only [hempty]

theorem exists_settings_of_not_refused {files : Files} {env : String → Option String} (h : ¬ Refused files env) :
    ∃ s, settings (m := Id) env files none = .ok s := by
  rw [Refused] at h
  cases hs : settings (m := Id) env files none with
  | ok s => exact ⟨s, rfl⟩
  | error e => exact absurd (by rw [hs]; rfl) h

/-- What the settings of an environment are. -/
theorem ofEnvironment_eq_ok {env : String → Option String} {s : Settings} : Settings.ofEnvironment env = .ok s ↔
    Settings.formatOf (env Setting.format.variableName) = .ok s.format ∧
      Settings.truthOf (env Setting.terminate.variableName) = .ok s.terminate ∧
      s.catalogPath = (env Setting.catalogPath.variableName).getD "catalog.yaml" ∧ s.catalogPath ≠ "" := by
  constructor
  · intro h
    obtain ⟨format, hformat, h⟩ := bind_eq_ok_except.1 h
    obtain ⟨terminate, hterminate, h⟩ := bind_eq_ok_except.1 h
    unfold Settings.check at h
    split at h
    · cases h
    · next hpath =>
      cases h
      exact ⟨hformat, hterminate, rfl, hpath⟩
  · rintro ⟨hformat, hterminate, hcatalog, hpath⟩
    refine bind_eq_ok_except.2 ⟨s.format, hformat, bind_eq_ok_except.2 ⟨s.terminate, hterminate, ?_⟩⟩
    change Settings.check ⟨(env Setting.catalogPath.variableName).getD "catalog.yaml", s.format, s.terminate⟩ = _
    rw [← hcatalog, Settings.check, if_neg hpath]

/-- **What the command line gives hides the variable.** Two environments have the same settings once the options are on
top if they agree on the variables of the settings that the options do not give. -/
theorem override_eq_of_gives {c : Common} {env env' : String → Option String} {s s' : Settings}
    (henv : ∀ j, c.gives j = false → env j.variableName = env' j.variableName)
    (hs : Settings.ofEnvironment env = .ok s) (hs' : Settings.ofEnvironment env' = .ok s') :
    s.override c.override = s'.override c.override := by
  obtain ⟨hformat, hterminate, hcatalog, -⟩ := ofEnvironment_eq_ok.1 hs
  obtain ⟨hformat', hterminate', hcatalog', -⟩ := ofEnvironment_eq_ok.1 hs'
  have hcatalogs : c.catalog.getD s.catalogPath = c.catalog.getD s'.catalogPath := by
    cases h : c.catalog with
    | some path => rfl
    | none => rw [hcatalog, hcatalog', henv .catalogPath (by simp [Common.gives, h])]
  have hformats : c.format.getD s.format = c.format.getD s'.format := by
    cases h : c.format with
    | some f => rfl
    | none =>
      rw [henv .format (by simp [Common.gives, h]), hformat'] at hformat
      rw [Except.ok.inj hformat]
  have hterminates : (s.terminate || c.terminate) = (s'.terminate || c.terminate) := by
    cases h : c.terminate with
    | true => simp
    | false =>
      rw [henv .terminate (by simp [Common.gives, h]), hterminate'] at hterminate
      rw [Except.ok.inj hterminate]
  simp only [Settings.override, Common.override, hcatalogs, hformats, hterminates]

/-- A run whose settings do not come from a file. -/
theorem run_eq {files : Files} {args : List String} {i : Invocation} (hargs : parse? args = some i)
    (hconfig : i.common.config = none) (env : String → Option String) :
    run (m := Id) env files args = .ofResult (match settings (m := Id) env files none with
      | .error e => .error (settingsMessage e)
      | .ok s =>
        match (s.override i.common.override).check with
        | .error e => .error ("Configuration error: " ++ e.cause)
        | .ok s => perform (m := Id) files s i.command) := by
  simp only [run, hargs, invoke, hconfig]
  rfl

/-- A run in an environment that is refused fails. -/
theorem run_of_refused {files : Files} {args : List String} {i : Invocation} (hargs : parse? args = some i)
    (hconfig : i.common.config = none) {env : String → Option String} (h : Refused files env) :
    (run (m := Id) env files args).code = 1 ∧ (run (m := Id) env files args).output = "" := by
  rw [run_eq hargs hconfig]
  cases hs : settings (m := Id) env files none with
  | ok s =>
    rw [Refused, hs] at h
    cases h
  | error e => exact ⟨rfl, rfl⟩

/-- The settings that the options do not give have the same variables in two environments with the file `.env` behind
them, if the environments have the same ones and the file puts the same ones behind them. -/
theorem withFile_variableName_eq {files : Files} {c : Common} {k : Setting} (hgives : c.gives k = true)
    {env env' : String → Option String} (henv : ∀ name, name ≠ k.variableName → env name = env' name)
    (hfile : ∀ j, c.gives j = false → env j.variableName = none →
      files.assigned env j.variableName = files.assigned env' j.variableName)
    {j : Setting} (hj : c.gives j = false) :
    Settings.withFile env files.dotEnv j.variableName = Settings.withFile env' files.dotEnv j.variableName := by
  have hne : j.variableName ≠ k.variableName := by
    intro h
    cases j <;> cases k <;> simp_all [Setting.variableName]
  change (env _ <|> files.assigned env _) = (env' _ <|> files.assigned env' _)
  rw [← henv _ hne]
  cases h : env j.variableName with
  | none => exact hfile j hj h
  | some v => rfl

/-- **A run does not depend on a variable whose setting the command line gives.** Let two environments differ in that
variable alone, let the file `.env` give the settings that the command line leaves open the same values behind both, and
let both or neither be refused when settings are read. Then the run has the same exit code and the same output in both. A
run in an environment that is refused fails, whatever the command line gives. -/
theorem run_eq_of_gives (files : Files) {args : List String} {i : Invocation} (k : Setting)
    (hargs : parse? args = some i) (hconfig : i.common.config = none) (hgives : i.common.gives k = true)
    {env env' : String → Option String} (henv : ∀ name, name ≠ k.variableName → env name = env' name)
    (hfile : ∀ j, i.common.gives j = false → env j.variableName = none →
      files.assigned env j.variableName = files.assigned env' j.variableName) :
    ((Refused files env ↔ Refused files env') →
      (run (m := Id) env files args).code = (run (m := Id) env' files args).code ∧
        (run (m := Id) env files args).output = (run (m := Id) env' files args).output) ∧
    ∀ e, Refused files e → (run (m := Id) e files args).code = 1 ∧ (run (m := Id) e files args).output = "" := by
  refine ⟨fun hsame => ?_, fun e he => run_of_refused hargs hconfig he⟩
  by_cases h : Refused files env
  · obtain ⟨hcode, houtput⟩ := run_of_refused hargs hconfig h
    obtain ⟨hcode', houtput'⟩ := run_of_refused hargs hconfig (hsame.1 h)
    exact ⟨hcode.trans hcode'.symm, houtput.trans houtput'.symm⟩
  · have h' : ¬ Refused files env' := fun h' => h (hsame.2 h')
    obtain ⟨s, hs⟩ := exists_settings_of_not_refused h
    obtain ⟨s', hs'⟩ := exists_settings_of_not_refused h'
    have hoverride : s.override i.common.override = s'.override i.common.override := by
      rw [settings_none] at hs hs'
      exact override_eq_of_gives (fun j hj => withFile_variableName_eq hgives henv hfile hj) hs hs'
    rw [run_eq hargs hconfig env, run_eq hargs hconfig env', hs, hs']
    simp only [hoverride, and_self]

/-- A file `.env` that does not refer to the variable gives all settings the same values. -/
theorem assigned_congr {files : Files} {k : Setting}
    (hreferences : k.variableName ∉ Settings.references (Settings.recordsOf files.dotEnv))
    {env env' : String → Option String} (henv : ∀ name, name ≠ k.variableName → env name = env' name) (name : String) :
    files.assigned env name = files.assigned env' name := by
  have hagree : Settings.AgreeOn (Settings.references (Settings.recordsOf files.dotEnv)) env env' :=
    fun n hn => henv n fun h => hreferences (h ▸ hn)
  rw [Files.assigned, Files.assigned, Settings.assignments_congr hagree]

/-- A catalog of one table, and a file `.env`. -/
def oneTable (dotEnv : String) : Files := fun path =>
  if path = "catalog.yaml" then .ok "predicates:\n  a: t1\n"
  else if path = ".env" then .ok dotEnv
  else .error .notFound

/-- An environment of one variable. -/
def single (v value : String) : String → Option String := fun name => if name = v then some value else none

/-- A file that asks for semicolons. -/
def ending : Files := oneTable "TRIPLEGRAPH_TERMINATE=true"

/-- A file that asks for semicolons if the variable of the catalog does. -/
def passing : Files := oneTable "TRIPLEGRAPH_TERMINATE=$\x7bTRIPLEGRAPH_CATALOG\x7d"

theorem run_ending_eq :
    (run (m := Id) (single "TRIPLEGRAPH_FORMAT" "json") ending ["--format", "sql", "teardown"]).code =
        (run (m := Id) (fun _ => none) ending ["--format", "sql", "teardown"]).code ∧
      (run (m := Id) (single "TRIPLEGRAPH_FORMAT" "json") ending ["--format", "sql", "teardown"]).output =
        (run (m := Id) (fun _ => none) ending ["--format", "sql", "teardown"]).output := by
  have hargs : parse? ["--format", "sql", "teardown"] = some ⟨{ format := some .sql }, .teardown⟩ := by decide +kernel
  have henv : ∀ name, name ≠ Setting.format.variableName →
      single "TRIPLEGRAPH_FORMAT" "json" name = (fun _ => none) name := fun name hname => if_neg hname
  have hreferences : Setting.format.variableName ∉
      Settings.references (Settings.recordsOf ending.dotEnv) := by decide +kernel
  refine (run_eq_of_gives _ .format hargs rfl rfl henv fun j _ _ => assigned_congr hreferences henv _).1 ?_
  decide +kernel

/-- **Both limits are needed.** With `--format` a run fails where the variable names no format, and is done where there
is none. With `--catalog` a run shows semicolons or not as the variable says, where `.env` passes it on to another one. -/
theorem run_ne_of_gives :
    (parse? ["--format", "sql", "teardown"] = some ⟨{ format := some .sql }, .teardown⟩ ∧
      (∀ name, name ≠ Setting.format.variableName → single "TRIPLEGRAPH_FORMAT" "xml" name = none) ∧
      (run (m := Id) (single "TRIPLEGRAPH_FORMAT" "xml") (oneTable "") ["--format", "sql", "teardown"]).code = 1 ∧
      (run (m := Id) (fun _ => none) (oneTable "") ["--format", "sql", "teardown"]).code = 0) ∧
    parse? ["--catalog", "catalog.yaml", "teardown"] = some ⟨{ catalog := some "catalog.yaml" }, .teardown⟩ ∧
      (∀ name, name ≠ Setting.catalogPath.variableName →
        single "TRIPLEGRAPH_CATALOG" "true" name = single "TRIPLEGRAPH_CATALOG" "false" name) ∧
      (run (m := Id) (single "TRIPLEGRAPH_CATALOG" "true") passing ["--catalog", "catalog.yaml", "teardown"]).output =
        "DROP TABLE t1;\n" ∧
      (run (m := Id) (single "TRIPLEGRAPH_CATALOG" "false") passing ["--catalog", "catalog.yaml", "teardown"]).output =
        "DROP TABLE t1\n" := by
  refine ⟨⟨by decide +kernel, fun name hname => if_neg hname, by decide +kernel, by decide +kernel⟩, by decide +kernel,
    fun name hname => ?_, by decide +kernel, by decide +kernel⟩
  exact (if_neg hname).trans (if_neg hname).symm

end CommandLine
end TripleSql
