import TaskAllocation.Config
import TaskAllocation.Document.Schema
import TaskAllocation.Toml.Reader
import TaskAllocation.Toml.Writer

/-!
# Configurations as documents

A configuration is written as a document and read from one.  What a document leaves out
takes the value of the standard configuration, so that the empty document stands for that
one.

## Main definitions

* `Config.toDocument`, `Config.ofDocument` — the two directions.
* `Config.toText`, `Config.ofText` — the same for text in any notation.
* `Config.toToml`, `Config.ofToml` — the same for TOML.
* `Config.ofJson` — reading a document that comes from JSON.
-/

namespace TaskAllocation

/-- Why the text of a configuration cannot be used. -/
inductive ConfigTextError (ε : Type) where
  /-- The text is no document. -/
  | text (error : ε)
  /-- The document is no configuration. -/
  | schema (error : SchemaError)
  deriving Repr, DecidableEq, Inhabited

/-- The wording of an error. -/
def ConfigTextError.message : ConfigTextError ReadError → String
  | .text error => error.message
  | .schema error => error.message

/-- In TOML an empty table or list stands for an empty value, and superfluous items of a
list are skipped. -/
def Toml.dialect : Dialect where
  isEmpty
    | .table [] | .array [] => true
    | _ => false
  surplus := true

/-- TOML as a notation.  Every table can be written. -/
def Toml.format : TextFormat ReadError where
  dialect := dialect
  write fields := .ok (write fields)
  read := read

/-- In JSON there is a value of its own for what is empty, and lists have to fit. -/
def Json.dialect : Dialect where
  isEmpty
    | .null => true
    | _ => false
  surplus := false

/-! ### Policies -/

/-- The names of the allocation policies. -/
def AllocationPolicy.names : List (String × AllocationPolicy) :=
  [("stoch_nbhd", .neighbour), ("greedy_global", .cheapest), ("random", .random)]

/-- The name of an allocation policy. -/
def AllocationPolicy.name : AllocationPolicy → String
  | .neighbour => "stoch_nbhd"
  | .cheapest => "greedy_global"
  | .random => "random"

/-- The names of the focus policies. -/
def FocusPolicy.names : List (String × FocusPolicy) :=
  [("root", .root), ("random", .random), ("max_depth", .deepest)]

/-- The name of a focus policy. -/
def FocusPolicy.name : FocusPolicy → String
  | .root => "root"
  | .random => "random"
  | .deepest => "max_depth"

namespace Config

open Document

/-! ### Writing -/

/-- The field of a value that may be missing. -/
def optionalField {α : Type} (name : String) (value : Option α) (write : α → Document) :
    List (String × Document) :=
  match value with
  | some a => [(name, write a)]
  | none => []

/-- A word as a whole number. -/
def wordDocument (w : UInt64) : Document := ofNat w.toNat

/-- The fields of a curve. -/
def curveFields (c : Logistic Float) : List (String × Document) :=
  [("reactivity", .number c.reactivity), ("offset", .number c.offset), ("gamma", .number c.gamma)]

/-- The document of a task. -/
def entryDocument (t : TaskEntry Float) : Document :=
  .table <|
    [("name", .text t.name), ("children", .array (t.parts.map .text)),
      ("initial_estimate", .number t.initial)]
    ++ optionalField "alpha" t.alpha .number
    ++ optionalField "duration" t.duration wordDocument

/-- The fields of a configuration. -/
def toFields (c : Config Float) : List (String × Document) :=
  optionalField "seed" c.seed wordDocument ++ [
    ("executive", .table [
      ("update_exec_ests", .flag c.learns),
      ("alloc_policy", .text c.allocation.name),
      ("tab_init_policy", .text c.focus.name)]),
    ("estimation", .table [("alpha", .number c.alpha)]),
    ("abort", .table (curveFields c.abort.curve ++ [("min_prob", .number c.abort.minProb)])),
    ("partitioning", .table [
      ("sigmoid", .table (curveFields c.partitioning.curve)),
      ("always_partition", .flag c.partitioning.always),
      ("never_partition", .flag c.partitioning.never),
      ("last_partition_bias", .number c.partitioning.bias)]),
    ("tab_switch", .table (curveFields c.stay)),
    ("tasks", .array (c.tasks.map entryDocument))]

/-- The document of a configuration. -/
def toDocument (c : Config Float) : Document := .table c.toFields

/-- The text of a configuration. -/
def toText {ε : Type} (format : TextFormat ε) (c : Config Float) : Except ε String :=
  format.write c.toFields

/-- The text of a configuration in TOML. -/
def toToml (c : Config Float) : String := Toml.write c.toFields

/-! ### Reading -/

/-- Read a curve; `standard` gives what is left out. -/
def readCurve (dialect : Dialect) (standard : Logistic Float) (d : Document) :
    Except SchemaError (Logistic Float) := do
  let fields ← fieldsOf dialect ["reactivity", "offset", "gamma"] d
  return {
    reactivity := ← field fields "reactivity" standard.reactivity asNumber
    offset := ← field fields "offset" standard.offset asNumber
    gamma := ← field fields "gamma" standard.gamma asNumber }

/-- Read the abort curve. -/
def readAbort (dialect : Dialect) (d : Document) : Except SchemaError (AbortCurve Float) := do
  let standard : AbortCurve Float := AbortCurve.standard
  let fields ← fieldsOf dialect ["reactivity", "offset", "gamma", "min_prob"] d
  return {
    curve := {
      reactivity := ← field fields "reactivity" standard.curve.reactivity asNumber
      offset := ← field fields "offset" standard.curve.offset asNumber
      gamma := ← field fields "gamma" standard.curve.gamma asNumber }
    minProb := ← field fields "min_prob" standard.minProb asNumber }

/-- Read how a member of a block is chosen. -/
def readPartitioning (dialect : Dialect) (d : Document) :
    Except SchemaError (Partitioning Float) := do
  let standard : Partitioning Float := Partitioning.standard
  let fields ← fieldsOf dialect
    ["sigmoid", "always_partition", "never_partition", "last_partition_bias"] d
  return {
    curve := ← field fields "sigmoid" standard.curve (readCurve dialect standard.curve)
    always := ← field fields "always_partition" standard.always asFlag
    never := ← field fields "never_partition" standard.never asFlag
    bias := ← field fields "last_partition_bias" standard.bias asNumber }

/-- Read a task. -/
def readEntry (dialect : Dialect) (d : Document) : Except SchemaError (TaskEntry Float) := do
  let fields ← fieldsOf dialect ["name", "children", "initial_estimate", "alpha", "duration"] d
  return {
    name := ← required fields "name" asText
    parts := ← field fields "children" [] (asList asText)
    initial := ← field fields "initial_estimate" 0.0 asNumber
    alpha := ← field fields "alpha" none (optional asNumber)
    duration := ← field fields "duration" none (optional asWord) }

/-- The policies of the executive. -/
structure Policies where
  /-- Whether completed tasks change their estimates. -/
  learns : Bool
  /-- How the next task is chosen. -/
  allocation : AllocationPolicy
  /-- Where the focus starts. -/
  focus : FocusPolicy

/-- The policies of the standard configuration. -/
def standardPolicies : Policies where
  learns := (standard : Config Float).learns
  allocation := (standard : Config Float).allocation
  focus := (standard : Config Float).focus

/-- Read the policies of the executive. -/
def readPolicies (dialect : Dialect) (d : Document) : Except SchemaError Policies := do
  let fields ← fieldsOf dialect ["update_exec_ests", "alloc_policy", "tab_init_policy"] d
  return {
    learns := ← field fields "update_exec_ests" standardPolicies.learns asFlag
    allocation := ← field fields "alloc_policy" standardPolicies.allocation
      (asChoice dialect AllocationPolicy.names)
    focus := ← field fields "tab_init_policy" standardPolicies.focus
      (asChoice dialect FocusPolicy.names) }

/-- Read the common weight of a measurement. -/
def readAlpha (dialect : Dialect) (d : Document) : Except SchemaError Float := do
  let fields ← fieldsOf dialect ["alpha"] d
  field fields "alpha" (standard : Config Float).alpha asNumber

/-- The names of the parts of a configuration, in their order. -/
def partNames : List String :=
  ["seed", "executive", "estimation", "abort", "partitioning", "tab_switch", "tasks"]

/-- Read a configuration. -/
def ofDocument (dialect : Dialect) (d : Document) : Except SchemaError (Config Float) := do
  let base : Config Float := standard
  let fields ← fieldsOf dialect partNames d
  let seed ← field fields "seed" base.seed (optional asWord)
  let policies ← field fields "executive" standardPolicies (readPolicies dialect)
  return {
    seed := seed
    learns := policies.learns
    allocation := policies.allocation
    focus := policies.focus
    alpha := ← field fields "estimation" base.alpha (readAlpha dialect)
    abort := ← field fields "abort" base.abort (readAbort dialect)
    partitioning := ← field fields "partitioning" base.partitioning (readPartitioning dialect)
    stay := ← field fields "tab_switch" base.stay (readCurve dialect Logistic.standard)
    tasks := ← field fields "tasks" base.tasks (asList (readEntry dialect)) }

/-- Read the text of a configuration. -/
def ofText {ε : Type} (format : TextFormat ε) (s : String) :
    Except (ConfigTextError ε) (Config Float) :=
  match format.read s with
  | .error e => .error (.text e)
  | .ok fields => (ofDocument format.dialect (.table fields)).mapError .schema

/-- Read the text of a configuration in TOML. -/
def ofToml (s : String) : Except (ConfigTextError ReadError) (Config Float) :=
  ofText Toml.format s

/-- Read a configuration from a document that comes from JSON. -/
def ofJson (d : Document) : Except SchemaError (Config Float) := ofDocument Json.dialect d

end Config

end TaskAllocation
