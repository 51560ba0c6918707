import TypedWasm.Config
import TypedWasm.Diagnostic.Fault
import TypedWasm.Json.Value
import TypedWasm.Toml.Document

/-!
# Reading configurations

A configuration is written as JSON, and read from JSON or from a TOML file. A field left out takes
its default, and further keys are passed over. A configuration from a file is checked as well.
-/

namespace TypedWasm

open Json

def NumberRepr.name : NumberRepr → String
  | .native => "native"
  | .bigint => "bigint"

def NumberRepr.ofJson? (json : Json) : Option NumberRepr :=
  (json.choice? .outer).bind fun name => [NumberRepr.native, .bigint].find? (·.name == name)

namespace Config

def fieldNames : List String :=
  ["number_repr", "list_bounds_check", "list_growth_slack", "heap_start", "min_memory_pages",
    "max_memory_pages", "import_memory", "memory_import_module", "memory_import_name",
    "intrinsics_module", "validate_output"]

def toJson (config : Config) : Json :=
  .obj (fieldNames.zip
    [.str config.numberRepr.name, .bool config.listBoundsCheck, .int config.listGrowthSlack.toNat,
      .int config.heapStart.toNat, .int config.minMemoryPages.toNat,
      (config.maxMemoryPages.map fun pages => int pages.toNat).getD .null,
      .bool config.importMemory, .str config.memoryImportModule, .str config.memoryImportName,
      .str config.intrinsicsModule, .bool config.validateOutput])

def ofJson? (json : Json) : Option Config := do
  let fields ← json.record? fieldNames
  let usual : Config := {}
  return {
    numberRepr := ← optional? fields "number_repr" usual.numberRepr NumberRepr.ofJson?
    listBoundsCheck := ← optional? fields "list_bounds_check" usual.listBoundsCheck bool?
    listGrowthSlack :=
      ← optional? fields "list_growth_slack" usual.listGrowthSlack uint32?
    heapStart := ← optional? fields "heap_start" usual.heapStart uint32?
    minMemoryPages := ← optional? fields "min_memory_pages" usual.minMemoryPages uint32?
    maxMemoryPages :=
      ← optional? fields "max_memory_pages" usual.maxMemoryPages (nullable? uint32?)
    importMemory := ← optional? fields "import_memory" usual.importMemory bool?
    memoryImportModule :=
      ← optional? fields "memory_import_module" usual.memoryImportModule str?
    memoryImportName :=
      ← optional? fields "memory_import_name" usual.memoryImportName str?
    intrinsicsModule := ← optional? fields "intrinsics_module" usual.intrinsicsModule str?
    validateOutput := ← optional? fields "validate_output" usual.validateOutput bool? }

/-- The heap starts at a word past the first global slot, the least memory reaches up to it, and the
limit is not below the least memory. -/
def check (config : Config) : Except Fault Unit :=
  if config.heapStart % wordSize ≠ 0 ∨ config.heapStart ≤ firstGlobalSlot * wordSize then
    .error (.badHeapStart config.heapStart)
  else if config.minMemoryPages.toNat < pagesBelow config.heapStart.toNat then
    .error (.tooFewPages config.minMemoryPages config.heapStart)
  else
    match config.maxMemoryPages with
    | some limit =>
      if limit < config.minMemoryPages then
        .error (.limitBelowMinimum limit config.minMemoryPages)
      else .ok ()
    | none => .ok ()

end Config

mutual

/-- The JSON form of a TOML value. A date is an object, as no field of a configuration is. -/
def Toml.Value.toJson : Toml.Value → Json
  | .string text => .str text
  | .integer value => .int value
  | .float text => .decimal text
  | .boolean value => .bool value
  | .dateTime text => .obj [("date", .str text)]
  | .array items => .arr (Toml.Value.listToJson items)
  | .table entries => .obj (Toml.Value.entriesToJson entries)

def Toml.Value.listToJson : List Toml.Value → List Json
  | [] => []
  | item :: rest => item.toJson :: Toml.Value.listToJson rest

def Toml.Value.entriesToJson : List (String × Toml.Value) → List (String × Json)
  | [] => []
  | (key, value) :: rest => (key, value.toJson) :: Toml.Value.entriesToJson rest

end

/-- The JSON form of an entry. TOML has no null, so a table of one empty table or array stands for
the alternative it names. -/
def Toml.fieldToJson : String × Toml.Value → String × Json
  | ("number_repr", .table [(name, .table [])]) => ("number_repr", .str name)
  | ("number_repr", .table [(name, .array [])]) => ("number_repr", .str name)
  | (key, value) => (key, value.toJson)

namespace Config

def ofToml (text : String) : Except Fault Config := do
  let entries := Toml.document? text
  match entries.bind fun entries => ofJson? (.obj (entries.map Toml.fieldToJson)) with
  | none => .error .unreadableConfig
  | some config =>
    config.check
    return config

/-- A checked configuration from the file at a path. `content` is nothing when there is no such
file. -/
def ofFile (path : String) (content : Option (List UInt8)) : Except Fault Config :=
  match content with
  | none => .error (.configFile path "No such file or directory (os error 2)")
  | some bytes =>
    match String.fromUTF8? (ByteArray.mk bytes.toArray) with
    | none => .error (.configFile path "stream did not contain valid UTF-8")
    | some text => ofToml text

end Config

end TypedWasm
