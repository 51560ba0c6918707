/-!
# Diagnostics

What the generator tells its host when it cannot go on: a kind, a message and structured context for
tools that want more than the message.
-/

namespace TypedWasm

/-- Whose fault a diagnostic is. Every diagnostic is fatal for its unit. -/
inductive DiagnosticKind where
  | unresolvedName
  | compiler
  | unsupportedFeature
  | layout
  | wasmGeneration
  | config
  deriving Repr, DecidableEq, Inhabited

def DiagnosticKind.title : DiagnosticKind → String
  | .unresolvedName => "Unresolved Name"
  | .compiler => "Compiler Bug"
  | .unsupportedFeature => "Unsupported Feature"
  | .layout => "Memory Layout"
  | .wasmGeneration => "WASM Generation"
  | .config => "Malformed Config"

inductive MetaKey where
  | variableName
  | className
  | stage
  | suggestion
  | expectedType
  | foundType
  deriving Repr, DecidableEq, Inhabited

structure Metadata where
  variableName : Option String := none
  className : Option String := none
  stage : Option String := none
  suggestion : Option String := none
  expectedType : Option String := none
  foundType : Option String := none
  deriving Repr, DecidableEq, Inhabited

namespace Metadata

/-- Sets one key. A later value replaces an earlier one. -/
def set (metadata : Metadata) (key : MetaKey) (value : String) : Metadata :=
  match key with
  | .variableName => { metadata with variableName := some value }
  | .className => { metadata with className := some value }
  | .stage => { metadata with stage := some value }
  | .suggestion => { metadata with suggestion := some value }
  | .expectedType => { metadata with expectedType := some value }
  | .foundType => { metadata with foundType := some value }

def get? (metadata : Metadata) : MetaKey → Option String
  | .variableName => metadata.variableName
  | .className => metadata.className
  | .stage => metadata.stage
  | .suggestion => metadata.suggestion
  | .expectedType => metadata.expectedType
  | .foundType => metadata.foundType

end Metadata

structure Diagnostic where
  kind : DiagnosticKind
  message : String
  metadata : Metadata := {}
  deriving Repr, DecidableEq, Inhabited

namespace Diagnostic

/-- A diagnostic of a kind. An unresolved name gives its message from the name alone. -/
def make (kind : DiagnosticKind) (text : String) : Diagnostic :=
  match kind with
  | .unresolvedName =>
    { kind, message := "Unresolved name '" ++ text ++ "'"
      metadata := { variableName := some text } }
  | _ => { kind, message := text }

def withMetadata (diagnostic : Diagnostic) (key : MetaKey) (value : String) : Diagnostic :=
  { diagnostic with metadata := diagnostic.metadata.set key value }

/-- Whether the diagnostic is about a feature that is left out on purpose. -/
def isUnsupportedFeature (diagnostic : Diagnostic) : Bool := diagnostic.kind = .unsupportedFeature

def describe (diagnostic : Diagnostic) : String :=
  diagnostic.kind.title ++ ": " ++ diagnostic.message

inductive Style where
  | red | green | yellow | magenta | dark
  deriving Repr, DecidableEq

def Style.code : Style → String
  | .red => "31"
  | .green => "32"
  | .yellow => "33"
  | .magenta => "35"
  | .dark => "2"

def Style.on (style : Style) : String := "\x1b[" ++ style.code ++ "m"

/-- A line that starts plain, goes on in some styles and turns them off at its end. -/
def line (plain : String) (styles : List Style) (styled : String) : String :=
  plain ++ String.join (styles.map Style.on) ++ styled ++ "\x1b[0m\n"

def banner : DiagnosticKind → String
  | .unresolvedName =>
    line "\n(ಠ_ಠ) " [.red] "Unresolved Name" ++
    line "" [.dark, .yellow] "The type checker should have caught this before code generation"
  | .compiler =>
    line "\nヽ༼☉ ‿ ⚆༽ﾉ  🔥🔥🔥🔥 " [.yellow] "COMPILER BUG - " ++
    line "" [.dark, .yellow] "code generator invariant violated (not your fault)"
  | .unsupportedFeature => line "\n( ._. ) " [.red] "Not Supported Yet"
  | .layout => line "\n(╯°□°)╯  🔥🔥 " [.red] "Memory Layout"
  | .wasmGeneration =>
    line "\nヽ༼☉ ‿ ⚆༽ﾉ  🔥🔥🔥🔥 " [.yellow] "WASM GENERATION BUG - " ++
    line "" [.dark, .yellow] "generated module failed to assemble or validate"
  | .config =>
    line "\n (-_-)  🔥🔥🔥🔥 " [.yellow] "CONFIG FILE ISSUE - " ++
    line "" [.dark, .yellow] "Malformed codegen config, something doesn't make sense inside it"

def report (diagnostic : Diagnostic) : String :=
  banner diagnostic.kind ++
  line "" [.red] diagnostic.message ++
  (match diagnostic.metadata.stage with
    | some stage => line "" [.dark, .magenta] ("Stage: " ++ stage)
    | none => "") ++
  (match diagnostic.metadata.suggestion with
    | some suggestion => line "" [.green] ("Suggestion: " ++ suggestion)
    | none => "")

end Diagnostic

end TypedWasm
