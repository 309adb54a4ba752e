import StackScript.Command.Args
import StackScript.Command.Config
import StackScript.Json.Text
import StackScript.Json.Writer
import StackScript.LinkedProgram.Json
import StackScript.Lowering.Compile
import StackScript.Tree.Json

/-!
# Building

The `build` command reads program trees, compiles each to a unit of its own, links the units, and
prints or writes the linked program.

The command knows files through `Files` only, so it runs in any monad that offers these.  All else
is a function of the texts read: `buildProgram` from the programs to a linked program, and
`Outcome` for what is to be printed.
-/

namespace StackScript

/-- The files a command works with. -/
structure Files (m : Type → Type) where
  /-- There is a file or a directory of this name. -/
  isThere : String → m Bool
  /-- The text of a file; none if it cannot be read. -/
  read : String → m (Option String)
  /-- Writes a file, and says whether that was possible. -/
  write : String → String → m Bool
  /-- The user's own configuration file. -/
  userConfig : Option String

/-- Why a command gives up. -/
inductive Failure where
  | unreadableConfig (path : String)
  | invalidConfig (path : String)
  | unreadableInput (path : String)
  | invalidInput (path : String)
  | compiling (path : String) (fault : Fault)
  | linking (fault : Fault)
  | unwritable (path : String)
  deriving DecidableEq, Repr

/-- The lines that tell of a failure. -/
def Failure.lines : Failure → List String
  | .unreadableConfig path => ["Error: failed to read config " ++ path]
  | .invalidConfig path => ["Error: invalid config " ++ path]
  | .unreadableInput path => ["Error: failed to read " ++ path]
  | .invalidInput path => ["Error: invalid AST in " ++ path]
  | .compiling path fault =>
    ["Error: while compiling " ++ path, "", "Caused by:", "    " ++ fault.message]
  | .linking fault => ["Error: " ++ fault.message]
  | .unwritable path => ["Error: failed to write " ++ path]

/-! ### Configuration -/

namespace Config

/-- Reads a configuration file. -/
def ofFile [Monad m] (files : Files m) (path : String) : m (Except Failure Config) := do
  match ← files.read path with
  | none => return .error (.unreadableConfig path)
  | some text =>
    match ofText? text with
    | none => return .error (.invalidConfig path)
    | some config => return .ok config

/-- Reads the first of the files that is there; without one, nothing is set. -/
def ofFirst [Monad m] (files : Files m) : List String → m (Except Failure Config)
  | [] => return .ok {}
  | path :: rest => do if ← files.isThere path then ofFile files path else ofFirst files rest

/-- The configuration: the file asked for, or else the one in the current directory, or else the
user's own. -/
def load [Monad m] (files : Files m) (explicit : Option String) : m (Except Failure Config) :=
  match explicit with
  | some path => ofFile files path
  | none => ofFirst files (fileName :: files.userConfig.toList)

end Config

/-! ### Inputs -/

/-- The name of a file without its ending.  A point in front begins no ending. -/
def stemChars (name : List Char) : List Char :=
  let stem := (name.reverse.dropWhile (· != '.')).drop 1
  if stem.isEmpty then name else stem.reverse

/-- The last component of a path, if it is a name. -/
def fileNameChars? (path : List Char) : Option (List Char) :=
  let components := (path.splitOn '/').filter fun c => c != [] && c != ['.']
  components.getLast?.filter (· != ['.', '.'])

/-- The unit an input makes is called after its file. -/
def unitName (path : String) : String :=
  match fileNameChars? path.toList with
  | some name => String.ofList (stemChars name)
  | none => path

/-- An input file and the program in it. -/
structure Source where
  path : String
  program : Program

namespace Source

/-- How deep the values of an input may be nested. -/
def nesting : Nat := 127

/-- The program in a text.  Its numbers are computed with doubles, and what its fields have no use
for need not be readable. -/
def ofText? (path text : String) : Option Source :=
  ((Json.parse? Numeral.stepwise? text).bind (Program.read? nesting)).map (⟨path, ·⟩)

/-- Reads the inputs in order. -/
def readAll [Monad m] (files : Files m) : List String → m (Except Failure (List Source))
  | [] => return .ok []
  | path :: rest => do
    match ← files.read path with
    | none => return .error (.unreadableInput path)
    | some text =>
      match ofText? path text with
      | none => return .error (.invalidInput path)
      | some source =>
        match ← readAll files rest with
        | .ok sources => return .ok (source :: sources)
        | .error f => return .error f

end Source

/-! ### Messages -/

/-- How messages are coloured, if they are. -/
structure Palette where
  color : Bool

namespace Palette

/-- The word that begins a message. -/
def error (p : Palette) : String :=
  if p.color then "\x1b[1m\x1b[31merror\x1b[39m\x1b[0m" else "error"

/-- The name of a file in a message. -/
def path (p : Palette) (name : String) : String :=
  if p.color then "\x1b[36m" ++ name ++ "\x1b[39m" else name

/-- A diagnostic about a file, with the place that it is about. -/
def diagnostic (p : Palette) (file : String) (d : Diagnostic) : String :=
  p.path file ++ ":" ++ toString d.span.line ++ ":" ++ toString d.span.column ++ ": " ++ p.error ++
    ": " ++ d.message

/-- A link error, which is about no file in particular. -/
def linkError (p : Palette) (e : LinkError) : String := p.error ++ ": " ++ e.text

end Palette

/-! ### Compiling and linking -/

/-- A build's settings, from the request and the configuration. -/
structure BuildSettings where
  entry : Option String
  output : Option String
  listing : Bool
  palette : Palette
  options : CompileOptions

/-- The settings of a build: what is asked for on the command line goes before what the configuration
says. -/
def BuildSettings.ofRequest (r : BuildRequest) (c : Config) : BuildSettings where
  entry := r.entry
  output := r.output
  listing := r.listing || c.output.listing
  palette := ⟨c.output.color && !r.noColor⟩
  options := { c.compiler with checkpoints := c.compiler.checkpoints && !r.noCheckpoints }

/-- What a stage of a build came to: messages, and a value unless these are errors. -/
structure Built (α : Type) where
  messages : List String
  result : Except Failure (Option α)

/-- The units of the sources.  The errors of all sources are told, up to a failure. -/
def compileAll (settings : BuildSettings) : List Source → Built (List CompiledUnit)
  | [] => ⟨[], .ok (some [])⟩
  | source :: rest =>
    match compile (unitName source.path) settings.options source.program with
    | .ok u =>
      let later := compileAll settings rest
      ⟨later.messages, later.result.map (·.map (u :: ·))⟩
    | .error (.rejected ds) =>
      let later := compileAll settings rest
      ⟨ds.map (settings.palette.diagnostic source.path) ++ later.messages,
        later.result.map fun _ => none⟩
    | .error (.fault f) => ⟨[], .error (.compiling source.path f)⟩

/-- The linked program of the sources.  Without an entry asked for, the first one's unit is it. -/
def buildProgram (settings : BuildSettings) (sources : List Source) : Built LinkedProgram :=
  let ⟨messages, compiled⟩ := compileAll settings sources
  match compiled with
  | .error f => ⟨messages, .error f⟩
  | .ok none => ⟨messages, .ok none⟩
  | .ok (some units) =>
    let first := (sources.head?.map fun s => unitName s.path).getD ""
    match link units (settings.entry.getD first) with
    | .ok program => ⟨messages, .ok (some program)⟩
    | .error (.errors es) => ⟨messages ++ es.map settings.palette.linkError, .ok none⟩
    | .error (.fault f) => ⟨messages, .error (.linking f)⟩

/-! ### The command -/

/-- What a command prints and returns. -/
structure Outcome where
  exit : UInt32
  stdout : String
  /-- The lines of the error stream. -/
  stderr : List String
  deriving DecidableEq, Repr

namespace Outcome

/-- The command fails and says why. -/
def failed (messages : List String) : Outcome := ⟨1, "", messages⟩

/-- The arguments are not understood. -/
def usage : Outcome :=
  ⟨2, "", ["usage: sprig [--config FILE] build [OPTIONS] INPUT..."]⟩

/-- The answer to the question for the version. -/
def version : Outcome := ⟨0, "sprig 0.1.0\n", []⟩

end Outcome

/-- Prints the linked program, as a listing if that is asked for, and writes it where it is to
go. -/
def emitProgram [Monad m] (files : Files m) (settings : BuildSettings) (program : LinkedProgram) :
    m Outcome := do
  let listing := if settings.listing then program.chunk.listing else ""
  match settings.output with
  | some path =>
    if ← files.write path program.toJson.pretty then return ⟨0, listing, []⟩
    else return ⟨1, listing, (Failure.unwritable path).lines⟩
  | none => return ⟨0, if settings.listing then listing else program.toJson.pretty ++ "\n", []⟩

/-- Runs a build. -/
def runBuild [Monad m] (files : Files m) (request : BuildRequest) : m Outcome := do
  match ← Config.load files request.config with
  | .error f => return .failed f.lines
  | .ok config =>
    match ← Source.readAll files request.inputs with
    | .error f => return .failed f.lines
    | .ok sources =>
      let settings := BuildSettings.ofRequest request config
      let ⟨messages, result⟩ := buildProgram settings sources
      match result with
      | .error f => return .failed (messages ++ f.lines)
      | .ok none => return .failed messages
      | .ok (some program) => emitProgram files settings program

/-- Runs the command. -/
def runCommand [Monad m] (files : Files m) (args : List String) : m Outcome :=
  match Invocation.ofArgs? args with
  | none => return .usage
  | some .version => return .version
  | some (.build request) => runBuild files request

end StackScript
