/-!
# Command-line arguments

`Invocation.ofArgs?` reads the arguments of the command: options, the word `build`, and then the
options and inputs of a build in any order.

* An option with a value takes it from its own argument (`--name=value`, `-nvalue`, `-n=value`) or
  from the next one, which must not look like an option.
* `--` ends the options.
* An option may be given once before `build` and once behind it; the one behind it counts.
-/

namespace StackScript

/-- The options of the command. -/
inductive Opt where
  | verbose | version | config | entry | output | listing | noCheckpoints | noColor
  deriving DecidableEq, Repr

namespace Opt

/-- The name of an option behind two dashes. -/
def long : Opt → String
  | .verbose => "verbose"
  | .version => "version"
  | .config => "config"
  | .entry => "entry"
  | .output => "output"
  | .listing => "listing"
  | .noCheckpoints => "no-checkpoints"
  | .noColor => "no-color"

/-- The letter of an option behind one dash, if it has one. -/
def short? : Opt → Option Char
  | .version => some 'V'
  | .output => some 'o'
  | _ => none

/-- The option is followed by a value. -/
def takesValue : Opt → Bool
  | .config | .entry | .output => true
  | _ => false

/-- The value is the name of a file, and so not empty. -/
def takesFile : Opt → Bool
  | .config | .output => true
  | _ => false

/-- The options before the word `build`. -/
def general : List Opt := [.verbose, .version, .config]

/-- The options behind it. -/
def ofBuild : List Opt := [.verbose, .config, .entry, .output, .listing, .noCheckpoints, .noColor]

end Opt

/-- An argument by its form. -/
inductive Arg where
  | plain (text : String)
  /-- An option that is complete, with its value if it takes one. -/
  | complete (opt : Opt) (value : String)
  /-- An option whose value is the next argument. -/
  | waiting (opt : Opt)
  | endOfOptions

namespace Arg

/-- An option and the value in its own argument. -/
def ofOpt? (opt : Opt) (value : Option String) : Option Arg :=
  match opt.takesValue, value with
  | true, some v => some (.complete opt v)
  | true, none => some (.waiting opt)
  | false, none => some (.complete opt "")
  | false, some _ => none

/-- An option by its long name. -/
def ofLong? (opts : List Opt) (cs : List Char) : Option Arg := do
  let name := String.ofList (cs.takeWhile (· != '='))
  let opt ← opts.find? (·.long = name)
  ofOpt? opt (match cs.dropWhile (· != '=') with
    | '=' :: value => some (String.ofList value)
    | _ => none)

/-- An option by its letter.  The only letter of an option without a value asks for the version,
and then nothing behind it counts. -/
def ofShort? (opts : List Opt) (c : Char) (rest : List Char) : Option Arg := do
  let opt ← opts.find? (·.short? = some c)
  if opt.takesValue then
    ofOpt? opt (match rest with
      | [] => none
      | '=' :: value => some (String.ofList value)
      | value => some (String.ofList value))
  else ofOpt? opt none

/-- The form of an argument where `opts` are the options. -/
def read? (opts : List Opt) (text : String) : Option Arg :=
  match text.toList with
  | ['-', '-'] => some .endOfOptions
  | '-' :: '-' :: cs => ofLong? opts cs
  | '-' :: c :: cs => ofShort? opts c cs
  | _ => some (.plain text)

end Arg

/-- The options and inputs found so far. -/
structure Given where
  options : List (Opt × String) := []
  inputs : List String := []

namespace Given

/-- The value of an option that has been given. -/
def value? (g : Given) (opt : Opt) : Option String := g.options.lookup opt

/-- The option has been given. -/
def has (g : Given) (opt : Opt) : Bool := (g.value? opt).isSome

/-- Adds an option; nothing if it has been given before, or names a file by the empty string. -/
def addOption? (g : Given) (opt : Opt) (value : String) : Option Given :=
  if g.has opt then none
  else if opt.takesFile && value.isEmpty then none
  else some { g with options := (opt, value) :: g.options }

/-- Adds an input; nothing if its name is empty. -/
def addInput? (g : Given) (input : String) : Option Given :=
  if input.isEmpty then none else some { g with inputs := g.inputs ++ [input] }

/-- The arguments of a build from the next one on; `waiting` is an option without its value yet. -/
def ofBuildArgs? (waiting : Option Opt) (g : Given) : List String → Option Given
  | [] => if waiting.isNone then some g else none
  | arg :: rest =>
    match Arg.read? Opt.ofBuild arg, waiting with
    | some (.plain text), none => (g.addInput? text).bind (ofBuildArgs? none · rest)
    | some (.plain text), some opt => (g.addOption? opt text).bind (ofBuildArgs? none · rest)
    | some (.complete opt value), none =>
      (g.addOption? opt value).bind (ofBuildArgs? none · rest)
    | some (.waiting opt), none => ofBuildArgs? (some opt) g rest
    | some .endOfOptions, none => rest.foldlM addInput? g
    | _, _ => none

end Given

/-- What a build is asked to do. -/
structure BuildRequest where
  config : Option String
  inputs : List String
  entry : Option String
  output : Option String
  listing : Bool
  noCheckpoints : Bool
  noColor : Bool
  deriving DecidableEq, Repr

/-- What the command is asked to do. -/
inductive Invocation where
  | version
  | build (request : BuildRequest)
  deriving DecidableEq, Repr

namespace Invocation

/-- A build, from what stands before and behind the word. -/
def ofGiven? (general build : Given) : Option Invocation :=
  if build.inputs.isEmpty then none
  else some (.build {
    config := (build.value? .config).or (general.value? .config)
    inputs := build.inputs
    entry := build.value? .entry
    output := build.value? .output
    listing := build.has .listing
    noCheckpoints := build.has .noCheckpoints
    noColor := build.has .noColor })

/-- The arguments from the next one on, before the word `build`.  A request for the version counts
where it stands, whatever follows. -/
def ofGeneralArgs? (waiting : Option Opt) (g : Given) : List String → Option Invocation
  | [] => none
  | arg :: rest =>
    match Arg.read? Opt.general arg, waiting with
    | some (.plain text), none =>
      if text = "build" then (Given.ofBuildArgs? none {} rest).bind (ofGiven? g) else none
    | some (.plain text), some opt => (g.addOption? opt text).bind (ofGeneralArgs? none · rest)
    | some (.complete .version _), none => some .version
    | some (.complete opt value), none =>
      (g.addOption? opt value).bind (ofGeneralArgs? none · rest)
    | some (.waiting opt), none => ofGeneralArgs? (some opt) g rest
    | _, _ => none

/-- What the arguments ask for; none if they are not understood. -/
def ofArgs? (args : List String) : Option Invocation := ofGeneralArgs? none {} args

end Invocation

end StackScript
