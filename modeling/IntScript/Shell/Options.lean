import IntScript.Shell.Source

/-!
# Options of the command
-/

namespace IntScript.Shell

/-- What the command is asked to do. -/
structure Options where
  /-- Take in lines one at a time. -/
  interactive : Bool
  /-- List the tokens of the source instead of running it. -/
  listTokens : Bool
  /-- Write the source out in its standard layout instead of running it. -/
  listDefinitions : Bool
  callLimit : Nat
  /-- A source given on the command line. -/
  inlineSource : Option String
  /-- The path of a file that holds the source. -/
  path : Option String
  deriving DecidableEq, Repr

/-- Where the command takes its source from. -/
inductive Origin where
  | conversation
  | file (path : String)
  | inline (source : String)
  | nowhere
  deriving DecidableEq, Repr

namespace Options

/-- The options when nothing is asked for. -/
def initial : Options :=
  ⟨false, false, false, Session.defaultCallLimit, none, none⟩

/-- What to do with the source.  A listing of tokens goes before one of definitions. -/
def mode (options : Options) : Mode :=
  if options.listTokens then .listTokens
  else if options.listDefinitions then .listDefinitions
  else .run

/-- Where the source comes from. -/
def origin (options : Options) : Origin :=
  if options.interactive then .conversation
  else
    match options.path, options.inlineSource with
    | some path, _ => .file path
    | none, some source => .inline source
    | none, none => .nowhere

/-! ## Reading the arguments -/

/-- Sets the limit on calls from the text of an argument. -/
def withLimit (options : Options) (text : String) : Except String Options :=
  let digits := text.toList
  let limit := Nat.ofDigitChars 10 digits 0
  if !digits.isEmpty && digits.all Char.isDigit && limit < UInt64.size then
    .ok { options with callLimit := limit }
  else .error ("invalid call limit: " ++ text)

/-- Sets the inline source, of which there can be one. -/
def withInline (options : Options) (source : String) : Except String Options :=
  match options.inlineSource with
  | none => .ok { options with inlineSource := some source }
  | some _ => .error "only one inline source can be given"

/-- Sets the path, of which there can be one. -/
def withPath (options : Options) (path : String) : Except String Options :=
  match options.path with
  | none => .ok { options with path := some path }
  | some _ => .error "only one file can be given"

/-- What follows `lead` in an argument that starts with it. -/
def valueBehind? (lead argument : String) : Option String :=
  if lead.toList.isPrefixOf argument.toList then
    some (String.ofList (argument.toList.drop lead.length))
  else none

/-- Whether an argument looks like an option.  A single dash does not. -/
def looksLikeOption (argument : String) : Bool :=
  argument.startsWith "-" && argument ≠ "-"

/-- Takes in an argument that stands for itself. -/
def withFlag (options : Options) (argument : String) : Except String Options :=
  if argument = "--repl" ∨ argument = "-r" then .ok { options with interactive := true }
  else if argument = "--tokens" then .ok { options with listTokens := true }
  else if argument = "--ast" then .ok { options with listDefinitions := true }
  else
    match valueBehind? "--eval=" argument, valueBehind? "--max-depth=" argument with
    | some source, _ => options.withInline source
    | none, some limit => options.withLimit limit
    | none, none =>
      if looksLikeOption argument then .error ("unknown option: " ++ argument)
      else options.withPath argument

/-- Takes in arguments from left to right.  Behind `--` there are only paths. -/
def withArguments (options : Options) : List String → Except String Options
  | [] => .ok options
  | "--" :: paths => paths.foldlM withPath options
  | argument :: rest =>
    if argument = "--eval" ∨ argument = "-e" ∨ argument = "--max-depth" then
      match rest with
      | [] => .error (argument ++ " needs a value")
      | next :: rest => do
        if looksLikeOption next then throw (argument ++ " needs a value")
        let options ←
          if argument = "--max-depth" then options.withLimit next else options.withInline next
        options.withArguments rest
    else do (← options.withFlag argument).withArguments rest

/-- Sources exclude one another. -/
def check (options : Options) : Except String Options :=
  if options.interactive ∧ (options.path.isSome ∨ options.inlineSource.isSome) then
    .error "an interactive session takes no source"
  else if options.path.isSome ∧ options.inlineSource.isSome then
    .error "a file and an inline source exclude each other"
  else .ok options

/-- The options that the arguments of the command ask for. -/
def ofArguments (arguments : List String) : Except String Options := do
  (← initial.withArguments arguments).check

end Options

end IntScript.Shell
