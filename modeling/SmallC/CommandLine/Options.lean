import SmallC.Compilation

/-!
# Options

The arguments of a command are read from left to right. An option may have its
value attached, after an equals sign or in the next argument; options of one
letter without values may be joined; after a double dash all arguments are inputs.
-/

namespace SmallC.CommandLine

/-- What a command asks for. -/
structure Options where
  /-- The files to compile, in order. -/
  inputs : List Path
  /-- The directories to look for included files in. -/
  includeDirectories : List Path
  /-- The macros to define, each with an equals sign before its body if it has one. -/
  defines : List String
  /-- What the output is. -/
  output : OutputOptions
  /-- Only preprocess, and print the text. -/
  preprocessOnly : Bool
  /-- Print the tokens too. -/
  tokens : Bool
  /-- Print the tree as JSON. -/
  json : Bool
  /-- Report more. -/
  verbose : Bool
  deriving DecidableEq, Repr

/-- What the arguments of a command amount to. -/
inductive Request where
  | compile (options : Options)
  | version
  | help
  | misuse
  deriving DecidableEq, Repr

/-- The options that have a value. -/
inductive Valued where
  | include | define | out | type | link
  deriving DecidableEq, Repr

/-- The options without a value. -/
inductive Switch where
  | preprocessOnly | tokens | json | verbose | version | help
  deriving DecidableEq, Repr

/-- An option. -/
inductive Choice where
  | valued (v : Valued)
  | switch (s : Switch)
  deriving DecidableEq, Repr

/-- The option of a letter. -/
def Choice.ofLetter? : Char → Option Choice
  | 'I' => some (.valued .include)
  | 'D' => some (.valued .define)
  | 'o' => some (.valued .out)
  | 't' => some (.valued .type)
  | 'l' => some (.valued .link)
  | 'E' => some (.switch .preprocessOnly)
  | 'v' => some (.switch .verbose)
  | 'V' => some (.switch .version)
  | 'h' => some (.switch .help)
  | _ => none

/-- The option of a word. -/
def Choice.ofWord? (word : String) : Option Choice :=
  match word with
  | "include" => some (.valued .include)
  | "define" => some (.valued .define)
  | "out" => some (.valued .out)
  | "type" => some (.valued .type)
  | "link" => some (.valued .link)
  | "tokens" => some (.switch .tokens)
  | "json" => some (.switch .json)
  | "verbose" => some (.switch .verbose)
  | "version" => some (.switch .version)
  | "help" => some (.switch .help)
  | _ => none

/-- What the arguments so far ask for; `type` is absent until it is chosen. -/
structure Draft where
  /-- The options. -/
  options : Options
  /-- The chosen type of the output. -/
  type : Option OutputType
  deriving DecidableEq, Repr

/-- Before the first argument. -/
def Draft.start : Draft :=
  ⟨⟨[], [], [], ⟨none, .executable, []⟩, false, false, false, false⟩, none⟩

/-- Why reading stops before the last argument. -/
inductive Stop where
  | version
  | help
  | misuse
  deriving DecidableEq, Repr

/-- The request that a stop amounts to. -/
def Stop.request : Stop → Request
  | .version => .version
  | .help => .help
  | .misuse => .misuse

/-- One more input, which has to have a name. -/
def Draft.input (p : Draft) (text : String) : Except Stop Draft :=
  if text = "" then .error .misuse
  else .ok { p with options := { p.options with inputs := p.options.inputs ++ [⟨text⟩] } }

/-- The value of an option; a path must not be empty, and only directories to
look in, macros and libraries may be given more than once. -/
def Draft.value (p : Draft) (v : Valued) (text : String) : Except Stop Draft :=
  let o := p.options
  match v with
  | .include =>
    if text = "" then .error .misuse
    else
      let includeDirectories := o.includeDirectories ++ [⟨text⟩]
      .ok { p with options := { o with includeDirectories } }
  | .define => .ok { p with options := { o with defines := o.defines ++ [text] } }
  | .link =>
    let output := { o.output with libraries := o.output.libraries ++ [text] }
    .ok { p with options := { o with output } }
  | .out =>
    if text = "" ∨ o.output.directory.isSome then .error .misuse
    else .ok { p with options := { o with output := { o.output with directory := some ⟨text⟩ } } }
  | .type =>
    let chosen : Option OutputType :=
      if text = "executable" then some .executable
      else if text = "library" then some .library
      else none
    match p.type, chosen with
    | none, some type =>
      .ok { p with options := { o with output := { o.output with type } }, type := some type }
    | _, _ => .error .misuse

/-- An option without a value, which must not be repeated. -/
def Draft.switch (p : Draft) (s : Switch) : Except Stop Draft :=
  let o := p.options
  match s with
  | .version => .error .version
  | .help => .error .help
  | .preprocessOnly =>
    if o.preprocessOnly then .error .misuse
    else .ok { p with options := { o with preprocessOnly := true } }
  | .tokens =>
    if o.tokens then .error .misuse else .ok { p with options := { o with tokens := true } }
  | .json => if o.json then .error .misuse else .ok { p with options := { o with json := true } }
  | .verbose =>
    if o.verbose then .error .misuse else .ok { p with options := { o with verbose := true } }

/-- What the letters of one argument ask for; an option at the end of them may
wait for its value. -/
def Draft.letters (p : Draft) : List Char → Except Stop (Draft × Option Valued)
  | [] => .ok (p, none)
  | c :: cs =>
    match Choice.ofLetter? c with
    | none => .error .misuse
    | some (.switch s) =>
      match p.switch s with
      | .error stop => .error stop
      | .ok p => letters p cs
    | some (.valued v) =>
      match cs with
      | [] => .ok (p, some v)
      | '=' :: text => (p.value v (String.ofList text)).map (·, none)
      | text => (p.value v (String.ofList text)).map (·, none)

/-- What the word of one argument asks for, with the value after its equals sign
if it has one. -/
def Draft.word (p : Draft) (cs : List Char) : Except Stop (Draft × Option Valued) :=
  let word := cs.takeWhile (· ≠ '=')
  match Choice.ofWord? (String.ofList word), cs.drop word.length with
  | some (.switch s), [] => (p.switch s).map (·, none)
  | some (.valued v), [] => .ok (p, some v)
  | some (.valued v), _ :: text => (p.value v (String.ofList text)).map (·, none)
  | _, _ => .error .misuse

/-- One argument that is no value of the option before it, and the option that
waits for the next argument. -/
def Draft.argument (p : Draft) (text : String) : Except Stop (Draft × Option Valued) :=
  match text.toList with
  | '-' :: '-' :: cs => p.word cs
  | '-' :: c :: cs => p.letters (c :: cs)
  | _ => (p.input text).map (·, none)

/-- Reads the arguments after those of `p`; `waiting` is the option whose value
comes next. A value may not look like an option. -/
def Draft.read (p : Draft) (waiting : Option Valued) : List String → Except Stop Draft
  | [] => if waiting.isSome then .error .misuse else .ok p
  | text :: rest =>
    match waiting with
    | some v =>
      if text.length > 1 ∧ text.toList.head? = some '-' then .error .misuse
      else
        match p.value v text with
        | .error stop => .error stop
        | .ok p => read p none rest
    | none =>
      if text = "--" then rest.foldlM Draft.input p
      else
        match p.argument text with
        | .error stop => .error stop
        | .ok (p, waiting) => read p waiting rest

/-- What the arguments of a command ask for; it needs an input. -/
def Request.ofArguments (arguments : List String) : Request :=
  match Draft.start.read none arguments with
  | .error stop => stop.request
  | .ok p => if p.options.inputs.isEmpty then .misuse else .compile p.options

/-- A macro to define: its name, and its body after the first equals sign. -/
def definition (text : String) : String × Option String :=
  let cs := text.toList
  let name := cs.takeWhile (· ≠ '=')
  match cs.drop name.length with
  | [] => (text, none)
  | _ :: body => (String.ofList name, some (String.ofList body))

/-- What the preprocessor depends on. -/
def Options.config (o : Options) : PreprocessConfig where
  includeDirectories := o.includeDirectories
  predefined := o.defines.map definition
  maxDepth := PreprocessConfig.defaultMaxDepth

end SmallC.CommandLine
