import ShellInliner.CommandLine.Mark

/-! # Invocations

    An invocation is what a list of arguments asks for.  Options are taken from
    the left to the right and a later value takes the place of an earlier one;
    arguments without a meaning are kept aside, and there may be none of them in
    the end. -/

namespace ShellInliner.CommandLine

/-! ### Options in use -/

/-- An option with its value, if it takes one. -/
abbrev Setting := Switch × Option String

/-- What one argument with options comes to. -/
structure Effect where
  settings : List Setting := []
  /-- The option that has to find its value in the next argument. -/
  awaiting : Option Switch := none
  /-- What is left of the argument and has no meaning. -/
  extra : Option String := none

namespace Effect

/-- The effect of an option that nothing is written to. -/
def alone (w : Switch) : Effect :=
  if w.takesValue then { awaiting := some w } else { settings := [(w, none)] }

/-- The effect of an option that a value is assigned to. -/
def assigned (w : Switch) (value : List Char) : Except UsageFault Effect :=
  if w.takesValue then .ok { settings := [(w, some (String.ofList value))] }
  else .error (.valueIgnored w (String.ofList value))

/-- An option without a value, before the effect of what follows. -/
def after (w : Switch) (e : Effect) : Effect :=
  { e with settings := (w, none) :: e.settings }

/-- The effect of a short option with a text directly after its letter: its
    value, or the letters of more options. -/
def joined (s : Scope) (w : Switch) : List Char → Except UsageFault Effect
  | [] => assigned w []
  | c :: cs =>
    -- A hyphen is the letter of no option: the rest is a value, wanted or not.
    if w.takesValue || c == '-' then assigned w (c :: cs)
    else
      match s.named? ['-', c] with
      | none => .ok { settings := [(w, none)], extra := some (String.ofList ('-' :: c :: cs)) }
      | some next => after w <$>
        match cs with
        | [] => .ok (alone next)
        | '=' :: value => assigned next value
        | cs => joined s next cs

/-- The effect of an option with what is written to it. -/
def ofUse (s : Scope) (u : Use) : Except UsageFault Effect :=
  match u.attached with
  | .nothing => .ok (alone u.switch)
  | .joined text => joined s u.switch text
  | .assigned value => assigned u.switch value

end Effect

/-! ### What is given -/

/-- What arguments have given so far. -/
structure Given where
  verbose : Bool := false
  config : Option String := none
  output : Option String := none
  resolve : Bool := false
  file : Option String := none
  /-- Arguments without a meaning. -/
  extras : List String := []

/-- Why no command is carried out. -/
inductive Stop
  | help (s : Scope)
  | refused (s : Scope) (f : UsageFault)
  deriving DecidableEq, Repr

/-- A fault in a scope stops the reading. -/
def inScope {α : Type} (s : Scope) : Except UsageFault α → Except Stop α
  | .ok a => .ok a
  | .error f => .error (.refused s f)

namespace Given

def addExtras (g : Given) (args : List String) : Given :=
  { g with extras := g.extras ++ args }

/-- Take an option; the wish for help stops the reading. -/
def set (s : Scope) (g : Given) : Setting → Except Stop Given
  | (.help, _) => .error (.help s)
  | (.verbose, _) => .ok { g with verbose := true }
  | (.config, value) => .ok { g with config := value }
  | (.output, value) => .ok { g with output := value }
  | (.resolve, _) => .ok { g with resolve := true }

/-- Take the effect of an argument, once the awaited value is found. -/
def apply (s : Scope) (g : Given) (e : Effect) (value : Option Setting) : Except Stop Given :=
  (e.settings ++ value.toList).foldlM (set s) (g.addExtras e.extra.toList)

/-- Does the scope still wait for the name of a file? -/
def wantsFile (s : Scope) (g : Given) : Bool :=
  (s.operand == .optionalFile || s.operand == .requiredFile) && g.file.isNone

/-- Take marked arguments.  In the scope of the program the first argument that
    is no option ends the reading and is left over, with all that follows. -/
def collect (s : Scope) (g : Given) : List (String × Mark) → Except Stop (Given × List String)
  | [] => .ok (g, [])
  | (a, .plain) :: rest =>
    if s.operand = .command then .ok (g, a :: rest.map (·.1))
    else if g.wantsFile s then
      let g' := { g with file := some a }
      -- A separator right after the operand vanishes with it.
      match rest with
      | (_, .separator) :: rest' => collect s g' rest'
      | rest => collect s g' rest
    else collect s (g.addExtras [a]) rest
  | (a, .separator) :: rest =>
    -- Before the command the separator is taken for the name of one.
    if s.operand = .command && !rest.isEmpty then .ok (g, a :: rest.map (·.1))
    else if g.wantsFile s then collect s g rest
    else collect s (g.addExtras [a]) rest
  | (a, .unknown) :: rest => collect s (g.addExtras [a]) rest
  | (_, .known u) :: rest => do
    let e ← inScope s (Effect.ofUse s u)
    match e.awaiting with
    | none =>
      let g' ← g.apply s e none
      collect s g' rest
    | some w =>
      match rest with
      | (value, .plain) :: rest' =>
        let g' ← g.apply s e (some (w, some value))
        collect s g' rest'
      | _ => .error (.refused s (.valueMissing w))

def collectAll (s : Scope) (g : Given) (args : List String) : Except Stop (Given × List String) := do
  g.collect s (← inScope s (markAll s args))

end Given

/-! ### Requests -/

/-- What is asked for. -/
inductive Request
  /-- Nothing: the help text of the program is shown. -/
  | overview
  /-- Resolve the imports of a script; it comes from the standard input if no
      file is named. -/
  | build (file output : Option String)
  | ast (file : Option String) (resolve : Bool)
  | functions (file : String)
  | init
  deriving DecidableEq, Repr

/-- What a list of arguments asks for. -/
structure Invocation where
  verbose : Bool
  config : Option String
  request : Request
  deriving DecidableEq, Repr

/-- The file that a script comes from; a hyphen is the standard input. -/
def scriptFile (operand : Option String) : Option String :=
  operand.filter (· != "-")

def Given.request (g : Given) : Command → Except UsageFault Request
  | .build => .ok (.build (scriptFile g.file) g.output)
  | .ast => .ok (.ast (scriptFile g.file) g.resolve)
  | .functions =>
    match g.file with
    | some f => .ok (.functions f)
    | none => .error .fileMissing
  | .init => .ok .init

namespace Invocation

/-- The invocation that is given, if every argument had a meaning. -/
def ofGiven (g : Given) (r : Request) : Except Stop Invocation :=
  if g.extras.isEmpty then .ok ⟨g.verbose, g.config, r⟩
  else .error (.refused .program (.unrecognized g.extras))

/-- Read a list of arguments. -/
def read (args : List String) : Except Stop Invocation := do
  let (g, rest) ← Given.collectAll .program {} args
  match rest with
  | [] => ofGiven g .overview
  | name :: rest =>
    match Command.named? name with
    | none => .error (.refused .program (.unknownCommand name))
    | some c => do
      let (g, _) ← g.collectAll (.command c) rest
      let r ← inScope (.command c) (g.request c)
      ofGiven g r

end Invocation

end ShellInliner.CommandLine
