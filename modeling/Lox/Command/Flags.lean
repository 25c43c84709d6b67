import Lox.Text.Quoted

/-!
Flags on a command line.

A flag has one or two dashes and may carry a value after an equals sign.  Flags end
at the first argument that is none, or after two dashes that stand alone.
-/

namespace Lox

/-- What a flag takes: a text, a truth value after an equals sign, or anything. -/
inductive Flag.Shape where
  | text (default : Bytes)
  | switch
  | counter
  deriving DecidableEq, Repr

structure Flag where
  name : Bytes
  shape : Flag.Shape
  help : Bytes
  deriving DecidableEq, Repr

namespace Flags

structure Setting where
  name : Bytes
  value : Bytes
  deriving DecidableEq, Repr

inductive Problem where
  | malformed (argument : Bytes)
  | unknown (name : Bytes)
  | valueMissing (name : Bytes)
  | notBoolean (name value : Bytes)
  | helpWanted
  deriving DecidableEq, Repr

/-- The line that explains a problem; a call for help needs none. -/
def Problem.report : Problem → Bytes
  | .malformed argument => utf8 "bad flag syntax: " ++ argument ++ utf8 "\n"
  | .unknown name => utf8 "flag provided but not defined: -" ++ name ++ utf8 "\n"
  | .valueMissing name => utf8 "flag needs an argument: -" ++ name ++ utf8 "\n"
  | .notBoolean name value =>
      utf8 "invalid boolean value " ++ Quoted.encode value ++ utf8 " for -" ++ name ++
        utf8 ": parse error\n"
  | .helpWanted => []

/-! ## Single arguments -/

def dash : UInt8 := 0x2d

def equals : UInt8 := 0x3d

inductive Argument where
  | positional
  | terminator
  | malformed
  | flag (name : Bytes) (value : Option Bytes)
  deriving DecidableEq, Repr

def splitValue (body : Bytes) : Bytes × Option Bytes :=
  match body.dropWhile (· != equals) with
  | [] => (body, none)
  | _ :: value => (body.takeWhile (· != equals), some value)

def classifyBody (body : Bytes) : Argument :=
  match body with
  | [] => .malformed
  | b :: _ =>
      if b = dash || b = equals then .malformed
      else
        let (name, value) := splitValue body
        .flag name value

def classify : Bytes → Argument
  | [] => .positional
  | [_] => .positional
  | a :: b :: rest =>
      if a ≠ dash then .positional
      else if b ≠ dash then classifyBody (b :: rest)
      else if rest.isEmpty then .terminator
      else classifyBody rest

def boolean? (value : Bytes) : Option Bool :=
  if [utf8 "1", utf8 "t", utf8 "T", utf8 "TRUE", utf8 "true", utf8 "True"].contains value then
    some true
  else if [utf8 "0", utf8 "f", utf8 "F", utf8 "FALSE", utf8 "false", utf8 "False"].contains value
    then some false
  else none

/-! ## Command lines -/

/-- The flag with a name; `h` and `help` call for help unless they are flags. -/
def find (flags : List Flag) (name : Bytes) : Except Problem Flag :=
  match flags.find? (·.name = name) with
  | some flag => .ok flag
  | none =>
      .error (if name = utf8 "h" ∨ name = utf8 "help" then .helpWanted else .unknown name)

def prepend (setting : Setting) :
    Except Problem (List Setting × List Bytes) → Except Problem (List Setting × List Bytes)
  | .error problem => .error problem
  | .ok (settings, rest) => .ok (setting :: settings, rest)

/-- The settings at the front of a command line and the arguments after them. -/
def parse (flags : List Flag) : List Bytes → Except Problem (List Setting × List Bytes)
  | [] => .ok ([], [])
  | argument :: rest =>
      match classify argument with
      | .positional => .ok ([], argument :: rest)
      | .terminator => .ok ([], rest)
      | .malformed => .error (.malformed argument)
      | .flag name value =>
          match find flags name with
          | .error problem => .error problem
          | .ok flag =>
              match flag.shape, value with
              | .text _, some value => prepend ⟨name, value⟩ (parse flags rest)
              | .text _, none =>
                  match rest with
                  | [] => .error (.valueMissing name)
                  | value :: rest => prepend ⟨name, value⟩ (parse flags rest)
              | .switch, some value =>
                  if (boolean? value).isSome then prepend ⟨name, value⟩ (parse flags rest)
                  else .error (.notBoolean name value)
              | .switch, none => prepend ⟨name, utf8 "true"⟩ (parse flags rest)
              | .counter, value =>
                  prepend ⟨name, value.getD (utf8 "true")⟩ (parse flags rest)

theorem eq_ok_of_prepend {setting : Setting} {settings : List Setting} {rest : List Bytes}
    {parsed : Except Problem (List Setting × List Bytes)}
    (h : prepend setting parsed = .ok (settings, rest)) : ∃ more, parsed = .ok (more, rest) := by
  cases parsed with
  | error problem => simp [prepend] at h
  | ok p => simp_all [prepend, Prod.ext_iff]

theorem length_le_of_parse {flags : List Flag} {arguments : List Bytes} {settings : List Setting}
    {rest : List Bytes} (h : parse flags arguments = .ok (settings, rest)) :
    rest.length ≤ arguments.length := by
  fun_induction parse flags arguments generalizing settings rest <;> try (simp_all; done)
  all_goals
    obtain ⟨more, hmore⟩ := eq_ok_of_prepend h
    rename_i ih
    have := ih hmore
    simp only [List.length_cons]
    omega

/--
The settings anywhere on a command line and the arguments between them.  After every
argument that is none, flags may follow again.
-/
def parseAll (flags : List Flag) (arguments : List Bytes) :
    Except Problem (List Setting × List Bytes) :=
  match h : parse flags arguments with
  | .error problem => .error problem
  | .ok (settings, []) => .ok (settings, [])
  | .ok (settings, argument :: rest) =>
      have : rest.length < arguments.length := length_le_of_parse h
      match parseAll flags rest with
      | .error problem => .error problem
      | .ok (more, others) => .ok (settings ++ more, argument :: others)
termination_by arguments.length

/-! ## Settings -/

def last? (settings : List Setting) (name : Bytes) : Option Bytes :=
  (settings.reverse.find? (·.name = name)).map Setting.value

def isOn (settings : List Setting) (name : Bytes) : Bool :=
  ((last? settings name).bind boolean?).getD false

/-! ## Usage -/

def describe (flag : Flag) : Bytes :=
  let (kind, default) :=
    match flag.shape with
    | .text [] => (utf8 " string", [])
    | .text default => (utf8 " string", utf8 " (default " ++ Quoted.encode default ++ utf8 ")")
    | .switch | .counter => ([], [])
  utf8 "  -" ++ flag.name ++ kind ++ utf8 "\n    \t" ++ flag.help ++ default ++ utf8 "\n"

/-- The flags of a command, which are given in the order of their names. -/
def usage (command : Bytes) (flags : List Flag) : Bytes :=
  utf8 "Usage of " ++ command ++ utf8 ":\n" ++ flags.flatMap describe

end Flags

end Lox
