/-!
# Arguments of a command

Splits the words after a command's name into options and operands. A long option is written
`--name value` or `--name=value`, a short one `-n value`, `-nvalue` or `-n=value`. A value
that begins with `-` needs the form with `=`, unless it is `-` alone. After `--` all words
are operands. An option that can not be repeated is given at most once.
-/

namespace Parlance

/-- An option of a command. -/
structure OptionRule where
  /-- The name after `--`. -/
  name : String
  /-- The letter after `-`. -/
  short : Option Char := none
  /-- The values it takes; `none` for an option without value. -/
  value : Option (String → Bool) := none
  repeatable : Bool := false

/-- Why the arguments do not make a command to execute. -/
inductive Refusal where
  /-- They are wrong. -/
  | usage
  /-- They ask for help. -/
  | help
  /-- They ask for the version. -/
  | version
  deriving DecidableEq, Repr, Inhabited

/-- The options and operands that were given, in order. -/
structure Arguments where
  options : List (String × String) := []
  operands : List String := []
  deriving DecidableEq, Repr, Inhabited

namespace Arguments

/-- The first value of an option. -/
def value? (a : Arguments) (name : String) : Option String :=
  a.options.lookup name

/-- All values of an option. -/
def values (a : Arguments) (name : String) : List String :=
  (a.options.filter fun o => o.1 == name).map Prod.snd

/-- Whether an option without value is given. -/
def has (a : Arguments) (name : String) : Bool :=
  (a.value? name).isSome

/-- Whether a word is an operand or a value, by its look. -/
def isPlain (word : String) : Bool :=
  !word.startsWith "-" || word == "-"

/-- Adds an option, if it may be given and takes the value. -/
def addOption (a : Arguments) (rule : OptionRule) (value : String) : Except Refusal Arguments :=
  if !rule.repeatable && a.has rule.name then .error .usage
  else if rule.value.all fun accepts => accepts value then
    .ok { a with options := a.options ++ [(rule.name, value)] }
  else .error .usage

/-- Adds an operand, if it is not empty and there is room for it. -/
def addOperand (a : Arguments) (limit : Nat) (word : String) : Except Refusal Arguments :=
  if word.isEmpty || limit ≤ a.operands.length then .error .usage
  else .ok { a with operands := a.operands ++ [word] }

/-- An option word: the rule it names, and the value written in the same word. -/
structure Named where
  rule : OptionRule
  inline : Option String

/-- The text after an `=`. -/
def afterEquals? (cs : List Char) : Option String :=
  match cs with
  | '=' :: value => some (String.ofList value)
  | _ => none

/-- The option that a word names. -/
def named (rules : List OptionRule) (word : String) : Except Refusal Named :=
  match word.toList with
  | '-' :: '-' :: cs =>
    let name := String.ofList (cs.takeWhile (· ≠ '='))
    let inline := afterEquals? (cs.dropWhile (· ≠ '='))
    match rules.find? fun rule => rule.name == name with
    | some rule => .ok { rule, inline }
    | none => .error (if name == "help" && inline.isNone then .help else .usage)
  | '-' :: c :: cs =>
    match rules.find? fun rule => rule.short == some c with
    | some rule =>
      let inline :=
        if cs.isEmpty then none else some ((afterEquals? cs).getD (String.ofList cs))
      .ok { rule, inline }
    | none => .error (if c = 'h' then .help else .usage)
  | _ => .error .usage

/-- Splits words into options and at most `limit` operands. -/
def split (rules : List OptionRule) (limit : Nat) (a : Arguments) :
    List String → Except Refusal Arguments
  | [] => .ok a
  | "--" :: words => words.foldlM (fun a word => a.addOperand limit word) a
  | word :: words =>
    if isPlain word then do
      let a ← a.addOperand limit word
      split rules limit a words
    else
      match named rules word with
      | .error e => .error e
      | .ok { rule, inline } =>
        match rule.value, inline, words with
        | none, none, words => do
          let a ← a.addOption rule ""
          split rules limit a words
        | none, some _, _ => .error .usage
        | some _, some value, words => do
          let a ← a.addOption rule value
          split rules limit a words
        | some _, none, value :: words =>
          if isPlain value then do
            let a ← a.addOption rule value
            split rules limit a words
          else .error .usage
        | some _, none, [] => .error .usage

end Arguments

end Parlance
