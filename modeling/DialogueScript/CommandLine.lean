import DialogueScript.Script

/-!
# The command line

An invocation names a script, settings of the form `NAME=VALUE` and a node. The
script is read, the settings are made one after another, the script is compiled
and executed, and the variables are printed as lines `name = value`. The first
failure ends it all with one line on the error output and the status 1.
-/

namespace DialogueScript

/-- What the arguments of the command line ask for. -/
structure Invocation where
  settings : List String := []
  node : Option Nat := none
  /-- Whether `contents` is the path of a file that holds the script. -/
  fromFile : Bool := false
  /-- The script itself or a path. -/
  contents : Option String := none

namespace Invocation

/-! ## Arguments -/

/-- The largest number that can stand for a node. -/
def largestNode : Nat := 18446744073709551615

def withNode? (i : Invocation) (text : String) : Option Invocation :=
  let digits := text.toList
  if digits.isEmpty || !digits.all Char.isDigit || i.node.isSome then none
  else
    let node := Decimal.natOfDigits digits
    if node ≤ largestNode then some { i with node := some node } else none

def withSetting (i : Invocation) (setting : String) : Invocation :=
  { i with settings := i.settings ++ [setting] }

/-- Takes the script or path, of which there is at most one. -/
def withContents? (i : Invocation) (contents : String) : Option Invocation :=
  if i.contents.isSome then none else some { i with contents := some contents }

/-- Reads arguments from left to right. Behind `--` nothing is an option. -/
def readArguments (i : Invocation) : List String → Option Invocation
  | [] => some i
  | "--" :: rest => rest.foldlM withContents? i
  | "-f" :: rest | "--file" :: rest => readArguments { i with fromFile := true } rest
  | "-n" :: value :: rest | "--node" :: value :: rest => do readArguments (← i.withNode? value) rest
  | "-s" :: value :: rest | "--set" :: value :: rest => readArguments (i.withSetting value) rest
  | argument :: rest =>
    match Text.cutFirst? '=' argument.toList with
    | some (['-', '-', 'n', 'o', 'd', 'e'], value) => do
      readArguments (← i.withNode? (String.ofList value)) rest
    | some (['-', '-', 's', 'e', 't'], value) =>
      readArguments (i.withSetting (String.ofList value)) rest
    | _ =>
      if argument.toList.head? = some '-' && argument ≠ "-" then none
      else do readArguments (← i.withContents? argument) rest

def ofArguments? (arguments : List String) : Option Invocation :=
  readArguments {} arguments

/-! ## The script -/

inductive Origin where
  | standardInput
  | file (path : String)
  | argument (text : String)
deriving DecidableEq

/-- Where the script of an invocation comes from. Without contents, and for `-`, it
is the standard input. -/
def origin (i : Invocation) : Origin :=
  match i.contents with
  | none | some "-" => .standardInput
  | some contents => if i.fromFile then .file contents else .argument contents

inductive ReadFailure where
  | notFound
  | notText
  | other (reason : String)
deriving DecidableEq

def ReadFailure.message : ReadFailure → String
  | notFound => "No such file or directory (os error 2)"
  | notText => "stream did not contain valid UTF-8"
  | other reason => reason

def textOfBytes (bytes : ByteArray) : Except ReadFailure String :=
  match String.fromUTF8? bytes with
  | some text => .ok text
  | none => .error .notText

/-! ## Settings -/

inductive SettingFault where
  | missingSign (setting : String)
  | missingName (setting : String)
  | invalidValue (name : String) (fault : Located Fault)
deriving DecidableEq

def SettingFault.message : SettingFault → String
  | missingSign setting => "Expected NAME=VALUE, got " ++ Fault.quoted setting
  | missingName setting => "Missing variable name in " ++ Fault.quoted setting
  | invalidValue name fault => "Invalid value for " ++ name ++ ": " ++ fault.render Fault.message

/-- Makes one setting. The value is an expression and can read the variables that
were set before. -/
def applySetting (store : Store) (setting : String) : Except SettingFault Store :=
  match Text.cutFirst? '=' setting.toList with
  | none => .error (.missingSign setting)
  | some (before, value) =>
    let name := String.ofList (Text.trim before)
    if name.isEmpty then .error (.missingName setting)
    else
      match Plan.compile value 0 with
      | .error fault => .error (.invalidValue name fault)
      | .ok plan => .ok (store.insert name (plan.evaluate store))

/-! ## Running -/

/-- What a run prints, and its exit status. -/
structure Result where
  status : UInt32
  output : String
  errors : String
deriving DecidableEq

def Result.failed (message : String) : Result := ⟨1, "", message ++ "\n"⟩

/-- The variables of a store as lines `name = value`. -/
def listing (store : Store) : String :=
  String.join (store.entries.map fun (name, value) => name ++ " = " ++ value.display ++ "\n")

/-- Runs an invocation on the script that was read for it. -/
def run (i : Invocation) (draws : Nat → Float) (script : Except ReadFailure String) : Result :=
  match script with
  | .error e => .failed ("Error reading script: " ++ e.message)
  | .ok source =>
    match i.settings.foldlM applySetting .empty with
    | .error e => .failed e.message
    | .ok store =>
      match Script.compile Registry.builtin source i.node with
      | .error e => .failed (e.render Fault.message)
      | .ok script =>
        let outcome := script.execute i.node { store, draws }
        match outcome.failure with
        | some e => .failed (e.render CallFailure.text)
        | none => ⟨0, listing outcome.machine.store, ""⟩

end Invocation

end DialogueScript
