import SecondBrain.Library.Json
import SecondBrain.Vault.Reader
import SecondBrain.Vault.Writer

set_option autoImplicit false

namespace SecondBrain

open FileSystem (IoError)

/-- Errors of a dispatched tool. -/
inductive DispatchError where
  | unknownTool (name : Text)
  | invalid (message : Text)
  | coded (code message : Text)
  | write (error : VaultWriteError)
deriving DecidableEq

/-- The arguments of a tool, or the entries of an object. -/
abbrev Arguments := List (Text × Json.Value)

/-- Vault code as a part of a tool. -/
abbrev ToolProg (α : Type) : Type := VaultProg DispatchError α

def invalid (message : Text) : DispatchError := .invalid message

def readError (error : VaultReaderError) : DispatchError := invalid error.message

def isMissing : VaultReaderError → Bool
  | .io .notFound | .path (.io .notFound) => true
  | _ => false

/-- An argument that must be a string with at least one character. -/
def string (args : Arguments) (name : Text) : Except DispatchError Text :=
  match (args.lookup name).bind Json.Value.asStr with
  | some value =>
    if value = [] then .error (invalid (name ++ " must be a non-empty string".toList)) else .ok value
  | none => .error (invalid (name ++ " must be a non-empty string".toList))

def optionalString (args : Arguments) (name : Text) : Except DispatchError (Option Text) :=
  match args.lookup name with
  | none => .ok none
  | some (.string value) => .ok (some value)
  | some _ => .error (invalid (name ++ " must be a string".toList))

end SecondBrain
