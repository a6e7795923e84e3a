import ScriptCore.Advisory.Code
import ScriptCore.Text.Utf8

/-!
# Advisory — advisory conditions and their texts

An advisory has a kind, a message and, when the caller supplied one, the site in the compiled
program that raised it.
-/

namespace ScriptCore

/-- The kinds of advisory. -/
inductive Advisory.Kind
  | notNumeric
  | uninitialized
  | duplicateDeclaration
  | missingPackage
  | redefined
  deriving DecidableEq, Repr

/-- The code of a kind. -/
def Advisory.Kind.code : Advisory.Kind → Code
  | notNumeric => .notNumeric
  | uninitialized => .uninitialized
  | duplicateDeclaration => .duplicateDeclaration
  | missingPackage => .missingPackage
  | redefined => .redefined

/-- Every kind. -/
def Advisory.Kind.all : List Advisory.Kind :=
  [.notNumeric, .uninitialized, .duplicateDeclaration, .missingPackage, .redefined]

/-- The name of a kind. -/
def Advisory.Kind.name : Advisory.Kind → String
  | notNumeric => "NotNumeric"
  | uninitialized => "Uninitialized"
  | duplicateDeclaration => "DuplicateDeclaration"
  | missingPackage => "MissingPackage"
  | redefined => "Redefined"

/-- The kind of a name. -/
def Advisory.Kind.ofName? (s : String) : Option Advisory.Kind := all.find? (·.name = s)

/-- One reported advisory. -/
structure Advisory where
  kind : Advisory.Kind
  site : Option Nat := none
  message : String
  deriving DecidableEq, Repr

namespace Advisory

/-- Two upper-case hexadecimal digits. -/
def hexByte (b : UInt8) : String :=
  let digit (n : Nat) := (Nat.digitChar n).toUpper
  String.ofList [digit (b.toNat / 16), digit (b.toNat % 16)]

/-- A byte as it stands in a message. -/
def showByte (b : UInt8) : String :=
  if b = 0x0A then "\\n"
  else if b = 0x09 then "\\t"
  else if 0x20 ≤ b ∧ b ≤ 0x7E then (Char.ofNat b.toNat).toString
  else "\\x" ++ hexByte b

/-- Bytes as they stand in a message: the first 32, and dots if there are more. -/
def showBytes (b : Bytes) : String :=
  String.join ((b.take 32).map showByte) ++ if 32 < b.length then "..." else ""

/-- A string used as a number is not one. -/
def notNumeric (text : Bytes) : Advisory :=
  { kind := .notNumeric, message := "Argument \"" ++ showBytes text ++ "\" isn't numeric" }

/-- An undefined value was read. -/
def uninitialized (context : String) : Advisory :=
  { kind := .uninitialized, message := "Use of uninitialized value in " ++ context }

/-- A lexical name was declared twice in one scope. -/
def duplicateDeclaration (declarator name : String) : Advisory :=
  { kind := .duplicateDeclaration
    message := "\"" ++ declarator ++ "\" variable " ++ name ++
      " masks earlier declaration in same scope" }

/-- A parent list names a package that does not exist. -/
def missingPackage (parent child : String) : Advisory :=
  { kind := .missingPackage
    message := "Can't locate package " ++ parent ++ " for @" ++ child ++ "::ISA" }

/-- A method replaced an earlier one. -/
def redefined (package name : String) : Advisory :=
  { kind := .redefined, message := "Subroutine " ++ package ++ "::" ++ name ++ " redefined" }

/-- The advisory at a site. -/
def atSite (a : Advisory) (site : Option Nat) : Advisory := { a with site }

/-- The code of an advisory. -/
def code (a : Advisory) : Code := a.kind.code

/-- The line shown for an advisory. -/
def line (a : Advisory) : String :=
  "warning[" ++ a.code.label ++ "]: " ++ a.message ++
    match a.site with
    | none => ""
    | some n => " at site #" ++ toString n

end Advisory

end ScriptCore
