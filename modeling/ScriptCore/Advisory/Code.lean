/-!
# Advisory — the codes of reported conditions

Every condition has a letter and four digits: `W1…` for advisories, after which the operation
still produced a value, `E2…` for the failure of one operation, `E9…` for failures that end the
whole instance.
-/

namespace ScriptCore

/-- What can be reported. -/
inductive Code
  | notNumeric
  | uninitialized
  | duplicateDeclaration
  | missingPackage
  | redefined
  | kindMismatch
  | readOnly
  | accessDenied
  | inheritanceCycle
  | inconsistentHierarchy
  | staleActivation
  | outOfMemory
  deriving DecidableEq, Repr

namespace Code

/-- Every code, in ascending order. -/
def all : List Code :=
  [.notNumeric, .uninitialized, .duplicateDeclaration, .missingPackage, .redefined,
    .kindMismatch, .readOnly, .accessDenied, .inheritanceCycle, .inconsistentHierarchy,
    .staleActivation, .outOfMemory]

/-- The code as printed. -/
def label : Code → String
  | notNumeric => "W1001"
  | uninitialized => "W1002"
  | duplicateDeclaration => "W1003"
  | missingPackage => "W1004"
  | redefined => "W1005"
  | kindMismatch => "E2001"
  | readOnly => "E2002"
  | accessDenied => "E2003"
  | inheritanceCycle => "E2004"
  | inconsistentHierarchy => "E2005"
  | staleActivation => "E2006"
  | outOfMemory => "E9001"

/-- One line of explanation. -/
def description : Code → String
  | notNumeric => "argument isn't numeric"
  | uninitialized => "use of uninitialized value"
  | duplicateDeclaration => "variable masks earlier declaration in same scope"
  | missingPackage => "can't locate package named in parent list"
  | redefined => "subroutine redefined"
  | kindMismatch => "value kind mismatch"
  | readOnly => "modification of a read-only value attempted"
  | accessDenied => "attempt to access disallowed key in a restricted hash"
  | inheritanceCycle => "recursive inheritance detected"
  | inconsistentHierarchy => "inconsistent hierarchy during C3 merge"
  | staleActivation => "activation is no longer live"
  | outOfMemory => "out of memory"

/-- The operation that reported it went on. -/
def isAdvisory (c : Code) : Bool := c.label.startsWith "W"

/-- The instance that reported it must not go on. -/
def isFatal (c : Code) : Bool := c = .outOfMemory

/-- The code printed as `s`, in any case of its letter. -/
def ofLabel? (s : String) : Option Code :=
  all.find? fun c => c.label.toLower = s.toLower

end Code

end ScriptCore
