import ScriptCore.Text.Utf8

/-!
# Table — why a table refuses

A restricted table refuses to change its set of keys; any table refuses a bucket array that
memory cannot hold.
-/

namespace ScriptCore

/-- The rule of restricted tables that was broken: reaching for a key outside the set, deleting
one outside it, deleting a read-only value, clearing a table that holds one. -/
inductive Denial
  | disallowedKey
  | deleteDisallowed
  | deleteReadOnly
  | clearReadOnly
  deriving DecidableEq, Repr

/-- The name of a rule. -/
def Denial.name : Denial → String
  | disallowedKey => "DisallowedKey"
  | deleteDisallowed => "DeleteDisallowed"
  | deleteReadOnly => "DeleteReadonly"
  | clearReadOnly => "ClearReadonly"

/-- What is said of a denied access; `key` as shown in messages. -/
def Denial.message (d : Denial) (key : String) : String :=
  match d with
  | disallowedKey => "Attempt to access disallowed key '" ++ key ++ "' in a restricted hash"
  | deleteDisallowed => "Attempt to delete disallowed key '" ++ key ++ "' from a restricted hash"
  | deleteReadOnly => "Attempt to delete readonly key '" ++ key ++ "' from a restricted hash"
  | clearReadOnly => "Attempt to delete readonly key '" ++ key ++ "' from a restricted hash"

/-- A refused table operation. -/
inductive Refusal
  | denied (key : String) (why : Denial)
  | outOfMemory (buckets : Nat)
  deriving DecidableEq, Repr

/-- The refusal of a key's bytes. -/
def Refusal.ofKey (key : Bytes) (why : Denial) : Refusal := .denied (Utf8.lossy key) why

/-- The text of a refusal. -/
def Refusal.message : Refusal → String
  | denied key why => why.message key
  | outOfMemory n => "Out of memory during hash split (" ++ toString n ++ " buckets requested)"

end ScriptCore
