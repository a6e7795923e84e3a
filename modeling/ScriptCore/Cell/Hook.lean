import ScriptCore.Text.Utf8

/-!
# Cell — attachments and their hooks

An attachment sits on a cell and acts when the cell is read, has been written, or is cleared on
request.  `Hook` is what it does: follow a taint mark, stand for an environment variable, refuse
plain writes, or run the actions of a host.  Whether an attachment has acted before, and how
often, is kept by the heap under the attachment's number.
-/

namespace ScriptCore

/-- The kinds of attachment. -/
inductive HookKind
  | tied
  | taint
  | environment
  | restricted
  | extension
  deriving DecidableEq, Repr

/-- Every kind of attachment. -/
def HookKind.all : List HookKind := [.tied, .taint, .environment, .restricted, .extension]

/-- The name of a kind of attachment. -/
def HookKind.name : HookKind → String
  | tied => "Tied"
  | taint => "Taint"
  | environment => "EnvElement"
  | restricted => "Restricted"
  | extension => "Ext"

/-- The kind of attachment of a name. -/
def HookKind.ofName? (s : String) : Option HookKind := all.find? (·.name = s)

/-- The moments at which hooks run: before a read, after a write, when cleared on request. -/
inductive Phase
  | get
  | set
  | clear
  deriving DecidableEq, Repr

/-- The name of a phase in event lines. -/
def Phase.name : Phase → String
  | get => "get"
  | set => "set"
  | clear => "clear"

/-- What a host's hook may do to its own cell.  `tally` counts this run and stores the count,
`refuse` fails as a write to a read-only cell does, `attach` adds an attachment that only logs,
`detach` removes those of a kind, `upcase` and `show` read the text and store it in upper case
or log it, `wipe` makes the cell undefined. -/
inductive Action
  | tally
  | refuse
  | attach (kind : HookKind) (label : String)
  | detach (kind : HookKind)
  | upcase
  | show
  | wipe
  deriving DecidableEq, Repr

/-- The hooks a host supplies, logged under a label.  Plain writes are refused unless
`writable`. -/
structure HostHooks where
  label : String
  onGet : List Action := []
  onSet : List Action := []
  onClear : List Action := []
  writable : Bool := true
  deriving DecidableEq, Repr

/-- What an attachment does. -/
inductive Hook
  | taint (state : Nat)
  | environment (env : Nat) (name : String) (anyCase : Bool)
  | readOnly
  | host (hooks : HostHooks)
  deriving DecidableEq, Repr

/-- Plain writes to the cell are allowed. -/
def Hook.allowsWrite : Hook → Bool
  | .readOnly => false
  | .host h => h.writable
  | _ => true

/-- The actions of a host's hooks in a phase. -/
def HostHooks.actions (h : HostHooks) : Phase → List Action
  | .get => h.onGet
  | .set => h.onSet
  | .clear => h.onClear

/-- A hook on a cell, of a kind, under its own number. -/
structure Attachment where
  kind : HookKind
  hook : Hook
  number : Nat
  deriving DecidableEq, Repr

/-- The event of an attachment that goes away, if it logs any. -/
def Attachment.farewell (a : Attachment) : Option String :=
  match a.hook with
  | .host h => some (h.label ++ ".free")
  | _ => none

end ScriptCore
