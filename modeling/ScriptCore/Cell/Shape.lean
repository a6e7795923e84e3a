/-!
# Cell — shapes and the room they have

The shape of a cell says which kinds of value it has room for.  Scalar shapes form a chain

  undef < int < float < ref < text < textInt < textNum < full

along which a cell only moves up.  Aggregate shapes stand beside it and are reached from `undef`
alone.  Room does not grow along the whole chain: `ref` has none for numbers.
-/

namespace ScriptCore

/-- The shape of a cell. -/
inductive Shape
  | undef
  | int
  | float
  | ref
  | text
  | textInt
  | textNum
  | full
  | array
  | hash
  | code
  | handle
  deriving DecidableEq, Repr, Inhabited

/-- Kinds of content a shape has room for. -/
structure Room where
  int : Bool := false
  num : Bool := false
  text : Bool := false
  ref : Bool := false
  hooks : Bool := false
  deriving DecidableEq, Repr

namespace Room

/-- The five kinds as bits. -/
def bits (r : Room) : Nat :=
  [r.int, r.num, r.text, r.ref, r.hooks].foldr (fun b n => b.toNat + 2 * n) 0

/-- The room of some bits. -/
def ofBits (n : Nat) : Room :=
  ⟨n.testBit 0, n.testBit 1, n.testBit 2, n.testBit 3, n.testBit 4⟩

/-- Room for what either has room for. -/
def union (a b : Room) : Room :=
  ⟨a.int || b.int, a.num || b.num, a.text || b.text, a.ref || b.ref, a.hooks || b.hooks⟩

/-- Everything `a` has room for, `b` has room for. -/
def within (a b : Room) : Bool :=
  (!a.int || b.int) && (!a.num || b.num) && (!a.text || b.text) && (!a.ref || b.ref) &&
    (!a.hooks || b.hooks)

/-- Only the room for numbers. -/
def numeric (r : Room) : Room := { int := r.int, num := r.num }

/-- The room without that for hooks. -/
def values (r : Room) : Room := { r with hooks := false }

end Room

namespace Shape

/-- Every shape. -/
def all : List Shape :=
  [.undef, .int, .float, .ref, .text, .textInt, .textNum, .full, .array, .hash, .code, .handle]

/-- The scalar shapes, lowest first. -/
def scalars : List Shape := [.undef, .int, .float, .ref, .text, .textInt, .textNum, .full]

/-- Array, hash, code or handle. -/
def isAggregate : Shape → Bool
  | array | hash | code | handle => true
  | _ => false

/-- The place in the chain of scalar shapes; aggregates rank above them. -/
def rank (s : Shape) : Nat := scalars.idxOf s

/-- What a shape has room for. -/
def room : Shape → Room
  | undef => {}
  | int => { int := true }
  | float => { int := true, num := true }
  | ref => { ref := true }
  | text => { text := true, ref := true }
  | textInt => { text := true, ref := true, int := true }
  | textNum => { text := true, ref := true, int := true, num := true }
  | full => { text := true, ref := true, int := true, num := true, hooks := true }
  | array | hash | code | handle => { hooks := true }

/-- The lowest shape, from this one up, with room for `need`.  An aggregate never becomes
another shape. -/
def growFor (s : Shape) (need : Room) : Option Shape :=
  if need.within s.room then some s
  else if s.isAggregate then none
  else (scalars.drop s.rank).find? fun t => need.within t.room

/-- A cell of shape `s` may become one of shape `t`. -/
def climbsTo (s t : Shape) : Bool :=
  s = t || if t.isAggregate then s = .undef else !s.isAggregate && s.rank ≤ t.rank

/-- The name of a shape in reference texts and messages. -/
def refName : Shape → String
  | array => "ARRAY"
  | hash => "HASH"
  | code => "CODE"
  | handle => "GLOB"
  | _ => "SCALAR"

/-- The name of a shape in prose. -/
def prose : Shape → String
  | undef => "undef"
  | int => "integer"
  | float => "float"
  | ref => "reference"
  | text => "string"
  | textInt => "string/integer"
  | textNum => "string/number"
  | full => "magical scalar"
  | array => "array"
  | hash => "hash"
  | code => "code"
  | handle => "handle"

/-- The name of a shape in descriptions. -/
def name : Shape → String
  | undef => "Undef"
  | int => "Int"
  | float => "Float"
  | ref => "Ref"
  | text => "Str"
  | textInt => "StrInt"
  | textNum => "StrNum"
  | full => "Magical"
  | array => "Array"
  | hash => "Hash"
  | code => "Code"
  | handle => "Handle"

/-- The shape of a name. -/
def ofName? (s : String) : Option Shape := all.find? (·.name = s)

end Shape

end ScriptCore
