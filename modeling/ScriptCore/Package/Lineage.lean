import ScriptCore.Key.Map
import ScriptCore.Text.Quoted

/-!
# Package — orders of ancestors

A lineage lists a package and its ancestors in the order in which methods are looked for.  It is
merged from the lineages of the parents in one of two ways.  `mergeDepthFirst` walks them left
to right and keeps the first occurrence of every name.  `mergeC3` takes, again and again, the
first head that stands in no tail, so that every package comes before its parents and parents
keep their order; it fails when no head qualifies.

Every lineage ends at the universal package.  A child merges the lineages of its parents without
that end.
-/

namespace ScriptCore

/-- The name of the package every lineage falls back to. -/
def universal : String := "UNIVERSAL"

/-- The key spells the universal package. -/
def Key.isUniversal (k : Key) : Bool := k.bytes == Text.encode universal

/-- A lineage, and the number that tells it from equal ones computed at other times. -/
structure Lineage where
  serial : Nat
  order : List Key
  deriving Repr, Inhabited

namespace Lineage

/-- How ancestors are ordered. -/
inductive Algorithm
  | depthFirst
  | c3
  deriving DecidableEq, Repr, Inhabited

/-- The name of an algorithm. -/
def Algorithm.name : Algorithm → String
  | depthFirst => "dfs"
  | c3 => "c3"

/-- The algorithm of a name. -/
def Algorithm.ofName? : String → Option Algorithm
  | "dfs" => some .depthFirst
  | "c3" => some .c3
  | _ => none

/-- The names, in order. -/
def names (l : Lineage) : List String := l.order.map (·.text)

/-- The same packages in the same order. -/
def agrees (a b : Lineage) : Bool :=
  a.order.length == b.order.length && (a.order.zip b.order).all fun (x, y) => x.same y

/-- An order without the universal package at its end. -/
def inherited (order : List Key) : List Key :=
  match order.getLast? with
  | some k => if k.isUniversal then order.dropLast else order
  | none => []

/-- A package, then the orders of its parents, every name where it first occurs. -/
def mergeDepthFirst (package : Key) (orders : List (List Key)) : List Key :=
  Key.firsts (package :: (orders.map inherited).flatten)

/-- The first head that stands in no tail. -/
def nextHead (sequences : List (List Key)) : Option Key :=
  (sequences.filterMap List.head?).find? fun k => !sequences.any fun s => k.isIn s.tail

/-- A sequence after a name was taken. -/
def dropHead (taken : Key) : List Key → List Key
  | [] => []
  | k :: ks => if k.same taken then ks else k :: ks

/-- Merges sequences in at most `steps` steps. -/
def mergeWithin (steps : Nat) (sequences : List (List Key)) : Option (List Key) :=
  if sequences.all (·.isEmpty) then some []
  else
    match steps with
    | 0 => none
    | steps + 1 =>
      (nextHead sequences).bind fun k =>
        (mergeWithin steps (sequences.map (dropHead k))).map (k :: ·)

/-- Merges sequences; every step shortens one. -/
def mergeSequences (sequences : List (List Key)) : Option (List Key) :=
  mergeWithin sequences.flatten.length sequences

/-- A package, then its parents' orders and the list of its parents merged. -/
def mergeC3 (package : Key) (parents : List Key) (orders : List (List Key)) :
    Option (List Key) :=
  (mergeSequences (orders.map inherited ++ [parents])).map (package :: ·)

/-- Merges by an algorithm. -/
def merge (algorithm : Algorithm) (package : Key) (parents : List Key)
    (orders : List (List Key)) : Option (List Key) :=
  match algorithm with
  | .depthFirst => some (mergeDepthFirst package orders)
  | .c3 => mergeC3 package parents orders

/-- The order that ends at a key of the universal package unless it has one. -/
def closed (last : Key) (order : List Key) : List Key :=
  if order.any Key.isUniversal then order else order ++ [last]

/-- A lineage in a description. -/
def describe (l : Lineage) : String := "[" ++ ", ".intercalate (l.names.map Text.quote) ++ "]"

end Lineage

end ScriptCore
