import ScriptCore.Key.Basic

/-!
# Key — maps from keys

A `KeyMap` is an association list in which each key stands once, up to `Key.same`.  A key that
is put again keeps its place and its first spelling.
-/

namespace ScriptCore

/-- A map from keys. -/
abbrev KeyMap (β : Type) := List (Key × β)

/-- The key is one of the keys. -/
def Key.isIn (k : Key) (ks : List Key) : Bool := ks.any k.same

/-- The first occurrence of every key that is not among `seen`. -/
def Key.firstsAfter (seen : List Key) : List Key → List Key
  | [] => []
  | k :: ks => if k.isIn seen then firstsAfter seen ks else k :: firstsAfter (k :: seen) ks

/-- The first occurrence of every key. -/
def Key.firsts (ks : List Key) : List Key := firstsAfter [] ks

namespace KeyMap

variable {β : Type}

/-- What a key maps to. -/
def get? (m : KeyMap β) (k : Key) : Option β := (m.find? fun e => k.same e.1).map (·.2)

/-- Changes what a key maps to, if it maps to anything. -/
def adjust (m : KeyMap β) (k : Key) (f : β → β) : KeyMap β :=
  m.map fun e => if k.same e.1 then (e.1, f e.2) else e

/-- Changes what a key maps to; `blank` stands for what is not there. -/
def update (m : KeyMap β) (k : Key) (blank : β) (f : β → β) : KeyMap β :=
  if (get? m k).isSome then adjust m k f else m ++ [(k, f blank)]

/-- Maps a key to a value. -/
def put (m : KeyMap β) (k : Key) (v : β) : KeyMap β := update m k v fun _ => v

end KeyMap

end ScriptCore
