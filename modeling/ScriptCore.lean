import ScriptCore.Instance.Operations
import ScriptCore.HashTable.Update
import ScriptCore.Pad.Describe
import ScriptCore.Proofs.Advisory.Silence
import ScriptCore.Proofs.HashTable.Doubling
import ScriptCore.Proofs.Heap.Climbs
import ScriptCore.Proofs.Heap.Discipline
import ScriptCore.Proofs.Heap.FloatReads
import ScriptCore.Proofs.Heap.Glances
import ScriptCore.Proofs.Heap.Mirrors
import ScriptCore.Proofs.Heap.Mismatches
import ScriptCore.Proofs.Heap.Promises
import ScriptCore.Proofs.Heap.RefTexts
import ScriptCore.Proofs.Heap.TextReads
import ScriptCore.Proofs.Heap.Transfers
import ScriptCore.Proofs.Instance.Poison
import ScriptCore.Proofs.Instance.Refusals
import ScriptCore.Proofs.Instance.Teardown
import ScriptCore.Proofs.Key.Identity
import ScriptCore.Proofs.Number.Layout
import ScriptCore.Proofs.Number.Scanning
import ScriptCore.Proofs.Package.Consistency
import ScriptCore.Proofs.Package.Walks
import ScriptCore.Proofs.Pad.Aliases
import ScriptCore.Proofs.Pad.Closures
import ScriptCore.Proofs.Pad.Duplicates
import ScriptCore.Proofs.Pad.Past
import ScriptCore.Proofs.Pad.Scopes
import ScriptCore.Proofs.Table.Capacity
import ScriptCore.Proofs.Table.Circulation
import ScriptCore.Proofs.Table.Restricted
import ScriptCore.Proofs.Table.Walk
