import Mathlib.Data.List.Perm.Subperm
import Mathlib.Logic.Function.Basic
import ScriptCore.HashTable.Update
import ScriptCore.Proofs.Table.Linked

/-!
# HashTable — chains by links

`Leads next start c rest` says that links lead from `start` through the places of `c` and on to
`rest`.  `t.Lays cs` says that the heads and links of `t` lay out the chains `cs`: from each head
on, they lead through its chain and end there, and no place comes twice.  `t.Forms u` says that
they lay out the chains of the table `u`, with all that `u` has besides.

* `Lays.chains_eq`: following the links gives the chains that they lay out, so all chains end.
* `Lays.setLink`: the link behind the first places of a chain may be turned to any places that
  lead to an end.  Whatever relinks places does this, and nothing else.
-/

namespace ScriptCore.HashTable

/-! ### Leading through places -/

/-- The links lead from `start` through the places of a list, and on to `rest`. -/
def Leads (next : Nat → Option Nat) (start : Option Nat) : List Nat → Option Nat → Prop
  | [], rest => start = rest
  | i :: c, rest => start = some i ∧ Leads next (next i) c rest

section
variable {next next' : Nat → Option Nat} {start rest : Option Nat} {c d : List Nat} {i p : Nat}

theorem leads_append :
    Leads next start (c ++ d) rest ↔ ∃ mid, Leads next start c mid ∧ Leads next mid d rest := by
  induction c generalizing start with
  | nil => simp [Leads]
  | cons i c ih => simp [Leads, ih, and_assoc]

theorem Leads.congr (h : Leads next start c rest) (same : ∀ i ∈ c, next' i = next i) :
    Leads next' start c rest := by
  induction c generalizing start with
  | nil => exact h
  | cons i c ih =>
    refine ⟨h.1, ?_⟩
    rw [same i (List.mem_cons_self ..)]
    exact ih h.2 fun j hj => same j (List.mem_cons_of_mem _ hj)

/-- A link from elsewhere may change. -/
theorem Leads.update (h : Leads next start c rest) (apart : p ∉ c) (q : Option Nat) :
    Leads (Function.update next p q) start c rest := by
  refine h.congr fun i hi => Function.update_of_ne ?_ ..
  rintro rfl
  exact apart hi

theorem Leads.start_eq (h : Leads next start c none) : start = c.head? := by
  cases c with
  | nil => exact h
  | cons i c => exact h.1

theorem Leads.next_eq (h : Leads next start (c ++ i :: d) none) : next i = d.head? := by
  obtain ⟨_, -, -, h⟩ := leads_append.mp h
  exact h.start_eq

/-- What follows the first places. -/
theorem Leads.drop (h : Leads next start (c ++ d) none) : Leads next d.head? d none := by
  obtain ⟨_, -, h⟩ := leads_append.mp h
  exact h.start_eq ▸ h

/-- **Following links** through places that come to an end gives these places. -/
theorem Leads.follow_eq (h : Leads next start c none) {n : Nat} (le : c.length ≤ n) :
    follow next n start = c := by
  induction c generalizing start n with
  | nil =>
    obtain rfl : start = none := h
    cases n <;> rfl
  | cons i c ih =>
    obtain ⟨rfl, h⟩ := h
    cases n with
    | zero => simp at le
    | succ n => rw [follow, ih h (by simpa using le)]

end

variable {α : Type} {t u : HashTable α} {cs cs' : Array (List Nat)} {b c i j : Nat}

/-! ### Links and entries -/

theorem next?_setNext (lt : i < t.nodes.size) (next : Option Nat) :
    (t.setNext i next).next? = Function.update t.next? i next := by
  funext j
  unfold next? setNext
  rw [Array.getElem?_modify, Function.update_apply]
  by_cases e : i = j
  · subst e
    simp [lt]
  · rw [if_neg e, if_neg (Ne.symm e)]

theorem head?_setHead (lt : b < t.heads.size) (head : Option Nat) :
    (t.setHead b head).head? c = if c = b then head else t.head? c := by
  unfold head? setHead
  rw [Array.getElem?_setIfInBounds]
  by_cases e : b = c
  · subst e
    simp [lt]
  · rw [if_neg e, if_neg (Ne.symm e)]

theorem entry?_map (t : HashTable α) (i : Nat) :
    t.entry? i = ((t.nodes.map (·.entry))[i]?).join := by
  unfold entry?
  rw [Array.getElem?_map]
  cases t.nodes[i]? <;> rfl

theorem entry?_view (t : HashTable α) (cs : Array (List Nat)) (i : Nat) :
    Table.entry? (t.view cs) i = t.entry? i := (entry?_map t i).symm

/-- `u` is `t` with other links: it has the same entries, and whatever is not a place of the arena
or a head. -/
structure Relinks (t u : HashTable α) : Prop where
  entries : u.nodes.map (·.entry) = t.nodes.map (·.entry)
  rest : u = { t with heads := u.heads, nodes := u.nodes }

theorem Relinks.refl (t : HashTable α) : t.Relinks t := ⟨rfl, rfl⟩

theorem Relinks.trans {v : HashTable α} (h : t.Relinks u) (h' : u.Relinks v) : t.Relinks v where
  entries := h'.entries.trans h.entries
  rest := by
    rw [h'.rest, h.rest]

theorem Relinks.size_eq (h : t.Relinks u) : u.nodes.size = t.nodes.size := by
  simpa using congrArg Array.size h.entries

theorem Relinks.entry?_eq (h : t.Relinks u) (i : Nat) : u.entry? i = t.entry? i := by
  rw [entry?_map, h.entries, ← entry?_map]

theorem Relinks.hashAt_eq (h : t.Relinks u) (i : Nat) : u.hashAt i = t.hashAt i := by
  rw [hashAt, h.entry?_eq]
  rfl

theorem Relinks.cursor_eq (h : t.Relinks u) : u.cursor = t.cursor := by rw [h.rest]

theorem relinks_setNext (t : HashTable α) (i : Nat) (next : Option Nat) :
    t.Relinks (t.setNext i next) where
  entries := by
    refine Array.ext_getElem? fun j => ?_
    rw [Array.getElem?_map, Array.getElem?_map, setNext, Array.getElem?_modify]
    split
    · cases t.nodes[j]? <;> rfl
    · rfl
  rest := rfl

theorem relinks_setHead (t : HashTable α) (b : Nat) (head : Option Nat) :
    t.Relinks (t.setHead b head) := ⟨rfl, rfl⟩

theorem relinks_setLink (t : HashTable α) (b : Nat) (prev next : Option Nat) :
    t.Relinks (t.setLink b prev next) := by
  cases prev with
  | none => exact relinks_setHead t b next
  | some i => exact relinks_setNext t i next

/-! ### Laying out chains -/

/-- The heads and links lay out chains. -/
structure Lays (t : HashTable α) (cs : Array (List Nat)) : Prop where
  buckets : t.heads.size = cs.size
  leads : ∀ b, Leads t.next? (t.head? b) (cs.getD b []) none
  nodup : cs.toList.flatten.Nodup
  held : ∀ i ∈ cs.toList.flatten, i < t.nodes.size

/-- Heads that lead nowhere. -/
theorem lays_replicate {n : Nat} (heads : t.heads = Array.replicate n none) :
    t.Lays (Array.replicate n []) := by
  refine ⟨by simp [heads], fun b => ?_, by simp, by simp⟩
  have head : t.head? b = none := by
    rw [head?, heads, Array.getElem?_replicate]
    split <;> rfl
  have chain : (Array.replicate n ([] : List Nat)).getD b [] = [] := by
    rw [Array.getD_eq_getD_getElem?, Array.getElem?_replicate]
    split <;> rfl
  rw [head, chain]
  rfl

theorem mem_flatten_of_mem (hi : i ∈ cs.getD b []) : i ∈ cs.toList.flatten :=
  Table.mem_flatten_iff.mpr ⟨b, hi⟩

/-- A chain that changes, among the others. -/
theorem getD_modify (lt : b < cs.size) (f : List Nat → List Nat) :
    (cs.modify b f).getD c [] = if b = c then f (cs.getD c []) else cs.getD c [] := by
  simp only [Array.getD_eq_getD_getElem?, Array.getElem?_modify]
  split
  · subst c
    simp [lt]
  · rfl

theorem sublist_flatten (cs : Array (List Nat)) (b : Nat) :
    (cs.getD b []).Sublist cs.toList.flatten := by
  rw [Array.getD_eq_getD_getElem?, ← Array.getElem?_toList]
  cases e : cs.toList[b]? with
  | none => exact List.nil_sublist _
  | some c => exact List.sublist_flatten_of_mem (List.mem_of_getElem? e)

/-- A place is in one chain. -/
theorem eq_of_mem_flatten (nodup : cs.toList.flatten.Nodup) (hb : i ∈ cs.getD b [])
    (hc : i ∈ cs.getD c []) : b = c := by
  simp only [Array.getD_eq_getD_getElem?, ← Array.getElem?_toList] at hb hc
  generalize cs.toList = l at nodup hb hc
  have apart := (List.nodup_flatten.mp nodup).2
  by_contra ne
  wlog lt : b < c generalizing b c
  · exact this hc hb (Ne.symm ne) (by omega)
  cases eb : l[b]? with
  | none => simp [eb] at hb
  | some x =>
    cases ec : l[c]? with
    | none => simp [ec] at hc
    | some y =>
      obtain ⟨lb, rfl⟩ := List.getElem?_eq_some_iff.mp eb
      obtain ⟨lc, rfl⟩ := List.getElem?_eq_some_iff.mp ec
      rw [eb] at hb
      rw [ec] at hc
      exact List.pairwise_iff_getElem.mp apart b c lb lc lt hb hc

/-- There are at most as many places in a chain as there are. -/
theorem Lays.length_le (h : t.Lays cs) (b : Nat) : (cs.getD b []).length ≤ t.nodes.size := by
  have sub := sublist_flatten cs b
  have places : cs.getD b [] ⊆ List.range t.nodes.size := fun i hi =>
    List.mem_range.mpr (h.held i (sub.subset hi))
  simpa using (List.subperm_of_subset (h.nodup.sublist sub) places).length_le

theorem Lays.follow_eq (h : t.Lays cs) (b : Nat) : t.chain b = cs.getD b [] :=
  (h.leads b).follow_eq (h.length_le b)

/-- **Reading off the chains.**  Every chain ends, and the links make the chains that they lay
out. -/
theorem Lays.chains_eq (h : t.Lays cs) : t.chains = cs := by
  refine Array.ext_getElem? fun b => ?_
  have follow := h.follow_eq b
  unfold chain head? at follow
  rw [chains, Array.getElem?_map]
  by_cases lt : b < cs.size
  · have lt' : b < t.heads.size := by rwa [h.buckets]
    simpa [lt, lt'] using follow
  · have le : ¬ b < t.heads.size := by rwa [h.buckets]
    simp [lt, le]

/-- Links of places that are in no chain may change. -/
theorem Lays.setNext (h : t.Lays cs) (hi : i < t.nodes.size) (apart : i ∉ cs.toList.flatten)
    (next : Option Nat) : (t.setNext i next).Lays cs where
  buckets := h.buckets
  leads b := by
    rw [next?_setNext hi]
    exact (h.leads b).update (fun hb => apart (mem_flatten_of_mem hb)) next
  nodup := h.nodup
  held j hj := by
    rw [(relinks_setNext t i next).size_eq]
    exact h.held j hj

/-- **Relinking.**  When the link behind the first places of a chain is turned to places that lead
to an end, the chain has those behind its first places. -/
theorem Lays.setLink (h : t.Lays cs) (pre mid post : List Nat) {target : Option Nat}
    (hb : b < cs.size) (old : cs.getD b [] = pre ++ mid) (size : cs'.size = cs.size)
    (new : cs'.getD b [] = pre ++ post) (same : ∀ c ≠ b, cs'.getD c [] = cs.getD c [])
    (leads : Leads t.next? target post none) (nodup : cs'.toList.flatten.Nodup)
    (held : ∀ i ∈ cs'.toList.flatten, i < t.nodes.size) :
    (t.setLink b pre.getLast? target).Lays cs' := by
  have relinks := relinks_setLink t b pre.getLast? target
  refine ⟨?_, fun c => ?_, nodup, fun i hi => relinks.size_eq ▸ held i hi⟩
  · rw [size, ← h.buckets]
    cases pre.getLast? with
    | none => exact Array.size_setIfInBounds
    | some p => rfl
  have lt : b < t.heads.size := by rwa [h.buckets]
  obtain rfl | ⟨q, p, rfl⟩ := pre.eq_nil_or_concat'
  · show Leads t.next? ((t.setHead b target).head? c) _ _
    rw [head?_setHead lt]
    by_cases e : c = b
    · rw [if_pos e, e, new]
      exact leads
    · rw [if_neg e, same c e]
      exact h.leads c
  · rw [List.getLast?_concat]
    show Leads (t.setNext p target).next? (t.head? c) _ _
    have here : p ∈ cs.getD b [] := by simp [old]
    rw [next?_setNext (h.held p (mem_flatten_of_mem here))]
    by_cases e : c = b
    · subst e
      have apart := nodup.sublist (sublist_flatten cs' c)
      rw [new, List.append_assoc] at apart
      have first := h.leads c
      rw [old, List.append_assoc] at first
      obtain ⟨mid', toLast, last⟩ := leads_append.mp first
      obtain ⟨rfl, -⟩ := last
      rw [new, List.append_assoc, leads_append]
      have unmet : p ∉ q := fun hq =>
        (List.nodup_append.mp apart).2.2 p hq p (List.mem_cons_self ..) rfl
      have unmet' : p ∉ post := (List.nodup_cons.mp (List.nodup_append.mp apart).2.1).1
      refine ⟨some p, toLast.update unmet target, rfl, ?_⟩
      rw [Function.update_self]
      exact leads.update unmet' target
    · rw [same c e]
      exact (h.leads c).update (fun hc => e (eq_of_mem_flatten h.nodup hc here)) target

/-! ### Forming a table -/

/-- The heads and links lay out the chains of a table that has the rest in common. -/
def Forms (t : HashTable α) (u : Table α) : Prop := ∃ cs, t.Lays cs ∧ t.view cs = u

/-- **The table that is formed** is the one that the links make. -/
theorem Forms.table_eq {u : Table α} (h : t.Forms u) : t.table = u := by
  obtain ⟨cs, lays, rfl⟩ := h
  rw [table, lays.chains_eq]

/-- Other links for the same entries. -/
theorem Relinks.view_eq (h : t.Relinks u) (cs cs' : Array (List Nat)) :
    u.view cs' = { t.view cs with
      chains := cs', cursor := { (t.view cs).cursor with next := u.onward } } := by
  obtain ⟨entries, rest⟩ := h
  unfold view
  generalize u.onward = onward
  rw [entries, rest]

end ScriptCore.HashTable
