import ScriptCore.Heap.Hooks

/-!
# Heap — the variables of an environment

An environment is what a host makes of it.  A lawful one gives the first value that it shows under a
name, and when a variable was set or removed it gives the new value, or none, and all others as
before (`Host.Lawful`).  The laws are about the names and values that the environment can hold: one
of a process, say, has no empty names and none with an equals sign.

A cell that stands for a variable looks it up by a name, exact or in any case, and stores it under
the spelling that is there (`nameFor`).  What is found is what stands under that spelling
(`valueFor_eq_get?`), so the two ways to look up differ only in it.

* `Lawful.get?_settle`: to set or remove a variable concerns one name.
* `Lawful.valueFor_settle`: what is stored is found again, and what is removed is not, as long as no
  two names differ only in case (`Apart`).
-/

namespace ScriptCore.Environment
variable {e : Environment} {name m v : String} {anyCase : Bool} {names values : String → Prop}

/-- No two names differ only in the case of their letters. -/
def Apart (e : Environment) : Prop :=
  ∀ p ∈ e.vars, ∀ q ∈ e.vars, p.1.toLower = q.1.toLower → p.1 = q.1

/-- Sets a variable to a value, or removes it. -/
def settle (e : Environment) (name : String) : Option String → Environment
  | some value => e.put name value
  | none => e.erase name

/-- **The laws of an environment** for the names and values that it can hold. -/
structure Host.Lawful (host : Host) (names values : String → Prop) : Prop where
  /-- It gives the first value that it shows under a name. -/
  var : ∀ vars name, host.var vars name = vars.lookup name
  /-- It gives what was set, and all else as before. -/
  set : ∀ vars name value, names name → values value → ∀ m,
    (host.set vars name value).lookup m = if m = name then some value else vars.lookup m
  /-- It does not give what was removed, and all else as before. -/
  remove : ∀ vars name, names name → ∀ m,
    (host.remove vars name).lookup m = if m = name then none else vars.lookup m
  /-- The case of its letters does not decide whether a name can be held. -/
  anyCase : ∀ a b, a.toLower = b.toLower → names a → names b

/-! ### An environment kept in order -/

theorem lookup_cons (p : String × String) (l : List (String × String)) (m : String) :
    (p :: l).lookup m = if p.1 = m then some p.2 else l.lookup m := by
  obtain ⟨n, v⟩ := p
  rw [List.lookup_cons]
  by_cases same : n = m
  · subst same
    simp
  · rw [if_neg same, show (m == n) = false from beq_false_of_ne (Ne.symm same)]

theorem lookup_eq_none_iff {l : List (String × String)} :
    l.lookup m = none ↔ ∀ p ∈ l, p.1 ≠ m := by
  induction l with
  | nil => simp
  | cons p l ih =>
    rw [lookup_cons, List.forall_mem_cons, ← ih]
    split <;> simp [*]

theorem exists_of_lookup {l : List (String × String)} (there : l.lookup m ≠ none) :
    ∃ p ∈ l, p.1 = m := by
  induction l with
  | nil => exact absurd rfl there
  | cons p l ih =>
    rw [lookup_cons] at there
    split at there
    · rename_i here
      exact ⟨p, List.mem_cons_self, here⟩
    · obtain ⟨q, hq, same⟩ := ih there
      exact ⟨q, List.mem_cons_of_mem p hq, same⟩

theorem lookup_map_replace (l : List (String × String)) (name v m : String) :
    (l.map fun p => if p.1 = name then (name, v) else p).lookup m =
      if m = name then (l.lookup name).map fun _ => v else l.lookup m := by
  induction l with
  | nil => simp
  | cons p l ih =>
    rw [List.map_cons, lookup_cons, lookup_cons, lookup_cons, ih]
    by_cases here : p.1 = name
    · rw [if_pos here, here]
      by_cases asked : m = name
      · subst asked
        simp
      · simp [asked, Ne.symm asked]
    · rw [if_neg here]
      by_cases asked : m = name
      · subst asked
        simp [here]
      · simp [asked]

theorem lookup_append_new {l : List (String × String)} (fresh : l.lookup name = none)
    (v m : String) : (l ++ [(name, v)]).lookup m = if m = name then some v else l.lookup m := by
  induction l with
  | nil =>
    rw [List.nil_append, lookup_cons]
    by_cases asked : m = name
    · rw [if_pos asked.symm, if_pos asked]
    · rw [if_neg (Ne.symm asked), if_neg asked]
  | cons p l ih =>
    rw [lookup_cons] at fresh
    split at fresh
    · cases fresh
    · rename_i other
      rw [List.cons_append, lookup_cons, lookup_cons, ih fresh]
      split
      · rename_i here
        rw [if_neg (here ▸ other)]
      · rfl

/-- Setting a variable where it stands, or at the end, changes what stands under its name. -/
theorem lookup_set (l : List (String × String)) (name v m : String) :
    (({} : Host).set l name v).lookup m = if m = name then some v else l.lookup m := by
  dsimp only
  split
  · rename_i there
    rw [lookup_map_replace]
    split
    · have found : l.lookup name ≠ none := by
        rw [Ne, lookup_eq_none_iff]
        simpa using there
      obtain ⟨old, hold⟩ := Option.ne_none_iff_exists'.mp found
      rw [hold, Option.map_some]
    · rfl
  · rename_i absent
    refine lookup_append_new (lookup_eq_none_iff.mpr fun p hp same => absent ?_) v m
    exact List.any_eq_true.mpr ⟨p, hp, decide_eq_true same⟩

theorem lookup_remove (l : List (String × String)) (name m : String) :
    (({} : Host).remove l name).lookup m = if m = name then none else l.lookup m := by
  dsimp only
  induction l with
  | nil => simp
  | cons p l ih =>
    rw [List.filter_cons]
    by_cases here : p.1 = name
    · rw [if_neg (by simp [here]), ih, lookup_cons]
      by_cases asked : m = name
      · rw [if_pos asked, if_pos asked]
      · rw [if_neg asked, if_neg asked, if_neg (here ▸ Ne.symm asked)]
    · rw [if_pos (by simp [here]), lookup_cons, lookup_cons, ih]
      by_cases asked : m = name
      · rw [if_pos asked, if_pos asked, if_neg (asked ▸ here)]
      · rw [if_neg asked, if_neg asked]

/-- Variables that are kept in order can have any name and any value. -/
theorem lawful_ordered : ({} : Host).Lawful (fun _ => True) fun _ => True where
  var _ _ := rfl
  set vars name value _ _ := lookup_set vars name value
  remove vars name _ := lookup_remove vars name
  anyCase _ _ _ := id

/-! ### One name -/

/-- **What is settled** concerns one name. -/
theorem Host.Lawful.get?_settle (law : e.host.Lawful names values) (named : names name)
    {value : Option String} (held : ∀ v ∈ value, values v) (m : String) :
    (e.settle name value).get? m = if m = name then value else e.get? m := by
  cases value with
  | some v =>
    show e.host.var (e.host.set e.vars name v) m = if m = name then some v else e.host.var e.vars m
    rw [law.var, law.var, law.set _ _ _ named (held v rfl)]
  | none =>
    show e.host.var (e.host.remove e.vars name) m = if m = name then none else e.host.var e.vars m
    rw [law.var, law.var, law.remove _ _ named]

theorem host_settle (e : Environment) (name : String) (value : Option String) :
    (e.settle name value).host = e.host := by
  cases value <;> rfl

/-- The names that are shown after a variable was settled. -/
theorem Host.Lawful.mem_settle (law : e.host.Lawful names values) (named : names name)
    {value : Option String} (held : ∀ v ∈ value, values v) {p : String × String}
    (hp : p ∈ (e.settle name value).vars) : p.1 = name ∧ value ≠ none ∨
      p.1 ≠ name ∧ ∃ q ∈ e.vars, q.1 = p.1 := by
  have law' : (e.settle name value).host.Lawful names values := host_settle e .. ▸ law
  have shown : (e.settle name value).get? p.1 ≠ none := by
    rw [get?, law'.var, Ne, lookup_eq_none_iff]
    exact fun none => none p hp rfl
  rw [law.get?_settle named held] at shown
  split at shown
  · rename_i here
    exact .inl ⟨here, shown⟩
  · rename_i other
    rw [get?, law.var] at shown
    exact .inr ⟨other, exists_of_lookup shown⟩

/-! ### Names in any case -/

theorem find?_spec {p : String × String} (found : e.find? name = some p) :
    p ∈ e.vars ∧ p.1.toLower = name.toLower :=
  ⟨List.mem_of_find?_eq_some found, by simpa using List.find?_some found⟩

/-- The variable found first is the one under its own name. -/
theorem lookup_of_find? {l : List (String × String)} {p : String × String}
    (found : (l.find? fun v => v.1.toLower = name.toLower) = some p) :
    l.lookup p.1 = some p.2 := by
  induction l with
  | nil => cases found
  | cons q l ih =>
    rw [lookup_cons]
    by_cases like : q.1.toLower = name.toLower
    · rw [List.find?_cons_of_pos (by simpa using like)] at found
      cases found
      rw [if_pos rfl]
    · rw [List.find?_cons_of_neg (by simpa using like)] at found
      have later : q.1 ≠ p.1 := fun same => like (same ▸ by simpa using List.find?_some found)
      rw [if_neg later]
      exact ih found

theorem lookup_of_find?_none (missing : e.find? name = none) : e.vars.lookup name = none := by
  rw [lookup_eq_none_iff]
  rintro p hp rfl
  exact List.find?_eq_none.mp missing p hp (decide_eq_true rfl)

/-- **What a name finds** stands under the spelling that is there. -/
theorem Host.Lawful.valueFor_eq_get? (law : e.host.Lawful names values) (name : String)
    (anyCase : Bool) : e.valueFor name anyCase = e.get? (e.nameFor name anyCase) := by
  cases anyCase with
  | false => rfl
  | true =>
    show (e.find? name).map (·.2) = e.host.var e.vars (((e.find? name).map (·.1)).getD name)
    rw [law.var]
    cases found : e.find? name with
    | none => exact (lookup_of_find?_none found).symm
    | some p => exact (lookup_of_find? found).symm

/-- The spelling that is there is the name but for case. -/
theorem toLower_nameFor (e : Environment) (name : String) (anyCase : Bool) :
    (e.nameFor name anyCase).toLower = name.toLower := by
  cases anyCase with
  | false => rfl
  | true =>
    show (((e.find? name).map (·.1)).getD name).toLower = _
    cases found : e.find? name with
    | none => rfl
    | some p => exact (find?_spec found).2

theorem Host.Lawful.named (law : e.host.Lawful names values) (named : names name)
    (anyCase : Bool) : names (e.nameFor name anyCase) :=
  law.anyCase _ _ (toLower_nameFor e name anyCase).symm named

/-- A spelling that is like the name is the one that is there. -/
theorem Apart.eq_nameFor (apart : e.Apart) {q : String × String} (hq : q ∈ e.vars)
    (same : q.1.toLower = name.toLower) : q.1 = e.nameFor name true := by
  show _ = ((e.find? name).map (·.1)).getD name
  cases found : e.find? name with
  | none => exact absurd (decide_eq_true same) (List.find?_eq_none.mp found q hq)
  | some p =>
    obtain ⟨there, lower⟩ := find?_spec found
    exact apart q hq p there (same.trans lower.symm)

/-- The spelling, if there is one, of a name that is shown. -/
theorem nameFor_eq {key : String} (there : ∃ p ∈ e.vars, p.1.toLower = name.toLower)
    (only : ∀ p ∈ e.vars, p.1.toLower = name.toLower → p.1 = key) : e.nameFor name true = key := by
  show ((e.find? name).map (·.1)).getD name = key
  cases found : e.find? name with
  | none =>
    obtain ⟨p, hp, like⟩ := there
    exact absurd (decide_eq_true like) (List.find?_eq_none.mp found p hp)
  | some p =>
    obtain ⟨hp, like⟩ := find?_spec found
    exact only p hp like

section
variable (law : e.host.Lawful names values) (named : names name) {value : Option String}
  (held : ∀ v ∈ value, values v)
include law named held

/-- After a variable was settled under its spelling no name is like it but that one. -/
theorem Host.Lawful.eq_of_like (apart : e.Apart) {p : String × String}
    (hp : p ∈ (e.settle (e.nameFor name true) value).vars)
    (like : p.1.toLower = name.toLower) : p.1 = e.nameFor name true ∧ value ≠ none := by
  rcases law.mem_settle (law.named named true) held hp with here | ⟨other, q, hq, same⟩
  · exact here
  · exact absurd (same ▸ apart.eq_nameFor hq (same ▸ like)) other

/-- A variable that is stored under the spelling that is there brings no second one. -/
theorem Host.Lawful.apart_settle (apart : e.Apart) :
    (e.settle (e.nameFor name true) value).Apart := by
  have key := toLower_nameFor e name true
  intro p hp q hq same
  rcases law.mem_settle (law.named named true) held hp with ⟨hp', -⟩ | ⟨-, p', inside, rp⟩
  · rw [hp', key] at same
    rw [hp', (law.eq_of_like named held apart hq same.symm).1]
  rcases law.mem_settle (law.named named true) held hq with ⟨hq', -⟩ | ⟨-, q', inside', rq⟩
  · rw [hq', key] at same
    rw [hq', (law.eq_of_like named held apart hp same).1]
  · rw [← rp, ← rq] at same ⊢
    exact apart p' inside q' inside' same

/-- **What is settled** is found, if no two names differ only in case. -/
theorem Host.Lawful.valueFor_settle (apart : anyCase = true → e.Apart) :
    (e.settle (e.nameFor name anyCase) value).valueFor name anyCase = value := by
  have law' : (e.settle (e.nameFor name anyCase) value).host.Lawful names values :=
    host_settle e .. ▸ law
  have settled := law.get?_settle (law.named named anyCase) held
  cases anyCase with
  | false => exact (settled name).trans (if_pos rfl)
  | true =>
    have only {p} := law.eq_of_like named held (apart rfl) (p := p)
    cases value with
    | none =>
      refine Option.map_eq_none_iff.mpr (List.find?_eq_none.mpr fun p hp like => ?_)
      exact (only hp (of_decide_eq_true like)).2 rfl
    | some v =>
      have stored := (settled (e.nameFor name true)).trans (if_pos rfl)
      have there : ∃ p ∈ (e.settle (e.nameFor name true) (some v)).vars,
          p.1.toLower = name.toLower := by
        rw [get?, law'.var] at stored
        obtain ⟨p, hp, same⟩ := exists_of_lookup fun none => nomatch none.symm.trans stored
        exact ⟨p, hp, same ▸ toLower_nameFor e name true⟩
      rw [law'.valueFor_eq_get?, nameFor_eq there fun p hp like => (only hp like).1, stored]

end

end ScriptCore.Environment
