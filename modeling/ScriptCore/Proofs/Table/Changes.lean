import ScriptCore.Proofs.Table.Session

/-!
# Table — what an operation may do to a table

`op.Does t r u r'` lists what an operation leaves of a table and of its keyring: nothing changed, an
entry with another value, a new entry, an entry less, and so on.  What the operations keep is then
told for each of these, and not for each operation.

* `Op.does`: an operation does one of these things, unless it is refused.
* `Op.does_after`: a refused one does nothing.
-/

namespace ScriptCore.Table
variable {α : Type}

/-- The operation `op` may turn the table `t` and the keyring `r` into `u` and `r'`. -/
inductive Op.Does (t : Table α) (r : Keyring) : Op α → Table α → Keyring → Prop
  /-- Nothing changes. -/
  | nothing {op : Op α} : Does t r op t r
  /-- An entry that is found gets another value, or none, and the placeholders are counted anew. -/
  | value {op : Op α} {s : Spelling} {i : Nat} (found : t.locate s = some i) (v : Option α)
      (placeholders : Nat) : Does t r op { t.setValue i v with placeholders } r
  /-- A key comes in that is not found. -/
  | insert {op : Op α} {s : Spelling} {v : α} (brings : op = .store s v ∨ op = .fetchOrStore s v)
      (absent : t.locate s = none) (free : t.restricted = false) :
      Does t r op (t.insertNew r s v).2.1 (t.insertNew r s v).2.2
  /-- An entry that is found goes. -/
  | remove {s : Spelling} {readOnly : α → Bool} {discards : Bool} {i : Nat}
      (found : t.locate s = some i) (free : t.restricted = false) (total : Nat) :
      Does t r (.delete s readOnly discards) { (t.remove i).1 with total }
        (r.releaseAll t.pool (t.remove i).2)
  /-- All values go, and the keys stay as placeholders. -/
  | blank {readOnly : α → Bool} (restricted : t.restricted = true) (placeholders : Nat) :
      Does t r (.clear readOnly)
        { t.chained.foldl (fun t i => t.setValue i none) t with placeholders } r
  /-- All entries go. -/
  | empty {readOnly : α → Bool} (free : t.restricted = false) :
      Does t r (.clear readOnly)
        { t with
          chains := t.chains.map fun _ => [], entries := #[], free := [], total := 0
          placeholders := 0, cursor := {} }
        (r.releaseAll t.pool t.heldKeys)
  | clearPlaceholders :
      Does t r .clearPlaceholders t.dropPlaceholders.1 (r.releaseAll t.pool t.dropPlaceholders.2)
  | restrict : Does t r .restrict t.restrict r
  | unrestrict : Does t r .unrestrict t.unrestrict r
  | pinSeed : Does t r .pinSeed t.pinSeed r
  /-- The table takes more buckets. -/
  | rebucket {n : Nat} (more : t.buckets < powerAbove n) :
      Does t r (.reserve n) (t.rebucket (powerAbove n)) r
  | rewind : Does t r .startWalk t.rewind.2.1 (r.releaseAll t.pool t.rewind.2.2)
  | step {w : Bool} : Does t r (.walk w) (t.step w).2.1 (r.releaseAll t.pool (t.step w).2.2)
  /-- Another user of a pool takes a key. -/
  | intern {p : Nat} {s : Spelling} : Does t r (.intern p s) t (r.intern p s).2
  /-- Another user of a pool gives a key back. -/
  | release {p : Nat} {k : Key} : Does t r (.release p k) t (r.release p k).2

section
variable {t : Table α} {r : Keyring}

theorem Leaves.imp {β : Type} {P Q : Table α → Keyring → Prop}
    {x : Except Refusal (β × Table α × Keyring)} (h : Leaves P x) (imp : ∀ u r, P u r → Q u r) :
    Leaves Q x := by
  cases x with
  | error => trivial
  | ok result => exact imp _ _ h

theorem Leaves.of_ok {β : Type} {P : Table α → Keyring → Prop}
    {x : Except Refusal (β × Table α × Keyring)} (h : Leaves P x) {b : β} {u : Table α}
    {r : Keyring} (e : x = .ok (b, u, r)) : P u r := by
  rw [e] at h
  exact h

theorem does_store (t : Table α) (r : Keyring) (op : Op α) {s : Spelling} {v : α}
    (brings : op = .store s v ∨ op = .fetchOrStore s v) :
    Leaves (op.Does t r) (t.store r s v) := by
  unfold Table.store
  cases found : t.locate s with
  | some i =>
    dsimp only
    split
    · exact .value found (some v) t.placeholders
    · exact .value found (some v) (t.placeholders - 1)
  | none =>
    dsimp only
    split
    · trivial
    · exact .insert brings found (Bool.eq_false_iff.mpr (by assumption))

theorem does_fetchOrStore (t : Table α) (r : Keyring) (s : Spelling) (v : α) :
    Leaves ((Op.fetchOrStore s v).Does t r) (t.fetchOrStore r s v) := by
  unfold Table.fetchOrStore
  split
  · exact Op.Does.nothing
  · exact (does_store t r _ (.inr rfl)).map fun _ => v

theorem does_modify (t : Table α) (r : Keyring) {op : Op α} (s : Spelling) (f : α → α) :
    op.Does t r (t.modify s f).2 r := by
  unfold Table.modify
  cases found : t.locate s with
  | none => exact .nothing
  | some i =>
    dsimp only
    split
    · exact .value found _ t.placeholders
    · exact .nothing

theorem does_delete (t : Table α) (r : Keyring) (s : Spelling) (readOnly : α → Bool)
    (discards : Bool) :
    Leaves ((Op.delete s readOnly discards).Does t r) (t.delete r readOnly s) := by
  unfold Table.delete
  cases found : t.locate s with
  | none =>
    dsimp only
    split
    · trivial
    · exact Op.Does.nothing
  | some i =>
    dsimp only
    split
    · exact Op.Does.nothing
    split
    · split
      · trivial
      · exact .value found none (t.placeholders + 1)
    · exact .remove found (Bool.eq_false_iff.mpr (by assumption)) _

theorem does_clear (t : Table α) (r : Keyring) (readOnly : α → Bool) :
    Leaves ((Op.clear readOnly).Does t r) (t.clear r readOnly) := by
  unfold Table.clear
  split
  · split
    · trivial
    · exact .blank (by assumption) _
  · exact .empty (Bool.eq_false_iff.mpr (by assumption))

theorem does_reserve {u : Table α} (r : Keyring) {n : Nat} (e : t.reserve n = .ok u) :
    (Op.reserve n).Does t r u r := by
  unfold Table.reserve at e
  dsimp only at e
  split at e
  · cases e
  split at e
  · cases e
    exact .nothing
  split at e
  · cases e
  · cases e
    exact .rebucket (Nat.lt_of_not_le (by assumption))

/-- **What an operation does**, unless it is refused. -/
theorem Op.does (op : Op α) (t : Table α) (r : Keyring) :
    Leaves (op.Does t r) (op.perform t r) := by
  cases op with
  | fetch | contains => exact Op.Does.nothing
  | store s v => exact (does_store t r _ (.inl rfl)).map _
  | change s f => exact does_modify t r s f
  | fetchOrStore s v => exact (does_fetchOrStore t r s v).map fun v => Answer.value (some v)
  | delete s readOnly discards =>
    exact (does_delete t r s readOnly discards).map fun old =>
      Answer.value (if discards then none else old)
  | clear readOnly => exact (does_clear t r readOnly).map fun _ => Answer.nothing
  | clearPlaceholders => exact Op.Does.clearPlaceholders
  | restrict => exact Op.Does.restrict
  | unrestrict => exact Op.Does.unrestrict
  | pinSeed => exact Op.Does.pinSeed
  | reserve n =>
    dsimp only [Op.perform]
    cases e : t.reserve n with
    | error => trivial
    | ok => exact does_reserve r e
  | startWalk => exact Op.Does.rewind
  | walk w => exact Op.Does.step
  | intern p s => exact Op.Does.intern
  | release p k => exact Op.Does.release

/-- What is refused does nothing. -/
theorem Op.does_after (op : Op α) (s : Table α × Keyring) :
    op.Does s.1 s.2 (op.after s).1 (op.after s).2 := by
  have does := op.does s.1 s.2
  unfold Op.after
  cases e : op.perform s.1 s.2 with
  | error => exact .nothing
  | ok result =>
    rw [e] at does
    exact does

end

end ScriptCore.Table
