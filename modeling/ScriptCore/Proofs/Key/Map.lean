import ScriptCore.Key.Map

/-!
# Key — maps see keys up to sameness

`Key.plain` takes from a key all that `Key.same` does not look at, so that keys are the same
exactly when they are equal as plain keys.  A list of keys behaves like the list of the plain
ones, and a `KeyMap` cannot tell same keys apart.
-/

namespace ScriptCore

namespace Key

/-- A key without an identity, and without the mark of where it came from. -/
def plain (k : Key) : Key := { k with handle := 0, narrowed := false }

theorem same_iff {a b : Key} : a.same b = true ↔ a.plain = b.plain := by
  simp [same, plain, and_assoc, and_comm]

theorem same_refl (a : Key) : a.same a = true := same_iff.mpr rfl

theorem same_symm {a b : Key} (h : a.same b = true) : b.same a = true :=
  same_iff.mpr (same_iff.mp h).symm

theorem same_trans {a b c : Key} (h : a.same b = true) (h' : b.same c = true) :
    a.same c = true := same_iff.mpr ((same_iff.mp h).trans (same_iff.mp h'))

@[simp]
theorem plain_plain (k : Key) : k.plain.plain = k.plain := rfl

@[simp]
theorem same_plain (a b : Key) : a.plain.same b.plain = a.same b := rfl

/-- Same keys are the same as the same keys. -/
theorem same_congr {a b : Key} (h : a.same b = true) (c : Key) : a.same c = b.same c := by
  rw [Bool.eq_iff_iff, same_iff, same_iff, same_iff.mp h]

theorem isIn_iff {k : Key} {ks : List Key} : k.isIn ks = true ↔ k.plain ∈ ks.map plain := by
  simp only [isIn, List.any_eq_true, same_iff, List.mem_map]
  exact exists_congr fun _ => and_congr_right fun _ => eq_comm

theorem isIn_plain (k : Key) (ks : List Key) : k.plain.isIn (ks.map plain) = k.isIn ks := by
  simp [isIn, Function.comp_def]

theorem isIn_of_mem {k : Key} {ks : List Key} (h : k ∈ ks) : k.isIn ks = true :=
  isIn_iff.mpr (List.mem_map_of_mem h)

theorem isIn_nil (k : Key) : k.isIn [] = false := rfl

theorem isIn_cons {a b : Key} {ks : List Key} :
    a.isIn (b :: ks) = true ↔ a.same b = true ∨ a.isIn ks = true := by
  simp [isIn]

theorem isIn_append {a : Key} {ks ls : List Key} :
    a.isIn (ks ++ ls) = true ↔ a.isIn ks = true ∨ a.isIn ls = true := by
  simp [isIn]

theorem isIn_reverse {a : Key} {ks : List Key} : a.isIn ks.reverse = a.isIn ks := by
  simp [isIn]

theorem isIn_congr {a b : Key} (h : a.same b = true) (ks : List Key) : a.isIn ks = b.isIn ks := by
  simp only [isIn, funext (same_congr h)]

/-- No two of the keys are the same. -/
def Apart (ks : List Key) : Prop := ks.Pairwise fun a b => a.same b = false

/-- The first of keys that are apart is not the same as another. -/
theorem isIn_of_apart {a b : Key} {ks : List Key} (h : Apart (b :: ks)) (same : b.same a = true) :
    a.isIn ks = false := by
  rw [← isIn_congr same, ← Bool.not_eq_true]
  intro inside
  obtain ⟨c, hc, same⟩ := List.any_eq_true.mp inside
  rw [(List.pairwise_cons.mp h).1 c hc] at same
  cases same

/-- Taking each key where it first occurs does not look at identities. -/
theorem map_plain_firstsAfter (seen ks : List Key) :
    (firstsAfter seen ks).map plain = firstsAfter (seen.map plain) (ks.map plain) := by
  induction ks generalizing seen with
  | nil => rfl
  | cons k ks ih =>
    simp only [firstsAfter, List.map_cons, isIn_plain]
    split
    · exact ih seen
    · rw [List.map_cons, ih, List.map_cons]

end Key

namespace KeyMap

variable {β γ : Type} (m : KeyMap β) (k k' : Key)

theorem get?_congr (h : k.same k' = true) : get? m k = get? m k' := by
  unfold get?
  simp only [Key.same_congr h]

theorem get?_map (f : β → γ) :
    get? (m.map fun e => (e.1, f e.2)) k = (get? m k).map f := by
  unfold get?
  rw [List.find?_map, Option.map_map, Option.map_map]
  rfl

theorem get?_adjust (f : β → β) :
    get? (adjust m k f) k' = if k.same k' then (get? m k').map f else get? m k' := by
  induction m with
  | nil => simp [get?, adjust]
  | cons e m ih =>
    have there : get? (e :: m) k' = if k'.same e.1 then some e.2 else get? m k' := by
      unfold get?
      rw [List.find?_cons]
      split <;> rename_i h <;> simp [h]
    have here : get? (adjust (e :: m) k f) k' =
        if k'.same e.1 then some (if k.same e.1 then f e.2 else e.2)
        else get? (adjust m k f) k' := by
      unfold get? adjust
      rw [List.map_cons, List.find?_cons]
      by_cases h : k.same e.1 = true <;> by_cases h' : k'.same e.1 = true <;> simp [h, h']
    rw [here, there, ih]
    by_cases h' : k'.same e.1 = true
    · -- the entry answers for the one key as it answers for the other
      have : k.same e.1 = k.same k' := by
        rw [Bool.eq_iff_iff]
        exact ⟨fun h => Key.same_trans h (Key.same_symm h'), fun h => Key.same_trans h h'⟩
      rw [if_pos h', if_pos h', this]
      split <;> rfl
    · rw [if_neg h', if_neg h']

theorem get?_update (blank : β) (f : β → β) :
    get? (update m k blank f) k' =
      if k.same k' then some (f ((get? m k).getD blank)) else get? m k' := by
  unfold update
  cases found : get? m k with
  | some v =>
    rw [Option.isSome_some, if_pos rfl, get?_adjust]
    split
    · rw [← get?_congr m k k' (by assumption), found]
      rfl
    · rfl
  | none =>
    rw [Option.isSome_none, if_neg Bool.false_ne_true]
    have appended : get? (m ++ [(k, f blank)]) k' =
        (get? m k').or (if k'.same k then some (f blank) else none) := by
      unfold get?
      rw [List.find?_append, Option.map_or]
      split <;> rename_i h <;> simp [h]
    rw [appended]
    by_cases h : k.same k' = true
    · rw [if_pos h, if_pos (Key.same_symm h), ← get?_congr m k k' h, found]
      rfl
    · rw [if_neg h, if_neg fun h' => h (Key.same_symm h'), Option.or_none]

theorem get?_put (v : β) : get? (put m k v) k' = if k.same k' then some v else get? m k' :=
  get?_update m k k' v _

/-- What a map holds after a key was put. -/
theorem mem_put {v : β} {e : Key × β} (he : e ∈ put m k v) : e.2 = v ∨ e ∈ m := by
  unfold put update at he
  split at he
  · obtain ⟨e', he', rfl⟩ := List.mem_map.mp he
    split
    · exact .inl rfl
    · exact .inr he'
  · rcases List.mem_append.mp he with he | he
    · exact .inr he
    · rw [List.mem_singleton] at he
      exact .inl (by rw [he])

/-! ### Maps in which each key stands once -/

/-- Each key stands once. -/
def Distinct (m : KeyMap β) : Prop := Key.Apart (m.map (·.1))

variable {m k}

theorem keys_adjust (m : KeyMap β) (k : Key) (f : β → β) :
    (adjust m k f).map (·.1) = m.map (·.1) := by
  unfold adjust
  rw [List.map_map]
  refine List.map_congr_left fun e _ => ?_
  dsimp only [Function.comp]
  split <;> rfl

theorem distinct_adjust (d : Distinct m) (k : Key) (f : β → β) : Distinct (adjust m k f) := by
  unfold Distinct
  rwa [keys_adjust]

/-- **One change.**  Where each key stands once, one entry changes or one comes at the end. -/
theorem Distinct.update_cases (d : Distinct m) (k : Key) (blank : β) (f : β → β) :
    (∃ before k' v after, m = before ++ (k', v) :: after ∧ get? m k = some v ∧
        update m k blank f = before ++ (k', f v) :: after) ∨
      get? m k = none ∧ update m k blank f = m ++ [(k, f blank)] := by
  unfold update
  cases found : get? m k with
  | none => exact .inr ⟨rfl, rfl⟩
  | some v =>
    obtain ⟨⟨k', w⟩, hit, rfl⟩ := Option.map_eq_some_iff.mp found
    obtain ⟨same, before, after, rfl, miss⟩ := List.find?_eq_some_iff_append.mp hit
    refine .inl ⟨before, k', w, after, rfl, rfl, ?_⟩
    have left {l : KeyMap β} (other : ∀ e ∈ l, k.same e.1 = false) : adjust l k f = l :=
      (List.map_congr_left fun e he => if_neg (Bool.eq_false_iff.mp (other e he))).trans
        (List.map_id l)
    have later : ∀ e ∈ after, k.same e.1 = false := by
      intro e he
      unfold Distinct Key.Apart at d
      rw [List.map_append, List.map_cons, List.pairwise_append, List.pairwise_cons] at d
      rw [Key.same_congr same]
      exact d.2.1.1 e.1 (List.mem_map_of_mem he)
    rw [Option.isSome_some, if_pos rfl]
    unfold adjust
    rw [List.map_append, List.map_cons, if_pos same]
    have first := left (l := before) fun e he => by simpa using miss e he
    have rest := left later
    unfold adjust at first rest
    rw [first, rest]

theorem distinct_update (d : Distinct m) (k : Key) (blank : β) (f : β → β) :
    Distinct (update m k blank f) := by
  unfold update
  split
  · exact distinct_adjust d k f
  · rename_i absent
    unfold Distinct Key.Apart
    rw [List.map_append, List.pairwise_append]
    refine ⟨d, List.pairwise_singleton _ _, fun a ha b hb => ?_⟩
    obtain ⟨e, he, rfl⟩ := List.mem_map.mp ha
    obtain rfl := List.mem_singleton.mp hb
    rw [← Bool.not_eq_true]
    intro same
    refine absent ?_
    unfold get?
    rw [Option.isSome_map, List.find?_isSome]
    exact ⟨e, he, Key.same_symm same⟩

theorem distinct_put (d : Distinct m) (k : Key) (v : β) : Distinct (put m k v) :=
  distinct_update d k v _

end KeyMap

end ScriptCore
