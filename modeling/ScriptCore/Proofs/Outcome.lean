import Mathlib.Data.List.Forall2
import ScriptCore.Heap.Beside

/-!
# Outcome — what an operation leads to

Operations keep what they did before they failed, so a statement about one speaks of two ends.
`Ends x s Q E`: from the state `s`, the operation `x` ends in a state and a result with `Q`, or
fails in a state with `E`.  `Leads P x Q E` says so of every state with `P`, and `Keeps P x` is
the case of an invariant: `P` holds at either end.

The rules follow the ways operations are put together: `Leads.bind` for sequence, `Ends.attempt`
for a caught failure, `Keeps.forM` and `Leads.mapM` for repetition.
-/

namespace ScriptCore

variable {ε σ α β : Type}

/-- The state an operation leaves behind, also when it fails. -/
def after (x : EStateM ε σ α) (s : σ) : σ :=
  match x s with
  | .ok _ t => t
  | .error _ t => t

/-- From a state with `P` the operation reaches `Q`, or fails with `E`. -/
def Leads (P : σ → Prop) (x : EStateM ε σ α) (Q : α → σ → Prop) (E : σ → Prop) : Prop :=
  ∀ s, P s → match x s with
    | .ok a t => Q a t
    | .error _ t => E t

/-- From a state the operation reaches `Q`, or fails with `E`. -/
def Ends (x : EStateM ε σ α) (s : σ) (Q : α → σ → Prop) (E : σ → Prop) : Prop :=
  match x s with
  | .ok a t => Q a t
  | .error _ t => E t

/-- From a state the operation reaches `Q`, or fails with a fault and a state with `F`. -/
def Yields (x : EStateM ε σ α) (s : σ) (Q : α → σ → Prop) (F : ε → σ → Prop) : Prop :=
  match x s with
  | .ok a t => Q a t
  | .error e t => F e t

/-- The operation keeps `P`, also when it fails. -/
def Keeps (P : σ → Prop) (x : EStateM ε σ α) : Prop := Leads P x (fun _ => P) P

section
variable {P P' E E' : σ → Prop} {Q Q' : α → σ → Prop} {R : β → σ → Prop}

theorem Leads.after {x : EStateM ε σ α} (h : Leads P x Q E) {s : σ} (hs : P s)
    (hQ : ∀ a, Q a (after x s) → P' (after x s)) (hE : E (after x s) → P' (after x s)) :
    P' (after x s) := by
  have := h s hs
  unfold ScriptCore.after at hQ hE ⊢
  cases e : x s with
  | ok a t => rw [e] at this hQ; exact hQ a this
  | error _ t => rw [e] at this hE; exact hE this

theorem Keeps.after {x : EStateM ε σ α} (h : Keeps P x) {s : σ} (hs : P s) : P (after x s) :=
  Leads.after h hs (fun _ => id) id

theorem Leads.imp {x : EStateM ε σ α} (h : Leads P x Q E) (hP : ∀ s, P' s → P s)
    (hQ : ∀ a s, Q a s → Q' a s) (hE : ∀ s, E s → E' s) : Leads P' x Q' E' := by
  intro s hs
  have := h s (hP s hs)
  cases e : x s with
  | ok a t => rw [e] at this; exact hQ a t this
  | error _ t => rw [e] at this; exact hE t this

theorem Leads.pure {a : α} (h : ∀ s, P s → Q a s) :
    Leads P (Pure.pure a : EStateM ε σ α) Q E := h

theorem Leads.throw {e : ε} (h : ∀ s, P s → E s) : Leads P (throw e : EStateM ε σ α) Q E := h

theorem Leads.bind {x : EStateM ε σ α} {f : α → EStateM ε σ β} (hx : Leads P x Q E)
    (hf : ∀ a, Leads (Q a) (f a) R E) : Leads P (x >>= f) R E := by
  intro s hs
  have h := hx s hs
  show match EStateM.bind x f s with
    | .ok b t => R b t
    | .error _ t => E t
  unfold EStateM.bind
  cases e : x s with
  | ok a t => rw [e] at h; exact hf a t h
  | error _ t => rw [e] at h; exact h

theorem Keeps.pure (a : α) : Keeps P (Pure.pure a : EStateM ε σ α) := fun _ hs => hs

theorem Keeps.bind {x : EStateM ε σ α} {f : α → EStateM ε σ β} (hx : Keeps P x)
    (hf : ∀ a, Keeps P (f a)) : Keeps P (x >>= f) := Leads.bind hx hf

theorem Keeps.throw (e : ε) : Keeps P (throw e : EStateM ε σ α) := fun _ hs => hs

/-- A computation without state changes none. -/
theorem Keeps.outcome (x : Except ε α) : Keeps P (liftM x : EStateM ε σ α) := by
  intro s hs
  cases x <;> exact hs

theorem Keeps.attempt {x : EStateM ε σ α} (hx : Keeps P x) : Keeps P (attempt x) := by
  intro s hs
  have kept := hx s hs
  unfold ScriptCore.attempt
  cases e : x s with
  | ok a t => rw [e] at kept; exact kept
  | error _ t => rw [e] at kept; exact kept

theorem Keeps.discard {x : EStateM ε σ α} (hx : Keeps P x) : Keeps P (discard x) :=
  Keeps.bind hx fun _ => Keeps.pure _

/-- Repetition keeps what each step keeps. -/
theorem Leads.forM {f : α → EStateM ε σ PUnit} {l : List α}
    (h : ∀ a ∈ l, Leads P (f a) (fun _ => P) E) : Leads P (l.forM f) (fun _ => P) E := by
  induction l with
  | nil => exact fun _ hs => hs
  | cons a l ih =>
    exact (h a List.mem_cons_self).bind fun _ => ih fun b hb => h b (List.mem_cons_of_mem _ hb)

/-- Repetition, where each step adds to what was done before. -/
theorem Leads.forM_done {P : List α → σ → Prop} {f : α → EStateM ε σ PUnit} {l : List α}
    (h : ∀ done a rest, l = done ++ a :: rest →
      Leads (P done) (f a) (fun _ => P (done ++ [a])) E) :
    Leads (P []) (l.forM f) (fun _ => P l) E := by
  suffices all : ∀ rest done, l = done ++ rest → Leads (P done) (rest.forM f) (fun _ => P l) E from
    all l [] rfl
  intro rest
  induction rest with
  | nil =>
    intro done whole
    rw [List.append_nil] at whole
    exact fun _ hs => whole ▸ hs
  | cons a rest ih =>
    intro done whole
    exact (h done a rest whole).bind fun _ =>
      ih (done ++ [a]) (by rw [whole, List.append_assoc]; rfl)

theorem Keeps.forM {f : α → EStateM ε σ PUnit} (h : ∀ a, Keeps P (f a)) (l : List α) :
    Keeps P (l.forM f) := Leads.forM fun a _ => h a

end

section
variable {x : EStateM ε σ α} {s : σ} {Q Q' : α → σ → Prop} {E E' : σ → Prop} {R : β → σ → Prop}
  {P : σ → Prop}

theorem Leads.of_ends (h : ∀ s, P s → Ends x s Q E) : Leads P x Q E := h

theorem Leads.ends (h : Leads P x Q E) (hs : P s) : Ends x s Q E := h s hs

theorem Keeps.of_ends (h : ∀ s, P s → Ends x s (fun _ => P) P) : Keeps P x := h

theorem Keeps.ends (h : Keeps P x) (hs : P s) : Ends x s (fun _ => P) P := h s hs

theorem Ends.of_ok {a : α} {t : σ} (e : x s = .ok a t) (q : Q a t) : Ends x s Q E := by
  unfold Ends
  rw [e]
  exact q

theorem Ends.result {a : α} {t : σ} (h : Ends x s Q E) (e : x s = .ok a t) : Q a t := by
  unfold Ends at h
  rwa [e] at h

theorem Ends.imp (h : Ends x s Q E) (hQ : ∀ a t, Q a t → Q' a t) (hE : ∀ t, E t → E' t) :
    Ends x s Q' E' := by
  unfold Ends at h ⊢
  cases e : x s with
  | ok a t => rw [e] at h; exact hQ a t h
  | error _ t => rw [e] at h; exact hE t h

/-- What cannot fail succeeds. -/
theorem Ends.succeeds (h : Ends x s Q fun _ => False) : ∃ a t, x s = .ok a t ∧ Q a t := by
  unfold Ends at h
  cases e : x s with
  | ok a t => rw [e] at h; exact ⟨a, t, rfl, h⟩
  | error _ t => rw [e] at h; exact h.elim

/-- What comes to the same as another operation ends like it. -/
theorem Ends.of_eq {y : EStateM ε σ α} {t : σ} (e : x s = y t) (h : Ends y t Q E) :
    Ends x s Q E := by
  unfold Ends
  rw [e]
  exact h

/-- What is known of the ends in two ways is known together. -/
theorem Ends.and (h : Ends x s Q E) (h' : Ends x s Q' E') :
    Ends x s (fun a t => Q a t ∧ Q' a t) fun t => E t ∧ E' t := by
  unfold Ends at h h' ⊢
  cases e : x s with
  | ok a t => rw [e] at h h'; exact ⟨h, h'⟩
  | error _ t => rw [e] at h h'; exact ⟨h, h'⟩

/-- What does not fail may fail in any way. -/
theorem Ends.sure (h : Ends x s Q fun _ => False) : Ends x s Q E :=
  h.imp (fun _ _ q => q) fun _ => False.elim

theorem Ends.bind {f : α → EStateM ε σ β} (hx : Ends x s Q E)
    (hf : ∀ a t, Q a t → Ends (f a) t R E) : Ends (x >>= f) s R E := by
  show match EStateM.bind x f s with
    | .ok b t => R b t
    | .error _ t => E t
  unfold Ends at hx
  unfold EStateM.bind
  cases e : x s with
  | ok a t => rw [e] at hx; exact hf a t hx
  | error _ t => rw [e] at hx; exact hx

theorem Ends.attempt {F : σ → Prop} (h : Ends x s Q E) :
    Ends (attempt x) s (fun r t => match r with
      | .ok a => Q a t
      | .error _ => E t) F := by
  unfold Ends at h
  unfold Ends ScriptCore.attempt
  cases e : x s with
  | ok a t => rw [e] at h; exact h
  | error _ t => rw [e] at h; exact h

/-- What is known of the state an operation leaves is known at either end. -/
theorem Ends.of_after (h : P (after x s)) : Ends x s (fun _ => P) P := by
  unfold after at h
  unfold Ends
  cases e : x s <;> rw [e] at h <;> exact h

theorem Ends.after (h : Ends x s (fun _ => P) P) : P (ScriptCore.after x s) := by
  unfold ScriptCore.after
  unfold Ends at h
  cases e : x s <;> rw [e] at h <;> exact h

/-- An operation fails only where it does. -/
theorem Ends.error : Ends x s (fun _ _ => True) fun t => ∃ e, x s = .error e t := by
  unfold Ends
  cases e : x s with
  | ok a t => trivial
  | error f t => exact ⟨f, rfl⟩

/-- A result may be thrown away. -/
theorem Ends.discard (h : Ends x s (fun _ => P) E) : Ends (discard x) s (fun _ => P) E :=
  h.bind fun _ _ q => q

theorem after_discard (x : EStateM ε σ α) (s : σ) : after (Functor.discard x) s = after x s := by
  have read : Functor.discard x s = EStateM.map (fun _ => ()) x s := rfl
  unfold ScriptCore.after
  rw [read, EStateM.map]
  cases x s <;> rfl

theorem Ends.of_discard (h : Ends (Functor.discard x) s (fun _ => P) E) :
    Ends x s (fun _ => P) E := by
  have read : Functor.discard x s = EStateM.map (fun _ => ()) x s := rfl
  unfold Ends at h ⊢
  rw [read] at h
  unfold EStateM.map at h
  cases e : x s <;> rw [e] at h <;> exact h

section
variable {x : EStateM ε σ α} {s : σ} {Q Q' : α → σ → Prop} {F F' : ε → σ → Prop}
  {E : σ → Prop} {R : β → σ → Prop}

theorem Ends.yields (h : Ends x s Q E) : Yields x s Q fun _ => E := h

theorem Yields.imp (h : Yields x s Q F) (hQ : ∀ a t, Q a t → Q' a t)
    (hF : ∀ e t, F e t → F' e t) : Yields x s Q' F' := by
  unfold Yields at h ⊢
  cases e : x s with
  | ok a t => rw [e] at h; exact hQ a t h
  | error f t => rw [e] at h; exact hF f t h

theorem Yields.and (h : Yields x s Q F) (h' : Yields x s Q' F') :
    Yields x s (fun a t => Q a t ∧ Q' a t) fun e t => F e t ∧ F' e t := by
  unfold Yields at h h' ⊢
  cases e : x s with
  | ok a t => rw [e] at h h'; exact ⟨h, h'⟩
  | error f t => rw [e] at h h'; exact ⟨h, h'⟩

theorem Yields.bind {f : α → EStateM ε σ β} (hx : Yields x s Q F)
    (hf : ∀ a t, Q a t → Yields (f a) t R F) : Yields (x >>= f) s R F := by
  show match EStateM.bind x f s with
    | .ok b t => R b t
    | .error e t => F e t
  unfold Yields at hx
  unfold EStateM.bind
  cases e : x s with
  | ok a t => rw [e] at hx; exact hf a t hx
  | error f t => rw [e] at hx; exact hx

theorem Yields.cases (h : Yields x s Q F) :
    (∃ a t, x s = .ok a t ∧ Q a t) ∨ ∃ e t, x s = .error e t ∧ F e t := by
  unfold Yields at h
  cases e : x s with
  | ok a t => rw [e] at h; exact .inl ⟨a, t, rfl, h⟩
  | error f t => rw [e] at h; exact .inr ⟨f, t, rfl, h⟩

/-- A fault that is caught is known. -/
theorem Yields.attempt {G : ε → σ → Prop} (h : Yields x s Q F) :
    Yields (attempt x) s (fun r t => match r with
      | .ok a => Q a t
      | .error e => F e t) G := by
  unfold Yields at h
  unfold Yields ScriptCore.attempt
  cases e : x s with
  | ok a t => rw [e] at h; exact h
  | error f t => rw [e] at h; exact h

end

/-- What an operation is known to give is handed on. -/
theorem bind_ok {f : α → EStateM ε σ β} {a : α} {t : σ} (e : x s = .ok a t) :
    (x >>= f) s = f a t := by
  show EStateM.bind x f s = _
  unfold EStateM.bind
  rw [e]

/-- What fails first fails. -/
theorem bind_error {f : α → EStateM ε σ β} {e : ε} {t : σ} (h : x s = .error e t) :
    (x >>= f) s = .error e t := by
  show EStateM.bind x f s = _
  unfold EStateM.bind
  rw [h]

/-- What comes to the same goes on to the same. -/
theorem bind_of_eq {y : EStateM ε σ α} {t : σ} {f : α → EStateM ε σ β} (same : x s = y t) :
    (x >>= f) s = (y >>= f) t := by
  show EStateM.bind x f s = EStateM.bind y f t
  unfold EStateM.bind
  rw [same]

theorem Ends.step {f : α → EStateM ε σ β} {a : α} {t : σ} (e : x s = .ok a t)
    (hf : Ends (f a) t R E) : Ends (x >>= f) s R E := by
  unfold Ends
  rw [bind_ok e]
  exact hf

theorem Yields.step {F : ε → σ → Prop} {f : α → EStateM ε σ β} {a : α} {t : σ}
    (e : x s = .ok a t) (hf : Yields (f a) t R F) : Yields (x >>= f) s R F := by
  unfold Yields
  rw [bind_ok e]
  exact hf

end

section
variable {s : σ} {Q : β → σ → Prop} {E : σ → Prop} {P : σ → Prop}

/-- A look at the state. -/
theorem Ends.read {f : σ → EStateM ε σ β} (hf : Ends (f s) s Q E) : Ends (get >>= f) s Q E :=
  Ends.step rfl hf

theorem Keeps.read {f : σ → EStateM ε σ β} (hf : ∀ s, P s → Ends (f s) s (fun _ => P) P) :
    Keeps P (get >>= f) := fun s hs => Ends.read (hf s hs)

/-- A computation without state comes first. -/
theorem Ends.outcome {x : Except ε α} {f : α → EStateM ε σ β}
    (ok : ∀ a, x = .ok a → Ends (f a) s Q E) (error : E s) : Ends (liftM x >>= f) s Q E := by
  cases x with
  | ok a => exact Ends.step rfl (ok a rfl)
  | error e => exact error

theorem Keeps.modify {f : σ → σ} (hf : ∀ s, P s → P (f s)) :
    Keeps P (modify f : EStateM ε σ PUnit) := hf

end

/-- **Repetition.**  What holds of each result, while an invariant is kept, holds of all; a fault is
that of one of them. -/
theorem Yields.mapM {P : σ → Prop} {F : ε → σ → Prop} {R : α → β → Prop}
    {f : α → EStateM ε σ β} {l : List α} {s : σ}
    (h : ∀ a ∈ l, ∀ s, P s → Yields (f a) s (fun b t => P t ∧ R a b) F) (hs : P s) :
    Yields (l.mapM f) s (fun bs t => P t ∧ List.Forall₂ R l bs) F := by
  induction l generalizing s with
  | nil => exact ⟨hs, .nil⟩
  | cons a l ih =>
    rw [List.mapM_cons]
    refine Yields.bind (h a List.mem_cons_self s hs) fun b t ⟨ht, hb⟩ => ?_
    refine Yields.bind (ih (fun a ha => h a (List.mem_cons_of_mem _ ha)) ht) ?_
    exact fun bs u ⟨hu, hbs⟩ => ⟨hu, .cons hb hbs⟩

theorem Leads.mapM {P E : σ → Prop} {R : α → β → Prop} {f : α → EStateM ε σ β} {l : List α}
    (h : ∀ a ∈ l, Leads P (f a) (fun b s => P s ∧ R a b) E) :
    Leads P (l.mapM f) (fun bs s => P s ∧ List.Forall₂ R l bs) E :=
  fun _ hs => Yields.mapM (F := fun _ => E) h hs

/-- **Repetition that is foreseen.**  Where each operation comes to what is known beforehand, all of
them do, up to the first that fails. -/
theorem Yields.mapM_foreseen {γ : Type} {P : σ → Prop} {f : α → EStateM ε σ β}
    {g : α → Except ε γ} {view : β → γ} {l : List α} {s : σ}
    (h : ∀ a ∈ l, ∀ s, P s → Yields (f a) s (fun b t => P t ∧ g a = .ok (view b))
      fun e t => P t ∧ g a = .error e) (hs : P s) :
    Yields (l.mapM f) s (fun bs t => P t ∧ l.mapM g = .ok (bs.map view))
      fun e t => P t ∧ l.mapM g = .error e := by
  induction l generalizing s with
  | nil => exact ⟨hs, rfl⟩
  | cons a l ih =>
    simp only [List.mapM_cons]
    refine Yields.bind ((h a List.mem_cons_self s hs).imp (fun _ _ => id) ?_) ?_
    · rintro e t ⟨ht, fails⟩
      exact ⟨ht, by rw [fails]; rfl⟩
    rintro b t ⟨ht, gives⟩
    refine Yields.bind ((ih (fun a ha => h a (List.mem_cons_of_mem _ ha)) ht).imp
      (fun _ _ => id) ?_) ?_
    · rintro e u ⟨hu, fails⟩
      exact ⟨hu, by rw [gives, fails]; rfl⟩
    rintro bs u ⟨hu, rest⟩
    exact ⟨hu, by rw [gives, rest]; rfl⟩

theorem Keeps.mapM {P : σ → Prop} {f : α → EStateM ε σ β} (h : ∀ a, Keeps P (f a))
    (l : List α) : Keeps P (l.mapM f) := by
  have all : Leads P (l.mapM f) (fun bs s => P s ∧ List.Forall₂ (fun _ _ => True) l bs) P :=
    Leads.mapM fun a _ => (h a).imp (fun _ => id) (fun _ _ hs => ⟨hs, trivial⟩) fun _ => id
  exact all.imp (fun _ => id) (fun _ _ => And.left) fun _ => id

theorem Keeps.foldlM {P : σ → Prop} {f : β → α → EStateM ε σ β} {l : List α}
    (h : ∀ a ∈ l, ∀ b, Keeps P (f b a)) (b : β) : Keeps P (l.foldlM f b) := by
  induction l generalizing b with
  | nil => exact Keeps.pure b
  | cons a l ih =>
    rw [List.foldlM_cons]
    refine (h a List.mem_cons_self b).bind fun b => ?_
    exact ih (fun a ha => h a (List.mem_cons_of_mem _ ha)) b

theorem liftM_apply {τ : Type} (x : OnHeap α) (s : Beside τ) :
    (liftM x : OnBeside τ α) s = match x s.heap with
      | .ok a heap => .ok a { s with heap }
      | .error e heap => .error e { s with heap } := rfl

/-- An operation on the heap, as one on a heap and what lives beside it. -/
theorem Ends.lift {τ : Type} {x : OnHeap α} {s : Beside τ} {Q : α → Heap → Prop}
    {E : Heap → Prop} (h : Ends x s.heap Q E) :
    Ends (liftM x : OnBeside τ α) s (fun a t => t.own = s.own ∧ Q a t.heap)
      fun t => t.own = s.own ∧ E t.heap := by
  unfold Ends at h ⊢
  rw [liftM_apply]
  cases e : x s.heap with
  | ok a heap => rw [e] at h; exact ⟨rfl, h⟩
  | error _ heap => rw [e] at h; exact ⟨rfl, h⟩

/-- An operation on the heap that does not fail. -/
theorem Ends.liftSure {τ : Type} {x : OnHeap α} {s : Beside τ} {Q : α → Heap → Prop}
    {E : Beside τ → Prop} (h : Ends x s.heap Q fun _ => False) :
    Ends (liftM x : OnBeside τ α) s (fun a t => t.own = s.own ∧ Q a t.heap) E :=
  h.lift.imp (fun _ _ q => q) fun _ f => f.2.elim

theorem liftM_ok {τ : Type} {x : OnHeap α} {s : Beside τ} {a : α} {heap : Heap}
    (e : x s.heap = .ok a heap) : (liftM x : OnBeside τ α) s = .ok a { s with heap } := by
  rw [liftM_apply, e]

theorem liftM_bind {τ : Type} (x : OnHeap α) (f : α → OnHeap β) :
    (liftM (x >>= f) : OnBeside τ β) = liftM x >>= fun a => liftM (f a) := by
  funext s
  rw [liftM_apply]
  show (match EStateM.bind x f s.heap with
    | .ok a heap => .ok a { s with heap }
    | .error e heap => .error e { s with heap }) =
      (EStateM.bind (liftM x) (fun a => liftM (f a)) s : EStateM.Result Fault (Beside τ) β)
  unfold EStateM.bind
  rw [liftM_apply]
  cases x s.heap <;> rfl

/-- Operations on the heap one after the other, each as one beside it. -/
theorem mapM_liftM {τ : Type} (f : α → OnHeap β) (l : List α) :
    (l.mapM fun a => (liftM (f a) : OnBeside τ β)) = liftM (l.mapM f) := by
  induction l with
  | nil => rfl
  | cons a l ih =>
    simp only [List.mapM_cons, ih, liftM_bind]
    rfl

/-- An operation on the heap leaves what lives beside it alone. -/
theorem Keeps.onHeap {τ : Type} {P : τ → Prop} (x : OnHeap α) :
    Keeps (fun s : Beside τ => P s.own) (liftM x : OnBeside τ α) := by
  intro s hs
  rw [liftM_apply]
  cases x s.heap <;> exact hs

section
variable {τ : Type} {P : τ → Prop}

/-- Reading what lives beside the heap. -/
theorem Leads.self {P : Beside τ → Prop} :
    Leads P Beside.self (fun p s => p = s.own ∧ P s) P := fun _ hs => ⟨rfl, hs⟩

theorem self_bind (f : τ → OnBeside τ α) (s : Beside τ) : (Beside.self >>= f) s = f s.own s := rfl

theorem Ends.self {f : τ → OnBeside τ α} {s : Beside τ} {Q : α → Beside τ → Prop}
    {E : Beside τ → Prop} (hf : Ends (f s.own) s Q E) : Ends (Beside.self >>= f) s Q E :=
  Ends.step rfl hf

theorem Keeps.self {P : Beside τ → Prop} : Keeps P Beside.self := fun _ hs => hs

theorem Keeps.readHeap {P : Beside τ → Prop} : Keeps P (Beside.onHeap : OnBeside τ Heap) :=
  fun _ hs => hs

theorem Keeps.changeSelf {f : τ → τ} (h : ∀ p, P p → P (f p)) :
    Keeps (fun s : Beside τ => P s.own) (Beside.changeSelf f) := fun s => h s.own

theorem Keeps.changeHeap (f : Heap → Heap) :
    Keeps (fun s : Beside τ => P s.own) (Beside.changeHeap f) := fun _ hs => hs

end

end ScriptCore
