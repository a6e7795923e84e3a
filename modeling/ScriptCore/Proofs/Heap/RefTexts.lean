import ScriptCore.Proofs.Heap.Host
import ScriptCore.Proofs.Heap.Reads
import ScriptCore.Proofs.Key.Identity

/-!
# Heap — the text of a reference, by two routes

What a reference is called is a text: the package of its referent, the kind and the address.  Read
as a value, a reference is that text turned into UTF-8 bytes, and the bytes are decoded by a mark
that belongs to text the cell holds.  A reference holds none, so its bytes are decoded one by one.

* `run_refTexts`: the two routes give the same text exactly when the package is ASCII; otherwise the
  value has one character for each byte of the other's UTF-8.
-/

namespace ScriptCore

/-! ### ASCII -/

namespace Text
variable {s t : String}

theorem isAscii_append : isAscii (s ++ t) = (isAscii s && isAscii t) := by
  rw [isAscii, String.toList_append, List.all_append, isAscii, isAscii]

theorem isAscii_hex (n : Nat) : isAscii (hex n) = true := by
  rw [isAscii, hex, String.toList_ofList, List.all_eq_true]
  have digit : ∀ d < 16, (Nat.digitChar d).toNat < 0x80 := by decide
  induction n using Nat.strongRecOn with
  | ind n ih =>
    rw [Nat.toDigits_eq_if (by decide)]
    split
    · rename_i small
      intro c hc
      rw [List.mem_singleton.mp hc]
      exact decide_eq_true (digit n small)
    · intro c hc
      rcases List.mem_append.mp hc with front | last
      · exact ih (n / 16) (by omega) c front
      · rw [List.mem_singleton.mp last]
        exact decide_eq_true (digit _ (Nat.mod_lt n (by decide)))

end Text

theorem Cell.isAscii_referentKind (c : Cell) : Text.isAscii c.referentKind = true := by
  unfold referentKind
  split
  · cases c.shape <;> decide
  · split <;> decide

namespace Heap

/-- What a reference to a cell is called, the package apart. -/
def plainRefText (h : Heap) (j : CellId) : String :=
  (h.cell j).referentKind ++ "(" ++ addressText j ++ ")"

section
variable {h : Heap} {i j : CellId} {c : Cell} {p : Key} {t : String}

theorem isAscii_plainRefText (h : Heap) (j : CellId) :
    Text.isAscii (h.plainRefText j) = true := by
  have address : Text.isAscii (addressText j) = true := by
    rw [addressText, Text.isAscii_append, Text.isAscii_hex]
    decide
  simp only [plainRefText, Text.isAscii_append, address, Cell.isAscii_referentKind]
  decide

/-- A reference is called by the package of its referent, if there is one, and the rest. -/
theorem refText?_eq (live : h.referent? i = some j) :
    h.refText? i = some (match h.package? j with
      | none => h.plainRefText j
      | some p => p.text ++ "=" ++ h.plainRefText j) := by
  rw [refText?, live, Option.map_some]
  rfl

/-- The text of a reference is ASCII exactly when that of the package is. -/
theorem isAscii_refText (live : h.referent? i = some j) (called : h.refText? i = some t) :
    Text.isAscii t = true ↔ ∀ p, h.package? j = some p → Text.isAscii p.text = true := by
  rw [refText?_eq live, Option.some.injEq] at called
  subst called
  cases h.package? j with
  | none => simp [isAscii_plainRefText]
  | some p =>
    simp only [Text.isAscii_append, isAscii_plainRefText, Option.some.injEq, forall_eq',
      Bool.and_true, Bool.and_eq_true, and_iff_left_iff_imp]
    exact fun _ => by decide

/-! ### The value of a reference -/

/-- A reference to a live cell is the source of its reads, and has no text of its own. -/
theorem source_of_referent (v : c.Valid) (hc : h.cell? i = some c)
    (live : h.referent? i = some j) :
    c.shape.isAggregate = false ∧ c.source h.isAlive = .ref j ∧ c.flags.textOk = false ∧
      c.flags.utf8 = false := by
  rw [referent?, cell_eq hc] at live
  have ok : c.flags.refOk = true := by
    cases ok : c.flags.refOk with
    | true => rfl
    | false =>
      rw [Cell.referent, ok] at live
      cases live
  obtain ⟨int, num, text⟩ := v.value.alone ok
  have noInt : c.flags.intOk ≠ true := fun there => by simp [v.value.int there] at int
  have noNum : c.flags.numOk ≠ true := fun there => by simp [v.value.num there] at num
  refine ⟨?_, ?_, text, ?_⟩
  · cases aggregate : c.shape.isAggregate with
    | false => rfl
    | true =>
      have held := v.holdsValue_aggregate aggregate
      simp [Flags.holdsValue, ok] at held
  · rw [Cell.source, if_neg noInt, if_neg noNum, if_pos ok, live]
    rfl
  · cases marked : c.flags.utf8 with
    | false => rfl
    | true =>
      rw [(v.value.utf8 marked).1] at text
      cases text

/-- **The value of a reference** is what it is called, byte for byte. -/
theorem readText_ref (v : c.Valid) (hc : h.cell? i = some c) (live : h.referent? i = some j)
    (called : h.refText? i = some t) (sink : Sink) :
    readText i sink h = .ok (Text.bytewise t) h := by
  obtain ⟨scalar, source, text, utf8⟩ := source_of_referent v hc live
  have bytes : readBytes i sink h = .ok (Text.encode t) h := by
    rw [readBytes_eq hc scalar, Cell.bytesRead, Cell.afterBytes, text, source, called]
    simp [Cell.Source.asBytes, Cell.Source.textAdvice, setCell_self hc]
  rw [readText, bind_ok bytes, bind_get, cell_eq hc, utf8]
  rfl

end

/-- **Both texts of a reference.**  Whatever a host did: a reference that it has a handle on, and
that refers to a live cell once its hooks have run, is called by the package of that cell, if there
is one, and by kind and address.  The package is there under the very name it was blessed with.
Read as a value, the reference is the text whose characters are the UTF-8 bytes of what it is
called, so the two are the same exactly when the package is ASCII. -/
theorem run_refTexts (seeds : Array Seed) (supply : Supply) (ops : List Op) {i j : CellId}
    {g : Heap} (held : i ∈ ((Host.start seeds supply).run ops).held)
    (ran : runHooks .get i ((Host.start seeds supply).run ops).heap = .ok () g)
    (live : g.referent? i = some j) (sink : Sink) :
    ∃ t, g.refText? i = some t ∧
      getText i sink ((Host.start seeds supply).run ops).heap = .ok (Text.bytewise t) g ∧
      (Text.bytewise t = t ↔ ∀ p, g.package? j = some p → Text.isAscii p.text = true) ∧
      (g.package? j = none → t = g.plainRefText j) ∧
      ∀ name seed fresh, g.package? j = some (Key.ofSpelling (.ofText name) seed fresh).1 →
        t = name ++ "=" ++ g.plainRefText j := by
  have k := (kept_start seeds supply).run ops
  have k : Kept (Host.start seeds supply).heap ((Host.start seeds supply).run ops).held g := by
    have ends := (keeps_runHooks held .get).ends k
    rwa [Ends, ran] at ends
  obtain ⟨c, hc⟩ := k.alive held
  have called := refText?_eq live
  refine ⟨_, called, ?_, ?_, ?_, ?_⟩
  · rw [getText, bind_ok ran]
    exact readText_ref (k.valid hc) hc live called sink
  · rw [Spelling.bytewise_eq_iff, isAscii_refText live called]
  · intro plain
    rw [plain]
  · intro name seed fresh blessed
    rw [blessed]
    simp only [Key.text_ofSpelling, Spelling.text_ofText]

/-- The key of a package that is not ASCII. -/
def accentedPackage : Key := (Key.ofSpelling (.ofText "é") ⟨0⟩ {}).1

/-- A reference to an object of such a package. -/
theorem run_refTexts_accented :
    let s := (Host.start #[] {}).run [.make .undef, .refer 0, .bless 1 accentedPackage]
    s.heap.refText? 1 = some "é=SCALAR(0x5d0000000000)" ∧
      getText 1 .silent s.heap = .ok "Ã©=SCALAR(0x5d0000000000)" s.heap := by
  intro s
  have ran : runHooks .get 1 s.heap = .ok () s.heap := by with_unfolding_all rfl
  obtain ⟨t, called, read, -, -, name⟩ := run_refTexts #[] {}
    [.make .undef, .refer 0, .bless 1 accentedPackage] (i := 1) (j := 0) (by decide +kernel) ran
    (by with_unfolding_all rfl) .silent
  have same : t = "é=SCALAR(0x5d0000000000)" :=
    (name "é" ⟨0⟩ {} (by with_unfolding_all rfl)).trans (by decide +kernel)
  subst same
  exact ⟨called, read.trans (congrArg (EStateM.Result.ok · _) (by decide +kernel))⟩

/-- The two texts of that reference differ. -/
theorem refText?_ne_getText :
    let s := (Host.start #[] {}).run [.make .undef, .refer 0, .bless 1 accentedPackage]
    s.heap.referent? 1 = some 0 ∧ s.heap.package? 0 = some accentedPackage ∧
      ∃ t u, s.heap.refText? 1 = some t ∧ getText 1 .silent s.heap = .ok u s.heap ∧ u ≠ t := by
  refine ⟨by decide +kernel, by decide +kernel, "é=SCALAR(0x5d0000000000)",
    Text.bytewise "é=SCALAR(0x5d0000000000)", by decide +kernel, ?_, by decide +kernel⟩
  with_unfolding_all rfl

end Heap

end ScriptCore
