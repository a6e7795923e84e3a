import ScriptCore.Proofs.Key.Spelling
import ScriptCore.Proofs.Table.Session
import ScriptCore.Proofs.Text.Utf8

/-!
# Key — a key is its text

There are four ways to write a key down (`Spelling.Built`): as a text, as bytes, as marked bytes,
and by reading it off a key.  Each is in normal form, that is, spelt like its own text
(`Spelling.Built.letters_eq`).

* `same_iff_text_eq`: keys of one seed are the same exactly when their texts are, so a key's text
  makes the key again; and what a table is given under one spelling it answers under all spellings
  of the text and under no others.
-/

namespace ScriptCore

namespace Spelling

/-- The characters of a spelling. -/
def text (s : Spelling) : String := Text.decode s.bytes s.wide

/-- The spellings there are. -/
inductive Built : Spelling → Prop
  | text (s : String) : Built (ofText s)
  | bytes (b : Bytes) : Built (ofBytes b)
  | marked (b : Bytes) (wide narrowed : Bool) : Built (ofMarked b wide narrowed)
  /-- Read off a key that was made under any seed. -/
  | key {s : Spelling} (h : Built s) (seed : Seed) (supply : Supply) :
      Built (Key.ofSpelling s seed supply).1
  /-- Read off a key that a table hashed anew. -/
  | reseeded {k : Key} (h : Built k) (seed : Seed) (supply : Supply) :
      Built (k.reseed seed supply).1

/-- A text is read back from its letters. -/
theorem decode_letters_ofText (s : String) :
    Text.decode (ofText s).letters.1 (ofText s).letters.2 = s := by
  rcases letters_ofText s with ⟨b, letters, narrow⟩ | letters
  · rw [letters, Text.decode, if_neg Bool.false_ne_true, Text.ofLatin1, ← Text.eq_of_latin1? narrow,
      String.ofList_toList]
  · rw [letters, Text.decode, if_pos rfl, Utf8.lossy_encode]

@[simp] theorem text_ofText (s : String) : (ofText s).text = s := decode_letters_ofText s

@[simp] theorem text_ofBytes (b : Bytes) : (ofBytes b).text = Text.ofLatin1 b := rfl

theorem text_eq_decode (s : Spelling) : s.text = Text.decode s.letters.1 s.letters.2 := rfl

/-- Bytes are spelt like the text of the characters that they number. -/
theorem letters_ofText_ofLatin1 (b : Bytes) :
    (ofText (Text.ofLatin1 b)).letters = (b, false) := by
  refine letters_of_latin1? ?_
  rw [Text.ofLatin1, String.toList_ofList, Text.latin1?_map]

/-- Marked bytes are a text when they are wide and its encoding, and else bytes. -/
theorem ofMarked_cases (b : Bytes) (wide narrowed : Bool) :
    (∃ s, wide = true ∧ b = Text.encode s ∧ ofMarked b wide narrowed = ofText s) ∨
      (¬∃ s, wide = true ∧ b = Text.encode s) ∧
        (ofMarked b wide narrowed).letters = (b, false) := by
  unfold ofMarked
  cases wide with
  | false => exact .inr ⟨by simp, rfl⟩
  | true =>
    cases decoded : Utf8.decode? b with
    | none =>
      refine .inr ⟨?_, rfl⟩
      rintro ⟨s, -, encoded⟩
      rw [Utf8.decode?_eq_some_iff.mpr encoded] at decoded
      cases decoded
    | some s => exact .inl ⟨s, rfl, Utf8.decode?_eq_some_iff.mp decoded, rfl⟩

/-- The text of marked bytes. -/
theorem text_ofMarked_encode (s : String) (narrowed : Bool) :
    (ofMarked (Text.encode s) true narrowed).text = s := by
  rcases ofMarked_cases (Text.encode s) true narrowed with ⟨t, -, encoded, built⟩ | ⟨other, -⟩
  · rw [built, text_ofText, Text.encode_injective encoded]
  · exact absurd ⟨s, rfl, rfl⟩ other

theorem text_ofMarked_of_not {b : Bytes} {wide : Bool}
    (h : ¬∃ s, wide = true ∧ b = Text.encode s) (narrowed : Bool) :
    (ofMarked b wide narrowed).text = Text.ofLatin1 b := by
  rcases ofMarked_cases b wide narrowed with ⟨s, marked, encoded, -⟩ | ⟨-, letters⟩
  · exact absurd ⟨s, marked, encoded⟩ h
  · rw [text_eq_decode, letters]
    rfl

/-- **Normal form.**  A spelling is spelt like its text. -/
theorem Built.letters_eq {s : Spelling} (h : s.Built) : s.letters = (ofText s.text).letters := by
  induction h with
  | text s => rw [text_ofText]
  | bytes b => exact (letters_ofText_ofLatin1 b).symm
  | marked b wide narrowed =>
    rcases ofMarked_cases b wide narrowed with ⟨s, -, -, built⟩ | ⟨-, letters⟩
    · rw [built, text_ofText]
    · rw [letters, text_eq_decode, letters]
      exact (letters_ofText_ofLatin1 b).symm
  | @key s h seed supply ih =>
    have letters : (ofKey (Key.ofSpelling s seed supply).1).letters = s.letters :=
      (Key.ofSpelling_spec s seed supply).1
    rw [text_eq_decode, letters]
    exact ih
  | reseeded h seed supply ih => exact ih

/-- Spellings have the same letters exactly when they have the same text. -/
theorem Built.letters_eq_iff {s t : Spelling} (hs : s.Built) (ht : t.Built) :
    s.letters = t.letters ↔ s.text = t.text := by
  constructor
  · intro same
    rw [text_eq_decode, text_eq_decode, same]
  · intro same
    rw [hs.letters_eq, ht.letters_eq, same]

end Spelling

namespace Key

/-- A key has the text of its spelling. -/
theorem text_ofSpelling (s : Spelling) (seed : Seed) (supply : Supply) :
    (ofSpelling s seed supply).1.text = s.text := by
  have letters := (ofSpelling_spec s seed supply).1
  rw [Spelling.text_eq_decode, ← letters]
  rfl

/-- Keys of one seed are the same exactly when they have the same letters. -/
theorem same_ofSpelling_iff (s t : Spelling) (seed : Seed) (supply supply' : Supply) :
    (ofSpelling s seed supply).1.same (ofSpelling t seed supply').1 = true ↔
      s.letters = t.letters := by
  obtain ⟨letters, hash⟩ := ofSpelling_spec s seed supply
  obtain ⟨letters', hash'⟩ := ofSpelling_spec t seed supply'
  rw [same, Bool.and_eq_true, Bool.and_eq_true, beq_iff_eq, beq_iff_eq, beq_iff_eq, and_assoc,
    ← Prod.mk.injEq]
  show _ ∧ (ofSpelling s seed supply).1.letters = (ofSpelling t seed supply').1.letters ↔ _
  rw [letters, letters', hash, hash', and_iff_right_iff_imp]
  intro same
  rw [show s.bytes = t.bytes from congrArg Prod.fst same]

end Key

namespace Table
variable {α : Type}

/-- What a housed table is given under one spelling it answers under all spellings of the text, and
under the others what it did. -/
theorem Housed.fetch?_store {t : Table α} {r : Keyring} (h : Housed t r) {s u : Spelling}
    (hs : s.Built) (hu : u.Built) (v : α) :
    match t.store r s v with
    | .ok (_, t', _) => t'.fetch? u = if u.text = s.text then some v else t.fetch? u
    | .error _ => t.restricted = true := by
  obtain ⟨m, shows⟩ := h.sound.toLinked.exists_shows
  have stored := h.store shows s v
  cases e : t.store r s v with
  | error => rwa [e] at stored
  | ok result =>
    rw [e] at stored
    obtain ⟨housed, shown, -⟩ := stored
    show Table.fetch? result.2.1 u = _
    rw [shown.fetch? housed.sound.toLinked, shows.fetch? h.sound.toLinked]
    split
    · rename_i same
      rw [(hu.letters_eq_iff hs).mpr same, Finmap.lookup_insert]
    · rename_i other
      exact Finmap.lookup_insert_of_ne m fun same => other ((hu.letters_eq_iff hs).mp same)

end Table

/-- **A key is its text.**  Of the keys of one seed, two are the same exactly when their texts are.
A key made from a text has that text, and so has one made from its bytes marked as UTF-8; one made
from other bytes has the characters they number.  The text of a key makes the same key again.  So
after any history a table that takes a value under one spelling answers it under every spelling of
the text, and under any other what it answered before. -/
theorem Key.same_iff_text_eq {s t : Spelling} (hs : s.Built) (ht : t.Built) (seed : Seed)
    (supply supply' : Supply) :
    let k := (Key.ofSpelling s seed supply).1
    let l := (Key.ofSpelling t seed supply').1
    (k.same l = true ↔ k.text = l.text) ∧
      (Key.ofSpelling (.ofText k.text) seed supply').1.same k = true ∧
      (∀ x narrowed, s = .ofText x ∨ s = .ofMarked (Text.encode x) true narrowed → k.text = x) ∧
      (∀ b wide narrowed, (¬∃ x, wide = true ∧ b = Text.encode x) →
        s = .ofBytes b ∨ s = .ofMarked b wide narrowed →
        k.text.toList = b.map fun x => Char.ofNat x.toNat) ∧
      ∀ (α : Type) (seeds : Array Seed) (home : Table.Home) (ops : List (Table.Op α)) (v : α),
        let r := Keyring.ofSeeds seeds supply
        let before := Table.run ops (home.fresh r, r)
        match before.1.store before.2 s v with
        | .ok (_, after, _) =>
          after.fetch? t = if t.text = s.text then some v else before.1.fetch? t
        | .error _ => before.1.restricted = true := by
  intro k l
  have textOf : k.text = s.text := Key.text_ofSpelling s seed supply
  refine ⟨?_, ?_, ?_, ?_, ?_⟩
  · rw [textOf, Key.text_ofSpelling t seed supply', Key.same_ofSpelling_iff]
    exact hs.letters_eq_iff ht
  · rw [Key.same_ofSpelling_iff, textOf]
    exact hs.letters_eq.symm
  · rintro x narrowed (rfl | rfl)
    · exact textOf.trans (Spelling.text_ofText x)
    · exact textOf.trans (Spelling.text_ofMarked_encode x narrowed)
  · rintro b wide narrowed other (rfl | rfl)
    · rw [textOf, Spelling.text_ofBytes, Text.ofLatin1, String.toList_ofList]
    · rw [textOf, Spelling.text_ofMarked_of_not other, Text.ofLatin1, String.toList_ofList]
  · intro α seeds home ops v r before
    have housed : Table.Housed before.1 before.2 :=
      (Table.Housed.run (Table.housed_fresh seeds supply home) (Table.shows_fresh r home) ops).1
    exact housed.fetch?_store hs ht v

/-- The text `é` written as UTF-8 and as its one byte. -/
theorem Key.same_iff_text_eq_accent :
    let s : Spelling := .ofMarked [0xC3, 0xA9] true false
    let t : Spelling := .ofBytes [0xE9]
    s.Built ∧ t.Built ∧ s.text = "é" ∧ t.text = "é" ∧
      (Key.ofSpelling s ⟨1⟩ {}).1.same (Key.ofSpelling t ⟨1⟩ {}).1 = true := by
  intro s t
  have hs : s.Built := .marked [0xC3, 0xA9] true false
  have ht : t.Built := .bytes [0xE9]
  have text : s.text = "é" := by decide +kernel
  have text' : t.text = "é" := by decide +kernel
  refine ⟨hs, ht, text, text', ((Key.same_iff_text_eq hs ht ⟨1⟩ {} {}).1).mpr ?_⟩
  rw [Key.text_ofSpelling, Key.text_ofSpelling, text, text']

end ScriptCore
