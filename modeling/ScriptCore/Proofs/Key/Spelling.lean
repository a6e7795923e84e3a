import ScriptCore.Proofs.Table.Linked

/-!
# Key — what spellings tell apart

The narrowest spelling of a text is its bytes one by one where there are such, and its UTF-8 bytes,
marked wide, where there are not.  So texts are told apart by the letters of their spellings
(`Spelling.ofText_letters_inj`).  UTF-8 bytes without the mark spell another text unless the text
is ASCII (`Spelling.letters_eq_encode_iff`): the one that has those bytes one by one.
-/

namespace ScriptCore

theorem Text.encode_injective {s t : String} (h : encode s = encode t) : s = t := by
  rw [← String.toByteArray_inj, ← String.utf8Encode_toList, ← String.utf8Encode_toList]
  exact congrArg List.toByteArray h

/-- A text that has Latin-1 bytes can be read off them. -/
theorem Text.eq_of_latin1? {cs : List Char} {b : Bytes} (h : latin1? cs = some b) :
    cs = b.map fun x => Char.ofNat x.toNat := by
  induction cs generalizing b with
  | nil => cases h; rfl
  | cons c cs ih =>
    unfold latin1? at h
    split at h
    · rename_i narrow
      obtain ⟨rest, hrest, rfl⟩ := Option.map_eq_some_iff.mp h
      rw [List.map_cons, ← ih hrest, UInt8.toNat_ofNat_of_lt' narrow, Char.ofNat_toNat]
    · cases h

/-- ASCII is Latin-1. -/
theorem Text.latin1?_of_isAscii {s : String} (h : isAscii s = true) :
    latin1? s.toList = some (encode s) := by
  unfold isAscii at h
  unfold encode
  revert h
  induction s.toList with
  | nil => exact fun _ => rfl
  | cons c cs ih =>
    intro h
    rw [List.all_cons, Bool.and_eq_true, decide_eq_true_iff] at h
    have size : c.utf8Size = 1 := by
      rw [Char.utf8Size_eq_one_iff, UInt32.le_iff_toNat_le]
      exact Nat.le_of_lt_succ h.1
    unfold latin1?
    rw [if_pos (Nat.lt_trans h.1 (by decide)), ih h.2, List.flatMap_cons,
      String.utf8EncodeChar_eq_singleton size]
    rfl

theorem Text.length_latin1? {cs : List Char} {b : Bytes} (h : latin1? cs = some b) :
    b.length = cs.length := by
  rw [eq_of_latin1? h, List.length_map]

theorem Text.length_le_encode (cs : List Char) :
    cs.length ≤ (cs.flatMap String.utf8EncodeChar).length := by
  induction cs with
  | nil => exact Nat.le_refl 0
  | cons c cs ih =>
    have pos := Char.utf8Size_pos c
    rw [List.flatMap_cons, List.length_append, String.length_utf8EncodeChar, List.length_cons]
    omega

/-- A text of as many bytes as characters is ASCII. -/
theorem Text.isAscii_of_length {s : String} (h : (encode s).length = s.toList.length) :
    isAscii s = true := by
  unfold isAscii
  unfold encode at h
  revert h
  induction s.toList with
  | nil => exact fun _ => rfl
  | cons c cs ih =>
    intro h
    rw [List.flatMap_cons, List.length_append, String.length_utf8EncodeChar,
      List.length_cons] at h
    -- one byte each is the least there can be
    have pos := Char.utf8Size_pos c
    have le := length_le_encode cs
    have one : c.utf8Size = 1 := by omega
    rw [Char.utf8Size_eq_one_iff, UInt32.le_iff_toNat_le] at one
    rw [List.all_cons, ih (by omega), Bool.and_true, decide_eq_true_iff]
    exact Nat.lt_succ_of_le one

/-- A text whose Latin-1 bytes are its UTF-8 bytes is ASCII. -/
theorem Text.isAscii_iff {s : String} :
    isAscii s = true ↔ latin1? s.toList = some (encode s) :=
  ⟨latin1?_of_isAscii, fun h => isAscii_of_length (length_latin1? h)⟩

/-- Bytes are read back from the characters they stand for. -/
theorem Text.latin1?_map (b : Bytes) :
    latin1? (b.map fun x => Char.ofNat x.toNat) = some b := by
  induction b with
  | nil => rfl
  | cons x b ih =>
    have lt : x.toNat < 0x100 := x.toNat_lt
    have valid : x.toNat.isValidChar := .inl (Nat.lt_trans lt (by decide))
    have back : (Char.ofNat x.toNat).toNat = x.toNat := by
      rw [Char.ofNat, dif_pos valid]
      rfl
    rw [List.map_cons, latin1?, back, if_pos lt, ih, Option.map_some, UInt8.ofNat_toNat]

/-- The text whose characters are the UTF-8 bytes of a text, one by one. -/
def Text.bytewise (s : String) : String := ofLatin1 (encode s)

example : Text.bytewise "é" = "Ã©" := by decide +kernel

namespace Spelling

/-- The two ways to spell a text. -/
theorem letters_ofText (s : String) :
    (∃ b, (ofText s).letters = (b, false) ∧ Text.latin1? s.toList = some b) ∨
      (ofText s).letters = (Text.encode s, true) := by
  unfold ofText
  split
  · exact .inl ⟨_, rfl, Text.latin1?_of_isAscii (by assumption)⟩
  · cases narrow : Text.latin1? s.toList with
    | none => exact .inr rfl
    | some b => exact .inl ⟨b, rfl, rfl⟩

/-- A text that has Latin-1 bytes is spelt by them. -/
theorem letters_of_latin1? {s : String} {b : Bytes} (h : Text.latin1? s.toList = some b) :
    (ofText s).letters = (b, false) := by
  unfold ofText
  split
  · rename_i ascii
    obtain rfl := Option.some.inj ((Text.latin1?_of_isAscii ascii).symm.trans h)
    rfl
  · rw [h]
    rfl

theorem letters_bytewise (s : String) :
    (ofText (Text.bytewise s)).letters = (Text.encode s, false) := by
  refine letters_of_latin1? ?_
  rw [Text.bytewise, Text.ofLatin1, String.toList_ofList, Text.latin1?_map]

/-- **UTF-8 bytes without a mark** spell the text when it is ASCII and else another. -/
theorem letters_eq_encode_iff {s : String} :
    (ofText s).letters = (Text.encode s, false) ↔ Text.isAscii s = true := by
  constructor
  · intro h
    rcases letters_ofText s with ⟨b, letters, narrow⟩ | letters
    · obtain rfl : b = Text.encode s := congrArg Prod.fst (letters.symm.trans h)
      exact Text.isAscii_iff.mpr narrow
    · cases congrArg Prod.snd (letters.symm.trans h)
  · intro ascii
    exact letters_of_latin1? (Text.latin1?_of_isAscii ascii)

/-- **Texts are told apart** by their letters. -/
theorem ofText_letters_inj {s t : String} (h : (ofText s).letters = (ofText t).letters) :
    s = t := by
  rcases letters_ofText s with ⟨b, hb, hs⟩ | hs <;>
    rcases letters_ofText t with ⟨d, hd, ht⟩ | ht
  · rw [hb, hd, Prod.mk.injEq] at h
    obtain ⟨rfl, -⟩ := h
    rw [← String.toList_inj, Text.eq_of_latin1? hs, Text.eq_of_latin1? ht]
  · rw [hb, ht, Prod.mk.injEq] at h
    cases h.2
  · rw [hs, hd, Prod.mk.injEq] at h
    cases h.2
  · rw [hs, ht, Prod.mk.injEq] at h
    exact Text.encode_injective h.1

theorem bytewise_eq_iff {s : String} : Text.bytewise s = s ↔ Text.isAscii s = true := by
  rw [← letters_eq_encode_iff, ← letters_bytewise]
  exact ⟨fun e => by rw [e], fun e => (ofText_letters_inj e).symm⟩

end Spelling

end ScriptCore
