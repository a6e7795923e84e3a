import Mathlib.Data.List.Forall2
import Mathlib.Tactic.IntervalCases
import ScriptCore.Text.Utf8

/-!
# Text — UTF-8 is read back

The first byte of a character announces ranges for the later ones (`lead`).  Bytes in those ranges
complete it (`complete`), and then the bytes are the encoding of the character they complete
(`encode_complete`); every character is encoded like that (`exists_lead`).

* `scan_encode`: the encoding of a text is scanned without a fault, to the text.
* `decode?_eq_some_iff`: and no other bytes are.
-/

namespace ScriptCore.Utf8

/-- Later bytes in the ranges that were announced for them. -/
def Within (bs : Bytes) (ranges : List (Nat × Nat)) : Prop :=
  List.Forall₂ (fun b r => r.1 ≤ b.toNat ∧ b.toNat ≤ r.2) bs ranges

/-- The code point that later bytes complete. -/
def complete (v : Nat) (bs : Bytes) : Nat := bs.foldl (fun v b => v * 64 + (b.toNat - 0x80)) v

section
variable {b : UInt8} {n v : Nat} {ranges : List (Nat × Nat)} {bs rest : Bytes} {cs : List Char}

/-! ### First bytes -/

theorem lead_one (h : n < 0x80) : lead n = some (n, []) := if_pos h

theorem lead_two (lo : 0xC2 ≤ n) (hi : n < 0xE0) : lead n = some (n - 0xC0, [(0x80, 0xBF)]) := by
  unfold lead
  rw [if_neg (by omega), if_neg (by omega), if_pos hi]

/-- Of the second of three bytes, the least are for shorter encodings, and some for no character. -/
theorem lead_three (lo : 0xE0 ≤ n) (hi : n < 0xF0) :
    lead n = some (n - 0xE0,
      [(if n = 0xE0 then 0xA0 else 0x80, if n = 0xED then 0x9F else 0xBF), (0x80, 0xBF)]) := by
  interval_cases n <;> rfl

/-- Of the second of four bytes, the least are for shorter encodings, and the greatest for no
character. -/
theorem lead_four (lo : 0xF0 ≤ n) (hi : n < 0xF5) :
    lead n = some (n - 0xF0,
      [(if n = 0xF0 then 0x90 else 0x80, if n = 0xF4 then 0x8F else 0xBF),
        (0x80, 0xBF), (0x80, 0xBF)]) := by
  interval_cases n <;> rfl

/-- No other byte is a first one. -/
theorem lead_none (h : 0x80 ≤ n ∧ n < 0xC2 ∨ 0xF5 ≤ n) : lead n = none := by
  unfold lead
  rcases h with ⟨lo, hi⟩ | lo
  · rw [if_neg (by omega), if_pos hi]
  · simp only [show ¬ n < 0x80 by omega, show ¬ n < 0xC2 by omega, show ¬ n < 0xE0 by omega,
      show ¬ n = 0xE0 by omega, show ¬ n = 0xED by omega, show ¬ n < 0xF0 by omega,
      show ¬ n = 0xF0 by omega, show ¬ n < 0xF4 by omega, show ¬ n = 0xF4 by omega, if_false]

/-! ### One character -/

/-- Later bytes, one by one. -/
theorem within_cons {lo hi : Nat} :
    Within bs ((lo, hi) :: ranges) ↔
      ∃ b rest, bs = b :: rest ∧ (lo ≤ b.toNat ∧ b.toNat ≤ hi) ∧ Within rest ranges := by
  constructor
  · rintro (_ | ⟨here, later⟩)
    exact ⟨_, _, rfl, here, later⟩
  · rintro ⟨b, rest, rfl, here, later⟩
    exact .cons here later

theorem within_nil : Within bs [] ↔ bs = [] := List.forall₂_nil_right_iff

/-- A range that a first byte may have narrowed. -/
theorem narrowed {p q : Prop} [Decidable p] [Decidable q] {lo hi : Nat} (hlo : 0x80 ≤ lo)
    (hhi : hi ≤ 0xBF) (h : (if p then lo else 0x80) ≤ n ∧ n ≤ if q then hi else 0xBF) :
    (0x80 ≤ n ∧ n ≤ 0xBF) ∧ (p → lo ≤ n) ∧ (q → n ≤ hi) := by
  obtain ⟨low, high⟩ := h
  refine ⟨⟨?_, ?_⟩, fun here => by rwa [if_pos here] at low,
    fun here => by rwa [if_pos here] at high⟩
  · split at low <;> omega
  · split at high <;> omega

theorem toNat_val_ofNat (h : n.isValidChar) : (Char.ofNat n).val.toNat = n := by
  unfold Char.ofNat
  rw [dif_pos h]
  rfl

theorem toNat_byte (h : n < 0x100) : (UInt8.ofNat n).toNat = n := UInt8.toNat_ofNat_of_lt' h

/-- **Every character** has a first byte that announces the others. -/
theorem exists_lead (c : Char) : ∃ b bs v ranges, String.utf8EncodeChar c = b :: bs ∧
    lead b.toNat = some (v, ranges) ∧ Within bs ranges ∧ complete v bs = c.toNat := by
  have valid : c.val.toNat.isValidChar := c.valid
  unfold Nat.isValidChar at valid
  have toNat : c.toNat = c.val.toNat := rfl
  unfold String.utf8EncodeChar
  rw [toNat]
  generalize c.val.toNat = n at valid
  dsimp only
  split
  · refine ⟨_, _, n, [], rfl, ?_, .nil, rfl⟩
    rw [toNat_byte (by omega), lead_one (by omega)]
  split
  · refine ⟨_, _, _, _, rfl,
      (congrArg lead (toNat_byte (by omega))).trans (lead_two (by omega) (by omega)), ?_, ?_⟩
    · refine .cons ?_ .nil
      rw [toNat_byte (by omega)]
      omega
    · simp only [complete, List.foldl_cons, List.foldl_nil]
      rw [toNat_byte (by omega)]
      omega
  split
  · refine ⟨_, _, _, _, rfl,
      (congrArg lead (toNat_byte (by omega))).trans (lead_three (by omega) (by omega)), ?_, ?_⟩
    · refine .cons ?_ (.cons ?_ .nil) <;> rw [toNat_byte (by omega)]
      · dsimp only
        split <;> split <;> omega
      · omega
    · simp only [complete, List.foldl_cons, List.foldl_nil]
      rw [toNat_byte (by omega), toNat_byte (by omega)]
      omega
  · refine ⟨_, _, _, _, rfl,
      (congrArg lead (toNat_byte (by omega))).trans (lead_four (by omega) (by omega)), ?_, ?_⟩
    · refine .cons ?_ (.cons ?_ (.cons ?_ .nil)) <;> rw [toNat_byte (by omega)]
      · dsimp only
        split <;> split <;> omega
      · omega
      · omega
    · simp only [complete, List.foldl_cons, List.foldl_nil]
      rw [toNat_byte (by omega), toNat_byte (by omega), toNat_byte (by omega)]
      omega

/-- **Bytes that complete a character** are its encoding. -/
theorem encode_complete (first : lead b.toNat = some (v, ranges)) (later : Within bs ranges) :
    String.utf8EncodeChar (Char.ofNat (complete v bs)) = b :: bs := by
  have lt : b.toNat < 0x100 := b.toNat_lt
  have back (n : Nat) (c : UInt8) (h : n = c.toNat) : UInt8.ofNat n = c := by
    rw [h, UInt8.ofNat_toNat]
  unfold String.utf8EncodeChar
  rcases Nat.lt_or_ge b.toNat 0x80 with one | many
  · rw [lead_one one] at first
    cases first
    rw [within_nil] at later
    subst later
    rw [show complete b.toNat [] = b.toNat from rfl, toNat_val_ofNat (.inl (by omega))]
    dsimp only
    rw [if_pos (by omega), UInt8.ofNat_toNat]
  rcases Nat.lt_or_ge b.toNat 0xC2 with none | many'
  · rw [lead_none (.inl ⟨many, none⟩)] at first
    cases first
  rcases Nat.lt_or_ge b.toNat 0xE0 with two | three
  · rw [lead_two many' two, Option.some.injEq, Prod.mk.injEq] at first
    obtain ⟨rfl, rfl⟩ := first
    obtain ⟨c, _, rfl, hc, rest⟩ := within_cons.mp later
    obtain rfl := within_nil.mp rest
    have value : complete (b.toNat - 0xC0) [c] = (b.toNat - 0xC0) * 64 + (c.toNat - 0x80) := rfl
    rw [value, toNat_val_ofNat (.inl (by omega))]
    dsimp only
    rw [if_neg (by omega), if_pos (by omega), back _ b (by omega), back _ c (by omega)]
  rcases Nat.lt_or_ge b.toNat 0xF0 with three' | four
  · rw [lead_three three three', Option.some.injEq, Prod.mk.injEq] at first
    obtain ⟨rfl, rfl⟩ := first
    obtain ⟨c, _, rfl, hc, rest⟩ := within_cons.mp later
    obtain ⟨d, _, rfl, hd, rest⟩ := within_cons.mp rest
    obtain rfl := within_nil.mp rest
    have value : complete (b.toNat - 0xE0) [c, d] =
        ((b.toNat - 0xE0) * 64 + (c.toNat - 0x80)) * 64 + (d.toNat - 0x80) := rfl
    obtain ⟨range, low, high⟩ := narrowed (by decide) (by decide) hc
    rw [value, toNat_val_ofNat (by unfold Nat.isValidChar; omega)]
    dsimp only
    rw [if_neg (by omega), if_neg (by omega), if_pos (by omega), back _ b (by omega),
      back _ c (by omega), back _ d (by omega)]
  rcases Nat.lt_or_ge b.toNat 0xF5 with four' | none
  · rw [lead_four four four', Option.some.injEq, Prod.mk.injEq] at first
    obtain ⟨rfl, rfl⟩ := first
    obtain ⟨c, _, rfl, hc, rest⟩ := within_cons.mp later
    obtain ⟨d, _, rfl, hd, rest⟩ := within_cons.mp rest
    obtain ⟨e, _, rfl, he, rest⟩ := within_cons.mp rest
    obtain rfl := within_nil.mp rest
    have value : complete (b.toNat - 0xF0) [c, d, e] =
        (((b.toNat - 0xF0) * 64 + (c.toNat - 0x80)) * 64 + (d.toNat - 0x80)) * 64 +
          (e.toNat - 0x80) := rfl
    obtain ⟨range, low, high⟩ := narrowed (by decide) (by decide) hc
    rw [value, toNat_val_ofNat (by unfold Nat.isValidChar; omega)]
    dsimp only
    rw [if_neg (by omega), if_neg (by omega), if_neg (by omega), back _ b (by omega),
      back _ c (by omega), back _ d (by omega), back _ e (by omega)]
  · rw [lead_none (.inr none)] at first
    cases first

/-! ### Scanning -/

/-- What is scanned when some later bytes are still to come. -/
def scanLater (v : Nat) : List (Nat × Nat) → Bytes → List (Option Char)
  | [], rest => some (Char.ofNat v) :: scan rest
  | r :: ranges, rest => scanFrom (some (v, r :: ranges)) rest

theorem scan_cons (b : UInt8) (rest : Bytes) :
    scan (b :: rest) = match lead b.toNat with
      | none => none :: scan rest
      | some (v, ranges) => scanLater v ranges rest := by
  unfold scan
  rw [scanFrom]
  rcases lead b.toNat with - | ⟨v, - | ⟨r, ranges⟩⟩ <;> rfl

theorem scanLater_cons {lo hi : Nat} (rest : Bytes) :
    scanLater v ((lo, hi) :: ranges) (b :: rest) =
      if lo ≤ b.toNat ∧ b.toNat ≤ hi then scanLater (v * 64 + (b.toNat - 0x80)) ranges rest
      else none :: scan (b :: rest) := by
  rw [scanLater, scanFrom]
  dsimp only
  split
  · cases ranges <;> rfl
  · rw [scan_cons]
    rcases lead b.toNat with - | ⟨v, - | ⟨r, ranges⟩⟩ <;> rfl

/-- Bytes in the ranges are taken. -/
theorem scanLater_within (later : Within bs ranges) (rest : Bytes) :
    scanLater v ranges (bs ++ rest) = some (Char.ofNat (complete v bs)) :: scan rest := by
  induction ranges generalizing v bs with
  | nil =>
    rw [within_nil] at later
    subst later
    rfl
  | cons r ranges ih =>
    obtain ⟨b, bs, rfl, here, later⟩ := within_cons.mp later
    rw [List.cons_append, scanLater_cons, if_pos here, ih later, complete, complete,
      List.foldl_cons]

/-- Bytes are in the ranges that were announced, or there is a fault. -/
theorem scanLater_cases (v : Nat) (ranges : List (Nat × Nat)) (rest : Bytes) :
    (∃ bs more, rest = bs ++ more ∧ Within bs ranges) ∨ none ∈ scanLater v ranges rest := by
  induction ranges generalizing v rest with
  | nil => exact .inl ⟨[], rest, rfl, .nil⟩
  | cons r ranges ih =>
    cases rest with
    | nil => exact .inr List.mem_cons_self
    | cons b rest =>
      rw [scanLater_cons]
      split
      · rename_i here
        refine (ih _ rest).imp_left ?_
        rintro ⟨bs, more, rfl, later⟩
        exact ⟨b :: bs, more, rfl, .cons here later⟩
      · exact .inr List.mem_cons_self

theorem scan_encodeChar (c : Char) (rest : Bytes) :
    scan (String.utf8EncodeChar c ++ rest) = some c :: scan rest := by
  obtain ⟨b, bs, v, ranges, encoded, first, later, value⟩ := exists_lead c
  rw [encoded, List.cons_append, scan_cons, first]
  dsimp only
  rw [scanLater_within later, value, Char.ofNat_toNat]

/-- **The encoding of a text** is scanned to the text. -/
theorem scan_encode (s : String) : scan (Text.encode s) = s.toList.map some := by
  unfold Text.encode
  induction s.toList with
  | nil => rfl
  | cons c cs ih => rw [List.flatMap_cons, scan_encodeChar, ih, List.map_cons]

/-- Bytes without a fault are an encoding. -/
theorem eq_flatMap_of_scan (bs : Bytes) (cs : List Char) (h : scan bs = cs.map some) :
    bs = cs.flatMap String.utf8EncodeChar := by
  have faultless : none ∉ scan bs := by simp [h]
  match bs with
  | [] =>
    cases cs with
    | nil => rfl
    | cons c cs => cases h
  | b :: rest =>
    rw [scan_cons] at h faultless
    cases first : lead b.toNat with
    | none =>
      rw [first] at faultless
      exact absurd List.mem_cons_self faultless
    | some announced =>
      obtain ⟨v, ranges⟩ := announced
      rw [first] at h faultless
      dsimp only at h faultless
      obtain ⟨taken, more, rfl, later⟩ := (scanLater_cases v ranges rest).resolve_right faultless
      rw [scanLater_within later] at h
      cases cs with
      | nil => cases h
      | cons c cs =>
        rw [List.map_cons, List.cons.injEq, Option.some.injEq] at h
        obtain ⟨rfl, h⟩ := h
        rw [List.flatMap_cons, encode_complete first later, ← eq_flatMap_of_scan more cs h]
        rfl
termination_by bs.length

theorem mapM_id_eq_some_iff {l : List (Option Char)} : l.mapM id = some cs ↔ l = cs.map some := by
  induction l generalizing cs with
  | nil => cases cs <;> simp
  | cons o l ih =>
    rw [List.mapM_cons]
    cases o with
    | none => cases cs <;> simp
    | some c =>
      show (l.mapM id).bind (fun cs => some (c :: cs)) = some cs ↔ _
      rw [Option.bind_eq_some_iff]
      cases cs with
      | nil => simp
      | cons d cs => simp [ih, and_comm]

/-- **Decoding** accepts the encodings of texts and nothing else. -/
theorem decode?_eq_some_iff {s : String} : decode? bs = some s ↔ bs = Text.encode s := by
  unfold decode?
  rw [Option.map_eq_some_iff]
  constructor
  · rintro ⟨cs, scanned, rfl⟩
    unfold Text.encode
    rw [String.toList_ofList]
    exact eq_flatMap_of_scan bs cs (mapM_id_eq_some_iff.mp scanned)
  · rintro rfl
    exact ⟨s.toList, mapM_id_eq_some_iff.mpr (scan_encode s), String.ofList_toList⟩

/-- A text shows as it is. -/
theorem lossy_encode (s : String) : lossy (Text.encode s) = s := by
  unfold lossy
  rw [scan_encode, List.map_map]
  exact (congrArg String.ofList (List.map_id _)).trans String.ofList_toList

end

end ScriptCore.Utf8
