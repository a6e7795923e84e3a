import ScriptCore.Proofs.Heap.Stands
import ScriptCore.Proofs.Heap.TextReads
import ScriptCore.Proofs.Number.Integers

/-!
# Heap — an integer handed on as text

A cell is set to an integer, its bytes are read, and a new cell is given them.  The new cell holds
text alone, so reading it as an integer converts, and what it gives is the integer of the first
cell: the text is numeric, and nothing is reported on the way.

* `setInt_quiet`, `setBytes_quiet`: what a write leaves of the cell and of the reports.
* `handOn_eq`: the way of an integer.
* `integers_survive_text`: the same in any run, beside what text of integers is read as.
-/

namespace ScriptCore

open Computability

namespace Heap

section
variable {h : Heap} {i : CellId} {c : Cell} {out : List CellId}

/-! ### Writes and reports -/

/-- A write that no hook watches reports nothing. -/
theorem write_unreported (need : Room) (fill : Cell → Cell) (o : h.Owned out) (hi : i ∈ out)
    (hc : h.cell? i = some c) (q : c.Quiet) (writable : c.flags.readOnly = false)
    (owners : ∀ d, (fill d).owners = d.owners) (payload : ∀ d, (fill d).payload = d.payload)
    (target : ∀ d, (fill d).target = d.target) (shape : ∀ d, (fill d).shape = d.shape)
    (hooks : ∀ d, (fill d).hooks = d.hooks) :
    ∃ t n h', (assign i need none fill >>= fun _ => runHooks .set i) h = .ok () h' ∧
      h'.cell? i = some { fill { c with shape := t }.clearValue with owners := n } ∧
        (fill { c with shape := t }.clearValue).Quiet ∧ h'.Owned out ∧ h'.reports = h.reports := by
  obtain ⟨t, h', scalar, stored, filled⟩ := assign_quiet need none fill o hi hc q writable (by simp)
    owners payload fun d bare => by rw [target, bare]; rfl
  obtain ⟨_, -, left⟩ := (ends_assign_stored i need none fill h).result stored
  have quiet : (fill { c with shape := t }.clearValue).Quiet :=
    ⟨by rw [shape]; exact scalar, by rw [hooks]; exact q.unhooked⟩
  obtain ⟨n, hn⟩ := filled.filled
  refine ⟨t, n, h', ?_, hn, quiet, filled.owned, left.beside.reports⟩
  rw [bind_ok stored, runHooks_eq hn ⟨quiet.scalar, quiet.unhooked⟩]

/-- **Setting an integer.** -/
theorem setInt_quiet (o : h.Owned out) (hi : i ∈ out) (hc : h.cell? i = some c) (q : c.Quiet)
    (writable : c.flags.readOnly = false) (v : Int64) :
    ∃ d h', setInt i v h = .ok () h' ∧ h'.cell? i = some d ∧ d.Quiet ∧
      (∀ alive, d.source alive = .int v) ∧ d.flags.textOk = false ∧ h'.Owned out ∧
        h'.reports = h.reports := by
  obtain ⟨t, n, h', write, hn, quiet, owned, reports⟩ := write_unreported { int := true }
    (·.keepInt v true) o hi hc q writable (fun _ => rfl) (fun _ => rfl) (fun _ => rfl)
    (fun _ => rfl) fun _ => rfl
  refine ⟨_, h', write, hn, ⟨quiet.scalar, quiet.unhooked⟩, fun alive => ?_, rfl, owned, reports⟩
  simp [Cell.source, Cell.keepInt]

/-- **Storing bytes.** -/
theorem setBytes_quiet (o : h.Owned out) (hi : i ∈ out) (hc : h.cell? i = some c) (q : c.Quiet)
    (writable : c.flags.readOnly = false) (b : Bytes) :
    ∃ d h', setBytes i b h = .ok () h' ∧ h'.cell? i = some d ∧ d.Quiet ∧ d.Spells b ∧
      h'.Owned out ∧ h'.reports = h.reports := by
  obtain ⟨t, n, h', write, hn, quiet, owned, reports⟩ := write_unreported { text := true }
    (fun c => { c with text := b, flags := { c.flags with textOk := true } })
    o hi hc q writable (fun _ => rfl) (fun _ => rfl) (fun _ => rfl) (fun _ => rfl) fun _ => rfl
  exact ⟨_, h', write, hn, ⟨quiet.scalar, quiet.unhooked⟩, ⟨rfl, rfl, rfl, nofun, nofun⟩, owned,
    reports⟩

/-! ### Reads and reports -/

theorem getBytes_int (hc : h.cell? i = some c) (q : c.Quiet) {v : Int64}
    (source : ∀ alive, c.source alive = .int v) (untexted : c.flags.textOk = false) (sink : Sink) :
    getBytes i sink h = .ok (Text.encode (toString v))
      (h.setCell i (c.written (Text.encode (toString v)))) := by
  rw [getBytes, bind_ok (runHooks_eq hc q .get), readBytes_eq hc q.scalar, Cell.bytesRead,
    Cell.afterBytes, untexted, source]
  simp only [Bool.false_eq_true, if_false, Cell.Source.asBytes, Cell.Source.textAdvice, passes_nil,
    reporting_nil, Numeral.ofList_intText]

theorem getInt_numeric (hc : h.cell? i = some c) (q : c.Quiet) {b : Bytes} (s : c.Spells b)
    (numeric : looksLikeNumber b = true) (sink : Sink) :
    ∃ h', getInt i sink h = .ok (parseNumber b).1.asInt h' ∧ h'.reports = h.reports := by
  refine ⟨h.setCell i (c.afterInt h.isAlive), ?_, (sameBeside_setCell h i _).reports⟩
  rw [getInt, bind_ok (runHooks_eq hc q .get), readInt_eq hc q.scalar, s.asInt, s.numberAdvice,
    doubts, if_pos numeric, passes_nil, reporting_nil]

/-! ### Handing on -/

/-- Sets a cell to an integer, and hands its bytes on to a new cell, which is read. -/
def handOn (i : CellId) (v : Int64) (sink : Sink) : OnHeap Int64 := do
  setInt i v
  let b ← getBytes i sink
  let j ← new {}
  setBytes j b
  getInt j sink

theorem Owned.setCell {d : Cell} (o : h.Owned out) (hc : h.cell? i = some c)
    (owners : d.owners = c.owners) (owned : d.owned = c.owned) : (h.setCell i d).Owned out := by
  have none : ∀ j ∈ ([] : List CellId), ∃ c, h.cell? j = some c := by simp
  have same (j : CellId) :
      d.owned.count j + [].count j ≤ c.owned.count j + [].count j := by rw [owned]
  exact o.exchange hc owners none same

/-- **The way of an integer.** -/
theorem handOn_eq (o : h.Owned out) (hi : i ∈ out) (hc : h.cell? i = some c) (q : c.Quiet)
    (writable : c.flags.readOnly = false) (v : Int64) (sink : Sink) :
    ∃ h', handOn i v sink h = .ok v h' ∧ h'.reports = h.reports := by
  obtain ⟨d, h₁, set, hd, quiet, source, untexted, owned, same₁⟩ :=
    setInt_quiet o hi hc q writable v
  have read := getBytes_int hd quiet source untexted sink
  generalize hb : Text.encode (toString v) = b at read
  have value : parseNumber b = (.int v, true) := by
    rw [← hb, ← Numeral.ofList_intText, Numeral.parseNumber_intText]
  have numeric : looksLikeNumber b = true := by rw [← snd_parseNumber, value]
  -- The cell is still owned as it was, now that it holds its text as well.
  have owned₂ : (h₁.setCell i (d.written b)).Owned out := Owned.setCell owned hd rfl rfl
  generalize hh₂ : h₁.setCell i (d.written b) = h₂ at read owned₂
  have same₂ : h₂.reports = h₁.reports := hh₂ ▸ (sameBeside_setCell h₁ i _).reports
  have fresh : (h₂.allocate {}).2.cell? h₂.cells.size = some {} := by
    rw [cell?_allocate, if_pos rfl]
  obtain ⟨e, h₃, store, he, quiet', spells, -, same₃⟩ :=
    setBytes_quiet (owned₂.allocate rfl) List.mem_cons_self fresh ⟨rfl, rfl⟩ rfl b
  obtain ⟨h₄, last, same₄⟩ := getInt_numeric he quiet' spells numeric sink
  refine ⟨h₄, ?_, same₄.trans (same₃.trans (same₂.trans same₁))⟩
  have made : new {} h₂ = .ok h₂.cells.size (h₂.allocate {}).2 := rfl
  rw [handOn, bind_ok set, bind_ok read, bind_ok made, bind_ok store, last, value]
  rfl

end

/-- **Integers survive text.**  The decimal text of an integer is read back as that integer and is
all numeric, so that a cell which is set to it and whose bytes a new cell is given, at any time of
any run, gives that cell the integer, with nothing reported.  Any digits with a sign or none in
front and white space around them are all numeric: they are the integer that they stand for where
64 bits hold it, and else the float nearest to it. -/
theorem integers_survive_text :
    (∀ v : Int64, parseNumber (Text.encode (toString v)) = (.int v, true)) ∧
    (∀ (seeds : Array Seed) (supply : Supply) (ops : List Op) (i : CellId) (c : Cell),
      i ∈ ((Host.start seeds supply).run ops).held →
        ((Host.start seeds supply).run ops).heap.cell? i = some c → c.Quiet →
          c.flags.readOnly = false → ∀ (v : Int64) (sink : Sink),
            ∃ h', handOn i v sink ((Host.start seeds supply).run ops).heap = .ok v h' ∧
              h'.reports = ((Host.start seeds supply).run ops).heap.reports) ∧
    ∀ sp ∈ Grammar.space∗, ∀ sg ∈ Grammar.sign, ∀ ds ∈ Grammar.digit * Grammar.digit∗,
      ∀ sp' ∈ Grammar.space∗,
        (-2 ^ 63 ≤ Numeral.standsFor sg ds ∧ Numeral.standsFor sg ds ≤ 2 ^ 63 - 1 →
          ∃ v : Int64, v.toInt = Numeral.standsFor sg ds ∧
            parseNumber (sp ++ sg ++ ds ++ sp') = (.int v, true)) ∧
        (¬(-2 ^ 63 ≤ Numeral.standsFor sg ds ∧ Numeral.standsFor sg ds ≤ 2 ^ 63 - 1) →
          parseNumber (sp ++ sg ++ ds ++ sp') =
            (.float (.ofRatio (Numeral.standsFor sg ds < 0) (Numeral.standsFor sg ds).natAbs 1),
              true)) := by
  refine ⟨fun v => ?_, fun seeds supply ops i c hi hc q writable v sink => ?_,
    fun sp before sg signed ds some sp' behind =>
      Numeral.parseNumber_standsFor before signed some behind⟩
  · rw [← Numeral.ofList_intText, Numeral.parseNumber_intText]
  · exact handOn_eq ((kept_start seeds supply).run ops).sound.owned hi hc q writable v sink

/-- The least integer, by way of a cell and in writing, and the one below it. -/
theorem integers_survive_text_least :
    let h := ((Host.start #[] {}).run [.make .undef]).heap
    (∃ h', handOn 0 (-0x8000000000000000) (.site none) h = .ok (-0x8000000000000000) h' ∧
      h'.reports = h.reports) ∧
    (∃ v : Int64, v.toInt = -2 ^ 63 ∧
      parseNumber (Text.encode " -09223372036854775808\n") = (.int v, true)) ∧
    parseNumber (Text.encode " -09223372036854775809\n") =
      (.float (.ofRatio true (2 ^ 63 + 1) 1), true) := by
  intro h
  obtain ⟨-, handed, written⟩ := integers_survive_text
  -- read by `List.all`, so that no bytes but those of the text are tried
  have every {p : UInt8 → Bool} {t : List UInt8} (h : t.all p = true) : ∀ b ∈ t, p b = true :=
    List.all_eq_true.mp h
  have before : Text.encode " " ∈ Grammar.space∗ :=
    Numeral.mem_star_one.mpr (every (by decide))
  have behind : Text.encode "\n" ∈ Grammar.space∗ :=
    Numeral.mem_star_one.mpr (every (by decide))
  have digits : Text.encode "09223372036854775808" ∈ Grammar.digit * Grammar.digit∗ :=
    Numeral.mem_one_mul_star.mpr ⟨by decide, every (by decide)⟩
  have digits' : Text.encode "09223372036854775809" ∈ Grammar.digit * Grammar.digit∗ :=
    Numeral.mem_one_mul_star.mpr ⟨by decide, every (by decide)⟩
  have minus : Text.encode "-" ∈ Grammar.sign := .inr rfl
  have least : Numeral.standsFor (Text.encode "-") (Text.encode "09223372036854775808") =
      -2 ^ 63 := by decide +kernel
  have below : Numeral.standsFor (Text.encode "-") (Text.encode "09223372036854775809") =
      -2 ^ 63 - 1 := by decide +kernel
  obtain ⟨fits, -⟩ := written _ before _ minus _ digits _ behind
  obtain ⟨-, exceeds⟩ := written _ before _ minus _ digits' _ behind
  rw [least] at fits
  rw [below] at exceeds
  exact ⟨handed #[] {} [.make .undef] 0 {} (by decide +kernel) (by with_unfolding_all rfl)
    ⟨rfl, rfl⟩ rfl _ _, fits (by decide), exceeds (by decide)⟩

end Heap

end ScriptCore
