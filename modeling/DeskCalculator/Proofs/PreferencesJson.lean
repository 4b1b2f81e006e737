import DeskCalculator.Json.Preferences
import DeskCalculator.Proofs.JsonText
import Mathlib

/-!
# Preferences are read back

The written form of preferences is read as the same preferences, held to what may be imported. What
has been imported is within these bounds already, so it is read back unchanged; and a change made to
it only touches what the change names.
-/

set_option autoImplicit false

namespace DeskCalculator

open DeskCalculator.Json DeskCalculator.JsonValue

theorem JsonValue.naturalBelow?_toDigits {n limit : ℕ} (h : n < limit) :
    (number (Nat.toDigits 10 n)).naturalBelow? limit = some n := by
  have hdigits : (Nat.toDigits 10 n).all Char.isDigit = true := List.all_eq_true.mpr fun c hc =>
    Nat.isDigit_of_mem_toDigits (by decide) (by decide) hc
  rw [naturalBelow?, if_pos hdigits, Nat.ofDigitChars_ten_toDigits]
  exact if_pos h

theorem AngleUnit.ofName?_name (unit : AngleUnit) : ofName? unit.name = some unit := by
  cases unit <;> rfl

theorem Mode.ofName?_name (mode : Mode) : ofName? mode.name = some mode := by
  cases mode <;> rfl

namespace Preferences

def members (p : Preferences) : List Member := [
  ⟨angleUnitKey, quote p.angleUnit.name, .string (some p.angleUnit.name), readsAs_quote _⟩,
  ⟨precisionKey, writeNatural p.precision.toNat, .number (Nat.toDigits 10 p.precision.toNat),
    readsAs_natural _⟩,
  ⟨modeKey, quote p.mode.name, .string (some p.mode.name), readsAs_quote _⟩,
  ⟨maxHistoryKey, writeNatural p.maxHistory.toNat, .number (Nat.toDigits 10 p.maxHistory.toNat),
    readsAs_natural _⟩]

theorem ofJson?_members (p : Preferences) :
    Fields.ofJson? 0 (.object (p.members.map Member.read)) = some {
      angleUnit := some (.string (some p.angleUnit.name))
      precision := some (.number (Nat.toDigits 10 p.precision.toNat))
      mode := some (.string (some p.mode.name))
      maxHistory := some (.number (Nat.toDigits 10 p.maxHistory.toNat)) } := rfl

theorem readJson?_writeJson (p : Preferences) : readJson? p.writeJson = some p.imported := by
  have hunit : angleUnitOf? (.string (some p.angleUnit.name)) = some p.angleUnit :=
    p.angleUnit.ofName?_name
  have hmode : modeOf? (.string (some p.mode.name)) = some p.mode := p.mode.ofName?_name
  have hprecision : precisionOf? (.number (Nat.toDigits 10 p.precision.toNat)) =
      some p.precision := by
    rw [precisionOf?, naturalBelow?_toDigits (UInt32.toNat_lt_size _)]
    exact congrArg some UInt32.ofNat_toNat
  have hhistory : maxHistoryOf? (.number (Nat.toDigits 10 p.maxHistory.toNat)) =
      some p.maxHistory := by
    rw [maxHistoryOf?, naturalBelow?_toDigits (UInt64.toNat_lt_size _)]
    exact congrArg some UInt64.ofNat_toNat
  have hread : JsonValue.read? p.writeJson = some (.object (p.members.map Member.read)) :=
    read_object p.members
  rw [readJson?, hread]
  simp only [Option.bind_eq_bind, Option.bind_some, ofJson?_members, given?, hunit, hprecision,
    hmode, hhistory, Option.map_some]
  rfl

/-! ### Bounds -/

theorem toNat_precision_imported (p : Preferences) :
    p.imported.precision.toNat = max (min p.precision.toNat 100) 28 := by
  show (max (min p.precision maxImportedPrecision) minPrecision).toNat = _
  rw [UInt32.toNat_max, UInt32.toNat_min]
  rfl

theorem toNat_maxHistory_imported (p : Preferences) :
    p.imported.maxHistory.toNat = max 1 (min p.maxHistory.toNat 500) := by
  show (max 1 (min p.maxHistory maxHistoryLimit)).toNat = _
  rw [UInt64.toNat_max, UInt64.toNat_min]
  rfl

/-- Preferences within the bounds of an import. -/
structure Importable (q : Preferences) : Prop where
  precision_ge : 28 ≤ q.precision.toNat
  precision_le : q.precision.toNat ≤ 100
  history_ge : 1 ≤ q.maxHistory.toNat
  history_le : q.maxHistory.toNat ≤ 500

theorem importable_imported (p : Preferences) : p.imported.Importable := by
  have hprecision := toNat_precision_imported p
  have hhistory := toNat_maxHistory_imported p
  constructor <;> omega

theorem importable_of_readJson? {t : Text} {q : Preferences} (h : readJson? t = some q) :
    q.Importable := by
  simp only [readJson?, Option.bind_eq_bind, Option.bind_eq_some_iff] at h
  obtain ⟨_, -, _, -, _, -, _, -, _, -, _, -, h⟩ := h
  obtain rfl := Option.some.inj h
  exact importable_imported _

section

variable {q : Preferences} (h : q.Importable)

include h

theorem Importable.imported_eq : q.imported = q := by
  obtain ⟨hfloor, hcap, hleast, hlimit⟩ := h
  have hprecision : q.imported.precision = q.precision := by
    rw [← UInt32.toNat_inj, toNat_precision_imported]
    omega
  have hhistory : q.imported.maxHistory = q.maxHistory := by
    rw [← UInt64.toNat_inj, toNat_maxHistory_imported]
    omega
  show { q with precision := q.imported.precision, maxHistory := q.imported.maxHistory } = q
  rw [hprecision, hhistory]

theorem Importable.normalized_eq : q.normalized = q := by
  have hcap : min q.precision maxImportedPrecision = q.precision := by
    rw [← UInt32.toNat_inj, UInt32.toNat_min]
    exact min_eq_left h.precision_le
  have himported := h.imported_eq
  rwa [imported, hcap] at himported

theorem Importable.apply_eq (u : Update) : q.apply u = {
    angleUnit := u.angleUnit.getD q.angleUnit
    precision := (u.precision.map (max · minPrecision)).getD q.precision
    mode := u.mode.getD q.mode
    maxHistory :=
      (u.maxHistory.map fun n => max 1 (min n maxHistoryLimit)).getD q.maxHistory } := by
  have hprecision : max q.precision minPrecision = q.precision :=
    congrArg Preferences.precision h.normalized_eq
  have hhistory : max 1 (min q.maxHistory maxHistoryLimit) = q.maxHistory :=
    congrArg Preferences.maxHistory h.normalized_eq
  obtain ⟨unit, precision, mode, history⟩ := u
  cases precision <;> cases history <;>
    simp only [apply, normalized, override, Option.getD_some, Option.getD_none, Option.map_some,
      Option.map_none, hprecision, hhistory]

end

/-- Written preferences are read back as they are, up to the bounds of an import. Preferences that
were read are written and read back unchanged, and a change made to them only touches what it
names. -/
theorem readJson_writeJson :
    (∀ p : Preferences, ∃ q, readJson? p.writeJson = some q ∧ q.angleUnit = p.angleUnit ∧
      q.mode = p.mode ∧ q.precision.toNat = max (min p.precision.toNat 100) 28 ∧
      q.maxHistory.toNat = max 1 (min p.maxHistory.toNat 500)) ∧
    ∀ (t : Text) (q : Preferences), readJson? t = some q → readJson? q.writeJson = some q ∧
      ∀ u : Update, q.apply u = {
        angleUnit := u.angleUnit.getD q.angleUnit
        precision := (u.precision.map (max · minPrecision)).getD q.precision
        mode := u.mode.getD q.mode
        maxHistory := (u.maxHistory.map fun n => max 1 (min n maxHistoryLimit)).getD
          q.maxHistory } := by
  constructor
  · intro p
    exact ⟨p.imported, readJson?_writeJson p, rfl, rfl, toNat_precision_imported p,
      toNat_maxHistory_imported p⟩
  · intro t q h
    have hbounds := importable_of_readJson? h
    exact ⟨by rw [readJson?_writeJson, hbounds.imported_eq], hbounds.apply_eq⟩

theorem readJson_writeJson_capped :
    readJson? ({ precision := 150 } : Preferences).writeJson = some { precision := 100 } ∧
    readJson? ({ precision := 100 } : Preferences).writeJson = some { precision := 100 } ∧
    ({ precision := 100 } : Preferences).apply { precision := some 4000, maxHistory := some 0 } =
      { precision := 4000, maxHistory := 1 } := by
  have hread : readJson? ({ precision := 150 } : Preferences).writeJson =
      some { precision := 100 } := readJson?_writeJson _
  obtain ⟨hagain, happly⟩ := readJson_writeJson.2 _ _ hread
  exact ⟨hread, hagain, happly _⟩

end Preferences

end DeskCalculator
