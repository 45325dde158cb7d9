import HashBox.Api.SecurityEvents
import HashBox.Lib.Utf8

/-!
# When a normalised security event can be stored

`truncateSecurityString` keeps a text valid exactly where it keeps all of it or whole characters
(`CutsWhole`), and a cut text has at most as many characters as bytes, so `field_storable` decides a
column by the text that was cut. `normalized_storable` puts the columns together.
-/

namespace HashBox.Api

open Vault (trimSpace)

/-! ## Valid prefixes -/

/-- `max` bytes are whole leading characters of the text, or all of it. -/
def CutsWhole (max : Nat) (value : String) : Prop :=
  value.utf8ByteSize ≤ max ∨ ∃ s t : String, value = s ++ t ∧ s.utf8ByteSize = max

/-- **A cut is again valid UTF-8 exactly where it leaves whole characters.** -/
theorem truncate_valid (value : String) (max : Nat) :
    (∃ s : String, truncateSecurityString value.toUTF8 max = s.toUTF8) ↔ CutsWhole max value := by
  unfold truncateSecurityString CutsWhole
  rw [show value.toUTF8.size = value.utf8ByteSize from rfl]
  by_cases h : value.utf8ByteSize ≤ max
  · rw [if_pos h]
    exact ⟨fun _ => .inl h, fun _ => ⟨value, rfl⟩⟩
  · rw [if_neg h]
    simp only [Utf8.extract_eq_toUTF8 (Nat.le_of_not_le h), h, false_or]

instance (max : Nat) (value : String) : Decidable (CutsWhole max value) :=
  decidable_of_iff (value.utf8ByteSize ≤ max ∨ (⟨max⟩ : String.Pos.Raw).IsValid value) <| by
    simp only [CutsWhole, String.Pos.Raw.isValid_iff_exists_append, String.Pos.Raw.ext_iff,
      String.byteIdx_rawEndPos, eq_comm (a := max)]

theorem size_truncate_le (value : ByteArray) (max : Nat) :
    (truncateSecurityString value max).size ≤ max := by
  unfold truncateSecurityString
  split
  · assumption
  · rw [ByteArray.size_extract]
    omega

/-! ## The columns -/

def ColumnType.Takes (column : ColumnType) (max : Nat) : Prop :=
  ∀ s : String, s.utf8ByteSize ≤ max → column.fits s

theorem varchar_takes (n : Nat) : (ColumnType.varchar n).Takes n :=
  fun s h => (Utf8.length_le_utf8ByteSize s).trans h

/-- **One column**: its text can be stored exactly where it was not cut inside a character. -/
theorem field_storable {column : ColumnType} {max : Nat} (hc : column.Takes max) (value : String) :
    (∃ s : String, truncateSecurityString value.toUTF8 max = s.toUTF8 ∧ column.fits s) ↔
      CutsWhole max value := by
  rw [← truncate_valid]
  constructor
  · rintro ⟨s, hs, -⟩
    exact ⟨s, hs⟩
  · rintro ⟨s, hs⟩
    have hsize := size_truncate_le value.toUTF8 max
    rw [hs] at hsize
    exact ⟨s, hs, hc s hsize⟩

theorem field_storable_or {column : ColumnType} {max : Nat} (hc : column.Takes max)
    {fallback : String} (hf : column.fits fallback) (value : String) :
    (∃ s : String, orText (truncateSecurityString value.toUTF8 max) fallback = s.toUTF8 ∧
      column.fits s) ↔ CutsWhole max value := by
  rw [← field_storable hc]
  unfold orText
  split
  · next h =>
    have hempty : truncateSecurityString value.toUTF8 max = "".toUTF8 :=
      ByteArray.size_eq_zero_iff.1 h
    exact ⟨fun _ => ⟨"", hempty, hc "" (Nat.zero_le _)⟩, fun _ => ⟨fallback, rfl, hf⟩⟩
  · exact Iff.rfl

theorem uuid_storable (value : String) :
    ∃ s : String, (validOptionalUUID value).toUTF8 = s.toUTF8 ∧ ColumnType.uuid.fits s := by
  refine ⟨_, rfl, ?_⟩
  unfold validOptionalUUID
  dsimp only
  split
  · exact .inl rfl
  · next h => exact .inr (of_not_not fun hu => h (.inr hu))

/-- The texts that `normalizeSecurityEvent` cuts, each with its limit in bytes. -/
def cutTexts {α : Type _} (toUpper : String → String) (input : SecurityEventInput String α) :
    List (Nat × String) :=
  [(60, trimSpace input.eventType), (30, trimSpace input.source), (20, trimSpace input.severity),
    (20, trimSpace input.outcome), (64, trimSpace input.clientIP),
    (10, toUpper (trimSpace input.method)), (255, trimSpace input.path),
    (100, trimSpace input.errorCode), (30, trimSpace input.phase), (100, trimSpace input.step),
    (255, trimSpace input.title), (4000, trimSpace input.detail)]

/-- **A normalised event can be stored exactly where no cut falls inside a character.** -/
theorem normalized_storable {α : Type _} (toUpper : String → String)
    (marshal : Dict String (AnyValue α) → Option ByteArray) (now : Time)
    (input : SecurityEventInput String α) :
    (normalizeSecurityEvent toUpper marshal now input).Storable ↔
      ∀ c ∈ cutTexts toUpper input, CutsWhole c.1 c.2 := by
  have hinet : ColumnType.inet.Takes 64 := fun _ _ => trivial
  have htext : ColumnType.text.Takes 4000 := fun _ _ => trivial
  have hdefault : ∀ {n : Nat} {fallback : String}, fallback.length ≤ n →
      (ColumnType.varchar n).fits fallback := id
  simp only [SecurityEventInput.Storable, securityEventColumns, cutTexts, List.forall_mem_cons,
    List.not_mem_nil, false_imp_iff, implies_true, and_true, normalizeSecurityEvent,
    uuid_storable, true_and, field_storable (varchar_takes _), field_storable hinet,
    field_storable htext]
  rw [field_storable_or (varchar_takes 60) (hdefault (by decide)),
    field_storable_or (varchar_takes 30) (hdefault (by decide)),
    field_storable_or (varchar_takes 20) (hdefault (by decide)),
    field_storable_or (varchar_takes 20) (hdefault (by decide))]

/-- A forbidden request; the last letter of its path is two bytes, from 254 to 256. -/
def samplePath : SecurityEventInput String Unit where
  runID := ""
  eventType := "FORBIDDEN_REQUEST"
  source := "api"
  severity := "high"
  outcome := "blocked"
  userID := ""
  clientIP := "10.0.0.1"
  method := "GET"
  path := String.ofList ('/' :: List.replicate 253 'a' ++ ['é'])
  statusCode := 403
  errorCode := ""
  phase := ""
  step := ""
  title := ""
  detail := ""
  details := none
  occurredAt := none

theorem normalized_storable_fails :
    ¬ ∀ input : SecurityEventInput String Unit,
      (normalizeSecurityEvent String.toUpper (fun _ => none) 0 input).Storable := by
  intro h
  have hmem : (.varchar 255, SecurityEventInput.path) ∈ securityEventColumns ByteArray Unit :=
    List.mem_of_getElem? (i := 8) rfl
  obtain ⟨s, hs, -⟩ := h samplePath _ hmem
  have htrim : trimSpace samplePath.path = samplePath.path := by
    rw [samplePath, trimSpace, String.toList_ofList]
    exact congrArg String.ofList (by decide +kernel)
  have hcut : ¬ CutsWhole 255 (trimSpace samplePath.path) := by
    rw [htrim]
    decide +kernel
  refine hcut ((truncate_valid (trimSpace samplePath.path) 255).1 ⟨s, ?_⟩)
  rw [← hs, normalizeSecurityEvent]

end HashBox.Api
