import Mathlib.Data.List.Basic

/-!
# Percent-encoding (`net/url`)

`escape keep` writes each byte that `keep` does not keep as `%XX`, `unescape` reads such a text back
and fails where a `%` is not followed by two hexadecimal digits. A text that keeps no `%` is read
back (`unescape_escape`), so escaping loses nothing; what it writes is what it keeps, `%` and digits
(`mem_escape`), so a byte that is not kept and is none of these cannot occur in it.
-/

namespace Percent

def percent : UInt8 := 37

/-- `upperhex[n]`. -/
def upperHex (n : UInt8) : UInt8 := if n < 10 then 48 + n else 55 + n

/-- `ishex` and `unhex`. -/
def unhex (b : UInt8) : Option UInt8 :=
  if 48 ≤ b ∧ b ≤ 57 then some (b - 48)
  else if 97 ≤ b ∧ b ≤ 102 then some (b - 87)
  else if 65 ≤ b ∧ b ≤ 70 then some (b - 55)
  else none

section
variable (keep : UInt8 → Bool)

def escapeByte (b : UInt8) : List UInt8 :=
  if keep b then [b] else [percent, upperHex (b >>> 4), upperHex (b &&& 15)]

def escape (s : List UInt8) : List UInt8 := s.flatMap (escapeByte keep)

end

/-- None where `net/url` returns an `EscapeError`. -/
def unescape : List UInt8 → Option (List UInt8)
  | [] => some []
  | b :: s =>
    if b = percent then
      match s with
      | p :: q :: rest =>
        match unhex p, unhex q, unescape rest with
        | some hi, some lo, some t => some ((hi <<< 4 ||| lo) :: t)
        | _, _, _ => none
      | _ => none
    else (unescape s).map (b :: ·)

/-! ## What is escaped is read back -/

theorem forall_byte {P : UInt8 → Prop} (h : ∀ n < 256, P (UInt8.ofNat n)) (b : UInt8) : P b := by
  have hb := h b.toNat b.toNat_lt
  rwa [UInt8.ofNat_toNat] at hb

theorem unhex_upperHex (b : UInt8) :
    unhex (upperHex (b >>> 4)) = some (b >>> 4) ∧ unhex (upperHex (b &&& 15)) = some (b &&& 15) ∧
      (b >>> 4) <<< 4 ||| (b &&& 15) = b := by
  refine forall_byte (P := fun b => unhex (upperHex (b >>> 4)) = some (b >>> 4) ∧
    unhex (upperHex (b &&& 15)) = some (b &&& 15) ∧ (b >>> 4) <<< 4 ||| (b &&& 15) = b) ?_ b
  decide +kernel

theorem unescape_cons {b : UInt8} (h : b ≠ percent) (s : List UInt8) :
    unescape (b :: s) = (unescape s).map (b :: ·) := by
  conv_lhs => unfold unescape
  exact if_neg h

variable {keep : UInt8 → Bool}

theorem unescape_escapeByte_append (hkeep : keep percent = false) (b : UInt8) (s : List UInt8) :
    unescape (escapeByte keep b ++ s) = (unescape s).map (b :: ·) := by
  unfold escapeByte
  split
  · next hb =>
    refine unescape_cons (fun he => ?_) s
    rw [he, hkeep] at hb
    cases hb
  · obtain ⟨hhi, hlo, hb⟩ := unhex_upperHex b
    simp only [List.cons_append, List.nil_append]
    rw [unescape, if_pos rfl, hhi, hlo]
    cases unescape s with
    | none => rfl
    | some t => simp only [Option.map_some, hb]

theorem unescape_escape_append (hkeep : keep percent = false) (s rest : List UInt8) :
    unescape (escape keep s ++ rest) = (unescape rest).map (s ++ ·) := by
  induction s with
  | nil => cases h : unescape rest <;> simp [escape, h]
  | cons b s ih =>
    rw [escape, List.flatMap_cons, List.append_assoc, unescape_escapeByte_append hkeep, ← escape,
      ih, Option.map_map]
    rfl

/-- **What is escaped is read back.** -/
theorem unescape_escape (hkeep : keep percent = false) (s : List UInt8) :
    unescape (escape keep s) = some s := by
  have h := unescape_escape_append hkeep s []
  rw [List.append_nil] at h
  rw [h, unescape, Option.map_some, List.append_nil]

theorem escape_injective (hkeep : keep percent = false) : Function.Injective (escape keep) := by
  intro s t h
  have hs := unescape_escape hkeep s
  rw [h, unescape_escape hkeep t] at hs
  exact (Option.some.inj hs).symm

theorem upperHex_digit (n : UInt8) (h : n < 16) :
    (48 ≤ upperHex n ∧ upperHex n ≤ 57) ∨ (65 ≤ upperHex n ∧ upperHex n ≤ 70) := by
  revert h
  refine forall_byte (P := fun n => n < 16 → (48 ≤ upperHex n ∧ upperHex n ≤ 57) ∨
    (65 ≤ upperHex n ∧ upperHex n ≤ 70)) ?_ n
  decide +kernel

theorem nibble_lt (b : UInt8) : b >>> 4 < 16 ∧ b &&& 15 < 16 := by
  refine forall_byte (P := fun b => b >>> 4 < 16 ∧ b &&& 15 < 16) ?_ b
  decide +kernel

/-- **The bytes of an escaped text** are kept ones, `%` and digits. -/
theorem mem_escape {s : List UInt8} {b : UInt8} (h : b ∈ escape keep s) :
    keep b = true ∨ b = percent ∨ (48 ≤ b ∧ b ≤ 57) ∨ (65 ≤ b ∧ b ≤ 70) := by
  obtain ⟨a, -, hb⟩ := List.mem_flatMap.1 h
  obtain ⟨hhi, hlo⟩ := nibble_lt a
  unfold escapeByte at hb
  split at hb
  · next ha => exact .inl (List.mem_singleton.1 hb ▸ ha)
  · rcases List.mem_cons.1 hb with rfl | hb
    · exact .inr (.inl rfl)
    · rcases List.mem_cons.1 hb with rfl | hb
      · exact .inr (.inr (upperHex_digit _ hhi))
      · exact .inr (.inr (List.mem_singleton.1 hb ▸ upperHex_digit _ hlo))

theorem escape_eq_nil {s : List UInt8} : escape keep s = [] ↔ s = [] := by
  cases s with
  | nil => exact ⟨fun _ => rfl, fun _ => rfl⟩
  | cons b s =>
    refine ⟨fun h => ?_, fun h => by cases h⟩
    rw [escape, List.flatMap_cons, escapeByte] at h
    split at h <;> cases h

end Percent
