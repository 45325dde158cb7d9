import HashBox.Api.MaxSizeReader

/-!
# The upload size limit does not truncate

A `MaxSizeReader` over a part is itself a reader whose content is what the limit leaves of the
part's, and whose final error is the part's only if that is all of it (`MaxSizeReader.reader`). What
reading it to its first error gives then follows from the rules of `Readers`.
-/

namespace HashBox.Api

open Readers

variable {σ : Type _}

namespace MaxSizeReader

/-- What is left to read under the limit. -/
def content (p : Part σ) (m : MaxSizeReader σ) : List UInt8 :=
  (p.content m.part).take (m.maxBytes - m.bytesRead).toNat

def final (p : Part σ) (m : MaxSizeReader σ) : GoError :=
  if ((p.content m.part).length : Int) ≤ m.maxBytes - m.bytesRead then p.final m.part
  else .errUploadTooBig

variable (p : Part σ) (m : MaxSizeReader σ)

/-- **The probe**: the budget is spent, so either the part is at its end or it is too big. -/
theorem read_spent (h : m.maxBytes - m.bytesRead = 0) (n : Nat) :
    (m.read p.read n).1 = [] ∧ (m.read p.read n).2.1 = some (m.final p) := by
  have herror := p.read_error m.part 1
  have hmore := p.read_more m.part 1 Nat.one_pos
  unfold read final
  rw [h, if_neg (by decide), if_pos rfl]
  cases hr : p.read m.part 1 with
  | mk data x =>
    obtain ⟨err, part⟩ := x
    rw [hr] at herror hmore
    cases data with
    | cons b data =>
      -- the part has a byte more
      have hlen : 0 < (p.content m.part).length := by
        cases err with
        | some e => rw [← (herror e Nat.one_pos rfl).1]; exact Nat.zero_lt_succ _
        | none => rw [← (hmore rfl).2.1]; exact Nat.zero_lt_succ _
      rw [if_neg (by omega)]
      exact ⟨rfl, rfl⟩
    | nil =>
      cases err with
      | none => exact absurd rfl (hmore rfl).1
      | some e =>
        obtain ⟨hdata, rfl⟩ := herror e Nat.one_pos rfl
        have hlen : ((p.content m.part).length : Int) ≤ 0 := by rw [← hdata]; exact Int.le_refl 0
        rw [if_pos hlen]
        dsimp only [List.length_nil, gt_iff_lt]
        rw [if_neg (Nat.lt_irrefl 0)]
        by_cases heof : (p.final m.part).is .eof
        · rw [if_pos heof, p.final_eof m.part heof]
          exact ⟨rfl, rfl⟩
        · rw [if_neg heof]
          exact ⟨rfl, rfl⟩

/-- With budget left a read is one of the part, with a buffer within the budget. -/
theorem read_budget (h : 0 < m.maxBytes - m.bytesRead) (n : Nat) :
    ∃ k, (0 < n → 0 < k) ∧ k ≤ n ∧ (k : Int) ≤ m.maxBytes - m.bytesRead ∧
      m.read p.read n = ((p.read m.part k).1, (p.read m.part k).2.1,
        { m with
          part := (p.read m.part k).2.2
          bytesRead := m.bytesRead + (p.read m.part k).1.length }) := by
  refine ⟨if (n : Int) > m.maxBytes - m.bytesRead then (m.maxBytes - m.bytesRead).toNat else n,
    ?_, ?_, ?_, ?_⟩
  · split <;> omega
  · split <;> omega
  · split <;> omega
  · rw [read, if_neg (by omega), if_neg (by omega)]

theorem read_over (h : m.maxBytes - m.bytesRead < 0) (n : Nat) :
    (m.read p.read n).1 = [] ∧ (m.read p.read n).2.1 = some (m.final p) := by
  rw [read, if_pos h, final, if_neg (by omega)]
  exact ⟨rfl, rfl⟩

/-- A read that returns nothing but an error leaves nothing to read. -/
theorem read_last (h : m.maxBytes - m.bytesRead ≤ 0) (n : Nat) :
    (m.read p.read n).1 = [] ∧ (m.read p.read n).2.1 = some (m.final p) ∧ m.content p = [] := by
  have hnil : m.content p = [] := by rw [content, Int.toNat_of_nonpos h, List.take_zero]
  rcases Int.lt_or_eq_of_le h with h | h
  · exact ⟨(read_over p m h n).1, (read_over p m h n).2, hnil⟩
  · exact ⟨(read_spent p m h n).1, (read_spent p m h n).2, hnil⟩

/-- **A `MaxSizeReader` is a reader.** -/
def reader : Reader (MaxSizeReader σ) UInt8 GoError where
  read m n := m.read p.read n
  content := content p
  final := final p
  read_le m n := by
    by_cases h : 0 < m.maxBytes - m.bytesRead
    · obtain ⟨k, -, hk, -, hread⟩ := read_budget p m h n
      rw [hread]
      exact Nat.le_trans (p.read_le m.part k) hk
    · rw [(read_last p m (Int.not_lt.1 h) n).1]
      exact Nat.zero_le _
  read_error m n e hn he := by
    by_cases h : 0 < m.maxBytes - m.bytesRead
    · obtain ⟨k, hk, -, hle, hread⟩ := read_budget p m h n
      rw [hread] at he ⊢
      obtain ⟨hdata, hfinal⟩ := p.read_error m.part k e (hk hn) he
      have hlen := p.read_le m.part k
      rw [hdata] at hlen
      refine ⟨?_, ?_⟩
      · rw [content, List.take_of_length_le (by omega)]
        exact hdata
      · rw [final, if_pos (by omega), hfinal]
    · obtain ⟨hdata, herr, hnil⟩ := read_last p m (Int.not_lt.1 h) n
      rw [hdata, hnil]
      exact ⟨rfl, Option.some.inj (he.symm.trans herr)⟩
  read_more m n hn he := by
    by_cases h : 0 < m.maxBytes - m.bytesRead
    · obtain ⟨k, hk, -, hle, hread⟩ := read_budget p m h n
      rw [hread] at he ⊢
      obtain ⟨hdata, hcontent, hfinal⟩ := p.read_more m.part k (hk hn) he
      have hlen := p.read_le m.part k
      have hleft : (m.maxBytes - (m.bytesRead + (p.read m.part k).1.length)).toNat =
          (m.maxBytes - m.bytesRead).toNat - (p.read m.part k).1.length := by omega
      have htake : (p.read m.part k).1.take (m.maxBytes - m.bytesRead).toNat =
          (p.read m.part k).1 := List.take_of_length_le (by omega)
      refine ⟨hdata, ?_, ?_⟩
      · rw [content, content, ← hcontent, List.take_append, htake]
        exact congrArg _ (by rw [hleft])
      · simp only [final, hfinal, ← hcontent, List.length_append]
        refine if_congr ?_ rfl rfl
        push_cast
        omega
    · have herr := (read_last p m (Int.not_lt.1 h) n).2.1
      rw [he] at herr
      cases herr

end MaxSizeReader

/-- **The limit never truncates silently.** -/
theorem max_size_reader (p : Part σ) (part : σ) (maxBytes : Nat) (sizes : List Nat)
    (hsizes : ∀ n ∈ sizes, 0 < n) :
    let result := readAll (MaxSizeReader.read p.read) sizes (newMaxSizeReader part maxBytes)
    (result.2.isSome →
      result = if (p.content part).length ≤ maxBytes then (p.content part, some (p.final part))
        else ((p.content part).take maxBytes, some .errUploadTooBig)) ∧
    ((p.content part).length < sizes.length → result.2.isSome) := by
  have hcontent : (newMaxSizeReader part maxBytes).content p = (p.content part).take maxBytes := by
    simp [MaxSizeReader.content, newMaxSizeReader]
  have hfinal : (newMaxSizeReader part maxBytes).final p =
      if (p.content part).length ≤ maxBytes then p.final part else .errUploadTooBig := by
    simp [MaxSizeReader.final, newMaxSizeReader]
  intro result
  constructor
  · intro h
    obtain ⟨e, he⟩ := Option.isSome_iff_exists.1 h
    obtain ⟨hdata, herr⟩ := (MaxSizeReader.reader p).readAll_error hsizes he
    have hresult : result = ((newMaxSizeReader part maxBytes).content p,
        some ((newMaxSizeReader part maxBytes).final p)) :=
      Prod.ext hdata (he.trans (congrArg some herr))
    rw [hresult, hcontent, hfinal]
    split
    · next hle => rw [List.take_of_length_le hle]
    · rfl
  · intro h
    refine (MaxSizeReader.reader p).readAll_ends hsizes (Nat.lt_of_le_of_lt ?_ h)
    show ((newMaxSizeReader part maxBytes).content p).length ≤ _
    rw [hcontent]
    exact List.length_take_le' _ _

/-- A part that returns all a buffer has room for, and `io.EOF` with the last byte. -/
def samplePart : Part (List UInt8) where
  read s n := if s.length ≤ n then (s, some .eof, []) else (s.take n, none, s.drop n)
  content s := s
  final _ := .eof
  read_le s n := by
    split
    · assumption
    · exact List.length_take_le _ _
  read_error s n e hn he := by
    split at he <;> cases he
    next h => exact ⟨by rw [if_pos h], rfl⟩
  read_more s n hn he := by
    split at he <;> cases he
    next h =>
      rw [if_neg h]
      refine ⟨fun hnil => ?_, List.take_append_drop n s, rfl⟩
      rcases List.take_eq_nil_iff.1 hnil with h0 | rfl
      · exact absurd h0 (Nat.ne_of_gt hn)
      · exact h (Nat.zero_le _)
  final_eof _ _ := rfl

/-- A part of one byte too many. -/
theorem max_size_reader_sample :
    readAll (MaxSizeReader.read samplePart.read) [2, 2, 2, 2, 2]
      (newMaxSizeReader [1, 2, 3, 4] 3) = ([1, 2, 3], some .errUploadTooBig) := by
  have h := max_size_reader samplePart [1, 2, 3, 4] 3 [2, 2, 2, 2, 2] (by decide)
  exact h.1 (h.2 (by decide))

end HashBox.Api
