import Mathlib.Data.List.Basic

/-!
# Streams that are read into buffers

A `Reader` gives its content in pieces: a read with a buffer of `n` elements returns at most `n` of
them, and an error with or after the last ones. How it cuts the content is up to the reader; the
laws leave every pattern of reads open but a read that neither returns an element nor an error.
`readAll` reads until the first error; `readAll_error` and `readAll_ends` say what it gives.
-/

namespace Readers

/-- `content` and `final` are what is left to read in a state: the elements, and the error after
them. -/
structure Reader (σ β ε : Type _) where
  read : σ → (n : Nat) → List β × Option ε × σ
  content : σ → List β
  final : σ → ε
  read_le : ∀ s n, (read s n).1.length ≤ n
  read_error : ∀ s n e, 0 < n → (read s n).2.1 = some e → (read s n).1 = content s ∧ e = final s
  read_more : ∀ s n, 0 < n → (read s n).2.1 = none →
    (read s n).1 ≠ [] ∧ (read s n).1 ++ content (read s n).2.2 = content s ∧
      final (read s n).2.2 = final s

variable {σ β ε : Type _}

/-- Reads with buffers of the given sizes, until the first error: what they return together, and the
error. -/
def readAll (read : σ → Nat → List β × Option ε × σ) : List Nat → σ → List β × Option ε
  | [], _ => ([], none)
  | n :: sizes, s =>
    match read s n with
    | (data, some e, _) => (data, some e)
    | (data, none, s) => (data ++ (readAll read sizes s).1, (readAll read sizes s).2)

namespace Reader

variable (r : Reader σ β ε) {sizes : List Nat}

/-- **A run that has met an error** has read the content, and the error is the final one. -/
theorem readAll_error (hsizes : ∀ n ∈ sizes, 0 < n) : ∀ {s e},
    (readAll r.read sizes s).2 = some e → (readAll r.read sizes s).1 = r.content s ∧
      e = r.final s := by
  induction sizes with
  | nil => intro s e h; cases h
  | cons n sizes ih =>
    intro s e h
    have hn := hsizes n List.mem_cons_self
    have herror := r.read_error s n
    have hmore := r.read_more s n hn
    rw [readAll] at h ⊢
    cases hr : r.read s n with
    | mk data x =>
      obtain ⟨err, s'⟩ := x
      rw [hr] at h herror hmore
      cases err with
      | some e' => cases h; exact herror _ hn rfl
      | none =>
        obtain ⟨-, hcontent, hfinal⟩ := hmore rfl
        obtain ⟨hdata, he⟩ := ih (fun k hk => hsizes k (List.mem_cons_of_mem _ hk)) h
        dsimp only
        rw [hdata]
        exact ⟨hcontent, he.trans hfinal⟩

/-- **Progress**: more reads than there are elements meet an error. -/
theorem readAll_ends (hsizes : ∀ n ∈ sizes, 0 < n) : ∀ {s}, (r.content s).length < sizes.length →
    (readAll r.read sizes s).2.isSome := by
  induction sizes with
  | nil => intro s h; cases h
  | cons n sizes ih =>
    intro s h
    have hmore := r.read_more s n (hsizes n List.mem_cons_self)
    rw [readAll]
    cases hr : r.read s n with
    | mk data x =>
      obtain ⟨err, s'⟩ := x
      rw [hr] at hmore
      cases err with
      | some e => rfl
      | none =>
        obtain ⟨hdata, hcontent, -⟩ := hmore rfl
        refine ih (fun k hk => hsizes k (List.mem_cons_of_mem _ hk)) ?_
        have hpos := List.length_pos_iff.2 hdata
        rw [← hcontent, List.length_append, List.length_cons] at h
        dsimp only at h hpos
        omega

end Reader

end Readers
