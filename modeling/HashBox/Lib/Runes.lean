import Mathlib.Data.List.DropRight
import Mathlib.Data.String.Basic

/-!
# Strings of bytes read as runes

A string is any list of bytes. A loop over it reads runes; a byte that begins no rune is read alone
and counts as U+FFFD. The bytes read are the string (`bytes_runes`), and the runes of an encoded
text are its characters (`runes_encode`).
-/

namespace Runes

/-- What a loop over a string reads at one place. -/
inductive Rune
  | valid (c : Char)
  /-- a byte that begins no rune -/
  | invalid (b : UInt8)
deriving DecidableEq, Repr

def Rune.value : Rune → Char
  | .valid c => c
  | .invalid _ => '\uFFFD'

def Rune.bytes : Rune → List UInt8
  | .valid c => String.utf8EncodeChar c
  | .invalid b => [b]

/-- The bytes of a text. -/
def encode (text : List Char) : List UInt8 := text.flatMap String.utf8EncodeChar

/-- The rune that a string begins with. -/
def decodeRune? (s : List UInt8) : Option Char := s.toByteArray.utf8DecodeChar? 0

/-- The runes of a string whose first `skip` bytes belong to the rune before. -/
def runesFrom : (skip : Nat) → List UInt8 → List Rune
  | _, [] => []
  | skip + 1, _ :: s => runesFrom skip s
  | 0, b :: s =>
    match decodeRune? (b :: s) with
    | some c => .valid c :: runesFrom (c.utf8Size - 1) s
    | none => .invalid b :: runesFrom 0 s

def runes (s : List UInt8) : List Rune := runesFrom 0 s

/-- `strings.TrimFunc`. -/
def trimFunc (p : Char → Bool) (s : List UInt8) : List UInt8 :=
  let trims (r : Rune) := p r.value
  (((runes s).dropWhile trims).rdropWhile trims).flatMap Rune.bytes

/-- `strings.Map`, for a function that drops no rune. -/
def mapRunes (mapping : Char → Char) (s : List UInt8) : List UInt8 :=
  (runes s).flatMap fun r => String.utf8EncodeChar (mapping r.value)

/-! ## Decoding -/

@[simp] theorem encode_nil : encode [] = [] := rfl

@[simp] theorem encode_singleton (c : Char) : encode [c] = String.utf8EncodeChar c :=
  List.flatMap_singleton ..

@[simp] theorem encode_append (s t : List Char) : encode (s ++ t) = encode s ++ encode t :=
  List.flatMap_append

theorem decodeRune?_encode (c : Char) (s : List UInt8) :
    decodeRune? (String.utf8EncodeChar c ++ s) = some c := by
  rw [decodeRune?, List.toByteArray_append, ByteArray.utf8DecodeChar?_utf8EncodeChar_append]

theorem decodeRune?_some {s : List UInt8} {c : Char} (h : decodeRune? s = some c) :
    ∃ rest, s = String.utf8EncodeChar c ++ rest := by
  obtain ⟨rest, hrest⟩ := ByteArray.exists_of_utf8DecodeChar?_eq_some h
  refine ⟨rest.data.toList, ?_⟩
  have hbytes := congrArg (fun b => b.data.toList) hrest
  simpa using hbytes

theorem runesFrom_append (t s : List UInt8) : runesFrom t.length (t ++ s) = runes s := by
  induction t with
  | nil => rfl
  | cons b t ih => exact ih

theorem runes_encode_append (c : Char) (s : List UInt8) :
    runes (String.utf8EncodeChar c ++ s) = .valid c :: runes s := by
  obtain ⟨b, t, ht⟩ := List.exists_cons_of_ne_nil (String.utf8EncodeChar_ne_nil (c := c))
  have hdecode := decodeRune?_encode c s
  have hsize : c.utf8Size - 1 = t.length := by
    rw [← String.length_utf8EncodeChar, ht, List.length_cons, Nat.add_sub_cancel]
  rw [ht, List.cons_append] at hdecode ⊢
  rw [runes, runesFrom, hdecode]
  change Rune.valid c :: runesFrom (c.utf8Size - 1) (t ++ s) = _
  rw [hsize, runesFrom_append]

/-- **The runes of a text are its characters.** -/
theorem runes_encode (text : List Char) : runes (encode text) = text.map .valid := by
  induction text with
  | nil => rfl
  | cons c text ih =>
    rw [encode, List.flatMap_cons, runes_encode_append, ← encode, ih, List.map_cons]

theorem encode_injective : Function.Injective encode := by
  intro s t h
  have hrunes := congrArg runes h
  rw [runes_encode, runes_encode] at hrunes
  exact List.map_injective_iff.2 (fun _ _ => Rune.valid.inj) hrunes

/-- **Nothing is lost**: the bytes of the runes are the string. -/
theorem bytes_runes (s : List UInt8) : (runes s).flatMap Rune.bytes = s := by
  induction hn : s.length using Nat.strong_induction_on generalizing s with
  | _ n ih =>
    cases s with
    | nil => rfl
    | cons b s =>
      cases hdecode : decodeRune? (b :: s) with
      | none =>
        rw [runes, runesFrom, hdecode]
        have hrest : (runes s).flatMap Rune.bytes = s := ih _ (by simp [← hn]) s rfl
        exact congrArg (b :: ·) hrest
      | some c =>
        obtain ⟨rest, hrest⟩ := decodeRune?_some hdecode
        have hlen : rest.length < n := by
          rw [← hn, hrest, List.length_append, String.length_utf8EncodeChar]
          exact Nat.lt_add_of_pos_left c.utf8Size_pos
        rw [hrest, runes_encode_append, List.flatMap_cons, ih _ hlen rest rfl, Rune.bytes]

/-! ## Trimming and mapping -/

@[simp] theorem bytes_valid (text : List Char) :
    (text.map Rune.valid).flatMap Rune.bytes = encode text :=
  List.flatMap_map ..

/-- Runes with a property that U+FFFD does not have are a text. -/
theorem bytes_text {p : Char → Bool} (hp : p '\uFFFD' = false) {rs : List Rune}
    (h : ∀ r ∈ rs, p r.value) : rs.flatMap Rune.bytes = encode (rs.map Rune.value) := by
  rw [encode, List.flatMap_map]
  refine List.flatMap_congr fun r hr => ?_
  cases r with
  | valid c => rfl
  | invalid b => exact absurd (h _ hr) (by rw [Rune.value, hp]; exact Bool.false_ne_true)

/-- What is trimmed off a string. -/
theorem trimFunc_split (p : Char → Bool) (s : List UInt8) :
    ∃ pre post : List Rune, (∀ r ∈ pre, p r.value) ∧ (∀ r ∈ post, p r.value) ∧
      s = pre.flatMap Rune.bytes ++ trimFunc p s ++ post.flatMap Rune.bytes := by
  let trims (r : Rune) := p r.value
  refine ⟨(runes s).takeWhile trims, ((runes s).dropWhile trims).rtakeWhile trims,
    fun r hr => List.mem_takeWhile_imp (p := trims) hr,
    fun r hr => List.mem_rtakeWhile_imp (p := trims) hr, ?_⟩
  calc s = (runes s).flatMap Rune.bytes := (bytes_runes s).symm
    _ = ((runes s).takeWhile trims ++ (((runes s).dropWhile trims).rdropWhile trims ++
          ((runes s).dropWhile trims).rtakeWhile trims)).flatMap Rune.bytes := by
      rw [List.rdropWhile_append_rtakeWhile, List.takeWhile_append_dropWhile]
    _ = _ := by
      rw [List.flatMap_append, List.flatMap_append, ← List.append_assoc]
      rfl

theorem trimFunc_encode (p : Char → Bool) (text : List Char) :
    trimFunc p (encode text) =
      encode ((text.dropWhile p).rdropWhile p) := by
  have hp : (fun r : Rune => p r.value) ∘ Rune.valid = p := rfl
  simp only [trimFunc, runes_encode, List.rdropWhile, List.dropWhile_map, hp, ← List.map_reverse,
    bytes_valid]

theorem trimFunc_between {p : Char → Bool} {pre text post : List Char} (hpre : ∀ c ∈ pre, p c)
    (htext : ∀ c ∈ text, p c = false) (hpost : ∀ c ∈ post, p c) :
    trimFunc p (encode (pre ++ text ++ post)) = encode text := by
  rw [trimFunc_encode, List.append_assoc, List.dropWhile_append_of_pos hpre]
  cases text with
  | nil => simp [List.dropWhile_eq_nil_iff.2 hpost]
  | cons c text =>
    rw [List.cons_append, List.dropWhile_cons_of_neg (by simp [htext c List.mem_cons_self]),
      ← List.cons_append, List.rdropWhile, List.reverse_append,
      List.dropWhile_append_of_pos fun c hc => hpost c (List.mem_reverse.1 hc), ← List.rdropWhile,
      List.rdropWhile_eq_self_iff.2 fun hne => by simp [htext _ (List.getLast_mem hne)]]

theorem mapRunes_encode (mapping : Char → Char) (text : List Char) :
    mapRunes mapping (encode text) = encode (text.map mapping) := by
  rw [mapRunes, runes_encode, List.flatMap_map, encode, List.flatMap_map]
  rfl

/-! ## ASCII -/

theorem utf8EncodeChar_cases (c : Char) :
    c.utf8Size = 1 ∨ ∀ b ∈ String.utf8EncodeChar c, 0x80 ≤ b.toNat := by
  rw [← String.length_utf8EncodeChar]
  fun_cases String.utf8EncodeChar c with
  | case1 => exact .inl rfl
  | case2 | case3 | case4 =>
    right
    simp only [List.forall_mem_cons, List.not_mem_nil, false_imp_iff, implies_true, and_true,
      UInt8.toNat_ofNat']
    omega

theorem ascii_of_bytes {c : Char} (h : ∀ b ∈ String.utf8EncodeChar c, b.toNat < 0x80) :
    c.utf8Size = 1 := by
  rcases utf8EncodeChar_cases c with h1 | habove
  · exact h1
  · obtain ⟨b, rest, hb⟩ := List.exists_cons_of_ne_nil (String.utf8EncodeChar_ne_nil (c := c))
    have hmem : b ∈ String.utf8EncodeChar c := hb ▸ List.mem_cons_self
    exact absurd (h b hmem) (Nat.not_lt.2 (habove b hmem))

theorem encode_ascii {text : List Char} (h : ∀ c ∈ text, c.utf8Size = 1) :
    encode text = text.map Char.toUInt8 := by
  induction text with
  | nil => rfl
  | cons c text ih =>
    obtain ⟨hc, htext⟩ := List.forall_mem_cons.1 h
    rw [encode, List.flatMap_cons, String.utf8EncodeChar_eq_singleton hc, ← encode, ih htext]
    rfl

theorem encode_concat {text : List Char} {s : List UInt8} {c : Char} (hc : c.utf8Size = 1)
    (h : encode text = s ++ String.utf8EncodeChar c) :
    ∃ front, text = front ++ [c] ∧ encode front = s := by
  have hbyte := String.utf8EncodeChar_eq_singleton hc
  rcases List.eq_nil_or_concat text with rfl | ⟨front, last, rfl⟩
  · exact absurd h (by simp [String.utf8EncodeChar_ne_nil])
  · rw [List.concat_eq_append, encode_append, encode_singleton, hbyte] at h
    rcases utf8EncodeChar_cases last with hlast | habove
    · rw [String.utf8EncodeChar_eq_singleton hlast] at h
      obtain ⟨hfront, hsame⟩ := List.append_singleton_inj.1 h
      have hchar : last = c := by
        have hdecode := decodeRune?_encode last []
        rw [String.utf8EncodeChar_eq_singleton hlast, hsame, ← hbyte, decodeRune?_encode] at hdecode
        exact (Option.some.inj hdecode).symm
      exact ⟨front, by rw [List.concat_eq_append, hchar], hfront⟩
    · -- the last byte of the character would be above ASCII
      obtain ⟨init, b, hb⟩ := (List.eq_nil_or_concat (String.utf8EncodeChar last)).resolve_left
        String.utf8EncodeChar_ne_nil
      have hmem : b ∈ String.utf8EncodeChar last := by simp [hb]
      rw [hb, List.concat_eq_append, ← List.append_assoc] at h
      have hsame : b = c.val.toUInt8 := (List.append_singleton_inj.1 h).2
      have hsmall : c.val.toUInt8.toNat < 0x80 := by
        have hle := UInt32.le_iff_toNat_le.1 (Char.utf8Size_eq_one_iff.1 hc)
        exact Nat.lt_of_le_of_lt (Nat.mod_le _ _) (Nat.lt_succ_of_le hle)
      exact absurd (hsame ▸ habove b hmem) (Nat.not_le.2 hsmall)

/-- A text whose bytes end in those of an ASCII text ends in that text. -/
theorem encode_suffix {tail : List Char} (htail : ∀ c ∈ tail, c.utf8Size = 1) :
    ∀ {text : List Char} {s : List UInt8}, encode text = s ++ encode tail →
      ∃ front, text = front ++ tail ∧ encode front = s := by
  induction tail using List.reverseRecOn with
  | nil => exact fun h => ⟨_, (List.append_nil _).symm, by simpa using h⟩
  | append_singleton tail c ih =>
    intro text s h
    rw [encode_append, encode_singleton, ← List.append_assoc] at h
    obtain ⟨front, rfl, hfront⟩ := encode_concat (htail c (by simp)) h
    obtain ⟨front', rfl, hs⟩ := ih (fun d hd => htail d (List.mem_append_left _ hd)) hfront
    exact ⟨front', (List.append_assoc ..).symm ▸ rfl, hs⟩

end Runes
