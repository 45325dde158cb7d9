import HashBox.Vault.Types
import Mathlib.Algebra.Group.Nat.Defs

/-!
# Hashes as text and the names of chunk files (`internal/cas/store.go`)

`hex` is the text form of a hash in every key, record and file name the program writes.
`normalizeHash` accepts it and gives it back (`normalizeHash_hex`), so a record whose fields are of
type `Hash` passes every such check of the source. `chunkPath` is where `chunkPaths` puts a chunk;
paths are lists of components below the chunk root.
-/

namespace HashBox.Vault

/-! ## The text form -/

def hexDigit (n : Nat) : Char := if n < 10 then Char.ofNat (48 + n) else Char.ofNat (87 + n)

/-- The last `k` hexadecimal digits of `n`. -/
def hexDigits : Nat → Nat → List Char
  | 0, _ => []
  | k + 1, n => hexDigits k (n / 16) ++ [hexDigit (n % 16)]

/-- `hex.EncodeToString` of a digest, read as a number with its first byte in front. -/
def hex (h : Hash) : String := String.ofList (hexDigits 64 h.toNat)

/-- What `hex.DecodeString` takes for a digit. -/
def isHexDigit (c : Char) : Bool :=
  ('0' ≤ c && c ≤ '9') || ('a' ≤ c && c ≤ 'f') || ('A' ≤ c && c ≤ 'F')

/-- `strings.ToLower` as far as `normalizeHash` can tell: no other character becomes a hexadecimal
digit. -/
def toLower (s : String) : String := String.ofList (s.toList.map Char.toLower)

/-- `len`: the number of bytes. -/
def len (s : String) : Nat := s.toList.foldr (fun c n => c.utf8Size + n) 0

def normalizeHash (value : String) : Except Error String :=
  let normalized := toLower (trimSpace value)
  if len normalized ≠ 64 then .error .invalidHash
  else if !normalized.toList.all isHexDigit then .error .invalidHash
  else .ok normalized

/-! ## File names -/

/-- The components of a path below the chunk root. -/
abbrev Path := List String

/-- The slice `s[from:to]` of a string of one-byte characters. -/
def slice (s : String) (lo hi : Nat) : String := String.ofList ((s.toList.take hi).drop lo)

/-- The `relativePath` of `chunkPaths`. -/
def chunkPaths (chunkHash : String) : Except Error Path :=
  match normalizeHash chunkHash with
  | .error e => .error e
  | .ok chunkHash =>
    if len chunkHash < 4 then .error .invalidHash
    else .ok [slice chunkHash 0 2, slice chunkHash 2 4, chunkHash ++ ".bin"]

/-- Where the chunk of a hash is. -/
def chunkPath (h : Hash) : Path := [slice (hex h) 0 2, slice (hex h) 2 4, hex h ++ ".bin"]

/-- `filepath.Ext(name) == ".bin"`. -/
def hasBinExt (name : String) : Bool := ".bin".toList.isSuffixOf name.toList

/-- The hash the walk of the chunk root reads from a file name: none if it skips the file. -/
def walkedHash (name : String) : Option String :=
  if hasBinExt name then
    (normalizeHash (String.ofList (name.toList.take (name.toList.length - 4)))).toOption
  else none

/-! ## Lemmas -/

theorem length_hexDigits (k n : Nat) : (hexDigits k n).length = k := by
  induction k generalizing n with
  | zero => rfl
  | succ k ih => rw [hexDigits, List.length_append, ih, List.length_singleton]

theorem mem_hexDigits {k n : Nat} {c : Char} (hc : c ∈ hexDigits k n) :
    ∃ i < 16, c = hexDigit i := by
  induction k generalizing n with
  | zero => cases hc
  | succ k ih =>
    rcases List.mem_append.1 hc with hc | hc
    · exact ih hc
    · exact ⟨n % 16, Nat.mod_lt _ (by omega), List.mem_singleton.1 hc⟩

theorem hexDigit_inj {i j : Nat} (hi : i < 16) (hj : j < 16) (h : hexDigit i = hexDigit j) :
    i = j := by
  have key : ∀ i < 16, ∀ j < 16, hexDigit i = hexDigit j → i = j := by decide
  exact key i hi j hj h

theorem hexDigits_inj {k n m : Nat} (h : hexDigits k n = hexDigits k m) :
    n % 16 ^ k = m % 16 ^ k := by
  induction k generalizing n m with
  | zero => simp [Nat.mod_one]
  | succ k ih =>
    obtain ⟨h1, h2⟩ := List.append_inj h (by rw [length_hexDigits, length_hexDigits])
    have hlow := hexDigit_inj (Nat.mod_lt n (by omega)) (Nat.mod_lt m (by omega))
      (List.singleton_inj.1 h2)
    have hhigh := ih h1
    rw [Nat.pow_succ, Nat.mul_comm, Nat.mod_mul, Nat.mod_mul, hlow, hhigh]

theorem hex_injective : Function.Injective hex := by
  intro a b h
  have hd := hexDigits_inj (String.ofList_injective h)
  apply BitVec.eq_of_toNat_eq
  have ha := a.isLt
  have hb := b.isLt
  rwa [Nat.mod_eq_of_lt (by simpa using ha), Nat.mod_eq_of_lt (by simpa using hb)] at hd

theorem hexDigit_plain {c : Char} {k n : Nat} (hc : c ∈ hexDigits k n) :
    isSpace c = false ∧ c.toLower = c ∧ c.utf8Size = 1 ∧ isHexDigit c = true := by
  obtain ⟨i, hi, rfl⟩ := mem_hexDigits hc
  have key : ∀ i < 16, isSpace (hexDigit i) = false ∧ (hexDigit i).toLower = hexDigit i ∧
      (hexDigit i).utf8Size = 1 ∧ isHexDigit (hexDigit i) = true := by decide
  exact key i hi

theorem dropWhile_eq_self {α : Type} {p : α → Bool} {l : List α} (h : ∀ a ∈ l, p a = false) :
    l.dropWhile p = l := by
  cases l with
  | nil => rfl
  | cons a l => rw [List.dropWhile_cons, h a List.mem_cons_self]; rfl

theorem trimSpace_hex (h : Hash) : trimSpace (hex h) = hex h := by
  have plain : ∀ c ∈ hexDigits 64 h.toNat, isSpace c = false := fun c hc => (hexDigit_plain hc).1
  have plain' : ∀ c ∈ (hexDigits 64 h.toNat).reverse, isSpace c = false :=
    fun c hc => plain c (List.mem_reverse.1 hc)
  rw [trimSpace, hex, String.toList_ofList, dropWhile_eq_self plain, dropWhile_eq_self plain',
    List.reverse_reverse]

theorem toLower_hex (h : Hash) : toLower (hex h) = hex h := by
  rw [toLower, hex, String.toList_ofList, List.map_congr_left fun c hc => (hexDigit_plain hc).2.1,
    List.map_id']

theorem len_ascii {cs : List Char} (h : ∀ c ∈ cs, c.utf8Size = 1) :
    len (String.ofList cs) = cs.length := by
  rw [len, String.toList_ofList]
  induction cs with
  | nil => rfl
  | cons c cs ih =>
    rw [List.foldr_cons, ih fun c' hc' => h c' (List.mem_cons_of_mem _ hc'),
      h c List.mem_cons_self, List.length_cons, Nat.add_comm]

theorem len_hex (h : Hash) : len (hex h) = 64 := by
  rw [hex, len_ascii fun c hc => (hexDigit_plain hc).2.2.1, length_hexDigits]

theorem normalizeHash_cases (value : String) :
    normalizeHash value = .error .invalidHash ∨ ∃ hash, normalizeHash value = .ok hash := by
  unfold normalizeHash
  dsimp only
  split
  · exact .inl rfl
  · split
    · exact .inl rfl
    · exact .inr ⟨_, rfl⟩

theorem normalizeHash_ok {value hash : String} :
    normalizeHash value = .ok hash ↔
      toLower (trimSpace value) = hash ∧ len hash = 64 ∧ ∀ c ∈ hash.toList, isHexDigit c := by
  unfold normalizeHash
  dsimp only
  split
  · next hlen =>
    refine ⟨fun h => (by cases h), ?_⟩
    rintro ⟨rfl, h64, -⟩
    exact absurd h64 hlen
  · next hlen =>
    split
    · next hall =>
      refine ⟨fun h => (by cases h), ?_⟩
      rintro ⟨rfl, -, hdigits⟩
      rw [List.all_eq_true.2 hdigits] at hall
      cases hall
    · next hall =>
      refine ⟨fun h => ?_, fun h => congrArg Except.ok h.1⟩
      have hsame := Except.ok.inj h
      rw [not_not, hsame] at hlen
      rw [Bool.not_eq_true', Bool.not_eq_false, hsame] at hall
      exact ⟨hsame, hlen, List.all_eq_true.1 hall⟩

/-- **The program's own hashes normalize to themselves.** -/
theorem normalizeHash_hex (h : Hash) : normalizeHash (hex h) = .ok (hex h) := by
  refine normalizeHash_ok.2 ⟨by rw [trimSpace_hex, toLower_hex], len_hex h, fun c hc => ?_⟩
  rw [hex, String.toList_ofList] at hc
  exact (hexDigit_plain hc).2.2.2

theorem chunkPaths_hex (h : Hash) : chunkPaths (hex h) = .ok (chunkPath h) := by
  unfold chunkPaths
  simp only [normalizeHash_hex, len_hex, chunkPath]
  exact if_neg (by decide)

theorem append_right_injective (t : String) : Function.Injective fun s : String => s ++ t := by
  intro a b h
  have hl := congrArg String.toList h
  simp only [String.toList_append, List.append_cancel_right_eq] at hl
  exact String.toList_inj.1 hl

theorem chunkPath_injective : Function.Injective chunkPath := by
  intro a b h
  simp only [chunkPath, List.cons.injEq, and_true] at h
  exact hex_injective (append_right_injective ".bin" h.2.2)

/-- The walk reads a chunk file's hash back from its name. -/
theorem walkedHash_chunk (h : Hash) : walkedHash (hex h ++ ".bin") = some (hex h) := by
  have hlist : (hex h ++ ".bin").toList = (hex h).toList ++ ".bin".toList :=
    String.toList_append ..
  have hext : hasBinExt (hex h ++ ".bin") = true := by
    rw [hasBinExt, hlist, List.isSuffixOf_iff_suffix]
    exact List.suffix_append _ _
  have hstem : (hex h ++ ".bin").toList.take ((hex h ++ ".bin").toList.length - 4) =
      (hex h).toList := by
    rw [hlist]
    generalize (hex h).toList = cs
    rw [List.length_append, show ".bin".toList.length = 4 from rfl, Nat.add_sub_cancel,
      List.take_left]
  rw [walkedHash, if_pos hext, hstem, String.ofList_toList, normalizeHash_hex]
  rfl

end HashBox.Vault
