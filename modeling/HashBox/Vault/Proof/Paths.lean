import HashBox.Vault.Paths

/-!
# Chunk paths are confined

What `normalizeHash` accepts spells a hash (`normalizeHash_iff`): sixty-four hexadecimal digits with
white space around them. No other rune has a hexadecimal digit for its lower case, so nothing else
of an accepted string is left in the hash, and the names `chunkPaths` makes of it are plain.
-/

namespace HashBox.Vault.Paths

open FilePath

def IsLowerHex (b : UInt8) : Prop := (48 ≤ b ∧ b ≤ 57) ∨ (97 ≤ b ∧ b ≤ 102)

instance (b : UInt8) : Decidable (IsLowerHex b) := inferInstanceAs (Decidable (_ ∨ _))

structure IsHash (hash : Bytes) : Prop where
  length : hash.length = 64
  digits : ∀ b ∈ hash, IsLowerHex b

def Spells (value hash : Bytes) : Prop :=
  ∃ pre digits post : List Char, (∀ c ∈ pre, isSpace c) ∧ (∀ c ∈ post, isSpace c) ∧
    digits.length = 64 ∧ (∀ c ∈ digits, isHexDigit c) ∧
    value = Runes.encode (pre ++ digits ++ post) ∧ hash = Runes.encode (digits.map Char.toLower)

/-! ## Digits -/

@[elab_as_elim]
theorem forall_ascii {P : Char → Prop} {c : Char} (hc : c.toNat < 0x80)
    (h : ∀ n < 0x80, P (Char.ofNat n)) : P c :=
  Char.ofNat_toNat c ▸ h c.toNat hc

theorem isHexDigit_ascii {c : Char} (h : isHexDigit c) : c.toNat < 0x80 := by
  simp only [isHexDigit, Bool.or_eq_true, Bool.and_eq_true, decide_eq_true_eq, Char.le_def,
    UInt32.le_iff_toNat_le] at h
  have h9 : '9'.val.toNat = 57 := rfl
  have hf : 'f'.val.toNat = 102 := rfl
  have hF : 'F'.val.toNat = 70 := rfl
  have hc : c.toNat = c.val.toNat := rfl
  omega

theorem isHexDigit_size {c : Char} (h : isHexDigit c) : c.utf8Size = 1 :=
  Char.utf8Size_eq_one_iff.2 <|
    UInt32.le_iff_toNat_le.2 (Nat.le_of_lt_succ (isHexDigit_ascii h))

/-- What `normalizeHash` makes of a hexadecimal digit. -/
structure Lowered (c : Char) : Prop where
  kept : isSpace c = false
  lower : Unicode.toLower c = c.toLower
  digit : isHexDigit c.toLower
  idem : c.toLower.toLower = c.toLower
  byte : IsLowerHex c.toLower.toUInt8
  value : (hexValue c.toLower.toUInt8).isSome

theorem isHexDigit_lower {c : Char} (h : isHexDigit c) : Lowered c := by
  have hc := isHexDigit_ascii h
  have hall : isSpace c = false ∧ isHexDigit c.toLower ∧ c.toLower.toLower = c.toLower ∧
      IsLowerHex c.toLower.toUInt8 ∧ (hexValue c.toLower.toUInt8).isSome := by
    revert h
    refine forall_ascii hc ?_
    decide +kernel
  obtain ⟨hkept, hdigit, hidem, hbyte, hvalue⟩ := hall
  exact ⟨hkept, Unicode.toLower_ascii hc, hdigit, hidem, hbyte, hvalue⟩

theorem hexValue_ascii {b : UInt8} (h : (hexValue b).isSome) : b.toNat < 0x80 := by
  have hbelow : ∀ {hi : UInt8}, hi.toNat < 0x80 → b ≤ hi → b.toNat < 0x80 :=
    fun hhi hb => Nat.lt_of_le_of_lt (UInt8.le_iff_toNat_le.1 hb) hhi
  unfold hexValue at h
  split at h
  · next hb => exact hbelow (by decide) hb.2
  · split at h
    · next hb => exact hbelow (by decide) hb.2
    · split at h
      · next hb => exact hbelow (by decide) hb.2
      · cases h

/-- **Only a hexadecimal digit** has hexadecimal digits for its lower case. -/
theorem isHexDigit_of_lower {c : Char}
    (h : ∀ b ∈ String.utf8EncodeChar (Unicode.toLower c), (hexValue b).isSome) :
    isHexDigit c := by
  have hsize := Runes.ascii_of_bytes fun b hb => hexValue_ascii (h b hb)
  rw [String.utf8EncodeChar_eq_singleton hsize, List.forall_mem_singleton] at h
  have hlower : (Unicode.toLower c).toNat < 0x80 :=
    Nat.lt_succ_of_le (UInt32.le_iff_toNat_le.1 (Char.utf8Size_eq_one_iff.1 hsize))
  rcases Unicode.ascii_of_toLower hlower with hc | hi | hk
  · revert h
    refine forall_ascii hc ?_
    decide +kernel
  · rw [hi] at h
    cases h
  · rw [hk] at h
    cases h

theorem decodeString_isSome {s : Bytes} :
    (decodeString s).isSome ↔ s.length % 2 = 0 ∧ ∀ b ∈ s, (hexValue b).isSome := by
  fun_induction decodeString s with
  | case1 => simp
  | case2 b => simp
  | case3 p q src a b dst hsrc hq hp ih =>
    rw [hsrc] at ih
    obtain ⟨hlen, hdigits⟩ := ih.1 rfl
    simp only [List.forall_mem_cons, hp, hq, List.length_cons, Option.isSome_some, true_iff,
      true_and]
    exact ⟨by omega, hdigits⟩
  | case4 p q src hnot ih =>
    simp only [Option.isSome_none, Bool.false_eq_true, false_iff, List.forall_mem_cons]
    rintro ⟨hlen, hp, hq, hsrc⟩
    obtain ⟨a, ha⟩ := Option.isSome_iff_exists.1 hp
    obtain ⟨b, hb⟩ := Option.isSome_iff_exists.1 hq
    obtain ⟨dst, hdst⟩ := Option.isSome_iff_exists.1 <|
      ih.2 ⟨by rw [List.length_cons, List.length_cons] at hlen; omega, hsrc⟩
    exact hnot a b dst ha hb hdst

/-! ## What is accepted -/

theorem normalizeHash_cases (value : Bytes) :
    normalizeHash value = .error .invalidHash ∨ ∃ hash, normalizeHash value = .ok hash := by
  unfold normalizeHash
  dsimp only
  split
  · exact .inl rfl
  · split
    · exact .inl rfl
    · exact .inr ⟨_, rfl⟩

theorem normalizeHash_ok {value hash : Bytes} :
    normalizeHash value = .ok hash ↔
      toLower (trimSpace value) = hash ∧ hash.length = 64 ∧
        ∀ b ∈ hash, (hexValue b).isSome := by
  unfold normalizeHash
  dsimp only
  by_cases hlen : (toLower (trimSpace value)).length = 64
  · rw [if_neg (not_not_intro hlen)]
    cases hdecode : decodeString (toLower (trimSpace value)) with
    | none =>
      refine ⟨fun h => (by cases h), ?_⟩
      rintro ⟨rfl, -, hdigits⟩
      have hsome := decodeString_isSome.2 ⟨by rw [hlen], hdigits⟩
      rw [hdecode] at hsome
      cases hsome
    | some dst =>
      have hdigits := (decodeString_isSome.1 (Option.isSome_of_eq_some hdecode)).2
      refine ⟨fun h => ?_, fun h => congrArg Except.ok h.1⟩
      cases h
      exact ⟨rfl, hlen, hdigits⟩
  · rw [if_pos hlen]
    refine ⟨fun h => (by cases h), ?_⟩
    rintro ⟨rfl, h64, -⟩
    exact absurd h64 hlen

theorem lowered_digits {digits : List Char} (h : ∀ c ∈ digits, isHexDigit c) :
    ∀ c ∈ digits.map Char.toLower, isHexDigit c := by
  intro c hc
  obtain ⟨d, hd, rfl⟩ := List.mem_map.1 hc
  exact (isHexDigit_lower (h d hd)).digit

theorem toLower_digits {digits : List Char} (h : ∀ c ∈ digits, isHexDigit c) :
    toLower (Runes.encode digits) = Runes.encode (digits.map Char.toLower) := by
  rw [toLower, Runes.mapRunes_encode,
    List.map_congr_left fun c hc => (isHexDigit_lower (h c hc)).lower]

theorem encode_digits {digits : List Char} (h : ∀ c ∈ digits, isHexDigit c) :
    Runes.encode (digits.map Char.toLower) = digits.map fun c => c.toLower.toUInt8 := by
  rw [Runes.encode_ascii fun c hc => isHexDigit_size (lowered_digits h c hc), List.map_map]
  rfl

theorem hexValue_digits {digits : List Char} (h : ∀ c ∈ digits, isHexDigit c) :
    ∀ b ∈ Runes.encode (digits.map Char.toLower), (hexValue b).isSome := by
  rw [encode_digits h]
  intro b hb
  obtain ⟨c, hc, rfl⟩ := List.mem_map.1 hb
  exact (isHexDigit_lower (h c hc)).value

theorem exists_digits {s : Bytes} (h : ∀ b ∈ toLower s, (hexValue b).isSome) :
    ∃ digits : List Char, s = Runes.encode digits ∧ ∀ c ∈ digits, isHexDigit c := by
  have hrunes : ∀ r ∈ Runes.runes s, isHexDigit r.value := fun r hr =>
    isHexDigit_of_lower fun b hb => h b (List.mem_flatMap.2 ⟨r, hr, hb⟩)
  refine ⟨(Runes.runes s).map Runes.Rune.value, ?_, List.forall_mem_map.2 hrunes⟩
  rw [← Runes.bytes_text (by decide) hrunes, Runes.bytes_runes]

/-- **What `normalizeHash` accepts.** -/
theorem normalizeHash_iff {value hash : Bytes} :
    normalizeHash value = .ok hash ↔ Spells value hash := by
  rw [normalizeHash_ok]
  constructor
  · rintro ⟨rfl, hlen, hhex⟩
    obtain ⟨pre, post, hpre, hpost, hvalue⟩ := Runes.trimFunc_split isSpace value
    obtain ⟨digits, htext, hdigits⟩ := exists_digits hhex
    refine ⟨pre.map Runes.Rune.value, digits, post.map Runes.Rune.value,
      List.forall_mem_map.2 hpre, List.forall_mem_map.2 hpost, ?_, hdigits, ?_, ?_⟩
    · rw [← hlen, htext, toLower_digits hdigits, encode_digits hdigits, List.length_map]
    · rw [Runes.encode_append, Runes.encode_append, ← htext, ← Runes.bytes_text (by decide) hpre,
        ← Runes.bytes_text (by decide) hpost]
      exact hvalue
    · rw [htext, toLower_digits hdigits]
  · rintro ⟨pre, digits, post, hpre, hpost, hlen, hdigits, rfl, rfl⟩
    have htrim : trimSpace (Runes.encode (pre ++ digits ++ post)) = Runes.encode digits :=
      Runes.trimFunc_between hpre (fun c hc => (isHexDigit_lower (hdigits c hc)).kept) hpost
    refine ⟨by rw [htrim, toLower_digits hdigits], ?_, hexValue_digits hdigits⟩
    rw [encode_digits hdigits, List.length_map, hlen]

/-! ## Hashes -/

theorem Spells.isHash {value hash : Bytes} (h : Spells value hash) : IsHash hash := by
  obtain ⟨_, digits, _, _, _, hlen, hdigits, _, rfl⟩ := h
  rw [encode_digits hdigits]
  refine ⟨by rw [List.length_map, hlen], fun b hb => ?_⟩
  obtain ⟨c, hc, rfl⟩ := List.mem_map.1 hb
  exact (isHexDigit_lower (hdigits c hc)).byte

theorem Spells.self {value hash : Bytes} (h : Spells value hash) : Spells hash hash := by
  obtain ⟨_, digits, _, _, _, hlen, hdigits, _, rfl⟩ := h
  refine ⟨[], digits.map Char.toLower, [], by simp, by simp, ?_, lowered_digits hdigits, ?_, ?_⟩
  · rw [List.length_map, hlen]
  · rw [List.nil_append, List.append_nil]
  · rw [List.map_map]
    exact congrArg Runes.encode <|
      List.map_congr_left fun c hc => (isHexDigit_lower (hdigits c hc)).idem.symm

theorem normalizeHash_normal {value hash : Bytes} (h : normalizeHash value = .ok hash) :
    normalizeHash hash = .ok hash :=
  normalizeHash_iff.2 (normalizeHash_iff.1 h).self

/-- The names of a chunk's file below the chunk root. -/
def chunkNames (hash : Bytes) : List Bytes :=
  [hash.take 2, (hash.take 4).drop 2, hash ++ bytes ".bin"]

theorem IsHash.not_mem {hash : Bytes} (h : IsHash hash) : slash ∉ hash ∧ dot ∉ hash :=
  ⟨fun hs => absurd (h.digits _ hs) (by decide), fun hd => absurd (h.digits _ hd) (by decide)⟩

theorem IsHash.plain_part {hash part : Bytes} (h : IsHash hash) (hpart : part ⊆ hash)
    (hne : part ≠ []) : Plain part where
  ne_nil := hne
  ne_dot hd := h.not_mem.2 (hpart (hd ▸ List.mem_singleton_self dot))
  ne_dotdot hd := h.not_mem.2 (hpart (hd ▸ List.mem_cons_self))
  no_slash hs := h.not_mem.1 (hpart hs)

theorem IsHash.plain_file {hash : Bytes} (h : IsHash hash) : Plain (hash ++ bytes ".bin") := by
  have hlen : (hash ++ bytes ".bin").length = 68 := by
    rw [List.length_append, h.length]
    rfl
  have hne : ∀ other : Bytes, other.length ≠ 68 → hash ++ bytes ".bin" ≠ other :=
    fun _ hother hsame => hother (hsame ▸ hlen)
  refine ⟨hne _ (by decide), hne _ (by decide), hne _ (by decide), fun hs => ?_⟩
  exact (List.mem_append.1 hs).elim h.not_mem.1 (by decide)

/-- **No dot segment and no separator** in the names made of a hash. -/
theorem IsHash.plain {hash : Bytes} (h : IsHash hash) : ∀ name ∈ chunkNames hash, Plain name := by
  have hlen := h.length
  have htake : hash.take 2 ≠ [] := fun hn => by simpa [hlen] using congrArg List.length hn
  have hdrop : (hash.take 4).drop 2 ≠ [] := fun hn => by
    simpa [hlen] using congrArg List.length hn
  intro name hname
  simp only [chunkNames, List.mem_cons, List.not_mem_nil, or_false] at hname
  rcases hname with rfl | rfl | rfl
  · exact h.plain_part (List.take_subset 2 hash) htake
  · exact h.plain_part (fun _ hb => List.mem_of_mem_take (List.mem_of_mem_drop hb)) hdrop
  · exact h.plain_file

theorem chunkNames_ne_nil (hash : Bytes) : chunkNames hash ≠ [] := List.cons_ne_nil _ _

theorem chunkNames_injective : Function.Injective chunkNames := by
  intro a b h
  simp only [chunkNames, List.cons.injEq, and_true] at h
  exact List.append_cancel_right h.2.2

theorem clean_chunks : clean (bytes "chunks") = bytes "chunks" := by decide +kernel

theorem chunkPaths_ok {value hash : Bytes} (chunkRoot : Bytes)
    (h : normalizeHash value = .ok hash) :
    chunkPaths chunkRoot value = .ok (under (bytes "chunks") (chunkNames hash),
      under (clean chunkRoot) (chunkNames hash)) := by
  have hhash := (normalizeHash_iff.1 h).isHash
  have hjoin : join [hash.take 2, (hash.take 4).drop 2, hash ++ bytes ".bin"] =
      joined (chunkNames hash) := join_names hhash.plain (chunkNames_ne_nil hash)
  rw [chunkPaths, h]
  dsimp only
  rw [if_neg (by rw [hhash.length]; decide), hjoin,
    join_below hhash.plain (chunkNames_ne_nil hash),
    join_below hhash.plain (chunkNames_ne_nil hash), clean_chunks]

theorem chunkPaths_error {value : Bytes} {e : Error} (chunkRoot : Bytes)
    (h : normalizeHash value = .error e) : chunkPaths chunkRoot value = .error e := by
  rw [chunkPaths, h]

/-- The walk comes to a chunk's file by the path `chunkPaths` gives. -/
theorem walkedPath_chunkNames {hash : Bytes} (h : IsHash hash) (chunkRoot : Bytes) :
    walkedPath chunkRoot (chunkNames hash) = under (clean chunkRoot) (chunkNames hash) :=
  foldl_join h.plain (chunkNames_ne_nil hash) chunkRoot

/-- **One path for one hash**, below any directory. -/
theorem chunkNames_inj {v w a b : Bytes} (ha : normalizeHash v = .ok a)
    (hb : normalizeHash w = .ok b) (root : Bytes) :
    under (clean root) (chunkNames a) = under (clean root) (chunkNames b) ↔
      normalizeHash v = normalizeHash w := by
  rw [ha, hb, Except.ok.injEq]
  refine ⟨fun heq => chunkNames_injective ?_, fun heq => by rw [heq]⟩
  exact under_inj (normalizeHash_iff.1 ha).isHash.plain (chunkNames_ne_nil a) root
    (normalizeHash_iff.1 hb).isHash.plain (chunkNames_ne_nil b) heq

theorem ext_bin {name : Bytes} : ext name = bytes ".bin" ↔ bytes ".bin" <:+ name := by
  rw [show bytes ".bin" = dot :: [98, 105, 110] by decide]
  exact ext_eq_iff (by decide) (by decide)

/-- The walk reads from a name what `normalizeHash` makes of it without `.bin`. -/
theorem walkedHash_append (stem : Bytes) :
    walkedHash (stem ++ bytes ".bin") = (normalizeHash stem).toOption := by
  have hext : ext (stem ++ bytes ".bin") = bytes ".bin" := ext_bin.2 (List.suffix_append _ _)
  have hstem : trimSuffix (stem ++ bytes ".bin") (bytes ".bin") = stem := by
    rw [trimSuffix, if_pos (List.suffix_append _ _), List.length_append, Nat.add_sub_cancel,
      List.take_left]
  rw [walkedHash, if_neg (not_not_intro hext), hstem]

/-! ## The whole -/

/-- **Chunk paths are confined to the chunk root.** -/
theorem chunk_paths_confined (chunkRoot : Bytes) :
    (∀ value, normalizeHash value = .error .invalidHash ∧
        chunkPaths chunkRoot value = .error .invalidHash ∨
      ∃ hash, normalizeHash value = .ok hash ∧ IsHash hash ∧
        (∀ name ∈ chunkNames hash, Plain name) ∧
        chunkPaths chunkRoot value = .ok (under (bytes "chunks") (chunkNames hash),
          under (clean chunkRoot) (chunkNames hash)) ∧
        walkedPath chunkRoot (chunkNames hash) = under (clean chunkRoot) (chunkNames hash) ∧
        walkedHash (hash ++ bytes ".bin") = some hash) ∧
    (∀ value, (normalizeHash value).bind normalizeHash = normalizeHash value) ∧
    ∀ v w p q, chunkPaths chunkRoot v = .ok p → chunkPaths chunkRoot w = .ok q →
      (p.1 = q.1 ↔ normalizeHash v = normalizeHash w) ∧
      (p.2 = q.2 ↔ normalizeHash v = normalizeHash w) := by
  refine ⟨fun value => ?_, fun value => ?_, fun v w p q hp hq => ?_⟩
  · rcases normalizeHash_cases value with herror | ⟨hash, hok⟩
    · exact .inl ⟨herror, chunkPaths_error chunkRoot herror⟩
    · have hhash := (normalizeHash_iff.1 hok).isHash
      refine .inr ⟨hash, hok, hhash, hhash.plain, chunkPaths_ok chunkRoot hok,
        walkedPath_chunkNames hhash chunkRoot, ?_⟩
      rw [walkedHash_append, normalizeHash_normal hok]
      rfl
  · rcases normalizeHash_cases value with herror | ⟨hash, hok⟩
    · rw [herror]
      rfl
    · rw [hok, Except.bind, normalizeHash_normal hok]
  · rcases normalizeHash_cases v with herror | ⟨a, ha⟩
    · rw [chunkPaths_error chunkRoot herror] at hp
      cases hp
    rcases normalizeHash_cases w with herror | ⟨b, hb⟩
    · rw [chunkPaths_error chunkRoot herror] at hq
      cases hq
    rw [chunkPaths_ok chunkRoot ha] at hp
    rw [chunkPaths_ok chunkRoot hb] at hq
    cases hp
    cases hq
    refine ⟨?_, chunkNames_inj ha hb chunkRoot⟩
    rw [← clean_chunks]
    exact chunkNames_inj ha hb (bytes "chunks")

def spelling : Bytes := Runes.encode (' ' :: List.replicate 64 'A' ++ ['\n'])
def normal : Bytes := Runes.encode (List.replicate 64 'a')

theorem chunk_paths_confined_sample :
    ∃ p, chunkPaths (bytes "../data/") spelling = .ok p ∧
      chunkPaths (bytes "../data/") normal = .ok p ∧
      normalizeHash spelling = normalizeHash normal := by
  have hspelling : Spells spelling normal := by
    refine ⟨[' '], List.replicate 64 'A', ['\n'], ?_, ?_, List.length_replicate, ?_, rfl, ?_⟩
    · exact List.forall_mem_singleton.2 rfl
    · exact List.forall_mem_singleton.2 rfl
    · intro c hc
      rw [List.eq_of_mem_replicate hc]
      rfl
    · rw [List.map_replicate]
      rfl
  have hnormal : Spells normal normal := hspelling.self
  have hp := chunkPaths_ok (bytes "../data/") (normalizeHash_iff.2 hspelling)
  have hq := chunkPaths_ok (bytes "../data/") (normalizeHash_iff.2 hnormal)
  exact ⟨_, hp, hq,
    ((chunk_paths_confined (bytes "../data/")).2.2 spelling normal _ _ hp hq).2.1 rfl⟩

end HashBox.Vault.Paths
