import HashBox.Vault.Proof.Paths

/-!
# Names and paths of texts

On the bytes of a text `normalizeHash`, `chunkPaths` and the walk do what their models on texts do
(`normalizeHash_text`, `chunkPaths_text`, `walkedHash_text`). A string they accept is a digest's, so
that every path the program makes for a chunk is the one of `chunkPath` (`chunkPaths_hash`).
-/

namespace HashBox.Vault.Paths

open FilePath

/-! ## Hashes -/

theorem trimSpace_text (s : String) : trimSpace (bytes s) = bytes (Vault.trimSpace s) := by
  rw [trimSpace, bytes, Runes.trimFunc_encode, bytes, Vault.trimSpace, String.toList_ofList]
  rfl

theorem isHexDigit_of_toLower {c : Char} (h : isHexDigit c.toLower) : isHexDigit c := by
  by_cases hc : c.toNat < 0x80
  · revert h
    refine forall_ascii hc ?_
    decide +kernel
  · have hsame : c.toLower = c := by
      refine dif_neg fun hupper => hc ?_
      exact Nat.lt_of_le_of_lt (UInt32.le_iff_toNat_le.1 hupper.2) (by decide)
    rwa [hsame] at h

theorem digits_of_toLower {s : String} (h : ∀ c ∈ (Vault.toLower s).toList, isHexDigit c) :
    ∀ c ∈ s.toList, isHexDigit c := by
  rw [Vault.toLower, String.toList_ofList] at h
  exact fun c hc => isHexDigit_of_toLower (h _ (List.mem_map_of_mem hc))

theorem toLower_text {s : String} (h : ∀ c ∈ s.toList, isHexDigit c) :
    toLower (bytes s) = bytes (Vault.toLower s) ∧
      (toLower (bytes s)).length = len (Vault.toLower s) := by
  have hlower : toLower (bytes s) = Runes.encode (s.toList.map Char.toLower) := toLower_digits h
  refine ⟨by rw [hlower, bytes, Vault.toLower, String.toList_ofList], ?_⟩
  rw [hlower, encode_digits h, Vault.toLower, List.length_map,
    len_ascii fun c hc => isHexDigit_size (lowered_digits h c hc), List.length_map]

/-- **On texts** `normalizeHash` is its model. -/
theorem normalizeHash_text (s : String) :
    normalizeHash (bytes s) = (Vault.normalizeHash s).map bytes := by
  have haccept : ∀ {t}, Vault.normalizeHash s = .ok t →
      normalizeHash (bytes s) = .ok (bytes t) := by
    intro t h
    obtain ⟨rfl, hlen, hdigits⟩ := Vault.normalizeHash_ok.1 h
    have hall := digits_of_toLower hdigits
    obtain ⟨hlower, hsize⟩ := toLower_text hall
    rw [normalizeHash_ok, trimSpace_text]
    refine ⟨hlower, by rw [← hlower, hsize, hlen], ?_⟩
    rw [bytes, Vault.toLower, String.toList_ofList]
    exact hexValue_digits hall
  have hreject : ∀ {hash}, normalizeHash (bytes s) = .ok hash →
      ∃ t, Vault.normalizeHash s = .ok t := by
    intro hash h
    obtain ⟨rfl, hlen, hhex⟩ := normalizeHash_ok.1 h
    rw [trimSpace_text] at hlen hhex
    obtain ⟨digits, htext, hdigits⟩ := exists_digits hhex
    obtain rfl := Runes.encode_injective htext
    refine ⟨_, Vault.normalizeHash_ok.2 ⟨rfl, by rw [← (toLower_text hdigits).2, hlen], ?_⟩⟩
    rw [Vault.toLower, String.toList_ofList]
    exact lowered_digits hdigits
  rcases Vault.normalizeHash_cases s with herror | ⟨t, hok⟩
  · rcases normalizeHash_cases (bytes s) with herror' | ⟨hash, hok⟩
    · rw [herror, herror']
      rfl
    · obtain ⟨t, ht⟩ := hreject hok
      rw [herror] at ht
      cases ht
  · rw [haccept hok, hok]
    rfl

/-! ## Digests -/

theorem bytes_hex (d : Hash) : bytes (hex d) = (hexDigits 64 d.toNat).map Char.toUInt8 := by
  rw [bytes, hex, String.toList_ofList,
    Runes.encode_ascii fun c hc => (hexDigit_plain hc).2.2.1]

theorem exists_hexDigit {b : UInt8} (h : IsLowerHex b) : ∃ v < 16, (hexDigit v).toUInt8 = b := by
  have key : ∀ n < 256, IsLowerHex (UInt8.ofNat n) →
      ∃ v < 16, (hexDigit v).toUInt8 = UInt8.ofNat n := by decide +kernel
  have hb := key b.toNat b.toNat_lt
  rw [UInt8.ofNat_toNat] at hb
  exact hb h

theorem exists_hexDigits {bs : Bytes} (h : ∀ b ∈ bs, IsLowerHex b) :
    ∃ n < 16 ^ bs.length, (hexDigits bs.length n).map Char.toUInt8 = bs := by
  induction bs using List.reverseRecOn with
  | nil => exact ⟨0, by decide, rfl⟩
  | append_singleton bs b ih =>
    obtain ⟨n, hn, hbs⟩ := ih fun b hb => h b (List.mem_append_left _ hb)
    obtain ⟨v, hv, hb⟩ := exists_hexDigit (h b (by simp))
    refine ⟨n * 16 + v, ?_, ?_⟩
    · rw [List.length_append, List.length_singleton, Nat.pow_succ]
      omega
    · have hhigh : (n * 16 + v) / 16 = n := by omega
      have hlow : (n * 16 + v) % 16 = v := by omega
      rw [List.length_append, List.length_singleton, hexDigits, hhigh, hlow, List.map_append, hbs,
        List.map_singleton, hb]

/-- **A hash is the text of a digest.** -/
theorem exists_hex {hash : Bytes} (h : IsHash hash) : ∃ d : Hash, bytes (hex d) = hash := by
  obtain ⟨n, hn, hhash⟩ := exists_hexDigits h.digits
  rw [h.length] at hn hhash
  refine ⟨BitVec.ofNat 256 n, ?_⟩
  rw [bytes_hex, BitVec.toNat_ofNat, Nat.mod_eq_of_lt (by simpa using hn), hhash]

/-! ## Paths -/

theorem bytes_append (s t : String) : bytes (s ++ t) = bytes s ++ bytes t := by
  rw [bytes, String.toList_append, Runes.encode_append]
  rfl

theorem bytes_slice {s : String} (h : ∀ c ∈ s.toList, c.utf8Size = 1) (lo hi : Nat) :
    bytes (slice s lo hi) = ((bytes s).take hi).drop lo := by
  have hslice : ∀ c ∈ (s.toList.take hi).drop lo, c.utf8Size = 1 := fun c hc =>
    h c (List.mem_of_mem_take (List.mem_of_mem_drop hc))
  rw [bytes, slice, String.toList_ofList, Runes.encode_ascii hslice, bytes, Runes.encode_ascii h,
    List.map_drop, List.map_take]

theorem chunkNames_text {s : String} (h : ∀ c ∈ s.toList, c.utf8Size = 1) :
    chunkNames (bytes s) = [slice s 0 2, slice s 2 4, s ++ ".bin"].map bytes := by
  rw [List.map_cons, List.map_cons, List.map_singleton, bytes_slice h, bytes_slice h, bytes_append,
    List.drop_zero]
  rfl

/-- **On texts** `chunkPaths` makes the paths of its model below the two roots. -/
theorem chunkPaths_text (chunkRoot : Bytes) (s : String) :
    chunkPaths chunkRoot (bytes s) = (Vault.chunkPaths s).map fun path =>
      (under (bytes "chunks") (path.map bytes), under (clean chunkRoot) (path.map bytes)) := by
  have htext := normalizeHash_text s
  rcases Vault.normalizeHash_cases s with herror | ⟨t, hok⟩
  · rw [herror] at htext
    rw [chunkPaths_error chunkRoot htext]
    unfold Vault.chunkPaths
    rw [herror]
    rfl
  · rw [hok] at htext
    obtain ⟨-, hlen, hdigits⟩ := Vault.normalizeHash_ok.1 hok
    have hascii : ∀ c ∈ t.toList, c.utf8Size = 1 := fun c hc => isHexDigit_size (hdigits c hc)
    rw [chunkPaths_ok chunkRoot htext]
    unfold Vault.chunkPaths
    rw [hok]
    dsimp only
    rw [if_neg (by rw [hlen]; decide), chunkNames_text hascii]
    rfl

/-- **Every chunk path is a digest's.** -/
theorem chunkPaths_hash {chunkRoot value : Bytes} {paths : Bytes × Bytes}
    (h : chunkPaths chunkRoot value = .ok paths) :
    ∃ d : Hash, normalizeHash value = .ok (bytes (hex d)) ∧
      paths.2 = under (clean chunkRoot) ((chunkPath d).map bytes) := by
  rcases normalizeHash_cases value with herror | ⟨hash, hok⟩
  · rw [chunkPaths_error chunkRoot herror] at h
    cases h
  · obtain ⟨d, rfl⟩ := exists_hex (normalizeHash_iff.1 hok).isHash
    rw [chunkPaths_ok chunkRoot hok] at h
    obtain rfl := Except.ok.inj h
    refine ⟨d, hok, congrArg (under _) (chunkNames_text fun c hc => ?_)⟩
    rw [hex, String.toList_ofList] at hc
    exact (hexDigit_plain hc).2.2.1

/-! ## The walk -/

/-- **On texts** the walk reads what its model reads. -/
theorem walkedHash_text (name : String) :
    walkedHash (bytes name) = (Vault.walkedHash name).map bytes := by
  have hsplit : ∀ {front}, name.toList = front ++ ".bin".toList →
      walkedHash (bytes name) = (Vault.walkedHash name).map bytes := by
    intro front h
    have hname : name = String.ofList front ++ ".bin" :=
      String.toList_inj.1 (by simp [h])
    have hext : hasBinExt name = true := by
      rw [hasBinExt, h, List.isSuffixOf_iff_suffix]
      exact List.suffix_append _ _
    have hlen : name.toList.length - 4 = front.length := by
      rw [h, List.length_append]
      rfl
    rw [Vault.walkedHash, if_pos hext, hlen, h, List.take_left, hname, bytes_append,
      walkedHash_append, normalizeHash_text]
    cases Vault.normalizeHash (String.ofList front) <;> rfl
  by_cases hext : hasBinExt name = true
  · obtain ⟨front, hfront⟩ := List.isSuffixOf_iff_suffix.1 hext
    exact hsplit hfront.symm
  · by_cases hbytes : ext (bytes name) = bytes ".bin"
    · obtain ⟨stem, hstem⟩ := ext_bin.1 hbytes
      have hends : Runes.encode name.toList = stem ++ Runes.encode ".bin".toList := hstem.symm
      have hascii : ∀ c ∈ ".bin".toList, c.utf8Size = 1 :=
        List.forall_iff_forall_mem.1 ⟨rfl, rfl, rfl, rfl⟩
      obtain ⟨front, hfront, -⟩ := Runes.encode_suffix hascii hends
      exact hsplit hfront
    · rw [walkedHash, if_pos hbytes, Vault.walkedHash, if_neg hext]
      rfl

end HashBox.Vault.Paths
