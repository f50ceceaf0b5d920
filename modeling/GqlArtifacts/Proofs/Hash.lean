import GqlArtifacts.Hash
import GqlArtifacts.Proofs.Text.Bytes

/-!
# Text forms of hashes

`ofHex?_eq_some_iff`: what reads as a hash is the text form of that hash, so hashes with one text are
equal. `compare_toHex` says that the order of hashes is the order of their texts. Text forms all have
one length, so a text that starts with one, or is made of several, tells which (`toHex_append_inj`,
`join_toHex_inj`). A hash tells the two words that it is made of (`ofWords_injective`).
-/

namespace GqlArtifacts.ContentHash

theorem hexValue?_hexDigit : ∀ n < 16, hexValue? (hexDigit n) = some n := by decide

theorem hexDigit_lt_hexDigit : ∀ n < 16, ∀ m < n, hexDigit m < hexDigit n := by decide

theorem readBytes_flatMap_hexByte (bs : List UInt8) :
    readBytes (bs.flatMap hexByte) = some bs := by
  induction bs with
  | nil => rfl
  | cons b bs ih =>
    have hb := b.toNat_lt
    have hhi := hexValue?_hexDigit (b.toNat / 16) (by omega)
    have hlo := hexValue?_hexDigit (b.toNat % 16) (by omega)
    have hsum : 16 * (b.toNat / 16) + b.toNat % 16 = b.toNat := Nat.div_add_mod ..
    simp only [List.flatMap_cons, hexByte, List.cons_append, List.nil_append, readBytes, hhi, hlo,
      ih, Option.bind_eq_bind, Option.bind_some, Option.pure_def, hsum, UInt8.ofNat_toNat]

/-- The text form of a hash reads back as the hash. -/
theorem ofHex?_toHex (h : ContentHash) : ofHex? h.toHex = some h := by
  obtain ⟨⟨⟨bs⟩, hbs⟩⟩ := h
  have hsize : bs.length = 16 := hbs
  simp [ofHex?, toHex, Vector.toList, readBytes_flatMap_hexByte, hsize]

/-- A digit is the digit of its value. -/
theorem hexDigit_of_hexValue? {c : Char} {n : Nat} (h : hexValue? c = some n) :
    n < 16 ∧ hexDigit n = c := by
  unfold hexValue? at h
  split at h
  · next hc =>
    obtain ⟨hlo, hhi⟩ : 48 ≤ c.toNat ∧ c.toNat ≤ 57 := hc
    cases h
    refine ⟨by omega, ?_⟩
    rw [hexDigit, if_pos (by omega), Nat.add_sub_cancel' hlo, Char.ofNat_toNat]
  · split at h
    · next hc =>
      obtain ⟨hlo, hhi⟩ : 97 ≤ c.toNat ∧ c.toNat ≤ 102 := hc
      cases h
      refine ⟨by omega, ?_⟩
      rw [hexDigit, if_neg (by omega), Nat.add_sub_cancel' (by omega), Char.ofNat_toNat]
    · cases h

theorem flatMap_hexByte_of_readBytes {cs : List Char} {bs : List UInt8}
    (h : readBytes cs = some bs) : bs.flatMap hexByte = cs := by
  fun_induction readBytes cs generalizing bs with
  | case1 => cases h; rfl
  | case2 a b rest ih =>
    simp only [Option.bind_eq_bind, Option.bind_eq_some_iff] at h
    obtain ⟨hi, hhi, lo, hlo, bytes, hbytes, h⟩ := h
    cases h
    obtain ⟨hhi', rfl⟩ := hexDigit_of_hexValue? hhi
    obtain ⟨hlo', rfl⟩ := hexDigit_of_hexValue? hlo
    have hvalue : (UInt8.ofNat (16 * hi + lo)).toNat = 16 * hi + lo :=
      Nat.mod_eq_of_lt (show 16 * hi + lo < 256 by omega)
    have hdiv : (16 * hi + lo) / 16 = hi := by omega
    have hmod : (16 * hi + lo) % 16 = lo := by omega
    rw [List.flatMap_cons, hexByte, hvalue, hdiv, hmod, ih hbytes]
    rfl
  | case3 => cases h

/-- What reads as a hash is its text form. -/
theorem ofHex?_eq_some_iff {s : String} {h : ContentHash} : ofHex? s = some h ↔ s = h.toHex := by
  constructor
  · intro hs
    obtain ⟨bytes, hbytes, hsize⟩ := Option.bind_eq_some_iff.1 hs
    split at hsize
    · cases hsize
      exact String.toList_inj.1 (by
        rw [toHex, String.toList_ofList, ← Text.chars_eq]
        exact (flatMap_hexByte_of_readBytes hbytes).symm)
    · cases hsize
  · rintro rfl
    exact ofHex?_toHex h

theorem toHex_injective {a b : ContentHash} (h : a.toHex = b.toHex) : a = b :=
  Option.some.inj ((ofHex?_toHex a).symm.trans ((congrArg ofHex? h).trans (ofHex?_toHex b)))

theorem slash_ne_hexDigit : ∀ n < 16, '/' ≠ hexDigit n := by decide

theorem slash_not_mem_toHex (h : ContentHash) : '/' ∉ h.toHex.toList := by
  simp only [toHex, String.toList_ofList, List.mem_flatMap, hexByte, List.mem_cons,
    List.not_mem_nil, or_false, not_exists, not_and, not_or]
  intro b _
  exact ⟨slash_ne_hexDigit _ (by have := b.toNat_lt; omega), slash_ne_hexDigit _ (by omega)⟩

theorem length_toHex (h : ContentHash) : h.toHex.toList.length = 32 := by
  simp [toHex, List.length_flatMap, hexByte]

theorem hexByte_lt {a b : UInt8} (h : a < b) (x y : List Char) :
    hexByte a ++ x < hexByte b ++ y := by
  have ha := a.toNat_lt
  have hb := b.toNat_lt
  have hlt : a.toNat < b.toNat := h
  rw [hexByte, hexByte, List.cons_append, List.cons_append, List.cons_append, List.cons_append,
    List.cons_lt_cons_iff, List.cons_lt_cons_iff]
  rcases Nat.lt_or_ge (a.toNat / 16) (b.toNat / 16) with hhi | hhi
  · exact .inl (hexDigit_lt_hexDigit _ (by omega) _ hhi)
  · have heq : a.toNat / 16 = b.toNat / 16 := by omega
    exact .inr ⟨by rw [heq], .inl (hexDigit_lt_hexDigit _ (by omega) _ (by omega))⟩

theorem flatMap_hexByte_lt {as bs : List UInt8} (h : compare as bs = .lt) :
    as.flatMap hexByte < bs.flatMap hexByte := by
  induction as generalizing bs with
  | nil =>
    cases bs with
    | nil => cases h
    | cons b bs => exact List.nil_lt_cons _ _
  | cons a as ih =>
    cases bs with
    | nil => cases h
    | cons b bs =>
      have h' : (compare a b).then (compare as bs) = .lt := List.compareLex_cons_cons.symm.trans h
      rcases Ordering.then_eq_lt.1 h' with hlt | ⟨heq, hlt⟩
      · exact hexByte_lt (Std.compare_eq_lt.1 hlt) _ _
      · obtain rfl := Std.LawfulEqCmp.eq_of_compare heq
        simpa [List.flatMap_cons, hexByte, List.cons_lt_cons_iff] using ih hlt

theorem compare_toHex {a b : ContentHash} (h : ContentHash.compare a b = .lt) :
    compare a.toHex b.toHex = .lt := by
  have hlt : a.toHex < b.toHex := by
    rw [String.lt_iff, toHex, toHex, String.toList_ofList, String.toList_ofList]
    exact flatMap_hexByte_lt h
  exact compareOfLessAndEq_eq_lt.2 hlt

instance : Std.LawfulEqCmp ContentHash.compare where
  eq_of_compare {a b} h := by
    have hl : a.bytes.toList = b.bytes.toList := Std.LawfulEqOrd.eq_of_compare h
    cases a; cases b
    simpa [Vector.toList_inj] using hl
  compare_self := Std.ReflCmp.compare_self

/-! ### Texts made of text forms -/

theorem toHex_append_inj {a b : ContentHash} {s s' : String} (h : a.toHex ++ s = b.toHex ++ s') :
    a = b ∧ s = s' := by
  have hchars := congrArg String.toList h
  rw [String.toList_append, String.toList_append] at hchars
  obtain ⟨hhex, hrest⟩ := List.append_inj hchars (by rw [length_toHex, length_toHex])
  exact ⟨toHex_injective (String.toList_inj.1 hhex), String.toList_inj.1 hrest⟩

theorem join_toHex_inj {as bs : List ContentHash}
    (h : String.join (as.map toHex) = String.join (bs.map toHex)) : as = bs := by
  have hne : ∀ (b : ContentHash) (s : String), b.toHex ++ s ≠ "" := by
    intro b s heq
    have hlen := congrArg (fun s => s.toList.length) heq
    simp [String.toList_append, length_toHex] at hlen
  induction as generalizing bs with
  | nil =>
    cases bs with
    | nil => rfl
    | cons b bs =>
      rw [List.map_cons, String.join_cons] at h
      exact absurd h.symm (hne b _)
  | cons a as ih =>
    cases bs with
    | nil =>
      rw [List.map_cons, String.join_cons] at h
      exact absurd h (hne a _)
    | cons b bs =>
      rw [List.map_cons, List.map_cons, String.join_cons, String.join_cons] at h
      obtain ⟨rfl, hrest⟩ := toHex_append_inj h
      rw [ih hrest]

/-! ### Words -/

theorem testBit_wordByte (w : UInt64) {k j : Nat} (hk : k < 8) (hj : j < 8) :
    (wordByte w k).toNat.testBit j = w.toNat.testBit (8 * k + j) := by
  have hshift : (UInt64.ofNat (8 * k)).toNat % 64 = 8 * k := by
    rw [UInt64.toNat_ofNat']; omega
  rw [wordByte, UInt64.toNat_toUInt8, UInt64.toNat_shiftRight, hshift, Nat.testBit_mod_two_pow,
    Nat.testBit_shiftRight]
  simp [hj]

theorem eq_of_wordByte {w w' : UInt64} (h : ∀ k < 8, wordByte w k = wordByte w' k) : w = w' := by
  refine UInt64.toNat.inj (Nat.eq_of_testBit_eq fun i => ?_)
  by_cases hi : i < 64
  · have hbit := congrArg (fun b => b.toNat.testBit (i % 8)) (h (i / 8) (by omega))
    rwa [testBit_wordByte w (by omega) (by omega), testBit_wordByte w' (by omega) (by omega),
      Nat.div_add_mod] at hbit
  · have hpow : (2 : Nat) ^ 64 ≤ 2 ^ i := Nat.pow_le_pow_right (by decide) (by omega)
    rw [Nat.testBit_lt_two_pow (Nat.lt_of_lt_of_le w.toNat_lt hpow),
      Nat.testBit_lt_two_pow (Nat.lt_of_lt_of_le w'.toNat_lt hpow)]

theorem ofWords_injective {w w' : Xxh3.Words} (h : ofWords w = ofWords w') : w = w' := by
  obtain ⟨low, high⟩ := w
  obtain ⟨low', high'⟩ := w'
  have hbyte : ∀ i, (hi : i < 16) → (if i < 8 then wordByte low i else wordByte high (i - 8)) =
      if i < 8 then wordByte low' i else wordByte high' (i - 8) := by
    intro i hi
    have hget := congrArg (fun h : ContentHash => h.bytes[i]) h
    simpa [ofWords] using hget
  congr 1
  · refine eq_of_wordByte fun k hk => ?_
    have hk' := hbyte k (by omega)
    rwa [if_pos hk, if_pos hk] at hk'
  · refine eq_of_wordByte fun k hk => ?_
    have hk' := hbyte (k + 8) (by omega)
    rwa [if_neg (by omega), if_neg (by omega), Nat.add_sub_cancel] at hk'

end GqlArtifacts.ContentHash
