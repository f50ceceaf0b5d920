import GqlArtifacts.Proofs.Manifest.RoundTrip
import GqlArtifacts.Proofs.Text.Bytes

/-!
# Hash texts as keys

A manifest is keyed by the texts of hashes. `HexText` says which texts these are, in characters or
in bytes (`hexText_iff_bytes`), and reading accepts them and no others (`exists_ofHex?_iff`). The
order of hashes is that of their texts (`compare_eq_lt_iff`), so rows stand in a manifest in the
order of the names that they are written under, and come back in it (`text_faithful`).
-/

namespace GqlArtifacts

namespace ContentHash

variable {a b h : ContentHash} {s : String} {c : Char} {cs : List Char}

/-- The digits of a text form. -/
def digits : List Char := "0123456789abcdef".toList

/-- A text of 32 lowercase hexadecimal digits. -/
def HexText (s : String) : Prop := s.toList.length = 32 ∧ ∀ c ∈ s.toList, c ∈ digits

instance (s : String) : Decidable (HexText s) := inferInstanceAs (Decidable (_ ∧ _))

/-! ### What reads as a hash -/

theorem hexDigit_mem : ∀ n < 16, hexDigit n ∈ digits := by decide

theorem exists_hexValue? : ∀ c ∈ digits, ∃ n, hexValue? c = some n := by
  have hsome : digits.all (fun c => (hexValue? c).isSome) = true := by decide
  exact fun c hc => Option.isSome_iff_exists.1 (List.all_eq_true.1 hsome c hc)

theorem hexText_toHex (h : ContentHash) : HexText h.toHex := by
  refine ⟨length_toHex h, fun c hc => ?_⟩
  simp only [toHex, String.toList_ofList, List.mem_flatMap, hexByte, List.mem_cons,
    List.not_mem_nil, or_false] at hc
  obtain ⟨b, -, rfl | rfl⟩ := hc
  · exact hexDigit_mem _ (by have := b.toNat_lt; omega)
  · exact hexDigit_mem _ (by omega)

/-- Digits in pairs are read. -/
theorem exists_readBytes {n : Nat} (hlength : cs.length = 2 * n) (hcs : ∀ c ∈ cs, c ∈ digits) :
    ∃ bs, readBytes cs = some bs ∧ bs.length = n := by
  induction n generalizing cs with
  | zero =>
    obtain rfl := List.length_eq_zero_iff.1 hlength
    exact ⟨[], rfl, rfl⟩
  | succ n ih =>
    match cs, hlength with
    | c :: d :: rest, hlength =>
      obtain ⟨hi, hhi⟩ := exists_hexValue? c (hcs c (by simp))
      obtain ⟨lo, hlo⟩ := exists_hexValue? d (hcs d (by simp))
      have hrest : rest.length = 2 * n := by
        simp only [List.length_cons] at hlength
        omega
      obtain ⟨bs, hbs, hn⟩ := ih hrest fun e he => hcs e (by simp [he])
      exact ⟨UInt8.ofNat (16 * hi + lo) :: bs, by simp [readBytes, hhi, hlo, hbs], by simp [hn]⟩

theorem exists_ofHex?_iff : (∃ h, ofHex? s = some h) ↔ HexText s := by
  constructor
  · rintro ⟨h, hs⟩
    rw [ofHex?_eq_some_iff.1 hs]
    exact hexText_toHex h
  · rintro ⟨hlength, hs⟩
    obtain ⟨bs, hbs, hn⟩ := exists_readBytes (n := 16) hlength hs
    have hsize : bs.toArray.size = 16 := hn
    exact ⟨⟨⟨bs.toArray, hsize⟩⟩, by simp [ofHex?, hbs, hn]⟩

/-- A hash is read from its own text only. -/
theorem parse_eq_ok_iff : parse s = .ok h ↔ s = h.toHex := by
  rw [← ofHex?_eq_some_iff, parse]
  cases ofHex? s <;> simp

theorem parse_eq_error_iff : parse s = .error ⟨s⟩ ↔ ¬HexText s := by
  rw [← exists_ofHex?_iff, parse]
  cases ofHex? s <;> simp

theorem toNat_lt_of_mem_digits (hc : c ∈ digits) : c.toNat < 0x80 := by
  have hall : digits.all (·.toNat < 0x80) = true := by decide
  exact of_decide_eq_true (List.all_eq_true.1 hall c hc)

theorem exists_digit {b : UInt8} (hb : b ∈ Text.bytes digits) :
    ∃ d ∈ digits, b = Text.byte d := by
  obtain ⟨d, hd, hb⟩ := List.mem_flatMap.1 hb
  have := toNat_lt_of_mem_digits hd
  rcases utf8EncodeChar_cases d with ⟨-, hone⟩ | ⟨hlarge, -⟩
  · exact ⟨d, hd, List.mem_singleton.1 (hone ▸ hb)⟩
  · omega

/-- A digit is one byte, and no other character has that byte. -/
theorem mem_digits_iff : c ∈ digits ↔ ∀ b ∈ String.utf8EncodeChar c, b ∈ Text.bytes digits := by
  constructor
  · intro hc b hb
    exact List.mem_flatMap.2 ⟨c, hc, hb⟩
  · intro hbytes
    rcases utf8EncodeChar_cases c with ⟨hc, hone⟩ | ⟨-, hlarge⟩
    · obtain ⟨d, hd, hbyte⟩ := exists_digit (hbytes (Text.byte c) (by simp [hone]))
      rwa [Text.byte_inj hc (toNat_lt_of_mem_digits hd) hbyte]
    · obtain ⟨b, hb⟩ := List.exists_mem_of_ne_nil _ (String.utf8EncodeChar_ne_nil (c := c))
      obtain ⟨d, hd, rfl⟩ := exists_digit (hbytes b hb)
      have hsmall := toNat_lt_of_mem_digits hd
      have := hlarge _ hb
      rw [Text.toNat_byte hsmall] at this
      omega

/-- It comes to the same whether characters or bytes are counted and tested. -/
theorem hexText_iff_bytes : HexText s ↔
    (Text.bytes s.toList).length = 32 ∧ ∀ b ∈ Text.bytes s.toList, b ∈ Text.bytes digits := by
  have hdigits : (∀ c ∈ s.toList, c ∈ digits) ↔
      ∀ b ∈ Text.bytes s.toList, b ∈ Text.bytes digits := by
    constructor
    · intro h b hb
      obtain ⟨c, hc, hb⟩ := List.mem_flatMap.1 hb
      exact mem_digits_iff.1 (h c hc) b hb
    · intro h c hc
      exact mem_digits_iff.2 fun b hb => h b (List.mem_flatMap.2 ⟨c, hc, hb⟩)
  rw [HexText, ← hdigits, and_congr_left_iff]
  intro hs
  rw [Text.length_bytes, Text.byteSize_of_ascii fun c hc => toNat_lt_of_mem_digits (hs c hc)]

/-! ### Order -/

/-- The order of hashes is that of their texts. -/
theorem compare_eq_lt_iff : ContentHash.compare a b = .lt ↔ a.toHex < b.toHex := by
  have hlt : ∀ {a b : ContentHash}, ContentHash.compare a b = .lt → a.toHex < b.toHex :=
    fun h => compareOfLessAndEq_eq_lt.1 (compare_toHex h)
  refine ⟨hlt, fun htext => ?_⟩
  cases hcompare : ContentHash.compare a b with
  | lt => rfl
  | eq =>
    obtain rfl := Std.LawfulEqCmp.eq_of_compare hcompare
    exact absurd htext (String.lt_irrefl _)
  | gt => exact absurd htext (String.lt_asymm (hlt (Std.OrientedCmp.gt_iff_lt.1 hcompare)))

end ContentHash

namespace Manifest

open ContentHash

/-- The names that rows are written under. -/
def names (rows : Rows) : List String := rows.keys.map toHex

theorem pairwise_names (rows : Rows) : (names rows).Pairwise (· < ·) := by
  rw [names, OrderedMap.keys, List.map_map, List.pairwise_map]
  exact rows.sorted.imp compare_eq_lt_iff.1

/-- The fields of the object that the rows of a source are written as. -/
theorem exists_rowsToJson (rows : Rows) :
    ∃ fields, rowsToJson rows = .object fields ∧ fields.map Prod.fst = names rows := by
  refine ⟨_, rfl, ?_⟩
  rw [names, OrderedMap.keys, List.map_map, List.map_map]
  rfl

end Manifest

namespace ContentHash

/-- Hash texts are keys: reading is the inverse of writing and accepts nothing else, both keep the
order, and so rows are written in the order of their names and are read back in it. -/
theorem text_faithful :
    (∀ h : ContentHash, parse h.toHex = .ok h) ∧
    (∀ s : String, (∃ h, parse s = .ok h) ↔ HexText s) ∧
    (∀ s : String, HexText s ↔ (Text.bytes s.toList).length = 32 ∧
      ∀ b ∈ Text.bytes s.toList, b ∈ Text.bytes digits) ∧
    (∀ (s : String) (h : ContentHash), parse s = .ok h ↔ h.toHex = s) ∧
    (∀ s : String, parse s = .error ⟨s⟩ ↔ ¬HexText s) ∧
    (∀ h k : ContentHash, ContentHash.compare h k = .lt ↔ h.toHex < k.toHex) ∧
    (∀ m : Manifest, Json.parse? m.render = some m.toJson ∧ Manifest.parse? m.render = some m) ∧
    ∀ rows : Rows, ∃ fields, Manifest.rowsToJson rows = .object fields ∧
      fields.map Prod.fst = rows.keys.map toHex ∧ (fields.map Prod.fst).Pairwise (· < ·) := by
  refine ⟨fun h => parse_eq_ok_iff.2 rfl, fun s => ?_, fun s => hexText_iff_bytes,
    fun s h => parse_eq_ok_iff.trans eq_comm, fun s => parse_eq_error_iff,
    fun h k => compare_eq_lt_iff, fun m => ⟨?_, m.parse?_render⟩, fun rows => ?_⟩
  · rw [← exists_ofHex?_iff]
    simp only [parse_eq_ok_iff, ofHex?_eq_some_iff]
  · exact Json.parse?_pretty _ m.plain_toJson
  · obtain ⟨fields, hfields, hnames⟩ := Manifest.exists_rowsToJson rows
    exact ⟨fields, hfields, hnames, hnames ▸ Manifest.pairwise_names rows⟩

end ContentHash

end GqlArtifacts
