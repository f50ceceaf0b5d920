import GqlArtifacts.Text.Utf8
import Mathlib.Algebra.Ring.Nat
import Mathlib.Data.List.Basic

/-!
# Texts and their bytes

`Text.bytes` is a text in UTF-8. A character beyond ASCII has no byte below `0x80`
(`utf8EncodeChar_cases`), so an ASCII byte is always a character of its own.

`Text.slice?` cuts a text at byte offsets. It has a value only where both offsets are in range, in
order and between characters (`slice?_eq_some_iff`), which is where `String.Pos.Raw.IsValid` holds
(`isSome_splitAt?_iff`).
-/

namespace GqlArtifacts

/-- The bytes of a text in UTF-8. -/
def Text.bytes (cs : List Char) : List UInt8 := cs.flatMap String.utf8EncodeChar

theorem Text.bytes_toList (s : String) : Text.bytes s.toList = s.toUTF8.data.toList := by
  rw [String.toUTF8, ← String.utf8Encode_toList, List.utf8Encode, List.toList_data_toByteArray]
  rfl

theorem Text.bytes_cons (c : Char) (cs : List Char) :
    Text.bytes (c :: cs) = String.utf8EncodeChar c ++ Text.bytes cs := List.flatMap_cons ..

theorem Text.bytes_append (cs ds : List Char) :
    Text.bytes (cs ++ ds) = Text.bytes cs ++ Text.bytes ds := List.flatMap_append

/-- The byte of an ASCII character. -/
def Text.byte (c : Char) : UInt8 := UInt8.ofNat c.toNat

theorem Text.toNat_byte {c : Char} (hc : c.toNat < 0x80) : (Text.byte c).toNat = c.toNat := by
  rw [Text.byte, UInt8.toNat_ofNat']
  omega

theorem Text.byte_inj {c d : Char} (hc : c.toNat < 0x80) (hd : d.toNat < 0x80)
    (h : Text.byte c = Text.byte d) : c = d := by
  have hnat := congrArg UInt8.toNat h
  rw [Text.toNat_byte hc, Text.toNat_byte hd] at hnat
  exact Char.toNat_inj.1 hnat

theorem Text.byte_le {c d : Char} (hd : d.toNat < 0x80) (h : c ≤ d) :
    Text.byte c ≤ Text.byte d := by
  have hnat : c.toNat ≤ d.toNat := h
  rw [UInt8.le_iff_toNat_le, Text.toNat_byte hd, Text.toNat_byte (Nat.lt_of_le_of_lt hnat hd)]
  exact hnat

theorem utf8EncodeChar_cases (c : Char) :
    c.toNat < 0x80 ∧ String.utf8EncodeChar c = [Text.byte c] ∨
      0x80 ≤ c.toNat ∧ ∀ b ∈ String.utf8EncodeChar c, 0x80 ≤ b.toNat := by
  have hvalue : c.val.toNat = c.toNat := rfl
  simp only [String.utf8EncodeChar, hvalue]
  by_cases hascii : c.toNat ≤ 0x7f
  · rw [if_pos hascii]
    exact .inl ⟨by omega, rfl⟩
  · rw [if_neg hascii]
    refine .inr ⟨by omega, fun b hb => ?_⟩
    split at hb
    · simp only [List.mem_cons, List.not_mem_nil, or_false] at hb
      rcases hb with rfl | rfl <;> rw [UInt8.toNat_ofNat'] <;> omega
    · split at hb
      · simp only [List.mem_cons, List.not_mem_nil, or_false] at hb
        rcases hb with rfl | rfl | rfl <;> rw [UInt8.toNat_ofNat'] <;> omega
      · simp only [List.mem_cons, List.not_mem_nil, or_false] at hb
        rcases hb with rfl | rfl | rfl | rfl <;> rw [UInt8.toNat_ofNat'] <;> omega

theorem Text.bytes_of_ascii? {bs : List UInt8} {cs : List Char} (h : ascii? bs = some cs) :
    bytes cs = bs := by
  induction bs generalizing cs with
  | nil =>
    obtain rfl := Option.some.inj h
    rfl
  | cons b bs ih =>
    rw [ascii?] at h
    split at h
    · next hb =>
      obtain ⟨rest, hrest, rfl⟩ := Option.map_eq_some_iff.1 h
      rw [UInt8.lt_iff_toNat_lt] at hb
      have hvalid : b.toNat.isValidChar := .inl (Nat.lt_trans hb (by decide))
      have htoNat : (Char.ofNat b.toNat).toNat = b.toNat := by
        rw [Char.ofNat, dif_pos hvalid]
        rfl
      rw [bytes_cons, ih hrest]
      rcases utf8EncodeChar_cases (Char.ofNat b.toNat) with ⟨-, hone⟩ | ⟨hlarge, -⟩
      · rw [hone, byte, htoNat, UInt8.ofNat_toNat, List.singleton_append]
      · rw [htoNat] at hlarge
        exact absurd hlarge (Nat.not_le.2 hb)
    · cases h

theorem Text.eq_of_ascii? {content : ByteArray} {cs : List Char}
    (h : ascii? content.data.toList = some cs) : content = (String.ofList cs).toUTF8 := by
  have hbytes := bytes_toList (String.ofList cs)
  rw [String.toList_ofList, bytes_of_ascii? h] at hbytes
  exact ByteArray.ext (Array.toList_inj.1 hbytes)

theorem Text.fromUTF8?_toUTF8 (s : String) : String.fromUTF8? s.toUTF8 = some s :=
  dif_pos s.isValidUTF8

@[simp] theorem Text.chars_eq (s : String) : chars s = s.toList := by
  rw [chars]
  cases h : ascii? s.toUTF8.data.toList with
  | none => rfl
  | some cs =>
    obtain rfl : s = String.ofList cs := String.toByteArray_inj.1 (eq_of_ascii? h)
    rw [String.toList_ofList]
    rfl

theorem Text.ofBytes?_eq (content : ByteArray) : ofBytes? content = String.fromUTF8? content := by
  rw [ofBytes?]
  cases h : ascii? content.data.toList with
  | none => rfl
  | some cs => rw [eq_of_ascii? h, fromUTF8?_toUTF8]

theorem Text.ofBytes?_toUTF8 (s : String) : ofBytes? s.toUTF8 = some s := by
  rw [ofBytes?_eq, fromUTF8?_toUTF8]

namespace Text

variable {cs part before after : List Char} {c : Char} {n i j : Nat}

/-! ### Sizes -/

/-- The number of bytes of a text. -/
def byteSize (cs : List Char) : Nat := (cs.map Char.utf8Size).sum

@[simp] theorem byteSize_nil : byteSize [] = 0 := rfl

@[simp] theorem byteSize_cons (c : Char) (cs : List Char) :
    byteSize (c :: cs) = c.utf8Size + byteSize cs := List.sum_cons

@[simp] theorem byteSize_append (cs ds : List Char) :
    byteSize (cs ++ ds) = byteSize cs + byteSize ds := by
  simp [byteSize]

theorem length_bytes (cs : List Char) : (bytes cs).length = byteSize cs := by
  induction cs with
  | nil => rfl
  | cons c cs ih =>
    rw [bytes_cons, List.length_append, ih, String.length_utf8EncodeChar, byteSize_cons]

theorem byteSize_toList (s : String) : byteSize s.toList = s.utf8ByteSize := by
  rw [← length_bytes, bytes_toList]
  rfl

theorem length_le_byteSize (cs : List Char) : cs.length ≤ byteSize cs := by
  induction cs with
  | nil => simp
  | cons c cs ih =>
    have := c.utf8Size_pos
    simp only [List.length_cons, byteSize_cons]
    omega

theorem byteSize_pos (h : cs ≠ []) : 0 < byteSize cs :=
  Nat.lt_of_lt_of_le (List.length_pos_iff.2 h) (length_le_byteSize cs)

theorem utf8Size_of_ascii (hc : c.toNat < 0x80) : c.utf8Size = 1 := by
  rw [← String.length_utf8EncodeChar]
  rcases utf8EncodeChar_cases c with ⟨-, h⟩ | ⟨h, -⟩
  · rw [h]
    rfl
  · omega

theorem byteSize_of_ascii (h : ∀ c ∈ cs, c.toNat < 0x80) : byteSize cs = cs.length := by
  induction cs with
  | nil => rfl
  | cons c cs ih =>
    rw [byteSize_cons, utf8Size_of_ascii (h c (by simp)), ih fun d hd => h d (by simp [hd]),
      List.length_cons, Nat.add_comm]

/-- The bytes behind a front part. -/
theorem getElem?_bytes_append (cs ds : List Char) (n : Nat) :
    (bytes (cs ++ ds))[byteSize cs + n]? = (bytes ds)[n]? := by
  rw [bytes_append, List.getElem?_append_right (by rw [length_bytes]; omega), length_bytes,
    Nat.add_sub_cancel_left]

theorem drop_bytes_append (cs ds : List Char) :
    (bytes (cs ++ ds)).drop (byteSize cs) = bytes ds := by
  rw [bytes_append, List.drop_left' (length_bytes cs)]

/-- A character and what follows it begin with the byte of an ASCII character just if that is it. -/
theorem bytes_cons_cases (c : Char) (cs : List Char) {d : Char} (hd : d.toNat < 0x80) :
    c = d ∧ bytes (c :: cs) = byte d :: bytes cs ∨
      c ≠ d ∧ (bytes (c :: cs))[0]? ≠ some (byte d) := by
  rw [bytes_cons]
  rcases utf8EncodeChar_cases c with ⟨hc, hbytes⟩ | ⟨hc, hbytes⟩
  · rw [hbytes]
    by_cases heq : c = d
    · subst heq
      exact .inl ⟨rfl, rfl⟩
    · refine .inr ⟨heq, fun hbyte => heq (byte_inj hc hd (Option.some.inj hbyte))⟩
  · obtain ⟨b, bs, hb⟩ := List.exists_cons_of_ne_nil (String.utf8EncodeChar_ne_nil (c := c))
    have hlarge := hbytes b (hb ▸ List.mem_cons_self ..)
    rw [hb]
    refine .inr ⟨?_, fun hbyte => ?_⟩
    · rintro rfl
      omega
    · rw [Option.some.inj hbyte, toNat_byte hd] at hlarge
      omega

theorem getElem?_bytes_zero {d : Char} (hd : d.toNat < 0x80) :
    (bytes cs)[0]? = some (byte d) ↔ cs.head? = some d := by
  cases cs with
  | nil => simp [bytes]
  | cons c cs =>
    rcases bytes_cons_cases c cs hd with ⟨rfl, hbytes⟩ | ⟨hne, hbytes⟩
    · simp [hbytes]
    · simp [hne, hbytes]

/-- An ASCII text is found at the same place among the bytes. -/
theorem bytes_isPrefixOf {name : List Char} (hname : ∀ d ∈ name, d.toNat < 0x80) (cs : List Char) :
    (bytes name).isPrefixOf (bytes cs) = name.isPrefixOf cs := by
  induction name generalizing cs with
  | nil => cases cs <;> rfl
  | cons d name ih =>
    have hd := hname d (by simp)
    have hcons : bytes (d :: name) = byte d :: bytes name :=
      ((bytes_cons_cases d name hd).resolve_right fun h => h.1 rfl).2
    rw [hcons]
    cases cs with
    | nil => rfl
    | cons c cs =>
      rcases bytes_cons_cases c cs hd with ⟨rfl, hbytes⟩ | ⟨hne, hbytes⟩
      · rw [hbytes, List.isPrefixOf_cons_cons_self, List.isPrefixOf_cons_cons_self]
        exact ih (fun d hd => hname d (by simp [hd])) cs
      · rw [List.isPrefixOf_cons_cons, beq_false_of_ne hne.symm, Bool.false_and, Bool.eq_false_iff]
        intro hstarts
        obtain ⟨more, hmore⟩ := List.isPrefixOf_iff_prefix.1 hstarts
        rw [← hmore] at hbytes
        exact hbytes rfl

/-! ### Slices -/

/-- What stands before a byte offset, and what stands from there on. An offset beyond the end or
inside a character has no value. -/
def splitAt? : Nat → List Char → Option (List Char × List Char)
  | 0, cs => some ([], cs)
  | _ + 1, [] => none
  | n + 1, c :: cs =>
    if c.utf8Size ≤ n + 1 then
      (splitAt? (n + 1 - c.utf8Size) cs).map fun (before, after) => (c :: before, after)
    else none

/-- What stands between two byte offsets. -/
def slice? (cs : List Char) (i j : Nat) : Option (List Char) := do
  let (front, _) ← splitAt? j cs
  let (_, part) ← splitAt? i front
  return part

theorem splitAt?_append (before after : List Char) :
    splitAt? (byteSize before) (before ++ after) = some (before, after) := by
  induction before with
  | nil => cases after <;> rfl
  | cons c before ih =>
    have hpos := c.utf8Size_pos
    obtain ⟨n, hn⟩ : ∃ n, byteSize (c :: before) = n + 1 :=
      ⟨byteSize (c :: before) - 1, by rw [byteSize_cons]; omega⟩
    have hrest : n + 1 - c.utf8Size = byteSize before := by
      rw [byteSize_cons] at hn
      omega
    rw [hn, List.cons_append, splitAt?, if_pos (by rw [byteSize_cons] at hn; omega), hrest, ih]
    rfl

theorem splitAt?_eq_some_iff :
    splitAt? n cs = some (before, after) ↔ cs = before ++ after ∧ n = byteSize before := by
  constructor
  · intro h
    induction cs generalizing n before with
    | nil =>
      cases n with
      | zero => cases h; exact ⟨rfl, rfl⟩
      | succ n => cases h
    | cons c cs ih =>
      cases n with
      | zero => cases h; exact ⟨rfl, rfl⟩
      | succ n =>
        rw [splitAt?] at h
        split at h
        · obtain ⟨⟨front, rest⟩, hsplit, heq⟩ := Option.map_eq_some_iff.1 h
          cases heq
          obtain ⟨rfl, hn⟩ := ih hsplit
          exact ⟨rfl, by rw [byteSize_cons]; omega⟩
        · cases h
  · rintro ⟨rfl, rfl⟩
    exact splitAt?_append before after

/-- A slice is a part of the text, with a byte offset at either end. -/
theorem slice?_eq_some_iff : slice? cs i j = some part ↔
    ∃ before after, cs = before ++ (part ++ after) ∧ i = byteSize before ∧
      j = i + byteSize part := by
  simp only [slice?, Option.bind_eq_bind, Option.bind_eq_some_iff, Prod.exists,
    splitAt?_eq_some_iff, Option.pure_def, Option.some.injEq]
  constructor
  · rintro ⟨front, after, ⟨rfl, rfl⟩, before, part', ⟨rfl, rfl⟩, rfl⟩
    exact ⟨before, after, List.append_assoc .., rfl, byteSize_append ..⟩
  · rintro ⟨before, after, rfl, rfl, rfl⟩
    exact ⟨before ++ part, after, ⟨(List.append_assoc ..).symm, (byteSize_append ..).symm⟩, before,
      part, ⟨rfl, rfl⟩, rfl⟩

theorem slice?_append (before part after : List Char) :
    slice? (before ++ (part ++ after)) (byteSize before) (byteSize before + byteSize part) =
      some part :=
  slice?_eq_some_iff.2 ⟨before, after, rfl, rfl, rfl⟩

/-- The rest of a text. -/
theorem slice?_end (before part : List Char) :
    slice? (before ++ part) (byteSize before) (byteSize (before ++ part)) = some part := by
  have h := slice?_append before part []
  rwa [List.append_nil, ← byteSize_append] at h

/-- The front of a text. -/
theorem slice?_start (part after : List Char) :
    slice? (part ++ after) 0 (byteSize part) = some part := by
  have h := slice?_append [] part after
  rwa [byteSize_nil, Nat.zero_add] at h

/-- The bytes of a slice are those between the offsets. -/
theorem bytes_of_slice? (h : slice? cs i j = some part) :
    bytes part = ((bytes cs).drop i).take (j - i) := by
  obtain ⟨before, after, rfl, rfl, rfl⟩ := slice?_eq_some_iff.1 h
  rw [drop_bytes_append, Nat.add_sub_cancel_left, bytes_append, List.take_left' (length_bytes part)]

/-- The offsets at which a text can be cut are the valid positions. -/
theorem isSome_splitAt?_iff {s : String} :
    (splitAt? n s.toList).isSome = true ↔ String.Pos.Raw.IsValid s ⟨n⟩ := by
  rw [Option.isSome_iff_exists, String.Pos.Raw.isValid_iff_exists_append]
  constructor
  · rintro ⟨⟨before, after⟩, h⟩
    obtain ⟨hs, rfl⟩ := splitAt?_eq_some_iff.1 h
    refine ⟨String.ofList before, String.ofList after, ?_, ?_⟩
    · rw [← String.ofList_append, ← hs, String.ofList_toList]
    · rw [String.Pos.Raw.ext_iff, String.byteIdx_rawEndPos, ← byteSize_toList,
        String.toList_ofList]
  · rintro ⟨s₁, s₂, rfl, hn⟩
    refine ⟨(s₁.toList, s₂.toList), splitAt?_eq_some_iff.2 ⟨String.toList_append, ?_⟩⟩
    rw [byteSize_toList, ← String.byteIdx_rawEndPos, ← hn]

end Text

end GqlArtifacts
