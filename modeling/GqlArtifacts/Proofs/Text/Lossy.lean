import GqlArtifacts.Text.Utf8
import GqlArtifacts.Proofs.Text.Bytes

/-!
# Bytes that need not be text

`Text.lossyChars` reads bytes as characters. What a text is written in comes back (`lossyChars_bytes`),
and an ASCII character comes out only where its byte stands (`mem_of_mem_lossyChars`,
`eq_map_byte_of_lossyChars`): a sequence of bytes that makes no character never turns into one.
-/

namespace GqlArtifacts.Text

variable {b c : UInt8} {bs rest : List UInt8} {ch : Char} {n acc v : Nat} {lo hi : UInt8}

/-! ### Texts -/

theorem isContinuation_iff : isContinuation b = true ↔ 0x80 ≤ b.toNat ∧ b.toNat ≤ 0xBF := by
  simp [isContinuation, UInt8.le_iff_toNat_le]

theorem continuation_cons {x : Nat} (hx : x < 64) (n acc : Nat) (bs : List UInt8) :
    continuation (n + 1) acc (UInt8.ofNat (x + 0x80) :: bs) = continuation n (acc * 64 + x) bs := by
  have hb : (UInt8.ofNat (x + 0x80)).toNat = x + 0x80 := by
    rw [UInt8.toNat_ofNat']
    omega
  have hmod : (x + 0x80) % 64 = x := by omega
  rw [continuation, if_pos (isContinuation_iff.2 (by omega)), hb, hmod]

/-! Leading bytes with the bits `x` behind their mark. -/

theorem leading?_two {x : Nat} (hlow : 2 ≤ x) (hx : x < 32) :
    leading? (UInt8.ofNat (x + 0xC0)) = some (1, 0x80, 0xBF) ∧
      leadingBits (UInt8.ofNat (x + 0xC0)) 1 = x := by
  revert x
  decide

theorem leading?_three {x : Nat} (hx : x < 16) : leading? (UInt8.ofNat (x + 0xE0)) =
    some (2, if x = 0 then 0xA0 else 0x80, if x = 13 then 0x9F else 0xBF) ∧
      leadingBits (UInt8.ofNat (x + 0xE0)) 2 = x := by
  revert x
  decide

theorem leading?_four {x : Nat} (hx : x < 5) : leading? (UInt8.ofNat (x + 0xF0)) =
    some (3, if x = 0 then 0x90 else 0x80, if x = 4 then 0x8F else 0xBF) ∧
      leadingBits (UInt8.ofNat (x + 0xF0)) 3 = x := by
  revert x
  decide

theorem decodeOne_of_leading {x y : Nat} (hb : 0x80 ≤ b.toNat)
    (h : leading? b = some (n + 1, lo, hi) ∧ leadingBits b (n + 1) = x) (hy : y < 64)
    (hlo : lo.toNat ≤ y + 0x80) (hhi : y + 0x80 ≤ hi.toNat) (cs : List UInt8) :
    decodeOne b (UInt8.ofNat (y + 0x80) :: cs) =
      ((continuation n (x * 64 + y) cs).1.map Char.ofNat, (continuation n (x * 64 + y) cs).2) := by
  obtain ⟨hleading, rfl⟩ := h
  have hc : (UInt8.ofNat (y + 0x80)).toNat = y + 0x80 := by
    rw [UInt8.toNat_ofNat']
    omega
  have hmod : (y + 0x80) % 64 = y := by omega
  have hbig : ¬b < 0x80 := fun hlt => Nat.not_le.2 (UInt8.lt_iff_toNat_lt.1 hlt) hb
  have hin : (lo ≤ UInt8.ofNat (y + 0x80) && UInt8.ofNat (y + 0x80) ≤ hi) = true := by
    simp only [UInt8.le_iff_toNat_le, hc, hlo, hhi, decide_true, Bool.and_self]
  rw [decodeOne, if_neg hbig, hleading]
  dsimp only
  rw [if_pos hin, hc, hmod]
  rfl

theorem decodeOne_two {x y : Nat} (hx : x < 32) (hy : y < 64) (hlow : 2 ≤ x) (bs : List UInt8) :
    decodeOne (UInt8.ofNat (x + 0xC0)) (UInt8.ofNat (y + 0x80) :: bs) =
      (some (Char.ofNat (x * 64 + y)), bs) := by
  have hlo : (0x80 : UInt8).toNat ≤ y + 0x80 := Nat.le_add_left ..
  have hhi : y + 0x80 ≤ (0xBF : UInt8).toNat := Nat.add_le_add_right (Nat.le_of_lt_succ hy) _
  rw [decodeOne_of_leading (by rw [UInt8.toNat_ofNat']; omega) (leading?_two hlow hx) hy hlo hhi]
  rfl

theorem decodeOne_three {x y z : Nat} (hx : x < 16) (hy : y < 64) (hz : z < 64)
    (hlow : x = 0 → 32 ≤ y) (hhigh : x = 13 → y < 32) (bs : List UInt8) :
    decodeOne (UInt8.ofNat (x + 0xE0)) (UInt8.ofNat (y + 0x80) :: UInt8.ofNat (z + 0x80) :: bs) =
      (some (Char.ofNat ((x * 64 + y) * 64 + z)), bs) := by
  have hlo : (if x = 0 then 0xA0 else 0x80 : UInt8).toNat ≤ y + 0x80 := by
    split
    · next h => exact Nat.add_le_add_right (hlow h) 0x80
    · exact Nat.le_add_left ..
  have hhi : y + 0x80 ≤ (if x = 13 then 0x9F else 0xBF : UInt8).toNat := by
    split
    · next h => exact Nat.add_le_add_right (Nat.le_of_lt_succ (hhigh h)) 0x80
    · exact Nat.add_le_add_right (Nat.le_of_lt_succ hy) 0x80
  rw [decodeOne_of_leading (by rw [UInt8.toNat_ofNat']; omega) (leading?_three hx) hy hlo hhi,
    continuation_cons hz]
  rfl

theorem decodeOne_four {x y z w : Nat} (hx : x < 5) (hy : y < 64) (hz : z < 64) (hw : w < 64)
    (hlow : x = 0 → 16 ≤ y) (hhigh : x = 4 → y < 16) (bs : List UInt8) :
    decodeOne (UInt8.ofNat (x + 0xF0))
        (UInt8.ofNat (y + 0x80) :: UInt8.ofNat (z + 0x80) :: UInt8.ofNat (w + 0x80) :: bs) =
      (some (Char.ofNat (((x * 64 + y) * 64 + z) * 64 + w)), bs) := by
  have hlo : (if x = 0 then 0x90 else 0x80 : UInt8).toNat ≤ y + 0x80 := by
    split
    · next h => exact Nat.add_le_add_right (hlow h) 0x80
    · exact Nat.le_add_left ..
  have hhi : y + 0x80 ≤ (if x = 4 then 0x8F else 0xBF : UInt8).toNat := by
    split
    · next h => exact Nat.add_le_add_right (Nat.le_of_lt_succ (hhigh h)) 0x80
    · exact Nat.add_le_add_right (Nat.le_of_lt_succ hy) 0x80
  rw [decodeOne_of_leading (by rw [UInt8.toNat_ofNat']; omega) (leading?_four hx) hy hlo hhi,
    continuation_cons hz, continuation_cons hw]
  rfl

/-- The character that an encoding begins with is read from it. -/
theorem decodeOne_encode (ch : Char) (bs : List UInt8) :
    ∃ b rest, String.utf8EncodeChar ch ++ bs = b :: rest ∧ decodeOne b rest = (some ch, bs) := by
  have hvalue : ch.val.toNat = ch.toNat := rfl
  have hvalid : ch.toNat < 0xD800 ∨ 0xDFFF < ch.toNat ∧ ch.toNat < 0x110000 := ch.valid
  have hread : ∀ v, v = ch.toNat → (some (Char.ofNat v), bs) = (some ch, bs) := by
    rintro v rfl
    rw [Char.ofNat_toNat]
  simp only [String.utf8EncodeChar, hvalue]
  by_cases hone : ch.toNat ≤ 0x7F
  · have hnat : (UInt8.ofNat ch.toNat).toNat = ch.toNat := by
      rw [UInt8.toNat_ofNat']
      omega
    have hlt : UInt8.ofNat ch.toNat < 0x80 := by
      rw [UInt8.lt_iff_toNat_lt, hnat]
      exact Nat.lt_succ_of_le hone
    rw [if_pos hone]
    refine ⟨_, _, rfl, ?_⟩
    rw [decodeOne, if_pos hlt]
    exact hread _ hnat
  rw [if_neg hone]
  by_cases htwo : ch.toNat ≤ 0x7FF
  · rw [if_pos htwo]
    exact ⟨_, _, rfl, (decodeOne_two (by omega) (by omega) (by omega) bs).trans
      (hread _ (by omega))⟩
  rw [if_neg htwo]
  by_cases hthree : ch.toNat ≤ 0xFFFF
  · rw [if_pos hthree]
    exact ⟨_, _, rfl, (decodeOne_three (by omega) (by omega) (by omega) (by omega) (by omega) bs).trans
      (hread _ (by omega))⟩
  · rw [if_neg hthree]
    have hbits : ch.toNat / 262144 % 8 < 5 := by omega
    exact ⟨_, _, rfl, (decodeOne_four hbits (by omega) (by omega) (by omega) (by omega) (by omega)
      bs).trans (hread _ (by omega))⟩

theorem decode_bytes (cs : List Char) : decode (bytes cs) = cs.map some := by
  induction cs with
  | nil => rw [bytes, List.flatMap_nil, decode]; rfl
  | cons ch cs ih =>
    obtain ⟨b, rest, hbytes, hone⟩ := decodeOne_encode ch (bytes cs)
    rw [bytes_cons, hbytes, decode, hone, ih]
    rfl

theorem lossyChars_bytes (cs : List Char) : lossyChars (bytes cs) = cs := by
  rw [lossyChars, decode_bytes, List.map_map]
  exact List.map_id _

/-! ### Bytes in general -/

theorem suffix_continuation (n acc : Nat) (bs : List UInt8) : (continuation n acc bs).2 <:+ bs := by
  induction n generalizing acc bs with
  | zero => exact List.suffix_refl _
  | succ n ih =>
    cases bs with
    | nil => exact List.suffix_refl _
    | cons b bs =>
      rw [continuation]
      split
      · exact (ih _ _).trans (List.suffix_cons ..)
      · exact List.suffix_refl _

theorem suffix_decodeOne (b : UInt8) (bs : List UInt8) : (decodeOne b bs).2 <:+ bs := by
  unfold decodeOne
  split
  · exact List.suffix_refl _
  · split
    · exact List.suffix_refl _
    · split
      · exact List.suffix_refl _
      · split
        · exact (suffix_continuation _ _ _).trans (List.suffix_cons ..)
        · exact List.suffix_refl _

theorem le_of_continuation (h : (continuation n acc bs).1 = some v) : acc * 64 ^ n ≤ v := by
  induction n generalizing acc bs with
  | zero =>
    obtain rfl := Option.some.inj h
    rw [Nat.pow_zero, Nat.mul_one]
  | succ n ih =>
    cases bs with
    | nil => cases h
    | cons b bs =>
      rw [continuation] at h
      split at h
      · have hle := ih h
        rw [Nat.pow_succ', ← Nat.mul_assoc]
        exact Nat.le_trans (Nat.mul_le_mul_right _ (Nat.le_add_right ..)) hle
      · cases h

/-- More than one byte is read only for a character beyond ASCII. -/
theorem le_of_leading? (h : leading? b = some (n, lo, hi)) (hlo : lo ≤ c) (hhi : c ≤ hi) :
    0x80 ≤ (leadingBits b n * 64 + c.toNat % 64) * 64 ^ (n - 1) := by
  rw [UInt8.le_iff_toNat_le] at hlo hhi
  simp only [leading?, UInt8.le_iff_toNat_le, Bool.and_eq_true, decide_eq_true_eq, beq_iff_eq,
    ← UInt8.toNat_inj, UInt8.reduceToNat] at h
  repeat' split at h
  all_goals cases h
  all_goals simp only [leadingBits, UInt8.reduceToNat] at hlo hhi ⊢
  all_goals omega

/-- An ASCII character is read from its byte. -/
theorem eq_of_decodeOne (h : (decodeOne b bs).1 = some ch) (hpos : 0 < ch.toNat)
    (hascii : ch.toNat < 0x80) : b = byte ch ∧ (decodeOne b bs).2 = bs := by
  have hvalue : ∀ v, Char.ofNat v = ch → ch.toNat = v := by
    rintro v rfl
    by_cases hv : v.isValidChar
    · rw [Char.ofNat, dif_pos hv]
      rfl
    · rw [Char.ofNat, dif_neg hv] at hpos
      exact absurd hpos (Nat.lt_irrefl 0)
  rw [decodeOne] at h ⊢
  split at h
  · next hlt =>
    rw [if_pos hlt]
    have hb := hvalue _ (Option.some.inj h)
    exact ⟨by rw [byte, hb, UInt8.ofNat_toNat], rfl⟩
  · split at h
    · cases h
    · next n lo hi hleading =>
      split at h
      · cases h
      · next c cs =>
        split at h
        · next hin =>
          obtain ⟨hlo, hhi⟩ := Bool.and_eq_true _ _ ▸ hin
          obtain ⟨v, hv, hch⟩ := Option.map_eq_some_iff.1 h
          have hlead := le_of_leading? hleading (of_decide_eq_true hlo) (of_decide_eq_true hhi)
          have hle := Nat.le_trans hlead (le_of_continuation hv)
          rw [hvalue v hch] at hascii
          omega
        · cases h

theorem lossyChars_cons (b : UInt8) (bs : List UInt8) :
    lossyChars (b :: bs) = (decodeOne b bs).1.getD replacement :: lossyChars (decodeOne b bs).2 := by
  rw [lossyChars, decode, List.map_cons]
  rfl

theorem decodeOne_of_getD (hpos : 0 < ch.toNat) (hascii : ch.toNat < 0x80)
    (h : (decodeOne b bs).1.getD replacement = ch) : b = byte ch ∧ (decodeOne b bs).2 = bs := by
  cases hone : (decodeOne b bs).1 with
  | none =>
    rw [hone] at h
    subst h
    exact absurd hascii (by decide)
  | some ch' =>
    rw [hone] at h
    exact eq_of_decodeOne (h ▸ hone) hpos hascii

/-- Where an ASCII character comes out, its byte was there. -/
theorem mem_of_mem_lossyChars (hpos : 0 < ch.toNat) (hascii : ch.toNat < 0x80)
    (h : ch ∈ lossyChars bs) : byte ch ∈ bs := by
  induction hlen : bs.length using Nat.strong_induction_on generalizing bs with
  | _ k ih =>
    cases bs with
    | nil => simp [lossyChars, decode] at h
    | cons b rest =>
      rw [lossyChars_cons] at h
      rcases List.mem_cons.1 h with h | h
      · obtain ⟨rfl, -⟩ := decodeOne_of_getD hpos hascii h.symm
        exact List.mem_cons_self
      · have hlt : (decodeOne b rest).2.length < k := by
          rw [← hlen, List.length_cons]
          exact Nat.lt_succ_of_le (length_decodeOne b rest)
        exact List.mem_cons_of_mem _ ((suffix_decodeOne b rest).subset (ih _ hlt h rfl))

/-- Bytes that come out as ASCII are the bytes of it. -/
theorem eq_map_byte_of_lossyChars {cs : List Char} (hcs : ∀ c ∈ cs, 0 < c.toNat ∧ c.toNat < 0x80)
    (h : lossyChars bs = cs) : bs = cs.map byte := by
  induction cs generalizing bs with
  | nil =>
    cases bs with
    | nil => rfl
    | cons b rest => rw [lossyChars_cons] at h; cases h
  | cons c cs ih =>
    cases bs with
    | nil => simp [lossyChars, decode] at h
    | cons b rest =>
      rw [lossyChars_cons] at h
      obtain ⟨hhead, htail⟩ := List.cons.inj h
      obtain ⟨hpos, hascii⟩ := hcs c List.mem_cons_self
      obtain ⟨rfl, hrest⟩ := decodeOne_of_getD hpos hascii hhead
      rw [hrest] at htail
      rw [List.map_cons, ih (fun c hc => hcs c (List.mem_cons_of_mem _ hc)) htail]

end GqlArtifacts.Text
