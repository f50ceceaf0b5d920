import GqlArtifacts.Regex
import Mathlib.Data.List.Basic

/-!
# What fits a regular expression

`Regex.Fits` says what texts fit an expression, where a text stands between the character before it and
the text behind it, which is what anchors look at. Reading a character leaves an expression for the rest
(`fits_step`), so the longest text at the front is found (`longest?_eq_some_iff`), some part of a line
fits just when the search says so (`isFound_iff`), and a line is cut at its longest parts that fit
(`cut_parts`).
-/

namespace GqlArtifacts.Regex

/-- A text fits an expression, after one character and in front of some others. The parts of a repetition
are not empty, but an empty text may stand for those that are missing at its end. -/
inductive Fits : Regex → Option Char → List Char → List Char → Prop
  | empty {before? : Option Char} {rest : List Char} : Fits empty before? [] rest
  | char {negated : Bool} {spans : List (Char × Char)} {before? : Option Char} {c : Char}
      {rest : List Char} (h : ((spans.any fun (a, b) => a ≤ c && c ≤ b) != negated) = true) :
      Fits (char negated spans) before? [c] rest
  | anchor {a : Anchor} {before? : Option Char} {rest : List Char}
      (h : a.holds ⟨before?, rest.head?⟩ = true) : Fits (anchor a) before? [] rest
  | append {a b : Regex} {before? : Option Char} {cs ds rest : List Char}
      (ha : Fits a before? cs (ds ++ rest)) (hb : Fits b (cs.getLast?.or before?) ds rest) :
      Fits (append a b) before? (cs ++ ds) rest
  | left {a b : Regex} {before? : Option Char} {cs rest : List Char} (h : Fits a before? cs rest) :
      Fits (either a b) before? cs rest
  | right {a b : Regex} {before? : Option Char} {cs rest : List Char} (h : Fits b before? cs rest) :
      Fits (either a b) before? cs rest
  | stop {a : Regex} {most? : Option Nat} {before? : Option Char} {rest : List Char} :
      Fits (times a 0 most?) before? [] rest
  | fill {a : Regex} {least : Nat} {most? : Option Nat} {before? : Option Char} {rest : List Char}
      (h : Fits a before? [] rest) : Fits (times a least most?) before? [] rest
  | more {a : Regex} {least : Nat} {most? : Option Nat} {before? : Option Char} {c : Char}
      {cs ds rest : List Char} (hmost : most? ≠ some 0) (ha : Fits a before? (c :: cs) (ds ++ rest))
      (h : Fits (times a (least - 1) (most?.map (· - 1))) (cs.getLast?.or (some c)) ds rest) :
      Fits (times a least most?) before? (c :: (cs ++ ds)) rest

variable {r a b : Regex} {before? : Option Char} {c : Char} {cs ds rest : List Char} {least : Nat}
  {most? : Option Nat} {n : Nat}

theorem getLast?_cons_or (c : Char) (cs : List Char) (before? : Option Char) :
    (c :: cs).getLast?.or before? = cs.getLast?.or (some c) := by
  rw [List.getLast?_cons]
  cases cs.getLast? <;> rfl

/-! ### By the form of the expression -/

@[simp] theorem not_fits_nothing : ¬Fits nothing before? cs rest := nofun

@[simp] theorem fits_empty : Fits empty before? cs rest ↔ cs = [] :=
  ⟨fun h => by cases h; rfl, fun h => h ▸ .empty⟩

theorem fits_append : Fits (append a b) before? cs rest ↔ ∃ front back, cs = front ++ back ∧
    Fits a before? front (back ++ rest) ∧ Fits b (front.getLast?.or before?) back rest := by
  constructor
  · intro h
    cases h with
    | append ha hb => exact ⟨_, _, rfl, ha, hb⟩
  · rintro ⟨front, back, rfl, ha, hb⟩
    exact .append ha hb

@[simp] theorem fits_either : Fits (either a b) before? cs rest ↔
    Fits a before? cs rest ∨ Fits b before? cs rest := by
  constructor
  · intro h
    cases h with
    | left h => exact .inl h
    | right h => exact .inr h
  · rintro (h | h)
    · exact .left h
    · exact .right h

theorem fits_append_nil : Fits (append a b) before? [] rest ↔
    Fits a before? [] rest ∧ Fits b before? [] rest := by
  rw [fits_append]
  constructor
  · rintro ⟨front, back, heq, ha, hb⟩
    obtain ⟨rfl, rfl⟩ := List.append_eq_nil_iff.1 heq.symm
    exact ⟨ha, hb⟩
  · rintro ⟨ha, hb⟩
    exact ⟨[], [], rfl, ha, hb⟩

/-- The first character is one of the first part, or the first part is empty. -/
theorem fits_append_cons : Fits (append a b) before? (c :: cs) rest ↔
    (∃ front back, cs = front ++ back ∧ Fits a before? (c :: front) (back ++ rest) ∧
      Fits b (front.getLast?.or (some c)) back rest) ∨
    Fits a before? [] (c :: cs ++ rest) ∧ Fits b before? (c :: cs) rest := by
  rw [fits_append]
  constructor
  · rintro ⟨front, back, heq, ha, hb⟩
    cases front with
    | nil =>
      obtain rfl : c :: cs = back := heq
      exact .inr ⟨ha, hb⟩
    | cons d front =>
      obtain ⟨rfl, rfl⟩ := List.cons.inj heq
      rw [getLast?_cons_or] at hb
      exact .inl ⟨front, back, rfl, ha, hb⟩
  · rintro (⟨front, back, rfl, ha, hb⟩ | ⟨ha, hb⟩)
    · exact ⟨c :: front, back, rfl, ha, by rwa [getLast?_cons_or]⟩
    · exact ⟨[], c :: cs, rfl, ha, hb⟩

theorem fits_times_nil : Fits (times a least most?) before? [] rest ↔
    least = 0 ∨ Fits a before? [] rest := by
  constructor
  · intro h
    cases h with
    | stop => exact .inl rfl
    | fill h => exact .inr h
  · rintro (rfl | h)
    · exact .stop
    · exact .fill h

theorem fits_times_cons : Fits (times a least most?) before? (c :: cs) rest ↔ most? ≠ some 0 ∧
    ∃ front back, cs = front ++ back ∧ Fits a before? (c :: front) (back ++ rest) ∧
      Fits (times a (least - 1) (most?.map (· - 1))) (front.getLast?.or (some c)) back rest := by
  constructor
  · intro h
    cases h with
    | more hmost ha h => exact ⟨hmost, _, _, rfl, ha, h⟩
  · rintro ⟨hmost, front, back, rfl, ha, h⟩
    exact .more hmost ha h

/-! ### Short forms -/

theorem fits_andThen : Fits (a.andThen b) before? cs rest ↔ Fits (append a b) before? cs rest := by
  have hempty : ∀ {b : Regex}, Fits b before? cs rest ↔ Fits (append empty b) before? cs rest := by
    intro b
    rw [fits_append]
    constructor
    · exact fun h => ⟨[], cs, rfl, .empty, h⟩
    · rintro ⟨front, back, rfl, ha, hb⟩
      obtain rfl := fits_empty.1 ha
      exact hb
  have hnothing : ∀ {a : Regex}, ¬Fits (append a nothing) before? cs rest := by
    intro a h
    obtain ⟨_, _, _, _, hb⟩ := fits_append.1 h
    exact not_fits_nothing hb
  cases a with
  | nothing =>
    refine iff_of_false not_fits_nothing fun h => ?_
    obtain ⟨_, _, _, ha, _⟩ := fits_append.1 h
    exact not_fits_nothing ha
  | empty => exact hempty
  | _ =>
    cases b with
    | nothing => exact iff_of_false not_fits_nothing hnothing
    | _ => rfl

theorem fits_of_isBranchOf (h : a.isBranchOf b = true) (ha : Fits a before? cs rest) :
    Fits b before? cs rest := by
  induction b with
  | either x y _ ih =>
    rw [isBranchOf, Bool.or_eq_true, decide_eq_true_iff] at h
    rcases h with rfl | h
    · exact .left ha
    · exact .right (ih h)
  | _ =>
    obtain rfl := of_decide_eq_true h
    exact ha

theorem fits_branch : Fits (if a.isBranchOf b then b else either a b) before? cs rest ↔
    Fits a before? cs rest ∨ Fits b before? cs rest := by
  by_cases h : a.isBranchOf b = true
  · rw [if_pos h]
    exact ⟨.inr, fun hab => hab.elim (fits_of_isBranchOf h) id⟩
  · rw [if_neg h, fits_either]

theorem fits_orElse : Fits (a.orElse b) before? cs rest ↔
    Fits a before? cs rest ∨ Fits b before? cs rest := by
  induction a with
  | nothing => simp [orElse]
  | either x y _ ih => rw [orElse, fits_branch, ih, fits_either, or_assoc]
  | _ =>
    cases b with
    | nothing => simp [orElse]
    | _ => exact fits_branch

/-! ### Reading character by character -/

theorem fitsEmpty_iff : r.fitsEmpty ⟨before?, rest.head?⟩ = true ↔ Fits r before? [] rest := by
  induction r with
  | nothing => simp [fitsEmpty]
  | empty => simp [fitsEmpty]
  | char negated spans => exact iff_of_false Bool.false_ne_true nofun
  | anchor a => exact ⟨.anchor, fun h => by cases h with | anchor h => exact h⟩
  | append a b iha ihb => rw [fitsEmpty, Bool.and_eq_true, iha, ihb, fits_append_nil]
  | either a b iha ihb => rw [fitsEmpty, Bool.or_eq_true, iha, ihb, fits_either]
  | times a least most? ih => rw [fitsEmpty, Bool.or_eq_true, ih, fits_times_nil, beq_iff_eq]

theorem fitsEmpty_nil : r.fitsEmpty ⟨before?, none⟩ = true ↔ Fits r before? [] [] :=
  @fitsEmpty_iff r before? []

theorem fitsEmpty_cons : r.fitsEmpty ⟨before?, some c⟩ = true ↔ Fits r before? [] (c :: cs) :=
  @fitsEmpty_iff r before? (c :: cs)

theorem fits_step_andThen (ha : ∀ {cs rest}, Fits (a.step ⟨before?, some c⟩ c) (some c) cs rest ↔
      Fits a before? (c :: cs) rest) :
    Fits ((a.step ⟨before?, some c⟩ c).andThen b) (some c) cs rest ↔ ∃ front back, cs = front ++ back ∧
      Fits a before? (c :: front) (back ++ rest) ∧ Fits b (front.getLast?.or (some c)) back rest := by
  rw [fits_andThen, fits_append]
  simp only [ha]

/-- A text fits what a step leaves just when it fits with the character that was read in front of it. -/
theorem fits_step : Fits (r.step ⟨before?, some c⟩ c) (some c) cs rest ↔
    Fits r before? (c :: cs) rest := by
  induction r generalizing cs rest with
  | nothing => simp [step]
  | empty => simp [step]
  | char negated spans =>
    rw [step]
    constructor
    · intro h
      split at h
      · next hc =>
        obtain rfl := fits_empty.1 h
        exact .char hc
      · exact absurd h not_fits_nothing
    · intro h
      cases h with
      | char hc => rw [if_pos hc]; exact .empty
  | anchor a => exact iff_of_false not_fits_nothing nofun
  | append a b iha ihb =>
    have hempty : a.fitsEmpty ⟨before?, some c⟩ = true ↔ Fits a before? [] (c :: cs ++ rest) :=
      fitsEmpty_cons
    rw [step, fits_append_cons, ← hempty, ← ihb, ← fits_step_andThen iha]
    by_cases h : a.fitsEmpty ⟨before?, some c⟩ = true
    · rw [if_pos h, fits_orElse, and_iff_right h]
    · rw [if_neg h]
      exact (or_iff_left fun hb => h hb.1).symm
  | either a b iha ihb => rw [step, fits_orElse, iha, ihb, fits_either]
  | times a least most? ih =>
    rw [step, fits_times_cons]
    by_cases h : most? = some 0
    · simp [h]
    · rw [if_neg h, fits_step_andThen ih]
      simp [h]

/-! ### The longest text at the front -/

/-- The front of a text that fits and that no longer front of it does. -/
structure Longest (r : Regex) (before? : Option Char) (cs : List Char) (n : Nat) : Prop where
  le : n ≤ cs.length
  fits : Fits r before? (cs.take n) (cs.drop n)
  greatest : ∀ m, n < m → m ≤ cs.length → ¬Fits r before? (cs.take m) (cs.drop m)

theorem longest_zero : Longest r before? cs 0 ↔ Fits r before? [] cs ∧
    ∀ m, m < cs.length → ¬Fits r before? (cs.take (m + 1)) (cs.drop (m + 1)) := by
  constructor
  · exact fun h => ⟨h.fits, fun m hm => h.greatest (m + 1) (by omega) hm⟩
  · rintro ⟨hfits, hgreatest⟩
    refine ⟨by omega, hfits, fun m hm hle => ?_⟩
    obtain ⟨m, rfl⟩ := Nat.exists_eq_succ_of_ne_zero (Nat.ne_of_gt hm)
    exact hgreatest m hle

theorem longest_succ : Longest r before? (c :: cs) (n + 1) ↔
    Longest (r.step ⟨before?, some c⟩ c) (some c) cs n := by
  constructor
  · intro h
    refine ⟨by simpa using h.le, fits_step.2 h.fits, fun m hm hle hfits => ?_⟩
    exact h.greatest (m + 1) (by omega) (by simpa using hle) (fits_step.1 hfits)
  · intro h
    refine ⟨by simpa using h.le, fits_step.1 h.fits, fun m hm hle hfits => ?_⟩
    obtain ⟨m, rfl⟩ := Nat.exists_eq_succ_of_ne_zero (by omega : m ≠ 0)
    exact h.greatest m (by omega) (by simpa using hle) (fits_step.2 hfits)

theorem exists_longest (hn : n ≤ cs.length) (h : Fits r before? (cs.take n) (cs.drop n)) :
    ∃ k, Longest r before? cs k := by
  induction hd : cs.length - n using Nat.strongRecOn generalizing n with
  | ind d ih =>
    by_cases hmore : ∃ m, n < m ∧ m ≤ cs.length ∧ Fits r before? (cs.take m) (cs.drop m)
    · obtain ⟨m, hm, hle, hfits⟩ := hmore
      exact ih (cs.length - m) (by omega) hle hfits rfl
    · exact ⟨n, hn, h, fun m hm hle hfits => hmore ⟨m, hm, hle, hfits⟩⟩

section Longest
variable {length : Nat} {found? : Option Nat}

theorem longestFrom_nothing : longestFrom before? length found? nothing cs = found? := by
  cases cs <;> rfl

theorem longestFrom_cons : longestFrom before? length found? r (c :: rest) =
    longestFrom (some c) (length + 1) (if r.fitsEmpty ⟨before?, some c⟩ then some length else found?)
      (r.step ⟨before?, some c⟩ c) rest := by
  rw [longestFrom]
  split
  · next h => rw [h, longestFrom_nothing]
  · rfl

/-- What was found earlier counts only if no front of the text fits. -/
theorem longestFrom_eq :
    (∀ n, Longest r before? cs n → longestFrom before? length found? r cs = some (length + n)) ∧
    ((∀ n, ¬Longest r before? cs n) → longestFrom before? length found? r cs = found?) := by
  induction cs generalizing r before? length found? with
  | nil =>
    refine ⟨fun n h => ?_, fun h => ?_⟩
    · obtain rfl : n = 0 := Nat.le_zero.1 h.le
      rw [longestFrom, if_pos (fitsEmpty_nil.2 h.fits), Nat.add_zero]
    · refine if_neg fun hfits => h 0 (longest_zero.2 ⟨fitsEmpty_nil.1 hfits, fun m hm => ?_⟩)
      exact absurd hm (Nat.not_lt_zero m)
  | cons c rest ih =>
    obtain ⟨hfound, hnone⟩ := @ih (r.step ⟨before?, some c⟩ c) (some c) (length + 1)
      (if r.fitsEmpty ⟨before?, some c⟩ then some length else found?)
    rw [longestFrom_cons]
    refine ⟨fun n h => ?_, fun h => ?_⟩
    · cases n with
      | zero =>
        obtain ⟨hfits, hlonger⟩ := longest_zero.1 h
        rw [hnone fun n hn => ?_, if_pos (fitsEmpty_cons.2 hfits), Nat.add_zero]
        exact hlonger n (Nat.lt_succ_of_le hn.le) (fits_step.1 hn.fits)
      | succ n =>
        rw [hfound n (longest_succ.1 h), Nat.add_right_comm, Nat.add_assoc]
    · rw [hnone fun n hn => h (n + 1) (longest_succ.2 hn)]
      refine if_neg fun hfits => ?_
      obtain ⟨k, hk⟩ := exists_longest (n := 0) (Nat.zero_le _) (fitsEmpty_cons.1 hfits)
      exact h k hk

end Longest

/-- The longest text at the front that fits is found. -/
theorem longest?_eq_some_iff : r.longest? before? cs = some n ↔ Longest r before? cs n := by
  obtain ⟨hfound, hnone⟩ := @longestFrom_eq r before? cs 0 none
  rw [longest?]
  constructor
  · intro h
    by_cases hex : ∃ k, Longest r before? cs k
    · obtain ⟨k, hk⟩ := hex
      rw [hfound k hk, Nat.zero_add] at h
      exact Option.some.inj h ▸ hk
    · rw [hnone fun k hk => hex ⟨k, hk⟩] at h
      cases h
  · intro h
    rw [hfound n h, Nat.zero_add]

/-! ### Parts of a line -/

/-- Some front of a text fits. -/
def FitsFront (r : Regex) (before? : Option Char) (cs : List Char) : Prop :=
  ∃ part rest, cs = part ++ rest ∧ Fits r before? part rest

theorem fitsFront_nil : FitsFront r before? [] ↔ Fits r before? [] [] := by
  constructor
  · rintro ⟨part, rest, heq, h⟩
    obtain ⟨rfl, rfl⟩ := List.append_eq_nil_iff.1 heq.symm
    exact h
  · exact fun h => ⟨[], [], rfl, h⟩

theorem fitsFront_cons : FitsFront r before? (c :: cs) ↔
    Fits r before? [] (c :: cs) ∨ FitsFront (r.step ⟨before?, some c⟩ c) (some c) cs := by
  constructor
  · rintro ⟨part, rest, heq, h⟩
    cases part with
    | nil =>
      obtain rfl : c :: cs = rest := heq
      exact .inl h
    | cons d part =>
      obtain ⟨rfl, rfl⟩ := List.cons.inj heq
      exact .inr ⟨part, rest, rfl, fits_step.2 h⟩
  · rintro (h | ⟨part, rest, rfl, h⟩)
    · exact ⟨[], c :: cs, rfl, h⟩
    · exact ⟨c :: part, rest, rfl, fits_step.1 h⟩

theorem fitsFront_orElse : FitsFront (a.orElse b) before? cs ↔
    FitsFront a before? cs ∨ FitsFront b before? cs := by
  simp only [FitsFront, fits_orElse, and_or_left, exists_or]

/-- A part that fits begins at the front or later. -/
theorem exists_fitsFront_cons :
    (∃ front back, c :: cs = front ++ back ∧ FitsFront r (front.getLast?.or before?) back) ↔
    FitsFront r before? (c :: cs) ∨
      ∃ front back, cs = front ++ back ∧ FitsFront r (front.getLast?.or (some c)) back := by
  constructor
  · rintro ⟨front, back, heq, h⟩
    cases front with
    | nil =>
      obtain rfl : c :: cs = back := heq
      exact .inl h
    | cons d front =>
      obtain ⟨rfl, rfl⟩ := List.cons.inj heq
      rw [getLast?_cons_or] at h
      exact .inr ⟨front, back, rfl, h⟩
  · rintro (h | ⟨front, back, rfl, h⟩)
    · exact ⟨[], c :: cs, rfl, h⟩
    · exact ⟨c :: front, back, rfl, by rwa [getLast?_cons_or]⟩

theorem foundFrom_iff {current : Regex} : foundFrom r before? current cs = true ↔
    FitsFront current before? cs ∨
      ∃ front back, cs = front ++ back ∧ FitsFront r (front.getLast?.or before?) back := by
  induction cs generalizing before? current with
  | nil =>
    rw [foundFrom]
    refine fitsEmpty_nil.trans (fitsFront_nil.symm.trans (fitsFront_orElse.trans (or_congr_right ?_)))
    constructor
    · exact fun h => ⟨[], [], rfl, h⟩
    · rintro ⟨front, back, heq, h⟩
      obtain ⟨rfl, rfl⟩ := List.append_eq_nil_iff.1 heq.symm
      exact h
  | cons c cs ih =>
    rw [exists_fitsFront_cons, ← or_assoc, ← fitsFront_orElse, fitsFront_cons, ← fitsEmpty_cons, or_assoc,
      ← ih, foundFrom, Bool.or_eq_true]

/-- Some part of a line fits just if the search says so. -/
theorem isFound_iff : r.isFound cs = true ↔
    ∃ front part rest, cs = front ++ (part ++ rest) ∧ Fits r front.getLast? part rest := by
  have hnothing : ¬FitsFront nothing none cs := fun ⟨_, _, _, h⟩ => not_fits_nothing h
  rw [isFound, foundFrom_iff, or_iff_right hnothing]
  simp only [FitsFront, Option.or_none]
  constructor
  · rintro ⟨front, back, rfl, part, rest, rfl, h⟩
    exact ⟨front, part, rest, rfl, h⟩
  · rintro ⟨front, part, rest, rfl, h⟩
    exact ⟨front, part ++ rest, rfl, part, rest, rfl, h⟩

theorem fits_ofChar {d : Char} : Fits (ofChar d) before? cs rest ↔ cs = [d] := by
  constructor
  · intro h
    cases h with
    | char h =>
      obtain ⟨hle, hge⟩ : d ≤ _ ∧ _ ≤ d := by simpa using h
      rw [Char.le_antisymm hge hle]
  · rintro rfl
    exact .char (by simp)

theorem fits_ofText {text : List Char} : Fits (ofText text) before? cs rest ↔ cs = text := by
  induction text generalizing before? cs with
  | nil => exact fits_empty
  | cons d text ih =>
    rw [ofText, List.foldr_cons, fits_append]
    constructor
    · rintro ⟨front, back, rfl, hfront, hback⟩
      rw [fits_ofChar.1 hfront, ih.1 hback, List.singleton_append]
    · rintro rfl
      exact ⟨[d], text, rfl, fits_ofChar.2 rfl, ih.2 rfl⟩

/-- A text is found just in the lines that contain it. -/
theorem isFound_ofText {text : List Char} : (ofText text).isFound cs = true ↔ text <:+: cs := by
  rw [isFound_iff]
  constructor
  · rintro ⟨front, part, rest, rfl, h⟩
    exact ⟨front, rest, by rw [fits_ofText.1 h, List.append_assoc]⟩
  · rintro ⟨front, rest, rfl⟩
    exact ⟨front, text, rest, List.append_assoc .., fits_ofText.2 rfl⟩

/-- The parts of a text that fit, from the left: where one can begin it is as long as can be, and none is
empty. -/
inductive Cut (r : Regex) : Option Char → List Char → List (List Char) → Prop
  | nil {before? : Option Char} : Cut r before? [] []
  | skip {before? : Option Char} {c : Char} {rest : List Char} {parts : List (List Char)}
      (hnone : ∀ n, ¬Longest r before? (c :: rest) (n + 1)) (h : Cut r (some c) rest parts) :
      Cut r before? (c :: rest) parts
  | part {before? : Option Char} {c : Char} {part rest : List Char} {parts : List (List Char)}
      (hlongest : Longest r before? (c :: (part ++ rest)) (part.length + 1))
      (h : Cut r (part.getLast?.or (some c)) rest parts) :
      Cut r before? (c :: (part ++ rest)) ((c :: part) :: parts)

/-- The characters of the last part are passed over. -/
theorem partsFrom_eq : partsFrom r before? n cs =
    partsFrom r ((cs.take n).getLast?.or before?) 0 (cs.drop n) := by
  induction cs generalizing n before? with
  | nil => cases n <;> rfl
  | cons c cs ih =>
    cases n with
    | zero => rfl
    | succ n => rw [partsFrom, ih, List.take_succ_cons, getLast?_cons_or, List.drop_succ_cons]

theorem cut_partsFrom : Cut r before? cs (partsFrom r before? 0 cs) := by
  induction hn : cs.length using Nat.strongRecOn generalizing cs before? with
  | ind n ih =>
    cases cs with
    | nil => exact .nil
    | cons c cs =>
      rw [partsFrom]
      split
      · next n h =>
        have hlongest := longest?_eq_some_iff.1 h
        have hle : n ≤ cs.length := by simpa using hlongest.le
        rw [partsFrom_eq, List.take_succ_cons]
        have hcut : Cut r ((cs.take n).getLast?.or (some c)) (cs.drop n)
            (partsFrom r ((cs.take n).getLast?.or (some c)) 0 (cs.drop n)) :=
          ih (cs.drop n).length (by rw [← hn, List.length_drop, List.length_cons]; omega) rfl
        have hcs := List.take_append_drop n cs
        have hpart : Longest r before? (c :: (cs.take n ++ cs.drop n)) ((cs.take n).length + 1) := by
          rwa [hcs, List.length_take_of_le hle]
        have hcut := Cut.part hpart hcut
        rwa [hcs] at hcut
      · next h =>
        refine .skip (fun n hlongest => ?_) (ih cs.length (by rw [← hn]; simp) rfl)
        exact h n (longest?_eq_some_iff.2 hlongest)

theorem cut_nil_of_not (hnone : ¬∃ front back, cs = front ++ back ∧
    FitsFront r (front.getLast?.or before?) back) : Cut r before? cs [] := by
  induction cs generalizing before? with
  | nil => exact .nil
  | cons c cs ih =>
    rw [exists_fitsFront_cons, not_or] at hnone
    refine .skip (fun n hlongest => hnone.1 ?_) (ih hnone.2)
    exact ⟨_, _, (List.take_append_drop (n + 1) (c :: cs)).symm, hlongest.fits⟩

/-- The parts that are taken of a line are all that fit. -/
theorem cut_parts : Cut r none cs (r.parts cs) := by
  rw [parts]
  split
  · exact cut_partsFrom
  · next hfound => exact cut_nil_of_not fun hnone => hfound (foundFrom_iff.2 (.inr hnone))

end GqlArtifacts.Regex
