import GqlArtifacts.Config.Interpolation
import Mathlib.Data.List.TakeWhile

/-!
# References in a configuration text

A text is plain parts and references by turns in just one way, if no reference is to start inside a
plain part (`exact_iff`): the first brace that closes after a reference has begun ends it, and `pieces`
finds the reference that begins first (`pieces_reference`, `pieces_plain`). Interpolation puts each
variable's value, or else the default, in the place of its reference and looks at nothing twice; the
first reference that has neither is the error (`interpolate_exact`).
-/

namespace GqlArtifacts.Config

variable {c : Char} {cs rest plain : List Char} {r : Reference} {ps : List Piece}
  {lookup : String → Option String}

/-! ### References -/

namespace Reference

/-- An identifier, and a default without a closing brace. -/
structure WellFormed (r : Reference) : Prop where
  start : ∃ c ∈ r.name.head?, isNameStart c = true
  name : ∀ c ∈ r.name, isNameChar c = true
  default : ∀ d ∈ r.default?, '}' ∉ d

/-- What follows the name inside the braces. -/
def suffix (r : Reference) : List Char :=
  match r.default? with
  | some d => ':' :: d
  | none => []

theorem chars_eq (r : Reference) : r.chars = '$' :: '{' :: (r.name ++ r.suffix) ++ ['}'] := rfl

theorem head?_suffix (r : Reference) : ∀ c ∈ r.suffix.head?, isNameChar c = false := by
  intro c hc
  unfold suffix at hc
  split at hc
  · obtain rfl := Option.some.inj hc
    rfl
  · cases hc

/-- The value of the variable, or else the default. -/
def value? (lookup : String → Option String) (r : Reference) : Option (List Char) :=
  ((lookup (String.ofList r.name)).map String.toList).or r.default?

namespace WellFormed
variable (h : r.WellFormed)
include h

theorem brace_not_mem : '}' ∉ r.name ++ r.suffix := by
  intro hmem
  rcases List.mem_append.1 hmem with hmem | hmem
  · exact absurd (h.name _ hmem) (by decide)
  · unfold suffix at hmem
    split at hmem
    · next d hd =>
      rcases List.mem_cons.1 hmem with heq | hmem
      · exact absurd heq (by decide)
      · exact h.default d hd hmem
    · cases hmem

theorem takeWhile_name : (r.name ++ r.suffix).takeWhile isNameChar = r.name := by
  rw [List.takeWhile_append_of_pos h.name]
  cases hs : r.suffix with
  | nil => simp
  | cons c cs =>
    have hc := r.head?_suffix c (by rw [hs]; rfl)
    simp [hc]

theorem dropWhile_name : (r.name ++ r.suffix).dropWhile isNameChar = r.suffix := by
  rw [List.dropWhile_append_of_pos h.name]
  cases hs : r.suffix with
  | nil => rfl
  | cons c cs =>
    have hc := r.head?_suffix c (by rw [hs]; rfl)
    simp [hc]

/-- It is read from the text between its braces. -/
theorem referenceOf?_eq : referenceOf? (r.name ++ r.suffix) = some r := by
  obtain ⟨c, hc, hstart⟩ := h.start
  have hhead : (r.name.head?.map isNameStart).getD false = true := by
    rw [Option.mem_def.1 hc]
    exact hstart
  simp only [referenceOf?, h.takeWhile_name, h.dropWhile_name, hhead, if_true]
  obtain ⟨name, default?⟩ := r
  cases default? <;> rfl

end WellFormed

end Reference

theorem wellFormed_of_referenceOf? (hbrace : '}' ∉ cs) (h : referenceOf? cs = some r) :
    r.WellFormed := by
  have hname : ∀ c ∈ cs.takeWhile isNameChar, isNameChar c = true := fun c hc =>
    List.mem_takeWhile_imp hc
  have hrest : ∀ c ∈ cs.dropWhile isNameChar, c ∈ cs := fun c hc =>
    (List.dropWhile_suffix _).subset hc
  simp only [referenceOf?] at h
  split at h
  · next hhead =>
    have hstart : ∃ c ∈ (cs.takeWhile isNameChar).head?, isNameStart c = true := by
      cases hh : (cs.takeWhile isNameChar).head? with
      | none => rw [hh] at hhead; cases hhead
      | some c => rw [hh] at hhead; exact ⟨c, rfl, hhead⟩
    split at h
    · obtain rfl := Option.some.inj h
      exact ⟨hstart, hname, nofun⟩
    · next d heq =>
      obtain rfl := Option.some.inj h
      refine ⟨hstart, hname, fun d' hd' hmem => ?_⟩
      obtain rfl := Option.some.inj hd'
      exact hbrace (hrest _ (by rw [heq]; exact List.mem_cons_of_mem _ hmem))
    · cases h
  · cases h

/-- Whether a reference stands at the front of a text. -/
def StartsReference (cs : List Char) : Prop := ∃ r : Reference, r.WellFormed ∧ r.chars <+: cs

/-! ### Pieces -/

theorem pieces_of_not_mem (h : '}' ∉ cs) : pieces cs = cs.map .plain := by
  simp [pieces, List.splitOn_eq_singleton h]

theorem pieces_append_brace (h : '}' ∉ cs) (rest : List Char) :
    pieces (cs ++ '}' :: rest) = closedPieces cs ++ pieces rest := by
  have hne := List.splitOn_ne_nil '}' rest
  simp only [pieces, List.splitOn_append_cons_self_of_not_mem h, List.dropLast_cons_of_ne_nil hne,
    List.flatMap_cons, List.append_assoc, List.getLastD_cons]
  rw [List.getLastD_eq_getLast?, List.getLastD_eq_getLast?, List.getLast?_eq_some_getLast hne]
  rfl

/-- A reference at the front is a piece. -/
theorem pieces_reference (h : r.WellFormed) (rest : List Char) :
    pieces (r.chars ++ rest) = .reference r :: pieces rest := by
  have hbrace : '}' ∉ '$' :: '{' :: (r.name ++ r.suffix) := by
    simpa using h.brace_not_mem
  have hclosed : closedPieces ('$' :: '{' :: (r.name ++ r.suffix)) = [.reference r] := by
    rw [closedPieces, h.referenceOf?_eq]
  rw [r.chars_eq, List.append_assoc, List.singleton_append, pieces_append_brace hbrace, hclosed,
    List.singleton_append]

theorem closedPieces_cons (hbrace : '}' ∉ cs) (h : ¬StartsReference (c :: (cs ++ ['}']))) :
    closedPieces (c :: cs) = .plain c :: closedPieces cs := by
  conv => lhs; unfold closedPieces
  split
  · next heq => cases heq
  · next body heq =>
    obtain ⟨rfl, rfl⟩ := List.cons.inj heq
    split
    · next r hr =>
      have hwell := wellFormed_of_referenceOf? (fun hmem => hbrace (List.mem_cons_of_mem _ hmem)) hr
      exact absurd ⟨r, hwell, by rw [chars_referenceOf? hr]; exact List.prefix_rfl⟩ h
    · rfl
  · next heq =>
    obtain ⟨rfl, rfl⟩ := List.cons.inj heq
    rfl

/-- A character that starts no reference is a piece by itself. -/
theorem pieces_plain (h : ¬StartsReference (c :: cs)) : pieces (c :: cs) = .plain c :: pieces cs := by
  -- the pieces up to the first brace do not depend on what is behind it
  by_cases hmem : '}' ∈ c :: cs
  · obtain ⟨part, rest, heq, hpart⟩ := List.eq_append_cons_of_mem hmem
    rw [heq, pieces_append_brace hpart]
    cases part with
    | nil =>
      obtain ⟨rfl, rfl⟩ := List.cons.inj heq
      rfl
    | cons c' part =>
      obtain ⟨rfl, hcs⟩ := List.cons.inj heq
      have hpart' : '}' ∉ part := List.not_mem_of_not_mem_cons hpart
      have hlocal : ¬StartsReference (c :: (part ++ ['}'])) := by
        rintro ⟨r, hr, hprefix⟩
        refine h ⟨r, hr, hprefix.trans ⟨rest, ?_⟩⟩
        rw [hcs, List.cons_append, List.append_assoc]
        rfl
      rw [closedPieces_cons hpart' hlocal, hcs, List.append_eq, pieces_append_brace hpart',
        List.cons_append]
  · rw [pieces_of_not_mem hmem, pieces_of_not_mem fun h => hmem (List.mem_cons_of_mem _ h),
      List.map_cons]

/-! ### Decompositions -/

/-- Plain text and references by turns. -/
inductive Decomposition where
  | last (plain : List Char)
  | before (plain : List Char) (r : Reference) (more : Decomposition)

namespace Decomposition

/-- The text with something in the place of every reference. -/
def textWith (f : Reference → List Char) : Decomposition → List Char
  | last plain => plain
  | before plain r more => plain ++ f r ++ more.textWith f

def text (d : Decomposition) : List Char := d.textWith Reference.chars

def references : Decomposition → List Reference
  | last _ => []
  | before _ r more => r :: more.references

/-- Starts with one more plain character. -/
def push (c : Char) : Decomposition → Decomposition
  | last plain => last (c :: plain)
  | before plain r more => before (c :: plain) r more

def ofPieces : List Piece → Decomposition
  | [] => last []
  | .plain c :: ps => (ofPieces ps).push c
  | .reference r :: ps => before [] r (ofPieces ps)

end Decomposition

/-- No reference starts inside the plain text, which `rest` follows. -/
def NoneInside (plain rest : List Char) : Prop :=
  ∀ before after, plain = before ++ after → after ≠ [] → ¬StartsReference (after ++ rest)

/-- The references are well-formed, and none is left in the plain text. -/
def Decomposition.Exact : Decomposition → Prop
  | last plain => NoneInside plain []
  | before plain r more => NoneInside plain (r.chars ++ more.text) ∧ r.WellFormed ∧ more.Exact

theorem noneInside_nil : NoneInside [] rest := by
  intro before after heq hne
  exact absurd (List.append_eq_nil_iff.1 heq.symm).2 hne

theorem noneInside_cons :
    NoneInside (c :: plain) rest ↔ ¬StartsReference (c :: plain ++ rest) ∧ NoneInside plain rest := by
  constructor
  · intro h
    refine ⟨h [] _ rfl (List.cons_ne_nil _ _), fun before after heq hne => ?_⟩
    exact h (c :: before) after (by rw [heq, List.cons_append]) hne
  · rintro ⟨hhead, htail⟩ before after heq hne
    cases before with
    | nil =>
      obtain rfl : c :: plain = after := heq
      exact hhead
    | cons c' before => exact htail before after (List.cons.inj heq).2 hne

theorem pieces_noneInside (h : NoneInside plain rest) :
    pieces (plain ++ rest) = plain.map .plain ++ pieces rest := by
  induction plain with
  | nil => rfl
  | cons c plain ih =>
    obtain ⟨hhead, htail⟩ := noneInside_cons.1 h
    rw [List.cons_append] at hhead ⊢
    rw [pieces_plain hhead, ih htail]
    rfl

namespace Decomposition

theorem textWith_push (f : Reference → List Char) (c : Char) (d : Decomposition) :
    (d.push c).textWith f = c :: d.textWith f := by
  cases d <;> rfl

theorem references_push (c : Char) (d : Decomposition) : (d.push c).references = d.references := by
  cases d <;> rfl

theorem Exact.push {d : Decomposition} (hd : d.Exact) (h : ¬StartsReference (c :: d.text)) :
    (d.push c).Exact := by
  cases d with
  | last plain =>
    refine noneInside_cons.2 ⟨?_, hd⟩
    rw [List.append_nil]
    exact h
  | before plain r more =>
    refine ⟨noneInside_cons.2 ⟨?_, hd.1⟩, hd.2⟩
    rw [List.cons_append, ← List.append_assoc]
    exact h

theorem ofPieces_plain (plain : List Char) : ofPieces (plain.map .plain) = last plain := by
  induction plain with
  | nil => rfl
  | cons c plain ih => rw [List.map_cons, ofPieces, ih, push]

theorem ofPieces_before (plain : List Char) (r : Reference) (ps : List Piece) :
    ofPieces (plain.map .plain ++ .reference r :: ps) = before plain r (ofPieces ps) := by
  induction plain with
  | nil => rfl
  | cons c plain ih => rw [List.map_cons, List.cons_append, ofPieces, ih, push]

/-- A decomposition that leaves no reference out is that of the pieces. -/
theorem Exact.eq_ofPieces {d : Decomposition} (h : d.Exact) : d = ofPieces (pieces d.text) := by
  induction d with
  | last plain =>
    have hpieces := pieces_noneInside h
    rw [List.append_nil] at hpieces
    show _ = ofPieces (pieces plain)
    rw [hpieces]
    show _ = ofPieces (plain.map .plain ++ [])
    rw [List.append_nil, ofPieces_plain]
  | before plain r more ih =>
    obtain ⟨hplain, hr, hmore⟩ := h
    show _ = ofPieces (pieces (plain ++ r.chars ++ more.text))
    rw [List.append_assoc, pieces_noneInside hplain, pieces_reference hr, ofPieces_before,
      ← ih hmore]

end Decomposition

open Decomposition

/-- Every text is decomposed by its pieces. -/
theorem exact_ofPieces (cs : List Char) :
    (ofPieces (pieces cs)).Exact ∧ (ofPieces (pieces cs)).text = cs := by
  induction hn : cs.length using Nat.strongRecOn generalizing cs with
  | ind n ih =>
    subst hn
    by_cases hstart : StartsReference cs
    · obtain ⟨r, hr, rest, rfl⟩ := hstart
      obtain ⟨hexact, htext⟩ := ih rest.length (by simp [Reference.chars_eq]; omega) rest rfl
      rw [pieces_reference hr, ofPieces]
      refine ⟨⟨noneInside_nil, hr, hexact⟩, ?_⟩
      show r.chars ++ (ofPieces (pieces rest)).text = _
      rw [htext]
    · cases cs with
      | nil => exact ⟨noneInside_nil, rfl⟩
      | cons c cs =>
        obtain ⟨hexact, htext⟩ := ih cs.length (Nat.lt_succ_self _) cs rfl
        rw [pieces_plain hstart, ofPieces]
        refine ⟨hexact.push (by rwa [htext]), ?_⟩
        rw [text, textWith_push, ← text, htext]

theorem exact_iff {d : Decomposition} : d.Exact ∧ d.text = cs ↔ d = ofPieces (pieces cs) := by
  constructor
  · rintro ⟨h, rfl⟩
    exact h.eq_ofPieces
  · rintro rfl
    exact exact_ofPieces cs

/-! ### Resolving -/

theorem resolve_reference (lookup : String → Option String) (r : Reference) :
    Piece.resolve lookup (.reference r) = match r.value? lookup with
      | some value => .ok value
      | none => .error ⟨String.ofList r.name⟩ := by
  rw [Piece.resolve, Reference.value?]
  cases lookup (String.ofList r.name) <;> cases r.default? <;> rfl

/-- The pieces resolve if every reference has a value, and the first that has none is the error. -/
theorem resolveAll_eq (lookup : String → Option String) (ps : List Piece) : resolveAll lookup ps =
    match (ofPieces ps).references.find? fun r => (r.value? lookup).isNone with
      | some r => .error ⟨String.ofList r.name⟩
      | none => .ok ((ofPieces ps).textWith fun r => (r.value? lookup).getD []) := by
  induction ps with
  | nil => rfl
  | cons p ps ih =>
    rw [resolveAll, ih]
    cases p with
    | plain c =>
      rw [ofPieces, references_push, textWith_push]
      simp only [Piece.resolve]
      cases (ofPieces ps).references.find? fun r => (r.value? lookup).isNone <;> rfl
    | reference r =>
      rw [resolve_reference, ofPieces, references, List.find?_cons]
      cases hvalue : r.value? lookup with
      | none => simp
      | some value =>
        simp only [Option.isNone_some]
        cases (ofPieces ps).references.find? fun r => (r.value? lookup).isNone <;>
          simp [textWith, hvalue]

section Exact
variable {d : Decomposition} {text : String} (h : d.Exact) (htext : d.text = text.toList)
include h htext

theorem interpolate_eq (lookup : String → Option String) : interpolate lookup text =
    match d.references.find? fun r => (r.value? lookup).isNone with
      | some r => .error ⟨String.ofList r.name⟩
      | none => .ok (String.ofList (d.textWith fun r => (r.value? lookup).getD [])) := by
  rw [interpolate, resolveAll_eq, ← exact_iff.1 ⟨h, htext⟩]
  cases d.references.find? fun r => (r.value? lookup).isNone <;> rfl

theorem interpolate_eq_ok (hall : ∀ r ∈ d.references, r.value? lookup ≠ none) :
    interpolate lookup text = .ok (String.ofList (d.textWith fun r => (r.value? lookup).getD [])) := by
  have hfind : d.references.find? (fun r => (r.value? lookup).isNone) = none :=
    List.find?_eq_none.2 fun r hr => by simpa using hall r hr
  rw [interpolate_eq h htext, hfind]

theorem interpolate_eq_error {before after : List Reference}
    (hrefs : d.references = before ++ r :: after) (hbefore : ∀ s ∈ before, s.value? lookup ≠ none)
    (hr : r.value? lookup = none) : interpolate lookup text = .error ⟨String.ofList r.name⟩ := by
  have hfind : d.references.find? (fun r => (r.value? lookup).isNone) = some r :=
    List.find?_eq_some_iff_append.2
      ⟨by rw [hr]; rfl, before, after, hrefs, fun s hs => by
        simpa [Option.isSome_iff_ne_none] using hbefore s hs⟩
  rw [interpolate_eq h htext, hfind]

end Exact

/-- Every text has one decomposition at its references. If each of them has a value, the result is the
text with the values in their places, just as they are; if not, the first without one is the error. -/
theorem interpolate_exact (lookup : String → Option String) (text : String) :
    ∃ d : Decomposition, (d.Exact ∧ d.text = text.toList) ∧
      (∀ d' : Decomposition, d'.Exact → d'.text = text.toList → d' = d) ∧
      ((∀ r ∈ d.references, r.value? lookup ≠ none) →
        interpolate lookup text =
          .ok (String.ofList (d.textWith fun r => (r.value? lookup).getD []))) ∧
      (∀ before r after, d.references = before ++ r :: after →
        (∀ s ∈ before, s.value? lookup ≠ none) → r.value? lookup = none →
        interpolate lookup text = .error ⟨String.ofList r.name⟩) ∧
      ((∀ before after, text.toList = before ++ after → ¬StartsReference after) →
        interpolate lookup text = .ok text) := by
  obtain ⟨hd, htext⟩ := exact_ofPieces text.toList
  refine ⟨_, ⟨hd, htext⟩, fun d' hd' htext' => exact_iff.1 ⟨hd', htext'⟩,
    interpolate_eq_ok hd htext, fun before r after => interpolate_eq_error hd htext, fun hnone => ?_⟩
  have hlast : (last text.toList).Exact := fun before after heq _ => by
    rw [List.append_nil]
    exact hnone before after heq
  have hok : interpolate lookup text = .ok (String.ofList text.toList) :=
    interpolate_eq_ok hlast rfl nofun
  rwa [String.ofList_toList] at hok

-- a value that looks like a reference is left as it is, and a default may run over lines
example : interpolate (fun name => if name = "A" then some "$\x7bB\x7d" else none)
    "$$\x7bA:x\x7d$\x7bA\x7d $\x7b1\x7d $\x7bC:a\n$\x7b\x7d" =
    .ok "$$\x7bB\x7d$\x7bB\x7d $\x7b1\x7d a\n$\x7b" := by decide +kernel

end GqlArtifacts.Config
