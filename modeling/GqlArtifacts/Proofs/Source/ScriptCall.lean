import GqlArtifacts.Proofs.Discovery
import Mathlib.Data.List.TakeWhile

/-!
# How calls are written

Every call that `ScriptCall.find` locates is written there: its name and, in parentheses, one literal
with the argument between its quotes as it stands (`exists_of_mem_find`). A unit that discovery makes of
a call has that argument unchanged (`gives_of_mem_unitsOfCall`).
-/

namespace GqlArtifacts.ScriptCall

open Files

variable {ofLoad : Bool} {quote : Char} {cs body rest : List Char} {call : ScriptCall} {size : Nat}

def name : ScriptCall → List Char
  | gql _ => "gql".toList
  | load _ => "load".toList

/-- The argument as written. -/
def text : ScriptCall → String
  | gql text => text
  | load argument => argument

def isLoad : ScriptCall → Bool
  | gql _ => false
  | load _ => true

/-- Nothing but white space. -/
def Blank (cs : List Char) : Prop := ∀ c ∈ cs, Text.isAsciiWhite c = true

/-- A literal in parentheses, with the text `body` between its quotes. -/
def Parenthesized (quote : Char) (body cs : List Char) : Prop :=
  ∃ w₁ w₂ w₃, Blank w₁ ∧ Blank w₂ ∧ Blank w₃ ∧
    cs = w₁ ++ '(' :: (w₂ ++ quote :: (body ++ quote :: (w₃ ++ [')'])))

/-- A text is the call, with its argument between two quotes. -/
def Written (call : ScriptCall) (quote : Char) (cs : List Char) : Prop :=
  ∃ arguments, Parenthesized quote call.text.toList arguments ∧ cs = call.name ++ arguments ∧
    isQuoteFor call.isLoad quote = true

theorem blank_takeWhile (cs : List Char) : Blank (cs.takeWhile Text.isAsciiWhite) :=
  fun _ h => List.mem_takeWhile_imp h

theorem takeWhile_append_skipWhite (cs : List Char) :
    cs.takeWhile Text.isAsciiWhite ++ skipWhite cs = cs := List.takeWhile_append_dropWhile

theorem readLiteral?_eq (h : readLiteral? quote cs = some (body, rest)) :
    cs = body ++ quote :: rest := by
  fun_induction readLiteral? quote cs generalizing body rest with
  | case1 => cases h
  | case2 => cases h
  | case3 c cs ih =>
    obtain ⟨⟨b, r⟩, hb, ⟨⟩⟩ := Option.map_eq_some_iff.1 h
    rw [ih hb]
    rfl
  | case4 cs => cases h; rfl
  | case5 => cases h
  | case6 c cs _ _ _ _ ih =>
    obtain ⟨⟨b, r⟩, hb, ⟨⟩⟩ := Option.map_eq_some_iff.1 h
    rw [ih hb]
    rfl

theorem of_ofArgument? (h : ofArgument? ofLoad body = some call) :
    call.text.toList = body ∧ call.isLoad = ofLoad := by
  cases ofLoad with
  | false =>
    obtain rfl := Option.some.inj h
    exact ⟨String.toList_ofList, rfl⟩
  | true =>
    rw [ofArgument?, if_pos rfl] at h
    split at h
    · obtain rfl := Option.some.inj h
      exact ⟨String.toList_ofList, rfl⟩
    · cases h

theorem readArguments?_eq (h : readArguments? ofLoad cs = some (call, size, rest)) :
    ∃ quote arguments, cs = arguments ++ rest ∧ call.isLoad = ofLoad ∧
      isQuoteFor ofLoad quote = true ∧ Parenthesized quote call.text.toList arguments := by
  unfold readArguments? at h
  split at h
  · next cs₁ h₁ =>
    split at h
    · next quote cs₂ h₂ =>
      split at h
      · next hquote =>
        split at h
        · next body cs₃ h₃ =>
          split at h
          · next cs₄ h₄ =>
            obtain ⟨_, hcall, ⟨⟩⟩ := Option.map_eq_some_iff.1 h
            obtain ⟨htext, hload⟩ := of_ofArgument? hcall
            refine ⟨quote, cs.takeWhile Text.isAsciiWhite ++
              '(' :: (cs₁.takeWhile Text.isAsciiWhite ++
                quote :: (body ++ quote :: (cs₃.takeWhile Text.isAsciiWhite ++ [')']))), ?_, hload,
              hquote, _, _, _, blank_takeWhile cs, blank_takeWhile cs₁, blank_takeWhile cs₃, ?_⟩
            · calc cs = cs.takeWhile Text.isAsciiWhite ++ '(' :: cs₁ := by
                    rw [← h₁, takeWhile_append_skipWhite]
                _ = cs.takeWhile Text.isAsciiWhite ++ '(' :: (cs₁.takeWhile Text.isAsciiWhite ++
                      quote :: (body ++ quote :: cs₃)) := by
                    rw [← readLiteral?_eq h₃, ← h₂, takeWhile_append_skipWhite]
                _ = _ := by
                    conv_lhs => rw [← takeWhile_append_skipWhite cs₃, h₄]
                    simp only [List.append_assoc, List.cons_append, List.nil_append]
            · rw [htext]
          · cases h
        · cases h
      · cases h
    · cases h
  · cases h

/-- What `read?` takes up is the call as written. -/
theorem read?_eq (h : read? cs = some (call, size, rest)) :
    ∃ quote written, cs = written ++ rest ∧ size = written.length ∧ Written call quote written := by
  have hlength := (length_read? h).2
  obtain ⟨quote, arguments, hcs, hquote, hparens⟩ : ∃ quote arguments,
      cs = call.name ++ arguments ++ rest ∧ isQuoteFor call.isLoad quote = true ∧
        Parenthesized quote call.text.toList arguments := by
    unfold read? at h
    split at h
    · obtain ⟨⟨call', n, r⟩, hr, ⟨⟩⟩ := Option.map_eq_some_iff.1 h
      obtain ⟨quote, arguments, rfl, hload, hquote, hparens⟩ := readArguments?_eq hr
      refine ⟨quote, arguments, ?_, hload ▸ hquote, hparens⟩
      cases call with
      | gql text => rfl
      | load argument => cases hload
    · obtain ⟨⟨call', n, r⟩, hr, ⟨⟩⟩ := Option.map_eq_some_iff.1 h
      obtain ⟨quote, arguments, rfl, hload, hquote, hparens⟩ := readArguments?_eq hr
      refine ⟨quote, arguments, ?_, hload ▸ hquote, hparens⟩
      cases call with
      | gql text => cases hload
      | load argument => rfl
    · cases h
  refine ⟨quote, call.name ++ arguments, hcs, ?_, arguments, hparens, rfl, hquote⟩
  rw [hcs, List.length_append] at hlength
  omega

/-- A call is written in its range of a text whose first character is at the place `start`. -/
def Located.StandsIn (l : Located) (quote : Char) (start : Nat) (cs : List Char) : Prop :=
  ∃ before written after, cs = before ++ (written ++ after) ∧ l.start = start + before.length ∧
    l.stop = l.start + written.length ∧ Written l.call quote written

theorem Located.StandsIn.append {l : Located} {start : Nat} (front : List Char)
    (h : l.StandsIn quote (start + front.length) cs) : l.StandsIn quote start (front ++ cs) := by
  obtain ⟨before, written, after, rfl, hstart, hstop, hwritten⟩ := h
  refine ⟨front ++ before, written, after, (List.append_assoc ..).symm, ?_, hstop, hwritten⟩
  rw [hstart, List.length_append]
  omega

/-- Every call that is found is written in its range. -/
theorem exists_of_mem_find {start : Nat} {afterName : Bool} {l : Located}
    (h : l ∈ find start afterName cs) : ∃ quote, l.StandsIn quote start cs := by
  fun_induction find start afterName cs with
  | case1 => cases h
  | case2 start c cs ih =>
    obtain ⟨quote, hl⟩ := ih h
    exact ⟨quote, hl.append [c]⟩
  | case3 start afterName c cs _ call size after hread ih =>
    obtain ⟨quote, written, hcs, rfl, hwritten⟩ := read?_eq hread
    rw [hcs]
    rcases List.mem_cons.1 h with rfl | h
    · exact ⟨quote, [], written, after, rfl, rfl, rfl, hwritten⟩
    · obtain ⟨quote, hl⟩ := ih h
      exact ⟨quote, hl.append _⟩
  | case4 start afterName c cs _ _ ih =>
    obtain ⟨quote, hl⟩ := ih h
    exact ⟨quote, hl.append [c]⟩

/-! ### Units -/

/-- A unit has the argument of a call that it was made of. -/
def Gives : ScriptCall → SourceUnit → Prop
  | gql text, u => Discovery.hasPlaceholder text.toList = false ∧ u.kind = .literal ∧ u.content = text
  | load argument, u => ∃ target, u.kind = .load argument target

theorem gives_of_mem_unitsOfCall {t : Tree} {root script : Path} {units : List SourceUnit}
    (h : answer (Discovery.unitsOfCall root script call) t = .ok units) :
    ∀ u ∈ units, call.Gives u := by
  cases call with
  | gql text =>
    obtain rfl := Except.ok.inj h
    intro u hu
    split at hu
    · cases hu
    · next hplaceholder =>
      obtain rfl := List.mem_singleton.1 hu
      exact ⟨Bool.eq_false_iff.2 hplaceholder, rfl, rfl⟩
  | load argument =>
    obtain ⟨content, rfl⟩ := Discovery.exists_unit_of_load h
    intro u hu
    obtain rfl := List.mem_singleton.1 hu
    exact ⟨_, rfl⟩

end GqlArtifacts.ScriptCall
