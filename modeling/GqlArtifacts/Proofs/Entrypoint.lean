import GqlArtifacts.Entrypoint
import GqlArtifacts.Proofs.Manifest.Restrict
import GqlArtifacts.Proofs.Path.Relative

/-!
# What an entrypoint declares

Every overload stands in the rendered text, with an import for its type (`declares_render`), and the
module of the import is the declaration file of the row, seen from the directory of the entrypoint
(`place_moduleName`).
-/

namespace GqlArtifacts.Entrypoint

open Files GqlArtifacts.Path

variable {m : Manifest} {x : Path} {o : Overload} {os : List Overload}

/-! ### Texts -/

/-- A text holds the import and the declaration of an overload, under some number. -/
def Declares (text : String) (o : Overload) : Prop :=
  ∃ before n after, text = before ++ renderOverload n o ++ after

theorem Declares.signature_infix {text : String} (h : Declares text o) :
    (signature o.argument).toList <:+: text.toList := by
  have hinfix : ∀ before l s e f g after : String,
      s.toList <:+: (before ++ (l ++ s ++ e ++ f ++ g) ++ after).toList :=
    fun before l s e f g after => ⟨before.toList ++ l.toList, (e ++ f ++ g ++ after).toList, by
      simp only [String.toList_append, List.append_assoc]⟩
  obtain ⟨before, n, after, rfl⟩ := h
  exact hinfix before _ (signature o.argument) _ _ _ after

theorem declares_renderFrom (n : Nat) (h : o ∈ os) : Declares (renderFrom n os) o := by
  induction os generalizing n with
  | nil => cases h
  | cons o' os ih =>
    rcases List.mem_cons.1 h with rfl | h
    · exact ⟨"", n, renderFrom (n + 1) os, by rw [renderFrom, String.empty_append]⟩
    · obtain ⟨before, k, after, heq⟩ := ih (n + 1) h
      refine ⟨renderOverload n o' ++ before, k, after, ?_⟩
      rw [renderFrom, heq]
      simp only [String.append_assoc]

theorem declares_render (h : o ∈ overloads m x) : Declares (render m x) o := by
  have hrender : render m x = header ++ renderFrom 0 (overloads m x) := by
    rw [render]
    split
    · next hnil => rw [hnil] at h; cases h
    · rfl
  obtain ⟨before, n, after, heq⟩ := declares_renderFrom 0 h
  refine ⟨header ++ before, n, after, ?_⟩
  rw [hrender, heq]
  simp only [String.append_assoc]

theorem mem_overloads : o ∈ overloads m x ↔
    ∃ p h row, (p, h, row) ∈ m.toList ∧ overload? (x.parent?.getD ⟨""⟩) row = some o := by
  rw [overloads, List.mem_filterMap]
  constructor
  · rintro ⟨⟨p, h, row⟩, hmem, ho⟩
    exact ⟨p, h, row, hmem, ho⟩
  · rintro ⟨p, h, row, hmem, ho⟩
    exact ⟨⟨p, h, row⟩, hmem, ho⟩

/-! ### Modules -/

section Module
variable {dir dts : Path} {n : String} {init : List String} {base : Place}

theorem exists_text_ofSegments_concat (init : List String) (n : String) :
    ∃ before, (ofSegments (init ++ [n])).text = before ++ n := by
  by_cases hnil : init = []
  · exact ⟨"", by rw [hnil, String.empty_append]; simp [ofSegments]⟩
  · exact ⟨_, congrArg Path.text (ofSegments_concat hnil n)⟩

theorem isAbsolute_current (s : String) : isAbsolute ⟨"./" ++ s⟩ = false := by
  simp [isAbsolute]

theorem placeFrom_current (s : String) : placeFrom base ⟨"./" ++ s⟩ = placeFrom base ⟨s⟩ := by
  have h : placeFrom base ⟨"." ++ "/" ++ s⟩ = placeFrom (placeFrom base ⟨"."⟩) ⟨s⟩ :=
    placeFrom_slash "." s
  rw [show placeFrom base ⟨"."⟩ = base by simp [placeFrom, segments_eq_singleton, Place.follow]] at h
  exact h

/-- The module of a declaration is its path from the directory, apart from the suffix and a dot in
front. -/
theorem moduleName_append (hdir : dir.escapesRoot = false) (hdts : dts.escapesRoot = false)
    {segs : List String} (hsegs : between dir.place dts.place = segs ++ [n])
    (hn : declarationSuffix <:+ n.toList) :
    moduleName dir dts ++ ".d.ts" = (relative dir dts).text ∨
      moduleName dir dts ++ ".d.ts" = "./" ++ (relative dir dts).text := by
  have hplain := plain_between dir.place (isName_of_mem_place (p := dts))
  have hslash : (relative dir dts).toSlash = (relative dir dts).text := by
    rw [relative_eq hdir hdts]
    exact toSlash_of_plain hplain
  obtain ⟨stem, hstem⟩ := hn
  obtain ⟨before, htext⟩ := exists_text_ofSegments_concat segs n
  obtain ⟨body, hbody⟩ : ∃ body, (relative dir dts).text.toList = body ++ declarationSuffix := by
    refine ⟨before.toList ++ stem, ?_⟩
    rw [relative_eq hdir hdts, hsegs, htext, String.toList_append, ← hstem, List.append_assoc]
  have hmodule : moduleName dir dts =
      String.ofList (if ['.', '.', '/'].isPrefixOf body then body else '.' :: '/' :: body) := by
    have hsuffix : declarationSuffix.isSuffixOf (body ++ declarationSuffix) = true :=
      List.isSuffixOf_iff_suffix.2 (List.suffix_append _ _)
    have htake : (body ++ declarationSuffix).take
        ((body ++ declarationSuffix).length - declarationSuffix.length) = body := by
      rw [List.length_append, Nat.add_sub_cancel]
      exact List.take_left' rfl
    simp only [moduleName, hslash, hbody, hsuffix, htake, if_true]
  have hends : ∀ cs : List Char, String.ofList cs ++ ".d.ts" =
      String.ofList (cs ++ declarationSuffix) := by
    intro cs
    rw [String.ofList_append]
    rfl
  rw [hmodule, hends]
  split
  · left
    rw [← hbody, String.ofList_toList]
  · right
    rw [List.cons_append, List.cons_append, ← hbody]
    refine String.toList_inj.1 ?_
    rw [String.toList_ofList, String.toList_append]
    rfl

/-- The import of an overload leads to the declaration file. -/
theorem place_moduleName (root : Path) (hdir : dir.escapesRoot = false) (hdts : dts.escapesRoot = false)
    (hplace : dts.place = init ++ [n]) (hn : declarationSuffix <:+ n.toList)
    (hapart : ¬dts.place <+: dir.place) :
    (root / (dir / ⟨moduleName dir dts ++ ".d.ts"⟩)).place = (root / dts).place := by
  have hnames := isName_of_mem_place (p := dts)
  have hplain := plain_between dir.place hnames
  rw [hplace] at hapart
  obtain ⟨segs, hsegs⟩ := exists_between_concat hapart
  rw [← hplace] at hsegs
  have hne : between dir.place dts.place ≠ [] := by simp [hsegs]
  have hrelative : ∀ base, (relative dir dts).placeFrom (dir.placeFrom base) = dts.placeFrom base := by
    intro base
    rw [placeFrom_eq_append hdir, placeFrom_eq_append hdts, relative_eq hdir hdts, placeFrom,
      segments_ofSegments (fun s hs => (hplain s hs).1) hne]
    exact foldl_follow_between dir.place hnames
  have hrel : (relative dir dts).isAbsolute = false := by
    rw [relative_eq hdir hdts]
    exact isAbsolute_of_plain hplain
  have hmodule := moduleName_append hdir hdts hsegs hn
  have hdirrel := (Bool.or_eq_false_iff.1 hdir).1
  rw [place_join (Bool.or_eq_false_iff.1 hdts).1, ← hrelative]
  generalize relative dir dts = rel at *
  rcases hmodule with hmodule | hmodule
  · rw [hmodule, place_join (isAbsolute_join hdirrel hrel), placeFrom_join hrel]
  · rw [hmodule, place_join (isAbsolute_join hdirrel (isAbsolute_current _)),
      placeFrom_join (isAbsolute_current _), placeFrom_current]

end Module

end GqlArtifacts.Entrypoint
