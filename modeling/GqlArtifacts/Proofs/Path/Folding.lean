import GqlArtifacts.Glob.Expansion
import GqlArtifacts.Proofs.Path.Normal

/-!
# Folded paths

Whatever a path is made of, its normal form is `Folded`: a root or some `..`, and then names
(`folded_normalizeComponents`), and these are its components (`components_normalize`). A path stays
inside the directory that it is seen from just if neither a root nor a `..` is left of it
(`escapesRoot_eq_false_iff`); following such a path from another one only adds names to the normal
form (`components_normalize_join`).
-/

namespace GqlArtifacts.Path

open Files

variable {p q : Path} {c : Component String} {cs as bs acc : List (Component String)} {segs ns : List String}

/-! ### Components that lead somewhere -/

/-- A component that leads somewhere from a directory. -/
def Leading (c : Component String) : Prop := ∃ s, '/' ∉ s.toList ∧ Component.ofSegment? s = some c

theorem Leading.text_eq (h : Leading c) :
    Component.ofSegment? c.text = some c ∧ '/' ∉ c.text.toList ∧ isTrivialSegment c.text = false := by
  obtain ⟨s, hslash, hs⟩ := h
  rcases segment_cases s with ⟨hnone, -⟩ | ⟨hparent, rfl⟩ | ⟨hname, hempty, hcurrent, -⟩
  · cases hs.symm.trans hnone
  · obtain rfl := Option.some.inj (hs.symm.trans hparent)
    exact ⟨rfl, by decide, by decide⟩
  · obtain rfl := Option.some.inj (hs.symm.trans hname)
    exact ⟨hs, hslash, by simp [isTrivialSegment, Component.text, hempty, hcurrent]⟩

theorem plain_map_text (h : ∀ c ∈ cs, Leading c) : Plain (cs.map Component.text) := by
  intro s hs
  obtain ⟨c, hc, rfl⟩ := List.mem_map.1 hs
  exact (h c hc).text_eq.2

theorem inside_map_text (h : ∀ c ∈ cs, Leading c) : inside (cs.map Component.text) = cs := by
  rw [inside, List.filterMap_map]
  conv => rhs; rw [← List.filterMap_some (l := cs)]
  exact List.filterMap_congr fun c hc => (h c hc).text_eq.1

theorem ofComponents_of_leading (h : ∀ c ∈ cs, Leading c) :
    ofComponents cs = ofSegments (cs.map Component.text) := by
  refine ofComponents_of_root_not_mem fun hroot => ?_
  exact absurd (h _ hroot).text_eq.2.1 (by decide)

/-! ### Folded components -/

/-- A root or some `..`, and then names. -/
def Folded (cs : List (Component String)) : Prop :=
  ∃ (front : List (Component String)) (ns : List String), cs = front ++ ns.map .name ∧
    (front = [.root] ∨ ∀ c ∈ front, c = .parent) ∧ ∀ s ∈ ns, IsName s

namespace Folded

theorem nil : Folded [] := ⟨[], [], rfl, .inr nofun, nofun⟩

theorem root : Folded [.root] := ⟨[.root], [], rfl, .inl rfl, nofun⟩

/-- Behind a name or the root there is no `..`. -/
theorem eq_parent (h : Folded (as ++ .parent :: bs)) : ∀ c ∈ as, c = .parent := by
  obtain ⟨front, ns, heq, hfront, -⟩ := h
  rcases List.append_eq_append_iff.1 heq with ⟨mid, rfl, hmid⟩ | ⟨mid, -, hmid⟩
  · rcases hfront with hroot | hparents
    · obtain rfl : as = [] := by
        cases as with
        | nil => rfl
        | cons a as =>
          obtain ⟨-, htail⟩ := List.cons.inj hroot
          obtain ⟨-, rfl⟩ := List.append_eq_nil_iff.1 htail
          cases ns <;> cases hmid
      exact nofun
    · exact fun c hc => hparents c (List.mem_append_left _ hc)
  · have hmem : Component.parent ∈ ns.map .name := by rw [hmid]; simp
    obtain ⟨s, -, hs⟩ := List.mem_map.1 hmem
    cases hs

theorem current_not_mem (h : Folded cs) : .current ∉ cs := by
  obtain ⟨front, ns, rfl, hfront, -⟩ := h
  intro hmem
  rcases List.mem_append.1 hmem with hmem | hmem
  · rcases hfront with rfl | hparents
    · simp at hmem
    · cases hparents _ hmem
  · obtain ⟨s, -, hs⟩ := List.mem_map.1 hmem
    cases hs

theorem isName (h : Folded cs) {s : String} (hs : .name s ∈ cs) : IsName s := by
  obtain ⟨front, ns, rfl, hfront, hns⟩ := h
  rcases List.mem_append.1 hs with hs | hs
  · rcases hfront with rfl | hparents
    · simp at hs
    · cases hparents _ hs
  · obtain ⟨s', hs', heq⟩ := List.mem_map.1 hs
    exact Component.name.inj heq ▸ hns s' hs'

theorem leading (hroot : .root ∉ cs) (h : Folded cs) : ∀ c ∈ cs, Leading c := by
  intro c hc
  cases c with
  | root => exact absurd hc hroot
  | current => exact absurd hc h.current_not_mem
  | parent => exact ⟨"..", by decide, rfl⟩
  | name s =>
    obtain ⟨hslash, hempty, hcurrent, hparent⟩ := h.isName hc
    exact ⟨s, hslash, ofSegment?_of_proper hempty hcurrent hparent⟩

/-- Without a root, all parts but the names are `..`. -/
theorem of_root_not_mem (hroot : .root ∉ cs) (h : Folded cs) :
    ∃ (k : Nat) (ns : List String), cs = List.replicate k .parent ++ ns.map .name ∧
      ∀ s ∈ ns, IsName s := by
  obtain ⟨front, ns, rfl, rfl | hparents, hns⟩ := h
  · simp at hroot
  · exact ⟨front.length, ns, by rw [List.eq_replicate_of_mem hparents, List.length_replicate], hns⟩

end Folded

theorem normalizeStep_parents (h : ∀ c ∈ acc, c = .parent) :
    normalizeStep acc .parent = .parent :: acc := by
  cases acc with
  | nil => rfl
  | cons c acc => rw [h c (List.mem_cons_self ..)]; rfl

/-- One step of folding: nothing, one part more, or one name less. -/
theorem normalizeStep_cases (acc : List (Component String)) (c : Component String) :
    normalizeStep acc c = acc ∨ normalizeStep acc c = c :: acc ∨
      ∃ s, acc = .name s :: normalizeStep acc c := by
  cases c with
  | root => exact .inr (.inl rfl)
  | current => exact .inl rfl
  | name s => exact .inr (.inl rfl)
  | parent =>
    cases acc with
    | nil => exact .inr (.inl rfl)
    | cons d acc =>
      cases d with
      | root => exact .inl rfl
      | current => exact .inr (.inl rfl)
      | parent => exact .inr (.inl rfl)
      | name s => exact .inr (.inr ⟨s, rfl⟩)

theorem normalizeStep_name (ns : List String) (s : String) :
    normalizeStep (ns.map .name).reverse (.name s) = ((ns ++ [s]).map .name).reverse := by
  rw [List.map_append, List.reverse_append]
  rfl

theorem normalizeStep_parent (init : List String) (n : String) :
    normalizeStep ((init ++ [n]).map .name).reverse .parent = (init.map .name).reverse := by
  rw [List.map_append, List.reverse_append]
  rfl

theorem folded_normalizeStep (h : Folded acc.reverse) (hroot : c ≠ .root)
    (hname : ∀ s, c = .name s → IsName s) : Folded (normalizeStep acc c).reverse := by
  obtain ⟨front, ns, heq, hfront, hns⟩ := h
  obtain rfl : acc = (ns.map .name).reverse ++ front.reverse := by
    rw [← List.reverse_append, ← heq, List.reverse_reverse]
  cases c with
  | root => exact absurd rfl hroot
  | current => exact ⟨front, ns, by simp [normalizeStep], hfront, hns⟩
  | name s =>
    refine ⟨front, ns ++ [s], by simp [normalizeStep], hfront, fun s' hs' => ?_⟩
    rcases List.mem_append.1 hs' with hs' | hs'
    · exact hns s' hs'
    · exact List.mem_singleton.1 hs' ▸ hname s rfl
  | parent =>
    rcases List.eq_nil_or_concat ns with rfl | ⟨init, n, rfl⟩
    · rcases hfront with rfl | hparents
      · exact .root
      · have hrev : ∀ c ∈ front.reverse, c = .parent := fun c hc =>
          hparents c (List.mem_reverse.1 hc)
        rw [List.map_nil, List.reverse_nil, List.nil_append, normalizeStep_parents hrev,
          List.reverse_cons, List.reverse_reverse]
        refine ⟨front ++ [.parent], [], by simp, .inr fun c hc => ?_, nofun⟩
        rcases List.mem_append.1 hc with hc | hc
        · exact hparents c hc
        · exact List.mem_singleton.1 hc
    · rw [List.concat_eq_append] at hns ⊢
      exact ⟨front, init, by simp [normalizeStep], hfront, fun s hs =>
        hns s (List.mem_append_left _ hs)⟩

theorem folded_foldl_inside (hsegs : ∀ s ∈ segs, '/' ∉ s.toList) (h : Folded acc.reverse) :
    Folded ((inside segs).foldl normalizeStep acc).reverse := by
  induction segs generalizing acc with
  | nil => exact h
  | cons s segs ih =>
    obtain ⟨hslash, hmore⟩ := List.forall_mem_cons.1 hsegs
    rcases segment_cases s with ⟨hs, -⟩ | ⟨hs, -⟩ | ⟨hs, hempty, hcurrent, hparent⟩
    · rw [inside, List.filterMap_cons_none hs]
      exact ih hmore h
    · rw [inside, List.filterMap_cons_some hs]
      exact ih hmore (folded_normalizeStep h (by rintro ⟨⟩) (by rintro s' ⟨⟩))
    · rw [inside, List.filterMap_cons_some hs]
      refine ih hmore (folded_normalizeStep h (by rintro ⟨⟩) fun s' heq => ?_)
      exact Component.name.inj heq ▸ ⟨hslash, hempty, hcurrent, hparent⟩

/-- Components that are folded already stay as they are. -/
theorem foldl_normalizeStep_folded (h : Folded (as ++ bs)) :
    bs.foldl normalizeStep as.reverse = (as ++ bs).reverse := by
  induction bs generalizing as with
  | nil => rw [List.foldl_nil, List.append_nil]
  | cons b bs ih =>
    have hstep : normalizeStep as.reverse b = (as ++ [b]).reverse := by
      rw [List.reverse_append]
      cases b with
      | root => rfl
      | current => exact absurd (List.mem_append_right _ (List.mem_cons_self ..)) h.current_not_mem
      | name s => rfl
      | parent =>
        exact normalizeStep_parents fun c hc => h.eq_parent c (List.mem_reverse.1 hc)
    have happend : as ++ b :: bs = as ++ [b] ++ bs := by rw [List.append_assoc]; rfl
    rw [List.foldl_cons, hstep, happend]
    exact ih (happend ▸ h)

/-! ### Normal forms -/

theorem normalizeComponents_relative (h : p.isAbsolute = false) :
    normalizeComponents p.components = ((inside p.segments).foldl normalizeStep []).reverse := by
  rcases components_of_relative h with heq | heq <;> rw [heq] <;> rfl

/-- Behind another path, folding goes on from what that one is folded to. -/
theorem normalizeComponents_join (hq : q.isAbsolute = false) :
    normalizeComponents (p / q).components =
      ((inside q.segments).foldl normalizeStep (normalizeComponents p.components).reverse).reverse := by
  by_cases hempty : p.text = ""
  · obtain ⟨text⟩ := p
    obtain rfl : text = "" := hempty
    have hjoin : (⟨""⟩ / q : Path) = q := by
      show join _ q = q
      simp [join, hq]
    rw [hjoin]
    exact normalizeComponents_relative hq
  · rw [components_join hempty hq, normalizeComponents, normalizeComponents, List.foldl_append,
      List.reverse_reverse]

theorem folded_normalizeComponents (p : Path) : Folded (normalizeComponents p.components) := by
  have hsegs : ∀ s ∈ p.segments, '/' ∉ s.toList := fun s => not_mem_of_mem_segments
  cases h : p.isAbsolute with
  | false =>
    rw [normalizeComponents_relative h]
    exact folded_foldl_inside hsegs .nil
  | true =>
    have hfold : Folded ((inside p.segments).foldl normalizeStep [.root]).reverse :=
      folded_foldl_inside hsegs .root
    rw [components_of_isAbsolute h]
    exact hfold

/-- A folded path is a root and names, or its parts one after another. -/
theorem Folded.cases (h : Folded cs) :
    (∃ ns : List String, cs = .root :: ns.map .name ∧ ofComponents cs = ofRoot ns ∧
      ∀ s ∈ ns, IsName s) ∨
    .root ∉ cs ∧ ofComponents cs = ofSegments (cs.map Component.text) ∧
      Plain (cs.map Component.text) := by
  by_cases hroot : .root ∈ cs
  · obtain ⟨front, ns, rfl, rfl | hparents, hns⟩ := h
    · exact .inl ⟨ns, rfl, ofComponents_root ns, hns⟩
    · exfalso
      rcases List.mem_append.1 hroot with hmem | hmem
      · cases hparents _ hmem
      · simp at hmem
  · have hleading := h.leading hroot
    exact .inr ⟨hroot, ofComponents_of_leading hleading, plain_map_text hleading⟩

theorem segments_ofRoot (ns : List String) : (ofRoot ns).segments = "" :: (ofSegments ns).segments :=
  segments_slash _

/-- The parts of a folded path are found again in its text. -/
theorem components_ofComponents (h : Folded cs) : (ofComponents cs).components = cs := by
  rcases h.cases with ⟨ns, rfl, heq, hns⟩ | ⟨hroot, heq, hplain⟩
  · have hrooted : (ofRoot ns).Rooted := by
      refine ⟨isAbsolute_ofRoot ns, ?_⟩
      rw [normalize_of_isAbsolute (isAbsolute_ofRoot ns), place_ofRoot hns]
    rw [heq, hrooted.components_eq, place_ofRoot hns]
  · rw [heq, components_of_plain hplain, inside_map_text (h.leading hroot)]

theorem Plain.dot_not_mem_segments (h : Plain segs) : "." ∉ (ofSegments segs).segments := by
  by_cases hnil : segs = []
  · rw [hnil]
    decide
  · rw [segments_ofSegments (fun s hs => (h s hs).1) hnil]
    exact fun hmem => absurd (h _ hmem).2 (by decide)

theorem dot_not_mem_segments (h : Folded cs) : "." ∉ (ofComponents cs).segments := by
  rcases h.cases with ⟨ns, -, heq, hns⟩ | ⟨-, heq, hplain⟩
  · have hplain : Plain ns := fun s hs =>
      ⟨(hns s hs).1, by simp [isTrivialSegment, (hns s hs).2.1, (hns s hs).2.2.1]⟩
    rw [heq, segments_ofRoot, List.mem_cons, not_or]
    exact ⟨by decide, hplain.dot_not_mem_segments⟩
  · rw [heq]
    exact hplain.dot_not_mem_segments

theorem components_normalize (p : Path) : p.normalize.components = normalizeComponents p.components :=
  components_ofComponents (folded_normalizeComponents p)

theorem folded_components_normalize (p : Path) : Folded p.normalize.components :=
  components_normalize p ▸ folded_normalizeComponents p

theorem normalizeComponents_folded (h : Folded cs) : normalizeComponents cs = cs := by
  have hfold : cs.foldl normalizeStep [].reverse = ([] ++ cs).reverse := foldl_normalizeStep_folded h
  rw [List.reverse_nil, List.nil_append] at hfold
  rw [normalizeComponents, hfold, List.reverse_reverse]

theorem normalize_normalize (p : Path) : p.normalize.normalize = p.normalize := by
  conv => lhs; rw [normalize, normalizeComponents_folded (folded_components_normalize p),
    components_normalize]
  rfl

theorem mem_of_mem_foldl_normalizeStep (h : c ∈ cs.foldl normalizeStep acc) : c ∈ acc ∨ c ∈ cs := by
  induction cs generalizing acc with
  | nil => exact .inl h
  | cons d cs ih =>
    rcases ih h with h | h
    · rcases normalizeStep_cases acc d with hstep | hstep | ⟨s, hstep⟩
      · exact .inl (hstep ▸ h)
      · rw [hstep] at h
        rcases List.mem_cons.1 h with rfl | h
        · exact .inr (List.mem_cons_self ..)
        · exact .inl h
      · rw [hstep]
        exact .inl (List.mem_cons_of_mem _ h)
    · exact .inr (List.mem_cons_of_mem _ h)

theorem isAbsolute_iff_root_mem : p.isAbsolute = true ↔ .root ∈ p.components := by
  constructor
  · intro h
    rw [components_of_isAbsolute h]
    exact List.mem_cons_self ..
  · intro h
    by_contra hrel
    exact root_not_mem_components (Bool.eq_false_iff.2 hrel) h

theorem isAbsolute_normalize (p : Path) : p.normalize.isAbsolute = p.isAbsolute := by
  rw [Bool.eq_iff_iff]
  constructor
  · intro h
    have hmem := isAbsolute_iff_root_mem.1 h
    rw [components_normalize] at hmem
    have hor := mem_of_mem_foldl_normalizeStep (List.mem_reverse.1 hmem)
    exact isAbsolute_iff_root_mem.2 (hor.resolve_left List.not_mem_nil)
  · intro h
    rw [normalize_of_isAbsolute h]
    exact isAbsolute_ofRoot _

theorem root_not_mem_normalize (h : p.isAbsolute = false) : .root ∉ p.normalize.components := by
  rw [← isAbsolute_iff_root_mem, isAbsolute_normalize, h]
  exact Bool.false_ne_true

/-! ### Paths that stay inside -/

/-- A `..` that is not folded stays. -/
theorem parent_mem_foldl (h : .parent ∈ acc) : .parent ∈ cs.foldl normalizeStep acc := by
  induction cs generalizing acc with
  | nil => exact h
  | cons c cs ih =>
    refine ih ?_
    rcases normalizeStep_cases acc c with hstep | hstep | ⟨s, hstep⟩
    · rwa [hstep]
    · rw [hstep]
      exact List.mem_cons_of_mem _ h
    · rw [hstep] at h
      exact (List.mem_cons.1 h).resolve_left nofun

/-- Climbing above the names that are there leaves a `..`. -/
theorem parent_mem_of_climbsAbove (hroot : .root ∉ cs) (h : climbsAbove ns.length cs = true) :
    .parent ∈ cs.foldl normalizeStep (ns.map .name).reverse := by
  induction cs generalizing ns with
  | nil => cases h
  | cons c cs ih =>
    have hmore := List.not_mem_of_not_mem_cons hroot
    cases c with
    | root => exact absurd (List.mem_cons_self ..) hroot
    | current => exact ih hmore (by simpa [climbsAbove] using h)
    | name s =>
      rw [List.foldl_cons, normalizeStep_name]
      exact ih hmore (by simpa [climbsAbove] using h)
    | parent =>
      rcases List.eq_nil_or_concat ns with rfl | ⟨init, n, rfl⟩
      · show Component.parent ∈ cs.foldl normalizeStep [.parent]
        exact parent_mem_foldl (List.mem_singleton_self _)
      · rw [List.concat_eq_append] at h ⊢
        rw [List.foldl_cons, normalizeStep_parent]
        exact ih hmore (by simpa [climbsAbove] using h)

theorem escapesRoot_eq_false_iff :
    p.escapesRoot = false ↔ p.normalize.isAbsolute = false ∧ .parent ∉ p.normalize.components := by
  constructor
  · intro h
    exact ⟨(inner_normalize h).relative, (inner_normalize h).noParent⟩
  · rintro ⟨hrel, hparent⟩
    rw [isAbsolute_normalize] at hrel
    rw [escapesRoot, hrel, Bool.false_or, ← Bool.not_eq_true]
    intro hclimbs
    have hmem : .parent ∈ p.components.foldl normalizeStep (([] : List String).map .name).reverse :=
      parent_mem_of_climbsAbove (root_not_mem_components hrel) hclimbs
    rw [components_normalize] at hparent
    exact hparent (List.mem_reverse.2 hmem)

/-- A path that stays inside adds its names, wherever it is followed from. -/
theorem components_normalize_join (h : q.escapesRoot = false) (p : Path) :
    (p / q).normalize.components = p.normalize.components ++ q.normalize.components := by
  obtain ⟨hrel, hclimbs⟩ := Bool.or_eq_false_iff.1 h
  have hinside : climbsAbove 0 (inside q.segments) = false := by
    rcases components_of_relative hrel with heq | heq <;> rw [heq] at hclimbs <;> exact hclimbs
  have hfold : ∀ acc, (inside q.segments).foldl normalizeStep acc = (q.place.map .name).reverse ++ acc :=
    fun acc => foldl_normalizeStep_inside [] (.inl hinside)
  rw [components_normalize, components_normalize, components_normalize, normalizeComponents_join hrel,
    hfold, List.reverse_append, List.reverse_reverse, List.reverse_reverse,
    normalizeComponents_of_not_escapesRoot h]

theorem logical_eq (p : Path) : Glob.logical p = p.normalize := by
  rw [Glob.logical, toSlash, components_normalize]
  rfl

end GqlArtifacts.Path
