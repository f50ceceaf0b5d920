import GqlArtifacts.Proofs.Session.Publish

/-!
# Backends that answer each document by itself

What such a backend says of a document does not depend on the other documents of the request, so it
does not matter which contexts are asked for together. A group holds the contexts of one source that
are not skipped, in the order of the run (`get?_gather`), so the output that is written last for a
source at a hash is that of its last context that is not skipped (`lastOutput?_byDocument`).
-/

namespace GqlArtifacts

open Files CacheM

/-- A backend that never refuses anything, and answers each document by itself. -/
def Request.byDocument (g : Path → String → List String → Json → RequestDocument → Output) :
    Request → Answer :=
  fun r => .ok (r.documents.map (g r.sourcePath r.schema r.plugins r.options))

namespace Session

variable {settings : Settings} {schema : String} {contexts : List Context} {p : Path}
  {k : ContentHash} {groups : List (Path × List Context)}
  {g : Path → String → List String → Json → RequestDocument → Output}

/-! ### One source -/

theorem get?_gather (contexts : List Context) (p : Path) : ((gather contexts).get? p).getD [] =
    (contexts.filter fun c => c.path.same p && !c.skip).reverse := by
  induction contexts using List.reverseRecOn with
  | nil => rfl
  | append_singleton contexts c ih =>
    have hkey : Path.compare p c.path = .eq ↔ c.path.same p = true := by
      rw [Path.compare_eq_iff, Path.same_comm]
    rw [gather_concat, List.filter_append]
    by_cases hskip : c.skip = true
    · simp [hskip, ih]
    · rw [if_neg hskip, OrderedMap.get?_insert]
      by_cases hs : c.path.same p = true
      · rw [if_pos (hkey.2 hs), ← OrderedMap.get?_congr (hkey.2 hs), ih]
        simp [hskip, hs]
      · rw [if_neg (mt hkey.1 hs), ih]
        simp [hs]

theorem eq_of_mem_gather {e : Path × List Context} (he : e ∈ (gather contexts).toList) :
    e.2 = (contexts.filter fun c => c.path.same e.1 && !c.skip).reverse := by
  rw [← get?_gather, OrderedMap.get?_self_of_mem he, Option.getD_some]

/-- To look through all groups for something that only one group has is to look through this one. -/
theorem find?_flatMap {α β : Type} {l : List α} {f : α → List β} {Q : β → Bool} (group : List β)
    (hothers : ∀ a ∈ l, f a = group ∨ (f a).find? Q = none)
    (hgroup : (∃ a ∈ l, f a = group) ∨ group.find? Q = none) :
    (l.flatMap f).find? Q = group.find? Q := by
  induction l with
  | nil =>
    rcases hgroup with ⟨a, ha, -⟩ | hnone
    · cases ha
    · exact hnone.symm
  | cons a l ih =>
    have hrest := ih fun x hx => hothers x (List.mem_cons_of_mem _ hx)
    rw [List.flatMap_cons, List.find?_append]
    by_cases hnone : group.find? Q = none
    · have ha : (f a).find? Q = none := by
        rcases hothers a (List.mem_cons_self ..) with heq | ha
        · rw [heq, hnone]
        · exact ha
      rw [ha, Option.none_or, hrest (.inr hnone)]
    · rcases hothers a (List.mem_cons_self ..) with heq | ha
      · rw [heq, Option.or_of_isSome (Option.isSome_iff_ne_none.2 hnone)]
      · rw [ha, Option.none_or]
        refine hrest (.inl ?_)
        obtain ⟨x, hx, heq⟩ := hgroup.resolve_right hnone
        rcases List.mem_cons.1 hx with rfl | hx
        · exact absurd (heq ▸ ha) hnone
        · exact ⟨x, hx, heq⟩

theorem find?_staleGroups {Q : Context → Bool} (hQ : ∀ c, Q c = true → c.path.same p = true) :
    ((staleGroups contexts).toList.flatMap fun e => e.2).reverse.find? Q =
      (contexts.filter fun c => !c.skip).reverse.find? Q := by
  have hgroup : ∀ e ∈ (gather contexts).toList, e.1.same p = true →
      e.2 = (contexts.filter fun c => c.path.same p && !c.skip).reverse := by
    intro e he hs
    rw [eq_of_mem_gather he]
    simp only [Path.same, eq_of_beq hs]
  rw [toList_staleGroups, List.flatMap_map, List.reverse_flatMap,
    find?_flatMap (contexts.filter fun c => c.path.same p && !c.skip).reverse]
  · rw [← List.filter_filter, ← List.filter_reverse, List.find?_filter]
    congr 1
    funext c
    cases hc : Q c with
    | true => rw [hQ c hc]; rfl
    | false => simp
  · intro e he
    by_cases hs : e.1.same p = true
    · left
      rw [← hgroup e (List.mem_reverse.1 he) hs]
      exact List.reverse_reverse _
    · right
      rw [List.find?_eq_none]
      intro c hc hQc
      have hkey := ((gathered_of_mem (List.mem_reverse.1 he)).stale c (by simpa using hc)).2.2
      rw [Path.same, eq_of_beq hkey] at hs
      exact hs (hQ c hQc)
  · cases hget : (gather contexts).get? p with
    | none =>
      right
      rw [← get?_gather, hget]
      rfl
    | some group =>
      obtain ⟨q, hq, he⟩ := OrderedMap.exists_mem_of_get? hget
      refine .inl ⟨(q, group), List.mem_reverse.2 he, ?_⟩
      rw [← get?_gather, hget, Option.getD_some]
      exact List.reverse_reverse _

/-! ### The answers -/

/-- What such a backend says of one context. -/
def alone (g : Path → String → List String → Json → RequestDocument → Output) (settings : Settings)
    (schema : String) (source : Path) (c : Context) : Output :=
  g source schema settings.plugins settings.options ⟨c.unit.kind.text, c.hash, c.unit.content⟩

theorem answers_byDocument (g : Path → String → List String → Json → RequestDocument → Output)
    (settings : Settings) (schema : String) (groups : List (Path × List Context)) :
    answers (Request.byDocument g) settings schema groups =
      .ok (groups.flatMap fun e => e.2.map fun c => (c, alone g settings schema e.1 c)) := by
  induction groups with
  | nil => rfl
  | cons e groups ih =>
    obtain ⟨source, group⟩ := e
    rw [answers, ih, List.flatMap_cons, List.map_prod_left_eq_zip]
    simp only [Request.byDocument, request, List.length_map, List.map_map, if_pos]
    rfl

/-- The output that is written last is that of the last context that is not skipped. -/
theorem lastOutput?_byDocument {outputs : List (Context × Output)}
    (h : answers (Request.byDocument g) settings schema (staleGroups contexts).toList = .ok outputs)
    (hlogical : ∀ c ∈ contexts, c.path.Logical) (hp : p.Logical) : lastOutput? outputs p k =
      (lastContext? (contexts.filter fun c => !c.skip) p k).map (alone g settings schema p) := by
  have hout : outputs = ((staleGroups contexts).toList.flatMap fun e => e.2).map
      fun c => (c, alone g settings schema c.path c) := by
    rw [answers_byDocument] at h
    rw [← Except.ok.inj h, List.map_flatMap]
    refine List.flatMap_congr fun e he => List.map_congr_left fun c hc => ?_
    have hgroup := gathered_of_mem_staleGroups he
    obtain ⟨d, hd, hkey⟩ := hgroup.key
    obtain ⟨hmem, -, hsame⟩ := hgroup.stale c hc
    rw [← hkey] at hsame ⊢
    rw [(hlogical d hd).eq_of_same (hlogical c hmem) hsame]
  have hQ : ∀ c : Context, (c.path.same p && c.hash == k) = true → c.path.same p = true :=
    fun c hc => (Bool.and_eq_true _ _ ▸ hc).1
  rw [lastOutput?, hout, ← List.map_reverse, List.find?_map, lastContext?, ← find?_staleGroups hQ,
    Option.map_map]
  refine Option.map_congr fun c hc => ?_
  have hmem := List.mem_reverse.1 (List.mem_of_find?_eq_some hc)
  obtain ⟨e, he, hce⟩ := List.mem_flatMap.1 hmem
  have hc' := ((gathered_of_mem_staleGroups he).stale c hce).1
  have hkey := List.find?_some hc
  have hs : c.path.same p = true := hQ c hkey
  obtain rfl := (hlogical c hc').eq_of_same hp hs
  rfl

end Session

end GqlArtifacts
