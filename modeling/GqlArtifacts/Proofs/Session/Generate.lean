import GqlArtifacts.Session
import GqlArtifacts.Proofs.Cache.Action
import GqlArtifacts.Proofs.OrderedMap
import GqlArtifacts.Proofs.Path
import Mathlib.Data.List.Induction

/-!
# What is asked and what is answered

Every context that is not skipped stands in exactly one group, and the groups hold nothing else
(`mem_staleGroups`, `exists_mem_staleGroups`, `sum_length_staleGroups`). Whatever the backend does to
files, a generation that succeeds pairs each context of each group with an output and leaves the
memory alone (`exec_generate_eq_ok`).

A backend that touches no files turns generation into a function of its answers (`answers`), so the
outputs are known to be what it said to the requests of the run (`exists_request_of_answers`). Whatever
a backend would do when it is asked for something else, it is not asked (`generate_congr`).
-/

namespace GqlArtifacts.Session

open Files CacheM

variable {settings : Settings} {contexts : List Context} {c : Context} {schema : String}
  {units : List SourceUnit}

/-! ### Groups -/

/-- The groups while they are gathered, each with its last context first. -/
def gather (contexts : List Context) : OrderedMap Path (List Context) Path.compare :=
  contexts.foldl (fun groups c =>
    if c.skip then groups else groups.insert c.path (c :: (groups.get? c.path).getD [])) .empty

theorem toList_staleGroups (contexts : List Context) :
    (staleGroups contexts).toList = (gather contexts).toList.map fun e => (e.1, e.2.reverse) := rfl

theorem gather_concat (contexts : List Context) (c : Context) : gather (contexts ++ [c]) =
    if c.skip then gather contexts
    else (gather contexts).insert c.path (c :: ((gather contexts).get? c.path).getD []) := by
  rw [gather, List.foldl_append]
  rfl

/-- Under which key a group stands and what is in it. -/
structure Gathered (contexts : List Context) (e : Path × List Context) : Prop where
  key : ∃ c ∈ contexts, c.path = e.1
  stale : ∀ c ∈ e.2, c ∈ contexts ∧ c.skip = false ∧ e.1.same c.path = true

theorem Gathered.concat {e : Path × List Context} (h : Gathered contexts e) (c : Context) :
    Gathered (contexts ++ [c]) e := by
  obtain ⟨d, hd, hkey⟩ := h.key
  exact ⟨⟨d, List.mem_append_left _ hd, hkey⟩, fun x hx =>
    ⟨List.mem_append_left _ (h.stale x hx).1, (h.stale x hx).2⟩⟩

theorem gathered_of_mem {e : Path × List Context} (he : e ∈ (gather contexts).toList) :
    Gathered contexts e := by
  induction contexts using List.reverseRecOn generalizing e with
  | nil => cases he
  | append_singleton contexts c ih =>
    rw [gather_concat] at he
    split at he
    · exact (ih he).concat c
    · next hskip =>
      refine ⟨?_, ?_⟩
      · refine OrderedMap.forall_key_insertEntry (P := fun p => ∃ d ∈ contexts ++ [c], d.path = p)
          ⟨c, by simp, rfl⟩ (fun x hx => ((ih hx).concat c).key) e he
      · rcases OrderedMap.mem_insert he with he | ⟨heq, hv⟩
        · exact ((ih he).concat c).stale
        · have hsame : e.1.same c.path = true := by
            rw [Path.same_comm, ← Path.compare_eq_iff]; exact heq
          intro x hx
          rw [hv] at hx
          rcases List.mem_cons.1 hx with rfl | hx
          · exact ⟨by simp, by simpa using hskip, hsame⟩
          · cases hg : (gather contexts).get? c.path with
            | none => rw [hg] at hx; cases hx
            | some group =>
              rw [hg] at hx
              obtain ⟨q, hq, hmem⟩ := OrderedMap.exists_mem_of_get? hg
              obtain ⟨h1, h2, h3⟩ := ((ih hmem).concat c).stale x hx
              refine ⟨h1, h2, ?_⟩
              rw [Path.same, eq_of_beq hsame, eq_of_beq (Path.compare_eq_iff.1 hq)]
              exact h3

theorem exists_get?_gather (hc : c ∈ contexts) (hskip : c.skip = false) :
    ∃ group, (gather contexts).get? c.path = some group ∧ c ∈ group := by
  induction contexts using List.reverseRecOn with
  | nil => cases hc
  | append_singleton contexts d ih =>
    rw [gather_concat]
    by_cases hd : d.skip = true
    · rw [if_pos hd]
      refine ih ((List.mem_append.1 hc).resolve_right ?_)
      rintro hcd
      rw [List.mem_singleton.1 hcd, hd] at hskip
      cases hskip
    · rw [if_neg hd, OrderedMap.get?_insert]
      rcases List.mem_append.1 hc with hc | hc
      · obtain ⟨group, hg, hmem⟩ := ih hc
        split
        · next heq =>
          refine ⟨_, rfl, List.mem_cons_of_mem _ ?_⟩
          rw [← OrderedMap.get?_congr heq, hg]
          exact hmem
        · exact ⟨group, hg, hmem⟩
      · obtain rfl := List.mem_singleton.1 hc
        rw [if_pos Std.ReflCmp.compare_self]
        exact ⟨_, rfl, List.mem_cons_self ..⟩

theorem sum_length_gather (contexts : List Context) :
    ((gather contexts).toList.map fun e => e.2.length).sum = contexts.countP fun c => !c.skip := by
  induction contexts using List.reverseRecOn with
  | nil => rfl
  | append_singleton contexts d ih =>
    rw [gather_concat, List.countP_append, ← ih]
    by_cases hd : d.skip = true
    · simp [hd]
    · have hsum := OrderedMap.sum_insert (f := fun _ group => List.length group)
        (fun _ _ _ _ => rfl) (gather contexts) d.path
        (d :: ((gather contexts).get? d.path).getD [])
      rw [if_neg hd]
      simp only [Bool.not_eq_true] at hd
      simp only [List.countP_singleton, hd, Bool.not_false, if_true]
      cases hg : (gather contexts).get? d.path with
      | none => rw [hg] at hsum; simpa using hsum
      | some group =>
        rw [hg] at hsum
        simp only [Option.map_some, Option.getD_some, List.length_cons] at hsum
        rw [Option.getD_some]
        omega

theorem gathered_of_mem_staleGroups {e : Path × List Context}
    (he : e ∈ (staleGroups contexts).toList) : Gathered contexts e := by
  rw [toList_staleGroups, List.mem_map] at he
  obtain ⟨x, hx, rfl⟩ := he
  have h := gathered_of_mem hx
  exact ⟨h.key, fun c hc => h.stale c (List.mem_reverse.1 hc)⟩

theorem exists_mem_staleGroups (hc : c ∈ contexts) (hskip : c.skip = false) :
    ∃ e ∈ (staleGroups contexts).toList, c ∈ e.2 := by
  obtain ⟨group, hg, hmem⟩ := exists_get?_gather hc hskip
  obtain ⟨q, -, hq⟩ := OrderedMap.exists_mem_of_get? hg
  exact ⟨(q, group.reverse), List.mem_map_of_mem hq, List.mem_reverse.2 hmem⟩

theorem toList_staleGroups_eq_nil (hskip : ∀ c ∈ contexts, c.skip = true) :
    (staleGroups contexts).toList = [] := by
  have hgather : gather contexts = .empty := by
    induction contexts using List.reverseRecOn with
    | nil => rfl
    | append_singleton contexts c ih =>
      rw [gather_concat, if_pos (hskip c (by simp)), ih fun x hx => hskip x (by simp [hx])]
  rw [toList_staleGroups, hgather]
  rfl

theorem length_flatMap_staleGroups (contexts : List Context) :
    ((staleGroups contexts).toList.flatMap fun e => e.2).length =
      contexts.countP fun c => !c.skip := by
  rw [List.length_flatMap, toList_staleGroups, List.map_map, ← sum_length_gather]
  congr 1
  exact List.map_congr_left fun e _ => List.length_reverse

/-! ### Outputs -/

section Outputs
variable {cache cache' : Cache} {t t' : Tree} {groups : List (Path × List Context)}
  {outputs : List (Context × Output)}

theorem exec_generateGroup_eq_ok {backend : Backend} {source : Path} {group : List Context}
    (h : exec (generateGroup backend settings schema source group) cache t =
      ((.ok outputs, cache'), t')) :
    cache' = cache ∧ outputs.map Prod.fst = group := by
  rw [generateGroup] at h
  obtain ⟨answer, c₁, t₁, h₁, h₂⟩ := exec_bind_eq_ok.1 h
  obtain ⟨-, rfl⟩ := exec_files_eq_ok.1 h₁
  cases answer with
  | error d => cases h₂
  | ok os =>
    dsimp only at h₂
    split at h₂
    · next hlen =>
      cases h₂
      exact ⟨rfl, List.map_fst_zip (Nat.le_of_eq hlen.symm)⟩
    · cases h₂

theorem exec_generate_eq_ok {backend : Backend}
    (h : exec (generate backend settings schema groups) cache t = ((.ok outputs, cache'), t')) :
    cache' = cache ∧ outputs.map Prod.fst = groups.flatMap fun e => e.2 := by
  induction groups generalizing cache cache' t t' outputs with
  | nil => cases h; exact ⟨rfl, rfl⟩
  | cons e groups ih =>
    obtain ⟨source, group⟩ := e
    rw [generate] at h
    obtain ⟨first, c₁, t₁, h₁, h₂⟩ := exec_bind_eq_ok.1 h
    obtain ⟨rfl, hfirst⟩ := exec_generateGroup_eq_ok h₁
    obtain ⟨others, c₂, t₂, h₃, h₄⟩ := exec_bind_eq_ok.1 h₂
    obtain ⟨rfl, hothers⟩ := ih h₃
    cases h₄
    refine ⟨rfl, ?_⟩
    rw [List.map_append, hfirst, hothers]
    rfl

/-! ### Backends that touch no files -/

/-- What comes of asking for every group, in order. -/
def answers (f : Request → Answer) (settings : Settings) (schema : String) :
    List (Path × List Context) → Except RunError (List (Context × Output))
  | [] => .ok []
  | (source, group) :: rest =>
    match f (request settings schema source group) with
    | .error d => .error (.refused source d)
    | .ok outputs =>
      if outputs.length = group.length then
        (answers f settings schema rest).map (group.zip outputs ++ ·)
      else .error (.outputMismatch source group.length outputs.length)

theorem exec_generate_ofFunction (f : Request → Answer) (settings : Settings) (schema : String)
    (groups : List (Path × List Context)) (cache : Cache) (t : Tree) :
    exec (generate (.ofFunction f) settings schema groups) cache t =
      ((answers f settings schema groups, cache), t) := by
  induction groups with
  | nil => rfl
  | cons e groups ih =>
    obtain ⟨source, group⟩ := e
    have hask : (Backend.ofFunction f (request settings schema source group)).run t =
        (f (request settings schema source group), t) := rfl
    rw [generate, exec_bind, generateGroup, exec_bind, exec_files, hask, answers]
    cases f (request settings schema source group) with
    | error d => rfl
    | ok os =>
      by_cases hlen : os.length = group.length
      · simp only [if_pos hlen, exec_pure, exec_bind, ih]
        cases answers f settings schema groups <;> rfl
      · simp only [if_neg hlen, exec_throw]

/-- Every output was said to a request, at the place of its context. -/
theorem exists_request_of_answers {f : Request → Answer} {o : Output}
    (h : answers f settings schema groups = .ok outputs) (ho : (c, o) ∈ outputs) :
    ∃ e ∈ groups, ∃ (os : List Output) (k : Nat), f (request settings schema e.1 e.2) = .ok os ∧
      e.2[k]? = some c ∧ os[k]? = some o := by
  induction groups generalizing outputs with
  | nil => cases h; cases ho
  | cons e groups ih =>
    obtain ⟨source, group⟩ := e
    rw [answers] at h
    cases hf : f (request settings schema source group) with
    | error d => rw [hf] at h; cases h
    | ok os =>
      rw [hf] at h
      dsimp only at h
      split at h
      · cases hrest : answers f settings schema groups with
        | error e => rw [hrest] at h; cases h
        | ok others =>
          rw [hrest] at h
          cases h
          rcases List.mem_append.1 ho with ho | ho
          · obtain ⟨k, hk⟩ := List.mem_iff_getElem?.1 ho
            obtain ⟨hc, hos⟩ := List.getElem?_zip_eq_some.1 hk
            exact ⟨_, List.mem_cons_self .., os, k, hf, hc, hos⟩
          · obtain ⟨e, he, hrequest⟩ := ih hrest ho
            exact ⟨e, List.mem_cons_of_mem _ he, hrequest⟩
      · cases h

/-- A backend that refuses everything refuses the first group. -/
theorem answers_refused {f : Request → Answer} (hf : ∀ r, ∃ d, f r = .error d) (hne : groups ≠ []) :
    ∃ source d, answers f settings schema groups = .error (.refused source d) := by
  obtain ⟨⟨source, group⟩, rest, rfl⟩ := List.exists_cons_of_ne_nil hne
  obtain ⟨d, hd⟩ := hf (request settings schema source group)
  refine ⟨source, d, ?_⟩
  rw [answers, hd]

/-- Only the calls for the requests of the groups are made. -/
theorem generate_congr {backend backend' : Backend}
    (h : ∀ e ∈ groups, backend (request settings schema e.1 e.2) =
      backend' (request settings schema e.1 e.2)) :
    generate backend settings schema groups = generate backend' settings schema groups := by
  induction groups with
  | nil => rfl
  | cons e groups ih =>
    obtain ⟨source, group⟩ := e
    have hfirst := h (source, group) (List.mem_cons_self ..)
    rw [generate, generate, generateGroup, generateGroup, hfirst,
      ih fun e he => h e (List.mem_cons_of_mem _ he)]

end Outputs

theorem mem_requests_iff {r : Request} : r ∈ requests settings units contexts ↔
    ∃ e ∈ (staleGroups contexts).toList, request settings (schemaText units) e.1 e.2 = r := by
  simp only [requests, List.mem_map]

/-- Only documents of contexts that are not skipped are asked for. -/
theorem exists_context_of_document {r : Request} (hr : r ∈ requests settings units contexts)
    {d : RequestDocument} (hd : d ∈ r.documents) :
    ∃ c ∈ contexts, c.skip = false ∧ r.sourcePath.same c.path = true ∧ c.hash = d.hash := by
  obtain ⟨e, he, rfl⟩ := mem_requests_iff.1 hr
  obtain ⟨c, hc, rfl⟩ := List.mem_map.1 hd
  obtain ⟨hmem, hskip, hsame⟩ := (gathered_of_mem_staleGroups he).stale c hc
  exact ⟨c, hmem, hskip, hsame, rfl⟩

end GqlArtifacts.Session
