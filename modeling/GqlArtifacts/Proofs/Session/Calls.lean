import GqlArtifacts.Proofs.Session.Documents
import GqlArtifacts.Proofs.Session.Failure
import Mathlib.Data.List.Forall2
import Mathlib.Data.List.Pairwise
import Mathlib.Logic.Relation

/-!
# Calls that go on at the same time

The calls of a run need not be made one after the other. `Calls` says how far they have come, and with
each `Step` one of them completes, whichever it is. All of them are for the groups of the run, one for
each group (`Reached.perm`). The first call that fails is the one that is reported, whatever becomes of
those that are still under way; so the calls come to the same in every order unless two of them fail
(`Yields.eq_or_two_failed`), and then the order decides (`reported_by_order`). To ask for one group after
the other is one way for the calls to go (`exec_generate_reached`).

The groups follow each other in the order of their paths and not in that of the units, and still the
outputs reach their own contexts (`delivered_of_written`).
-/

namespace GqlArtifacts

open Files CacheM

/-! ### Lists that belong together -/

section Together
variable {α β : Type} {R S : α → β → Prop} {l : List α} {bs bs' : List β} {a : α} {b : β}

theorem exists_of_mem_left (h : List.Forall₂ R l bs) (ha : a ∈ l) : ∃ b ∈ bs, R a b := by
  induction h with
  | nil => cases ha
  | cons hab _ ih =>
    rcases List.mem_cons.1 ha with rfl | ha
    · exact ⟨_, List.mem_cons_self .., hab⟩
    · obtain ⟨b, hb, hR⟩ := ih ha
      exact ⟨b, List.mem_cons_of_mem _ hb, hR⟩

theorem exists_of_mem_right (h : List.Forall₂ R l bs) (hb : b ∈ bs) : ∃ a ∈ l, R a b :=
  exists_of_mem_left h.flip hb

theorem eq_of_forall₂ (h : List.Forall₂ R l bs) (h' : List.Forall₂ S l bs')
    (hunique : ∀ a b b', R a b → S a b' → b = b') : bs = bs' := by
  induction h generalizing bs' with
  | nil => cases h'; rfl
  | cons hab _ ih =>
    cases h' with
    | cons hab' htail => rw [hunique _ _ _ hab hab', ih htail]

end Together

namespace Session

variable {backend : Backend} {settings : Settings} {schema : String} {units : List SourceUnit}
  {contexts : List Context} {e : Path × List Context} {a : Answer} {os : List Output}
  {groups : List (Path × List Context)} {batch outputs : List (Context × Output)} {t t' : Tree}

/-! ### Answers -/

/-- What comes of the answer to a group. -/
def settle (e : Path × List Context) : Answer → Except RunError (List (Context × Output))
  | .error d => .error (.refused e.1 d)
  | .ok outputs =>
    if outputs.length = e.2.length then .ok (e.2.zip outputs)
    else .error (.outputMismatch e.1 e.2.length outputs.length)

/-- An answer with as many outputs as there are documents. -/
def Covers (e : Path × List Context) (a : Answer) : Prop :=
  ∃ os, a = .ok os ∧ os.length = e.2.length

theorem settle_eq_ok : settle e a = .ok batch ↔
    ∃ os, a = .ok os ∧ os.length = e.2.length ∧ batch = e.2.zip os := by
  cases a with
  | error d => simp [settle]
  | ok os =>
    rw [settle]
    split
    · next hlen => simp [hlen, eq_comm]
    · next hlen => simp [hlen]

theorem covers_iff : Covers e a ↔ ∃ batch, settle e a = .ok batch := by
  simp only [settle_eq_ok, Covers]
  constructor
  · rintro ⟨os, ha, hlen⟩
    exact ⟨_, os, ha, hlen, rfl⟩
  · rintro ⟨_, os, ha, hlen, -⟩
    exact ⟨os, ha, hlen⟩

theorem not_covers_iff : ¬Covers e a ↔ ∃ failure, settle e a = .error failure := by
  rw [covers_iff]
  cases settle e a <;> simp

/-- The call for a group. -/
def asking (backend : Backend) (settings : Settings) (units : List SourceUnit)
    (e : Path × List Context) : Program Answer :=
  backend (request settings (schemaText units) e.1 e.2)

theorem exec_generateGroup (backend : Backend) (settings : Settings) (units : List SourceUnit)
    (e : Path × List Context) (cache : Cache) (t : Tree) :
    exec (generateGroup backend settings (schemaText units) e.1 e.2) cache t =
      ((settle e ((asking backend settings units e).run t).1, cache),
        ((asking backend settings units e).run t).2) := by
  rw [generateGroup, exec_bind, exec_files, asking]
  obtain ⟨a, t₁⟩ := (backend (request settings (schemaText units) e.1 e.2)).run t
  cases a with
  | error d => rfl
  | ok os =>
    simp only [settle]
    split <;> rfl

/-! ### Calls in any order -/

/-- The groups whose calls have not completed, the answers to the others in the order in which they
came, and the files. -/
structure Calls where
  waiting : List (Path × List Context)
  answered : List ((Path × List Context) × Answer)
  tree : Tree

namespace Calls

/-- Any of the calls is the next one to complete. -/
inductive Step (ask : Path × List Context → Program Answer) : Calls → Calls → Prop
  | complete {before after : List (Path × List Context)} {e : Path × List Context}
      {answered : List ((Path × List Context) × Answer)} {t t' : Tree} {a : Answer}
      (h : (ask e).Outcome t a t') :
      Step ask ⟨before ++ e :: after, answered, t⟩ ⟨before ++ after, answered ++ [(e, a)], t'⟩

/-- The calls can come that far. -/
def Reached (ask : Path × List Context → Program Answer) (groups : List (Path × List Context))
    (t : Tree) (k : Calls) : Prop :=
  Relation.ReflTransGen (Step ask) ⟨groups, [], t⟩ k

/-- What the calls have come to: one of them has failed, the first that did, or each group has its
outputs, and these stand in the order of the groups. -/
inductive Yields (groups : List (Path × List Context)) (k : Calls) :
    Except RunError (List (Context × Output)) → Prop
  | failed {before after : List ((Path × List Context) × Answer)}
      {x : (Path × List Context) × Answer} {failure : RunError}
      (hx : k.answered = before ++ x :: after) (hbefore : ∀ y ∈ before, Covers y.1 y.2)
      (h : settle x.1 x.2 = .error failure) : Yields groups k (.error failure)
  | done {batches : List (List (Context × Output))}
      (h : List.Forall₂ (fun e batch => ∃ a, (e, a) ∈ k.answered ∧ settle e a = .ok batch)
        groups batches) : Yields groups k (.ok batches.flatten)

/-- The same groups have the same answers. -/
def Agrees (k k' : Calls) : Prop :=
  ∀ e a a', (e, a) ∈ k.answered → (e, a') ∈ k'.answered → a = a'

/-- The groups, whether their calls have completed or not. -/
def all (k : Calls) : List (Path × List Context) := k.waiting ++ k.answered.map Prod.fst

variable {ask : Path × List Context → Program Answer} {k k' : Calls}
  {r r' : Except RunError (List (Context × Output))} {gs : List (Path × List Context)}

theorem Step.perm (h : Step ask k k') : k'.all.Perm k.all := by
  cases h with
  | @complete before after e answered t t' a houtcome =>
    have hlast : (after ++ (answered ++ [(e, a)]).map Prod.fst).Perm
        (e :: (after ++ answered.map Prod.fst)) := by
      rw [List.map_append, ← List.append_assoc]
      exact List.perm_append_comm
    simp only [all, List.append_assoc, List.cons_append]
    exact hlast.append_left before

theorem Reached.perm (h : Reached ask gs t k) : k.all.Perm gs := by
  induction h with
  | refl => simp [all]
  | tail _ hstep ih => exact hstep.perm.trans ih

theorem Reached.tree_eq (hask : ∀ e t a t', (ask e).Outcome t a t' → t' = t) (h : Reached ask gs t k) :
    k.tree = t := by
  induction h with
  | refl => rfl
  | tail _ hstep ih =>
    obtain ⟨houtcome⟩ := hstep
    exact (hask _ _ _ _ houtcome).trans ih

/-- Answers that were there before stay. -/
theorem Step.behind (h : Step ask k k') (log : List ((Path × List Context) × Answer)) :
    Step ask ⟨k.waiting, log ++ k.answered, k.tree⟩ ⟨k'.waiting, log ++ k'.answered, k'.tree⟩ := by
  obtain ⟨houtcome⟩ := h
  rw [← List.append_assoc]
  exact .complete houtcome

/-- Any call may be the first to complete. -/
theorem Reached.first {before after : List (Path × List Context)} (ha : (ask e).Outcome t a t')
    (h : Reached ask (before ++ after) t' k) :
    Reached ask (before ++ e :: after) t ⟨k.waiting, (e, a) :: k.answered, k.tree⟩ := by
  have hfirst : Step ask ⟨before ++ e :: after, [], t⟩ ⟨before ++ after, [] ++ [(e, a)], t'⟩ :=
    .complete ha
  let behind (k : Calls) : Calls := ⟨k.waiting, [(e, a)] ++ k.answered, k.tree⟩
  have hrest : Relation.ReflTransGen (Step ask) (behind ⟨before ++ after, [], t'⟩) (behind k) :=
    h.lift behind fun _ _ hstep => hstep.behind [(e, a)]
  exact .head hfirst hrest

theorem Reached.cons (ha : (ask e).Outcome t a t') (h : Reached ask gs t' k) :
    Reached ask (e :: gs) t ⟨k.waiting, (e, a) :: k.answered, k.tree⟩ := by
  have hrest : Reached ask ([] ++ gs) t' k := h
  exact .first ha hrest

/-- Where nothing depends on the files, the calls may complete in every order. -/
theorem reached_of_perm {answer : Path × List Context → Answer} (hask : ∀ e, ask e = pure (answer e))
    {order : List (Path × List Context)} (h : order.Perm gs) :
    Reached ask gs t ⟨[], order.map fun e => (e, answer e), t⟩ := by
  induction order generalizing gs with
  | nil => rw [h.nil_eq.symm]; exact .refl
  | cons e order ih =>
    obtain ⟨before, after, rfl⟩ := List.append_of_mem (h.subset List.mem_cons_self)
    have hrest : order.Perm (before ++ after) := (h.trans List.perm_middle).cons_inv
    have hcall : (ask e).Outcome t (answer e) t := by
      rw [hask]
      exact ⟨rfl, rfl⟩
    exact .first hcall (ih hrest)

theorem Yields.cons (h : Yields gs k r) (hb : settle e a = .ok batch) :
    Yields (e :: gs) ⟨k.waiting, (e, a) :: k.answered, k.tree⟩ (r.map (batch ++ ·)) := by
  cases h with
  | @failed before after x failure hx hbefore hfailure =>
    have hbehind : (e, a) :: k.answered = ((e, a) :: before) ++ x :: after :=
      congrArg (List.cons (e, a)) hx
    exact .failed hbehind (List.forall_mem_cons.2 ⟨covers_iff.2 ⟨batch, hb⟩, hbefore⟩) hfailure
  | @done batches hall =>
    have hcons : Yields (e :: gs) ⟨k.waiting, (e, a) :: k.answered, k.tree⟩
        (.ok (batch :: batches).flatten) := by
      refine .done (.cons ⟨a, List.mem_cons_self .., hb⟩ (hall.imp ?_))
      rintro e' batch' ⟨a', hmem, hbatch⟩
      exact ⟨a', List.mem_cons_of_mem _ hmem, hbatch⟩
    exact hcons

theorem Reached.mem (h : Reached ask gs t k) {x : (Path × List Context) × Answer}
    (hx : x ∈ k.answered) : x.1 ∈ gs :=
  h.perm.mem_iff.1 (List.mem_append_right _ (List.mem_map_of_mem hx))

/-- A call that has failed is among the answers. -/
theorem Yields.exists_failed {failure : RunError} (h : Yields gs k (.error failure)) :
    ∃ x ∈ k.answered, settle x.1 x.2 = .error failure := by
  generalize hr : Except.error failure = r at h
  cases h with
  | failed hx _ hfailure =>
    obtain rfl := Except.error.inj hr
    exact ⟨_, hx ▸ List.mem_append_right _ List.mem_cons_self, hfailure⟩
  | done hall => cases hr

/-- Calls that have succeeded succeed whenever they get the same answers, and with the same outputs. -/
theorem Yields.eq_of_agrees (h : Yields gs k (.ok outputs)) (hk' : Reached ask gs t k')
    (h' : Yields gs k' r) (hagrees : k.Agrees k') : r = .ok outputs := by
  generalize hr : Except.ok outputs = r₀ at h
  cases h with
  | failed hx _ hfailure => cases hr
  | done hall =>
    obtain rfl := Except.ok.inj hr
    clear hr
    cases r with
    | error failure =>
      obtain ⟨x, hx, hfailure⟩ := h'.exists_failed
      obtain ⟨batch, -, a, ha, hbatch⟩ := exists_of_mem_left hall (hk'.mem hx)
      rw [hagrees _ _ _ ha hx, hfailure] at hbatch
      cases hbatch
    | ok outputs' =>
      generalize hr : Except.ok outputs' = r' at h'
      cases h' with
      | failed hx _ hfailure => cases hr
      | done hall' =>
        rw [eq_of_forall₂ hall hall']
        rintro e batch batch' ⟨a, ha, hbatch⟩ ⟨a', ha', hbatch'⟩
        rw [hagrees e a a' ha ha', hbatch'] at hbatch
        exact (Except.ok.inj hbatch).symm

/-- The calls for two sources fail, and in each of two orders another one of them is the first to. -/
def TwoFailed (k k' : Calls) (r r' : Except RunError (List (Context × Output))) : Prop :=
  ∃ x ∈ k.answered, ∃ x' ∈ k'.answered, x.1.1 ≠ x'.1.1 ∧
    ∃ failure failure', settle x.1 x.2 = .error failure ∧ settle x'.1 x'.2 = .error failure' ∧
      r = .error failure ∧ r' = .error failure'

/-- Each of the calls that fail is reported in some order. -/
theorem exists_reported {answer : Path × List Context → Answer} (he : e ∈ gs) {failure : RunError}
    (h : settle e (answer e) = .error failure) : ∃ order : List (Path × List Context), order.Perm gs ∧
      Yields gs ⟨[], order.map fun e => (e, answer e), t⟩ (.error failure) := by
  obtain ⟨before, after, rfl⟩ := List.append_of_mem he
  exact ⟨e :: (before ++ after), List.perm_middle.symm, .failed (List.nil_append _).symm nofun h⟩

/-- The order of the answers matters only to which of several failures is reported. -/
theorem Yields.eq_or_two_failed {t' : Tree} (hgs : (gs.map Prod.fst).Nodup)
    (hk : Reached ask gs t k) (h : Yields gs k r) (hk' : Reached ask gs t' k')
    (h' : Yields gs k' r') (hagrees : k.Agrees k') : r' = r ∨ TwoFailed k k' r r' := by
  cases r with
  | ok outputs => exact .inl (h.eq_of_agrees hk' h' hagrees)
  | error failure =>
    cases r' with
    | ok outputs =>
      have hback : k'.Agrees k := fun e a a' ha ha' => (hagrees e a' a ha' ha).symm
      exact .inl (h'.eq_of_agrees hk h hback).symm
    | error failure' =>
      obtain ⟨⟨e, a⟩, hx, hfailure⟩ := h.exists_failed
      obtain ⟨⟨e', a'⟩, hx', hfailure'⟩ := h'.exists_failed
      by_cases heq : e.1 = e'.1
      · obtain rfl : e = e' := List.inj_on_of_nodup_map hgs (hk.mem hx) (hk'.mem hx') heq
        dsimp only at hfailure hfailure'
        rw [← hagrees e a a' hx hx', hfailure] at hfailure'
        exact .inl hfailure'.symm
      · exact .inr ⟨_, hx, _, hx', heq, failure, failure', hfailure, hfailure', rfl, rfl⟩

end Calls

theorem exec_generate_cons (backend : Backend) (settings : Settings) (units : List SourceUnit)
    (e : Path × List Context) (groups : List (Path × List Context)) (cache : Cache) (t : Tree) :
    exec (generate backend settings (schemaText units) (e :: groups)) cache t =
      match settle e ((asking backend settings units e).run t).1 with
      | .error failure => ((.error failure, cache), ((asking backend settings units e).run t).2)
      | .ok batch => exec (do
          return batch ++ (← generate backend settings (schemaText units) groups)) cache
            ((asking backend settings units e).run t).2 := by
  obtain ⟨source, group⟩ := e
  rw [generate, exec_bind, exec_generateGroup backend settings units (source, group)]
  cases settle (source, group) ((asking backend settings units (source, group)).run t).1 <;> rfl

/-- Asking for one group after the other is one way for the calls to go. -/
theorem exec_generate_reached (backend : Backend) (settings : Settings) (units : List SourceUnit)
    (groups : List (Path × List Context)) (cache : Cache) (t : Tree) :
    ∃ k r, Calls.Reached (asking backend settings units) groups t k ∧ Calls.Yields groups k r ∧
      exec (generate backend settings (schemaText units) groups) cache t = ((r, cache), k.tree) := by
  induction groups generalizing t with
  | nil =>
    have hnone : Calls.Yields [] ⟨[], [], t⟩ (.ok [].flatten) := .done .nil
    exact ⟨⟨[], [], t⟩, .ok [], .refl, hnone, rfl⟩
  | cons e groups ih =>
    have houtcome := (asking backend settings units e).outcome_run t
    rw [exec_generate_cons]
    generalize (asking backend settings units e).run t = x at houtcome
    obtain ⟨a, t₁⟩ := x
    dsimp only at houtcome ⊢
    cases hsettle : settle e a with
    | error failure =>
      have hfirst : Calls.Yields (e :: groups) ⟨groups, [(e, a)], t₁⟩ (.error failure) :=
        .failed (List.nil_append _).symm nofun hsettle
      exact ⟨_, _, Calls.Reached.cons houtcome .refl, hfirst, rfl⟩
    | ok batch =>
      obtain ⟨k, r, hreached, hyields, hexec⟩ := ih t₁
      refine ⟨_, _, hreached.cons houtcome, hyields.cons hsettle, ?_⟩
      dsimp only
      rw [exec_bind, hexec]
      cases r <;> rfl

/-! ### The calls of a run -/

/-- The contexts of a source that are not skipped, in order. -/
def staleOf (contexts : List Context) (p : Path) : List Context :=
  contexts.filter fun c => c.path.same p && !c.skip

theorem eq_staleOf (he : e ∈ (staleGroups contexts).toList) : e.2 = staleOf contexts e.1 := by
  rw [toList_staleGroups, List.mem_map] at he
  obtain ⟨x, hx, rfl⟩ := he
  exact (congrArg List.reverse (eq_of_mem_gather hx)).trans (List.reverse_reverse _)

/-- The files of a context that is not skipped hold what was said of the last such context of its source
and hash. -/
def Delivered (contexts : List Context) (answered : List ((Path × List Context) × Answer))
    (t : Tree) : Prop :=
  ∀ c ∈ contexts, c.skip = false → ∃ x ∈ answered, x.1.1 = c.path ∧ ∃ os, x.2 = .ok os ∧
    ∃ before d o after, (staleOf contexts c.path).zip os = before ++ (d, o) :: after ∧
      d.hash = c.hash ∧ (∀ y ∈ after, y.1.hash ≠ c.hash) ∧
      ∀ f : Artifact, t.read (f.full c.paths) = .ok (f.text o).toUTF8

theorem exists_of_lastOutput? {p : Path} {h : ContentHash} {o : Output}
    (hlast : lastOutput? outputs p h = some o) : ∃ before d after, outputs = before ++ (d, o) :: after ∧
      d.path.same p = true ∧ d.hash = h ∧ ∀ y ∈ after, ¬(y.1.path.same p = true ∧ y.1.hash = h) := by
  obtain ⟨⟨d, o'⟩, hfind, rfl⟩ := Option.map_eq_some_iff.1 hlast
  obtain ⟨hd, later, earlier, hreverse, hlater⟩ := List.find?_eq_some_iff_append.1 hfind
  refine ⟨earlier.reverse, d, later.reverse, ?_, ?_⟩
  · have heq := congrArg List.reverse hreverse
    simpa using heq
  · simp only [Bool.and_eq_true, beq_iff_eq] at hd
    refine ⟨hd.1, hd.2, ?_⟩
    rintro y hy ⟨hpath, hhash⟩
    have hnot := hlater y (List.mem_reverse.1 hy)
    simp [hpath, hhash] at hnot

/-- A context that is not skipped is in the group of its source. -/
theorem exists_group (hlogical : ∀ c ∈ contexts, c.path.Logical) {c : Context} (hc : c ∈ contexts)
    (hskip : c.skip = false) : ∃ e ∈ (staleGroups contexts).toList, e.1 = c.path ∧ c ∈ e.2 := by
  obtain ⟨e, he, hce⟩ := exists_mem_staleGroups hc hskip
  have hgroup := gathered_of_mem_staleGroups he
  obtain ⟨d, hd, hkey⟩ := hgroup.key
  have hsame := (hgroup.stale c hce).2.2
  rw [← hkey] at hsame
  exact ⟨e, he, hkey ▸ (hlogical d hd).eq_of_same (hlogical c hc) hsame, hce⟩

/-- No two groups are for the same path. -/
theorem pairwise_staleGroups (contexts : List Context) :
    (staleGroups contexts).toList.Pairwise fun e e' => e.1.same e'.1 = false := by
  refine (staleGroups contexts).sorted.imp fun hlt => Bool.eq_false_iff.2 fun hsame => ?_
  rw [Path.compare_eq_iff.2 hsame] at hlt
  cases hlt

theorem nodup_staleGroups (contexts : List Context) :
    ((staleGroups contexts).toList.map Prod.fst).Nodup := by
  refine List.pairwise_map.2 ((pairwise_staleGroups contexts).imp fun hnot heq => ?_)
  rw [heq, Path.same_self] at hnot
  cases hnot

section Run
variable {ask : Path × List Context → Program Answer} {k : Calls}
  (hk : Calls.Reached ask (staleGroups contexts).toList t k)
include hk

theorem pairwise_calls : k.all.Pairwise fun e e' => e.1.same e'.1 = false :=
  (hk.perm.pairwise_iff fun h => by rwa [Path.same_comm]).2 (pairwise_staleGroups contexts)

theorem answer_unique {x y : (Path × List Context) × Answer} (hx : x ∈ k.answered)
    (hy : y ∈ k.answered) (hsame : x.1.1.same y.1.1 = true) : x = y := by
  have hanswered : k.answered.Pairwise fun x y => x.1.1.same y.1.1 = false :=
    List.pairwise_map.1 (List.pairwise_append.1 (pairwise_calls hk)).2.1
  have hsymm : Std.Symm fun x y : (Path × List Context) × Answer => x.1.1.same y.1.1 = false :=
    ⟨fun _ _ h => by rwa [Path.same_comm]⟩
  by_contra hne
  have hnot := hanswered.forall hx hy hne
  rw [hsame] at hnot
  cases hnot

theorem eq_of_group {e' : Path × List Context} {batch' : List (Context × Output)} {a' : Answer}
    (ha : (e, a) ∈ k.answered) (hbatch : settle e a = .ok batch) (ha' : (e', a') ∈ k.answered)
    (hbatch' : settle e' a' = .ok batch') (hsame : e'.1.same e.1 = true) : batch' = batch := by
  obtain ⟨rfl, rfl⟩ := Prod.mk.inj (answer_unique hk ha' ha hsame)
  exact Except.ok.inj (hbatch'.symm.trans hbatch)

/-- The last output for a source stands in the group of the source. -/
theorem lastOutput?_flatten {batches : List (List (Context × Output))}
    (hall : List.Forall₂ (fun e batch => ∃ a, (e, a) ∈ k.answered ∧ settle e a = .ok batch)
      (staleGroups contexts).toList batches)
    (hmem : batch ∈ batches) (ha : (e, a) ∈ k.answered) (hbatch : settle e a = .ok batch)
    (h : ContentHash) : lastOutput? batches.flatten e.1 h = lastOutput? batch e.1 h := by
  have hflatten : batches.flatten.reverse = batches.reverse.flatMap List.reverse := by
    rw [List.reverse_flatten, ← List.map_reverse, List.flatMap_def]
  rw [lastOutput?, lastOutput?, hflatten, find?_flatMap batch.reverse]
  · intro other hother
    obtain ⟨e', he', a', ha', hbatch'⟩ := exists_of_mem_right hall (List.mem_reverse.1 hother)
    by_cases hsame : e'.1.same e.1 = true
    · exact .inl (congrArg List.reverse (eq_of_group hk ha hbatch ha' hbatch' hsame))
    · right
      rw [List.find?_eq_none]
      intro x hx hfound
      obtain ⟨os, -, -, rfl⟩ := settle_eq_ok.1 hbatch'
      have hstale := (gathered_of_mem_staleGroups he').stale x.1
        (List.of_mem_zip (List.mem_reverse.1 hx)).1
      have hpath : x.1.path.same e.1 = true := (Bool.and_eq_true _ _ ▸ hfound).1
      rw [Path.same, eq_of_beq hstale.2.2] at hsame
      exact hsame hpath
  · exact .inl ⟨batch, List.mem_reverse.2 hmem, rfl⟩

/-- Once the outputs are written they are where they belong. -/
theorem delivered_of_written {layout : Layout} (hplaced : ∀ c ∈ contexts, Placed layout c)
    (h : Calls.Yields (staleGroups contexts).toList k (.ok outputs)) {cache cache' : Cache} {t₁ t₂ : Tree}
    {u : Unit} (hw : exec (writeOutputs outputs) cache t₁ = ((.ok u, cache'), t₂)) :
    Delivered contexts k.answered t₂ := by
  generalize hr : Except.ok outputs = r at h
  cases h with
  | failed hx _ hfailure => cases hr
  | @done batches hall =>
    obtain rfl := Except.ok.inj hr
    have hout : ∀ x ∈ batches.flatten, Placed layout x.1 := by
      intro x hx
      obtain ⟨batch, hbatch, hx⟩ := List.mem_flatten.1 hx
      obtain ⟨e, he, a, -, hsettle⟩ := exists_of_mem_right hall hbatch
      obtain ⟨os, -, -, rfl⟩ := settle_eq_ok.1 hsettle
      exact hplaced _ ((gathered_of_mem_staleGroups he).stale x.1 (List.of_mem_zip hx).1).1
    have hwritten := wroteAll_of_writeOutputs (fun x hx => (hout x hx).paths) hw
    intro c hc hskip
    have hplace := hplaced c hc
    obtain ⟨e, he, hpath, hce⟩ := exists_group (fun c hc => (hplaced c hc).logical) hc hskip
    have hgroup := gathered_of_mem_staleGroups he
    obtain ⟨batch, hbatch, a, ha, hsettle⟩ := exists_of_mem_left hall he
    obtain ⟨os, rfl, hlen, rfl⟩ := settle_eq_ok.1 hsettle
    have hlast := lastOutput?_flatten hk hall hbatch ha hsettle c.hash
    -- the context has an output, so there is a last one
    obtain ⟨o, ho⟩ : ∃ o, lastOutput? (e.2.zip os) e.1 c.hash = some o := by
      rw [← List.map_fst_zip (Nat.le_of_eq hlen.symm)] at hce
      obtain ⟨x, hx, rfl⟩ := List.mem_map.1 hce
      refine Option.ne_none_iff_exists'.1 fun hnone => lastOutput?_eq_none.1 hnone x hx ⟨?_, rfl⟩
      rw [hpath, Path.same_self]
    obtain ⟨before, d, after, hzip, hdpath, hdhash, hafter⟩ := exists_of_lastOutput? ho
    have hd : (d, o) ∈ batches.flatten :=
      List.mem_flatten.2 ⟨_, hbatch, by rw [hzip]; exact List.mem_append_right _ List.mem_cons_self⟩
    have hfull : ∀ f : Artifact, f.full d.paths = f.full c.paths := by
      intro f
      rw [(hout _ hd).paths, hplace.paths, hdhash,
        (hout _ hd).logical.eq_of_same hplace.logical (hpath ▸ hdpath)]
    refine ⟨(e, .ok os), ha, hpath, os, rfl, before, d, o, after, ?_, hdhash, fun y hy hhash => ?_,
      fun f => ?_⟩
    · rw [← hzip, eq_staleOf he, hpath]
    · have hy' : y ∈ e.2.zip os := by
        rw [hzip]
        exact List.mem_append_right _ (List.mem_cons_of_mem _ hy)
      refine hafter y hy ⟨?_, hhash⟩
      rw [Path.same_comm]
      exact (hgroup.stale y.1 (List.of_mem_zip hy').1).2.2
    · rw [Tree.read_eq_ok, ← hfull]
      refine ⟨hwritten.reaches _ (mem_writes hd f), hwritten.written _ _ ?_⟩
      rw [hfull, hplace.place_full, lastWrite?_writes hout hplace.logical, ← hpath, hlast, ho]
      rfl

/-- A call that does not go well is the end of it. -/
theorem exists_error_of_not_covers {x : (Path × List Context) × Answer} (hx : x ∈ k.answered)
    (hnot : ¬Covers x.1 x.2) {r : Except RunError (List (Context × Output))}
    (h : Calls.Yields (staleGroups contexts).toList k r) : ∃ failure, r = .error failure := by
  cases h with
  | failed hx _ hfailure => exact ⟨_, rfl⟩
  | done hall =>
    obtain ⟨e, a⟩ := x
    obtain ⟨batch, -, a', ha, hbatch⟩ := exists_of_mem_left hall (hk.mem hx)
    obtain ⟨-, rfl⟩ := Prod.mk.inj (answer_unique hk ha hx (Path.same_self _))
    exact absurd (covers_iff.2 ⟨batch, hbatch⟩) hnot

end Run

theorem ne_nil_of_mem_gather {e : Path × List Context} (he : e ∈ (gather contexts).toList) :
    e.2 ≠ [] := by
  induction contexts using List.reverseRecOn with
  | nil => cases he
  | append_singleton contexts c ih =>
    rw [gather_concat] at he
    split at he
    · exact ih he
    · rcases OrderedMap.mem_insert he with he | ⟨-, hgroup⟩
      · exact ih he
      · rw [hgroup]
        exact List.cons_ne_nil _ _

/-- Only sources with a context that is not skipped have a group. -/
theorem exists_stale_of_mem (hlogical : ∀ c ∈ contexts, c.path.Logical)
    (he : e ∈ (staleGroups contexts).toList) : ∃ c ∈ contexts, c.skip = false ∧ c.path = e.1 := by
  have hgroup := gathered_of_mem_staleGroups he
  obtain ⟨d, hd, hkey⟩ := hgroup.key
  obtain ⟨c, hc⟩ : ∃ c, c ∈ e.2 := by
    rw [toList_staleGroups, List.mem_map] at he
    obtain ⟨x, hx, rfl⟩ := he
    exact List.exists_mem_of_ne_nil _ (List.reverse_ne_nil_iff.2 (ne_nil_of_mem_gather hx))
  obtain ⟨hmem, hskip, hsame⟩ := hgroup.stale c hc
  rw [← hkey] at hsame ⊢
  exact ⟨c, hmem, hskip, ((hlogical d hd).eq_of_same (hlogical c hmem) hsame).symm⟩

/-- What the calls ask for: each is for a source with contexts that are not skipped, and for all of
these, and no two are for the same source. -/
structure Asked (settings : Settings) (units : List SourceUnit) (contexts : List Context)
    (calls : List (Path × List Context)) : Prop where
  stale : ∀ e ∈ calls, ∃ c ∈ contexts, c.skip = false ∧ c.path = e.1
  once : (calls.map Prod.fst).Nodup
  request : ∀ e ∈ calls, request settings (schemaText units) e.1 e.2 =
    ⟨e.1, "\n".intercalate ((units.filter SourceUnit.isSchema).map SourceUnit.content),
      (staleOf contexts e.1).map fun c => ⟨c.unit.kind.text, c.hash, c.unit.content⟩,
      settings.plugins, settings.options⟩

theorem asked_of_reached {ask : Path × List Context → Program Answer} {k : Calls}
    (hk : Calls.Reached ask (staleGroups contexts).toList t k)
    (hlogical : ∀ c ∈ contexts, c.path.Logical) : Asked settings units contexts k.all := by
  refine ⟨fun e he => exists_stale_of_mem hlogical (hk.perm.mem_iff.1 he),
    (hk.perm.map Prod.fst).nodup_iff.2 (nodup_staleGroups contexts), fun e he => ?_⟩
  rw [request, eq_staleOf (hk.perm.mem_iff.1 he), schemaText]

/-- What a run comes to once its calls have come to `r` and left the files as in `t`. -/
def concluded (scope : Scope) (contexts : List Context) (s : Session)
    (r : Except RunError (List (Context × Output))) (t : Tree) :
    (Except RunError (List Context) × Session) × Tree :=
  match r with
  | .error e => ((.error e, s), t)
  | .ok outputs =>
    match exec (publish s.settings scope contexts outputs) s.cache t with
    | ((.error e, cache), t') => ((.error e, { s with cache }), t')
    | ((.ok (contexts, summary), cache), t') => ((.ok contexts, { s with cache, summary }), t')

/-- The session once the cache is loaded. -/
def loaded (s : Session) (t : Tree) : Session := { s with cache := s.cache.loaded t }

theorem run_eq_concluded {s : Session} {scope : Scope} {r : Except RunError (List (Context × Output))}
    (hb : s.contexts? units t = some contexts)
    (hgenerate : exec (generate backend s.settings (schemaText units) (staleGroups contexts).toList)
      (s.cache.loaded t) t = ((r, s.cache.loaded t), t')) :
    (Session.run backend scope units s).run t = concluded scope contexts (s.loaded t) r t' := by
  rw [run_eq, exec_runCache, hb]
  dsimp only
  rw [exec_bind, hgenerate]
  cases r with
  | error e => rfl
  | ok outputs => rfl

/-- What becomes of the answers to the calls of a run. -/
structure Handled (backend : Backend) (scope : Scope) (units : List SourceUnit)
    (contexts : List Context) (s : Session) (t : Tree) (k : Calls)
    (r : Except RunError (List (Context × Output))) : Prop where
  /-- A run that succeeds has asked for every source that it has to ask for. -/
  complete : (concluded scope contexts s r k.tree).1.1.isOk = true →
    ∀ c ∈ contexts, c.skip = false → ∃ x ∈ k.answered, x.1.1 = c.path
  /-- Answers that fit are written to the files of their contexts. -/
  delivered : (∀ x ∈ k.answered, Covers x.1 x.2) → ∃ outputs, r = .ok outputs ∧
    ∀ cache t', exec (writeOutputs outputs) s.cache k.tree = ((.ok (), cache), t') →
      Delivered contexts k.answered t'
  /-- One that does not fit makes the run fail, and nothing is written. -/
  refused : (∃ x ∈ k.answered, ¬Covers x.1 x.2) →
    ∃ failure, concluded scope contexts s r k.tree = ((.error failure, s), k.tree)
  /-- In any other order the same answers come to the same, unless the calls for two sources fail: then
  the run fails as well. -/
  order : ∀ k' r', Calls.Reached (asking backend s.settings units) (staleGroups contexts).toList t k' →
    Calls.Yields (staleGroups contexts).toList k' r' → k.Agrees k' →
    r' = r ∨ Calls.TwoFailed k k' r r'

theorem handled_of_reached {s : Session} {k : Calls} {r : Except RunError (List (Context × Output))}
    (hplaced : ∀ c ∈ contexts, Placed s.settings.layout c) {scope : Scope}
    (hk : Calls.Reached (asking backend s.settings units) (staleGroups contexts).toList t k)
    (h : Calls.Yields (staleGroups contexts).toList k r) :
    Handled backend scope units contexts s t k r := by
  refine ⟨fun hok c hc hskip => ?_, fun hcovers => ?_, ?_,
    fun k' r' hk' h' hagrees => h.eq_or_two_failed (nodup_staleGroups contexts) hk hk' h' hagrees⟩
  · obtain ⟨e, he, hpath, -⟩ := exists_group (fun c hc => (hplaced c hc).logical) hc hskip
    cases h with
    | failed hx _ hfailure => cases hok
    | done hall =>
      obtain ⟨batch, -, a, ha, -⟩ := exists_of_mem_left hall he
      exact ⟨_, ha, hpath⟩
  · cases r with
    | error failure =>
      obtain ⟨x, hx, hfailure⟩ := h.exists_failed
      exact absurd (hcovers x hx) (not_covers_iff.2 ⟨_, hfailure⟩)
    | ok outputs => exact ⟨_, rfl, fun cache t' hw => delivered_of_written hk hplaced h hw⟩
  · rintro ⟨x, hx, hnot⟩
    obtain ⟨failure, rfl⟩ := exists_error_of_not_covers hk hx hnot h
    exact ⟨failure, rfl⟩

/-- Whatever the backend says and in whichever order its calls complete, every output goes to its own
context. -/
theorem outputs_delivered (hlogical : ∀ u ∈ units, u.path.Logical)
    (hschema : ∃ u ∈ units, u.isSchema = true) (backend : Backend) (scope : Scope) (s : Session)
    (t : Tree) : ∃ contexts, s.contexts? units t = some contexts ∧ contexts.map Context.unit = units ∧
    (∃ k r, Calls.Reached (asking backend s.settings units) (staleGroups contexts).toList t k ∧
      Calls.Yields (staleGroups contexts).toList k r ∧
      (Session.run backend scope units s).run t = concluded scope contexts (s.loaded t) r k.tree) ∧
    ∀ k, Calls.Reached (asking backend s.settings units) (staleGroups contexts).toList t k →
      Asked s.settings units contexts k.all ∧ (backend.LeavesFiles → k.tree = t) ∧
      ∀ r, Calls.Yields (staleGroups contexts).toList k r →
        Handled backend scope units contexts (s.loaded t) t k r := by
  obtain ⟨identity, hidentity⟩ : ∃ identity, schemaIdentity? s.settings.configHash units = some identity := by
    obtain ⟨u, hu, hisSchema⟩ := hschema
    have hne : units.filter SourceUnit.isSchema ≠ [] :=
      List.ne_nil_of_mem (List.mem_filter.2 ⟨hu, hisSchema⟩)
    rw [schemaIdentity?]
    cases hfilter : units.filter SourceUnit.isSchema with
    | nil => exact absurd hfilter hne
    | cons u us => exact ⟨_, rfl⟩
  obtain ⟨contexts, hb⟩ : ∃ contexts, s.contexts? units t = some contexts :=
    (Context.keys_of_batch? hidentity).imp fun _ h => h.1
  have hplaced : ∀ c ∈ contexts, Placed s.settings.layout c := by
    intro c hc
    obtain ⟨u, hu, hpath⟩ := Context.exists_unit_of_mem hb hc
    exact ⟨hpath ▸ hlogical u hu, (Context.faithful_of_batch? hb hc).paths⟩
  refine ⟨contexts, hb, Context.unit_of_batch? hb, ?_, fun k hk => ⟨?_, fun hleaves => ?_, fun r h => ?_⟩⟩
  · obtain ⟨k, r, hk, h, hgenerate⟩ := exec_generate_reached backend s.settings units
      (staleGroups contexts).toList (s.cache.loaded t) t
    exact ⟨k, r, hk, h, run_eq_concluded hb hgenerate⟩
  · exact asked_of_reached hk fun c hc => (hplaced c hc).logical
  · exact hk.tree_eq fun e => hleaves _
  · exact handled_of_reached (s := s.loaded t) hplaced hk h

/-! ### A project -/

/-- A script stands after a document whose path comes later, and has the same literal twice. -/
def calledUnits : List SourceUnit :=
  [⟨⟨"s.graphqls"⟩, "type Query { a: Int }", .schema⟩, ⟨⟨"b.gql"⟩, "{ a }", .document⟩,
    ⟨⟨"a.tsx"⟩, "{ a }", .literal⟩, ⟨⟨"a.tsx"⟩, "{ a }", .literal⟩]

def calledSession : Session :=
  .new ⟨⟨⟨"/p"⟩, ⟨".cache"⟩, ⟨"types"⟩⟩, .ofText "", [], .null, none⟩ (.new ⟨"/p"⟩ ⟨".cache"⟩ "1")

/-- A backend that answers with the texts that it gets. -/
def echo : Backend := .ofFunction fun r => .ok (r.documents.map fun d => ⟨d.content, d.kind⟩)

theorem logical_called : ∀ u ∈ calledUnits, u.path.Logical := by
  have hpaths : ∀ p ∈ [Path.mk "s.graphqls", ⟨"b.gql"⟩, ⟨"a.tsx"⟩], p.isAbsolute = false ∧
      p.normalize = p ∧ .parent ∉ p.components ∧ p.text ≠ "" := by decide +kernel
  have hmem : ∀ u ∈ calledUnits, u.path ∈ [Path.mk "s.graphqls", ⟨"b.gql"⟩, ⟨"a.tsx"⟩] := by
    simp [calledUnits]
  intro u hu
  obtain ⟨hrelative, hnormal, hparent, hne⟩ := hpaths _ (hmem u hu)
  exact ⟨⟨hrelative, hnormal, hparent⟩, hne⟩

theorem outputs_delivered_called :
    (∀ u ∈ calledUnits, u.path.Logical) ∧ (∃ u ∈ calledUnits, u.isSchema = true) ∧
    ∃ contexts k r, calledSession.contexts? calledUnits .empty = some contexts ∧
      contexts.map Context.unit = calledUnits ∧
      Calls.Yields (staleGroups contexts).toList k r ∧ k.tree = .empty ∧
      (Session.run echo .project calledUnits calledSession).run .empty =
        concluded .project contexts (calledSession.loaded .empty) r .empty ∧
      Asked calledSession.settings calledUnits contexts k.all ∧
      Handled echo .project calledUnits contexts (calledSession.loaded .empty) .empty k r := by
  have hschema : ∃ u ∈ calledUnits, u.isSchema = true := ⟨_, List.mem_cons_self, by decide⟩
  obtain ⟨contexts, hb, hunits, ⟨k, r, hk, hyields, hrun⟩, hall⟩ :=
    outputs_delivered logical_called hschema echo .project calledSession .empty
  obtain ⟨hasked, hleaves, hhandled⟩ := hall k hk
  have htree : k.tree = .empty := hleaves (Backend.leavesFiles_ofFunction _)
  rw [htree] at hrun
  exact ⟨logical_called, hschema, contexts, k, r, hb, hunits, hyields, htree, hrun, hasked,
    hhandled r hyields⟩

/-- A backend that refuses every source. -/
def refusing : Backend := .ofFunction fun _ => .error (.plain "no")

/-- Where the calls for two sources fail, the order in which they complete decides what the run comes
to. -/
theorem reported_by_order : ∃ contexts k k', calledSession.contexts? calledUnits .empty = some contexts ∧
    Calls.Reached (asking refusing calledSession.settings calledUnits) (staleGroups contexts).toList
      .empty k ∧
    Calls.Reached (asking refusing calledSession.settings calledUnits) (staleGroups contexts).toList
      .empty k' ∧
    k.waiting = [] ∧ k'.waiting = [] ∧ k.answered.Perm k'.answered ∧ ∃ r r',
      Calls.Yields (staleGroups contexts).toList k r ∧ Calls.Yields (staleGroups contexts).toList k' r' ∧
      (concluded .project contexts (calledSession.loaded .empty) r k.tree).1.1 =
        .error (.refused ⟨"a.tsx"⟩ (.plain "no")) ∧
      (concluded .project contexts (calledSession.loaded .empty) r' k'.tree).1.1 =
        .error (.refused ⟨"b.gql"⟩ (.plain "no")) := by
  obtain ⟨identity, hidentity⟩ :
      ∃ identity, schemaIdentity? calledSession.settings.configHash calledUnits = some identity :=
    ⟨_, rfl⟩
  obtain ⟨contexts, hb⟩ : ∃ contexts, calledSession.contexts? calledUnits .empty = some contexts :=
    (Context.keys_of_batch? hidentity).imp fun _ h => h.1
  have hlogical : ∀ c ∈ contexts, c.path.Logical := by
    intro c hc
    obtain ⟨u, hu, hpath⟩ := Context.exists_unit_of_mem hb hc
    exact hpath ▸ logical_called u hu
  -- nothing has been recorded, so every unit has a group
  have hgroup : ∀ u ∈ calledUnits, ∃ e ∈ (staleGroups contexts).toList, e.1 = u.path := by
    intro u hu
    rw [← Context.unit_of_batch? hb] at hu
    obtain ⟨c, hc, rfl⟩ := List.mem_map.1 hu
    have hskip : c.skip = false := (Context.faithful_of_batch? hb hc).skip
    obtain ⟨e, he, hpath, -⟩ := exists_group hlogical hc hskip
    exact ⟨e, he, hpath⟩
  have hreported : ∀ u ∈ calledUnits, ∃ order : List (Path × List Context),
      order.Perm (staleGroups contexts).toList ∧ Calls.Yields (staleGroups contexts).toList
        ⟨[], order.map fun e => (e, .error (.plain "no")), .empty⟩
        (.error (.refused u.path (.plain "no"))) := by
    intro u hu
    obtain ⟨e, he, hpath⟩ := hgroup u hu
    exact Calls.exists_reported he (hpath ▸ rfl)
  obtain ⟨order, horder, h⟩ := hreported ⟨⟨"a.tsx"⟩, "{ a }", .literal⟩ (by simp [calledUnits])
  obtain ⟨order', horder', h'⟩ := hreported ⟨⟨"b.gql"⟩, "{ a }", .document⟩ (by simp [calledUnits])
  exact ⟨contexts, _, _, hb, Calls.reached_of_perm (fun _ => rfl) horder,
    Calls.reached_of_perm (fun _ => rfl) horder', rfl, rfl, (horder.trans horder'.symm).map _, _, _, h, h',
    rfl, rfl⟩

end Session

end GqlArtifacts
