import GqlArtifacts.Glob.Expansion
import GqlArtifacts.Proofs.Files.Reading
import GqlArtifacts.Proofs.Files.Atomic
import GqlArtifacts.Proofs.OrderedMap

/-!
# What a glob finds

`Glob.search` follows the parts of a pattern from a directory on. `Step` is one step of it, to an
entry, to a directory itself or to its parent, and `Leads` a way of such steps; `found_search` says
that the search never fails and finds just what the parts lead to.
-/

namespace GqlArtifacts.Glob

open Files Program

/-! ### Ways -/

/-- Whether a plain text names something in a directory. -/
def finds (t : Tree) (p : Path) (s : String) : Bool :=
  if s = "." ∨ s = ".." then t.isFolder p else t.holds (p / ⟨s⟩)

/-- An entry of a directory stands for the first part, and the other parts remain. Directories nested
to any depth are left by an entry that the next part stands for. -/
inductive Enters (t : Tree) : List Part → Path → String → List Part → Prop
  | name {ts : List Token} {rest : List Part} {p : Path} {name : String}
      (hfits : fits ts name.toList = true) : Enters t (.name ts :: rest) p name rest
  | down {rest : List Part} {p : Path} {name : String} (hdir : t.isFolder p = true) :
      Enters t (.tree :: rest) p name (.tree :: rest.dropWhile (· == .tree))
  | leave {ts : List Token} {rest rest' : List Part} {p : Path} {name : String}
      (hrest : rest.dropWhile (· == .tree) = .name ts :: rest')
      (hfits : fits ts name.toList = true) : Enters t (.tree :: rest) p name rest'

/-- The first part leads from a path to another: to what a plain text names, to an entry of a
directory, or to the directory itself or its parent. -/
inductive Step (t : Tree) : List Part → Path → List Part → Path → Prop
  | plain {part : Part} {rest : List Part} {p : Path} {cs : List Char}
      (hpart : part.literal? = some cs) (hfinds : finds t p (String.ofList cs) = true) :
      Step t (part :: rest) p rest (p / ⟨String.ofList cs⟩)
  | enter {part : Part} {rest parts' : List Part} {p : Path} {name : String}
      (hpart : part.literal? = none) (hp : t.isFolder p = true) (hname : name ∈ t.names p)
      (h : Enters t (part :: rest) (p / ⟨name⟩) name parts') :
      Step t (part :: rest) p parts' (p / ⟨name⟩)
  | dots {part : Part} {rest : List Part} {p : Path} {name : String}
      (hpart : part.literal? = none) (hp : t.isFolder p = true) (hname : name ∈ dotNames part) :
      Step t (part :: rest) p rest (p / ⟨name⟩)

/-- All parts lead from a path to another, in at most `n` steps. -/
inductive Leads (t : Tree) : Nat → List Part → Path → Path → Prop
  | arrive {n : Nat} {p : Path} : Leads t n [] p p
  | step {n : Nat} {parts parts' : List Part} {p p' q : Path} (h : Step t parts p parts' p')
      (hrest : Leads t n parts' p' q) : Leads t (n + 1) parts p q

variable {t : Tree} {n : Nat} {part : Part} {parts rest : List Part} {p q : Path} {name : String}
  {f : List Part → Path → SearchM (List Path)}

theorem leads_nil : Leads t n [] p q ↔ q = p := by
  constructor
  · rintro (_ | ⟨⟨⟩, -⟩)
    rfl
  · rintro rfl
    exact .arrive

theorem leads_succ : Leads t (n + 1) (part :: rest) p q ↔
    ∃ parts' p', Step t (part :: rest) p parts' p' ∧ Leads t n parts' p' q := by
  constructor
  · rintro (_ | ⟨h, hrest⟩)
    exact ⟨_, _, h, hrest⟩
  · rintro ⟨parts', p', h, hrest⟩
    exact .step h hrest

/-! ### Searching only looks -/

/-- The part of `visit` that looks at a single name. -/
def enter (f : List Part → Path → SearchM (List Path)) (p : Path) (name : String) :
    List Part → SearchM (List Path)
  | .name ts :: rest => if fits ts name.toList then arrive f rest p else return []
  | _ => return []

theorem visit_tree : visit f (.tree :: rest) p name = (do
    let inside ← if ← liftM (isDirectory p) then f (.tree :: rest.dropWhile (· == .tree)) p
      else pure []
    return inside ++ (← enter f p name (rest.dropWhile (· == .tree)))) := rfl

theorem visit_name {ts : List Token} :
    visit f (.name ts :: rest) p name = enter f p name (.name ts :: rest) := rfl

section Reads
variable (hf : ∀ parts p, Reads (f parts p))
include hf

theorem reads_arrive (rest : List Part) (p : Path) : Reads (arrive f rest p) := by
  rw [arrive]
  split
  · exact .pure _
  · exact hf _ _

theorem reads_enter (p : Path) (name : String) (parts : List Part) :
    Reads (enter f p name parts) := by
  unfold enter
  split
  · split
    · exact reads_arrive hf _ _
    · exact .pure _
  · exact .pure _

theorem reads_visit (parts : List Part) (p : Path) (name : String) :
    Reads (visit f parts p name) := by
  cases parts with
  | nil => exact .pure _
  | cons part rest =>
    cases part with
    | name ts =>
      rw [visit_name]
      exact reads_enter hf p name _
    | tree =>
      rw [visit_tree]
      refine .bind (.lift (looks_isDirectory p)) fun b => ?_
      split
      · exact .bind (hf _ _) fun _ => .bind (reads_enter hf _ _ _) fun _ => .pure _
      · exact .bind (.pure _) fun _ => .bind (reads_enter hf _ _ _) fun _ => .pure _

end Reads

theorem reads_search (n : Nat) (parts : List Part) (p : Path) : Reads (search n parts p) := by
  induction n generalizing parts p with
  | zero => exact .pure _
  | succ n ih =>
    cases parts with
    | nil => exact .pure _
    | cons part rest =>
      have hfound : ∀ (found : Bool) (next : Path), Reads (if found = true then
          arrive (search n) rest next else return [] : SearchM (List Path)) := fun found next => by
        split
        · exact reads_arrive ih _ _
        · exact .pure _
      rw [search]
      split
      · dsimp only
        split
        · exact .bind (.lift (looks_isDirectory p)) fun _ => hfound _ _
        · exact .bind (.lift (looks_exists? _)) fun _ => hfound _ _
      · refine .bind (.lift (looks_isDirectory p)) fun b => ?_
        split
        · refine .bind (.lift (looks_list p)) fun names => ?_
          split
          · exact .throw _
          · exact .bind (.mapM (fun _ => reads_visit ih _ _ _) _) fun _ =>
              .bind (.mapM (fun _ => reads_arrive ih _ _) _) fun _ => .pure _
        · exact .pure _

/-! ### Searching finds what the parts lead to -/

/-- A search that finds just the paths in `S`. -/
def Found (x : SearchM (List Path)) (t : Tree) (S : Path → Prop) : Prop :=
  ∃ qs, answer x t = .ok qs ∧ ∀ q, q ∈ qs ↔ S q

theorem Found.congr {x : SearchM (List Path)} {S S' : Path → Prop} (h : Found x t S)
    (hS : ∀ q, S q ↔ S' q) : Found x t S' := by
  obtain ⟨qs, hqs, hmem⟩ := h
  exact ⟨qs, hqs, fun q => (hmem q).trans (hS q)⟩

theorem found_nil {S : Path → Prop} (hS : ∀ q, ¬S q) :
    Found (return [] : SearchM (List Path)) t S := ⟨[], rfl, fun q => by simp [hS q]⟩

/-- What is found for each name. -/
theorem exists_answer_mapM {f : String → SearchM (List Path)} {S : String → Path → Prop}
    (names : List String) (hreads : ∀ name, Reads (f name))
    (h : ∀ name ∈ names, Found (f name) t (S name)) : ∃ found, answer (names.mapM f) t = .ok found ∧
      ∀ q, q ∈ found.flatten ↔ ∃ name ∈ names, S name q := by
  rw [answer_mapM hreads]
  induction names with
  | nil => exact ⟨[], rfl, fun q => by simp⟩
  | cons name names ih =>
    obtain ⟨qs, hqs, hmem⟩ := h name (List.mem_cons_self ..)
    obtain ⟨found, hfound, hmem'⟩ := ih fun name hn => h name (List.mem_cons_of_mem _ hn)
    refine ⟨qs :: found, ?_, fun q => ?_⟩
    · rw [List.mapM_cons, hqs, hfound]
      rfl
    · simp only [List.flatten_cons, List.mem_append, hmem, hmem', List.mem_cons, exists_eq_or_imp]

section Leads
variable (hf : ∀ parts p, parts ≠ [] → Found (f parts p) t (Leads t n parts p))
include hf

theorem found_arrive (rest : List Part) (p : Path) :
    Found (arrive f rest p) t (Leads t n rest p) := by
  rw [arrive]
  split
  · next hnil =>
    obtain rfl := List.isEmpty_iff.1 hnil
    exact ⟨[p], rfl, fun q => by rw [leads_nil, List.mem_singleton]⟩
  · next hne => exact hf rest p fun hnil => hne (List.isEmpty_iff.2 hnil)

theorem found_enter (p : Path) (name : String) (parts : List Part) :
    Found (enter f p name parts) t fun q => ∃ ts rest, parts = .name ts :: rest ∧
      fits ts name.toList = true ∧ Leads t n rest p q := by
  unfold enter
  split
  · next ts rest =>
    split
    · next hfits =>
      refine (found_arrive hf rest p).congr fun q => ⟨fun h => ⟨ts, rest, rfl, hfits, h⟩, ?_⟩
      rintro ⟨_, _, ⟨⟩, -, h⟩
      exact h
    · next hfits =>
      refine found_nil fun q => ?_
      rintro ⟨_, _, ⟨⟩, h, -⟩
      exact hfits h
  · next hne =>
    refine found_nil fun q => ?_
    rintro ⟨ts, rest, rfl, -⟩
    exact hne ts rest rfl

theorem found_visit (hreads : ∀ parts p, Reads (f parts p)) (parts : List Part) (p : Path)
    (name : String) : Found (visit f parts p name) t fun q =>
      ∃ parts', Enters t parts p name parts' ∧ Leads t n parts' p q := by
  cases parts with
  | nil => exact found_nil fun q => by rintro ⟨_, ⟨⟩, -⟩
  | cons part rest =>
    cases part with
    | name ts =>
      rw [visit_name]
      refine (found_enter hf p name _).congr fun q => ?_
      constructor
      · rintro ⟨_, _, ⟨⟩, hfits, h⟩
        exact ⟨_, .name hfits, h⟩
      · rintro ⟨_, ⟨hfits⟩, h⟩
        exact ⟨_, _, rfl, hfits, h⟩
    | tree =>
      obtain ⟨inside, hinside, hin⟩ : Found (if t.isFolder p = true then
          f (.tree :: rest.dropWhile (· == .tree)) p else return []) t fun q =>
          t.isFolder p = true ∧ Leads t n (.tree :: rest.dropWhile (· == .tree)) p q := by
        split
        · next hdir => exact (hf _ p (by simp)).congr fun q => by simp [hdir]
        · next hdir => exact found_nil fun q h => hdir h.1
      obtain ⟨left, hleft, hout⟩ := found_enter hf p name (rest.dropWhile (· == .tree))
      refine ⟨inside ++ left, ?_, fun q => ?_⟩
      · rw [visit_tree, answer_bind_lift (looks_isDirectory p), run_isDirectory]
        split at hinside
        · next hdir =>
          rw [if_pos hdir, answer_bind (hreads _ _), hinside]
          show answer (enter f p name _ >>= fun left => pure (inside ++ left)) t = _
          rw [answer_bind (reads_enter hreads _ _ _), hleft]
          rfl
        · next hdir =>
          obtain rfl := Except.ok.inj hinside
          rw [if_neg hdir]
          show answer (enter f p name _ >>= fun left => pure ([] ++ left)) t = _
          rw [answer_bind (reads_enter hreads _ _ _), hleft]
          rfl
      · rw [List.mem_append, hin, hout]
        constructor
        · rintro (⟨hdir, h⟩ | ⟨ts, rest', hrest, hfits, h⟩)
          · exact ⟨_, .down hdir, h⟩
          · exact ⟨_, .leave hrest hfits, h⟩
        · rintro ⟨parts', henters, h⟩
          cases henters with
          | down hdir => exact .inl ⟨hdir, h⟩
          | leave hrest hfits => exact .inr ⟨_, _, hrest, hfits, h⟩

end Leads

/-! ### One step of a search -/

theorem leads_of_plain {cs : List Char} (hpart : part.literal? = some cs) :
    Leads t (n + 1) (part :: rest) p q ↔
      finds t p (String.ofList cs) = true ∧ Leads t n rest (p / ⟨String.ofList cs⟩) q := by
  rw [leads_succ]
  constructor
  · rintro ⟨parts', p', hstep, h⟩
    cases hstep with
    | plain hpart' hfinds =>
      cases hpart.symm.trans hpart'
      exact ⟨hfinds, h⟩
    | enter hpart' => cases hpart.symm.trans hpart'
    | dots hpart' => cases hpart.symm.trans hpart'
  · rintro ⟨hfinds, h⟩
    exact ⟨_, _, .plain hpart hfinds, h⟩

theorem leads_of_wild (hpart : part.literal? = none) :
    Leads t (n + 1) (part :: rest) p q ↔ t.isFolder p = true ∧
      ((∃ name ∈ t.names p, ∃ parts', Enters t (part :: rest) (p / ⟨name⟩) name parts' ∧
          Leads t n parts' (p / ⟨name⟩) q) ∨
        ∃ name ∈ dotNames part, Leads t n rest (p / ⟨name⟩) q) := by
  rw [leads_succ]
  constructor
  · rintro ⟨parts', p', hstep, h⟩
    cases hstep with
    | plain hpart' => cases hpart.symm.trans hpart'
    | enter _ hp hname henters => exact ⟨hp, .inl ⟨_, hname, _, henters, h⟩⟩
    | dots _ hp hname => exact ⟨hp, .inr ⟨_, hname, h⟩⟩
  · rintro ⟨hp, ⟨name, hname, parts', henters, h⟩ | ⟨name, hname, h⟩⟩
    · exact ⟨_, _, .enter hpart hp hname henters, h⟩
    · exact ⟨_, _, .dots hpart hp hname, h⟩

theorem answer_plain {cs : List Char} (hpart : part.literal? = some cs) :
    answer (search (n + 1) (part :: rest) p) t =
      if finds t p (String.ofList cs) = true then
        answer (arrive (search n) rest (p / ⟨String.ofList cs⟩)) t else .ok [] := by
  rw [search, hpart, finds]
  dsimp only
  split
  · rw [answer_bind_lift (looks_isDirectory p), run_isDirectory]
    split <;> rfl
  · rw [answer_bind_lift (looks_exists? _), run_exists?]
    split <;> rfl

theorem answer_wild_of_not_isFolder (hpart : part.literal? = none) (hdir : ¬t.isFolder p = true) :
    answer (search (n + 1) (part :: rest) p) t = .ok [] := by
  rw [search, hpart]
  dsimp only
  rw [answer_bind_lift (looks_isDirectory p), run_isDirectory, if_neg hdir]
  rfl

theorem answer_wild (hpart : part.literal? = none) (hdir : t.isFolder p = true) :
    answer (search (n + 1) (part :: rest) p) t = do
      let found ← answer ((t.names p).mapM fun name =>
        visit (search n) (part :: rest) (p / ⟨name⟩) name) t
      let special ← answer ((dotNames part).mapM fun name =>
        arrive (search n) rest (p / ⟨name⟩)) t
      return found.flatten ++ special.flatten := by
  have hentries : Reads ((t.names p).mapM fun name =>
      visit (search n) (part :: rest) (p / ⟨name⟩) name) :=
    .mapM (fun _ => reads_visit (reads_search n) _ _ _) _
  have hspecial : Reads ((dotNames part).mapM fun name => arrive (search n) rest (p / ⟨name⟩)) :=
    .mapM (fun _ => reads_arrive (reads_search n) _ _) _
  rw [search, hpart]
  dsimp only
  rw [answer_bind_lift (looks_isDirectory p), run_isDirectory, if_pos hdir,
    answer_bind_lift (looks_list p)]
  have hlist : ((Program.list p).run t).1 = .ok (t.names p) := Tree.list_of_isFolder hdir
  rw [hlist]
  dsimp only
  rw [answer_bind hentries]
  congr 1
  funext found
  rw [answer_bind hspecial]
  rfl

/-- The search never fails. -/
theorem found_search (n : Nat) {parts : List Part} (p : Path) (hparts : parts ≠ []) :
    Found (search n parts p) t (Leads t n parts p) := by
  induction n generalizing parts p with
  | zero => exact found_nil fun q => by rintro (_ | _); exact hparts rfl
  | succ n ih =>
    obtain ⟨part, rest, rfl⟩ := List.exists_cons_of_ne_nil hparts
    have hrec : ∀ parts p, parts ≠ [] → Found (search n parts p) t (Leads t n parts p) :=
      fun parts p hne => ih p hne
    cases hpart : part.literal? with
    | some cs =>
      have hanswer : answer (search (n + 1) (part :: rest) p) t = _ := answer_plain hpart
      obtain ⟨qs, hqs, hmem⟩ := found_arrive hrec rest (p / ⟨String.ofList cs⟩)
      by_cases hfinds : finds t p (String.ofList cs) = true
      · rw [if_pos hfinds] at hanswer
        exact ⟨qs, hanswer.trans hqs, fun q => by rw [hmem, leads_of_plain hpart, and_iff_right hfinds]⟩
      · rw [if_neg hfinds] at hanswer
        exact ⟨[], hanswer, fun q => ⟨nofun, fun h => absurd ((leads_of_plain hpart).1 h).1 hfinds⟩⟩
    | none =>
      by_cases hdir : t.isFolder p = true
      · have hvisit := fun name => found_visit hrec (reads_search n) (part :: rest) (p / ⟨name⟩) name
        have hreads := fun name => reads_visit (reads_search n) (part :: rest) (p / ⟨name⟩) name
        have hdots := fun name => found_arrive hrec rest (p / ⟨name⟩)
        have hreads' := fun name => reads_arrive (reads_search n) rest (p / ⟨name⟩)
        obtain ⟨entries, hentries, hin⟩ :=
          exists_answer_mapM (t.names p) hreads fun name _ => hvisit name
        obtain ⟨special, hspecial, hin'⟩ :=
          exists_answer_mapM (dotNames part) hreads' fun name _ => hdots name
        refine ⟨entries.flatten ++ special.flatten, ?_, fun q => ?_⟩
        · rw [answer_wild hpart hdir, hentries, hspecial]
          rfl
        · rw [List.mem_append, hin, hin', leads_of_wild hpart, and_iff_right hdir]
      · exact ⟨[], answer_wild_of_not_isFolder hpart hdir, fun q =>
          ⟨nofun, fun h => absurd ((leads_of_wild hpart).1 h).1 hdir⟩⟩

/-! ### Expansions -/

theorem reads_filterAuxM (l acc : List Path) :
    Reads (l.filterAuxM (fun p => liftM (Program.isFile p)) acc : SearchM (List Path)) := by
  induction l generalizing acc with
  | nil => exact .pure _
  | cons p l ih => exact .bind (.lift (looks_isFile p)) fun _ => ih _

theorem answer_filterAuxM (l acc : List Path) :
    answer (l.filterAuxM (fun p => liftM (Program.isFile p)) acc : SearchM (List Path)) t =
      .ok ((l.filter fun p => t.isFile p).reverse ++ acc) := by
  induction l generalizing acc with
  | nil => rfl
  | cons p l ih =>
    rw [List.filterAuxM, answer_bind_lift (looks_isFile p), run_isFile, ih]
    cases h : t.isFile p <;> simp [h]

theorem reads_filterM (l : List Path) :
    Reads (l.filterM (fun p => liftM (Program.isFile p)) : SearchM (List Path)) :=
  .bind (reads_filterAuxM l []) fun _ => .pure _

theorem answer_filterM (l : List Path) :
    answer (l.filterM (fun p => liftM (Program.isFile p)) : SearchM (List Path)) t =
      .ok (l.filter fun p => t.isFile p) := by
  rw [List.filterM, answer_bind (reads_filterAuxM l []), answer_filterAuxM]
  show Except.ok _ = _
  rw [List.append_nil, List.reverse_reverse]

/-- What a pattern finds below a directory. -/
structure Hits (t : Tree) (root : Path) (g : Glob) (q : Path) : Prop where
  directory : g.directory = false
  parts : g.parts ≠ []
  leads : Leads t (Tree.pathLimit + g.parts.length) g.parts root q
  isFile : t.isFile q = true

/-- A pattern of one plain part finds what its text names. -/
theorem Hits.eq_of_plain {root : Path} {g : Glob} {cs : List Char} (h : Hits t root g q)
    (hparts : g.parts = [part]) (hpart : part.literal? = some cs) : q = root / ⟨String.ofList cs⟩ := by
  have hleads := h.leads
  rw [hparts] at hleads
  exact leads_nil.1 ((leads_of_plain hpart).1 hleads).2

theorem found_expand (root : Path) (g : Glob) : Found (expand root g) t (Hits t root g) := by
  rw [expand]
  split
  · next hdir => exact found_nil fun q h => by rw [h.directory] at hdir; cases hdir
  · next hdir =>
    by_cases hparts : g.parts = []
    · exact ⟨[], by rw [hparts]; rfl, fun q => ⟨nofun, fun h => absurd hparts h.parts⟩⟩
    · obtain ⟨qs, hqs, hmem⟩ := found_search (t := t) (Tree.pathLimit + g.parts.length) root hparts
      refine ⟨qs.filter fun p => t.isFile p, ?_, fun q => ?_⟩
      · rw [answer_bind (reads_search _ _ _), hqs]
        exact answer_filterM qs
      · rw [List.mem_filter, hmem]
        exact ⟨fun h => ⟨Bool.not_eq_true _ ▸ hdir, hparts, h.1, h.2⟩, fun h => ⟨h.leads, h.isFile⟩⟩

theorem reads_expand (root : Path) (g : Glob) : Reads (expand root g) := by
  rw [expand]
  split
  · exact .pure _
  · exact (reads_search _ _ _).bind fun _ => reads_filterM _

/-- The glob that a pattern is read as. -/
def ofPattern? (pattern : String) : Option Glob :=
  parse? (String.ofList (trimCurrent pattern.toList))

/-- The files that a pattern gives are those that it finds below the directory, as they are known
there. -/
def Matches (t : Tree) (root : Path) (pattern : String) (p : Path) : Prop :=
  ∃ g q p', ofPattern? pattern = some g ∧ Hits t root g q ∧ q.under? root = some p' ∧ logical p' = p

theorem reads_filesOf (root : Path) (pattern : String) : Reads (filesOf root pattern) := by
  unfold filesOf
  split
  · exact .throw _
  · exact (reads_expand _ _).bind fun _ => .pure _

theorem answer_filesOf {root : Path} {pattern : String} {ps : List Path}
    (h : answer (filesOf root pattern) t = .ok ps) : ∀ p, p ∈ ps ↔ Matches t root pattern p := by
  intro p
  unfold filesOf at h
  split at h
  · cases h
  · next g hg =>
    obtain ⟨qs, hqs, hmem⟩ := found_expand (t := t) root g
    rw [answer_bind (reads_expand root g), hqs] at h
    obtain rfl := Except.ok.inj h
    rw [List.mem_filterMap]
    constructor
    · rintro ⟨q, hq, hp⟩
      obtain ⟨p', hunder, rfl⟩ := Option.map_eq_some_iff.1 hp
      exact ⟨g, q, p', hg, (hmem q).1 hq, hunder, rfl⟩
    · rintro ⟨g', q, p', hg', hq, hunder, rfl⟩
      obtain rfl := Option.some.inj (hg.symm.trans hg')
      exact ⟨q, (hmem q).2 hq, Option.map_eq_some_iff.2 ⟨p', hunder, rfl⟩⟩

theorem reads_files (root : Path) (patterns : List String) : Reads (files root patterns) :=
  (Reads.mapM (reads_filesOf root) patterns).bind fun _ => .pure _

theorem answer_files (root : Path) (patterns : List String) (t : Tree) :
    answer (files root patterns) t = do
      let found ← patterns.mapM fun pattern => answer (filesOf root pattern) t
      return (OrderedMap.ofList (found.flatten.map fun p => (p, ())) :
        OrderedMap Path Unit Path.compare).keys := by
  rw [files, answer_bind (.mapM (reads_filesOf root) patterns), answer_mapM (reads_filesOf root)]
  rfl

/-- All files come from some pattern. -/
theorem matches_of_mem_files {root : Path} {patterns : List String} {ps : List Path}
    (h : answer (files root patterns) t = .ok ps) :
    ∀ p ∈ ps, ∃ pattern ∈ patterns, Matches t root pattern p := by
  intro p hp
  rw [answer_files] at h
  obtain ⟨found, hfound, hkeys⟩ := bind_eq_ok.1 h
  obtain rfl := Except.ok.inj hkeys
  have hmem := OrderedMap.mem_of_mem_keys_ofList hp
  rw [List.map_map] at hmem
  change p ∈ found.flatten.map id at hmem
  rw [List.map_id] at hmem
  obtain ⟨l, hl, hpl⟩ := List.mem_flatten.1 hmem
  obtain ⟨pattern, hpattern, hanswer⟩ := exists_of_mem_mapM hfound hl
  exact ⟨pattern, hpattern, (answer_filesOf hanswer p).1 hpl⟩

end GqlArtifacts.Glob
