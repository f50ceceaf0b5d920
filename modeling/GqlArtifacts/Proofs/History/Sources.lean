import GqlArtifacts.Proofs.History
import GqlArtifacts.Proofs.Session.Documents

/-!
# What a project is built from

`Sources` is the schema and the other files of a project, with the configuration and a backend that
answers each document by itself. A run builds some of the files together with the schema (`Asks`). All
that it makes of a source at a hash it makes of the last unit that has both (`last?`), and that is the
same unit in every run that has the source at all (`last?_unitsOf`).
-/

namespace GqlArtifacts

open Files

/-- A file that is no schema, and what it holds. -/
structure SourceFile where
  path : Path
  units : List SourceUnit
  logical : path.Logical
  within : ∀ u ∈ units, u.path = path
  noSchema : ∀ u ∈ units, u.isSchema = false

structure Sources where
  configHash : ContentHash
  plugins : List String
  options : Json
  /-- What the backend makes of a document. -/
  output : Path → String → List String → Json → RequestDocument → Output
  schema : List SourceUnit
  files : List SourceFile
  isSchema : ∀ u ∈ schema, u.isSchema = true
  logical : ∀ u ∈ schema, u.path.Logical
  distinct : ∀ f ∈ files, ∀ f' ∈ files, f.path = f'.path → f = f'
  apart : ∀ f ∈ files, ∀ u ∈ schema, u.path ≠ f.path

namespace Sources

variable {C : Sources} {fs : List SourceFile} {f : SourceFile} {scope : Scope} {j : Job}
  {us vs : List SourceUnit} {u : SourceUnit} {p : Path} {k : ContentHash} {layout : Layout}
  {m : Manifest} {contexts : List Context}

/-- The units of the schema and of some files. -/
def unitsOf (C : Sources) (fs : List SourceFile) : List SourceUnit :=
  C.schema ++ fs.flatMap SourceFile.units

/-- A job that builds some of the files. -/
structure Asks (C : Sources) (fs : List SourceFile) (scope : Scope) (j : Job) : Prop where
  configHash : j.configHash = C.configHash
  plugins : j.plugins = C.plugins
  options : j.options = C.options
  backend : j.backend = Request.byDocument C.output
  scope : j.scope = scope
  units : j.units = C.unitsOf fs

/-- The identity of the schema; without a schema it does not matter. -/
def identity (C : Sources) : ContentHash := (schemaIdentity? C.configHash C.schema).getD default

/-- The last unit of a source at a hash. -/
def last? (C : Sources) (us : List SourceUnit) (p : Path) (k : ContentHash) : Option SourceUnit :=
  us.reverse.find? fun u => u.path.same p && u.hash C.configHash C.identity == k

/-- The context of a unit, with the rows of a manifest. -/
def context (C : Sources) (layout : Layout) (m : Manifest) : SourceUnit → Context :=
  Context.fromRows layout m C.configHash C.identity

/-- The row of a unit. -/
def row (C : Sources) (layout : Layout) (u : SourceUnit) : Row :=
  (C.context layout (.empty "") u).row

def generated (C : Sources) (u : SourceUnit) : Output :=
  C.output u.path (Session.schemaText C.schema) C.plugins C.options
    ⟨u.kind.text, u.hash C.configHash C.identity, u.content⟩

/-! ### Units -/

theorem mem_unitsOf : u ∈ C.unitsOf fs ↔ u ∈ C.schema ∨ ∃ f ∈ fs, u ∈ f.units := by
  rw [unitsOf, List.mem_append, List.mem_flatMap]

theorem logical_of_mem (hu : u ∈ C.unitsOf fs) : u.path.Logical := by
  rcases mem_unitsOf.1 hu with hu | ⟨f, -, hu⟩
  · exact C.logical u hu
  · exact f.within u hu ▸ f.logical

theorem filter_unitsOf : (C.unitsOf fs).filter SourceUnit.isSchema = C.schema := by
  have hnone : (fs.flatMap SourceFile.units).filter SourceUnit.isSchema = [] := by
    rw [List.filter_eq_nil_iff]
    intro u hu
    obtain ⟨f, -, hu⟩ := List.mem_flatMap.1 hu
    rw [f.noSchema u hu]
    simp
  rw [unitsOf, List.filter_append, hnone, List.append_nil, List.filter_eq_self]
  exact C.isSchema

theorem schemaText_unitsOf : Session.schemaText (C.unitsOf fs) = Session.schemaText C.schema := by
  have hself : C.schema.filter SourceUnit.isSchema = C.schema := List.filter_eq_self.2 C.isSchema
  rw [Session.schemaText, Session.schemaText, filter_unitsOf, hself]

theorem schemaIdentity?_unitsOf :
    schemaIdentity? C.configHash (C.unitsOf fs) = schemaIdentity? C.configHash C.schema := by
  have hself : C.schema.filter SourceUnit.isSchema = C.schema := List.filter_eq_self.2 C.isSchema
  rw [schemaIdentity?, schemaIdentity?, filter_unitsOf, hself]

theorem isSome_schemaIdentity? : (schemaIdentity? C.configHash C.schema).isSome = true ↔
    C.schema ≠ [] := by
  have hself : C.schema.filter SourceUnit.isSchema = C.schema := List.filter_eq_self.2 C.isSchema
  rw [schemaIdentity?, hself]
  cases C.schema <;> simp

/-! ### Contexts -/

/-- The contexts of a run, when there is a schema or nothing to build. -/
theorem batch?_unitsOf : Context.batch? layout m C.configHash (C.unitsOf fs) =
    if C.schema = [] ∧ C.unitsOf fs ≠ [] then none
    else some ((C.unitsOf fs).map (C.context layout m)) := by
  have hsome := C.isSome_schemaIdentity?
  rw [Context.batch?, schemaIdentity?_unitsOf, context, identity]
  cases hid : schemaIdentity? C.configHash C.schema with
  | some identity =>
    rw [hid] at hsome
    dsimp only
    rw [if_neg fun hboth => hsome.1 rfl hboth.1, Option.getD_some]
  | none =>
    rw [hid] at hsome
    have hnil : C.schema = [] := by
      by_contra hne
      cases hsome.2 hne
    cases hunits : C.unitsOf fs <;> simp [hnil]

theorem contexts_of_asks {P : Project} {t : Tree} (hasks : C.Asks fs scope j) :
    (P.session j).contexts? j.units t =
      if C.schema = [] ∧ C.unitsOf fs ≠ [] then none
      else some ((C.unitsOf fs).map (C.context P.layout (P.cache.loaded t).manifest)) := by
  rw [Session.contexts?, P.loaded_session, hasks.units, ← batch?_unitsOf, ← hasks.configHash]
  rfl

theorem skip_context : (C.context layout m u).skip =
    (m.lookup? u.path (u.hash C.configHash C.identity)).isSome := rfl

theorem row_context : (C.context layout m u).row = C.row layout u := by
  rw [row, Context.row, Context.row]
  rfl

theorem lastContext?_map : Session.lastContext? (us.map (C.context layout m)) p k =
    (C.last? us p k).map (C.context layout m) := by
  rw [Session.lastContext?, last?, ← List.map_reverse, List.find?_map]
  rfl

/-! ### The last unit -/

theorem last?_append : C.last? (us ++ vs) p k = (C.last? vs p k).or (C.last? us p k) := by
  rw [last?, List.reverse_append, List.find?_append]
  rfl

theorem last?_eq_none : C.last? us p k = none ↔
    ∀ u ∈ us, u.path.same p = true → u.hash C.configHash C.identity ≠ k := by
  simp [last?]

theorem last?_eq_some (h : C.last? us p k = some u) :
    u ∈ us ∧ u.path.same p = true ∧ u.hash C.configHash C.identity = k := by
  have hkey := List.find?_some h
  rw [Bool.and_eq_true, beq_iff_eq] at hkey
  exact ⟨List.mem_reverse.1 (List.mem_of_find?_eq_some h), hkey⟩

theorem last?_schema (hf : f ∈ C.files) : C.last? C.schema f.path k = none := by
  rw [last?_eq_none]
  intro u hu hs
  exact absurd ((C.logical u hu).eq_of_same f.logical hs) (C.apart f hf u hu)

theorem last?_units {f' : SourceFile} (hf : f ∈ C.files) (hf' : f' ∈ C.files) (hne : f' ≠ f) :
    C.last? f'.units f.path k = none := by
  rw [last?_eq_none]
  intro u hu hs
  rw [f'.within u hu] at hs
  exact absurd (C.distinct f' hf' f hf (f'.logical.eq_of_same f.logical hs)) hne

/-- Leaving out units matters only for the sources and hashes that they have. -/
theorem last?_filter {Q : SourceUnit → Bool} {b : Bool} (hQ : ∀ u ∈ us, u.path.same p = true →
      u.hash C.configHash C.identity = k → Q u = b) :
    C.last? (us.filter Q) p k = if b then C.last? us p k else none := by
  rw [last?, last?, ← List.filter_reverse]
  replace hQ := fun u hu => hQ u (List.mem_reverse.1 hu)
  generalize us.reverse = l at hQ
  induction l with
  | nil => simp
  | cons u l ih =>
    have hrest := ih fun v hv => hQ v (List.mem_cons_of_mem _ hv)
    rw [List.filter_cons]
    by_cases hkey : u.path.same p = true ∧ u.hash C.configHash C.identity = k
    · have hu := hQ u (List.mem_cons_self ..) hkey.1 hkey.2
      cases b <;> simp [hu, hkey, hrest]
    · have hskip : (u.path.same p && u.hash C.configHash C.identity == k) = false := by
        simpa using hkey
      cases Q u <;> simp only [List.find?_cons, hskip, hrest, if_true, Bool.false_eq_true, if_false]

section Some
variable (hfs : ∀ f ∈ fs, f ∈ C.files)
include hfs

theorem last?_of_mem (hf : f ∈ fs) : C.last? (C.unitsOf fs) f.path k = C.last? f.units f.path k := by
  have hflat : C.last? (fs.flatMap SourceFile.units) f.path k = C.last? f.units f.path k := by
    rw [last?, List.reverse_flatMap]
    refine Session.find?_flatMap _ (fun f' hf' => ?_) (.inl ⟨f, List.mem_reverse.2 hf, rfl⟩)
    by_cases heq : f' = f
    · exact .inl (by rw [heq]; rfl)
    · exact .inr (C.last?_units (hfs f hf) (hfs f' (List.mem_reverse.1 hf')) heq)
  rw [unitsOf, last?_append, hflat, last?_schema (hfs f hf), Option.or_none]

omit hfs in
theorem last?_of_forall (hp : p.Logical) (hnone : ∀ f ∈ fs, f.path ≠ p) :
    C.last? (C.unitsOf fs) p k = C.last? C.schema p k := by
  have hflat : C.last? (fs.flatMap SourceFile.units) p k = none := by
    rw [last?_eq_none]
    intro u hu hs
    obtain ⟨f, hf, hu⟩ := List.mem_flatMap.1 hu
    rw [f.within u hu] at hs
    exact absurd (f.logical.eq_of_same hp hs) (hnone f hf)
  rw [unitsOf, last?_append, hflat, Option.none_or]

/-- A run sees of each of its sources the same last unit as a run for all files. -/
theorem last?_unitsOf (hp : p.Logical) : C.last? (C.unitsOf fs) p k =
    if (∃ f ∈ fs, f.path = p) ∨ (∀ f ∈ C.files, f.path ≠ p) then C.last? (C.unitsOf C.files) p k
    else none := by
  have hall : ∀ f ∈ C.files, f ∈ C.files := fun _ hf => hf
  by_cases hmem : ∃ f ∈ fs, f.path = p
  · rw [if_pos (.inl hmem)]
    obtain ⟨f, hf, rfl⟩ := hmem
    rw [C.last?_of_mem hfs hf, C.last?_of_mem hall (hfs f hf)]
  · have hnone : ∀ f ∈ fs, f.path ≠ p := fun f hf heq => hmem ⟨f, hf, heq⟩
    rw [C.last?_of_forall hp hnone]
    split
    · next hor => rw [C.last?_of_forall hp (hor.resolve_left hmem)]
    · next hor =>
      rw [not_or, not_forall] at hor
      obtain ⟨-, f, hf⟩ := hor
      simp only [ne_eq, not_forall, not_not] at hf
      obtain ⟨hf, rfl⟩ := hf
      exact last?_schema hf

end Some

theorem or_ite {α : Type} (a b : Prop) [Decidable a] [Decidable b] (x : Option α) :
    (if a then x else none).or (if b then x else none) = if a ∨ b then x else none := by
  by_cases ha : a <;> by_cases hb : b <;> simp [ha, hb]

/-- Built file by file, a source has its last unit as soon as a run has had it. -/
theorem last?_flatMap (hfs : ∀ f ∈ fs, f ∈ C.files) (hp : p.Logical) :
    C.last? (fs.flatMap fun f => C.unitsOf [f]) p k =
      if (∃ f ∈ fs, f.path = p) ∨ fs ≠ [] ∧ (∀ f ∈ C.files, f.path ≠ p) then
        C.last? (C.unitsOf C.files) p k
      else none := by
  induction fs with
  | nil => simp [last?]
  | cons f fs ih =>
    have hf : ∀ f' ∈ [f], f' ∈ C.files := fun f' hf' =>
      hfs f' (List.mem_singleton.1 hf' ▸ List.mem_cons_self ..)
    rw [List.flatMap_cons, last?_append, ih fun f' hf' => hfs f' (List.mem_cons_of_mem _ hf'),
      C.last?_unitsOf hf hp, or_ite]
    refine if_congr ?_ rfl rfl
    generalize (∀ f ∈ C.files, f.path ≠ p) = other
    simp only [List.mem_cons, List.not_mem_nil, or_false, exists_eq_or_imp, exists_eq_left, ne_eq,
      reduceCtorEq, not_false_eq_true, true_and]
    by_cases h : other <;> simp [h, or_comm]

end Sources

end GqlArtifacts
