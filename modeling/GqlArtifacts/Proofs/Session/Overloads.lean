import GqlArtifacts.Proofs.Entrypoint
import GqlArtifacts.Proofs.Config.Units
import GqlArtifacts.Proofs.History.Entrypoint
import GqlArtifacts.Proofs.Session.Again

/-!
# Which calls the entrypoint declares

Calls of one script with the same hash share a row, and the row has the argument of the last of them. So
the entrypoint that a run writes from an empty cache has one overload for each source and hash, that of
the last context (`overloads_of_run`). A call is declared when no later one of its row is spelled in
another way; otherwise it is not (`overload_missing`).
-/

namespace GqlArtifacts

open Files CacheM Entrypoint

namespace Context

/-- The argument of the call that a context is for. -/
def argument? (c : Context) : Option Argument :=
  match c.unit.kind with
  | .literal => some (.gql c.unit.content)
  | .load argument _ => some (.load argument)
  | _ => none

theorem argument?_row (c : Context) : Entrypoint.argument? c.row = c.argument? := by
  rw [row, argument?]
  cases c.unit.kind <;> rfl

/-- The overload of the call, in an entrypoint. -/
def overload? (x : Path) (c : Context) : Option Overload :=
  c.argument?.map fun a => ⟨a, moduleName (x.parent?.getD ⟨""⟩) c.paths.dts⟩

theorem overload?_row (x : Path) (c : Context) :
    Entrypoint.overload? (x.parent?.getD ⟨""⟩) c.row = c.overload? x := by
  rw [Entrypoint.overload?, argument?_row, row_dts, overload?]

end Context

namespace Session

variable {backend : Backend} {scope : Scope} {units : List SourceUnit} {s s' : Session}
  {t t' : Tree} {contexts : List Context} {c c' : Context} {x : Path}

/-- No later context of the row. -/
def Lasts (contexts : List Context) (c : Context) : Prop :=
  lastContext? contexts c.path c.hash = some c

section Run
variable (hrun : (Session.run backend scope units s).run t = ((.ok contexts, s'), t'))
  (hstart : t.manifest? s.cache.dir = none)
include hrun hstart

/-- Without a manifest the rows are those of the last contexts. -/
theorem lookup?_of_run (p : Path) (k : ContentHash) :
    s'.cache.manifest.lookup? p k = (lastContext? contexts p k).map Context.row := by
  obtain ⟨outputs, t₁, t₂, t₃, t₄, hdone⟩ := completed_of_run hrun
  have hnone : (s.cache.loaded t).manifest.lookup? p k = none := by
    rw [Cache.lookup?_loaded, Cache.persisted_eq_empty hstart]
    rfl
  rw [hdone.lookup?, hnone, Option.or_none]
  cases hlast : lastContext? contexts p k with
  | none => rfl
  | some c =>
    have hbuilt : built contexts p k = true := by
      rw [← isSome_lastContext?, hlast]
      rfl
    rw [Option.map_some, Option.filter_some, if_pos (keeps_iff.2 (.inl hbuilt))]

theorem mem_overloads_of_run {o : Overload} : o ∈ overloads s'.cache.manifest x ↔
    ∃ c ∈ contexts, Lasts contexts c ∧ c.overload? x = some o := by
  have hlookup := lookup?_of_run hrun hstart
  rw [mem_overloads]
  constructor
  · rintro ⟨p, h, row, hmem, ho⟩
    have hrow := Manifest.lookup?_of_mem hmem
    rw [hlookup] at hrow
    obtain ⟨c, hlast, rfl⟩ := Option.map_eq_some_iff.1 hrow
    obtain ⟨hc, hsame, rfl⟩ := lastContext?_eq_some hlast
    rw [Context.overload?_row] at ho
    exact ⟨c, hc, (lastContext?_congr _ hsame).trans hlast, ho⟩
  · rintro ⟨c, hc, hlast, ho⟩
    have hrow := hlookup c.path c.hash
    rw [hlast, Option.map_some] at hrow
    obtain ⟨q, -, hmem⟩ := Manifest.lookup?_eq_some_iff.1 hrow
    exact ⟨q, c.hash, c.row, hmem, (Context.overload?_row x c).trans ho⟩

/-- Without a manifest everything is generated. -/
theorem skip_of_run (hc : c ∈ contexts) : c.skip = false := by
  obtain ⟨outputs, t₁, t₂, t₃, t₄, hdone⟩ := completed_of_run hrun
  rw [(Context.faithful_of_batch? hdone.batch hc).skip, Cache.lookup?_loaded,
    Cache.persisted_eq_empty hstart]
  rfl

/-- So the entrypoint is written. -/
theorem read_entrypoint_of_run (hne : contexts ≠ []) (hx : s.settings.entrypoint? = some x)
    (hmanifest : (s.cache.root / x).place ≠ (s.cache.dir / manifestName).place)
    (htemporary : (s.cache.root / x).place ≠ (temporaryPath (s.cache.dir / manifestName)).place) :
    t'.read (s.cache.root / x) = .ok (render s'.cache.manifest x).toUTF8 := by
  obtain ⟨outputs, t₁, t₂, t₃, t₄, hdone⟩ := completed_of_run hrun
  have hskip : ∀ c ∈ contexts, (!c.skip) = true := fun c hc => by
    rw [skip_of_run hrun hstart hc, Bool.not_false]
  have hgenerated : 0 < s'.summary.generated := by
    rw [hdone.summary, hdone.length_outputs, List.countP_eq_length.2 hskip]
    exact List.length_pos_of_ne_nil hne
  have hentered := hdone.entered
  rw [hx, entered_some] at hentered
  refine hdone.saved.read_of_ne hmanifest htemporary ?_
  rcases hentered with ⟨-, -, hnone⟩ | ⟨hwrote, -⟩
  · omega
  · exact hwrote.read

end Run

/-! ### Imports -/

/-- The declarations and the entrypoint are inside the root, and so are the sources. -/
structure Importable (s : Session) (units : List SourceUnit) (x : Path) : Prop where
  root : s.settings.layout.root = s.cache.root
  typesDir : s.settings.layout.typesDir.Inner
  entrypoint : x.Inner
  logical : ∀ u ∈ units, u.path.Logical

theorem not_escapesRoot_parent (hx : x.Inner) : (x.parent?.getD ⟨""⟩).escapesRoot = false := by
  by_cases hne : x.text = ""
  · rw [show x = ⟨""⟩ from congrArg Path.mk hne]
    decide +kernel
  · rw [hx.parent?_eq hne, Option.getD_some]
    exact Path.not_escapesRoot_ofSegments fun s hs =>
      hx.isName_of_mem s ((List.dropLast_prefix _).subset hs)

/-- A declaration of the layout is named after its source, and lies below the root. -/
theorem declaration_eq {layout : Layout} {p : Path} {h : ContentHash}
    (htypes : layout.typesDir.Inner) (hp : p.Logical) : (layout.paths p h).dts.escapesRoot = false ∧
      ∃ init n, (layout.paths p h).dts.place = init ++ [n] ∧ declarationSuffix <:+ n.toList := by
  have hext : '/' ∉ ".d.ts".toList := by decide
  obtain ⟨ns, -, -, hcomponents⟩ := Layout.below_artifact (h := h) hp layout.typesDir hext
  have hrel : (layout.paths p h).dts.isAbsolute = false :=
    Layout.isAbsolute_artifact hp htypes.relative hext
  have hplace : (⟨""⟩ / (layout.paths p h).dts : Path).place = _ := Layout.place_artifact hp hext
  rw [Path.empty_join hrel] at hplace
  have hdown : (layout.paths p h).dts.components = _ := hcomponents
  refine ⟨?_, _, _, hplace, ?_⟩
  · rw [Path.escapesRoot, hrel, hdown, htypes.components_eq, ← List.map_append,
      Path.climbsAbove_map_name]
    rfl
  · rw [Layout.artifactName, String.toList_append]
    exact List.suffix_append _ _

/-- All that is above an entrypoint that is there are directories, so a file is no part of the way. -/
theorem not_prefix_of_isFile {root dts : Path} (hx : x.Inner) (hdts : dts.escapesRoot = false)
    (hne : dts.place ≠ []) (hreaches : t.Reaches (root / x)) (hfile : t.isFile (root / dts) = true) :
    ¬dts.place <+: (x.parent?.getD ⟨""⟩).place := by
  intro hprefix
  by_cases hempty : x.text = ""
  · rw [show x = ⟨""⟩ from congrArg Path.mk hempty] at hprefix
    exact hne (List.prefix_nil.1 hprefix)
  have hparent : (x.parent?.getD ⟨""⟩).place = x.names.dropLast := by
    rw [hx.parent?_eq hempty, Option.getD_some]
    exact Path.place_ofSegments fun s hs => hx.isName_of_mem s ((List.dropLast_prefix _).subset hs)
  have habove : (root / x).place.dropLast = root.place ++ x.names.dropLast := by
    rw [Path.place_join hx.relative, hx.placeFrom_eq,
      List.dropLast_append_of_ne_nil (hx.names_ne_nil hempty)]
  have hplace : (root / dts).place = root.place ++ dts.place := by
    rw [Path.place_join (Bool.or_eq_false_iff.1 hdts).1, Path.placeFrom_eq_append hdts]
  have hdirectory : t.isDirectory (root / dts).place = true := by
    refine hreaches.open_dropLast _ ?_
    rw [habove, hplace, ← hparent]
    exact (List.prefix_append_right_inj _).2 hprefix
  have hsome := (Tree.isFile_iff.1 hfile).2
  rw [Tree.file?, Tree.isDirectory_iff.1 hdirectory] at hsome
  cases hsome

/-- The module of an overload leads to the declaration of its context. -/
theorem place_module {layout : Layout} {p : Path} {h : ContentHash} (htypes : layout.typesDir.Inner)
    (hx : x.Inner) (hp : p.Logical) (hreaches : t.Reaches (layout.root / x))
    (hfile : t.isFile (layout.paths p h).dtsFull = true) :
    (layout.root / (x.parent?.getD ⟨""⟩ /
      ⟨moduleName (x.parent?.getD ⟨""⟩) (layout.paths p h).dts ++ ".d.ts"⟩)).place =
      (layout.paths p h).dtsFull.place := by
  obtain ⟨hescapes, init, n, hplace, hsuffix⟩ := declaration_eq (h := h) htypes hp
  have hne : (layout.paths p h).dts.place ≠ [] := by simp [hplace]
  exact place_moduleName layout.root (not_escapesRoot_parent hx) hescapes hplace hsuffix
    (not_prefix_of_isFile hx hescapes hne hreaches hfile)

/-! ### Calls -/

/-- What the entrypoint of a run without a manifest declares: the overloads of the contexts that no
later one of their row replaces. So it has an overload for each call whose row was last recorded with
its argument, and the type comes from the declaration of the context. -/
theorem overloads_of_run
    (hrun : (Session.run backend scope units s).run t = ((.ok contexts, s'), t'))
    (hstart : t.manifest? s.cache.dir = none) (hx : s.settings.entrypoint? = some x)
    (hmanifest : (s.cache.root / x).place ≠ (s.cache.dir / manifestName).place)
    (htemporary : (s.cache.root / x).place ≠ (temporaryPath (s.cache.dir / manifestName)).place) :
    (∀ o, o ∈ overloads s'.cache.manifest x ↔
      ∃ c ∈ contexts, Lasts contexts c ∧ c.overload? x = some o) ∧
    ∀ c ∈ contexts, ∀ a, c.argument? = some a →
      (∀ c', lastContext? contexts c.path c.hash = some c' → c'.argument? = some a) →
      ∃ text o, t'.read (s.cache.root / x) = .ok text.toUTF8 ∧ Declares text o ∧ o.argument = a ∧
        (Importable s units x →
          (s.cache.root / (x.parent?.getD ⟨""⟩ / ⟨o.module ++ ".d.ts"⟩)).place =
            c.paths.dtsFull.place) := by
  have hoverloads := fun o => mem_overloads_of_run (x := x) (o := o) hrun hstart
  obtain ⟨outputs, t₁, t₂, t₃, t₄, hdone⟩ := completed_of_run hrun
  refine ⟨hoverloads, fun c hc a ha hlast => ?_⟩
  obtain ⟨c', hc'⟩ : ∃ c', lastContext? contexts c.path c.hash = some c' := by
    rw [← Option.isSome_iff_exists, isSome_lastContext?]
    exact built_iff.2 ⟨c, hc, Path.same_self _, rfl⟩
  obtain ⟨hmem, hsame, hhash⟩ := lastContext?_eq_some hc'
  have hlasts : Lasts contexts c' := by
    rw [Lasts, lastContext?_congr _ hsame, hhash]
    exact hc'
  have ho : c'.overload? x = some ⟨a, moduleName (x.parent?.getD ⟨""⟩) c'.paths.dts⟩ := by
    rw [Context.overload?, hlast c' hc']
    rfl
  have hread := read_entrypoint_of_run hrun hstart (List.ne_nil_of_mem hc) hx hmanifest htemporary
  refine ⟨_, _, hread, declares_render ((hoverloads _).2 ⟨c', hmem, hlasts, ho⟩), rfl, ?_⟩
  intro himport
  have hlogical : ∀ c ∈ contexts, c.path.Logical := by
    intro c hc
    obtain ⟨u, hu, hpath⟩ := Context.exists_unit_of_mem hdone.batch hc
    exact hpath ▸ himport.logical u hu
  have hpath := (hlogical c' hmem).inner.eq_of_same (hlogical c hc).inner hsame
  have hpaths : c'.paths = c.paths := by
    rw [(Context.faithful_of_batch? hdone.batch hmem).paths,
      (Context.faithful_of_batch? hdone.batch hc).paths, hpath, hhash]
  have huntangled : s.Untangled t contexts := by
    refine untangled_of_manifest? himport.root hstart fun e he => ?_
    obtain rfl := Option.some.inj (hx.symm.trans he)
    exact htemporary
  have hfile : t'.isFile c.paths.dtsFull = true := hdone.isFile_kept huntangled hc .dts
    (hdone.isFile_generated hc (skip_of_run hrun hstart hc) .dts)
  have hreaches := (Tree.read_eq_ok.1 hread).1
  have hfaithful := (Context.faithful_of_batch? hdone.batch hc).paths
  rw [hfaithful] at hfile
  rw [← himport.root] at hreaches
  rw [hpaths, hfaithful, ← himport.root]
  exact place_module himport.typesDir himport.entrypoint (hlogical c hc) hreaches hfile

namespace Sample

open GqlArtifacts.Sample

/-- Two literals of one script that differ in a space. -/
def calls : List SourceUnit :=
  [GqlArtifacts.Sample.schema, ⟨⟨"a/q"⟩, "{a}", .literal⟩, ⟨⟨"a/q"⟩, "{ a}", .literal⟩]

/-- A run for them that starts without a manifest. -/
def called : (Except RunError (List Context) × Session) × Tree :=
  (Session.run (.ofFunction first.backend) .project calls (project.session first)).run
    GqlArtifacts.Sample.tree

/-- The argument of each context, and that of the last context of its row. -/
def arguments? : Option (List (Option Argument × Option Argument)) :=
  called.1.1.toOption.map fun contexts => contexts.map fun c =>
    (c.argument?, (lastContext? contexts c.path c.hash).bind Context.argument?)

set_option maxRecDepth 100000 in
theorem called_eq : arguments? = some [(none, none), (some (.gql "{a}"), some (.gql "{ a}")),
      (some (.gql "{ a}"), some (.gql "{ a}"))] ∧
    ¬(signature (.gql "{a}")).toList <:+:
      (render called.1.2.cache.manifest ⟨"g.d.ts"⟩).toList := by
  decide +kernel

theorem exists_called : ∃ contexts, called.1.1 = .ok contexts ∧
    contexts.map (fun c => (c.argument?,
      (lastContext? contexts c.path c.hash).bind Context.argument?)) =
    [(none, none), (some (.gql "{a}"), some (.gql "{ a}")),
      (some (.gql "{ a}"), some (.gql "{ a}"))] := by
  obtain ⟨contexts, hok, heq⟩ := Config.exists_of_toOption_map called_eq.1
  exact ⟨contexts, hok, heq⟩

theorem run_called {contexts : List Context} (h : called.1.1 = .ok contexts) :
    (Session.run (.ofFunction first.backend) .project calls (project.session first)).run
      GqlArtifacts.Sample.tree = ((.ok contexts, called.1.2), called.2) := by
  refine called.eq_1.symm.trans ?_
  -- The run is not to be evaluated here.
  generalize called = x at h ⊢
  obtain ⟨⟨result, s'⟩, t'⟩ := x
  exact congrArg (fun r => ((r, s'), t')) h

end Sample

/-- The entrypoint declares the later one of two calls that share a row. -/
theorem overloads_of_run_sample : ∃ contexts s' t',
    (Session.run (.ofFunction GqlArtifacts.Sample.first.backend) .project Sample.calls
      (GqlArtifacts.Sample.project.session GqlArtifacts.Sample.first)).run GqlArtifacts.Sample.tree =
        ((.ok contexts, s'), t') ∧
    ∃ c ∈ contexts, c.argument? = some (.gql "{ a}") ∧
      ∃ text o, t'.read GqlArtifacts.Sample.entrypoint = .ok text.toUTF8 ∧ Declares text o ∧
        o.argument = .gql "{ a}" := by
  obtain ⟨contexts, hok, harguments⟩ := Sample.exists_called
  have hmem : (some (.gql "{ a}"), some (.gql "{ a}")) ∈ contexts.map fun c =>
      (c.argument?, (lastContext? contexts c.path c.hash).bind Context.argument?) := by
    rw [harguments]
    simp
  obtain ⟨c, hc, hpair⟩ := List.mem_map.1 hmem
  obtain ⟨hargument, hlast⟩ := Prod.mk.inj hpair
  obtain ⟨hmanifest, htemporary⟩ := GqlArtifacts.Sample.apart ⟨"g.d.ts"⟩ rfl
  obtain ⟨-, hcalls⟩ := overloads_of_run (x := ⟨"g.d.ts"⟩) (Sample.run_called hok)
    GqlArtifacts.Sample.manifest?_tree rfl hmanifest htemporary
  obtain ⟨text, o, hread, hdeclares, ho, -⟩ := hcalls c hc _ hargument fun c' hc' => by
    rwa [hc', Option.bind_some] at hlast
  exact ⟨contexts, _, _, Sample.run_called hok, c, hc, hargument, text, o, hread, hdeclares, ho⟩

/-- The entrypoint does not declare the earlier one, although the run starts without a manifest. -/
theorem overload_missing : ∃ contexts s' t',
    (Session.run (.ofFunction GqlArtifacts.Sample.first.backend) .project Sample.calls
      (GqlArtifacts.Sample.project.session GqlArtifacts.Sample.first)).run GqlArtifacts.Sample.tree =
        ((.ok contexts, s'), t') ∧
    GqlArtifacts.Sample.project.manifest? GqlArtifacts.Sample.tree = none ∧
    (∃ c ∈ contexts, c.argument? = some (.gql "{a}")) ∧
    ∃ text, t'.read GqlArtifacts.Sample.entrypoint = .ok text.toUTF8 ∧
      ∀ o, o.argument = .gql "{a}" → ¬Declares text o := by
  obtain ⟨contexts, hok, harguments⟩ := Sample.exists_called
  have hmem : (some (.gql "{a}"), some (.gql "{ a}")) ∈ contexts.map fun c =>
      (c.argument?, (lastContext? contexts c.path c.hash).bind Context.argument?) := by
    rw [harguments]
    simp
  obtain ⟨c, hc, hpair⟩ := List.mem_map.1 hmem
  obtain ⟨hmanifest, htemporary⟩ := GqlArtifacts.Sample.apart ⟨"g.d.ts"⟩ rfl
  have hread := read_entrypoint_of_run (x := ⟨"g.d.ts"⟩) (Sample.run_called hok)
    GqlArtifacts.Sample.manifest?_tree (List.ne_nil_of_mem hc) rfl hmanifest htemporary
  refine ⟨contexts, _, _, Sample.run_called hok, GqlArtifacts.Sample.manifest?_tree,
    ⟨c, hc, (Prod.mk.inj hpair).1⟩, _, hread, ?_⟩
  intro o ho hdeclares
  refine Sample.called_eq.2 ?_
  rw [← ho]
  exact hdeclares.signature_infix

end Session

end GqlArtifacts
