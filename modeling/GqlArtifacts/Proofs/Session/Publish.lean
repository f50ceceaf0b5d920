import GqlArtifacts.Proofs.Manifest.LaidOut
import GqlArtifacts.Proofs.Session.Run

/-!
# What a run leaves on disk

A run writes the outputs, deletes the artifacts of superseded rows, and writes the entrypoint and
the manifest. `Published` says what is then at each place of the tree, provided that the rows are
those of the layout and that the entrypoint is not an artifact (`Orderly`): the artifacts of live rows
are the last outputs, or what they were before, those of other rows are gone, and so is every
temporary file that was used. `Completed.published` goes through the four steps.
-/

namespace GqlArtifacts

open Files CacheM

theorem Row.owns_iff {root q : Path} {row : Row} :
    row.Owns root q ↔ ∃ f : Artifact, q = root / row.artifact f := by
  constructor
  · rintro (h | h)
    · exact ⟨.tsx, h⟩
    · exact ⟨.dts, h⟩
  · rintro ⟨f, h⟩
    cases f with
    | tsx => exact .inl h
    | dts => exact .inr h

namespace Session

variable {layout : Layout} {outputs : List (Context × Output)} {p : Path} {k : ContentHash}
  {o : Output} {f : Artifact}

/-! ### The last output -/

/-- The output that is written last for a source at a hash. -/
def lastOutput? (outputs : List (Context × Output)) (p : Path) (k : ContentHash) : Option Output :=
  (outputs.reverse.find? fun x => x.1.path.same p && x.1.hash == k).map Prod.snd

theorem lastOutput?_cons (c : Context) (o : Output) (outputs : List (Context × Output)) (p : Path)
    (k : ContentHash) : lastOutput? ((c, o) :: outputs) p k =
      (lastOutput? outputs p k).or (if c.path.same p = true ∧ c.hash = k then some o else none) := by
  rw [lastOutput?, lastOutput?, List.reverse_cons, List.find?_append, Option.map_or,
    List.find?_singleton]
  congr 1
  by_cases hc : c.path.same p = true ∧ c.hash = k <;> simp [hc]

theorem exists_mem_of_lastOutput? (h : lastOutput? outputs p k = some o) :
    ∃ c, (c, o) ∈ outputs ∧ c.path.same p = true ∧ c.hash = k := by
  obtain ⟨⟨c, o'⟩, hx, rfl⟩ := Option.map_eq_some_iff.1 h
  refine ⟨c, List.mem_reverse.1 (List.mem_of_find?_eq_some hx), ?_⟩
  simpa using List.find?_some hx

theorem lastOutput?_eq_none :
    lastOutput? outputs p k = none ↔ ∀ x ∈ outputs, ¬(x.1.path.same p = true ∧ x.1.hash = k) := by
  simp [lastOutput?]

/-! ### Writing the outputs -/

/-- What is written for the outputs, in order. -/
def writes (outputs : List (Context × Output)) : List (Path × ByteArray) :=
  outputs.flatMap fun x =>
    [(x.1.paths.tsxFull, x.2.tsx.toUTF8), (x.1.paths.dtsFull, x.2.dts.toUTF8)]

theorem writes_cons (c : Context) (o : Output) (outputs : List (Context × Output)) :
    writes ((c, o) :: outputs) =
      (c.paths.tsxFull, o.tsx.toUTF8) :: (c.paths.dtsFull, o.dts.toUTF8) :: writes outputs := rfl

/-- A context of a logical source, with the paths of a layout. -/
structure Placed (layout : Layout) (c : Context) : Prop where
  logical : c.path.Logical
  paths : c.paths = layout.paths c.path c.hash

theorem Placed.place_full {c : Context} (hc : Placed layout c) (f : Artifact) :
    (f.full c.paths).place = layout.place f c.path c.hash := by
  rw [hc.paths, Layout.place]

theorem exists_context_of_mem_writes {w : Path × ByteArray} (hw : w ∈ writes outputs) :
    ∃ x ∈ outputs, ∃ f : Artifact, w.1 = f.full x.1.paths := by
  obtain ⟨x, hx, hw⟩ := List.mem_flatMap.1 hw
  rcases List.mem_cons.1 hw with rfl | hw
  · exact ⟨x, hx, .tsx, rfl⟩
  · rw [List.mem_singleton.1 hw]
    exact ⟨x, hx, .dts, rfl⟩

theorem mem_writes {x : Context × Output} (hx : x ∈ outputs) (f : Artifact) :
    (f.full x.1.paths, (f.text x.2).toUTF8) ∈ writes outputs := by
  refine List.mem_flatMap.2 ⟨x, hx, ?_⟩
  cases f <;> simp [Artifact.full, Artifact.text]

section Names
variable (hpaths : ∀ x ∈ outputs, x.1.paths = layout.paths x.1.path x.1.hash)
include hpaths

theorem lastChar?_of_mem_writes {w : Path × ByteArray} (hw : w ∈ writes outputs) :
    w.1.place.lastChar? ≠ some 'p' := by
  obtain ⟨x, hx, f, hf⟩ := exists_context_of_mem_writes hw
  rw [hf, hpaths x hx]
  exact (Layout.lastChar?_place_ne f).2

theorem wroteAll_of_writeOutputs {c c' : Cache} {t t' : Tree} {u : Unit}
    (h : exec (writeOutputs outputs) c t = ((.ok u, c'), t')) : t.WroteAll t' (writes outputs) := by
  induction outputs generalizing c t with
  | nil => cases h; exact .nil
  | cons x outputs ih =>
    obtain ⟨c₀, o⟩ := x
    have hnames : ∀ w ∈ writes ((c₀, o) :: outputs), w.1.place.lastChar? ≠ some 'p' :=
      fun w hw => lastChar?_of_mem_writes hpaths hw
    rw [writes_cons] at hnames ⊢
    rw [writeOutputs] at h
    obtain ⟨_, c₁, t₁, h₁, h₂⟩ := exec_bind_eq_ok.1 h
    obtain ⟨htsx, -⟩ := exec_attempt_eq_ok.1 h₁
    obtain ⟨_, c₂, t₂, h₃, h₄⟩ := exec_bind_eq_ok.1 h₂
    obtain ⟨hdts, -⟩ := exec_attempt_eq_ok.1 h₃
    have hrest := ih (fun x hx => hpaths x (List.mem_cons_of_mem _ hx)) h₄
    refine .cons (wrote_of_writeAtomically htsx) (.cons (wrote_of_writeAtomically hdts) hrest ?_) hnames
    exact fun w hw => hnames w (List.mem_cons_of_mem _ hw)

end Names

section Places
variable (hplaced : ∀ x ∈ outputs, Placed layout x.1)
include hplaced

/-- The last write to the place of an artifact is that of the last output. -/
theorem lastWrite?_writes (hp : p.Logical) : lastWrite? (writes outputs) (layout.place f p k) =
    (lastOutput? outputs p k).map fun o => (f.text o).toUTF8 := by
  induction outputs with
  | nil => rfl
  | cons x outputs ih =>
    obtain ⟨c, o⟩ := x
    have hc : Placed layout c := hplaced (c, o) (List.mem_cons_self ..)
    have hkey : ∀ f', (f'.full c.paths).place = layout.place f p k ↔
        f' = f ∧ c.path.same p = true ∧ c.hash = k := by
      intro f'
      rw [hc.place_full]
      constructor
      · intro heq
        obtain ⟨rfl, hpath, rfl⟩ := Layout.place_inj hc.logical hp heq
        exact ⟨rfl, hpath ▸ Path.same_self _, rfl⟩
      · rintro ⟨rfl, hs, rfl⟩
        rw [hc.logical.eq_of_same hp hs]
    rw [writes_cons, lastWrite?_cons, lastWrite?_cons, lastOutput?_cons,
      ih fun x hx => hplaced x (List.mem_cons_of_mem _ hx), Option.map_or, Option.or_assoc]
    congr 1
    have htsx : c.paths.tsxFull.place = layout.place f p k ↔ _ := hkey .tsx
    have hdts : c.paths.dtsFull.place = layout.place f p k ↔ _ := hkey .dts
    simp only [htsx, hdts]
    by_cases hs : c.path.same p = true ∧ c.hash = k
    · cases f <;> simp [hs, Artifact.text]
    · simp [hs]

end Places

/-! ### What is left -/

/-- The temporary files that a run may use. -/
def Temporary (s : Session) (contexts : List Context) (a : Place) : Prop :=
  a = (temporaryPath (s.cache.dir / manifestName)).place ∨
    (∃ e ∈ s.settings.entrypoint?, a = (temporaryPath (s.cache.root / e)).place) ∨
    ∃ c ∈ contexts, ∃ f : Artifact,
      a = (temporaryPath (f.full (s.settings.layout.paths c.path c.hash))).place

/-- The manifest with the contexts of a run recorded, before any row is forgotten. -/
def known (s : Session) (t : Tree) (contexts : List Context) : Manifest :=
  recorded contexts (s.cache.loaded t).manifest

/-- The sources are logical, and the rows that a run finds are those of the layout. -/
structure Fits (s : Session) (t : Tree) (contexts : List Context) : Prop where
  root : s.settings.layout.root = s.cache.root
  logical : ∀ c ∈ contexts, c.path.Logical
  laidOut : (s.cache.loaded t).manifest.LaidOut s.settings.layout

/-- Sources and rows are as they should be, and the entrypoint is no other file. -/
structure Orderly (s : Session) (t : Tree) (contexts : List Context) : Prop extends
    Fits s t contexts where
  entrypoint : ∀ e ∈ s.settings.entrypoint?,
    (s.cache.root / e).place ≠ (s.cache.dir / manifestName).place ∧
    (s.cache.root / e).place ≠ (temporaryPath (s.cache.dir / manifestName)).place ∧
    ∀ f p k, p.Logical → ((known s t contexts).lookup? p k).isSome = true →
      (s.cache.root / e).place ≠ s.settings.layout.place f p k

/-- What lies where after a run: `t` is the tree before and `m` the manifest of the run. -/
structure Published (s : Session) (contexts : List Context) (outputs : List (Context × Output))
    (m : Manifest) (t t' : Tree) : Prop where
  manifest : (t'.file? (s.cache.dir / manifestName).place).isSome = true
  entrypoint : ∀ e ∈ s.settings.entrypoint?, (t'.file? (s.cache.root / e).place).isSome = true
  live : ∀ f p k, p.Logical → (m.lookup? p k).isSome = true →
    t'.file? (s.settings.layout.place f p k) =
      ((lastOutput? outputs p k).map fun o => (f.text o).toUTF8).or
        (t.file? (s.settings.layout.place f p k)) ∧
    t'.Reaches (f.full (s.settings.layout.paths p k))
  stale : ∀ f p k, p.Logical → ((known s t contexts).lookup? p k).isSome = true →
    m.lookup? p k = none → t'.file? (s.settings.layout.place f p k) = none
  others : ∀ a, a ≠ (s.cache.dir / manifestName).place →
    (∀ e ∈ s.settings.entrypoint?, a ≠ (s.cache.root / e).place) →
    (∀ f p k, p.Logical → ((known s t contexts).lookup? p k).isSome = true →
      a ≠ s.settings.layout.place f p k) →
    t'.file? a = t.file? a ∨ t'.file? a = none ∧ Temporary s contexts a

theorem laidOut_recorded {contexts : List Context} {m : Manifest} (hm : m.LaidOut layout)
    (hplaced : ∀ c ∈ contexts, Placed layout c) : (recorded contexts m).LaidOut layout := by
  induction contexts using List.reverseRecOn with
  | nil => exact hm
  | append_singleton contexts c ih =>
    have hc : Placed layout c := hplaced c (by simp)
    rw [recorded_concat]
    refine (ih fun x hx => hplaced x (by simp [hx])).record hc.logical ⟨?_, ?_⟩
    · rw [c.row_tsx, hc.paths]
    · rw [c.row_dts, hc.paths]

theorem isSome_known (s : Session) (t : Tree) {contexts : List Context} {c : Context}
    (hc : c ∈ contexts) : ((known s t contexts).lookup? c.path c.hash).isSome = true := by
  rw [known, lookup?_recorded, Option.isSome_or, Option.isSome_map, isSome_lastContext?,
    built_iff.2 ⟨c, hc, Path.same_self _, rfl⟩, Bool.true_or]

namespace Completed

section Outputs
variable {backend : Backend} {scope : Scope} {units : List SourceUnit} {s s' : Session}
  {t t₁ t₂ t₃ t₄ t' : Tree} {contexts : List Context}
  (h : Completed backend scope units s s' contexts outputs t t₁ t₂ t₃ t₄ t')
include h

theorem mem_of_output {x : Context × Output} (hx : x ∈ outputs) :
    x.1 ∈ contexts ∧ x.1.skip = false := by
  have hmem : x.1 ∈ outputs.map Prod.fst := List.mem_map_of_mem hx
  rw [(exec_generate_eq_ok h.generated).2, List.mem_flatMap] at hmem
  obtain ⟨e, he, hc⟩ := hmem
  obtain ⟨hc, hskip, -⟩ := (gathered_of_mem_staleGroups he).stale x.1 hc
  exact ⟨hc, hskip⟩

theorem wroteOutputs : t₁.WroteAll t₂ (writes outputs) :=
  wroteAll_of_writeOutputs
    (fun _ hx => (Context.faithful_of_batch? h.batch (h.mem_of_output hx).1).paths) h.written

theorem exists_output {c : Context} (hc : c ∈ contexts) (hskip : c.skip = false) :
    ∃ o, (c, o) ∈ outputs := by
  obtain ⟨e, he, hce⟩ := exists_mem_staleGroups hc hskip
  have hmem : c ∈ outputs.map Prod.fst := by
    rw [(exec_generate_eq_ok h.generated).2]
    exact List.mem_flatMap.2 ⟨e, he, hce⟩
  obtain ⟨⟨c', o⟩, hx, rfl⟩ := List.mem_map.1 hmem
  exact ⟨o, hx⟩

end Outputs

variable {reply : Request → Answer} {scope : Scope} {units : List SourceUnit} {s s' : Session}
  {t t₁ t₂ t₃ t₄ t' : Tree} {contexts : List Context}
  (h : Completed (.ofFunction reply) scope units s s' contexts outputs t t₁ t₂ t₃ t₄ t')
  (ho : Fits s t contexts)
include h

theorem answers_eq : answers reply s.settings (schemaText units) (staleGroups contexts).toList =
    .ok outputs ∧ t₁ = t := by
  have hgen := h.generated
  rw [exec_generate_ofFunction] at hgen
  obtain ⟨hanswer, htree⟩ := Prod.mk.inj hgen
  exact ⟨(Prod.mk.inj hanswer).1, htree.symm⟩

/-- What the backend said to a request of the run, at the position of a document. -/
theorem exists_request (hlogical : ∀ c ∈ contexts, c.path.Logical) (hp : p.Logical)
    (ho : lastOutput? outputs p k = some o) :
    ∃ r ∈ requests s.settings units contexts, r.sourcePath = p ∧
      ∃ (os : List Output) (n : Nat) (d : RequestDocument),
        reply r = .ok os ∧ r.documents[n]? = some d ∧ d.hash = k ∧ os[n]? = some o := by
  obtain ⟨c, hx, hs, rfl⟩ := exists_mem_of_lastOutput? ho
  obtain ⟨e, he, os, n, hreply, hc, hos⟩ := exists_request_of_answers h.answers_eq.1 hx
  have hgroup := gathered_of_mem_staleGroups he
  obtain ⟨c', hc', hkey⟩ := hgroup.key
  obtain ⟨hmem, -, hsame⟩ := hgroup.stale c (List.mem_of_getElem? hc)
  obtain rfl := (hlogical c hmem).eq_of_same hp hs
  rw [← hkey] at hsame
  refine ⟨_, mem_requests_iff.2 ⟨e, he, rfl⟩, ?_, os, n,
    ⟨c.unit.kind.text, c.hash, c.unit.content⟩, hreply, ?_, rfl, hos⟩
  · exact hkey.symm.trans ((hlogical c' hc').eq_of_same hp hsame)
  · rw [request, List.getElem?_map, hc, Option.map_some]

/-- The live rows are the known ones that the run keeps. -/
theorem isSome_lookup?_iff : (s'.cache.manifest.lookup? p k).isSome = true ↔
    ((known s t contexts).lookup? p k).isSome = true ∧ keeps scope contexts p k = true := by
  have hlookup : s'.cache.manifest.lookup? p k =
      ((known s t contexts).lookup? p k).filter fun _ => keeps scope contexts p k := by
    rw [h.shrunk.manifest]
    exact Manifest.lookup?_restrict spelled_keeps
  rw [hlookup]
  cases (known s t contexts).lookup? p k with
  | none => simp
  | some row => cases hkeeps : keeps scope contexts p k <;> simp

/-- A live row that the run has written nothing for was found with its artifacts. -/
theorem isSome_loaded_of_live (hlive : (s'.cache.manifest.lookup? p k).isSome = true)
    (hl : lastOutput? outputs p k = none) :
    ((s.cache.loaded t).manifest.lookup? p k).isSome = true := by
  have hk := (h.isSome_lookup?_iff.1 hlive).1
  rw [known, lookup?_recorded, Option.isSome_or, Option.isSome_map, isSome_lastContext?,
    Bool.or_eq_true] at hk
  rcases hk with hbuilt | hfound
  · obtain ⟨c, hc, hs, rfl⟩ := built_iff.1 hbuilt
    have hskip : c.skip = true := by
      by_contra hnot
      obtain ⟨o, hx⟩ := h.exists_output hc (Bool.not_eq_true _ ▸ hnot)
      exact lastOutput?_eq_none.1 hl _ hx ⟨hs, rfl⟩
    rwa [(Context.faithful_of_batch? h.batch hc).skip, Manifest.lookup?_congr hs] at hskip
  · exact hfound

theorem wroteAll : t.WroteAll t₂ (writes outputs) := by
  rw [← h.answers_eq.2]
  exact h.wroteOutputs

include ho

theorem placed {c : Context} (hc : c ∈ contexts) : Placed s.settings.layout c :=
  ⟨ho.logical c hc, (Context.faithful_of_batch? h.batch hc).paths⟩

theorem laidOut_known : (known s t contexts).LaidOut s.settings.layout :=
  laidOut_recorded ho.laidOut fun _ hc => h.placed ho hc

theorem laidOut : s'.cache.manifest.LaidOut s.settings.layout := by
  rw [h.shrunk.manifest]
  exact (h.laidOut_known ho).restrict _

/-- Every row that is known has its artifacts once the outputs are written. -/
theorem reaches_known (hp : p.Logical) (hk : ((known s t contexts).lookup? p k).isSome = true)
    (f : Artifact) : t₂.Reaches (f.full (s.settings.layout.paths p k)) := by
  cases hload : (s.cache.loaded t).manifest.lookup? p k with
  | some row =>
    have hat := (ho.laidOut.liesAt hp hload).full f
    rw [Cache.lookup?_loaded, Option.filter_eq_some_iff] at hload
    obtain ⟨htsx, hdts⟩ := (Bool.and_eq_true _ _).mp hload.2
    refine Tree.Reaches.grows h.wroteAll.grows ?_
    rw [← hat, ho.root]
    cases f with
    | tsx => exact (Tree.isFile_iff.1 htsx).1
    | dts => exact (Tree.isFile_iff.1 hdts).1
  | none =>
    rw [known, lookup?_recorded, hload, Option.or_none, Option.isSome_map, isSome_lastContext?,
      built_iff] at hk
    obtain ⟨c, hc, hs, rfl⟩ := hk
    have hplaced := h.placed ho hc
    obtain rfl := hplaced.logical.eq_of_same hp hs
    have hskip : c.skip = false := by
      rw [(Context.faithful_of_batch? h.batch hc).skip, hload]
      rfl
    obtain ⟨o, hx⟩ := h.exists_output hc hskip
    rw [← hplaced.paths]
    exact h.wroteAll.reaches _ (mem_writes hx f)

/-- The files that a run deletes are the artifacts of known rows that it does not keep. -/
theorem lost_iff {q : Path} : Cache.Lost { s.cache.loaded t with manifest := known s t contexts }
      (keeps scope contexts) q ↔
    ∃ f p k, p.Logical ∧ ((known s t contexts).lookup? p k).isSome = true ∧
      keeps scope contexts p k = false ∧ q = Artifact.full f (s.settings.layout.paths p k) := by
  have hknown := h.laidOut_known ho
  have hroot : (s.cache.loaded t).root = s.settings.layout.root := by
    rw [Cache.root_loaded, ho.root]
  constructor
  · rintro ⟨⟨p, k, row⟩, he, hlost, howns⟩
    obtain ⟨f, rfl⟩ := Row.owns_iff.1 howns
    refine ⟨f, p, k, hknown.logical he, ?_, hlost, ?_⟩
    · rw [Manifest.lookup?_of_mem he]
      rfl
    · rw [← (hknown.rows _ he).full f, ← hroot]
  · rintro ⟨f, p, k, hp, hsome, hlost, rfl⟩
    obtain ⟨row, hrow⟩ := Option.isSome_iff_exists.1 hsome
    refine ⟨(p, k, row), hknown.mem_toList hp hrow, hlost, Row.owns_iff.2 ⟨f, ?_⟩⟩
    rw [← (hknown.liesAt hp hrow).full f, ← hroot]

omit ho in
/-- The end of a commit leaves all artifacts but the entrypoint alone. -/
theorem file?_place (f : Artifact)
    (hentry : ∀ e ∈ s.settings.entrypoint?,
      (s.cache.root / e).place ≠ s.settings.layout.place f p k) :
    t'.file? (s.settings.layout.place f p k) = t₃.file? (s.settings.layout.place f p k) := by
  obtain ⟨hman, htmp⟩ : (s.settings.layout.place f p k).lastChar? ≠ some 'n' ∧
    (s.settings.layout.place f p k).lastChar? ≠ some 'p' := Layout.lastChar?_place_ne f
  have hmanifest : s.settings.layout.place f p k ≠ (s.cache.dir / manifestName).place := by
    intro heq
    rw [heq, lastChar?_manifest] at hman
    exact hman rfl
  rw [h.saved.file?_of_lastChar? hmanifest htmp]
  rcases h.entered.file?_of_ne fun e he => (hentry e he).symm with heq | ⟨-, hlast, -⟩
  · exact heq
  · exact absurd hlast htmp

theorem reaches_live (hp : p.Logical) (hlive : (s'.cache.manifest.lookup? p k).isSome = true)
    (f : Artifact) : t'.Reaches (f.full (s.settings.layout.paths p k)) :=
  (h.reaches_known ho hp (h.isSome_lookup?_iff.1 hlive).1 f).grows
    ((h.shrunk.cleared.grows.trans h.entered.grows).trans h.saved.grows)

/-- An artifact that is not deleted is that of the last output, or as it was. -/
theorem file?_of_kept (f : Artifact) (hp : p.Logical)
    (hkept : ((known s t contexts).lookup? p k).isSome = true → keeps scope contexts p k = true) :
    t₃.file? (s.settings.layout.place f p k) =
      ((lastOutput? outputs p k).map fun o => (f.text o).toUTF8).or
        (t.file? (s.settings.layout.place f p k)) := by
  rw [h.shrunk.cleared.file?_of_not ?_,
    h.wroteAll.file?_of_lastChar? (Layout.lastChar?_place_ne f).2,
    lastWrite?_writes (fun x hx => h.placed ho (h.mem_of_output hx).1) hp]
  intro q hq heq
  obtain ⟨f', p', k', hp', hk, hlost, rfl⟩ := (h.lost_iff ho).1 hq
  obtain ⟨-, rfl, rfl⟩ := Layout.place_inj hp' hp heq
  rw [hkept hk] at hlost
  cases hlost

omit ho in
theorem published (ho : Orderly s t contexts) :
    Published s contexts outputs s'.cache.manifest t t' := by
  have hfits := ho.toFits
  refine ⟨h.saved.isSome_file?, fun e he => ?_, fun f p k hp hlive => ?_,
    fun f p k hp hk hgone => ?_, fun a hman hentry hart => ?_⟩
  · obtain ⟨hman, htmp, -⟩ := ho.entrypoint e he
    rcases h.saved.file?_of_ne hman with heq | ⟨-, heq⟩
    · rw [heq]
      exact h.entered.isSome_file? he
    · exact absurd heq htmp
  · obtain ⟨hk, hkeeps⟩ := h.isSome_lookup?_iff.1 hlive
    refine ⟨?_, h.reaches_live hfits hp hlive f⟩
    rw [h.file?_place f fun e he => (ho.entrypoint e he).2.2 f p k hp hk,
      h.file?_of_kept hfits f hp fun _ => hkeeps]
  · have hlost : keeps scope contexts p k = false := by
      rw [Bool.eq_false_iff]
      intro hkeeps
      have hlive := h.isSome_lookup?_iff.2 ⟨hk, hkeeps⟩
      rw [hgone] at hlive
      cases hlive
    rw [h.file?_place f fun e he => (ho.entrypoint e he).2.2 f p k hp hk]
    exact h.shrunk.cleared.cleared _ ((h.lost_iff hfits).2 ⟨f, p, k, hp, hk, hlost, rfl⟩)
      (h.reaches_known hfits hp hk f)
  · have hdrop : t₃.file? a = t₂.file? a := by
      refine h.shrunk.cleared.file?_of_not fun q hq heq => ?_
      obtain ⟨f, p, k, hp, hk, -, rfl⟩ := (h.lost_iff hfits).1 hq
      exact hart f p k hp hk heq.symm
    have hwrite : t₂.file? a = t.file? a ∨ t₂.file? a = none ∧ Temporary s contexts a := by
      by_cases hex : ∃ w ∈ writes outputs, (temporaryPath w.1).place = a
      · obtain ⟨w, hw, rfl⟩ := hex
        obtain ⟨x, hx, f, hf⟩ := exists_context_of_mem_writes hw
        have hx' := (h.mem_of_output hx).1
        refine .inr ⟨(h.wroteAll.temporary w hw).2, .inr (.inr ⟨x.1, hx', f, ?_⟩)⟩
        rw [hf, (h.placed hfits hx').paths]
      · refine .inl (h.wroteAll.others a fun w hw => ⟨?_, fun htmp => hex ⟨w, hw, htmp⟩⟩)
        obtain ⟨x, hx, f, hf⟩ := exists_context_of_mem_writes hw
        have hx' := h.placed hfits (h.mem_of_output hx).1
        rw [hf, hx'.place_full]
        exact (hart f _ _ hx'.logical (isSome_known s t (h.mem_of_output hx).1)).symm
    rcases h.saved.file?_of_ne hman with hsave | ⟨hnone, htmp⟩
    · rcases h.entered.file?_of_ne hentry with henter | ⟨hnone, -, htmp⟩
      · rw [hsave, henter, hdrop]
        exact hwrite
      · exact .inr ⟨hsave.trans hnone, .inr (.inl htmp)⟩
    · exact .inr ⟨hnone, .inl htmp⟩

end Completed

end Session

end GqlArtifacts
