import GqlArtifacts.Proofs.Context
import GqlArtifacts.Proofs.Hash
import GqlArtifacts.Proofs.Path

/-!
# What the hashes of a batch depend on

Every hash of a batch is that of a text (`ofText`): the text form of its base and then what is hashed
on top of it (`SourceUnit.preimage`), or the text forms of all schema hashes one after another
(`schemaPreimage`). Text forms have one length and a target ends at the first line feed, so each such
text tells its parts. Where no two of the texts of two batches collide, equal hashes go back to equal
inputs, three levels down (`Context.Built.hash_reflects`).
-/

namespace GqlArtifacts

open Files

variable {config config' identity identity' : ContentHash} {units units' : List SourceUnit}
  {contexts contexts' : List Context} {x y : Context} {u v : SourceUnit}

/-! ### Preimages -/

namespace SourceKind

/-- The path of a loaded document as it is hashed. -/
def slash? : SourceKind → Option String
  | .load _ target => some target.toSlash
  | _ => none

/-- The kinds whose units are hashed alike. -/
inductive HashClass where
  | schema
  | document
  | load
deriving DecidableEq

def hashClass : SourceKind → HashClass
  | .schema => .schema
  | .document => .document
  | .literal => .document
  | .load _ _ => .load

/-- Loads from a path that has no line feed in it. -/
def LineFree (kind : SourceKind) : Prop :=
  ∀ argument target, kind = .load argument target → '\n' ∉ target.text.toList

end SourceKind

/-- A line and what follows are told by the text. -/
theorem line_append_inj {a b s s' : String} (ha : '\n' ∉ a.toList) (hb : '\n' ∉ b.toList)
    (h : a ++ "\n" ++ s = b ++ "\n" ++ s') : a = b ∧ s = s' := by
  have hchars : a.toList ++ '\n' :: s.toList = b.toList ++ '\n' :: s'.toList := by
    simpa using congrArg String.toList h
  have hinj : ∀ (as bs : List Char), '\n' ∉ as → '\n' ∉ bs →
      as ++ '\n' :: s.toList = bs ++ '\n' :: s'.toList → as = bs ∧ s.toList = s'.toList := by
    intro as
    induction as with
    | nil =>
      intro bs _ hb heq
      cases bs with
      | nil => exact ⟨rfl, (List.cons.inj heq).2⟩
      | cons b bs => exact absurd ((List.cons.inj heq).1 ▸ List.mem_cons_self ..) hb
    | cons a as ih =>
      intro bs ha hb heq
      cases bs with
      | nil => exact absurd ((List.cons.inj heq).1 ▸ List.mem_cons_self ..) ha
      | cons b bs =>
        obtain ⟨rfl, htail⟩ := List.cons.inj heq
        obtain ⟨rfl, hs⟩ := ih bs (List.not_mem_of_not_mem_cons ha) (List.not_mem_of_not_mem_cons hb)
          htail
        exact ⟨rfl, hs⟩
  obtain ⟨hab, hs⟩ := hinj _ _ ha hb hchars
  exact ⟨String.toList_inj.1 hab, String.toList_inj.1 hs⟩

theorem SourceKind.lineFeed_not_mem_slash {kind : SourceKind} (h : kind.LineFree) {slash : String}
    (hs : kind.slash? = some slash) : '\n' ∉ slash.toList := by
  cases kind with
  | load argument target =>
    obtain rfl := Option.some.inj hs
    intro hmem
    rcases Path.mem_of_mem_toSlash hmem with hmem | heq | heq
    · exact h argument target rfl hmem
    · exact absurd heq (by decide)
    · exact absurd heq (by decide)
  | _ => cases hs

theorem SourceKind.eq_of_hashClass {k k' : SourceKind} (h : k.hashClass = k'.hashClass) :
    (k == .schema) = (k' == .schema) ∧ k.slash?.isSome = k'.slash?.isSome := by
  cases k <;> cases k' <;> first | (cases h; done) | exact ⟨by simp, by simp [slash?]⟩

namespace SourceUnit

/-- What is hashed on top of the base. -/
def hashedText (u : SourceUnit) : String :=
  match u.kind.slash? with
  | some slash => slash ++ "\n" ++ u.stripped
  | none => u.stripped

/-- What is hashed on top tells the text and the path of a unit. -/
theorem hashedText_inj (hclass : u.kind.hashClass = v.kind.hashClass) (hu : u.kind.LineFree)
    (hv : v.kind.LineFree) (h : u.hashedText = v.hashedText) :
    u.kind.slash? = v.kind.slash? ∧ u.stripped = v.stripped := by
  have hsome := (SourceKind.eq_of_hashClass hclass).2
  rw [hashedText, hashedText] at h
  cases hus : u.kind.slash? with
  | none =>
    cases hvs : v.kind.slash? with
    | none => exact ⟨rfl, by rwa [hus, hvs] at h⟩
    | some slash => rw [hus, hvs] at hsome; cases hsome
  | some slash =>
    cases hvs : v.kind.slash? with
    | none => rw [hus, hvs] at hsome; cases hsome
    | some slash' =>
      rw [hus, hvs] at h
      obtain ⟨rfl, hs⟩ := line_append_inj (SourceKind.lineFeed_not_mem_slash hu hus)
        (SourceKind.lineFeed_not_mem_slash hv hvs) h
      exact ⟨rfl, hs⟩

/-- The text whose hash is that of the unit. -/
def preimage (config schema : ContentHash) (u : SourceUnit) : String :=
  (if u.isSchema then config else schema).toHex ++ u.hashedText

theorem hash_eq_ofText (config schema : ContentHash) (u : SourceUnit) :
    u.hash config schema = .ofText (u.preimage config schema) := by
  have hchained : ∀ (base : ContentHash) (text : String),
      ContentHash.chained base text = .ofText (base.toHex ++ text) := fun _ _ => rfl
  rw [hash, preimage, hashedText, isSchema]
  cases u.kind with
  | schema => exact hchained config u.stripped
  | document => exact hchained schema u.stripped
  | literal => exact hchained schema u.stripped
  | load _ target => exact hchained schema (target.toSlash ++ "\n" ++ u.stripped)

end SourceUnit

/-- The stripped texts of the schema units, in order. -/
def schemaTexts (units : List SourceUnit) : List String :=
  (units.filter SourceUnit.isSchema).map SourceUnit.stripped

def schemaHashes (config : ContentHash) (units : List SourceUnit) : List ContentHash :=
  (schemaTexts units).map (.chained config)

/-- The text whose hash is the identity of the schema. -/
def schemaPreimage (config : ContentHash) (units : List SourceUnit) : String :=
  String.join ((schemaHashes config units).map ContentHash.toHex)

/-- Every text that is hashed for a batch. -/
def hashedTexts (config : ContentHash) (units : List SourceUnit) : List String :=
  schemaPreimage config units ::
    units.map (SourceUnit.preimage config (.combine (schemaHashes config units)))

theorem schemaIdentity?_eq_some (h : schemaIdentity? config units = some identity) :
    identity = .combine (schemaHashes config units) ∧ schemaTexts units ≠ [] := by
  rw [schemaIdentity?] at h
  rw [schemaHashes, schemaTexts, List.map_map]
  split at h
  · cases h
  · next hne =>
    exact ⟨(Option.some.inj h).symm, fun hnil => hne (List.map_eq_nil_iff.1 hnil)⟩

theorem schemaPreimage_mem : schemaPreimage config units ∈ hashedTexts config units :=
  List.mem_cons_self ..

theorem chained_mem {text : String} (h : text ∈ schemaTexts units) :
    config.toHex ++ text ∈ hashedTexts config units := by
  obtain ⟨u, hu, rfl⟩ := List.mem_map.1 h
  obtain ⟨hmem, hschema⟩ := List.mem_filter.1 hu
  have hkind : u.kind = .schema := by simpa [SourceUnit.isSchema] using hschema
  refine List.mem_cons_of_mem _ (List.mem_map.2 ⟨u, hmem, ?_⟩)
  rw [SourceUnit.preimage, if_pos hschema, SourceUnit.hashedText, hkind]
  rfl

/-! ### Batches -/

namespace Context

/-- The contexts that some layout and some state of cache and files give for a batch. -/
def Built (config : ContentHash) (units : List SourceUnit) (contexts : List Context) : Prop :=
  ∃ layout cache t t', (ofUnits? layout cache config units).run t = (some contexts, t')

theorem Built.cases (h : Built config units contexts) :
    contexts = [] ∨ ∃ identity, schemaIdentity? config units = some identity ∧
      contexts.map unit = units ∧
      ∀ c ∈ contexts, c.stripped = c.unit.stripped ∧ c.hash = c.unit.hash config identity := by
  obtain ⟨layout, cache, t, t', hrun⟩ := h
  have hunit : ∀ schema u, ∃ c : Context, (ofUnit layout cache config schema u).run t = (c, t) ∧
      c.unit = u ∧ c.stripped = u.stripped ∧ c.hash = u.hash config schema := by
    intro schema u
    rw [ofUnit, Program.run_bind, run_isFresh]
    exact ⟨_, rfl, rfl, rfl, rfl⟩
  choose f hf hunit' hstripped hhash using hunit
  rw [run_ofUnits?_of hf units] at hrun
  have hcontexts := congrArg Prod.fst hrun
  cases hid : schemaIdentity? config units with
  | none =>
    simp only [hid] at hcontexts
    split at hcontexts
    · exact .inl (Option.some.inj hcontexts).symm
    · cases hcontexts
  | some identity =>
    simp only [hid] at hcontexts
    obtain rfl := Option.some.inj hcontexts
    refine .inr ⟨identity, rfl, ?_, fun c hc => ?_⟩
    · rw [List.map_map, show unit ∘ f identity = id from funext (hunit' identity), List.map_id]
    · obtain ⟨u, -, rfl⟩ := List.mem_map.1 hc
      rw [hunit', hstripped, hhash]
      exact ⟨rfl, rfl⟩

theorem Built.of_mem (h : Built config units contexts) (hx : x ∈ contexts) :
    ∃ identity, schemaIdentity? config units = some identity ∧ contexts.map unit = units ∧
      ∀ c ∈ contexts, c.stripped = c.unit.stripped ∧ c.hash = c.unit.hash config identity := by
  rcases h.cases with rfl | h
  · cases hx
  · exact h

theorem Built.stripped_eq (h : Built config units contexts) (hx : x ∈ contexts) :
    x.stripped = x.unit.stripped := by
  obtain ⟨identity, -, -, hall⟩ := h.of_mem hx
  exact (hall x hx).1

theorem Built.schemaTexts_ne_nil (h : Built config units contexts) (hx : x ∈ contexts) :
    schemaTexts units ≠ [] := by
  obtain ⟨identity, hid, -, -⟩ := h.of_mem hx
  exact (schemaIdentity?_eq_some hid).2

/-- The hash of a context is that of a text of its batch. -/
theorem Built.hash_eq (h : Built config units contexts) (hx : x ∈ contexts) :
    x.hash = .ofText (x.unit.preimage config (.combine (schemaHashes config units))) ∧
      x.unit.preimage config (.combine (schemaHashes config units)) ∈ hashedTexts config units := by
  obtain ⟨identity, hid, hunits, hall⟩ := h.of_mem hx
  obtain ⟨rfl, -⟩ := schemaIdentity?_eq_some hid
  refine ⟨(hall x hx).2.trans (SourceUnit.hash_eq_ofText ..), ?_⟩
  exact List.mem_cons_of_mem _ (List.mem_map_of_mem (hunits ▸ List.mem_map_of_mem hx))

/-- The identity of the schema combines the hashes of the contexts of the schema units. -/
theorem Built.schemaIdentity?_eq (h : Built config units contexts) (hne : contexts ≠ []) :
    schemaIdentity? config units =
      some (.combine ((contexts.filter fun c => c.unit.isSchema).map hash)) := by
  obtain ⟨x, hx⟩ := List.exists_mem_of_ne_nil _ hne
  obtain ⟨identity, hid, hunits, hall⟩ := h.of_mem hx
  have hhashes : (contexts.filter fun c => c.unit.isSchema).map hash = schemaHashes config units := by
    rw [schemaHashes, schemaTexts, ← hunits, List.filter_map, List.map_map, List.map_map]
    refine List.map_congr_left fun c hc => ?_
    obtain ⟨hmem, hschema⟩ := List.mem_filter.1 hc
    have hkind : c.unit.kind = .schema := by simpa [SourceUnit.isSchema] using hschema
    rw [(hall c hmem).2, SourceUnit.hash, hkind]
    rfl
  rw [hid, hhashes, (schemaIdentity?_eq_some hid).1]

/-! ### Inputs -/

/-- Two different texts of a list hash alike. -/
def Collision (texts : List String) : Prop :=
  ∃ a ∈ texts, ∃ b ∈ texts, a.toUTF8 ≠ b.toUTF8 ∧ Xxh3.hash128 a.toUTF8 = Xxh3.hash128 b.toUTF8

theorem eq_of_ofText {texts : List String} (h : ¬ Collision texts) {a b : String} (ha : a ∈ texts)
    (hb : b ∈ texts) (heq : ContentHash.ofText a = .ofText b) : a = b := by
  by_contra hne
  exact h ⟨a, ha, b, hb, fun h8 => hne (String.toByteArray_inj.1 h8),
    ContentHash.ofWords_injective heq⟩

/-- What the hashes of two contexts look at is the same. -/
structure SameInputs (config config' : ContentHash) (units units' : List SourceUnit)
    (x y : Context) : Prop where
  config : config = config'
  stripped : x.stripped = y.stripped
  slash? : x.unit.kind.slash? = y.unit.kind.slash?
  schemas : x.unit.isSchema = false → schemaTexts units = schemaTexts units'

section NoCollision

variable (hno : ¬ Collision (hashedTexts config units ++ hashedTexts config' units'))
include hno

theorem eq_of_ofText_mem {a b : String} (ha : a ∈ hashedTexts config units)
    (hb : b ∈ hashedTexts config' units') (heq : ContentHash.ofText a = .ofText b) : a = b :=
  eq_of_ofText hno (List.mem_append_left _ ha) (List.mem_append_right _ hb) heq

/-- Where the schema hashes of two batches agree, so do the schema texts. -/
theorem schemaTexts_eq (h : schemaHashes config units = schemaHashes config' units') :
    schemaTexts units = schemaTexts units' ∧ (schemaTexts units ≠ [] → config = config') := by
  have hinj : ∀ (as bs : List String), (∀ a ∈ as, a ∈ schemaTexts units) →
      (∀ b ∈ bs, b ∈ schemaTexts units') →
      as.map (ContentHash.chained config) = bs.map (ContentHash.chained config') →
      as = bs ∧ (as ≠ [] → config = config') := by
    intro as
    induction as with
    | nil =>
      intro bs _ _ heq
      exact ⟨(List.map_eq_nil_iff.1 heq.symm).symm, fun hne => absurd rfl hne⟩
    | cons a as ih =>
      intro bs ha hb heq
      cases bs with
      | nil => exact absurd (List.map_eq_nil_iff.1 heq) (List.cons_ne_nil a as)
      | cons b bs =>
        rw [List.map_cons, List.map_cons, List.cons.injEq] at heq
        obtain ⟨hhead, htail⟩ := heq
        have htext := eq_of_ofText_mem hno (chained_mem (ha a (List.mem_cons_self ..)))
          (chained_mem (hb b (List.mem_cons_self ..))) hhead
        obtain ⟨hconfig, rfl⟩ := ContentHash.toHex_append_inj htext
        obtain ⟨rfl, -⟩ := ih bs (fun a' ha' => ha a' (List.mem_cons_of_mem _ ha'))
          (fun b' hb' => hb b' (List.mem_cons_of_mem _ hb')) htail
        exact ⟨rfl, fun _ => hconfig⟩
  exact hinj _ _ (fun _ ha => ha) (fun _ hb => hb) h

/-- Where the identities of two schemas agree, so do the schemas. -/
theorem schemaTexts_eq_of_combine (h : ContentHash.combine (schemaHashes config units) =
    .combine (schemaHashes config' units')) :
    schemaTexts units = schemaTexts units' ∧ (schemaTexts units ≠ [] → config = config') :=
  schemaTexts_eq hno (ContentHash.join_toHex_inj
    (eq_of_ofText_mem hno schemaPreimage_mem schemaPreimage_mem h))

end NoCollision

theorem SameInputs.hash_eq (h : SameInputs config config' units units' x y)
    (hb : Built config units contexts) (hb' : Built config' units' contexts') (hx : x ∈ contexts)
    (hy : y ∈ contexts') (hclass : x.unit.kind.hashClass = y.unit.kind.hashClass) :
    x.hash = y.hash := by
  obtain ⟨rfl, hstripped, hslash, hschemas⟩ := h
  have hschema : x.unit.isSchema = y.unit.isSchema := (SourceKind.eq_of_hashClass hclass).1
  have htext : x.unit.hashedText = y.unit.hashedText := by
    rw [SourceUnit.hashedText, SourceUnit.hashedText, hslash, ← hb.stripped_eq hx,
      ← hb'.stripped_eq hy, hstripped]
  have hpre : ∀ base base' : ContentHash, (x.unit.isSchema = false → base = base') →
      x.unit.preimage config base = y.unit.preimage config base' := by
    intro base base' hbase
    rw [SourceUnit.preimage, SourceUnit.preimage, htext, ← hschema]
    cases hs : x.unit.isSchema with
    | true => rw [if_pos rfl, if_pos rfl]
    | false => rw [hbase hs]
  rw [(hb.hash_eq hx).1, (hb'.hash_eq hy).1]
  refine congrArg ContentHash.ofText (hpre _ _ fun hs => ?_)
  rw [schemaHashes, schemaHashes, hschemas hs]

theorem Built.sameInputs (hb : Built config units contexts) (hb' : Built config' units' contexts')
    (hx : x ∈ contexts) (hy : y ∈ contexts')
    (hclass : x.unit.kind.hashClass = y.unit.kind.hashClass) (hlx : x.unit.kind.LineFree)
    (hly : y.unit.kind.LineFree)
    (hno : ¬ Collision (hashedTexts config units ++ hashedTexts config' units'))
    (h : x.hash = y.hash) : SameInputs config config' units units' x y := by
  obtain ⟨hxhash, hxmem⟩ := hb.hash_eq hx
  obtain ⟨hyhash, hymem⟩ := hb'.hash_eq hy
  have hpre := eq_of_ofText_mem hno hxmem hymem (hxhash.symm.trans (h.trans hyhash))
  rw [SourceUnit.preimage, SourceUnit.preimage] at hpre
  obtain ⟨hbase, htext⟩ := ContentHash.toHex_append_inj hpre
  obtain ⟨hslash, hstripped⟩ := SourceUnit.hashedText_inj hclass hlx hly htext
  rw [← hb.stripped_eq hx, ← hb'.stripped_eq hy] at hstripped
  have hschema : x.unit.isSchema = y.unit.isSchema := (SourceKind.eq_of_hashClass hclass).1
  rw [← hschema] at hbase
  cases hs : x.unit.isSchema with
  | true =>
    rw [hs] at hbase
    exact ⟨hbase, hstripped, hslash, fun hf => absurd (hs.symm.trans hf) (by decide)⟩
  | false =>
    rw [hs] at hbase
    obtain ⟨htexts, hconfig⟩ := schemaTexts_eq_of_combine hno hbase
    exact ⟨hconfig (hb.schemaTexts_ne_nil hx), hstripped, hslash, fun _ => htexts⟩

/-- Of two contexts that are hashed alike, equal hashes mean equal inputs, unless two of the texts
behind them collide; and every batch is hashed on its own schema contexts. -/
theorem Built.hash_reflects (hb : Built config units contexts)
    (hb' : Built config' units' contexts') (hx : x ∈ contexts) (hy : y ∈ contexts')
    (hclass : x.unit.kind.hashClass = y.unit.kind.hashClass) (hlx : x.unit.kind.LineFree)
    (hly : y.unit.kind.LineFree) :
    (x.hash = y.hash → SameInputs config config' units units' x y ∨
      Collision (hashedTexts config units ++ hashedTexts config' units')) ∧
    (SameInputs config config' units units' x y → x.hash = y.hash) ∧
    ∀ c ∈ contexts, c.hash =
      c.unit.hash config (.combine ((contexts.filter fun c => c.unit.isSchema).map hash)) := by
  refine ⟨fun h => ?_, fun h => h.hash_eq hb hb' hx hy hclass, fun c hc => ?_⟩
  · by_cases hno : Collision (hashedTexts config units ++ hashedTexts config' units')
    · exact .inr hno
    · exact .inl (hb.sameInputs hb' hx hy hclass hlx hly hno h)
  · obtain ⟨identity, hid, -, hall⟩ := hb.of_mem hc
    rw [hb.schemaIdentity?_eq (List.ne_nil_of_mem hc)] at hid
    obtain rfl := Option.some.inj hid
    exact (hall c hc).2

theorem exists_built (config : ContentHash) (h : schemaTexts units ≠ []) :
    ∃ contexts, Built config units contexts ∧ contexts.map unit = units := by
  have hid : ∃ identity, schemaIdentity? config units = some identity := by
    rw [schemaIdentity?]
    split
    · next hnil => exact absurd (List.map_eq_nil_iff.2 hnil) h
    · exact ⟨_, rfl⟩
  obtain ⟨identity, hid⟩ := hid
  have hbatch : ∃ contexts,
      batch? default (Cache.loaded default .empty).manifest config units = some contexts := by
    rw [batch?, hid]
    exact ⟨_, rfl⟩
  obtain ⟨contexts, hbatch⟩ := hbatch
  exact ⟨contexts, ⟨default, _, .empty, .empty, by rw [run_ofUnits?, hbatch]⟩, unit_of_batch? hbatch⟩

namespace Sample

def wideLoad : SourceUnit :=
  ⟨⟨"a.ts"⟩, "{ a, }", .load "./g//q.graphql" ⟨"g//q.graphql"⟩⟩

def tightLoad : SourceUnit := ⟨⟨"b.ts"⟩, "{a}", .load "g/q.graphql" ⟨"g/q.graphql"⟩⟩

def wide : List SourceUnit := [⟨⟨"s.graphql"⟩, "type Q { a : Int }", .schema⟩, wideLoad]

def tight : List SourceUnit := [⟨⟨"t.graphql"⟩, "type Q{a:Int}", .schema⟩, tightLoad]

set_option maxRecDepth 100000 in
theorem inputs_eq : schemaTexts wide = schemaTexts tight ∧ schemaTexts tight ≠ [] ∧
    wideLoad.stripped = tightLoad.stripped ∧ wideLoad.kind.slash? = tightLoad.kind.slash? := by
  decide +kernel

theorem lineFree : wideLoad.kind.LineFree ∧ tightLoad.kind.LineFree := by
  constructor <;> rintro _ _ ⟨⟩ <;> decide

end Sample

/-- Another layout and another spelling of the path do not change the hash of a load. -/
theorem Built.hash_reflects_sample : ∃ contexts contexts' x y, Built default Sample.wide contexts ∧
    Built default Sample.tight contexts' ∧ x ∈ contexts ∧ y ∈ contexts' ∧
    x.unit = Sample.wideLoad ∧ y.unit = Sample.tightLoad ∧ x.hash = y.hash := by
  obtain ⟨htexts, hne, hstripped, hslash⟩ := Sample.inputs_eq
  have hwide : schemaTexts Sample.wide ≠ [] := by rwa [htexts]
  obtain ⟨contexts, hb, hunits⟩ := exists_built default hwide
  obtain ⟨contexts', hb', hunits'⟩ := exists_built default hne
  obtain ⟨x, hx, hxu⟩ : ∃ x ∈ contexts, x.unit = Sample.wideLoad :=
    List.mem_map.1 (hunits ▸ List.mem_cons_of_mem _ (List.mem_cons_self ..))
  obtain ⟨y, hy, hyu⟩ : ∃ y ∈ contexts', y.unit = Sample.tightLoad :=
    List.mem_map.1 (hunits' ▸ List.mem_cons_of_mem _ (List.mem_cons_self ..))
  have hsame : SameInputs default default Sample.wide Sample.tight x y :=
    ⟨rfl, by rw [hb.stripped_eq hx, hb'.stripped_eq hy, hxu, hyu, hstripped],
      by rw [hxu, hyu, hslash], fun _ => htexts⟩
  have hhash := (hb.hash_reflects hb' hx hy (by rw [hxu, hyu]; rfl) (hxu ▸ Sample.lineFree.1)
    (hyu ▸ Sample.lineFree.2)).2.1 hsame
  exact ⟨contexts, contexts', x, y, hb, hb', hx, hy, hxu, hyu, hhash⟩

end Context

end GqlArtifacts
