import GqlArtifacts.Proofs.Json.Cut
import GqlArtifacts.Proofs.Session.Run

/-!
# Runs on a truncated manifest

The first bytes of a saved manifest, short of all of them, are no manifest: they are no text, where a
character is cut, or a proper prefix of a printed value (`load_truncated`). A run on a tree with such a
file is a run with nothing in the cache, as on the tree without the file (`runs_truncated`).
-/

namespace GqlArtifacts

open Files

/-! ### Cutting a text -/

/-- Where the first bytes of a text make a text, they make the first characters of it. -/
theorem exists_append_of_extract {s s' : String} {n : Nat} (hn : n < s.toUTF8.size)
    (h : Text.ofBytes? (s.toUTF8.extract 0 n) = some s') : ∃ rest, s = s' ++ rest ∧ rest ≠ "" := by
  rw [Text.ofBytes?_eq] at h
  unfold String.fromUTF8? at h
  split at h
  · next hvalid =>
    have hpos : String.Pos.Raw.IsValid s ⟨n⟩ :=
      String.Pos.Raw.isValid_iff_isValidUTF8_extract_zero.2 ⟨Nat.le_of_lt hn, by simpa using hvalid⟩
    have hsplits := String.Pos.splits (s.pos ⟨n⟩ hpos)
    have hs' : s' = (s.sliceTo (s.pos ⟨n⟩ hpos)).copy := by
      rw [← String.toByteArray_inj, hsplits.toByteArray_left_eq, ← Option.some.inj h]
      rfl
    refine ⟨_, by rw [hs']; exact hsplits.eq_append, fun hnil => ?_⟩
    have hsize := congrArg ByteArray.size hsplits.toByteArray_right_eq
    rw [hnil] at hsize
    have hn' : n < s.utf8ByteSize := hn
    simp at hsize
    omega
  · cases h

namespace Manifest

variable {m : Manifest} {t : Tree} {dir : Path} {n : Nat}

/-- A proper prefix of a saved text is no manifest. -/
theorem parse?_of_render_eq {s rest : String} (h : m.render = s ++ rest) (hrest : rest ≠ "") :
    parse? s = none := by
  rw [parse?, Json.parse?_of_pretty_eq m.plain_toJson h hrest, Option.bind_none]

theorem load_truncated (hn : n < m.render.toUTF8.size)
    (hread : t.read (dir / manifestName) = .ok (m.render.toUTF8.extract 0 n)) :
    (Manifest.load dir).run t = (none, t) := by
  rw [run_manifestLoad_eq, Tree.readText, hread]
  dsimp only
  cases hs : Text.ofBytes? (m.render.toUTF8.extract 0 n) with
  | none => rfl
  | some s =>
    obtain ⟨rest, hsplit, hrest⟩ := exists_append_of_extract hn hs
    dsimp only
    rw [parse?_of_render_eq hsplit hrest]

end Manifest

/-! ### Runs that find no manifest -/

namespace Cache

variable {c : Cache} {t t' : Tree}

/-- Without a manifest nothing is loaded. -/
theorem loaded_of_manifest?_eq_none (h : t.manifest? c.dir = none) :
    c.loaded t = { c with manifest := .empty c.version } := by
  rw [loaded, persisted_eq_empty h]
  rfl

end Cache

/-- A file that can be read can be removed, and is then not there. -/
theorem Files.Tree.exists_remove_of_read {t : Tree} {p : Path} {c : ByteArray} (h : t.read p = .ok c) :
    ∃ t', t.remove p = .ok t' ∧ t'.file? p.place = none := by
  obtain ⟨⟨dir, name, hresolve⟩, hfile⟩ := Tree.read_eq_ok.1 h
  have hplace := Tree.place_of_resolve? hresolve
  refine ⟨t.drop p.place, ?_, by rw [Tree.file?_drop hfile, if_pos rfl]⟩
  rw [← hplace] at hfile ⊢
  simp [Tree.remove, hresolve, Tree.file?_eq_some.1 hfile, Tree.Target.slash]

namespace Session

variable {backend : Backend} {scope : Scope} {units : List SourceUnit} {s s₁ s₂ : Session}
  {t t' t₁ t₂ : Tree} {contexts contexts' : List Context}

theorem contexts?_congr (h : s.cache.loaded t' = s.cache.loaded t) :
    s.contexts? units t' = s.contexts? units t := by
  rw [contexts?, contexts?, h]

/-- What a run remembers depends on what it has loaded and on its contexts. -/
theorem cache_of_run
    (h : (Session.run backend scope units s).run t = ((.ok contexts, s₁), t₁)) :
    s₁.cache = { s.cache.loaded t with
      manifest := (recorded contexts (s.cache.loaded t).manifest).restrict (keeps scope contexts) } ∧
    t₁.read (s.cache.dir / manifestName) = .ok s₁.cache.manifest.render.toUTF8 := by
  obtain ⟨outputs, _, _, _, _, hcompleted⟩ := completed_of_run h
  exact ⟨hcompleted.shrunk.cache, hcompleted.saved.read⟩

/-- What a run fails of before its first write depends on its contexts and on what the backend says. -/
theorem run_eq_error_iff {reply : Request → Answer} {e : RunError} (he : ¬OnFiles e) :
    ((Session.run (.ofFunction reply) scope units s).run t).1.1 = .error e ↔
      match s.contexts? units t with
      | none => RunError.missingSchema = e
      | some contexts =>
        answers reply s.settings (schemaText units) (staleGroups contexts).toList = .error e := by
  have heq := run_eq (.ofFunction reply) scope units s t
  rw [exec_runCache_ofFunction] at heq
  cases hb : s.contexts? units t with
  | none =>
    rw [hb] at heq
    rw [heq]
    simp
  | some contexts =>
    rw [hb] at heq
    dsimp only at heq ⊢
    cases ha : answers reply s.settings (schemaText units) (staleGroups contexts).toList with
    | error e' =>
      rw [ha] at heq
      rw [heq]
      simp
    | ok outputs =>
      refine iff_of_false (fun h => ?_) nofun
      have hrun : (Session.run (.ofFunction reply) scope units s).run t =
          ((.error e, ((Session.run (.ofFunction reply) scope units s).run t).1.2),
            ((Session.run (.ofFunction reply) scope units s).run t).2) := by
        rw [← h]
      exact he (onFiles_of_answers hb ha hrun)

/-- A truncated manifest is an empty cache: it is not loaded, and a run has the contexts and the
requests of a run on the tree without it, is refused where that run is, and saves the same manifest. -/
theorem runs_truncated {m : Manifest} {n : Nat} (hn : n < m.render.toUTF8.size)
    (hread : t.read (s.cache.dir / manifestName) = .ok (m.render.toUTF8.extract 0 n)) :
    (Manifest.load s.cache.dir).run t = (none, t) ∧
      ∃ t', t.remove (s.cache.dir / manifestName) = .ok t' ∧ ∀ backend scope units,
        s.contexts? units t = s.contexts? units t' ∧
        (s.contexts? units t).map (requests s.settings units) =
          (s.contexts? units t').map (requests s.settings units) ∧
        (∀ reply e, ¬OnFiles e →
          (((Session.run (.ofFunction reply) scope units s).run t).1.1 = .error e ↔
            ((Session.run (.ofFunction reply) scope units s).run t').1.1 = .error e)) ∧
        ∀ contexts s₁ t₁ contexts' s₂ t₂,
          (Session.run backend scope units s).run t = ((.ok contexts, s₁), t₁) →
          (Session.run backend scope units s).run t' = ((.ok contexts', s₂), t₂) →
          contexts' = contexts ∧ s₂.cache = s₁.cache ∧
            t₁.read (s.cache.dir / manifestName) = .ok s₁.cache.manifest.render.toUTF8 ∧
            t₂.read (s.cache.dir / manifestName) = .ok s₁.cache.manifest.render.toUTF8 := by
  have hload := Manifest.load_truncated hn hread
  obtain ⟨t', hremove, hnone⟩ := Tree.exists_remove_of_read hread
  have hloaded : s.cache.loaded t = s.cache.loaded t' := by
    rw [Cache.loaded_of_manifest?_eq_none (congrArg Prod.fst hload),
      Cache.loaded_of_manifest?_eq_none (manifest?_of_file?_eq_none hnone)]
  refine ⟨hload, t', hremove, fun backend scope units => ?_⟩
  have hcontexts : s.contexts? units t = s.contexts? units t' := contexts?_congr hloaded
  refine ⟨hcontexts, congrArg _ hcontexts, fun reply e he => ?_,
    fun contexts s₁ t₁ contexts' s₂ t₂ h₁ h₂ => ?_⟩
  · rw [run_eq_error_iff he, run_eq_error_iff he, hcontexts]
  obtain ⟨_, _, _, _, _, hcompleted₁⟩ := completed_of_run h₁
  obtain ⟨_, _, _, _, _, hcompleted₂⟩ := completed_of_run h₂
  have hsame := hcompleted₁.batch
  rw [hcontexts, hcompleted₂.batch] at hsame
  obtain rfl := Option.some.inj hsame
  obtain ⟨hcache₁, hsaved₁⟩ := cache_of_run h₁
  obtain ⟨hcache₂, hsaved₂⟩ := cache_of_run h₂
  have hcache : s₂.cache = s₁.cache := by rw [hcache₁, hcache₂, hloaded]
  exact ⟨rfl, hcache, hsaved₁, hcache ▸ hsaved₂⟩

namespace Sample

def savedManifest : Manifest := (Manifest.empty "1").record ⟨"a"⟩ default ⟨⟨"u"⟩, ⟨"v"⟩, some "é", none⟩

/-- The saved text up to the middle of a character. -/
def truncated : Tree := Tree.empty.put ["manifest.json"] (.file (savedManifest.render.toUTF8.extract 0 179))

def untouched : Session := ⟨default, ⟨⟨"/"⟩, ⟨"/"⟩, "1", .empty "1"⟩, .zero⟩

theorem read_truncated : truncated.read (untouched.cache.dir / manifestName) =
    .ok (savedManifest.render.toUTF8.extract 0 179) := rfl

set_option maxRecDepth 100000 in
theorem size_savedManifest : 179 < savedManifest.render.toUTF8.size := by decide +kernel

end Sample

theorem runs_truncated_sample :
    (Manifest.load ⟨"/"⟩).run Sample.truncated = (none, Sample.truncated) ∧
      ∃ t', Sample.truncated.remove (⟨"/"⟩ / manifestName) = .ok t' ∧
        ∀ units, Sample.untouched.contexts? units Sample.truncated =
          Sample.untouched.contexts? units t' := by
  obtain ⟨hload, t', hremove, hruns⟩ := runs_truncated Sample.size_savedManifest Sample.read_truncated
  exact ⟨hload, t', hremove, fun units =>
    (hruns (.ofFunction fun _ => .ok []) .project units).1⟩

end Session

end GqlArtifacts
