import GqlArtifacts.Proofs.Graphql.Joined
import GqlArtifacts.Proofs.Session.Generate

/-!
# One schema text for many schema files

The identity of a schema is taken file by file, while a backend gets one text. As long as no schema file
leaves a string open, the two say the same: the text has the tokens of the files, one after another, and
batches whose files are stripped to the same texts have one identity and, up to layout, one text
(`schema_files_apart`).
-/

namespace GqlArtifacts.Session

open Graphql

variable {settings : Settings} {units units' : List SourceUnit} {contexts : List Context} {r : Request}

/-- The texts of the schema files of a batch. -/
def schemaContents (units : List SourceUnit) : List String :=
  (units.filter SourceUnit.isSchema).map SourceUnit.content

theorem schema_of_mem_requests (hr : r ∈ requests settings units contexts) :
    r.schema = schemaText units := by
  obtain ⟨e, -, rfl⟩ := mem_requests_iff.1 hr
  rfl

theorem schemaIdentity?_eq (config : ContentHash) (units : List SourceUnit) :
    schemaIdentity? config units = match (schemaContents units).map strip with
      | [] => none
      | texts => some (.combine (texts.map (.chained config))) := by
  rw [schemaIdentity?, schemaContents]
  cases units.filter SourceUnit.isSchema with
  | nil => rfl
  | cons u us => simp [SourceUnit.stripped, Function.comp_def]

/-- Schema files that leave no string open do not run together: the text for the backend has the tokens
of the files in order. So batches whose files are stripped to the same texts, which have the same
identity, come with texts that are the same up to layout. -/
theorem schema_files_apart (hsealed : ∀ s ∈ schemaContents units, Sealed s) :
    (∀ settings contexts, ∀ r ∈ requests settings units contexts, r.schema = schemaText units) ∧
    tokens (schemaText units).toList = (schemaContents units).flatMap (fun s => tokens s.toList) ∧
    ∀ units', (∀ s ∈ schemaContents units', Sealed s) →
      (schemaContents units).map strip = (schemaContents units').map strip →
      (∀ config, schemaIdentity? config units = schemaIdentity? config units') ∧
      strip (schemaText units) = strip (schemaText units') := by
  refine ⟨fun settings contexts r hr => schema_of_mem_requests hr, tokens_joined hsealed,
    fun units' hsealed' hstrip => ⟨fun config => ?_, strip_joined_congr hsealed hsealed' hstrip⟩⟩
  rw [schemaIdentity?_eq, schemaIdentity?_eq, hstrip]

namespace Sample

/-- A file that ends in a comment, before one that starts with a block string. -/
def commented : List SourceUnit :=
  [⟨⟨"a.graphqls"⟩, "type Query \x7b a: Int \x7d # all", .schema⟩,
    ⟨⟨"b.graphql"⟩, "\x7b a \x7d", .document⟩,
    ⟨⟨"b.graphqls"⟩, "\"\"\"\n  more\n\"\"\" scalar S", .schema⟩]

/-- The same schema in another layout. -/
def compact : List SourceUnit :=
  [⟨⟨"a.graphqls"⟩, "type Query\x7ba:Int\x7d", .schema⟩,
    ⟨⟨"c.graphqls"⟩, "\"\"\"more\"\"\"scalar S,\n", .schema⟩]

end Sample

set_option maxRecDepth 10000 in
theorem schema_files_apart_sample :
    (∀ s ∈ schemaContents Sample.commented, Sealed s) ∧
    (∀ s ∈ schemaContents Sample.compact, Sealed s) ∧
    schemaText Sample.commented =
      "type Query \x7b a: Int \x7d # all\n\"\"\"\n  more\n\"\"\" scalar S" ∧
    tokens (schemaText Sample.commented).toList =
      (schemaContents Sample.commented).flatMap (fun s => tokens s.toList) ∧
    (∀ config, schemaIdentity? config Sample.commented = schemaIdentity? config Sample.compact) ∧
    strip (schemaText Sample.commented) = strip (schemaText Sample.compact) := by
  have hcommented : ∀ s ∈ schemaContents Sample.commented, Sealed s := by decide +kernel
  have hcompact : ∀ s ∈ schemaContents Sample.compact, Sealed s := by decide +kernel
  have hstrip : (schemaContents Sample.commented).map strip =
      (schemaContents Sample.compact).map strip := by decide +kernel
  obtain ⟨-, htokens, hsame⟩ := schema_files_apart hcommented
  exact ⟨hcommented, hcompact, by decide +kernel, htokens, hsame _ hcompact hstrip⟩

end GqlArtifacts.Session
