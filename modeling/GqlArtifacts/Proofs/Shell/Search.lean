import GqlArtifacts.Proofs.Regex
import GqlArtifacts.Shell.Search

/-!
# The lines that are chosen

Without a limit on their number, the lines that a search chooses are those with a part that fits its
expression, or with `-v` those without one (`mem_chosen`).
-/

namespace GqlArtifacts.Shell.Search

variable {a : ToolArgs} {r : Regex} {cs line : List Char} {n : Nat}

theorem mem_numbered {lines : List (List Char)} :
    (n, line) ∈ (List.range' 1 lines.length).zip lines ↔ 1 ≤ n ∧ lines[n - 1]? = some line := by
  rw [List.mem_iff_getElem]
  constructor
  · rintro ⟨i, hi, heq⟩
    rw [List.getElem_zip, List.getElem_range'] at heq
    obtain ⟨rfl, rfl⟩ := Prod.mk.inj heq
    simp
  · rintro ⟨hn, hline⟩
    obtain ⟨hlt, rfl⟩ := List.getElem?_eq_some_iff.1 hline
    refine ⟨n - 1, by simpa using hlt, ?_⟩
    rw [List.getElem_zip, List.getElem_range', Nat.one_mul, Nat.add_sub_cancel' hn]

/-- The lines are chosen by what fits in them. -/
theorem mem_chosen (hlimit : a.values 'm' = []) : (n, line) ∈ chosen a r cs ↔
    1 ≤ n ∧ (linesOf cs)[n - 1]? = some line ∧
      ((∃ front part rest, line = front ++ (part ++ rest) ∧ r.Fits front.getLast? part rest) ↔
        a.has 'v' = false) := by
  rw [← Regex.isFound_iff, chosen, hlimit]
  dsimp only [List.getLast?_nil, Option.bind_none]
  rw [List.mem_filter, mem_numbered, and_assoc, bne_iff_ne]
  cases r.isFound line <;> cases a.has 'v' <;> simp

end GqlArtifacts.Shell.Search
