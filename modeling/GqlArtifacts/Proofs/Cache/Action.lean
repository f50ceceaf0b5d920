import GqlArtifacts.Cache
import GqlArtifacts.Proofs.Files.Atomic

/-!
# Actions on a cache, carried out

`CacheM.exec` carries out an action on a memory and a tree at once. There is one equation for each
way of building an action, and `exec_bind_eq_ok` takes a successful sequence apart into its two
successful parts.
-/

namespace GqlArtifacts

open Files

namespace CacheM

variable {ε δ α β : Type} {c c' : Cache} {t t' : Tree}

/-- The result of an action, with the memory and the tree after it. -/
def exec (x : CacheM ε α) (c : Cache) (t : Tree) : (Except ε α × Cache) × Tree :=
  (StateT.run (ExceptT.run x) c).run t

theorem exec_pure (a : α) : exec (pure a : CacheM ε α) c t = ((.ok a, c), t) := rfl

theorem exec_throw (e : ε) : exec (throw e : CacheM ε α) c t = ((.error e, c), t) := rfl

theorem exec_get : exec (get : CacheM ε Cache) c t = ((.ok c, c), t) := rfl

theorem exec_set (d : Cache) : exec (set d : CacheM ε PUnit) c t = ((.ok ⟨⟩, d), t) := rfl

theorem exec_bind (x : CacheM ε α) (f : α → CacheM ε β) :
    exec (x >>= f) c t = match exec x c t with
      | ((.ok a, c₁), t₁) => exec (f a) c₁ t₁
      | ((.error e, c₁), t₁) => ((.error e, c₁), t₁) := by
  rw [exec, ExceptT.run_bind, StateT.run_bind, Program.run_bind]
  rw [exec]
  obtain ⟨⟨r, c₁⟩, t₁⟩ := (StateT.run (ExceptT.run x) c).run t
  cases r <;> rfl

theorem exec_files (p : Program α) :
    exec (files p : CacheM ε α) c t = ((.ok (p.run t).1, c), (p.run t).2) := by
  rw [exec, files, ExceptT.run_lift, StateT.run_map, StateT.run_lift, map_eq_pure_bind,
    Program.run_bind, Program.run_bind]
  rfl

theorem exec_attempt (f : δ → ε) (p : Program (Except δ α)) :
    exec (attempt f p) c t = (((p.run t).1.mapError f, c), (p.run t).2) := by
  rw [attempt, exec_bind, exec_files]
  obtain ⟨r, t₁⟩ := p.run t
  cases r <;> rfl

theorem exec_adapt (f : δ → ε) (x : CacheM δ α) :
    exec (adapt f x) c t = (((exec x c t).1.1.mapError f, (exec x c t).1.2), (exec x c t).2) := by
  show exec (ExceptT.mk (Except.mapError f <$> ExceptT.run x)) c t = _
  rw [exec, ExceptT.run_mk, StateT.run_map, map_eq_pure_bind, Program.run_bind]
  rfl

theorem mapError_eq_ok {f : δ → ε} {r : Except δ α} {a : α} : r.mapError f = .ok a ↔ r = .ok a := by
  cases r <;> simp [Except.mapError]

/-! ### Successful actions -/

theorem exec_bind_eq_ok {x : CacheM ε α} {f : α → CacheM ε β} {b : β} :
    exec (x >>= f) c t = ((.ok b, c'), t') ↔
      ∃ a c₁ t₁, exec x c t = ((.ok a, c₁), t₁) ∧ exec (f a) c₁ t₁ = ((.ok b, c'), t') := by
  rw [exec_bind]
  obtain ⟨⟨r, c₁⟩, t₁⟩ := exec x c t
  cases r with
  | error e => simp
  | ok a => simp

theorem exec_files_eq_ok {p : Program α} {a : α} :
    exec (files p : CacheM ε α) c t = ((.ok a, c'), t') ↔ p.run t = (a, t') ∧ c' = c := by
  rw [exec_files]
  simp only [Except.ok.injEq, Prod.ext_iff]
  tauto

theorem exec_attempt_eq_ok {f : δ → ε} {p : Program (Except δ α)} {a : α} :
    exec (attempt f p) c t = ((.ok a, c'), t') ↔ p.run t = (.ok a, t') ∧ c' = c := by
  rw [exec_attempt]
  simp only [Prod.ext_iff, mapError_eq_ok]
  tauto

theorem exec_adapt_eq_ok {f : δ → ε} {x : CacheM δ α} {a : α} :
    exec (adapt f x) c t = ((.ok a, c'), t') ↔ exec x c t = ((.ok a, c'), t') := by
  rw [exec_adapt]
  simp only [Prod.ext_iff, mapError_eq_ok]

end CacheM

end GqlArtifacts
