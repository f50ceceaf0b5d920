import GqlArtifacts.Proofs.Files.Outcome

/-!
# What a program reads off a tree

A program that may fail and only looks (`Reads`) leaves the tree as it is, and its `answer` is a value
of `Except` that follows the program step by step: `answer_bind` and `answer_mapM` take it apart. What
looking tells of a single path are `Tree.isFolder`, `Tree.holds` and `Tree.names`.
-/

namespace GqlArtifacts.Files

open Program

variable {ε δ α β : Type} {x : ExceptT ε Program α} {f : α → ExceptT ε Program β} {t : Tree}

/-! ### Results of `Except` -/

theorem bind_eq_ok {r : Except ε α} {g : α → Except ε β} {b : β} :
    r >>= g = .ok b ↔ ∃ a, r = .ok a ∧ g a = .ok b := by
  cases r with
  | error e => exact ⟨nofun, nofun⟩
  | ok a =>
    refine ⟨fun h => ⟨a, rfl, h⟩, ?_⟩
    rintro ⟨_, ⟨⟩, h⟩
    exact h

theorem eq_ok_of_toOption {r : Except ε α} {a : α} (h : r.toOption = some a) : r = .ok a := by
  cases r with
  | error e => cases h
  | ok b => rw [Option.some.inj h]

/-- A list of results is one of values when each of them is a value. -/
theorem mapM_eq_ok {g : α → Except ε β} {l : List α} {bs : List β} :
    l.mapM g = .ok bs ↔ List.Forall₂ (fun a b => g a = .ok b) l bs := by
  induction l generalizing bs with
  | nil =>
    rw [List.mapM_nil, List.forall₂_nil_left_iff]
    exact ⟨fun h => by cases h; rfl, fun h => h ▸ rfl⟩
  | cons a l ih =>
    rw [List.mapM_cons, bind_eq_ok, List.forall₂_cons_left_iff]
    constructor
    · rintro ⟨b, hb, h⟩
      obtain ⟨bs', hbs, h⟩ := bind_eq_ok.1 h
      cases h
      exact ⟨b, bs', hb, ih.1 hbs, rfl⟩
    · rintro ⟨b, bs', hb, hbs, rfl⟩
      exact ⟨b, hb, bind_eq_ok.2 ⟨bs', ih.2 hbs, rfl⟩⟩

theorem exists_of_mem_mapM {g : α → Except ε β} {l : List α} {bs : List β} {b : β}
    (h : l.mapM g = .ok bs) (hb : b ∈ bs) : ∃ a ∈ l, g a = .ok b := by
  have hall := mapM_eq_ok.1 h
  clear h
  induction hall with
  | nil => cases hb
  | cons hab _ ih =>
    rcases List.mem_cons.1 hb with rfl | hb
    · exact ⟨_, List.mem_cons_self .., hab⟩
    · obtain ⟨a, ha, heq⟩ := ih hb
      exact ⟨a, List.mem_cons_of_mem _ ha, heq⟩

theorem exists_mem_of_mapM {g : α → Except ε β} {l : List α} {bs : List β} {a : α}
    (h : l.mapM g = .ok bs) (ha : a ∈ l) : ∃ b ∈ bs, g a = .ok b := by
  have hall := mapM_eq_ok.1 h
  clear h
  induction hall with
  | nil => cases ha
  | cons hab _ ih =>
    rcases List.mem_cons.1 ha with rfl | ha
    · exact ⟨_, List.mem_cons_self .., hab⟩
    · obtain ⟨b, hb, heq⟩ := ih ha
      exact ⟨b, List.mem_cons_of_mem _ hb, heq⟩

theorem exists_mapM_eq_ok {g : α → Except ε β} {l : List α} (h : ∀ a ∈ l, ∃ b, g a = .ok b) :
    ∃ bs, l.mapM g = .ok bs := by
  induction l with
  | nil => exact ⟨[], rfl⟩
  | cons a l ih =>
    obtain ⟨b, hb⟩ := h a (List.mem_cons_self ..)
    obtain ⟨bs, hbs⟩ := ih fun a ha => h a (List.mem_cons_of_mem _ ha)
    exact ⟨b :: bs, mapM_eq_ok.2 (.cons hb (mapM_eq_ok.1 hbs))⟩

theorem mapM_congr {g g' : α → Except ε β} {l : List α} (h : ∀ a ∈ l, g a = g' a) :
    l.mapM g = l.mapM g' := by
  induction l with
  | nil => rfl
  | cons a l ih =>
    rw [List.mapM_cons, List.mapM_cons, h a (List.mem_cons_self ..),
      ih fun a ha => h a (List.mem_cons_of_mem _ ha)]

/-! ### Answers -/

/-- What a program that may fail says of a tree. -/
def answer (x : ExceptT ε Program α) (t : Tree) : Except ε α := ((ExceptT.run x).run t).1

/-- A program that may fail and only looks. -/
def Reads (x : ExceptT ε Program α) : Prop := (ExceptT.run x).Looks

namespace Reads

theorem pure (a : α) : Reads (Pure.pure a : ExceptT ε Program α) := trivial

theorem throw (e : ε) : Reads (MonadExcept.throw e : ExceptT ε Program α) := trivial

theorem lift {p : Program α} (hp : p.Looks) : Reads (liftM p : ExceptT ε Program α) :=
  hp.bind fun _ => trivial

theorem bind (hx : Reads x) (hf : ∀ a, Reads (f a)) : Reads (x >>= f) := by
  refine Uses.bind hx fun r => ?_
  cases r with
  | ok a => exact hf a
  | error e => trivial

theorem mapM {f : α → ExceptT ε Program β} (hf : ∀ a, Reads (f a)) (l : List α) :
    Reads (l.mapM f) := by
  induction l with
  | nil => exact pure _
  | cons a l ih =>
    rw [List.mapM_cons]
    exact (hf a).bind fun _ => ih.bind fun _ => pure _

theorem adapt {g : ε → δ} (hx : Reads x) : Reads (ExceptT.adapt g x) :=
  Uses.bind hx fun _ => trivial

/-- The program has its answer and leaves the tree as it is. -/
theorem run_eq (hx : Reads x) (t : Tree) : (ExceptT.run x).run t = (answer x t, t) := by
  obtain ⟨hrun, htree⟩ := hx.outcome (outcome_run _ t)
  rw [htree] at hrun
  exact hrun

/-- What follows goes on from the answer, on the same tree. -/
theorem run_bind (hx : Reads x) (t : Tree) : (ExceptT.run (x >>= f)).run t =
    match answer x t with
    | .ok a => (ExceptT.run (f a)).run t
    | .error e => (.error e, t) := by
  rw [ExceptT.run_bind, Program.run_bind, hx.run_eq]
  cases answer x t <;> rfl

end Reads

-- Unfolded, it would be matched against the steps of a program whenever it is a hypothesis.
attribute [irreducible] Reads

theorem run_bind_of_looks {p : Program α} (hp : p.Looks) (g : α → Program β) (t : Tree) :
    (p >>= g).run t = (g (p.run t).1).run t := by
  rw [run_bind, (hp.outcome (outcome_run _ t)).2]

theorem run_lift (p : Program α) (t : Tree) :
    (ExceptT.run (liftM p : ExceptT ε Program α)).run t = (.ok (p.run t).1, (p.run t).2) := by
  show (p >>= fun a => Program.done (Except.ok a)).run t = _
  rw [run_bind]
  rfl

theorem answer_lift (p : Program α) :
    answer (liftM p : ExceptT ε Program α) t = .ok (p.run t).1 := congrArg Prod.fst (run_lift p t)

theorem answer_bind (hx : Reads x) :
    answer (x >>= f) t = answer x t >>= fun a => answer (f a) t := by
  have hrun := hx.run_eq t
  rw [answer, ExceptT.run_bind, run_bind, hrun]
  cases answer x t <;> rfl

theorem answer_bind_lift {p : Program α} (hp : p.Looks) :
    answer ((liftM p : ExceptT ε Program α) >>= f) t = answer (f (p.run t).1) t := by
  rw [answer_bind (.lift hp), answer_lift]
  rfl

theorem answer_mapM (hf : ∀ a, Reads (f a)) (l : List α) :
    answer (l.mapM f) t = l.mapM fun a => answer (f a) t := by
  induction l with
  | nil => rfl
  | cons a l ih =>
    rw [List.mapM_cons, List.mapM_cons, answer_bind (hf a)]
    congr 1
    funext b
    rw [answer_bind (.mapM hf l), ih]
    rfl

theorem answer_adapt (g : ε → δ) : answer (ExceptT.adapt g x) t = (answer x t).mapError g := by
  show ((Except.mapError g <$> ExceptT.run x).run t).1 = _
  rw [map_eq_pure_bind, run_bind]
  rfl

/-! ### Single paths -/

namespace Tree

/-- Whether a path stands for a directory. -/
def isFolder (t : Tree) (p : Path) : Bool :=
  match t.kind p with
  | .ok .directory => true
  | _ => false

/-- Whether a path stands for a file or a directory. -/
def holds (t : Tree) (p : Path) : Bool :=
  match t.kind p with
  | .ok _ => true
  | .error _ => false

/-- The names in the directory that a path stands for. -/
def names (t : Tree) (p : Path) : List String :=
  match t.list p with
  | .ok names => names
  | .error _ => []

/-- Every place is one of names. -/
def Proper (t : Tree) : Prop := ∀ a ∈ t.nodes.keys, ∀ s ∈ a, Path.IsName s

instance (t : Tree) : Decidable t.Proper :=
  inferInstanceAs (Decidable (∀ a ∈ t.nodes.keys, ∀ s ∈ a, Path.IsName s))

theorem Proper.isName_of_mem_names (ht : t.Proper) {p : Path} {name : String}
    (h : name ∈ t.names p) : Path.IsName name := by
  have hchildren : ∀ dir, name ∈ t.children dir → Path.IsName name := by
    intro dir hmem
    obtain ⟨a, ha, hname⟩ := List.mem_filterMap.1 hmem
    cases hlast : a.getLast? with
    | none => rw [hlast] at hname; cases hname
    | some s =>
      rw [hlast] at hname
      dsimp only at hname
      split at hname
      · obtain rfl := Option.some.inj hname
        exact ht a ha s (List.mem_of_getLast? hlast)
      · cases hname
  unfold names list at h
  split at h
  · next names heq =>
    split at heq
    · cases heq
    · split at heq
      · cases heq
      · cases heq
      · obtain rfl := Except.ok.inj heq
        exact hchildren _ h
  · cases h

/-- Every directory can be listed. -/
theorem list_of_isFolder {p : Path} (h : t.isFolder p = true) : t.list p = .ok (t.names p) := by
  have hlist : ∃ names, t.list p = .ok names := by
    unfold isFolder kind lookup? at h
    cases hr : t.resolve? p with
    | error e => rw [hr] at h; cases h
    | ok target =>
      rw [hr] at h
      unfold list
      rw [hr]
      dsimp only at h ⊢
      cases hn : t.node? target.place with
      | none => rw [hn] at h; cases h
      | some n =>
        rw [hn] at h
        cases n with
        | directory => exact ⟨_, rfl⟩
        | file c => cases hs : target.slash <;> simp [hs, Except.map, Node.kind] at h
  obtain ⟨names, hnames⟩ := hlist
  rw [Tree.names, hnames]

end Tree

theorem run_isDirectory (p : Path) : ((isDirectory p).run t).1 = t.isFolder p := by
  rw [isDirectory, run_bind, Tree.isFolder]
  show ((match t.kind p with
    | .ok .directory => pure true
    | _ => pure false : Program Bool).run t).1 = _
  split <;> rfl

theorem run_exists? (p : Path) : ((exists? p).run t).1 = t.holds p := by
  rw [exists?, run_bind, Tree.holds]
  show ((match t.kind p with
    | .ok _ => pure true
    | .error _ => pure false : Program Bool).run t).1 = _
  split <;> rfl

theorem looks_exists? (p : Path) : (exists? p).Looks :=
  .bind ⟨rfl, fun _ => trivial⟩ fun k => by split <;> exact .pure _

theorem looks_list (p : Path) : (Program.list p).Looks := ⟨rfl, fun _ => trivial⟩

end GqlArtifacts.Files
