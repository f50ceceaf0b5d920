/-!
# Finite maps in key order

`OrderedMap κ α cmp` is a list of entries whose keys increase strictly under `cmp`, so the order of
every listing is the key order. Keys that compare equal may still be spelled differently; `insert`
keeps the spelling that came first.

`get?_insert_of_eq`, `get?_insert_of_ne` say what an insertion does to look-ups, and
`get?_erase_of_eq`, `get?_erase_of_ne` what an erasure does.
-/

namespace GqlArtifacts

/-- A finite map listed in strictly increasing key order. -/
structure OrderedMap (κ α : Type) (cmp : κ → κ → Ordering) where
  toList : List (κ × α)
  sorted : toList.Pairwise fun a b => cmp a.1 b.1 = .lt

namespace OrderedMap
variable {κ α β : Type} {cmp : κ → κ → Ordering}

theorem ext {m n : OrderedMap κ α cmp} (h : m.toList = n.toList) : m = n := by
  cases m; cases n; cases h; rfl

def empty : OrderedMap κ α cmp := ⟨[], .nil⟩

instance : EmptyCollection (OrderedMap κ α cmp) := ⟨empty⟩
instance : Inhabited (OrderedMap κ α cmp) := ⟨empty⟩

def isEmpty (m : OrderedMap κ α cmp) : Bool := m.toList.isEmpty
def size (m : OrderedMap κ α cmp) : Nat := m.toList.length
def keys (m : OrderedMap κ α cmp) : List κ := m.toList.map Prod.fst
def values (m : OrderedMap κ α cmp) : List α := m.toList.map Prod.snd

def get? (m : OrderedMap κ α cmp) (k : κ) : Option α :=
  (m.toList.find? fun e => cmp k e.1 == .eq).map Prod.snd

def contains (m : OrderedMap κ α cmp) (k : κ) : Bool := (m.get? k).isSome

/-- Puts `v` at `k`; an equal key that is already there keeps its spelling. -/
def insertEntry (cmp : κ → κ → Ordering) (k : κ) (v : α) : List (κ × α) → List (κ × α)
  | [] => [(k, v)]
  | e :: es =>
    match cmp k e.1 with
    | .lt => (k, v) :: e :: es
    | .eq => (e.1, v) :: es
    | .gt => e :: insertEntry cmp k v es

/-- Every key after an insertion is an old key or compares equal to the new one. -/
theorem forall_key_insertEntry {P : κ → Prop} {k : κ} {v : α} {es : List (κ × α)}
    (hk : P k) (hes : ∀ e ∈ es, P e.1) : ∀ e ∈ insertEntry cmp k v es, P e.1 := by
  induction es with
  | nil => simpa [insertEntry] using hk
  | cons e es ih =>
    have he : P e.1 := hes e (by simp)
    have htl : ∀ x ∈ es, P x.1 := fun x hx => hes x (by simp [hx])
    unfold insertEntry
    split <;> intro x hx
    · rcases List.mem_cons.1 hx with rfl | hx
      · exact hk
      · exact hes x hx
    · rcases List.mem_cons.1 hx with rfl | hx
      · exact he
      · exact htl _ hx
    · rcases List.mem_cons.1 hx with rfl | hx
      · exact he
      · exact ih htl x hx

theorem sorted_insertEntry [Std.TransCmp cmp] {k : κ} {v : α} {es : List (κ × α)}
    (h : es.Pairwise fun a b => cmp a.1 b.1 = .lt) :
    (insertEntry cmp k v es).Pairwise fun a b => cmp a.1 b.1 = .lt := by
  induction es with
  | nil => simp [insertEntry]
  | cons e es ih =>
    obtain ⟨he, hes⟩ := List.pairwise_cons.1 h
    unfold insertEntry
    split
    · next hlt =>
      refine List.pairwise_cons.2 ⟨fun x hx => ?_, h⟩
      rcases List.mem_cons.1 hx with rfl | hx
      · exact hlt
      · exact Std.TransCmp.lt_trans hlt (he x hx)
    · exact List.pairwise_cons.2 ⟨he, hes⟩
    · next hgt =>
      exact List.pairwise_cons.2
        ⟨forall_key_insertEntry (P := fun x => cmp e.1 x = .lt)
          (Std.OrientedCmp.gt_iff_lt.1 hgt) he, ih hes⟩

def insert [Std.TransCmp cmp] (m : OrderedMap κ α cmp) (k : κ) (v : α) : OrderedMap κ α cmp :=
  ⟨insertEntry cmp k v m.toList, sorted_insertEntry m.sorted⟩

/-- Inserts the pairs from the left, so the last value of a key wins and its first spelling stays.
-/
def ofList [Std.TransCmp cmp] (es : List (κ × α)) : OrderedMap κ α cmp :=
  es.foldl (fun m e => m.insert e.1 e.2) empty

/-- Keeps the entries that `p` accepts. -/
def filter (m : OrderedMap κ α cmp) (p : κ → α → Bool) : OrderedMap κ α cmp :=
  ⟨m.toList.filter fun e => p e.1 e.2, m.sorted.filter _⟩

def erase (m : OrderedMap κ α cmp) (k : κ) : OrderedMap κ α cmp :=
  m.filter fun k' _ => cmp k k' != .eq

/-- Maps every value, with its key at hand. -/
def map (m : OrderedMap κ α cmp) (f : κ → α → β) : OrderedMap κ β cmp :=
  ⟨m.toList.map fun e => (e.1, f e.1 e.2), by
    rw [List.pairwise_map]; exact m.sorted⟩

/-- Maps every value and drops the entries that `f` refuses. -/
def filterMap (m : OrderedMap κ α cmp) (f : κ → α → Option β) : OrderedMap κ β cmp :=
  ⟨m.toList.filterMap fun e => (f e.1 e.2).map (e.1, ·), by
    refine List.pairwise_filterMap.2 (m.sorted.imp fun {a b} h x hx y hy => ?_)
    obtain ⟨_, _, rfl⟩ := Option.map_eq_some_iff.1 hx
    obtain ⟨_, _, rfl⟩ := Option.map_eq_some_iff.1 hy
    exact h⟩

section Lookup
variable [Std.TransCmp cmp] {m : OrderedMap κ α cmp} {k k' : κ} {v : α}

theorem find?_insertEntry_of_eq (h : cmp k' k = .eq) (es : List (κ × α)) :
    ((insertEntry cmp k v es).find? fun e => cmp k' e.1 == .eq).map Prod.snd = some v := by
  induction es with
  | nil => simp [insertEntry, h]
  | cons e es ih =>
    unfold insertEntry
    split
    · simp [h]
    · next he => simp [Std.TransCmp.eq_trans h he]
    · next he =>
      have : cmp k' e.1 = .gt := by rw [Std.TransCmp.congr_left h]; exact he
      simp [this, ih]

theorem find?_insertEntry_of_ne (h : cmp k' k ≠ .eq) (es : List (κ × α)) :
    ((insertEntry cmp k v es).find? fun e => cmp k' e.1 == .eq).map Prod.snd =
      (es.find? fun e => cmp k' e.1 == .eq).map Prod.snd := by
  induction es with
  | nil => simp [insertEntry, h]
  | cons e es ih =>
    unfold insertEntry
    split
    · simp [h]
    · next he =>
      have : cmp k' e.1 ≠ .eq := fun hc =>
        h (Std.TransCmp.eq_trans hc (Std.OrientedCmp.eq_symm he))
      simp [this]
    · by_cases hc : cmp k' e.1 = .eq <;> simp [hc, ih]

theorem get?_insert_of_eq (h : cmp k' k = .eq) : (m.insert k v).get? k' = some v :=
  find?_insertEntry_of_eq h m.toList

theorem get?_insert_of_ne (h : cmp k' k ≠ .eq) : (m.insert k v).get? k' = m.get? k' :=
  find?_insertEntry_of_ne h m.toList

theorem get?_erase_of_eq (h : cmp k' k = .eq) : (m.erase k).get? k' = none := by
  simp only [get?, erase, filter, Option.map_eq_none_iff, List.find?_eq_none, List.mem_filter]
  rintro e ⟨-, he⟩ hk
  refine absurd (Std.TransCmp.eq_trans (Std.OrientedCmp.eq_symm h) ?_) (by simpa using he)
  simpa using hk

theorem get?_erase_of_ne (h : cmp k' k ≠ .eq) : (m.erase k).get? k' = m.get? k' := by
  simp only [get?, erase, filter, List.find?_filter]
  congr 2
  funext e
  by_cases he : cmp k' e.1 = .eq
  · have : cmp k e.1 ≠ .eq := fun hk =>
      h (Std.TransCmp.eq_trans he (Std.OrientedCmp.eq_symm hk))
    simp [he, this]
  · simp [he]

end Lookup

end OrderedMap

end GqlArtifacts
