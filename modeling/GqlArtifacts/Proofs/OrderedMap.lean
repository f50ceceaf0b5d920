import GqlArtifacts.OrderedMap
import Mathlib.Algebra.Ring.Nat
import Mathlib.Data.List.Basic
import Mathlib.Data.List.Sort

/-!
# Finite maps and their look-ups

`OrderedMap.get?` finds exactly the entries of `toList`, up to the spelling of the key
(`get?_of_mem`, `exists_mem_of_get?`). On top of it stand one equation for each operation, what a
fold of insertions holds (`get?_foldl_insert`), and `ofList_toList`: a map is rebuilt from its
listing.
-/

namespace GqlArtifacts.OrderedMap

variable {κ α β : Type} {cmp : κ → κ → Ordering}

/-! ### Entries and look-ups -/

section Lookup
variable {m : OrderedMap κ α cmp} {k k' : κ} {v : α}

theorem exists_mem_of_get? (h : m.get? k = some v) : ∃ k', cmp k k' = .eq ∧ (k', v) ∈ m.toList := by
  obtain ⟨⟨k', v'⟩, he, rfl⟩ := Option.map_eq_some_iff.1 h
  exact ⟨k', by simpa using List.find?_some he, List.mem_of_find?_eq_some he⟩

theorem get?_eq_none_iff : m.get? k = none ↔ ∀ e ∈ m.toList, cmp k e.1 ≠ .eq := by
  simp [get?]

@[simp] theorem get?_empty : (empty : OrderedMap κ α cmp).get? k = none := rfl

variable [Std.TransCmp cmp]

theorem get?_of_mem (h : (k', v) ∈ m.toList) (hk : cmp k k' = .eq) : m.get? k = some v := by
  obtain ⟨es, hs⟩ := m
  change (k', v) ∈ es at h
  change (es.find? fun e => cmp k e.1 == .eq).map Prod.snd = some v
  induction es with
  | nil => cases h
  | cons e es ih =>
    obtain ⟨he, hes⟩ := List.pairwise_cons.1 hs
    rcases List.mem_cons.1 h with rfl | h
    · simp [hk]
    · have hne : cmp k e.1 ≠ .eq := fun heq => by
        have hlt := he _ h
        rw [← Std.TransCmp.congr_left heq, hk] at hlt
        cases hlt
      rw [List.find?_cons_of_neg (by simpa using hne)]
      exact ih hes h

theorem get?_eq_some_iff : m.get? k = some v ↔ ∃ k', cmp k k' = .eq ∧ (k', v) ∈ m.toList :=
  ⟨exists_mem_of_get?, fun ⟨_, hk, h⟩ => get?_of_mem h hk⟩

theorem get?_congr (h : cmp k k' = .eq) : m.get? k = m.get? k' := by
  simp only [get?, Std.TransCmp.congr_left h]

theorem get?_self_of_mem (h : (k, v) ∈ m.toList) : m.get? k = some v :=
  get?_of_mem h Std.ReflCmp.compare_self

/-- Two entries with equal keys are one entry. -/
theorem eq_of_mem_of_mem {e e' : κ × α} (he : e ∈ m.toList) (he' : e' ∈ m.toList)
    (h : cmp e.1 e'.1 = .eq) : e = e' := by
  obtain ⟨es, hs⟩ := m
  change e ∈ es at he
  change e' ∈ es at he'
  induction es with
  | nil => cases he
  | cons x es ih =>
    obtain ⟨hx, hes⟩ := List.pairwise_cons.1 hs
    rcases List.mem_cons.1 he with rfl | hm <;> rcases List.mem_cons.1 he' with rfl | hm'
    · rfl
    · rw [hx _ hm'] at h; cases h
    · rw [Std.OrientedCmp.eq_comm, hx _ hm] at h; cases h
    · exact ih hes hm hm'

theorem get?_insert : (m.insert k' v).get? k = if cmp k k' = .eq then some v else m.get? k := by
  split
  · next h => exact get?_insert_of_eq h
  · next h => exact get?_insert_of_ne h

theorem get?_erase : (m.erase k').get? k = if cmp k k' = .eq then none else m.get? k := by
  split
  · next h => exact get?_erase_of_eq h
  · next h => exact get?_erase_of_ne h

/-- Look-ups in what a filter leaves, when the filter does not mind the spelling of keys. -/
theorem get?_filterMap {f : κ → α → Option β} (hf : ∀ k k' v, cmp k k' = .eq → f k v = f k' v) :
    (m.filterMap f).get? k = (m.get? k).bind (f k) := by
  ext w
  rw [get?_eq_some_iff, Option.bind_eq_some_iff]
  simp only [filterMap, List.mem_filterMap, Option.map_eq_some_iff]
  constructor
  · rintro ⟨k', hk, ⟨e, v⟩, he, w', hw, heq⟩
    cases heq
    exact ⟨v, get?_of_mem he hk, by rw [hf _ _ _ hk]; exact hw⟩
  · rintro ⟨v, hv, hw⟩
    obtain ⟨k', hk, he⟩ := exists_mem_of_get? hv
    exact ⟨k', hk, (k', v), he, w, by rw [← hf _ _ _ hk]; exact hw, rfl⟩

theorem get?_filter {p : κ → α → Bool} (hp : ∀ k k' v, cmp k k' = .eq → p k v = p k' v) :
    (m.filter p).get? k = (m.get? k).filter (p k) := by
  ext w
  rw [get?_eq_some_iff, Option.filter_eq_some_iff]
  simp only [filter, List.mem_filter]
  constructor
  · rintro ⟨k', hk, he, hw⟩
    exact ⟨get?_of_mem he hk, by rw [hp _ _ _ hk]; exact hw⟩
  · rintro ⟨hw, hpw⟩
    obtain ⟨k', hk, he⟩ := exists_mem_of_get? hw
    exact ⟨k', hk, he, by rw [← hp _ _ _ hk]; exact hpw⟩

theorem isEmpty_iff : m.isEmpty = true ↔ ∀ k, m.get? k = none := by
  simp only [isEmpty, List.isEmpty_iff]
  constructor
  · intro h k
    simp [get?, h]
  · intro h
    rw [List.eq_nil_iff_forall_not_mem]
    rintro ⟨k, v⟩ he
    exact Option.some_ne_none v ((get?_self_of_mem he).symm.trans (h k))

theorem isSome_get?_iff : (m.get? k).isSome ↔ ∃ k' ∈ m.keys, cmp k k' = .eq := by
  rw [Option.isSome_iff_exists]
  simp only [get?_eq_some_iff, keys, List.mem_map]
  constructor
  · rintro ⟨v, k', hk, he⟩
    exact ⟨k', ⟨(k', v), he, rfl⟩, hk⟩
  · rintro ⟨k', ⟨⟨k', v⟩, he, rfl⟩, hk⟩
    exact ⟨v, k', hk, he⟩

/-- Maps with the same entries are the same. -/
theorem ext_mem {n : OrderedMap κ α cmp} (h : ∀ e, e ∈ m.toList ↔ e ∈ n.toList) : m = n := by
  have hasymm : ∀ a b : κ × α, cmp a.1 b.1 = .lt → cmp b.1 a.1 = .lt → a = b := fun a b hab hba => by
    rw [Std.OrientedCmp.gt_iff_lt.2 hab] at hba
    cases hba
  have : Std.Antisymm fun a b : κ × α => cmp a.1 b.1 = .lt := ⟨hasymm⟩
  have : Std.Irrefl fun a b : κ × α => cmp a.1 b.1 = .lt := ⟨fun a ha => by
    have hself : cmp a.1 a.1 = .eq := Std.ReflCmp.compare_self
    rw [hself] at ha
    cases ha⟩
  exact ext (m.sorted.eq_of_mem_iff n.sorted h)

/-- Where only equal keys compare equal, the look-ups are the map. -/
theorem ext_get? [Std.LawfulEqCmp cmp] {n : OrderedMap κ α cmp} (h : ∀ k, m.get? k = n.get? k) :
    m = n := by
  have hmem : ∀ (m : OrderedMap κ α cmp) (e : κ × α), e ∈ m.toList ↔ m.get? e.1 = some e.2 := by
    intro m e
    rw [get?_eq_some_iff]
    simp only [Std.LawfulEqCmp.compare_eq_iff_eq, exists_eq_left']
  exact ext_mem fun e => by rw [hmem, hmem, h]

/-- Maps with the same keys, spelled in the same way, and the same look-ups are the same. -/
theorem ext_keys {n : OrderedMap κ α cmp} (hkeys : ∀ k, k ∈ m.keys ↔ k ∈ n.keys)
    (h : ∀ k, m.get? k = n.get? k) : m = n := by
  have hsub : ∀ {m n : OrderedMap κ α cmp}, (∀ k ∈ m.keys, k ∈ n.keys) →
      (∀ k, m.get? k = n.get? k) → ∀ e ∈ m.toList, e ∈ n.toList := by
    rintro m n hkeys h ⟨k, v⟩ he
    obtain ⟨k', hk, hmem⟩ := exists_mem_of_get? ((h k).symm.trans (get?_self_of_mem he))
    obtain ⟨e, he', rfl⟩ := List.mem_map.1 (hkeys k (List.mem_map_of_mem he))
    obtain rfl : e = (k', v) := eq_of_mem_of_mem he' hmem hk
    exact hmem
  exact ext_mem fun e => ⟨hsub (fun k => (hkeys k).1) h e,
    hsub (fun k => (hkeys k).2) (fun k => (h k).symm) e⟩

/-- An entry after an insertion is an old one, or it holds the new value. -/
theorem mem_insert {e : κ × α} (h : e ∈ (m.insert k v).toList) :
    e ∈ m.toList ∨ cmp k e.1 = .eq ∧ e.2 = v := by
  have key : ∀ es : List (κ × α), e ∈ insertEntry cmp k v es →
      e ∈ es ∨ cmp k e.1 = .eq ∧ e.2 = v := by
    intro es
    induction es with
    | nil =>
      intro h
      obtain rfl : e = (k, v) := by simpa [insertEntry] using h
      exact .inr ⟨Std.ReflCmp.compare_self, rfl⟩
    | cons x es ih =>
      intro h
      unfold insertEntry at h
      split at h
      · rcases List.mem_cons.1 h with rfl | h
        · exact .inr ⟨Std.ReflCmp.compare_self, rfl⟩
        · exact .inl h
      · next hx =>
        rcases List.mem_cons.1 h with rfl | h
        · exact .inr ⟨hx, rfl⟩
        · exact .inl (List.mem_cons_of_mem _ h)
      · rcases List.mem_cons.1 h with rfl | h
        · exact .inl (List.mem_cons_self ..)
        · exact (ih h).imp (List.mem_cons_of_mem _) id
  exact key m.toList h

end Lookup

/-! ### Entry by entry -/

theorem toList_foldl_erase (m : OrderedMap κ α cmp) (es : List (κ × α)) :
    (es.foldl (fun m e => m.erase e.1) m).toList =
      m.toList.filter fun e => es.all fun x => cmp x.1 e.1 != .eq := by
  induction es generalizing m with
  | nil => simp
  | cons x es ih =>
    rw [List.foldl_cons, ih]
    simp only [erase, filter, List.filter_filter, List.all_cons]
    exact List.filter_congr fun e _ => Bool.and_comm ..

section Entries
variable [Std.TransCmp cmp] {m : OrderedMap κ α cmp} {k : κ} {v w : α}

theorem insertEntry_eq_map {es : List (κ × α)} (hs : es.Pairwise fun a b => cmp a.1 b.1 = .lt)
    (hk : ∃ e ∈ es, cmp k e.1 = .eq) :
    insertEntry cmp k v es = es.map fun e => if cmp k e.1 = .eq then (e.1, v) else e := by
  induction es with
  | nil => simp at hk
  | cons e es ih =>
    obtain ⟨he, hes⟩ := List.pairwise_cons.1 hs
    unfold insertEntry
    split
    · next hlt =>
      obtain ⟨x, hx, hkx⟩ := hk
      rcases List.mem_cons.1 hx with rfl | hx
      · rw [hlt] at hkx; cases hkx
      · rw [Std.TransCmp.lt_trans hlt (he x hx)] at hkx; cases hkx
    · next heq =>
      have hne : ∀ x ∈ es, ¬cmp k x.1 = .eq := fun x hx => by
        rw [Std.TransCmp.congr_left heq, he x hx]; simp
      rw [List.map_cons, if_pos heq]
      congr 1
      conv => lhs; rw [← List.map_id es]
      exact List.map_congr_left fun x hx => (if_neg (hne x hx)).symm
    · next hgt =>
      rw [List.map_cons, if_neg (by rw [hgt]; simp), ih hes]
      obtain ⟨x, hx, hkx⟩ := hk
      rcases List.mem_cons.1 hx with rfl | hx
      · rw [hgt] at hkx; cases hkx
      · exact ⟨x, hx, hkx⟩

/-- A new value for a key that is there. -/
theorem toList_insert_of_get? (h : m.get? k = some w) :
    (m.insert k v).toList = m.toList.map fun e => if cmp k e.1 = .eq then (e.1, v) else e := by
  obtain ⟨k', hk, he⟩ := exists_mem_of_get? h
  exact insertEntry_eq_map m.sorted ⟨_, he, hk⟩

/-- Inserting what is there changes nothing. -/
theorem insert_of_get? (h : m.get? k = some v) : m.insert k v = m := by
  refine ext ((toList_insert_of_get? h).trans ?_)
  conv => rhs; rw [← List.map_id m.toList]
  refine List.map_congr_left fun e he => ?_
  split
  · next hk =>
    rw [get?_of_mem (v := e.2) he hk] at h
    rw [← Option.some.inj h]
    rfl
  · rfl

theorem insert_insert (h : m.get? k = some w) {v' : α} :
    (m.insert k v).insert k v' = m.insert k v' := by
  refine ext ?_
  have hk : (m.insert k v).get? k = some v := get?_insert_of_eq Std.ReflCmp.compare_self
  rw [toList_insert_of_get? hk, toList_insert_of_get? h, toList_insert_of_get? h, List.map_map]
  refine List.map_congr_left fun e _ => ?_
  by_cases he : cmp k e.1 = .eq <;> simp [he]

/-- Erasing the entries that a condition refuses leaves those that it accepts. -/
theorem foldl_erase_filter (m : OrderedMap κ α cmp) (p : κ → Bool) :
    (m.toList.filter fun e => !p e.1).foldl (fun m e => m.erase e.1) m =
      m.filter fun k _ => p k := by
  refine ext ((toList_foldl_erase m _).trans (List.filter_congr fun e he => ?_))
  rw [Bool.eq_iff_iff, List.all_eq_true]
  constructor
  · intro hall
    by_contra hp
    have hne := hall e (List.mem_filter.2 ⟨he, by simpa using hp⟩)
    exact bne_iff_ne.1 hne Std.ReflCmp.compare_self
  · intro hp x hx
    obtain ⟨hxm, hstale⟩ := List.mem_filter.1 hx
    rw [bne_iff_ne]
    intro heq
    rw [eq_of_mem_of_mem hxm he heq, show p e.1 = true from hp] at hstale
    cases hstale

/-- An insertion is not seen by a condition that refuses its key. -/
theorem filter_toList_insert {p : κ → Bool} (hp : ∀ k', cmp k k' = .eq → p k' = false)
    (m : OrderedMap κ α cmp) :
    ((m.insert k v).toList.filter fun e => p e.1) = m.toList.filter fun e => p e.1 := by
  have hself : p k = false := hp k Std.ReflCmp.compare_self
  show (insertEntry cmp k v m.toList).filter _ = _
  induction m.toList with
  | nil => simp [insertEntry, hself]
  | cons e es ih =>
    unfold insertEntry
    split
    · rw [List.filter_cons_of_neg (by simp [hself])]
    · next heq =>
      rw [List.filter_cons_of_neg (by simp [hp _ heq]), List.filter_cons_of_neg (by simp [hp _ heq])]
    · rw [List.filter_cons, List.filter_cons, ih]

/-- What an insertion adds to a sum over the entries is what it puts in place of the old value. -/
theorem sum_insert {f : κ → α → Nat} (hf : ∀ k k' w, cmp k k' = .eq → f k w = f k' w)
    (m : OrderedMap κ α cmp) (k : κ) (v : α) :
    ((m.insert k v).toList.map fun e => f e.1 e.2).sum + ((m.get? k).map (f k)).getD 0 =
      (m.toList.map fun e => f e.1 e.2).sum + f k v := by
  obtain ⟨es, hs⟩ := m
  show ((insertEntry cmp k v es).map fun e => f e.1 e.2).sum +
    (((es.find? fun e => cmp k e.1 == .eq).map Prod.snd).map (f k)).getD 0 = _
  induction es with
  | nil => simp [insertEntry]
  | cons e es ih =>
    obtain ⟨he, hes⟩ := List.pairwise_cons.1 hs
    unfold insertEntry
    split
    · next hlt =>
      have hnone : (e :: es).find? (fun e => cmp k e.1 == .eq) = none := by
        rw [List.find?_eq_none]
        intro x hx
        rcases List.mem_cons.1 hx with rfl | hx
        · simp [hlt]
        · simp [Std.TransCmp.lt_trans hlt (he x hx)]
      rw [hnone]
      simp only [List.map_cons, List.sum_cons, Option.map_none, Option.getD_none]
      omega
    · next heq =>
      have hv := hf k e.1 v heq
      have hw := hf k e.1 e.2 heq
      simp only [List.map_cons, List.sum_cons, List.find?_cons_of_pos, heq, beq_self_eq_true,
        Option.map_some, Option.getD_some]
      omega
    · next hgt =>
      have hih := ih hes
      dsimp only at hih
      rw [List.find?_cons_of_neg (by simp [hgt])]
      simp only [List.map_cons, List.sum_cons]
      omega

end Entries

/-! ### Rebuilding a map -/

section OfList
variable [Std.TransCmp cmp]

theorem insertEntry_of_forall_lt {k : κ} {v : α} {es : List (κ × α)}
    (h : ∀ e ∈ es, cmp e.1 k = .lt) : insertEntry cmp k v es = es ++ [(k, v)] := by
  induction es with
  | nil => rfl
  | cons e es ih =>
    have hgt : cmp k e.1 = .gt := Std.OrientedCmp.gt_iff_lt.2 (h e (by simp))
    simp [insertEntry, hgt, ih fun x hx => h x (by simp [hx])]

/-- Insertions in key order append. -/
theorem toList_foldl_insert {m : OrderedMap κ α cmp} {es : List (κ × α)}
    (h : (m.toList ++ es).Pairwise fun a b => cmp a.1 b.1 = .lt) :
    (es.foldl (fun m e => m.insert e.1 e.2) m).toList = m.toList ++ es := by
  induction es generalizing m with
  | nil => simp
  | cons e es ih =>
    have hlt : ∀ x ∈ m.toList, cmp x.1 e.1 = .lt := fun x hx =>
      (List.pairwise_append.1 h).2.2 x hx e (by simp)
    have hm : (m.insert e.1 e.2).toList = m.toList ++ [e] := insertEntry_of_forall_lt hlt
    rw [List.foldl_cons, ih (by rw [hm]; simpa using h), hm]
    simp

theorem ofList_toList (m : OrderedMap κ α cmp) : ofList m.toList = m :=
  ext (toList_foldl_insert (m := empty) (by simpa [empty] using m.sorted))

theorem forall_keys_foldl_insert {P : κ → Prop} {m : OrderedMap κ α cmp} {es : List (κ × α)}
    (hm : ∀ k ∈ m.keys, P k) (hes : ∀ e ∈ es, P e.1) :
    ∀ k ∈ (es.foldl (fun m e => m.insert e.1 e.2) m).keys, P k := by
  induction es generalizing m with
  | nil => exact hm
  | cons e es ih =>
    refine ih (fun k hk => ?_) fun e' he' => hes e' (List.mem_cons_of_mem _ he')
    obtain ⟨e', he', rfl⟩ := List.mem_map.1 hk
    exact forall_key_insertEntry (hes e (List.mem_cons_self ..))
      (fun x hx => hm x.1 (List.mem_map_of_mem hx)) e' he'

/-- Every key is spelled as one of the inserted ones. -/
theorem mem_of_mem_keys_ofList {es : List (κ × α)} {k : κ}
    (h : k ∈ (ofList es : OrderedMap κ α cmp).keys) : k ∈ es.map Prod.fst :=
  forall_keys_foldl_insert (P := (· ∈ es.map Prod.fst)) (by simp [keys, empty])
    (fun _ he => List.mem_map_of_mem he) k h

theorem isSome_get?_foldl_insert {m : OrderedMap κ α cmp} {es : List (κ × α)} {k : κ} :
    ((es.foldl (fun m e => m.insert e.1 e.2) m).get? k).isSome = true ↔
      (m.get? k).isSome = true ∨ ∃ e ∈ es, cmp k e.1 = .eq := by
  induction es generalizing m with
  | nil => simp
  | cons e es ih =>
    rw [List.foldl_cons, ih, get?_insert, List.exists_mem_cons_iff]
    split
    · next heq => simp [heq]
    · next hne => simp [hne]

theorem get?_foldl_insert {m : OrderedMap κ α cmp} {es : List (κ × α)} {k : κ} :
    (es.foldl (fun m e => m.insert e.1 e.2) m).get? k =
      ((es.reverse.find? fun e => cmp k e.1 == .eq).map Prod.snd).or (m.get? k) := by
  induction es generalizing m with
  | nil => rfl
  | cons e es ih =>
    rw [List.foldl_cons, ih, List.reverse_cons, List.find?_append, get?_insert]
    cases es.reverse.find? fun e => cmp k e.1 == .eq with
    | some _ => rfl
    | none => cases hk : cmp k e.1 <;> simp [hk]

/-- Of several values with one key the last is found. -/
theorem get?_ofList {es : List (κ × α)} {k : κ} :
    (ofList es : OrderedMap κ α cmp).get? k =
      (es.reverse.find? fun e => cmp k e.1 == .eq).map Prod.snd := by
  rw [ofList, get?_foldl_insert, get?_empty, Option.or_none]

/-- Every inserted key is found. -/
theorem exists_mem_keys_ofList {es : List (κ × α)} {k : κ} (h : k ∈ es.map Prod.fst) :
    ∃ k' ∈ (ofList es : OrderedMap κ α cmp).keys, cmp k k' = .eq := by
  obtain ⟨e, he, rfl⟩ := List.mem_map.1 h
  exact isSome_get?_iff.1 (isSome_get?_foldl_insert.2 (.inr ⟨e, he, Std.ReflCmp.compare_self⟩))

end OfList

end GqlArtifacts.OrderedMap
