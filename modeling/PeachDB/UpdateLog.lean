import Mathlib.Data.Finmap

/-!
# Finite maps and logs of updates

A hash map is a finite map whose iteration order is left open: an order is
any list of its entries. A log is a list of keyed items in which the last item
of a key decides. Replaying a log of insertions and removals over a map is
determined by these last items, so that replay is idempotent and forgets the
base map on every key the log mentions.
-/

namespace PeachDB

variable {K V β : Type*}

/-- A hash map, up to its iteration order. -/
abbrev HashMap (K V : Type*) := Finmap fun _ : K => V

/-- The entry list `l` is a possible iteration order of the map `m`. -/
def IterOrder (m : HashMap K V) (l : List (K × V)) : Prop :=
  ((l.map fun e => (⟨e.1, e.2⟩ : Σ _ : K, V) : List _) : Multiset _) = m.entries

instance [DecidableEq K] [DecidableEq V] (m : HashMap K V) (l : List (K × V)) :
    Decidable (IterOrder m l) :=
  inferInstanceAs (Decidable (_ = _))

namespace IterOrder

variable {m : HashMap K V} {l : List (K × V)}

/-- Every map can be iterated. -/
theorem exists_of (m : HashMap K V) : ∃ l, IterOrder m l := by
  refine ⟨m.entries.toList.map fun e => (e.1, e.2), ?_⟩
  rw [IterOrder, List.map_map]
  exact (congrArg _ (List.map_id _)).trans (Multiset.coe_toList _)

/-- Iteration yields each key once. -/
theorem nodup (h : IterOrder m l) : (l.map Prod.fst).Nodup := by
  have hk := m.nodupKeys
  rw [← h, Multiset.coe_nodupKeys, List.NodupKeys, List.keys, List.map_map] at hk
  exact hk

/-- A fold over the map is the fold over any iteration order. -/
theorem foldl_eq {δ : Type*} (h : IterOrder m l) (f : δ → K → V → δ)
    (H : ∀ d a₁ b₁ a₂ b₂, f (f d a₁ b₁) a₂ b₂ = f (f d a₂ b₂) a₁ b₁)
    (d : δ) :
    m.foldl f H d = l.foldl (fun d e => f d e.1 e.2) d := by
  have : RightCommutative fun d (e : Σ _ : K, V) => f d e.1 e.2 := ⟨fun _ _ _ => H ..⟩
  have he : m.entries = ((l.map fun e => (⟨e.1, e.2⟩ : Σ _ : K, V) : List _) : Multiset _) :=
    h.symm
  change m.entries.foldl (fun d e => f d e.1 e.2) d = _
  rw [he, Multiset.coe_foldl, List.foldl_map]

end IterOrder

variable [DecidableEq K]

/-- The last item a log holds for a key. -/
def lastOf (k : K) (l : List (K × β)) : Option β := l.reverse.lookup k

/-- An empty list has no last entry. -/
@[simp] theorem lastOf_nil (k : K) : lastOf k ([] : List (K × β)) = none := rfl

/-- What comes later decides. -/
theorem lastOf_append (k : K) (l₁ l₂ : List (K × β)) :
    lastOf k (l₁ ++ l₂) = (lastOf k l₂).or (lastOf k l₁) := by
  simp only [lastOf, List.reverse_append, List.lookup_append]

/-- A single entry is the last one of its own key. -/
theorem lastOf_singleton (k : K) (e : K × β) :
    lastOf k [e] = if k = e.1 then some e.2 else none := by
  have hlookup : lastOf k [e] = [e].findSome? fun p => if k == p.1 then some p.2 else none :=
    List.lookup_eq_findSome?
  rw [hlookup, List.findSome?_singleton]
  simp only [beq_iff_eq]

/-- Appending an item decides its own key and no other. -/
theorem lastOf_concat (k : K) (l : List (K × β)) (e : K × β) :
    lastOf k (l ++ [e]) = if k = e.1 then some e.2 else lastOf k l := by
  rw [lastOf_append, lastOf_singleton]
  split <;> rfl

/-- The last entry of a key is in the list. -/
theorem mem_of_lastOf {k : K} {l : List (K × β)} {b : β} (h : lastOf k l = some b) :
    (k, b) ∈ l := by
  induction l using List.reverseRecOn with
  | nil => cases h
  | append_singleton l e ih =>
    rw [lastOf_concat] at h
    split at h
    · rename_i hk
      cases h
      simp [hk]
    · exact List.mem_append_left _ (ih h)

/-- A key has no last entry exactly when it has none at all. -/
theorem lastOf_eq_none_iff {k : K} {l : List (K × β)} :
    lastOf k l = none ↔ ∀ e ∈ l, e.1 ≠ k := by
  induction l using List.reverseRecOn with
  | nil => simp
  | append_singleton l e ih =>
    rw [lastOf_concat]
    split
    · rename_i hk
      simp only [reduceCtorEq, false_iff]
      intro hall
      exact hall e (by simp) hk.symm
    · rename_i hk
      rw [ih]
      simp only [List.mem_append, List.mem_singleton]
      constructor
      · rintro hall x (hx | rfl)
        · exact hall x hx
        · exact fun h => hk h.symm
      · exact fun hall x hx => hall x (.inl hx)

/-- Items of distinct keys are all last items. -/
theorem lastOf_eq_some_iff_of_nodup {l : List (K × β)} (hl : (l.map Prod.fst).Nodup) {k : K}
    {b : β} : lastOf k l = some b ↔ (k, b) ∈ l := by
  refine ⟨mem_of_lastOf, fun hm => ?_⟩
  cases h : lastOf k l with
  | none => exact absurd rfl (lastOf_eq_none_iff.mp h _ hm)
  | some c => rw [Prod.mk.inj (List.inj_on_of_nodup_map hl (mem_of_lastOf h) hm rfl) |>.2]

/-- All items a log holds for a key, in order. -/
def itemsOf (k : K) (l : List (K × β)) : List β := l.filterMap fun e => if e.1 = k then some e.2
    else none

/-- An empty list has no items. -/
@[simp] theorem itemsOf_nil (k : K) : itemsOf k ([] : List (K × β)) = [] := rfl

/-- Items are listed in order. -/
theorem itemsOf_append (k : K) (l₁ l₂ : List (K × β)) :
    itemsOf k (l₁ ++ l₂) = itemsOf k l₁ ++ itemsOf k l₂ := List.filterMap_append

/-- A single item is one of its own key. -/
theorem itemsOf_singleton (k : K) (e : K × β) : itemsOf k [e] = if e.1 = k then [e.2]
    else [] := by
  simp only [itemsOf, List.filterMap_cons, List.filterMap_nil]
  split <;> simp_all

/-- The items of a key are those that the list pairs with it. -/
@[simp] theorem mem_itemsOf {k : K} {l : List (K × β)} {b : β} : b ∈ itemsOf k l ↔
    (k, b) ∈ l := by
  simp only [itemsOf, List.mem_filterMap, Option.ite_none_right_eq_some, Option.some.injEq]
  constructor
  · rintro ⟨⟨_, _⟩, hm, rfl, rfl⟩
    exact hm
  · exact fun hm => ⟨_, hm, rfl, rfl⟩

/-- The last item of a key is the last of its items. -/
theorem lastOf_eq_getLast? (k : K) (l : List (K × β)) : lastOf k l = (itemsOf k l).getLast? := by
  induction l using List.reverseRecOn with
  | nil => rfl
  | append_singleton l e ih =>
    rw [lastOf_concat, itemsOf_append, itemsOf_singleton, ih]
    by_cases h : k = e.1
    · rw [if_pos h, if_pos h.symm, List.getLast?_concat]
    · rw [if_neg h, if_neg fun he => h he.symm, List.append_nil]

/-- Last items under a change of the values. -/
theorem lastOf_map {γ : Type*} (k : K) (l : List (K × β)) (f : K → β → γ) :
    lastOf k (l.map fun e => (e.1, f e.1 e.2)) = (lastOf k l).map (f k) := by
  induction l using List.reverseRecOn with
  | nil => rfl
  | append_singleton l e ih =>
    rw [List.map_append, List.map_singleton, lastOf_concat, lastOf_concat, ih]
    by_cases h : k = e.1
    · rw [if_pos h, if_pos h, h]
      rfl
    · rw [if_neg h, if_neg h]

/-- An insertion changes one key. -/
theorem lookup_insert_eq (m : HashMap K V) (a k : K) (v : V) :
    (m.insert a v).lookup k = if k = a then some v else m.lookup k := by
  by_cases h : k = a
  · rw [if_pos h, h, Finmap.lookup_insert]
  · rw [if_neg h, Finmap.lookup_insert_of_ne _ h]

/-- Insert the items of a list one after another. -/
def insertAll (m : HashMap K V) (l : List (K × V)) : HashMap K V :=
  l.foldl (fun m e => m.insert e.1 e.2) m

/-- One update: a value is inserted, its absence removes the key. -/
def applyUpdate (m : HashMap K V) (u : K × Option V) : HashMap K V :=
  match u.2 with
  | some v => m.insert u.1 v
  | none => m.erase u.1

/-- Replay a log of updates over a map. -/
def applyAll (m : HashMap K V) (l : List (K × Option V)) : HashMap K V := l.foldl applyUpdate m

/-- An update changes one key. -/
theorem lookup_applyUpdate (m : HashMap K V) (u : K × Option V) (k : K) :
    (applyUpdate m u).lookup k = if k = u.1 then u.2 else m.lookup k := by
  obtain ⟨a, o⟩ := u
  by_cases h : k = a
  · subst h
    cases o <;> simp [applyUpdate]
  · cases o <;> simp [applyUpdate, h]

/-- Replay is decided key by key by the last update of the key. -/
theorem lookup_applyAll (m : HashMap K V) (l : List (K × Option V)) (k : K) :
    (applyAll m l).lookup k = (lastOf k l).getD (m.lookup k) := by
  induction l using List.reverseRecOn with
  | nil => rfl
  | append_singleton l u ih =>
    rw [applyAll, List.foldl_append, List.foldl_cons, List.foldl_nil, lookup_applyUpdate,
      lastOf_concat]
    split
    · rfl
    · exact ih

/-- After many insertions a key has the value of its last one. -/
theorem lookup_insertAll (m : HashMap K V) (l : List (K × V)) (k : K) :
    (insertAll m l).lookup k = (lastOf k l).or (m.lookup k) := by
  induction l using List.reverseRecOn with
  | nil => rfl
  | append_singleton l e ih =>
    rw [insertAll, List.foldl_append, List.foldl_cons, List.foldl_nil, lookup_insert_eq,
      lastOf_concat]
    split
    · rfl
    · exact ih

/-- Replay forgets the base map on the keys the log mentions, so two bases
that agree elsewhere give one result. -/
theorem applyAll_congr {m m' : HashMap K V} {l : List (K × Option V)}
    (h : ∀ k, lastOf k l = none → m.lookup k = m'.lookup k) : applyAll m l = applyAll m' l := by
  apply Finmap.ext_lookup
  intro k
  rw [lookup_applyAll, lookup_applyAll]
  cases hl : lastOf k l with
  | none => exact h k hl
  | some o => rfl

namespace IterOrder

variable {m : HashMap K V} {l : List (K × V)}

/-- Iteration yields exactly the entries of the map. -/
theorem mem_iff (h : IterOrder m l) {k : K} {v : V} : (k, v) ∈ l ↔ m.lookup k = some v := by
  rw [Finmap.lookup_eq_some_iff, ← h, Multiset.mem_coe, List.mem_map]
  constructor
  · exact fun hm => ⟨_, hm, rfl⟩
  · rintro ⟨⟨a, b⟩, hm, he⟩
    cases he
    exact hm

/-- In an order of iteration every key stands once. -/
theorem lastOf_eq (h : IterOrder m l) (k : K) : lastOf k l = m.lookup k := by
  apply Option.ext
  intro v
  rw [lastOf_eq_some_iff_of_nodup h.nodup, h.mem_iff]

/-- Inserting the entries of a map in any order builds the map. -/
theorem insertAll_eq (h : IterOrder m l) : insertAll ∅ l = m := by
  apply Finmap.ext_lookup
  intro k
  rw [lookup_insertAll, h.lastOf_eq, Finmap.lookup_empty, Option.or_none]

/-- A list of items with distinct keys is an order of the map they build. -/
theorem of_nodup {l : List (K × V)} (hl : (l.map Prod.fst).Nodup) :
    IterOrder (insertAll ∅ l) l := by
  let entries : List (Σ _ : K, V) := l.map fun e => ⟨e.1, e.2⟩
  have hkeys : (entries : Multiset (Σ _ : K, V)).NodupKeys := by
    rw [Multiset.coe_nodupKeys, List.NodupKeys, List.keys, List.map_map]
    exact hl
  have horder : IterOrder (⟨entries, hkeys⟩ : HashMap K V) l := rfl
  rwa [horder.insertAll_eq]

end IterOrder

/-- Remove the keys of a second map one after another. -/
def removeKeys (m : HashMap K V) (p : HashMap K β) : HashMap K V :=
  p.foldl (fun m k _ => m.erase k) (fun _ _ _ _ _ => Finmap.erase_erase) m

/-- Removed keys have no value, the others keep theirs. -/
theorem lookup_removeKeys (m : HashMap K V) (p : HashMap K β) (k : K) :
    (removeKeys m p).lookup k = if k ∈ p then none else m.lookup k := by
  obtain ⟨l, hl⟩ := IterOrder.exists_of p
  have herase : ∀ (m : HashMap K V) (l : List (K × β)),
      (l.foldl (fun d e => d.erase e.1) m).lookup k =
        if lastOf k l = none then m.lookup k else none := by
    intro m l
    induction l using List.reverseRecOn with
    | nil => rfl
    | append_singleton l e ih =>
      rw [List.foldl_append, List.foldl_cons, List.foldl_nil, lastOf_concat]
      by_cases h : k = e.1
      · rw [if_pos h, h, Finmap.lookup_erase]
        rfl
      · rw [if_neg h, Finmap.lookup_erase_ne h, ih]
  rw [removeKeys, hl.foldl_eq, herase, hl.lastOf_eq]
  by_cases hk : k ∈ p
  · rw [if_pos hk, if_neg fun h => Finmap.lookup_eq_none.mp h hk]
  · rw [if_neg hk, if_pos (Finmap.lookup_eq_none.mpr hk)]

end PeachDB
