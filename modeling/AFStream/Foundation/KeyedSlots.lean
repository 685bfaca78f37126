/-
# Keyed slots

A store that gives every new key the next free slot and overwrites the slot of a known
key. The entries stand in the order in which their keys were first put, and what a key
holds is what was put last.
-/

import Mathlib.Tactic

namespace AFStream.Foundation

universe u v

/-- Entries with distinct keys, in slot order. -/
structure KeyedSlots (K : Type u) (V : Type v) where
  entries : List (K × V)
  nodup_keys : (entries.map Prod.fst).Nodup

namespace KeyedSlots

variable {K : Type u} {V : Type v}

/-- Overwrite the slot of a key, or append one. -/
def putEntry [DecidableEq K] (key : K) (value : V) : List (K × V) → List (K × V)
  | [] => [(key, value)]
  | entry :: rest =>
    if entry.1 = key then (key, value) :: rest else entry :: putEntry key value rest

variable [DecidableEq K]

theorem map_fst_putEntry (key : K) (value : V) (entries : List (K × V)) :
    (putEntry key value entries).map Prod.fst =
      if key ∈ entries.map Prod.fst then entries.map Prod.fst
      else entries.map Prod.fst ++ [key] := by
  induction entries with
  | nil => rfl
  | cons entry rest ih =>
      by_cases hkey : entry.1 = key
      · simp [putEntry, hkey]
      · by_cases hmem : key ∈ rest.map Prod.fst
        · simp [putEntry, hkey, ih, hmem]
        · simp [putEntry, hkey, ih, hmem, Ne.symm hkey]

/-- The empty store. -/
def empty : KeyedSlots K V := ⟨[], List.nodup_nil⟩

/-- Put a value under a key. -/
def put (store : KeyedSlots K V) (key : K) (value : V) : KeyedSlots K V where
  entries := putEntry key value store.entries
  nodup_keys := by
    rw [map_fst_putEntry]
    split_ifs with hmem
    · exact store.nodup_keys
    · exact List.nodup_append.mpr ⟨store.nodup_keys, List.nodup_singleton key,
        fun a ha b hb => by
          rw [List.mem_singleton.mp hb]
          exact fun hab => hmem (hab ▸ ha)⟩

/-- What a key holds. -/
def get? (store : KeyedSlots K V) (key : K) : Option V := store.entries.lookup key

variable (store : KeyedSlots K V) {key : K} {value : V}

omit store in
theorem lookup_cons_eq (entry : K × V) (rest : List (K × V)) (key : K) :
    (entry :: rest).lookup key = if key = entry.1 then some entry.2 else rest.lookup key := by
  obtain ⟨entryKey, entryValue⟩ := entry
  by_cases hkey : key = entryKey
  · subst hkey
    rw [List.lookup_cons_self, if_pos rfl]
  · rw [List.lookup_cons, if_neg hkey, beq_eq_false_iff_ne.mpr hkey]

/-- What the keys hold after a put. -/
theorem get?_put (key : K) (value : V) (other : K) :
    (store.put key value).get? other = if other = key then some value else store.get? other := by
  simp only [get?, put]
  induction store.entries with
  | nil => rw [putEntry, lookup_cons_eq]
  | cons entry rest ih =>
      by_cases hkey : entry.1 = key
      · rw [putEntry, if_pos hkey, lookup_cons_eq, lookup_cons_eq, hkey]
        split_ifs <;> rfl
      · rw [putEntry, if_neg hkey, lookup_cons_eq, lookup_cons_eq, ih]
        by_cases hother : other = key
        · simp [hother, Ne.symm hkey]
        · simp [hother]

/-- The keys of the store after a put. -/
theorem keys_put (key : K) (value : V) (other : K) :
    other ∈ (store.put key value).entries.map Prod.fst ↔
      other = key ∨ other ∈ store.entries.map Prod.fst := by
  rw [put, map_fst_putEntry]
  split_ifs with hmem
  · constructor
    · exact Or.inr
    · rintro (rfl | h)
      · exact hmem
      · exact h
  · rw [List.mem_append, List.mem_singleton, or_comm]

/-- Every entry is what its key holds. -/
theorem mem_entries_iff : (key, value) ∈ store.entries ↔ store.get? key = some value := by
  obtain ⟨entries, hnodup⟩ := store
  simp only [get?]
  induction entries with
  | nil => simp
  | cons entry rest ih =>
      obtain ⟨hnot, hrest⟩ := List.nodup_cons.mp hnodup
      rw [List.mem_cons, ih hrest, lookup_cons_eq, Prod.ext_iff]
      by_cases hkey : key = entry.1
      · have hnone : rest.lookup key ≠ some value := fun hsome =>
          hnot (hkey ▸ List.mem_map_of_mem ((ih hrest).mpr hsome))
        rw [if_pos hkey, Option.some.injEq, eq_comm (a := entry.2)]
        exact ⟨fun h => (h.resolve_right hnone).2, fun h => .inl ⟨hkey, h⟩⟩
      · simp [hkey]

/-! ## Slots -/

theorem keys_put_eq (key : K) (value : V) :
    (store.put key value).entries.map Prod.fst =
      if key ∈ store.entries.map Prod.fst then store.entries.map Prod.fst
      else store.entries.map Prod.fst ++ [key] :=
  map_fst_putEntry key value store.entries

/-- A known key keeps its slot. -/
theorem entries_put_of_mem (hmem : key ∈ store.entries.map Prod.fst) (value : V) :
    (store.put key value).entries =
      store.entries.set ((store.entries.map Prod.fst).idxOf key) (key, value) := by
  obtain ⟨entries, hnodup⟩ := store
  dsimp only [put] at hmem ⊢
  clear hnodup
  induction entries with
  | nil => cases hmem
  | cons entry rest ih =>
      by_cases hkey : entry.1 = key
      · simp [putEntry, hkey]
      · have hrest : key ∈ rest.map Prod.fst := by
          rcases List.mem_cons.mp hmem with hhead | htail
          · exact absurd hhead.symm hkey
          · exact htail
        rw [putEntry, if_neg hkey, ih hrest, List.map_cons, List.idxOf_cons_ne _ hkey,
          List.set_cons_succ]

/-- A new key gets the next slot. -/
theorem entries_put_of_not_mem (hmem : key ∉ store.entries.map Prod.fst) (value : V) :
    (store.put key value).entries = store.entries ++ [(key, value)] := by
  obtain ⟨entries, hnodup⟩ := store
  dsimp only [put] at hmem ⊢
  clear hnodup
  induction entries with
  | nil => rfl
  | cons entry rest ih =>
      rw [List.map_cons, List.mem_cons, not_or] at hmem
      rw [putEntry, if_neg (Ne.symm hmem.1), ih hmem.2, List.cons_append]

/-- A key holds what stands in its slot. -/
theorem get?_eq_getElem? (key : K) :
    store.get? key = (store.entries.map Prod.snd)[(store.entries.map Prod.fst).idxOf key]? := by
  simp only [get?]
  induction store.entries with
  | nil => rfl
  | cons entry rest ih =>
      rw [lookup_cons_eq, List.map_cons, List.map_cons]
      by_cases hkey : key = entry.1
      · rw [if_pos hkey, hkey, List.idxOf_cons_self, List.getElem?_cons_zero]
      · rw [if_neg hkey, List.idxOf_cons_ne _ (Ne.symm hkey), List.getElem?_cons_succ, ih]

/-! ## Reading a store back -/

/-- Write all entries into a function, each at the image of its key. -/
def writeEntries {J : Type*} [DecidableEq J] (index : K → J) (entries : List (K × V))
    (f : J → V) : J → V :=
  entries.foldl (fun f entry => Function.update f (index entry.1) entry.2) f

variable {J : Type*} [DecidableEq J] {index : K → J}

omit [DecidableEq K] store in
/-- Where no entry is written. -/
theorem writeEntries_of_ne {entries : List (K × V)} {j : J}
    (hne : ∀ key ∈ entries.map Prod.fst, index key ≠ j) (f : J → V) :
    writeEntries index entries f j = f j := by
  induction entries generalizing f with
  | nil => rfl
  | cons entry rest ih =>
      rw [List.map_cons, List.forall_mem_cons] at hne
      have hrest := ih hne.2 (Function.update f (index entry.1) entry.2)
      rw [Function.update_of_ne (Ne.symm hne.1)] at hrest
      exact hrest

/-- Where a key is written, whatever order the entries stand in. -/
theorem writeEntries_of_get? (hindex : Function.Injective index)
    (hget : store.get? key = some value) (f : J → V) :
    writeEntries index store.entries f (index key) = value := by
  obtain ⟨entries, hnodup⟩ := store
  simp only [get?] at hget
  induction entries generalizing f with
  | nil => cases hget
  | cons entry rest ih =>
      obtain ⟨hnot, hrest⟩ := List.nodup_cons.mp hnodup
      rw [lookup_cons_eq] at hget
      by_cases hkey : key = entry.1
      · rw [if_pos hkey] at hget
        subst hkey
        have hne : ∀ other ∈ rest.map Prod.fst, index other ≠ index entry.1 := by
          intro other hother hsame
          exact hnot (hindex hsame ▸ hother)
        have hvalue := writeEntries_of_ne hne (Function.update f (index entry.1) entry.2)
        rw [Function.update_self] at hvalue
        exact hvalue.trans (Option.some.inj hget)
      · rw [if_neg hkey] at hget
        exact ih (Function.update f (index entry.1) entry.2) hrest hget

/-- A slot that is put is written behind all others. -/
theorem writeEntries_put (hindex : Function.Injective index) (key : K) (value : V) (f : J → V) :
    writeEntries index (store.put key value).entries f =
      Function.update (writeEntries index store.entries f) (index key) value := by
  funext j
  by_cases hkey : ∃ other ∈ (store.put key value).entries.map Prod.fst, index other = j
  · obtain ⟨other, hmem, rfl⟩ := hkey
    by_cases hother : other = key
    · subst hother
      rw [Function.update_self]
      exact (store.put other value).writeEntries_of_get? hindex
        ((store.get?_put other value other).trans (if_pos rfl)) f
    · have hold : other ∈ store.entries.map Prod.fst := by
        rcases (store.keys_put key value other).mp hmem with hsame | hold
        · exact absurd hsame hother
        · exact hold
      obtain ⟨entry, hentry, rfl⟩ := List.mem_map.mp hold
      have hget := store.mem_entries_iff.mp hentry
      have hget' : (store.put key value).get? entry.1 = some entry.2 :=
        (store.get?_put key value entry.1).trans ((if_neg hother).trans hget)
      rw [(store.put key value).writeEntries_of_get? hindex hget',
        Function.update_of_ne fun hsame => hother (hindex hsame),
        store.writeEntries_of_get? hindex hget]
  · have hne : ∀ other ∈ (store.put key value).entries.map Prod.fst, index other ≠ j :=
      fun other hmem hsame => hkey ⟨other, hmem, hsame⟩
    have hold : ∀ other ∈ store.entries.map Prod.fst, index other ≠ j :=
      fun other hmem => hne other ((store.keys_put key value other).mpr (.inr hmem))
    have hj : j ≠ index key :=
      Ne.symm (hne key ((store.keys_put key value key).mpr (.inl rfl)))
    rw [writeEntries_of_ne hne, Function.update_of_ne hj, writeEntries_of_ne hold]
/-- What a store holds after a sequence of puts is what was put last. -/
theorem get?_foldl_put (puts : List (K × V)) (key : K) :
    (puts.foldl (fun store entry => store.put entry.1 entry.2) store).get? key =
      (puts.reverse.lookup key).or (store.get? key) := by
  induction puts using List.reverseRecOn with
  | nil => rfl
  | append_singleton rest entry ih =>
      rw [List.foldl_append, List.foldl_cons, List.foldl_nil, get?_put, ih,
        List.reverse_append, List.reverse_singleton, List.singleton_append, lookup_cons_eq]
      split_ifs <;> rfl

omit store in
theorem mem_keys_of_lookup {entries : List (K × V)} (h : entries.lookup key = some value) :
    key ∈ entries.map Prod.fst := by
  by_contra hmem
  have hnone : entries.lookup key = none := by
    rw [List.lookup_eq_none_iff]
    intro entry hentry
    rw [bne_iff_ne]
    exact fun hsame => hmem (hsame ▸ List.mem_map_of_mem hentry)
  rw [hnone] at h
  cases h

omit store in
theorem lookup_ne_none_of_mem {entries : List (K × V)} (hmem : key ∈ entries.map Prod.fst) :
    entries.lookup key ≠ none := by
  intro hnone
  obtain ⟨entry, hentry, rfl⟩ := List.mem_map.mp hmem
  have hne := List.lookup_eq_none_iff.mp hnone entry hentry
  simp at hne

/-! ## The set of keys -/

/-- The keys of a store. -/
def keySet : Finset K := (store.entries.map Prod.fst).toFinset

theorem card_keySet : store.keySet.card = store.entries.length := by
  rw [keySet, List.toFinset_card_of_nodup store.nodup_keys, List.length_map]

theorem mem_keySet : key ∈ store.keySet ↔ store.get? key ≠ none := by
  rw [keySet, List.mem_toFinset]
  constructor
  · exact lookup_ne_none_of_mem
  · intro hget
    obtain ⟨value, hvalue⟩ := Option.ne_none_iff_exists'.mp hget
    exact mem_keys_of_lookup hvalue

theorem keySet_put (key : K) (value : V) :
    (store.put key value).keySet = insert key store.keySet := by
  ext other
  rw [Finset.mem_insert, mem_keySet, mem_keySet, get?_put]
  by_cases hother : other = key
  · simp [hother]
  · simp [hother]

theorem keySet_foldl_put (puts : List (K × V)) :
    (puts.foldl (fun store entry => store.put entry.1 entry.2) store).keySet =
      store.keySet ∪ (puts.map Prod.fst).toFinset := by
  induction puts generalizing store with
  | nil => simp
  | cons entry rest ih =>
      rw [List.foldl_cons, ih, keySet_put, List.map_cons, List.toFinset_cons, Finset.insert_union,
        Finset.union_insert]

/-- How many entries have keys that another store does not have. -/
theorem length_filter_get?_eq_none (other : KeyedSlots K V) :
    (store.entries.filter fun entry => other.get? entry.1 = none).length =
      (store.keySet \ other.keySet).card := by
  have hnodup : ((store.entries.filter fun entry => other.get? entry.1 = none).map
      Prod.fst).Nodup := store.nodup_keys.sublist (List.filter_sublist.map Prod.fst)
  rw [← List.length_map Prod.fst, ← List.toFinset_card_of_nodup hnodup]
  congr 1
  ext key
  rw [List.mem_toFinset, Finset.mem_sdiff, other.mem_keySet, not_not, keySet, List.mem_toFinset,
    List.mem_map, List.mem_map]
  constructor
  · rintro ⟨entry, hentry, rfl⟩
    obtain ⟨hmem, hnone⟩ := List.mem_filter.mp hentry
    exact ⟨⟨entry, hmem, rfl⟩, by simpa using hnone⟩
  · rintro ⟨⟨entry, hmem, rfl⟩, hnone⟩
    exact ⟨entry, List.mem_filter.mpr ⟨hmem, by simpa using hnone⟩, rfl⟩

end KeyedSlots

end AFStream.Foundation
