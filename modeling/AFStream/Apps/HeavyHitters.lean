/-
# The output of the merge thread

The merge thread looks at a key only while it processes an item that lists the key, with the
counters of the items that have arrived until then. The module determines for which items the
output does not depend on the order in which they arrive.
-/

import AFStream.Apps.CountMinMerge
import AFStream.Foundation.Interleave

namespace AFStream.Apps

open AFStream.Foundation AFStream.Operator

variable {config : SketchConfig} {thresh : ℕ}

/-! ## Order independence -/

/-- The keys in the output file. -/
def MergeThread.outputKeys (merge : MergeThread) : List UInt64 := merge.output.map Prod.fst

/-- A key that an item lists. -/
def CMItem.lists (key : UInt64) (item : CMItem) : Bool := decide (key ∈ item.heavyHitters)

/-- `ProcessData` on all items in their order of arrival. -/
def mergeItems (config : SketchConfig) (thresh : ℕ) (arrivals : List CMItem) :
    Option MergeThread :=
  arrivals.foldlM (MergeThread.processData config thresh) (.create config)

/-- In all orders of arrival the merge thread writes the same keys: those that are listed in
some item and have a final estimate over the threshold. -/
def OrderIndependent (config : SketchConfig) (thresh : ℕ) (items : List CMItem) : Prop :=
  ∀ arrivals : List CMItem, arrivals.Perm items →
    ∃ merged, mergeItems config thresh arrivals = some merged ∧
      (∀ key, key ∈ merged.outputKeys ↔
        (∃ item ∈ items, item.lists key = true) ∧ (thresh : ℤ) < merged.sketch.getEstimate key) ∧
      ∀ arrivals' : List CMItem, arrivals'.Perm items →
        ∃ merged', mergeItems config thresh arrivals' = some merged' ∧
          ∀ key, key ∈ merged'.outputKeys ↔ key ∈ merged.outputKeys

/-- The counters of some items. -/
def itemsTotal (config : SketchConfig) (items : List CMItem) : ℕ × ℕ → ℤ :=
  tally (items.flatMap (itemIncrements config))

/-- With the counters of some items, a key is over the threshold in every row. -/
def Exceeds (config : SketchConfig) (thresh : ℕ) (key : UInt64) (items : List CMItem) : Prop :=
  ∀ i < config.row, (thresh : ℤ) < itemsTotal config items (i, threadBucket config 0 i key)

/-- All indices are within the sketch, no counter overflows, and a listed key that is over the
threshold with all items is over it with the items that list it. -/
structure Announced (config : SketchConfig) (thresh : ℕ) (items : List CMItem) : Prop where
  indices : ∀ item ∈ items, ∀ counter ∈ item.counters,
    counter.1.toNat / config.width < config.row
  totals : ∀ x, itemsTotal config items x < 2 ^ 63
  keys : ∀ key, (∃ item ∈ items, item.lists key = true) → Exceeds config thresh key items →
    Exceeds config thresh key (items.filter (CMItem.lists key))

/-! ## What is written while the items arrive -/

/-- After some items the merge thread has their counters, and it has written each key that was
over the threshold when an item that lists it arrived. -/
structure Merged (config : SketchConfig) (thresh : ℕ) (arrivals : List CMItem)
    (merge : MergeThread) : Prop where
  holds : Holds config 0 merge.sketch (itemsTotal config arrivals)
  cand_iff : ∀ key, key ∈ merge.cand ↔ key ∈ merge.outputKeys
  output_iff : ∀ key, key ∈ merge.outputKeys ↔
    SeenAt (CMItem.lists key) (Exceeds config thresh key) arrivals

variable {items arrivals : List CMItem} {merge : MergeThread} {key : UInt64}

theorem merged_create (config : SketchConfig) (thresh : ℕ) :
    Merged config thresh [] (.create config) where
  holds := by
    have hfirst := holds_create config 0
    rwa [Nat.zero_mul] at hfirst
  cand_iff := fun _ => Iff.rfl
  output_iff := fun _ => iff_of_false List.not_mem_nil (not_seenAt_nil _ _)

/-- Items whose counters are not negative. -/
def NonnegItems (items : List CMItem) : Prop :=
  ∀ item ∈ items, ∀ counter ∈ item.counters, 0 ≤ counter.2

instance (items : List CMItem) : Decidable (NonnegItems items) :=
  inferInstanceAs (Decidable (∀ item ∈ items, ∀ counter ∈ item.counters, 0 ≤ counter.2))

theorem NonnegItems.increments (hnonneg : NonnegItems items) :
    ∀ increment ∈ items.flatMap (itemIncrements config), 0 ≤ increment.2 := by
  intro increment hincrement
  obtain ⟨item, hitem, hmem⟩ := List.mem_flatMap.mp hincrement
  obtain ⟨counter, hcounter, hsingle⟩ := List.mem_flatMap.mp hmem
  rw [List.mem_singleton.mp hsingle]
  exact hnonneg item hitem counter hcounter

theorem itemsTotal_nonneg (hnonneg : NonnegItems items) (x : ℕ × ℕ) :
    0 ≤ itemsTotal config items x :=
  tally_nonneg hnonneg.increments x

theorem itemsTotal_perm {first second : List CMItem} (hperm : first.Perm second) :
    itemsTotal config first = itemsTotal config second := by
  funext x
  exact tally_perm (hperm.flatMap_right _) x

/-- More items have larger counters. -/
theorem itemsTotal_le_of_subperm {first : List CMItem} (hnonneg : NonnegItems items)
    (hsub : first.Subperm items) (x : ℕ × ℕ) :
    itemsTotal config first x ≤ itemsTotal config items x := by
  obtain ⟨same, hperm, hsublist⟩ := hsub
  rw [← itemsTotal_perm hperm]
  apply List.Sublist.sum_le_sum
  · exact ((hsublist.flatMap _).filter _).map _
  · intro value hvalue
    obtain ⟨increment, hincrement, rfl⟩ := List.mem_map.mp hvalue
    exact hnonneg.increments increment (List.mem_filter.mp hincrement).1

theorem NonnegItems.of_subperm {first : List CMItem} (hnonneg : NonnegItems items)
    (hsub : first.Subperm items) : NonnegItems first :=
  fun item hitem => hnonneg item (hsub.subset hitem)

theorem Exceeds.of_subperm {first : List CMItem} (h : Exceeds config thresh key first)
    (hnonneg : NonnegItems items) (hsub : first.Subperm items) :
    Exceeds config thresh key items :=
  fun i hi => (h i hi).trans_le (itemsTotal_le_of_subperm hnonneg hsub _)

/-- The estimates of the merge thread. -/
theorem Holds.lt_getEstimate_iff {sketch : CountMin}
    (h : Holds config 0 sketch (itemsTotal config arrivals)) (key : UInt64) :
    (thresh : ℤ) < sketch.getEstimate key ↔ Exceeds config thresh key arrivals :=
  h.le_getEstimate_iff key (thresh + 1)

/-- An estimate is not changed when it is compared as an `unsigned long long`. -/
theorem Holds.getEstimate_mod {sketch : CountMin}
    (h : Holds config 0 sketch (itemsTotal config arrivals)) (hnonneg : NonnegItems arrivals)
    (htotals : ∀ x, itemsTotal config arrivals x < 2 ^ 63) (key : UInt64) :
    sketch.getEstimate key % 2 ^ 64 = sketch.getEstimate key := by
  have hlow : 0 ≤ sketch.getEstimate key :=
    (h.le_getEstimate_iff key 0).mpr fun _ _ => itemsTotal_nonneg hnonneg _
  have hhigh : sketch.getEstimate key < 2 ^ 63 :=
    ((h.le_getEstimate_iff key _).mp le_rfl 0 config.row_pos).trans_lt (htotals _)
  exact Int.emod_eq_of_lt hlow (hhigh.trans (by norm_num))

/-- One key of an item: it is written when it is over the threshold, unless it has been. -/
theorem outputKeys_reportKey (first : UInt64)
    (hcand : ∀ key, key ∈ merge.cand ↔ key ∈ merge.outputKeys)
    (hmod : ∀ key, merge.sketch.getEstimate key % 2 ^ 64 = merge.sketch.getEstimate key) :
    (∀ key, key ∈ (MergeThread.reportKey thresh merge first).cand ↔
      key ∈ (MergeThread.reportKey thresh merge first).outputKeys) ∧
    ∀ key, key ∈ (MergeThread.reportKey thresh merge first).outputKeys ↔
      key ∈ merge.outputKeys ∨ key = first ∧ (thresh : ℤ) < merge.sketch.getEstimate key := by
  rw [MergeThread.reportKey, hmod first]
  split_ifs with hnew
  · have hkeys : ∀ key, key ∈ (merge.output ++
        [(first, merge.sketch.getEstimate first)]).map Prod.fst ↔
          key ∈ merge.outputKeys ∨ key = first := by
      intro key
      rw [List.map_append, List.mem_append, List.map_singleton, List.mem_singleton]
      rfl
    constructor
    · intro key
      rw [MergeThread.outputKeys, hkeys, ← hcand, List.mem_orderedInsert, or_comm]
    · intro key
      rw [MergeThread.outputKeys, hkeys]
      refine or_congr_right ⟨fun hfirst => ⟨hfirst, ?_⟩, fun h => h.1⟩
      rw [hfirst]
      exact hnew.1
  · refine ⟨hcand, fun key => ⟨.inl, ?_⟩⟩
    rintro (hold | ⟨rfl, hlarge⟩)
    · exact hold
    · by_contra hout
      exact hnew ⟨hlarge, fun hmem => hout ((hcand _).mp hmem)⟩

/-- The loop over the keys of an item. -/
theorem outputKeys_foldl_reportKey (keys : List UInt64)
    (hcand : ∀ key, key ∈ merge.cand ↔ key ∈ merge.outputKeys)
    (hmod : ∀ key, merge.sketch.getEstimate key % 2 ^ 64 = merge.sketch.getEstimate key) :
    (∀ key, key ∈ (keys.foldl (MergeThread.reportKey thresh) merge).cand ↔
      key ∈ (keys.foldl (MergeThread.reportKey thresh) merge).outputKeys) ∧
    ∀ key, key ∈ (keys.foldl (MergeThread.reportKey thresh) merge).outputKeys ↔
      key ∈ merge.outputKeys ∨ key ∈ keys ∧ (thresh : ℤ) < merge.sketch.getEstimate key := by
  induction keys generalizing merge with
  | nil => exact ⟨hcand, fun key => by simp⟩
  | cons first rest ih =>
      rw [List.foldl_cons]
      have hsketch : (MergeThread.reportKey thresh merge first).sketch = merge.sketch := by
        rw [MergeThread.reportKey]
        split_ifs <;> rfl
      have hkeys := @outputKeys_reportKey thresh merge first hcand hmod
      have hrest := ih hkeys.1 (by rw [hsketch]; exact hmod)
      refine ⟨hrest.1, fun key => ?_⟩
      rw [hrest.2, hkeys.2, hsketch, List.mem_cons, or_and_right, or_assoc]

theorem itemsTotal_concat (arrivals : List CMItem) (item : CMItem) :
    itemsTotal config (arrivals ++ [item]) =
      fun x => itemsTotal config arrivals x + tally (itemIncrements config item) x := by
  funext x
  rw [itemsTotal, List.flatMap_append, tally_append, List.flatMap_singleton]
  rfl

/-- One more item. -/
theorem Merged.processData (h : Merged config thresh arrivals merge) {item : CMItem}
    (hnonneg : NonnegItems (arrivals ++ [item]))
    (hindices : ∀ counter ∈ item.counters, counter.1.toNat / config.width < config.row)
    (htotals : ∀ x, itemsTotal config (arrivals ++ [item]) x < 2 ^ 63) :
    ∃ next, MergeThread.processData config thresh merge item = some next ∧
      Merged config thresh (arrivals ++ [item]) next := by
  have hbefore : arrivals.Subperm (arrivals ++ [item]) :=
    (List.sublist_append_left arrivals [item]).subperm
  have hadd : (itemIncrements config item).foldlM addCounters (itemsTotal config arrivals) =
      some (itemsTotal config (arrivals ++ [item])) := by
    rw [foldlM_addAt_eq_some (by norm_num)]
    · rw [itemsTotal_concat] at htotals ⊢
      exact ⟨htotals, rfl⟩
    · intro increment hincrement
      apply hnonneg.increments increment
      rw [List.flatMap_append, List.flatMap_singleton]
      exact List.mem_append_right _ hincrement
    · intro x
      exact ⟨itemsTotal_nonneg (hnonneg.of_subperm hbefore) x,
        (itemsTotal_le_of_subperm hnonneg hbefore x).trans_lt (htotals x)⟩
  have hsketch := h.holds.addItem hindices
  rw [hadd] at hsketch
  rw [MergeThread.processData]
  generalize item.counters.foldlM (MergeThread.addCounter config) merge.sketch = result at hsketch ⊢
  cases hsketch with
  | some hholds =>
      rename_i sketch
      have hkeys := @outputKeys_foldl_reportKey thresh { merge with sketch := sketch }
        item.heavyHitters h.cand_iff (hholds.getEstimate_mod hnonneg htotals)
      refine ⟨_, rfl, ?_, hkeys.1, fun key => ?_⟩
      · rw [sketch_foldl_reportKey]
        exact hholds
      · rw [hkeys.2, seenAt_concat, ← h.output_iff, CMItem.lists, decide_eq_true_eq,
          ← hholds.lt_getEstimate_iff]
        exact Iff.rfl

/-- All items, in their order of arrival. -/
theorem exists_merged (thresh : ℕ) (hnonneg : NonnegItems arrivals)
    (hindices : ∀ item ∈ arrivals, ∀ counter ∈ item.counters,
      counter.1.toNat / config.width < config.row)
    (htotals : ∀ x, itemsTotal config arrivals x < 2 ^ 63) :
    ∃ merged, mergeItems config thresh arrivals = some merged ∧
      Merged config thresh arrivals merged := by
  induction arrivals using List.reverseRecOn with
  | nil => exact ⟨_, rfl, merged_create config thresh⟩
  | append_singleton arrivals item ih =>
      have hbefore : arrivals.Subperm (arrivals ++ [item]) :=
        (List.sublist_append_left arrivals [item]).subperm
      obtain ⟨merge, hmerge, h⟩ := ih (hnonneg.of_subperm hbefore)
        (fun other hother => hindices other (hbefore.subset hother))
        fun x => (itemsTotal_le_of_subperm hnonneg hbefore x).trans_lt (htotals x)
      obtain ⟨next, hnext, h'⟩ := h.processData hnonneg
        (hindices item (List.mem_append_right arrivals List.mem_cons_self)) htotals
      refine ⟨next, ?_, h'⟩
      rw [mergeItems] at hmerge ⊢
      rw [List.foldlM_append, hmerge, Option.bind_eq_bind, Option.bind_some, foldlM_singleton]
      exact hnext

/-! ## What the items must be like -/

/-- A counter that has been added is within the sketch. -/
theorem addCounter_row {sketch sketch' : CountMin} {counter : UInt32 × ℤ}
    (h : MergeThread.addCounter config sketch counter = some sketch') :
    counter.1.toNat / config.width < sketch.row ∧ sketch'.row = sketch.row := by
  obtain ⟨v, hv, h⟩ := Option.bind_eq_some_iff.mp h
  obtain ⟨newV, -, h⟩ := Option.bind_eq_some_iff.mp h
  unfold CountMin.getValue at hv
  unfold CountMin.setValue at h
  split_ifs at hv with hinside
  rw [if_pos hinside] at h
  obtain rfl := Option.some.inj h
  exact ⟨hinside.1, rfl⟩

theorem addCounters_row {counters : List (UInt32 × ℤ)} {sketch sketch' : CountMin}
    (h : counters.foldlM (MergeThread.addCounter config) sketch = some sketch') :
    (∀ counter ∈ counters, counter.1.toNat / config.width < sketch.row) ∧
      sketch'.row = sketch.row := by
  induction counters generalizing sketch with
  | nil =>
      obtain rfl := Option.some.inj h
      exact ⟨fun _ hmem => absurd hmem List.not_mem_nil, rfl⟩
  | cons counter rest ih =>
      rw [List.foldlM_cons] at h
      obtain ⟨middle, hmiddle, hrest⟩ := Option.bind_eq_some_iff.mp h
      obtain ⟨hfirst, hrow⟩ := addCounter_row hmiddle
      obtain ⟨hall, hrow'⟩ := ih hrest
      rw [hrow] at hall hrow'
      exact ⟨List.forall_mem_cons.mpr ⟨hfirst, hall⟩, hrow'⟩

theorem processItems_row {merged : MergeThread}
    (h : arrivals.foldlM (MergeThread.processData config thresh) merge = some merged) :
    ∀ item ∈ arrivals, ∀ counter ∈ item.counters,
      counter.1.toNat / config.width < merge.sketch.row := by
  induction arrivals generalizing merge with
  | nil => exact fun _ hmem => absurd hmem List.not_mem_nil
  | cons item rest ih =>
      rw [List.foldlM_cons] at h
      obtain ⟨middle, hmiddle, hrest⟩ := Option.bind_eq_some_iff.mp h
      obtain ⟨sketch, hsketch, hresult⟩ := Option.bind_eq_some_iff.mp hmiddle
      obtain ⟨hfirst, hrow⟩ := addCounters_row hsketch
      have hmiddleRow : middle.sketch.row = merge.sketch.row := by
        rw [← Option.some.inj hresult, sketch_foldl_reportKey]
        exact hrow
      rw [List.forall_mem_cons]
      exact ⟨hfirst, hmiddleRow ▸ ih hrest⟩

/-- The items can be merged only if their counters are within the sketch and do not overflow. -/
theorem totals_of_mergeItems (hnonneg : NonnegItems arrivals) {merged : MergeThread}
    (h : mergeItems config thresh arrivals = some merged) :
    (∀ item ∈ arrivals, ∀ counter ∈ item.counters,
      counter.1.toNat / config.width < config.row) ∧
    ∀ x, itemsTotal config arrivals x < 2 ^ 63 := by
  have hindices : ∀ item ∈ arrivals, ∀ counter ∈ item.counters,
      counter.1.toNat / config.width < config.row := processItems_row h
  refine ⟨hindices, ?_⟩
  have hrel := (merged_create config thresh).holds.processItems thresh hindices
  rw [mergeItems] at h
  rw [h] at hrel
  generalize hresult : (arrivals.flatMap (itemIncrements config)).foldlM addCounters
    (itemsTotal config []) = result at hrel
  cases hrel with
  | some hholds =>
      have hsums := (foldlM_addAt_eq_some (by norm_num) hnonneg.increments
        (fun _ => ⟨le_rfl, by norm_num [itemsTotal]⟩)).mp hresult
      intro x
      have hx := hsums.1 x
      rwa [zero_add] at hx

theorem exceeds_congr {first second : List CMItem} (hperm : first.Perm second) :
    Exceeds config thresh key first ↔ Exceeds config thresh key second := by
  rw [Exceeds, Exceeds, itemsTotal_perm hperm]

/-- Any order of items that can be merged. -/
theorem exists_merged_of_perm (thresh : ℕ) (hnonneg : NonnegItems items)
    (hindices : ∀ item ∈ items, ∀ counter ∈ item.counters,
      counter.1.toNat / config.width < config.row)
    (htotals : ∀ x, itemsTotal config items x < 2 ^ 63) (hperm : arrivals.Perm items) :
    ∃ merged, mergeItems config thresh arrivals = some merged ∧
      Merged config thresh arrivals merged := by
  apply exists_merged thresh (hnonneg.of_subperm hperm.subperm)
  · exact fun item hitem => hindices item (hperm.mem_iff.mp hitem)
  · rw [itemsTotal_perm hperm]
    exact htotals

/-- **When the output does not depend on the order.** For all items without negative counters:
in every order of arrival the merge thread writes the listed keys with a final estimate over
the threshold exactly when the counters can be merged and each of these keys is over the
threshold with the items that list it alone. -/
theorem order_independent_iff (config : SketchConfig) (thresh : ℕ) (items : List CMItem)
    (hnonneg : NonnegItems items) :
    OrderIndependent config thresh items ↔ Announced config thresh items := by
  have hseen : ∀ key, (∃ item ∈ items, item.lists key = true) →
      ((∀ arrivals : List CMItem, arrivals.Perm items →
        SeenAt (CMItem.lists key) (Exceeds config thresh key) arrivals) ↔
      Exceeds config thresh key (items.filter (CMItem.lists key))) := by
    intro key hlisted
    apply forall_perm_seenAt_iff _ hlisted
    intro first second hsub hsecond hfirst
    exact hfirst.of_subperm (hnonneg.of_subperm hsecond) hsub
  constructor
  · intro hindependent
    obtain ⟨merged, hmerged, -⟩ := hindependent items (List.Perm.refl items)
    obtain ⟨hindices, htotals⟩ := totals_of_mergeItems hnonneg hmerged
    refine ⟨hindices, htotals, fun key hlisted hexceeds => ?_⟩
    rw [← hseen key hlisted]
    intro arrivals harrivals
    obtain ⟨merged, hmerged, hkeys, -⟩ := hindependent arrivals harrivals
    obtain ⟨merged', hmerged', h⟩ :=
      exists_merged_of_perm thresh hnonneg hindices htotals harrivals
    obtain rfl := Option.some.inj (hmerged'.symm.trans hmerged)
    rw [← h.output_iff, hkeys, h.holds.lt_getEstimate_iff, exceeds_congr harrivals]
    exact ⟨hlisted, hexceeds⟩
  · intro hannounced
    have hmerge : ∀ arrivals : List CMItem, arrivals.Perm items →
        ∃ merged, mergeItems config thresh arrivals = some merged ∧
          (∀ key, key ∈ merged.outputKeys ↔
            (∃ item ∈ items, item.lists key = true) ∧ Exceeds config thresh key items) ∧
          Merged config thresh arrivals merged := by
      intro arrivals harrivals
      obtain ⟨merged, hmerged, h⟩ := exists_merged_of_perm thresh hnonneg hannounced.indices
        hannounced.totals harrivals
      refine ⟨merged, hmerged, fun key => ?_, h⟩
      rw [h.output_iff]
      constructor
      · rintro ⟨before, item, after, rfl, hlists, hexceeds⟩
        have hitem : item ∈ items := harrivals.mem_iff.mp (List.mem_append_right before
          List.mem_cons_self)
        refine ⟨⟨item, hitem, hlists⟩, hexceeds.of_subperm hnonneg ?_⟩
        rw [List.append_cons] at harrivals
        exact (List.sublist_append_left _ _).subperm.trans harrivals.subperm
      · rintro ⟨hlisted, hexceeds⟩
        exact (hseen key hlisted).mpr (hannounced.keys key hlisted hexceeds) arrivals harrivals
    intro arrivals harrivals
    obtain ⟨merged, hmerged, hkeys, h⟩ := hmerge arrivals harrivals
    refine ⟨merged, hmerged, fun key => ?_, fun arrivals' harrivals' => ?_⟩
    · rw [hkeys, h.holds.lt_getEstimate_iff, exceeds_congr harrivals]
    · obtain ⟨merged', hmerged', hkeys', -⟩ := hmerge arrivals' harrivals'
      exact ⟨merged', hmerged', fun key => by rw [hkeys, hkeys']⟩

/-- Two sketches that both list the only key. -/
theorem order_independent_same_key :
    OrderIndependent smallConfig 8 [⟨[(1, 6)], [7]⟩, ⟨[(1, 4)], [7]⟩] := by
  have hnonneg : NonnegItems [⟨[(1, 6)], [7]⟩, ⟨[(1, 4)], [7]⟩] := by decide
  refine (order_independent_iff smallConfig 8 _ hnonneg).mpr ⟨?_, ?_, ?_⟩
  · decide
  · intro x
    exact (tally_le_sum hnonneg.increments x).trans_lt (by decide)
  · rintro key ⟨item, hitem, hlists⟩ hexceeds
    have hall : ∀ item ∈ ([⟨[(1, 6)], [7]⟩, ⟨[(1, 4)], [7]⟩] : List CMItem),
        item.heavyHitters = [7] := by
      decide
    have hkey : key = 7 := by
      rw [CMItem.lists, decide_eq_true_eq, hall item hitem] at hlists
      exact List.mem_singleton.mp hlists
    subst hkey
    exact hexceeds

/-- With the thresholds of the shipped configuration: two workers count different keys in the
same bucket, and only the key whose item arrives last is written. -/
theorem order_decides_output :
    ∃ items, allItems smallConfig 0 [[[(7, 6)]], [[(9, 4)]]] = some items ∧
      NonnegItems items ∧ ¬ OrderIndependent smallConfig 8 items := by
  have hitems : allItems smallConfig 0 [[[(7, 6)]], [[(9, 4)]]] =
      some [⟨[(1, 6)], [7]⟩, ⟨[(1, 4)], [9]⟩] := by
    decide +kernel
  have hfirst : (mergeItems smallConfig 8 [⟨[(1, 6)], [7]⟩, ⟨[(1, 4)], [9]⟩]).map
      MergeThread.outputKeys = some [9] := by
    decide +kernel
  have hsecond : (mergeItems smallConfig 8 [⟨[(1, 4)], [9]⟩, ⟨[(1, 6)], [7]⟩]).map
      MergeThread.outputKeys = some [7] := by
    decide +kernel
  refine ⟨_, hitems, by decide, fun hindependent => ?_⟩
  obtain ⟨merged, hmerged, -, hother⟩ := hindependent _ (List.Perm.refl _)
  obtain ⟨merged', hmerged', hsame⟩ := hother _ (List.Perm.swap _ _ _)
  rw [hmerged] at hfirst
  rw [hmerged'] at hsecond
  have hkeys := hsame 7
  rw [Option.some.inj hfirst, Option.some.inj hsecond] at hkeys
  exact absurd hkeys (by decide)

end AFStream.Apps
