import Mathlib.Data.Option.NAry
import Std.Data.ExtTreeMap

/-!
# Ordered maps

Things that are done with ordered maps besides looking up a key: finding the
entry at or below a key (`of_getEntryLE?`, `exists_getEntryLE?`) or the key above it
(`getKeyGT?_eq_find?`), and going through two maps side by side
(`getElem?_insertMany_zip`).
-/

namespace PmemPaths

/-! ## Maps with the same keys -/

section

variable {κ α β : Type} {cmp : κ → κ → Ordering} [Std.TransCmp cmp] [Std.LawfulEqCmp cmp]
  {t : Std.ExtTreeMap κ α cmp} {u : Std.ExtTreeMap κ β cmp}

theorem isSome_getElem?_eq_of_keys (hkeys : t.keys = u.keys) (k : κ) :
    t[k]?.isSome = u[k]?.isSome := by
  rw [Bool.eq_iff_iff, ← Std.ExtTreeMap.mem_iff_isSome_getElem?,
    ← Std.ExtTreeMap.mem_iff_isSome_getElem?, ← Std.ExtTreeMap.mem_keys,
    ← Std.ExtTreeMap.mem_keys, hkeys]

theorem exists_getElem?_of_keys {k : κ} {x : α} (hkeys : t.keys = u.keys) (hx : t[k]? = some x) :
    ∃ y, u[k]? = some y := by
  have hdomain := isSome_getElem?_eq_of_keys hkeys k
  rw [hx] at hdomain
  exact Option.isSome_iff_exists.mp hdomain.symm

/-- Keys come in order, so they are told by what is a key. -/
theorem keys_eq_of_mem_iff (h : ∀ k, k ∈ t ↔ k ∈ u) : t.keys = u.keys := by
  have hperm : t.keys.Perm u.keys := by
    rw [List.perm_ext_iff_of_nodup Std.ExtTreeMap.nodup_keys Std.ExtTreeMap.nodup_keys]
    intro k
    rw [Std.ExtTreeMap.mem_keys, Std.ExtTreeMap.mem_keys, h]
  refine hperm.eq_of_pairwise ?_ Std.ExtTreeMap.ordered_keys Std.ExtTreeMap.ordered_keys
  intro k j _ _ hkj hjk
  have hswap : cmp k j = (cmp j k).swap := Std.OrientedCmp.eq_swap
  rw [hkj, hjk] at hswap
  cases hswap

end

/-! ## The key above a key -/

section

variable {κ β : Type} {cmp : κ → κ → Ordering} [Std.TransCmp cmp] {t : Std.ExtTreeMap κ β cmp}

theorem getKeyGT?_eq_find? (k : κ) : t.getKeyGT? k = t.keys.find? fun j => (cmp j k).isGT := by
  obtain ⟨t⟩ := t
  induction t using Std.ExtDTreeMap.inductionOn with
  | _ t =>
    let _ : Ord κ := ⟨cmp⟩
    show Std.DTreeMap.Internal.Impl.getKeyGT? k t.inner =
      (Std.DTreeMap.Internal.Impl.keys t.inner).find? fun j => (cmp j k).isGT
    rw [Std.DTreeMap.Internal.Impl.getKeyGT?_eq_getEntryGT?,
      Std.DTreeMap.Internal.Impl.getEntryGT?_eq_find? t.wf.ordered,
      Std.DTreeMap.Internal.Impl.keys_eq_keys, Std.Internal.List.keys_eq_map, List.find?_map]
    rfl

end

/-! ## Look-up below a key -/

section

variable {β γ : Type} {t : Std.ExtTreeMap Nat β} {t' : Std.ExtTreeMap Nat γ} {a k : Nat} {v : β}

theorem getEntryLE?_eq_find? : t.getEntryLE? a = t.toList.reverse.find? fun e => e.1 ≤ a := by
  obtain ⟨t⟩ := t
  induction t using Std.ExtDTreeMap.inductionOn with
  | _ t =>
    show Std.DTreeMap.Internal.Impl.Const.getEntryLE? a t.inner =
      (Std.DTreeMap.Internal.Impl.Const.toList t.inner).reverse.find? fun e => e.1 ≤ a
    rw [Std.DTreeMap.Internal.Impl.Const.getEntryLE?_eq_map,
      Std.DTreeMap.Internal.Impl.getEntryLE?_eq_findRev? t.wf.ordered,
      Std.DTreeMap.Internal.Impl.Const.toList_eq_toListModel_map, ← List.map_reverse,
      List.find?_map, List.findRev?_eq_find?_reverse]
    congr 2
    funext e
    rw [Bool.eq_iff_iff, Nat.isLE_compare, Function.comp_apply, decide_eq_true_eq]

/-- The entry that is found has the greatest key that is not above the address. -/
theorem of_getEntryLE? (h : t.getEntryLE? a = some (k, v)) :
    t[k]? = some v ∧ k ≤ a ∧ ∀ j w, t[j]? = some w → j ≤ a → j ≤ k := by
  rw [getEntryLE?_eq_find?, List.find?_eq_some_iff_append] at h
  obtain ⟨hle, above, rest, hlist, habove⟩ := h
  have hmem : ∀ j w, t[j]? = some w ↔ (j, w) ∈ above ++ (k, v) :: rest := by
    intro j w
    rw [← hlist, List.mem_reverse, Std.ExtTreeMap.mem_toList_iff_getElem?_eq_some]
  have hsorted := List.pairwise_reverse.mpr (Std.ExtTreeMap.ordered_keys_toList (t := t))
  rw [hlist, List.pairwise_append, List.pairwise_cons] at hsorted
  refine ⟨(hmem k v).mpr (by simp), by simpa using hle, ?_⟩
  intro j w hj hja
  rw [hmem, List.mem_append, List.mem_cons] at hj
  obtain hj | hj | hj := hj
  · have hnot := habove _ hj
    simp [hja] at hnot
  · cases hj
    exact Nat.le_refl _
  · exact Nat.le_of_lt (Nat.compare_eq_lt.mp (hsorted.2.1.1 _ hj))

theorem exists_getEntryLE? (h : t[k]? = some v) (hk : k ≤ a) :
    ∃ j w, t.getEntryLE? a = some (j, w) := by
  have hsome : (t.toList.reverse.find? fun e => e.1 ≤ a).isSome = true := by
    rw [List.find?_isSome]
    refine ⟨(k, v), ?_, by simpa using hk⟩
    rw [List.mem_reverse, Std.ExtTreeMap.mem_toList_iff_getElem?_eq_some]
    exact h
  obtain ⟨⟨j, w⟩, he⟩ := Option.isSome_iff_exists.mp hsome
  exact ⟨j, w, getEntryLE?_eq_find?.trans he⟩

/-- Which key is found depends on the keys alone. -/
theorem getEntryLE?_of_keys {w : γ} (hkeys : t.keys = t'.keys)
    (h : t.getEntryLE? a = some (k, v)) (hw : t'[k]? = some w) :
    t'.getEntryLE? a = some (k, w) := by
  obtain ⟨-, hka, hgreatest⟩ := of_getEntryLE? h
  obtain ⟨j, u, hj⟩ := exists_getEntryLE? hw hka
  obtain ⟨hu, hja, hgreatest'⟩ := of_getEntryLE? hj
  obtain ⟨x, hx⟩ := exists_getElem?_of_keys hkeys.symm hu
  obtain rfl : j = k := Nat.le_antisymm (hgreatest j x hx hja) (hgreatest' k w hw hka)
  rw [hj, Option.some_inj.mp (hu.symm.trans hw)]

end

/-! ## Two maps side by side -/

section

variable {κ α β γ : Type} {k : κ}

/-- Entries of the same key stand at the same place in lists with the same keys. -/
theorem mem_zip_of_keys {x : α} {y : β} : ∀ {l : List (κ × α)} {l' : List (κ × β)},
    l.map (·.1) = l'.map (·.1) → (l.map (·.1)).Nodup → (k, x) ∈ l → (k, y) ∈ l' →
      ((k, x), (k, y)) ∈ l.zip l'
  | [], _, _, _, hx, _ => by cases hx
  | _ :: _, [], _, _, _, hy => by cases hy
  | a :: l, b :: l', hkeys, hnodup, hx, hy => by
      obtain ⟨hab, htail⟩ := List.cons.inj hkeys
      obtain ⟨ha, hnodup⟩ := List.nodup_cons.mp hnodup
      have hx' : k ≠ a.1 → (k, x) ∈ l := fun hne =>
        (List.mem_cons.mp hx).resolve_left fun h => hne (congrArg (·.1) h)
      have hy' : k ≠ a.1 → (k, y) ∈ l' := fun hne =>
        (List.mem_cons.mp hy).resolve_left fun h => hne ((congrArg (·.1) h).trans hab.symm)
      by_cases hk : k = a.1
      · -- The key does not occur again.
        have hxa : (k, x) = a := (List.mem_cons.mp hx).resolve_right fun h =>
          ha (List.mem_map.mpr ⟨_, h, hk⟩)
        have hyb : (k, y) = b := (List.mem_cons.mp hy).resolve_right fun h =>
          ha (htail ▸ List.mem_map.mpr ⟨_, h, hk⟩)
        rw [hxa, hyb]
        exact List.mem_cons_self
      · exact List.mem_cons_of_mem _ (mem_zip_of_keys htail hnodup (hx' hk) (hy' hk))

variable {cmp : κ → κ → Ordering} [Std.TransCmp cmp] [Std.LawfulEqCmp cmp]
  {t : Std.ExtTreeMap κ α cmp} {u : Std.ExtTreeMap κ β cmp}

/-- Going through two maps with the same keys, each entry is made from those that
the two have at its key. -/
theorem getElem?_insertMany_zip [DecidableEq κ] (f : α → β → α) (hkeys : t.keys = u.keys) :
    (t.insertMany ((t.toList.zip u.toList).map fun e => (e.1.1, f e.1.2 e.2.2)))[k]? =
      Option.map₂ f t[k]? u[k]? := by
  have hfst : t.toList.map (·.1) = u.toList.map (·.1) := by
    rw [Std.ExtTreeMap.map_fst_toList_eq_keys, Std.ExtTreeMap.map_fst_toList_eq_keys, hkeys]
  have hlength : t.toList.length = u.toList.length := by
    simpa using congrArg List.length hfst
  have hentries : ((t.toList.zip u.toList).map fun e => (e.1.1, f e.1.2 e.2.2)).map Prod.fst =
      t.keys := by
    have hzip := congrArg (List.map (·.1)) (List.map_fst_zip (Nat.le_of_eq hlength))
    rw [List.map_map, Std.ExtTreeMap.map_fst_toList_eq_keys] at hzip
    rw [List.map_map]
    exact hzip
  cases hx : t[k]? with
  | none =>
    rw [Std.ExtTreeMap.getElem?_insertMany_list_of_contains_eq_false, hx, Option.map₂_none_left]
    rw [hentries, List.contains_eq_mem, decide_eq_false_iff_not, Std.ExtTreeMap.mem_keys,
      Std.ExtTreeMap.mem_iff_isSome_getElem?, hx]
    exact Bool.false_ne_true
  | some x =>
    obtain ⟨y, hy⟩ := exists_getElem?_of_keys hkeys hx
    rw [hy, Option.map₂_some_some]
    have hself : cmp k k = .eq := Std.ReflCmp.compare_self
    refine Std.ExtTreeMap.getElem?_insertMany_list_of_mem hself ?_ ?_
    · exact List.pairwise_map.mp (hentries ▸ t.distinct_keys)
    · have hmem := mem_zip_of_keys hfst
        (Std.ExtTreeMap.map_fst_toList_eq_keys (t := t) ▸ Std.ExtTreeMap.nodup_keys)
        (Std.ExtTreeMap.mem_toList_iff_getElem?_eq_some.mpr hx)
        (Std.ExtTreeMap.mem_toList_iff_getElem?_eq_some.mpr hy)
      exact List.mem_map.mpr ⟨_, hmem, rfl⟩

end

end PmemPaths
