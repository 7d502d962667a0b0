import Mathlib.Data.Finset.Card
import Mathlib.Logic.Relation
import PmemPaths.RootCause.Ledger

/-!
# What a root cause may hide

A root cause may hide others, which may hide others again, and so on, in circles too.  Some
of them may not be in the ledger: nobody has recorded them yet, or they were forgotten.  The
ledger finds them all by a search (`Ledger.maskedClosure`) that keeps what it found and a
list of what it has still to follow.

The start is on the list although it was not found.  So the invariant of the search
(`SearchesFrom`) speaks of the start and of what was found alike, and only of what is not on
the list any more: what that hides was found.  The order in which the list is worked off
does not matter, nor does it matter where the newly found are put: whatever is followed
next, less is left to find or to follow (`Follows.toFollow_lt`), and every search ends with
the same answer (`maskedClosure_exact`).
-/

namespace PmemPaths.RootCause.Ledger

variable {l : Ledger} {id a b m n : Nat} {seen : Std.ExtTreeSet Nat} {list : List Nat}

/-- A root cause in the ledger may hide another one directly. -/
def MayHide (l : Ledger) (a b : Nat) : Prop :=
  ∃ location, l.location? a = some location ∧ b ∈ location.masked

theorem mem_maskedBy : b ∈ l.maskedBy a ↔ l.MayHide a b := by
  rw [maskedBy, MayHide]
  cases l.location? a with
  | none => simp
  | some location => simp

theorem nodup_toList (s : Std.ExtTreeSet Nat) : s.toList.Nodup :=
  Std.ExtTreeSet.distinct_toList.imp fun hne heq => hne (Std.compare_eq_iff_eq.mpr heq)

theorem mem_insertMany {ms : List Nat} : m ∈ seen.insertMany ms ↔ m ∈ seen ∨ m ∈ ms := by
  rw [Std.ExtTreeSet.mem_insertMany_list, List.contains_iff_mem]

/-! ## Searches -/

/-- How far a search is. -/
structure Search where
  /-- What was found. -/
  seen : Std.ExtTreeSet Nat
  /-- What is still to follow. -/
  list : List Nat

/-- What following a root cause newly finds. -/
def newlyFound (l : Ledger) (seen : Std.ExtTreeSet Nat) (id : Nat) : List Nat :=
  (l.maskedBy id).filter (!seen.contains ·)

/-- A root cause is taken off the list, wherever it is there, and followed.  What it newly
finds is put on the list, wherever it is put. -/
inductive Follows (l : Ledger) : Search → Search → Prop
  | follow {seen : Std.ExtTreeSet Nat} {id : Nat} {rest list list' : List Nat} :
      list.Perm (id :: rest) → list'.Perm (l.newlyFound seen id ++ rest) →
      Follows l ⟨seen, list⟩ ⟨seen.insertMany (l.newlyFound seen id), list'⟩

/-- What is newly found may be hidden, and was not found before. -/
theorem mem_newlyFound : m ∈ l.newlyFound seen a ↔ l.MayHide a m ∧ m ∉ seen := by
  rw [newlyFound, List.mem_filter, mem_maskedBy, Bool.not_eq_true', ← Bool.not_eq_true,
    Std.ExtTreeSet.contains_iff_mem]

theorem nodup_newlyFound : (l.newlyFound seen a).Nodup := by
  refine List.Nodup.filter _ ?_
  rw [maskedBy]
  cases l.location? a with
  | none => exact List.nodup_nil
  | some location => exact nodup_toList _

/-! ## What a search has found -/

/-- What a search from a root cause knows. -/
structure SearchesFrom (l : Ledger) (id : Nat) (s : Search) : Prop where
  /-- What was found can be hidden. -/
  found : ∀ m ∈ s.seen, Relation.TransGen l.MayHide id m
  /-- What is on the list is the start, or was found. -/
  listed : ∀ m ∈ s.list, m = id ∨ m ∈ s.seen
  /-- What is not on the list any more was followed. -/
  followed : ∀ a, a = id ∨ a ∈ s.seen → a ∉ s.list → ∀ b, l.MayHide a b → b ∈ s.seen

namespace SearchesFrom

variable {s s' : Search}

theorem start : l.SearchesFrom id ⟨∅, [id]⟩ where
  found m hm := absurd hm Std.ExtTreeSet.not_mem_empty
  listed m hm := .inl (List.mem_singleton.mp hm)
  followed a ha hlist := by
    rcases ha with rfl | ha
    · exact absurd (List.mem_singleton_self a) hlist
    · exact absurd ha Std.ExtTreeSet.not_mem_empty

/-- What was followed leaves the list, and by then all that it hides was found. -/
theorem follows (h : l.SearchesFrom id s) (hs : l.Follows s s') : l.SearchesFrom id s' := by
  obtain @⟨seen, c, rest, list, list', hperm, hperm'⟩ := hs
  obtain ⟨hfound, hlisted, hfollowed⟩ := h
  have hc : c = id ∨ c ∈ seen := hlisted c (hperm.mem_iff.mpr List.mem_cons_self)
  have hlist : ∀ m, m ∈ list' ↔ m ∈ l.newlyFound seen c ∨ m ∈ rest := fun m => by
    rw [hperm'.mem_iff, List.mem_append]
  refine ⟨?_, ?_, ?_⟩
  · intro m hm
    rcases mem_insertMany.mp hm with hm | hm
    · exact hfound m hm
    · have hhide := (mem_newlyFound.mp hm).1
      rcases hc with rfl | hc
      · exact .single hhide
      · exact .tail (hfound c hc) hhide
  · intro m hm
    rcases (hlist m).mp hm with hm | hm
    · exact .inr (mem_insertMany.mpr (.inr hm))
    · exact (hlisted m (hperm.mem_iff.mpr (List.mem_cons_of_mem c hm))).imp_right
        fun hm => mem_insertMany.mpr (.inl hm)
  · intro a ha hout b hhide
    rw [hlist, not_or] at hout
    have hold : a = id ∨ a ∈ seen :=
      ha.imp_right fun ha => (mem_insertMany.mp ha).resolve_right hout.1
    rw [mem_insertMany]
    by_cases hac : a = c
    · subst hac
      by_cases hb : b ∈ seen
      · exact .inl hb
      · exact .inr (mem_newlyFound.mpr ⟨hhide, hb⟩)
    · have hnot : a ∉ list := by
        rw [hperm.mem_iff, List.mem_cons, not_or]
        exact ⟨hac, hout.2⟩
      exact .inl (hfollowed a hold hnot b hhide)

theorem run (h : l.SearchesFrom id s) (hs : Relation.ReflTransGen l.Follows s s') :
    l.SearchesFrom id s' := by
  induction hs with
  | refl => exact h
  | tail _ hstep ih => exact ih.follows hstep

/-- When nothing is left to follow, all that can be hidden was found. -/
theorem mem_seen_iff (h : l.SearchesFrom id ⟨seen, []⟩) :
    m ∈ seen ↔ Relation.TransGen l.MayHide id m := by
  refine ⟨h.found m, fun hreach => ?_⟩
  induction hreach with
  | single hhide => exact h.followed id (.inl rfl) List.not_mem_nil _ hhide
  | tail _ hhide ih => exact h.followed _ (.inr ih) List.not_mem_nil _ hhide

end SearchesFrom

/-! ## Searches end -/

/-- All that some root cause in the ledger may hide. -/
def hideable (l : Ledger) : Finset Nat :=
  (l.entries.toList.flatMap fun e => e.2.location.masked.toList).toFinset

/-- How much a search has still to find or to follow. -/
def toFollow (l : Ledger) (s : Search) : Nat :=
  s.list.length + (l.hideable.filter (· ∉ s.seen)).card

theorem MayHide.mem_hideable (h : l.MayHide a b) : b ∈ l.hideable := by
  obtain ⟨location, hlocation, hb⟩ := h
  obtain ⟨e, he, rfl⟩ := Option.map_eq_some_iff.mp hlocation
  rw [hideable, List.mem_toFinset, List.mem_flatMap]
  exact ⟨(a, e), Std.ExtTreeMap.mem_toList_iff_getElem?_eq_some.mpr he,
    Std.ExtTreeSet.mem_toList.mpr hb⟩

/-- What is newly found is not left to find any more. -/
theorem card_newlyFound :
    (l.hideable.filter (· ∉ seen.insertMany (l.newlyFound seen a))).card +
      (l.newlyFound seen a).length = (l.hideable.filter (· ∉ seen)).card := by
  have hsub : (l.newlyFound seen a).toFinset ⊆ l.hideable.filter (· ∉ seen) := by
    intro m hm
    obtain ⟨hhide, hm⟩ := mem_newlyFound.mp (List.mem_toFinset.mp hm)
    exact Finset.mem_filter.mpr ⟨hhide.mem_hideable, hm⟩
  have hleft : l.hideable.filter (· ∉ seen.insertMany (l.newlyFound seen a)) =
      l.hideable.filter (· ∉ seen) \ (l.newlyFound seen a).toFinset := by
    ext m
    simp only [Finset.mem_filter, Finset.mem_sdiff, mem_insertMany, List.mem_toFinset, not_or,
      and_assoc]
  rw [hleft, ← List.toFinset_card_of_nodup nodup_newlyFound]
  exact Finset.card_sdiff_add_card_eq_card hsub

/-- What is newly found is not to be found any more but to be followed, and one was
followed. -/
theorem Follows.toFollow_lt {s s' : Search} (h : l.Follows s s') :
    l.toFollow s' < l.toFollow s := by
  obtain @⟨seen, c, rest, list, list', hperm, hperm'⟩ := h
  have hcard : (l.hideable.filter (· ∉ seen.insertMany (l.newlyFound seen c))).card +
      (l.newlyFound seen c).length = (l.hideable.filter (· ∉ seen)).card := card_newlyFound
  simp only [toFollow, hperm.length_eq, hperm'.length_eq, List.length_append, List.length_cons]
  omega

theorem follows_wellFounded (l : Ledger) : WellFounded fun s' s => l.Follows s s' :=
  Subrelation.wf Follows.toFollow_lt (InvImage.wf l.toFollow Nat.lt_wfRel.wf)

/-- With as many steps as are called for, the ledger works off the list. -/
theorem close_run (h : l.toFollow ⟨seen, list⟩ ≤ n) :
    Relation.ReflTransGen l.Follows ⟨seen, list⟩ ⟨l.close n seen list, []⟩ := by
  induction n generalizing seen list with
  | zero =>
    rw [toFollow, Nat.le_zero, Nat.add_eq_zero_iff, List.length_eq_zero_iff] at h
    obtain ⟨rfl, -⟩ := h
    exact .refl
  | succ n ih =>
    cases list with
    | nil => exact .refl
    | cons id rest =>
      have hstep : l.Follows ⟨seen, id :: rest⟩
          ⟨seen.insertMany (l.newlyFound seen id), l.newlyFound seen id ++ rest⟩ :=
        .follow (.refl _) (.refl _)
      exact .head hstep (ih (Nat.le_of_lt_succ (Nat.lt_of_lt_of_le hstep.toFollow_lt h)))

/-- At the start no more steps are called for than the ledger allows. -/
theorem toFollow_start : l.toFollow ⟨∅, [id]⟩ ≤
    (l.entries.toList.map fun (_, e) => e.location.masked.size).foldl (· + ·) 2 := by
  have hcard : (l.hideable.filter (· ∉ (∅ : Std.ExtTreeSet Nat))).card ≤
      (l.entries.toList.map fun (_, e) => e.location.masked.size).sum := by
    refine (Finset.card_filter_le _ _).trans ((List.toFinset_card_le _).trans (Nat.le_of_eq ?_))
    rw [List.length_flatMap]
    simp only [Std.ExtTreeSet.length_toList]
  have hsum : (l.entries.toList.map fun (_, e) => e.location.masked.size).foldl (· + ·) (2 + 0) =
      2 + (l.entries.toList.map fun (_, e) => e.location.masked.size).sum := by
    rw [List.foldl_assoc, List.sum_eq_foldl]
  rw [toFollow, hsum]
  show 1 + (l.hideable.filter (· ∉ (∅ : Std.ExtTreeSet Nat))).card ≤ _
  omega

/-- Whatever is followed next, a search ends, and once nothing is left to follow it has found
what the ledger tells.  These are the root causes that a chain of one or more leads to, in
which each hides the next and all but the last are in the ledger.  The start is one of them
if it lies on a circle. -/
theorem maskedClosure_exact (l : Ledger) (id : Nat) :
    (WellFounded fun s' s => l.Follows s s') ∧
    (∀ seen, Relation.ReflTransGen l.Follows ⟨∅, [id]⟩ ⟨seen, []⟩ ↔ seen = l.maskedClosure id) ∧
    (∀ m, m ∈ l.maskedClosure id ↔ Relation.TransGen l.MayHide id m) ∧
    (id ∈ l.maskedClosure id ↔ ∃ m, l.MayHide id m ∧ Relation.ReflTransGen l.MayHide m id) := by
  have hrun : Relation.ReflTransGen l.Follows ⟨∅, [id]⟩ ⟨l.maskedClosure id, []⟩ :=
    close_run toFollow_start
  have hmem : ∀ m, m ∈ l.maskedClosure id ↔ Relation.TransGen l.MayHide id m := fun m =>
    (SearchesFrom.start.run hrun).mem_seen_iff
  refine ⟨l.follows_wellFounded, fun seen => ⟨fun hseen => ?_, ?_⟩, hmem, ?_⟩
  · refine Std.ExtTreeSet.ext_mem fun m => ?_
    rw [hmem, (SearchesFrom.start.run hseen).mem_seen_iff]
  · rintro rfl
    exact hrun
  · rw [hmem, Relation.TransGen.head'_iff]

/-- The first two hide each other, and the third is not in the ledger. -/
example : let entry : Entry := ⟨.ofPlace ⟨⟨0⟩, ⟨0⟩, [], .unpersisted⟩, 1⟩
    let l : Ledger := { entries := ((∅ : Std.ExtTreeMap Nat Entry).insert 1 entry).insert 2 entry }
    (((l.addMasked 1 [2]).addMasked 2 [1, 3]).maskedClosure 1).toList = [1, 2, 3] := by
  decide +kernel

end PmemPaths.RootCause.Ledger
