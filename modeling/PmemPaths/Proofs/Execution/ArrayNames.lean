import Mathlib.Data.List.Nodup
import Mathlib.Order.Bounds.Defs
import PmemPaths.Proofs.Execution.MergedPaths

/-!
# Names of symbolic arrays

A state has its symbolic inputs in a list, and the names that are taken in a set.  Nothing but
a new input concerns either of them, and it is entered in both.  So on every path the names
of the inputs are distinct, and they are the names that are taken (`State.Path.named`).

A name that is not taken is looked for among those with a number.  They differ for different
numbers and from the name without one, so not all of them up to the number of taken names can
be taken when that one is (`State.exists_isLeast_free`), and the search ends there.
-/

namespace PmemPaths.Execution.State

open PmemPaths.Ir (FunctionId)
open PmemPaths.Memory (MemoryObject ObjectId)
open PmemPaths.Nvm (Analysis Factory Session)
open PmemPaths.Symbolic (SymbolicArray)

variable {a : Analysis} {s s' r : State} {o : MemoryObject} {array : SymbolicArray}
  {name base : String} {k m n : Nat}

/-! ## Names that are taken -/

/-- The names of the symbolic inputs, in the order they were made. -/
def inputNames (s : State) : List String := s.symbolics.map (·.2.name)

/-- The names of the inputs are distinct, and they are the names that are taken. -/
structure Named (s : State) : Prop where
  nodup : s.inputNames.Nodup
  usesName_iff : ∀ name, s.usesName name = true ↔ name ∈ s.inputNames

theorem usesName_iff_mem : s.usesName name = true ↔ name ∈ s.arrayNames :=
  Std.ExtTreeSet.contains_iff_mem

/-- Taking a name again changes nothing. -/
theorem takeName_of_usesName (h : s.usesName name = true) : s.takeName name = (true, s) := by
  have hsame : s.arrayNames.insert name = s.arrayNames := by
    refine Std.ExtTreeSet.ext_mem fun other => ?_
    rw [Std.ExtTreeSet.mem_insert, Std.compare_eq_iff_eq, or_iff_right_iff_imp]
    rintro rfl
    exact usesName_iff_mem.mp h
  rw [takeName_eq, h, hsame]

theorem addSymbolic_eq_error (e : Failure) : s.addSymbolic o array = .error e ↔
    s.usesName array.name = true ∧ e = .arrayNameTaken array.name := by
  rw [addSymbolic_eq]
  cases s.usesName array.name with
  | true => simp [eq_comm]
  | false => simp

theorem exists_addSymbolic (h : s.usesName array.name = false) :
    ∃ s', s.addSymbolic o array = .ok s' := by
  rw [addSymbolic_eq, h]
  exact ⟨_, rfl⟩

/-! ## What keeps names -/

theorem Named.of_inherited (hs : s.Named) (h : s'.inherited = s.inherited) : s'.Named := by
  obtain ⟨-, h⟩ := Prod.mk.inj h
  obtain ⟨hsymbolics, hnames⟩ := Prod.mk.inj h
  constructor
  · rw [inputNames, hsymbolics]
    exact hs.nodup
  · intro name
    rw [usesName, inputNames, hsymbolics, hnames]
    exact hs.usesName_iff name

theorem Named.addSymbolic (hs : s.Named) (h : s.addSymbolic o array = .ok s') : s'.Named := by
  obtain ⟨hfree, rfl⟩ := of_addSymbolic h
  have hnew : array.name ∉ s.inputNames := by
    rw [← hs.usesName_iff, hfree]
    exact Bool.false_ne_true
  have hnames : inputNames { s with
      symbolics := s.symbolics ++ [(o, array)]
      arrayNames := s.arrayNames.insert array.name } = s.inputNames ++ [array.name] :=
    List.map_append
  constructor
  · rw [hnames, ← List.concat_eq_append]
    exact hs.nodup.concat hnew
  · intro name
    rw [hnames, List.mem_append, List.mem_singleton, ← hs.usesName_iff, usesName_iff_mem,
      usesName_iff_mem, Std.ExtTreeSet.mem_insert, Std.compare_eq_iff_eq, eq_comm, or_comm]

theorem Work.named (h : Work a s s') (hs : s.Named) : s'.Named := by
  obtain ⟨o, array, hadd⟩ | halike := h.cases
  · exact hs.addSymbolic hadd
  · exact hs.of_inherited halike.inherited

/-- The run lemma: all that happens on a path keeps names. -/
theorem Path.named {past : List Event} {marks : List ObjectId} (h : Path a r past marks s)
    (hr : r.Named) : s.Named := by
  induction h with
  | start => exact hr
  | event _ hstep ih => exact ih.of_inherited hstep.inherited_eq
  | mark o _ ih => exact ⟨ih.nodup, ih.usesName_iff⟩
  | work _ hwork ih => exact hwork.named ih

theorem named_initial {p : Factory} {id : Nat} {main : FunctionId} {σ σ' : Session a}
    (h : initial p id main σ = (.ok r, σ')) : r.Named := by
  obtain ⟨t, -, rfl⟩ := of_initial h
  refine ⟨List.nodup_nil, fun name => ?_⟩
  simp [usesName, inputNames]

/-- As many names are taken as there are inputs. -/
theorem Named.size_eq (h : s.Named) : s.arrayNames.size = s.symbolics.length := by
  have hnodup : s.arrayNames.toList.Nodup :=
    Std.ExtTreeSet.distinct_toList.imp fun hne heq => hne (Std.compare_eq_iff_eq.mpr heq)
  have hperm : s.arrayNames.toList.Perm s.inputNames := by
    rw [List.perm_ext_iff_of_nodup hnodup h.nodup]
    intro name
    rw [Std.ExtTreeSet.mem_toList, ← usesName_iff_mem, h.usesName_iff]
  rw [← Std.ExtTreeSet.length_toList, hperm.length_eq, inputNames, List.length_map]

/-! ## Numbered names -/

theorem numbered_injective (base : String) : Function.Injective (numbered base) := by
  intro m n h
  rw [numbered, numbered, String.append_right_inj] at h
  have hread := congrArg (fun digits => Nat.ofDigitChars 10 digits.toList 0) h
  simpa [Nat.toString_eq_repr, Nat.toList_repr] using hread

theorem numbered_ne (base : String) (n : Nat) : numbered base n ≠ base := by
  intro h
  have hlength := congrArg String.length h
  rw [numbered, String.length_append, String.length_append] at hlength
  have hone : "_".length = 1 := rfl
  omega

/-- Not all numbers up to the number of taken names can give a name that is taken. -/
theorem exists_free (h : s.usesName base = true) :
    ∃ n, 1 ≤ n ∧ n ≤ s.arrayNames.size ∧ s.usesName (numbered base n) = false := by
  by_contra! hall
  let tried := base :: (List.range' 1 s.arrayNames.size).map (numbered base)
  have hnodup : tried.Nodup := by
    refine List.nodup_cons.mpr ⟨?_, (List.nodup_range' ..).map (numbered_injective base)⟩
    intro hmem
    obtain ⟨n, -, hn⟩ := List.mem_map.mp hmem
    exact numbered_ne base n hn
  have hsub : tried ⊆ s.arrayNames.toList := by
    intro name hname
    rw [Std.ExtTreeSet.mem_toList, ← usesName_iff_mem]
    rcases List.mem_cons.mp hname with rfl | hname
    · exact h
    · obtain ⟨n, hn, rfl⟩ := List.mem_map.mp hname
      obtain ⟨hone, hle⟩ := List.mem_range'_1.mp hn
      exact Bool.eq_true_of_not_eq_false (hall n hone (by omega))
  have hle := (hnodup.subperm hsub).length_le
  rw [List.length_cons, List.length_map, List.length_range', Std.ExtTreeSet.length_toList] at hle
  omega

/-- There is a least number that makes the name new, and it is among the first ones. -/
theorem exists_isLeast_free (h : s.usesName base = true) : ∃ n ≤ s.arrayNames.size,
    IsLeast {n | 1 ≤ n ∧ s.usesName (numbered base n) = false} n := by
  obtain ⟨n, hone, hle, hfree⟩ := exists_free h
  have hex : ∃ n, 1 ≤ n ∧ s.usesName (numbered base n) = false := ⟨n, hone, hfree⟩
  exact ⟨Nat.find hex, (Nat.find_min' hex ⟨hone, hfree⟩).trans hle, Nat.find_spec hex,
    fun m hm => Nat.find_min' hex hm⟩

/-- The search finds the least number, if it comes so far. -/
theorem numberedName_of_isLeast
    (h : IsLeast {m | n ≤ m ∧ s.usesName (numbered base m) = false} m) (hm : m < n + k) :
    s.numberedName base k n = numbered base m := by
  induction k generalizing n with
  | zero =>
    have hnm : n ≤ m := h.1.1
    omega
  | succ k ih =>
    obtain ⟨⟨hnm, hfree⟩, hleast⟩ := h
    rw [numberedName]
    split
    · next hused =>
      have hne : n ≠ m := by
        rintro rfl
        rw [hfree] at hused
        cases hused
      exact ih ⟨⟨by omega, hfree⟩, fun j ⟨hj, hfree⟩ => hleast ⟨by omega, hfree⟩⟩ (by omega)
    · next hfree' =>
      have hmn : m ≤ n := hleast ⟨le_rfl, Bool.eq_false_iff.mpr hfree'⟩
      rw [Nat.le_antisymm hnm hmn]

theorem uniqueName_of_usesName (h : s.usesName base = true) : ∃ n ≤ s.arrayNames.size,
    IsLeast {n | 1 ≤ n ∧ s.usesName (numbered base n) = false} n ∧
      s.uniqueName base = numbered base n := by
  obtain ⟨n, hle, hleast⟩ := exists_isLeast_free h
  refine ⟨n, hle, hleast, ?_⟩
  rw [uniqueName, if_pos h]
  exact numberedName_of_isLeast hleast (by omega)

theorem uniqueName_of_free (h : s.usesName base = false) : s.uniqueName base = base := by
  rw [uniqueName, if_neg (Bool.eq_false_iff.mp h)]

theorem usesName_uniqueName (s : State) (base : String) :
    s.usesName (s.uniqueName base) = false := by
  cases h : s.usesName base with
  | true =>
    obtain ⟨n, -, hleast, hname⟩ := uniqueName_of_usesName h
    rw [hname]
    exact hleast.1.2
  | false => rwa [uniqueName_of_free h]

/-- On every path the names of the symbolic inputs are distinct, and they are the names in
use.  An input cannot be added if and only if the name of its array is in use, and then the
state stays as it is.  The name that is made from another one is not in use.  It is that one
itself or, where that one is in use, the one with the least number, and there are at least so
many inputs.  So an input of that name can be added. -/
theorem names_stay_unique {p : Factory} {id : Nat} {main : FunctionId} {σ σ' : Session a}
    {past : List Event} {marks : List ObjectId} (h₀ : initial p id main σ = (.ok r, σ'))
    (h : Path a r past marks s) :
    s.inputNames.Nodup ∧ (∀ name, s.usesName name = true ↔ name ∈ s.inputNames) ∧
    (∀ o array, ((∃ e, s.addSymbolic o array = .error e) ↔ s.usesName array.name = true) ∧
      ∀ e, s.addSymbolic o array = .error e →
        e = .arrayNameTaken array.name ∧ s.takeName array.name = (true, s)) ∧
    ∀ base, s.usesName (s.uniqueName base) = false ∧
      (s.usesName base = false → s.uniqueName base = base) ∧
      (s.usesName base = true → ∃ n ≤ s.symbolics.length,
        IsLeast {n | 1 ≤ n ∧ s.usesName (numbered base n) = false} n ∧
          s.uniqueName base = numbered base n) ∧
      ∀ o size, ∃ s', s.addSymbolic o ⟨s.uniqueName base, size⟩ = .ok s' := by
  have hnamed := h.named (named_initial h₀)
  refine ⟨hnamed.nodup, hnamed.usesName_iff, fun o array => ⟨?_, ?_⟩, fun base =>
    ⟨usesName_uniqueName s base, uniqueName_of_free, ?_, fun o size => ?_⟩⟩
  · simp only [addSymbolic_eq_error, exists_and_left, exists_eq, and_true]
  · intro e he
    obtain ⟨hused, rfl⟩ := (addSymbolic_eq_error e).mp he
    exact ⟨rfl, takeName_of_usesName hused⟩
  · rw [← hnamed.size_eq]
    exact uniqueName_of_usesName
  · exact exists_addSymbolic (usesName_uniqueName s base)

/-- Two inputs were made before the path branched.  The second has the name with the first
number that would be tried. -/
theorem names_stay_unique_two : ∃ m, Nvm.directCall.build = .ok m ∧ ∀ pointsTo,
    ∃ r s : State, initial offFactory 1 ⟨1⟩ ({} : Session ⟨m, pointsTo⟩) = (.ok r, {}) ∧
      Path ⟨m, pointsTo⟩ r [.branch] [] s ∧ s.inputNames = ["buf", "buf_1"] ∧
      s.inputNames.Nodup ∧ s.usesName "buf" = true ∧ s.uniqueName "buf" = "buf_2" ∧
      ∀ o, ∃ s', s.addSymbolic o ⟨"buf_2", 4⟩ = .ok s' := by
  obtain ⟨m, hl, hdef⟩ := Ir.Listing.exists_build (l := Nvm.directCall)
    (p := fun m => m.isDefined ⟨1⟩ = true) (by decide +kernel)
  refine ⟨m, hl, fun pointsTo => ?_⟩
  obtain ⟨x, -, -, hinitial⟩ := initial_off (a := ⟨m, pointsTo⟩) (Ir.Listing.build_built hl) hdef
  let o : MemoryObject := ⟨⟨1⟩, 10, 4, "buf", false⟩
  let r : State := { id := 1, threads := (∅ : Std.ExtTreeMap ThreadUid Thread).insert .main x }
  let s₁ : State := { r with
    symbolics := [(o, ⟨"buf", 4⟩)], arrayNames := (∅ : Std.ExtTreeSet String).insert "buf" }
  let s₂ : State := { s₁ with
    symbolics := [(o, ⟨"buf", 4⟩), (o, ⟨"buf_1", 4⟩)]
    arrayNames := s₁.arrayNames.insert "buf_1" }
  let s : State := { s₂ with depth := 1, id := 2 }
  have hfirst : r.addSymbolic o ⟨"buf", 4⟩ = .ok s₁ := rfl
  have hsecond : s₁.addSymbolic o ⟨"buf_1", 4⟩ = .ok s₂ := rfl
  have hbranch : s₂.branch 2 = .ok ({ s₂ with depth := 1 }, s) := rfl
  have hpath : Path ⟨m, pointsTo⟩ r [.branch] [] s :=
    ((Path.start.work (.addSymbolic hfirst)).work (.addSymbolic hsecond)).event (.fork hbranch)
  obtain ⟨hnodup, -, -, hnew⟩ := names_stay_unique hinitial hpath
  have hname : s.uniqueName "buf" = "buf_2" := rfl
  refine ⟨r, s, hinitial, hpath, rfl, hnodup, rfl, hname, fun o => ?_⟩
  obtain ⟨-, -, -, hadd⟩ := hnew "buf"
  rw [← hname]
  exact hadd o 4

end PmemPaths.Execution.State
