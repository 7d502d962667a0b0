import PmemPaths.Mapping.Model
import PmemPaths.Proofs.Outcome

/-!
# Walks over the pages of a file

Mapping the persistent file counts one mapping more for each page of a range, and
unmapping takes one from each.  Both walk the pages in order and may stop early: mapping
at a page that is not persistent memory, unmapping at a page that is not mapped or whose
last mapping went away although it is not persistent memory.

What a walk leaves behind is told by the number of pages it passed (`Counted`,
`Uncounted`): their counts are one more or one less, all others are as before, and the
checker has looked at the passed pages that had one mapping left, in order.  A walk inside
the file has a result (`exists_countPages`, `exists_uncountPages`).
-/

namespace PmemPaths.Mapping

namespace MappedFile

variable {κ : Type} [PersistenceChecker κ] {f : MappedFile} {g : Nat → Nat}
  {pageSize first n p page refs : Nat}

/-! ## Counts of a range of pages -/

/-- The file with the counts of some pages changed. -/
def adjust (f : MappedFile) (g : Nat → Nat) (first n : Nat) : MappedFile :=
  { f with
    pageRefs := f.pageRefs.mapIdx fun p refs =>
      if first ≤ p ∧ p < first + n then g refs else refs }

/-- The pages of a walk that have one mapping left. -/
def lastPages (f : MappedFile) (first n : Nat) : List Nat :=
  (List.range' first n).filter fun p => f.pageRefs[p]? = some 1

/-- The checker once it has looked at some pages. -/
def checkPages (f : MappedFile) (pageSize : Nat) (c : κ) (pages : List Nat) : κ :=
  pages.foldl
    (fun c p => PersistenceChecker.checkPersisted c (f.contents + p * pageSize) pageSize) c

@[simp]
theorem size_adjust : (f.adjust g first n).size = f.size := rfl

@[simp]
theorem size_pageRefs_adjust : (f.adjust g first n).pageRefs.size = f.pageRefs.size :=
  Array.size_mapIdx

theorem getElem?_adjust : (f.adjust g first n).pageRefs[p]? =
    f.pageRefs[p]?.map fun refs => if first ≤ p ∧ p < first + n then g refs else refs :=
  Array.getElem?_mapIdx

/-- Files of the same contents and name are equal when their counts are. -/
theorem adjust_congr {f' : MappedFile} {pages : Array Nat} (hf : f' = { f with pageRefs := pages })
    (h : ∀ p, f'.pageRefs[p]? =
      f.pageRefs[p]?.map fun refs => if first ≤ p ∧ p < first + n then g refs else refs) :
    f' = f.adjust g first n := by
  have hpages : f'.pageRefs = (f.adjust g first n).pageRefs := by
    apply Array.ext_getElem?
    intro p
    rw [h, getElem?_adjust]
  rw [hf] at hpages ⊢
  exact congrArg (fun pages => { f with pageRefs := pages }) hpages

theorem adjust_zero : f.adjust g first 0 = f := by
  have hpages : f = { f with pageRefs := f.pageRefs } := rfl
  refine (adjust_congr hpages ?_).symm
  intro p
  have hout : ¬ (first ≤ p ∧ p < first + 0) := by omega
  simp only [if_neg hout, Option.map_id']

theorem getElem?_setRefs : (f.setRefs page refs).pageRefs[p]? =
    if p = page then f.pageRefs[p]?.map fun _ => refs else f.pageRefs[p]? := by
  rw [setRefs, Array.getElem?_setIfInBounds]
  by_cases h : p = page
  · rw [if_pos h.symm, if_pos h, ← h]
    by_cases hlt : p < f.pageRefs.size
    · rw [if_pos hlt, Array.getElem?_eq_getElem hlt, Option.map_some]
    · rw [if_neg hlt, Array.getElem?_eq_none (Nat.le_of_not_lt hlt), Option.map_none]
  · rw [if_neg h, if_neg (Ne.symm h)]

/-- Changing the first count and then the others changes them all. -/
theorem adjust_setRefs (h : f.pageRefs[first]? = some refs) :
    (f.setRefs first (g refs)).adjust g (first + 1) n = f.adjust g first (n + 1) := by
  refine adjust_congr rfl ?_
  intro p
  rw [getElem?_adjust, getElem?_setRefs]
  by_cases hp : p = first
  · subst hp
    have hout : ¬ (p + 1 ≤ p ∧ p < p + 1 + n) := by omega
    have hin : p ≤ p ∧ p < p + (n + 1) := by omega
    rw [if_pos rfl, h, Option.map_some, Option.map_some, Option.map_some, if_neg hout, if_pos hin]
  · have hrange : (first + 1 ≤ p ∧ p < first + 1 + n) ↔ (first ≤ p ∧ p < first + (n + 1)) := by
      omega
    simp only [if_neg hp, hrange]

theorem setRefs_eq_adjust (h : f.pageRefs[first]? = some refs) :
    f.setRefs first (g refs) = f.adjust g first 1 := by
  rw [← adjust_setRefs h, adjust_zero]

/-! ## Pages with one mapping left -/

theorem lastPages_congr {f' : MappedFile}
    (h : ∀ p, first ≤ p → f'.pageRefs[p]? = f.pageRefs[p]?) :
    f'.lastPages first n = f.lastPages first n := by
  refine List.filter_congr ?_
  intro p hp
  rw [h p (List.mem_range'_1.mp hp).1]

/-- Of the pages of a walk that have one mapping left, the first comes first, and what count
it is given does not matter to the others. -/
theorem lastPages_succ (m : Nat) (h : f.pageRefs[first]? = some (refs + 1)) :
    f.lastPages first (n + 1) =
      (if refs = 0 then [first] else []) ++ (f.setRefs first m).lastPages (first + 1) n := by
  have htail : (f.setRefs first m).lastPages (first + 1) n = f.lastPages (first + 1) n := by
    refine lastPages_congr ?_
    intro p hp
    rw [getElem?_setRefs, if_neg (by omega)]
  rw [htail, lastPages, List.range'_succ, List.filter_cons, h]
  by_cases hrefs : refs = 0
  · simp [hrefs, lastPages]
  · simp [hrefs, lastPages]

/-! ## One page -/

theorem refs_eq_ok : f.refs page = .ok refs ↔ f.pageRefs[page]? = some refs := by
  rw [MappedFile.refs]
  cases f.pageRefs[page]? with
  | none => simp [required]
  | some x => simp [required]

theorem pageAddress_eq_ok {address : Nat} : f.pageAddress pageSize page = .ok address ↔
    f.contents + page * pageSize ≤ maxAddress ∧ address = f.contents + page * pageSize := by
  rw [pageAddress, addressOf]
  split
  · next h => simp [h, eq_comm]
  · next h => simp [h]

theorem retain_eq_ok {f' : MappedFile} : f.retain page = .ok f' ↔
    ∃ refs, f.pageRefs[page]? = some refs ∧ refs < maxRefs ∧ f' = f.setRefs page (refs + 1) := by
  rw [retain, bind_eq_ok]
  constructor
  · rintro ⟨refs, hrefs, h⟩
    rw [refs_eq_ok] at hrefs
    split at h
    · cases h
    · next hlt =>
      cases h
      exact ⟨refs, hrefs, Nat.lt_of_not_le hlt, rfl⟩
  · rintro ⟨refs, hrefs, hlt, rfl⟩
    refine ⟨refs, refs_eq_ok.mpr hrefs, ?_⟩
    rw [if_neg (Nat.not_le_of_lt hlt)]
    rfl

end MappedFile

namespace MapModel

open MappedFile

variable {κ : Type} [PersistenceChecker κ] {f f' : MappedFile} {c c' : κ}
  {pageSize first n : Nat} {r : Except Fault Unit}

/-! ## Counting -/

/-- How a walk ends that counts one mapping more for each page. -/
inductive Counted (f : MappedFile) (first n : Nat) : Except Fault Unit → MappedFile → Prop
  /-- It passed all pages. -/
  | all : Counted f first n (.ok ()) (f.adjust (· + 1) first n)
  /-- It stopped at a page that is not persistent memory. -/
  | notPmem {k : Nat} : k < n → Counted f first n (.error (.fatal (.notPmem (first + k))))
      (f.adjust (· + 1) first k)

theorem Counted.succ {refs : Nat} (h : f.pageRefs[first]? = some refs)
    (hrest : Counted (f.setRefs first (refs + 1)) (first + 1) n r f') :
    Counted f first (n + 1) r f' := by
  cases hrest with
  | all =>
    rw [adjust_setRefs (g := (· + 1)) h]
    exact .all
  | @notPmem k hk =>
    rw [adjust_setRefs (g := (· + 1)) h, Nat.add_right_comm]
    exact .notPmem (Nat.succ_lt_succ hk)

/-- However it ends, a walk has counted some of its pages. -/
theorem Counted.eq_adjust (h : Counted f first n r f') : ∃ k, f' = f.adjust (· + 1) first k := by
  cases h with
  | all => exact ⟨_, rfl⟩
  | notPmem => exact ⟨_, rfl⟩

/-- A walk that counts ends in one of these ways, by induction on its pages. -/
theorem countPages_counted (h : countPages c pageSize n first f = .ok (r, f')) :
    Counted f first n r f' := by
  induction n generalizing first f with
  | zero =>
    cases h
    have hall : Counted f' first 0 _ _ := .all
    rw [adjust_zero] at hall
    exact hall
  | succ n ih =>
    rw [countPages, bind_eq_ok] at h
    obtain ⟨address, -, h⟩ := h
    split at h
    · rw [bind_eq_ok] at h
      obtain ⟨f₁, hretain, h⟩ := h
      obtain ⟨refs, hrefs, -, rfl⟩ := retain_eq_ok.mp hretain
      exact (ih h).succ hrefs
    · cases h
      have hstop : Counted f' first (n + 1) _ _ := .notPmem (Nat.succ_pos n)
      rw [adjust_zero] at hstop
      exact hstop

/-- Counting pages of the file has a result where their addresses exist and none has the
most mappings. -/
theorem exists_countPages (hn : first + n ≤ f.pageRefs.size)
    (haddress : ∀ p < f.pageRefs.size, f.contents + p * pageSize ≤ maxAddress)
    (hrefs : ∀ p refs, first ≤ p → f.pageRefs[p]? = some refs → refs < maxRefs) :
    ∃ x, countPages c pageSize n first f = .ok x := by
  induction n generalizing first f with
  | zero => exact ⟨_, rfl⟩
  | succ n ih =>
    have hfirst : first < f.pageRefs.size := by omega
    rw [countPages, pageAddress_eq_ok.mpr ⟨haddress first hfirst, rfl⟩]
    show ∃ x, (if PersistenceChecker.isPmem c (f.contents + first * pageSize) pageSize = true
      then _ else _) = Except.ok x
    split
    · obtain ⟨refs, hget⟩ : ∃ refs, f.pageRefs[first]? = some refs :=
        ⟨_, Array.getElem?_eq_getElem hfirst⟩
      have hlt := hrefs first refs (Nat.le_refl first) hget
      rw [retain_eq_ok.mpr ⟨refs, hget, hlt, rfl⟩]
      refine ih ?_ ?_ ?_
      · simp only [setRefs, Array.size_setIfInBounds]
        omega
      · simpa only [setRefs, Array.size_setIfInBounds] using haddress
      · intro p refs hp hget
        rw [getElem?_setRefs, if_neg (by omega)] at hget
        exact hrefs p refs (by omega) hget
    · exact ⟨_, rfl⟩

/-! ## Taking mappings away -/

/-- How a walk ends that takes one mapping from each page. -/
inductive Uncounted (pageSize : Nat) (f : MappedFile) (c : κ) (first n : Nat) :
    Except Fault Unit → MappedFile → κ → Prop
  /-- It passed all pages, and each was mapped. -/
  | all : (∀ p, first ≤ p → p < first + n → ∃ refs, f.pageRefs[p]? = some (refs + 1)) →
      Uncounted pageSize f c first n (.ok ()) (f.adjust (· - 1) first n)
        (f.checkPages pageSize c (f.lastPages first n))
  /-- It stopped at a page that is not mapped. -/
  | zeroRefCount {k : Nat} : k < n → f.pageRefs[first + k]? = some 0 →
      Uncounted pageSize f c first n (.error (.fatal (.zeroRefCount (first + k))))
        (f.adjust (· - 1) first k) (f.checkPages pageSize c (f.lastPages first k))
  /-- It stopped at a page that is not persistent memory, and took its last mapping. -/
  | notPmem {k : Nat} : k < n → f.pageRefs[first + k]? = some 1 →
      Uncounted pageSize f c first n (.error (.fatal (.notPmem (first + k))))
        (f.adjust (· - 1) first (k + 1)) (f.checkPages pageSize c (f.lastPages first k))

theorem checkPages_lastPages_succ {refs : Nat} (m : Nat)
    (h : f.pageRefs[first]? = some (refs + 1)) :
    f.checkPages pageSize c (f.lastPages first (n + 1)) =
      (f.setRefs first m).checkPages pageSize
        (if refs = 0 then
          PersistenceChecker.checkPersisted c (f.contents + first * pageSize) pageSize else c)
        ((f.setRefs first m).lastPages (first + 1) n) := by
  rw [lastPages_succ m h, checkPages, List.foldl_append]
  by_cases hrefs : refs = 0
  · simp only [if_pos hrefs]
    rfl
  · simp only [if_neg hrefs]
    rfl

/-- A walk that goes on after its first page has checked that page if it had one mapping. -/
theorem Uncounted.succ {refs : Nat} (h : f.pageRefs[first]? = some (refs + 1))
    (hrest : Uncounted pageSize (f.setRefs first refs) (if refs = 0 then
        PersistenceChecker.checkPersisted c (f.contents + first * pageSize) pageSize else c)
      (first + 1) n r f' c') : Uncounted pageSize f c first (n + 1) r f' c' := by
  have hadjust : ∀ k, (f.setRefs first refs).adjust (· - 1) (first + 1) k =
      f.adjust (· - 1) first (k + 1) := fun k => adjust_setRefs (g := (· - 1)) h
  have hlater : ∀ p, first + 1 ≤ p → (f.setRefs first refs).pageRefs[p]? = f.pageRefs[p]? := by
    intro p hp
    rw [getElem?_setRefs, if_neg (by omega)]
  cases hrest with
  | all hmapped =>
    rw [hadjust, ← checkPages_lastPages_succ refs h]
    refine .all ?_
    intro p hp hlt
    by_cases hfirst : p = first
    · exact ⟨refs, hfirst ▸ h⟩
    · rw [← hlater p (by omega)]
      exact hmapped p (by omega) (by omega)
  | @zeroRefCount k hk hzero =>
    rw [hadjust, ← checkPages_lastPages_succ refs h, Nat.add_right_comm]
    rw [hlater _ (by omega), Nat.add_right_comm] at hzero
    exact .zeroRefCount (Nat.succ_lt_succ hk) hzero
  | @notPmem k hk hone =>
    rw [hadjust, ← checkPages_lastPages_succ refs h, Nat.add_right_comm]
    rw [hlater _ (by omega), Nat.add_right_comm] at hone
    exact .notPmem (Nat.succ_lt_succ hk) hone

theorem Uncounted.eq_adjust (h : Uncounted pageSize f c first n r f' c') :
    ∃ k, f' = f.adjust (· - 1) first k := by
  cases h with
  | all => exact ⟨_, rfl⟩
  | zeroRefCount => exact ⟨_, rfl⟩
  | notPmem => exact ⟨_, rfl⟩

/-- A walk that takes mappings ends in one of these ways, by induction on its pages. -/
theorem uncountPages_uncounted (h : uncountPages pageSize n first f c = .ok (r, f', c')) :
    Uncounted pageSize f c first n r f' c' := by
  induction n generalizing first f c with
  | zero =>
    cases h
    have hall : Uncounted pageSize f' c' first 0 _ _ _ := .all (by omega)
    rw [adjust_zero] at hall
    exact hall
  | succ n ih =>
    rw [uncountPages, bind_eq_ok] at h
    obtain ⟨refs, hrefs, h⟩ := h
    rw [refs_eq_ok] at hrefs
    cases refs with
    | zero =>
      cases h
      have hstop : Uncounted pageSize f' c' first (n + 1) _ _ _ :=
        .zeroRefCount (Nat.succ_pos n) hrefs
      rw [adjust_zero] at hstop
      exact hstop
    | succ refs =>
      dsimp only at h
      split at h
      · next hne =>
        refine Uncounted.succ hrefs ?_
        rw [if_neg hne]
        exact ih h
      · next hzero =>
        rw [Decidable.not_not] at hzero
        rw [bind_eq_ok] at h
        obtain ⟨address, haddress, h⟩ := h
        obtain ⟨-, rfl⟩ := pageAddress_eq_ok.mp haddress
        split at h
        · refine Uncounted.succ hrefs ?_
          rw [if_pos hzero]
          exact ih h
        · cases h
          subst hzero
          have hstop : Uncounted pageSize f c' first (n + 1) _ _ _ :=
            .notPmem (Nat.succ_pos n) hrefs
          rw [Nat.zero_add, ← setRefs_eq_adjust (g := (· - 1)) hrefs] at hstop
          exact hstop

/-- Taking mappings from pages of the file has a result where their addresses exist. -/
theorem exists_uncountPages (hn : first + n ≤ f.pageRefs.size)
    (haddress : ∀ p < f.pageRefs.size, f.contents + p * pageSize ≤ maxAddress) :
    ∃ x, uncountPages pageSize n first f c = .ok x := by
  induction n generalizing first f c with
  | zero => exact ⟨_, rfl⟩
  | succ n ih =>
    have hfirst : first < f.pageRefs.size := by omega
    have hnext : ∀ refs (c : κ),
        ∃ x, uncountPages pageSize n (first + 1) (f.setRefs first refs) c = .ok x := by
      intro refs c
      refine ih ?_ ?_
      · simp only [setRefs, Array.size_setIfInBounds]
        omega
      · simpa only [setRefs, Array.size_setIfInBounds] using haddress
    obtain ⟨refs, hget⟩ : ∃ refs, f.pageRefs[first]? = some refs :=
      ⟨_, Array.getElem?_eq_getElem hfirst⟩
    rw [uncountPages, refs_eq_ok.mpr hget]
    cases refs with
    | zero => exact ⟨_, rfl⟩
    | succ refs =>
      show ∃ x, (if refs ≠ 0 then _ else _) = Except.ok x
      split
      · exact hnext refs c
      · have hpage : (f.setRefs first refs).pageAddress pageSize first =
            .ok (f.contents + first * pageSize) :=
          pageAddress_eq_ok.mpr ⟨haddress first hfirst, rfl⟩
        rw [hpage]
        show ∃ x, (if PersistenceChecker.isPmem c (f.contents + first * pageSize) pageSize = true
          then _ else _) = Except.ok x
        split
        · exact hnext refs _
        · exact ⟨_, rfl⟩

end MapModel

end PmemPaths.Mapping
