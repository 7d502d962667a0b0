import Mathlib.Algebra.BigOperators.Group.List.Lemmas
import Mathlib.Algebra.GroupWithZero.Nat
import PmemPaths.RootCause.Ledger

/-!
# The books of a ledger

Whatever is done to a ledger, its books are right (`Ledger.books_exact`).  They are compared
with what was done, which is a list of operations, the latest first: what happened since
the ledger was last cleared is the part before the first `clear`.

A ledger keeps two tables, one from places to numbers and one from numbers to root
causes, and only the second changes when something is entered as hidden.  The two stay
inverse to each other (`Sound.idOf?_iff`), and all the rest is read off that.
-/

namespace PmemPaths.RootCause.Ledger

/-- What can be done to a ledger.  A bug that may hide root causes is recorded, and these
are then entered for the number that it got. -/
inductive Op where
  /-- Record that a bug showed. -/
  | record (seen : Location)
  /-- Enter root causes that one may hide. -/
  | addMasked (id : Nat) (masked : List Nat)
  /-- Confirm a root cause. -/
  | markAsBug (id : Nat)
  /-- Forget all root causes. -/
  | clear

namespace Op

/-- The operation records a bug. -/
def isRecord : Op → Bool
  | record _ => true
  | _ => false

/-- The ledger after an operation. -/
def apply (l : Ledger) : Op → Ledger
  | record seen => (l.record seen).1
  | addMasked id masked => l.addMasked id masked
  | markAsBug id => (l.markAsBug id).1
  | clear => l.clear

end Op

/-- The ledger after some operations. -/
def after : List Op → Ledger
  | [] => {}
  | op :: past => op.apply (after past)

/-- The number that a bug gets when it is recorded after some operations. -/
def number (past : List Op) (seen : Location) : Nat := ((after past).record seen).2

/-- The places that were recorded since the ledger was cleared, with their numbers. -/
def requestsSince : List Op → List (Place × Nat)
  | [] => []
  | .record seen :: past => (seen.place, number past seen) :: requestsSince past
  | .addMasked _ _ :: past => requestsSince past
  | .markAsBug _ :: past => requestsSince past
  | .clear :: _ => []

/-- The places that were recorded since the ledger was cleared. -/
def placesSince (past : List Op) : List Place := (requestsSince past).map (·.1)

/-- The numbers that were new when they were given. -/
def issued : List Op → List Nat
  | [] => []
  | .record seen :: past =>
    if seen.place ∈ placesSince past then issued past else number past seen :: issued past
  | _ :: past => issued past

/-- The books are right after some operations. -/
structure Exact (past : List Op) : Prop where
  /-- Each new number is above all that were given before, also before the ledger was
  cleared, so that none is given twice. -/
  issued_increasing : (issued past).Pairwise (· > ·)
  /-- Two bugs get the same number if they are in one place and the ledger was not cleared
  between them. -/
  number_eq_iff : ∀ later between earlier seen again,
    past = later ++ .record again :: (between ++ .record seen :: earlier) →
    (number (between ++ .record seen :: earlier) again = number earlier seen ↔
      .clear ∉ between ∧ again.place = seen.place)
  /-- A number counts how often its place was recorded since the ledger was cleared. -/
  occurrences : ∀ p id, (p, id) ∈ requestsSince past →
    (after past).occurrences? id = some ((placesSince past).count p)
  /-- A number that was not given since then counts nothing. -/
  occurrences_eq_none : ∀ id, (∀ p, (p, id) ∉ requestsSince past) →
    (after past).occurrences? id = none
  /-- Together the numbers count what was recorded since the ledger was cleared. -/
  sum_occurrences : ((after past).entries.toList.map (·.2.occurrences)).sum =
    (requestsSince past).length
  /-- The total counts all that was ever recorded. -/
  total : (after past).total = past.countP Op.isRecord
  /-- What a root cause may hide only grows until the ledger is cleared. -/
  masked_subset : ∀ later earlier id location, past = later ++ earlier → .clear ∉ later →
    (after earlier).location? id = some location →
    ∃ location', (after past).location? id = some location' ∧
      location'.place = location.place ∧ ∀ m ∈ location.masked, m ∈ location'.masked
  /-- Only what is in the ledger is a confirmed bug. -/
  location_of_isBug : ∀ id, (after past).isBug id = true →
    ∃ location, (after past).location? id = some location

/-- The place of a root cause. -/
def place? (l : Ledger) (id : Nat) : Option Place := (l.location? id).map (·.place)

/-- The two tables of a ledger are inverse to each other. -/
structure Indexed (l : Ledger) : Prop where
  idOf?_iff : ∀ p id, l.idOf? p = some id ↔ l.place? id = some p
  id_lt : ∀ id p, l.place? id = some p → id < l.nextId
  place_of_isBug : ∀ id, l.isBug id = true → ∃ p, l.place? id = some p

variable {past later earlier : List Op} {l l' : Ledger} {p q : Place} {id j : Nat}
  {seen location : Location} {masked : List Nat}

/-! ## What an operation changes -/

theorem getElem?_modify {t : Std.ExtTreeMap Nat Entry} {f : Entry → Entry} :
    (t.modify id f)[j]? = t[j]?.map fun e => if id = j then f e else e := by
  rw [Std.ExtTreeMap.getElem?_modify]
  simp only [compare_eq_iff_eq]
  split
  · next h => rw [h]
  · rw [Option.map_id']

/-- What a change leaves alone is as it was at every number. -/
theorem map_getElem?_modify {β : Type} {t : Std.ExtTreeMap Nat Entry} {f : Entry → Entry}
    {g : Entry → β} (hg : ∀ e, g (f e) = g e) : (t.modify id f)[j]?.map g = t[j]?.map g := by
  rw [getElem?_modify, Option.map_map]
  congr 1
  funext e
  rw [Function.comp_apply]
  split
  · exact hg e
  · rfl

theorem record_known (h : l.idOf? seen.place = some id) :
    l.record seen = ({ l with
      total := l.total + 1
      entries := l.entries.modify id fun e => { e with occurrences := e.occurrences + 1 } },
      id) := by
  have h' : Ledger.idOf? { l with total := l.total + 1 } seen.place = some id := h
  rw [record, h']

theorem record_new (h : l.idOf? seen.place = none) :
    l.record seen = ({ l with
      total := l.total + 1
      nextId := l.nextId + 1
      ids := l.ids.insert seen.place l.nextId
      entries := l.entries.insert l.nextId ⟨seen, 1⟩ }, l.nextId) := by
  have h' : Ledger.idOf? { l with total := l.total + 1 } seen.place = none := h
  rw [record, h']

theorem idOf?_record :
    (l.record seen).1.idOf? p =
      if p = seen.place then some (l.record seen).2 else l.idOf? p := by
  cases h : l.idOf? seen.place with
  | some id =>
    rw [record_known h]
    split
    · next he => rw [he, ← h, idOf?, idOf?]
    · rfl
  | none =>
    rw [record_new h, idOf?, Std.HashMap.getElem?_insert]
    simp only [beq_iff_eq, eq_comm (a := p), idOf?]

theorem location?_record_known (h : l.idOf? seen.place = some id) :
    (l.record seen).1.location? j = l.location? j := by
  rw [record_known h]
  exact map_getElem?_modify fun _ => rfl

theorem location?_record_new (h : l.idOf? seen.place = none) :
    (l.record seen).1.location? j = if j = l.nextId then some seen else l.location? j := by
  rw [record_new h, location?, location?, Std.ExtTreeMap.getElem?_insert]
  simp only [compare_eq_iff_eq, eq_comm (a := j)]
  split
  · rfl
  · rfl

theorem location?_addMasked :
    (l.addMasked id masked).location? j = (l.location? j).map fun location =>
      if id = j then { location with masked := location.masked.insertMany masked }
      else location := by
  rw [addMasked, location?, location?, getElem?_modify, Option.map_map, Option.map_map]
  congr 1
  funext e
  simp only [Function.comp_apply]
  split
  · rfl
  · rfl

theorem place?_addMasked : (l.addMasked id masked).place? j = l.place? j := by
  rw [place?, place?, location?, location?, Option.map_map, Option.map_map]
  exact map_getElem?_modify fun _ => rfl

/-- Confirming a root cause changes nothing else. -/
theorem markAsBug_eq : (l.markAsBug id).1 = { l with bugs := (l.markAsBug id).1.bugs } := by
  rw [markAsBug]
  split
  · rfl
  · rfl

theorem location?_markAsBug : (l.markAsBug id).1.location? j = l.location? j := by
  rw [markAsBug_eq, location?, location?]

/-- Recording a bug counts it where it is numbered. -/
theorem occurrences?_record_known (h : l.idOf? seen.place = some id) :
    (l.record seen).1.occurrences? j =
      if j = id then (l.occurrences? j).map (· + 1) else l.occurrences? j := by
  rw [record_known h, occurrences?, occurrences?, getElem?_modify, Option.map_map]
  simp only [eq_comm (a := j)]
  split
  · rw [Option.map_map]
    rfl
  · rfl

theorem occurrences?_record_new (h : l.idOf? seen.place = none) :
    (l.record seen).1.occurrences? j = if j = l.nextId then some 1 else l.occurrences? j := by
  rw [record_new h, occurrences?, occurrences?, Std.ExtTreeMap.getElem?_insert]
  simp only [compare_eq_iff_eq, eq_comm (a := j)]
  split
  · rfl
  · rfl

theorem occurrences?_addMasked : (l.addMasked id masked).occurrences? j = l.occurrences? j :=
  map_getElem?_modify fun _ => rfl

theorem occurrences?_markAsBug : (l.markAsBug id).1.occurrences? j = l.occurrences? j := by
  rw [markAsBug_eq, occurrences?, occurrences?]

theorem occurrences?_eq_none : l.occurrences? id = none ↔ l.place? id = none := by
  simp only [occurrences?, place?, location?, Option.map_eq_none_iff]

theorem contains_entries : l.entries.contains id = true ↔ ∃ p, l.place? id = some p := by
  rw [Std.ExtTreeMap.contains_eq_isSome_getElem?, ← Option.isSome_iff_exists, place?, location?,
    Option.isSome_map, Option.isSome_map]

/-! ## The two tables -/

namespace Indexed

/-- A root cause of a place is the only one. -/
theorem unique (h : l.Indexed) (hi : l.place? id = some p) (hj : l.place? j = some p) : id = j := by
  rw [← h.idOf?_iff] at hi hj
  rw [hi, Option.some.injEq] at hj
  exact hj

/-- Nothing has the next number. -/
theorem place?_nextId (h : l.Indexed) : l.place? l.nextId = none := by
  rw [Option.eq_none_iff_forall_ne_some]
  intro p hp
  exact absurd (h.id_lt _ p hp) (Nat.lt_irrefl _)

/-- What neither numbers a place nor forgets one. -/
theorem congr (h : l.Indexed) (hids : l'.ids = l.ids) (hnext : l'.nextId = l.nextId)
    (hplace : ∀ id, l'.place? id = l.place? id)
    (hbug : ∀ id, l'.isBug id = true → ∃ p, l.place? id = some p) : l'.Indexed := by
  refine ⟨?_, ?_, ?_⟩
  · intro p id
    rw [hplace, ← h.idOf?_iff, idOf?, idOf?, hids]
  · intro id p
    rw [hplace, hnext]
    exact h.id_lt id p
  · intro id hid
    rw [hplace]
    exact hbug id hid

theorem record (h : l.Indexed) (seen : Location) : (l.record seen).1.Indexed := by
  cases hid : l.idOf? seen.place with
  | some id =>
    refine h.congr ?_ ?_ ?_ ?_
    · rw [record_known hid]
    · rw [record_known hid]
    · intro j
      rw [place?, place?, location?_record_known hid]
    · rw [record_known hid]
      exact h.place_of_isBug
  | none =>
    have hplace : ∀ j, (l.record seen).1.place? j =
        if j = l.nextId then some seen.place else l.place? j := by
      intro j
      rw [place?, place?, location?_record_new hid]
      split
      · rfl
      · rfl
    refine ⟨?_, ?_, ?_⟩
    · intro p j
      rw [idOf?_record, hplace, record_new hid]
      have hnext := h.place?_nextId
      have hiff := h.idOf?_iff p j
      have hnot : l.idOf? seen.place ≠ some j := by simp [hid]
      grind
    · intro j p hj
      rw [hplace] at hj
      rw [record_new hid]
      show j < l.nextId + 1
      split at hj
      · omega
      · exact Nat.lt_succ_of_lt (h.id_lt j p hj)
    · intro j hj
      rw [record_new hid] at hj
      rw [hplace]
      split
      · exact ⟨_, rfl⟩
      · exact h.place_of_isBug j hj

theorem addMasked (h : l.Indexed) (id : Nat) (masked : List Nat) :
    (l.addMasked id masked).Indexed :=
  h.congr rfl rfl (fun _ => place?_addMasked) h.place_of_isBug

theorem markAsBug (h : l.Indexed) (id : Nat) : (l.markAsBug id).1.Indexed := by
  rw [Ledger.markAsBug]
  split
  · next hid =>
    refine h.congr rfl rfl (fun _ => rfl) ?_
    intro j hj
    rw [isBug, Std.ExtTreeSet.contains_insert, Bool.or_eq_true, beq_iff_eq, compare_eq_iff_eq] at hj
    obtain rfl | hj := hj
    · exact contains_entries.mp hid
    · exact h.place_of_isBug j hj
  · exact h

theorem clear : l.clear.Indexed := by
  refine ⟨?_, ?_, ?_⟩
  · intro p id
    simp [Ledger.clear, idOf?, place?, location?]
  · intro id p
    simp [Ledger.clear, place?, location?]
  · intro id
    simp [Ledger.clear, isBug]

theorem apply (h : l.Indexed) (op : Op) : (op.apply l).Indexed := by
  cases op with
  | record seen => exact h.record seen
  | addMasked id masked => exact h.addMasked id masked
  | markAsBug id => exact h.markAsBug id
  | clear => exact clear

end Indexed

/-- Whatever was done, the two tables are inverse to each other. -/
theorem indexed (past : List Op) : (after past).Indexed := by
  induction past with
  | nil => exact Indexed.clear (l := {})
  | cons op past ih => exact ih.apply op

/-! ## Numbers and what was recorded -/

/-- The ledger numbers what was recorded since it was cleared, as it was numbered then. -/
theorem idOf?_eq_some_iff : (after past).idOf? p = some id ↔ (p, id) ∈ requestsSince past := by
  induction past with
  | nil => simp [after, idOf?, requestsSince]
  | cons op past ih =>
    cases op with
    | record seen =>
      rw [after, Op.apply, idOf?_record, requestsSince, List.mem_cons, Prod.mk.injEq, ← ih]
      split
      · next he =>
        subst he
        rw [Option.some.injEq]
        constructor
        · rintro rfl
          exact .inl ⟨rfl, rfl⟩
        · rintro (⟨-, rfl⟩ | hid)
          · rfl
          · rw [record_known hid]
      · next he => simp only [he, false_and, false_or]
    | addMasked id masked => exact ih
    | markAsBug id =>
      rw [after, Op.apply, markAsBug_eq]
      exact ih
    | clear => simp [after, Op.apply, Ledger.clear, idOf?, requestsSince]

theorem mem_placesSince : p ∈ placesSince past ↔ ∃ id, (after past).idOf? p = some id := by
  simp [placesSince, idOf?_eq_some_iff]

/-- The number that a bug got is that of its place. -/
theorem place?_number :
    (after (.record seen :: past)).place? (number past seen) = some seen.place := by
  rw [← (indexed _).idOf?_iff, idOf?_eq_some_iff]
  exact List.mem_cons_self

theorem number_lt : number past seen < (after (.record seen :: past)).nextId :=
  (indexed _).id_lt _ _ place?_number

/-- A place that is new gets the next number. -/
theorem number_new (h : seen.place ∉ placesSince past) :
    (after past).idOf? seen.place = none ∧ number past seen = (after past).nextId := by
  have hnone : (after past).idOf? seen.place = none := by
    rw [Option.eq_none_iff_forall_ne_some]
    intro id hid
    exact h (mem_placesSince.mpr ⟨id, hid⟩)
  refine ⟨hnone, ?_⟩
  rw [number, record_new hnone]

/-! ## Counting -/

/-- What is in the ledger counts how often its place was recorded. -/
theorem occurrences?_eq_count (h : (after past).idOf? p = some id) :
    (after past).occurrences? id = some ((placesSince past).count p) := by
  induction past with
  | nil =>
    rw [idOf?_eq_some_iff] at h
    cases h
  | cons op past ih =>
    cases op with
    | record seen =>
      have hplaces : placesSince (.record seen :: past) = seen.place :: placesSince past := rfl
      rw [after, Op.apply, idOf?_record] at h
      rw [after, Op.apply, hplaces, List.count_cons]
      cases hseen : (after past).idOf? seen.place with
      | some j =>
        rw [occurrences?_record_known hseen]
        rw [record_known hseen] at h
        by_cases hp : p = seen.place
        · rw [if_pos hp, Option.some.injEq] at h
          subst h
          rw [if_pos rfl, if_pos (by simp [hp]), ih (hp ▸ hseen), Option.map_some]
        · rw [if_neg hp] at h
          have hne : id ≠ j := by
            rintro rfl
            rw [(indexed past).idOf?_iff] at h hseen
            rw [h, Option.some.injEq] at hseen
            exact hp hseen
          rw [if_neg hne, if_neg (by simp [Ne.symm hp]), ih h, Nat.add_zero]
      | none =>
        rw [occurrences?_record_new hseen]
        rw [record_new hseen] at h
        by_cases hp : p = seen.place
        · rw [if_pos hp, Option.some.injEq] at h
          have hcount : (placesSince past).count p = 0 := by
            rw [List.count_eq_zero, mem_placesSince, hp, hseen]
            simp
          rw [if_pos h.symm, if_pos (by simp [hp]), hcount]
        · rw [if_neg hp] at h
          have hne : id ≠ (after past).nextId :=
            Nat.ne_of_lt ((indexed past).id_lt id p (((indexed past).idOf?_iff p id).mp h))
          rw [if_neg hne, if_neg (by simp [Ne.symm hp]), ih h, Nat.add_zero]
    | addMasked j masked =>
      rw [after, Op.apply, occurrences?_addMasked]
      exact ih h
    | markAsBug j =>
      rw [after, Op.apply, occurrences?_markAsBug]
      exact ih (by rwa [idOf?_eq_some_iff] at h ⊢)
    | clear =>
      rw [idOf?_eq_some_iff] at h
      cases h

theorem total_after : (after past).total = past.countP Op.isRecord := by
  induction past with
  | nil => rfl
  | cons op past ih =>
    rw [List.countP_cons, ← ih, after]
    cases op with
    | record seen =>
      rw [Op.apply, Op.isRecord, if_pos rfl]
      cases h : (after past).idOf? seen.place with
      | some id => rw [record_known h]
      | none => rw [record_new h]
    | addMasked id masked => rfl
    | markAsBug id =>
      rw [Op.apply, markAsBug_eq]
      rfl
    | clear => rfl

/-- The places of the root causes are those that were recorded, each once. -/
theorem places_perm :
    ((after past).entries.toList.map (·.2.location.place)).Perm (placesSince past).dedup := by
  have hmem : ∀ id e, (id, e) ∈ (after past).entries.toList →
      (after past).place? id = some e.location.place := by
    intro id e he
    rw [Std.ExtTreeMap.mem_toList_iff_getElem?_eq_some] at he
    rw [place?, location?, he]
    rfl
  have hkeys : (after past).entries.toList.Nodup := by
    refine .of_map Prod.fst ?_
    rw [Std.ExtTreeMap.map_fst_toList_eq_keys]
    exact Std.ExtTreeMap.nodup_keys
  have hnodup : ((after past).entries.toList.map (·.2.location.place)).Nodup := by
    refine hkeys.map_on ?_
    rintro ⟨i, d⟩ hd ⟨j, e⟩ he hplace
    have hij := (indexed past).unique (hplace ▸ hmem i d hd) (hmem j e he)
    subst hij
    rw [Std.ExtTreeMap.mem_toList_iff_getElem?_eq_some] at hd he
    rw [hd, Option.some.injEq] at he
    rw [he]
  rw [List.perm_ext_iff_of_nodup hnodup (List.nodup_dedup _)]
  intro p
  rw [List.mem_dedup, mem_placesSince, List.mem_map]
  constructor
  · rintro ⟨⟨id, e⟩, he, rfl⟩
    exact ⟨id, ((indexed past).idOf?_iff _ id).mpr (hmem id e he)⟩
  · rintro ⟨id, hid⟩
    rw [(indexed past).idOf?_iff, place?, location?, Option.map_map, Option.map_eq_some_iff] at hid
    obtain ⟨e, he, rfl⟩ := hid
    exact ⟨(id, e), Std.ExtTreeMap.mem_toList_iff_getElem?_eq_some.mpr he, rfl⟩

theorem sum_occurrences_after :
    ((after past).entries.toList.map (·.2.occurrences)).sum = (requestsSince past).length := by
  have hcount : (after past).entries.toList.map (·.2.occurrences) =
      ((after past).entries.toList.map (·.2.location.place)).map (placesSince past).count := by
    rw [List.map_map]
    refine List.map_congr_left ?_
    rintro ⟨id, e⟩ he
    rw [Std.ExtTreeMap.mem_toList_iff_getElem?_eq_some] at he
    have hid : (after past).idOf? e.location.place = some id := by
      rw [(indexed past).idOf?_iff, place?, location?, he]
      rfl
    have hoccurrences := occurrences?_eq_count hid
    rw [occurrences?, he] at hoccurrences
    exact Option.some.inj hoccurrences
  rw [hcount, (places_perm.map _).sum_eq, List.sum_map_count_dedup_eq_length, placesSince,
    List.length_map]

/-! ## From one time to a later one -/

/-- Until the ledger is cleared nothing is forgotten of a root cause. -/
theorem location?_apply {op : Op} (h : l.Indexed) (hop : op ≠ .clear)
    (hlocation : l.location? id = some location) :
    ∃ location', (op.apply l).location? id = some location' ∧
      location'.place = location.place ∧ ∀ m ∈ location.masked, m ∈ location'.masked := by
  cases op with
  | record seen =>
    refine ⟨location, ?_, rfl, fun m hm => hm⟩
    rw [Op.apply]
    cases hid : l.idOf? seen.place with
    | some j => rw [location?_record_known hid, hlocation]
    | none =>
      have hlt : id < l.nextId := h.id_lt id location.place (by rw [place?, hlocation]; rfl)
      rw [location?_record_new hid, if_neg (Nat.ne_of_lt hlt), hlocation]
  | addMasked j masked =>
    rw [Op.apply, location?_addMasked, hlocation, Option.map_some]
    refine ⟨_, rfl, ?_⟩
    split
    · refine ⟨rfl, ?_⟩
      intro m hm
      rw [Std.ExtTreeSet.mem_insertMany_list]
      exact .inl hm
    · exact ⟨rfl, fun m hm => hm⟩
  | markAsBug j =>
    rw [Op.apply, location?_markAsBug]
    exact ⟨location, hlocation, rfl, fun m hm => hm⟩
  | clear => exact absurd rfl hop

theorem location?_later (hclear : .clear ∉ later)
    (hlocation : (after earlier).location? id = some location) :
    ∃ location', (after (later ++ earlier)).location? id = some location' ∧
      location'.place = location.place ∧ ∀ m ∈ location.masked, m ∈ location'.masked := by
  induction later with
  | nil => exact ⟨location, hlocation, rfl, fun m hm => hm⟩
  | cons op later ih =>
    rw [List.mem_cons, not_or] at hclear
    obtain ⟨old, hold, holdplace, hsubset⟩ := ih hclear.2
    obtain ⟨new, hnew, hnewplace, hsubset'⟩ :=
      location?_apply (indexed (later ++ earlier)) (Ne.symm hclear.1) hold
    exact ⟨new, hnew, hnewplace.trans holdplace, fun m hm => hsubset' m (hsubset m hm)⟩

theorem place?_later (hclear : .clear ∉ later) (hplace : (after earlier).place? id = some p) :
    (after (later ++ earlier)).place? id = some p := by
  obtain ⟨location, hlocation, rfl⟩ := Option.map_eq_some_iff.mp hplace
  obtain ⟨location', hlater, he, -⟩ := location?_later hclear hlocation
  rw [place?, hlater, Option.map_some, he]

theorem nextId_le_apply (op : Op) : l.nextId ≤ (op.apply l).nextId := by
  cases op with
  | record seen =>
    rw [Op.apply]
    cases h : l.idOf? seen.place with
    | some id => rw [record_known h]
    | none =>
      rw [record_new h]
      exact Nat.le_succ _
  | addMasked id masked => exact Nat.le_refl _
  | markAsBug id =>
    rw [Op.apply, markAsBug_eq]
  | clear => exact Nat.le_refl _

theorem nextId_le : (after earlier).nextId ≤ (after (later ++ earlier)).nextId := by
  induction later with
  | nil => exact Nat.le_refl _
  | cons op later ih => exact Nat.le_trans ih (nextId_le_apply op)

/-- A root cause was there before an operation, or has a new number. -/
theorem place?_apply {op : Op} (h : (op.apply l).place? id = some p) :
    l.place? id = some p ∨ l.nextId ≤ id := by
  cases op with
  | record seen =>
    rw [Op.apply, place?] at h
    cases hid : l.idOf? seen.place with
    | some j =>
      rw [location?_record_known hid] at h
      exact .inl h
    | none =>
      rw [location?_record_new hid] at h
      split at h
      · next he => exact .inr (Nat.le_of_eq he.symm)
      · exact .inl h
  | addMasked j masked =>
    rw [Op.apply, place?_addMasked] at h
    exact .inl h
  | markAsBug j =>
    rw [Op.apply, place?, location?_markAsBug] at h
    exact .inl h
  | clear => simp [Op.apply, Ledger.clear, place?, location?] at h

/-- What is in the ledger after it was cleared has a number that was not given before. -/
theorem nextId_le_of_clear (hclear : .clear ∈ later)
    (hplace : (after (later ++ earlier)).place? id = some p) : (after earlier).nextId ≤ id := by
  induction later generalizing p with
  | nil => cases hclear
  | cons op later ih =>
    obtain hold | hnew := place?_apply hplace
    · obtain rfl | hclear := List.mem_cons.mp hclear
      · simp [after, Op.apply, Ledger.clear, place?, location?] at hplace
      · exact ih hclear hold
    · exact Nat.le_trans nextId_le hnew

/-! ## The books -/

theorem issued_lt : ∀ id ∈ issued past, id < (after past).nextId := by
  induction past with
  | nil => simp [issued]
  | cons op past ih =>
    have hlater : ∀ id ∈ issued past, id < (after (op :: past)).nextId :=
      fun id hid => Nat.lt_of_lt_of_le (ih id hid) (nextId_le_apply op)
    cases op with
    | record seen =>
      rw [issued]
      split
      · exact hlater
      · rw [List.forall_mem_cons]
        exact ⟨number_lt, hlater⟩
    | addMasked id masked => exact hlater
    | markAsBug id => exact hlater
    | clear => exact hlater

theorem issued_pairwise : (issued past).Pairwise (· > ·) := by
  induction past with
  | nil => exact .nil
  | cons op past ih =>
    cases op with
    | record seen =>
      rw [issued]
      split
      · exact ih
      · next hmem =>
        rw [(number_new hmem).2]
        exact .cons issued_lt ih
    | addMasked id masked => exact ih
    | markAsBug id => exact ih
    | clear => exact ih

theorem number_eq_number_iff {between earlier : List Op} {seen again : Location} :
    number (between ++ .record seen :: earlier) again = number earlier seen ↔
      .clear ∉ between ∧ again.place = seen.place := by
  have hseen : (after (.record seen :: earlier)).place? (number earlier seen) =
      some seen.place := place?_number
  have hlt : number earlier seen < (after (.record seen :: earlier)).nextId := number_lt
  have hagain : (after ((.record again :: between) ++ .record seen :: earlier)).place?
      (number (between ++ .record seen :: earlier) again) = some again.place := place?_number
  by_cases hclear : .clear ∈ between
  · have hle := nextId_le_of_clear (List.mem_cons_of_mem _ hclear) hagain
    refine iff_of_false (by omega) ?_
    rintro ⟨hnot, -⟩
    exact hnot hclear
  · have hstays : .clear ∉ Op.record again :: between := by simp [hclear]
    have hseen' := place?_later hstays hseen
    constructor
    · intro he
      rw [he] at hagain
      exact ⟨hclear, Option.some.inj (hagain.symm.trans hseen')⟩
    · rintro ⟨-, he⟩
      rw [he] at hagain
      exact (indexed _).unique hagain hseen'

/-- Whatever was done to a ledger, its books are right. -/
theorem books_exact (past : List Op) : Exact past where
  issued_increasing := issued_pairwise
  number_eq_iff _ _ _ _ _ _ := number_eq_number_iff
  occurrences _ _ h := occurrences?_eq_count (idOf?_eq_some_iff.mpr h)
  occurrences_eq_none id h := by
    rw [occurrences?_eq_none, Option.eq_none_iff_forall_ne_some]
    intro p hp
    rw [← (indexed past).idOf?_iff, idOf?_eq_some_iff] at hp
    exact h p hp
  sum_occurrences := sum_occurrences_after
  total := total_after
  masked_subset later earlier id location hpast hclear hlocation := by
    rw [hpast]
    exact location?_later hclear hlocation
  location_of_isBug id h := by
    obtain ⟨p, hp⟩ := (indexed past).place_of_isBug id h
    obtain ⟨location, hlocation, -⟩ := Option.map_eq_some_iff.mp hp
    exact ⟨location, hlocation⟩

end PmemPaths.RootCause.Ledger
