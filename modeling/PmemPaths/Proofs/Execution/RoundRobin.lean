import Mathlib.Data.List.Chain
import Mathlib.Data.List.Find
import Mathlib.Data.List.Iterate
import Mathlib.Order.Bounds.Defs
import PmemPaths.Execution.Scheduling
import PmemPaths.Proofs.OrderedMap

/-!
# Taking turns

The next thread is found by looking above a thread, and from the start if there is nothing
above.  So the threads in order, cut at a thread and put together again the other way round,
are the ones that come up when each is followed by the next one (`State.round_eq`).  All
threads come up in such a round, each once, and an existing thread comes up last.

The next thread that can run is looked for in the two parts of the same cut.  So it is the
first one of the round that can run, and a thread that goes to sleep hands over to it
(`State.nextThread_goesRound`).
-/

namespace PmemPaths.Execution

/-! ## Lists that close to a cycle -/

section

variable {α : Type} {f : α → α} {l l' : List α} {x : α}

/-- Each member of a list is what a function makes of the one before it, and the first is
what it makes of the last. -/
structure GoesRound (f : α → α) (l : List α) : Prop where
  chain : l.IsChain fun x y => f x = y
  closed : ∀ x ∈ l.getLast?, ∀ y ∈ l.head?, f x = y

/-- A cycle may begin anywhere. -/
theorem GoesRound.append_comm (h : GoesRound f (l ++ l')) : GoesRound f (l' ++ l) := by
  cases l with
  | nil => simpa using h
  | cons x l =>
    cases l' with
    | nil => simpa using h
    | cons y l' =>
      obtain ⟨hl, hl', hjoin⟩ := List.isChain_append.mp h.chain
      have hclosed := h.closed
      rw [List.getLast?_append_of_ne_nil _ (List.cons_ne_nil y l')] at hclosed
      refine ⟨List.isChain_append.mpr ⟨hl', hl, hclosed⟩, ?_⟩
      rw [List.getLast?_append_of_ne_nil _ (List.cons_ne_nil x l)]
      exact hjoin

theorem iterate_of_isChain (h : (x :: l).IsChain fun x y => f x = y) :
    List.iterate f x (l.length + 1) = x :: l := by
  induction l generalizing x with
  | nil => rfl
  | cons y l ih =>
    obtain ⟨hxy, hl⟩ := List.isChain_cons_cons.mp h
    rw [List.length_cons, List.iterate, hxy, ih hl]

/-- A list in which what passes a test comes first. -/
theorem filter_append_filter_not {p : α → Bool}
    (h : l.Pairwise fun x y => p y = true → p x = true) : l.filter p ++ l.filter (!p ·) = l := by
  induction l with
  | nil => rfl
  | cons x l ih =>
    obtain ⟨hx, hl⟩ := List.pairwise_cons.mp h
    cases hpx : p x with
    | true => simp [hpx, ih hl]
    | false =>
      have hnone : l.filter p = [] := by
        rw [List.filter_eq_nil_iff]
        intro y hy hpy
        rw [hx y hy hpy] at hpx
        cases hpx
      have hrest := ih hl
      rw [hnone, List.nil_append] at hrest
      simp [hpx, hnone, hrest]

end

/-! ## The order of threads -/

instance : LT ThreadUid := ltOfOrd

instance : LE ThreadUid := leOfOrd

theorem ThreadUid.lt_iff_not_isLE {u v : ThreadUid} : u < v ↔ (compare v u).isLE = false := by
  show compare u v = .lt ↔ _
  rw [Std.OrientedOrd.eq_swap (a := v)]
  cases compare u v <;> simp

namespace State

variable {s s' : State} {u v : ThreadUid} {list : Nat} {t : Thread} {before rest : List ThreadUid}

theorem keys_pairwise : s.threads.keys.Pairwise (· < ·) := Std.ExtTreeMap.ordered_keys

/-- The threads up to a thread, in order. -/
def upTo (s : State) (u : ThreadUid) : List ThreadUid :=
  s.threads.keys.filter fun v => (compare v u).isLE

/-- The threads above a thread, in order. -/
def above (s : State) (u : ThreadUid) : List ThreadUid :=
  s.threads.keys.filter fun v => !(compare v u).isLE

theorem upTo_append_above : s.upTo u ++ s.above u = s.threads.keys :=
  filter_append_filter_not <| keys_pairwise.imp fun hlt hle =>
    Std.TransOrd.isLE_trans (Ordering.isLE_of_eq_lt hlt) hle

theorem mem_above : v ∈ s.above u ↔ v ∈ s.threads ∧ u < v := by
  rw [above, List.mem_filter, Std.ExtTreeMap.mem_keys, ThreadUid.lt_iff_not_isLE,
    Bool.not_eq_true']

/-- The threads are cut at one of them. -/
theorem upTo_above_of_keys (h : s.threads.keys = before ++ u :: rest) :
    s.upTo u = before ++ [u] ∧ s.above u = rest := by
  have hsorted := keys_pairwise (s := s)
  rw [h, List.pairwise_append, List.pairwise_cons] at hsorted
  obtain ⟨-, ⟨hrest, -⟩, hbefore⟩ := hsorted
  have hle : ∀ v ∈ before, (compare v u).isLE = true := fun v hv =>
    Ordering.isLE_of_eq_lt (hbefore v hv u List.mem_cons_self)
  have hgt : ∀ v ∈ rest, (compare v u).isLE = false := fun v hv =>
    ThreadUid.lt_iff_not_isLE.mp (hrest v hv)
  have hself : (compare u u).isLE = true := Std.ReflCmp.isLE_rfl
  constructor
  · rw [upTo, h, List.filter_append, List.filter_eq_self.mpr hle, List.filter_cons, if_pos hself,
      List.filter_eq_nil_iff.mpr fun v hv => by simp [hgt v hv]]
  · rw [above, h, List.filter_append, List.filter_eq_nil_iff.mpr fun v hv => by simp [hle v hv],
      List.filter_cons, if_neg (by simp),
      List.filter_eq_self.mpr fun v hv => by simp [hgt v hv], List.nil_append]

/-! ## The next thread -/

theorem nextThread_eq :
    s.nextThread u = ((s.above u).head?.or s.threads.keys.head?).getD u := by
  have hgt : (fun v => (compare v u).isGT) = fun v => !(compare v u).isLE := by
    funext v
    cases compare v u <;> rfl
  rw [nextThread, getKeyGT?_eq_find?, hgt, Std.ExtTreeMap.minKey?_eq_head?_keys, above,
    List.head?_filter]

/-- The threads in order are a cycle of next threads. -/
theorem goesRound_keys : GoesRound s.nextThread s.threads.keys := by
  constructor
  · rw [List.isChain_iff_forall_rel_of_append_cons_cons]
    intro v w before rest h
    rw [nextThread_eq, (upTo_above_of_keys h).2]
    rfl
  · intro v hv w hw
    obtain ⟨before, h⟩ := List.getLast?_eq_some_iff.mp hv
    rw [nextThread_eq, (upTo_above_of_keys h).2, hw]
    rfl

theorem isLeast_head? {l : List ThreadUid} (hl : l.Pairwise (· < ·)) (h : l.head? = some v) :
    IsLeast {w | w ∈ l} v := by
  obtain ⟨rest, rfl⟩ := List.head?_eq_some_iff.mp h
  refine ⟨List.mem_cons_self, fun w hw => ?_⟩
  rcases List.mem_cons.mp hw with rfl | hw
  · show (compare w w).isLE = true
    exact Std.ReflCmp.isLE_rfl
  · exact Ordering.isLE_of_eq_lt ((List.pairwise_cons.mp hl).1 w hw)

/-- If there is a thread above, the next one is the least of those. -/
theorem isLeast_nextThread_above (hv : v ∈ s.threads) (huv : u < v) :
    IsLeast {w | w ∈ s.threads ∧ u < w} (s.nextThread u) := by
  have hset : {w | w ∈ s.threads ∧ u < w} = {w | w ∈ s.above u} :=
    Set.ext fun w => mem_above.symm
  cases habove : s.above u with
  | nil =>
    have hmem : v ∈ s.above u := mem_above.mpr ⟨hv, huv⟩
    rw [habove] at hmem
    cases hmem
  | cons w rest =>
    rw [hset, nextThread_eq, habove, ← habove]
    exact isLeast_head? (keys_pairwise.sublist List.filter_sublist) (by rw [habove]; rfl)

/-- If there is no thread above, the next one is the least of all. -/
theorem isLeast_nextThread (hv : v ∈ s.threads) (hu : ∀ w ∈ s.threads, ¬ u < w) :
    IsLeast {w | w ∈ s.threads} (s.nextThread u) := by
  have hset : {w | w ∈ s.threads} = {w | w ∈ s.threads.keys} :=
    Set.ext fun w => Std.ExtTreeMap.mem_keys.symm
  have habove : s.above u = [] := by
    rw [List.eq_nil_iff_forall_not_mem]
    intro w hw
    obtain ⟨hw, huw⟩ := mem_above.mp hw
    exact hu w hw huw
  have hv : v ∈ s.threads.keys := Std.ExtTreeMap.mem_keys.mpr hv
  rw [hset, nextThread_eq, habove]
  cases hkeys : s.threads.keys with
  | nil =>
    rw [hkeys] at hv
    cases hv
  | cons w rest =>
    exact isLeast_head? (hkeys ▸ keys_pairwise) rfl

/-! ## Rounds -/

/-- The threads that come up after a thread when each is followed by the next one, as many
as there are threads. -/
def round (s : State) (u : ThreadUid) : List ThreadUid :=
  List.iterate s.nextThread (s.nextThread u) s.threads.size

/-- In a round the threads above come up first. -/
theorem round_eq : s.round u = s.above u ++ s.upTo u := by
  have hround : GoesRound s.nextThread (s.above u ++ s.upTo u) :=
    (upTo_append_above (s := s) (u := u) ▸ goesRound_keys).append_comm
  have hsize : s.threads.size = (s.above u ++ s.upTo u).length := by
    rw [← Std.ExtTreeMap.length_keys, ← upTo_append_above (u := u), List.length_append,
      List.length_append, Nat.add_comm]
  have hfirst : s.nextThread u = (s.above u ++ s.upTo u).head?.getD u := by
    rw [nextThread_eq, ← upTo_append_above (u := u)]
    cases s.above u with
    | nil => simp
    | cons v rest => rfl
  rw [round, hsize, hfirst]
  cases hl : s.above u ++ s.upTo u with
  | nil => rfl
  | cons v rest =>
    rw [hl] at hround
    exact iterate_of_isChain hround.chain

/-- Every thread comes up once. -/
theorem round_perm : (s.round u).Perm s.threads.keys := by
  rw [round_eq, ← upTo_append_above (u := u)]
  exact List.perm_append_comm

/-- An existing thread comes up last. -/
theorem iterate_nextThread (h : u ∈ s.threads) : s.nextThread^[s.threads.size] u = u := by
  obtain ⟨before, rest, hkeys⟩ := List.append_of_mem (Std.ExtTreeMap.mem_keys.mpr h)
  have hlast : (s.round u).getLast? = some u := by
    rw [round_eq, (upTo_above_of_keys hkeys).1, ← List.append_assoc, List.getLast?_concat]
  cases hsize : s.threads.size with
  | zero =>
    rw [round, hsize] at hlast
    cases hlast
  | succ n =>
    rw [round, hsize, List.getLast?_eq_getElem?, List.length_iterate, Nat.add_sub_cancel,
      List.getElem?_iterate _ _ _ _ (Nat.lt_succ_self n)] at hlast
    exact Option.some.inj hlast

theorem round_of_keys (h : s'.threads.keys = s.threads.keys) : s'.round u = s.round u := by
  rw [round_eq, round_eq, above, above, upTo, upTo, h]

/-! ## Handing over -/

/-- The thread exists and is enabled. -/
def canRun (s : State) (u : ThreadUid) : Bool := s.threads[u]?.any (·.enabled)

theorem canRun_iff :
    s.canRun u = true ↔ ∃ t, s.threads[u]? = some t ∧ t.enabled = true :=
  Option.any_eq_true _ _

theorem find?_enabled (p : ThreadUid → Bool) :
    ((s.threads.toList.filter fun e => p e.1).find? (·.2.enabled)).map (·.1) =
      (s.threads.keys.filter p).find? s.canRun := by
  have hsame : (s.threads.toList.filter fun e => p e.1).find? (·.2.enabled) =
      (s.threads.toList.filter fun e => p e.1).find? (s.canRun ∘ (·.1)) := by
    refine List.find?_congr fun e he => ?_
    have he := Std.ExtTreeMap.mem_toList_iff_getElem?_eq_some.mp (List.mem_filter.mp he).1
    rw [Function.comp_apply, canRun, he, Option.any_some]
  rw [hsame, ← List.find?_map, ← Std.ExtTreeMap.map_fst_toList_eq_keys, List.filter_map]
  rfl

/-- The next thread that can run is the first one in the round. -/
theorem nextRunnable?_eq : s.nextRunnable? u = (s.round u).find? s.canRun := by
  rw [nextRunnable?, List.partition_eq_filter_filter, round_eq]
  simp only [List.find?_append, Option.map_or]
  exact congrArg₂ Option.or (find?_enabled fun v => !(compare v u).isLE)
    (find?_enabled fun v => (compare v u).isLE)

/-- A thread that is found can run. -/
theorem exists_of_nextRunnable? (h : s.nextRunnable? u = some v) :
    ∃ t, s.threads[v]? = some t ∧ t.enabled = true := by
  rw [nextRunnable?_eq] at h
  exact canRun_iff.mp (List.find?_some h)

/-- A thread that can run is found. -/
theorem isSome_nextRunnable? (ht : s.threads[v]? = some t) (he : t.enabled = true) :
    (s.nextRunnable? u).isSome = true := by
  have hmem : v ∈ s.threads := by
    rw [Std.ExtTreeMap.mem_iff_isSome_getElem?, ht]
    rfl
  rw [nextRunnable?_eq, List.find?_isSome]
  exact ⟨v, round_perm.mem_iff.mpr (Std.ExtTreeMap.mem_keys.mpr hmem),
    canRun_iff.mpr ⟨t, ht, he⟩⟩

/-! ## Going to sleep -/

/-- The state with its current thread on a waiting list. -/
def park (s : State) (list : Nat) (t : Thread) : State :=
  { s.setThread { t with enabled := false, waitsOn := some list } with
    waiting := s.waiting.insert list ((s.waiting.getD list ∅).insert s.current) }

/-- The state that goes on with the next thread that can run. -/
def handOver (s : State) : State :=
  { s with current := (s.nextRunnable? s.current).getD s.current }

theorem threads_park : (s.park list t).threads[u]? =
    if u = s.current then some { t with enabled := false, waitsOn := some list }
    else s.threads[u]? := by
  simp only [park, setThread, Std.ExtTreeMap.getElem?_insert, Std.compare_eq_iff_eq]
  simp only [eq_comm]

/-- After handing over the current thread can run, if any can. -/
theorem handOver_enabled (ht : s.threads[v]? = some t) (he : t.enabled = true) :
    ∃ t', s.handOver.threads[s.handOver.current]? = some t' ∧ t'.enabled = true := by
  obtain ⟨w, hw⟩ := Option.isSome_iff_exists.mp (isSome_nextRunnable? (u := s.current) ht he)
  show ∃ t', s.threads[(s.nextRunnable? s.current).getD s.current]? = some t' ∧ _
  rw [hw]
  exact exists_of_nextRunnable? hw

theorem sleep_of_enabled (hlist : list ≠ 0) (ht : s.threads[s.current]? = some t)
    (he : t.enabled = true) : s.sleep list = .ok (s.park list t).handOver := by
  rw [sleep, if_neg hlist]
  simp only [thread, ht, bind, Except.bind, he]
  rfl

theorem of_sleep (h : s.sleep list = .ok s') : ∃ t, s.threads[s.current]? = some t ∧
    t.enabled = true ∧ s' = (s.park list t).handOver := by
  by_cases hlist : list = 0
  · rw [sleep, if_pos hlist] at h
    cases h
  · cases ht : s.threads[s.current]? with
    | none =>
      rw [sleep, if_neg hlist] at h
      simp only [thread, ht, bind, Except.bind] at h
      cases h
    | some t =>
      cases he : t.enabled with
      | true =>
        rw [sleep_of_enabled hlist ht he] at h
        cases h
        exact ⟨t, rfl, he, rfl⟩
      | false =>
        rw [sleep, if_neg hlist] at h
        simp only [thread, ht, bind, Except.bind, he] at h
        cases h

theorem keys_park (h : s.threads[s.current]? = some t) (list : Nat) :
    (s.park list t).threads.keys = s.threads.keys := by
  refine keys_eq_of_mem_iff fun u => ?_
  rw [Std.ExtTreeMap.mem_iff_isSome_getElem?, Std.ExtTreeMap.mem_iff_isSome_getElem?, threads_park]
  split
  · next hu => simp [hu, h]
  · rfl

/-- The thread that sleeps cannot run, and the others can if they could. -/
theorem canRun_park : (s.park list t).canRun = fun u => u ≠ s.current && s.canRun u := by
  funext u
  rw [canRun, threads_park, canRun]
  split
  · next hu => simp [hu]
  · next hu => simp [hu]

/-- The next threads form one cycle.  Going on from an existing thread, as often as there are
threads, all of them come up once and the thread itself comes up last.  The next one of any
identity, whether its thread exists or not, is the least one above it, or the least of all
if there is none above.  A thread that goes to sleep hands over to the first one of its
round that can run, if any other can. -/
theorem nextThread_goesRound (s : State) :
    (∀ u ∈ s.threads, (s.round u).Perm s.threads.keys ∧ s.nextThread^[s.threads.size] u = u) ∧
    (∀ u, (∃ v ∈ s.threads, u < v) →
      IsLeast {v | v ∈ s.threads ∧ u < v} (s.nextThread u)) ∧
    (∀ u, s.threads ≠ ∅ → (∀ v ∈ s.threads, ¬ u < v) →
      IsLeast {v | v ∈ s.threads} (s.nextThread u)) ∧
    ∀ list, list ≠ 0 → s.canRun s.current = true → ∃ s', s.sleep list = .ok s' ∧
      s'.current = ((s.round s.current).find? fun v =>
        v ≠ s.current && s.canRun v).getD s.current := by
  refine ⟨fun u hu => ⟨round_perm, iterate_nextThread hu⟩, ?above, ?wrap, ?sleep⟩
  case above =>
    rintro u ⟨v, hv, huv⟩
    exact isLeast_nextThread_above hv huv
  case wrap =>
    intro u hne hu
    have hsome : s.threads.minKey?.isSome = true :=
      Std.ExtTreeMap.isSome_minKey?_iff_ne_empty.mpr hne
    obtain ⟨v, hv⟩ := Option.isSome_iff_exists.mp hsome
    exact isLeast_nextThread (Std.ExtTreeMap.minKey?_mem hv) hu
  case sleep =>
    intro list hlist hrun
    obtain ⟨t, ht, he⟩ := canRun_iff.mp hrun
    refine ⟨_, sleep_of_enabled hlist ht he, ?_⟩
    show ((s.park list t).nextRunnable? s.current).getD s.current = _
    rw [nextRunnable?_eq, round_of_keys (keys_park ht list), canRun_park]

/-- Three threads of two processes, of which the last one is asleep.  The current one goes to
sleep too, and the search for another one goes on from the start. -/
theorem nextThread_goesRound_gap :
    let awake : Thread := { pc := ⟨1⟩, prevPc := ⟨0⟩, stack := [], heuristic := .off }
    let asleep : Thread := { awake with enabled := false, waitsOn := some 5 }
    let s : State :=
      { id := 1
        threads := (((∅ : Std.ExtTreeMap ThreadUid Thread).insert .main awake).insert
          ⟨1, 7⟩ awake).insert ⟨3, 0⟩ asleep
        waiting := (∅ : Std.ExtTreeMap Nat (Std.ExtTreeSet ThreadUid)).insert 5
          ((∅ : Std.ExtTreeSet ThreadUid).insert ⟨3, 0⟩)
        current := ⟨1, 7⟩ }
    (⟨1, 7⟩ : ThreadUid) ∈ s.threads ∧ (s.round ⟨1, 7⟩).Perm s.threads.keys ∧
      s.nextThread^[3] ⟨1, 7⟩ = ⟨1, 7⟩ ∧
      (∃ v ∈ s.threads, (⟨2, 9⟩ : ThreadUid) < v) ∧
      IsLeast {v | v ∈ s.threads ∧ (⟨2, 9⟩ : ThreadUid) < v} (s.nextThread ⟨2, 9⟩) ∧
      s.threads ≠ ∅ ∧ (∀ v ∈ s.threads, ¬ (⟨3, 1⟩ : ThreadUid) < v) ∧
      IsLeast {v | v ∈ s.threads} (s.nextThread ⟨3, 1⟩) ∧
      s.canRun s.current = true ∧ ∃ s', s.sleep 5 = .ok s' ∧ s'.current = .main := by
  intro awake asleep s
  have hthree : (⟨3, 0⟩ : ThreadUid) ∈ s.threads := Std.ExtTreeMap.mem_insert_self
  have hcurrent : (⟨1, 7⟩ : ThreadUid) ∈ s.threads :=
    Std.ExtTreeMap.mem_insert.mpr (.inr Std.ExtTreeMap.mem_insert_self)
  have habove : ∃ v ∈ s.threads, (⟨2, 9⟩ : ThreadUid) < v := ⟨_, hthree, rfl⟩
  have hne : s.threads ≠ ∅ := by
    intro h
    rw [h] at hthree
    exact Std.ExtTreeMap.not_mem_empty hthree
  have hlast : ∀ v ∈ s.threads, ¬ (⟨3, 1⟩ : ThreadUid) < v := by
    have hkeys : ∀ v ∈ s.threads.keys, (compare v ⟨3, 1⟩).isLE = true := by decide +kernel
    intro v hv
    simp [ThreadUid.lt_iff_not_isLE, hkeys v (Std.ExtTreeMap.mem_keys.mpr hv)]
  obtain ⟨hround, hnext, hwrap, hsleep⟩ := nextThread_goesRound s
  obtain ⟨s', hs', hcurrent'⟩ := hsleep 5 (by decide) rfl
  rw [round_eq] at hcurrent'
  exact ⟨hcurrent, (hround _ hcurrent).1, (hround _ hcurrent).2, habove,
    hnext _ habove, hne, hlast, hwrap _ hne hlast, rfl, s', hs', hcurrent'⟩

end State

end PmemPaths.Execution
