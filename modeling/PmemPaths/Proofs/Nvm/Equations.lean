import PmemPaths.Proofs.Nvm.Outline
import PmemPaths.Proofs.Nvm.Priorities

/-!
# Static tables solve the call equations

The tables of a whole module are made in one pass over the components of the call graph.
They solve equations that say nothing of a pass (`StaticTables.Solves`,
`Session.staticTables_solve`): a direct call of a function that does not call back weighs
what it does by itself and the priority the callee starts with, everything else weighs what
it does by itself, and the priorities of a function are those that follow from its weights.

The components come callees first.  So when a component is finished, the callees outside it
have been finished before, and what a function starts with does not change any more
(`StaticTables.Finished`).  Functions do not share instructions, so finishing some leaves the
others alone.
-/

namespace PmemPaths.Ir.Module

variable {m : Module} {f g : FunctionId} {v : ValueId}

/-- A direct call of a function with a body, out of the component of the call graph that
the caller is in. -/
def CallsOut (m : Module) (f : FunctionId) (v : ValueId) (g : FunctionId) : Prop :=
  m.calledFunction? v = some g ∧ m.isDefined g = true ∧ ¬Graph.Mutual m.callGraphEdges f g

theorem CallsOut.calls (h : m.CallsOut f v g) (hv : v ∈ m.instructionsOf f) : m.Calls f g :=
  calls_iff.mpr ⟨v, hv, Option.filter_eq_some_iff.mpr ⟨h.1, h.2.1⟩⟩

theorem nodup_definedFunctions : m.definedFunctions.Nodup := by
  refine List.Nodup.filter _ (List.Nodup.map (fun i j hij => ?_) List.nodup_range)
  exact congrArg Id.index hij

/-- No function lists an instruction that another one lists. -/
theorem Built.nodup_instructions (h : m.Built) {fs : List FunctionId} (hfs : fs.Nodup) :
    (fs.flatMap m.instructionsOf).Nodup := by
  refine List.nodup_flatMap.mpr ⟨fun f _ => h.nodup_instructionsOf f, ?_⟩
  exact hfs.imp fun hne v hf hg => hne (h.function_unique hf hg)

theorem Built.notMem_instructions (h : m.Built) {fs : List FunctionId} (hf : f ∉ fs)
    (hv : v ∈ m.instructionsOf f) : ∀ g ∈ fs, v ∉ m.instructionsOf g :=
  fun _ hg hv' => hf (h.function_unique hv hv' ▸ hg)

/-- The instructions of functions with a body are all there are. -/
theorem mem_instructions : v ∈ m.definedFunctions.flatMap m.instructionsOf ↔
    ∃ f, v ∈ m.instructionsOf f := by
  rw [List.mem_flatMap]
  constructor
  · rintro ⟨f, -, hv⟩
    exact ⟨f, hv⟩
  · rintro ⟨f, hv⟩
    exact ⟨f, mem_definedFunctions.mpr (isDefined_of_mem hv), hv⟩

/-- The components of the call graph have the functions with a body as their members. -/
theorem mem_found_calls :
    (∃ c ∈ Graph.found m.definedFunctions m.callGraphEdges, f ∈ c) ↔ m.isDefined f = true := by
  rw [Graph.mem_found, Graph.Mentioned, mem_definedFunctions, or_iff_left_iff_imp]
  rintro ⟨g, hcalls | hcalls⟩
  · obtain ⟨v, -, hv⟩ := calls_iff.mp hcalls
    exact (Option.filter_eq_some_iff.mp hv).2
  · obtain ⟨v, hv, -⟩ := calls_iff.mp hcalls
    exact isDefined_of_mem hv

/-- A function that calls nothing does not call back. -/
theorem not_mutual_of_sink (hsink : ∀ e ∈ m.callGraphEdges, e.1 ≠ g) (hne : f ≠ g) :
    ¬Graph.Mutual m.callGraphEdges f g := by
  rintro ⟨-, hback⟩
  rcases Relation.ReflTransGen.cases_head hback with heq | ⟨k, hk, -⟩
  · exact hne heq.symm
  · exact hsink _ hk rfl

end PmemPaths.Ir.Module

namespace PmemPaths.Nvm

open PmemPaths.Ir
open PmemPaths.Graph (Partition)

namespace StaticTables

variable {m : Module} {core : ValueId → Nat} {t : StaticTables} {f g : FunctionId} {v : ValueId}
  {c fs done : List FunctionId} {p : Nat}

/-! ## The equations -/

/-- The priority that a table tells for the start of a function, which is its first
instruction that is not a phi. -/
def Starts (m : Module) (priorities : Table) (f : FunctionId) (p : Nat) : Prop :=
  ∃ e ∈ m.instructionsOf f, m.entryFirstNonPhi? f = some e ∧ priorities[e]? = some p

/-- The tables solve the call equations of a module whose instructions weigh so much by
themselves. -/
structure Solves (m : Module) (core : ValueId → Nat) (t : StaticTables) : Prop where
  /-- The instructions of functions with a body have a weight, and nothing else has. -/
  mem_weights : ∀ v, v ∈ t.weights ↔ ∃ f ∈ m.definedFunctions, v ∈ m.instructionsOf f
  /-- The same instructions have a priority. -/
  mem_priorities : ∀ v, v ∈ t.priorities ↔ ∃ f ∈ m.definedFunctions, v ∈ m.instructionsOf f
  /-- A call out of a component weighs also what the callee starts with. -/
  weight_callOut : ∀ f g v, v ∈ m.instructionsOf f → m.CallsOut f v g →
    ∃ p, Starts m t.priorities g p ∧ t.weights[v]? = some (addCapped (core v) p)
  /-- Everything else weighs what it does by itself. -/
  weight_other : ∀ f v, v ∈ m.instructionsOf f → (∀ g, ¬m.CallsOut f v g) →
    t.weights[v]? = some (core v)
  /-- The priorities of a function are those that follow from its weights. -/
  priority : ∀ f v, v ∈ m.instructionsOf f →
    t.priorities[v]? = (Nvm.priorities m f t.weights)[v]?

/-! ## Weighing the calls of a component -/

/-- The components of the call graph. -/
def callGraph (m : Module) : Partition FunctionId :=
  .ofEdges m.definedFunctions m.callGraphEdges

/-- What is known of the start of the function that a call calls, if the function is not in
the component of the caller. -/
def calleeStart? (m : Module) (entry : Std.ExtTreeMap FunctionId Nat) (f : FunctionId)
    (v : ValueId) : Option Nat :=
  ((m.calledFunction? v).filter (!(callGraph m).sameComponent f ·)).bind (entry[·]?)

/-- What an instruction weighs with what is known of its callee. -/
def raised (m : Module) (t : StaticTables) (f : FunctionId) (v : ValueId) : Option Nat :=
  (calleeStart? m t.entry f v).elim t.weights[v]? fun p => some (addCapped (t.weights.getD v 0) p)

theorem raised_of_weight {n : Nat} (h : t.weights[v]? = some n) :
    raised m t f v = some ((calleeStart? m t.entry f v).elim n (addCapped n)) := by
  rw [raised, Std.ExtTreeMap.getD_eq_getD_getElem?, h, Option.getD_some]
  cases calleeStart? m t.entry f v with
  | none => rfl
  | some p => rfl

/-- Adds to one call what is known of its callee. -/
def addCall (m : Module) (t : StaticTables) (e : FunctionId × ValueId) : StaticTables :=
  (calleeStart? m t.entry e.1 e.2).elim t fun p =>
    { t with weights := t.weights.insert e.2 (addCapped (t.weights.getD e.2 0) p) }

/-- The instructions of some functions, each with its function. -/
def owned (m : Module) (fs : List FunctionId) : List (FunctionId × ValueId) :=
  fs.flatMap fun f => (m.instructionsOf f).map fun v => (f, v)

theorem mem_owned : (f, v) ∈ owned m fs ↔ f ∈ fs ∧ v ∈ m.instructionsOf f := by
  simp only [owned, List.mem_flatMap, List.mem_map, Prod.mk.injEq]
  constructor
  · rintro ⟨g, hg, w, hw, rfl, rfl⟩
    exact ⟨hg, hw⟩
  · rintro ⟨hf, hv⟩
    exact ⟨f, hf, v, hv, rfl, rfl⟩

theorem map_snd_owned : (owned m fs).map (·.2) = fs.flatMap m.instructionsOf := by
  simp only [owned, List.map_flatMap, List.map_map, Function.comp_def, List.map_id']

/-- The calls of a component are added to one after the other. -/
theorem foldl_addCalls_eq (t : StaticTables) (fs : List FunctionId) :
    fs.foldl (addCalls m (callGraph m)) t = (owned m fs).foldl (addCall m) t := by
  rw [owned, List.foldl_flatMap]
  refine List.foldl_ext _ _ _ fun t f _ => ?_
  rw [List.foldl_map]
  refine List.foldl_ext _ _ _ fun t v _ => ?_
  rw [addCall, calleeStart?]
  cases (m.calledFunction? v).filter (!(callGraph m).sameComponent f ·) with
  | none => rfl
  | some g =>
    dsimp only [Option.bind_some]
    cases t.entry[g]? with
    | none => rfl
    | some p => rfl

theorem addCall_run (t : StaticTables) (e : FunctionId × ValueId) :
    ∃ weights, addCall m t e = { t with weights } ∧
      ∀ v, weights[v]? = if v = e.2 then raised m t e.1 e.2 else t.weights[v]? := by
  rw [addCall, raised]
  cases calleeStart? m t.entry e.1 e.2 with
  | none =>
    refine ⟨t.weights, rfl, fun v => ?_⟩
    split
    · next hv => rw [hv]; rfl
    · rfl
  | some p => exact ⟨_, rfl, fun v => Table.getElem?_insert _ _ _ _⟩

/-- Each call is added to once, and the weights of other instructions stay. -/
theorem foldl_addCall_run (es : List (FunctionId × ValueId)) (hes : (es.map (·.2)).Nodup)
    (t : StaticTables) : ∃ weights, es.foldl (addCall m) t = { t with weights } ∧
      (∀ f v, (f, v) ∈ es → weights[v]? = raised m t f v) ∧
      ∀ v, v ∉ es.map (·.2) → weights[v]? = t.weights[v]? := by
  induction es generalizing t with
  | nil => exact ⟨t.weights, rfl, fun _ _ h => absurd h List.not_mem_nil, fun _ _ => rfl⟩
  | cons e es ih =>
    rw [List.map_cons] at hes
    obtain ⟨he, hes⟩ := List.nodup_cons.mp hes
    obtain ⟨first, hfirst, hget⟩ := addCall_run (m := m) t e
    obtain ⟨weights, hrest, hraised, hkept⟩ := ih hes { t with weights := first }
    refine ⟨weights, by rw [List.foldl_cons, hfirst, hrest], ?_, ?_⟩
    · intro f v hmem
      rcases List.mem_cons.mp hmem with rfl | hmem
      · rw [hkept v he, hget v, if_pos rfl]
      · -- The call that was added to first is another one.
        have hne : v ≠ e.2 := fun heq => he (heq ▸ List.mem_map_of_mem (f := (·.2)) hmem)
        rw [hraised f v hmem, raised, raised, Std.ExtTreeMap.getD_eq_getD_getElem?,
          Std.ExtTreeMap.getD_eq_getD_getElem?]
        dsimp only
        rw [hget v, if_neg hne]
    · intro v hv
      rw [List.map_cons, List.mem_cons, not_or] at hv
      rw [hkept v hv.2, hget v, if_neg hv.1]

/-- Adding to the calls of some functions leaves all other weights alone. -/
theorem foldl_addCalls_run (hm : m.Built) (hfs : fs.Nodup) (t : StaticTables) :
    ∃ weights, fs.foldl (addCalls m (callGraph m)) t = { t with weights } ∧
      (∀ f ∈ fs, ∀ v ∈ m.instructionsOf f, weights[v]? = raised m t f v) ∧
      ∀ v, (∀ f ∈ fs, v ∉ m.instructionsOf f) → weights[v]? = t.weights[v]? := by
  have hnodup : ((owned m fs).map (·.2)).Nodup := map_snd_owned ▸ hm.nodup_instructions hfs
  obtain ⟨weights, hrun, hraised, hkept⟩ := foldl_addCall_run (owned m fs) hnodup t
  refine ⟨weights, (foldl_addCalls_eq t fs).trans hrun, ?_, ?_⟩
  · intro f hf v hv
    exact hraised f v (mem_owned.mpr ⟨hf, hv⟩)
  · intro v hv
    refine hkept v fun hmem => ?_
    rw [map_snd_owned] at hmem
    obtain ⟨f, hf, hv'⟩ := List.mem_flatMap.mp hmem
    exact hv f hf hv'

/-! ## Pricing the functions of a component -/

/-- What a function starts with when its weights are final. -/
def entryPriority (m : Module) (weights : Table) (f : FunctionId) : Nat :=
  ((m.entryFirstNonPhi? f).bind ((Nvm.priorities m f weights)[·]?)).getD 0

/-- A table that takes over the priorities of a function has them for its instructions. -/
theorem getElem?_insertMany_priorities (hm : m.Built) (weights known : Table) (f : FunctionId)
    (v : ValueId) : (known.insertMany (Nvm.priorities m f weights).toList)[v]? =
      if v ∈ m.instructionsOf f then (Nvm.priorities m f weights)[v]? else known[v]? := by
  have hmem : v ∈ Nvm.priorities m f weights ↔ v ∈ m.instructionsOf f :=
    (prioritiesAlong_prices hm fun _ _ => mem_flowEdges).mem_iff v
  rw [Table.getElem?_insertMany_toList]
  split
  · next hv =>
    obtain ⟨n, hn⟩ := exists_priority weights hv
    rw [hn, Option.some_or]
  · next hv => rw [Std.ExtTreeMap.getElem?_eq_none (mt hmem.mp hv), Option.none_or]

theorem addPriorities_mk (weights known : Table) (entry : Std.ExtTreeMap FunctionId Nat)
    (f : FunctionId) : addPriorities m ⟨weights, known, entry⟩ f =
      ⟨weights, known.insertMany (Nvm.priorities m f weights).toList,
        entry.insert f (entryPriority m weights f)⟩ := by
  rw [addPriorities]
  rfl

/-- Pricing some functions leaves the priorities of the others alone. -/
theorem foldl_addPriorities_run (hm : m.Built) (hfs : fs.Nodup) (weights known : Table)
    (entry : Std.ExtTreeMap FunctionId Nat) :
    ∃ known' entry', fs.foldl (addPriorities m) ⟨weights, known, entry⟩ =
        ⟨weights, known', entry'⟩ ∧
      (∀ f ∈ fs, ∀ v ∈ m.instructionsOf f, known'[v]? = (Nvm.priorities m f weights)[v]?) ∧
      (∀ v, (∀ f ∈ fs, v ∉ m.instructionsOf f) → known'[v]? = known[v]?) ∧
      ∀ g, entry'[g]? = if g ∈ fs then some (entryPriority m weights g) else entry[g]? := by
  induction fs generalizing known entry with
  | nil =>
    exact ⟨known, entry, rfl, fun _ h => absurd h List.not_mem_nil, fun _ _ => rfl, fun _ => rfl⟩
  | cons f fs ih =>
    obtain ⟨hf, hfs⟩ := List.nodup_cons.mp hfs
    obtain ⟨known', entry', hrun, hpriced, hkept, hentry⟩ := ih hfs
      (known.insertMany (Nvm.priorities m f weights).toList)
      (entry.insert f (entryPriority m weights f))
    refine ⟨known', entry', by rw [List.foldl_cons, addPriorities_mk, hrun], ?_, ?_, ?_⟩
    · intro g hg v hv
      rcases List.mem_cons.mp hg with rfl | hg
      · rw [hkept v (hm.notMem_instructions hf hv), getElem?_insertMany_priorities hm, if_pos hv]
      · exact hpriced g hg v hv
    · intro v hv
      rw [List.forall_mem_cons] at hv
      rw [hkept v hv.2, getElem?_insertMany_priorities hm, if_neg hv.1]
    · intro g
      rw [hentry g]
      simp only [Std.ExtTreeMap.getElem?_insert, Std.compare_eq_iff_eq]
      by_cases hg : g ∈ fs
      · rw [if_pos hg, if_pos (List.mem_cons_of_mem _ hg)]
      · simp only [List.mem_cons, hg, or_false, if_false]
        by_cases heq : f = g
        · rw [if_pos heq, if_pos heq.symm, heq]
        · rw [if_neg heq, if_neg (Ne.symm heq)]

/-! ## What finishing a component does -/

/-- The calls of a component are added to and its functions are priced; the rest of the tables
stays. -/
structure Finishes (m : Module) (c : List FunctionId) (t t' : StaticTables) : Prop where
  weight : ∀ f ∈ c, ∀ v ∈ m.instructionsOf f, t'.weights[v]? = raised m t f v
  weight_kept : ∀ v, (∀ f ∈ c, v ∉ m.instructionsOf f) → t'.weights[v]? = t.weights[v]?
  priority : ∀ f ∈ c, ∀ v ∈ m.instructionsOf f,
    t'.priorities[v]? = (Nvm.priorities m f t'.weights)[v]?
  priority_kept : ∀ v, (∀ f ∈ c, v ∉ m.instructionsOf f) → t'.priorities[v]? = t.priorities[v]?
  entry : ∀ g, t'.entry[g]? = if g ∈ c then some (entryPriority m t'.weights g) else t.entry[g]?

theorem addComponent_finishes (hm : m.Built) (hc : c.Nodup) (t : StaticTables) :
    Finishes m c t (addComponent m (callGraph m) t c) := by
  obtain ⟨weights, hweighed, hraised, hweights⟩ := foldl_addCalls_run hm hc t
  obtain ⟨priorities, entry, hpriced, hpriorities, hkept, hentry⟩ :=
    foldl_addPriorities_run hm hc weights t.priorities t.entry
  have hrun : addComponent m (callGraph m) t c = ⟨weights, priorities, entry⟩ := by
    rw [addComponent, hweighed, hpriced]
  rw [hrun]
  exact ⟨hraised, hweights, hpriorities, hkept, hentry⟩

theorem Starts.congr {priorities priorities' : Table} (h : Starts m priorities f p)
    (heq : ∀ v ∈ m.instructionsOf f, priorities'[v]? = priorities[v]?) :
    Starts m priorities' f p := by
  obtain ⟨e, he, hfirst, hp⟩ := h
  exact ⟨e, he, hfirst, (heq e he).trans hp⟩

/-- Nothing but instructions of functions is in a table. -/
def OnlyInstructions (m : Module) (t : Table) : Prop := ∀ v ∈ t, ∃ f, v ∈ m.instructionsOf f

theorem OnlyInstructions.of_kept {known known' : Table} (h : OnlyInstructions m known)
    (hkept : ∀ v, (∀ f ∈ c, v ∉ m.instructionsOf f) → known'[v]? = known[v]?) :
    OnlyInstructions m known' := by
  intro v hv
  by_contra hnone
  have hnot : ∀ f ∈ c, v ∉ m.instructionsOf f := fun f _ hv' => hnone ⟨f, hv'⟩
  rw [Std.ExtTreeMap.mem_iff_isSome_getElem?, hkept v hnot,
    ← Std.ExtTreeMap.mem_iff_isSome_getElem?] at hv
  exact hnone (h v hv)

section Finishes

variable {t' : StaticTables} (h : Finishes m c t t') (hm : m.Built)

include h hm

theorem Finishes.weight_other (hf : f ∉ c) :
    ∀ v ∈ m.instructionsOf f, t'.weights[v]? = t.weights[v]? :=
  fun v hv => h.weight_kept v (hm.notMem_instructions hf hv)

theorem Finishes.priority_other (hf : f ∉ c) :
    ∀ v ∈ m.instructionsOf f, t'.priorities[v]? = t.priorities[v]? :=
  fun v hv => h.priority_kept v (hm.notMem_instructions hf hv)

/-- It is known what the functions of the component start with. -/
theorem Finishes.starts (hf : f ∈ c) (hdef : m.isDefined f = true) :
    ∃ p, t'.entry[f]? = some p ∧ Starts m t'.priorities f p := by
  obtain ⟨e, he, hfirst⟩ := hm.exists_entryFirstNonPhi hdef
  obtain ⟨p, hp⟩ := exists_priority t'.weights he
  refine ⟨p, ?_, e, he, hfirst, (h.priority f hf e he).trans hp⟩
  rw [h.entry f, if_pos hf, entryPriority, hfirst, Option.bind_some, hp, Option.getD_some]

end Finishes

/-! ## Finished functions -/

/-- Some functions are finished: they solve the equations, and it is known what they start
with.  Of the others only the weights by themselves are known. -/
structure Finished (m : Module) (core : ValueId → Nat) (done : List FunctionId)
    (t : StaticTables) : Prop where
  waiting : ∀ f ∉ done, ∀ v ∈ m.instructionsOf f, t.weights[v]? = some (core v)
  entry_waiting : ∀ f ∉ done, t.entry[f]? = none
  entry : ∀ f ∈ done, ∃ p, t.entry[f]? = some p ∧ Starts m t.priorities f p
  /-- What is called out of a component is finished, too, so it starts with that for good. -/
  weight_callOut : ∀ f ∈ done, ∀ v ∈ m.instructionsOf f, ∀ g, m.CallsOut f v g → g ∈ done ∧
    ∃ p, Starts m t.priorities g p ∧ t.weights[v]? = some (addCapped (core v) p)
  weight_other : ∀ f ∈ done, ∀ v ∈ m.instructionsOf f, (∀ g, ¬m.CallsOut f v g) →
    t.weights[v]? = some (core v)
  priority : ∀ f ∈ done, ∀ v ∈ m.instructionsOf f,
    t.priorities[v]? = (Nvm.priorities m f t.weights)[v]?
  weights_only : OnlyInstructions m t.weights
  priorities_only : OnlyInstructions m t.priorities

theorem sameComponent_iff : (callGraph m).sameComponent f g = true ↔
    Graph.Mutual m.callGraphEdges f g :=
  (Partition.ofEdges_isComponents _ _).sameComponent_iff f g

/-- What a finished callee starts with is known when a call out of a component is looked at. -/
theorem Finished.calleeStart?_callOut (h : Finished m core done t) (hout : m.CallsOut f v g)
    (hg : g ∈ done) : ∃ p, calleeStart? m t.entry f v = some p ∧ Starts m t.priorities g p := by
  obtain ⟨p, hp, hstarts⟩ := h.entry g hg
  obtain ⟨hcalled, -, hapart⟩ := hout
  refine ⟨p, ?_, hstarts⟩
  rw [calleeStart?, hcalled, Option.filter_some, if_pos, Option.bind_some, hp]
  rwa [Bool.not_eq_true', ← Bool.not_eq_true, sameComponent_iff]

/-- Nothing is known for other calls. -/
theorem Finished.calleeStart?_other (h : Finished m core done t)
    (hother : ∀ g, ¬m.CallsOut f v g) : calleeStart? m t.entry f v = none := by
  rw [calleeStart?, Option.bind_eq_none_iff]
  intro g hg
  obtain ⟨hcalled, hapart⟩ := Option.filter_eq_some_iff.mp hg
  rw [Bool.not_eq_true', ← Bool.not_eq_true, sameComponent_iff] at hapart
  -- A finished function has a body, and then it would be a call out of the component.
  refine h.entry_waiting g fun hdone => ?_
  obtain ⟨p, -, e, he, -⟩ := h.entry g hdone
  exact hother g ⟨hcalled, Module.isDefined_of_mem he, hapart⟩

/-- Finishing a component whose callees outside are finished finishes its functions. -/
theorem Finished.component (hm : m.Built) (h : Finished m core done t) (hnodup : c.Nodup)
    (hnew : ∀ f ∈ c, f ∉ done) (hdefined : ∀ f ∈ c, m.isDefined f = true)
    (hleave : ∀ f ∈ c, ∀ v ∈ m.instructionsOf f, ∀ g, m.CallsOut f v g → g ∈ done) :
    Finished m core (done ++ c) (addComponent m (callGraph m) t c) := by
  have hrun := addComponent_finishes hm hnodup t
  have hraised : ∀ f ∈ c, ∀ v ∈ m.instructionsOf f,
      (addComponent m (callGraph m) t c).weights[v]? =
        some ((calleeStart? m t.entry f v).elim (core v) (addCapped (core v))) :=
    fun f hf v hv => (hrun.weight f hf v hv).trans
      (raised_of_weight (h.waiting f (hnew f hf) v hv))
  have hdone : ∀ f ∈ done ++ c, f ∉ c → f ∈ done :=
    fun f hf hc => (List.mem_append.mp hf).resolve_right hc
  have hstarts : ∀ f ∈ done, ∀ p, Starts m t.priorities f p → Starts m _ f p :=
    fun f hf p hp => hp.congr (hrun.priority_other hm fun hc => hnew f hc hf)
  refine ⟨?waiting, ?entry_waiting, ?entry, ?callOut, ?other, ?priority,
    h.weights_only.of_kept hrun.weight_kept, h.priorities_only.of_kept hrun.priority_kept⟩
  case waiting =>
    intro f hf v hv
    rw [List.mem_append, not_or] at hf
    rw [hrun.weight_other hm hf.2 v hv, h.waiting f hf.1 v hv]
  case entry_waiting =>
    intro f hf
    rw [List.mem_append, not_or] at hf
    rw [hrun.entry f, if_neg hf.2, h.entry_waiting f hf.1]
  case entry =>
    intro f hf
    by_cases hc : f ∈ c
    · exact hrun.starts hm hc (hdefined f hc)
    · obtain ⟨p, hp, hstart⟩ := h.entry f (hdone f hf hc)
      exact ⟨p, by rw [hrun.entry f, if_neg hc, hp], hstarts f (hdone f hf hc) p hstart⟩
  case callOut =>
    intro f hf v hv g hcall
    by_cases hc : f ∈ c
    · have hg := hleave f hc v hv g hcall
      obtain ⟨p, hp, hstart⟩ := h.calleeStart?_callOut hcall hg
      refine ⟨List.mem_append_left _ hg, p, hstarts g hg p hstart, ?_⟩
      rw [hraised f hc v hv, hp, Option.elim_some]
    · obtain ⟨hg, p, hstart, hp⟩ := h.weight_callOut f (hdone f hf hc) v hv g hcall
      refine ⟨List.mem_append_left _ hg, p, hstarts g hg p hstart, ?_⟩
      rw [hrun.weight_other hm hc v hv, hp]
  case other =>
    intro f hf v hv hother
    by_cases hc : f ∈ c
    · rw [hraised f hc v hv, h.calleeStart?_other hother, Option.elim_none]
    · rw [hrun.weight_other hm hc v hv, h.weight_other f (hdone f hf hc) v hv hother]
  case priority =>
    intro f hf v hv
    by_cases hc : f ∈ c
    · exact hrun.priority f hc v hv
    · rw [hrun.priority_other hm hc v hv, h.priority f (hdone f hf hc) v hv,
        priorities_congr hm (hrun.weight_other hm hc)]

/-! ## The whole pass -/

/-- The weights by themselves, in a table. -/
def coreTable (m : Module) (core : ValueId → Nat) : Table :=
  .ofList ((m.definedFunctions.flatMap m.instructionsOf).map fun v => (v, core v))

theorem getElem?_coreTable (hm : m.Built) (core : ValueId → Nat) (v : ValueId) :
    (coreTable m core)[v]? =
      if v ∈ m.definedFunctions.flatMap m.instructionsOf then some (core v) else none :=
  Context.getElem?_ofList_map (hm.nodup_instructions Module.nodup_definedFunctions) core v

theorem Finished.start (hm : m.Built) (core : ValueId → Nat) :
    Finished m core [] ⟨coreTable m core, ∅, ∅⟩ where
  waiting f _ v hv := by
    rw [getElem?_coreTable hm, if_pos (Module.mem_instructions.mpr ⟨f, hv⟩)]
  entry_waiting f _ := Std.ExtTreeMap.getElem?_empty
  entry f hf := absurd hf List.not_mem_nil
  weight_callOut f hf := absurd hf List.not_mem_nil
  weight_other f hf := absurd hf List.not_mem_nil
  priority f hf := absurd hf List.not_mem_nil
  weights_only v hv := by
    rw [Std.ExtTreeMap.mem_iff_isSome_getElem?, getElem?_coreTable hm] at hv
    split at hv
    · next hmem => exact Module.mem_instructions.mp hmem
    · cases hv
  priorities_only v hv := absurd hv Std.ExtTreeMap.not_mem_empty

/-- When the components are finished, their functions are. -/
theorem finished_found (hm : m.Built) (core : ValueId → Nat) :
    Finished m core (Graph.found m.definedFunctions m.callGraphEdges).flatten
      ((Graph.found m.definedFunctions m.callGraphEdges).foldl (addComponent m (callGraph m))
        ⟨coreTable m core, ∅, ∅⟩) := by
  refine Graph.foldl_found _ _ (P := Finished m core) (.start hm core) ?_
  intro done t c h hc hnodup hnew hleave _
  refine h.component hm hnodup hnew (fun f hf => Module.mem_found_calls.mp ⟨c, hc, hf⟩) ?_
  intro f hf v hv g hcall
  refine (hleave f hf g (hcall.calls hv)).resolve_left fun hg => ?_
  exact hcall.2.2 ((Graph.mem_found_iff_mutual _ _ hc hf).mp hg)

/-- The tables of a built module solve the equations. -/
theorem ofCoreWeights_solves (hm : m.Built) (core : ValueId → Nat) :
    Solves m core (ofCoreWeights m (coreTable m core)) := by
  have h : Finished m core (Graph.found m.definedFunctions m.callGraphEdges).flatten
      (ofCoreWeights m (coreTable m core)) := finished_found hm core
  have hdone : ∀ f v, v ∈ m.instructionsOf f →
      f ∈ (Graph.found m.definedFunctions m.callGraphEdges).flatten := by
    intro f v hv
    rw [List.mem_flatten, Module.mem_found_calls]
    exact Module.isDefined_of_mem hv
  have hdefined : ∀ v, (∃ f ∈ m.definedFunctions, v ∈ m.instructionsOf f) ↔
      ∃ f, v ∈ m.instructionsOf f := fun v => by rw [← Module.mem_instructions, List.mem_flatMap]
  refine ⟨?weights, ?priorities, ?callOut, ?other, ?priority⟩
  case weights =>
    intro v
    rw [hdefined]
    refine ⟨h.weights_only v, ?_⟩
    rintro ⟨f, hv⟩
    rw [Std.ExtTreeMap.mem_iff_isSome_getElem?]
    by_cases hout : ∃ g, m.CallsOut f v g
    · obtain ⟨g, hg⟩ := hout
      obtain ⟨-, p, -, hp⟩ := h.weight_callOut f (hdone f v hv) v hv g hg
      rw [hp]
      rfl
    · rw [h.weight_other f (hdone f v hv) v hv (not_exists.mp hout)]
      rfl
  case priorities =>
    intro v
    rw [hdefined]
    refine ⟨h.priorities_only v, ?_⟩
    rintro ⟨f, hv⟩
    obtain ⟨n, hn⟩ := exists_priority (ofCoreWeights m (coreTable m core)).weights hv
    rw [Std.ExtTreeMap.mem_iff_isSome_getElem?, h.priority f (hdone f v hv) v hv, hn]
    rfl
  case callOut =>
    intro f g v hv hcall
    exact (h.weight_callOut f (hdone f v hv) v hv g hcall).2
  case other =>
    intro f v hv hother
    exact h.weight_other f (hdone f v hv) v hv hother
  case priority =>
    intro f v hv
    exact h.priority f (hdone f v hv) v hv

end StaticTables

namespace Session

variable {a : Analysis}

/-- The weights by themselves are those that the session gives for each instruction. -/
theorem coreTable_answers (d : Facts) :
    Quiet (a := a) (coreTable d) (· = StaticTables.coreTable a.module (d.coreWeight a false)) :=
  (weights_quiet d false _).bind fun b hb => .pure (by rw [hb]; rfl)

theorem staticTables_answers (d : Facts) : Quiet (a := a) (staticTables d)
    (· = .ofCoreWeights a.module (StaticTables.coreTable a.module (d.coreWeight a false))) :=
  (coreTable_answers d).bind fun b hb => .pure (by rw [hb])

/-- In a built module, whatever the facts and whatever was asked before, the static tables
solve the equations for what the instructions weigh by themselves, where returns weigh
nothing. -/
theorem staticTables_solve {l : Listing} (hl : l.build = .ok a.module) (d : Facts)
    (s s' : Session a) :
    (staticTables d s).1.Solves a.module fun v => (coreWeight d false v s').1 := by
  have hcore : (fun v => (coreWeight d false v s').1) = d.coreWeight a false :=
    funext fun v => coreWeight_quiet.answer s'
  rw [hcore, (staticTables_answers d).answer s]
  exact StaticTables.ofCoreWeights_solves (Listing.build_built hl) _

/-- Two functions that call each other, and one of them calls a third one, which fences. -/
def mutualCallsAndFence : Listing where
  name := "m"
  items := [.declare "sfence" [] false, .declare "log" [] false, .declare "even" [] false,
    .declare "odd" [] false,
    .define ⟨1⟩ [.instruction "" (.call (.direct ⟨0⟩) []), .ret none],
    .define ⟨2⟩ [.instruction "r" (.call (.direct ⟨3⟩) []),
      .instruction "" (.call (.direct ⟨1⟩) []), .ret none],
    .define ⟨3⟩ [.instruction "s" (.call (.direct ⟨2⟩) []), .ret none]]

/-- The call of the third function weighs what that one starts with, and the call of the
other one of the two nothing but what it does by itself. -/
theorem staticTables_solve_mutualCallsAndFence : ∃ m, mutualCallsAndFence.build = .ok m ∧
    ∀ pointsTo (d : Facts) (s s' : Session ⟨m, pointsTo⟩),
      let t := (staticTables d s).1
      (∃ p, StaticTables.Starts m t.priorities ⟨1⟩ p ∧
        t.weights[(⟨7⟩ : ValueId)]? = some (addCapped (coreWeight d false ⟨7⟩ s').1 p)) ∧
      t.weights[(⟨6⟩ : ValueId)]? = some (coreWeight d false ⟨6⟩ s').1 := by
  obtain ⟨m, hl, hin, hout, hodd, hlog, hdef, hsink, hmutual⟩ := Listing.exists_build
    (l := mutualCallsAndFence) (p := fun m => ⟨6⟩ ∈ m.instructionsOf ⟨2⟩ ∧
      ⟨7⟩ ∈ m.instructionsOf ⟨2⟩ ∧ m.calledFunction? ⟨6⟩ = some ⟨3⟩ ∧
      m.calledFunction? ⟨7⟩ = some ⟨1⟩ ∧ m.isDefined ⟨1⟩ = true ∧
      (∀ e ∈ m.callGraphEdges, e.1 ≠ ⟨1⟩) ∧
      (⟨2⟩, ⟨3⟩) ∈ m.callGraphEdges ∧ (⟨3⟩, ⟨2⟩) ∈ m.callGraphEdges) (by decide +kernel)
  refine ⟨m, hl, fun pointsTo d s s' => ?_⟩
  have hsolves := staticTables_solve (a := ⟨m, pointsTo⟩) hl d s s'
  refine ⟨hsolves.weight_callOut ⟨2⟩ ⟨1⟩ ⟨7⟩ hout ?_, hsolves.weight_other ⟨2⟩ ⟨6⟩ hin ?_⟩
  · exact ⟨hlog, hdef, Module.not_mutual_of_sink hsink (by decide)⟩
  · rintro g ⟨hcalled, -, hapart⟩
    rw [hodd, Option.some.injEq] at hcalled
    exact hapart (hcalled ▸ ⟨.single hmutual.1, .single hmutual.2⟩)

end Session

end PmemPaths.Nvm
