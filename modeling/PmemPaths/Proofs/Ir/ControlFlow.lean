import PmemPaths.Proofs.Ir.Listed

/-!
# Control flow in built modules

In a module that was built (`Module.Built`) control does not leave a function but by a
call or a return: the successors of an instruction of a function are instructions of
that function (`Built.successors_subset`).  Nor does it come back to the start of a
function by going on: what follows an instruction in its block is not what the function
starts with (`Built.next_ne_first`).  Functions do not share instructions
(`Built.function_unique`), and each one with a body has an instruction to start with that is
not a phi (`Built.exists_entryFirstNonPhi`).
-/

namespace PmemPaths.Ir

namespace Module

variable {m : Module} {f g : FunctionId} {b : BlockId} {v w : ValueId} {i : Instruction}

/-- The module was written line by line and passes its checks. -/
structure Built (m : Module) : Prop where
  linked : m.Linked
  listed : m.Listed
  check : m.check = .ok ()

/-! ## Instructions and the blocks that list them -/

theorem mem_instsOf : v ∈ m.instsOf b ↔ ∃ blk, m.block? b = some blk ∧ v ∈ blk.insts := by
  rw [instsOf]
  cases m.block? b with
  | none => simp
  | some blk => simp

theorem mem_blocksOf : b ∈ m.blocksOf f ↔ ∃ fn, m.function? f = some fn ∧ b ∈ fn.blocks := by
  rw [blocksOf]
  cases m.function? f with
  | none => simp
  | some fn => simp

theorem Listed.instruction_of_mem (h : m.Listed) (hv : v ∈ m.instsOf b) :
    ∃ i, m.instruction? v = some i ∧ i.block = b := by
  obtain ⟨blk, hb, hv⟩ := mem_instsOf.mp hv
  exact h.inst b blk hb v hv

theorem Listed.block_of_mem (h : m.Listed) (hb : b ∈ m.blocksOf f) :
    ∃ blk, m.block? b = some blk ∧ blk.function = f := by
  obtain ⟨fn, hf, hb⟩ := mem_blocksOf.mp hb
  exact h.block f fn hf b hb

theorem Listed.nodup_instsOf (h : m.Listed) (b : BlockId) : (m.instsOf b).Nodup := by
  rw [instsOf]
  cases hb : m.block? b with
  | none => exact List.nodup_nil
  | some blk => exact h.insts_nodup b blk hb

theorem Listed.nodup_blocksOf (h : m.Listed) (f : FunctionId) : (m.blocksOf f).Nodup := by
  rw [blocksOf]
  cases hf : m.function? f with
  | none => exact List.nodup_nil
  | some fn => exact h.blocks_nodup f fn hf

/-- A block is listed by the function that it names, and by no other. -/
theorem Built.mem_blocksOf_iff (h : m.Built) {blk : Block} (hb : m.block? b = some blk) :
    b ∈ m.blocksOf f ↔ blk.function = f := by
  constructor
  · intro hmem
    obtain ⟨blk', hb', hf⟩ := h.listed.block_of_mem hmem
    rw [hb, Option.some.injEq] at hb'
    rw [hb', hf]
  · rintro rfl
    exact mem_blocksOf.mpr (h.linked.block b blk hb)

/-- An instruction is listed by the block that it names, and by no other. -/
theorem Built.mem_instsOf_iff (h : m.Built) (hi : m.instruction? v = some i) :
    v ∈ m.instsOf b ↔ i.block = b := by
  constructor
  · intro hmem
    obtain ⟨j, hj, hb⟩ := h.listed.instruction_of_mem hmem
    rw [hi, Option.some.injEq] at hj
    rw [hj, hb]
  · rintro rfl
    exact mem_instsOf.mpr (h.linked.instruction v i hi)

/-- The instructions of a function are those of its blocks. -/
theorem Built.mem_instructionsOf_iff (h : m.Built) :
    v ∈ m.instructionsOf f ↔ ∃ i, m.instruction? v = some i ∧ i.block ∈ m.blocksOf f := by
  rw [mem_instructionsOf]
  constructor
  · rintro ⟨⟨b, hb, hv⟩, i, hi⟩
    obtain rfl := (h.mem_instsOf_iff hi).mp hv
    exact ⟨i, hi, hb⟩
  · rintro ⟨i, hi, hb⟩
    exact ⟨⟨i.block, hb, (h.mem_instsOf_iff hi).mpr rfl⟩, i, hi⟩

/-- A function lists an instruction once. -/
theorem Built.nodup_instructionsOf (h : m.Built) (f : FunctionId) :
    (m.instructionsOf f).Nodup := by
  refine List.Nodup.filter _ (List.nodup_flatMap.mpr ⟨fun b _ => h.listed.nodup_instsOf b, ?_⟩)
  refine (h.listed.nodup_blocksOf f).imp fun {b c} hbc v hb hc => ?_
  -- An instruction names one block only.
  obtain ⟨i, hi, hib⟩ := h.listed.instruction_of_mem hb
  exact hbc (hib.symm.trans ((h.mem_instsOf_iff hi).mp hc))

/-- An instruction is an instruction of one function. -/
theorem Built.function_unique (h : m.Built) (hf : v ∈ m.instructionsOf f)
    (hg : v ∈ m.instructionsOf g) : f = g := by
  obtain ⟨i, hi, hb⟩ := h.mem_instructionsOf_iff.mp hf
  obtain ⟨j, hj, hc⟩ := h.mem_instructionsOf_iff.mp hg
  rw [hi, Option.some.injEq] at hj
  subst hj
  -- The block names one function only.
  obtain ⟨blk, hblk, hf⟩ := h.listed.block_of_mem hb
  exact hf.symm.trans ((h.mem_blocksOf_iff hblk).mp hc)

theorem isDefined_of_mem (hv : v ∈ m.instructionsOf f) : m.isDefined f = true := by
  obtain ⟨⟨b, hb, -⟩, -⟩ := mem_instructionsOf.mp hv
  obtain ⟨fn, hf, hb⟩ := mem_blocksOf.mp hb
  exact isDefined_iff.mpr ⟨fn, hf, List.ne_nil_of_mem hb⟩

theorem isSome_of_isDefined (h : m.isDefined f = true) : (m.function? f).isSome = true :=
  Option.isSome_of_any h

theorem Built.firstInstruction_mem (h : m.Built) (hw : m.firstInstruction? f = some w) :
    w ∈ m.instructionsOf f := by
  obtain ⟨b, hb, hw⟩ := Option.bind_eq_some_iff.mp hw
  have hwb := List.mem_of_mem_head? hw
  obtain ⟨i, hi, -⟩ := h.listed.instruction_of_mem hwb
  exact mem_instructionsOf.mpr ⟨⟨b, List.mem_of_mem_head? hb, hwb⟩, i, hi⟩

theorem isCall_of_calledFunction? (h : m.calledFunction? v = some f) : m.isCall v = true := by
  rw [calledFunction?] at h
  split at h
  · next hop =>
    rw [isCall, hop]
    rfl
  · cases h

theorem isReturn_of_isCall (h : m.isCall v = true) : m.isReturn v = false := by
  obtain ⟨op, hop, hcall⟩ := (Option.any_eq_true _ _).mp h
  rw [isReturn, hop]
  cases op with
  | ret r => cases hcall
  | alloca | load p | store x p | gep x ix | cast x | phi inc | call g xs | branch x bs
  | unreachable | other xs => rfl

/-! ## What the checks say -/

/-- A block that passes ends in a terminator, and its instructions pass. -/
theorem checkBlock_eq_ok {blk : Block} (hb : m.block? b = some blk)
    (h : m.checkBlock f b = .ok ()) :
    (∃ last, blk.insts.getLast? = some last ∧ m.isTerminator last = true) ∧
      ∀ v ∈ blk.insts, m.checkInstruction f v = .ok () := by
  rw [checkBlock, hb] at h
  dsimp only at h
  split at h
  · cases h
  · next last hlast =>
    split at h
    · cases h
    · next hends =>
      split at h
      · cases h
      · exact ⟨⟨last, hlast, by simpa using hends⟩, forM_eq_ok.mp h⟩

/-- The blocks that functions list exist and pass. -/
theorem Built.checkBlock (h : m.Built) (hb : b ∈ m.blocksOf f) :
    ∃ blk, m.block? b = some blk ∧ m.checkBlock f b = .ok () := by
  obtain ⟨blk, hblk, -⟩ := h.listed.block_of_mem hb
  obtain ⟨fn, hf, hmem⟩ := mem_blocksOf.mp hb
  have hdef := isDefined_iff.mpr ⟨fn, hf, List.ne_nil_of_mem hmem⟩
  have hcheck := forM_eq_ok.mp h.check f (mem_definedFunctions.mpr hdef)
  exact ⟨blk, hblk, forM_eq_ok.mp hcheck b hb⟩

/-- A block ends in a terminator. -/
theorem Built.exists_last (h : m.Built) (hb : b ∈ m.blocksOf f) :
    ∃ last, (m.instsOf b).getLast? = some last ∧ m.isTerminator last = true := by
  obtain ⟨blk, hblk, hcheck⟩ := h.checkBlock hb
  rw [instsOf, hblk]
  exact (checkBlock_eq_ok hblk hcheck).1

theorem Built.exists_head (h : m.Built) (hb : b ∈ m.blocksOf f) :
    ∃ w, (m.instsOf b).head? = some w := by
  obtain ⟨last, hlast, -⟩ := h.exists_last hb
  exact ⟨_, List.head?_eq_some_head (List.ne_nil_of_mem (List.mem_of_getLast? hlast))⟩

/-- A function with a body has a block to start with. -/
theorem exists_entryBlock (hdef : m.isDefined f = true) :
    ∃ b ∈ m.blocksOf f, m.entryBlock? f = some b := by
  obtain ⟨fn, hf, hblocks⟩ := isDefined_iff.mp hdef
  have hentry : m.entryBlock? f = some (fn.blocks.head hblocks) := by
    rw [entryBlock?, blocksOf, hf]
    exact List.head?_eq_some_head hblocks
  exact ⟨_, List.mem_of_mem_head? hentry, hentry⟩

/-- A function with a body has an instruction to start with. -/
theorem Built.exists_firstInstruction (h : m.Built) (hdef : m.isDefined f = true) :
    ∃ w, m.firstInstruction? f = some w := by
  obtain ⟨b, hb, hentry⟩ := exists_entryBlock hdef
  obtain ⟨w, hw⟩ := h.exists_head hb
  exact ⟨w, by rw [firstInstruction?, hentry, Option.bind_some, hw]⟩

/-- A function with a body has a first instruction that is not a phi. -/
theorem Built.exists_entryFirstNonPhi (h : m.Built) (hdef : m.isDefined f = true) :
    ∃ e ∈ m.instructionsOf f, m.entryFirstNonPhi? f = some e := by
  obtain ⟨b, hb, hentry⟩ := exists_entryBlock hdef
  obtain ⟨last, hlast, hends⟩ := h.exists_last hb
  -- If nothing else is found, the terminator is.
  have hnonPhi : (m.operation? last).any (!·.isPhi) = true := by
    obtain ⟨op, hop, hterminator⟩ := (Option.any_eq_true _ _).mp hends
    rw [hop, Option.any_some]
    cases op with
    | phi inc => cases hterminator
    | alloca | load p | store x p | gep x ix | cast x | call g xs | ret r | branch x bs
    | unreachable | other xs => rfl
  have hfound : ((m.instsOf b).find? fun v => (m.operation? v).any (!·.isPhi)).isSome = true :=
    List.find?_isSome.mpr ⟨last, List.mem_of_getLast? hlast, hnonPhi⟩
  obtain ⟨e, he⟩ := Option.isSome_iff_exists.mp hfound
  have hmem := List.mem_of_find?_eq_some he
  obtain ⟨i, hi, -⟩ := h.listed.instruction_of_mem hmem
  refine ⟨e, mem_instructionsOf.mpr ⟨⟨b, hb, hmem⟩, i, hi⟩, ?_⟩
  rw [entryFirstNonPhi?, hentry, Option.bind_some, he]

theorem Built.checkInstruction (h : m.Built) (hv : v ∈ m.instructionsOf f) :
    m.checkInstruction f v = .ok () := by
  obtain ⟨⟨b, hb, hv⟩, -⟩ := mem_instructionsOf.mp hv
  obtain ⟨blk, hblk, hcheck⟩ := h.checkBlock hb
  rw [instsOf, hblk] at hv
  exact (checkBlock_eq_ok hblk hcheck).2 v hv

/-- A branch stays in its function. -/
theorem Built.target_mem (h : m.Built) (hv : v ∈ m.instructionsOf f) {c : Option ValueId}
    {targets : List BlockId} (hop : m.operation? v = some (.branch c targets))
    (hb : b ∈ targets) : b ∈ m.blocksOf f := by
  have hcheck := h.checkInstruction hv
  rw [Module.checkInstruction, hop] at hcheck
  dsimp only at hcheck
  split at hcheck
  · cases hcheck
  · next hforeign =>
    have hnot : m.isForeign f b = false := by
      simpa using fun hb' => hforeign (List.any_eq_true.mpr ⟨b, hb, hb'⟩)
    rw [isForeign] at hnot
    cases hblk : m.block? b with
    | none =>
      rw [hblk] at hnot
      cases hnot
    | some blk =>
      rw [hblk] at hnot
      exact (h.mem_blocksOf_iff hblk).mpr (by simpa using hnot)

/-! ## Successors -/

theorem mem_of_next? {vs : List ValueId} (h : next? v vs = some w) : w ∈ vs := by
  induction vs with
  | nil => cases h
  | cons u us ih =>
    rw [next?] at h
    split at h
    · exact List.mem_cons_of_mem _ (List.mem_of_mem_head? h)
    · exact List.mem_cons_of_mem _ (ih h)

/-- What follows a value is not the head of the list. -/
theorem head?_ne_of_next? {vs : List ValueId} (hnodup : vs.Nodup) (h : next? v vs = some w) :
    vs.head? ≠ some w := by
  cases vs with
  | nil => cases h
  | cons u us =>
    have htail : w ∈ us := by
      rw [next?] at h
      split at h
      · exact List.mem_of_mem_head? h
      · exact mem_of_next? h
    intro huw
    rw [List.head?_cons, Option.some.injEq] at huw
    exact (List.nodup_cons.mp hnodup).1 (huw ▸ htail)

/-- Control goes to a target of a branch, or to what follows in the block. -/
theorem mem_successors (hi : m.instruction? v = some i) (hw : w ∈ m.successors v) :
    (∃ c targets, i.op = .branch c targets ∧ ∃ b ∈ targets, (m.instsOf b).head? = some w) ∨
      i.op.isTerminator = false ∧ next? v (m.instsOf i.block) = some w := by
  rw [successors, hi] at hw
  cases hop : i.op with
  | branch c targets =>
    simp only [hop, List.mem_filterMap] at hw
    exact .inl ⟨c, targets, rfl, hw⟩
  | ret r => simp [hop] at hw
  | unreachable => simp [hop] at hw
  | alloca | load p | store x p | gep x ix | cast x | phi inc | call f xs | other xs =>
    simp only [hop, Option.mem_toList] at hw
    exact .inr ⟨rfl, hw⟩

/-- Control stays in a function. -/
theorem Built.successors_subset (h : m.Built) (hv : v ∈ m.instructionsOf f)
    (hw : w ∈ m.successors v) : w ∈ m.instructionsOf f := by
  obtain ⟨i, hi, hib⟩ := h.mem_instructionsOf_iff.mp hv
  have hmem : ∀ b ∈ m.blocksOf f, w ∈ m.instsOf b → w ∈ m.instructionsOf f := by
    intro b hb hwb
    obtain ⟨j, hj, rfl⟩ := h.listed.instruction_of_mem hwb
    exact h.mem_instructionsOf_iff.mpr ⟨j, hj, hb⟩
  rcases mem_successors hi hw with ⟨c, targets, hop, b, hb, hwb⟩ | ⟨-, hnext⟩
  · have hop' : m.operation? v = some (.branch c targets) := by
      rw [operation?, hi, Option.map_some, hop]
    exact hmem b (h.target_mem hv hop' hb) (List.mem_of_mem_head? hwb)
  · exact hmem i.block hib (mem_of_next? hnext)

/-- What follows a call is not what a function starts with. -/
theorem Built.next_ne_first (h : m.Built) (hv : m.isCall v = true) (hw : w ∈ m.successors v) :
    m.firstInstruction? f ≠ some w := by
  intro hfirst
  obtain ⟨op, hop, hcall⟩ := (Option.any_eq_true _ _).mp hv
  obtain ⟨i, hi, rfl⟩ := Option.map_eq_some_iff.mp hop
  rcases mem_successors hi hw with ⟨c, targets, hbranch, -⟩ | ⟨-, hnext⟩
  · rw [hbranch] at hcall
    cases hcall
  · -- The start of a function is the head of its block, which is the block of the call.
    obtain ⟨b, -, hhead⟩ := Option.bind_eq_some_iff.mp hfirst
    obtain ⟨j, hj, rfl⟩ := h.listed.instruction_of_mem (List.mem_of_mem_head? hhead)
    obtain ⟨k, hk, hkb⟩ := h.listed.instruction_of_mem (mem_of_next? hnext)
    rw [hj, Option.some.injEq] at hk
    rw [hk, hkb] at hhead
    exact head?_ne_of_next? (h.listed.nodup_instsOf _) hnext hhead

end Module

/-- A listing that is seen to pass its checks, with what is seen of its module. -/
theorem Listing.exists_build {l : Listing} {p : Module → Prop} [DecidablePred p]
    (h : (l.build.toOption.any fun m => p m) = true) : ∃ m, l.build = .ok m ∧ p m := by
  cases hl : l.build with
  | error e =>
    rw [hl] at h
    cases h
  | ok m =>
    rw [hl] at h
    exact ⟨m, rfl, of_decide_eq_true h⟩

theorem Listing.build_built {l : Listing} {m : Module} (h : l.build = .ok m) : m.Built :=
  have ⟨hdraft, hcheck⟩ := build_eq_ok h
  ⟨hdraft.linked, hdraft.listed, hcheck⟩

end PmemPaths.Ir
