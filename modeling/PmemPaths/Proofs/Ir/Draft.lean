import PmemPaths.Ir.Listing
import PmemPaths.Proofs.Outcome

/-!
# Drafts

A *draft* is a module that was written line by line from nothing.  There are five
ways to write, and what all of them preserve holds of every draft (`Module.Draft`).

In a draft everything is *linked* (`Module.Linked`): a function is the function its
address names, a block is one of the blocks of its function, and an instruction is
one of the instructions of its block.  So every instruction is an instruction of a
defined function.
-/

namespace PmemPaths.Ir

namespace Module

/-- The modules that a listing can have written. -/
inductive Draft : Module → Prop
  | empty (name : String) : Draft (.empty name)
  | value {m : Module} {kind : ValueKind} (name : String) :
      Draft m → kind = .global ∨ kind = .constant → Draft (m.addValue kind name)
  | declare {m : Module} (name : String) (params : List String) (variadic : Bool) :
      Draft m → Draft (m.declare name params variadic)
  | block {m n : Module} {f : FunctionId} {b : BlockId} {name : String} :
      Draft m → m.addBlock f name = .ok (n, b) → Draft n
  | instruction {m n : Module} {i : Instruction} {name : String} :
      Draft m → m.addInstruction i name = .ok n → Draft n

end Module

theorem index_inj {k : Numbered} {a b : Id k} : a.index = b.index ↔ a = b := by
  cases a
  cases b
  simp

/-! ## What is written is a draft -/

variable {m n : Module}

/-- A line writes a block, an instruction, both where there was no block yet, or nothing. -/
theorem Line.write_draft {c d : Cursor} {l : Line} (hm : m.Draft)
    (h : l.write m c = .ok (n, d)) : n.Draft := by
  cases l with
  | block name =>
    obtain ⟨⟨k, b⟩, hb, h⟩ := bind_eq_ok.mp h
    cases h
    exact .block hm hb
  | addBlock name =>
    obtain ⟨⟨k, b⟩, hb, h⟩ := bind_eq_ok.mp h
    cases h
    exact .block hm hb
  | moveTo b =>
    cases h
    exact hm
  | location l =>
    cases h
    exact hm
  | instruction name op =>
    rw [write] at h
    cases hc : c.block with
    | none =>
      rw [hc] at h
      obtain ⟨⟨k, b⟩, hb, h⟩ := bind_eq_ok.mp h
      obtain ⟨n', hn, h⟩ := bind_eq_ok.mp h
      cases h
      exact .instruction (.block hm hb) hn
    | some b =>
      rw [hc] at h
      obtain ⟨⟨k, b'⟩, hb, h⟩ := bind_eq_ok.mp h
      cases hb
      obtain ⟨n', hn, h⟩ := bind_eq_ok.mp h
      cases h
      exact .instruction hm hn

theorem writeLines_draft {c : Cursor} {ls : List Line} (hm : m.Draft)
    (h : writeLines m c ls = .ok n) : n.Draft := by
  induction ls generalizing m c with
  | nil =>
    cases h
    exact hm
  | cons l ls ih =>
    obtain ⟨⟨k, d⟩, hl, h⟩ := bind_eq_ok.mp h
    exact ih (Line.write_draft hm hl) h

/-- An entry declares, makes a global or a constant, or writes the lines of a body. -/
theorem Item.write_draft {i : Item} (hm : m.Draft) (h : i.write m = .ok n) : n.Draft := by
  cases i with
  | declare name params variadic =>
    cases h
    exact .declare name params variadic hm
  | global name =>
    cases h
    exact .value name hm (.inl rfl)
  | constant name =>
    cases h
    exact .value name hm (.inr rfl)
  | define f lines => exact writeLines_draft hm h

theorem Listing.draft_draft {l : Listing} (h : l.draft = .ok m) : m.Draft :=
  foldlM_preserves (fun _ _ _ _ hm hi => Item.write_draft hm hi) (.empty l.name) h

/-- A module that is built is a draft that passes the checks. -/
theorem Listing.build_eq_ok {l : Listing} (h : l.build = .ok m) :
    m.Draft ∧ m.check = .ok () := by
  rw [Listing.build] at h
  cases hd : l.draft with
  | error a =>
    rw [hd] at h
    cases h
  | ok k =>
    rw [hd] at h
    obtain ⟨u, hc, h⟩ := bind_eq_ok.mp h
    cases h
    exact ⟨draft_draft hd, hc⟩

namespace Module

/-! ## What writing does -/

section

variable {f g : FunctionId} {v : ValueId} {b c : BlockId} {i : Instruction} {name : String}
  {params : List String} {variadic : Bool} {kind : ValueKind}

/-- A new value comes behind the values there are. -/
theorem value?_addValue : (m.addValue kind name).value? v =
    if v.index = m.valueCount then some ⟨kind, name⟩ else m.value? v := by
  rw [value?, addValue, Array.getElem?_push]
  rfl

theorem valueCount_declare :
    (m.declare name params variadic).valueCount = m.valueCount + 1 + params.length := by
  simp [declare, valueCount, addValue, addParams]
  omega

theorem instruction?_eq_some : m.instruction? v = some i ↔
    ∃ name, m.value? v = some ⟨.instruction i, name⟩ := by
  rw [instruction?]
  cases m.value? v with
  | none => simp
  | some w =>
    obtain ⟨kind, name⟩ := w
    cases kind <;> simp

theorem value?_of_lt {w : Value} (h : m.value? v = some w) : v.index < m.valueCount :=
  (Array.getElem?_eq_some_iff.mp h).1

/-- A declaration leaves the values there are. -/
theorem value?_declare {w : Value} (h : m.value? v = some w) :
    (m.declare name params variadic).value? v = some w := by
  have hlt : v.index < m.valueCount := value?_of_lt h
  have hlt' : v.index < (m.addValue (.function ⟨m.functions.size⟩) name).values.size := by
    rw [addValue, Array.size_push]
    exact Nat.lt_succ_of_lt hlt
  rw [value?, declare, addParams, Array.getElem?_append_left hlt']
  exact value?_addValue.trans ((if_neg (Nat.ne_of_lt hlt)).trans h)

/-- The address of a declared function comes after all values there were. -/
theorem value?_declare_address : (m.declare name params variadic).value? m.nextValue =
    some ⟨.function ⟨m.functions.size⟩, name⟩ := by
  have hlt : m.nextValue.index < (m.addValue (.function ⟨m.functions.size⟩) name).values.size := by
    rw [addValue, Array.size_push]
    exact Nat.lt_succ_self _
  rw [value?, declare, addParams, Array.getElem?_append_left hlt]
  exact value?_addValue.trans (if_pos rfl)

/-- A declaration adds no instruction. -/
theorem instruction?_of_declare
    (h : (m.declare name params variadic).instruction? v = some i) : m.instruction? v = some i := by
  obtain ⟨k, hv⟩ := instruction?_eq_some.mp h
  rw [value?, declare, addParams, Array.getElem?_append] at hv
  split at hv
  · have hold := value?_addValue.symm.trans hv
    split at hold
    · cases hold
    · exact instruction?_eq_some.mpr ⟨k, hold⟩
  · simp at hv

theorem function?_declare : (m.declare name params variadic).function? f =
    if f.index = m.functions.size then
      some { name, address := m.nextValue, variadic, blocks := []
             params := (List.range params.length).map fun i => ⟨m.valueCount + 1 + i⟩
             intrinsic := Intrinsic.ofName? name }
    else m.function? f := by
  rw [function?, declare]
  simp [addValue, addParams, Array.getElem?_push, valueCount, function?]

/-- A block goes to the end of its function, which must exist. -/
theorem addBlock_eq_ok (h : m.addBlock f name = .ok (n, b)) :
    f.index < m.functions.size ∧ b = ⟨m.blocks.size⟩ ∧
      n = { m with
        blocks := m.blocks.push ⟨f, name, []⟩
        functions := m.functions.modify f.index fun g =>
          { g with blocks := g.blocks ++ [b] } } := by
  rw [addBlock] at h
  split at h
  · next hf =>
    cases h
    exact ⟨hf, rfl, rfl⟩
  · cases h

/-- An instruction goes to the end of its block, which must exist. -/
theorem addInstruction_eq_ok (h : m.addInstruction i name = .ok n) :
    i.block.index < m.blocks.size ∧ n = { m.addValue (.instruction i) name with
      blocks := m.blocks.modify i.block.index fun b =>
        { b with insts := b.insts ++ [m.nextValue] } } := by
  rw [addInstruction] at h
  split at h
  · next hb =>
    cases h
    exact ⟨hb, rfl⟩
  · cases h

theorem value?_addBlock (h : m.addBlock f name = .ok (n, b)) : n.value? v = m.value? v := by
  obtain ⟨-, -, rfl⟩ := addBlock_eq_ok h
  rfl

theorem block?_addBlock (h : m.addBlock f name = .ok (n, b)) :
    n.block? c = if c = b then some ⟨f, name, []⟩ else m.block? c := by
  obtain ⟨-, rfl, rfl⟩ := addBlock_eq_ok h
  simp only [block?, Array.getElem?_push, ← index_inj]

theorem function?_addBlock (h : m.addBlock f name = .ok (n, b)) :
    n.function? g = (m.function? g).map fun fn =>
      if f = g then { fn with blocks := fn.blocks ++ [b] } else fn := by
  obtain ⟨-, -, rfl⟩ := addBlock_eq_ok h
  simp only [function?, Array.getElem?_modify, index_inj]
  split
  · rfl
  · exact Option.map_id.symm ▸ rfl

theorem value?_addInstruction (h : m.addInstruction i name = .ok n) :
    n.value? v = if v = m.nextValue then some ⟨.instruction i, name⟩ else m.value? v := by
  obtain ⟨-, rfl⟩ := addInstruction_eq_ok h
  simp only [← index_inj]
  exact value?_addValue

theorem block?_addInstruction (h : m.addInstruction i name = .ok n) :
    n.block? c = (m.block? c).map fun blk =>
      if i.block = c then { blk with insts := blk.insts ++ [m.nextValue] } else blk := by
  obtain ⟨-, rfl⟩ := addInstruction_eq_ok h
  simp only [block?, Array.getElem?_modify, index_inj]
  split
  · rfl
  · exact Option.map_id.symm ▸ rfl

theorem function?_addInstruction (h : m.addInstruction i name = .ok n) :
    n.function? f = m.function? f := by
  obtain ⟨-, rfl⟩ := addInstruction_eq_ok h
  rfl

end

/-! ## Drafts are linked -/

/-- Values, functions and blocks refer to each other as they should. -/
structure Linked (m : Module) : Prop where
  /-- A function is the function its address names. -/
  address : ∀ f fn, m.function? f = some fn → ∃ name, m.value? fn.address = some ⟨.function f, name⟩
  param : ∀ f fn, m.function? f = some fn → ∀ x ∈ fn.params, x.index < m.valueCount
  /-- A block is one of the blocks of its function. -/
  block : ∀ b blk, m.block? b = some blk → ∃ fn, m.function? blk.function = some fn ∧ b ∈ fn.blocks
  /-- An instruction is one of the instructions of its block. -/
  instruction : ∀ v i, m.instruction? v = some i →
    ∃ blk, m.block? i.block = some blk ∧ v ∈ blk.insts

theorem Linked.empty (name : String) : (Module.empty name).Linked where
  address f fn h := by simp [Module.empty, function?] at h
  param f fn h := by simp [Module.empty, function?] at h
  block b blk h := by simp [Module.empty, block?] at h
  instruction v i h := by simp [Module.empty, instruction?, value?] at h

/-- A value that is no instruction belongs to no block. -/
theorem Linked.addValue {kind : ValueKind} {name : String} (h : m.Linked)
    (hkind : ∀ i, kind ≠ .instruction i) : (m.addValue kind name).Linked where
  address f fn hf := by
    obtain ⟨k, hk⟩ := h.address f fn hf
    exact ⟨k, value?_addValue.trans ((if_neg (Nat.ne_of_lt (value?_of_lt hk))).trans hk)⟩
  param f fn hf x hx := by
    have hlt := h.param f fn hf x hx
    simp only [valueCount, Module.addValue, Array.size_push] at hlt ⊢
    omega
  block := h.block
  instruction v i hi := by
    obtain ⟨k, hk⟩ := instruction?_eq_some.mp hi
    rw [value?_addValue] at hk
    split at hk
    · exact absurd (congrArg Value.kind (Option.some.inj hk)) (hkind i)
    · exact h.instruction v i (instruction?_eq_some.mpr ⟨k, hk⟩)

/-- A declared function has an address that names it, and no blocks. -/
theorem Linked.declare {name : String} {params : List String} {variadic : Bool} (h : m.Linked) :
    (m.declare name params variadic).Linked where
  address f fn hf := by
    rw [function?_declare] at hf
    split at hf
    · next hidx =>
      cases hf
      obtain rfl : f = ⟨m.functions.size⟩ := by
        cases f
        exact congrArg Id.mk hidx
      exact ⟨name, value?_declare_address⟩
    · obtain ⟨k, hk⟩ := h.address f fn hf
      exact ⟨k, value?_declare hk⟩
  param f fn hf x hx := by
    rw [valueCount_declare]
    rw [function?_declare] at hf
    split at hf
    · cases hf
      obtain ⟨i, hi, rfl⟩ := List.mem_map.mp hx
      have := List.mem_range.mp hi
      simp only
      omega
    · have := h.param f fn hf x hx
      omega
  block b blk hb := by
    obtain ⟨fn, hf, hmem⟩ := h.block b blk hb
    refine ⟨fn, ?_, hmem⟩
    rw [function?_declare, if_neg (Nat.ne_of_lt (Array.getElem?_eq_some_iff.mp hf).1)]
    exact hf
  instruction v i hi := h.instruction v i (instruction?_of_declare hi)

/-- A new block is listed by the function it names. -/
theorem Linked.addBlock {f : FunctionId} {b : BlockId} {name : String} (h : m.Linked)
    (hn : m.addBlock f name = .ok (n, b)) : n.Linked where
  address g fn hg := by
    rw [function?_addBlock hn, Option.map_eq_some_iff] at hg
    obtain ⟨fn', hg, rfl⟩ := hg
    obtain ⟨k, hk⟩ := h.address g fn' hg
    refine ⟨k, ?_⟩
    rw [value?_addBlock hn]
    split
    · exact hk
    · exact hk
  param g fn hg x hx := by
    obtain ⟨-, -, rfl⟩ := addBlock_eq_ok hn
    rw [function?_addBlock hn, Option.map_eq_some_iff] at hg
    obtain ⟨fn', hg, rfl⟩ := hg
    split at hx
    · exact h.param g fn' hg x hx
    · exact h.param g fn' hg x hx
  block c blk hc := by
    simp only [function?_addBlock hn]
    rw [block?_addBlock hn] at hc
    split at hc
    · -- The new block, which is put last.
      next hcb =>
      cases hc
      have hf := (addBlock_eq_ok hn).1
      refine ⟨{ m.functions[f.index] with blocks := m.functions[f.index].blocks ++ [b] }, ?_, ?_⟩
      · rw [function?, Array.getElem?_eq_getElem hf, Option.map_some, if_pos rfl]
      · exact List.mem_append_right _ (hcb ▸ List.mem_singleton_self b)
    · obtain ⟨fn, hf, hmem⟩ := h.block c blk hc
      refine ⟨_, by rw [hf]; rfl, ?_⟩
      split
      · exact List.mem_append_left _ hmem
      · exact hmem
  instruction v i hi := by
    obtain ⟨k, hk⟩ := instruction?_eq_some.mp hi
    rw [value?_addBlock hn] at hk
    obtain ⟨blk, hblk, hmem⟩ := h.instruction v i (instruction?_eq_some.mpr ⟨k, hk⟩)
    refine ⟨blk, ?_, hmem⟩
    obtain ⟨-, rfl, -⟩ := addBlock_eq_ok hn
    rw [block?_addBlock hn, if_neg, hblk]
    intro heq
    rw [heq] at hblk
    exact absurd (Array.getElem?_eq_some_iff.mp hblk).1 (Nat.lt_irrefl _)

/-- A new instruction is listed by the block it names. -/
theorem Linked.addInstruction {i : Instruction} {name : String} (h : m.Linked)
    (hn : m.addInstruction i name = .ok n) : n.Linked where
  address f fn hf := by
    rw [function?_addInstruction hn] at hf
    obtain ⟨k, hk⟩ := h.address f fn hf
    refine ⟨k, ?_⟩
    rw [value?_addInstruction hn, if_neg, hk]
    rintro heq
    exact absurd (heq ▸ value?_of_lt hk) (Nat.lt_irrefl _)
  param f fn hf x hx := by
    rw [function?_addInstruction hn] at hf
    have hlt := h.param f fn hf x hx
    obtain ⟨-, rfl⟩ := addInstruction_eq_ok hn
    simp only [valueCount, Module.addValue, Array.size_push] at hlt ⊢
    omega
  block b blk hb := by
    rw [block?_addInstruction hn, Option.map_eq_some_iff] at hb
    obtain ⟨blk', hb, rfl⟩ := hb
    obtain ⟨fn, hf, hmem⟩ := h.block b blk' hb
    refine ⟨fn, ?_, hmem⟩
    rw [function?_addInstruction hn]
    split
    · exact hf
    · exact hf
  instruction v j hj := by
    obtain ⟨k, hk⟩ := instruction?_eq_some.mp hj
    rw [value?_addInstruction hn] at hk
    simp only [block?_addInstruction hn]
    split at hk
    · -- The new instruction, which is put last.
      next hv =>
      cases hk
      have hb := (addInstruction_eq_ok hn).1
      refine ⟨{ m.blocks[i.block.index] with
        insts := m.blocks[i.block.index].insts ++ [m.nextValue] }, ?_, ?_⟩
      · rw [block?, Array.getElem?_eq_getElem hb, Option.map_some, if_pos rfl]
      · exact List.mem_append_right _ (hv ▸ List.mem_singleton_self _)
    · obtain ⟨blk, hb, hmem⟩ := h.instruction v j (instruction?_eq_some.mpr ⟨k, hk⟩)
      refine ⟨_, by rw [hb]; rfl, ?_⟩
      split
      · exact List.mem_append_left _ hmem
      · exact hmem

/-- In a draft everything is linked, by induction on how it was written. -/
theorem Draft.linked (h : m.Draft) : m.Linked := by
  induction h with
  | empty name => exact .empty name
  | value name _ hkind ih =>
    refine ih.addValue fun i hi => ?_
    rcases hkind with rfl | rfl
    · cases hi
    · cases hi
  | declare name params variadic _ ih => exact ih.declare
  | block _ hn ih => exact ih.addBlock hn
  | instruction _ hn ih => exact ih.addInstruction hn

/-! ## What links give -/

theorem mem_functionIds {f : FunctionId} : f ∈ m.functionIds ↔ ∃ fn, m.function? f = some fn := by
  rw [functionIds, List.mem_map]
  constructor
  · rintro ⟨i, hi, rfl⟩
    exact ⟨_, Array.getElem?_eq_getElem (List.mem_range.mp hi)⟩
  · rintro ⟨fn, hf⟩
    exact ⟨f.index, List.mem_range.mpr (Array.getElem?_eq_some_iff.mp hf).1, rfl⟩

theorem isDefined_iff {f : FunctionId} :
    m.isDefined f = true ↔ ∃ fn, m.function? f = some fn ∧ fn.blocks ≠ [] := by
  rw [isDefined, Option.any_eq_true]
  simp [Function.isDeclaration]

theorem mem_definedFunctions {f : FunctionId} : f ∈ m.definedFunctions ↔ m.isDefined f = true := by
  rw [definedFunctions, List.mem_filter, mem_functionIds, and_iff_right_iff_imp]
  intro h
  obtain ⟨fn, hf, -⟩ := isDefined_iff.mp h
  exact ⟨fn, hf⟩

/-- The instructions of a function are those that its blocks list. -/
theorem mem_instructionsOf {f : FunctionId} {v : ValueId} : v ∈ m.instructionsOf f ↔
    (∃ b ∈ m.blocksOf f, v ∈ m.instsOf b) ∧ ∃ i, m.instruction? v = some i := by
  rw [instructionsOf, List.mem_filter, List.mem_flatMap, Option.isSome_iff_exists]

/-- An instruction is an instruction of a defined function. -/
theorem Linked.mem_instructionsOf (h : m.Linked) {v : ValueId} {i : Instruction}
    (hi : m.instruction? v = some i) : ∃ f, m.isDefined f = true ∧ v ∈ m.instructionsOf f := by
  obtain ⟨blk, hb, hv⟩ := h.instruction v i hi
  obtain ⟨fn, hf, hmem⟩ := h.block i.block blk hb
  refine ⟨blk.function, isDefined_iff.mpr ⟨fn, hf, List.ne_nil_of_mem hmem⟩,
    Module.mem_instructionsOf.mpr ⟨⟨i.block, ?_, ?_⟩, i, hi⟩⟩
  · rw [blocksOf, hf]
    exact hmem
  · rw [instsOf, hb]
    exact hv

/-- A function is told by its address. -/
theorem Linked.address_inj (h : m.Linked) {f g : FunctionId} {fn gn : Function}
    (hf : m.function? f = some fn) (hg : m.function? g = some gn)
    (ha : fn.address = gn.address) : f = g := by
  obtain ⟨k, hk⟩ := h.address f fn hf
  obtain ⟨l, hl⟩ := h.address g gn hg
  rw [ha, hl] at hk
  cases hk
  rfl

theorem Linked.address_lt (h : m.Linked) {f : FunctionId} {fn : Function}
    (hf : m.function? f = some fn) : fn.address.index < m.valueCount := by
  obtain ⟨k, hk⟩ := h.address f fn hf
  exact value?_of_lt hk

end Module

end PmemPaths.Ir
