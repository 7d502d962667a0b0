import Mathlib.Data.List.Nodup
import PmemPaths.Proofs.Ir.Draft

/-!
# Lists in drafts

A function lists its parameters and its blocks, and a block its instructions.  In a
draft nothing is listed twice, and what is listed knows where (`Module.Listed`): a
parameter is an argument of its function, a block names the function that lists it,
and an instruction the block that lists it.
-/

namespace PmemPaths.Ir

namespace Module

variable {m n : Module}

/-- What functions and blocks list is listed once and knows where. -/
structure Listed (m : Module) : Prop where
  /-- A parameter is an argument of the function that lists it. -/
  param : ∀ f fn, m.function? f = some fn → ∀ x ∈ fn.params,
    ∃ i name, m.value? x = some ⟨.argument f i, name⟩
  params_nodup : ∀ f fn, m.function? f = some fn → fn.params.Nodup
  /-- A block names the function that lists it. -/
  block : ∀ f fn, m.function? f = some fn → ∀ b ∈ fn.blocks,
    ∃ blk, m.block? b = some blk ∧ blk.function = f
  blocks_nodup : ∀ f fn, m.function? f = some fn → fn.blocks.Nodup
  /-- An instruction names the block that lists it. -/
  inst : ∀ b blk, m.block? b = some blk → ∀ v ∈ blk.insts,
    ∃ i, m.instruction? v = some i ∧ i.block = b
  insts_nodup : ∀ b blk, m.block? b = some blk → blk.insts.Nodup

/-! ## Writing keeps the lists -/

theorem Listed.empty (name : String) : (Module.empty name).Listed where
  param f fn h := by simp [Module.empty, function?] at h
  params_nodup f fn h := by simp [Module.empty, function?] at h
  block f fn h := by simp [Module.empty, function?] at h
  blocks_nodup f fn h := by simp [Module.empty, function?] at h
  inst b blk h := by simp [Module.empty, block?] at h
  insts_nodup b blk h := by simp [Module.empty, block?] at h

/-- Values that there are stay when others are added. -/
theorem instruction?_of_value? {v : ValueId} {i : Instruction}
    (hkeep : ∀ w, m.value? v = some w → n.value? v = some w) (h : m.instruction? v = some i) :
    n.instruction? v = some i := by
  obtain ⟨name, hv⟩ := instruction?_eq_some.mp h
  exact instruction?_eq_some.mpr ⟨name, hkeep _ hv⟩

theorem value?_addValue_of_some {kind : ValueKind} {name : String} {v : ValueId} {w : Value}
    (h : m.value? v = some w) : (m.addValue kind name).value? v = some w :=
  value?_addValue.trans ((if_neg (Nat.ne_of_lt (value?_of_lt h))).trans h)

theorem Listed.addValue {kind : ValueKind} {name : String} (h : m.Listed) :
    (m.addValue kind name).Listed where
  param f fn hf x hx := by
    obtain ⟨i, k, hx⟩ := h.param f fn hf x hx
    exact ⟨i, k, value?_addValue_of_some hx⟩
  params_nodup := h.params_nodup
  block := h.block
  blocks_nodup := h.blocks_nodup
  inst b blk hb v hv := by
    obtain ⟨i, hi, hib⟩ := h.inst b blk hb v hv
    exact ⟨i, instruction?_of_value? (fun _ => value?_addValue_of_some) hi, hib⟩
  insts_nodup := h.insts_nodup

/-- The parameters of a declared function come after its address. -/
theorem value?_declare_param {name : String} {params : List String} {variadic : Bool} {i : Nat}
    (hi : i < params.length) :
    (m.declare name params variadic).value? ⟨m.valueCount + 1 + i⟩ =
      some ⟨.argument ⟨m.functions.size⟩ i, params[i]⟩ := by
  have hsize : (m.addValue (.function ⟨m.functions.size⟩) name).values.size = m.valueCount + 1 :=
    Array.size_push _
  rw [value?, declare, addParams, Array.getElem?_append_right (by simp [hsize])]
  simp [hsize, hi]

/-- A declared function lists its own parameters and no blocks. -/
theorem Listed.declare {name : String} {params : List String} {variadic : Bool} (h : m.Listed) :
    (m.declare name params variadic).Listed where
  param f fn hf x hx := by
    rw [function?_declare] at hf
    split at hf
    · next hidx =>
      cases hf
      obtain rfl : f = ⟨m.functions.size⟩ := index_inj.mp hidx
      obtain ⟨i, hi, rfl⟩ := List.mem_map.mp hx
      exact ⟨i, _, value?_declare_param (List.mem_range.mp hi)⟩
    · obtain ⟨i, k, hx⟩ := h.param f fn hf x hx
      exact ⟨i, k, value?_declare hx⟩
  params_nodup f fn hf := by
    rw [function?_declare] at hf
    split at hf
    · cases hf
      refine List.Nodup.map (fun i j hij => ?_) List.nodup_range
      have heq : m.valueCount + 1 + i = m.valueCount + 1 + j := congrArg Id.index hij
      exact Nat.add_left_cancel heq
    · exact h.params_nodup f fn hf
  block f fn hf b hb := by
    rw [function?_declare] at hf
    split at hf
    · cases hf
      cases hb
    · exact h.block f fn hf b hb
  blocks_nodup f fn hf := by
    rw [function?_declare] at hf
    split at hf
    · cases hf
      exact List.nodup_nil
    · exact h.blocks_nodup f fn hf
  inst b blk hb v hv := by
    obtain ⟨i, hi, hib⟩ := h.inst b blk hb v hv
    exact ⟨i, instruction?_of_value? (fun _ => value?_declare) hi, hib⟩
  insts_nodup := h.insts_nodup

/-- A new block has a number that no function lists yet. -/
theorem Listed.addBlock {f : FunctionId} {b : BlockId} {name : String} (h : m.Listed)
    (hn : m.addBlock f name = .ok (n, b)) : n.Listed := by
  -- The new block is none of those that are listed.
  have hnew : ∀ g gn, m.function? g = some gn → b ∉ gn.blocks := by
    intro g gn hg hmem
    obtain ⟨blk, hblk, -⟩ := h.block g gn hg b hmem
    obtain ⟨-, rfl, -⟩ := addBlock_eq_ok hn
    exact absurd (Array.getElem?_eq_some_iff.mp hblk).1 (Nat.lt_irrefl _)
  have hfunction : ∀ g gn, n.function? g = some gn → ∃ gn', m.function? g = some gn' ∧
      gn = if f = g then { gn' with blocks := gn'.blocks ++ [b] } else gn' := by
    intro g gn hg
    rw [function?_addBlock hn, Option.map_eq_some_iff] at hg
    obtain ⟨gn', hg, rfl⟩ := hg
    exact ⟨gn', hg, rfl⟩
  have hblock : ∀ c blk, n.block? c = some blk →
      c = b ∧ blk = ⟨f, name, []⟩ ∨ m.block? c = some blk := by
    intro c blk hc
    rw [block?_addBlock hn] at hc
    split at hc
    · next hcb => exact .inl ⟨hcb, (Option.some.inj hc).symm⟩
    · exact .inr hc
  refine ⟨?param, ?params, ?block, ?blocks, ?inst, ?insts⟩
  case param =>
    intro g gn hg x hx
    obtain ⟨gn', hold, rfl⟩ := hfunction g gn hg
    obtain ⟨i, k, hx⟩ := h.param g gn' hold x (by split at hx <;> exact hx)
    exact ⟨i, k, (value?_addBlock hn).trans hx⟩
  case params =>
    intro g gn hg
    obtain ⟨gn', hold, rfl⟩ := hfunction g gn hg
    have hnodup := h.params_nodup g gn' hold
    split <;> exact hnodup
  case block =>
    intro g gn hg c hc
    obtain ⟨gn', hold, rfl⟩ := hfunction g gn hg
    by_cases hcb : c = b
    · subst hcb
      split at hc
      · next hfg => exact ⟨_, (block?_addBlock hn).trans (if_pos rfl), hfg⟩
      · exact absurd hc (hnew g gn' hold)
    · have hlisted : c ∈ gn'.blocks := by
        split at hc
        · simpa [hcb] using hc
        · exact hc
      obtain ⟨blk, hblk, hfun⟩ := h.block g gn' hold c hlisted
      exact ⟨blk, (block?_addBlock hn).trans ((if_neg hcb).trans hblk), hfun⟩
  case blocks =>
    intro g gn hg
    obtain ⟨gn', hold, rfl⟩ := hfunction g gn hg
    have hnodup := h.blocks_nodup g gn' hold
    split
    · exact List.nodup_append.mpr ⟨hnodup, List.nodup_singleton _, fun c hc d hd => by
        rintro rfl
        exact hnew g gn' hold (List.mem_singleton.mp hd ▸ hc)⟩
    · exact hnodup
  case inst =>
    intro c blk hc v hv
    rcases hblock c blk hc with ⟨-, rfl⟩ | hc
    · cases hv
    · obtain ⟨i, hi, hib⟩ := h.inst c blk hc v hv
      exact ⟨i, instruction?_of_value? (fun w hw => (value?_addBlock hn).trans hw) hi, hib⟩
  case insts =>
    intro c blk hc
    rcases hblock c blk hc with ⟨-, rfl⟩ | hc
    · exact List.nodup_nil
    · exact h.insts_nodup c blk hc

theorem Listed.addInstruction {i : Instruction} {name : String} (h : m.Listed)
    (hn : m.addInstruction i name = .ok n) : n.Listed := by
  -- The new value is none of those that there were, listed or not.
  have hold : ∀ v w, m.value? v = some w → v ≠ m.nextValue ∧ n.value? v = some w := by
    intro v w hv
    have hne : v ≠ m.nextValue := by
      rintro rfl
      exact absurd (value?_of_lt hv) (Nat.lt_irrefl _)
    exact ⟨hne, (value?_addInstruction hn).trans ((if_neg hne).trans hv)⟩
  have hblock : ∀ c blk, n.block? c = some blk → ∃ blk', m.block? c = some blk' ∧
      blk = if i.block = c then { blk' with insts := blk'.insts ++ [m.nextValue] } else blk' := by
    intro c blk hc
    rw [block?_addInstruction hn, Option.map_eq_some_iff] at hc
    obtain ⟨blk', hc, rfl⟩ := hc
    exact ⟨blk', hc, rfl⟩
  refine ⟨?param, ?params, ?block, ?blocks, ?inst, ?insts⟩
  case param =>
    intro g gn hg x hx
    rw [function?_addInstruction hn] at hg
    obtain ⟨j, k, hx⟩ := h.param g gn hg x hx
    exact ⟨j, k, (hold x _ hx).2⟩
  case params =>
    intro g gn hg
    rw [function?_addInstruction hn] at hg
    exact h.params_nodup g gn hg
  case block =>
    intro g gn hg c hc
    rw [function?_addInstruction hn] at hg
    obtain ⟨blk, hblk, hfun⟩ := h.block g gn hg c hc
    refine ⟨_, (block?_addInstruction hn).trans (congrArg _ hblk), ?_⟩
    dsimp only
    split <;> exact hfun
  case blocks =>
    intro g gn hg
    rw [function?_addInstruction hn] at hg
    exact h.blocks_nodup g gn hg
  case inst =>
    intro c blk hc v hv
    obtain ⟨blk', hc', rfl⟩ := hblock c blk hc
    by_cases hvn : v = m.nextValue
    · refine ⟨i, instruction?_eq_some.mpr ⟨name, ?_⟩, ?_⟩
      · exact (value?_addInstruction hn).trans (if_pos hvn)
      · by_contra hic
        rw [if_neg hic] at hv
        obtain ⟨j, hj, -⟩ := h.inst c blk' hc' v hv
        obtain ⟨k, hk⟩ := instruction?_eq_some.mp hj
        exact (hold v _ hk).1 hvn
    · have hmem : v ∈ blk'.insts := by
        split at hv
        · simpa [hvn] using hv
        · exact hv
      obtain ⟨j, hj, hjb⟩ := h.inst c blk' hc' v hmem
      exact ⟨j, instruction?_of_value? (fun w hw => (hold v w hw).2) hj, hjb⟩
  case insts =>
    intro c blk hc
    obtain ⟨blk', hc', rfl⟩ := hblock c blk hc
    have hnodup := h.insts_nodup c blk' hc'
    split
    · refine List.nodup_append.mpr ⟨hnodup, List.nodup_singleton _, fun v hv w hw => ?_⟩
      rintro rfl
      obtain ⟨j, hj, -⟩ := h.inst c blk' hc' v hv
      obtain ⟨k, hk⟩ := instruction?_eq_some.mp hj
      exact (hold v _ hk).1 (List.mem_singleton.mp hw)
    · exact hnodup

/-- In a draft what is listed is listed once, by induction on how it was written. -/
theorem Draft.listed (h : m.Draft) : m.Listed := by
  induction h with
  | empty name => exact .empty name
  | value name _ _ ih => exact ih.addValue
  | declare name params variadic _ ih => exact ih.declare
  | block _ hn ih => exact ih.addBlock hn
  | instruction _ hn ih => exact ih.addInstruction hn

end Module

end PmemPaths.Ir
