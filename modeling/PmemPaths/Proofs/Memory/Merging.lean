import PmemPaths.Proofs.Memory.Lookup
import PmemPaths.Proofs.Symbolic.Folding

/-!
# Merged memory

Two spaces with the same objects are merged byte by byte.  A byte that differs
becomes a choice by the guard, so that under every assignment the merged byte is
the first space's where the guard holds and the second's elsewhere.  The choice
is written back like any other byte, and nothing can be written to an object that
is read-only in the first space: there the bytes of the second space are lost
(`AddressSpace.merge?_bytes`, `AddressSpace.merge?_loses`).
-/

namespace PmemPaths.Memory

open PmemPaths.Symbolic (Assignment Expr Term)

/-- A merged byte is chosen by the guard, unless it must not be written. -/
theorem Contents.read?_merge {mine theirs : Contents} {offset : Nat} {x y : Expr} (guard : Expr)
    (hx : mine.read? offset = some x) (hy : theirs.read? offset = some y) :
    ∃ z, (mine.merge guard theirs).read? offset = some z ∧
      ∀ σ, z.value σ = if guard.Holds σ ∨ mine.readOnly = true then x.value σ else y.value σ := by
  rw [merge]
  split
  · next hreadOnly => exact ⟨x, hx, fun σ => (if_pos (.inr hreadOnly)).symm⟩
  · next hreadOnly =>
    rw [read?] at hx
    refine ⟨if x = y then x else .mkSelect () guard x y, ?_, fun σ => ?_⟩
    · simp only [read?, Array.getElem?_mapIdx, hx, Option.map_some]
      rw [← read?, hy]
    · simp only [hreadOnly, Bool.false_eq_true, or_false]
      split
      · next heq => rw [heq, ite_self]
      · exact Term.mkSelect_value σ

namespace AddressSpace

variable {s t : AddressSpace} {address k : Nat} {guard : Expr} {b c : Binding}

/-! ## Spaces with the same objects -/

/-- The bound objects, by first address. -/
def objects (s : AddressSpace) : Std.ExtTreeMap Nat MemoryObject :=
  s.bindings.map fun _ b => b.object

theorem getElem?_objects : s.objects[k]? = s.bindings[k]?.map (·.object) :=
  Std.ExtTreeMap.getElem?_map

theorem keys_eq_of_objects (h : s.objects = t.objects) : s.bindings.keys = t.bindings.keys := by
  have hkeys := congrArg Std.ExtTreeMap.keys h
  rwa [objects, objects, Std.ExtTreeMap.keys_map, Std.ExtTreeMap.keys_map] at hkeys

theorem sameObjects_of_objects (h : s.objects = t.objects) : s.sameObjects t = true := by
  have hids (u : AddressSpace) : u.toList.map (·.object.id) = u.objects.toList.map (·.2.id) := by
    rw [toList, objects, Std.ExtTreeMap.toList_map, List.map_map, List.map_map]
    rfl
  rw [sameObjects, hids s, hids t, h, decide_eq_true_eq]

theorem object_eq_of_objects (h : s.objects = t.objects) (hb : s.bindings[k]? = some b)
    (hc : t.bindings[k]? = some c) : c.object = b.object := by
  have hobjects : s.objects[k]? = t.objects[k]? := by rw [h]
  rw [getElem?_objects, getElem?_objects, hb, hc] at hobjects
  exact (Option.some_inj.mp hobjects).symm

/-! ## Bytes at an address -/

/-- An address lies in the same object of a space with the same first addresses. -/
theorem resolve?_of_keys (hkeys : s.bindings.keys = t.bindings.keys)
    (hentry : s.bindings.getEntryLE? address = some (k, b)) (hc : t.bindings[k]? = some c)
    (hcontains : c.object.contains address = true) : t.resolve? address = some c :=
  resolve?_eq_some.mpr ⟨k, getEntryLE?_of_keys hkeys hentry hc, hcontains⟩

/-- The contents are as long as the objects. -/
def Filled (s : AddressSpace) : Prop :=
  ∀ (k : Nat) (b : Binding), s.bindings[k]? = some b → b.contents.size = b.object.size

theorem Filled.empty : Filled {} := by
  intro k b hb
  rw [Std.ExtTreeMap.getElem?_empty] at hb
  cases hb

theorem Filled.bind {o : MemoryObject} {d : Contents} (h : s.Filled) (hd : d.size = o.size) :
    (s.bind o d).Filled := by
  intro k b hb
  rw [AddressSpace.bind, Std.ExtTreeMap.getElem?_insert] at hb
  split at hb
  · cases hb
    exact hd
  · exact h k b hb

/-! ## Merging -/

/-- Two bindings of one object in one. -/
def mergeBinding (guard : Expr) (mine theirs : Binding) : Binding :=
  { mine with contents := mine.contents.merge guard theirs.contents }

theorem merge?_eq (h : s.sameObjects t = true) :
    s.merge? t guard = some ⟨s.bindings.insertMany ((s.bindings.toList.zip t.bindings.toList).map
      fun e => (e.1.1, mergeBinding guard e.1.2 e.2.2))⟩ := by
  rw [merge?, if_pos h, toList, List.zip_map_right, List.foldl_map,
    Std.ExtTreeMap.insertMany_list_eq_foldl, List.foldl_map]
  rfl

/-- A merge goes through, leaves the objects as they are, and merges the contents of
each. -/
theorem exists_merge? (guard : Expr) (h : s.objects = t.objects) :
    ∃ u, s.merge? t guard = some u ∧ s.objects = u.objects ∧
      ∀ (k : Nat) (b c : Binding), s.bindings[k]? = some b → t.bindings[k]? = some c →
        u.bindings[k]? = some (mergeBinding guard b c) := by
  have hlookup (k : Nat) := getElem?_insertMany_zip (k := k) (mergeBinding guard)
    (keys_eq_of_objects h)
  refine ⟨_, merge?_eq (sameObjects_of_objects h), ?_, fun k b c hb hc => ?_⟩
  · refine Std.ExtTreeMap.ext_getElem? fun k => ?_
    rw [getElem?_objects, getElem?_objects, hlookup]
    cases hb : s.bindings[k]? with
    | none => rfl
    | some b =>
      obtain ⟨c, hc⟩ := exists_getElem?_of_keys (keys_eq_of_objects h) hb
      rw [hc]
      rfl
  · rw [hlookup, hb, hc]
    rfl

/-- Every byte of two spaces with the same objects is a byte of the merged space.  It
is the first space's where the guard holds and the second's elsewhere, except that an
object that is read-only in the first space keeps its bytes. -/
theorem merge?_bytes (guard : Expr) (h : s.objects = t.objects) (hs : s.Filled) (ht : t.Filled) :
    ∃ u, s.merge? t guard = some u ∧ ∀ address b, s.resolve? address = some b →
      ∃ x y z, s.read? address = some x ∧ t.read? address = some y ∧ u.read? address = some z ∧
        ∀ σ, z.value σ =
          if guard.Holds σ ∨ b.contents.readOnly = true then x.value σ else y.value σ := by
  obtain ⟨u, hu, hobjects, hmerged⟩ := exists_merge? guard h
  refine ⟨u, hu, fun address b hb => ?_⟩
  obtain ⟨k, hentry, hcontains⟩ := resolve?_eq_some.mp hb
  have hbk := (of_getEntryLE? hentry).1
  obtain ⟨c, hck⟩ := exists_getElem?_of_keys (keys_eq_of_objects h) hbk
  have hobject := object_eq_of_objects h hbk hck
  obtain ⟨x, hx⟩ := exists_read? (hs k b hbk) hcontains
  obtain ⟨y, hy⟩ := exists_read? (ht k c hck) (hobject ▸ hcontains)
  rw [hobject] at hy
  obtain ⟨z, hz, hvalue⟩ := Contents.read?_merge guard hx hy
  have htheirs := resolve?_of_keys (keys_eq_of_objects h) hentry hck (hobject ▸ hcontains)
  have hboth := resolve?_of_keys (keys_eq_of_objects hobjects) hentry (hmerged k b c hbk hck)
    hcontains
  refine ⟨x, y, z, ?_, ?_, ?_, hvalue⟩
  · rw [read?_of_resolve? hb, hx]
  · rw [read?_of_resolve? htheirs, hobject, hy]
  · rw [read?_of_resolve? hboth]
    exact hz

/-- A byte that is one in the first space and two in the second. -/
theorem merge?_bytes_oneAndTwo :
    let o : MemoryObject := { id := ⟨1⟩, address := 0x2000, size := 1, name := "buf" }
    let space (n : Nat) : AddressSpace := bind {} o ⟨#[.constant () n 8], false⟩
    let guard : Expr := .eq () (.constant () 0 8) (.read () ⟨"c", 1⟩ 0)
    (space 1).objects = (space 2).objects ∧ (space 1).Filled ∧ (space 2).Filled ∧
      ∃ u, (space 1).merge? (space 2) guard = some u ∧
        ∃ z, u.read? 0x2000 = some z ∧ ∀ σ, z.value σ = if guard.Holds σ then 1 else 2 := by
  intro o space guard
  have hfilled (n : Nat) : (space n).Filled := Filled.empty.bind rfl
  have hobjects : (space 1).objects = (space 2).objects := rfl
  obtain ⟨u, hu, hbytes⟩ := merge?_bytes guard hobjects (hfilled 1) (hfilled 2)
  obtain ⟨x, y, z, hx, hy, hz, hvalue⟩ := hbytes 0x2000 _ rfl
  cases hx
  cases hy
  refine ⟨hobjects, hfilled 1, hfilled 2, u, hu, z, hz, fun σ => ?_⟩
  simp only [hvalue σ, Bool.false_eq_true, or_false]
  rfl

/-- Where the byte of the first space is read-only, the second space's two is lost. -/
theorem merge?_loses :
    let o : MemoryObject := { id := ⟨1⟩, address := 0x2000, size := 1, name := "buf" }
    let space (n : Nat) (readOnly : Bool) : AddressSpace :=
      bind {} o ⟨#[.constant () n 8], readOnly⟩
    let guard : Expr := .eq () (.constant () 0 8) (.read () ⟨"c", 1⟩ 0)
    let σ : Assignment := fun _ _ => 1
    (space 0 true).objects = (space 2 false).objects ∧
      (space 0 true).Filled ∧ (space 2 false).Filled ∧ guard.Typed 1 ∧ ¬ guard.Holds σ ∧
      ∃ u, (space 0 true).merge? (space 2 false) guard = some u ∧
        ∃ y z, (space 2 false).read? 0x2000 = some y ∧ u.read? 0x2000 = some z ∧
          y.value σ = 2 ∧ z.value σ = 0 := by
  intro o space guard σ
  exact ⟨rfl, Filled.empty.bind rfl, Filled.empty.bind rfl, ⟨by decide, rfl⟩, by decide, _, rfl,
    _, _, rfl, rfl, rfl, rfl⟩

end AddressSpace

end PmemPaths.Memory
