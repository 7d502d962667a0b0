import PmemPaths.Memory.AddressSpace
import PmemPaths.Proofs.OrderedMap
import PmemPaths.Proofs.Outcome

/-!
# Looking up addresses

An address is looked up in the object with the greatest first address that is not above
it.  That is the right object because of what holds of the whole space (`Sound`): each
object is filed under its first address, none is empty, and no two share an address.
Binding an object that keeps to this (`Admits`), unbinding and writing preserve it.

In a space that was made this way the look-up gives the object that contains an address,
and a write changes the byte at its address and nothing else
(`Reached.resolves_and_writes`).  A range may go on behind the last address.  That does no
harm, since two objects that meet there meet at the first address of one of them already.
-/

namespace PmemPaths.Memory

open PmemPaths.Symbolic (Expr)

/-- Addresses have 64 bits. -/
def addressEnd : Nat := 0x10000000000000000

namespace MemoryObject

variable {o p : MemoryObject} {a : Nat}

/-- The two objects share an address. -/
def Overlaps (o p : MemoryObject) : Prop :=
  ∃ a < addressEnd, o.contains a = true ∧ p.contains a = true

theorem Overlaps.symm (h : o.Overlaps p) : p.Overlaps o := by
  obtain ⟨a, ha, ho, hp⟩ := h
  exact ⟨a, ha, hp, ho⟩

theorem contains_iff : o.contains a = true ↔ o.address ≤ a ∧ a - o.address < o.size := by
  rw [contains, Bool.and_eq_true, decide_eq_true_eq, decide_eq_true_eq]

/-- An object that starts inside another one shares its first address. -/
theorem overlaps_of_between (hp : p.address < addressEnd) (hsize : 0 < p.size)
    (ho : o.contains a = true) (hop : o.address ≤ p.address) (hpa : p.address ≤ a) :
    o.Overlaps p := by
  rw [contains_iff] at ho
  refine ⟨p.address, hp, contains_iff.mpr ⟨hop, ?_⟩, contains_iff.mpr ⟨Nat.le_refl _, ?_⟩⟩
  · omega
  · omega

end MemoryObject

namespace Contents

variable {c d : Contents} {offset i : Nat} {e : Expr}

theorem write?_eq_some : c.write? offset e = some d ↔ c.readOnly = false ∧ offset < c.size ∧
    d = { c with bytes := c.bytes.setIfInBounds offset e } := by
  rw [write?, Option.ite_none_left_eq_some, Bool.or_eq_true, decide_eq_true_eq, not_or,
    Bool.not_eq_true, Nat.not_le, Option.some.injEq, eq_comm (a := d), and_assoc, size]

theorem size_of_zero {size : Nat} (h : zero size = .ok c) : c.size = size := by
  rw [zero] at h
  split at h
  · cases h
  · cases h
    exact Array.size_replicate

theorem size_of_write? (h : c.write? offset e = some d) : d.size = c.size := by
  obtain ⟨-, -, rfl⟩ := write?_eq_some.mp h
  exact Array.size_setIfInBounds

/-- A write changes one byte. -/
theorem read?_of_write? (h : c.write? offset e = some d) :
    d.read? i = if i = offset then some e else c.read? i := by
  obtain ⟨-, hlt, rfl⟩ := write?_eq_some.mp h
  rw [size] at hlt
  rw [read?, Array.getElem?_setIfInBounds, if_pos hlt]
  split
  · next hi => rw [if_pos hi.symm]
  · next hi => rw [if_neg (Ne.symm hi), read?]

end Contents

namespace AddressSpace

variable {s t : AddressSpace} {address k : Nat} {b b' : Binding} {o : MemoryObject} {c : Contents}
  {e : Expr}

theorem mem_toList : b ∈ s.toList ↔ ∃ k : Nat, s.bindings[k]? = some b := by
  rw [toList, List.mem_map]
  constructor
  · rintro ⟨⟨k, b'⟩, hmem, rfl⟩
    exact ⟨k, Std.ExtTreeMap.mem_toList_iff_getElem?_eq_some.mp hmem⟩
  · rintro ⟨k, hk⟩
    exact ⟨(k, b), Std.ExtTreeMap.mem_toList_iff_getElem?_eq_some.mpr hk, rfl⟩

theorem resolve?_eq_some : s.resolve? address = some b ↔
    ∃ k, s.bindings.getEntryLE? address = some (k, b) ∧ b.object.contains address = true := by
  rw [resolve?, Option.bind_eq_some_iff]
  constructor
  · rintro ⟨⟨k, b'⟩, hentry, hb⟩
    obtain ⟨hcontains, hb⟩ := Option.ite_none_right_eq_some.mp hb
    cases hb
    exact ⟨k, hentry, hcontains⟩
  · rintro ⟨k, hentry, hcontains⟩
    exact ⟨(k, b), hentry, if_pos hcontains⟩

theorem read?_of_resolve? (hb : s.resolve? address = some b) :
    s.read? address = b.contents.read? (address - b.object.address) := by
  rw [read?, hb, Option.bind_some]

theorem exists_read? (hsize : b.contents.size = b.object.size)
    (hcontains : b.object.contains address = true) :
    ∃ x, b.contents.read? (address - b.object.address) = some x := by
  have hlt := (MemoryObject.contains_iff.mp hcontains).2
  rw [← hsize] at hlt
  exact ⟨_, Array.getElem?_eq_getElem hlt⟩

/-! ## Sound spaces -/

/-- The object can be bound: it has an address and a byte, and shares no address with
another bound object.  An object with the same first address gives way to it. -/
structure Admits (s : AddressSpace) (o : MemoryObject) : Prop where
  address_lt : o.address < addressEnd
  size_pos : 0 < o.size
  apart : ∀ b ∈ s.toList, b.object.address ≠ o.address → ¬ b.object.Overlaps o

/-- The space files its objects as it should, and they do not share addresses. -/
structure Sound (s : AddressSpace) : Prop where
  /-- An object is filed under its first address. -/
  filed : ∀ (k : Nat) (b : Binding), s.bindings[k]? = some b → b.object.address = k
  /-- The contents are as long as the object. -/
  filled : ∀ b ∈ s.toList, b.contents.size = b.object.size
  /-- An object that is bound could be bound again. -/
  admits : ∀ b ∈ s.toList, s.Admits b.object

theorem Admits.of_subset (ho : s.Admits o) (hsub : ∀ b ∈ t.toList, b ∈ s.toList) : t.Admits o where
  address_lt := ho.address_lt
  size_pos := ho.size_pos
  apart b hb := ho.apart b (hsub b hb)

namespace Sound

theorem mem_iff (h : s.Sound) : b ∈ s.toList ↔ s.bindings[b.object.address]? = some b := by
  rw [mem_toList]
  constructor
  · rintro ⟨k, hk⟩
    rw [h.filed k b hk]
    exact hk
  · exact fun hb => ⟨_, hb⟩

theorem eq_of_address (h : s.Sound) (hb : b ∈ s.toList) (hb' : b' ∈ s.toList)
    (heq : b.object.address = b'.object.address) : b = b' := by
  rw [h.mem_iff] at hb hb'
  rw [heq, hb', Option.some.injEq] at hb
  exact hb.symm

theorem empty : Sound {} where
  filed := by simp
  filled := by simp [mem_toList]
  admits := by simp [mem_toList]

theorem mem_toList_bind (h : s.Sound) : b ∈ (s.bind o c).toList ↔
    b = ⟨o, c⟩ ∨ b ∈ s.toList ∧ b.object.address ≠ o.address := by
  rw [mem_toList]
  simp only [AddressSpace.bind, Std.ExtTreeMap.getElem?_insert, Std.LawfulEqCmp.compare_eq_iff_eq]
  constructor
  · rintro ⟨k, hk⟩
    split at hk
    · cases hk
      exact .inl rfl
    · next hko =>
      refine .inr ⟨mem_toList.mpr ⟨k, hk⟩, ?_⟩
      rw [h.filed k b hk]
      exact Ne.symm hko
  · rintro (rfl | ⟨hb, hbo⟩)
    · exact ⟨o.address, if_pos rfl⟩
    · exact ⟨b.object.address, (if_neg (Ne.symm hbo)).trans (h.mem_iff.mp hb)⟩

theorem admits_bind {p : MemoryObject} (h : s.Sound) (hp : s.Admits p)
    (hop : o.address ≠ p.address → ¬ o.Overlaps p) : (s.bind o c).Admits p where
  address_lt := hp.address_lt
  size_pos := hp.size_pos
  apart := by
    intro b hb
    obtain rfl | ⟨hb, -⟩ := h.mem_toList_bind.mp hb
    · exact hop
    · exact hp.apart b hb

theorem bind (h : s.Sound) (ho : s.Admits o) (hc : c.size = o.size) : (s.bind o c).Sound where
  filed := by
    intro k b hb
    rw [AddressSpace.bind, Std.ExtTreeMap.getElem?_insert] at hb
    split at hb
    · next hk =>
      cases hb
      exact Std.LawfulEqCmp.compare_eq_iff_eq.mp hk
    · exact h.filed k b hb
  filled := by
    intro b hb
    obtain rfl | ⟨hb, -⟩ := h.mem_toList_bind.mp hb
    · exact hc
    · exact h.filled b hb
  admits := by
    intro b hb
    obtain rfl | ⟨hb, hbo⟩ := h.mem_toList_bind.mp hb
    · exact h.admits_bind ho (fun hne => absurd rfl hne)
    · exact h.admits_bind (h.admits b hb) fun _ hoverlaps => ho.apart b hb hbo hoverlaps.symm

theorem erase (h : s.Sound) (k : Nat) : Sound ⟨s.bindings.erase k⟩ := by
  have hsub (j : Nat) (b : Binding) (hb : (s.bindings.erase k)[j]? = some b) :
      s.bindings[j]? = some b := by
    rw [Std.ExtTreeMap.getElem?_erase] at hb
    split at hb
    · cases hb
    · exact hb
  have hmem : ∀ b ∈ toList ⟨s.bindings.erase k⟩, b ∈ s.toList := by
    intro b hb
    obtain ⟨j, hj⟩ := mem_toList.mp hb
    exact mem_toList.mpr ⟨j, hsub j b hj⟩
  exact {
    filed := fun j b hb => h.filed j b (hsub j b hb)
    filled := fun b hb => h.filled b (hmem b hb)
    admits := fun b hb => (h.admits b (hmem b hb)).of_subset hmem }

/-- The look-up gives the object that contains the address. -/
theorem resolve?_iff (h : s.Sound) : s.resolve? address = some b ↔
    b ∈ s.toList ∧ b.object.contains address = true := by
  rw [resolve?_eq_some]
  constructor
  · rintro ⟨k, hentry, hcontains⟩
    exact ⟨mem_toList.mpr ⟨k, (of_getEntryLE? hentry).1⟩, hcontains⟩
  · rintro ⟨hb, hcontains⟩
    have hbk := h.mem_iff.mp hb
    have hle := (MemoryObject.contains_iff.mp hcontains).1
    obtain ⟨k, c, hentry⟩ := exists_getEntryLE? hbk hle
    obtain ⟨hck, hka, hgreatest⟩ := of_getEntryLE? hentry
    have hc := mem_toList.mpr ⟨k, hck⟩
    obtain rfl := h.filed k c hck
    refine ⟨c.object.address, ?_, hcontains⟩
    -- An object that started between the two would share its first address with this one.
    obtain heq | hne := Decidable.em (b.object.address = c.object.address)
    · rw [hentry, h.eq_of_address hb hc heq]
    · have hadmits := h.admits c hc
      refine absurd ?_ (hadmits.apart b hb hne)
      exact MemoryObject.overlaps_of_between hadmits.address_lt hadmits.size_pos hcontains
        (hgreatest _ b hbk hle) hka

/-! ## Writing -/

theorem bind_self (h : s.Sound) (hb : b ∈ s.toList) : s.bind b.object b.contents = s := by
  refine congrArg AddressSpace.mk (Std.ExtTreeMap.ext_getElem? fun k => ?_)
  rw [Std.ExtTreeMap.getElem?_insert]
  split
  · next hk => rw [← Std.LawfulEqCmp.compare_eq_iff_eq.mp hk, h.mem_iff.mp hb]
  · rfl

/-- To change the contents of an object is to bind it again. -/
theorem modify?_eq {β : Type} (h : s.Sound) (f : Contents → Contents × β) :
    s.modify? address f = (s.resolve? address).map fun b =>
      (s.bind b.object (f b.contents).1, (f b.contents).2) := by
  rw [modify?, resolve?]
  cases hentry : s.bindings.getEntryLE? address with
  | none => rfl
  | some entry =>
    obtain ⟨k, b⟩ := entry
    obtain rfl := h.filed k b (of_getEntryLE? hentry).1
    rw [Option.bind_some, Option.bind_some]
    cases hc : b.object.contains address with
    | false => simp only [hc, Bool.false_eq_true, if_false, Option.map_none]
    | true => simp only [hc, if_true, Option.map_some, AddressSpace.bind]

/-- A write binds the object again with another byte, or leaves the space as it is. -/
theorem writeAt?_eq (h : s.Sound) {offset : Nat} : s.writeAt? address offset e =
    (s.resolve? address).map fun b =>
      (b.contents.write? offset e).elim (s, false) fun c => (s.bind b.object c, true) := by
  rw [writeAt?, h.modify?_eq]
  refine Option.map_congr fun b hb => ?_
  cases b.contents.write? offset e with
  | none =>
    rw [h.bind_self (h.resolve?_iff.mp hb).1]
    rfl
  | some c => rfl

/-- A write that is refused changes nothing. -/
theorem eq_of_writeAt?_false (h : s.Sound) {offset : Nat}
    (ht : s.writeAt? address offset e = some (t, false)) : t = s := by
  rw [h.writeAt?_eq] at ht
  obtain ⟨b, -, hb⟩ := Option.map_eq_some_iff.mp ht
  cases hw : b.contents.write? offset e with
  | none =>
    rw [hw] at hb
    exact (congrArg Prod.fst hb).symm
  | some c =>
    rw [hw] at hb
    cases congrArg Prod.snd hb

theorem write?_eq (h : s.Sound) : s.write? address e = (s.resolve? address).bind fun b =>
    (b.contents.write? (address - b.object.address) e).map (s.bind b.object) := by
  rw [write?]
  cases hb : s.resolve? address with
  | none => rfl
  | some b =>
    simp only [h.writeAt?_eq, hb, Option.map_some, Option.bind_some]
    cases b.contents.write? (address - b.object.address) e <;> rfl

theorem write?_eq_some (h : s.Sound) : s.write? address e = some t ↔
    ∃ b c, s.resolve? address = some b ∧
      b.contents.write? (address - b.object.address) e = some c ∧ s.bind b.object c = t := by
  simp only [h.write?_eq, Option.bind_eq_some_iff, Option.map_eq_some_iff, exists_and_left]

theorem write? (h : s.Sound) (ht : s.write? address e = some t) : t.Sound := by
  obtain ⟨b, c, hb, hc, rfl⟩ := h.write?_eq_some.mp ht
  have hmem := (h.resolve?_iff.mp hb).1
  exact h.bind (h.admits b hmem) ((Contents.size_of_write? hc).trans (h.filled b hmem))

/-- A byte can be written where an object contains it that may be written. -/
theorem isSome_write?_iff (h : s.Sound) : (s.write? address e).isSome = true ↔
    ∃ b ∈ s.toList, b.object.contains address = true ∧ b.contents.readOnly = false := by
  rw [Option.isSome_iff_exists]
  constructor
  · rintro ⟨t, ht⟩
    obtain ⟨b, c, hb, hc, -⟩ := h.write?_eq_some.mp ht
    obtain ⟨hmem, hcontains⟩ := h.resolve?_iff.mp hb
    exact ⟨b, hmem, hcontains, (Contents.write?_eq_some.mp hc).1⟩
  · rintro ⟨b, hmem, hcontains, hwritable⟩
    have hlt := (MemoryObject.contains_iff.mp hcontains).2
    rw [← h.filled b hmem] at hlt
    exact ⟨_, h.write?_eq_some.mpr ⟨b, _, h.resolve?_iff.mpr ⟨hmem, hcontains⟩,
      Contents.write?_eq_some.mpr ⟨hwritable, hlt, rfl⟩, rfl⟩⟩

/-- Binding an object again changes what is found in it. -/
theorem resolve?_bind_object (h : s.Sound) (hb : b ∈ s.toList) (hc : c.size = b.object.size) :
    (s.bind b.object c).resolve? address =
      if b.object.contains address then some ⟨b.object, c⟩ else s.resolve? address := by
  have hbind := h.bind (h.admits b hb) hc
  refine Option.ext fun b' => ?_
  rw [hbind.resolve?_iff, h.mem_toList_bind]
  split
  · next hcontains =>
    rw [Option.some.injEq]
    constructor
    · rintro ⟨rfl | ⟨hb', hne⟩, hcontains'⟩
      · rfl
      · -- Only one object contains the address.
        have hfound := (h.resolve?_iff.mpr ⟨hb, hcontains⟩).symm.trans
          (h.resolve?_iff.mpr ⟨hb', hcontains'⟩)
        cases hfound
        exact absurd rfl hne
    · rintro rfl
      exact ⟨.inl rfl, hcontains⟩
  · next hcontains =>
    rw [h.resolve?_iff]
    constructor
    · rintro ⟨rfl | ⟨hb', -⟩, hcontains'⟩
      · exact absurd hcontains' hcontains
      · exact ⟨hb', hcontains'⟩
    · rintro ⟨hb', hcontains'⟩
      refine ⟨.inr ⟨hb', fun heq => hcontains ?_⟩, hcontains'⟩
      exact h.eq_of_address hb' hb heq ▸ hcontains'

/-- A write changes the byte at its address. -/
theorem read?_of_write? (h : s.Sound) (ht : s.write? address e = some t) (other : Nat) :
    t.read? other = if other = address then some e else s.read? other := by
  obtain ⟨b, c, hb, hc, rfl⟩ := h.write?_eq_some.mp ht
  obtain ⟨hmem, hcontains⟩ := h.resolve?_iff.mp hb
  have hsize := (Contents.size_of_write? hc).trans (h.filled b hmem)
  rw [read?, h.resolve?_bind_object hmem hsize]
  cases hother : b.object.contains other with
  | true =>
    have hread := read?_of_resolve? (h.resolve?_iff.mpr ⟨hmem, hother⟩)
    have hsame : other - b.object.address = address - b.object.address ↔ other = address := by
      rw [MemoryObject.contains_iff] at hcontains hother
      omega
    rw [if_pos rfl, Option.bind_some, Contents.read?_of_write? hc, hread]
    simp only [hsame]
  | false =>
    have hne : other ≠ address := by
      rintro rfl
      rw [hcontains] at hother
      cases hother
    rw [if_neg Bool.false_ne_true, if_neg hne, read?]

end Sound

/-! ## Spaces that come up -/

/-- The spaces that are made from nothing by binding what they admit, unbinding and
writing. -/
inductive Reached : AddressSpace → Prop
  | empty : Reached {}
  | bind {s : AddressSpace} {o : MemoryObject} {c : Contents} :
      Reached s → s.Admits o → c.size = o.size → Reached (s.bind o c)
  | unbind {s : AddressSpace} (o : MemoryObject) : Reached s → Reached (s.unbind o)
  | defineFixed {s t : AddressSpace} {id : ObjectId} {address size : Nat} :
      Reached s → s.Admits (.fixed id address size) → s.defineFixed id address size = .ok t →
        Reached t
  | undefineFixed {s : AddressSpace} (address : Nat) :
      Reached s → Reached (s.undefineFixed address)
  | write {s t : AddressSpace} {address : Nat} {e : Expr} :
      Reached s → s.write? address e = some t → Reached t

theorem Reached.sound (h : s.Reached) : s.Sound := by
  induction h with
  | empty => exact .empty
  | bind _ ho hc ih => exact ih.bind ho hc
  | unbind o _ ih =>
    rw [AddressSpace.unbind]
    split
    · exact ih.erase _
    · exact ih
  | defineFixed _ ho ht ih =>
    obtain ⟨c, hc, ht⟩ := bind_eq_ok.mp ht
    cases ht
    exact ih.bind ho (Contents.size_of_zero hc)
  | undefineFixed address _ ih =>
    rw [AddressSpace.undefineFixed]
    split
    · exact ih.erase _
    · exact ih
  | write _ ht ih => exact ih.write? ht

/-- The look-up gives the only object that contains an address, if there is one.  A byte
can be written where that object is not read-only.  Then it is read back, all other bytes
are as before, and a write that is refused leaves everything as it was. -/
theorem Reached.resolves_and_writes (h : s.Reached) (address : Nat) (e : Expr) :
    (∀ b, s.resolve? address = some b ↔ b ∈ s.toList ∧ b.object.contains address = true) ∧
    ((s.write? address e).isSome = true ↔
      ∃ b ∈ s.toList, b.object.contains address = true ∧ b.contents.readOnly = false) ∧
    (∀ t, s.write? address e = some t → t.read? address = some e ∧
      ∀ other, other ≠ address → t.read? other = s.read? other) ∧
    ∀ t offset, s.writeAt? address offset e = some (t, false) → t = s := by
  have hs := h.sound
  refine ⟨fun b => hs.resolve?_iff, hs.isSome_write?_iff, fun t ht => ⟨?_, fun other hne => ?_⟩,
    fun t offset ht => hs.eq_of_writeAt?_false ht⟩
  · rw [hs.read?_of_write? ht, if_pos rfl]
  · rw [hs.read?_of_write? ht, if_neg hne]

/-- Two bytes that may be written, and the last address, which may not. -/
theorem resolves_and_writes_lastAddress :
    let low : MemoryObject := { id := ⟨1⟩, address := 0x2000, size := 2, name := "buf" }
    let last : MemoryObject :=
      { id := ⟨2⟩, address := 0xffffffffffffffff, size := 1, name := "last" }
    let lowBytes : Contents := ⟨#[.constant () 0 8, .constant () 0 8], false⟩
    let lastByte : Contents := ⟨#[.constant () 5 8], true⟩
    let s := (bind {} low lowBytes).bind last lastByte
    let e : Expr := .constant () 7 8
    s.Reached ∧ s.resolve? 0xffffffffffffffff = some ⟨last, lastByte⟩ ∧
      s.write? 0xffffffffffffffff e = none ∧
      ∃ t, s.write? 0x2001 e = some t ∧ t.read? 0x2001 = some e ∧
        t.read? 0xffffffffffffffff = some (.constant () 5 8) := by
  intro low last lowBytes lastByte s e
  have hadmitsLow : Admits {} low := ⟨by decide, by decide, by simp [mem_toList]⟩
  have hlow : (bind {} low lowBytes).Reached := .bind .empty hadmitsLow rfl
  have hadmitsLast : (bind {} low lowBytes).Admits last := by
    refine ⟨by decide, by decide, fun b hb _ => ?_⟩
    obtain rfl | ⟨hb, -⟩ := Sound.empty.mem_toList_bind.mp hb
    · rintro ⟨a, -, hlow, hlast⟩
      simp only [MemoryObject.contains_iff, low, last] at hlow hlast
      omega
    · simp [mem_toList] at hb
  have hs : s.Reached := .bind hlow hadmitsLast rfl
  have hmemLast : ⟨last, lastByte⟩ ∈ s.toList := hlow.sound.mem_toList_bind.mpr (.inl rfl)
  have hmemLow : ⟨low, lowBytes⟩ ∈ s.toList :=
    hlow.sound.mem_toList_bind.mpr
      (.inr ⟨Sound.empty.mem_toList_bind.mpr (.inl rfl), by decide⟩)
  obtain ⟨hresolve, hwritable, -, -⟩ := hs.resolves_and_writes 0xffffffffffffffff e
  obtain ⟨-, hwritable', hwritten, -⟩ := hs.resolves_and_writes 0x2001 e
  have hlast := (hresolve _).mpr ⟨hmemLast, by decide⟩
  refine ⟨hs, hlast, ?_, ?_⟩
  · rw [← Option.not_isSome_iff_eq_none, hwritable]
    rintro ⟨b, hb, hcontains, hreadOnly⟩
    have hfound := hlast.symm.trans ((hresolve b).mpr ⟨hb, hcontains⟩)
    cases hfound
    cases hreadOnly
  · obtain ⟨t, ht⟩ := Option.isSome_iff_exists.mp
      (hwritable'.mpr ⟨_, hmemLow, by decide, rfl⟩)
    obtain ⟨hread, hothers⟩ := hwritten t ht
    refine ⟨t, ht, hread, ?_⟩
    rw [hothers _ (by decide), read?_of_resolve? hlast]
    rfl

end AddressSpace

end PmemPaths.Memory
