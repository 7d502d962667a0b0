import PmemPaths.Proofs.Nvm.Desk
import PmemPaths.Proofs.Nvm.Transfer
import PmemPaths.Proofs.PointsTo.Stopped

/-!
# Questions that share a memo

All descriptors of a session ask the same memo of sites, which keeps what the analysis
answered first.  So a descriptor may be told what was looked up for another one.  Between
the questions, descriptors are made from each other and contexts are asked for.

Every answer of such a run is what the analysis and the facts say, and tells nothing of
what was asked before (`Desk.Logs.answers_exact`).  The memo keeps only the allocation
sites among the objects of a value.  For what the points-to analysis of the program finds
that makes no difference: it finds no other objects (`Analysis.sites_ofModule`).
-/

namespace PmemPaths.Nvm

open PmemPaths.Ir
open PmemPaths.PointsTo (Objects Solution Options)

variable {a : Analysis}

/-- A question that was answered: whether a value may point to persistent memory. -/
structure Answer where
  /-- The facts that were known. -/
  facts : Facts
  /-- The value. -/
  value : ValueId
  /-- It may. -/
  yes : Bool

/-- An answer does not depend on the session. -/
theorem Session.mayPoint_iff (s : Session a) (d : Facts) (v : ValueId) :
    (mayPoint d v s).1 = true ↔ v ∉ d.notLocal ∧ v ∉ d.notGlobal ∧
      ∃ o ∈ a.pointsTo v, a.module.isAllocationSite o = true ∧ o ∈ d.allocs := by
  rw [mayPoint_quiet.answer, Facts.mayPoint_iff, Facts.meets_iff]
  refine and_congr_right fun _ => and_congr_right fun _ => exists_congr fun o => ?_
  rw [Facts.mem_sites, and_assoc]

/-- The sites of what the points-to analysis finds, with any options, are all of it. -/
theorem Analysis.sites_ofModule {m : Module} (hm : m.Linked) (options : Options) (v : ValueId) :
    Analysis.sites ⟨m, (Solution.ofModule m options).pointsTo⟩ v =
      (Solution.ofModule m options).pointsTo v := by
  refine Std.ExtTreeSet.ext_mem fun o => ?_
  rw [Facts.mem_sites]
  refine and_iff_left_of_imp fun ho => ?_
  exact ((Solution.stopped_ofModule m options).allocates hm ho).isAllocationSite hm

namespace Desk

variable {k : Desk a} {log : List Answer}

/-- The answers that were given, the last of them first, from a new session on.  Questions
are put by any descriptor that is held, and any other operation may come between them. -/
inductive Logs : List Answer → Desk a → Prop
  | start : Logs [] {}
  | ask {log : List Answer} {k : Desk a} {d : Descriptor} {v : ValueId} {yes : Bool}
      {s : Session a} : Logs log k → d ∈ k.descriptors →
      Session.mayPoint d.value v k.session = (yes, s) →
      Logs (⟨d.value, v, yes⟩ :: log) { k with session := s }
  | step {log : List Answer} {k k' : Desk a} : Logs log k → k.Step k' → Logs log k'

/-- Every answer is yes exactly if the value is in neither list of exceptions and some
allocation site that the analysis has it point to is known to be persistent.  With the
points-to analysis of the program, all objects that a value points to are such sites. -/
theorem Logs.answers_exact (h : Logs log k) :
    (∀ q ∈ log, q.yes = true ↔ q.value ∉ q.facts.notLocal ∧ q.value ∉ q.facts.notGlobal ∧
      ∃ o ∈ a.pointsTo q.value, a.module.isAllocationSite o = true ∧ o ∈ q.facts.allocs) ∧
    ∀ (l : Listing) (m : Module), l.build = .ok m → ∀ (options : Options) (v : ValueId),
      Analysis.sites ⟨m, (Solution.ofModule m options).pointsTo⟩ v =
        (Solution.ofModule m options).pointsTo v := by
  refine ⟨?_, fun l m hl => Analysis.sites_ofModule (Listing.build_built hl).linked⟩
  induction h with
  | start => exact List.forall_mem_nil _
  | @ask _ k d v _ _ _ _ hyes ih =>
    refine List.forall_mem_cons.mpr ⟨?_, ih⟩
    have hiff := Session.mayPoint_iff k.session d.value v
    rwa [hyes] at hiff
  | step _ _ ih => exact ih

/-- An analysis that has every value point to a call and to a return. -/
def callAndReturn (m : Module) : Analysis where
  module := m
  pointsTo _ := .ofList ([⟨5⟩, ⟨6⟩] : List ValueId)

/-- Two descriptors are asked about one value.  One of them knows that the call is
persistent, the other one says so of the return, which is no site.  The second answer is
no, with the sites that were looked up for the first. -/
theorem Logs.answers_exact_shared : ∃ m, allocatorWrapper.build = .ok m ∧
    (∃ k : Desk (callAndReturn m), Logs
      [⟨.initial m [] [⟨6⟩], ⟨7⟩, false⟩, ⟨.initial m [] [⟨5⟩], ⟨7⟩, true⟩] k) ∧
    ∀ options v, Analysis.sites ⟨m, (Solution.ofModule m options).pointsTo⟩ v =
      (Solution.ofModule m options).pointsTo v := by
  obtain ⟨m, hl, hcall, hreturn, hnone⟩ := Listing.exists_build (l := allocatorWrapper)
    (p := fun m => m.isAllocationSite ⟨5⟩ ∧ m.isAllocationSite ⟨6⟩ = false ∧
      Facts.callsOf m [] = [])
    (by decide +kernel)
  let first : Descriptor := ⟨0, .initial m [] [⟨5⟩]⟩
  let second : Descriptor := ⟨1, .initial m [] [⟨6⟩]⟩
  have hone : Logs [] (⟨[first], [], { nextId := 1 }⟩ : Desk (callAndReturn m)) :=
    .step .start (.descriptor (.initial [] [⟨5⟩]) rfl)
  have hheld : Logs [] (⟨[second, first], [], { nextId := 2 }⟩ : Desk (callAndReturn m)) :=
    hone.step (.descriptor (.initial [] [⟨6⟩]) rfl)
  obtain ⟨yes, s, hyes⟩ : ∃ yes s, Session.mayPoint first.value ⟨7⟩ { nextId := 2 } = (yes, s) :=
    Prod.exists.mp ⟨_, rfl⟩
  obtain ⟨no, s', hno⟩ : ∃ no s', Session.mayPoint second.value ⟨7⟩ s = (no, s') :=
    Prod.exists.mp ⟨_, rfl⟩
  have hasked := (hheld.ask (d := first) (by simp) hyes).ask (d := second) (by simp) hno
  obtain ⟨hexact, hsites⟩ := hasked.answers_exact
  rw [List.forall_mem_cons, List.forall_mem_cons] at hexact
  obtain ⟨hsecond, hfirst, -⟩ := hexact
  have hempty : (⟨7⟩ : ValueId) ∉ (∅ : Objects) := Std.ExtTreeSet.not_mem_empty
  obtain rfl : yes = true := hfirst.mpr
    ⟨hempty, hempty, ⟨5⟩, by simp [callAndReturn], hcall, by simp [first, Facts.initial]⟩
  obtain rfl : no = false := by
    rw [← Bool.not_eq_true, hsecond]
    rintro ⟨-, -, o, -, hsite, halloc⟩
    obtain rfl : (⟨6⟩ : ValueId) = o := by simpa [second, Facts.initial, hnone] using halloc
    exact absurd (hsite.symm.trans hreturn) (by decide)
  exact ⟨m, hl, ⟨_, hasked⟩, hsites _ m hl⟩

end Desk

end PmemPaths.Nvm
