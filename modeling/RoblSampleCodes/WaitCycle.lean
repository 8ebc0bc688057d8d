import Mathlib

namespace RoblSampleCodes.WaitCycle

open Relation

variable {α : Type} {r : α → α → Prop}

theorem exists_cycle {S : Set α} (hfin : S.Finite) (hne : S.Nonempty)
    (h : ∀ a ∈ S, ∃ b ∈ S, TransGen r a b) : ∃ a ∈ S, TransGen r a a := by
  by_contra hno
  have hirrefl : ∀ a ∈ S, ¬ TransGen r a a := fun a ha hr => hno ⟨a, ha, hr⟩
  have := hfin.to_subtype
  let after : S → S → Prop := fun b a => TransGen r a.val b.val
  have : IsTrans S after := ⟨fun _ _ _ hab hbc => hbc.trans hab⟩
  have : Std.Irrefl after := ⟨fun a => hirrefl a a.property⟩
  have hwf : WellFounded after := Finite.wellFounded_of_trans_of_irrefl after
  obtain ⟨⟨a, ha⟩, -, hlast⟩ := hwf.has_min Set.univ ⟨⟨_, hne.some_mem⟩, trivial⟩
  obtain ⟨b, hb, hab⟩ := h a ha
  exact hlast ⟨b, hb⟩ trivial hab

theorem cycle_succ {a : α} (h : TransGen r a a) : ∃ b, r a b ∧ TransGen r b b := by
  obtain ⟨b, hab, hba⟩ := TransGen.head'_iff.mp h
  exact ⟨b, hab, TransGen.tail' hba hab⟩

def LeadsToCycle (r : α → α → Prop) (a : α) : Prop := ∃ b, ReflTransGen r a b ∧ TransGen r b b

theorem LeadsToCycle.succ {a : α} (h : LeadsToCycle r a) : ∃ b, r a b ∧ LeadsToCycle r b := by
  obtain ⟨c, hac, hc⟩ := h
  obtain rfl | ⟨b, hab, hbc⟩ := hac.cases_head
  · obtain ⟨b, hab, hb⟩ := cycle_succ hc
    exact ⟨b, hab, b, .refl, hb⟩
  · exact ⟨b, hab, c, hbc, hc⟩

theorem LeadsToCycle.of_path {a b : α} (hab : ReflTransGen r a b) (h : LeadsToCycle r b) :
    LeadsToCycle r a := by
  obtain ⟨c, hbc, hc⟩ := h
  exact ⟨c, hab.trans hbc, hc⟩

/-- In a finite set from which every element leads on to another one, all elements lead to a cycle. -/
theorem leadsToCycle {S : Set α} (hfin : S.Finite) (h : ∀ a ∈ S, ∃ b ∈ S, TransGen r a b) {a : α}
    (ha : a ∈ S) : LeadsToCycle r a := by
  have hsub : {b ∈ S | ReflTransGen r a b}.Finite := hfin.subset (Set.sep_subset S _)
  obtain ⟨b, ⟨-, hab⟩, hb⟩ := exists_cycle (r := r) hsub ⟨a, ha, .refl⟩ (by
    rintro b ⟨hb, hab⟩
    obtain ⟨c, hc, hbc⟩ := h b hb
    exact ⟨c, ⟨hc, hab.trans hbc.to_reflTransGen⟩, hbc⟩)
  exact ⟨b, hab, hb⟩

end RoblSampleCodes.WaitCycle
