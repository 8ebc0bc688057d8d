import Mathlib

namespace RoblSampleCodes.SlotList

variable {α β : Type}

def compact (l : List (Option α)) : List (Option α) := l.filter Option.isSome

def Packed (l : List (Option α)) : Prop := l.Pairwise (fun x y => x = none → y = none)

def Distinct (f : α → β) (l : List (Option α)) : Prop := (l.reduceOption.map f).Nodup

variable {f : α → β} {l : List (Option α)} {a b : α} {i j : Nat}

theorem mem_reduceOption : a ∈ l.reduceOption ↔ ∃ i : Nat, l[i]? = some (some a) := by
  rw [List.reduceOption_mem_iff, List.mem_iff_getElem?]

theorem compact_cons_some : compact (some a :: l) = some a :: compact l := rfl

theorem compact_cons_none : compact (none :: l) = compact l := rfl

theorem reduceOption_compact : (compact l).reduceOption = l.reduceOption := by
  induction l with
  | nil => rfl
  | cons x l ih =>
    cases x with
    | none => rw [compact_cons_none, ih, List.reduceOption_cons_of_none]
    | some a => rw [compact_cons_some, List.reduceOption_cons_of_some, List.reduceOption_cons_of_some, ih]

theorem reduceOption_set_sublist : (l.set i none).reduceOption.Sublist l.reduceOption := by
  induction l generalizing i with
  | nil => exact List.Sublist.refl _
  | cons x l ih =>
    cases i with
    | zero =>
      rw [List.set_cons_zero, List.reduceOption_cons_of_none]
      cases x with
      | none => rw [List.reduceOption_cons_of_none]
      | some a =>
        rw [List.reduceOption_cons_of_some]
        exact List.sublist_cons_self _ _
    | succ i =>
      rw [List.set_cons_succ]
      cases x with
      | none =>
        rw [List.reduceOption_cons_of_none, List.reduceOption_cons_of_none]
        exact ih
      | some a =>
        rw [List.reduceOption_cons_of_some, List.reduceOption_cons_of_some]
        exact ih.cons_cons a

theorem Distinct.index_eq (h : Distinct f l) (ha : l[i]? = some (some a)) (hb : l[j]? = some (some b))
    (hf : f a = f b) : i = j := by
  induction l generalizing i j with
  | nil => cases ha
  | cons x l ih =>
    have htail : Distinct f l := by
      cases x with
      | none => exact h
      | some c => exact (List.nodup_cons.mp h).2
    have hhead : ∀ {c d : α} {j : Nat}, x = some c → l[j]? = some (some d) → f c ≠ f d := by
      rintro c d j rfl hd he
      refine (List.nodup_cons.mp h).1 ?_
      rw [List.mem_map]
      exact ⟨d, mem_reduceOption.mpr ⟨j, hd⟩, he.symm⟩
    cases i with
    | zero =>
      cases j with
      | zero => rfl
      | succ j => exact absurd hf (hhead (Option.some.inj ha) hb)
    | succ i =>
      cases j with
      | zero => exact absurd hf.symm (hhead (Option.some.inj hb) ha)
      | succ j => exact congrArg Nat.succ (ih htail ha hb)

theorem Packed.compact_getElem? (h : Packed l) (ha : l[i]? = some (some a)) :
    (compact l)[i]? = some (some a) := by
  induction l generalizing i with
  | nil => cases ha
  | cons x l ih =>
    obtain ⟨hhead, htail⟩ := List.pairwise_cons.mp h
    cases x with
    | none =>
      obtain ha | ha := List.mem_cons.mp (List.mem_of_getElem? ha)
      · cases ha
      · cases hhead _ ha rfl
    | some c =>
      rw [compact_cons_some]
      cases i with
      | zero => exact ha
      | succ i => exact ih htail ha

theorem compact_append_none : compact (l ++ [none]) = compact l := by
  rw [compact, List.filter_append]
  exact List.append_nil _

theorem empty_of_shift (h : ∀ (i : Nat) a, l[i]? = some (some a) → (compact l)[i + 1]? = some (some a)) :
    ∀ x ∈ l, x = none := by
  induction l using List.reverseRecOn with
  | nil =>
    intro x hx
    cases hx
  | append_singleton l y ih =>
    have hy : y = none := by
      cases y with
      | none => rfl
      | some a =>
        have hlast := h l.length a (List.getElem?_concat_length ..)
        have hlen : (compact (l ++ [some a])).length ≤ l.length + 1 := by
          have := List.length_filter_le Option.isSome (l ++ [some a])
          rwa [List.length_append] at this
        rw [List.getElem?_eq_none hlen] at hlast
        cases hlast
    subst hy
    rw [compact_append_none] at h
    have hl := ih (fun i a ha => h i a (by
      rw [List.getElem?_append_left (List.getElem?_eq_some_iff.mp ha).1, ha]))
    intro x hx
    obtain hx | hx := List.mem_append.mp hx
    · exact hl x hx
    · exact List.mem_singleton.mp hx

theorem packed_of_compact (h : ∀ (i : Nat) a, l[i]? = some (some a) → (compact l)[i]? = some (some a)) :
    Packed l := by
  induction l with
  | nil => exact .nil
  | cons x l ih =>
    cases x with
    | some c =>
      refine List.pairwise_cons.mpr ⟨fun _ _ hx => ?_, ih (fun i a ha => h (i + 1) a ha)⟩
      cases hx
    | none =>
      have hempty : ∀ y ∈ l, y = none := empty_of_shift (fun i a ha => h (i + 1) a ha)
      refine List.pairwise_cons.mpr ⟨fun y hy _ => hempty y hy, ?_⟩
      exact List.pairwise_of_forall_mem_list (fun _ _ y hy _ => hempty y hy)

end RoblSampleCodes.SlotList
