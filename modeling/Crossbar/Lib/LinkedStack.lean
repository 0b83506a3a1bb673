import Mathlib.Data.List.Nodup
import Mathlib.Logic.Function.Basic

namespace Crossbar.Lib

/-!
# Intrusive linked stacks

A stack kept as links inside its elements: `Linked link nil h l` says that following `link`
from the head `h` visits exactly the elements of `l`, in order, and ends in `nil`.  Pushing
stores the link of an element that is not on the stack (`Linked.update`) and then moves the
head (`Linked.push`); popping moves the head to the link of the first element
(`Linked.pop`).
-/

variable {α : Type*}

/-- Following `link` from `h` visits `l` and ends in `nil`. -/
def Linked (link : α → α) (nil : α) : α → List α → Prop
  | h, [] => h = nil
  | h, b :: l => h = b ∧ b ≠ nil ∧ Linked link nil (link b) l

namespace Linked

variable {link : α → α} {nil h b : α} {l : List α}

/-- A link that is not on the stack may be stored. -/
theorem update [DecidableEq α] (hl : Linked link nil h l) (hb : b ∉ l) (x : α) :
    Linked (Function.update link b x) nil h l := by
  induction l generalizing h with
  | nil => exact hl
  | cons c l ih =>
    obtain ⟨hc, hne, hrest⟩ := hl
    rw [List.mem_cons, not_or] at hb
    refine ⟨hc, hne, ?_⟩
    rw [Function.update_of_ne (Ne.symm hb.1)]
    exact ih hrest hb.2

/-- Push: the element's link already points at the head. -/
theorem push (hl : Linked link nil h l) (hb : b ≠ nil) (hlink : link b = h) :
    Linked link nil b (b :: l) := by
  refine ⟨rfl, hb, ?_⟩
  rw [hlink]
  exact hl

/-- Pop: a head that is not `nil` is the first element, and its link the rest. -/
theorem pop (hl : Linked link nil h l) (hh : h ≠ nil) :
    ∃ l', l = h :: l' ∧ Linked link nil (link h) l' := by
  cases l with
  | nil => exact absurd hl hh
  | cons c l' =>
    obtain ⟨rfl, _, hrest⟩ := hl
    exact ⟨l', rfl, hrest⟩

/-- The head is `nil` exactly when the stack is empty. -/
theorem head_eq_nil (hl : Linked link nil h l) : h = nil ↔ l = [] := by
  cases l with
  | nil => exact ⟨fun _ => rfl, fun _ => hl⟩
  | cons c l' =>
    obtain ⟨rfl, hne, _⟩ := hl
    exact ⟨fun heq => absurd heq hne, nofun⟩

/-- The links determine the stack. -/
theorem unique {l' : List α} (hl : Linked link nil h l) (hl' : Linked link nil h l') : l = l' := by
  induction l generalizing h l' with
  | nil => exact (hl'.head_eq_nil.mp hl).symm
  | cons c l ih =>
    obtain ⟨rfl, hne, hrest⟩ := hl
    obtain ⟨l'', rfl, hrest'⟩ := hl'.pop hne
    rw [ih hrest hrest']

/-- The link of an element is another element or `nil`. -/
theorem link_mem (hl : Linked link nil h l) (hb : b ∈ l) : link b = nil ∨ link b ∈ l := by
  induction l generalizing h with
  | nil => cases hb
  | cons c l ih =>
    obtain ⟨_, _, hrest⟩ := hl
    rcases List.mem_cons.mp hb with rfl | hmem
    · cases l with
      | nil => exact Or.inl hrest
      | cons d l' =>
        right
        rw [hrest.1]
        simp
    · rcases ih hrest hmem with hnil | hin
      · exact Or.inl hnil
      · exact Or.inr (List.mem_cons_of_mem _ hin)

end Linked

end Crossbar.Lib
