import Nstd.Core.System

/-!
# Simulations in which some steps are not seen

* **`System.Run.stuttering`** — steps that emit nothing may leave the other system where it is.
-/

namespace Nstd.System

variable {S G E : Type}

/-- **A simulation** in which steps that emit nothing need not be followed -/
theorem Run.stuttering {concrete : System S E} {abstract : System G E} {refines : S → G → Prop}
    (hinit : ∀ s, concrete.initial s → ∃ g, abstract.initial g ∧ refines s g)
    (hstep : ∀ s g es s', refines s g → concrete.step s es s' →
      es = [] ∧ refines s' g ∨ ∃ g', abstract.step g es g' ∧ refines s' g')
    {trace : List E} {s : S} (h : concrete.Run trace s) :
    ∃ g, abstract.Run trace g ∧ refines s g := by
  induction h with
  | start hs =>
    obtain ⟨g, hg, hrefines⟩ := hinit _ hs
    exact ⟨g, .start hg, hrefines⟩
  | next _ hs ih =>
    obtain ⟨g, hrun, hrefines⟩ := ih
    rcases hstep _ _ _ _ hrefines hs with ⟨rfl, hsame⟩ | ⟨g', hg', hrefines'⟩
    · exact ⟨g, by rwa [List.append_nil], hsame⟩
    · exact ⟨g', .next hrun hg', hrefines'⟩

end Nstd.System
