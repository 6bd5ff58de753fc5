/-
**Sets of characters given as ranges of code points.**

The properties that the Unicode standard assigns to characters are unions of a few hundred ranges.
A `Ranges` lists such ranges from low to high, both ends included, and `Ranges.has` looks a
character up.

Main definitions:

* `PageTemplate.Text.Ranges` — the ranges of a set of characters;
* `PageTemplate.Text.Ranges.has` — membership, by a walk that ends at the first range that lies
  above the character.
-/

set_option relaxedAutoImplicit false
set_option autoImplicit false

namespace PageTemplate.Text

/-- Ranges of code points, each with both of its ends, from low to high. -/
abbrev Ranges := List (Nat × Nat)

namespace Ranges

/-- Whether the code point `n` lies in one of the ranges.  The ranges are sorted, so the walk stops
at the first one that starts above `n`. -/
def hasCode : Ranges → Nat → Bool
  | [], _ => false
  | (lo, hi) :: rest, n => lo ≤ n && (n ≤ hi || hasCode rest n)

/-- Whether a character lies in one of the ranges. -/
def has (r : Ranges) (c : Char) : Bool :=
  r.hasCode c.toNat

@[simp] theorem hasCode_nil (n : Nat) : hasCode [] n = false := rfl

theorem hasCode_cons (lo hi n : Nat) (rest : Ranges) :
    hasCode ((lo, hi) :: rest) n = (lo ≤ n && (n ≤ hi || hasCode rest n)) := rfl

/-- A code point of the set lies between the ends of one of its ranges. -/
theorem exists_mem_of_hasCode {r : Ranges} {n : Nat} (h : r.hasCode n = true) :
    ∃ p ∈ r, p.1 ≤ n ∧ n ≤ p.2 := by
  induction r with
  | nil => simp at h
  | cons p rest ih =>
      obtain ⟨lo, hi⟩ := p
      simp only [hasCode_cons, Bool.and_eq_true, Bool.or_eq_true, decide_eq_true_eq] at h
      rcases h.2 with hn | hn
      · exact ⟨(lo, hi), by simp, h.1, hn⟩
      · obtain ⟨q, hq, hlo, hhi⟩ := ih hn
        exact ⟨q, by simp [hq], hlo, hhi⟩

end Ranges

end PageTemplate.Text
