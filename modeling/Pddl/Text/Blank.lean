
namespace Pddl.Text

/-- Blank, tab, line feed, form feed and carriage return; the vertical tab is not among them. -/
def isGap (c : Char) : Bool :=
  c = ' ' || c = '\t' || c = '\n' || c = '\x0c' || c = '\r'

/-- Ranges of the Unicode property `White_Space`. -/
def blankRanges : List (Nat × Nat) := [
  (0x09, 0x0D), (0x20, 0x20), (0x85, 0x85), (0xA0, 0xA0), (0x1680, 0x1680), (0x2000, 0x200A),
  (0x2028, 0x2029), (0x202F, 0x202F), (0x205F, 0x205F), (0x3000, 0x3000)]

def inRanges (ranges : List (Nat × Nat)) (c : Char) : Bool :=
  ranges.any fun (first, last) => first ≤ c.toNat && c.toNat ≤ last

def isBlank (c : Char) : Bool :=
  inRanges blankRanges c

def isDelimiter (c : Char) : Bool :=
  isBlank c || c = '(' || c = ')' || c = ';' || c = '['

def isWordChar (c : Char) : Bool :=
  !isDelimiter c

theorem isBlank_of_isGap (c : Char) (h : isGap c = true) : isBlank c = true := by
  simp only [isGap, Bool.or_eq_true, decide_eq_true_eq] at h
  rcases h with (((rfl | rfl) | rfl) | rfl) | rfl <;> rfl

theorem isWordChar_of_isGap (c : Char) (h : isGap c = true) : isWordChar c = false := by
  simp [isWordChar, isDelimiter, isBlank_of_isGap c h]

end Pddl.Text
