import Pddl.Error
import Pddl.Text.Blank

namespace Pddl

open Text

/-- Cuts `cs` behind the parenthesis that closes the outermost one, when `depth` of them are open
already. -/
def closeGroup (depth : Nat) : List Char → Option (List Char × List Char)
  | [] => none
  | c :: cs =>
    if c = '(' then (closeGroup (depth + 1) cs).map fun (group, rest) => (c :: group, rest)
    else if c = ')' && depth ≤ 1 then some ([c], cs)
    else
      let depth := if c = ')' then depth - 1 else depth
      (closeGroup depth cs).map fun (group, rest) => (c :: group, rest)

theorem closeGroup_append {depth : Nat} {cs group rest : List Char}
    (h : closeGroup depth cs = some (group, rest)) : group ++ rest = cs ∧ group ≠ [] := by
  induction cs generalizing depth group with
  | nil => simp [closeGroup] at h
  | cons c cs ih =>
    unfold closeGroup at h
    split at h
    · obtain ⟨⟨g, r⟩, hg, he⟩ := Option.map_eq_some_iff.1 h
      simp only [Prod.mk.injEq] at he
      obtain ⟨rfl, rfl⟩ := he
      simp [(ih hg).1]
    · split at h
      · simp only [Option.some.injEq, Prod.mk.injEq] at h
        obtain ⟨rfl, rfl⟩ := h
        simp
      · obtain ⟨⟨g, r⟩, hg, he⟩ := Option.map_eq_some_iff.1 h
        simp only [Prod.mk.injEq] at he
        obtain ⟨rfl, rfl⟩ := he
        simp [(ih hg).1]

theorem length_of_closeGroup {depth : Nat} {cs group rest : List Char}
    (h : closeGroup depth cs = some (group, rest)) : rest.length < cs.length := by
  have ⟨happ, hne⟩ := closeGroup_append h
  have hlen := congrArg List.length happ
  have hpos := List.length_pos_iff.2 hne
  simp only [List.length_append] at hlen
  omega

theorem length_group_le {depth : Nat} {cs group rest : List Char}
    (h : closeGroup depth cs = some (group, rest)) : group.length ≤ cs.length := by
  have hlen := congrArg List.length (closeGroup_append h).1
  simp only [List.length_append] at hlen
  omega

/-- What stands directly inside a pair of parentheses. -/
inductive Item where
  | word (here : Excerpt)
  | group (here : Excerpt)
  deriving DecidableEq, Repr

namespace Item

def excerpt : Item → Excerpt
  | .word e => e
  | .group e => e

end Item

namespace Excerpt

/-- The parenthesized group or the number that begins at byte `offset` of the excerpt. -/
def expressionAt (e : Excerpt) (offset : Nat) : Except Error Excerpt :=
  let rest := e.dropBytes offset
  match rest.chars with
  | [] => .error (rest.fault (.expected "`(` or a number"))
  | c :: cs =>
    if c = '(' then
      match closeGroup 0 (c :: cs) with
      | some (group, _) => .ok ⟨rest.start, group⟩
      | none => .error (rest.fault .unclosed)
    else if c.isDigit then .ok ⟨rest.start, (c :: cs).takeWhile fun d => d.isDigit || d = '.'⟩
    else .error (rest.fault (.expected "`(` or a number"))

/-- The expressions in `cs`, which begins at `start`; only gaps may stand between them. -/
def siblingsFrom (start : Position) (cs : List Char) : Except Error (List Excerpt) :=
  match cs with
  | [] => .ok []
  | c :: tail =>
    if isGap c then siblingsFrom (start.next c) tail
    else if c = '(' then
      match h : closeGroup 0 (c :: tail) with
      | none => .error (start.fault .unclosed)
      | some (group, rest) => do
        have : rest.length < tail.length + 1 := length_of_closeGroup h
        let others ← siblingsFrom (start.skip group) rest
        return ⟨start, group⟩ :: others
    else .error (start.fault (.expected "`(` between expressions"))
termination_by cs.length

/-- All expressions of a text. -/
def siblings (e : Excerpt) : Except Error (List Excerpt) :=
  siblingsFrom e.start e.chars

def single (e : Excerpt) : Except Error Excerpt := do
  match ← e.siblings with
  | [] => .error (e.fault (.expected "an expression"))
  | [expression] => return expression
  | _ :: second :: _ => .error (second.fault .trailingText)

/-- The longest word at the front and what follows it. -/
def splitWord? (e : Excerpt) : Option (Excerpt × Excerpt) :=
  match e.chars.takeWhile isWordChar with
  | [] => none
  | c :: cs => some (⟨e.start, c :: cs⟩, ⟨e.start.skip (c :: cs), e.chars.dropWhile isWordChar⟩)

theorem length_dropWhile_le (p : Char → Bool) (cs : List Char) :
    (cs.dropWhile p).length ≤ cs.length :=
  (List.dropWhile_suffix p).length_le

theorem length_of_splitWord? {e word rest : Excerpt} (h : e.splitWord? = some (word, rest)) :
    rest.chars.length < e.chars.length := by
  have hlen := congrArg List.length
    (List.takeWhile_append_dropWhile (p := isWordChar) (l := e.chars))
  simp only [splitWord?] at h
  split at h
  · simp at h
  · rename_i c cs hword
    simp only [Option.some.injEq, Prod.mk.injEq] at h
    obtain ⟨-, rfl⟩ := h
    simp only [hword, List.length_append, List.length_cons] at hlen
    simp only
    omega

def itemsFrom (start : Position) (cs : List Char) : Except Error (List Item) :=
  match cs with
  | [] => .ok []
  | c :: tail =>
    if isGap c then itemsFrom (start.next c) tail
    else if c = '(' then
      match h : closeGroup 0 (c :: tail) with
      | none => .error (start.fault .unclosed)
      | some (group, rest) => do
        have : rest.length < tail.length + 1 := length_of_closeGroup h
        let others ← itemsFrom (start.skip group) rest
        return .group ⟨start, group⟩ :: others
    else if c = ')' then .error (start.fault .unopened)
    else if isWordChar c then do
      have := length_dropWhile_le isWordChar tail
      let word := c :: tail.takeWhile isWordChar
      let others ← itemsFrom (start.skip word) (tail.dropWhile isWordChar)
      return .word ⟨start, word⟩ :: others
    else .error (start.fault (.expected "a token"))
termination_by cs.length

def inside? (e : Excerpt) : Option Excerpt :=
  match e.chars with
  | '(' :: cs =>
    if cs.getLast? = some ')' then some ⟨e.start.next '(', cs.dropLast⟩ else none
  | _ => none

/-- The words and groups directly inside a parenthesized expression. -/
def items (e : Excerpt) : Except Error (List Item) :=
  match e.inside? with
  | none => .error (e.fault (.expected "a parenthesized expression"))
  | some inner => itemsFrom inner.start inner.chars

theorem length_of_inside? {e inner : Excerpt} (h : e.inside? = some inner) :
    inner.chars.length < e.chars.length := by
  unfold inside? at h
  split at h
  · rename_i cs heq
    split at h
    · simp only [Option.some.injEq] at h
      subst h
      simp only [heq, List.length_cons, List.length_dropLast]
      omega
    · simp at h
  · simp at h

theorem length_of_mem_itemsFrom (start : Position) (cs : List Char) {items : List Item}
    (h : itemsFrom start cs = .ok items) {e : Excerpt} (he : Item.group e ∈ items) :
    e.chars.length ≤ cs.length := by
  fun_induction itemsFrom start cs generalizing items with
  | case1 => simp_all
  | case2 start c tail hgap ih =>
    have := ih h he
    simp only [List.length_cons]
    omega
  | case3 => simp at h
  | case4 start tail group rest hgap hclose hlt ih =>
    cases hrec : itemsFrom (start.skip group) rest with
    | error err => simp [hrec, bind, Except.bind] at h
    | ok others =>
      simp only [hrec, bind, Except.bind, pure, Except.pure, Except.ok.injEq] at h
      subst h
      simp only [List.mem_cons, Item.group.injEq] at he
      rcases he with rfl | he
      · exact length_group_le hclose
      · have := ih hrec he
        simp only [List.length_cons]
        omega
  | case5 => simp at h
  | case6 start c tail hgap hopen hclose hword hlen word =>
    rename_i ih
    cases hrec : itemsFrom (start.skip word) (tail.dropWhile isWordChar) with
    | error err => simp [hrec, bind, Except.bind] at h
    | ok others =>
      simp only [hrec, bind, Except.bind, pure, Except.pure, Except.ok.injEq] at h
      subst h
      simp only [List.mem_cons, reduceCtorEq, false_or] at he
      have := ih hrec he
      simp only [List.length_cons]
      omega
  | case7 => simp at h

/-- Every group is shorter than the expression it stands in. -/
theorem length_of_mem_items {e inner : Excerpt} {items : List Item} (h : e.items = .ok items)
    (hmem : Item.group inner ∈ items) : inner.chars.length < e.chars.length := by
  unfold Excerpt.items at h
  split at h
  · simp at h
  · rename_i body hbody
    have := length_of_mem_itemsFrom _ _ h hmem
    have := length_of_inside? hbody
    omega

end Excerpt

end Pddl
