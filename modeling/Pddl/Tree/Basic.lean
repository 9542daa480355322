import Pddl.Tree.Scan

namespace Pddl

/-- A text as a tree of words. A list whose inside cannot be split keeps the error, which is raised only
when a reader looks inside. -/
inductive Tree where
  | word (here : Excerpt)
  | list (here : Excerpt) (items : List Tree)
  | broken (here : Excerpt) (error : Error)

namespace Tree

def here : Tree → Excerpt
  | .word e => e
  | .list e _ => e
  | .broken e _ => e

def isList : Tree → Bool
  | .word _ => false
  | .list _ _ => true
  | .broken _ _ => true

def isWord (t : Tree) (word : String) : Bool :=
  match t with
  | .word e => e.text = word
  | .list _ _ => false
  | .broken _ _ => false

def fault (t : Tree) (f : Fault) : Error := t.here.fault f

def expectWord (what : String) : Tree → Except Error Excerpt
  | .word e => .ok e
  | .list e _ => .error (e.fault (.expected what))
  | .broken e _ => .error (e.fault (.expected what))

/-- A list, whatever is inside, where `what` is wanted. -/
def expectList (what : String) : Tree → Except Error Tree
  | .word e => .error (e.fault (.expectedFound what e.text))
  | .list e items => .ok (.list e items)
  | .broken e err => .ok (.broken e err)

def expectItems (what : String) : Tree → Except Error (List Tree)
  | .word e => .error (e.fault (.expectedFound what e.text))
  | .list _ items => .ok items
  | .broken _ err => .error err

end Tree

/-- The tree of an expression. -/
def Excerpt.tree (e : Excerpt) : Tree :=
  match h : e.items with
  | .error err => .broken e err
  | .ok items => .list e (items.attach.map fun ⟨item, hmem⟩ =>
      match item with
      | .word w => .word w
      | .group g =>
        have := Excerpt.length_of_mem_items h hmem
        g.tree)
termination_by e.chars.length

def Item.tree : Item → Tree
  | .word e => .word e
  | .group e => e.tree

theorem Excerpt.tree_of_error {e : Excerpt} {err : Error} (h : e.items = .error err) :
    e.tree = .broken e err := by
  rw [Excerpt.tree]
  split <;> simp_all

theorem Excerpt.tree_of_ok {e : Excerpt} {items : List Item} (h : e.items = .ok items) :
    e.tree = .list e (items.map Item.tree) := by
  rw [Excerpt.tree]
  split
  · simp_all
  · rename_i its heq
    have hits : its = items := by simpa [h] using heq.symm
    subst hits
    congr 1
    calc
      _ = its.attach.map (fun x => Item.tree x.val) := by
        apply List.map_congr_left
        rintro ⟨item, hmem⟩ -
        cases item <;> rfl
      _ = its.map Item.tree := List.attach_map_val

end Pddl
