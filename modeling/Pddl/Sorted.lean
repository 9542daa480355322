
namespace Pddl.Sorted

variable {α : Type} [Ord α]

/-- An element equal to one already there changes nothing, also where the two can be told apart. -/
def insert (a : α) : List α → List α
  | [] => [a]
  | b :: bs =>
    match compare a b with
    | .lt => a :: b :: bs
    | .eq => b :: bs
    | .gt => b :: insert a bs

/-- The set that arises when the elements are inserted from left to right. -/
def insertAll (as : List α) (set : List α) : List α :=
  as.foldl (fun s a => insert a s) set

def ofList (as : List α) : List α := insertAll as []

theorem mem_of_mem_insert {a x : α} {bs : List α} (h : x ∈ insert a bs) : x = a ∨ x ∈ bs := by
  induction bs with
  | nil => simpa [insert] using h
  | cons b bs ih =>
    unfold insert at h
    split at h
    · simpa using h
    · exact Or.inr h
    · rcases List.mem_cons.1 h with rfl | h
      · simp
      · rcases ih h with rfl | h <;> simp_all

theorem mem_insert_of_mem {a x : α} {bs : List α} (h : x ∈ bs) : x ∈ insert a bs := by
  induction bs with
  | nil => simp at h
  | cons b bs ih =>
    unfold insert
    split
    · exact List.mem_cons_of_mem _ h
    · exact h
    · rcases List.mem_cons.1 h with rfl | h
      · simp
      · exact List.mem_cons_of_mem _ (ih h)

def compareLists (xs ys : List α) : Ordering :=
  match xs, ys with
  | [], [] => .eq
  | [], _ :: _ => .lt
  | _ :: _, [] => .gt
  | x :: xs, y :: ys => (compare x y).then (compareLists xs ys)

end Pddl.Sorted
