import Pddl.Entity

namespace Pddl

/-- Declared types in the order of their declaration, and for each supertype, in ascending order,
its immediate subtypes. -/
structure Types where
  usesTyping : Bool
  declared : List String
  hierarchy : List (String × List String)
  deriving DecidableEq, Repr

namespace Types

/-- The table of a domain that declares no types. -/
def untyped : Types := ⟨false, [implicitType], []⟩

def typed : Types := ⟨true, [], []⟩

def contains (t : Types) (type : String) : Bool := t.declared.contains type

def declare (t : Types) (type : String) : Types :=
  if t.contains type then t else { t with declared := t.declared ++ [type] }

/-- Adds immediate subtypes to the entry of a supertype. -/
def insertSubtypes (supertype : String) (subtypes : List String) :
    List (String × List String) → List (String × List String)
  | [] => [(supertype, Sorted.ofList subtypes)]
  | (other, known) :: rest =>
    match compare supertype other with
    | .lt => (supertype, Sorted.ofList subtypes) :: (other, known) :: rest
    | .eq => (other, Sorted.insertAll subtypes known) :: rest
    | .gt => (other, known) :: insertSubtypes supertype subtypes rest

/-- Makes `subtypes` immediate subtypes of `supertype`; all of them are declared on the way, the
supertype first. -/
def addSubtypes (t : Types) (subtypes : List String) (supertype : String) : Types :=
  let t := subtypes.foldl declare (t.declare supertype)
  { t with hierarchy := insertSubtypes supertype subtypes t.hierarchy }

def parents (t : Types) (type : String) : List String :=
  (t.hierarchy.filter fun (_, subtypes) => subtypes.contains type).map Prod.fst

/-- A search for supertypes: the types reached so far, and those among them whose own supertypes
have still to be looked for, the one reached last in front. -/
structure Ascent where
  reached : List String
  frontier : List String

namespace Ascent

def start (type : String) : Ascent := ⟨[type], [type]⟩

def reach (a : Ascent) (type : String) : Ascent :=
  if a.reached.contains type then a else ⟨type :: a.reached, type :: a.frontier⟩

/-- Goes on from the type in front to its immediate supertypes. -/
def step (t : Types) (a : Ascent) : Ascent :=
  match a.frontier with
  | [] => a
  | type :: rest => (t.parents type).foldl reach ⟨a.reached, rest⟩

/-- No more steps than this are left: one for each type of the frontier, and one for each supertype
that was not reached yet. -/
def remaining (t : Types) (a : Ascent) : Nat :=
  (t.hierarchy.filter fun (supertype, _) => !a.reached.contains supertype).length +
    a.frontier.length

theorem remaining_reach {t : Types} (a : Ascent) {type : String} (h : ∃ p ∈ t.hierarchy, p.1 = type) :
    (a.reach type).remaining t ≤ a.remaining t := by
  unfold reach
  split
  · exact Nat.le_refl _
  · rename_i hnew
    obtain ⟨p, hp, rfl⟩ := h
    have hfilter : (t.hierarchy.filter fun q => !(p.1 :: a.reached).contains q.1) =
        (t.hierarchy.filter fun q => !a.reached.contains q.1).filter fun q => q.1 ≠ p.1 := by
      rw [List.filter_filter]
      exact List.filter_congr fun q _ => by simp
    have hless : ((t.hierarchy.filter fun q => !a.reached.contains q.1).filter
        fun q => q.1 ≠ p.1).length < (t.hierarchy.filter fun q => !a.reached.contains q.1).length := by
      rw [List.length_filter_lt_length_iff_exists]
      exact ⟨p, List.mem_filter.2 ⟨hp, by simpa using hnew⟩, by simp⟩
    simp only [remaining, List.length_cons, hfilter]
    omega

theorem remaining_foldl_reach {t : Types} {types : List String}
    (h : ∀ type ∈ types, ∃ p ∈ t.hierarchy, p.1 = type) (a : Ascent) :
    (types.foldl reach a).remaining t ≤ a.remaining t := by
  induction types generalizing a with
  | nil => exact Nat.le_refl _
  | cons type types ih =>
    rw [List.forall_mem_cons] at h
    exact Nat.le_trans (ih h.2 _) (remaining_reach a h.1)

theorem remaining_step (t : Types) {a : Ascent} (h : a.frontier ≠ []) :
    (a.step t).remaining t < a.remaining t := by
  unfold step
  split
  · contradiction
  · rename_i type rest hfrontier
    have hparents : ∀ super ∈ t.parents type, ∃ p ∈ t.hierarchy, p.1 = super := by
      intro super hsuper
      obtain ⟨p, hp, rfl⟩ := List.mem_map.1 hsuper
      exact ⟨p, (List.mem_filter.1 hp).1, rfl⟩
    have hle := remaining_foldl_reach hparents ⟨a.reached, rest⟩
    simp only [remaining, hfrontier, List.length_cons] at hle ⊢
    omega

end Ascent

def ascend (t : Types) (a : Ascent) : List String :=
  if h : a.frontier = [] then a.reached
  else
    have := Ascent.remaining_step t h
    t.ascend (a.step t)
termination_by a.remaining t

def ancestors (t : Types) (type : String) : List String :=
  Sorted.ofList (t.ascend (.start type))

def isSubtype (t : Types) (sub super : String) : Bool :=
  sub = super || (t.ancestors sub).contains super

/-- Whether an argument of type `actual` may stand where `expected` is declared. -/
def isConsistent (t : Types) (actual expected : String) : Bool :=
  t.isSubtype actual expected ||
    (expected = objectType && t.usesTyping && actual ≠ implicitType)

end Types

end Pddl
