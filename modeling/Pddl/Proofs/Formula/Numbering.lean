import Mathlib.Data.List.Nodup
import Mathlib.Data.List.Perm.Subperm
import Pddl.Formula.Expansion

namespace Pddl.Formula

def numbered (name : String) (n : Nat) : String := name ++ "-" ++ toString n

theorem numbered_injective (name : String) : Function.Injective (numbered name) := by
  intro m n h
  have hchars := congrArg String.toList h
  simp only [numbered, String.toList_append] at hchars
  have hdigits : Nat.toDigits 10 m = Nat.toDigits 10 n := by
    simpa [Nat.toList_repr] using List.append_cancel_left hchars
  simpa using congrArg (fun ds => Nat.ofDigitChars 10 ds 0) hdigits

/-- One of more candidates than there are names taken is free. -/
theorem exists_numbered_not_mem (taken : List String) (name : String) :
    ∃ n < taken.length + 1, numbered name (n + 1) ∉ taken := by
  by_contra hall
  simp only [not_exists, not_and, not_not] at hall
  have hnodup : ((List.range (taken.length + 1)).map fun n => numbered name (n + 1)).Nodup :=
    List.nodup_range.map fun m n h => Nat.add_right_cancel (numbered_injective name h)
  have hsubset : ((List.range (taken.length + 1)).map fun n => numbered name (n + 1)) ⊆ taken := by
    intro candidate hcandidate
    obtain ⟨n, hn, rfl⟩ := List.mem_map.1 hcandidate
    exact hall n (List.mem_range.1 hn)
  have hlen := (List.subperm_of_subset hnodup hsubset).length_le
  simp only [List.length_map, List.length_range] at hlen
  omega

/-- Whether `fresh` is the candidate of the least number that is not taken. -/
structure IsFresh (taken : List String) (name fresh : String) : Prop where
  least : ∃ n, fresh = numbered name (n + 1) ∧ ∀ m < n, numbered name (m + 1) ∈ taken
  free : fresh ∉ taken

theorem IsFresh.congr {taken others : List String} {name fresh : String}
    (h : IsFresh taken name fresh) (hothers : ∀ s, s ∈ taken ↔ s ∈ others) :
    IsFresh others name fresh := by
  obtain ⟨n, hfresh, hleast⟩ := h.least
  exact ⟨⟨n, hfresh, fun m hm => (hothers _).1 (hleast m hm)⟩, mt (hothers _).2 h.free⟩

/-- The search ends at one of the candidates, and is never left without one. -/
theorem exists_freshName (taken : List String) (name : String) :
    ∃ n ≤ taken.length, freshName taken name = numbered name (n + 1) ∧
      freshName taken name ∉ taken ∧ ∀ m < n, numbered name (m + 1) ∈ taken := by
  have hsearch : ((List.range (taken.length + 1)).map fun n => numbered name (n + 1)).find?
      (!taken.contains ·) = ((List.range (taken.length + 1)).find?
        fun n => !taken.contains (numbered name (n + 1))).map fun n => numbered name (n + 1) :=
    List.find?_map
  cases hfind : (List.range (taken.length + 1)).find?
      fun n => !taken.contains (numbered name (n + 1)) with
  | none =>
    obtain ⟨n, hn, hfree⟩ := exists_numbered_not_mem taken name
    have hmem := List.find?_eq_none.1 hfind n (List.mem_range.2 hn)
    simp [hfree] at hmem
  | some n =>
    have hfresh : freshName taken name = numbered name (n + 1) := by
      rw [hfind] at hsearch
      unfold numbered at hsearch
      simp only [freshName, hsearch, Option.map_some, numbered]
    obtain ⟨hfree, hn, hleast⟩ := List.find?_range_eq_some.1 hfind
    rw [hfresh]
    exact ⟨n, Nat.le_of_lt_succ (List.mem_range.1 hn), rfl, by simpa using hfree,
      fun m hm => by simpa using hleast m hm⟩

theorem isFresh_freshName (taken : List String) (name : String) :
    IsFresh taken name (freshName taken name) := by
  obtain ⟨n, -, hfresh, hfree, hleast⟩ := exists_freshName taken name
  exact ⟨⟨n, hfresh, hleast⟩, hfree⟩

/-- Whether variables are copied in order, each under the first name that is free then. -/
inductive Renames : List String → List Entity → List Entity → Prop where
  | nil {taken : List String} : Renames taken [] []
  | cons {taken : List String} {v w : Entity} {vs ws : List Entity} (type : w.type = v.type)
      (fresh : IsFresh taken v.name w.name) (rest : Renames (w.name :: taken) vs ws) :
      Renames taken (v :: vs) (w :: ws)

def takenBehind (taken : List String) (copies : List Entity) : List String :=
  (copies.map Entity.name).reverse ++ taken

variable {taken : List String} {vs ws vs' ws' : List Entity}

theorem takenBehind_cons (w : Entity) :
    takenBehind taken (w :: ws) = takenBehind (w.name :: taken) ws := by
  simp [takenBehind]

theorem renames_freshCopies (taken : List String) (vs : List Entity) :
    Renames taken vs ((freshCopies taken vs).1.map Prod.snd) ∧
      (freshCopies taken vs).2 = takenBehind taken ((freshCopies taken vs).1.map Prod.snd) := by
  induction vs generalizing taken with
  | nil => exact ⟨.nil, rfl⟩
  | cons v vs ih =>
    obtain ⟨hrest, htaken⟩ := ih (freshName taken v.name :: taken)
    simp only [freshCopies, List.map_cons]
    refine ⟨.cons rfl (isFresh_freshName taken v.name) hrest, ?_⟩
    rw [htaken, takenBehind_cons]

namespace Renames

theorem append (h : Renames taken vs ws) (h' : Renames (takenBehind taken ws) vs' ws') :
    Renames taken (vs ++ vs') (ws ++ ws') := by
  induction h with
  | nil => exact h'
  | cons type fresh _ ih => exact .cons type fresh (ih (takenBehind_cons _ ▸ h'))

theorem nodup (h : Renames taken vs ws) :
    (ws.map Entity.name).Nodup ∧ ∀ w ∈ ws, w.name ∉ taken := by
  induction h with
  | nil => simp
  | cons _ fresh _ ih =>
    obtain ⟨hnodup, hfree⟩ := ih
    simp only [List.mem_cons, not_or] at hfree
    rw [List.map_cons, List.nodup_cons, List.forall_mem_cons]
    refine ⟨⟨?_, hnodup⟩, fresh.free, fun w hw => (hfree w hw).2⟩
    simp only [List.mem_map, not_exists, not_and]
    exact fun w hw => (hfree w hw).1

theorem length (h : Renames taken vs ws) : ws.length = vs.length := by
  induction h with
  | nil => rfl
  | cons _ _ _ ih => exact congrArg Nat.succ ih

/-- A copy has the type of its variable and the first name that is free behind the copies before. -/
theorem getElem? (h : Renames taken vs ws) {i : Nat} {v w : Entity} (hv : vs[i]? = some v)
    (hw : ws[i]? = some w) :
    w.type = v.type ∧ IsFresh (taken ++ (ws.take i).map Entity.name) v.name w.name := by
  induction h generalizing i with
  | nil => simp at hv
  | cons type fresh _ ih =>
    cases i with
    | zero =>
      obtain rfl := Option.some.inj hv
      obtain rfl := Option.some.inj hw
      exact ⟨type, by simpa using fresh⟩
    | succ i =>
      obtain ⟨htype, hfresh⟩ := ih (by simpa using hv) (by simpa using hw)
      refine ⟨htype, hfresh.congr fun s => ?_⟩
      simp only [List.take_succ_cons, List.map_cons, List.mem_append, List.mem_cons]
      tauto

end Renames

end Pddl.Formula
