import Pddl.Formula.Outcomes
import Pddl.Proofs.Number.Order

namespace Pddl

theorem Number.noChange_ne_nan {α : Type} (os : List (Number × α)) :
    Formula.noChange os ≠ .nan := by
  unfold Formula.noChange
  dsimp only
  split
  · next h => exact Number.ne_nan_of_le h
  · simp [Number.zero]

namespace Formula

theorem noChange_map {α β : Type} (f : α → β) (os : List (Number × α)) :
    noChange (os.map fun o => (o.1, f o.2)) = noChange os := by
  have hprobabilities : (os.map fun o => (o.1, f o.2)).map Prod.fst = os.map Prod.fst := by simp
  rw [noChange, noChange, totalProbability, totalProbability, hprobabilities]

theorem likeliest_map {α β : Type} (f : α → β) (best : Number × α) (os : List (Number × α)) :
    likeliest (best.1, f best.2) (os.map fun o => (o.1, f o.2)) =
      ((likeliest best os).1, f (likeliest best os).2) := by
  induction os generalizing best with
  | nil => rfl
  | cons o os ih =>
    simp only [List.map_cons, likeliest]
    rw [← ih]
    congr 1
    split <;> rfl

/-- Which outcome is the most likely depends on the probabilities alone. -/
theorem mostLikely_map {α β : Type} (f : α → β) (os : List (Number × α)) :
    mostLikely (os.map fun o => (o.1, f o.2)) = (mostLikely os).map fun o => (o.1, f o.2) := by
  have hnoChange := noChange_map f os
  cases os with
  | nil => rfl
  | cons o os =>
    simp only [mostLikely, List.map_cons] at hnoChange ⊢
    rw [hnoChange, likeliest_map]
    split <;> rfl

variable {α : Type} {os seen : List (Number × α)} {i j : Nat} {best o p : Number × α}

/-- Whether `o`, at the index `i`, is the first of the greatest outcomes. -/
structure Leads (os : List (Number × α)) (i : Nat) (o : Number × α) : Prop where
  getElem? : os[i]? = some o
  greatest : ∀ p ∈ os, p.1.place ≤ o.1.place
  first : ∀ j p, j < i → os[j]? = some p → p.1.place < o.1.place

namespace Leads

theorem lt_length (h : Leads os i o) : i < os.length :=
  (List.getElem?_eq_some_iff.1 h.getElem?).1

theorem mem (h : Leads os i o) : o ∈ os := List.mem_of_getElem? h.getElem?

theorem single (o : Number × α) : Leads [o] 0 o :=
  ⟨rfl, by simp, fun _ _ hj => absurd hj (Nat.not_lt_zero _)⟩

theorem push_of_lt (h : Leads seen i best) (hlt : best.1.place < o.1.place) :
    Leads (seen ++ [o]) seen.length o := by
  have hseen : ∀ p ∈ seen, p.1.place < o.1.place := fun p hp => (h.greatest p hp).trans_lt hlt
  refine ⟨by simp, fun p hp => ?_, fun j p hj hp => ?_⟩
  · rcases List.mem_append.1 hp with hp | hp
    · exact (hseen p hp).le
    · exact List.mem_singleton.1 hp ▸ le_rfl
  · rw [List.getElem?_append_left hj] at hp
    exact hseen p (List.mem_of_getElem? hp)

theorem push_of_le (h : Leads seen i best) (hle : o.1.place ≤ best.1.place) :
    Leads (seen ++ [o]) i best := by
  have hi := h.lt_length
  refine ⟨by rw [List.getElem?_append_left hi, h.getElem?], fun p hp => ?_, fun j p hj hp => ?_⟩
  · rcases List.mem_append.1 hp with hp | hp
    · exact h.greatest p hp
    · exact List.mem_singleton.1 hp ▸ hle
  · rw [List.getElem?_append_left (by omega)] at hp
    exact h.first j p hj hp

theorem index_le (h : Leads os i o) (hp : Leads os j p) : j ≤ i := by
  by_contra hij
  have hlt : o.1.place < p.1.place := hp.first i o (by omega) h.getElem?
  exact hlt.not_ge (h.greatest p hp.mem)

theorem unique (h : Leads os i o) (hp : Leads os j p) : i = j ∧ o = p := by
  obtain rfl : i = j := Nat.le_antisymm (hp.index_le h) (h.index_le hp)
  exact ⟨rfl, Option.some.inj (h.getElem?.symm.trans hp.getElem?)⟩

end Leads

/-- The best so far leads what has been seen, and at the end of the pass it leads everything. -/
theorem Leads.pass (h : Leads seen i best) (rest : List (Number × α)) :
    ∃ j, Leads (seen ++ rest) j (likeliest best rest) := by
  induction rest generalizing seen i best with
  | nil => exact ⟨i, by simpa [likeliest] using h⟩
  | cons o rest ih =>
    rw [List.append_cons, likeliest]
    split
    · next hgt => exact ih (h.push_of_lt (Number.compare_eq_gt_iff.1 hgt))
    · next hgt =>
      exact ih (h.push_of_le (le_of_not_gt fun hlt => hgt (Number.compare_eq_gt_iff.2 hlt)))

theorem exists_leads (hne : os ≠ []) : ∃ i o, Leads os i o := by
  cases os with
  | nil => exact absurd rfl hne
  | cons first rest =>
    obtain ⟨i, h⟩ := (Leads.single first).pass rest
    exact ⟨i, _, h⟩

theorem mostLikely_eq_some :
    mostLikely os = some o ↔ (∃ i, Leads os i o) ∧ (noChange os).le o.1 = true := by
  cases os with
  | nil =>
    have hnone : ∀ i, ¬Leads [] i o := fun i h => List.not_mem_nil h.mem
    simp [mostLikely, hnone]
  | cons first rest =>
    obtain ⟨i, hlead⟩ : ∃ i, Leads (first :: rest) i (likeliest first rest) :=
      (Leads.single first).pass rest
    have hleads : (∃ j, Leads (first :: rest) j o) ↔ likeliest first rest = o :=
      ⟨fun ⟨_, h⟩ => (hlead.unique h).2, fun h => ⟨i, h ▸ hlead⟩⟩
    rw [hleads]
    simp only [mostLikely, Option.ite_none_right_eq_some, Option.some.injEq]
    constructor
    · rintro ⟨hle, rfl⟩
      exact ⟨rfl, hle⟩
    · rintro ⟨rfl, hle⟩
      exact ⟨hle, rfl⟩

theorem mostLikely_eq_none (hdefined : ∀ o ∈ os, o.1 ≠ .nan) :
    mostLikely os = none ↔ ∀ o ∈ os, o.1.lt (noChange os) = true := by
  constructor
  · intro hnone o ho
    obtain ⟨i, lead, hlead⟩ := exists_leads (List.ne_nil_of_mem ho)
    have hbeaten : ¬(noChange os).le lead.1 = true := fun hle => by
      simp [mostLikely_eq_some.2 ⟨⟨i, hlead⟩, hle⟩] at hnone
    have hlt : lead.1.place < (noChange os).place := by
      by_contra hge
      exact hbeaten (Number.le_iff.2
        ⟨Number.noChange_ne_nan os, hdefined lead hlead.mem, le_of_not_gt hge⟩)
    exact Number.lt_iff.2
      ⟨hdefined o ho, Number.noChange_ne_nan os, (hlead.greatest o ho).trans_lt hlt⟩
  · intro hbeaten
    refine Option.eq_none_iff_forall_ne_some.2 fun o hsome => ?_
    obtain ⟨⟨i, hlead⟩, hle⟩ := mostLikely_eq_some.1 hsome
    have hlt : o.1.place < (noChange os).place := (Number.lt_iff.1 (hbeaten o hlead.mem)).2.2
    exact hlt.not_ge (Number.le_iff.1 hle).2.2

/-- Whether the probabilities choose the outcome at the index `i`: none is greater, those before it
are less, and no change is not likelier. -/
structure IsChosen (os : List (Number × α)) (i : Nat) : Prop where
  lt_length : i < os.length
  greatest : ∀ j (hj : j < os.length), os[j].1.le os[i].1 = true
  first : ∀ j (hj : j < i), os[j].1.lt os[i].1 = true
  noChange_le : (noChange os).le os[i].1 = true

theorem isChosen_iff (hdefined : ∀ o ∈ os, o.1 ≠ .nan) :
    IsChosen os i ↔ ∃ o, Leads os i o ∧ (noChange os).le o.1 = true := by
  constructor
  · intro h
    have hi := h.lt_length
    refine ⟨os[i], ⟨List.getElem?_eq_getElem hi, fun p hp => ?_, fun j p hj hp => ?_⟩, h.noChange_le⟩
    · obtain ⟨j, hj, rfl⟩ := List.getElem_of_mem hp
      exact (Number.le_iff.1 (h.greatest j hj)).2.2
    · obtain ⟨-, rfl⟩ := List.getElem?_eq_some_iff.1 hp
      exact (Number.lt_iff.1 (h.first j hj)).2.2
  · rintro ⟨o, hlead, hle⟩
    obtain ⟨hi, rfl⟩ := List.getElem?_eq_some_iff.1 hlead.getElem?
    have hne : ∀ j (hj : j < os.length), os[j].1 ≠ .nan := fun j hj =>
      hdefined _ (List.getElem_mem hj)
    refine ⟨hi, fun j hj => ?_, fun j hj => ?_, hle⟩
    · exact Number.le_iff.2 ⟨hne j hj, hne i hi, hlead.greatest _ (List.getElem_mem hj)⟩
    · have hj' : j < os.length := hj.trans hi
      exact Number.lt_iff.2 ⟨hne j hj', hne i hi,
        hlead.first j _ hj (List.getElem?_eq_getElem hj')⟩

/-- The outcomes with their indices, by which equal ones differ. -/
def withIndices (os : List (Number × α)) : List (Number × α × Nat) :=
  os.zipIdx.map fun (o, i) => (o.1, o.2, i)

def chosenIndex (os : List (Number × α)) : Option Nat :=
  (mostLikely (withIndices os)).map fun o => o.2.2

theorem withIndices_map (os : List (Number × α)) :
    (withIndices os).map (fun o => (o.1, o.2.1)) = os := by
  simp [withIndices, Function.comp_def]

theorem getElem?_withIndices (os : List (Number × α)) (i : Nat) :
    (withIndices os)[i]? = os[i]?.map fun o => (o.1, o.2, i) := by
  simp [withIndices, Function.comp_def]

theorem isChosen_map {β : Type} (f : α → β) :
    IsChosen (os.map fun o => (o.1, f o.2)) i ↔ IsChosen os i := by
  constructor
  · rintro ⟨hi, hgreatest, hfirst, hle⟩
    simp only [List.getElem_map, noChange_map, List.length_map] at hi hgreatest hfirst hle
    exact ⟨hi, hgreatest, hfirst, hle⟩
  · rintro ⟨hi, hgreatest, hfirst, hle⟩
    refine ⟨by simpa using hi, ?_, ?_, ?_⟩ <;>
      simpa only [List.getElem_map, noChange_map, List.length_map]

theorem isChosen_withIndices : IsChosen (withIndices os) i ↔ IsChosen os i := by
  conv_rhs => rw [← withIndices_map os, isChosen_map fun q : α × Nat => q.1]

theorem ne_nan_withIndices (hdefined : ∀ o ∈ os, o.1 ≠ .nan) : ∀ q ∈ withIndices os, q.1 ≠ .nan := by
  intro q hq
  obtain ⟨o, ho, rfl⟩ := List.mem_map.1 hq
  exact hdefined _ (List.fst_mem_of_mem_zipIdx ho)

theorem chosenIndex_eq_some (hdefined : ∀ o ∈ os, o.1 ≠ .nan) :
    chosenIndex os = some i ↔ IsChosen os i := by
  rw [← isChosen_withIndices, isChosen_iff (ne_nan_withIndices hdefined), chosenIndex]
  simp only [Option.map_eq_some_iff, mostLikely_eq_some]
  have hindex : ∀ k q, Leads (withIndices os) k q → q.2.2 = k := fun k q h => by
    have hq := h.getElem?
    rw [getElem?_withIndices] at hq
    obtain ⟨o, -, rfl⟩ := Option.map_eq_some_iff.1 hq
    rfl
  constructor
  · rintro ⟨q, ⟨⟨k, hlead⟩, hle⟩, rfl⟩
    exact ⟨q, hindex k q hlead ▸ hlead, hle⟩
  · rintro ⟨q, hlead, hle⟩
    exact ⟨q, ⟨⟨i, hlead⟩, hle⟩, hindex i q hlead⟩

theorem mostLikely_eq_getElem? (os : List (Number × α)) :
    mostLikely os = (chosenIndex os).bind (os[·]?) := by
  conv_lhs => rw [← withIndices_map os, mostLikely_map fun q : α × Nat => q.1]
  rw [chosenIndex]
  cases h : mostLikely (withIndices os) with
  | none => rfl
  | some q =>
    obtain ⟨i, hi⟩ := List.mem_iff_getElem?.1 (mem_of_mostLikely h)
    rw [getElem?_withIndices] at hi
    obtain ⟨o, ho, rfl⟩ := Option.map_eq_some_iff.1 hi
    simp [ho]

/-- The most likely outcome. With defined probabilities, the index `i` is chosen if and only if no
outcome is likelier than the one there, all before it are less likely, and no change is not likelier;
the outcome there is the answer. There is none if and only if no change is likelier than each. -/
theorem mostLikely_isChosen (hdefined : ∀ o ∈ os, o.1 ≠ .nan) :
    mostLikely os = (chosenIndex os).bind (os[·]?) ∧
      (∀ i, chosenIndex os = some i ↔ IsChosen os i) ∧
      (mostLikely os = none ↔ ∀ o ∈ os, o.1.lt (noChange os) = true) :=
  ⟨mostLikely_eq_getElem? os, fun _ => chosenIndex_eq_some hdefined, mostLikely_eq_none hdefined⟩

def sixteenths (n : Nat) : Number := .finite false (n * (Number.unitsPerOne / 16))

def tied : List (Number × String) :=
  [(sixteenths 1, "a"), (sixteenths 5, "b"), (sixteenths 5, "c")]

theorem mostLikely_isChosen_tied : (∀ o ∈ tied, o.1 ≠ .nan) ∧ noChange tied = sixteenths 5 ∧
    IsChosen tied 1 ∧ mostLikely tied = some (sixteenths 5, "b") := by
  have hdefined : ∀ o ∈ tied, o.1 ≠ .nan := by decide +kernel
  have hnoChange : noChange tied = sixteenths 5 := by decide +kernel
  have hindex : chosenIndex tied = some 1 := by decide +kernel
  obtain ⟨hget, hchosen, -⟩ := mostLikely_isChosen hdefined
  exact ⟨hdefined, hnoChange, (hchosen 1).1 hindex, by rw [hget, hindex]; rfl⟩

end Formula

end Pddl
