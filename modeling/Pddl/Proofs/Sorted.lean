import Mathlib.Data.List.Pairwise
import Pddl.Problem.Basic
import Pddl.Proofs.Formula.Nodes

namespace Pddl

namespace Sorted

variable {α : Type} [Ord α]

/-- Every element comes before all elements behind it. -/
def Ascending (as : List α) : Prop := as.Pairwise fun a b => compare a b = .lt

theorem mem_of_mem_insertAll {as set : List α} {x : α} (h : x ∈ insertAll as set) :
    x ∈ as ∨ x ∈ set := by
  induction as generalizing set with
  | nil => exact Or.inr h
  | cons a as ih =>
    rcases ih h with hx | hx
    · exact Or.inl (List.mem_cons_of_mem _ hx)
    · rcases mem_of_mem_insert hx with rfl | hx
      · exact Or.inl List.mem_cons_self
      · exact Or.inr hx

theorem mem_of_mem_ofList {as : List α} {x : α} (h : x ∈ ofList as) : x ∈ as := by
  simpa using mem_of_mem_insertAll h

/-- Where equal elements are the same, inserting adds the element. -/
theorem mem_insert [Std.LawfulEqOrd α] {a x : α} {bs : List α} :
    x ∈ insert a bs ↔ x = a ∨ x ∈ bs := by
  refine ⟨mem_of_mem_insert, ?_⟩
  rintro (rfl | hx)
  · induction bs with
    | nil => exact List.mem_singleton_self x
    | cons b bs ih =>
      unfold insert
      split
      · exact List.mem_cons_self
      · rename_i heq
        obtain rfl := Std.LawfulEqCmp.eq_of_compare heq
        exact List.mem_cons_self
      · exact List.mem_cons_of_mem _ ih
  · exact mem_insert_of_mem hx

theorem mem_insertAll [Std.LawfulEqOrd α] {as set : List α} {x : α} :
    x ∈ insertAll as set ↔ x ∈ as ∨ x ∈ set := by
  refine ⟨mem_of_mem_insertAll, fun hx => ?_⟩
  induction as generalizing set with
  | nil => exact hx.resolve_left List.not_mem_nil
  | cons a as ih =>
    refine ih ?_
    rw [mem_insert]
    simpa [or_assoc, or_left_comm] using hx

theorem mem_ofList [Std.LawfulEqOrd α] {as : List α} {x : α} : x ∈ ofList as ↔ x ∈ as :=
  mem_insertAll.trans (or_iff_left List.not_mem_nil)

theorem compareLists_eq (as bs : List α) : compareLists as bs = List.compareLex compare as bs := by
  induction as generalizing bs with
  | nil => cases bs <;> simp [compareLists, List.compareLex_nil_nil, List.compareLex_nil_cons]
  | cons a as ih =>
    cases bs with
    | nil => simp [compareLists, List.compareLex_cons_nil]
    | cons b bs => simp [compareLists, List.compareLex_cons_cons, ih]

variable [Std.TransOrd α]

theorem Ascending.insert {set : List α} (h : Ascending set) (a : α) : Ascending (insert a set) := by
  induction set with
  | nil => exact List.pairwise_singleton _ _
  | cons b bs ih =>
    obtain ⟨hb, hbs⟩ := List.pairwise_cons.1 h
    unfold Sorted.insert
    split
    · rename_i hlt
      refine List.pairwise_cons.2 ⟨?_, h⟩
      rw [List.forall_mem_cons]
      exact ⟨hlt, fun c hc => Std.TransCmp.lt_trans hlt (hb c hc)⟩
    · exact h
    · rename_i hgt
      refine List.pairwise_cons.2 ⟨fun c hc => ?_, ih hbs⟩
      rcases mem_of_mem_insert hc with rfl | hc
      · exact Std.OrientedCmp.lt_of_gt hgt
      · exact hb c hc

theorem Ascending.insertAll {set : List α} (h : Ascending set) (as : List α) :
    Ascending (insertAll as set) := by
  induction as generalizing set with
  | nil => exact h
  | cons a as ih => exact ih (h.insert a)

theorem ascending_ofList (as : List α) : Ascending (ofList as) :=
  Ascending.insertAll List.Pairwise.nil as

theorem Ascending.nodup {as : List α} (h : Ascending as) : as.Nodup := by
  refine h.imp fun {a b} hlt heq => ?_
  rw [heq, Std.compare_self] at hlt
  simp at hlt

theorem insert_of_forall_lt {set : List α} {a : α} (h : ∀ b ∈ set, compare b a = .lt) :
    insert a set = set ++ [a] := by
  induction set with
  | nil => rfl
  | cons b bs ih =>
    rw [List.forall_mem_cons] at h
    rw [insert, Std.OrientedCmp.gt_of_lt h.1, List.cons_append, ih h.2]

theorem insertAll_of_ascending {as set : List α} (h : Ascending (set ++ as)) :
    insertAll as set = set ++ as := by
  induction as generalizing set with
  | nil => simp [insertAll]
  | cons a as ih =>
    have hlt : ∀ b ∈ set, compare b a = .lt := fun b hb =>
      (List.pairwise_append.1 h).2.2 b hb a List.mem_cons_self
    have hsplit : set ++ a :: as = (set ++ [a]) ++ as := by simp
    calc insertAll (a :: as) set = insertAll as (insert a set) := rfl
      _ = insertAll as (set ++ [a]) := by rw [insert_of_forall_lt hlt]
      _ = set ++ a :: as := by rw [ih (hsplit ▸ h), hsplit]

theorem ofList_of_ascending {as : List α} (h : Ascending as) : ofList as = as := by
  have hnil : Ascending ([] ++ as) := h
  exact insertAll_of_ascending hnil

/-- Whether each element equals one of the others; the two need not be the same. -/
def Within (as bs : List α) : Prop := ∀ a ∈ as, ∃ b ∈ bs, compare a b = .eq

theorem exists_mem_insert (a : α) (bs : List α) : ∃ b ∈ insert a bs, compare a b = .eq := by
  induction bs with
  | nil => exact ⟨a, List.mem_singleton_self a, Std.compare_self⟩
  | cons b bs ih =>
    unfold insert
    split
    · exact ⟨a, List.mem_cons_self, Std.compare_self⟩
    · rename_i heq
      exact ⟨b, List.mem_cons_self, heq⟩
    · obtain ⟨c, hc, heq⟩ := ih
      exact ⟨c, List.mem_cons_of_mem _ hc, heq⟩

theorem within_insertAll (as set : List α) : Within (as ++ set) (insertAll as set) := by
  induction as generalizing set with
  | nil => exact fun a ha => ⟨a, ha, Std.compare_self⟩
  | cons a as ih =>
    intro x hx
    rw [List.cons_append, List.mem_cons] at hx
    rcases hx with rfl | hx
    · -- what stands for the element in the first set stands for it in all later ones
      obtain ⟨b, hb, heq⟩ := exists_mem_insert x set
      obtain ⟨c, hc, heq'⟩ := ih (insert x set) b (List.mem_append_right as hb)
      exact ⟨c, hc, Std.TransCmp.eq_trans heq heq'⟩
    · refine ih (insert a set) x (List.mem_append.2 ?_)
      exact (List.mem_append.1 hx).imp_right mem_insert_of_mem

theorem within_ofList (as : List α) : Within as (ofList as) := by
  simpa [ofList] using within_insertAll as []

/-- Behind equal least elements, the others equal others. -/
theorem Within.tail {a b : α} {as bs : List α} (h : Within (a :: as) (b :: bs))
    (has : Ascending (a :: as)) (hab : compare a b = .eq) : Within as bs := by
  intro x hx
  obtain ⟨y, hy, hxy⟩ := h x (List.mem_cons_of_mem _ hx)
  rcases List.mem_cons.1 hy with rfl | hy
  · have hlt : compare a x = .lt := (List.pairwise_cons.1 has).1 x hx
    have heq : compare a x = .eq := Std.TransCmp.eq_trans hab (Std.OrientedCmp.eq_symm hxy)
    simp [hlt] at heq
  · exact ⟨y, hy, hxy⟩

theorem Within.not_lt {a b : α} {as bs : List α} (h : Within (b :: bs) (a :: as))
    (has : Ascending (a :: as)) : compare b a ≠ .lt := by
  intro hlt
  obtain ⟨x, hx, heq⟩ := h b List.mem_cons_self
  rcases List.mem_cons.1 hx with rfl | hx
  · simp [hlt] at heq
  · have hax : compare a x = .lt := (List.pairwise_cons.1 has).1 x hx
    have hbx : compare b x = .lt := Std.TransCmp.lt_trans hlt hax
    simp [hbx] at heq

theorem compareLists_of_ascending {as bs : List α} (has : Ascending as) (hbs : Ascending bs)
    (hab : Within as bs) (hba : Within bs as) : compareLists as bs = .eq := by
  induction as generalizing bs with
  | nil =>
    cases bs with
    | nil => rfl
    | cons b bs =>
      obtain ⟨x, hx, -⟩ := hba b List.mem_cons_self
      simp at hx
  | cons a as ih =>
    cases bs with
    | nil =>
      obtain ⟨x, hx, -⟩ := hab a List.mem_cons_self
      simp at hx
    | cons b bs =>
      -- the least elements cannot differ, since each equals an element of the other list
      have hheads : compare a b = .eq := by
        have hnotlt : compare a b ≠ .lt := hab.not_lt hbs
        have hnotgt : compare a b ≠ .gt :=
          fun hgt => hba.not_lt has (Std.OrientedCmp.lt_of_gt hgt)
        cases hcompare : compare a b with
        | lt => exact absurd hcompare hnotlt
        | eq => rfl
        | gt => exact absurd hcompare hnotgt
      have htails : compareLists as bs = .eq :=
        ih has.of_cons hbs.of_cons (hab.tail has hheads)
          (hba.tail hbs (Std.OrientedCmp.eq_symm hheads))
      rw [compareLists, hheads, htails]
      rfl

/-- Lists with the same members are collected to equal sets. -/
theorem compareLists_ofList {as bs : List α} (h : ∀ x, x ∈ as ↔ x ∈ bs) :
    compareLists (ofList as) (ofList bs) = .eq := by
  have hwithin : ∀ {cs ds : List α}, (∀ x ∈ cs, x ∈ ds) → Within (ofList cs) (ofList ds) :=
    fun hsubset x hx => within_ofList _ x (hsubset x (mem_of_mem_ofList hx))
  exact compareLists_of_ascending (ascending_ofList as) (ascending_ofList bs)
    (hwithin fun x => (h x).1) (hwithin fun x => (h x).2)

theorem ofList_congr [Std.LawfulEqOrd α] {as bs : List α} (h : ∀ x, x ∈ as ↔ x ∈ bs) :
    ofList as = ofList bs := by
  have hcompare := compareLists_ofList h
  rw [compareLists_eq] at hcompare
  exact Std.LawfulEqCmp.eq_of_compare hcompare

theorem ofList_filter [Std.LawfulEqOrd α] (p : α → Bool) (as : List α) :
    ofList (as.filter p) = (ofList as).filter p := by
  have hascending : Ascending ((ofList as).filter p) := (ascending_ofList as).filter p
  rw [← ofList_of_ascending hascending]
  apply ofList_congr
  intro x
  rw [List.mem_filter, List.mem_filter, mem_ofList]

end Sorted

instance : Std.TransOrd Entity :=
  inferInstanceAs (Std.TransCmp (compareLex (compareOn Entity.name) (compareOn Entity.type)))

instance : Std.LawfulEqOrd Entity where
  eq_of_compare {a b} h := by
    obtain ⟨hname, htype⟩ := Ordering.then_eq_eq.1 h
    cases a
    cases b
    rw [Entity.mk.injEq]
    exact ⟨Std.LawfulEqCmp.eq_of_compare hname, Std.LawfulEqCmp.eq_of_compare htype⟩

theorem Application.compare_eq (a b : Application) :
    compare a b = compareLex (compareOn head) (compareOn arguments) a b := by
  change Application.compare a b = _
  rw [Application.compare, Sorted.compareLists_eq]
  rfl

instance : Std.TransOrd Application := by
  have hcompare : (compare : Application → Application → Ordering) =
      compareLex (compareOn Application.head) (compareOn Application.arguments) :=
    funext₂ Application.compare_eq
  rw [Std.TransOrd, hcompare]
  infer_instance

instance : Std.TransOrd Number :=
  inferInstanceAs (Std.TransCmp (compareLex (compareOn fun n : Number => n.rank.1)
    (compareOn fun n : Number => n.rank.2)))

namespace Fact

def term : Fact → Application
  | .atom a => a
  | .fluent t _ => t

def value? : Fact → Option Number
  | .atom _ => none
  | .fluent _ v => some v

theorem compare_eq (f g : Fact) :
    compare f g = compareLex (compareOn fun f : Fact => f.value?.isSome)
      (compareLex (compareOn term) (compareOn value?)) f g := by
  change Fact.compare f g = _
  cases f with
  | atom a =>
    cases g with
    | atom b => simp [Fact.compare, compareLex, compareOn, term, value?, Std.ReflOrd.compare_self]
    | fluent u w => rfl
  | fluent t v => cases g <;> rfl

end Fact

instance : Std.TransOrd Fact := by
  have hcompare : (compare : Fact → Fact → Ordering) =
      compareLex (compareOn fun f : Fact => f.value?.isSome)
        (compareLex (compareOn Fact.term) (compareOn Fact.value?)) :=
    funext₂ Fact.compare_eq
  rw [Std.TransOrd, hcompare]
  infer_instance

theorem Sorted.compareLists_self {α : Type} [Ord α] [Std.ReflOrd α] (as : List α) :
    compareLists as as = .eq := by
  induction as with
  | nil => rfl
  | cons a as ih => rw [compareLists, Std.compare_self, ih, Ordering.eq_then]

theorem Numeric.compare_self (x : Numeric) : x.compare x = .eq := by
  induction x with
  | number | function => exact Std.compare_self
  | binary o l r ihl ihr => simp [Numeric.compare, Std.compare_self, ihl, ihr]

instance : Std.ReflOrd Numeric := ⟨Numeric.compare_self _⟩

namespace Formula

theorem compareAll_self {fs : List Formula} (h : ∀ f ∈ fs, f.compare f = .eq) :
    compareAll fs fs = .eq := by
  induction fs with
  | nil => simp [compareAll]
  | cons f fs ih =>
    rw [List.forall_mem_cons] at h
    simp [compareAll, h.1, ih h.2]

theorem compareOutcomes_self {os : List (Number × Formula)}
    (h : ∀ o ∈ os, o.2.compare o.2 = .eq) : compareOutcomes os os = .eq := by
  induction os with
  | nil => simp [compareOutcomes]
  | cons o os ih =>
    rw [List.forall_mem_cons] at h
    simp [compareOutcomes, Std.compare_self, h.1, ih h.2]

theorem compare_self (f : Formula) : f.compare f = .eq := by
  induction f using induct with
  | atom => simp [Formula.compare, Std.compare_self]
  | not f ih | delete f ih => simpa [Formula.compare] using ih
  | and fs ih | or fs ih => simpa [Formula.compare] using compareAll_self ih
  | imply l r ihl ihr | when l r ihl ihr => simp [Formula.compare, ihl, ihr]
  | forAll vs f ih | thereIs vs f ih => simp [Formula.compare, Sorted.compareLists_self, ih]
  | probabilistic os ih => simpa [Formula.compare] using compareOutcomes_self ih
  | assign | comparison | equal | different => simp [Formula.compare, Std.compare_self]
  | timed t f ih => simp [Formula.compare, Std.compare_self, ih]

theorem same_refl (f : Formula) : f.same f = true := by
  simp [same, compare_self]

end Formula

end Pddl
