import Pddl.Proofs.Domain.Collect

namespace Pddl

/-- The sections of a domain in the order in which they are written, without the words that name
them; those that may be missing are optional. -/
structure DomainOutline where
  name : String
  requirements : Option (List String)
  types : Option (List Shape)
  constants : Option (List Shape)
  predicates : Option (List Shape)
  functions : Option (List Shape)
  actions : Option (List Shape)
  operators : List Shape

def sectionShapes (keyword : String) (body : Option (List Shape)) : List Shape :=
  body.toList.map fun ss => .list (.word keyword :: ss)

namespace DomainOutline

def shapes (o : DomainOutline) : List Shape :=
  .list [.word "domain", .word o.name] ::
    (sectionShapes ":requirements" (o.requirements.map (List.map .word)) ++
      (sectionShapes ":types" o.types ++ (sectionShapes ":constants" o.constants ++
        (sectionShapes ":predicates" o.predicates ++ (sectionShapes ":functions" o.functions ++
          (sectionShapes ":actions" o.actions ++ o.operators))))))

end DomainOutline

namespace DomainSections

structure Follows (s : DomainSections) (o : DomainOutline) : Prop where
  name : s.name.map Excerpt.text = some o.name
  requirements : s.requirements = o.requirements.getD []
  types : s.types.map (List.map Tree.shape) = o.types
  constants : s.constants.map (List.map Tree.shape) = o.constants
  predicates : s.predicates.map (List.map Tree.shape) = o.predicates
  functions : s.functions.map (List.map Tree.shape) = o.functions
  actions : s.actions.map (List.map Tree.shape) = o.actions
  operators : s.operators.map Tree.shape = o.operators

end DomainSections

open Shape

theorem bodies_sectionShapes (keyword w : String) (body : Option (List Shape)) :
    bodies keyword (sectionShapes w body) = if w = keyword then body.toList else [] := by
  cases body <;> by_cases h : w = keyword <;> simp [bodies, sectionShapes, h]

theorem filter_isOperator_sectionShapes {w : String} (body : Option (List Shape))
    (haction : w ≠ ":action") (hdurative : w ≠ ":durative-action") :
    (sectionShapes w body).filter isOperator = [] := by
  cases body <;> simp [sectionShapes, isOperator, haction, hdurative]

theorem bodies_of_operators {keyword : String} {ss : List Shape}
    (h : ∀ s ∈ ss, s.isOperator = true) (haction : keyword ≠ ":action")
    (hdurative : keyword ≠ ":durative-action") : bodies keyword ss = [] := by
  refine List.filterMap_eq_nil_iff.2 fun s hs => ?_
  obtain ⟨w, body, rfl, rfl | rfl⟩ := isOperator_iff.1 (h s hs)
  · simp [haction.symm]
  · simp [hdurative.symm]

theorem storable_of_keyword {w : String} {body : List Shape} (hname : w ≠ "domain")
    (hrequirements : w ≠ ":requirements") : (Shape.list (.word w :: body)).Storable :=
  ⟨⟨_, _, rfl⟩, by simp [hname], by simp [hrequirements]⟩

theorem storable_sectionShapes {w : String} (body : Option (List Shape)) (hname : w ≠ "domain")
    (hrequirements : w ≠ ":requirements") : ∀ s ∈ sectionShapes w body, s.Storable := by
  rw [sectionShapes, List.forall_mem_map]
  exact fun _ _ => storable_of_keyword hname hrequirements

theorem DomainOutline.storable {o : DomainOutline} (h : ∀ s ∈ o.operators, s.isOperator = true) :
    ∀ s ∈ o.shapes, s.Storable := by
  have hrequirements : ∀ s ∈ sectionShapes ":requirements" (o.requirements.map (List.map .word)),
      s.Storable := by
    rw [sectionShapes, List.forall_mem_map]
    intro body hbody
    obtain ⟨ws, -, rfl⟩ := Option.map_eq_some_iff.1 (Option.mem_toList.1 hbody)
    exact ⟨⟨_, _, rfl⟩, by simp, by simp⟩
  have hoperators : ∀ s ∈ o.operators, s.Storable := by
    intro s hs
    obtain ⟨w, body, rfl, rfl | rfl⟩ := isOperator_iff.1 (h s hs) <;>
      exact storable_of_keyword (by simp) (by simp)
  simp only [shapes, List.forall_mem_cons, List.forall_mem_append]
  exact ⟨⟨⟨_, _, rfl⟩, by simp, by simp⟩, hrequirements,
    storable_sectionShapes _ (by simp) (by simp), storable_sectionShapes _ (by simp) (by simp),
    storable_sectionShapes _ (by simp) (by simp), storable_sectionShapes _ (by simp) (by simp),
    storable_sectionShapes _ (by simp) (by simp), hoperators⟩

namespace DomainSections

variable {s : DomainSections} {ts : List Tree} {o : DomainOutline}

theorem Collects.follows (h : s.Collects o.shapes)
    (hheaded : ∀ s ∈ o.operators, s.isOperator = true) : s.Follows o := by
  obtain ⟨hname, hrequirements, htypes, hconstants, hpredicates, hfunctions, hactions,
    hoperators⟩ := h
  have hlast : ∀ body : Option (List Shape), body.toList.getLast? = body := by
    rintro (_ | body) <;> rfl
  simp only [DomainOutline.shapes, bodies_cons, bodies_append, bodies_sectionShapes, body?_headed]
    at hname hrequirements htypes hconstants hpredicates hfunctions hactions
  -- every keyword but that of operators occurs at one place of the outline
  refine ⟨?_, ?_, ?_, ?_, ?_, ?_, ?_, ?_⟩
  · simpa [bodies_of_operators hheaded] using hname
  · apply List.map_injective_iff.2 fun v w hvw => Shape.word.inj hvw
    rw [hrequirements]
    cases o.requirements <;> simp [bodies_of_operators hheaded]
  · simpa [bodies_of_operators hheaded, hlast] using htypes
  · simpa [bodies_of_operators hheaded, hlast] using hconstants
  · simpa [bodies_of_operators hheaded, hlast] using hpredicates
  · simpa [bodies_of_operators hheaded, hlast] using hfunctions
  · simpa [bodies_of_operators hheaded, hlast] using hactions
  · rw [hoperators, DomainOutline.shapes, List.filter_cons_of_neg (by simp [isOperator])]
    simp only [List.filter_append, filter_isOperator_sectionShapes, ne_eq, String.reduceEq,
      not_false_eq_true, List.nil_append]
    exact List.filter_eq_self.2 hheaded

/-- Reading the sections of an outline stores exactly them. -/
theorem follows_of_shapes {o : DomainOutline} (hoperators : ∀ s ∈ o.operators, s.isOperator = true)
    (hts : ts.map Tree.shape = o.shapes) :
    ∃ r, (empty.setAll ts).result = .ok r ∧ r.Follows o := by
  have hstorable := DomainOutline.storable hoperators
  rw [← hts, List.forall_mem_map] at hstorable
  obtain ⟨r, hr⟩ := exists_setAll_iff.2 hstorable
  exact ⟨r, hr, Collects.follows (hts ▸ collects_of_setAll hr) hoperators⟩

end DomainSections

end Pddl
