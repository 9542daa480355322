import Pddl.Proofs.Domain.Sections
import Pddl.Proofs.Text.Characters

namespace Pddl

open Text

/-- The words of the only expression of a text and their nesting. -/
def tokenTree (text : String) : Except Error Shape := do
  let expression ← (Excerpt.ofString (prepare text)).single
  return expression.tree.shape

theorem tokenTree_eq (text : String) :
    tokenTree text = (fun e => e.tree.shape) <$> (excerpt text).single := by
  rw [excerpt_eq]
  cases h : (Excerpt.ofString (prepare text)).single <;> simp [tokenTree, h]

instance {text : String} {s : Shape} : Decidable (tokenTree text = .ok s) :=
  decidable_of_iff ((fun e => e.tree.shape) <$> (excerpt text).single = .ok s)
    (by rw [tokenTree_eq])

instance {text : String} {P : Shape → Prop} [DecidablePred P] :
    Decidable (∃ s, tokenTree text = .ok s ∧ P s) :=
  decidable_of_iff (∃ s, (fun e => e.tree.shape) <$> (excerpt text).single = .ok s ∧ P s)
    (by rw [tokenTree_eq])

theorem tokenTree_of_readDefinition {text : String} {definition : Excerpt} {trees : List Tree}
    (h : readDefinition (.ofString (prepare text)) = .ok (definition, trees)) :
    tokenTree text = .ok (.list (.word "define" :: trees.map Tree.shape)) := by
  obtain ⟨hsingle, e, head, htree, hhead⟩ := readDefinition_eq_ok.1 h
  rw [tokenTree, hsingle, ok_bind, htree, Tree.shape_list, List.map_cons, hhead]
  rfl

theorem readDefinition_of_tokenTree {text : String} {ss : List Shape}
    (h : tokenTree text = .ok (.list (.word "define" :: ss))) :
    ∃ definition trees, readDefinition (.ofString (prepare text)) = .ok (definition, trees) ∧
      trees.map Tree.shape = ss := by
  obtain ⟨definition, hsingle, hshape⟩ := bind_eq_ok.1 h
  obtain ⟨e, head, trees, htree, hhead, htrees⟩ := Tree.eq_cons_of_shape (pure_eq_ok.1 hshape)
  exact ⟨definition, trees, readDefinition_eq_ok.2 ⟨hsingle, e, head, htree, hhead⟩, htrees⟩

namespace Shape

def body? (keyword : String) : Shape → Option (List Shape)
  | .list (.word w :: body) => if w = keyword then some body else none
  | _ => none

theorem body?_eq_some {keyword : String} {s : Shape} {body : List Shape} :
    s.body? keyword = some body ↔ s = .list (.word keyword :: body) := by
  unfold body?
  split
  · simp
  · rename_i hnot
    simp only [reduceCtorEq, false_iff]
    rintro rfl
    exact hnot _ _ rfl

@[simp] theorem body?_headed (keyword w : String) (body : List Shape) :
    (Shape.list (.word w :: body)).body? keyword = if w = keyword then some body else none := rfl

theorem body?_of_ne {keyword : String} {head : Shape} (h : head ≠ .word keyword)
    (body : List Shape) : (Shape.list (head :: body)).body? keyword = none := by
  refine Option.eq_none_iff_forall_ne_some.2 fun rest hrest => h ?_
  exact (List.cons.inj (Shape.list.inj (body?_eq_some.1 hrest))).1

def bodies (keyword : String) (ss : List Shape) : List (List Shape) := ss.filterMap (body? keyword)

theorem bodies_cons (keyword : String) (s : Shape) (ss : List Shape) :
    bodies keyword (s :: ss) = (s.body? keyword).toList ++ bodies keyword ss := by
  cases h : s.body? keyword <;> simp [bodies, h]

theorem bodies_append (keyword : String) (ss rs : List Shape) :
    bodies keyword (ss ++ rs) = bodies keyword ss ++ bodies keyword rs :=
  List.filterMap_append

@[simp] theorem getLast?_bodies_concat (keyword : String) (ss : List Shape) (s : Shape) :
    (bodies keyword (ss ++ [s])).getLast? = (s.body? keyword).or (bodies keyword ss).getLast? := by
  cases h : s.body? keyword <;> simp [bodies, h]

@[simp] theorem flatten_bodies_concat (keyword : String) (ss : List Shape) (s : Shape) :
    (bodies keyword (ss ++ [s])).flatten =
      (bodies keyword ss).flatten ++ (s.body? keyword).getD [] := by
  cases h : s.body? keyword <;> simp [bodies, h]

def isOperator (s : Shape) : Bool :=
  (s.body? ":action").isSome || (s.body? ":durative-action").isSome

theorem isOperator_iff {s : Shape} :
    s.isOperator = true ↔ ∃ keyword body, s = .list (.word keyword :: body) ∧
      (keyword = ":action" ∨ keyword = ":durative-action") := by
  simp only [isOperator, Bool.or_eq_true, Option.isSome_iff_exists, body?_eq_some]
  constructor
  · rintro (⟨body, rfl⟩ | ⟨body, rfl⟩)
    · exact ⟨_, body, rfl, Or.inl rfl⟩
    · exact ⟨_, body, rfl, Or.inr rfl⟩
  · rintro ⟨keyword, body, rfl, rfl | rfl⟩
    · exact Or.inl ⟨body, rfl⟩
    · exact Or.inr ⟨body, rfl⟩

/-- Whether a section can be stored: a list that is not empty, with one name behind `domain` and
words behind `:requirements`. -/
structure Storable (s : Shape) : Prop where
  headed : ∃ head body, s = .list (head :: body)
  name : ∀ body ∈ s.body? "domain", ∃ name, body = [.word name]
  requirements : ∀ body ∈ s.body? ":requirements", ∃ ws : List String, body = ws.map .word

theorem storable_headed {w : String} {body : List Shape} :
    (Shape.list (.word w :: body)).Storable ↔
      (w = "domain" → ∃ name, body = [.word name]) ∧
      (w = ":requirements" → ∃ ws : List String, body = ws.map .word) := by
  constructor
  · intro h
    exact ⟨fun hw => h.name body (by simp [hw]), fun hw => h.requirements body (by simp [hw])⟩
  · rintro ⟨hname, hrequirements⟩
    exact ⟨⟨_, _, rfl⟩, by simpa, by simpa⟩

end Shape

namespace DomainSections

open Shape

/-- Whether the sections of these shapes are stored, and nothing else. -/
structure Collects (s : DomainSections) (ss : List Shape) : Prop where
  name : s.name.map (fun e => [.word e.text]) = (bodies "domain" ss).getLast?
  requirements : s.requirements.map .word = (bodies ":requirements" ss).flatten
  types : s.types.map (List.map Tree.shape) = (bodies ":types" ss).getLast?
  constants : s.constants.map (List.map Tree.shape) = (bodies ":constants" ss).getLast?
  predicates : s.predicates.map (List.map Tree.shape) = (bodies ":predicates" ss).getLast?
  functions : s.functions.map (List.map Tree.shape) = (bodies ":functions" ss).getLast?
  actions : s.actions.map (List.map Tree.shape) = (bodies ":actions" ss).getLast?
  operators : s.operators.map Tree.shape = ss.filter isOperator

variable {s r : DomainSections} {entry keyword : Tree} {e : Excerpt} {body ts : List Tree}
  {ss : List Shape}

theorem collects_empty : empty.Collects [] := by
  constructor <;> rfl

theorem Collects.of_stores (h : s.Collects ss)
    (hentry : entry.shape = (Tree.list e (keyword :: body)).shape)
    (hstores : s.Stores entry keyword body r) : r.Collects (ss ++ [entry.shape]) := by
  obtain ⟨hname, hrequirements, htypes, hconstants, hpredicates, hfunctions, hactions,
    hoperators⟩ := h
  rw [Tree.shape_list, List.map_cons] at hentry
  cases hstores with
  | operator hword => rcases hword with hword | hword <;> constructor <;> simp [isOperator, *]
  | skipped hkeyword =>
    simp only [keywords, List.forall_mem_cons] at hkeyword
    constructor <;> simp [isOperator, body?_of_ne, *]
  | _ => constructor <;> simp [isOperator, *]

theorem Collects.setAll (h : s.Collects ss) (hset : (s.setAll ts).result = .ok r) :
    r.Collects (ss ++ ts.map Tree.shape) := by
  rw [setAll_eq_storeAll] at hset
  refine storeAll_induction (P := fun stored s => s.Collects (ss ++ stored.map Tree.shape))
    (fun _ hs hnext => ?_) (by simpa using h) hset
  simpa using hs.of_stores rfl (stores_of_set hnext)

theorem collects_of_setAll (h : (empty.setAll ts).result = .ok s) :
    s.Collects (ts.map Tree.shape) :=
  collects_empty.setAll h

/-- Only a name and requirements are looked into when they are stored. -/
theorem exists_set_iff :
    (∃ r, (s.set entry keyword body).result = .ok r) ↔
      (Shape.list (keyword.shape :: body.map Tree.shape)).Storable := by
  simp only [set_eq_ok]
  constructor
  · rintro ⟨r, h⟩
    cases h with
    | skipped h =>
      simp only [keywords, List.forall_mem_cons] at h
      exact ⟨⟨_, _, rfl⟩, by simp [body?_of_ne, h], by simp [body?_of_ne, h]⟩
    | requirements h hws => simp [storable_headed, h, hws]
    | operator h => rcases h with h | h <;> simp [storable_headed, h]
    | _ h => simp [storable_headed, h]
  · intro h
    by_cases hkeyword : ∃ w ∈ keywords, keyword.shape = .word w
    · obtain ⟨w, hw, hshape⟩ := hkeyword
      obtain ⟨word, rfl, rfl⟩ := Tree.eq_word_of_shape hshape
      rw [Tree.shape_word, storable_headed] at h
      simp only [keywords, List.mem_cons, List.not_mem_nil, or_false] at hw
      rcases hw with hw | hw | hw | hw | hw | hw | hw | hw
      · obtain ⟨name, hname⟩ := h.1 hw
        obtain ⟨t, rfl, ht⟩ := Tree.eq_singleton_of_shapes hname
        obtain ⟨w, rfl, -⟩ := Tree.eq_word_of_shape ht
        exact ⟨_, .name hw⟩
      · obtain ⟨ws, hws⟩ := h.2 hw
        exact ⟨_, .requirements hw hws⟩
      · exact ⟨_, .types hw⟩
      · exact ⟨_, .constants hw⟩
      · exact ⟨_, .predicates hw⟩
      · exact ⟨_, .functions hw⟩
      · exact ⟨_, .actions hw⟩
      · exact ⟨_, .operator hw⟩
    · exact ⟨s, .skipped (by simpa using hkeyword)⟩

/-- Sections can be stored one after the other exactly when each of them can. -/
theorem exists_setAll_iff :
    (∃ r, (s.setAll ts).result = .ok r) ↔ ∀ t ∈ ts, t.shape.Storable := by
  rw [setAll_eq_storeAll]
  exact exists_storeAll_iff Storable.headed exists_set_iff

end DomainSections

end Pddl
