import Pddl.Proofs.Domain.Collect
import Pddl.Proofs.Problem.Sections

namespace Pddl

open Text

theorem Tree.exists_words (ws : List String) :
    ∃ ts : List Tree, ts.map Tree.shape = ws.map .word :=
  ⟨ws.map fun w => .word (.ofString w), by simp [Excerpt.ofString, Excerpt.text, Function.comp_def]⟩

theorem TypedWords.exists_words {ss : List Shape} {gs : List (String × Option String)}
    (h : TypedWords ss gs) : ∃ ws : List String, ss = ws.map .word := by
  induction h with
  | untyped names _ => exact ⟨names, rfl⟩
  | group names type _ _ _ _ ih =>
    obtain ⟨ws, rfl⟩ := ih
    exact ⟨names ++ "-" :: type :: ws, by simp⟩

theorem Types.Declares.unique {t : Types} {policy : Undeclared} {ss : List Shape}
    {es es' : List Entity} (h : t.Declares policy ss es) (h' : t.Declares policy ss es') :
    es = es' := by
  obtain ⟨gs, hwords, -⟩ := id h
  obtain ⟨ws, rfl⟩ := hwords.exists_words
  obtain ⟨ts, hts⟩ := Tree.exists_words ws
  rw [← hts, ← entities_eq_ok] at h h'
  exact Except.ok.inj (h.symm.trans h')

theorem Types.declares_nil (t : Types) (policy : Undeclared) : t.Declares policy [] [] :=
  ⟨[], .untyped [] (by simp), .nil⟩

namespace ProblemSections

open Shape

/-- Whether a section can be stored: a list that is not empty, with one name behind `problem` and
`:domain`, entities behind `:objects` and one list behind `:goal`. -/
structure Storable (types : Types) (s : Shape) : Prop where
  headed : ∃ head body, s = .list (head :: body)
  name : ∀ body ∈ s.body? "problem", ∃ name, body = [.word name]
  domainName : ∀ body ∈ s.body? ":domain", ∃ name, body = [.word name]
  objects : ∀ body ∈ s.body? ":objects", ∃ es, types.Declares .adHoc body es
  goal : ∀ body ∈ s.body? ":goal", ∃ goal, body = [goal] ∧ ∀ w, goal ≠ .word w

/-- Whether the sections of these shapes are stored, and nothing else. -/
structure Collects (s : ProblemSections) (types : Types) (ss : List Shape) : Prop where
  name : s.name.map (fun w => [.word w]) = (bodies "problem" ss).getLast?
  domainName : s.domainName.map (fun w => [.word w]) = (bodies ":domain" ss).getLast?
  objects : types.Declares .adHoc ((bodies ":objects" ss).getLast?.getD []) s.objects
  init : s.init.map Tree.shape = (bodies ":init" ss).getLast?.getD []
  goal : s.goal.map (fun t => [t.shape]) = (bodies ":goal" ss).getLast?

variable {s r : ProblemSections} {types : Types} {entry keyword : Tree} {body ts : List Tree}
  {ss : List Shape}

theorem collects_empty : empty.Collects types [] := by
  refine ⟨rfl, rfl, types.declares_nil _, rfl, rfl⟩

theorem Collects.of_stores (h : s.Collects types ss) (hstores : s.Stores types keyword body r) :
    r.Collects types (ss ++ [.list (keyword.shape :: body.map Tree.shape)]) := by
  obtain ⟨hname, hdomainName, hobjects, hinit, hgoal⟩ := h
  cases hstores with
  | skipped hkeyword =>
    simp only [keywords, List.forall_mem_cons] at hkeyword
    constructor <;> simp [body?_of_ne, *]
  | _ => constructor <;> simp [*]

theorem Collects.setAll (h : s.Collects types ss) (hset : (s.setAll types ts).result = .ok r) :
    r.Collects types (ss ++ ts.map Tree.shape) := by
  rw [setAll_eq_storeAll] at hset
  refine storeAll_induction (P := fun stored s => s.Collects types (ss ++ stored.map Tree.shape))
    (fun _ hs hnext => ?_) (by simpa using h) hset
  simpa using hs.of_stores (stores_of_set hnext)

theorem collects_of_setAll (h : (empty.setAll types ts).result = .ok s) :
    s.Collects types (ts.map Tree.shape) :=
  collects_empty.setAll h

theorem storable_headed {w : String} {body : List Shape} :
    Storable types (.list (.word w :: body)) ↔
      (w = "problem" → ∃ name, body = [.word name]) ∧
      (w = ":domain" → ∃ name, body = [.word name]) ∧
      (w = ":objects" → ∃ es, types.Declares .adHoc body es) ∧
      (w = ":goal" → ∃ goal, body = [goal] ∧ ∀ w, goal ≠ .word w) := by
  constructor
  · intro h
    refine ⟨?_, ?_, ?_, ?_⟩ <;> rintro rfl
    · exact h.name body (by simp)
    · exact h.domainName body (by simp)
    · exact h.objects body (by simp)
    · exact h.goal body (by simp)
  · rintro ⟨hname, hdomainName, hobjects, hgoal⟩
    refine ⟨⟨_, _, rfl⟩, ?_, ?_, ?_, ?_⟩ <;> simpa

theorem exists_set_iff :
    (∃ r, (s.set types entry keyword body).result = .ok r) ↔
      Storable types (.list (keyword.shape :: body.map Tree.shape)) := by
  simp only [set_eq_ok]
  constructor
  · rintro ⟨r, h⟩
    cases h with
    | skipped h =>
      simp only [keywords, List.forall_mem_cons] at h
      refine ⟨⟨_, _, rfl⟩, ?_, ?_, ?_, ?_⟩ <;> simp [body?_of_ne, h]
    | objects h hobjects => simpa [storable_headed, h] using ⟨_, hobjects⟩
    | goal h hlist => simpa [storable_headed, h] using (Tree.isList_iff_shape _).1 hlist
    | name h hname | domainName h hname => simp [storable_headed, h, hname]
    | init h => simp [storable_headed, h]
  · intro h
    by_cases hkeyword : ∃ w ∈ keywords, keyword.shape = .word w
    · obtain ⟨w, hw, hshape⟩ := hkeyword
      obtain ⟨word, rfl, rfl⟩ := Tree.eq_word_of_shape hshape
      rw [Tree.shape_word, storable_headed] at h
      obtain ⟨hname, hdomainName, hobjects, hgoal⟩ := h
      simp only [keywords, List.mem_cons, List.not_mem_nil, or_false] at hw
      rcases hw with hw | hw | hw | hw | hw
      · obtain ⟨name, hbody⟩ := hname hw
        exact ⟨_, .name hw hbody⟩
      · obtain ⟨name, hbody⟩ := hdomainName hw
        exact ⟨_, .domainName hw hbody⟩
      · obtain ⟨es, hes⟩ := hobjects hw
        exact ⟨_, .objects hw hes⟩
      · exact ⟨_, .init hw⟩
      · obtain ⟨goal, hbody, hlist⟩ := hgoal hw
        obtain ⟨t, rfl, rfl⟩ := Tree.eq_singleton_of_shapes hbody
        exact ⟨_, .goal hw ((Tree.isList_iff_shape t).2 hlist)⟩
    · exact ⟨s, .skipped (by simpa using hkeyword)⟩

/-- Sections can be stored one after the other exactly when each of them can. -/
theorem exists_setAll_iff :
    (∃ r, (s.setAll types ts).result = .ok r) ↔ ∀ t ∈ ts, Storable types t.shape := by
  rw [setAll_eq_storeAll]
  exact exists_storeAll_iff Storable.headed exists_set_iff

def shapes (layout : Layout) (name domainName : String) (objects facts : List Shape)
    (goal : Shape) : List Shape :=
  [.list [.word "problem", .word name], .list [.word ":domain", .word domainName],
    .list (.word ":objects" :: objects)] ++
  match layout with
  | .fastDownward => [.list (.word ":init" :: facts), .list [.word ":goal", goal]]
  | .goalFirst => [.list [.word ":goal", goal], .list (.word ":init" :: facts)]

theorem getLast?_bodies_shapes (layout : Layout) (name domainName : String)
    (objects facts : List Shape) (goal : Shape) :
    let ss := shapes layout name domainName objects facts goal
    (bodies "problem" ss).getLast? = some [.word name] ∧
      (bodies ":domain" ss).getLast? = some [.word domainName] ∧
      (bodies ":objects" ss).getLast? = some objects ∧
      (bodies ":init" ss).getLast? = some facts ∧ (bodies ":goal" ss).getLast? = some [goal] := by
  cases layout <;> simp [shapes, bodies]

theorem storable_shapes (layout : Layout) (name domainName : String) (facts gs : List Shape)
    {objects : List Shape} {es : List Entity} (hobjects : types.Declares .adHoc objects es) :
    ∀ s ∈ shapes layout name domainName objects facts (.list gs), Storable types s := by
  have hdeclares : ∃ es, types.Declares .adHoc objects es := ⟨es, hobjects⟩
  cases layout <;> simp [shapes, storable_headed, hdeclares]

theorem setAll_shapes {layout : Layout} {name domainName : String} {es : List Entity}
    {objects facts gs : List Shape} (hobjects : types.Declares .adHoc objects es)
    (hts : ts.map Tree.shape = shapes layout name domainName objects facts (.list gs)) :
    ∃ init goal, (empty.setAll types ts).result =
        .ok ⟨some name, some domainName, es, init, some goal⟩ ∧
      init.map Tree.shape = facts ∧ goal.shape = .list gs := by
  have hstorable := storable_shapes layout name domainName facts gs hobjects
  rw [← hts, List.forall_mem_map] at hstorable
  obtain ⟨⟨n, dn, os, init, g⟩, hr⟩ := exists_setAll_iff.2 hstorable
  obtain ⟨hname, hdomainName, hdeclared, hinit, hgoal⟩ := collects_of_setAll hr
  obtain ⟨hlastName, hlastDomain, hlastObjects, hlastInit, hlastGoal⟩ :=
    getLast?_bodies_shapes layout name domainName objects facts (.list gs)
  rw [hts] at hname hdomainName hdeclared hinit hgoal
  obtain rfl : n = some name := by simpa [hlastName] using hname
  obtain rfl : dn = some domainName := by simpa [hlastDomain] using hdomainName
  obtain rfl : os = es := by
    rw [hlastObjects] at hdeclared
    exact hdeclared.unique hobjects
  obtain ⟨goal, rfl, hshape⟩ : ∃ goal, g = some goal ∧ goal.shape = .list gs := by
    simpa [hlastGoal] using hgoal
  exact ⟨init, goal, hr, by simpa [hlastInit] using hinit, hshape⟩

end ProblemSections

end Pddl
