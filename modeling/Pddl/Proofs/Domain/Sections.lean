import Pddl.Domain.Reader
import Pddl.Proofs.Storing
import Pddl.Proofs.Tree.Spelling

namespace Pddl

open Text

/-- What stands in the text is a list that begins with `define`. -/
theorem readDefinition_eq_ok {text definition : Excerpt} {sections : List Tree} :
    readDefinition text = .ok (definition, sections) ↔
      text.single = .ok definition ∧
        ∃ e head, definition.tree = .list e (head :: sections) ∧ head.shape = .word "define" := by
  simp only [readDefinition, bind_eq_ok, Tree.expectItems_eq_ok]
  constructor
  · rintro ⟨definition', hsingle, items, ⟨e, htree⟩, h⟩
    split at h
    · simp at h
    · rename_i head sections'
      split at h
      · rename_i hhead
        obtain ⟨rfl, rfl⟩ := Prod.mk.inj (pure_eq_ok.1 h)
        exact ⟨hsingle, e, head, htree, (Tree.isWord_iff_shape _ _).1 hhead⟩
      · simp at h
  · rintro ⟨hsingle, e, head, htree, hhead⟩
    refine ⟨definition, hsingle, head :: sections, ⟨e, htree⟩, ?_⟩
    simp only [(Tree.isWord_iff_shape _ _).2 hhead, if_true]
    rfl

theorem plain_of_readDefinition {s : String} {definition : Excerpt} {sections : List Tree}
    (h : readDefinition (.ofString (prepare s)) = .ok (definition, sections)) :
    ∀ t ∈ sections, t.shape.Plain := by
  obtain ⟨hsingle, e, head, htree, -⟩ := readDefinition_eq_ok.1 h
  have hplain : definition.tree.shape.Plain := by
    refine Excerpt.plain_tree fun c hc => ?_
    have hmem := Excerpt.single_chars hsingle c hc
    exact settled_of_mem_prepareChars (by simpa [Excerpt.ofString, prepare] using hmem)
  rw [htree] at hplain
  exact (List.forall_mem_cons.1 (Tree.plain_of_list hplain)).2

theorem readDefinition_of_writes {s : String} {ss : List Shape}
    (h : Writes s (.word "define" :: ss)) :
    ∃ definition sections, readDefinition (.ofString (prepare s)) = .ok (definition, sections) ∧
      sections.map Tree.shape = ss := by
  obtain ⟨e, items, htree, hitems⟩ := Tree.eq_list_of_shape h.shape_prepare
  obtain ⟨head, sections, rfl, hhead, hsections⟩ := List.map_eq_cons_iff.1 hitems
  exact ⟨_, sections, readDefinition_eq_ok.2 ⟨h.single_prepare, e, head, htree, hhead⟩, hsections⟩

theorem readWords_eq_ok {what : String} {ts : List Tree} {ws : List String} :
    readWords what ts = .ok ws ↔ ts.map Tree.shape = ws.map .word := by
  induction ts generalizing ws with
  | nil => cases ws <;> simp [readWords]
  | cons t ts ih =>
    simp only [readWords, bind_eq_ok, Tree.expectWord_eq_ok, ih, pure_eq_ok]
    constructor
    · rintro ⟨e, rfl, ws, hws, rfl⟩
      simp [hws]
    · intro h
      obtain ⟨w, ws, rfl, ht, hts⟩ := List.map_eq_cons_iff.1 h.symm
      obtain ⟨e, rfl, rfl⟩ := Tree.eq_word_of_shape ht.symm
      exact ⟨e, rfl, ws, hts.symm, rfl⟩

theorem plain_of_words {ts : List Tree} {ws : List String} (h : ts.map Tree.shape = ws.map .word)
    (hplain : ∀ t ∈ ts, t.shape.Plain) : ∀ w ∈ ws, PlainWord w := by
  intro w hw
  have hmem : Shape.word w ∈ ts.map Tree.shape := h ▸ List.mem_map_of_mem hw
  obtain ⟨t, ht, hshape⟩ := List.mem_map.1 hmem
  have hword := hplain t ht
  rwa [hshape, Shape.plain_word] at hword

namespace DomainSections

def keywords : List String :=
  ["domain", ":requirements", ":types", ":constants", ":predicates", ":functions", ":actions",
    ":action", ":durative-action"]

/-- What becomes of a section with a keyword and a body: as the keyword says, it is stored, or it is
left out. -/
inductive Stores (s : DomainSections) (entry : Tree) : Tree → List Tree → DomainSections → Prop
  | name {word name : Excerpt} (h : word.text = "domain") :
      Stores s entry (.word word) [.word name] { s with name }
  | requirements {word : Excerpt} {body : List Tree} {ws : List String}
      (h : word.text = ":requirements") (hws : body.map Tree.shape = ws.map .word) :
      Stores s entry (.word word) body { s with requirements := s.requirements ++ ws }
  | types {word : Excerpt} {body : List Tree} (h : word.text = ":types") :
      Stores s entry (.word word) body { s with types := body }
  | constants {word : Excerpt} {body : List Tree} (h : word.text = ":constants") :
      Stores s entry (.word word) body { s with constants := body }
  | predicates {word : Excerpt} {body : List Tree} (h : word.text = ":predicates") :
      Stores s entry (.word word) body { s with predicates := body }
  | functions {word : Excerpt} {body : List Tree} (h : word.text = ":functions") :
      Stores s entry (.word word) body { s with functions := body }
  | actions {word : Excerpt} {body : List Tree} (h : word.text = ":actions") :
      Stores s entry (.word word) body { s with actions := body }
  | operator {word : Excerpt} {body : List Tree}
      (h : word.text = ":action" ∨ word.text = ":durative-action") :
      Stores s entry (.word word) body { s with operators := s.operators ++ [entry] }
  | skipped {keyword : Tree} {body : List Tree} (h : ∀ w ∈ keywords, keyword.shape ≠ .word w) :
      Stores s entry keyword body s

variable {s r : DomainSections} {entry keyword : Tree} {body ts : List Tree}

theorem stores_of_set (h : (s.set entry keyword body).result = .ok r) :
    s.Stores entry keyword body r := by
  unfold set at h
  dsimp only at h
  split at h
  case h_3 word =>
    split at h
    case h_1 hword =>
      split at h
      · simp only [Report.result_bind, Report.result_liftM, Report.result_pure, bind_eq_ok,
          Tree.expectWord_eq_ok, Except.ok.injEq] at h
        obtain ⟨name, rfl, rfl⟩ := h
        exact .name hword
      · simp at h
    case h_2 hword =>
      simp only [Report.result_bind, Report.result_liftM, Report.result_pure, bind_eq_ok,
        readWords_eq_ok, Except.ok.injEq] at h
      obtain ⟨ws, hws, rfl⟩ := h
      exact .requirements hword hws
    all_goals
      simp only [Report.result_bind, Report.result_warn, Report.result_pure, ok_bind,
        Except.ok.injEq] at h
      subst h
    case h_3 hword => exact .types hword
    case h_4 hword => exact .constants hword
    case h_5 hword => exact .predicates hword
    case h_6 hword => exact .functions hword
    case h_7 hword => exact .actions hword
    case h_8 hword => exact .operator (Or.inl hword)
    case h_9 hword => exact .operator (Or.inr hword)
    case h_10 => exact .skipped (by simp_all [keywords])
  -- a section that is headed by a list has no keyword
  all_goals
    simp only [Report.result_bind, Report.result_warn, Report.result_pure, ok_bind,
      Except.ok.injEq] at h
    exact h ▸ .skipped (by simp)

theorem set_of_stores (h : s.Stores entry keyword body r) :
    (s.set entry keyword body).result = .ok r := by
  cases h with
  | name h => simp [set, h, Tree.expectWord, ok_bind]
  | requirements h hws => simp [set, h, readWords_eq_ok.2 hws, ok_bind]
  | types h | constants h | predicates h | functions h | actions h => simp [set, h]
  | operator h => rcases h with h | h <;> simp [set, h]
  | skipped h =>
    unfold set
    dsimp only
    split
    case h_3 word =>
      simp only [Tree.shape_word, ne_eq, Shape.word.injEq] at h
      split
      case h_10 => rfl
      all_goals
        rename_i hword
        exact absurd hword (h _ (by simp [keywords]))
    all_goals rfl

/-- A section is stored in one of these ways, and in no other. -/
theorem set_eq_ok :
    (s.set entry keyword body).result = .ok r ↔ s.Stores entry keyword body r :=
  ⟨stores_of_set, set_of_stores⟩

theorem setAll_eq_storeAll (s : DomainSections) (ts : List Tree) :
    s.setAll ts = storeAll set "domain section" s ts := by
  induction ts generalizing s with
  | nil => rfl
  | cons t ts ih =>
    simp only [setAll, storeAll, ih]
    rfl

/-- Whether everything that is stored is plain. -/
structure Plain (s : DomainSections) : Prop where
  name : ∀ e ∈ s.name, PlainWord e.text
  requirements : ∀ w ∈ s.requirements, PlainWord w
  types : ∀ ts ∈ s.types, ∀ t ∈ ts, t.shape.Plain
  constants : ∀ ts ∈ s.constants, ∀ t ∈ ts, t.shape.Plain
  predicates : ∀ ts ∈ s.predicates, ∀ t ∈ ts, t.shape.Plain
  functions : ∀ ts ∈ s.functions, ∀ t ∈ ts, t.shape.Plain
  actions : ∀ ts ∈ s.actions, ∀ t ∈ ts, t.shape.Plain
  operators : ∀ t ∈ s.operators, t.shape.Plain

theorem plain_empty : empty.Plain := by
  constructor <;> simp [empty]

theorem Plain.of_stores (hs : s.Plain) (hentry : entry.shape.Plain)
    (hbody : ∀ t ∈ body, t.shape.Plain) (h : s.Stores entry keyword body r) : r.Plain := by
  have hsome : ∀ ts ∈ some body, ∀ t ∈ ts, t.shape.Plain := by simpa using hbody
  cases h with
  | name => exact { hs with name := by simpa using hbody }
  | requirements _ hws =>
    exact { hs with
      requirements := List.forall_mem_append.2 ⟨hs.requirements, plain_of_words hws hbody⟩ }
  | types => exact { hs with types := hsome }
  | constants => exact { hs with constants := hsome }
  | predicates => exact { hs with predicates := hsome }
  | functions => exact { hs with functions := hsome }
  | actions => exact { hs with actions := hsome }
  | operator =>
    exact { hs with
      operators := List.forall_mem_append.2 ⟨hs.operators, List.forall_mem_singleton.2 hentry⟩ }
  | skipped => exact hs

theorem Plain.setAll (hs : s.Plain) (hts : ∀ t ∈ ts, t.shape.Plain)
    (h : (s.setAll ts).result = .ok r) : r.Plain := by
  rw [setAll_eq_storeAll] at h
  refine storeAll_preserves (fun hmem hs hnext => ?_) hs h
  have hentry := hts _ hmem
  have hbody := (List.forall_mem_cons.1 (Tree.plain_of_list hentry)).2
  exact hs.of_stores hentry hbody (stores_of_set hnext)

end DomainSections

end Pddl
