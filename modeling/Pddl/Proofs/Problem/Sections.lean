import Pddl.Problem.Reader
import Pddl.Proofs.Domain.Sections
import Pddl.Proofs.TypedList

namespace Pddl

open Text

namespace ProblemSections

variable {s r : ProblemSections} {types : Types} {entry keyword : Tree} {body ts : List Tree}

theorem singleName_eq_ok {name : String} :
    singleName entry body = .ok name ↔ body.map Tree.shape = [.word name] := by
  unfold singleName
  split
  · rename_i t
    simp only [bind_eq_ok, Tree.expectWord_eq_ok, pure_eq_ok]
    constructor
    · rintro ⟨w, rfl, rfl⟩
      simp
    · intro h
      obtain ⟨w, rfl, rfl⟩ := Tree.eq_word_of_shape (List.cons.inj h).1
      exact ⟨w, rfl, rfl⟩
  · rename_i hnone
    refine ⟨by simp, fun h => ?_⟩
    obtain ⟨t, rfl, -⟩ := Tree.eq_singleton_of_shapes h
    exact absurd rfl (hnone t)

def keywords : List String := ["problem", ":domain", ":objects", ":init", ":goal"]

/-- What becomes of a section with a keyword and a body: as the keyword says, it is stored, or it is
left out. -/
inductive Stores (s : ProblemSections) (types : Types) : Tree → List Tree → ProblemSections → Prop
  | name {word : Excerpt} {body : List Tree} {name : String} (h : word.text = "problem")
      (hname : body.map Tree.shape = [.word name]) :
      Stores s types (.word word) body { s with name }
  | domainName {word : Excerpt} {body : List Tree} {name : String} (h : word.text = ":domain")
      (hname : body.map Tree.shape = [.word name]) :
      Stores s types (.word word) body { s with domainName := name }
  | objects {word : Excerpt} {body : List Tree} {objects : List Entity} (h : word.text = ":objects")
      (hobjects : types.Declares .adHoc (body.map Tree.shape) objects) :
      Stores s types (.word word) body { s with objects }
  | init {word : Excerpt} {body : List Tree} (h : word.text = ":init") :
      Stores s types (.word word) body { s with init := body }
  | goal {word : Excerpt} {goal : Tree} (h : word.text = ":goal") (hlist : goal.isList = true) :
      Stores s types (.word word) [goal] { s with goal }
  | skipped {keyword : Tree} {body : List Tree} (h : ∀ w ∈ keywords, keyword.shape ≠ .word w) :
      Stores s types keyword body s

theorem stores_of_set (h : (s.set types entry keyword body).result = .ok r) :
    s.Stores types keyword body r := by
  unfold set at h
  dsimp only at h
  split at h
  case h_3 word =>
    split at h
    case h_6 =>
      simp only [Report.result_bind, Report.result_warn, Report.result_pure, ok_bind,
        Except.ok.injEq] at h
      exact h ▸ .skipped (by simp_all [keywords])
    case h_5 hword =>
      split at h
      · simp only [Report.result_bind, Report.result_liftM, Report.result_pure, bind_eq_ok,
          Tree.expectList_eq_ok, Except.ok.injEq] at h
        obtain ⟨_, ⟨hlist, rfl⟩, rfl⟩ := h
        exact .goal hword hlist
      · simp at h
    all_goals
      simp only [Report.result_bind, Report.result_liftM, Report.result_pure, bind_eq_ok,
        singleName_eq_ok, Types.entities_eq_ok, Except.ok.injEq] at h
    case h_1 hword =>
      obtain ⟨name, hname, rfl⟩ := h
      exact .name hword hname
    case h_2 hword =>
      obtain ⟨name, hname, rfl⟩ := h
      exact .domainName hword hname
    case h_3 hword =>
      obtain ⟨objects, hobjects, rfl⟩ := h
      exact .objects hword hobjects
    case h_4 hword => exact h ▸ .init hword
  -- a section that is headed by a list has no keyword
  all_goals
    simp only [Report.result_bind, Report.result_warn, Report.result_pure, ok_bind,
      Except.ok.injEq] at h
    exact h ▸ .skipped (by simp)

theorem set_of_stores (h : s.Stores types keyword body r) :
    (s.set types entry keyword body).result = .ok r := by
  cases h with
  | name h hname | domainName h hname => simp [set, h, singleName_eq_ok.2 hname, ok_bind]
  | objects h hobjects => simp [set, h, Types.entities_eq_ok.2 hobjects, ok_bind]
  | init h => simp [set, h]
  | goal h hlist => simp [set, h, Tree.expectList_eq_ok.2 ⟨hlist, rfl⟩, ok_bind]
  | skipped h =>
    unfold set
    dsimp only
    split
    case h_3 word =>
      simp only [Tree.shape_word, ne_eq, Shape.word.injEq] at h
      split
      case h_6 => rfl
      all_goals
        rename_i hword
        exact absurd hword (h _ (by simp [keywords]))
    all_goals rfl

/-- A section is stored in one of these ways, and in no other. -/
theorem set_eq_ok :
    (s.set types entry keyword body).result = .ok r ↔ s.Stores types keyword body r :=
  ⟨stores_of_set, set_of_stores⟩

theorem setAll_eq_storeAll (s : ProblemSections) (types : Types) (ts : List Tree) :
    s.setAll types ts = storeAll (·.set types) "problem section" s ts := by
  induction ts generalizing s with
  | nil => rfl
  | cons t ts ih =>
    simp only [setAll, storeAll, ih]
    rfl

structure Plain (s : ProblemSections) (types : Types) : Prop where
  name : ∀ w ∈ s.name, PlainWord w
  domainName : ∀ w ∈ s.domainName, PlainWord w
  objects : ∀ e ∈ s.objects, e.Plain ∧ types.Declarable .adHoc e
  init : ∀ t ∈ s.init, t.shape.Plain
  goal : ∀ t ∈ s.goal, t.shape.Plain

theorem plain_empty : empty.Plain types := by
  constructor <;> simp [empty]

theorem Plain.of_stores (hs : s.Plain types) (hbody : ∀ t ∈ body, t.shape.Plain)
    (h : s.Stores types keyword body r) : r.Plain types := by
  have hword : ∀ name, body.map Tree.shape = [.word name] → PlainWord name := fun name hname =>
    List.forall_mem_singleton.1 (plain_of_words hname hbody)
  cases h with
  | name _ hname => exact { hs with name := by simpa using hword _ hname }
  | domainName _ hname => exact { hs with domainName := by simpa using hword _ hname }
  | objects _ hobjects =>
    have hplain := hobjects.plain (List.forall_mem_map.2 hbody)
    exact { hs with objects := fun e he => ⟨hplain e he, hobjects.declarable e he⟩ }
  | init => exact { hs with init := hbody }
  | goal => exact { hs with goal := by simpa using hbody }
  | skipped => exact hs

theorem Plain.setAll (hs : s.Plain types) (hts : ∀ t ∈ ts, t.shape.Plain)
    (h : (s.setAll types ts).result = .ok r) : r.Plain types := by
  rw [setAll_eq_storeAll] at h
  refine storeAll_preserves (P := fun s => s.Plain types) (fun hmem hs hnext => ?_) hs h
  have hbody := (List.forall_mem_cons.1 (Tree.plain_of_list (hts _ hmem))).2
  exact hs.of_stores hbody (stores_of_set hnext)

end ProblemSections

end Pddl
