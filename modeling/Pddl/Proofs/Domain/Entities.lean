import Pddl.Proofs.Domain.Reader

namespace Pddl

open Text

theorem TypedWords.dash_infix {ss : List Shape} {gs : List (String × Option String)}
    (h : TypedWords ss gs) {name type : String} (hg : (name, some type) ∈ gs) :
    [.word "-", .word type] <:+: ss := by
  induction h with
  | untyped names _ => simp at hg
  | @group names other ss rest _ _ _ _ ih =>
    rcases List.mem_append.1 hg with hhere | hrest
    · obtain ⟨-, rfl⟩ : name ∈ names ∧ other = type := by simpa using hhere
      exact ⟨names.map .word, ss, by simp⟩
    · have htail : ss <:+ names.map .word ++ .word "-" :: .word other :: ss :=
        ⟨names.map .word ++ [.word "-", .word other], by simp⟩
      exact (ih hrest).trans htail.isInfix

theorem Entity.ne_implicitType_of_dash_infix {es : List Entity} {type : String}
    (hdash : ∀ e ∈ es, e.name ≠ "-" ∧ e.type ≠ "-")
    (h : [.word "-", .word type] <:+: es.flatMap shapes) : type ≠ implicitType := by
  induction es with
  | nil => simp at h
  | cons e es ih =>
    obtain ⟨⟨hname, htype⟩, hrest⟩ := List.forall_mem_cons.1 hdash
    rw [List.flatMap_cons, shapes] at h
    split at h
    · rw [List.singleton_append, List.infix_cons_iff] at h
      rcases h with hprefix | hinfix
      · simp [List.cons_prefix_cons, Ne.symm hname] at hprefix
      · exact ih hrest hinfix
    · rename_i hwritten
      simp only [List.cons_append, List.nil_append, List.infix_cons_iff, List.cons_prefix_cons,
        List.nil_prefix, and_true, Shape.word.injEq, true_and] at h
      rcases h with ⟨hhere, -⟩ | rfl | ⟨hhere, -⟩ | hinfix
      · exact absurd hhere.symm hname
      · exact hwritten
      · exact absurd hhere.symm htype
      · exact ih hrest hinfix

theorem Text.settled_words {ws : List String} (h : ∀ w ∈ ws, ∀ c ∈ w.toList, Settled c) :
    ∀ c ∈ (words ws).toList, Settled c := by
  have hblank : Settled ' ' := by decide
  induction ws with
  | nil => simp [words, joinWith]
  | cons w ws ih =>
    obtain ⟨hw, hws⟩ := List.forall_mem_cons.1 h
    cases ws with
    | nil => exact hw
    | cons v ws =>
      have hjoin : (words (w :: v :: ws)).toList = w.toList ++ ' ' :: (words (v :: ws)).toList := by
        simp [words, joinWith]
      rw [hjoin, List.forall_mem_append, List.forall_mem_cons]
      exact ⟨hw, hblank, ih hws⟩

theorem Entity.settled_texts {es : List Entity} (h : ∀ e ∈ es, e.Plain) :
    ∀ c ∈ (texts es).toList, Settled c := by
  refine settled_words (List.forall_mem_map.2 fun e he => ?_)
  have hname := (h e he).name.settled
  have htype := (h e he).type.settled
  have hblank : Settled ' ' := by decide
  have hdash : Settled '-' := by decide
  unfold text
  split
  · exact hname
  · simp only [String.toList_append, List.forall_mem_append]
    exact ⟨⟨hname, by simp [hblank, hdash]⟩, htype⟩

namespace Types

variable {t : Types} {policy : Undeclared} {es : List Entity}

/-- Entities are written as a typed list of them exactly when none of them has the type that is not
written, or when no type is. -/
theorem declares_shapes_iff (h : ∀ e ∈ es, t.Declarable policy e) :
    t.Declares policy (es.flatMap Entity.shapes) es ↔
      (t.usesTyping = true → ∀ e ∈ es, e.type ≠ implicitType) := by
  refine ⟨fun hdeclares htyping e he => ?_, declares_shapes h⟩
  obtain ⟨gs, hwords, hgives⟩ := hdeclares
  obtain ⟨⟨name, type⟩, hg, hgive⟩ := exists_mem_of_forall₂ hgives he
  cases type with
  | none => simp [Gives, htyping] at hgive
  | some type =>
    obtain ⟨-, rfl⟩ := hgive
    exact Entity.ne_implicitType_of_dash_infix
      (fun d hd => ⟨(h d hd).name_ne_dash, (h d hd).type_ne_dash⟩) (hwords.dash_infix hg)

/-- Only an object whose type is not declared can have the type that is not written. -/
theorem Separate.ne_implicitType_iff (hseparate : t.Separate)
    (h : ∀ e ∈ es, t.Declarable policy e) :
    (t.usesTyping = true → ∀ e ∈ es, e.type ≠ implicitType) ↔
      (t.usesTyping = true → policy = .adHoc → ∀ e ∈ es, e.type ≠ implicitType) := by
  refine ⟨fun hne htyping _ => hne htyping, fun hne htyping e he => ?_⟩
  cases policy with
  | adHoc => exact hne htyping rfl e he
  | reject => exact hseparate.ne_implicitType htyping (h e he)

def readList (t : Types) (policy : Undeclared) (e : Excerpt) : Report (List Entity) := do
  let items ← Report.ofExcept e.items
  t.entities policy (items.map Item.tree)

/-- The entities of the list that the given entities are written as. -/
def reread (t : Types) (policy : Undeclared) (es : List Entity) : Report (List Entity) :=
  t.readList policy (.ofString ("(" ++ Entity.texts es ++ ")"))

theorem reread_eq_ok (hplain : ∀ e ∈ es, e.Plain) {ds : List Entity} :
    (t.reread policy es).result = .ok ds ↔ t.Declares policy (es.flatMap Entity.shapes) ds := by
  obtain ⟨items, hitems, hshapes⟩ := Excerpt.itemsFrom_of_spells (Entity.spells_texts hplain)
    (Position.origin.next '(')
  rw [flatMap_lowerChar_of_settled (Entity.settled_texts hplain)] at hitems
  have hgroup : (Excerpt.ofString ("(" ++ Entity.texts es ++ ")")).items = .ok items := by
    have hchars : ("(" ++ Entity.texts es ++ ")").toList =
        '(' :: ((Entity.texts es).toList ++ [')']) := by
      simp
    rw [Excerpt.ofString, hchars]
    exact (Excerpt.items_parenthesized _ _).trans hitems
  have htrees : (items.map Item.tree).map Tree.shape = es.flatMap Entity.shapes := by
    rw [List.map_map]
    exact hshapes
  rw [reread, readList, hgroup, Report.result_bind, Report.result_ofExcept, ok_bind, entities_eq_ok,
    htrees]

end Types

/-- Entities that are read from a list in a prepared text are read back from their own texts, under
the same table and policy, unless one of them is an object whose type is not declared and has the name
of the type that is never written. -/
theorem Domain.reread_eq_ok_iff {config : Config} {domainText text : String} {d : Domain}
    {policy : Undeclared} {e : Excerpt} {items : List Item} {trees : List Tree} {es : List Entity}
    (hd : (Domain.read config domainText).result = .ok d)
    (hexcerpt : e.chars <:+: (prepare text).toList) (hitems : e.items = .ok items)
    (htrees : trees ⊆ items.map Item.tree) (h : (d.types.entities policy trees).result = .ok es) :
    (d.types.reread policy es).result = .ok es ↔
      (d.types.usesTyping = true → policy = .adHoc → ∀ e ∈ es, e.type ≠ implicitType) := by
  have hsettled : ∀ c ∈ e.chars, Settled c := by
    intro c hc
    have hmem := hexcerpt.subset hc
    exact settled_of_mem_prepareChars (by simpa [prepare] using hmem)
  have hplain : ∀ s ∈ trees.map Tree.shape, s.Plain := by
    have htree := Excerpt.plain_tree hsettled
    rw [Excerpt.tree_of_ok hitems, Tree.shape_list, Shape.plain_list, List.forall_mem_map] at htree
    exact List.forall_mem_map.2 fun t ht => htree t (htrees ht)
  have hdeclares := Types.entities_eq_ok.1 h
  rw [Types.reread_eq_ok (hdeclares.plain hplain),
    Types.declares_shapes_iff hdeclares.declarable,
    (Domain.fromText_of_read hd).separate.ne_implicitType_iff hdeclares.declarable]

def Domain.boating : String := "(define (domain d) (:types t))"

theorem Domain.reread_eq_ok_iff_boating : ∃ d es,
    (Domain.read .default Domain.boating).result = .ok d ∧
    (d.types.readList .adHoc (.ofString (prepare "(a b - T c - Boat)"))).result = .ok es ∧
    es.length = 3 ∧ (d.types.reread .adHoc es).result = .ok es := by
  obtain ⟨d, hd, items, hitems, es, hes, hlength, hne⟩ :
      ∃ d, (Domain.read .default Domain.boating).result = .ok d ∧
        ∃ items, (Excerpt.ofString (prepare "(a b - T c - Boat)")).items = .ok items ∧
          ∃ es, (d.types.entities .adHoc (items.map Item.tree)).result = .ok es ∧ es.length = 3 ∧
            ∀ e ∈ es, e.type ≠ implicitType := by
    decide +kernel
  have hlist : (d.types.readList .adHoc (.ofString (prepare "(a b - T c - Boat)"))).result =
      .ok es := by
    rw [Types.readList, hitems]
    exact hes
  have hexcerpt : (Excerpt.ofString (prepare "(a b - T c - Boat)")).chars <:+:
      (prepare "(a b - T c - Boat)").toList := List.infix_refl _
  have hreread := reread_eq_ok_iff hd hexcerpt hitems (List.Subset.refl _) hes
  exact ⟨d, es, hd, hlist, hlength, hreread.2 fun _ _ => hne⟩

/-- The type of the object is let through and then not written. -/
theorem Domain.not_reread_eq_default : ∃ d es,
    (Domain.read .default Domain.boating).result = .ok d ∧
    (d.types.readList .adHoc (.ofString (prepare "(x - default)"))).result = .ok es ∧
    (d.types.reread .adHoc es).result ≠ .ok es := by
  obtain ⟨d, hd, es, hes, hnot⟩ : ∃ d, (Domain.read .default Domain.boating).result = .ok d ∧
      ∃ es, (d.types.readList .adHoc (.ofString (prepare "(x - default)"))).result = .ok es ∧
        ¬∃ ds, (d.types.reread .adHoc es).result = .ok ds ∧ ds = es := by
    decide +kernel
  exact ⟨d, es, hd, hes, fun hback => hnot ⟨es, hback, rfl⟩⟩

end Pddl
