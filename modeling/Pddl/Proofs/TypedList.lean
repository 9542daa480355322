import Mathlib.Data.List.Forall2
import Pddl.Proofs.Tree.Spelling
import Pddl.Proofs.TypedList.Groups

namespace Pddl

open Text

def TypedName.plain (n : TypedName) : String × Option String :=
  (n.name.text, n.type.map Excerpt.text)

/-- Groups of names, each with a dash and a type behind it, and names without a type at the end. -/
inductive TypedWords : List Shape → List (String × Option String) → Prop where
  | untyped (names : List String) (hdash : "-" ∉ names) :
      TypedWords (names.map .word) (names.map (·, none))
  | group (names : List String) (type : String) {ss : List Shape}
      {rest : List (String × Option String)} (hne : names ≠ []) (hdash : "-" ∉ names)
      (htype : type ≠ "-") (hrest : TypedWords ss rest) :
      TypedWords (names.map .word ++ .word "-" :: .word type :: ss)
        (names.map (·, some type) ++ rest)

theorem TypedListing.typedWords (l : TypedListing) :
    TypedWords (l.words.map fun e => .word e.text) (l.names.map TypedName.plain) := by
  induction l using TypedListing.induct with
  | untyped names hnames =>
    have huntyped := TypedWords.untyped (names.map Excerpt.text) (by simpa using hnames)
    simpa [words, TypedListing.names, TypedName.plain, Function.comp_def] using huntyped
  | cons g l ih =>
    have hgroup := TypedWords.group (g.names.map Excerpt.text) g.type.text
      (by simpa using g.names_ne_nil) (by simpa using g.names_ne_dash) g.type_ne_dash ih
    simpa [TypedGroup.words, TypedGroup.typed, g.dash_text, TypedName.plain, Function.comp_def]
      using hgroup

theorem exists_excerpts_of_shapes {ts : List Tree} {names : List String}
    (h : ts.map Tree.shape = names.map .word) :
    ∃ es : List Excerpt, ts = es.map .word ∧ es.map Excerpt.text = names := by
  induction ts generalizing names with
  | nil => exact ⟨[], rfl, by simpa using h.symm⟩
  | cons t ts ih =>
    cases names with
    | nil => simp at h
    | cons name names =>
      simp only [List.map_cons, List.cons.injEq] at h
      obtain ⟨e, rfl, rfl⟩ := Tree.eq_word_of_shape h.1
      obtain ⟨es, rfl, rfl⟩ := ih h.2
      exact ⟨e :: es, rfl, rfl⟩

theorem TypedWords.exists_listing {ts : List Tree} {gs : List (String × Option String)}
    (h : TypedWords (ts.map Tree.shape) gs) :
    ∃ l : TypedListing, ts = l.words.map .word ∧ l.names.map TypedName.plain = gs := by
  generalize hss : ts.map Tree.shape = ss at h
  induction h generalizing ts with
  | untyped names hdash =>
    obtain ⟨es, rfl, rfl⟩ := exists_excerpts_of_shapes hss
    exact ⟨⟨[], es, by simpa using hdash⟩, by simp [TypedListing.words],
      by simp [TypedListing.names, TypedName.plain]⟩
  | @group names type ss rest hne hdash htype _ ih =>
    obtain ⟨us, vs, rfl, hus, hvs⟩ := List.map_eq_append_iff.1 hss
    obtain ⟨es, rfl, rfl⟩ := exists_excerpts_of_shapes hus
    obtain ⟨t, vs, rfl, ht, hvs'⟩ := List.map_eq_cons_iff.1 hvs
    obtain ⟨u, vs, rfl, hu, hrest⟩ := List.map_eq_cons_iff.1 hvs'
    obtain ⟨d, rfl, hd⟩ := Tree.eq_word_of_shape ht
    obtain ⟨e, rfl, rfl⟩ := Tree.eq_word_of_shape hu
    obtain ⟨l, rfl, rfl⟩ := ih hrest
    refine ⟨.cons ⟨es, d, e, by simpa using hne, by simpa using hdash, hd, htype⟩ l, ?_, ?_⟩
    · simp [TypedGroup.words]
    · simp [TypedGroup.typed, TypedName.plain]

/-- A list of trees is a typed list exactly when its shape is one. -/
theorem typedNames_eq_ok {ts : List Tree} {gs : List (String × Option String)} :
    (∃ ns, typedNames ts = .ok ns ∧ ns.map TypedName.plain = gs) ↔
      TypedWords (ts.map Tree.shape) gs := by
  constructor
  · rintro ⟨ns, hns, rfl⟩
    obtain ⟨l, rfl, rfl⟩ := typedNames_eq_ok_iff_listing.1 hns
    simpa [Function.comp_def] using l.typedWords
  · intro h
    obtain ⟨l, rfl, rfl⟩ := h.exists_listing
    exact ⟨l.names, typedNames_listing l, rfl⟩

namespace Types

variable (t : Types) (policy : Undeclared)

def Admits (type : String) : Prop :=
  if t.usesTyping then t.contains type = true ∨ type = objectType ∨ policy = .adHoc
  else type = implicitType

/-- The entity of a name with or without a type. -/
def Gives : String × Option String → Entity → Prop
  | (name, some type), e => t.Admits policy type ∧ e = ⟨name, type⟩
  | (name, none), e => t.usesTyping = false ∧ e = ⟨name, implicitType⟩

/-- Whether the shapes are a typed list of the entities. -/
def Declares (ss : List Shape) (es : List Entity) : Prop :=
  ∃ gs, TypedWords ss gs ∧ List.Forall₂ (t.Gives policy) gs es

variable {t policy}

theorem admits_of_typing (h : t.usesTyping = true) (type : String) :
    t.Admits policy type ↔
      (t.contains type || type = objectType) = true ∨ policy = .adHoc := by
  simp [Admits, h, or_assoc]

theorem admits_of_not_typing (h : t.usesTyping = false) (type : String) :
    t.Admits policy type ↔ type = implicitType := by
  simp [Admits, h]

theorem resolve_eq_ok {word : Excerpt} {type : String} :
    (t.resolve policy word).result = .ok type ↔ t.Admits policy word.text ∧ word.text = type := by
  unfold resolve
  cases htyping : t.usesTyping with
  | false =>
    rw [admits_of_not_typing htyping]
    by_cases himplicit : word.text = implicitType <;> simp [himplicit]
  | true =>
    rw [admits_of_typing htyping]
    by_cases hknown : (t.contains word.text || word.text = objectType) = true
    · simp [hknown]
    · cases policy <;> simp [hknown, Report.warn, bind_eq_ok]

theorem entity_eq_ok {n : TypedName} {e : Entity} :
    (t.entity policy n).result = .ok e ↔ t.Gives policy n.plain e := by
  obtain ⟨name, type⟩ := n
  cases type with
  | none => cases htyping : t.usesTyping <;> simp [entity, Gives, TypedName.plain, htyping, eq_comm]
  | some type =>
    simp only [entity, Gives, TypedName.plain, Option.map_some, Report.result_bind,
      Report.result_pure, bind_eq_ok, resolve_eq_ok, Except.ok.injEq]
    constructor
    · rintro ⟨-, ⟨hadmits, rfl⟩, rfl⟩
      exact ⟨hadmits, rfl⟩
    · rintro ⟨hadmits, rfl⟩
      exact ⟨_, ⟨hadmits, rfl⟩, rfl⟩

theorem entitiesOf_eq_ok {ns : List TypedName} {es : List Entity} :
    (t.entitiesOf policy ns).result = .ok es ↔
      List.Forall₂ (t.Gives policy) (ns.map TypedName.plain) es := by
  induction ns generalizing es with
  | nil => simp [entitiesOf, eq_comm]
  | cons n ns ih =>
    simp only [entitiesOf, Report.result_bind, Report.result_pure, bind_eq_ok, entity_eq_ok, ih,
      Except.ok.injEq, List.map_cons, List.forall₂_cons_left_iff]
    constructor
    · rintro ⟨e, he, es, hes, rfl⟩
      exact ⟨e, es, he, hes, rfl⟩
    · rintro ⟨e, es, he, hes, rfl⟩
      exact ⟨e, he, es, hes, rfl⟩

theorem entities_eq_ok {ts : List Tree} {es : List Entity} :
    (t.entities policy ts).result = .ok es ↔ t.Declares policy (ts.map Tree.shape) es := by
  simp only [entities, Report.result_bind, Report.result_ofExcept, bind_eq_ok, entitiesOf_eq_ok,
    Declares, ← typedNames_eq_ok]
  constructor
  · rintro ⟨ns, hns, hes⟩
    exact ⟨_, ⟨ns, hns, rfl⟩, hes⟩
  · rintro ⟨_, ⟨ns, hns, rfl⟩, hes⟩
    exact ⟨ns, hns, hes⟩

theorem declaredEntities_eq_ok {ts : List Tree} {es : List Entity} :
    t.declaredEntities ts = .ok es ↔ t.Declares .reject (ts.map Tree.shape) es :=
  entities_eq_ok

end Types

def Entity.shapes (e : Entity) : List Shape :=
  if e.type = implicitType then [.word e.name] else [.word e.name, .word "-", .word e.type]

/-- Whether the entity can be declared in a typed list: neither its name nor its type is taken for
the dash between them. -/
structure Types.Declarable (t : Types) (policy : Undeclared) (e : Entity) : Prop where
  admits : t.Admits policy e.type
  name_ne_dash : e.name ≠ "-"
  type_ne_dash : e.type ≠ "-"

theorem TypedWords.ne_dash {ss : List Shape} {gs : List (String × Option String)}
    (h : TypedWords ss gs) {g : String × Option String} (hg : g ∈ gs) :
    g.1 ≠ "-" ∧ ∀ type ∈ g.2, type ≠ "-" := by
  induction h with
  | untyped names hdash =>
    obtain ⟨name, hname, rfl⟩ := List.mem_map.1 hg
    exact ⟨fun he => hdash (he ▸ hname), by simp⟩
  | group names type hne hdash htype _ ih =>
    rcases List.mem_append.1 hg with hg | hg
    · obtain ⟨name, hname, rfl⟩ := List.mem_map.1 hg
      exact ⟨fun he => hdash (he ▸ hname), by simpa using htype⟩
    · exact ih hg

namespace Types

variable {t : Types} {policy : Undeclared}

theorem Gives.declarable {g : String × Option String} {e : Entity} (h : t.Gives policy g e)
    (hname : g.1 ≠ "-") (htype : ∀ type ∈ g.2, type ≠ "-") : t.Declarable policy e := by
  obtain ⟨name, _ | type⟩ := g
  · obtain ⟨htyping, rfl⟩ := h
    have hdash : implicitType ≠ "-" := by decide
    exact ⟨(admits_of_not_typing htyping _).2 rfl, hname, hdash⟩
  · obtain ⟨hadmits, rfl⟩ := h
    exact ⟨hadmits, hname, htype type rfl⟩

theorem Declares.declarable {ss : List Shape} {es : List Entity} (h : t.Declares policy ss es) :
    ∀ e ∈ es, t.Declarable policy e := by
  obtain ⟨gs, hwords, hgives⟩ := h
  intro e he
  obtain ⟨g, hg, hgive⟩ := exists_mem_of_forall₂ hgives he
  obtain ⟨hname, htype⟩ := hwords.ne_dash hg
  exact hgive.declarable hname htype

theorem flatMap_shapes_of_implicit {es : List Entity} (h : ∀ e ∈ es, e.type = implicitType) :
    es.flatMap Entity.shapes = (es.map Entity.name).map .word := by
  induction es with
  | nil => rfl
  | cons e es ih =>
    rw [List.flatMap_cons, ih fun d hd => h d (List.mem_cons_of_mem _ hd), Entity.shapes,
      if_pos (h e List.mem_cons_self)]
    rfl

/-- Entities are written as a typed list of them, provided that the type of a domain without typing
occurs in no other domain. -/
theorem declares_shapes {es : List Entity} (h : ∀ e ∈ es, t.Declarable policy e)
    (himplicit : t.usesTyping = true → ∀ e ∈ es, e.type ≠ implicitType) :
    t.Declares policy (es.flatMap Entity.shapes) es := by
  -- without typing the names stand alone; with typing each entity is a group of its own
  cases htyping : t.usesTyping with
  | false =>
    have htype : ∀ e ∈ es, e.type = implicitType := fun e he =>
      (admits_of_not_typing htyping _).1 (h e he).admits
    rw [flatMap_shapes_of_implicit htype]
    refine ⟨_, .untyped _ ?_, ?_⟩
    · simp only [List.mem_map, not_exists, not_and]
      exact fun e he => (h e he).name_ne_dash
    · simp only [List.forall₂_map_left_iff, List.forall₂_same]
      exact fun e he => ⟨htyping, htype e he ▸ rfl⟩
  | true =>
    induction es with
    | nil => exact ⟨[], .untyped [] (by simp), .nil⟩
    | cons e es ih =>
      have he := h e List.mem_cons_self
      obtain ⟨gs, hwords, hgives⟩ := ih (fun d hd => h d (List.mem_cons_of_mem _ hd))
        (fun ht d hd => himplicit ht d (List.mem_cons_of_mem _ hd))
      have hgroup := TypedWords.group [e.name] e.type (by simp) (by simpa using he.name_ne_dash.symm)
        he.type_ne_dash hwords
      have hgive : t.Gives policy (e.name, some e.type) e := ⟨he.admits, rfl⟩
      refine ⟨_, ?_, List.Forall₂.cons hgive hgives⟩
      simpa [Entity.shapes, himplicit htyping e List.mem_cons_self] using hgroup

end Types

structure Entity.Plain (e : Entity) : Prop where
  name : PlainWord e.name
  type : PlainWord e.type

theorem plainWord_implicitType : PlainWord implicitType := by decide

theorem plainWord_dash : PlainWord "-" := by decide

theorem Entity.Plain.shapes {e : Entity} (h : e.Plain) : ∀ s ∈ e.shapes, s.Plain := by
  unfold Entity.shapes
  split
  · simpa using h.name
  · simpa using ⟨h.name, plainWord_dash, h.type⟩

theorem TypedWords.plain {ss : List Shape} {gs : List (String × Option String)}
    (h : TypedWords ss gs) (hplain : ∀ s ∈ ss, s.Plain) {g : String × Option String} (hg : g ∈ gs) :
    PlainWord g.1 ∧ ∀ type ∈ g.2, PlainWord type := by
  induction h with
  | untyped names _ =>
    obtain ⟨name, hname, rfl⟩ := List.mem_map.1 hg
    simpa using hplain _ (List.mem_map_of_mem hname)
  | group names type _ _ _ _ ih =>
    simp only [List.mem_append, List.mem_cons] at hplain
    rcases List.mem_append.1 hg with hg | hg
    · obtain ⟨name, hname, rfl⟩ := List.mem_map.1 hg
      have htype := hplain (.word type) (Or.inr (Or.inr (Or.inl rfl)))
      simpa using ⟨(Shape.plain_word _).1 (hplain _ (Or.inl (List.mem_map_of_mem hname))),
        (Shape.plain_word _).1 htype⟩
    · exact ih (fun s hs => hplain s (Or.inr (Or.inr (Or.inr hs)))) hg

namespace Types

variable {t : Types} {policy : Undeclared}

theorem Gives.plain {g : String × Option String} {e : Entity} (h : t.Gives policy g e)
    (hname : PlainWord g.1) (htype : ∀ type ∈ g.2, PlainWord type) : e.Plain := by
  obtain ⟨name, _ | type⟩ := g
  · obtain ⟨-, rfl⟩ := h
    exact ⟨hname, plainWord_implicitType⟩
  · obtain ⟨-, rfl⟩ := h
    exact ⟨hname, htype type rfl⟩

theorem Declares.plain {ss : List Shape} {es : List Entity} (h : t.Declares policy ss es)
    (hplain : ∀ s ∈ ss, s.Plain) : ∀ e ∈ es, e.Plain := by
  obtain ⟨gs, hwords, hgives⟩ := h
  intro e he
  obtain ⟨g, hg, hgive⟩ := exists_mem_of_forall₂ hgives he
  obtain ⟨hname, htype⟩ := hwords.plain hplain hg
  exact hgive.plain hname htype

end Types

namespace Entity

theorem spells_text {e : Entity} (h : e.Plain) : Spells e.text.toList e.shapes := by
  unfold text shapes
  split
  · exact .single_plain h.name
  · have htext : (e.name ++ " - " ++ e.type).toList =
        e.name.toList ++ ' ' :: ("-".toList ++ ' ' :: e.type.toList) := by
      simp
    rw [htext]
    exact (Spells.single_plain h.name).append_blank
      ((Spells.single_plain plainWord_dash).append_blank (.single_plain h.type))

theorem spells_texts {es : List Entity} (h : ∀ e ∈ es, e.Plain) :
    Spells (texts es).toList (es.flatMap shapes) := by
  rw [texts, List.flatMap_def]
  exact Spells.words (forall₂_map_map fun e he => spells_text (h e he))

end Entity

end Pddl
