import Pddl.Proofs.Domain.Collect
import Pddl.Proofs.Domain.Reader
import Pddl.Proofs.Operator.Shape

namespace Pddl

open Text

namespace Types

variable {t : Types}

theorem readTypes_congr {body body' : Option (List Tree)}
    (hshapes : body.map (List.map Tree.shape) = body'.map (List.map Tree.shape))
    (h : readTypes body = .ok t) : readTypes body' = .ok t := by
  refine of_map_eq_map (P := fun b => readTypes b = .ok t) hshapes h fun ts us htu hts => ?_
  rw [readTypes_eq_ok] at hts ⊢
  exact htu ▸ hts

theorem readConstants_congr {body body' : Option (List Tree)} {es : List Entity}
    (hshapes : body.map (List.map Tree.shape) = body'.map (List.map Tree.shape))
    (h : t.readConstants body = .ok es) : t.readConstants body' = .ok es := by
  refine of_map_eq_map (P := fun b => t.readConstants b = .ok es) hshapes h
    fun ts us htu hts => ?_
  rw [readConstants, declaredEntities_eq_ok] at hts ⊢
  exact htu ▸ hts

theorem readSignature_congr {d d' : Tree} {s : Signature} (hshape : d.shape = d'.shape)
    (h : t.readSignature d = .ok s) : t.readSignature d' = .ok s := by
  rw [readSignature_eq_ok] at h ⊢
  exact hshape ▸ h

theorem readSignatures_congr {ds ds' : List Tree} {signatures : List Signature}
    (hshapes : ds.map Tree.shape = ds'.map Tree.shape)
    (h : t.readSignatures ds = .ok signatures) : t.readSignatures ds' = .ok signatures := by
  induction ds using readSignatures.induct generalizing ds' signatures with
  | case1 =>
    obtain rfl := List.map_eq_nil_iff.1 hshapes.symm
    exact h
  | case2 d hdash => simp [readSignatures, hdash] at h
  | case3 d hdash =>
    obtain ⟨d', rfl, hd⟩ := Tree.eq_singleton_of_shapes hshapes.symm
    simp only [readSignatures, if_neg hdash, bind_eq_ok, pure_eq_ok] at h
    obtain ⟨s, hs, rfl⟩ := h
    rw [← Tree.isWord_congr hd] at hdash
    simp only [readSignatures, if_neg hdash, readSignature_congr hd.symm hs, ok_bind]
    rfl
  | case4 d next rest hdash hnumber ih =>
    obtain ⟨d', _, rfl, hd, htail⟩ := List.map_eq_cons_iff.1 hshapes.symm
    obtain ⟨next', rest', rfl, hnext, hrest⟩ := List.map_eq_cons_iff.1 htail
    rw [readSignatures, if_pos hdash, if_pos hnumber] at h
    rw [← Tree.isWord_congr hd] at hdash
    rw [← Tree.isWord_congr hnext] at hnumber
    rw [readSignatures, if_pos hdash, if_pos hnumber]
    exact ih hrest.symm h
  | case5 d next rest hdash hnumber => simp [readSignatures, hdash, hnumber] at h
  | case6 d next rest hdash ih =>
    obtain ⟨d', _, rfl, hd, htail⟩ := List.map_eq_cons_iff.1 hshapes.symm
    obtain ⟨next', rest', rfl, -, -⟩ := List.map_eq_cons_iff.1 htail
    simp only [readSignatures, if_neg hdash, bind_eq_ok, pure_eq_ok] at h
    obtain ⟨s, hs, others, hothers, rfl⟩ := h
    rw [← Tree.isWord_congr hd] at hdash
    simp only [readSignatures, if_neg hdash, readSignature_congr hd.symm hs, ok_bind,
      ih htail.symm hothers]
    rfl

end Types

theorem Symbols.readOperators_congr {symbols : Symbols} {ts ts' : List Tree} {os : List Operator}
    (hshapes : ts.map Tree.shape = ts'.map Tree.shape) (h : symbols.readOperators ts = .ok os) :
    symbols.readOperators ts' = .ok os := by
  induction ts generalizing ts' os with
  | nil =>
    obtain rfl := List.map_eq_nil_iff.1 hshapes.symm
    exact h
  | cons t ts ih =>
    obtain ⟨t', ts', rfl, ht, hts⟩ := List.map_eq_cons_iff.1 hshapes.symm
    simp only [readOperators, bind_eq_ok, pure_eq_ok] at h ⊢
    obtain ⟨o, ho, os, hos, rfl⟩ := h
    exact ⟨o, readOperator_congr ht.symm ho, os, ih hts.symm hos, rfl⟩

namespace DomainSections

/-- Whether the same sections are stored, with bodies of the same shapes. -/
structure Alike (s r : DomainSections) : Prop where
  name : s.name.map Excerpt.text = r.name.map Excerpt.text
  requirements : s.requirements = r.requirements
  types : s.types.map (List.map Tree.shape) = r.types.map (List.map Tree.shape)
  constants : s.constants.map (List.map Tree.shape) = r.constants.map (List.map Tree.shape)
  predicates : s.predicates.map (List.map Tree.shape) = r.predicates.map (List.map Tree.shape)
  functions : s.functions.map (List.map Tree.shape) = r.functions.map (List.map Tree.shape)
  actions : s.actions.map (List.map Tree.shape) = r.actions.map (List.map Tree.shape)
  operators : s.operators.map Tree.shape = r.operators.map Tree.shape

variable {s r : DomainSections} {config : Config} {definition : Excerpt} {t : Draft}

theorem map_shape_getD {body body' : Option (List Tree)}
    (h : body.map (List.map Tree.shape) = body'.map (List.map Tree.shape)) :
    (body.getD []).map Tree.shape = (body'.getD []).map Tree.shape := by
  rw [← Option.getD_map (List.map Tree.shape), ← Option.getD_map (List.map Tree.shape), h]

theorem Alike.symbols (h : s.Alike r) {symbols : Symbols} (hs : s.symbols = .ok symbols) :
    r.symbols = .ok symbols := by
  obtain ⟨htypes, hconstants, hpredicates, hfunctions⟩ := symbols_eq_ok.1 hs
  exact symbols_eq_ok.2 ⟨Types.readTypes_congr h.types htypes,
    Types.readConstants_congr h.constants hconstants,
    Types.readSignatures_congr (map_shape_getD h.predicates) hpredicates,
    Types.readSignatures_congr (map_shape_getD h.functions) hfunctions⟩

theorem Alike.actionNames (h : s.Alike r) {actions : Option (List String) × Bool}
    (hs : (s.actionNames config definition).result = .ok actions) (definition' : Excerpt) :
    (r.actionNames config definition').result = .ok actions := by
  have hactions := h.actions
  rw [actionNames_eq_ok] at hs ⊢
  rcases hs with ⟨body, ws, hbody, hws, hnames⟩ | ⟨hnone, hrest⟩
  · rw [hbody] at hactions
    obtain ⟨body', hbody', hshapes⟩ := Option.map_eq_some_iff.1 hactions.symm
    exact Or.inl ⟨body', ws, hbody', hshapes.trans hws, hnames⟩
  · rw [hnone] at hactions
    exact Or.inr ⟨Option.map_eq_none_iff.1 hactions.symm, hrest⟩

theorem Alike.drafts (h : s.Alike r) (hs : s.Drafts config definition t) (definition' : Excerpt) :
    r.Drafts config definition' t where
  name := h.name ▸ hs.name
  requirements := h.requirements ▸ hs.requirements
  symbols := h.symbols hs.symbols
  operators := Symbols.readOperators_congr h.operators hs.operators
  actions := h.actionNames hs.actions definition'

end DomainSections

namespace Shape

structure SameSections (ss rs : List Shape) : Prop where
  storable : (∀ s ∈ ss, s.Storable) → ∀ r ∈ rs, r.Storable
  last : ∀ keyword ∈ ["domain", ":types", ":constants", ":predicates", ":functions", ":actions"],
    (bodies keyword ss).getLast? = (bodies keyword rs).getLast?
  requirements : bodies ":requirements" ss = bodies ":requirements" rs
  operators : ss.filter isOperator = rs.filter isOperator

theorem sameSections_refl (ss : List Shape) : SameSections ss ss :=
  ⟨id, fun _ _ => rfl, rfl, rfl⟩

variable {s r : DomainSections} {ss rs : List Shape}

theorem SameSections.alike (h : SameSections ss rs) (hs : s.Collects ss) (hr : r.Collects rs) :
    s.Alike r := by
  have hlast := h.last
  simp only [List.forall_mem_cons, List.not_mem_nil, false_imp_iff, implies_true, and_true] at hlast
  obtain ⟨hname, htypes, hconstants, hpredicates, hfunctions, hactions⟩ := hlast
  refine ⟨?_, ?_, ?_, ?_, ?_, ?_, ?_, ?_⟩
  · have hwords : Function.Injective fun w => [Shape.word w] := fun v w hvw => by simpa using hvw
    apply Option.map_injective hwords
    rw [Option.map_map, Option.map_map]
    exact hs.name.trans (hname.trans hr.name.symm)
  · apply List.map_injective_iff.2 fun v w hvw => Shape.word.inj hvw
    rw [hs.requirements, hr.requirements, h.requirements]
  · rw [hs.types, hr.types, htypes]
  · rw [hs.constants, hr.constants, hconstants]
  · rw [hs.predicates, hr.predicates, hpredicates]
  · rw [hs.functions, hr.functions, hfunctions]
  · rw [hs.actions, hr.actions, hactions]
  · rw [hs.operators, hr.operators, h.operators]

end Shape

/-- Texts whose sections come to the same are read as the same domain. -/
theorem Domain.read_of_sameSections {config : Config} {s t : String} {ss rs : List Shape}
    (hs : tokenTree s = .ok (.list (.word "define" :: ss)))
    (ht : tokenTree t = .ok (.list (.word "define" :: rs))) (hsame : Shape.SameSections ss rs)
    {d : Domain} (h : (Domain.read config s).result = .ok d) :
    (Domain.read config t).result = .ok d := by
  obtain ⟨hvalid, definition, trees, sections, draft, hdefinition, hsections, hdraft, hbuild⟩ :=
    Domain.read_eq_ok.1 h
  have htree := hs.symm.trans (tokenTree_of_readDefinition hdefinition)
  obtain rfl : ss = trees.map Tree.shape := by simpa using htree
  obtain ⟨definition', trees', hdefinition', rfl⟩ := readDefinition_of_tokenTree ht
  have hstorable := DomainSections.exists_setAll_iff.1 ⟨sections, hsections⟩
  obtain ⟨sections', hsections'⟩ := DomainSections.exists_setAll_iff.2
    (List.forall_mem_map.1 (hsame.storable (List.forall_mem_map.2 hstorable)))
  have halike := hsame.alike (DomainSections.collects_of_setAll hsections)
    (DomainSections.collects_of_setAll hsections')
  exact Domain.read_eq_ok.2 ⟨hvalid, definition', trees', sections', draft, hdefinition',
    hsections', halike.drafts hdraft definition', hbuild⟩

end Pddl
