import Pddl.Proofs.Number.Spelling
import Pddl.Proofs.Types

namespace Pddl

open Text

namespace Types

variable {t : Types}

theorem readSignature_eq_ok {d : Tree} {s : Signature} :
    t.readSignature d = .ok s ↔
      ∃ ss es, d.shape = .list (.word s.name :: ss) ∧ t.Declares .reject ss es ∧
        es.map Entity.type = s.parameters := by
  simp only [readSignature, bind_eq_ok, Tree.expectItems_eq_ok]
  constructor
  · rintro ⟨items, ⟨e, rfl⟩, h⟩
    rcases items with _ | ⟨head, parameters⟩
    · simp at h
    · simp only [bind_eq_ok, Tree.expectWord_eq_ok, declaredEntities_eq_ok, pure_eq_ok] at h
      obtain ⟨w, rfl, es, hes, rfl⟩ := h
      exact ⟨_, es, by simp, hes, rfl⟩
  · rintro ⟨ss, es, hd, hes, hparameters⟩
    obtain ⟨e, w, args, rfl, hw, rfl⟩ := Tree.eq_headed_of_shape hd
    refine ⟨_, ⟨e, rfl⟩, ?_⟩
    simp only [bind_eq_ok, Tree.expectWord_eq_ok, declaredEntities_eq_ok, pure_eq_ok]
    exact ⟨w, rfl, es, hes, by rw [hw, hparameters]⟩

theorem mem_readSignatures {ds : List Tree} {signatures : List Signature}
    (h : t.readSignatures ds = .ok signatures) {s : Signature} (hs : s ∈ signatures) :
    ∃ d ∈ ds, t.readSignature d = .ok s := by
  induction ds using readSignatures.induct generalizing signatures with
  | case1 =>
    obtain rfl : [] = signatures := by simpa [readSignatures] using h
    simp at hs
  | case2 d hdash => simp [readSignatures, hdash] at h
  | case3 d hdash =>
    simp only [readSignatures, if_neg hdash, bind_eq_ok, pure_eq_ok] at h
    obtain ⟨r, hr, rfl⟩ := h
    obtain rfl := List.mem_singleton.1 hs
    exact ⟨d, List.mem_cons_self, hr⟩
  | case4 d next rest hdash hnumber ih =>
    rw [readSignatures, if_pos hdash, if_pos hnumber] at h
    obtain ⟨e, he, hread⟩ := ih h hs
    exact ⟨e, List.mem_cons_of_mem _ (List.mem_cons_of_mem _ he), hread⟩
  | case5 d next rest hdash hnumber => simp [readSignatures, hdash, hnumber] at h
  | case6 d next rest hdash ih =>
    simp only [readSignatures, if_neg hdash, bind_eq_ok, pure_eq_ok] at h
    obtain ⟨r, hr, others, hothers, rfl⟩ := h
    rcases List.mem_cons.1 hs with rfl | hs
    · exact ⟨d, List.mem_cons_self, hr⟩
    · obtain ⟨e, he, hread⟩ := ih hothers hs
      exact ⟨e, List.mem_cons_of_mem _ he, hread⟩

theorem readSignatures_of_forall₂ {ds : List Tree} {signatures : List Signature}
    (h : List.Forall₂ (fun d s => t.readSignature d = .ok s) ds signatures) :
    t.readSignatures ds = .ok signatures := by
  induction h with
  | nil => rfl
  | @cons d s ds signatures hd _ ih =>
    have hdash : ¬d.isWord "-" = true := by
      obtain ⟨ss, es, hshape, -⟩ := readSignature_eq_ok.1 hd
      simp [Tree.isWord_iff_shape, hshape]
    cases ds with
    | nil =>
      obtain rfl : [] = signatures := by simpa [readSignatures] using ih
      simp [readSignatures, hdash, hd, bind, Except.bind, pure, Except.pure]
    | cons next rest =>
      rw [readSignatures, if_neg hdash, hd, ih]
      rfl

/-- A signature whose parameters can be declared under any name. -/
structure Offers (t : Types) (s : Signature) : Prop where
  name : PlainWord s.name
  plain : ∀ type ∈ s.parameters, PlainWord type
  admits : ∀ type ∈ s.parameters, t.Admits .reject type
  ne_dash : ∀ type ∈ s.parameters, type ≠ "-"

theorem offers_of_readSignature {d : Tree} {s : Signature} (h : t.readSignature d = .ok s)
    (hplain : d.shape.Plain) : t.Offers s := by
  obtain ⟨ss, es, hd, hes, hparameters⟩ := readSignature_eq_ok.1 h
  simp only [hd, Shape.plain_list, List.forall_mem_cons, Shape.plain_word] at hplain
  refine ⟨hplain.1, ?_, ?_, ?_⟩ <;> rw [← hparameters, List.forall_mem_map]
  · exact fun e he => (hes.plain hplain.2 e he).type
  · exact fun e he => (hes.declarable e he).admits
  · exact fun e he => (hes.declarable e he).type_ne_dash

theorem Agrees.offers {u : Types} (h : t.Agrees u) {s : Signature} (hs : t.Offers s) : u.Offers s :=
  ⟨hs.name, hs.plain, fun type htype => (h.admits type).1 (hs.admits type htype), hs.ne_dash⟩

end Types

namespace Signature

theorem map_type_numberedParameters (first : Nat) (types : List String) :
    (numberedParameters first types).map Entity.type = types := by
  induction types generalizing first with
  | nil => rfl
  | cons type types ih => rw [numberedParameters, List.map_cons, ih]

theorem mem_numberedParameters {first : Nat} {types : List String} {e : Entity}
    (h : e ∈ numberedParameters first types) :
    (∃ n : Nat, e.name = "?v" ++ toString n) ∧ e.type ∈ types := by
  induction types generalizing first with
  | nil => simp [numberedParameters] at h
  | cons type types ih =>
    rcases List.mem_cons.1 h with rfl | h
    · exact ⟨⟨first, rfl⟩, List.mem_cons_self⟩
    · obtain ⟨hname, htype⟩ := ih h
      exact ⟨hname, List.mem_cons_of_mem _ htype⟩

def shape (s : Signature) : Shape :=
  .list (.word s.name :: (numberedParameters 0 s.parameters).flatMap Entity.shapes)

variable {t : Types} {s : Signature}

theorem plain_numberedParameters (h : t.Offers s) :
    ∀ e ∈ numberedParameters 0 s.parameters, e.Plain := by
  intro e he
  obtain ⟨⟨n, hn⟩, htype⟩ := mem_numberedParameters he
  have hname : PlainWord "?v" := by decide
  exact ⟨hn ▸ hname.append (Number.plainWord_toString n), h.plain e.type htype⟩

theorem declares_numberedParameters (h : t.Offers s) (hseparate : t.Separate) :
    t.Declares .reject ((numberedParameters 0 s.parameters).flatMap Entity.shapes)
      (numberedParameters 0 s.parameters) := by
  have hdeclarable : ∀ e ∈ numberedParameters 0 s.parameters, t.Declarable .reject e := by
    intro e he
    obtain ⟨⟨n, hn⟩, htype⟩ := mem_numberedParameters he
    refine ⟨h.admits e.type htype, ?_, h.ne_dash e.type htype⟩
    intro hdash
    have hhead := congrArg (fun w => w.toList.head?) (hn.symm.trans hdash)
    simp at hhead
  exact Types.declares_shapes hdeclarable fun htyping e he =>
    hseparate.ne_implicitType htyping (hdeclarable e he)

theorem readSignature_shape (h : t.Offers s) (hseparate : t.Separate) {d : Tree}
    (hd : d.shape = s.shape) : t.readSignature d = .ok s :=
  Types.readSignature_eq_ok.2 ⟨_, _, hd, declares_numberedParameters h hseparate,
    map_type_numberedParameters 0 s.parameters⟩

theorem readSignatures_shapes {signatures : List Signature} (h : ∀ s ∈ signatures, t.Offers s)
    (hseparate : t.Separate) {ds : List Tree} (hds : ds.map Tree.shape = signatures.map shape) :
    t.readSignatures ds = .ok signatures := by
  exact Types.readSignatures_of_forall₂
    (forall₂_of_map_eq hds fun s hs d hd => readSignature_shape (h s hs) hseparate hd)

/-- The same for the section of a text, which may be missing if nothing is declared. -/
theorem readSignatures_section (optional : Bool) {signatures : List Signature}
    (h : ∀ s ∈ signatures, t.Offers s) (hseparate : t.Separate) {body : Option (List Tree)}
    (hbody : body.map (List.map Tree.shape) =
      if optional && signatures.isEmpty then none else some (signatures.map shape)) :
    t.readSignatures (body.getD []) = .ok signatures := by
  cases body with
  | none =>
    cases signatures with
    | nil => rfl
    | cons s signatures => simp at hbody
  | some ds =>
    refine readSignatures_shapes h hseparate ?_
    split at hbody
    · simp at hbody
    · exact Option.some.inj hbody

theorem writes_text (h : t.Offers s) :
    Writes s.text (.word s.name :: (numberedParameters 0 s.parameters).flatMap Entity.shapes) := by
  have hparameters := Entity.spells_texts (plain_numberedParameters h)
  unfold text
  split
  · rename_i hnil
    rw [hnil]
    exact .of_head (by simp) h.name breaks_nil .nil
  · exact .of_keyword (by simp) h.name hparameters

theorem segment_lines {signatures : List Signature} (h : ∀ s ∈ signatures, t.Offers s) :
    Segment (lines signatures) (signatures.map shape) := by
  rw [List.map_eq_flatMap]
  exact .lines "\t\t" (by simp) (by simp [IsSpace]) fun s hs => (writes_text (h s hs)).spells

end Signature

end Pddl
