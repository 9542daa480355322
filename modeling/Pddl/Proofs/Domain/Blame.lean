import Pddl.Proofs.Domain.Sections
import Pddl.Proofs.Operator.Blame

namespace Pddl

variable {R : Error → Prop} {t : Tree} {ts : List Tree}

theorem blames_readWords (what : String) (h : ∀ t ∈ ts, t.Blamed R) :
    Blames R (readWords what ts) := by
  induction ts with
  | nil => exact blames_ok _
  | cons t ts ih =>
    obtain ⟨ht, hts⟩ := List.forall_mem_cons.1 h
    exact (ht.expectWord _).bind fun word _ => (ih hts).bind fun words _ => blames_pure _

theorem blames_readDefinition (text : Excerpt) :
    Blames text.Refuses (readDefinition text) ∧
      ∀ definition trees, readDefinition text = .ok (definition, trees) →
        definition.Blamed text.Refuses ∧ ∀ t ∈ trees, t.Blamed text.Refuses := by
  constructor
  · refine Blames.bind (fun _ _ _ h => .whole h) fun definition hdefinition => ?_
    have hreaches := Excerpt.Reaches.whole hdefinition
    refine (hreaches.blamed.expectItems _).bind fun items hitems => ?_
    have hblamed := hreaches.blamed.of_expectItems hitems
    split
    · exact blames_error (.here hreaches _)
    · split
      · exact blames_pure _
      · exact (hblamed _ List.mem_cons_self).blames _
  · intro definition trees h
    obtain ⟨hsingle, e, head, htree, -⟩ := readDefinition_eq_ok.1 h
    have hreaches := Excerpt.Reaches.whole hsingle
    have hblamed := hreaches.blamed
    rw [htree] at hblamed
    exact ⟨.here hreaches, (List.forall_mem_cons.1 hblamed.of_list.2).2⟩

namespace DomainSections

def trees (s : DomainSections) : List Tree :=
  [s.types, s.constants, s.predicates, s.functions, s.actions].flatMap (·.getD []) ++ s.operators

variable {s r : DomainSections} {entry keyword : Tree} {body : List Tree}

theorem blames_set (hentry : entry.Blamed R) (hbody : ∀ t ∈ body, t.Blamed R) :
    Blames R (s.set entry keyword body).result := by
  unfold set
  dsimp only
  split
  · exact blames_ok _
  · exact blames_ok _
  · split
    case h_1 =>
      split
      · rw [List.forall_mem_singleton] at hbody
        rw [Report.result_bind]
        exact (hbody.expectWord _).bind fun name _ => blames_pure _
      · exact hentry.blames _
    case h_2 =>
      rw [Report.result_bind]
      exact (blames_readWords _ hbody).bind fun words _ => blames_pure _
    all_goals exact blames_ok _

theorem Stores.trees_subset (h : s.Stores entry keyword body r) :
    r.trees ⊆ entry :: body ++ s.trees := by
  intro t ht
  cases h <;>
    simp only [trees, List.flatMap_cons, List.flatMap_nil, Option.getD_some, List.mem_append,
      List.mem_cons, List.not_mem_nil, or_false] at ht ⊢ <;>
    tauto

/-- Storing sections blames nothing but these, and all that is stored is part of them. -/
theorem blames_setAll (hs : ∀ t ∈ s.trees, t.Blamed R) (hts : ∀ t ∈ ts, t.Blamed R) :
    Blames R (s.setAll ts).result ∧
      ∀ r, (s.setAll ts).result = .ok r → ∀ t ∈ r.trees, t.Blamed R := by
  rw [setAll_eq_storeAll]
  exact blames_storeAll blames_set (fun h => (stores_of_set h).trees_subset) hs hts

end DomainSections

namespace Types

variable (types : Types)

theorem blames_declarableType (word : Excerpt) : Blames R (declarableType word) := by
  unfold declarableType
  split
  · exact blames_placeless (by simp)
  · exact blames_ok _

theorem blames_declareAll (hierarchical : Bool) (names : List TypedName) :
    Blames R (types.declareAll hierarchical names) := by
  induction names generalizing types with
  | nil => exact blames_ok _
  | cons n ns ih =>
    rw [declareAll]
    refine (blames_declarableType n.name).bind fun name _ => ?_
    split
    · exact (blames_declarableType _).bind fun supertype _ => ih _
    · split
      · exact blames_placeless (by simp)
      · exact ih _

theorem blames_readTypes {body : Option (List Tree)} (h : ∀ t ∈ body.getD [], t.Blamed R) :
    Blames R (readTypes body) := by
  cases body with
  | none => exact blames_ok _
  | some ts =>
    exact (blames_typedNamesAfter h).bind fun names _ => blames_declareAll _ _ names

theorem blames_readConstants {body : Option (List Tree)} (h : ∀ t ∈ body.getD [], t.Blamed R) :
    Blames R (types.readConstants body) := by
  cases body with
  | none => exact blames_ok _
  | some ts => exact types.blames_declaredEntities h

theorem blames_readSignature (h : t.Blamed R) : Blames R (types.readSignature t) := by
  refine (h.expectItems _).bind fun items hitems => ?_
  have hblamed := h.of_expectItems hitems
  split
  · exact h.blames _
  · rw [List.forall_mem_cons] at hblamed
    exact (hblamed.1.expectWord _).bind fun name _ =>
      (types.blames_declaredEntities hblamed.2).bind fun parameters _ => blames_pure _

theorem blames_readSignatures (h : ∀ t ∈ ts, t.Blamed R) : Blames R (types.readSignatures ts) := by
  induction ts using readSignatures.induct with
  | case1 => exact blames_ok _
  | case2 t hdash =>
    rw [readSignatures, if_pos hdash]
    exact (h t List.mem_cons_self).blames _
  | case3 t hdash =>
    rw [readSignatures, if_neg hdash]
    exact (types.blames_readSignature (h t List.mem_cons_self)).bind fun s _ => blames_pure _
  | case4 t next rest hdash hnumber ih =>
    simp only [List.forall_mem_cons] at h
    rw [readSignatures, if_pos hdash, if_pos hnumber]
    exact ih h.2.2
  | case5 t next rest hdash hnumber =>
    rw [readSignatures, if_pos hdash, if_neg hnumber]
    exact (h t List.mem_cons_self).blames _
  | case6 t next rest hdash ih =>
    obtain ⟨ht, hrest⟩ := List.forall_mem_cons.1 h
    rw [readSignatures, if_neg hdash]
    exact (types.blames_readSignature ht).bind fun s _ =>
      (ih hrest).bind fun others _ => blames_pure _

end Types

theorem Symbols.blames_readOperators (symbols : Symbols) (h : ∀ t ∈ ts, t.Blamed R) :
    Blames R (symbols.readOperators ts) := by
  induction ts with
  | nil => exact blames_ok _
  | cons t ts ih =>
    obtain ⟨ht, hts⟩ := List.forall_mem_cons.1 h
    exact (symbols.blames_readOperator ht).bind fun o _ =>
      (ih hts).bind fun os _ => blames_pure _

namespace DomainSections

variable {s : DomainSections}

theorem blames_symbols (h : ∀ t ∈ s.trees, t.Blamed R) : Blames R s.symbols := by
  simp only [trees, List.flatMap_cons, List.flatMap_nil, List.append_nil,
    List.forall_mem_append] at h
  obtain ⟨⟨htypes, hconstants, hpredicates, hfunctions, -⟩, -⟩ := h
  exact (Types.blames_readTypes htypes).bind fun types _ =>
    (types.blames_readConstants hconstants).bind fun constants _ =>
      (types.blames_readSignatures hpredicates).bind fun predicates _ =>
        (types.blames_readSignatures hfunctions).bind fun functions _ => blames_pure _

theorem blames_actionNames (config : Config) {definition : Excerpt} (hdefinition : definition.Blamed R)
    (h : ∀ t ∈ s.trees, t.Blamed R) : Blames R (s.actionNames config definition).result := by
  simp only [trees, List.flatMap_cons, List.flatMap_nil, List.append_nil,
    List.forall_mem_append] at h
  obtain ⟨⟨-, -, -, -, hactions⟩, -⟩ := h
  unfold actionNames
  split
  · rename_i body hbody
    rw [hbody] at hactions
    have hnames : Blames R (readWords "an action predicate name" body >>=
        fun names => pure (some names, false)) :=
      (blames_readWords _ hactions).bind fun names _ => blames_pure _
    split
    · rw [Report.result_bind, Report.result_warn, ok_bind, Report.result_bind]
      exact hnames
    · rw [Report.result_bind]
      exact hnames
  · split
    · exact hdefinition.blames _
    · exact blames_pure _

end DomainSections

namespace Draft

theorem blames_withOperatorSignatures (predicates : List Signature) (os : List Operator) :
    Blames R (withOperatorSignatures predicates os) := by
  induction os generalizing predicates with
  | nil => exact blames_ok _
  | cons o os ih =>
    rw [withOperatorSignatures]
    split
    · exact blames_placeless (by simp)
    · exact ih _

theorem blames_checkDeclared (predicates : List Signature) (names : List String) :
    Blames R (checkDeclared predicates names) := by
  induction names with
  | nil => exact blames_ok _
  | cons name names ih =>
    rw [checkDeclared]
    split
    · exact ih
    · exact blames_placeless (by simp)

/-- Finishing a domain looks at names only. -/
theorem blames_build (d : Draft) : Blames R d.build := by
  have hactions : Blames R d.settleActions := by
    unfold settleActions
    split
    · exact (blames_withOperatorSignatures _ _).bind fun predicates _ => blames_pure _
    · split
      · exact blames_ok _
      · exact (blames_checkDeclared _ _).bind fun _ _ => blames_pure _
  refine hactions.bind fun actions _ => ?_
  dsimp only
  split
  · exact blames_placeless (by simp)
  · exact blames_pure _

end Draft

theorem Config.blames_validate (config : Config) : Blames R config.validate := by
  unfold validate
  split
  · exact blames_placeless (by simp)
  · exact blames_ok _

theorem Domain.blames_read (config : Config) (text : String) :
    Blames (Excerpt.ofString (Text.prepare text)).Refuses (Domain.read config text).result := by
  obtain ⟨hread, hparts⟩ := blames_readDefinition (.ofString (Text.prepare text))
  simp only [Domain.read, Report.result_bind, Report.result_liftM]
  refine config.blames_validate.bind fun _ _ => hread.bind fun (definition, trees) h => ?_
  obtain ⟨hdefinition, htrees⟩ := hparts definition trees h
  obtain ⟨hset, hstored⟩ := DomainSections.blames_setAll
    (s := .empty) (by simp [DomainSections.trees, DomainSections.empty]) htrees
  refine hset.bind fun sections hsections => ?_
  have hblamed := hstored sections hsections
  split
  · exact hdefinition.blames _
  · simp only [Report.result_bind, Report.result_liftM]
    refine (DomainSections.blames_symbols hblamed).bind fun symbols _ => ?_
    refine (symbols.blames_readOperators fun t ht =>
      hblamed t (List.mem_append_right _ ht)).bind fun operators _ => ?_
    exact (DomainSections.blames_actionNames config hdefinition hblamed).bind fun names _ =>
      Draft.blames_build _

end Pddl
