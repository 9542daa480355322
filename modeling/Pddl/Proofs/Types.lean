import Pddl.Domain.Printer
import Pddl.Domain.Reader
import Pddl.Proofs.Declarations
import Pddl.Proofs.TypedList

namespace Pddl

open Text

namespace Types

/-- Whether two tables differ at most in the order in which types are declared. -/
structure Agrees (t u : Types) : Prop where
  usesTyping : t.usesTyping = u.usesTyping
  contains : ∀ type, t.contains type = u.contains type
  hierarchy : t.hierarchy = u.hierarchy

namespace Agrees

variable {t u : Types} {policy : Undeclared}

theorem symm (h : t.Agrees u) : u.Agrees t :=
  ⟨h.usesTyping.symm, fun type => (h.contains type).symm, h.hierarchy.symm⟩

theorem step (h : t.Agrees u) (a : Ascent) : a.step t = a.step u := by
  have hparents : t.parents = u.parents := by
    funext type
    rw [parents, parents, h.hierarchy]
  rw [Ascent.step, Ascent.step, hparents]

theorem ascend (h : t.Agrees u) (a : Ascent) : t.ascend a = u.ascend a := by
  fun_induction Types.ascend t a with
  | case1 a hend => rw [Types.ascend, dif_pos hend]
  | case2 a hgoes _ ih => rw [ih, h.step, Types.ascend.eq_1 u a, dif_neg hgoes]

theorem isConsistent (h : t.Agrees u) (actual expected : String) :
    t.isConsistent actual expected = u.isConsistent actual expected := by
  simp only [Types.isConsistent, isSubtype, ancestors, h.ascend, h.usesTyping]

theorem admits (h : t.Agrees u) (type : String) : t.Admits policy type ↔ u.Admits policy type := by
  simp only [Admits, h.usesTyping, h.contains]

theorem gives (h : t.Agrees u) {g : String × Option String} {e : Entity} (hg : t.Gives policy g e) :
    u.Gives policy g e := by
  obtain ⟨name, _ | type⟩ := g
  · exact ⟨h.usesTyping ▸ hg.1, hg.2⟩
  · exact ⟨(h.admits type).1 hg.1, hg.2⟩

theorem declares (h : t.Agrees u) {ss : List Shape} {es : List Entity}
    (hes : t.Declares policy ss es) : u.Declares policy ss es := by
  obtain ⟨gs, hwords, hgives⟩ := hes
  exact ⟨gs, hwords, hgives.imp fun _ _ => h.gives⟩

end Agrees

def add (t : Types) : String × Option String → Types
  | (name, none) => t.declare name
  | (name, some supertype) => t.addSubtypes [name] supertype

/-- The table that declarations give one after the other. -/
def ofGroups (gs : List (String × Option String)) : Types := gs.foldl add typed

def change : String × Option String → Declaration
  | (name, none) => .type name
  | (name, some supertype) => .group [name] supertype

theorem apply_change (t : Types) (g : String × Option String) : (change g).apply t = t.add g := by
  obtain ⟨name, _ | supertype⟩ := g <;> rfl

theorem isMadeBy_ofGroups (gs : List (String × Option String)) :
    (ofGroups gs).IsMadeBy (gs.map change) := by
  have happly : (fun t g => (change g).apply t) = add := funext fun t => funext (apply_change t)
  exact Or.inr (by rw [applyAll, List.foldl_map, happly, ofGroups])

/-- Whether the declarations may stand in a domain: nothing is called `default`, and all names have a
supertype as soon as one has. -/
structure Acceptable (gs : List (String × Option String)) : Prop where
  name : ∀ g ∈ gs, g.1 ≠ implicitType
  supertype : ∀ g ∈ gs, ∀ type ∈ g.2, type ≠ implicitType
  uniform : (∀ g ∈ gs, g.2.isSome = true) ∨ ∀ g ∈ gs, g.2 = none

theorem declarableType_eq_ok {word : Excerpt} {name : String} :
    declarableType word = .ok name ↔ word.text ≠ implicitType ∧ word.text = name := by
  simp [declarableType, ite_error_eq_ok]

theorem declareAll_eq_ok {t u : Types} {hierarchical : Bool} {ns : List TypedName} :
    t.declareAll hierarchical ns = .ok u ↔
      (∀ g ∈ ns.map TypedName.plain, g.1 ≠ implicitType ∧ (∀ type ∈ g.2, type ≠ implicitType) ∧
        (hierarchical = true → g.2.isSome = true)) ∧
      (ns.map TypedName.plain).foldl add t = u := by
  induction ns generalizing t with
  | nil => simp [declareAll]
  | cons n ns ih =>
    obtain ⟨name, _ | type⟩ := n
    · simp only [declareAll, bind_eq_ok, declarableType_eq_ok, ite_error_eq_ok, ih,
        List.map_cons, List.forall_mem_cons, TypedName.plain, List.foldl_cons, add]
      constructor
      · rintro ⟨_, ⟨hname, rfl⟩, hflat, hall, rfl⟩
        exact ⟨⟨⟨hname, by simp, by simpa using hflat⟩, hall⟩, rfl⟩
      · rintro ⟨⟨⟨hname, -, hflat⟩, hall⟩, rfl⟩
        exact ⟨_, ⟨hname, rfl⟩, by simpa using hflat, hall, rfl⟩
    · simp only [declareAll, bind_eq_ok, declarableType_eq_ok, ih, List.map_cons,
        List.forall_mem_cons, TypedName.plain, List.foldl_cons, add]
      constructor
      · rintro ⟨_, ⟨hname, rfl⟩, _, ⟨htype, rfl⟩, hall, rfl⟩
        exact ⟨⟨⟨hname, by simpa using htype, by simp⟩, hall⟩, rfl⟩
      · rintro ⟨⟨⟨hname, htype, -⟩, hall⟩, rfl⟩
        exact ⟨_, ⟨hname, rfl⟩, _, ⟨htype _ rfl, rfl⟩, hall, rfl⟩

theorem acceptable_iff {gs : List (String × Option String)} :
    Acceptable gs ↔ ∀ g ∈ gs, g.1 ≠ implicitType ∧ (∀ type ∈ g.2, type ≠ implicitType) ∧
      ((gs.any fun g => g.2.isSome) = true → g.2.isSome = true) := by
  constructor
  · rintro ⟨hname, htype, huniform⟩ g hg
    refine ⟨hname g hg, htype g hg, fun hany => ?_⟩
    rcases huniform with hall | hnone
    · exact hall g hg
    · obtain ⟨d, hd, hsome⟩ := List.any_eq_true.1 hany
      simp [hnone d hd] at hsome
  · intro h
    refine ⟨fun g hg => (h g hg).1, fun g hg => (h g hg).2.1, ?_⟩
    by_cases hany : (gs.any fun g => g.2.isSome) = true
    · exact Or.inl fun g hg => (h g hg).2.2 hany
    · refine Or.inr fun g hg => ?_
      simp only [List.any_eq_true, not_exists, not_and] at hany
      simpa using hany g hg

/-- A types section is read exactly when it is a typed list of acceptable declarations. -/
theorem readTypes_eq_ok {body : List Tree} {t : Types} :
    readTypes (some body) = .ok t ↔
      ∃ gs, TypedWords (body.map Tree.shape) gs ∧ Acceptable gs ∧ ofGroups gs = t := by
  simp only [readTypes, bind_eq_ok, ← typedNames_eq_ok, declareAll_eq_ok, ofGroups, acceptable_iff]
  constructor
  · rintro ⟨ns, hns, hall, rfl⟩
    refine ⟨_, ⟨ns, hns, rfl⟩, ?_, rfl⟩
    simpa [TypedName.plain] using hall
  · rintro ⟨_, ⟨ns, hns, rfl⟩, hall, rfl⟩
    refine ⟨ns, hns, ?_, rfl⟩
    simpa [TypedName.plain] using hall

/-- Whether supertypes and their subtypes ascend; a supertype has at least one subtype. -/
structure Ordered (entries : List (String × List String)) : Prop where
  keys : entries.Pairwise fun p q => compare p.1 q.1 = .lt
  subtypes : ∀ p ∈ entries, p.2 ≠ [] ∧ Sorted.Ascending p.2

theorem mem_insertSubtypes {entries : List (String × List String)} {supertype : String}
    {subtypes : List String} {p : String × List String}
    (h : p ∈ insertSubtypes supertype subtypes entries) :
    p.1 = supertype ∨ ∃ q ∈ entries, q.1 = p.1 := by
  induction entries with
  | nil =>
    obtain rfl : p = (supertype, Sorted.ofList subtypes) := by simpa [insertSubtypes] using h
    exact Or.inl rfl
  | cons q entries ih =>
    obtain ⟨other, known⟩ := q
    rw [insertSubtypes] at h
    split at h
    · rcases List.mem_cons.1 h with rfl | h
      · exact Or.inl rfl
      · exact Or.inr ⟨p, h, rfl⟩
    · rcases List.mem_cons.1 h with rfl | h
      · exact Or.inr ⟨(other, known), List.mem_cons_self, rfl⟩
      · exact Or.inr ⟨p, List.mem_cons_of_mem _ h, rfl⟩
    · rcases List.mem_cons.1 h with rfl | h
      · exact Or.inr ⟨_, List.mem_cons_self, rfl⟩
      · rcases ih h with heq | ⟨q, hq, heq⟩
        · exact Or.inl heq
        · exact Or.inr ⟨q, List.mem_cons_of_mem _ hq, heq⟩

theorem Ordered.insertSubtypes {entries : List (String × List String)} (h : Ordered entries)
    (supertype name : String) : Ordered (insertSubtypes supertype [name] entries) := by
  have hone : Sorted.ofList [name] ≠ [] ∧ Sorted.Ascending (Sorted.ofList [name]) :=
    ⟨List.cons_ne_nil _ _, Sorted.ascending_ofList [name]⟩
  obtain ⟨hkeys, hsubtypes⟩ := h
  induction entries with
  | nil => exact ⟨List.pairwise_singleton _ _, by simpa [Types.insertSubtypes] using hone⟩
  | cons p entries ih =>
    obtain ⟨other, known⟩ := p
    rw [List.pairwise_cons] at hkeys
    rw [List.forall_mem_cons] at hsubtypes
    obtain ⟨hother, hrest⟩ := hkeys
    rw [Types.insertSubtypes]
    split
    · rename_i hlt
      refine ⟨List.pairwise_cons.2 ⟨?_, List.pairwise_cons.2 ⟨hother, hrest⟩⟩, ?_⟩
      · rw [List.forall_mem_cons]
        exact ⟨hlt, fun q hq => Std.TransCmp.lt_trans hlt (hother q hq)⟩
      · rw [List.forall_mem_cons, List.forall_mem_cons]
        exact ⟨hone, hsubtypes⟩
    · refine ⟨List.pairwise_cons.2 ⟨hother, hrest⟩, ?_⟩
      rw [List.forall_mem_cons]
      refine ⟨⟨?_, hsubtypes.1.2.insert name⟩, hsubtypes.2⟩
      exact List.ne_nil_of_mem (Sorted.mem_insert.2 (Or.inl rfl))
    · rename_i hgt
      obtain ⟨hkeys', hsubtypes'⟩ := ih hrest hsubtypes.2
      refine ⟨List.pairwise_cons.2 ⟨fun q hq => ?_, hkeys'⟩, ?_⟩
      · rcases mem_insertSubtypes hq with hq | ⟨r, hr, hq⟩
        · exact hq ▸ Std.OrientedCmp.lt_of_gt hgt
        · exact hq ▸ hother r hr
      · rw [List.forall_mem_cons]
        exact ⟨hsubtypes.1, hsubtypes'⟩

theorem usesTyping_add (t : Types) (g : String × Option String) :
    (t.add g).usesTyping = t.usesTyping := by
  obtain ⟨name, _ | supertype⟩ := g <;> simp [add, addSubtypes]

theorem mem_declared_add {t : Types} {g : String × Option String} {type : String} :
    type ∈ (t.add g).declared ↔ g.1 = type ∨ g.2 = some type ∨ type ∈ t.declared := by
  obtain ⟨name, _ | supertype⟩ := g
  · simp [add, mem_declare]
  · simp only [add, addSubtypes, List.foldl_cons, List.foldl_nil, mem_declare, Option.some.injEq]

theorem usesTyping_ofGroups (gs : List (String × Option String)) :
    (ofGroups gs).usesTyping = true := by
  have hfold : ∀ t : Types, (gs.foldl add t).usesTyping = t.usesTyping := by
    induction gs with
    | nil => exact fun _ => rfl
    | cons g gs ih => exact fun t => (ih (t.add g)).trans (usesTyping_add t g)
  exact hfold typed

theorem mem_declared_ofGroups {gs : List (String × Option String)} {type : String} :
    type ∈ (ofGroups gs).declared ↔ ∃ g ∈ gs, g.1 = type ∨ g.2 = some type := by
  have hfold : ∀ t : Types, type ∈ (gs.foldl add t).declared ↔
      (∃ g ∈ gs, g.1 = type ∨ g.2 = some type) ∨ type ∈ t.declared := by
    induction gs with
    | nil => simp
    | cons g gs ih =>
      intro t
      rw [List.foldl_cons, ih, mem_declared_add]
      simp only [List.mem_cons, exists_eq_or_imp, or_assoc, or_left_comm]
  exact (hfold typed).trans (or_iff_left List.not_mem_nil)

theorem ordered_ofGroups (gs : List (String × Option String)) : Ordered (ofGroups gs).hierarchy := by
  have hfold : ∀ t : Types, Ordered t.hierarchy → Ordered (gs.foldl add t).hierarchy := by
    induction gs with
    | nil => exact fun _ h => h
    | cons g gs ih =>
      intro t ht
      refine ih (t.add g) ?_
      obtain ⟨name, _ | supertype⟩ := g
      · simpa [add] using ht
      · simpa [add, addSubtypes] using ht.insertSubtypes supertype name
  exact hfold typed ⟨List.Pairwise.nil, by simp [typed]⟩

theorem mentions_ofGroups {gs : List (String × Option String)} {type : String} :
    Mentions (ofGroups gs).hierarchy type ↔
      ∃ g ∈ gs, g.2.isSome = true ∧ (g.1 = type ∨ g.2 = some type) := by
  have hfold : ∀ t : Types, Mentions (gs.foldl add t).hierarchy type ↔
      (∃ g ∈ gs, g.2.isSome = true ∧ (g.1 = type ∨ g.2 = some type)) ∨
        Mentions t.hierarchy type := by
    induction gs with
    | nil => simp
    | cons g gs ih =>
      intro t
      rw [List.foldl_cons, ih]
      obtain ⟨name, _ | supertype⟩ := g
      · simp [add]
      · simp only [add, addSubtypes, List.foldl_cons, List.foldl_nil, hierarchy_declare,
          mentions_insertSubtypes, List.mem_cons, List.not_mem_nil, false_or, eq_comm (a := type),
          exists_eq_or_imp, Option.isSome_some, Option.some.injEq, true_and, or_assoc, or_left_comm]
  exact (hfold typed).trans (or_iff_left (mentions_nil type))

theorem mentions_iff_mem_declared {gs : List (String × Option String)} (h : Acceptable gs)
    (hne : (ofGroups gs).hierarchy ≠ []) (type : String) :
    Mentions (ofGroups gs).hierarchy type ↔ type ∈ (ofGroups gs).declared := by
  rw [mentions_ofGroups, mem_declared_ofGroups]
  rcases h.uniform with hall | hnone
  · exact exists_congr fun g => and_congr_right fun hg => and_iff_right (hall g hg)
  · obtain ⟨p, entries, hp⟩ := List.exists_cons_of_ne_nil hne
    have hmentions : Mentions (ofGroups gs).hierarchy p.1 := by
      rw [hp]
      exact (mentions_cons _ _ _).2 (Or.inl (Or.inl rfl))
    obtain ⟨g, hg, hsome, -⟩ := mentions_ofGroups.1 hmentions
    simp [hnone g hg] at hsome

def entryGroups (p : String × List String) : List (String × Option String) :=
  p.2.map (·, some p.1)

/-- The declarations that a table is written as. -/
def groups (t : Types) : List (String × Option String) :=
  if t.hierarchy.isEmpty then t.declared.map (·, none) else t.hierarchy.flatMap entryGroups

theorem insertSubtypes_of_forall_lt {entries : List (String × List String)}
    {supertype name : String} (h : ∀ p ∈ entries, compare p.1 supertype = .lt) :
    insertSubtypes supertype [name] entries = entries ++ [(supertype, [name])] := by
  induction entries with
  | nil => rfl
  | cons p entries ih =>
    rw [List.forall_mem_cons] at h
    rw [insertSubtypes, Std.OrientedCmp.gt_of_lt h.1, List.cons_append, ih h.2]

theorem insertSubtypes_last {entries : List (String × List String)} {supertype name : String}
    {known : List String} (h : ∀ p ∈ entries, compare p.1 supertype = .lt)
    (hknown : ∀ other ∈ known, compare other name = .lt) :
    insertSubtypes supertype [name] (entries ++ [(supertype, known)]) =
      entries ++ [(supertype, known ++ [name])] := by
  induction entries with
  | nil =>
    have hself : compare supertype supertype = .eq := Std.ReflCmp.compare_self
    rw [List.nil_append, insertSubtypes, hself]
    exact congrArg (fun s => [(supertype, s)]) (Sorted.insert_of_forall_lt hknown)
  | cons p entries ih =>
    rw [List.forall_mem_cons] at h
    rw [List.cons_append, insertSubtypes, Std.OrientedCmp.gt_of_lt h.1, ih h.2, List.cons_append]

theorem hierarchy_foldl_entry {t : Types} {entries : List (String × List String)}
    {supertype : String} {known subtypes : List String}
    (ht : t.hierarchy = entries ++ [(supertype, known)])
    (hkeys : ∀ p ∈ entries, compare p.1 supertype = .lt)
    (hascending : Sorted.Ascending (known ++ subtypes)) :
    ((subtypes.map (·, some supertype)).foldl add t).hierarchy =
      entries ++ [(supertype, known ++ subtypes)] := by
  induction subtypes generalizing t known with
  | nil => simpa using ht
  | cons name subtypes ih =>
    have hknown : ∀ other ∈ known, compare other name = .lt := fun other hother =>
      (List.pairwise_append.1 hascending).2.2 other hother name List.mem_cons_self
    have hadd : (t.add (name, some supertype)).hierarchy =
        entries ++ [(supertype, known ++ [name])] := by
      simp only [add, addSubtypes, List.foldl_cons, List.foldl_nil, hierarchy_declare, ht]
      exact insertSubtypes_last hkeys hknown
    have hsplit : known ++ name :: subtypes = (known ++ [name]) ++ subtypes := by simp
    rw [List.map_cons, List.foldl_cons, ih hadd (hsplit ▸ hascending), hsplit]

theorem hierarchy_foldl_entries {t : Types} {entries : List (String × List String)}
    (h : Ordered (t.hierarchy ++ entries)) :
    ((entries.flatMap entryGroups).foldl add t).hierarchy = t.hierarchy ++ entries := by
  induction entries generalizing t with
  | nil => simp
  | cons p entries ih =>
    obtain ⟨supertype, subtypes⟩ := p
    obtain ⟨hne, hascending⟩ := h.subtypes (supertype, subtypes) (by simp)
    have hkeys : ∀ p ∈ t.hierarchy, compare p.1 supertype = .lt := fun p hp =>
      (List.pairwise_append.1 h.keys).2.2 p hp (supertype, subtypes) List.mem_cons_self
    obtain ⟨name, rest, rfl⟩ := List.exists_cons_of_ne_nil hne
    have hadd : (t.add (name, some supertype)).hierarchy =
        t.hierarchy ++ [(supertype, [name])] := by
      simp only [add, addSubtypes, List.foldl_cons, List.foldl_nil, hierarchy_declare]
      exact insertSubtypes_of_forall_lt hkeys
    have hentry : ((entryGroups (supertype, name :: rest)).foldl add t).hierarchy =
        t.hierarchy ++ [(supertype, name :: rest)] :=
      hierarchy_foldl_entry hadd hkeys hascending
    have hsplit : t.hierarchy ++ (supertype, name :: rest) :: entries =
        (t.hierarchy ++ [(supertype, name :: rest)]) ++ entries := by simp
    rw [hsplit, ← hentry] at h
    rw [List.flatMap_cons, List.foldl_append, ih h, hentry, hsplit]

theorem foldl_names {t : Types} {names : List String} (h : (t.declared ++ names).Nodup) :
    (names.map (·, none)).foldl add t = { t with declared := t.declared ++ names } := by
  induction names generalizing t with
  | nil => simp
  | cons name names ih =>
    have hsplit : t.declared ++ name :: names = (t.declared ++ [name]) ++ names := by simp
    have hnew : name ∉ t.declared := fun hmem =>
      (List.nodup_append.1 h).2.2 name hmem name List.mem_cons_self rfl
    rw [List.map_cons, List.foldl_cons, add, declare_of_not_mem hnew, ih (hsplit ▸ h), hsplit]

theorem ofGroups_entryGroups {entries : List (String × List String)} (h : Ordered entries)
    (type : String) :
    type ∈ (ofGroups (entries.flatMap entryGroups)).declared ↔ Mentions entries type := by
  simp only [mem_declared_ofGroups, List.mem_flatMap, entryGroups, List.mem_map, Mentions]
  constructor
  · rintro ⟨_, ⟨p, hp, name, hname, rfl⟩, rfl | htype⟩
    · exact ⟨p, hp, Or.inr hname⟩
    · exact ⟨p, hp, Or.inl (Option.some.inj htype)⟩
  · rintro ⟨p, hp, rfl | htype⟩
    · obtain ⟨name, rest, hsubtypes⟩ := List.exists_cons_of_ne_nil (h.subtypes p hp).1
      exact ⟨_, ⟨p, hp, name, hsubtypes ▸ List.mem_cons_self, rfl⟩, Or.inr rfl⟩
    · exact ⟨_, ⟨p, hp, type, htype, rfl⟩, Or.inl rfl⟩

theorem ofGroups_groups_of_flat {gs : List (String × Option String)}
    (hflat : (ofGroups gs).hierarchy = []) : ofGroups (ofGroups gs).groups = ofGroups gs := by
  have hnodup : (typed.declared ++ (ofGroups gs).declared).Nodup :=
    (isMadeBy_ofGroups gs).wellFormed.nodup
  have htyping := usesTyping_ofGroups gs
  rw [groups, hflat, List.isEmpty_nil, if_pos rfl]
  generalize ofGroups gs = t at hflat hnodup htyping ⊢
  obtain ⟨usesTyping, declared, hierarchy⟩ := t
  subst hflat htyping
  exact foldl_names hnodup

/-- Declaring what a table is written as gives the same table up to the order of the types. -/
theorem agrees_ofGroups_groups {gs : List (String × Option String)} (h : Acceptable gs) :
    (ofGroups (ofGroups gs).groups).Agrees (ofGroups gs) := by
  by_cases hflat : (ofGroups gs).hierarchy = []
  · rw [ofGroups_groups_of_flat hflat]
    exact ⟨rfl, fun _ => rfl, rfl⟩
  · have hordered := ordered_ofGroups gs
    have hgroups : (ofGroups gs).groups = (ofGroups gs).hierarchy.flatMap entryGroups := by
      rw [groups, if_neg (by simpa using hflat)]
    rw [hgroups]
    refine ⟨?_, fun type => ?_, hierarchy_foldl_entries hordered⟩
    · rw [usesTyping_ofGroups, usesTyping_ofGroups]
    · rw [Bool.eq_iff_iff, contains_eq_true, contains_eq_true, ofGroups_entryGroups hordered,
        mentions_iff_mem_declared h hflat]

theorem acceptable_groups {gs : List (String × Option String)} (h : Acceptable gs) :
    Acceptable (ofGroups gs).groups := by
  have hdeclared : ∀ type ∈ (ofGroups gs).declared, type ≠ implicitType := by
    intro type htype
    obtain ⟨g, hg, rfl | hsupertype⟩ := mem_declared_ofGroups.1 htype
    · exact h.name g hg
    · exact h.supertype g hg type hsupertype
  -- without a hierarchy the names stand alone, otherwise each has a supertype
  by_cases hflat : (ofGroups gs).hierarchy = []
  · rw [groups, hflat, List.isEmpty_nil, if_pos rfl]
    refine ⟨?_, by simp, Or.inr (by simp)⟩
    simpa using hdeclared
  · rw [groups, if_neg (by simpa using hflat)]
    have hmentions : ∀ type, Mentions (ofGroups gs).hierarchy type → type ≠ implicitType :=
      fun type htype => hdeclared type ((mentions_iff_mem_declared h hflat type).1 htype)
    have hentries : ∀ g ∈ (ofGroups gs).hierarchy.flatMap entryGroups,
        ∃ p ∈ (ofGroups gs).hierarchy, ∃ name ∈ p.2, (name, some p.1) = g := by
      simp [entryGroups]
    refine ⟨fun g hg => ?_, fun g hg type htype => ?_, Or.inl fun g hg => ?_⟩ <;>
      obtain ⟨p, hp, name, hname, rfl⟩ := hentries g hg
    · exact hmentions name ⟨p, hp, Or.inr hname⟩
    · exact hmentions type ⟨p, hp, Or.inl (Option.some.inj htype)⟩
    · rfl

/-- The tables that prepared texts declare. -/
inductive FromText : Types → Prop where
  | untyped : FromText untyped
  | section {ss : List Shape} {gs : List (String × Option String)} (hwords : TypedWords ss gs)
      (hplain : ∀ s ∈ ss, s.Plain) (h : Acceptable gs) : FromText (ofGroups gs)

theorem fromText_of_readTypes {body : Option (List Tree)} {t : Types} (h : readTypes body = .ok t)
    (hplain : ∀ trees ∈ body, ∀ u ∈ trees, u.shape.Plain) : t.FromText := by
  cases body with
  | none =>
    obtain rfl : untyped = t := by simpa [readTypes] using h
    exact .untyped
  | some trees =>
    obtain ⟨gs, hwords, hacceptable, rfl⟩ := readTypes_eq_ok.1 h
    refine .section hwords ?_ hacceptable
    simpa using hplain trees rfl

/-- Whether the type of a domain without typing is no declared type of a domain with typing. -/
def Separate (t : Types) : Prop := t.usesTyping = true → t.contains implicitType = false

variable {t : Types}

theorem Agrees.separate {u : Types} (h : t.Agrees u) (ht : t.Separate) : u.Separate :=
  fun htyping => (h.contains _).symm.trans (ht (h.usesTyping.trans htyping))

theorem Separate.ne_implicitType (h : t.Separate) (htyping : t.usesTyping = true) {e : Entity}
    (he : t.Declarable .reject e) : e.type ≠ implicitType := by
  have hadmits := (admits_of_typing htyping e.type).1 he.admits
  rintro himplicit
  have hobject : implicitType ≠ objectType := by decide
  simp [himplicit, h htyping, hobject] at hadmits

theorem Declares.shapes {ss : List Shape} {es : List Entity} (h : t.Declares .reject ss es)
    (hseparate : t.Separate) : t.Declares .reject (es.flatMap Entity.shapes) es :=
  declares_shapes h.declarable fun htyping e he =>
    hseparate.ne_implicitType htyping (h.declarable e he)

namespace FromText

theorem separate (h : t.FromText) : t.Separate := by
  cases h with
  | untyped => exact fun htyping => absurd htyping (by decide)
  | @«section» ss gs hwords hplain hacceptable =>
    intro _
    rw [Bool.eq_false_iff, ne_eq, contains_eq_true, mem_declared_ofGroups]
    rintro ⟨g, hg, hname | htype⟩
    · exact hacceptable.name g hg hname
    · exact hacceptable.supertype g hg implicitType htype rfl

theorem declared (h : t.FromText) {type : String} (htype : type ∈ t.declared) :
    PlainWord type ∧ type ≠ "-" := by
  cases h with
  | untyped =>
    obtain rfl := List.mem_singleton.1 htype
    exact ⟨plainWord_implicitType, by decide⟩
  | @«section» ss gs hwords hplain hacceptable =>
    obtain ⟨g, hg, rfl | hsupertype⟩ := mem_declared_ofGroups.1 htype
    · exact ⟨(hwords.plain hplain hg).1, (hwords.ne_dash hg).1⟩
    · exact ⟨(hwords.plain hplain hg).2 type hsupertype, (hwords.ne_dash hg).2 type hsupertype⟩

theorem ordered (h : t.FromText) : Ordered t.hierarchy := by
  cases h with
  | untyped => exact ⟨List.Pairwise.nil, by simp [Types.untyped]⟩
  | «section» => exact ordered_ofGroups _

theorem exists_isMadeBy (h : t.FromText) : ∃ ds, t.IsMadeBy ds := by
  cases h with
  | untyped => exact ⟨[], Or.inl rfl⟩
  | @«section» ss gs => exact ⟨gs.map change, isMadeBy_ofGroups gs⟩

theorem mem_declared (h : t.FromText) {type : String} (htype : Mentions t.hierarchy type) :
    type ∈ t.declared := by
  obtain ⟨ds, hmade⟩ := h.exists_isMadeBy
  exact hmade.wellFormed.mentioned type htype

end FromText

def entryShapes (p : String × List String) : List Shape :=
  p.2.map .word ++ [.word "-", .word p.1]

def shapes (t : Types) : List Shape :=
  if t.hierarchy.isEmpty then t.declared.map .word else t.hierarchy.flatMap entryShapes

def sections (t : Types) : List Shape :=
  if t.usesTyping then [.list (.word ":types" :: t.shapes)] else []

theorem typedWords_entries {entries : List (String × List String)} (h : Ordered entries)
    (hdash : ∀ type, Mentions entries type → type ≠ "-") :
    TypedWords (entries.flatMap entryShapes) (entries.flatMap entryGroups) := by
  induction entries with
  | nil => exact .untyped [] (by simp)
  | cons p entries ih =>
    have hrest : Ordered entries :=
      ⟨h.keys.of_cons, fun q hq => h.subtypes q (List.mem_cons_of_mem _ hq)⟩
    have hnames : "-" ∉ p.2 := fun hmem => hdash "-" ⟨p, List.mem_cons_self, Or.inr hmem⟩ rfl
    have htype : p.1 ≠ "-" := hdash p.1 ⟨p, List.mem_cons_self, Or.inl rfl⟩
    have hgroup := TypedWords.group p.2 p.1 (h.subtypes p List.mem_cons_self).1 hnames htype
      (ih hrest fun type htype => hdash type ((mentions_cons _ _ _).2 (Or.inr htype)))
    simpa [entryShapes, entryGroups] using hgroup

theorem typedWords_shapes {t : Types} (h : t.FromText) : TypedWords t.shapes t.groups := by
  by_cases hflat : t.hierarchy = []
  · rw [shapes, groups, hflat, List.isEmpty_nil, if_pos rfl, if_pos rfl]
    exact .untyped _ fun hdash => (h.declared hdash).2 rfl
  · have hempty : t.hierarchy.isEmpty = false := by simpa using hflat
    rw [shapes, groups, hempty]
    exact typedWords_entries h.ordered fun type htype => (h.declared (h.mem_declared htype)).2

/-- A table is declared again by what it is written as, up to the order of the types. -/
theorem readTypes_shapes {t : Types} (h : t.FromText) (htyping : t.usesTyping = true)
    {body : List Tree} (hbody : body.map Tree.shape = t.shapes) :
    ∃ u, readTypes (some body) = .ok u ∧ u.Agrees t ∧ (t.hierarchy = [] → u = t) := by
  have hwords := typedWords_shapes h
  cases h with
  | untyped => exact absurd htyping (by decide)
  | @«section» ss gs _ _ hacceptable =>
    refine ⟨_, readTypes_eq_ok.2 ⟨_, hbody ▸ hwords, acceptable_groups hacceptable, rfl⟩, ?_, ?_⟩
    · exact agrees_ofGroups_groups hacceptable
    · exact ofGroups_groups_of_flat

theorem FromText.readTypes (h : t.FromText) {body : Option (List Tree)}
    (hbody : body.map (List.map Tree.shape) = if t.usesTyping then some t.shapes else none) :
    ∃ u, readTypes body = .ok u ∧ u.Agrees t ∧ (t.hierarchy = [] → u = t) := by
  cases htyping : t.usesTyping with
  | true =>
    rw [htyping, if_pos rfl] at hbody
    obtain ⟨trees, rfl, htrees⟩ := Option.map_eq_some_iff.1 hbody
    exact readTypes_shapes h htyping htrees
  | false =>
    rw [htyping] at hbody
    obtain rfl : body = none := Option.map_eq_none_iff.1 hbody
    cases h with
    | untyped => exact ⟨_, rfl, ⟨rfl, fun _ => rfl, rfl⟩, fun _ => rfl⟩
    | «section» => simp [usesTyping_ofGroups] at htyping

/-- The order of the types is written only where it is kept. -/
theorem Agrees.text {u : Types} (h : u.Agrees t) (hflat : t.hierarchy = [] → u = t) :
    u.text = t.text := by
  by_cases hempty : t.hierarchy = []
  · rw [hflat hempty]
  · have hne : t.hierarchy.isEmpty = false := by simpa using hempty
    unfold Types.text
    rw [h.usesTyping, h.hierarchy, hne]
    rfl

theorem segment_entry {p : String × List String} (hp : PlainWord p.1)
    (hsubtypes : ∀ type ∈ p.2, PlainWord type) :
    Segment ("\t\t" ++ words p.2 ++ " - " ++ p.1 ++ "\n") (entryShapes p) := by
  have hspells := (Spells.plain_words hsubtypes).append_blank
    ((Spells.single_plain plainWord_dash).append_blank (.single_plain hp))
  refine Segment.of_spaces ['\t', '\t'] _ ['\n'] ?_ (by simp) ?_ ?_ hspells
  · simp
  · simp [IsSpace]
  · simp [IsSpace]

theorem segment_text {t : Types} (h : t.FromText) : Segment t.text t.sections := by
  have hhead : PlainWord ":types" := by decide
  cases htyping : t.usesTyping with
  | false => simpa [text, sections, htyping] using Segment.empty
  | true =>
    simp only [text, sections, htyping, Bool.not_true, Bool.false_eq_true, if_false, if_true]
    by_cases hflat : t.hierarchy = []
    · have hspells := Spells.plain_words fun type htype => (h.declared htype).1
      rw [shapes, hflat, List.isEmpty_nil, if_pos rfl, if_pos rfl]
      exact .of_line (by simp) hhead hspells
    · have hempty : t.hierarchy.isEmpty = false := by simpa using hflat
      have hplain : ∀ type, Mentions t.hierarchy type → PlainWord type := fun type htype =>
        (h.declared (h.mem_declared htype)).1
      have hentries : Segment (concat (t.hierarchy.map fun p =>
          "\t\t" ++ words p.2 ++ " - " ++ p.1 ++ "\n")) (t.hierarchy.flatMap entryShapes) := by
        rw [List.flatMap_def]
        refine Segment.concat (forall₂_map_map fun p hp => ?_)
        exact segment_entry (hplain p.1 ⟨p, hp, Or.inl rfl⟩)
          fun type htype => hplain type ⟨p, hp, Or.inr htype⟩
      rw [shapes, hempty]
      exact .of_block (by simp) hhead hentries.spells

end Types

end Pddl
