import Pddl.Proofs.Problem.Shape

namespace Pddl

open Text

namespace Domain

variable {d : Domain} {scope : Scope} {ts rs : List Tree} {facts : List Fact}

theorem exists_readFacts_iff :
    (∃ facts, d.readFacts scope ts = .ok facts) ↔
      ∀ t ∈ ts, ∃ fact, d.readFact scope t = .ok fact := by
  induction ts with
  | nil => simp [readFacts]
  | cons t ts ih =>
    simp only [readFacts, bind_eq_ok, pure_eq_ok, List.forall_mem_cons, ← ih]
    constructor
    · rintro ⟨_, fact, hfact, facts, hfacts, -⟩
      exact ⟨⟨fact, hfact⟩, facts, hfacts⟩
    · rintro ⟨⟨fact, hfact⟩, facts, hfacts⟩
      exact ⟨_, fact, hfact, facts, hfacts, rfl⟩

theorem mem_of_readFacts (h : d.readFacts scope ts = .ok facts) {t : Tree} (ht : t ∈ ts) {f : Fact}
    (hf : d.States scope t.shape f) : f ∈ facts := by
  induction ts generalizing facts with
  | nil => exact absurd ht List.not_mem_nil
  | cons u ts ih =>
    simp only [readFacts, bind_eq_ok, pure_eq_ok] at h
    obtain ⟨fact, hfact, rest, hrest, rfl⟩ := h
    rcases List.mem_cons.1 ht with rfl | ht
    · obtain rfl : some f = fact := Except.ok.inj ((readFact_eq_some.2 hf).symm.trans hfact)
      exact List.mem_append_left _ (by simp)
    · exact List.mem_append_right _ (ih hrest ht)

theorem mem_readFacts (h : d.readFacts scope ts = .ok facts) {f : Fact} :
    f ∈ facts ↔ ∃ s ∈ ts.map Tree.shape, d.States scope s f := by
  constructor
  · intro hf
    obtain ⟨t, ht, hstates⟩ := exists_of_mem_readFacts h hf
    exact ⟨t.shape, List.mem_map_of_mem ht, hstates⟩
  · rintro ⟨s, hs, hf⟩
    obtain ⟨t, ht, rfl⟩ := List.mem_map.1 hs
    exact mem_of_readFacts h ht hf

/-- The same entries in another order are accepted alike and state the same facts. -/
theorem readFacts_of_forall_mem_iff (h : d.readFacts scope ts = .ok facts)
    (hshapes : ∀ s, s ∈ ts.map Tree.shape ↔ s ∈ rs.map Tree.shape) :
    ∃ others, d.readFacts scope rs = .ok others ∧ ∀ f, f ∈ facts ↔ f ∈ others := by
  have haccepted := exists_readFacts_iff.1 ⟨facts, h⟩
  obtain ⟨others, hothers⟩ : ∃ others, d.readFacts scope rs = .ok others := by
    refine exists_readFacts_iff.2 fun r hr => ?_
    obtain ⟨t, ht, hshape⟩ := List.mem_map.1 ((hshapes _).2 (List.mem_map_of_mem hr))
    obtain ⟨fact, hfact⟩ := haccepted t ht
    exact ⟨fact, readFact_congr hshape hfact⟩
  refine ⟨others, hothers, fun f => ?_⟩
  rw [mem_readFacts h, mem_readFacts hothers]
  exact exists_congr fun s => and_congr_left fun _ => hshapes s

end Domain

/-- What stands behind the keyword in all sections. -/
def Shape.entries (keyword : String) (ss : List Shape) : List Shape := (bodies keyword ss).flatten

/-- The same problem told again: with the same name, domain name and goal, and with objects and
facts in one section each that list the same, up to order and repetition. The objects are the same
if they have the same names and types, however the types are given. Other sections are skipped, if
they are sections at all. -/
structure Shape.Retells (types : Types) (ss rs : List Shape) : Prop where
  headed : (∀ s ∈ ss, ∃ head body, s = .list (head :: body)) ↔
    ∀ r ∈ rs, ∃ head body, r = .list (head :: body)
  same : ∀ keyword ∈ ["problem", ":domain", ":goal"], bodies keyword ss = bodies keyword rs
  once : ∀ keyword ∈ [":objects", ":init"],
    (bodies keyword ss).length ≤ 1 ∧ (bodies keyword rs).length ≤ 1
  objects : ∃ es es', types.Declares .adHoc (entries ":objects" ss) es ∧
    types.Declares .adHoc (entries ":objects" rs) es' ∧ ∀ e, e ∈ es ↔ e ∈ es'
  init : ∀ s, s ∈ entries ":init" ss ↔ s ∈ entries ":init" rs

namespace Shape

variable {types : Types} {ss rs : List Shape}

theorem Retells.symm (h : Retells types ss rs) : Retells types rs ss where
  headed := h.headed.symm
  same keyword hkeyword := (h.same keyword hkeyword).symm
  once keyword hkeyword := (h.once keyword hkeyword).symm
  objects := by
    obtain ⟨es, es', hes, hes', hsame⟩ := h.objects
    exact ⟨es', es, hes', hes, fun e => (hsame e).symm⟩
  init s := (h.init s).symm

theorem mem_bodies {keyword : String} {body : List Shape} :
    body ∈ bodies keyword ss ↔ ∃ s ∈ ss, s.body? keyword = some body :=
  List.mem_filterMap

theorem entries_eq_of_length_le_one {keyword : String} (h : (bodies keyword ss).length ≤ 1) :
    entries keyword ss = (bodies keyword ss).getLast?.getD [] := by
  unfold entries
  cases hbodies : bodies keyword ss with
  | nil => rfl
  | cons body rest =>
    obtain rfl : rest = [] := by simpa [hbodies] using h
    simp

end Shape

namespace ProblemSections

open Shape

/-- Whether the same is stored, up to the order and the repetition of objects and facts. -/
structure Restates (s r : ProblemSections) : Prop where
  name : s.name = r.name
  domainName : s.domainName = r.domainName
  objects : ∀ e, e ∈ s.objects ↔ e ∈ r.objects
  init : ∀ x, x ∈ s.init.map Tree.shape ↔ x ∈ r.init.map Tree.shape
  goal : s.goal.map Tree.shape = r.goal.map Tree.shape

variable {s r : ProblemSections} {types : Types} {ss rs : List Shape}

theorem Storable.of_retells (h : Retells types ss rs) (hss : ∀ s ∈ ss, Storable types s) :
    ∀ r ∈ rs, Storable types r := by
  intro r hr
  -- a section with the keyword also stands among the others, with the same body
  have hsame : ∀ keyword ∈ ["problem", ":domain", ":goal"], ∀ body ∈ r.body? keyword,
      ∃ s ∈ ss, s.body? keyword = some body := by
    intro keyword hkeyword body hbody
    have hmem : body ∈ bodies keyword rs := mem_bodies.2 ⟨r, hr, hbody⟩
    exact mem_bodies.1 (h.same keyword hkeyword ▸ hmem)
  constructor
  case headed => exact h.headed.1 (fun s hs => (hss s hs).headed) r hr
  case name =>
    intro body hbody
    obtain ⟨s, hs, hbody'⟩ := hsame "problem" (by simp) body hbody
    exact (hss s hs).name body hbody'
  case domainName =>
    intro body hbody
    obtain ⟨s, hs, hbody'⟩ := hsame ":domain" (by simp) body hbody
    exact (hss s hs).domainName body hbody'
  case goal =>
    intro body hbody
    obtain ⟨s, hs, hbody'⟩ := hsame ":goal" (by simp) body hbody
    exact (hss s hs).goal body hbody'
  case objects =>
    intro body hbody
    obtain ⟨es, es', -, hes', -⟩ := h.objects
    have hmem : body ∈ bodies ":objects" rs := mem_bodies.2 ⟨r, hr, hbody⟩
    have hone : bodies ":objects" rs = [body] := by
      obtain ⟨other, hother⟩ := List.length_eq_one_iff.1
        (Nat.le_antisymm (h.once ":objects" (by simp)).2 (List.length_pos_of_mem hmem))
      rw [hother] at hmem ⊢
      rw [List.mem_singleton.1 hmem]
    rw [entries, hone, List.flatten_singleton] at hes'
    exact ⟨es', hes'⟩

theorem Collects.restates (hs : s.Collects types ss) (h : Retells types ss rs)
    (hr : r.Collects types rs) : s.Restates r := by
  have hobjects := h.once ":objects" (by simp)
  have hinit := h.once ":init" (by simp)
  constructor
  case name => exact hs.name_eq hr (h.same "problem" (by simp))
  case domainName => exact hs.domainName_eq hr (h.same ":domain" (by simp))
  case goal => exact hs.goal_eq hr (h.same ":goal" (by simp))
  case objects =>
    obtain ⟨es, es', hes, hes', hsame⟩ := h.objects
    rw [entries_eq_of_length_le_one hobjects.1] at hes
    rw [entries_eq_of_length_le_one hobjects.2] at hes'
    rw [hs.objects.unique hes, hr.objects.unique hes']
    exact hsame
  case init =>
    rw [hs.init, hr.init, ← entries_eq_of_length_le_one hinit.1,
      ← entries_eq_of_length_le_one hinit.2]
    exact h.init

end ProblemSections

namespace Problem

variable {d : Domain} {p : Problem} {s r : ProblemSections} {text text' : String}
  {ss rs : List Shape}

/-- The problem of other sections that say the same has the same objects, hence the same scope, and
an equal set of facts. -/
theorem IsOf.exists_of_restates (h : p.IsOf d s) (hr : s.Restates r) :
    ∃ q, q.IsOf d r ∧ p.same q = true := by
  obtain ⟨facts, hfacts, hinit⟩ := h.init
  obtain ⟨others, hothers, hmem⟩ := Domain.readFacts_of_forall_mem_iff hfacts hr.init
  refine ⟨{ p with init := Sorted.ofList others }, ⟨?_, ?_, h.fits, ?_, ⟨others, hothers, rfl⟩, ?_⟩,
    ?_⟩
  · exact hr.name ▸ h.name
  · exact hr.domainName ▸ h.domainName
  -- the same set of objects, so both facts and goal are read in the scope of `p`
  · exact (Sorted.ofList_congr fun e => (hr.objects e).symm).trans h.objects
  · exact Symbols.readOptional_congr hr.goal h.goal
  · have hcompare := Sorted.compareLists_ofList hmem
    rw [hinit] at hcompare
    simp [same, hcompare, Formula.same_refl]

theorem exists_read_of_retells (hs : tokenTree text = .ok (.list (.word "define" :: ss)))
    (ht : tokenTree text' = .ok (.list (.word "define" :: rs))) (h : Shape.Retells d.types ss rs)
    (hp : (Problem.read d text).result = .ok p) :
    ∃ q, (Problem.read d text').result = .ok q ∧ p.same q = true := by
  obtain ⟨ss', sections, hread, hstorable, hcollects, hof⟩ := exists_collects_of_read hp
  obtain rfl : ss = ss' := by simpa using hs.symm.trans hread
  obtain ⟨sections', hcollects', hread'⟩ :=
    exists_collects_of_storable ht (ProblemSections.Storable.of_retells h hstorable)
  obtain ⟨q, hq, hsame⟩ := hof.exists_of_restates (hcollects.restates h hcollects')
  exact ⟨q, hread' q hq, hsame⟩

/-- A problem that is told again is accepted like the first one, and as an equal problem. -/
theorem read_of_retells (hs : tokenTree text = .ok (.list (.word "define" :: ss)))
    (ht : tokenTree text' = .ok (.list (.word "define" :: rs)))
    (h : Shape.Retells d.types ss rs) :
    ((∃ p, (Problem.read d text).result = .ok p) ↔ ∃ q, (Problem.read d text').result = .ok q) ∧
      ∀ p q, (Problem.read d text).result = .ok p → (Problem.read d text').result = .ok q →
        p.same q = true := by
  refine ⟨⟨?_, ?_⟩, ?_⟩
  · rintro ⟨p, hp⟩
    obtain ⟨q, hq, -⟩ := exists_read_of_retells hs ht h hp
    exact ⟨q, hq⟩
  · rintro ⟨q, hq⟩
    obtain ⟨p, hp, -⟩ := exists_read_of_retells ht hs h.symm hq
    exact ⟨p, hp⟩
  · intro p q hp hq
    obtain ⟨q', hq', hsame⟩ := exists_read_of_retells hs ht h hp
    obtain rfl : q = q' := Except.ok.inj (hq.symm.trans hq')
    exact hsame

def weighing : String := "(define (domain d) (:types t) (:predicates (p ?x - t)) (:functions (c)))"

def told : String :=
  "(define (problem q) (:domain d) (:objects a b - t) (:init (= (c) 0) (= (c) -0) (p a)) " ++
    "(:goal (p b)))"

def retold : String :=
  "(define (:goal (p b)) (:init (p a) (p a) (= (c) -0) (= (c) 0)) (:objects b - t a - t b - t) " ++
    "(:domain d) (problem q))"

def toldFacts : List Shape :=
  [.list [.word "=", .list [.word "c"], .word "0"],
    .list [.word "=", .list [.word "c"], .word "-0"], .list [.word "p", .word "a"]]

def toldObjects : List Tree := ["a", "b", "-", "t"].map fun w => .word (.ofString w)

def retoldObjects : List Tree :=
  ["b", "-", "t", "a", "-", "t", "b", "-", "t"].map fun w => .word (.ofString w)

def tellings (objects : List Tree) (facts : List Shape) : List Shape :=
  ProblemSections.shapes .fastDownward "q" "d" (objects.map Tree.shape) facts
    (.list [.word "p", .word "b"])

def toldSections : List Shape := tellings toldObjects toldFacts

def retoldSections : List Shape :=
  (tellings retoldObjects (.list [.word "p", .word "a"] :: toldFacts.reverse)).reverse

theorem retells_toldSections {types : Types} {es es' : List Entity}
    (hes : (types.entities .adHoc toldObjects).result = .ok es)
    (hes' : (types.entities .adHoc retoldObjects).result = .ok es')
    (hsame : ∀ e, e ∈ es ↔ e ∈ es') : Shape.Retells types toldSections retoldSections := by
  constructor
  case objects => exact ⟨es, es', Types.entities_eq_ok.1 hes, Types.entities_eq_ok.1 hes', hsame⟩
  case same => decide +kernel
  case once => decide +kernel
  case headed => simp [toldSections, retoldSections, tellings, ProblemSections.shapes]
  case init =>
    have hsubset : (∀ s ∈ Shape.entries ":init" toldSections,
          s ∈ Shape.entries ":init" retoldSections) ∧
        ∀ s ∈ Shape.entries ":init" retoldSections, s ∈ Shape.entries ":init" toldSections := by
      decide +kernel
    exact fun s => ⟨hsubset.1 s, hsubset.2 s⟩

/-- The two problems keep different zeros and are equal all the same. -/
theorem read_of_retells_told :
    tokenTree told = .ok (.list (.word "define" :: toldSections)) ∧
      tokenTree retold = .ok (.list (.word "define" :: retoldSections)) ∧
      ∃ d, (Domain.read .default weighing).result = .ok d ∧
        Shape.Retells d.types toldSections retoldSections ∧
        ∃ p, (Problem.read d told).result = .ok p ∧
          ∃ q, (Problem.read d retold).result = .ok q ∧ p.init ≠ q.init ∧ p.same q = true := by
  have htold : tokenTree told = .ok (.list (.word "define" :: toldSections)) := by decide +kernel
  have hretold : tokenTree retold = .ok (.list (.word "define" :: retoldSections)) := by
    decide +kernel
  obtain ⟨d, hd, hes, hes', p, hp, q, hq, hinit⟩ :
      ∃ d, (Domain.read .default weighing).result = .ok d ∧
        (d.types.entities .adHoc toldObjects).result = .ok [⟨"a", "t"⟩, ⟨"b", "t"⟩] ∧
        (d.types.entities .adHoc retoldObjects).result =
          .ok [⟨"b", "t"⟩, ⟨"a", "t"⟩, ⟨"b", "t"⟩] ∧
        ∃ p, (Problem.read d told).result = .ok p ∧
          ∃ q, (Problem.read d retold).result = .ok q ∧ p.init ≠ q.init := by
    decide +kernel
  have hretells := retells_toldSections hes hes' (by simp [or_comm, or_left_comm])
  obtain ⟨-, hsame⟩ := read_of_retells htold hretold hretells
  exact ⟨htold, hretold, d, hd, hretells, p, hp, q, hq, hinit, hsame p q hp hq⟩

end Problem

end Pddl
