import Pddl.Proofs.Blame

namespace Pddl

variable {σ : Type} {store : σ → Tree → Tree → List Tree → Report σ} {what : String} {s r : σ}
  {t : Tree} {ts : List Tree}

/-- Stores sections one after the other; `store` is given a section, its keyword and its body. -/
def storeAll (store : σ → Tree → Tree → List Tree → Report σ) (what : String) (s : σ) :
    List Tree → Report σ
  | [] => pure s
  | t :: ts => do
    let items ← t.expectItems ("a " ++ what)
    match items with
    | [] => .ofExcept (.error (t.fault (.empty what)))
    | keyword :: body => do
      let next ← store s t keyword body
      storeAll store what next ts

theorem storeAll_nil_eq_ok : (storeAll store what s []).result = .ok r ↔ s = r := by
  simp [storeAll]

theorem storeAll_cons_eq_ok :
    (storeAll store what s (t :: ts)).result = .ok r ↔
      ∃ e keyword body next, t = .list e (keyword :: body) ∧
        (store s t keyword body).result = .ok next ∧
        (storeAll store what next ts).result = .ok r := by
  simp only [storeAll, Report.result_bind, Report.result_liftM, bind_eq_ok, Tree.expectItems_eq_ok]
  constructor
  · rintro ⟨items, ⟨e, rfl⟩, h⟩
    split at h
    · simp at h
    · rename_i keyword body
      simp only [Report.result_bind, bind_eq_ok] at h
      obtain ⟨next, hnext, hrest⟩ := h
      exact ⟨e, keyword, body, next, rfl, hnext, hrest⟩
  · rintro ⟨e, keyword, body, next, rfl, hnext, hrest⟩
    refine ⟨_, ⟨e, rfl⟩, ?_⟩
    simp only [Report.result_bind, bind_eq_ok]
    exact ⟨next, hnext, hrest⟩

/-- What every single section preserves holds in the end; `P` may depend on the sections that have
been stored. -/
theorem storeAll_induction {P : List Tree → σ → Prop}
    (hstep : ∀ {stored s e keyword body next}, Tree.list e (keyword :: body) ∈ ts → P stored s →
      (store s (.list e (keyword :: body)) keyword body).result = .ok next →
      P (stored ++ [.list e (keyword :: body)]) next)
    (h : P [] s) (hstore : (storeAll store what s ts).result = .ok r) : P ts r := by
  suffices hrest : ∀ stored, P stored s → P (stored ++ ts) r from hrest [] h
  clear h
  induction ts generalizing s with
  | nil =>
    intro stored h
    rw [List.append_nil]
    exact storeAll_nil_eq_ok.1 hstore ▸ h
  | cons t ts ih =>
    intro stored h
    obtain ⟨e, keyword, body, next, rfl, hnext, hrest⟩ := storeAll_cons_eq_ok.1 hstore
    rw [List.append_cons]
    exact ih (fun hmem => hstep (List.mem_cons_of_mem _ hmem)) hrest _ (hstep List.mem_cons_self h hnext)

theorem storeAll_preserves {P : σ → Prop}
    (hstep : ∀ {s e keyword body next}, Tree.list e (keyword :: body) ∈ ts → P s →
      (store s (.list e (keyword :: body)) keyword body).result = .ok next → P next)
    (h : P s) (hstore : (storeAll store what s ts).result = .ok r) : P r :=
  storeAll_induction (P := fun _ s => P s) hstep h hstore

/-- Sections can be stored one after the other exactly when each of them can. -/
theorem exists_storeAll_iff {P : Shape → Prop}
    (hheaded : ∀ {s}, P s → ∃ head body, s = .list (head :: body))
    (hstore : ∀ {s entry keyword body}, (∃ r, (store s entry keyword body).result = .ok r) ↔
      P (.list (keyword.shape :: body.map Tree.shape))) :
    (∃ r, (storeAll store what s ts).result = .ok r) ↔ ∀ t ∈ ts, P t.shape := by
  induction ts generalizing s with
  | nil => simp [storeAll_nil_eq_ok]
  | cons t ts ih =>
    simp only [storeAll_cons_eq_ok, List.forall_mem_cons]
    constructor
    · rintro ⟨r, e, keyword, body, next, rfl, hnext, hrest⟩
      have ht := hstore.1 ⟨next, hnext⟩
      exact ⟨by simpa using ht, ih.1 ⟨r, hrest⟩⟩
    · rintro ⟨ht, hts⟩
      obtain ⟨head, ss, hshape⟩ := hheaded ht
      obtain ⟨e, keyword, body, rfl, rfl, rfl⟩ := Tree.eq_cons_of_shape hshape
      obtain ⟨next, hnext⟩ := hstore.2 (hshape ▸ ht)
      obtain ⟨r, hrest⟩ := ih.2 hts
      exact ⟨r, e, keyword, body, next, rfl, hnext, hrest⟩

variable {R : Error → Prop} {trees : σ → List Tree}

theorem blamed_of_store {entry : Tree} {body : List Tree} (hkept : trees r ⊆ entry :: body ++ trees s)
    (hentry : entry.Blamed R) (hbody : ∀ t ∈ body, t.Blamed R) (hs : ∀ t ∈ trees s, t.Blamed R) :
    ∀ t ∈ trees r, t.Blamed R := by
  have hgiven : ∀ t ∈ entry :: body ++ trees s, t.Blamed R :=
    List.forall_mem_append.2 ⟨List.forall_mem_cons.2 ⟨hentry, hbody⟩, hs⟩
  exact fun t ht => hgiven t (hkept ht)

/-- Storing sections blames nothing but these, and all trees that are stored are part of them, if this
is so for every single section. -/
theorem blames_storeAll
    (hstore : ∀ {s entry keyword body}, entry.Blamed R → (∀ t ∈ body, t.Blamed R) →
      Blames R (store s entry keyword body).result)
    (hkept : ∀ {s entry keyword body next}, (store s entry keyword body).result = .ok next →
      trees next ⊆ entry :: body ++ trees s)
    (hs : ∀ t ∈ trees s, t.Blamed R) (hts : ∀ t ∈ ts, t.Blamed R) :
    Blames R (storeAll store what s ts).result ∧
      ∀ r, (storeAll store what s ts).result = .ok r → ∀ t ∈ trees r, t.Blamed R := by
  constructor
  · induction ts generalizing s with
    | nil => exact blames_ok s
    | cons t ts ih =>
      obtain ⟨ht, hts⟩ := List.forall_mem_cons.1 hts
      simp only [storeAll, Report.result_bind, Report.result_liftM]
      refine (ht.expectItems _).bind fun items hitems => ?_
      have hblamed := ht.of_expectItems hitems
      split
      · exact ht.blames _
      · obtain ⟨-, hbody⟩ := List.forall_mem_cons.1 hblamed
        rw [Report.result_bind]
        exact (hstore ht hbody).bind fun next hnext =>
          ih (blamed_of_store (hkept hnext) ht hbody hs) hts
  · intro r hr
    refine storeAll_preserves (P := fun s => ∀ t ∈ trees s, t.Blamed R) (fun hmem hs hnext => ?_) hs hr
    have ht := hts _ hmem
    obtain ⟨-, hbody⟩ := List.forall_mem_cons.1 ht.of_list.2
    exact blamed_of_store (hkept hnext) ht hbody hs

end Pddl
