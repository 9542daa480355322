import Pddl.Text.Prepare

namespace Pddl.Text

/-- A character that lowercase leaves alone in every context. -/
def Settled (c : Char) : Prop := lowerChar c = [c] ∧ c ≠ 'Σ'

instance (c : Char) : Decidable (Settled c) :=
  inferInstanceAs (Decidable (lowerChar c = [c] ∧ c ≠ 'Σ'))

def CaseRow.image (r : CaseRow) : List Nat :=
  (List.range ((r.last - r.first) / r.step + 1)).map fun i => r.target + i * r.step

/-- Whether no lowercase form of `r` is itself lowered by `s`. -/
def CaseRow.avoids (r s : CaseRow) : Bool :=
  r.target + (r.last - r.first) < s.first || s.last < r.target ||
    r.image.all fun m => (s.lowered? m).isNone

/-- A character code that no rule of the table concerns: neither a capital letter of ASCII, nor the
dotted capital I, nor a capital sigma. -/
def isPlainCode (m : Nat) : Bool :=
  (m < 0xD800 || 0xDFFF < m && m < 0x110000) && m ≠ 0x130 && m ≠ 0x3A3 && (m < 0x41 || 0x5A < m)

def CaseRow.isClosed (r : CaseRow) : Bool :=
  0 < r.step && lowercaseRows.all r.avoids && r.image.all isPlainCode

set_option maxRecDepth 100000 in
theorem lowercaseRows_closed : ∀ r ∈ lowercaseRows, r.isClosed = true := by
  rw [← List.all_eq_true]
  decide +kernel

theorem CaseRow.mem_image_of_lowered? {r : CaseRow} {n m : Nat} (h : r.lowered? n = some m) :
    m ∈ r.image := by
  simp only [lowered?, Bool.and_eq_true, decide_eq_true_eq] at h
  split at h
  · rename_i hn
    obtain ⟨⟨hfirst, hlast⟩, hstep⟩ := hn
    have hdvd : (n - r.first) / r.step * r.step = n - r.first :=
      Nat.div_mul_cancel (Nat.dvd_of_mod_eq_zero hstep)
    have hle : (n - r.first) / r.step ≤ (r.last - r.first) / r.step :=
      Nat.div_le_div_right (by omega)
    simp only [Option.some.injEq] at h
    exact List.mem_map.2 ⟨(n - r.first) / r.step, List.mem_range.2 (by omega), by omega⟩
  · simp at h

theorem CaseRow.le_of_mem_image {r : CaseRow} {m : Nat} (h : m ∈ r.image) :
    r.target ≤ m ∧ m ≤ r.target + (r.last - r.first) := by
  obtain ⟨i, hi, rfl⟩ := List.mem_map.1 h
  have hle : i * r.step ≤ r.last - r.first :=
    Nat.le_trans (Nat.mul_le_mul_right _ (Nat.le_of_lt_succ (List.mem_range.1 hi)))
      (Nat.div_mul_le_self _ _)
  omega

theorem CaseRow.lowered?_of_avoids {r s : CaseRow} (h : r.avoids s = true) {m : Nat}
    (hm : m ∈ r.image) : s.lowered? m = none := by
  have ⟨hlow, hhigh⟩ := le_of_mem_image hm
  simp only [avoids, Bool.or_eq_true, decide_eq_true_eq, List.all_eq_true, Option.isNone_iff_eq_none]
    at h
  rcases h with (h | h) | h
  · simp only [lowered?]
    rw [if_neg]
    simp only [Bool.and_eq_true, decide_eq_true_eq]
    omega
  · simp only [lowered?]
    rw [if_neg]
    simp only [Bool.and_eq_true, decide_eq_true_eq]
    omega
  · exact h m hm

theorem findSome?_lowered? {r : CaseRow} (hr : r ∈ lowercaseRows) {m : Nat} (hm : m ∈ r.image) :
    lowercaseRows.findSome? (·.lowered? m) = none := by
  have hclosed := lowercaseRows_closed r hr
  simp only [CaseRow.isClosed, Bool.and_eq_true, List.all_eq_true] at hclosed
  exact List.findSome?_eq_none_iff.2 fun s hs => CaseRow.lowered?_of_avoids (hclosed.1.2 s hs) hm

theorem toNat_ofNat_of_plain {m : Nat} (h : isPlainCode m = true) : (Char.ofNat m).toNat = m := by
  simp only [isPlainCode, Bool.and_eq_true, Bool.or_eq_true, decide_eq_true_eq] at h
  have hvalid : m.isValidChar := by
    simp only [Nat.isValidChar]
    omega
  rw [Char.ofNat, dif_pos hvalid]
  rfl

theorem settled_of_lowerChar {c : Char} (h : lowerChar c = [c]) : Settled c :=
  ⟨h, by rintro rfl; exact absurd h (by decide)⟩

theorem flatMap_lowerChar_of_settled {cs : List Char} (h : ∀ c ∈ cs, Settled c) :
    cs.flatMap lowerChar = cs := by
  induction cs with
  | nil => rfl
  | cons c cs ih =>
    obtain ⟨hc, hcs⟩ := List.forall_mem_cons.1 h
    rw [List.flatMap_cons, hc.1, ih hcs]
    rfl

theorem settled_toLower {c : Char} (h : c.toNat < 0x80) : Settled c.toLower := by
  have hall : ∀ n : Fin 0x80, lowerChar (Char.ofNat n).toLower = [(Char.ofNat n).toLower] := by
    decide
  have hc := hall ⟨c.toNat, h⟩
  simp only [Char.ofNat_toNat] at hc
  exact settled_of_lowerChar hc

theorem settled_of_plain_ascii {m : Nat} (h : isPlainCode m = true) (hascii : m < 0x80) :
    Settled (Char.ofNat m) := by
  have hall : ∀ n : Fin 0x80, isPlainCode n = true → lowerChar (Char.ofNat n) = [Char.ofNat n] := by
    decide
  exact settled_of_lowerChar (hall ⟨m, hascii⟩ h)

theorem lowerChar_of_findSome?_eq_none {c : Char} (hascii : ¬c.toNat < 0x80) (hdot : c.toNat ≠ 0x130)
    (h : lowercaseRows.findSome? (·.lowered? c.toNat) = none) : lowerChar c = [c] := by
  rw [lowerChar, if_neg hascii, if_neg hdot, h]

/-- Lowercase is final: no character that it writes is changed by it again. -/
theorem settled_of_mem_lowerChar {c d : Char} (h : d ∈ lowerChar c) : Settled d := by
  unfold lowerChar at h
  split at h
  · rename_i hascii
    rw [List.mem_singleton.1 h]
    exact settled_toLower hascii
  · split at h
    · simp only [List.mem_cons, List.not_mem_nil, or_false] at h
      rcases h with rfl | rfl <;> exact settled_of_lowerChar (by decide)
    · rename_i hascii hdot
      split at h
      · rename_i m hm
        obtain ⟨r, hr, hlow⟩ := List.exists_of_findSome?_eq_some hm
        have himage := CaseRow.mem_image_of_lowered? hlow
        -- no row of the table lowers what another row has written
        have hclosed := lowercaseRows_closed r hr
        simp only [CaseRow.isClosed, Bool.and_eq_true, List.all_eq_true] at hclosed
        have hplain := hclosed.2 m himage
        have hcode := toNat_ofNat_of_plain hplain
        rw [List.mem_singleton.1 h]
        by_cases hm : m < 0x80
        · exact settled_of_plain_ascii hplain hm
        · refine settled_of_lowerChar (lowerChar_of_findSome?_eq_none (by omega) ?_ ?_)
          · simp only [isPlainCode, Bool.and_eq_true, decide_eq_true_eq] at hplain
            omega
          · rw [hcode]
            exact findSome?_lowered? hr himage
      · rename_i hrow
        rw [List.mem_singleton.1 h]
        exact settled_of_lowerChar (lowerChar_of_findSome?_eq_none hascii hdot hrow)

theorem settled_of_mem_lowerAfter {before cs : List Char} {c : Char}
    (h : c ∈ lowerAfter before cs) : Settled c := by
  induction cs generalizing before with
  | nil => simp [lowerAfter] at h
  | cons d ds ih =>
    simp only [lowerAfter, List.mem_append] at h
    rcases h with h | h
    · -- Both forms of a sigma are lowercase, so the neighbours of one do not matter here.
      split at h
      · split at h <;> rw [List.mem_singleton.1 h] <;> exact settled_of_lowerChar (by decide)
      · exact settled_of_mem_lowerChar h
    · exact ih h

theorem lowerAfter_eq_flatMap {before cs : List Char} (h : 'Σ' ∉ cs) :
    lowerAfter before cs = cs.flatMap lowerChar := by
  induction cs generalizing before with
  | nil => rfl
  | cons c cs ih =>
    simp only [List.mem_cons, not_or] at h
    rw [lowerAfter, if_neg (Ne.symm h.1), ih h.2, List.flatMap_cons]

theorem lower_eq_flatMap {cs : List Char} (h : 'Σ' ∉ cs) : lower cs = cs.flatMap lowerChar :=
  lowerAfter_eq_flatMap h

theorem settled_of_mem_prepareChars {cs : List Char} {c : Char} (h : c ∈ prepareChars cs) :
    Settled c := by
  have hall : ∀ lines : List (List Char), c ∈ ['\n'].intercalate (lines.map prepareLine) →
      Settled c := by
    intro lines hmem
    induction lines with
    | nil => simp at hmem
    | cons line lines ih =>
      cases lines with
      | nil =>
        simp only [List.map_cons, List.map_nil, List.intercalate_singleton] at hmem
        exact settled_of_mem_lowerAfter hmem
      | cons next rest =>
        simp only [List.map_cons, List.intercalate_cons_cons, List.mem_append,
          List.mem_singleton] at hmem
        rcases hmem with (hmem | rfl) | hmem
        · exact settled_of_mem_lowerAfter hmem
        · exact settled_of_lowerChar (by decide)
        · exact ih (by simpa using hmem)
  exact hall _ h

/-- A character that preparation treats alone: it starts no comment, ends no line together with a
line feed, and is no capital sigma. -/
def Unbound (c : Char) : Prop := c ≠ ';' ∧ c ≠ '[' ∧ c ≠ '\r' ∧ c ≠ 'Σ'

instance (c : Char) : Decidable (Unbound c) :=
  inferInstanceAs (Decidable (c ≠ ';' ∧ c ≠ '[' ∧ c ≠ '\r' ∧ c ≠ 'Σ'))

theorem cutComment_of_not_mem {cs : List Char} (hsemi : ';' ∉ cs) (hopen : '[' ∉ cs) :
    cutComment false cs = cs := by
  induction cs with
  | nil => rfl
  | cons c cs ih =>
    simp only [List.mem_cons, not_or] at hsemi hopen
    simp [cutComment, Ne.symm hsemi.1, Ne.symm hopen.1, ih hsemi.2 hopen.2]

theorem cutComment_of_unbound {cs : List Char} (h : ∀ c ∈ cs, Unbound c) :
    cutComment false cs = cs :=
  cutComment_of_not_mem (fun hmem => (h _ hmem).1 rfl) fun hmem => (h _ hmem).2.1 rfl

theorem prepareLine_of_unbound {cs : List Char} (h : ∀ c ∈ cs, Unbound c) :
    prepareLine cs = cs.flatMap lowerChar := by
  rw [prepareLine, cutComment_of_unbound h]
  exact lower_eq_flatMap fun hmem => (h _ hmem).2.2.2 rfl

theorem dropReturn_of_unbound {cs : List Char} (h : ∀ c ∈ cs, Unbound c) : dropReturn cs = cs := by
  rw [dropReturn, if_neg]
  exact fun hlast => (h _ (List.mem_of_getLast? hlast)).2.2.1 rfl

theorem linesFrom_ne_nil {line cs : List Char} (h : line ≠ [] ∨ cs ≠ []) :
    linesFrom line cs ≠ [] := by
  induction cs generalizing line with
  | nil => simpa [linesFrom] using h
  | cons c cs ih =>
    unfold linesFrom
    split
    · simp
    · exact ih (Or.inl (by simp))

theorem intercalate_linesFrom {line cs : List Char} (hline : ∀ c ∈ line, Unbound c)
    (h : ∀ c ∈ cs, Unbound c) (hlast : cs.getLast? ≠ some '\n') :
    ['\n'].intercalate ((linesFrom line cs).map prepareLine) =
      (line.reverse ++ cs).flatMap lowerChar := by
  have hrev : ∀ c ∈ line.reverse, Unbound c := fun c hc => hline c (List.mem_reverse.1 hc)
  induction cs generalizing line with
  | nil =>
    cases line with
    | nil => rfl
    | cons c line =>
      rw [List.append_nil, ← prepareLine_of_unbound hrev]
      simp [linesFrom]
  | cons c cs ih =>
    have htail : ∀ d ∈ cs, Unbound d := fun d hd => h d (List.mem_cons_of_mem _ hd)
    have hlast' : cs.getLast? ≠ some '\n' := by
      cases cs with
      | nil => simp
      | cons d ds => simpa using hlast
    -- a line feed ends the line that has been collected; anything else is added to it
    by_cases hc : c = '\n'
    · subst hc
      have hne : linesFrom [] cs ≠ [] := linesFrom_ne_nil (Or.inr (by rintro rfl; simp at hlast))
      rw [linesFrom, if_pos rfl, List.map_cons, List.intercalate_cons_of_ne_nil (by simpa using hne),
        ih (by simp) htail hlast' (by simp), dropReturn_of_unbound hrev,
        prepareLine_of_unbound hrev]
      simp only [List.flatMap_append, List.flatMap_cons, List.reverse_nil, List.nil_append,
        List.append_assoc]
      rfl
    · have hcons : ∀ d ∈ c :: line, Unbound d := by
        intro d hd
        rcases List.mem_cons.1 hd with rfl | hd
        · exact h d List.mem_cons_self
        · exact hline d hd
      rw [linesFrom, if_neg hc, ih hcons htail hlast'
        (fun d hd => hcons d (List.mem_reverse.1 hd))]
      simp

/-- Preparation only lowers a text that holds nothing that joins characters or removes them. -/
theorem prepareChars_eq_flatMap {cs : List Char} (h : ∀ c ∈ cs, Unbound c)
    (hlast : cs.getLast? ≠ some '\n') : prepareChars cs = cs.flatMap lowerChar :=
  intercalate_linesFrom (by simp) h hlast

end Pddl.Text
