import Mathlib.Data.List.Basic
import Mathlib.Data.String.Basic
import Pddl.Text.Position
import Pddl.Text.Prepare

namespace Pddl.Text

def bytes (s : String) : List UInt8 := s.toByteArray.data.toList

theorem bytes_ofList (cs : List Char) :
    bytes (String.ofList cs) = cs.flatMap String.utf8EncodeChar := by
  simp [bytes, String.toByteArray_ofList, List.utf8Encode]

def ofBytes (bs : List UInt8) : List Char := bs.map fun b => Char.ofNat b.toNat

@[simp] theorem ofBytes_append (bs cs : List UInt8) :
    ofBytes (bs ++ cs) = ofBytes bs ++ ofBytes cs := List.map_append

theorem encode_of_ascii {c : Char} (h : c.toNat ≤ 127) :
    String.utf8EncodeChar c = [UInt8.ofNat c.toNat] :=
  if_pos h

theorem not_lt_of_mem_encode {c : Char} (h : ¬c.toNat ≤ 127) {b : UInt8}
    (hb : b ∈ String.utf8EncodeChar c) : ¬b < 128 := by
  have hhigh : ∀ n < 128, ¬UInt8.ofNat (n + 128) < 128 := by
    decide
  have hnot : ¬c.val.toNat ≤ 127 := h
  unfold String.utf8EncodeChar at hb
  dsimp only at hb
  rw [if_neg hnot] at hb
  split_ifs at hb <;> simp only [List.mem_cons, List.not_mem_nil, or_false] at hb
  · rcases hb with rfl | rfl
    · exact hhigh (_ + 64) (by omega)
    · exact hhigh _ (by omega)
  · rcases hb with rfl | rfl | rfl
    · exact hhigh (_ + 96) (by omega)
    all_goals exact hhigh _ (by omega)
  · rcases hb with rfl | rfl | rfl | rfl
    · exact hhigh (_ + 112) (by omega)
    all_goals exact hhigh _ (by omega)

theorem ofBytes_encode {c : Char} (h : ∀ b ∈ String.utf8EncodeChar c, b < 128) :
    ofBytes (String.utf8EncodeChar c) = [c] := by
  by_cases hc : c.toNat ≤ 127
  · have hbyte : (UInt8.ofNat c.toNat).toNat = c.toNat := by
      rw [UInt8.toNat_ofNat']
      exact Nat.mod_eq_of_lt (by omega)
    rw [encode_of_ascii hc, ofBytes, List.map_singleton, hbyte, Char.ofNat_toNat]
  · obtain ⟨b, hb⟩ := List.exists_mem_of_ne_nil _ (String.utf8EncodeChar_ne_nil (c := c))
    exact absurd (h b hb) (not_lt_of_mem_encode hc hb)

theorem ofBytes_flatMap {cs : List Char} (h : ∀ b ∈ cs.flatMap String.utf8EncodeChar, b < 128) :
    ofBytes (cs.flatMap String.utf8EncodeChar) = cs := by
  induction cs with
  | nil => rfl
  | cons c cs ih =>
    rw [List.flatMap_cons, List.forall_mem_append] at h
    rw [List.flatMap_cons, ofBytes_append, ofBytes_encode h.1, ih h.2, List.singleton_append]

theorem eq_of_ofNat_byte {c d : Char} (hc : c.toNat ≤ 127) (hd : d.toNat ≤ 127)
    (h : UInt8.ofNat c.toNat = UInt8.ofNat d.toNat) : c = d := by
  have hnat := congrArg UInt8.toNat h
  rw [UInt8.toNat_ofNat', UInt8.toNat_ofNat', Nat.mod_eq_of_lt (by omega),
    Nat.mod_eq_of_lt (by omega)] at hnat
  exact Char.toNat_inj.1 hnat

/-- A byte of ASCII in a text is a character of it, and the bytes before it are those of the
characters before it. -/
theorem exists_append_of_byte {cs : List Char} {offset : Nat} {c : Char} (hc : c.toNat ≤ 127)
    (h : (bytes (String.ofList cs))[offset]? = some (UInt8.ofNat c.toNat)) :
    ∃ before after, cs = before ++ c :: after ∧ String.utf8Len before = offset := by
  rw [bytes_ofList] at h
  induction cs generalizing offset with
  | nil => simp at h
  | cons d cs ih =>
    have hsize := String.length_utf8EncodeChar d
    rw [List.flatMap_cons] at h
    by_cases hoffset : offset < d.utf8Size
    · rw [List.getElem?_append_left (by omega)] at h
      have hlow : UInt8.ofNat c.toNat < 128 := by
        rw [UInt8.lt_iff_toNat_lt, UInt8.toNat_ofNat']
        exact Nat.lt_of_le_of_lt (Nat.mod_le _ _) (Nat.lt_succ_of_le hc)
      have hd : d.toNat ≤ 127 := by
        by_contra hd
        exact not_lt_of_mem_encode hd (List.mem_of_getElem? h) hlow
      rw [encode_of_ascii hd] at h hsize
      obtain rfl : offset = 0 := by
        rw [List.length_singleton] at hsize
        omega
      obtain rfl : d = c := eq_of_ofNat_byte hd hc (by simpa using h)
      exact ⟨[], cs, rfl, rfl⟩
    · rw [List.getElem?_append_right (by omega), hsize] at h
      obtain ⟨before, after, rfl, hbefore⟩ := ih h
      refine ⟨d :: before, after, rfl, ?_⟩
      rw [String.utf8Len_cons]
      omega

/-- The characters of a text, one for each byte unless some character has more of them; decoding is slow
to evaluate. -/
def characters (s : String) : List Char :=
  if (bytes s).all (· < 128) then ofBytes (bytes s) else s.toList

theorem characters_eq_toList (s : String) : characters s = s.toList := by
  obtain ⟨cs, rfl⟩ := s.exists_eq_ofList
  rw [characters, bytes_ofList, String.toList_ofList]
  split_ifs with h
  · exact ofBytes_flatMap fun b hb => of_decide_eq_true (List.all_eq_true.1 h b hb)
  · rfl

def excerpt (s : String) : Excerpt := ⟨.origin, prepareChars (characters s)⟩

theorem excerpt_eq (s : String) : excerpt s = .ofString (prepare s) := by
  simp [excerpt, Excerpt.ofString, prepare, characters_eq_toList]

end Pddl.Text
