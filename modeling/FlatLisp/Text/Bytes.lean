/-!
# Byte Offsets

Places in a text are counted in bytes of its UTF-8 form, while the text itself is a list of
characters. This module measures characters in bytes and cuts a text at a byte offset.

## Main definitions

* `byteLength`: the number of bytes that a text takes.
* `takeBytes`: the characters that begin before an offset.

## Main results

* `takeBytes_byteLength_append`: a cut at the end of a part of a text gives that part.
* `append_inj_of_byteLength`: a place in a text is told by its byte offset.
-/

namespace FlatLisp.Text

/-- The number of bytes that a text takes. -/
def byteLength : List Char → Nat
  | [] => 0
  | c :: rest => c.utf8Size + byteLength rest

/-- The characters of a text that begin before the byte at `offset`. -/
def takeBytes : Nat → List Char → List Char
  | 0, _ => []
  | _ + 1, [] => []
  | offset + 1, c :: rest => c :: takeBytes (offset + 1 - c.utf8Size) rest

@[simp] theorem byteLength_nil : byteLength [] = 0 := rfl

@[simp] theorem byteLength_cons (c : Char) (rest : List Char) :
    byteLength (c :: rest) = c.utf8Size + byteLength rest := rfl

@[simp] theorem byteLength_append (front back : List Char) :
    byteLength (front ++ back) = byteLength front + byteLength back := by
  induction front with
  | nil => simp
  | cons c front ih => simp [ih, Nat.add_assoc]

theorem byteLength_pos {text : List Char} (h : text ≠ []) : 0 < byteLength text := by
  obtain ⟨c, rest, rfl⟩ := List.exists_cons_of_ne_nil h
  exact Nat.add_pos_left c.utf8Size_pos _

/-- Of two places in a text the one that is fewer bytes from the beginning is in front. -/
theorem exists_append_of_byteLength_le {front back front' back' : List Char}
    (h : front ++ back = front' ++ back') (hle : byteLength front ≤ byteLength front') :
    ∃ between, front' = front ++ between ∧ back = between ++ back' := by
  rcases List.append_eq_append_iff.mp h with ⟨between, hfront, hback⟩ | ⟨between, rfl, rfl⟩
  · exact ⟨between, hfront, hback⟩
  · by_cases hbetween : between = []
    · subst hbetween
      exact ⟨[], by simp, rfl⟩
    · have hpos := byteLength_pos hbetween
      rw [byteLength_append] at hle
      omega

/-- Two places in a text that are as many bytes from the beginning are one. -/
theorem append_inj_of_byteLength {front back front' back' : List Char}
    (h : front ++ back = front' ++ back') (heq : byteLength front = byteLength front') :
    front = front' ∧ back = back' := by
  obtain ⟨between, rfl, rfl⟩ := exists_append_of_byteLength_le h (Nat.le_of_eq heq)
  by_cases hbetween : between = []
  · subst hbetween
    exact ⟨by simp, rfl⟩
  · have hpos := byteLength_pos hbetween
    rw [byteLength_append] at heq
    omega

/-- A cut at the end of a part of a text gives that part. -/
theorem takeBytes_byteLength_append (front back : List Char) :
    takeBytes (byteLength front) (front ++ back) = front := by
  induction front with
  | nil => simp [takeBytes]
  | cons c front ih =>
      have hc := c.utf8Size_pos
      obtain ⟨k, hk⟩ : ∃ k, c.utf8Size + byteLength front = k + 1 :=
        ⟨c.utf8Size + byteLength front - 1, by omega⟩
      have hrest : k + 1 - c.utf8Size = byteLength front := by omega
      rw [byteLength_cons, hk, List.cons_append, takeBytes, hrest, ih]

end FlatLisp.Text
