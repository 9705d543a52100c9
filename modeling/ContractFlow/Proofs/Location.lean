import ContractFlow.Location
import Mathlib.Data.List.Induction
import Mathlib.Tactic.SplitIfs

/-!
This module shows that the offset of a character in bytes is mapped to the line and the column of that character.
-/

namespace ContractFlow.SourceText

def byteLength (text : List Char) : Nat :=
  (String.ofList text).utf8ByteSize

/-- The place of the character behind `front`: line breaks count, and the characters behind the last one of them. -/
def place (front : List Char) : Nat × Nat :=
  (1 + front.count '\n', 1 + (front.reverse.takeWhile (· != '\n')).length)

theorem place_concat (front : List Char) (c : Char) :
    place (front ++ [c]) = if c = '\n' then ((place front).1 + 1, 1) else ((place front).1, (place front).2 + 1) := by
  unfold place
  split
  · next hc => simp [hc, Nat.add_assoc]
  · next hc => simp [hc, Nat.add_assoc]

@[simp]
theorem bytes_append (front back : List Char) : bytes (front ++ back) = bytes front ++ bytes back :=
  List.flatMap_append

theorem length_bytes (text : List Char) : (bytes text).length = byteLength text := by
  induction text with
  | nil => rfl
  | cons c text ih =>
    unfold byteLength
    rw [String.ofList_cons, String.utf8ByteSize_append, String.utf8ByteSize_singleton, bytes, List.flatMap_cons,
      List.length_append, String.length_utf8EncodeChar]
    rw [← byteLength, ← ih]
    rfl

theorem eq_of_mem_utf8EncodeChar {c : Char} (h : 0x0a ∈ String.utf8EncodeChar c) : c = '\n' := by
  apply Char.ext
  apply UInt32.toNat_inj.1
  change c.val.toNat = 10
  simp only [String.utf8EncodeChar.eq_def] at h
  split_ifs at h
  all_goals
    simp only [List.mem_cons, List.not_mem_nil, ← UInt8.toNat_inj, UInt8.toNat_ofNat', UInt8.reduceToNat,
      or_false] at h
    omega

theorem count_utf8EncodeChar (c : Char) : (String.utf8EncodeChar c).count 0x0a = if c = '\n' then 1 else 0 := by
  split
  · next hc =>
    subst hc
    decide
  · next hc => exact List.count_eq_zero.2 fun h => hc (eq_of_mem_utf8EncodeChar h)

theorem length_go (bs : List UInt8) (offset : Nat) : (lineStarts.go bs offset).length = bs.count 0x0a := by
  induction bs generalizing offset with
  | nil => rfl
  | cons b bs ih =>
    rw [lineStarts.go, List.count_cons]
    split <;> simp_all

theorem count_bytes (text : List Char) : (bytes text).count 0x0a = text.count '\n' := by
  induction text with
  | nil => rfl
  | cons c text ih =>
    rw [bytes, List.flatMap_cons, List.count_append, count_utf8EncodeChar, ← bytes, ih, List.count_cons, Nat.add_comm]
    simp

theorem go_append (bs cs : List UInt8) (offset : Nat) :
    lineStarts.go (bs ++ cs) offset = lineStarts.go bs offset ++ lineStarts.go cs (offset + bs.length) := by
  induction bs generalizing offset with
  | nil => rfl
  | cons b bs ih =>
    rw [List.cons_append, lineStarts.go, lineStarts.go, ih, List.length_cons, Nat.add_right_comm, Nat.add_assoc]
    split <;> rfl

theorem bounds_of_mem_go {bs : List UInt8} {offset start : Nat} (h : start ∈ lineStarts.go bs offset) :
    offset < start ∧ start ≤ offset + bs.length := by
  induction bs generalizing offset with
  | nil => cases h
  | cons b bs ih =>
    rw [lineStarts.go] at h
    rw [List.length_cons]
    split at h
    · rcases List.mem_cons.1 h with rfl | h
      · omega
      · have := ih h
        omega
    · have := ih h
      omega

section Search

variable {front back : List Nat} {i : Nat}

theorem getD_mem_front (back : List Nat) (hi : i < front.length) : (front ++ back).toArray.getD i 0 ∈ front := by
  rw [Array.getD_eq_getD_getElem?, List.getElem?_toArray, List.getElem?_append_left hi, List.getElem?_eq_getElem hi]
  exact List.getElem_mem hi

theorem getD_mem_back (hi : front.length ≤ i) (hlt : i < (front ++ back).length) :
    (front ++ back).toArray.getD i 0 ∈ back := by
  rw [List.length_append] at hlt
  rw [Array.getD_eq_getD_getElem?, List.getElem?_toArray, List.getElem?_append_right hi,
    List.getElem?_eq_getElem (by omega)]
  exact List.getElem_mem _

theorem bisectRight_eq {x lo hi : Nat} (hfront : ∀ s ∈ front, s ≤ x) (hback : ∀ s ∈ back, x < s)
    (hlo : lo ≤ front.length) (hhi : front.length ≤ hi) (hsize : hi ≤ (front ++ back).length) :
    bisectRight (front ++ back).toArray x lo hi = front.length := by
  fun_induction bisectRight (front ++ back).toArray x lo hi with
  | case1 lo hi hlohi mid hx ih =>
    have hmid : front.length ≤ mid := by
      by_contra hmid
      have := hfront _ (getD_mem_front back (Nat.lt_of_not_le hmid))
      omega
    exact ih hlo hmid (by omega)
  | case2 lo hi hlohi mid hx ih =>
    have hmid : mid < front.length := by
      by_contra hmid
      exact hx (hback _ (getD_mem_back (Nat.le_of_not_lt hmid) (by omega)))
    exact ih hmid hhi hsize
  | case3 lo hi hlohi => omega

end Search

theorem decode_append_utf8Encode (front : ByteArray) (text : List Char) :
    decode (front ++ text.utf8Encode) front.size = text := by
  induction text generalizing front with
  | nil =>
    rw [decode, if_neg]
    simp
  | cons c text ih =>
    have hchar : (front ++ (c :: text).utf8Encode).utf8DecodeChar? front.size = some c := by
      rw [ByteArray.utf8DecodeChar?_eq_utf8DecodeChar?_extract, ByteArray.size_append,
        ByteArray.extract_append_eq_right rfl rfl]
      exact List.utf8DecodeChar?_utf8Encode_cons
    have hlt := ByteArray.lt_size_of_isSome_utf8DecodeChar? (Option.isSome_of_eq_some hchar)
    have hrest := ih (front ++ [c].utf8Encode)
    rw [ByteArray.append_assoc, ← List.utf8Encode_cons, ByteArray.size_append, List.utf8Encode_singleton,
      List.size_toByteArray, String.length_utf8EncodeChar] at hrest
    rw [decode, if_pos hlt, hchar]
    exact congrArg (c :: ·) hrest

theorem decode_bytes (text : List Char) : decode (bytes text).toByteArray 0 = text := by
  have h := decode_append_utf8Encode .empty text
  rwa [ByteArray.empty_append] at h

theorem lineStarts_append (front back : List Char) :
    lineStarts (front ++ back) = lineStarts front ++ lineStarts.go (bytes back) (byteLength front) := by
  rw [lineStarts, bytes_append, go_append, Nat.zero_add, length_bytes]
  rfl

theorem length_lineStarts (text : List Char) : (lineStarts text).length = text.count '\n' + 1 := by
  rw [lineStarts, List.length_cons, length_go, count_bytes]

theorem le_of_mem_lineStarts {text : List Char} {start : Nat} (h : start ∈ lineStarts text) :
    start ≤ byteLength text := by
  rcases List.mem_cons.1 h with rfl | h
  · exact Nat.zero_le _
  · have := bounds_of_mem_go h
    rw [length_bytes] at this
    omega

theorem exists_last_line (front : List Char) : ∃ head tail, front = head ++ tail ∧
    lineStarts front = lineStarts head ∧ (lineStarts head).getLast? = some (byteLength head) ∧
      (place front).2 = tail.length + 1 := by
  induction front using List.reverseRecOn with
  | nil => exact ⟨[], [], rfl, rfl, rfl, rfl⟩
  | append_singleton front c ih =>
    obtain ⟨head, tail, hfront, hstarts, hlast, hcolumn⟩ := ih
    rw [place_concat]
    split
    · next hc =>
      refine ⟨front ++ [c], [], (List.append_nil _).symm, rfl, ?_, rfl⟩
      subst hc
      rw [lineStarts_append, List.getLast?_append, ← length_bytes, ← length_bytes, bytes_append, List.length_append]
      rfl
    · next hc =>
      refine ⟨head, tail ++ [c], by rw [hfront, List.append_assoc], ?_, hlast, by rw [hcolumn, List.length_append]; rfl⟩
      rw [lineStarts_append, hstarts, List.append_right_eq_self]
      apply List.eq_nil_of_length_eq_zero
      rw [length_go, count_bytes]
      exact List.count_eq_zero.2 fun h => hc (List.mem_singleton.1 h).symm

theorem position_byteLength (front back : List Char) : position (front ++ back) (byteLength front) = place front := by
  obtain ⟨head, tail, hfront, hstarts, hlast, hcolumn⟩ := exists_last_line front
  have hsplit := lineStarts_append front back
  have hlength := length_lineStarts front
  have hsearch : bisectRight (lineStarts (front ++ back)).toArray (byteLength front) 0
      (lineStarts (front ++ back)).length = front.count '\n' + 1 := by
    rw [hsplit, ← hlength]
    apply bisectRight_eq
    · exact fun s hs => le_of_mem_lineStarts hs
    · exact fun s hs => (bounds_of_mem_go hs).1
    · exact Nat.zero_le _
    · rw [List.length_append]
      exact Nat.le_add_right _ _
    · exact Nat.le_refl _
  have hstart : (lineStarts (front ++ back)).toArray.getD (front.count '\n') 0 = byteLength head := by
    rw [List.getLast?_eq_getElem?, ← hstarts, hlength, Nat.add_sub_cancel] at hlast
    rw [Array.getD_eq_getD_getElem?, List.getElem?_toArray, hsplit, List.getElem?_append_left (by omega), hlast]
    rfl
  have hslice : ((bytes (front ++ back)).drop (byteLength head)).take (byteLength front - byteLength head)
      = bytes tail := by
    rw [← length_bytes, ← length_bytes, hfront]
    simp
  unfold position
  simp only [List.size_toArray, hsearch, Nat.add_sub_cancel, hstart, hslice, decode_bytes]
  rw [← hcolumn, Nat.add_comm]
  rfl

theorem lex_place_take {text : List Char} {i j : Nat} (hij : i < j) (hj : j ≤ text.length) :
    Prod.Lex (· < ·) (· < ·) (place (text.take i)) (place (text.take j)) := by
  induction j with
  | zero => omega
  | succ j ih =>
    rw [← List.take_append_getElem hj, place_concat]
    rcases Nat.lt_or_eq_of_le (Nat.le_of_lt_succ hij) with hlt | rfl
    · have hfront := ih hlt (by omega)
      split <;> omega
    · split <;> omega

/--
The number of bytes in front of a character is mapped to its line and column, and later characters have later places.
-/
theorem position_is_place_of_character (text : List Char) (i : Nat) (hi : i ≤ text.length) :
    position text (byteLength (text.take i)) = place (text.take i) ∧
      ∀ j < i, Prod.Lex (· < ·) (· < ·) (position text (byteLength (text.take j)))
        (position text (byteLength (text.take i))) := by
  have hposition (i : Nat) : position text (byteLength (text.take i)) = place (text.take i) := by
    have h := position_byteLength (text.take i) (text.drop i)
    rwa [List.take_append_drop] at h
  refine ⟨hposition i, fun j hj => ?_⟩
  rw [hposition i, hposition j]
  exact lex_place_take hj hi

theorem position_behind_line_break : 3 ≤ ['a', 'é', '\n', 'b'].length ∧ position ['a', 'é', '\n', 'b'] 4 = (2, 1) :=
  ⟨by decide, (position_is_place_of_character ['a', 'é', '\n', 'b'] 3 (by decide)).1⟩

end ContractFlow.SourceText
