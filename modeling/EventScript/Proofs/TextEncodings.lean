import EventScript.Text.Base64
import EventScript.Text.Utf8

/-!
# Text encodings

What bytes are written as in base64 is read as the bytes, and what a text is written as in UTF-8 is read as the text.
Both are read piece by piece, whatever comes after the piece: of base64, whole groups are read on past, and padding ends
the reading.
-/

namespace EventScript.Text.Base64

/-! ### Base64 -/

theorem digit?_digit {n : Nat} (h : n < 64) : digit? (digit n) = some n := by
  revert n
  decide

theorem digit_ascii {n : Nat} (h : n < 64) : (digit n).toNat < 128 := by
  revert n
  decide

theorem digit_ne_pad {n : Nat} (h : n < 64) : digit n ≠ '=' := by
  revert n
  decide

theorem decodeFrom_digit (k : Cursor) {n : Nat} (h : n < 64) (rest : List Char) :
    decodeFrom k (digit n :: rest) = decodeFrom (k.push n) rest := by
  rw [decodeFrom, if_neg (digit_ne_pad h), digit?_digit h]

theorem push_first (out : List UInt8) (a : UInt8) (low : Nat) (h : low < 16) :
    (Cursor.push { bytes := out } (a.toNat / 4)).push (a.toNat % 4 * 16 + low) =
      { place := 2, bits := low, bytes := a :: out } := by
  have ha := a.toNat_lt
  have hbyte : a.toNat / 4 * 4 + (a.toNat % 4 * 16 + low) / 16 = a.toNat := by omega
  have hbits : (a.toNat % 4 * 16 + low) % 16 = low := by omega
  simp only [Cursor.push, hbyte, hbits, UInt8.ofNat_toNat]

theorem push_second (out : List UInt8) (b : UInt8) (low : Nat) (h : low < 4) :
    Cursor.push { place := 2, bits := b.toNat / 16, bytes := out } (b.toNat % 16 * 4 + low) =
      { place := 3, bits := low, bytes := b :: out } := by
  have hb := b.toNat_lt
  have hbyte : b.toNat / 16 * 16 + (b.toNat % 16 * 4 + low) / 4 = b.toNat := by omega
  have hbits : (b.toNat % 16 * 4 + low) % 4 = low := by omega
  simp only [Cursor.push, hbyte, hbits, UInt8.ofNat_toNat]

theorem push_third (out : List UInt8) (c : UInt8) :
    Cursor.push { place := 3, bits := c.toNat / 64, bytes := out } (c.toNat % 64) = { bytes := c :: out } := by
  have hbyte : c.toNat / 64 * 64 + c.toNat % 64 = c.toNat := by omega
  simp only [Cursor.push, hbyte, UInt8.ofNat_toNat]

/-- Reading what bytes are written as. Whole groups of three are read on past; after any other number of bytes the
padding ends the reading, whatever comes. -/
theorem decodeFrom_encode (out bytes : List UInt8) (rest : List Char) :
    decodeFrom { bytes := out } (encode bytes ++ rest) =
      if bytes.length % 3 = 0 then decodeFrom { bytes := bytes.reverse ++ out } rest
      else .ok (out.reverse ++ bytes) := by
  fun_induction encode bytes generalizing out with
  | case1 => rfl
  | case2 a =>
    have ha := a.toNat_lt
    have hpush := push_first out a 0 (by omega)
    simp only [List.cons_append, List.nil_append, Nat.add_zero] at hpush ⊢
    rw [decodeFrom_digit _ (by omega), decodeFrom_digit _ (by omega), hpush]
    simp [decodeFrom]
  | case3 a b =>
    have ha := a.toNat_lt
    have hb := b.toNat_lt
    have hpush := push_second (a :: out) b 0 (by omega)
    simp only [List.cons_append, List.nil_append, Nat.add_zero] at hpush ⊢
    rw [decodeFrom_digit _ (by omega), decodeFrom_digit _ (by omega), push_first out a _ (by omega)]
    rw [decodeFrom_digit _ (by omega), hpush]
    simp [decodeFrom]
  | case4 a b c more ih =>
    have ha := a.toNat_lt
    have hb := b.toNat_lt
    have hc := c.toNat_lt
    simp only [List.cons_append]
    rw [decodeFrom_digit _ (by omega), decodeFrom_digit _ (by omega), push_first out a _ (by omega)]
    rw [decodeFrom_digit _ (by omega), push_second (a :: out) b _ (by omega)]
    rw [decodeFrom_digit _ (by omega), push_third, ih]
    simp [Nat.add_assoc]

/-- What is written is ASCII. -/
theorem encode_ascii (bytes : List UInt8) : ∀ c ∈ encode bytes, c.toNat < 128 := by
  fun_induction encode bytes with
  | case1 => nofun
  | case2 a =>
    have ha := a.toNat_lt
    simp only [List.forall_mem_cons]
    exact ⟨digit_ascii (by omega), digit_ascii (by omega), by decide, by decide, nofun⟩
  | case3 a b =>
    have ha := a.toNat_lt
    have hb := b.toNat_lt
    simp only [List.forall_mem_cons]
    exact ⟨digit_ascii (by omega), digit_ascii (by omega), digit_ascii (by omega), by decide, nofun⟩
  | case4 a b c more ih =>
    have ha := a.toNat_lt
    have hb := b.toNat_lt
    have hc := c.toNat_lt
    simp only [List.forall_mem_cons]
    exact ⟨digit_ascii (by omega), digit_ascii (by omega), digit_ascii (by omega), digit_ascii (by omega), ih⟩

/-- Four characters for each group of three bytes, the last one filled up. -/
theorem length_encode (bytes : List UInt8) : (encode bytes).length = (bytes.length + 2) / 3 * 4 := by
  fun_induction encode bytes with
  | case1 => rfl
  | case2 a => simp
  | case3 a b => simp
  | case4 a b c more ih =>
    simp only [List.length_cons, ih]
    omega

theorem encode_eq_nil {bytes : List UInt8} : encode bytes = [] ↔ bytes = [] := by
  rw [← List.length_eq_zero_iff, ← List.length_eq_zero_iff, length_encode]
  omega

/-- The paddings among the last two characters fill up the last group. -/
theorem padding_encode (bytes : List UInt8) :
    ((encode bytes).drop ((encode bytes).length - 2)).count '=' = (bytes.length + 2) / 3 * 3 - bytes.length := by
  fun_induction encode bytes with
  | case1 => rfl
  | case2 a => simp
  | case3 a b =>
    have hne : digit (b.toNat % 16 * 4) ≠ '=' := digit_ne_pad (by omega)
    simp [hne]
  | case4 a b c more ih =>
    have hc := c.toNat_lt
    have hne : digit (b.toNat % 16 * 4 + c.toNat / 64) ≠ '=' := digit_ne_pad (by omega)
    have hne' : digit (c.toNat % 64) ≠ '=' := digit_ne_pad (by omega)
    by_cases hmore : more = []
    · subst hmore
      simp [encode, hne, hne']
    · have hlen := length_encode more
      have hpos := List.length_pos_iff.mpr hmore
      have hdrop : (encode more).length + 1 + 1 + 1 + 1 - 2 = (encode more).length - 2 + 4 := by omega
      simp only [List.length_cons, hdrop, List.drop_succ_cons, ih]
      omega

theorem decode_of_ascii {cs : List Char} (h : ∀ c ∈ cs, c.toNat < 128) : decode cs = decodeFrom {} cs := by
  unfold decode
  rw [if_pos]
  simpa using h

/-- What bytes are written as is read as the bytes. -/
theorem decode_encode (bytes : List UInt8) : decode (encode bytes) = .ok bytes := by
  rw [decode_of_ascii (encode_ascii bytes)]
  have h := decodeFrom_encode [] bytes []
  rw [List.append_nil, List.append_nil] at h
  rw [h]
  split
  · simp [decodeFrom, Cursor.finish]
  · rfl

end EventScript.Text.Base64

namespace EventScript.Text.Utf8

/-! ### UTF-8 -/

theorem code_lt (c : Char) : c.toNat < 0x110000 := by
  rcases c.valid with h | h
  · exact Nat.lt_trans h (by decide)
  · exact h.2

/-- The bytes of a character are those of its standard encoding. -/
theorem encodeChar_eq (c : Char) : encodeChar c = String.utf8EncodeChar c := by
  have hn := code_lt c
  have hval : c.val.toNat = c.toNat := rfl
  unfold encodeChar String.utf8EncodeChar
  simp only [hval]
  rcases Nat.lt_or_ge c.toNat 0x80 with h | h₁
  · rw [if_pos h, if_pos (Nat.le_of_lt_succ h)]
  rw [if_neg (Nat.not_lt.mpr h₁), if_neg (show ¬c.toNat ≤ 127 by omega)]
  rcases Nat.lt_or_ge c.toNat 0x800 with h | h₂
  · rw [if_pos h, if_pos (Nat.le_of_lt_succ h), show c.toNat / 64 % 32 = c.toNat / 64 by omega]
    simp only [Nat.add_comm]
  rw [if_neg (Nat.not_lt.mpr h₂), if_neg (show ¬c.toNat ≤ 2047 by omega)]
  rcases Nat.lt_or_ge c.toNat 0x10000 with h | h₃
  · rw [if_pos h, if_pos (Nat.le_of_lt_succ h), show c.toNat / 4096 % 16 = c.toNat / 4096 by omega]
    simp only [Nat.add_comm]
  · rw [if_neg (Nat.not_lt.mpr h₃), if_neg (show ¬c.toNat ≤ 65535 by omega)]
    rw [show c.toNat / 262144 % 8 = c.toNat / 262144 by omega]
    simp only [Nat.add_comm]

theorem encode_toList (s : String) : encode s.toList = s.toByteArray.data.toList := by
  have hchars : encode s.toList = s.toList.flatMap String.utf8EncodeChar := by
    unfold encode
    rw [funext encodeChar_eq]
  have hbytes : s.toByteArray = (s.toList.flatMap String.utf8EncodeChar).toByteArray := by
    have h : (String.ofList s.toList).toByteArray = s.toList.utf8Encode := String.toByteArray_ofList
    rw [String.ofList_toList] at h
    exact h
  rw [hchars, hbytes, List.toList_data_toByteArray]

theorem length_encode_toList (s : String) : (encode s.toList).length = s.utf8ByteSize := by
  rw [encode_toList, Array.length_toList]
  exact String.size_toByteArray

/-- A byte that continues a character brings its six bits. -/
theorem continuation_cons {need share low high bits : Nat} (hbits : bits < 64) (hlow : low ≤ 0x80 + bits)
    (hhigh : 0x80 + bits ≤ high) (rest : List UInt8) :
    continuation (need + 1) share low high (UInt8.ofNat (0x80 + bits) :: rest) =
      ((continuation need (64 * share + bits) 0x80 0xbf rest).1,
        (continuation need (64 * share + bits) 0x80 0xbf rest).2 + 1) := by
  have hbyte : (UInt8.ofNat (0x80 + bits)).toNat = 0x80 + bits := by
    refine UInt8.toNat_ofNat_of_lt' ?_
    simp only [UInt8.size]
    omega
  have hsix : (0x80 + bits) % 64 = bits := by omega
  rw [continuation, hbyte, if_pos (by simp [hlow, hhigh]), hsix]

theorem decodeFrom_lead {b : Nat} (hb : 0x80 ≤ b) (hlt : b < 256) {l : Lead} (hl : lead? b = some l)
    (rest : List UInt8) :
    decodeFrom 0 (UInt8.ofNat b :: rest) =
      (continuation l.more l.share l.low l.high rest).1.getD replacement ::
        decodeFrom (continuation l.more l.share l.low l.high rest).2 rest := by
  have hbyte : (UInt8.ofNat b).toNat = b := UInt8.toNat_ofNat_of_lt' hlt
  have hnot : ¬UInt8.ofNat b < 0x80 := by
    rw [UInt8.lt_iff_toNat_lt, hbyte]
    exact Nat.not_lt.mpr hb
  rw [decodeFrom, if_neg hnot, hbyte, hl]

/-! A character of one to four bytes, with the number `n`. What the lead byte allows after it keeps out longer ways to
write the character, halves of pairs, and what is past the last character. -/

section Lengths

variable {n : Nat} (rest : List UInt8)

theorem decodeFrom_one (h : n < 0x80) : decodeFrom 0 (UInt8.ofNat n :: rest) = Char.ofNat n :: decodeFrom 0 rest := by
  have hbyte : (UInt8.ofNat n).toNat = n := UInt8.toNat_ofNat_of_lt' (Nat.lt_trans h (by decide))
  have hlow : UInt8.ofNat n < 0x80 := by
    rw [UInt8.lt_iff_toNat_lt, hbyte]
    exact h
  rw [decodeFrom, if_pos hlow, hbyte]

theorem decodeFrom_two (h₁ : 0x80 ≤ n) (h : n < 0x800) :
    decodeFrom 0 (UInt8.ofNat (0xc0 + n / 64) :: UInt8.ofNat (0x80 + n % 64) :: rest) =
      Char.ofNat n :: decodeFrom 0 rest := by
  have hlead : lead? (0xc0 + n / 64) = some ⟨1, n / 64, 0x80, 0xbf⟩ := by
    unfold lead?
    rw [if_neg (by omega), if_pos (by omega), Nat.add_sub_cancel_left]
  have hcode : 64 * (n / 64) + n % 64 = n := Nat.div_add_mod n 64
  rw [decodeFrom_lead (by omega) (by omega) hlead]
  dsimp only
  rw [continuation_cons (Nat.mod_lt _ (by decide)) (by omega) (by omega), hcode]
  simp [continuation, decodeFrom]

theorem decodeFrom_three (h₂ : 0x800 ≤ n) (h : n < 0x10000) (hsurrogate : n < 0xd800 ∨ 0xdfff < n) :
    decodeFrom 0 (UInt8.ofNat (0xe0 + n / 4096) :: UInt8.ofNat (0x80 + n / 64 % 64) :: UInt8.ofNat (0x80 + n % 64) ::
      rest) = Char.ofNat n :: decodeFrom 0 rest := by
  have hlead : lead? (0xe0 + n / 4096) = some ⟨2, n / 4096, if 0xe0 + n / 4096 = 0xe0 then 0xa0 else 0x80,
      if 0xe0 + n / 4096 = 0xed then 0x9f else 0xbf⟩ := by
    unfold lead?
    rw [if_neg (by omega), if_neg (by omega), if_pos (by omega), Nat.add_sub_cancel_left]
    simp
  have hcode : 64 * (64 * (n / 4096) + n / 64 % 64) + n % 64 = n := by omega
  rw [decodeFrom_lead (by omega) (by omega) hlead]
  dsimp only
  rw [continuation_cons (Nat.mod_lt _ (by decide)) (by split <;> omega) (by split <;> omega)]
  rw [continuation_cons (Nat.mod_lt _ (by decide)) (by omega) (by omega), hcode]
  simp [continuation, decodeFrom]

theorem decodeFrom_four (h₃ : 0x10000 ≤ n) (h : n < 0x110000) :
    decodeFrom 0 (UInt8.ofNat (0xf0 + n / 262144) :: UInt8.ofNat (0x80 + n / 4096 % 64) ::
      UInt8.ofNat (0x80 + n / 64 % 64) :: UInt8.ofNat (0x80 + n % 64) :: rest) = Char.ofNat n :: decodeFrom 0 rest := by
  have hlead : lead? (0xf0 + n / 262144) = some ⟨3, n / 262144, if 0xf0 + n / 262144 = 0xf0 then 0x90 else 0x80,
      if 0xf0 + n / 262144 = 0xf4 then 0x8f else 0xbf⟩ := by
    unfold lead?
    rw [if_neg (by omega), if_neg (by omega), if_neg (by omega), if_pos (by omega), Nat.add_sub_cancel_left]
    simp
  have hcode : 64 * (64 * (64 * (n / 262144) + n / 4096 % 64) + n / 64 % 64) + n % 64 = n := by omega
  rw [decodeFrom_lead (by omega) (by omega) hlead]
  dsimp only
  rw [continuation_cons (Nat.mod_lt _ (by decide)) (by split <;> omega) (by split <;> omega)]
  rw [continuation_cons (Nat.mod_lt _ (by decide)) (by omega) (by omega)]
  rw [continuation_cons (Nat.mod_lt _ (by decide)) (by omega) (by omega), hcode]
  simp [continuation, decodeFrom]

end Lengths

/-- The bytes of a character are read as the character, whatever comes after them. -/
theorem decodeFrom_encodeChar (c : Char) (rest : List UInt8) :
    decodeFrom 0 (encodeChar c ++ rest) = c :: decodeFrom 0 rest := by
  have hn := code_lt c
  have hsurrogate : c.toNat < 0xd800 ∨ 0xdfff < c.toNat := c.valid.imp_right And.left
  have hc : Char.ofNat c.toNat = c := Char.ofNat_toNat c
  generalize hcode : c.toNat = n at hn hsurrogate hc
  unfold encodeChar
  simp only [hcode]
  rw [← hc]
  rcases Nat.lt_or_ge n 0x80 with h | h₁
  · rw [if_pos h]
    exact decodeFrom_one rest h
  rw [if_neg (Nat.not_lt.mpr h₁)]
  rcases Nat.lt_or_ge n 0x800 with h | h₂
  · rw [if_pos h]
    exact decodeFrom_two rest h₁ h
  rw [if_neg (Nat.not_lt.mpr h₂)]
  rcases Nat.lt_or_ge n 0x10000 with h | h₃
  · rw [if_pos h]
    exact decodeFrom_three rest h₂ h hsurrogate
  · rw [if_neg (Nat.not_lt.mpr h₃)]
    exact decodeFrom_four rest h₃ hn

theorem decode_encode (cs : List Char) : decode (encode cs) = cs := by
  unfold decode encode
  induction cs with
  | nil => rfl
  | cons c rest ih => rw [List.flatMap_cons, decodeFrom_encodeChar, ih]

end EventScript.Text.Utf8
