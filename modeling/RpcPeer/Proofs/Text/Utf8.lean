import Mathlib.Tactic.SplitIfs
import RpcPeer.Text.Utf8

/-! The decoder of UTF-8 inverts the encoding of characters. -/
namespace RpcPeer.Text.Utf8

theorem announced_eq_some_iff {a : UInt8} {n : Nat} : announced a = some n ↔
    n = 1 ∧ a.toNat < 0x80 ∨ n = 2 ∧ 0xC2 ≤ a.toNat ∧ a.toNat ≤ 0xDF ∨
      n = 3 ∧ 0xE0 ≤ a.toNat ∧ a.toNat ≤ 0xEF ∨ n = 4 ∧ 0xF0 ≤ a.toNat ∧ a.toNat ≤ 0xF4 := by
  unfold announced
  simp only [UInt8.lt_iff_toNat_lt, UInt8.le_iff_toNat_le, Bool.and_eq_true, decide_eq_true_eq,
    UInt8.reduceToNat]
  split_ifs <;> simp <;> omega

theorem isTail_iff {b : UInt8} : isTail b = true ↔ 0x80 ≤ b.toNat ∧ b.toNat ≤ 0xBF := by
  simp only [isTail, UInt8.le_iff_toNat_le, Bool.and_eq_true, decide_eq_true_eq,
    UInt8.reduceToNat]

theorem isSecond_iff {a b : UInt8} : isSecond a b = true ↔
    (0x80 ≤ b.toNat ∧ b.toNat ≤ 0xBF) ∧ (a.toNat = 0xE0 → 0xA0 ≤ b.toNat) ∧
      (a.toNat = 0xED → b.toNat ≤ 0x9F) ∧ (a.toNat = 0xF0 → 0x90 ≤ b.toNat) ∧
      (a.toNat = 0xF4 → b.toNat ≤ 0x8F) := by
  have h : ∀ n : UInt8, (a == n) = true ↔ a.toNat = n.toNat := by
    intro n
    rw [beq_iff_eq, UInt8.toNat_inj]
  unfold isSecond secondRange
  simp only [h, UInt8.reduceToNat]
  split_ifs <;> simp only [UInt8.le_iff_toNat_le, Bool.and_eq_true, decide_eq_true_eq,
    UInt8.reduceToNat] <;> omega

/-- The bytes of the character with the code point `n`. -/
theorem encodeChar_ofNat {n : Nat} (h : n.isValidChar) :
    String.utf8EncodeChar (Char.ofNat n) =
      if n ≤ 127 then [UInt8.ofNat n]
      else if n ≤ 2047 then [UInt8.ofNat (n / 64 % 32 + 192), UInt8.ofNat (n % 64 + 128)]
      else if n ≤ 65535 then
        [UInt8.ofNat (n / 4096 % 16 + 224), UInt8.ofNat (n / 64 % 64 + 128),
          UInt8.ofNat (n % 64 + 128)]
      else
        [UInt8.ofNat (n / 262144 % 8 + 240), UInt8.ofNat (n / 4096 % 64 + 128),
          UInt8.ofNat (n / 64 % 64 + 128), UInt8.ofNat (n % 64 + 128)] := by
  have hn : (Char.ofNat n).val.toNat = n := by
    rw [Char.ofNat, dif_pos h]
    rfl
  rw [String.utf8EncodeChar.eq_def, hn]

theorem ofNat_eq {a : UInt8} {n : Nat} (h : n = a.toNat) : UInt8.ofNat n = a := by
  rw [h, UInt8.ofNat_toNat]

section
variable {a b c d : UInt8} {offset : Nat} {rest : List UInt8}

theorem encodeChar_one (ha : announced a = some 1) :
    String.utf8EncodeChar (Char.ofNat a.toNat) = [a] := by
  rw [announced_eq_some_iff] at ha
  rw [encodeChar_ofNat (.inl (by omega)), if_pos (by omega), UInt8.ofNat_toNat]

theorem encodeChar_two (ha : announced a = some 2) (hb : isSecond a b = true) :
    String.utf8EncodeChar (Char.ofNat (a.toNat % 32 * 64 + b.toNat % 64)) = [a, b] := by
  rw [announced_eq_some_iff] at ha
  rw [isSecond_iff] at hb
  rw [encodeChar_ofNat (.inl (by omega)), if_neg (by omega), if_pos (by omega),
    ofNat_eq (a := a) (by omega), ofNat_eq (a := b) (by omega)]

theorem encodeChar_three (ha : announced a = some 3) (hb : isSecond a b = true)
    (hc : isTail c = true) :
    String.utf8EncodeChar (Char.ofNat (a.toNat % 16 * 4096 + b.toNat % 64 * 64 + c.toNat % 64)) =
      [a, b, c] := by
  rw [announced_eq_some_iff] at ha
  rw [isSecond_iff] at hb
  rw [isTail_iff] at hc
  have hv : (a.toNat % 16 * 4096 + b.toNat % 64 * 64 + c.toNat % 64).isValidChar := by
    unfold Nat.isValidChar
    omega
  rw [encodeChar_ofNat hv, if_neg (by omega), if_neg (by omega), if_pos (by omega),
    ofNat_eq (a := a) (by omega), ofNat_eq (a := b) (by omega), ofNat_eq (a := c) (by omega)]

theorem encodeChar_four (ha : announced a = some 4) (hb : isSecond a b = true)
    (hc : isTail c = true) (hd : isTail d = true) :
    String.utf8EncodeChar (Char.ofNat (a.toNat % 8 * 262144 + b.toNat % 64 * 4096 +
      c.toNat % 64 * 64 + d.toNat % 64)) = [a, b, c, d] := by
  rw [announced_eq_some_iff] at ha
  rw [isSecond_iff] at hb
  rw [isTail_iff] at hc hd
  have hv : (a.toNat % 8 * 262144 + b.toNat % 64 * 4096 + c.toNat % 64 * 64 +
      d.toNat % 64).isValidChar := by
    unfold Nat.isValidChar
    omega
  rw [encodeChar_ofNat hv, if_neg (by omega), if_neg (by omega), if_neg (by omega),
    ofNat_eq (a := a) (by omega), ofNat_eq (a := b) (by omega), ofNat_eq (a := c) (by omega),
    ofNat_eq (a := d) (by omega)]

theorem decodeFrom_one (ha : announced a = some 1) : decodeFrom offset (a :: rest) =
    (decodeFrom (offset + 1) rest).map (Char.ofNat a.toNat :: ·) := by
  rw [decodeFrom.eq_def]
  simp only [ha]

theorem decodeFrom_two (ha : announced a = some 2) (hb : isSecond a b = true) :
    decodeFrom offset (a :: b :: rest) = (decodeFrom (offset + 2) rest).map
      (Char.ofNat (a.toNat % 32 * 64 + b.toNat % 64) :: ·) := by
  rw [decodeFrom.eq_def]
  simp only [ha, hb]
  rfl

theorem decodeFrom_three (ha : announced a = some 3) (hb : isSecond a b = true)
    (hc : isTail c = true) :
    decodeFrom offset (a :: b :: c :: rest) = (decodeFrom (offset + 3) rest).map
      (Char.ofNat (a.toNat % 16 * 4096 + b.toNat % 64 * 64 + c.toNat % 64) :: ·) := by
  rw [decodeFrom.eq_def]
  simp only [ha, hb, hc]
  rfl

theorem decodeFrom_four (ha : announced a = some 4) (hb : isSecond a b = true)
    (hc : isTail c = true) (hd : isTail d = true) :
    decodeFrom offset (a :: b :: c :: d :: rest) = (decodeFrom (offset + 4) rest).map
      (Char.ofNat (a.toNat % 8 * 262144 + b.toNat % 64 * 4096 + c.toNat % 64 * 64 + d.toNat % 64)
        :: ·) := by
  rw [decodeFrom.eq_def]
  simp only [ha, hb, hc, hd]
  rfl

end

/-- A byte below `0x80` stands for itself alone. -/
theorem toNat_of_mem_encodeChar {c : Char} {b : UInt8} (hb : b ∈ String.utf8EncodeChar c)
    (h : b.toNat < 0x80) : b.toNat = c.toNat := by
  have hv : c.toNat.isValidChar := c.valid
  -- which all bytes of a longer sequence are
  have high : ∀ k, 0x80 ≤ k → k < 256 → b ≠ UInt8.ofNat k := by
    intro k hk hk' he
    rw [he, UInt8.toNat_ofNat_of_lt' hk'] at h
    omega
  rw [← Char.ofNat_toNat c, encodeChar_ofNat hv] at hb
  split_ifs at hb with h1 h2 h3 <;> simp only [List.mem_cons, List.not_mem_nil, or_false] at hb
  · rw [hb, UInt8.toNat_ofNat_of_lt' (by simp only [UInt8.size]; omega)]
  · rcases hb with hb | hb <;> exact absurd hb (high _ (by omega) (by omega))
  · rcases hb with hb | hb | hb <;> exact absurd hb (high _ (by omega) (by omega))
  · rcases hb with hb | hb | hb | hb <;> exact absurd hb (high _ (by omega) (by omega))

theorem encode_cons (c : Char) (cs : List Char) :
    encode (c :: cs) = String.utf8EncodeChar c ++ encode cs := rfl

theorem encode_append (cs ds : List Char) : encode (cs ++ ds) = encode cs ++ encode ds :=
  List.flatMap_append

/-- The size of a string counts these bytes. -/
theorem length_encode (s : String) : (encode s.toList).length = s.utf8ByteSize := by
  have h : s.toList.utf8Encode.size = (encode s.toList).length := List.size_toByteArray
  rw [← h, String.utf8Encode_toList, String.utf8ByteSize]

/-- One character more in front of what the rest of the bytes give. -/
theorem encode_map {r : Except Malformed (List Char)} {c : Char} {cs : List Char}
    {bytes rest : List UInt8} (hc : String.utf8EncodeChar c = bytes)
    (ih : ∀ {ds}, r = .ok ds → encode ds = rest) (h : r.map (c :: ·) = .ok cs) :
    encode cs = bytes ++ rest := by
  cases r with
  | error e => exact absurd h (by simp [Except.map])
  | ok ds =>
    cases h
    rw [encode_cons, hc, ih rfl]

/-- Bytes that are decoded are the encoding of the characters they give. -/
theorem encode_of_decodeFrom {offset : Nat} {bytes : List UInt8} {cs : List Char}
    (h : decodeFrom offset bytes = .ok cs) : encode cs = bytes := by
  fun_induction decodeFrom offset bytes generalizing cs with
  | case1 =>
    cases h
    rfl
  | case3 offset a rest ha ih => exact encode_map (encodeChar_one ha) ih h
  | case6 offset a ha b rest hb ih => exact encode_map (encodeChar_two ha (by simpa using hb)) ih h
  | case11 offset a ha b c rest hb hc ih =>
    exact encode_map (encodeChar_three ha (by simpa using hb) (by simpa using hc)) ih h
  | case18 offset a n h1 h2 h3 ha b c d rest hb hc hd ih =>
    have hn : n = 4 := by
      rcases announced_eq_some_iff.mp ha with hn | hn | hn | hn
      · exact absurd hn.1 h1
      · exact absurd hn.1 h2
      · exact absurd hn.1 h3
      · exact hn.1
    exact encode_map (encodeChar_four (hn ▸ ha) (by simpa using hb) (by simpa using hc)
      (by simpa using hd)) ih h
  -- some byte is missing or out of its range
  | case2 | case4 | case5 | case7 | case8 | case9 | case10 | case12 | case13 | case14 | case15
  | case16 | case17 => cases h

theorem toNat_ofNat {k : Nat} (h : k < 256) : (UInt8.ofNat k).toNat = k :=
  UInt8.toNat_ofNat_of_lt' h

section
variable {n offset : Nat} {rest : List UInt8}

theorem decodeFrom_ofNat_one (h : n ≤ 127) :
    decodeFrom offset (UInt8.ofNat n :: rest) =
      (decodeFrom (offset + 1) rest).map (Char.ofNat n :: ·) := by
  have ha := toNat_ofNat (k := n) (by omega)
  have h1 : announced (UInt8.ofNat n) = some 1 := announced_eq_some_iff.mpr (by omega)
  rw [decodeFrom_one h1, ha]

theorem decodeFrom_ofNat_two (h : 127 < n) (h' : n ≤ 2047) :
    decodeFrom offset (UInt8.ofNat (n / 64 % 32 + 192) :: UInt8.ofNat (n % 64 + 128) :: rest) =
      (decodeFrom (offset + 2) rest).map (Char.ofNat n :: ·) := by
  have ha := toNat_ofNat (k := n / 64 % 32 + 192) (by omega)
  have hb := toNat_ofNat (k := n % 64 + 128) (by omega)
  have h1 : announced (UInt8.ofNat (n / 64 % 32 + 192)) = some 2 :=
    announced_eq_some_iff.mpr (by omega)
  have h2 : isSecond (UInt8.ofNat (n / 64 % 32 + 192)) (UInt8.ofNat (n % 64 + 128)) = true :=
    isSecond_iff.mpr (by omega)
  have hvalue : (n / 64 % 32 + 192) % 32 * 64 + (n % 64 + 128) % 64 = n := by omega
  rw [decodeFrom_two h1 h2, ha, hb, hvalue]

theorem decodeFrom_ofNat_three (h : 2047 < n) (h' : n ≤ 65535) (hv : n.isValidChar) :
    decodeFrom offset (UInt8.ofNat (n / 4096 % 16 + 224) :: UInt8.ofNat (n / 64 % 64 + 128) ::
        UInt8.ofNat (n % 64 + 128) :: rest) =
      (decodeFrom (offset + 3) rest).map (Char.ofNat n :: ·) := by
  unfold Nat.isValidChar at hv
  have ha := toNat_ofNat (k := n / 4096 % 16 + 224) (by omega)
  have hb := toNat_ofNat (k := n / 64 % 64 + 128) (by omega)
  have hc := toNat_ofNat (k := n % 64 + 128) (by omega)
  have h1 : announced (UInt8.ofNat (n / 4096 % 16 + 224)) = some 3 :=
    announced_eq_some_iff.mpr (by omega)
  have h2 : isSecond (UInt8.ofNat (n / 4096 % 16 + 224)) (UInt8.ofNat (n / 64 % 64 + 128)) =
      true := isSecond_iff.mpr (by omega)
  have h3 : isTail (UInt8.ofNat (n % 64 + 128)) = true := isTail_iff.mpr (by omega)
  have hvalue : (n / 4096 % 16 + 224) % 16 * 4096 + (n / 64 % 64 + 128) % 64 * 64 +
      (n % 64 + 128) % 64 = n := by omega
  rw [decodeFrom_three h1 h2 h3, ha, hb, hc, hvalue]

theorem decodeFrom_ofNat_four (h : 65535 < n) (hv : n.isValidChar) :
    decodeFrom offset (UInt8.ofNat (n / 262144 % 8 + 240) :: UInt8.ofNat (n / 4096 % 64 + 128) ::
        UInt8.ofNat (n / 64 % 64 + 128) :: UInt8.ofNat (n % 64 + 128) :: rest) =
      (decodeFrom (offset + 4) rest).map (Char.ofNat n :: ·) := by
  unfold Nat.isValidChar at hv
  have ha := toNat_ofNat (k := n / 262144 % 8 + 240) (by omega)
  have hb := toNat_ofNat (k := n / 4096 % 64 + 128) (by omega)
  have hc := toNat_ofNat (k := n / 64 % 64 + 128) (by omega)
  have hd := toNat_ofNat (k := n % 64 + 128) (by omega)
  have h1 : announced (UInt8.ofNat (n / 262144 % 8 + 240)) = some 4 :=
    announced_eq_some_iff.mpr (by omega)
  have h2 : isSecond (UInt8.ofNat (n / 262144 % 8 + 240)) (UInt8.ofNat (n / 4096 % 64 + 128)) =
      true := isSecond_iff.mpr (by omega)
  have h3 : isTail (UInt8.ofNat (n / 64 % 64 + 128)) = true := isTail_iff.mpr (by omega)
  have h4 : isTail (UInt8.ofNat (n % 64 + 128)) = true := isTail_iff.mpr (by omega)
  have hvalue : (n / 262144 % 8 + 240) % 8 * 262144 + (n / 4096 % 64 + 128) % 64 * 4096 +
      (n / 64 % 64 + 128) % 64 * 64 + (n % 64 + 128) % 64 = n := by omega
  rw [decodeFrom_four h1 h2 h3 h4, ha, hb, hc, hd, hvalue]

end

/-- The bytes of a character are read as that character, whatever comes after them. -/
theorem decodeFrom_encodeChar (c : Char) (offset : Nat) (rest : List UInt8) :
    ∃ next, decodeFrom offset (String.utf8EncodeChar c ++ rest) =
      (decodeFrom next rest).map (c :: ·) := by
  have hv : c.toNat.isValidChar := c.valid
  rw [← Char.ofNat_toNat c, encodeChar_ofNat hv]
  split_ifs with h1 h2 h3
  · exact ⟨_, decodeFrom_ofNat_one h1⟩
  · exact ⟨_, decodeFrom_ofNat_two (Nat.lt_of_not_le h1) h2⟩
  · exact ⟨_, decodeFrom_ofNat_three (Nat.lt_of_not_le h2) h3 hv⟩
  · exact ⟨_, decodeFrom_ofNat_four (Nat.lt_of_not_le h3) hv⟩

theorem decodeFrom_encode (offset : Nat) (cs : List Char) :
    decodeFrom offset (encode cs) = .ok cs := by
  induction cs generalizing offset with
  | nil => rfl
  | cons c cs ih =>
    obtain ⟨next, h⟩ := decodeFrom_encodeChar c offset (encode cs)
    rw [encode_cons, h, ih next]
    rfl

/-- Bytes are accepted exactly if they encode some characters. -/
theorem decode_eq_ok_iff {bytes : List UInt8} {cs : List Char} :
    decode bytes = .ok cs ↔ bytes = encode cs := by
  constructor
  · intro h
    exact (encode_of_decodeFrom h).symm
  · intro h
    rw [h]
    exact decodeFrom_encode 0 cs

end RpcPeer.Text.Utf8
