import ItemMapper.Text.Base64

/-!
# Base64 texts

What is written is read back, and only what is written is read: three bytes are four digits, and what is left over is
padded, with no bit set behind the last byte.
-/

namespace ItemMapper

/-- Bytes are read back from their text, and from no other one. -/
class LawfulByteTexts [ByteTexts] : Prop where
  read_write : ∀ bytes, ByteTexts.read (ByteTexts.write bytes) = some bytes
  write_of_read : ∀ bytes text, ByteTexts.read text = some bytes → ByteTexts.write bytes = text

namespace Base64

variable {c : Char} {n : Nat} {cs : List Char} {bytes : List UInt8} {p q r s : Char}

theorem of_value? (h : value? c = some n) : n < 64 ∧ digit n = c := by
  simp only [value?] at h
  split at h
  · obtain rfl := Option.some.inj h
    have hc : 65 + (c.toNat - 65) = c.toNat := by omega
    exact ⟨by omega, by rw [digit, if_pos (by omega), hc, Char.ofNat_toNat]⟩
  split at h
  · obtain rfl := Option.some.inj h
    have hc : 71 + (c.toNat - 71) = c.toNat := by omega
    exact ⟨by omega, by rw [digit, if_neg (by omega), if_pos (by omega), hc, Char.ofNat_toNat]⟩
  split at h
  · obtain rfl := Option.some.inj h
    have hc : c.toNat + 4 - 4 = c.toNat := by omega
    exact ⟨by omega, by rw [digit, if_neg (by omega), if_neg (by omega), if_pos (by omega), hc, Char.ofNat_toNat]⟩
  split at h
  · rename_i hplus
    obtain rfl := Option.some.inj h
    exact ⟨by omega, hplus.symm⟩
  split at h
  · rename_i hslash
    obtain rfl := Option.some.inj h
    exact ⟨by omega, hslash.symm⟩
  · cases h

theorem digit_ne_padding (h : n < 64) : digit n ≠ '=' := by
  intro he
  have hvalue := value?_digit n h
  rw [he] at hvalue
  cases hvalue

theorem toNat_ofNat (h : n < 256) : (UInt8.ofNat n).toNat = n := by
  rw [UInt8.toNat_ofNat']
  omega

theorem ofNat_eq {a : UInt8} (h : a.toNat = n) : UInt8.ofNat n = a := by
  rw [← h, UInt8.ofNat_toNat]

/-- Four digits are three bytes, at the end of a text as elsewhere. -/
theorem decode_group (cs : List Char) (hr : r ≠ '=') (hs : s ≠ '=') : decode (p :: q :: r :: s :: cs) = do
    let x ← value? p
    let y ← value? q
    let z ← value? r
    let w ← value? s
    let tail ← decode cs
    return UInt8.ofNat (x * 4 + y / 16) :: UInt8.ofNat (y % 16 * 16 + z / 4) :: UInt8.ofNat (z % 4 * 64 + w) :: tail := by
  cases cs with
  | nil => simp [decode, decodeLast, hr, hs]
  | cons c rest =>
    rw [decode]
    simp

theorem decode_encode (bytes : List UInt8) : decode (encode bytes) = some bytes := by
  induction bytes using encode.induct with
  | case1 => rfl
  | case2 a =>
    have ha := a.toNat_lt
    have hfirst : UInt8.ofNat (a.toNat / 4 * 4 + a.toNat % 4 * 16 / 16) = a := ofNat_eq (by omega)
    have hrest : a.toNat % 4 * 16 % 16 = 0 := by omega
    rw [encode, decode, decodeLast, value?_digit _ (by omega), value?_digit _ (by omega)]
    simp only [Option.bind_eq_bind, Option.bind_some, if_true, true_and, if_pos hrest, hfirst]
    rfl
  | case3 a b =>
    have ha := a.toNat_lt
    have hb := b.toNat_lt
    have hdigit : digit (b.toNat % 16 * 4) ≠ '=' := digit_ne_padding (by omega)
    have hfirst : UInt8.ofNat (a.toNat / 4 * 4 + (a.toNat % 4 * 16 + b.toNat / 16) / 16) = a := ofNat_eq (by omega)
    have hsecond : UInt8.ofNat ((a.toNat % 4 * 16 + b.toNat / 16) % 16 * 16 + b.toNat % 16 * 4 / 4) = b :=
      ofNat_eq (by omega)
    have hrest : b.toNat % 16 * 4 % 4 = 0 := by omega
    rw [encode, decode, decodeLast, value?_digit _ (by omega), value?_digit _ (by omega)]
    simp only [Option.bind_eq_bind, Option.bind_some, if_neg hdigit, value?_digit (b.toNat % 16 * 4) (by omega), if_true,
      if_pos hrest, hfirst, hsecond]
    rfl
  | case4 a b c rest ih =>
    have ha := a.toNat_lt
    have hb := b.toNat_lt
    have hc := c.toNat_lt
    have hfirst : UInt8.ofNat (a.toNat / 4 * 4 + (a.toNat % 4 * 16 + b.toNat / 16) / 16) = a := ofNat_eq (by omega)
    have hsecond : UInt8.ofNat ((a.toNat % 4 * 16 + b.toNat / 16) % 16 * 16 + (b.toNat % 16 * 4 + c.toNat / 64) / 4) = b :=
      ofNat_eq (by omega)
    have hthird : UInt8.ofNat ((b.toNat % 16 * 4 + c.toNat / 64) % 4 * 64 + c.toNat % 64) = c := ofNat_eq (by omega)
    rw [encode, decode_group _ (digit_ne_padding (by omega)) (digit_ne_padding (by omega)), value?_digit _ (by omega),
      value?_digit _ (by omega), value?_digit _ (by omega), value?_digit _ (by omega), ih]
    simp only [Option.bind_eq_bind, Option.bind_some, hfirst, hsecond, hthird]
    rfl

theorem encode_group {x y z w : Nat} (hx : x < 64) (hy : y < 64) (hz : z < 64) (hw : w < 64) (bytes : List UInt8) :
    encode (UInt8.ofNat (x * 4 + y / 16) :: UInt8.ofNat (y % 16 * 16 + z / 4) :: UInt8.ofNat (z % 4 * 64 + w) :: bytes) =
      digit x :: digit y :: digit z :: digit w :: encode bytes := by
  have hfirst : (x * 4 + y / 16) / 4 = x := by omega
  have hsecond : (x * 4 + y / 16) % 4 * 16 + (y % 16 * 16 + z / 4) / 16 = y := by omega
  have hthird : (y % 16 * 16 + z / 4) % 16 * 4 + (z % 4 * 64 + w) / 64 = z := by omega
  have hfourth : (z % 4 * 64 + w) % 64 = w := by omega
  rw [encode, toNat_ofNat (by omega), toNat_ofNat (by omega), toNat_ofNat (by omega), hfirst, hsecond, hthird, hfourth]

theorem encode_of_decodeLast (h : decodeLast p q r s = some bytes) : encode bytes = [p, q, r, s] := by
  obtain ⟨x, hp, hx⟩ := Option.bind_eq_some_iff.1 h
  obtain ⟨y, hq, hy⟩ := Option.bind_eq_some_iff.1 hx
  obtain ⟨hx64, rfl⟩ := of_value? hp
  obtain ⟨hy64, rfl⟩ := of_value? hq
  split at hy
  · rename_i hr
    split at hy
    · rename_i hs
      obtain rfl := Option.some.inj hy
      have hfirst : (x * 4 + y / 16) / 4 = x := by omega
      have hsecond : (x * 4 + y / 16) % 4 * 16 = y := by omega
      rw [encode, toNat_ofNat (by omega), hfirst, hsecond, hr, hs.1]
    · cases hy
  · obtain ⟨z, hr, hz⟩ := Option.bind_eq_some_iff.1 hy
    obtain ⟨hz64, rfl⟩ := of_value? hr
    split at hz
    · rename_i hs
      split at hz
      · rename_i hzero
        obtain rfl := Option.some.inj hz
        have hfirst : (x * 4 + y / 16) / 4 = x := by omega
        have hsecond : (x * 4 + y / 16) % 4 * 16 + (y % 16 * 16 + z / 4) / 16 = y := by omega
        have hthird : (y % 16 * 16 + z / 4) % 16 * 4 = z := by omega
        rw [encode, toNat_ofNat (by omega), toNat_ofNat (by omega), hfirst, hsecond, hthird, hs]
      · cases hz
    · obtain ⟨w, hs, hw⟩ := Option.bind_eq_some_iff.1 hz
      obtain ⟨hw64, rfl⟩ := of_value? hs
      obtain rfl := Option.some.inj hw
      exact encode_group hx64 hy64 hz64 hw64 []

theorem encode_of_decode (h : decode cs = some bytes) : encode bytes = cs := by
  induction cs using decode.induct generalizing bytes with
  | case1 =>
    obtain rfl := Option.some.inj h
    rfl
  | case2 p q r s => exact encode_of_decodeLast h
  | case3 p q r s rest hne ih =>
    rw [decode.eq_3 _ _ _ _ _ hne] at h
    obtain ⟨x, hp, hx⟩ := Option.bind_eq_some_iff.1 h
    obtain ⟨y, hq, hy⟩ := Option.bind_eq_some_iff.1 hx
    obtain ⟨z, hr, hz⟩ := Option.bind_eq_some_iff.1 hy
    obtain ⟨w, hs, hw⟩ := Option.bind_eq_some_iff.1 hz
    obtain ⟨tail, htail, hbytes⟩ := Option.bind_eq_some_iff.1 hw
    obtain ⟨hx64, rfl⟩ := of_value? hp
    obtain ⟨hy64, rfl⟩ := of_value? hq
    obtain ⟨hz64, rfl⟩ := of_value? hr
    obtain ⟨hw64, rfl⟩ := of_value? hs
    obtain rfl := Option.some.inj hbytes
    rw [encode_group hx64 hy64 hz64 hw64, ih htail]
  | case4 cs h₁ h₂ h₃ =>
    rw [decode] at h
    · cases h
    all_goals assumption

theorem decodeText_encodeText (bytes : List UInt8) : decodeText (encodeText bytes) = some bytes := by
  rw [decodeText, encodeText, String.toList_ofList, decode_encode]

theorem encodeText_of_decodeText {text : String} (h : decodeText text = some bytes) : encodeText bytes = text := by
  rw [encodeText, encode_of_decode h, String.ofList_toList]

end Base64

instance : LawfulByteTexts := ⟨Base64.decodeText_encodeText, fun _ _ => Base64.encodeText_of_decodeText⟩

end ItemMapper
