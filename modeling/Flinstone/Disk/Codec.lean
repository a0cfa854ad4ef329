import Flinstone.Disk.RoundTrip
import Flinstone.Lib.Buffer

/-! # The hexadecimal codec -/

namespace Flinstone.Disk
open Flinstone.Lib List Option

def encodeText (data : Text) (clusterSize : Nat) (result : Text) : Option Text :=
  (List.range' 0 clusterSize).foldlM (fun result i => storeAt result (i * 2) (textPair data i ++ ['\x00'])) result

def encodeDigits (data : Text) (hexLen : Nat) (result : Text) : Option Text :=
  let provided := min data.length hexLen
  (storeAt result 0 (data.take provided)).bind fun result =>
    ((List.range' provided (hexLen - provided)).foldlM (fun result i => storeAt result i ['0']) result).bind
      fun result => storeAt result hexLen ['\x00']

/-- `result` is the block of `hexLen + 1` bytes, with any bytes in it. -/
def convertDataToHexIn (result data : Text) (inputIsText : Bool) (clusterSize : Nat) : Option Text :=
  let hexLen := clusterSize * 2
  let encoded :=
    if inputIsText then encodeText (counted (cstr data)) clusterSize result
    -- a negative length is copied as a huge one
    else if strlenInt (cstr data) < 0 then none
    else encodeDigits (counted (cstr data)) hexLen result
  encoded.bind fun result => storeAt result hexLen ['\x00']

def asciiOf (byte : Octet) : Char := if isprint byte then Char.ofNat byte.toNat else '.'

def convertHexToAscii (hexData : Text) (clusterSize : Nat) : Text :=
  (detailBytes clusterSize hexData).map asciiOf

variable (data : Text)

theorem length_textPair (i : Nat) : (textPair data i).length = 2 := by
  unfold textPair
  split
  · exact length_hex02_byte (BitVec.ofNat 8 (data.getD i '\x00').toNat)
  · rfl

theorem encodeText_passes (n i : Nat) (front back : Text) (filled : front.length = i * 2)
    (room : back.length = n * 2 + 1) :
    ∃ last, (range' i n).foldlM (fun result i => storeAt result (i * 2) (textPair data i ++ ['\x00']))
      (front ++ back) = some (front ++ (range' i n).flatMap (textPair data) ++ [last]) := by
  induction n generalizing i front back with
  | zero =>
    obtain ⟨last, rfl⟩ := length_eq_one_iff.mp room
    exact ⟨last, by simp⟩
  | succ n ih =>
    have pair : (textPair data i ++ ['\x00']).length = 3 := by
      rw [length_append, length_textPair, length_singleton]
    have stored := storeAt_behind filled back (textPair data i ++ ['\x00']) (by omega)
    have split : front ++ (textPair data i ++ ['\x00']) ++ back.drop (textPair data i ++ ['\x00']).length =
        (front ++ textPair data i) ++ ('\x00' :: back.drop 3) := by
      rw [pair]
      simp
    rw [split] at stored
    obtain ⟨last, run⟩ := ih (i + 1) (front ++ textPair data i) ('\x00' :: back.drop 3)
      (by rw [length_append, length_textPair, filled]; omega)
      (by rw [length_cons, length_drop]; omega)
    refine ⟨last, ?_⟩
    rw [range'_succ, foldlM_cons, stored, flatMap_cons]
    simpa using run

theorem encodeDigits_passes (n i : Nat) (front back : Text) (filled : front.length = i) (room : n ≤ back.length) :
    (range' i n).foldlM (fun result i => storeAt result i ['0']) (front ++ back) =
      some (front ++ replicate n '0' ++ back.drop n) := by
  induction n generalizing i front back with
  | zero => simp
  | succ n ih =>
    have stored := storeAt_behind filled back ['0'] (by rw [length_singleton]; omega)
    have run := ih (i + 1) (front ++ ['0']) (back.drop 1)
      (by rw [length_append, filled, length_singleton]) (by rw [length_drop]; omega)
    rw [range'_succ, foldlM_cons, stored]
    simpa [replicate_succ, Nat.add_comm] using run

theorem storeAt_last {front : Text} {n : Nat} (filled : front.length = n) (last : Char) :
    storeAt (front ++ [last]) n ['\x00'] = some (front ++ ['\x00']) := by
  rw [storeAt_behind filled [last] ['\x00'] (le_refl 1)]
  simp

variable {clusterSize : Nat} {result : Text} {bytes : List Octet}

theorem encodeText_eq (room : result.length = clusterSize * 2 + 1) :
    ∃ last, encodeText data clusterSize result = some ((range clusterSize).flatMap (textPair data) ++ [last]) := by
  obtain ⟨last, run⟩ := encodeText_passes data clusterSize 0 [] result rfl room
  refine ⟨last, run.trans ?_⟩
  rw [← range_eq_range']
  rfl

theorem encodeDigits_eq {hexLen : Nat} (room : result.length = hexLen + 1) :
    encodeDigits data hexLen result =
      some (data.take hexLen ++ replicate (hexLen - data.length) '0' ++ ['\x00']) := by
  have provided : (data.take hexLen).length = min data.length hexLen := by
    rw [length_take, min_comm]
  have copied := storeAt_behind (length_nil : ([] : Text).length = 0) result (data.take hexLen) (by omega)
  obtain ⟨back, rest⟩ : ∃ back, result.drop (data.take hexLen).length = back := ⟨_, rfl⟩
  have behind : back.length = hexLen - min data.length hexLen + 1 := by
    rw [← rest, length_drop, provided]
    omega
  rw [nil_append, nil_append, rest] at copied
  have zeros := encodeDigits_passes (hexLen - min data.length hexLen) _ (data.take hexLen) back provided (by omega)
  obtain ⟨last, ends⟩ := length_eq_one_iff.mp
    (show (back.drop (hexLen - min data.length hexLen)).length = 1 by rw [length_drop]; omega)
  have count : hexLen - min data.length hexLen = hexLen - data.length := by omega
  have filled : (data.take hexLen ++ replicate (hexLen - data.length) '0').length = hexLen := by
    rw [length_append, provided, length_replicate]
    omega
  rw [ends, count] at zeros
  rw [encodeDigits, ← min_comm hexLen, ← take_eq_take_min, copied, bind_some, min_comm hexLen,
    count, zeros, bind_some]
  exact storeAt_last filled last

theorem length_convertDataToHex (inputIsText : Bool) (clusterSize : Nat) :
    (convertDataToHex data inputIsText clusterSize).length = clusterSize * 2 := by
  cases inputIsText with
  | true =>
    rw [convertDataToHex, if_pos rfl, length_flatMap]
    simp [length_textPair]
  | false =>
    rw [convertDataToHex, if_neg Bool.false_ne_true, length_append, length_take, length_replicate]
    omega

theorem convertDataToHexIn_eq {inputIsText : Bool} (counts : inputIsText ∨ 0 ≤ strlenInt (cstr data))
    (room : result.length = clusterSize * 2 + 1) :
    convertDataToHexIn result data inputIsText clusterSize =
      some (convertDataToHex (cstr data) inputIsText clusterSize ++ ['\x00']) := by
  have filled := length_convertDataToHex (cstr data) inputIsText clusterSize
  cases inputIsText with
  | true =>
    obtain ⟨last, run⟩ := encodeText_eq (counted (cstr data)) room
    rw [convertDataToHexIn, if_pos rfl, run, bind_some]
    exact storeAt_last filled last
  | false =>
    have plain := not_lt.mpr (counts.resolve_left Bool.false_ne_true)
    rw [convertDataToHexIn, if_neg Bool.false_ne_true, if_neg plain, encodeDigits_eq _ room, bind_some]
    exact storeAt_last filled '\x00'

/-! ## The length as an `int` -/

section Length
variable {data : Text}

theorem strlenInt_of_lt (short : data.length < 2 ^ 31) : strlenInt data = data.length := by
  rw [strlenInt, BitVec.toInt_ofNat', Int.bmod_def]
  omega

theorem strlenInt_lt (long : 2 ^ 31 ≤ data.length) : strlenInt data < data.length := by
  rw [strlenInt, BitVec.toInt_ofNat', Int.bmod_def]
  omega

theorem counted_of_lt (short : data.length < 2 ^ 31) : counted data = data := by
  rw [counted, strlenInt_of_lt short, Int.toNat_natCast, take_length]

end Length

def bytesText (bytes : List Octet) : Text := bytes.map fun byte => Char.ofNat byte.toNat

def padded (bytes : List Octet) (clusterSize : Nat) : List Octet :=
  bytes.take clusterSize ++ List.replicate (clusterSize - bytes.length) 0

def isUpperHex (c : Char) : Bool := '0' ≤ c && c ≤ '9' || 'A' ≤ c && c ≤ 'F'

theorem length_padded (bytes : List Octet) (clusterSize : Nat) : (padded bytes clusterSize).length = clusterSize := by
  rw [padded, length_append, length_take, length_replicate]
  omega

theorem toNat_byteChar (byte : Octet) : (Char.ofNat byte.toNat).toNat = byte.toNat := by
  have small : byte.toNat.isValidChar := .inl (by have := byte.isLt; omega)
  rw [Char.ofNat, dif_pos small]
  rfl

theorem bytesText_clean (clean : 0 ∉ bytes) : '\x00' ∉ bytesText bytes := by
  intro member
  obtain ⟨byte, inside, nul⟩ := mem_map.mp member
  have zero : byte.toNat = 0 := by rw [← toNat_byteChar, nul]; rfl
  have null : byte = 0 := BitVec.eq_of_toNat_eq (zero.trans rfl)
  exact clean (null ▸ inside)

theorem padded_eq (bytes : List Octet) (clusterSize : Nat) :
    padded bytes clusterSize = (range clusterSize).map fun i => bytes.getD i 0 := by
  apply ext_getElem
  · rw [length_padded, length_map, length_range]
  · intro i inside _
    rw [length_padded] at inside
    by_cases given : i < bytes.length
    · simp [padded, given, inside]
    · simp [padded, getElem_append, given]

theorem textPair_bytesText (bytes : List Octet) (i : Nat) :
    textPair (bytesText bytes) i = hex02 (bytes.getD i 0).toNat := by
  by_cases given : i < bytes.length
  · have char : (bytesText bytes).getD i '\x00' = Char.ofNat bytes[i].toNat := by
      simp [bytesText, given]
    rw [textPair, if_pos (by simpa [bytesText] using given), char, toNat_byteChar, getD_eq_getElem _ _ given,
      Nat.mod_eq_of_lt bytes[i].isLt]
  · rw [textPair, if_neg (by simpa [bytesText] using given), getD_eq_default _ _ (by omega)]
    rfl

theorem counted_bytesText (bytes : List Octet) :
    counted (bytesText bytes) = bytesText (bytes.take (strlenInt (bytesText bytes)).toNat) := by
  rw [counted, bytesText, ← map_take]
  rfl

theorem convertDataToHex_bytesText (bytes : List Octet) (clusterSize : Nat) :
    convertDataToHex (bytesText bytes) true clusterSize =
      hexBytes (padded (bytes.take (strlenInt (bytesText bytes)).toNat) clusterSize) := by
  rw [convertDataToHex, if_pos rfl, counted_bytesText, padded_eq, hexBytes, flatMap_map]
  exact flatMap_congr fun i _ => textPair_bytesText _ i

/-- The bytes are not 0, so a zero behind the counted ones shows. -/
theorem padded_take_iff (clean : 0 ∉ bytes) (count : Nat) :
    padded (bytes.take count) clusterSize = padded bytes clusterSize ↔ bytes.length ≤ count ∨ clusterSize ≤ count := by
  rw [padded_eq, padded_eq, map_inj_left]
  constructor
  · intro same
    by_contra short
    rw [not_or, not_le, not_le] at short
    have here := same count (mem_range.mpr short.2)
    rw [getD_eq_default _ _ (by rw [length_take]; omega), getD_eq_getElem _ _ short.1] at here
    exact clean (here ▸ getElem_mem short.1)
  · intro enough i member
    have inside := mem_range.mp member
    rcases enough with all | room
    · rw [take_of_length_le all]
    · rw [getD_eq_getElem?_getD, getD_eq_getElem?_getD, getElem?_take_of_lt (by omega)]

theorem asciiOf_take_iff (count : Nat) :
    (padded (bytes.take count) clusterSize).map asciiOf = (padded bytes clusterSize).map asciiOf ↔
      ∀ byte ∈ (bytes.take clusterSize).drop count, asciiOf byte = '.' := by
  have blank : asciiOf 0 = '.' := by decide
  rw [padded_eq, padded_eq, List.map_map, List.map_map, map_inj_left]
  constructor
  · intro same byte member
    obtain ⟨i, inside, rfl⟩ := mem_iff_getElem.mp member
    rw [length_drop, length_take] at inside
    have here := same (count + i) (mem_range.mpr (by omega))
    rw [Function.comp, Function.comp, getD_eq_default _ _ (by rw [length_take]; omega), blank,
      getD_eq_getElem _ _ (by omega)] at here
    rw [getElem_drop, getElem_take, here]
  · intro dots i member
    have inside := mem_range.mp member
    rw [Function.comp, Function.comp]
    rcases lt_or_ge i count with before | behind
    · rw [getD_eq_getElem?_getD, getD_eq_getElem?_getD, getElem?_take_of_lt before]
    · rw [getD_eq_default _ _ (by rw [length_take]; omega), blank]
      rcases lt_or_ge i bytes.length with given | past
      · rw [getD_eq_getElem _ _ given]
        refine (dots _ (mem_iff_getElem.mpr ⟨i - count, by rw [length_drop, length_take]; omega, ?_⟩)).symm
        rw [getElem_drop, getElem_take]
        congr 1
        omega
      · rw [getD_eq_default _ _ past, blank]

theorem isUpperHex_hexBytes {c : Char} (member : c ∈ hexBytes bytes) : isUpperHex c := by
  have all : ∀ d < 16, isUpperHex (Nat.digitChar d).toUpper := by decide
  obtain ⟨byte, _, digit⟩ := mem_flatMap.mp member
  obtain ⟨d, small, rfl⟩ := mem_hex02 digit
  exact all d small

theorem detailBytes_exact {size : Nat} {hexData : Text} (len : hexData.length = 2 * size) :
    detailBytes size hexData = decodeHex size hexData := by
  apply map_congr_left
  intro i member
  have inside := mem_range.mp member
  rw [if_pos (by omega)]

/-- What the digits of a text are, and what both readers and the encoder itself make of them. -/
def Coded (bytes : List Octet) (clusterSize : Nat) (result : Text) : Prop :=
  ∃ digits, convertDataToHexIn result (bytesText bytes) true clusterSize = some (digits ++ ['\x00']) ∧
    digits.length = 2 * clusterSize ∧ (∀ c ∈ digits, isUpperHex c) ∧
    (clusterSize ≤ 512 → loadBytes clusterSize digits = some (padded bytes clusterSize)) ∧
    convertHexToAscii digits clusterSize = (padded bytes clusterSize).map asciiOf ∧
    ∀ fresh, fresh.length = clusterSize * 2 + 1 →
      convertDataToHexIn fresh digits false clusterSize = some (digits ++ ['\x00'])

/-- The length fits an `int`; or the `int` made of it covers the cluster; or no reader shows what is cut off. -/
def Counts (bytes : List Octet) (clusterSize : Nat) : Prop :=
  bytes.length < 2 ^ 31 ∨ clusterSize ≤ (strlenInt (bytesText bytes)).toNat ∨
    512 < clusterSize ∧ ∀ byte ∈ (bytes.take clusterSize).drop (strlenInt (bytesText bytes)).toNat, asciiOf byte = '.'

theorem coded_digits (clean : 0 ∉ bytes) (room : result.length = clusterSize * 2 + 1) :
    convertDataToHexIn result (bytesText bytes) true clusterSize =
      some (hexBytes (padded (bytes.take (strlenInt (bytesText bytes)).toNat) clusterSize) ++ ['\x00']) := by
  rw [convertDataToHexIn_eq _ (.inl rfl) room, cstr_eq_self (bytesText_clean clean), convertDataToHex_bytesText]

theorem convertHexToAscii_padded (bytes : List Octet) (clusterSize : Nat) :
    convertHexToAscii (hexBytes (padded bytes clusterSize)) clusterSize = (padded bytes clusterSize).map asciiOf := by
  have full := length_padded bytes clusterSize
  rw [convertHexToAscii, detailBytes_exact (by rw [length_hexBytes, full]), decodeHex_of_length full]

theorem counts_iff (clean : 0 ∉ bytes) :
    Counts bytes clusterSize ↔
      if clusterSize ≤ 512 then
        padded (bytes.take (strlenInt (bytesText bytes)).toNat) clusterSize = padded bytes clusterSize
      else (padded (bytes.take (strlenInt (bytesText bytes)).toNat) clusterSize).map asciiOf =
        (padded bytes clusterSize).map asciiOf := by
  have long : (bytesText bytes).length = bytes.length := length_map _
  obtain ⟨count, value⟩ : ∃ count, (strlenInt (bytesText bytes)).toNat = count := ⟨_, rfl⟩
  have whole : bytes.length < 2 ^ 31 ↔ bytes.length ≤ count := by
    rcases lt_or_ge (bytesText bytes).length (2 ^ 31) with short | past
    · have := strlenInt_of_lt short
      omega
    · have := strlenInt_lt past
      omega
  rw [Counts, value, whole]
  split_ifs with small
  · rw [padded_take_iff clean]
    simp [not_lt.mpr small]
  · rw [asciiOf_take_iff]
    constructor
    · rintro (all | covered | ⟨_, dots⟩)
      · simp [drop_of_length_le (show (bytes.take clusterSize).length ≤ count by rw [length_take]; omega)]
      · simp [drop_of_length_le (show (bytes.take clusterSize).length ≤ count by rw [length_take]; omega)]
      · exact dots
    · exact fun dots => .inr (.inr ⟨by omega, dots⟩)

theorem hex_codec_iff (bytes : List Octet) (clean : 0 ∉ bytes) (clusterSize : Nat)
    (fits : 2 * clusterSize < 2 ^ 31) (result : Text) (room : result.length = clusterSize * 2 + 1) :
    Coded bytes clusterSize result ↔ Counts bytes clusterSize := by
  obtain ⟨seen, cut⟩ : ∃ seen, bytes.take (strlenInt (bytesText bytes)).toNat = seen := ⟨_, rfl⟩
  have digits := coded_digits clean room
  have full := length_padded seen clusterSize
  have len : (hexBytes (padded seen clusterSize)).length = 2 * clusterSize := by rw [length_hexBytes, full]
  have loaded (small : clusterSize ≤ 512) :
      loadBytes clusterSize (hexBytes (padded seen clusterSize)) = some (padded seen clusterSize) := by
    rw [loadBytes_exact small len, decodeHex_of_length full]
  rw [counts_iff clean, cut]
  rw [cut] at digits
  constructor
  · rintro ⟨found, encoded, _, _, loads, ascii, _⟩
    obtain rfl := append_cancel_right (some.inj (digits.symm.trans encoded))
    split_ifs with small
    · exact some.inj ((loaded small).symm.trans (loads small))
    · rw [← convertHexToAscii_padded, ascii]
  · intro same
    refine ⟨_, digits, len, fun c member => isUpperHex_hexBytes member, fun small => ?_, ?_, fun fresh space => ?_⟩
    · rw [if_pos small] at same
      rw [loaded small, same]
    · rw [convertHexToAscii_padded]
      split_ifs at same with small
      · rw [same]
      · exact same
    · have tight : Tight (hexBytes (padded seen clusterSize)) :=
        tight_of_isxdigit fun c member => isxdigit_hexBytes member
      have short : (hexBytes (padded seen clusterSize)).length < 2 ^ 31 := by omega
      rw [convertDataToHexIn_eq _ (.inr (by rw [tight.cstr, strlenInt_of_lt short]; omega)) space, tight.cstr,
        convertDataToHex, if_neg Bool.false_ne_true, counted_of_lt short,
        take_of_length_le (by omega), len, mul_comm, Nat.sub_self, replicate_zero, append_nil]

theorem hex_codec_small :
    ∃ digits, convertDataToHexIn (replicate 7 '?') (bytesText [0x41, 0xE9]) true 3 = some (digits ++ ['\x00']) ∧
      loadBytes 3 digits = some [0x41, 0xE9, 0] ∧ convertHexToAscii digits 3 = "A..".toList := by
  obtain ⟨digits, encoded, _, _, loaded, ascii, _⟩ :=
    (hex_codec_iff [0x41, 0xE9] (by decide) 3 (by decide) (replicate 7 '?') rfl).mpr (.inl (by decide))
  exact ⟨digits, encoded, loaded (by decide), ascii.trans (by decide)⟩

theorem not_coded_of_uncounted {count : Nat} (given : 0 < count)
    (lost : (strlenInt (bytesText (replicate count 0x41))).toNat = 0) :
    ¬ Coded (replicate count 0x41) 1 "???".toList ∧
      convertDataToHexIn "???".toList (bytesText (replicate count 0x41)) true 1 = some ("00".toList ++ ['\x00']) := by
  have clean : (0 : Octet) ∉ replicate count 0x41 := fun member => absurd (eq_of_mem_replicate member) (by decide)
  have digits := coded_digits clean (show "???".toList.length = 1 * 2 + 1 from rfl)
  rw [lost, take_zero] at digits
  refine ⟨?_, digits⟩
  rintro ⟨found, encoded, _, _, loads, _⟩
  obtain rfl := append_cancel_right (some.inj (digits.symm.trans encoded))
  have other : padded (replicate count 0x41) 1 = [0x41] := by
    rw [padded_eq]
    simp [range_succ, given]
  rw [other] at loads
  exact absurd (loads (by decide)) (by decide)

/-- `strlen` of 2 GiB is no `int`: the encoder counts less than nothing. -/
theorem hex_codec_long : ¬ Coded (replicate (2 ^ 31) 0x41) 1 "???".toList ∧
    convertDataToHexIn "???".toList (bytesText (replicate (2 ^ 31) 0x41)) true 1 = some ("00".toList ++ ['\x00']) := by
  refine not_coded_of_uncounted (by decide) ?_
  rw [strlenInt, bytesText, length_map, length_replicate]
  decide

end Flinstone.Disk
