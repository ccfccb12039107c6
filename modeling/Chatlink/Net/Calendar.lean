import Chatlink.Lib.Calendar
import Chatlink.Lib.Characters
import Chatlink.Net.Der

/-!
# Times of certificates

A certificate's validity is two texts of digits. The time of a text is that of its date in the calendar, but the fields
are read one by one: a sign in front of the year's digits is one of a number, and the day is held against the longest
months only. So a text is judged right exactly where its year is written in digits and its month has its day.
-/
namespace Chatlink.Net

open Calendar

/-- Eras of 400 years count the same days as years with their leap days. -/
theorem era_days (y : ℤ) : y / 400 * 146097 + (y - y / 400 * 400) * 365 + (y - y / 400 * 400) / 4 -
    (y - y / 400 * 400) / 100 = 365 * y + y / 4 - y / 100 + y / 400 := by
  have h4 : (y - y / 400 * 400) / 4 = y / 4 - y / 400 * 100 := by omega
  have h100 : (y - y / 400 * 400) / 100 = y / 100 - y / 400 * 4 := by omega
  rw [h4, h100]
  ring

theorem daysFromCivil_eq (y : ℕ) {m d : ℕ} (hm : 1 ≤ m) (hm12 : m ≤ 12) (hd : 1 ≤ d) :
    daysFromCivil y m d = daysFromEpoch y m d := by
  have hyear := yearStart_eq y
  have hmonth := monthStart_eq y hm hm12
  unfold daysFromCivil
  rw [daysFromEpoch, dayNumber_epoch, dayNumber]
  push_cast [Nat.cast_sub hd]
  by_cases h : m ≤ 2
  · have hz : (m : ℤ) ≤ 2 := by exact_mod_cast h
    rw [if_pos h] at hmonth
    simp only [if_pos hz, era_days]
    linarith
  · have hz : ¬(m : ℤ) ≤ 2 := by exact_mod_cast h
    have hleap := leap_day y
    rw [if_neg h] at hmonth
    simp only [if_neg hz, era_days]
    linarith

/-! ## Times as certificates write them -/

/-- A number below 100 in two digits. -/
def twoDigits (n : ℕ) : List UInt8 := [UInt8.ofNat (0x30 + n / 10), UInt8.ofNat (0x30 + n % 10)]

/-- What follows the year: month, day, hour, minute and second, then `Z`. -/
def clockText (month day hour minute second : ℕ) : List UInt8 :=
  twoDigits month ++ twoDigits day ++ twoDigits hour ++ twoDigits minute ++ twoDigits second ++ [0x5a]

/-- The year as a `UTCTime` writes it, from 1950 to 2049, or a `GeneralizedTime`, in four digits. -/
def YearDigits (tag : UInt8) (ys : List UInt8) (y : ℕ) : Prop :=
  (tag = 0x17 ∧ 1950 ≤ y ∧ y < 2050 ∧ ys = twoDigits (y % 100)) ∨
    (tag = 0x18 ∧ y < 10000 ∧ ys = twoDigits (y / 100) ++ twoDigits (y % 100))

/-- `text` is the time `t` in DER. -/
def Encodes (tag : UInt8) (text : List UInt8) (t : CivilTime) : Prop :=
  ∃ ys, YearDigits tag ys t.year ∧ text = ys ++ clockText t.month t.day t.hour t.minute t.second

/-- The year that is read from its field, which may have a sign. -/
def YearField (tag : UInt8) (ys : List UInt8) (year : ℤ) : Prop :=
  (tag = 0x17 ∧ ys.length = 2 ∧ ∃ yy, parseInt ys = some yy ∧ year = if yy < 50 then 2000 + yy else 1900 + yy) ∨
    (tag = 0x18 ∧ ys.length = 4 ∧ parseInt ys = some year)

/-- Five fields in their ranges, the day in that of the longest months. -/
def InRange (month day hour minute second : ℕ) : Prop :=
  1 ≤ month ∧ month ≤ 12 ∧ 1 ≤ day ∧ day ≤ 31 ∧ hour < 24 ∧ minute < 60 ∧ second < 60

section Digits

variable {a b : UInt8} {n : ℕ}

theorem isDigit_iff : isDigit b = true ↔ 0x30 ≤ b.toNat ∧ b.toNat ≤ 0x39 := by
  simp [isDigit, UInt8.le_iff_toNat_le]

theorem digit_toNat (h : n < 10) : (UInt8.ofNat (0x30 + n)).toNat = 0x30 + n := by
  rw [UInt8.toNat_ofNat']
  omega

theorem isDigit_digit (h : n < 10) : isDigit (UInt8.ofNat (0x30 + n)) = true := by
  rw [isDigit_iff, digit_toNat h]
  omega

theorem all_twoDigits (h : n < 100) : (twoDigits n).all isDigit = true := by
  have h1 := isDigit_digit (n := n / 10) (by omega)
  have h2 := isDigit_digit (n := n % 10) (by omega)
  rw [twoDigits, List.all_cons, List.all_cons, h1, h2]
  rfl

theorem parseInt_of_isDigit {ds : List UInt8} (h : ds.all isDigit = true) : parseInt ds = digits ds := by
  unfold parseInt
  split
  · exact absurd h (by simp [isDigit])
  · exact absurd h (by simp [isDigit])
  · rfl

theorem parseInt_two (ha : isDigit a = true) (hb : isDigit b = true) :
    parseInt [a, b] = some ((10 * (a.toNat - 48) + (b.toNat - 48) : ℕ) : ℤ) := by
  rw [parseInt_of_isDigit (by simp [ha, hb]), digits, if_pos (by simp [ha, hb])]
  simp [mul_comm]

theorem parseInt_twoDigits (h : n < 100) : parseInt (twoDigits n) = some (n : ℤ) := by
  rw [twoDigits, parseInt_two (isDigit_digit (by omega)) (isDigit_digit (by omega)), digit_toNat (by omega),
    digit_toNat (by omega)]
  congr 2
  omega

/-- Two digits are the two digits of what they spell. -/
theorem exists_twoDigits (ha : isDigit a = true) (hb : isDigit b = true) :
    ∃ n, n < 100 ∧ [a, b] = twoDigits n := by
  rw [isDigit_iff] at ha hb
  refine ⟨10 * (a.toNat - 48) + (b.toNat - 48), by omega, ?_⟩
  have h10 : 0x30 + (10 * (a.toNat - 48) + (b.toNat - 48)) / 10 = a.toNat := by omega
  have h1 : 0x30 + (10 * (a.toNat - 48) + (b.toNat - 48)) % 10 = b.toNat := by omega
  rw [twoDigits, h10, h1, UInt8.ofNat_toNat, UInt8.ofNat_toNat]

theorem twoDigits_inj {m : ℕ} (hn : n < 100) (hm : m < 100) (h : twoDigits n = twoDigits m) : n = m := by
  have hn' := parseInt_twoDigits hn
  rw [h, parseInt_twoDigits hm] at hn'
  exact_mod_cast (Option.some.inj hn').symm

theorem parseInt_four {p q : ℕ} (hp : p < 100) (hq : q < 100) :
    parseInt (twoDigits p ++ twoDigits q) = some ((100 * p + q : ℕ) : ℤ) := by
  have hall : (twoDigits p ++ twoDigits q).all isDigit = true := by
    rw [List.all_append, all_twoDigits hp, all_twoDigits hq]
    rfl
  rw [parseInt_of_isDigit hall, digits, if_pos ⟨by simp [twoDigits], hall⟩]
  simp only [twoDigits, List.cons_append, List.nil_append, List.foldl_cons, List.foldl_nil,
    digit_toNat (show p / 10 < 10 by omega), digit_toNat (show p % 10 < 10 by omega),
    digit_toNat (show q / 10 < 10 by omega), digit_toNat (show q % 10 < 10 by omega)]
  congr 1
  omega

end Digits

/-! ## Years -/

section Years

variable {tag : UInt8} {ys text : List UInt8} {y : ℕ} {year : ℤ}

theorem YearDigits.all (h : YearDigits tag ys y) : ys.all isDigit = true := by
  obtain ⟨-, -, -, rfl⟩ | ⟨-, hlt, rfl⟩ := h
  · exact all_twoDigits (by omega)
  · rw [List.all_append, all_twoDigits (by omega), all_twoDigits (by omega)]
    rfl

theorem YearDigits.field (h : YearDigits tag ys y) : YearField tag ys y := by
  obtain ⟨rfl, hge, hlt, rfl⟩ | ⟨rfl, hlt, rfl⟩ := h
  · refine .inl ⟨rfl, rfl, _, parseInt_twoDigits (by omega), ?_⟩
    split_ifs <;> omega
  · refine .inr ⟨rfl, rfl, ?_⟩
    rw [parseInt_four (by omega) (by omega)]
    congr 2
    omega

/-- A year field of digits alone is a year as it is written. -/
theorem YearField.digits (h : YearField tag ys year) (hall : ys.all isDigit = true) :
    ∃ y : ℕ, year = y ∧ YearDigits tag ys y := by
  obtain ⟨rfl, hlen, yy, hyy, rfl⟩ | ⟨rfl, hlen, hyear⟩ := h
  · obtain ⟨a, b, rfl⟩ := List.length_eq_two.mp hlen
    obtain ⟨n, hn, hab⟩ := exists_twoDigits (a := a) (b := b) (by simp_all) (by simp_all)
    rw [hab, parseInt_twoDigits hn] at hyy
    obtain rfl := Option.some.inj hyy
    by_cases h50 : n < 50
    · refine ⟨2000 + n, by rw [if_pos (by omega)]; rfl, .inl ⟨rfl, by omega, by omega, ?_⟩⟩
      rw [hab]
      congr 1
      omega
    · refine ⟨1900 + n, by rw [if_neg (by omega)]; rfl, .inl ⟨rfl, by omega, by omega, ?_⟩⟩
      rw [hab]
      congr 1
      omega
  · match ys, hlen with
    | [a, b, c, d], _ =>
      obtain ⟨p, hp, hab⟩ := exists_twoDigits (a := a) (b := b) (by simp_all) (by simp_all)
      obtain ⟨q, hq, hcd⟩ := exists_twoDigits (a := c) (b := d) (by simp_all) (by simp_all)
      have hys : [a, b, c, d] = twoDigits p ++ twoDigits q := by rw [← hab, ← hcd]; rfl
      rw [hys, parseInt_four hp hq] at hyear
      refine ⟨100 * p + q, (Option.some.inj hyear).symm, .inr ⟨rfl, by omega, ?_⟩⟩
      rw [hys]
      congr 2 <;> omega

theorem YearField.unique {year' : ℤ} (h : YearField tag ys year) (h' : YearField tag ys year') : year = year' := by
  obtain ⟨rfl, -, yy, hyy, rfl⟩ | ⟨rfl, -, hyear⟩ := h
  · obtain ⟨-, -, yy', hyy', rfl⟩ | ⟨htag, -, -⟩ := h'
    · rw [Option.some.inj (hyy.symm.trans hyy')]
    · exact absurd htag (by decide)
  · obtain ⟨htag, -, -⟩ | ⟨-, -, hyear'⟩ := h'
    · exact absurd htag (by decide)
    · exact Option.some.inj (hyear.symm.trans hyear')

theorem YearField.length {ys' : List UInt8} {year' : ℤ} (h : YearField tag ys year)
    (h' : YearField tag ys' year') : ys.length = ys'.length := by
  obtain ⟨rfl, hlen, -⟩ | ⟨rfl, hlen, -⟩ := h
  · obtain ⟨-, hlen', -⟩ | ⟨htag, -, -⟩ := h'
    · rw [hlen, hlen']
    · exact absurd htag (by decide)
  · obtain ⟨htag, -, -⟩ | ⟨-, hlen', -⟩ := h'
    · exact absurd htag (by decide)
    · rw [hlen, hlen']

end Years

/-! ## Reading a time -/

section Decoding

variable {tag : UInt8} {text ys rest : List UInt8} {year t : ℤ} {m d h mi s : ℕ}

theorem decodeYear_eq_some_iff : decodeYear tag text = some (year, rest) ↔
    ∃ ys, YearField tag ys year ∧ text = ys ++ rest ∧ rest.length = 11 := by
  unfold decodeYear
  constructor
  · intro heq
    split_ifs at heq with h17 h18
    · obtain ⟨yy, hyy, heq⟩ := Option.map_eq_some_iff.mp heq
      obtain ⟨rfl, rfl⟩ := Prod.mk.inj heq
      refine ⟨text.take 2, .inl ⟨h17.1, by simp [h17.2], yy, hyy, rfl⟩, ?_, by simp [h17.2]⟩
      exact (List.take_append_drop 2 text).symm
    · obtain ⟨y, hy, heq⟩ := Option.map_eq_some_iff.mp heq
      obtain ⟨rfl, rfl⟩ := Prod.mk.inj heq
      refine ⟨text.take 4, .inr ⟨h18.1, by simp [h18.2], hy⟩, ?_, by simp [h18.2]⟩
      exact (List.take_append_drop 4 text).symm
  · rintro ⟨ys, hys, rfl, hlen⟩
    obtain ⟨rfl, hlen2, yy, hyy, rfl⟩ | ⟨rfl, hlen4, hyear⟩ := hys
    · rw [if_pos ⟨rfl, by rw [List.length_append, hlen2, hlen]⟩, ← hlen2, List.take_left, List.drop_left, hyy]
      rfl
    · rw [if_neg fun htag => absurd htag.1 (by decide), if_pos ⟨rfl, by rw [List.length_append, hlen4, hlen]⟩, ← hlen4,
        List.take_left, List.drop_left, hyear]
      rfl

/-- Ten digits and a `Z` are five fields. -/
theorem exists_clockText (hlen : rest.length = 11) (hlast : rest.getLast? = some 0x5a)
    (hall : (rest.take 10).all isDigit = true) :
    ∃ m d h mi s, m < 100 ∧ d < 100 ∧ h < 100 ∧ mi < 100 ∧ s < 100 ∧ rest = clockText m d h mi s := by
  match rest, hlen with
  | [a0, a1, b0, b1, c0, c1, d0, d1, e0, e1, z], _ =>
    obtain rfl : z = 0x5a := Option.some.inj hlast
    simp only [List.take_succ_cons, List.take_zero, List.all_cons, List.all_nil, Bool.and_true,
      Bool.and_eq_true] at hall
    obtain ⟨ha0, ha1, hb0, hb1, hc0, hc1, hd0, hd1, he0, he1⟩ := hall
    obtain ⟨m, hm, ha⟩ := exists_twoDigits ha0 ha1
    obtain ⟨d, hd, hb⟩ := exists_twoDigits hb0 hb1
    obtain ⟨h, hh, hc⟩ := exists_twoDigits hc0 hc1
    obtain ⟨mi, hmi, hd'⟩ := exists_twoDigits hd0 hd1
    obtain ⟨s, hs, he⟩ := exists_twoDigits he0 he1
    refine ⟨m, d, h, mi, s, hm, hd, hh, hmi, hs, ?_⟩
    rw [clockText, ← ha, ← hb, ← hc, ← hd', ← he]
    rfl

theorem clockText_reads (hm : m < 100) (hd : d < 100) (hh : h < 100) (hmi : mi < 100) (hs : s < 100) :
    (clockText m d h mi s).getLast? = some 0x5a ∧ ((clockText m d h mi s).take 10).all isDigit = true ∧
      (clockText m d h mi s).length = 11 := by
  refine ⟨rfl, ?_, rfl⟩
  have htake : (clockText m d h mi s).take 10 =
      twoDigits m ++ twoDigits d ++ twoDigits h ++ twoDigits mi ++ twoDigits s := rfl
  rw [htake]
  simp only [List.all_append, all_twoDigits, hm, hd, hh, hmi, hs, Bool.and_self]

theorem clockText_inj {m' d' h' mi' s' : ℕ} (hm : m < 100) (hd : d < 100) (hh : h < 100) (hmi : mi < 100)
    (hs : s < 100) (hm' : m' < 100) (hd' : d' < 100) (hh' : h' < 100) (hmi' : mi' < 100) (hs' : s' < 100)
    (heq : clockText m d h mi s = clockText m' d' h' mi' s') :
    m = m' ∧ d = d' ∧ h = h' ∧ mi = mi' ∧ s = s' := by
  simp only [clockText, List.append_assoc] at heq
  obtain ⟨h1, heq⟩ := List.append_inj heq rfl
  obtain ⟨h2, heq⟩ := List.append_inj heq rfl
  obtain ⟨h3, heq⟩ := List.append_inj heq rfl
  obtain ⟨h4, heq⟩ := List.append_inj heq rfl
  obtain ⟨h5, -⟩ := List.append_inj heq rfl
  exact ⟨twoDigits_inj hm hm' h1, twoDigits_inj hd hd' h2, twoDigits_inj hh hh' h3, twoDigits_inj hmi hmi' h4,
    twoDigits_inj hs hs' h5⟩

/-- A text of ASCII is UTF-8. -/
theorem validateUTF8_of_ascii (hascii : ∀ b ∈ text, b.toNat < 0x80) :
    ByteArray.validateUTF8 ⟨text.toArray⟩ = true := by
  rw [ByteArray.validateUTF8_eq_true_iff]
  refine ⟨text.map Utf8.ascii, ?_⟩
  have hone : ∀ b ∈ text, String.utf8EncodeChar (Utf8.ascii b) = [b] := by
    intro b hb
    have hlt := hascii b hb
    rw [Utf8.utf8_one (by rw [Utf8.toNat_ascii]; omega), Utf8.toNat_ascii, UInt8.ofNat_toNat]
  have hbytes : (text.map Utf8.ascii).flatMap String.utf8EncodeChar = text := by
    rw [List.flatMap_map, List.flatMap_congr hone, List.flatMap_singleton']
  rw [List.utf8Encode, hbytes]
  exact ByteArray.ext (List.data_toByteArray).symm

theorem ascii_of_isDigit {ds : List UInt8} (hall : ds.all isDigit = true) : ∀ b ∈ ds, b.toNat < 0x80 := by
  intro b hb
  have hdigit := isDigit_iff.mp (List.all_eq_true.mp hall b hb)
  omega

theorem digits_eq_some {ds : List UInt8} {n : ℤ} (hds : digits ds = some n) : ds.all isDigit = true := by
  unfold digits at hds
  split_ifs at hds with hall
  exact hall.2

theorem ascii_of_parseInt {ds : List UInt8} {n : ℤ} (hds : parseInt ds = some n) : ∀ b ∈ ds, b.toNat < 0x80 := by
  unfold parseInt at hds
  split at hds
  · exact List.forall_mem_cons.mpr ⟨by decide, ascii_of_isDigit (digits_eq_some hds)⟩
  · obtain ⟨k, hk, -⟩ := Option.map_eq_some_iff.mp hds
    exact List.forall_mem_cons.mpr ⟨by decide, ascii_of_isDigit (digits_eq_some hk)⟩
  · exact ascii_of_isDigit (digits_eq_some hds)

theorem YearField.ascii (hys : YearField tag ys year) : ∀ b ∈ ys, b.toNat < 0x80 := by
  obtain ⟨-, -, yy, hyy, -⟩ | ⟨-, -, hyear⟩ := hys
  · exact ascii_of_parseInt hyy
  · exact ascii_of_parseInt hyear

theorem InRange.lt (hin : InRange m d h mi s) : m < 100 ∧ d < 100 ∧ h < 100 ∧ mi < 100 ∧ s < 100 := by
  unfold InRange at hin
  omega

/-- The seconds that are computed from a year and five fields. -/
def civilSeconds (year : ℤ) (m d h mi s : ℕ) : ℤ :=
  daysFromCivil year m d * 86400 + h * 3600 + mi * 60 + s

/-- What is read, and as what. -/
theorem decodeTime_eq_some_iff : decodeTime tag text = some t ↔
    ∃ ys year m d h mi s, YearField tag ys year ∧ InRange m d h mi s ∧ text = ys ++ clockText m d h mi s ∧
      t = civilSeconds year m d h mi s := by
  have hfields {m d h mi s : ℕ} (hm : m < 100) (hd : d < 100) (hh : h < 100) (hmi : mi < 100) (hs : s < 100) :
      (parseInt (((clockText m d h mi s).drop (2 * 0)).take 2)).getD 99 = (m : ℤ) ∧
        (parseInt (((clockText m d h mi s).drop (2 * 1)).take 2)).getD 99 = (d : ℤ) ∧
        (parseInt (((clockText m d h mi s).drop (2 * 2)).take 2)).getD 99 = (h : ℤ) ∧
        (parseInt (((clockText m d h mi s).drop (2 * 3)).take 2)).getD 99 = (mi : ℤ) ∧
        (parseInt (((clockText m d h mi s).drop (2 * 4)).take 2)).getD 99 = (s : ℤ) := by
    refine ⟨?_, ?_, ?_, ?_, ?_⟩
    · exact congrArg (Option.getD · 99) (parseInt_twoDigits hm)
    · exact congrArg (Option.getD · 99) (parseInt_twoDigits hd)
    · exact congrArg (Option.getD · 99) (parseInt_twoDigits hh)
    · exact congrArg (Option.getD · 99) (parseInt_twoDigits hmi)
    · exact congrArg (Option.getD · 99) (parseInt_twoDigits hs)
  constructor
  · intro heq
    unfold decodeTime at heq
    split_ifs at heq with hutf8
    obtain ⟨⟨year, rest⟩, hyear, hrest⟩ := Option.bind_eq_some_iff.mp heq
    obtain ⟨ys, hys, rfl, hlen⟩ := decodeYear_eq_some_iff.mp hyear
    dsimp only at hrest
    split_ifs at hrest with hshape hrange
    obtain ⟨m, d, h, mi, s, hm, hd, hh, hmi, hs, rfl⟩ := exists_clockText hlen hshape.1 hshape.2
    obtain ⟨h0, h1, h2, h3, h4⟩ := hfields hm hd hh hmi hs
    rw [h0, h1, h2, h3, h4] at hrest hrange
    refine ⟨ys, year, m, d, h, mi, s, hys, ?_, rfl, (Option.some.inj hrest).symm⟩
    unfold InRange
    omega
  · rintro ⟨ys, year, m, d, h, mi, s, hys, hin, rfl, rfl⟩
    obtain ⟨hm, hd, hh, hmi, hs⟩ := hin.lt
    obtain ⟨hlast, hall, hlen⟩ := clockText_reads hm hd hh hmi hs
    obtain ⟨h0, h1, h2, h3, h4⟩ := hfields hm hd hh hmi hs
    have hascii : ∀ b ∈ ys ++ clockText m d h mi s, b.toNat < 0x80 := by
      intro b hb
      obtain hb | hb := List.mem_append.mp hb
      · exact hys.ascii b hb
      · have hsplit : clockText m d h mi s = (clockText m d h mi s).take 10 ++ [0x5a] := rfl
        rw [hsplit] at hb
        obtain hb | hb := List.mem_append.mp hb
        · exact ascii_of_isDigit hall b hb
        · rw [List.mem_singleton.mp hb]
          decide
    unfold decodeTime
    rw [if_pos (validateUTF8_of_ascii hascii), decodeYear_eq_some_iff.mpr ⟨ys, hys, rfl, hlen⟩]
    simp only [Option.bind_eq_bind, Option.bind_some, h0, h1, h2, h3, h4]
    rw [if_pos ⟨hlast, hall⟩, if_pos (by unfold InRange at hin; omega), civilSeconds]

theorem decodeTime_eq_some_of_encodes {c : CivilTime} (hc : Encodes tag text c) :
    decodeTime tag text = some c.seconds := by
  obtain ⟨ys, hys, rfl⟩ := hc
  have hday := c.day_le.trans (monthLength_le c.year c.month)
  refine decodeTime_eq_some_iff.mpr ⟨ys, c.year, c.month, c.day, c.hour, c.minute, c.second, hys.field,
    ⟨c.month_pos, c.month_le, c.day_pos, hday, c.hour_lt, c.minute_lt, c.second_lt⟩, rfl, ?_⟩
  rw [civilSeconds, daysFromCivil_eq c.year c.month_pos c.month_le c.day_pos, CivilTime.seconds]

/-- Read exactly when it is a time in DER, and then as that time's seconds. -/
def DecodesExactly (tag : UInt8) (text : List UInt8) : Prop :=
  ∀ t, decodeTime tag text = some t ↔ ∃ c, Encodes tag text c ∧ t = c.seconds

/-- Where the fields are in their ranges, the year has no sign and the day is one of its month. -/
def ProperDate (tag : UInt8) (text : List UInt8) : Prop :=
  ∀ ys year m d h mi s, YearField tag ys year → InRange m d h mi s → text = ys ++ clockText m d h mi s →
    ys.all isDigit = true ∧ d ≤ monthLength year.toNat m

theorem decodesExactly_iff : DecodesExactly tag text ↔ ProperDate tag text := by
  constructor
  · intro hexact ys year m d h mi s hys hin htext
    obtain ⟨c, ⟨ys', hys', htext'⟩, -⟩ :=
      (hexact _).mp (decodeTime_eq_some_iff.mpr ⟨ys, year, m, d, h, mi, s, hys, hin, htext, rfl⟩)
    obtain ⟨hyseq, hclock⟩ := List.append_inj (htext.symm.trans htext') (hys.length hys'.field)
    subst hyseq
    have hday := c.day_le.trans (monthLength_le c.year c.month)
    have hcin : InRange c.month c.day c.hour c.minute c.second :=
      ⟨c.month_pos, c.month_le, c.day_pos, hday, c.hour_lt, c.minute_lt, c.second_lt⟩
    obtain ⟨hm, hd, hh, hmi, hs⟩ := hin.lt
    obtain ⟨hm', hd', hh', hmi', hs'⟩ := hcin.lt
    obtain ⟨rfl, rfl, -⟩ := clockText_inj hm hd hh hmi hs hm' hd' hh' hmi' hs' hclock
    refine ⟨hys'.all, ?_⟩
    rw [hys.unique hys'.field, Int.toNat_natCast]
    exact c.day_le
  · intro hproper t
    constructor
    · intro ht
      obtain ⟨ys, year, m, d, h, mi, s, hys, hin, htext, rfl⟩ := decodeTime_eq_some_iff.mp ht
      obtain ⟨hall, hday⟩ := hproper ys year m d h mi s hys hin htext
      obtain ⟨y, rfl, hdigits⟩ := hys.digits hall
      rw [Int.toNat_natCast] at hday
      obtain ⟨hm, hm12, hd, -, hh, hmi, hs⟩ := hin
      refine ⟨⟨y, m, d, h, mi, s, hm, hm12, hd, hday, hh, hmi, hs⟩, ⟨ys, hdigits, htext⟩, ?_⟩
      rw [civilSeconds, daysFromCivil_eq y hm hm12 hd, CivilTime.seconds]
    · rintro ⟨c, hc, ht⟩
      rw [ht]
      exact decodeTime_eq_some_of_encodes hc

/-- Exactly the texts whose year has no sign and whose day is one of its month are judged as calendar times, and of
two times the earlier one has the smaller number. -/
theorem calendar_times (tag : UInt8) (text : List UInt8) :
    (DecodesExactly tag text ↔ ProperDate tag text) ∧
    ∀ tag' text' c c', Encodes tag text c → Encodes tag' text' c' → c.Before c' →
      ∃ t t', decodeTime tag text = some t ∧ decodeTime tag' text' = some t' ∧ t < t' :=
  ⟨decodesExactly_iff, fun _ _ _ _ hc hc' hlt =>
    ⟨_, _, decodeTime_eq_some_of_encodes hc, decodeTime_eq_some_of_encodes hc', CivilTime.seconds_lt hlt⟩⟩

/-- The 31st of February 2025, as a `UTCTime`. -/
theorem february_31_read : ¬DecodesExactly 0x17 (twoDigits 25 ++ clockText 2 31 0 0 0) := by
  rw [decodesExactly_iff]
  intro hproper
  have hyear : YearField 0x17 (twoDigits 25) 2025 :=
    .inl ⟨rfl, rfl, 25, parseInt_twoDigits (by decide), by norm_num⟩
  have hday := (hproper _ _ 2 31 0 0 0 hyear (by unfold InRange; omega) rfl).2
  exact absurd hday (by simp [monthLength, IsLeap])

end Decoding

end Chatlink.Net
