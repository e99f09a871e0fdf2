import Mathlib.Tactic.IntervalCases
import IscsiS3.Calls
import IscsiS3.Lib.Radix
import IscsiS3.Lib.Utf8

/-! Hexadecimal names: the sixteen digits of a chunk index, and how the source reads such a name
back, cutting it at byte offsets where it has two levels of directories. -/

namespace IscsiS3

def hexDigit (n : Nat) : Char := ("0123456789abcdef".toList)[n]?.getD '0'

def hexValue (c : Char) : Option Nat :=
  if '0' ≤ c ∧ c ≤ '9' then some (c.toNat - '0'.toNat)
  else if 'a' ≤ c ∧ c ≤ 'f' then some (c.toNat - 'a'.toNat + 10)
  else if 'A' ≤ c ∧ c ≤ 'F' then some (c.toNat - 'A'.toNat + 10)
  else none

def hex (width n : Nat) : Str := (Radix.encode 16 width n).map hexDigit

def hexDigits (s : Str) : Option (List Nat) := s.mapM hexValue

def unsigned : Str → Str
  | '+' :: rest => rest
  | s => s

/-- `from_str_radix(s, 16)` for an unsigned type with `size` values: a sign is allowed in front of
the digits. -/
def fromStrRadix (size : Nat) (s : Str) : Option Nat :=
  if unsigned s = [] then none
  else match hexDigits (unsigned s) with
    | none => none
    | some ds => if Radix.decode 16 ds < size then some (Radix.decode 16 ds) else none

variable {s : Str} {size n : Nat} {c : Char}

theorem fromStrRadix_eq_some (h : fromStrRadix size s = some n) :
    n < size ∧ ∃ ds, hexDigits (unsigned s) = some ds ∧ n = Radix.decode 16 ds := by
  unfold fromStrRadix at h
  split at h
  · cases h
  · split at h
    · cases h
    · rename_i ds hds
      obtain ⟨hlt, heq⟩ := Option.ite_none_right_eq_some.mp h
      cases heq
      exact ⟨hlt, ds, hds, rfl⟩

theorem unsigned_eq (s : Str) : unsigned s = s ∨ s = '+' :: unsigned s := by
  unfold unsigned
  split
  · exact .inr rfl
  · exact .inl rfl

theorem fromStrRadix_lt (h : fromStrRadix size s = some n) : n < size :=
  (fromStrRadix_eq_some h).1

theorem hexValue_hexDigit {n : Nat} (h : n < 16) : hexValue (hexDigit n) = some n := by
  interval_cases n <;> decide

theorem hexDigit_ne_plus {n : Nat} (h : n < 16) : hexDigit n ≠ '+' := by
  interval_cases n <;> decide

@[simp] theorem length_hex (width n : Nat) : (hex width n).length = width := by simp [hex]

theorem hexDigits_hex (width n : Nat) :
    hexDigits (hex width n) = some (Radix.encode 16 width n) := by
  have h : ∀ ds : List Nat, (∀ d ∈ ds, d < 16) → hexDigits (ds.map hexDigit) = some ds := by
    intro ds
    induction ds with
    | nil => intro _; rfl
    | cons d ds ih =>
      intro hd
      have hds := ih fun x hx => hd x (by simp [hx])
      unfold hexDigits at hds ⊢
      rw [List.map_cons, List.mapM_cons, hexValue_hexDigit (hd d (by simp)), hds]
      rfl
  exact h _ (Radix.encode_lt (by decide) width n)

theorem fromStrRadix_hex {size width n : Nat} (hw : 0 < width) (hn : n < 16 ^ width)
    (hs : n < size) : fromStrRadix size (hex width n) = some n := by
  have hunsigned : unsigned (hex width n) = hex width n := by
    refine (unsigned_eq _).resolve_right fun heq => ?_
    obtain ⟨d, hd, hc⟩ := List.mem_map.mp (heq ▸ List.mem_cons_self : '+' ∈ hex width n)
    exact hexDigit_ne_plus (Radix.encode_lt (by decide) width n d hd) hc
  have hnil : hex width n ≠ [] := by
    intro heq
    have := length_hex width n
    rw [heq] at this
    simp at this
    omega
  unfold fromStrRadix
  rw [hunsigned]
  simp only [if_neg hnil, hexDigits_hex, Radix.decode_encode (by decide : 0 < 16) hn, if_pos hs]

theorem hex_injective {width m n : Nat} (hm : m < 16 ^ width) (hn : n < 16 ^ width)
    (h : hex width m = hex width n) : m = n := by
  have hm' := hexDigits_hex width m
  rw [h, hexDigits_hex] at hm'
  exact Radix.encode_injective (by decide) hm hn (Option.some.inj hm').symm

theorem mem_hex {width n : Nat} (h : c ∈ hex width n) :
    c ∈ "0123456789abcdef".toList := by
  obtain ⟨d, hd, rfl⟩ := List.mem_map.mp h
  have hlt := Radix.encode_lt (by decide : 0 < 16) width n d hd
  interval_cases d <;> decide

def lower (s : Str) : Str := s.map Char.toLower

theorem hexValue_eq_some {v : Nat} (h : hexValue c = some v) :
    v < 16 ∧ hexDigit v = c.toLower ∧ Utf8.IsAscii c ∧ c ≠ '+' := by
  have small : ∀ n : Fin 128, ∀ w ∈ hexValue (Char.ofNat n), w < 16 ∧
      hexDigit w = (Char.ofNat n).toLower ∧ Char.ofNat n ≠ '+' := by
    decide +kernel
  have hn : c.toNat < 128 := by
    unfold hexValue at h
    simp only [Char.le_def, UInt32.le_iff_toNat_le] at h
    have h9 : '9'.val.toNat = 57 := rfl
    have hf : 'f'.val.toNat = 102 := rfl
    have hF : 'F'.val.toNat = 70 := rfl
    have hc : c.toNat = c.val.toNat := rfl
    split at h
    · omega
    · split at h
      · omega
      · split at h
        · omega
        · cases h
  have hc := small ⟨c.toNat, hn⟩ v (by simpa [Char.ofNat_toNat] using h)
  rw [Char.ofNat_toNat] at hc
  exact ⟨hc.1, hc.2.1, Utf8.isAscii_iff.mpr (by omega), hc.2.2⟩

theorem hexDigits_eq_some {ds : List Nat} (h : hexDigits s = some ds) :
    (∀ d ∈ ds, d < 16) ∧ ds.map hexDigit = lower s ∧ ∀ c ∈ s, Utf8.IsAscii c ∧ c ≠ '+' := by
  induction s generalizing ds with
  | nil =>
    cases h
    exact ⟨nofun, rfl, nofun⟩
  | cons c s ih =>
    unfold hexDigits at h
    rw [List.mapM_cons] at h
    obtain ⟨v, hv, h⟩ := Option.bind_eq_some_iff.mp h
    obtain ⟨rest, hrest, h⟩ := Option.bind_eq_some_iff.mp h
    cases h
    obtain ⟨hlt, hdigit, hc⟩ := hexValue_eq_some hv
    obtain ⟨hds, hlower, hs⟩ := ih hrest
    refine ⟨?_, ?_, ?_⟩
    · exact List.forall_mem_cons.mpr ⟨hlt, hds⟩
    · rw [List.map_cons, hlower, hdigit]
      rfl
    · exact List.forall_mem_cons.mpr ⟨hc, hs⟩

theorem ascii_of_fromStrRadix (h : fromStrRadix size s = some n) :
    ∀ c ∈ s, Utf8.IsAscii c := by
  obtain ⟨-, ds, hds, -⟩ := fromStrRadix_eq_some h
  obtain ⟨-, -, hs⟩ := hexDigits_eq_some hds
  intro c hc
  rcases unsigned_eq s with heq | heq
  · exact (hs c (heq.symm ▸ hc)).1
  · have hmem : c ∈ '+' :: unsigned s := heq ▸ hc
    rcases List.mem_cons.mp hmem with rfl | hc
    · exact Utf8.isAscii_iff.mpr (by decide)
    · exact (hs c hc).1

/-- A name that is read without a sign is, in small letters, the name of the number. -/
theorem lower_of_fromStrRadix (h : fromStrRadix size s = some n) (hplus : '+' ∉ s) :
    lower s = hex s.length n := by
  obtain ⟨-, ds, hds, rfl⟩ := fromStrRadix_eq_some h
  obtain ⟨hlt, hlower, -⟩ := hexDigits_eq_some hds
  have hs : unsigned s = s := (unsigned_eq s).resolve_right fun heq =>
    hplus (heq ▸ List.mem_cons_self)
  rw [hs] at hlower
  have hlen : s.length = ds.length := by
    rw [← List.length_map (f := hexDigit), hlower, lower, List.length_map]
  rw [hex, hlen, Radix.encode_decode hlt, hlower]

theorem plus_notMem_hex (width n : Nat) : '+' ∉ hex width n := fun h =>
  absurd (mem_hex h) (by decide)

theorem plus_mem_lower (h : '+' ∈ s) : '+' ∈ lower s :=
  List.mem_map.mpr ⟨'+', h, by decide⟩

/-- `&s[start..stop]`: a range that ends inside a character is a panic. -/
def byteSlice (start stop : Nat) (s : Str) : Outcome Str :=
  match Utf8.slice start stop s with
  | some part => .ok part
  | none => .panic

/-- Two bytes, a slash, two bytes, a slash, and the rest. -/
structure TwoLevels (rel a b rest : Str) : Prop where
  parts : rel = a ++ '/' :: (b ++ '/' :: rest)
  first : (Utf8.encode a).length = 2
  second : (Utf8.encode b).length = 2

def HasSlashes (rel : Str) : Prop :=
  (Utf8.encode rel)[2]? = some '/'.toUInt8 ∧ (Utf8.encode rel)[5]? = some '/'.toUInt8

instance (rel : Str) : Decidable (HasSlashes rel) := inferInstanceAs (Decidable (_ ∧ _))

theorem isAscii_slash : Utf8.IsAscii '/' := Utf8.isAscii_iff.mpr (by decide)

variable {rel a b rest : Str}

theorem TwoLevels.length (h : TwoLevels rel a b rest) :
    (Utf8.encode rel).length = (Utf8.encode (a ++ b ++ rest)).length + 2 := by
  have hslash : '/'.utf8Size = 1 := isAscii_slash
  rw [h.parts]
  simp only [Utf8.length_encode_append, Utf8.length_encode_cons, hslash]
  omega

theorem hasSlashes_iff {rel : Str} : HasSlashes rel ↔ ∃ a b rest, TwoLevels rel a b rest := by
  unfold HasSlashes
  have hslash : '/'.utf8Size = 1 := isAscii_slash
  constructor
  · rintro ⟨h2, h5⟩
    obtain ⟨a, tail, rfl, ha⟩ := (Utf8.getElem_encode_eq isAscii_slash).mp h2
    rw [Utf8.encode_append, Utf8.encode_cons, List.getElem?_append_right (by omega),
      List.getElem?_append_right (by rw [String.length_utf8EncodeChar]; omega),
      String.length_utf8EncodeChar, ha, hslash] at h5
    obtain ⟨b, rest, rfl, hb⟩ := (Utf8.getElem_encode_eq isAscii_slash).mp h5
    exact ⟨a, b, rest, rfl, ha, hb⟩
  · rintro ⟨a, b, rest, rfl, ha, hb⟩
    refine ⟨(Utf8.getElem_encode_eq isAscii_slash).mpr ⟨a, _, rfl, ha⟩,
      (Utf8.getElem_encode_eq isAscii_slash).mpr ⟨a ++ '/' :: b, rest, by simp, ?_⟩⟩
    rw [Utf8.length_encode_append, Utf8.length_encode_cons, ha, hb, hslash]

section

variable (h : TwoLevels rel a b rest)

include h

theorem TwoLevels.byteSlice_first :
    byteSlice 0 2 rel = .ok a := by
  have hslice : Utf8.slice 0 2 rel = some a :=
    Utf8.slice_eq_some.mpr ⟨[], _, by rw [h.parts]; rfl, rfl, h.first⟩
  rw [byteSlice, hslice]

theorem TwoLevels.byteSlice_second :
    byteSlice 3 5 rel = .ok b := by
  have hslash : '/'.utf8Size = 1 := isAscii_slash
  have hslice : Utf8.slice 3 5 rel = some b := by
    refine Utf8.slice_eq_some.mpr ⟨a ++ ['/'], '/' :: rest, by simp [h.parts], ?_, h.second⟩
    rw [Utf8.length_encode_append, Utf8.length_encode_cons, h.first, hslash]
    rfl
  rw [byteSlice, hslice]

theorem TwoLevels.byteSlice_rest :
    byteSlice 6 (Utf8.encode rel).length rel = .ok rest := by
  have hslash : '/'.utf8Size = 1 := isAscii_slash
  have hslice : Utf8.slice 6 (Utf8.encode rel).length rel = some rest := by
    refine Utf8.slice_eq_some.mpr ⟨a ++ '/' :: b ++ ['/'], [], by simp [h.parts], ?_, ?_⟩
    · simp only [Utf8.length_encode_append, Utf8.length_encode_cons, h.first, h.second, hslash]
      rfl
    · have hlen := h.length
      have ha := h.first
      have hb := h.second
      rw [Utf8.length_encode_append, Utf8.length_encode_append] at hlen
      omega
  rw [byteSlice, hslice]

end

end IscsiS3
